namespace KernelIR.Text

/-- The characters with the Unicode property `White_Space`. -/
def isBlank (c : Char) : Bool :=
  let n := c.toNat
  (9 ≤ n && n ≤ 13) || n == 0x20 || n == 0x85 || n == 0xA0 || n == 0x1680 ||
    (0x2000 ≤ n && n ≤ 0x200A) || n == 0x2028 || n == 0x2029 || n == 0x202F ||
    n == 0x205F || n == 0x3000

/-- Drops the blanks at both ends. -/
def trim (cs : List Char) : List Char :=
  ((cs.dropWhile isBlank).reverse.dropWhile isBlank).reverse

theorem length_dropWhile_le {α : Type} (p : α → Bool) (xs : List α) :
    (xs.dropWhile p).length ≤ xs.length :=
  (List.dropWhile_suffix p).length_le

theorem length_trim_le (cs : List Char) : (trim cs).length ≤ cs.length := by
  have outer := length_dropWhile_le isBlank (cs.dropWhile isBlank).reverse
  have inner := length_dropWhile_le isBlank cs
  simp only [trim, List.length_reverse] at outer ⊢
  omega

/-- Splits a text around the last occurrence of a pattern. -/
def cutLast (pat : List Char) : List Char → Option (List Char × List Char)
  | [] => none
  | c :: cs =>
    match cutLast pat cs with
    | some (before, after) => some (c :: before, after)
    | none => if pat.isPrefixOf (c :: cs) then some ([], (c :: cs).drop pat.length) else none

theorem cutLast_eq_append {pat cs before after : List Char}
    (h : cutLast pat cs = some (before, after)) : cs = before ++ pat ++ after := by
  induction cs generalizing before after with
  | nil => simp [cutLast] at h
  | cons c cs ih =>
    simp only [cutLast] at h
    split at h
    · next b a hc =>
      cases h
      simp [ih hc]
    · split at h
      · next hp =>
        cases h
        obtain ⟨t, ht⟩ := List.isPrefixOf_iff_prefix.mp hp
        simp [← ht]
      · simp at h

end KernelIR.Text
