import KernelIR.Proofs.Number.Decimal
import Mathlib.Data.List.Forall2
import Mathlib.Data.Nat.Digits.Defs
import Mathlib.Tactic.Push
import Mathlib.Tactic.Ring

namespace KernelIR.Number

/-- Whether a character is a digit of value `d`. Letters count from ten on, in either case. -/
def Digit (base : Nat) (c : Char) (d : Nat) : Prop :=
  d < base ∧ ("0123456789abcdef".toList[d]? = some c ∨ "0123456789ABCDEF".toList[d]? = some c)

/-- The digits of a text in the order in which they stand there. One underscore may stand between
two of them. -/
inductive Digits (base : Nat) : List Char → List Nat → Prop where
  | last {c : Char} {d : Nat} (first : Digit base c d) : Digits base [c] [d]
  | next {c : Char} {d : Nat} {cs : List Char} {ds : List Nat} (first : Digit base c d)
      (rest : Digits base cs ds) : Digits base (c :: cs) (d :: ds)
  | parted {c : Char} {d : Nat} {cs : List Char} {ds : List Nat} (first : Digit base c d)
      (rest : Digits base cs ds) : Digits base (c :: '_' :: cs) (d :: ds)

/-- The digits after a mark of their base, from which an underscore may part them. -/
inductive MarkedDigits (base : Nat) : List Char → List Nat → Prop where
  | next {cs : List Char} {ds : List Nat} (digits : Digits base cs ds) : MarkedDigits base cs ds
  | parted {cs : List Char} {ds : List Nat} (digits : Digits base cs ds) :
      MarkedDigits base ('_' :: cs) ds

/-- The letters that tell the base of a literal after its leading zero. -/
def baseMarks : List (Char × Nat) :=
  [('b', 2), ('B', 2), ('o', 8), ('O', 8), ('x', 16), ('X', 16)]

/-- The number that a literal without a sign names: in the base of its mark, octal after a leading
zero, decimal otherwise. -/
inductive NamesNat : List Char → Nat → Prop where
  | decimal {c : Char} {cs : List Char} {ds : List Nat} (hc : c ≠ '0')
      (digits : Digits 10 (c :: cs) ds) : NamesNat (c :: cs) (Nat.ofDigits 10 ds.reverse)
  | octal {cs : List Char} {ds : List Nat} (digits : Digits 8 ('0' :: cs) ds) :
      NamesNat ('0' :: cs) (Nat.ofDigits 8 ds.reverse)
  | marked {p : Char} {base : Nat} {cs : List Char} {ds : List Nat} (hp : (p, base) ∈ baseMarks)
      (digits : MarkedDigits base cs ds) :
      NamesNat ('0' :: p :: cs) (Nat.ofDigits base ds.reverse)

/-- A sign and what follows it; without a sign a literal is positive. -/
inductive Signed : List Char → Bool → List Char → Prop where
  | minus (cs : List Char) : Signed ('-' :: cs) true cs
  | plus (cs : List Char) : Signed ('+' :: cs) false cs
  | unsigned (cs : List Char) : Signed cs false cs

/-- The integer of 64 bits that a literal names. -/
def NamesInteger (text : List Char) (n : Int) : Prop :=
  ∃ negative body k, Signed text negative body ∧ NamesNat body k ∧
    n = (if negative then -(k : Int) else k) ∧ -2 ^ 63 ≤ n ∧ n < 2 ^ 63

section Characters

variable {base d : Nat} {c : Char}

theorem Digit.mem (h : Digit base c d) :
    c ∈ "0123456789abcdef".toList ++ "0123456789ABCDEF".toList := by
  rcases h.2 with hc | hc
  · exact List.mem_append_left _ (List.mem_of_getElem? hc)
  · exact List.mem_append_right _ (List.mem_of_getElem? hc)

theorem Digit.toNat_lt (h : Digit base c d) : c.toNat < 128 := by
  have hall : ∀ c ∈ "0123456789abcdef".toList ++ "0123456789ABCDEF".toList, c.toNat < 128 := by
    simp
  exact hall c h.mem

/-- Beyond ASCII there are no digits, letters or capitals. -/
theorem plain_of_le (h : 128 ≤ c.toNat) :
    c.isDigit = false ∧ c.isAlpha = false ∧ c.toLower = c := by
  have habove : ∀ x : Char, x.toNat < 128 → ¬c.val ≤ x.val := by
    intro x hx hle
    have hnat : c.toNat ≤ x.toNat := UInt32.le_iff_toNat_le.mp hle
    omega
  have hdigit : c.isDigit = false :=
    Bool.and_eq_false_iff.mpr (.inr (decide_eq_false (habove '9' (by decide))))
  have hupper : c.isUpper = false := decide_eq_false fun h => habove 'Z' (by decide) h.2
  have hlower : c.isLower = false :=
    Bool.and_eq_false_iff.mpr (.inr (decide_eq_false (habove 'z' (by decide))))
  exact ⟨hdigit, Bool.or_eq_false_iff.mpr ⟨hupper, hlower⟩,
    dif_neg fun h => habove 'Z' (by decide) h.2⟩

theorem forall_char {P : Char → Prop} (hascii : ∀ n < 128, P (Char.ofNat n))
    (hother : ∀ c : Char, 128 ≤ c.toNat → P c) (c : Char) : P c := by
  by_cases hc : c.toNat < 128
  · have hp := hascii c.toNat hc
    rwa [Char.ofNat_toNat] at hp
  · exact hother c (not_lt.mp hc)

instance (base : Nat) (c : Char) (d : Nat) : Decidable (Digit base c d) :=
  inferInstanceAs (Decidable (_ ∧ _))

theorem digitValue?_iff (hbase : base ≤ 16) : digitValue? c = some d ∧ d < base ↔
    Digit base c d := by
  have hall : ∀ c, ∀ d < 16, digitValue? c = some d ↔ Digit 16 c d := by
    apply forall_char
    · decide +kernel
    · intro c hc d _
      obtain ⟨hdigit, halpha, -⟩ := plain_of_le hc
      refine iff_of_false ?_ fun h => absurd h.toNat_lt (not_lt.mpr hc)
      simp [digitValue?, hdigit, halpha]
  constructor
  · rintro ⟨hvalue, hd⟩
    exact ⟨hd, ((hall c d (by omega)).mp hvalue).2⟩
  · rintro ⟨hd, hc⟩
    exact ⟨(hall c d (by omega)).mpr ⟨by omega, hc⟩, hd⟩

theorem isDigit_iff : c.isDigit = true ↔ ∃ d < 10, Digit 10 c d := by
  refine forall_char (P := fun c => c.isDigit = true ↔ ∃ d < 10, Digit 10 c d) ?_ (fun c hc => ?_) c
  · decide +kernel
  · rw [(plain_of_le hc).1]
    exact iff_of_false Bool.false_ne_true fun ⟨_, _, h⟩ => absurd h.toNat_lt (not_lt.mpr hc)

theorem isHexDigit_iff : isHexDigit c = true ↔ ∃ d < 16, Digit 16 c d := by
  refine forall_char (P := fun c => isHexDigit c = true ↔ ∃ d < 16, Digit 16 c d) ?_
    (fun c hc => ?_) c
  · decide +kernel
  · obtain ⟨hdigit, -, hlower⟩ := plain_of_le hc
    have hf : ¬c ≤ 'f' := fun hle => by
      have hnat : c.toNat ≤ 'f'.toNat := UInt32.le_iff_toNat_le.mp hle
      have hbound : 'f'.toNat = 102 := rfl
      omega
    refine iff_of_false ?_ fun ⟨_, _, h⟩ => absurd h.toNat_lt (not_lt.mpr hc)
    simp [isHexDigit, hdigit, hlower, hf]

theorem Digit.isDigit (h : Digit 10 c d) : c.isDigit = true := isDigit_iff.mpr ⟨d, h.1, h⟩

theorem Digit.isHexDigit (h : Digit 16 c d) : isHexDigit c = true := isHexDigit_iff.mpr ⟨d, h.1, h⟩

theorem toLower_eq_iff {l : Char} (hl : l.isLower = true) :
    c.toLower = l ↔ c = l ∨ c = l.toUpper := by
  have hascii : ∀ k < 128, (Char.ofNat k).isLower = true → (Char.ofNat k).toUpper.toNat < 128 ∧
      ∀ n < 128, (Char.ofNat n).toLower = Char.ofNat k ↔
        Char.ofNat n = Char.ofNat k ∨ Char.ofNat n = (Char.ofNat k).toUpper := by
    decide +kernel
  have hsmall : l.toNat < 128 := by
    by_contra hlarge
    have hlower : l.isLower = false :=
      (Bool.or_eq_false_iff.mp (plain_of_le (not_lt.mp hlarge)).2.1).2
    exact Bool.false_ne_true (hlower.symm.trans hl)
  have hof := hascii l.toNat hsmall
  rw [Char.ofNat_toNat] at hof
  obtain ⟨hupper, hiff⟩ := hof hl
  refine forall_char (P := fun c => c.toLower = l ↔ c = l ∨ c = l.toUpper) hiff (fun c hc => ?_) c
  rw [(plain_of_le hc).2.2]
  refine iff_of_false ?_ ?_
  · rintro rfl
    omega
  · rintro (rfl | rfl)
    · omega
    · omega

end Characters

theorem Digit.ne_underscore {base d : Nat} {c : Char} (h : Digit base c d) : c ≠ '_' := by
  rintro rfl
  simpa using h.mem

/-- The digits of a text one after the other are those of the number. -/
theorem readDigits_iff {base : Nat} (hbase : base ≤ 16) {cs : List Char} {n k : Nat} :
    readDigits base n cs = some k ↔
      ∃ ds, List.Forall₂ (Digit base) cs ds ∧
        k = n * base ^ ds.length + Nat.ofDigits base ds.reverse := by
  induction cs generalizing n with
  | nil => simp [readDigits, eq_comm]
  | cons c cs ih =>
    have hstep :
        ∀ d (ds : List Nat), (n * base + d) * base ^ ds.length + Nat.ofDigits base ds.reverse =
        n * base ^ (d :: ds).length + Nat.ofDigits base (d :: ds).reverse := by
      intro d ds
      rw [List.reverse_cons, Nat.ofDigits_append, Nat.ofDigits_singleton, List.length_reverse,
        List.length_cons, pow_succ]
      ring
    have hread : readDigits base n (c :: cs) = some k ↔
        ∃ d, Digit base c d ∧ readDigits base (n * base + d) cs = some k := by
      simp only [readDigits, ← digitValue?_iff hbase]
      cases hd : digitValue? c with
      | none => simp
      | some d => simp [and_assoc]
    rw [hread]
    constructor
    · rintro ⟨d, hd, hrest⟩
      obtain ⟨ds, hds, rfl⟩ := ih.mp hrest
      exact ⟨d :: ds, .cons hd hds, hstep d ds⟩
    · rintro ⟨_, hds, rfl⟩
      cases hds with
      | @cons _ d _ ds hd hds => exact ⟨d, hd, ih.mpr ⟨ds, hds, (hstep d ds).symm⟩⟩

/-- The digits that are left of a text without its underscores, each of which stands between two
of them. An underscore may come first if `after` tells that a digit came just before. -/
def Separated (isDigit : Char → Bool) (base : Nat) (after : Bool) (cs : List Char)
    (ds : List Nat) : Prop :=
  separatorsOk isDigit after cs = true ∧ List.Forall₂ (Digit base) (cs.filter (· ≠ '_')) ds

section Separators

variable {base : Nat} {isDigit : Char → Bool} {cs : List Char} {ds : List Nat}

theorem separatorsOk_of_head {after : Bool} (h : cs.head? ≠ some '_') :
    separatorsOk isDigit after cs = separatorsOk isDigit false cs := by
  cases cs with
  | nil => rfl
  | cons c cs =>
    have hc : c ≠ '_' := fun he => h (by rw [he]; rfl)
    rw [separatorsOk, separatorsOk, if_neg hc, if_neg hc]

theorem filter_digit {c : Char} (hc : c ≠ '_') (cs : List Char) :
    (c :: cs).filter (· ≠ '_') = c :: cs.filter (· ≠ '_') :=
  List.filter_cons_of_pos (by simpa using hc)

theorem filter_underscore (cs : List Char) :
    ('_' :: cs).filter (· ≠ '_') = cs.filter (· ≠ '_') := List.filter_cons_of_neg (by simp)

theorem Digits.head (h : Digits base cs ds) : ∃ c d rest, cs = c :: rest ∧ Digit base c d := by
  cases h with
  | last first => exact ⟨_, _, _, rfl, first⟩
  | next first => exact ⟨_, _, _, rfl, first⟩
  | parted first => exact ⟨_, _, _, rfl, first⟩

variable (hdigit : ∀ c d, Digit base c d → isDigit c = true)

include hdigit

theorem Digits.separated (h : Digits base cs ds) (after : Bool) :
    Separated isDigit base after cs ds := by
  induction h generalizing after with
  | @last c d first =>
    refine ⟨?_, ?_⟩
    · rw [separatorsOk, if_neg first.ne_underscore, separatorsOk]
    · rw [filter_digit first.ne_underscore]
      exact .cons first .nil
  | @next c d cs ds first rest ih =>
    refine ⟨?_, ?_⟩
    · rw [separatorsOk, if_neg first.ne_underscore]
      exact (ih _).1
    · rw [filter_digit first.ne_underscore]
      exact .cons first (ih false).2
  | @parted c d cs ds first rest ih =>
    obtain ⟨x, e, tail, rfl, hx⟩ := rest.head
    refine ⟨?_, ?_⟩
    · rw [separatorsOk, if_neg first.ne_underscore, hdigit c d first, separatorsOk, if_pos rfl]
      simp [hdigit x e hx, (ih false).1]
    · rw [filter_digit first.ne_underscore, filter_underscore]
      exact .cons first (ih false).2

theorem Separated.digits (h : Separated isDigit base false cs ds) (hcs : cs ≠ []) :
    Digits base cs ds := by
  obtain ⟨hok, hds⟩ := h
  induction ds generalizing cs with
  | nil =>
    -- the first character would be an underscore
    cases cs with
    | nil => exact absurd rfl hcs
    | cons c cs =>
      have hc : c = '_' := by
        by_contra hne
        rw [filter_digit hne] at hds
        cases hds
      simp [separatorsOk, hc] at hok
  | cons d ds ih =>
    cases cs with
    | nil => exact absurd rfl hcs
    | cons c cs =>
      have hc : c ≠ '_' := by
        rintro rfl
        simp [separatorsOk] at hok
      rw [filter_digit hc, List.forall₂_cons] at hds
      obtain ⟨hd, hds⟩ := hds
      rw [separatorsOk, if_neg hc, hdigit c d hd] at hok
      cases cs with
      | nil =>
        cases hds
        exact .last hd
      | cons x rest =>
        by_cases hx : x = '_'
        · subst hx
          rw [separatorsOk, if_pos rfl, Bool.true_and, Bool.and_eq_true] at hok
          have hrest : rest ≠ [] := by
            rintro rfl
            simp at hok
          rw [filter_underscore] at hds
          exact .parted hd (ih hrest hok.2 hds)
        · have hhead : (x :: rest).head? ≠ some '_' := fun he => hx (Option.some.inj he)
          rw [separatorsOk_of_head hhead] at hok
          exact .next hd (ih (List.cons_ne_nil _ _) hok hds)

theorem MarkedDigits.separated (h : MarkedDigits base cs ds) :
    Separated isDigit base true cs ds := by
  cases h with
  | next digits => exact digits.separated hdigit true
  | parted digits =>
    obtain ⟨hok, hds⟩ := digits.separated hdigit false
    obtain ⟨x, e, tail, rfl, hx⟩ := digits.head
    refine ⟨?_, ?_⟩
    · rw [separatorsOk, if_pos rfl, hok]
      simp [hdigit x e hx]
    · rw [filter_underscore]
      exact hds

theorem Separated.markedDigits (h : Separated isDigit base true cs ds) (hcs : cs ≠ []) :
    MarkedDigits base cs ds := by
  obtain ⟨hok, hds⟩ := h
  cases cs with
  | nil => exact absurd rfl hcs
  | cons x rest =>
    by_cases hx : x = '_'
    · subst hx
      rw [separatorsOk, if_pos rfl, Bool.true_and, Bool.and_eq_true] at hok
      have hrest : rest ≠ [] := by
        rintro rfl
        simp at hok
      rw [filter_underscore] at hds
      exact .parted (Separated.digits hdigit ⟨hok.2, hds⟩ hrest)
    · have hhead : (x :: rest).head? ≠ some '_' := fun he => hx (Option.some.inj he)
      rw [separatorsOk_of_head hhead] at hok
      exact .next (Separated.digits hdigit ⟨hok, hds⟩ hcs)

end Separators

theorem isDigit_of_digit {base : Nat} (hbase : base ≤ 10 ∨ base = 16) (c : Char) (d : Nat)
    (h : Digit base c d) : (if base = 16 then isHexDigit else Char.isDigit) c = true := by
  rcases hbase with hbase | rfl
  · rw [if_neg (by omega)]
    exact Digit.isDigit ⟨h.1.trans_le hbase, h.2⟩
  · exact h.isHexDigit

section Magnitude

variable {cs digits : List Char} {base n : Nat}

theorem radix_marked {p : Char} (hp : (p, base) ∈ baseMarks) (d : Char) (cs : List Char) :
    radix ('0' :: p :: d :: cs) = (base, true, d :: cs) := by
  simp only [baseMarks, List.mem_cons, Prod.mk.injEq, List.not_mem_nil, or_false] at hp
  rcases hp with ⟨rfl, rfl⟩ | ⟨rfl, rfl⟩ | ⟨rfl, rfl⟩ | ⟨rfl, rfl⟩ | ⟨rfl, rfl⟩ | ⟨rfl, rfl⟩
  all_goals rfl

theorem radix_unmarked (h : ∀ p d tail base, cs = p :: d :: tail → (p, base) ∉ baseMarks) :
    radix ('0' :: cs) = (8, false, '0' :: cs) := by
  match cs with
  | [] => rfl
  | [p] => rfl
  | p :: d :: tail =>
    have hne : ∀ l base, l.isLower = true → (l, base) ∈ baseMarks → (l.toUpper, base) ∈ baseMarks →
        p.toLower ≠ l := by
      intro l base hlower hl hu hp
      rcases (toLower_eq_iff hlower).mp hp with rfl | rfl
      · exact h _ _ _ base rfl hl
      · exact h _ _ _ base rfl hu
    have hb := hne 'b' 2 (by decide) (by decide) (by decide)
    have ho := hne 'o' 8 (by decide) (by decide) (by decide)
    have hx := hne 'x' 16 (by decide) (by decide) (by decide)
    simp only [radix]

/-- What an unsigned literal is read as, once its base and its digits are told apart. -/
theorem readMagnitude_of_radix {marked : Bool} (hradix : radix cs = (base, marked, digits))
    (hcs : cs ≠ []) : readMagnitude cs = some n ↔
      separatorsOk (if base = 16 then isHexDigit else Char.isDigit) marked digits = true ∧
        readDigits base 0 (digits.filter (· ≠ '_')) = some n := by
  rw [readMagnitude, List.isEmpty_eq_false_iff.mpr hcs, hradix]
  simp only [Bool.false_eq_true, if_false, Option.ite_none_right_eq_some]

theorem readMagnitude_of_unmarked (hbase : base ≤ 10) (hradix : radix cs = (base, false, cs))
    (hcs : cs ≠ []) : readMagnitude cs = some n ↔
      ∃ ds, Digits base cs ds ∧ n = Nat.ofDigits base ds.reverse := by
  have hdigit := isDigit_of_digit (Or.inl hbase)
  rw [readMagnitude_of_radix hradix hcs, readDigits_iff (by omega)]
  simp only [zero_mul, zero_add]
  constructor
  · rintro ⟨hok, ds, hds, rfl⟩
    exact ⟨ds, Separated.digits hdigit ⟨hok, hds⟩ hcs, rfl⟩
  · rintro ⟨ds, hdigits, rfl⟩
    obtain ⟨hok, hds⟩ := hdigits.separated hdigit false
    exact ⟨hok, ds, hds, rfl⟩

theorem readMagnitude_of_marked (hbase : base ≤ 10 ∨ base = 16)
    (hradix : radix cs = (base, true, digits)) (hcs : cs ≠ []) (hdigits : digits ≠ []) :
    readMagnitude cs = some n ↔
      ∃ ds, MarkedDigits base digits ds ∧ n = Nat.ofDigits base ds.reverse := by
  have hdigit := isDigit_of_digit hbase
  rw [readMagnitude_of_radix hradix hcs, readDigits_iff (by omega)]
  simp only [zero_mul, zero_add]
  constructor
  · rintro ⟨hok, ds, hds, rfl⟩
    exact ⟨ds, Separated.markedDigits hdigit ⟨hok, hds⟩ hdigits, rfl⟩
  · rintro ⟨ds, hmarked, rfl⟩
    obtain ⟨hok, hds⟩ := hmarked.separated hdigit
    exact ⟨hok, ds, hds, rfl⟩

theorem MarkedDigits.ne_nil {ds : List Nat} (h : MarkedDigits base cs ds) : cs ≠ [] := by
  rcases h with ⟨⟨⟩ | ⟨⟩ | ⟨⟩⟩ | ⟨-⟩ <;> exact List.cons_ne_nil _ _

/-- A mark of a base is neither an octal digit nor an underscore. -/
theorem not_digits_of_mark {p : Char} (hp : (p, base) ∈ baseMarks) (ds : List Nat) :
    ¬Digits 8 ('0' :: p :: cs) ds := by
  have hmark : ∀ x ∈ baseMarks, x.1 ≠ '_' ∧ digitValue? x.1 ∉ (List.range 8).map some := by decide
  have hdigit : ∀ d, ¬Digit 8 p d := fun d h =>
    (hmark _ hp).2 (((digitValue?_iff (by decide)).mpr h).1 ▸
      List.mem_map_of_mem (List.mem_range.mpr h.1))
  rintro (_ | ⟨_, (h | ⟨h, -⟩ | ⟨h, -⟩)⟩ | ⟨_, -⟩)
  · exact hdigit _ h
  · exact hdigit _ h
  · exact hdigit _ h
  · exact (hmark _ hp).1 rfl

theorem readMagnitude_iff : readMagnitude cs = some n ↔ NamesNat cs n := by
  rcases cs with _ | ⟨c, cs⟩
  · exact ⟨nofun, nofun⟩
  have hcs : c :: cs ≠ [] := List.cons_ne_nil c cs
  by_cases hc : c = '0'
  · subst hc
    by_cases hmark : ∃ p d tail base, cs = p :: d :: tail ∧ (p, base) ∈ baseMarks
    · obtain ⟨p, d, tail, base, rfl, hp⟩ := hmark
      have hbase : ∀ x ∈ baseMarks, x.2 ≤ 10 ∨ x.2 = 16 := by decide
      rw [readMagnitude_of_marked (hbase _ hp) (radix_marked hp d tail) hcs
        (List.cons_ne_nil d tail)]
      constructor
      · rintro ⟨ds, hds, rfl⟩
        exact .marked hp hds
      · rintro (⟨hc, -⟩ | hds | ⟨hp', hds⟩)
        · exact absurd rfl hc
        · exact absurd hds (not_digits_of_mark hp _)
        · have hone : ∀ x ∈ baseMarks, ∀ y ∈ baseMarks, x.1 = y.1 → x.2 = y.2 := by decide
          obtain rfl := hone _ hp _ hp' rfl
          exact ⟨_, hds, rfl⟩
    · push Not at hmark
      rw [readMagnitude_of_unmarked (by decide) (radix_unmarked hmark) hcs]
      constructor
      · rintro ⟨ds, hds, rfl⟩
        exact .octal hds
      · rintro (⟨hc, -⟩ | hds | ⟨hp, hds⟩)
        · exact absurd rfl hc
        · exact ⟨_, hds, rfl⟩
        · obtain ⟨d, tail, rfl⟩ := List.exists_cons_of_ne_nil hds.ne_nil
          exact absurd hp (hmark _ _ _ _ rfl)
  · have hradix : radix (c :: cs) = (10, false, c :: cs) := radix_of_head?_ne (by simpa using hc)
    rw [readMagnitude_of_unmarked (by decide) hradix hcs]
    constructor
    · rintro ⟨ds, hds, rfl⟩
      exact .decimal hc hds
    · rintro (⟨-, hds⟩ | hds | ⟨-, -⟩)
      · exact ⟨_, hds, rfl⟩
      · exact absurd rfl hc
      · exact absurd rfl hc

end Magnitude

section Signs

variable {P : Bool → List Char → Prop} {cs : List Char}

/-- What no text with a sign has holds of what follows the sign of a text. -/
theorem exists_signed_minus (h : ¬P false ('-' :: cs)) :
    (∃ negative body, Signed ('-' :: cs) negative body ∧ P negative body) ↔ P true cs := by
  constructor
  · rintro ⟨negative, body, ⟨⟩, hbody⟩
    · exact hbody
    · exact absurd hbody h
  · exact fun hcs => ⟨true, cs, .minus cs, hcs⟩

theorem exists_signed_plus (h : ¬P false ('+' :: cs)) :
    (∃ negative body, Signed ('+' :: cs) negative body ∧ P negative body) ↔ P false cs := by
  constructor
  · rintro ⟨negative, body, ⟨⟩, hbody⟩
    · exact hbody
    · exact absurd hbody h
  · exact fun hcs => ⟨false, cs, .plus cs, hcs⟩

theorem exists_signed_unsigned (hminus : ∀ tail, cs ≠ '-' :: tail)
    (hplus : ∀ tail, cs ≠ '+' :: tail) :
    (∃ negative body, Signed cs negative body ∧ P negative body) ↔ P false cs := by
  constructor
  · rintro ⟨negative, body, hsigned, hbody⟩
    cases hsigned with
    | minus => exact absurd rfl (hminus body)
    | plus => exact absurd rfl (hplus body)
    | unsigned => exact hbody
  · exact fun hcs => ⟨false, cs, .unsigned cs, hcs⟩

end Signs

theorem Digits.not_sign {base : Nat} {cs : List Char} {ds : List Nat} (h : Digits base cs ds) :
    cs.head? ≠ some '-' ∧ cs.head? ≠ some '+' := by
  obtain ⟨c, d, rest, rfl, hc⟩ := h.head
  rw [List.head?_cons, ne_eq, ne_eq, Option.some_inj, Option.some_inj]
  refine ⟨?_, ?_⟩
  · rintro rfl
    simpa using hc.mem
  · rintro rfl
    simpa using hc.mem

theorem NamesNat.not_sign {cs : List Char} {n : Nat} (h : NamesNat cs n) :
    cs.head? ≠ some '-' ∧ cs.head? ≠ some '+' := by
  cases h with
  | decimal hc digits => exact digits.not_sign
  | octal digits => exact digits.not_sign
  | marked hp digits => simp

theorem readInteger_iff {text : List Char} {n : Int} :
    readInteger text = some n ↔ NamesInteger text n := by
  have hpow : Nat.pow 2 63 = 2 ^ 63 := rfl
  have hunsigned : ∀ body, ((readMagnitude body).bind fun k =>
      if k < Nat.pow 2 63 then some (k : Int) else none) = some n ↔
        ∃ k, NamesNat body k ∧ n = (if false then -(k : Int) else k) ∧ -2 ^ 63 ≤ n ∧
          n < 2 ^ 63 := by
    intro body
    simp only [Option.bind_eq_some_iff, readMagnitude_iff, Option.ite_none_right_eq_some,
      Option.some_inj, hpow]
    refine exists_congr fun k => and_congr_right fun _ => ?_
    simp only [Bool.false_eq_true, if_false]
    omega
  simp only [NamesInteger, exists_and_left]
  unfold readInteger
  split
  · rw [exists_signed_minus]
    · simp only [Option.bind_eq_some_iff, readMagnitude_iff, Option.ite_none_right_eq_some,
        Option.some_inj, hpow]
      refine exists_congr fun k => and_congr_right fun _ => ?_
      simp only [if_true]
      omega
    · rintro ⟨k, hk, -⟩
      exact hk.not_sign.1 rfl
  · rw [exists_signed_plus]
    · exact hunsigned _
    · rintro ⟨k, hk, -⟩
      exact hk.not_sign.2 rfl
  · next hminus hplus =>
    rw [exists_signed_unsigned hminus hplus]
    exact hunsigned _

end KernelIR.Number
