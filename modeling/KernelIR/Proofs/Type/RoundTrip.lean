import KernelIR.Proofs.Number.Decimal
import KernelIR.Type.Reader
import Mathlib.Data.List.Basic

namespace KernelIR

namespace Text

variable {c : Char} {cs pat before after : List Char}

/-- A text without blanks at its ends is not trimmed. -/
theorem trim_eq_self (hhead : ∀ c ∈ cs.head?, isBlank c = false)
    (hlast : ∀ c ∈ cs.getLast?, isBlank c = false) :
    trim cs = cs := by
  have hfront : cs.dropWhile isBlank = cs := by
    cases cs with
    | nil => rfl
    | cons c cs => simp [hhead c rfl]
  have hback : cs.reverse.dropWhile isBlank = cs.reverse := by
    cases hrev : cs.reverse with
    | nil => rfl
    | cons c ds =>
      have hc : cs.getLast? = some c := by rw [← List.head?_reverse, hrev, List.head?_cons]
      simp [hlast c hc]
  rw [trim, hfront, hback, List.reverse_reverse]

/-- A pattern is not found where its first character does not stand. -/
theorem cutLast_cons_eq_none (h : c ∉ cs) : cutLast (c :: pat) cs = none := by
  cases hcut : cutLast (c :: pat) cs with
  | none => rfl
  | some p =>
    have hsplit := cutLast_eq_append hcut
    rw [hsplit] at h
    exact absurd (by simp) h

/-- A pattern is found where its first character stands for the last time. -/
theorem cutLast_cons_append (hpat : c ∉ pat) (hafter : c ∉ after) :
    cutLast (c :: pat) (before ++ (c :: pat ++ after)) = some (before, after) := by
  induction before with
  | nil =>
    have hrest : cutLast (c :: pat) (pat ++ after) = none :=
      cutLast_cons_eq_none (by simp [hpat, hafter])
    simp [cutLast, hrest]
  | cons d before ih => rw [List.cons_append, cutLast, ih]

/-- A text without blanks and stars. -/
def Plain (cs : List Char) : Prop := ∀ c ∈ cs, isBlank c = false ∧ c ≠ '*'

instance (cs : List Char) : Decidable (Plain cs) :=
  List.decidableBAll (fun c => isBlank c = false ∧ c ≠ '*') cs

theorem plain_cons : Plain (c :: cs) ↔ (isBlank c = false ∧ c ≠ '*') ∧ Plain cs :=
  List.forall_mem_cons

theorem plain_decimalChars (n : Int) : Plain (Number.decimalChars n) := by
  intro c hc
  rcases Number.mem_decimalChars hc with rfl | hdigit
  · decide
  · simp only [Char.isDigit, Bool.and_eq_true, decide_eq_true_eq, ge_iff_le,
      UInt32.le_iff_toNat_le] at hdigit
    have hlow : 48 ≤ c.toNat := hdigit.1
    have hhigh : c.toNat ≤ 57 := hdigit.2
    refine ⟨?_, ?_⟩
    · simp [isBlank]
      omega
    · rintro rfl
      revert hlow
      decide

theorem Plain.space_not_mem (h : Plain cs) : ' ' ∉ cs :=
  fun hmem => absurd (h ' ' hmem).1 (by decide)

/-- What taking off suffixes needs to know of a text: there is something, no blank stands at an end,
and only what ends with a star has a space in it. -/
structure Closed (cs : List Char) : Prop where
  ne_nil : cs ≠ []
  head : ∀ c ∈ cs.head?, isBlank c = false
  last : ∀ c ∈ cs.getLast?, isBlank c = false
  space : ' ' ∉ cs ∨ cs.getLast? = some '*'

theorem Plain.closed (h : Plain cs) (hne : cs ≠ []) : Closed cs where
  ne_nil := hne
  head c hc := (h c (List.mem_of_head? hc)).1
  last c hc := (h c (List.mem_of_getLast? hc)).1
  space := Or.inl h.space_not_mem

theorem Closed.concat_star (h : Closed cs) (suffix : List Char) :
    Closed (cs ++ suffix ++ ['*']) where
  ne_nil := by simp
  head c hc := by
    rw [List.append_assoc, List.head?_append_of_ne_nil _ h.ne_nil] at hc
    exact h.head c hc
  last c hc := by
    rw [List.getLast?_concat, Option.mem_some] at hc
    exact hc ▸ rfl
  space := Or.inr List.getLast?_concat

theorem Closed.trim_eq (h : Closed cs) : trim cs = cs := trim_eq_self h.head h.last

end Text

namespace Ty

open Text (trim isBlank)

variable {src cs elem : List Char} {space : Int}

/-- What ends with a star is a pointer to what stands before it. -/
theorem read_of_star (htrim : trim src = cs ++ ['*'])
    (hspace : readSpace (trim cs) = .ok (elem, space)) :
    read src = (read elem).map (ptr · space) := by
  have hdrop : (cs ++ ['*']).dropLast = cs := List.dropLast_concat
  rw [read]
  split
  · next hnil => simp [hnil] at htrim
  · next d ds hcons =>
    rw [hcons] at htrim
    rw [if_pos (by rw [htrim, List.getLast?_concat])]
    split
    · next e he =>
      rw [htrim, hdrop, hspace] at he
      cases he
    · next elem' space' hp =>
      rw [htrim, hdrop, hspace] at hp
      cases hp
      cases read elem with
      | error e => rfl
      | ok t => rfl

/-- What does not end with a star has no suffix. -/
theorem read_of_not_star (htrim : trim src = cs) (hne : cs ≠ []) (hlast : cs.getLast? ≠ some '*') :
    read src = readSimple cs := by
  rw [read]
  split
  · next hnil => exact absurd (htrim.symm.trans hnil) hne
  · next d ds hcons =>
    obtain rfl := htrim.symm.trans hcons
    rw [if_neg hlast]

/-- Without a space there is no address space, and none before a star. -/
theorem readSpace_eq_default (h : ' ' ∉ cs ∨ cs.getLast? = some '*') :
    readSpace cs = .ok (cs, 0) := by
  rw [readSpace]
  split
  · next elem number hcut =>
    have hsplit := Text.cutLast_eq_append hcut
    have hspace : ' ' ∈ spaceMark := List.mem_cons_self
    rcases h with h | h
    · refine absurd ?_ h
      rw [hsplit]
      exact List.mem_append_left _ (List.mem_append_right _ hspace)
    · rw [if_neg]
      intro hclose
      rw [hsplit, List.getLast?_append, hclose] at h
      simp at h
  · rfl

theorem readSpace_mark (hlow : 0 ≤ space) (hhigh : space < 2 ^ 63) :
    readSpace (elem ++ (spaceMark ++ (Number.decimalChars space ++ [')']))) =
    .ok (elem, space) := by
  have hmark : spaceMark = ' ' :: "addrspace(".toList := rfl
  have hafter : ' ' ∉ Number.decimalChars space ++ [')'] := by
    simp [(Text.plain_decimalChars space).space_not_mem]
  rw [readSpace, hmark, Text.cutLast_cons_append (by decide) hafter]
  simp [Number.readDecimal_decimalChars (by omega) hhigh, hlow]

/-- The types whose text is read: a struct has a name without blanks and stars, and an address space
fits in 64 bits. -/
inductive Readable : Ty → Prop where
  | int {bits : Int} (hpos : 1 ≤ bits) (hle : bits ≤ 64) : Readable (.int bits)
  | float : Readable (.float 32)
  | double : Readable (.float 64)
  | void : Readable .void
  | label : Readable .label
  | struct {name : String} {fields : List Ty} (hne : name ≠ "")
      (hplain : ∀ c ∈ name.toList, isBlank c = false ∧ c ≠ '*') : Readable (.struct name fields)
  | ptr {elem : Ty} {space : Int} (helem : Readable elem) (hlow : 0 ≤ space)
    (hhigh : space < 2 ^ 63) :
      Readable (.ptr elem space)

/-- Whether two types are the same, where a struct is known by its name only. -/
inductive Agrees : Ty → Ty → Prop where
  | int (bits : Int) : Agrees (.int bits) (.int bits)
  | float (bits : Int) : Agrees (.float bits) (.float bits)
  | void : Agrees .void .void
  | label : Agrees .label .label
  | struct (name : String) (fields fields' : List Ty) :
    Agrees (.struct name fields) (.struct name fields')
  | ptr {t u : Ty} (h : Agrees t u) (space : Int) : Agrees (.ptr t space) (.ptr u space)

theorem agrees_named (name : String) (fields : List Ty) :
    Agrees (named name) (.struct name fields) := by
  rw [named]
  split
  · exact .struct name _ _
  · exact .struct name _ _

/-- What is written between the pointee and the star. -/
def spaceText (space : Int) : List Char :=
  if space = 0 then [] else spaceMark ++ (Number.decimalChars space ++ [')'])

theorem text_ptr (t : Ty) (space : Int) : (ptr t space).text =
    if space = 0 then t.text ++ "*"
    else t.text ++ " addrspace(" ++ Number.decimal space ++ ")*" := rfl

theorem toList_text_ptr (t : Ty) (space : Int) :
    (ptr t space).text.toList = t.text.toList ++ spaceText space ++ ['*'] := by
  rw [text_ptr, spaceText]
  split
  · rw [String.toList_append, List.append_nil]
    rfl
  · simp only [String.toList_append, Number.decimal, String.toList_ofList, List.append_assoc]
    rfl

theorem text_int (bits : Int) : (int bits).text = "i" ++ Number.decimal bits := rfl

theorem toList_text_int (bits : Int) :
    (int bits).text.toList = 'i' :: Number.decimalChars bits := by
  simp only [text_int, Number.decimal, String.toList_append, String.toList_ofList]
  rfl

theorem toList_text_struct {name : String} (hne : name ≠ "") (fields : List Ty) :
    (struct name fields).text.toList = '%' :: name.toList := by
  have htext : (struct name fields).text = "%" ++ name := if_neg hne
  rw [htext, String.toList_append]
  rfl

theorem text_float : (float 32).text = "float" := rfl

theorem text_double : (float 64).text = "double" := rfl

theorem text_void : void.text = "void" := rfl

theorem text_label : label.text = "label" := rfl

/-- The text of a type has what taking off suffixes needs. -/
theorem Readable.closed {t : Ty} (h : t.Readable) : Text.Closed t.text.toList := by
  induction h with
  | int =>
    rw [toList_text_int]
    exact Text.Plain.closed (Text.plain_cons.mpr ⟨by decide, Text.plain_decimalChars _⟩)
      (List.cons_ne_nil _ _)
  | struct hne hplain =>
    rw [toList_text_struct hne]
    exact Text.Plain.closed (Text.plain_cons.mpr ⟨by decide, hplain⟩) (List.cons_ne_nil _ _)
  | ptr _ _ _ ih =>
    rw [toList_text_ptr]
    exact ih.concat_star _
  | float => exact text_float ▸ Text.Plain.closed (by decide) (by decide)
  | double => exact text_double ▸ Text.Plain.closed (by decide) (by decide)
  | void => exact text_void ▸ Text.Plain.closed (by decide) (by decide)
  | label => exact text_label ▸ Text.Plain.closed (by decide) (by decide)

/-- Words that begin differently differ. -/
theorem ofList_cons_ne {c : Char} {s : String} (h : s.toList.head? ≠ some c) :
    String.ofList (c :: cs) ≠ s := by
  rintro rfl
  simp at h

theorem readSimple_percent : readSimple ('%' :: cs) = .ok (named (String.ofList cs)) := by
  have hword : ∀ s : String, s.toList.head? ≠ some '%' → String.ofList ('%' :: cs) ≠ s :=
    fun s => ofList_cons_ne
  rw [readSimple]
  simp only [hword "void" (by decide), hword "label" (by decide), hword "float" (by decide),
    hword "double" (by decide), if_false]

theorem readSimple_int {bits : Int} (hpos : 1 ≤ bits) (hle : bits ≤ 64) :
    readSimple ('i' :: Number.decimalChars bits) = .ok (.int bits) := by
  have hword : ∀ s : String, s.toList.head? ≠ some 'i' →
      String.ofList ('i' :: Number.decimalChars bits) ≠ s :=
    fun s => ofList_cons_ne
  have hread : Number.readDecimal (Number.decimalChars bits) = some bits :=
    Number.readDecimal_decimalChars (by omega) (by omega)
  rw [readSimple]
  simp only [hword "void" (by decide), hword "label" (by decide), hword "float" (by decide),
    hword "double" (by decide), if_false, hread]
  simp [Int.lt_iff_add_one_le, hpos, hle]

/-- A text without suffix is read as the simple type that it is the word for. -/
theorem read_of_plain (hplain : Text.Plain cs) (hne : cs ≠ []) : read cs = readSimple cs := by
  have hlast : cs.getLast? ≠ some '*' := fun h => (hplain '*' (List.mem_of_getLast? h)).2 rfl
  exact read_of_not_star (hplain.closed hne).trim_eq hne hlast

/-- A pointer is read as one to what its pointee is read as. -/
theorem read_text_ptr {t : Ty} (hclosed : Text.Closed t.text.toList) (hlow : 0 ≤ space)
    (hhigh : space < 2 ^ 63) :
    read (ptr t space).text.toList = (read t.text.toList).map (ptr · space) := by
  rw [toList_text_ptr]
  have htrim := (hclosed.concat_star (spaceText space)).trim_eq
  apply read_of_star htrim
  rw [spaceText]
  split
  · next hzero =>
    rw [List.append_nil, hclosed.trim_eq, hzero]
    exact readSpace_eq_default hclosed.space
  · have hmarked : trim (t.text.toList ++ (spaceMark ++ (Number.decimalChars space ++ [')']))) =
        t.text.toList ++ (spaceMark ++ (Number.decimalChars space ++ [')'])) := by
      apply Text.trim_eq_self
      · rw [List.head?_append_of_ne_nil _ hclosed.ne_nil]
        exact hclosed.head
      · rw [← List.append_assoc, ← List.append_assoc, List.getLast?_concat]
        simp
        decide
    rw [hmarked]
    exact readSpace_mark hlow hhigh

theorem read_text_int {bits : Int} (hpos : 1 ≤ bits) (hle : bits ≤ 64) :
    read (int bits).text.toList = .ok (.int bits) := by
  have hplain : Text.Plain ('i' :: Number.decimalChars bits) :=
    Text.plain_cons.mpr ⟨by decide, Text.plain_decimalChars bits⟩
  rw [toList_text_int, read_of_plain hplain (List.cons_ne_nil _ _), readSimple_int hpos hle]

/-- The text of a type is read as that type, whatever the pointers and address spaces in it. -/
theorem text_reads_back {t : Ty} (h : t.Readable) :
    ∃ u, read t.text.toList = .ok u ∧ u.Agrees t := by
  induction h with
  | int hpos hle => exact ⟨_, read_text_int hpos hle, .int _⟩
  | float =>
    rw [text_float, read_of_plain (by decide) (by decide)]
    exact ⟨_, by simp [readSimple], .float 32⟩
  | double =>
    rw [text_double, read_of_plain (by decide) (by decide)]
    exact ⟨_, by simp [readSimple], .float 64⟩
  | void =>
    rw [text_void, read_of_plain (by decide) (by decide)]
    exact ⟨_, by simp [readSimple], .void⟩
  | label =>
    rw [text_label, read_of_plain (by decide) (by decide)]
    exact ⟨_, by simp [readSimple], .label⟩
  | struct hne hplain =>
    rw [toList_text_struct hne, read_of_plain (Text.plain_cons.mpr ⟨by decide, hplain⟩)
      (List.cons_ne_nil _ _), readSimple_percent, String.ofList_toList]
    exact ⟨_, rfl, agrees_named _ _⟩
  | ptr helem hlow hhigh ih =>
    obtain ⟨u, hread, hagrees⟩ := ih
    rw [read_text_ptr helem.closed hlow hhigh, hread]
    exact ⟨_, rfl, .ptr hagrees _⟩

/-- A struct whose name looks like an address space, behind two pointers. -/
def lookalike : Ty := .ptr (.ptr (.struct "addrspace(7)" []) 9223372036854775807) 0

theorem lookalike_reads_back : lookalike.Readable ∧
    lookalike.text = "%addrspace(7) addrspace(9223372036854775807)**" ∧
      ∃ u, read lookalike.text.toList = .ok u ∧ u.Agrees lookalike := by
  have hstruct : (struct "addrspace(7)" []).Readable :=
    .struct (by decide) (show Text.Plain _ by decide)
  have hreadable : lookalike.Readable :=
    .ptr (.ptr hstruct (by decide) (by decide)) (by decide) (by decide)
  exact ⟨hreadable, by decide +kernel, text_reads_back hreadable⟩

end Ty

end KernelIR
