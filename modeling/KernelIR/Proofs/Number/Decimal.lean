import KernelIR.Number.Integer
import Mathlib.Data.List.Basic
import Mathlib.Data.Nat.Digits.Defs
import Mathlib.Tactic.IntervalCases

namespace KernelIR.Number

theorem toList_decimal (n : Nat) : (decimal n).toList = Nat.toDigits 10 n := by
  simp [decimal, decimalChars]

theorem digitValue?_of_isDigit {c : Char} (hc : c.isDigit = true) :
    digitValue? c = some (c.toNat - '0'.toNat) ∧ c.toNat - '0'.toNat < 10 := by
  refine ⟨by rw [digitValue?, if_pos hc], ?_⟩
  simp only [Char.isDigit, Bool.and_eq_true, decide_eq_true_eq, ge_iff_le,
    UInt32.le_iff_toNat_le] at hc
  have hle : c.toNat ≤ 57 := hc.2
  have hzero : '0'.toNat = 48 := rfl
  omega

theorem readDigits_eq {cs : List Char} (h : ∀ c ∈ cs, c.isDigit = true) (n : Nat) :
    readDigits 10 n cs = some (Nat.ofDigitChars 10 cs n) := by
  induction cs generalizing n with
  | nil => rfl
  | cons c cs ih =>
    obtain ⟨hvalue, hlt⟩ := digitValue?_of_isDigit (h c List.mem_cons_self)
    rw [readDigits, hvalue]
    simp only [if_pos hlt]
    rw [ih (fun d hd => h d (List.mem_cons_of_mem _ hd)), Nat.mul_comm n 10]
    rfl

theorem isDigit_of_mem_toDigits {c : Char} {n : Nat} (h : c ∈ Nat.toDigits 10 n) :
    c.isDigit = true :=
  Nat.isDigit_of_mem_toDigits (by decide) (by decide) h

theorem readDigits_toDigits (n : Nat) : readDigits 10 0 (Nat.toDigits 10 n) = some n := by
  rw [readDigits_eq fun c => isDigit_of_mem_toDigits, Nat.ofDigitChars_ten_toDigits]

theorem isEmpty_toDigits (n : Nat) : (Nat.toDigits 10 n).isEmpty = false := by
  rw [List.isEmpty_eq_false_iff]
  exact Nat.toDigits_ne_nil

theorem readPlainDigits_toDigits (n : Nat) : readPlainDigits (Nat.toDigits 10 n) = some n := by
  rw [readPlainDigits, isEmpty_toDigits, readDigits_toDigits]
  rfl

/-- A number other than zero is written without a leading zero. -/
theorem head?_toDigits_ne {n : Nat} (hn : n ≠ 0) : (Nat.toDigits 10 n).head? ≠ some '0' := by
  induction n using Nat.strongRecOn with
  | _ n ih =>
    rw [Nat.toDigits_eq_if (by decide)]
    split
    · next hlt =>
      interval_cases n
      all_goals simp_all
    · next hge =>
      rw [List.head?_append_of_ne_nil _ Nat.toDigits_ne_nil]
      exact ih (n / 10) (by omega) (by omega)

theorem radix_of_head?_ne {cs : List Char} (h : cs.head? ≠ some '0') :
    radix cs = (10, false, cs) := by
  unfold radix
  split
  · simp at h
  · simp at h
  · rfl

theorem separatorsOk_of_not_mem {isDigit : Char → Bool} {after : Bool} {cs : List Char}
    (h : '_' ∉ cs) :
    separatorsOk isDigit after cs = true := by
  induction cs generalizing after with
  | nil => rfl
  | cons c cs ih =>
    rw [List.mem_cons, not_or] at h
    rw [separatorsOk, if_neg (Ne.symm h.1), ih h.2]

theorem not_mem_toDigits {c : Char} (hc : c.isDigit = false) (n : Nat) : c ∉ Nat.toDigits 10 n := by
  intro hmem
  rw [isDigit_of_mem_toDigits hmem] at hc
  exact Bool.noConfusion hc

theorem readMagnitude_toDigits (n : Nat) : readMagnitude (Nat.toDigits 10 n) = some n := by
  by_cases hn : n = 0
  · subst hn
    rfl
  · have hplain : '_' ∉ Nat.toDigits 10 n := not_mem_toDigits rfl n
    have hfilter : (Nat.toDigits 10 n).filter (· ≠ '_') = Nat.toDigits 10 n := by
      rw [List.filter_eq_self]
      intro c hc
      exact decide_eq_true fun he => hplain (he ▸ hc)
    rw [readMagnitude, isEmpty_toDigits, radix_of_head?_ne (head?_toDigits_ne hn)]
    simp only [Bool.false_eq_true, if_false, separatorsOk_of_not_mem hplain, if_true]
    rw [hfilter, readDigits_toDigits]

/-- A minus sign stands before the digits of a negative number only. -/
theorem decimalChars_cases (n : Int) :
    (n < 0 ∧ decimalChars n = '-' :: Nat.toDigits 10 n.natAbs) ∨
      (0 ≤ n ∧ decimalChars n = Nat.toDigits 10 n.natAbs) := by
  by_cases hn : n < 0
  · exact Or.inl ⟨hn, by rw [decimalChars, if_pos hn]⟩
  · exact Or.inr ⟨Int.not_lt.mp hn, by rw [decimalChars, if_neg hn]⟩

theorem mem_decimalChars {c : Char} {n : Int} (h : c ∈ decimalChars n) :
    c = '-' ∨ c.isDigit = true := by
  rcases decimalChars_cases n with ⟨_, htext⟩ | ⟨_, htext⟩
  · rw [htext, List.mem_cons] at h
    exact h.imp_right isDigit_of_mem_toDigits
  · rw [htext] at h
    exact Or.inr (isDigit_of_mem_toDigits h)

theorem decimalChars_ne_nil (n : Int) : decimalChars n ≠ [] := by
  rcases decimalChars_cases n with ⟨_, htext⟩ | ⟨_, htext⟩
  · rw [htext]
    exact List.cons_ne_nil _ _
  · rw [htext]
    exact Nat.toDigits_ne_nil

theorem toDigits_ne_cons {c : Char} (hc : c.isDigit = false) (n : Nat) (cs : List Char) :
    Nat.toDigits 10 n ≠ c :: cs :=
  fun he => not_mem_toDigits hc n (he ▸ List.mem_cons_self)

section Signed

variable {n : Int} (hlow : -2 ^ 63 ≤ n) (hhigh : n < 2 ^ 63)

include hlow hhigh

/-- A reader of numbers with a sign reads the text of a number that fits in 64 bits, if its reader
of magnitudes `M` reads digits. -/
theorem readSigned_decimalChars {R : List Char → Option Int} {M : List Char → Option Nat}
    (hdigits : ∀ k, M (Nat.toDigits 10 k) = some k)
    (hminus : ∀ cs, R ('-' :: cs) = (M cs).bind fun k => if k ≤ Nat.pow 2 63 then some (-(k : Int))
      else none)
    (hplain : ∀ k, R (Nat.toDigits 10 k) =
      (M (Nat.toDigits 10 k)).bind fun k => if k < Nat.pow 2 63 then some (k : Int) else none) :
    R (decimalChars n) = some n := by
  rcases decimalChars_cases n with ⟨hn, htext⟩ | ⟨hn, htext⟩
  · have hle : n.natAbs ≤ Nat.pow 2 63 := by
      rw [Nat.pow_eq]
      omega
    rw [htext, hminus, hdigits, Option.bind_some, if_pos hle,
      Int.ofNat_natAbs_of_nonpos hn.le, neg_neg]
  · have hlt : n.natAbs < Nat.pow 2 63 := by
      rw [Nat.pow_eq]
      omega
    rw [htext, hplain, hdigits, Option.bind_some, if_pos hlt, Int.natAbs_of_nonneg hn]

theorem readDecimal_decimalChars : readDecimal (decimalChars n) = some n := by
  refine readSigned_decimalChars hlow hhigh readPlainDigits_toDigits (fun _ => rfl) fun k => ?_
  unfold readDecimal
  split
  · next he => exact absurd he (toDigits_ne_cons rfl k _)
  · next he => exact absurd he (toDigits_ne_cons rfl k _)
  · rfl

theorem readInteger_decimalChars : readInteger (decimalChars n) = some n := by
  refine readSigned_decimalChars hlow hhigh readMagnitude_toDigits (fun _ => rfl) fun k => ?_
  unfold readInteger
  split
  · next he => exact absurd he (toDigits_ne_cons rfl k _)
  · next he => exact absurd he (toDigits_ne_cons rfl k _)
  · rfl

end Signed

end KernelIR.Number
