import KernelIR.Geometry.Basic
import Mathlib.Algebra.Order.Ring.Int
import Mathlib.Data.Int.ModEq
import Mathlib.Data.Nat.Cast.Order.Ring

namespace KernelIR

namespace Number

variable {n : Nat} (w : BitVec 64)

/-- The mask for a width keeps the remainder. -/
theorem toNat_and_mask (hn : n < 64) : (w &&& ((1#64 <<< n) - 1#64)).toNat = w.toNat % 2 ^ n := by
  have hlt : 2 ^ n < 2 ^ 64 := Nat.pow_lt_pow_right (by decide) hn
  have hshift : (1#64 <<< n).toNat = 2 ^ n := by
    rw [BitVec.toNat_shiftLeft, Nat.shiftLeft_eq, BitVec.toNat_one (by decide), Nat.one_mul,
      Nat.mod_eq_of_lt hlt]
  have hle : 1#64 ≤ 1#64 <<< n := by
    rw [BitVec.le_def, hshift]
    exact Nat.two_pow_pos n
  have hmask : ((1#64 <<< n) - 1#64).toNat = 2 ^ n - 1 := by
    rw [BitVec.toNat_sub_of_le hle, hshift]
    rfl
  rw [BitVec.toNat_and, hmask, Nat.and_two_pow_sub_one_eq_mod]

/-- Shifting a word up and down again keeps the balanced remainder. -/
theorem toInt_shiftLeft_sshiftRight (hpos : 0 < n) (hle : n ≤ 64) :
    ((w <<< (64 - n)).sshiftRight (64 - n)).toInt = w.toInt.bmod (2 ^ n) := by
  have hscale : 2 ^ 64 = 2 ^ (64 - n) * 2 ^ n := by rw [← Nat.pow_add, Nat.sub_add_cancel hle]
  have hshift : 0 < 2 ^ (64 - n) := Nat.two_pow_pos _
  have hup :
      (w <<< (64 - n)).toInt = ((2 ^ (64 - n) : Nat) : Int) * (w.toNat : Int).bmod (2 ^ n) := by
    rw [BitVec.toInt_shiftLeft, Nat.shiftLeft_eq, Nat.mul_comm, Nat.cast_mul, hscale,
      Int.mod_bmod_mul_of_pos _ _ hshift (dvd_pow_self 2 hpos.ne')]
  have hword : w.toInt.bmod (2 ^ n) = (w.toNat : Int).bmod (2 ^ n) := by
    rw [BitVec.toInt_eq_toNat_bmod, Int.bmod_bmod_of_dvd (Nat.pow_dvd_pow 2 hle)]
  rw [BitVec.toInt_sshiftRight, Int.shiftRight_eq_div_pow, hup, hword]
  exact Int.mul_ediv_cancel_left _ (Int.natCast_ne_zero.mpr hshift.ne')

end Number

namespace IntConst

variable {c : IntConst} {n : Nat}

theorem width?_eq (hbits : c.bits = n) : c.width? = if n < 64 then some n else none := by
  rw [width?, hbits]
  by_cases hn : n < 64
  · simp [hn]
  · simp [hn]

/-- The unsigned reading is the remainder. -/
theorem unsigned_eq_emod (hbits : c.bits = n) (hle : n ≤ 64) :
    (c.unsigned : Int) = c.stored % (2 ^ n : Nat) := by
  have hword : c.stored % (2 ^ n : Nat) = ((c.word.toNat % 2 ^ n : Nat) : Int) := by
    rw [stored, BitVec.toInt_eq_toNat_bmod, Int.natCast_emod, ← Int.bmod_emod (m := 2 ^ n),
      Int.bmod_bmod_of_dvd (Nat.pow_dvd_pow 2 hle), Int.bmod_emod]
  rw [hword, unsigned, width?_eq hbits]
  by_cases hn : n < 64
  · rw [if_pos hn]
    exact congrArg Nat.cast (Number.toNat_and_mask c.word hn)
  · obtain rfl : n = 64 := by omega
    rw [if_neg hn, Nat.mod_eq_of_lt c.word.isLt]

/-- The signed reading is the balanced remainder. -/
theorem signed_eq_bmod (hbits : c.bits = n) (hpos : 0 < n) (hle : n ≤ 64) :
    c.signed = c.stored.bmod (2 ^ n) := by
  rw [signed, width?_eq hbits]
  by_cases hn : n < 64
  · rw [if_pos hn]
    exact Number.toInt_shiftLeft_sshiftRight c.word hpos hle
  · obtain rfl : n = 64 := by omega
    rw [if_neg hn, stored, BitVec.toInt_bmod_cancel]

section Readings

variable (hbits : c.bits = n) (hpos : 0 < n) (hle : n ≤ 64)

include hbits hle

/-- The unsigned reading is the only number of its range that is congruent to the word. -/
theorem eq_unsigned_iff {z : Int} :
    z = c.unsigned ↔ 0 ≤ z ∧ z < 2 ^ n ∧ z ≡ c.stored [ZMOD 2 ^ n] := by
  have hne : ((2 ^ n : Nat) : Int) ≠ 0 := Int.natCast_ne_zero.mpr (Nat.two_pow_pos n).ne'
  rw [unsigned_eq_emod hbits hle, eq_comm, Int.emod_eq_iff hne, Int.natAbs_natCast, Int.modEq_comm,
    Int.modEq_iff_dvd, Nat.cast_pow, Nat.cast_ofNat]

include hpos

/-- The signed reading is the only number of its range that is congruent to the word. -/
theorem eq_signed_iff {z : Int} :
    z = c.signed ↔ -2 ^ (n - 1) ≤ z ∧ z < 2 ^ (n - 1) ∧ z ≡ c.stored [ZMOD 2 ^ n] := by
  have hhalf : ((2 ^ n : Nat) : Int) = 2 * 2 ^ (n - 1) := by
    rw [Nat.cast_pow, Nat.cast_ofNat, ← pow_succ', Nat.sub_add_cancel hpos]
  have hlow : ((2 ^ n : Nat) : Int) / 2 = 2 ^ (n - 1) := by omega
  have hhigh : (((2 ^ n : Nat) : Int) + 1) / 2 = 2 ^ (n - 1) := by omega
  rw [signed_eq_bmod hbits hpos hle, eq_comm, Int.bmod_eq_iff (Nat.two_pow_pos n), hlow, hhigh,
    Int.modEq_comm, Int.modEq_iff_dvd, Nat.cast_pow, Nat.cast_ofNat]

/-- The signed reading is the unsigned one, less the whole range if that one is in the upper
half. -/
theorem signed_eq_ite :
    c.signed = if c.unsigned < 2 ^ (n - 1) then (c.unsigned : Int) else c.unsigned - 2 ^ n := by
  have hhalf : (2 ^ n : Int) = 2 * 2 ^ (n - 1) := by rw [← pow_succ', Nat.sub_add_cancel hpos]
  obtain ⟨hlow, hhigh, hmod⟩ := (eq_unsigned_iff hbits hle).mp rfl
  symm
  rw [eq_signed_iff hbits hpos hle]
  split
  · next hlt =>
    have hlt : (c.unsigned : Int) < 2 ^ (n - 1) := by exact_mod_cast hlt
    exact ⟨by omega, hlt, hmod⟩
  · next hge =>
    have hge : 2 ^ (n - 1) ≤ (c.unsigned : Int) := by exact_mod_cast Nat.le_of_not_lt hge
    refine ⟨by omega, by omega, ?_⟩
    exact (Int.sub_modulus_modEq_iff).mpr hmod

/-- What reads as a positive number reads the same without a sign. -/
theorem signed_pos_iff : 0 < c.signed ↔ 0 < c.unsigned ∧ c.unsigned < 2 ^ (n - 1) := by
  have hbound := ((eq_unsigned_iff hbits hle).mp rfl).2.1
  rw [signed_eq_ite hbits hpos hle]
  split
  · next hlt => simp [hlt]
  · next hge =>
    simp only [hge, and_false, iff_false]
    omega

end Readings

/-- A constant of any width from 1 to 64 is read as the number that is congruent to its word, modulo
two to the width, and lies in the range of the width, once without and once with a sign. The word is
shifted by less than 64, or not at all if it is as wide as the type. A size counts as positive if it
lies in the lower half of the range and is not zero. -/
theorem readings_unique (hbits : c.bits = n) (hpos : 1 ≤ n) (hle : n ≤ 64) :
    (∀ z : Int, z = c.unsigned ↔ 0 ≤ z ∧ z < 2 ^ n ∧ z ≡ c.stored [ZMOD 2 ^ n]) ∧
    (∀ z : Int, z = c.signed ↔ -2 ^ (n - 1) ≤ z ∧ z < 2 ^ (n - 1) ∧ z ≡ c.stored [ZMOD 2 ^ n]) ∧
    (∀ k, c.width? = some k → k = n ∧ k < 64 ∧ 0 < 64 - k ∧ 64 - k < 64) ∧
    (c.width? = none ↔ n = 64) ∧ (0 < c.signed ↔ 0 < c.unsigned ∧ c.unsigned < 2 ^ (n - 1)) ∧
    (Geometry.isPositive (some c) = true ↔ 0 < c.unsigned ∧ c.unsigned < 2 ^ (n - 1)) := by
  have hsign := signed_pos_iff hbits hpos hle
  refine ⟨fun z => eq_unsigned_iff hbits hle, fun z => eq_signed_iff hbits hpos hle, ?_, ?_,
    hsign, ?_⟩
  · intro k hk
    rw [width?_eq hbits, Option.ite_none_right_eq_some, Option.some_inj] at hk
    omega
  · rw [width?_eq hbits, ite_eq_right_iff]
    simp only [reduceCtorEq, imp_false]
    omega
  · rw [← hsign]
    simp [Geometry.isPositive]

/-- A literal that does not fit eight bits: it stands for 128, or with a sign for -128, which is no
size. -/
theorem overlong_readings_unique :
    ∃ c : IntConst, c.bits = (8 : Nat) ∧ 1 ≤ 8 ∧ 8 ≤ 64 ∧ c.stored = 384 ∧
    c.unsigned = 128 ∧ c.signed = -128 ∧ Geometry.isPositive (some c) = false := by
  obtain ⟨hunsigned, hsigned, _, _, _, hsize⟩ :=
    readings_unique (c := ⟨8, 384#64⟩) (n := 8) rfl (by decide) (by decide)
  have hvalue : (128 : Int) = (⟨8, 384#64⟩ : IntConst).unsigned := (hunsigned 128).mpr (by decide)
  have hvalue : (⟨8, 384#64⟩ : IntConst).unsigned = 128 := by exact_mod_cast hvalue.symm
  refine ⟨⟨8, 384#64⟩, rfl, by decide, by decide, by decide, hvalue,
    ((hsigned (-128)).mpr (by decide)).symm, ?_⟩
  rw [← Bool.not_eq_true, hsize, hvalue]
  decide

end IntConst

end KernelIR
