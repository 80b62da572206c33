import KernelIR.Number.Binary64
import Mathlib.Algebra.Order.Field.Power
import Mathlib.Data.Rat.Cast.Order
import Mathlib.Tactic.Linarith
import Mathlib.Tactic.NormNum
import Mathlib.Tactic.Positivity
import Mathlib.Tactic.Ring

namespace KernelIR.Number

def magnitude (m : Nat) (e : Int) : ℚ := m * 2 ^ e

/-- Whether a significand has 53 bits, or fewer with the least exponent. -/
structure Normal (m : Nat) (e : Int) : Prop where
  small : m < 2 ^ 53
  least : -1074 ≤ e
  full : 2 ^ 52 ≤ m ∨ e = -1074

/-- Whether no number is nearer to `q`, and the significand is even if another one is as near. The
exponent may be as large as it takes. -/
structure Nearest (q : ℚ) (m : Nat) (e : Int) : Prop where
  normal : Normal m e
  closest : ∀ n k, Normal n k → |q - magnitude m e| ≤ |q - magnitude n k|
  even : ∀ n k, Normal n k → magnitude n k ≠ magnitude m e →
    |q - magnitude n k| = |q - magnitude m e| → Even m

/-- The number of 64 bits with the given sign whose magnitude is nearest to `q`. There is none if
that is too large. -/
def Rounds (negative : Bool) (q : ℚ) (x : Binary64) : Prop :=
  ∃ m e, Nearest q m e ∧ e ≤ 971 ∧ x = .finite negative m e

theorem pow_two_pos (e : Int) : (0 : ℚ) < 2 ^ e := zpow_pos two_pos e

/-- In units of a smaller power a number is an integer. -/
theorem exists_units {e k : Int} (h : e ≤ k) (n : Nat) : ∃ j : Nat, magnitude n k = j * 2 ^ e := by
  obtain ⟨d, hd⟩ := Int.le.dest h
  refine ⟨n * 2 ^ d, ?_⟩
  rw [magnitude, ← hd, zpow_add₀ two_ne_zero, zpow_natCast]
  push_cast
  ring

namespace Normal

variable {m n : Nat} {e k : Int}

/-- Numbers with a smaller exponent are smaller than all with 53 bits. -/
theorem lt_of_exponent_lt (h : Normal n k) (hk : k < e) : magnitude n k < 2 ^ 52 * 2 ^ e := by
  have hn : (n : ℚ) < 2 ^ 53 := by exact_mod_cast h.small
  have hpow : (2 : ℚ) ^ (k + 1) ≤ 2 ^ e := zpow_le_zpow_right₀ one_le_two (by omega)
  calc magnitude n k < 2 ^ 53 * 2 ^ k := mul_lt_mul_of_pos_right hn (pow_two_pos k)
    _ = 2 ^ 52 * 2 ^ (k + 1) := by rw [zpow_add_one₀ two_ne_zero]; ring
    _ ≤ 2 ^ 52 * 2 ^ e := mul_le_mul_of_nonneg_left hpow (by positivity)

theorem le_magnitude (h : Normal m e) (he : e ≠ -1074) : 2 ^ 52 * 2 ^ e ≤ magnitude m e := by
  have hm : (2 : ℚ) ^ 52 ≤ m := by exact_mod_cast h.full.resolve_right he
  exact mul_le_mul_of_nonneg_right hm (pow_two_pos e).le

theorem exponent_le (hm : Normal m e) (hn : Normal n k) (h : magnitude m e ≤ magnitude n k) :
    e ≤ k := by
  by_contra hlt
  have hne : e ≠ -1074 := by
    have hleast := hn.least
    omega
  exact absurd (hn.lt_of_exponent_lt (by omega)) (not_lt.mpr ((hm.le_magnitude hne).trans h))

theorem injective (hm : Normal m e) (hn : Normal n k) (h : magnitude m e = magnitude n k) :
    m = n ∧ e = k := by
  have he : e = k := le_antisymm (hm.exponent_le hn h.le) (hn.exponent_le hm h.ge)
  subst he
  refine ⟨?_, rfl⟩
  have hcast : (m : ℚ) = n := mul_right_cancel₀ (pow_two_pos e).ne' h
  exact_mod_cast hcast

/-- The next number is one unit away. -/
theorem exists_next (h : Normal m e) : ∃ n k, Normal n k ∧ magnitude n k = (m + 1) * 2 ^ e := by
  by_cases hm : m + 1 < 2 ^ 53
  · refine ⟨m + 1, e, ⟨hm, h.least, h.full.imp_left fun h => by omega⟩, ?_⟩
    rw [magnitude]
    push_cast
    rfl
  · have hsmall := h.small
    have hleast := h.least
    have hcast : (m : ℚ) + 1 = 2 ^ 53 := by exact_mod_cast (by omega : m + 1 = 2 ^ 53)
    refine ⟨2 ^ 52, e + 1, ⟨by norm_num, by omega, Or.inl le_rfl⟩, ?_⟩
    rw [magnitude, hcast, zpow_add_one₀ two_ne_zero]
    push_cast
    ring

theorem next_le (hm : Normal m e) (hn : Normal n k) (h : magnitude m e < magnitude n k) :
    (m + 1) * 2 ^ e ≤ magnitude n k := by
  obtain ⟨j, hj⟩ := exists_units (hm.exponent_le hn h.le) n
  rw [hj, magnitude] at h
  have hlt : m < j := by exact_mod_cast lt_of_mul_lt_mul_right h (pow_two_pos e).le
  have hle : (m : ℚ) + 1 ≤ j := by exact_mod_cast hlt
  rw [hj]
  exact mul_le_mul_of_nonneg_right hle (pow_two_pos e).le

end Normal

namespace Nearest

variable {q : ℚ} {m n : Nat} {e k : Int}

/-- Of two numbers that are equally near, nothing lies between, and only one is even. -/
theorem not_lt (hm : Nearest q m e) (hn : Nearest q n k) : ¬magnitude m e < magnitude n k := by
  intro hlt
  have hsame : |q - magnitude n k| = |q - magnitude m e| :=
    le_antisymm (hn.closest m e hm.normal) (hm.closest n k hn.normal)
  have hmid : q - magnitude m e = magnitude n k - q := by
    rcases abs_eq_abs.mp hsame with h | h
    · exact absurd (by linarith : magnitude n k = magnitude m e) hlt.ne'
    · linarith
  obtain ⟨n', k', hnext, hvalue⟩ := hm.normal.exists_next
  have hle := hm.normal.next_le hn.normal hlt
  have hstep : magnitude m e < magnitude n' k' := by
    rw [hvalue, magnitude]
    exact mul_lt_mul_of_pos_right (lt_add_one _) (pow_two_pos e)
  rcases (hvalue ▸ hle : magnitude n' k' ≤ magnitude n k).lt_or_eq with hbetween | heq
  · have hcloser := hm.closest n' k' hnext
    rw [abs_of_pos (by linarith)] at hcloser
    exact absurd (abs_lt.mpr ⟨by linarith, by linarith⟩) (not_lt_of_ge hcloser)
  · have heven := hm.even n k hn.normal hlt.ne' hsame
    have heven' := hn.even m e hm.normal hlt.ne hsame.symm
    by_cases hbound : m + 1 < 2 ^ 53
    · have hnormal : Normal (m + 1) e :=
        ⟨hbound, hm.normal.least, hm.normal.full.imp_left fun h => by omega⟩
      have hunits : magnitude (m + 1) e = magnitude n k := by
        rw [← heq, hvalue, magnitude]
        push_cast
        rfl
      obtain ⟨rfl, -⟩ := hnormal.injective hn.normal hunits
      exact absurd heven' (Nat.not_even_iff_odd.mpr heven.add_one)
    · have hsmall := hm.normal.small
      rw [Nat.even_iff] at heven
      omega

theorem unique (hm : Nearest q m e) (hn : Nearest q n k) : m = n ∧ e = k :=
  hm.normal.injective hn.normal
    (le_antisymm (le_of_not_gt (hn.not_lt hm)) (le_of_not_gt (hm.not_lt hn)))

end Nearest

section Ratio

variable (num : Nat) {den : Nat} (hden : 0 < den)

include hden

theorem scaleBy_ratio {base : Nat} (hbase : 0 < base) (k : Int) :
    0 < (scaleBy base k num den).2 ∧
      ((scaleBy base k num den).1 : ℚ) / (scaleBy base k num den).2 = num / den * base ^ k := by
  have hpos : (0 : ℚ) < base := by exact_mod_cast hbase
  rw [scaleBy]
  split
  · next hk =>
    obtain ⟨n, rfl⟩ := Int.eq_ofNat_of_zero_le hk
    refine ⟨hden, ?_⟩
    simp only [Int.toNat_natCast, zpow_natCast, Nat.pow_eq, Nat.cast_mul, Nat.cast_pow]
    ring
  · next hk =>
    obtain ⟨n, hn⟩ := Int.eq_ofNat_of_zero_le (by omega : 0 ≤ -k)
    obtain rfl : k = -(n : Int) := by omega
    refine ⟨Nat.mul_pos hden (Nat.pow_pos hbase), ?_⟩
    simp only [neg_neg, Int.toNat_natCast, zpow_neg, zpow_natCast, Nat.pow_eq, Nat.cast_mul,
      Nat.cast_pow]
    rw [div_mul_eq_div_div, div_eq_mul_inv _ ((base : ℚ) ^ n)]

/-- The nearest integer is at most a half away, and even if it is a half away. -/
theorem roundHalfEven_spec : |(num : ℚ) / den - roundHalfEven num den| ≤ 1 / 2 ∧
    (|(num : ℚ) / den - roundHalfEven num den| = 1 / 2 → Even (roundHalfEven num den)) := by
  have hpos : (0 : ℚ) < den := by exact_mod_cast hden
  let r : ℚ := ((num % den : Nat) : ℚ) / den
  have hratio : (num : ℚ) / den = (num / den : Nat) + r := by
    rw [div_eq_iff hpos.ne', add_mul, div_mul_cancel₀ _ hpos.ne']
    exact_mod_cast (Nat.div_add_mod' num den).symm
  have hnonneg : 0 ≤ r := by positivity
  have hlt : r < 1 := by
    rw [div_lt_one hpos]
    exact_mod_cast Nat.mod_lt num hden
  have hhalf : r < 1 / 2 ↔ 2 * (num % den) < den := by
    rw [div_lt_iff₀ hpos, ← @Nat.cast_lt ℚ]
    push_cast
    constructor
    · intro h
      linarith
    · intro h
      linarith
  have habove : 1 / 2 < r ↔ den < 2 * (num % den) := by
    rw [lt_div_iff₀ hpos, ← @Nat.cast_lt ℚ]
    push_cast
    constructor
    · intro h
      linarith
    · intro h
      linarith
  have hdown : |(num : ℚ) / den - (num / den : Nat)| = r := by
    rw [hratio, add_sub_cancel_left, abs_of_nonneg hnonneg]
  have hup : |(num : ℚ) / den - (num / den + 1 : Nat)| = 1 - r := by
    rw [hratio, abs_of_neg (by push_cast; linarith)]
    push_cast
    ring
  simp only [roundHalfEven, ← hhalf, ← habove]
  split_ifs with hbelow hover heven
  · rw [hdown]
    exact ⟨hbelow.le, fun h => absurd h hbelow.ne⟩
  · rw [hup]
    exact ⟨by linarith, fun h => absurd hover (by linarith)⟩
  · rw [hdown]
    exact ⟨le_of_not_gt hover, fun _ => Nat.even_iff.mpr heven⟩
  · rw [hup]
    exact ⟨by linarith [le_of_not_gt hbelow], fun _ => Nat.even_iff.mpr (by omega)⟩

theorem binaryExponent_spec (hnum : num ≠ 0) :
    (2 : ℚ) ^ binaryExponent num den ≤ num / den ∧
      (num : ℚ) / den < 2 ^ (binaryExponent num den + 1) := by
  have hpos : (0 : ℚ) < den := by exact_mod_cast hden
  have hlog :
      ∀ n : Nat, n ≠ 0 → (2 : ℚ) ^ (n.log2 : Int) ≤ n ∧ (n : ℚ) < 2 ^ ((n.log2 : Int) + 1) := by
    intro n hn
    have hlow := Nat.log2_self_le hn
    have hhigh := Nat.lt_log2_self (n := n)
    exact ⟨by exact_mod_cast hlow, by exact_mod_cast hhigh⟩
  obtain ⟨hnlow, hnhigh⟩ := hlog num hnum
  obtain ⟨hdlow, hdhigh⟩ := hlog den hden.ne'
  let k : Int := (num.log2 : Int) - den.log2
  have hlow : (2 : ℚ) ^ (k - 1) < num / den := by
    rw [lt_div_iff₀ hpos]
    calc (2 : ℚ) ^ (k - 1) * den < 2 ^ (k - 1) * 2 ^ ((den.log2 : Int) + 1) :=
          mul_lt_mul_of_pos_left hdhigh (pow_two_pos _)
      _ = 2 ^ (num.log2 : Int) := by rw [← zpow_add₀ two_ne_zero]; congr 1; omega
      _ ≤ num := hnlow
  have hhigh : (num : ℚ) / den < 2 ^ (k + 1) := by
    rw [div_lt_iff₀ hpos]
    calc (num : ℚ) < 2 ^ ((num.log2 : Int) + 1) := hnhigh
      _ = 2 ^ (k + 1) * 2 ^ (den.log2 : Int) := by rw [← zpow_add₀ two_ne_zero]; congr 1; omega
      _ ≤ 2 ^ (k + 1) * den := mul_le_mul_of_nonneg_left hdlow (pow_two_pos _).le
  obtain ⟨hscaled, hratio⟩ := scaleBy_ratio num hden two_pos (-k)
  have hless : (scaleBy 2 (-k) num den).1 < (scaleBy 2 (-k) num den).2 ↔
      (num : ℚ) / den < 2 ^ k := by
    rw [← @Nat.cast_lt ℚ, ← div_lt_one (by exact_mod_cast hscaled), hratio, zpow_neg,
      Nat.cast_ofNat, ← div_eq_mul_inv, div_lt_one (pow_two_pos k)]
  have hunfold : binaryExponent num den = if (num : ℚ) / den < 2 ^ k then k - 1 else k := by
    simp only [binaryExponent, ← hless]
    rfl
  rw [hunfold]
  split
  · next hk => exact ⟨hlow.le, by rwa [sub_add_cancel]⟩
  · next hk => exact ⟨le_of_not_gt hk, hhigh⟩

end Ratio

/-- The exponent with which a number of the binade of `2 ^ k` has 53 bits, or the least one. -/
theorem exponent_spec {q : ℚ} {k : Int} (hlow : 2 ^ k ≤ q) (hhigh : q < 2 ^ (k + 1)) :
    (2 ^ 52 * 2 ^ max (k - 52) (-1074) ≤ q ∨ max (k - 52) (-1074) = -1074) ∧
      q / 2 ^ max (k - 52) (-1074) < 2 ^ 53 := by
  constructor
  · rcases max_choice (k - 52) (-1074) with he | he
    · left
      have hpow : (2 : ℚ) ^ 52 * 2 ^ (k - 52) = 2 ^ k := by
        rw [← zpow_natCast, ← zpow_add₀ two_ne_zero]
        congr 1
        omega
      rwa [he, hpow]
    · exact Or.inr he
  · rw [div_lt_iff₀ (pow_two_pos _), ← zpow_natCast, ← zpow_add₀ two_ne_zero]
    exact hhigh.trans_le (zpow_le_zpow_right₀ one_le_two (by omega))

section Units

variable {q : ℚ} {m n : Nat} {e k : Int} (hhalf : |q / 2 ^ e - m| ≤ 1 / 2)
  (heven : |q / 2 ^ e - m| = 1 / 2 → Even m)

include hhalf heven

/-- Among the multiples of a power the nearest integer gives the nearest one. -/
theorem closest_multiple (j : Nat) : |q - m * 2 ^ e| ≤ |q - j * 2 ^ e| ∧
    ((j : ℚ) * 2 ^ e ≠ m * 2 ^ e → |q - j * 2 ^ e| = |q - m * 2 ^ e| → Even m) := by
  have hpos := pow_two_pos e
  have hscale : ∀ i : Nat, |q - i * 2 ^ e| = |q / 2 ^ e - i| * 2 ^ e := by
    intro i
    rw [← abs_of_pos hpos, ← abs_mul, abs_of_pos hpos, sub_mul, div_mul_cancel₀ _ hpos.ne']
  rw [hscale, hscale]
  by_cases hj : j = m
  · subst hj
    exact ⟨le_rfl, fun hne => absurd rfl hne⟩
  · have hapart : (1 : ℚ) ≤ |(m : ℚ) - j| := by
      have hne : (m : Int) - j ≠ 0 := by omega
      exact_mod_cast Int.one_le_abs hne
    have hfar : 1 / 2 ≤ |q / 2 ^ e - j| := by
      have htriangle := abs_sub_le (m : ℚ) (q / 2 ^ e) j
      rw [abs_sub_comm (m : ℚ) (q / 2 ^ e)] at htriangle
      linarith
    refine ⟨mul_le_mul_of_nonneg_right (hhalf.trans hfar) hpos.le, fun _ hsame => heven ?_⟩
    exact le_antisymm hhalf (hfar.trans (mul_right_cancel₀ hpos.ne' hsame).le)

/-- Numbers with smaller exponents are farther away. -/
theorem closest_normal (hlarge : 2 ^ 52 * 2 ^ e ≤ q ∨ e = -1074) (hn : Normal n k) :
    |q - m * 2 ^ e| ≤ |q - magnitude n k| ∧
      (magnitude n k ≠ m * 2 ^ e → |q - magnitude n k| = |q - m * 2 ^ e| → Even m) := by
  by_cases hk : e ≤ k
  · obtain ⟨j, hj⟩ := exists_units hk n
    rw [hj]
    exact closest_multiple hhalf heven j
  · have hleast := hn.least
    have hle : 2 ^ 52 * 2 ^ e ≤ q := hlarge.resolve_right (by omega)
    have hlt := hn.lt_of_exponent_lt (not_le.mp hk)
    have hnear := (closest_multiple hhalf heven (2 ^ 52)).1
    rw [Nat.cast_pow, Nat.cast_ofNat, abs_of_nonneg (sub_nonneg.mpr hle)] at hnear
    have hfar : |q - m * 2 ^ e| < |q - magnitude n k| := by
      rw [abs_of_pos (by linarith : 0 < q - magnitude n k)]
      linarith
    exact ⟨hfar.le, fun _ hsame => absurd hsame hfar.ne'⟩

theorem nearest_units (hleast : -1074 ≤ e) (hlarge : 2 ^ 52 * 2 ^ e ≤ q ∨ e = -1074)
    (hsmall : m < 2 ^ 53) : Nearest q m e where
  normal := by
    refine ⟨hsmall, hleast, hlarge.imp_left fun hle => ?_⟩
    have hunits : 2 ^ 52 ≤ q / 2 ^ e := (le_div_iff₀ (pow_two_pos e)).mpr hle
    have hbelow := (abs_le.mp hhalf).2
    have hlt : (2 : ℚ) ^ 52 < m + 1 := by linarith
    exact Nat.lt_succ_iff.mp (by exact_mod_cast hlt)
  closest _ _ hn := (closest_normal hhalf heven hlarge hn).1
  even _ _ hn := (closest_normal hhalf heven hlarge hn).2

/-- A significand that is rounded up to 54 bits is a power of two, with the next exponent. -/
theorem nearest_carry (hleast : -1074 ≤ e) (hlarge : 2 ^ 52 * 2 ^ e ≤ q ∨ e = -1074)
    (hcarry : m = 2 ^ 53) : Nearest q (2 ^ 52) (e + 1) := by
  have hvalue : magnitude (2 ^ 52) (e + 1) = m * 2 ^ e := by
    rw [magnitude, hcarry, zpow_add_one₀ two_ne_zero]
    push_cast
    ring
  refine ⟨⟨by norm_num, by omega, Or.inl le_rfl⟩, fun n k hn => ?_, fun _ _ _ _ _ => by decide⟩
  rw [hvalue]
  exact (closest_normal hhalf heven hlarge hn).1

end Units

namespace Binary64

variable (num : Nat) {den : Nat} (hden : 0 < den)

include hden

theorem ofRatio?_nearest : ∃ m e, Nearest (num / den) m e ∧ ∀ negative,
    ofRatio? negative num den = if 971 < e then none else some (.finite negative m e) := by
  by_cases hnum : num = 0
  · refine ⟨0, -1074, ⟨⟨by norm_num, le_rfl, Or.inr rfl⟩, fun n k _ => ?_,
      fun _ _ _ _ _ => by decide⟩, fun negative => ?_⟩
    · rw [hnum, magnitude, Nat.cast_zero, zero_div, zero_mul, sub_self, abs_zero]
      exact abs_nonneg _
    · rw [ofRatio?, if_pos hnum, if_neg (by norm_num)]
  obtain ⟨hlow, hhigh⟩ := binaryExponent_spec num hden hnum
  obtain ⟨hlarge, hbound⟩ := exponent_spec hlow hhigh
  let e := max (binaryExponent num den - 52) (-1074)
  let m := roundHalfEven (scaleBy 2 (-e) num den).1 (scaleBy 2 (-e) num den).2
  obtain ⟨hscaled, hratio⟩ := scaleBy_ratio num hden two_pos (-e)
  have hunits : (num : ℚ) / den / 2 ^ e =
      ((scaleBy 2 (-e) num den).1 : ℚ) / (scaleBy 2 (-e) num den).2 := by
    rw [hratio, zpow_neg, Nat.cast_ofNat, ← div_eq_mul_inv]
  obtain ⟨hhalf, heven⟩ := roundHalfEven_spec (scaleBy 2 (-e) num den).1 hscaled
  rw [← hunits] at hhalf heven
  have hleast : -1074 ≤ e := le_max_right _ _
  have hsmall : m ≤ 2 ^ 53 := by
    have habove := (abs_le.mp hhalf).1
    have hle : (m : ℚ) < 2 ^ 53 + 1 := by linarith
    exact Nat.lt_succ_iff.mp (by exact_mod_cast hle)
  let carried := if m = 2 ^ 53 then (2 ^ 52, e + 1) else (m, e)
  have hunfold : ∀ negative, ofRatio? negative num den =
      if 971 < carried.2 then none else some (.finite negative carried.1 carried.2) :=
    fun negative => if_neg hnum
  by_cases hcarry : m = 2 ^ 53
  · refine ⟨2 ^ 52, e + 1, nearest_carry hhalf heven hleast hlarge hcarry, fun negative => ?_⟩
    rw [hunfold, show carried = (2 ^ 52, e + 1) from if_pos hcarry]
  · refine ⟨m, e, nearest_units hhalf heven hleast hlarge (by omega), fun negative => ?_⟩
    rw [hunfold, show carried = (m, e) from if_neg hcarry]

/-- A quotient is read as the nearest number, unless that is too large. -/
theorem ofRatio?_eq_some_iff {negative : Bool} {x : Binary64} :
    ofRatio? negative num den = some x ↔ Rounds negative (num / den) x := by
  obtain ⟨m, e, hnearest, heq⟩ := ofRatio?_nearest num hden
  rw [heq, Option.ite_none_left_eq_some, Option.some_inj, not_lt]
  constructor
  · rintro ⟨hle, rfl⟩
    exact ⟨m, e, hnearest, hle, rfl⟩
  · rintro ⟨n, k, hn, hle, rfl⟩
    obtain ⟨rfl, rfl⟩ := hn.unique hnearest
    exact ⟨hle, rfl⟩

end Binary64

end KernelIR.Number
