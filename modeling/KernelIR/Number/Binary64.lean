namespace KernelIR.Number

/-- A floating point number of 64 bits. The magnitude of a finite one is
`significand * 2 ^ exponent`; the significand has 53 bits unless the exponent is `-1074`. -/
inductive Binary64 where
  | nan
  | infinite (negative : Bool)
  | finite (negative : Bool) (significand : Nat) (exponent : Int)
deriving DecidableEq, Repr, Inhabited

/-- The quotient as a fraction in which `2 ^ k` has been multiplied into the numerator. -/
def scaleBy (base : Nat) (k : Int) (num den : Nat) : Nat × Nat :=
  if 0 ≤ k then (num * Nat.pow base k.toNat, den) else (num, den * Nat.pow base (-k).toNat)

/-- Rounds a quotient to the nearest integer, a half to the even one. -/
def roundHalfEven (num den : Nat) : Nat :=
  let q := num / den
  let r := num % den
  if 2 * r < den then q
  else if den < 2 * r then q + 1
  else if q % 2 = 0 then q else q + 1

/-- The exponent of the greatest power of two that is at most the quotient. -/
def binaryExponent (num den : Nat) : Int :=
  let k : Int := (num.log2 : Int) - den.log2
  let (n, d) := scaleBy 2 (-k) num den
  if n < d then k - 1 else k

namespace Binary64

/-- The number nearest to a quotient, a tie going to the even significand. Nothing when the
magnitude is too large. -/
def ofRatio? (negative : Bool) (num den : Nat) : Option Binary64 :=
  if num = 0 then some (.finite negative 0 (-1074))
  else
    let e := max (binaryExponent num den - 52) (-1074)
    let (n, d) := scaleBy 2 (-e) num den
    let m := roundHalfEven n d
    let (m, e) := if m = Nat.pow 2 53 then (Nat.pow 2 52, e + 1) else (m, e)
    if 971 < e then none else some (.finite negative m e)

end Binary64

end KernelIR.Number
