import KernelIR.Number.Binary64

namespace KernelIR.Number

/-- Decimal digits with the exponent of the first one. -/
structure Decimal where
  digits : List Char
  exponent : Int
deriving DecidableEq, Repr

/-- The exponent of the greatest power of ten that is at most the quotient. -/
def decimalExponent (num den : Nat) : Int :=
  let guess := ((num.log2 : Int) - den.log2) * 1233 / 4096
  let below (t : Int) : Bool :=
    let (n, d) := scaleBy 10 (-t) num den
    n < d
  if below guess then guess - 1 else if below (guess + 1) then guess else guess + 1

/-- The numbers that round to one significand, in quarters of its last place. -/
structure Rounding where
  low : Nat
  high : Nat
  closed : Bool

/-- A number halfway to a neighbour belongs to the even significand, and below a power of two
the neighbour is half as far away. -/
def Rounding.around (m : Nat) (e : Int) : Rounding where
  low := if m = Nat.pow 2 52 && e ≠ -1074 then 4 * m - 1 else 4 * m - 2
  high := 4 * m + 2
  closed := m % 2 = 0

/-- Whether `n / d` quarters lie inside. -/
def Rounding.holds (r : Rounding) (n d : Nat) : Bool :=
  if r.closed then r.low * d ≤ n && n ≤ r.high * d else r.low * d < n && n < r.high * d

/-- Of the two neighbours of `m * 2 ^ e` among the multiples of `10 ^ g`, the nearer one that
rounds back to it. -/
def gridPoint? (m : Nat) (e g : Int) : Option Nat :=
  let (num, den) := scaleBy 2 e m 1
  let (n, d) := scaleBy 10 (-g) num den
  let inside (k : Nat) : Bool :=
    let (a, b) := scaleBy 10 g (4 * k) 1
    let (a, b) := scaleBy 2 (-e) a b
    (Rounding.around m e).holds a b
  let k := n / d
  match inside k, inside (k + 1) with
  | true, true => some (roundHalfEven n d)
  | true, false => some k
  | false, true => some (k + 1)
  | false, false => none

/-- The multiple `k * 10 ^ g` without its trailing zeros. -/
def Decimal.ofMultiple (k : Nat) (g : Int) : Decimal :=
  let digits := Nat.toDigits 10 k
  { digits := (digits.reverse.dropWhile (· = '0')).reverse, exponent := g + digits.length - 1 }

/-- The fewest digits that read back as `m * 2 ^ e`: of the grids with one digit, two digits and
so on, the first with a point that does. Seventeen digits always suffice. -/
def shortest (m : Nat) (e : Int) : Decimal :=
  let (num, den) := scaleBy 2 e m 1
  let first := decimalExponent num den
  let point := (List.range 17).findSome? fun (i : Nat) =>
    (gridPoint? m e (first - i)).map fun k => Decimal.ofMultiple k (first - i)
  point.getD ⟨['0'], 0⟩

/-- Where positional notation ends and how an exponent is written. -/
structure RealLayout where
  /-- positional from this exponent -/
  least : Int
  /-- and below this one -/
  bound : Int
  exponentWidth : Nat

def zeros (n : Nat) : List Char := List.replicate n '0'

def padded (width n : Nat) : List Char :=
  let digits := Nat.toDigits 10 n
  zeros (width - digits.length) ++ digits

/-- The text of a nonzero decimal. -/
def Decimal.chars (d : Decimal) (layout : RealLayout) : List Char :=
  if layout.least ≤ d.exponent && d.exponent < layout.bound then
    if d.exponent < 0 then ['0', '.'] ++ zeros (-d.exponent - 1).toNat ++ d.digits
    else
      let whole := d.exponent.toNat + 1
      let fraction := d.digits.drop whole
      d.digits.take whole ++ zeros (whole - d.digits.length) ++
        (if fraction.isEmpty then [] else '.' :: fraction)
  else
    let fraction := d.digits.drop 1
    d.digits.take 1 ++ (if fraction.isEmpty then [] else '.' :: fraction) ++
      ['e', if d.exponent < 0 then '-' else '+'] ++ padded layout.exponentWidth d.exponent.natAbs

/-- The text of a floating point number. -/
def Binary64.text (layout : RealLayout) : Binary64 → String
  | .nan => "NaN"
  | .infinite negative => if negative then "-Inf" else "+Inf"
  | .finite negative m e =>
    let digits := if m = 0 then ['0'] else (shortest m e).chars layout
    String.ofList (if negative then '-' :: digits else digits)

end KernelIR.Number
