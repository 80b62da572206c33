namespace KernelIR.Number

/-- The value of a digit in any base up to 36. -/
def digitValue? (c : Char) : Option Nat :=
  if c.isDigit then some (c.toNat - '0'.toNat)
  else if c.isAlpha then some (c.toLower.toNat - 'a'.toNat + 10)
  else none

/-- Continues a number with the digits of a text, most significant first. -/
def readDigits (base : Nat) : Nat → List Char → Option Nat
  | n, [] => some n
  | n, c :: cs =>
    match digitValue? c with
    | some d => if d < base then readDigits base (n * base + d) cs else none
    | none => none

/-- Every underscore stands between two digits; `afterDigit` tells whether one came just before. -/
def separatorsOk (isDigit : Char → Bool) : Bool → List Char → Bool
  | _, [] => true
  | afterDigit, c :: cs =>
    if c = '_' then afterDigit && cs.head?.any isDigit && separatorsOk isDigit false cs
    else separatorsOk isDigit (isDigit c) cs

/-- The base that the beginning of a literal announces, whether that beginning is a marked
prefix, and the digits that follow it. -/
def radix : List Char → Nat × Bool × List Char
  | '0' :: p :: d :: cs =>
    match p.toLower with
    | 'b' => (2, true, d :: cs)
    | 'o' => (8, true, d :: cs)
    | 'x' => (16, true, d :: cs)
    | _ => (8, false, '0' :: p :: d :: cs)
  | '0' :: cs => (8, false, '0' :: cs)
  | cs => (10, false, cs)

def isHexDigit (c : Char) : Bool :=
  c.isDigit || ('a' ≤ c.toLower && c.toLower ≤ 'f')

/-- An unsigned literal: decimal, octal after a leading zero, or in the base of its prefix. -/
def readMagnitude (cs : List Char) : Option Nat :=
  if cs.isEmpty then none
  else
    let (base, marked, digits) := radix cs
    let isDigit := if base = 16 then isHexDigit else Char.isDigit
    if separatorsOk isDigit marked digits then readDigits base 0 (digits.filter (· ≠ '_')) else none

/-- A signed literal that fits in 64 bits. -/
def readInteger : List Char → Option Int
  | '-' :: cs => (readMagnitude cs).bind fun n => if n ≤ Nat.pow 2 63 then some (-n) else none
  | '+' :: cs => (readMagnitude cs).bind fun n => if n < Nat.pow 2 63 then some n else none
  | cs => (readMagnitude cs).bind fun n => if n < Nat.pow 2 63 then some n else none

def readPlainDigits (cs : List Char) : Option Nat :=
  if cs.isEmpty then none else readDigits 10 0 cs

/-- A decimal number with an optional sign that fits in 64 bits. -/
def readDecimal : List Char → Option Int
  | '-' :: cs => (readPlainDigits cs).bind fun n => if n ≤ Nat.pow 2 63 then some (-n) else none
  | '+' :: cs => (readPlainDigits cs).bind fun n => if n < Nat.pow 2 63 then some n else none
  | cs => (readPlainDigits cs).bind fun n => if n < Nat.pow 2 63 then some n else none

/-- The decimal digits of a number, after a minus sign if it is negative. -/
def decimalChars (n : Int) : List Char :=
  if n < 0 then '-' :: Nat.toDigits 10 n.natAbs else Nat.toDigits 10 n.natAbs

def decimal (n : Int) : String := String.ofList (decimalChars n)

end KernelIR.Number
