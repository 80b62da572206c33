import KernelIR.Number.Binary64
import KernelIR.Number.Integer

namespace KernelIR.Number

/-- The parts of a floating point literal after its sign. -/
structure RealLiteral where
  hexadecimal : Bool
  /-- digits before and after the point -/
  whole : List Char
  fraction : List Char
  exponent : Int

/-- Larger exponents count as this large: the number is out of range either way. -/
def exponentLimit : Nat := 10000

/-- The digits of an exponent, which begin with a digit. -/
def readExponentDigits (cs : List Char) : Option Nat :=
  if cs.head?.any Char.isDigit && cs.all (fun c => c.isDigit || c = '_') then
    some <| (cs.filter (· ≠ '_')).foldl
      (fun e c => if e < exponentLimit then e * 10 + (c.toNat - '0'.toNat) else e) 0
  else none

def readExponent : List Char → Option Int
  | '-' :: cs => (readExponentDigits cs).map fun n => -Int.ofNat n
  | '+' :: cs => (readExponentDigits cs).map Int.ofNat
  | cs => (readExponentDigits cs).map Int.ofNat

/-- The digits before a point, those after it, and what follows them. -/
def cutDigits (inDigits : Char → Bool) (body : List Char) : List Char × List Char × List Char :=
  match body.dropWhile inDigits with
  | '.' :: rest => (body.takeWhile inDigits, rest.takeWhile inDigits, rest.dropWhile inDigits)
  | rest => (body.takeWhile inDigits, [], rest)

/-- The exponent after the digits, zero if there is none. -/
def readScale (hexadecimal : Bool) : List Char → Option Int
  | [] => if hexadecimal then none else some 0
  | c :: cs => if c.toLower = (if hexadecimal then 'p' else 'e') then readExponent cs else none

/-- The parts of what follows the prefix of a literal. Underscores stand between digits only, a
hexadecimal literal has an exponent, and some digit is present. -/
def readBody (hexadecimal : Bool) (body : List Char) : Option RealLiteral :=
  let isDigit := if hexadecimal then isHexDigit else Char.isDigit
  let (whole, fraction, rest) := cutDigits (fun c => isDigit c || c = '_') body
  let whole := whole.filter (· ≠ '_')
  let fraction := fraction.filter (· ≠ '_')
  if whole.isEmpty && fraction.isEmpty || !separatorsOk isDigit hexadecimal body then none
  else (readScale hexadecimal rest).map fun e => { hexadecimal, whole, fraction, exponent := e }

/-- Splits an unsigned literal into its parts. -/
def readParts : List Char → Option RealLiteral
  | '0' :: x :: c :: cs =>
    if x.toLower = 'x' then readBody true (c :: cs) else readBody false ('0' :: x :: c :: cs)
  | cs => readBody false cs

/-- The number nearest to a literal; nothing when it is too large. -/
def RealLiteral.value? (l : RealLiteral) (negative : Bool) : Option Binary64 :=
  let base := if l.hexadecimal then 16 else 10
  let digits := l.whole ++ l.fraction
  (readDigits base 0 digits).bind fun n =>
    let (num, den) :=
      if l.hexadecimal then scaleBy 2 (l.exponent - 4 * l.fraction.length) n 1
      else scaleBy 10 (l.exponent - l.fraction.length) n 1
    if n = 0 then some (.finite negative 0 (-1074)) else Binary64.ofRatio? negative num den

/-- The names of the infinities, which may have a sign. -/
def isInfinityName (cs : List Char) : Bool :=
  let name := cs.map Char.toLower
  name = "inf".toList || name = "infinity".toList

def readUnsigned (negative : Bool) (cs : List Char) : Option Binary64 :=
  if isInfinityName cs then some (.infinite negative)
  else (readParts cs).bind fun l => l.value? negative

/-- A floating point literal: decimal, hexadecimal with a binary exponent, an infinity, or a
NaN without a sign. -/
def readReal : List Char → Option Binary64
  | '-' :: cs => readUnsigned true cs
  | '+' :: cs => readUnsigned false cs
  | cs => if cs.map Char.toLower = "nan".toList then some .nan else readUnsigned false cs

end KernelIR.Number
