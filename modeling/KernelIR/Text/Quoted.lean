import KernelIR.Text.Graphic

namespace KernelIR.Text

/-- A number in lower-case hexadecimal, with at least `width` digits. -/
def hex (width n : Nat) : String :=
  let digits := Nat.toDigits 16 n
  String.ofList (List.replicate (width - digits.length) '0' ++ digits)

/-- One character inside double quotes: the named escapes, the two-digit form for the other
ASCII controls, four or eight digits for what shows no mark, and all else as it is. -/
def quoteChar (c : Char) : String :=
  match c.toNat with
  | 7 => "\\a"
  | 8 => "\\b"
  | 9 => "\\t"
  | 10 => "\\n"
  | 11 => "\\v"
  | 12 => "\\f"
  | 13 => "\\r"
  | 34 => "\\\""
  | 92 => "\\\\"
  | n =>
    if n < 0x20 || n == 0x7F then "\\x" ++ hex 2 n
    else if isGraphic c then String.singleton c
    else if n < 0x10000 then "\\u" ++ hex 4 n
    else "\\U" ++ hex 8 n

/-- A text in double quotes. -/
def quote (s : String) : String :=
  "\"" ++ String.join (s.toList.map quoteChar) ++ "\""

end KernelIR.Text
