namespace KernelIR.Document

def isBreak (c : Char) : Bool :=
  c = '\n' || c = '\r' || c.toNat = 0x85 || c.toNat = 0x2028 || c.toNat = 0x2029

def isSpace (c : Char) : Bool := c = ' ' || c = '\t'

/-- What stands behind the last character of a text. -/
def endMark : Char := '\x00'

/-- What may stand at the start of a text or of a line without belonging to it. -/
def orderMark : Char := '\ufeff'

/-- The characters that a document may contain. The end mark is not one of them. -/
def isAllowed (c : Char) : Bool :=
  let n := c.toNat
  n = 9 || n = 10 || n = 13 || (0x20 ≤ n && n ≤ 0x7E) || n = 0x85 || (0xA0 ≤ n && n ≤ 0xFFFD) ||
    0x10000 ≤ n

/-- Whether a word ends before this character. -/
def endsWord (c : Char) : Bool := isSpace c || isBreak c || c = endMark

/-- The most bytes of a portion in which a text arrives. -/
def portionSize : Nat := 512

/-- Cuts a text into portions without cutting a character. The portion at hand, latest character
first, has `used` bytes. -/
def portions (used : Nat) (portion : List Char) : List Char → List (List Char)
  | [] => if portion.isEmpty then [] else [portion.reverse]
  | c :: cs =>
    if portionSize < used + c.utf8Size then portion.reverse :: portions c.utf8Size [c] cs
    else portions (used + c.utf8Size) (c :: portion) cs

/-- A place in a text. What lies ahead of it has partly arrived; `marked` tells whether an order
mark stood there when the latest portion came, and `breaks` counts the lines ended since the last
character other than a blank. -/
structure Cursor where
  ahead : List Char := []
  pending : List (List Char)
  marked : Bool := false
  line : Nat := 0
  column : Nat := 0
  index : Nat := 0
  breaks : Nat := 0
deriving Repr, Inhabited

namespace Cursor

/-- The start of a text, behind an order mark. -/
def ofText (text : List Char) : Cursor where
  pending := match text with
    | c :: cs => if c = orderMark then portions orderMark.utf8Size [] cs else portions 0 [] text
    | [] => []

def char (k : Cursor) : Char := k.ahead.headD endMark

def charAt (k : Cursor) (i : Nat) : Char := k.ahead.getD i endMark

def atEnd (k : Cursor) : Bool := k.char = endMark

/-- Takes portions until `n` characters are at hand or the text ends. -/
def arrive (n : Nat) (ahead : List Char) : List (List Char) → Option (List Char × List (List Char))
  | [] => some (ahead ++ [endMark], [])
  | p :: ps =>
    if !p.all isAllowed then none
    else if (ahead ++ p).length < n then arrive n (ahead ++ p) ps
    else some (ahead ++ p, ps)

/-- Makes sure that `n` characters are at hand. It fails if a character arrives that a document may
not contain. -/
def await (n : Nat) (k : Cursor) : Option Cursor :=
  if (k.ahead.drop (n - 1)).isEmpty then
    (arrive n k.ahead k.pending).map fun (ahead, pending) =>
      { k with ahead, pending, marked := ahead.head? = some orderMark }
  else some k

/-- Past one character of the line. -/
def next (k : Cursor) : Cursor :=
  { k with
    ahead := k.ahead.drop 1
    column := k.column + 1
    index := k.index + 1
    breaks := if isSpace k.char then k.breaks else 0 }

def skip (k : Cursor) : Nat → Cursor
  | 0 => k
  | n + 1 => k.next.skip n

/-- Past a line break, which may be a carriage return and a line feed. -/
def nextLine (k : Cursor) : Cursor :=
  let n := if k.char = '\r' && k.charAt 1 = '\n' then 2 else 1
  { k with
    ahead := k.ahead.drop n
    line := k.line + 1
    column := 0
    index := k.index + n
    breaks := k.breaks + 1 }

/-- The text of a line break: most kinds count as a line feed. -/
def breakChar (k : Cursor) : Char :=
  if k.char.toNat = 0x2028 || k.char.toNat = 0x2029 then k.char else '\n'

/-- A line that begins with three dashes or three dots. -/
def atDocumentMark (k : Cursor) (mark : Char) : Bool :=
  k.column = 0 && k.ahead.take 3 = [mark, mark, mark] && endsWord (k.charAt 3)

def atAnyDocumentMark (k : Cursor) : Bool := k.atDocumentMark '-' || k.atDocumentMark '.'

/-- Past spaces, and past tabs where they count as blanks. -/
def skipSpaces (tabs : Bool) : (fuel : Nat) → Cursor → Option Cursor
  | 0, k => some k
  | fuel + 1, k =>
    if k.char = ' ' || (tabs && k.char = '\t') then (k.next.await 1).bind (skipSpaces tabs fuel)
    else some k

/-- To the end of the line. -/
def skipRest : (fuel : Nat) → Cursor → Option Cursor
  | 0, k => some k
  | fuel + 1, k => do
    let k ← k.await 1
    if isBreak k.char || k.atEnd then some k else skipRest fuel k.next

/-- Past blanks and line breaks up to an index of the text. -/
def skipTo (index : Nat) : (fuel : Nat) → Cursor → Option Cursor
  | 0, k => some k
  | fuel + 1, k =>
    if index ≤ k.index then some k
    else do
      let k ← k.await 1
      if isBreak k.char then skipTo index fuel (← k.await 2).nextLine else skipTo index fuel k.next

/-- The farthest that a comment is looked for. -/
def commentReach : Nat := 512

/-- How far ahead, from `i` on, a comment begins behind blanks and, across lines, line breaks. The
search does not pass a line break of more than one byte. -/
def commentAhead (acrossLines : Bool) :
    (fuel i : Nat) → Cursor → Option (Cursor × Option Nat)
  | 0, _, k => some (k, none)
  | fuel + 1, i, k => do
    let k ← k.await (i + 1)
    let before := k.charAt (i - 1)
    let c := k.charAt i
    if isBreak before && before ≠ '\n' && before ≠ '\r' then some (k, none)
    else if c = '#' then some (k, some i)
    else if isSpace c || (acrossLines && isBreak c) then commentAhead acrossLines fuel (i + 1) k
    else some (k, none)

/-- From a comment to the end of its line, and on to the end of the last comment that follows it
with nothing but blanks and line breaks between. -/
def skipComments : (fuel : Nat) → Cursor → Option Cursor
  | 0, k => some k
  | fuel + 1, k => do
    let k ← skipRest (fuel + 1) k
    match ← k.commentAhead true (commentReach - 1) 1 with
    | (k, some i) => skipComments fuel (← k.skipTo (k.index + i) (fuel + 1))
    | (k, none) => some k

/-- Past a comment that follows on the line. -/
def skipLineComment (fuel : Nat) (k : Cursor) : Option Cursor :=
  if 0 < k.breaks then some k
  else do
    match ← k.commentAhead false commentReach 0 with
    | (k, some i) => skipRest fuel (← k.skipTo (k.index + i) fuel)
    | (k, none) => some k

end Cursor

end KernelIR.Document
