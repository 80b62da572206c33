import KernelIR.Document.Cursor

namespace KernelIR.Document

/-- The pieces of a document. The three block marks delimit collections that the text shows by
indentation only; the last one stands for the end of the text. -/
inductive Token where
  | documentStart | documentEnd
  | blockSequenceStart | blockMappingStart | blockEnd
  | flowSequenceStart | flowSequenceEnd | flowMappingStart | flowMappingEnd
  | entry | comma | key | value
  | scalar (text : List Char) (plain : Bool)
  | finish
deriving DecidableEq, Repr, Inhabited

/-- Blanks and line breaks inside a scalar. After a line has ended, the blanks no longer count. -/
structure Gap where
  spaces : List Char := []
  folded : Bool := false
  first : Option Char := none
  more : List Char := []
deriving Repr, Inhabited

/-- What the gap contributes to the scalar: its spaces within a line, one space for a single line
feed, or the further breaks after it. -/
def Gap.text (g : Gap) : List Char :=
  if g.folded then
    match g.first with
    | some c => if c ≠ '\n' then c :: g.more else if g.more.isEmpty then [' '] else g.more
    | none => g.more
  else g.spaces

def Gap.addSpace (g : Gap) (c : Char) : Gap :=
  if g.folded then g else { g with spaces := g.spaces ++ [c] }

def Gap.addBreak (g : Gap) (c : Char) : Gap :=
  if g.folded then { g with more := g.more ++ [c] } else { folded := true, first := some c }

/-- Reads the blanks and line breaks after a word. A tab may not stand where the indentation of a
continued plain scalar is expected. -/
def readGap (indent : Option Int) : (fuel : Nat) → Cursor → Gap → Option (Cursor × Gap)
  | 0, k, g => some (k, g)
  | fuel + 1, k, g =>
    if isSpace k.char then
      if g.folded && k.char = '\t' && indent.any (fun i => (k.column : Int) < i) then none
      else do readGap indent fuel (← k.next.await 1) (g.addSpace k.char)
    else if isBreak k.char then do
      let k ← k.await 2
      readGap indent fuel (← k.nextLine.await 1) (g.addBreak k.breakChar)
    else some (k, g)

/-- A plain scalar ends before these. -/
def endsPlain (inFlow : Bool) (k : Cursor) : Bool :=
  let c := k.char
  endsWord c || (c = ':' && endsWord (k.charAt 1)) ||
    (inFlow && (c = ',' || c = '?' || c = '[' || c = ']' || c = '\x7b' || c = '\x7d'))

/-- Reads one word of a plain scalar, latest character first. -/
def readWord (inFlow : Bool) : (fuel : Nat) → Cursor → List Char → Option (Cursor × List Char)
  | 0, k, word => some (k, word)
  | fuel + 1, k, word =>
    if endsPlain inFlow k then some (k, word)
    else do readWord inFlow fuel (← k.next.await 2) (k.char :: word)

/-- Reads a plain scalar: words and the gaps between them, to the last word. The result tells
whether a line ended behind it. -/
def readPlain (inFlow : Bool) (indent : Int) :
    (fuel : Nat) → Cursor → Gap → List Char → Option (Cursor × List Char × Bool)
  | 0, k, gap, text => some (k, text, gap.folded)
  | fuel + 1, k, gap, text => do
    let k ← k.await 4
    if k.atAnyDocumentMark || k.char = '#' then some (k, text, gap.folded)
    else
      let (k, word) ← readWord inFlow (fuel + 1) k []
      let (gap, text) :=
        if word.isEmpty then (gap, text) else ({}, text ++ gap.text ++ word.reverse)
      if !isSpace k.char && !isBreak k.char then some (k, text, gap.folded)
      else
        let (k, gap) ← readGap (some indent) (fuel + 1) (← k.await 1) gap
        if !inFlow && (k.column : Int) < indent then some (k, text, gap.folded)
        else readPlain inFlow indent fuel k gap text

def hexValue? (c : Char) : Option Nat :=
  if c.isDigit then some (c.toNat - '0'.toNat)
  else if 'a' ≤ c.toLower && c.toLower ≤ 'f' then some (c.toLower.toNat - 'a'.toNat + 10)
  else none

/-- A number of exactly `n` hexadecimal digits. -/
def readHex (n : Nat) (cs : List Char) : Option Nat :=
  if cs.length < n then none
  else (cs.take n).foldl (fun v c => v.bind fun v => (hexValue? c).map (v * 16 + ·)) (some 0)

/-- The character that a letter behind a backslash stands for. -/
def escaped? : Char → Option Char
  | '0' => some '\x00'
  | 'a' => some '\x07'
  | 'b' => some '\x08'
  | 't' | '\t' => some '\t'
  | 'n' => some '\n'
  | 'v' => some '\x0b'
  | 'f' => some '\x0c'
  | 'r' => some '\x0d'
  | 'e' => some '\x1b'
  | ' ' => some ' '
  | '\x22' => some '\x22'
  | '\x27' => some '\x27'
  | '\\' => some '\\'
  | 'N' => some (Char.ofNat 0x85)
  | '_' => some (Char.ofNat 0xA0)
  | 'L' => some (Char.ofNat 0x2028)
  | 'P' => some (Char.ofNat 0x2029)
  | _ => none

/-- How many hexadecimal digits follow a letter behind a backslash. -/
def escapeDigits? : Char → Option Nat
  | 'x' => some 2
  | 'u' => some 4
  | 'U' => some 8
  | _ => none

/-- Reads an escape: a backslash and a letter, or a backslash, a letter and the number of a
character. -/
def readEscape (k : Cursor) : Option (Cursor × Char) :=
  match escaped? (k.charAt 1), escapeDigits? (k.charAt 1) with
  | some c, _ => some (k.skip 2, c)
  | none, some n => do
    let k ← (k.skip 2).await n
    let v ← readHex n k.ahead
    if (0xD800 ≤ v && v ≤ 0xDFFF) || 0x10FFFF < v then none else some (k.skip n, Char.ofNat v)
  | none, none => none

/-- Reads the characters of a quoted scalar up to a blank, a line break or the closing quote, latest
character first. In double quotes a backslash at the end of a line joins it to the next, which is
the last part of the result. -/
def readQuotedWord (mark : Char) :
    (fuel : Nat) → Cursor → List Char → Option (Cursor × List Char × Bool)
  | 0, k, word => some (k, word, false)
  | fuel + 1, k, word =>
    let c := k.char
    if endsWord c then some (k, word, false)
    else if c = '\x27' && c = mark && k.charAt 1 = mark then do
      readQuotedWord mark fuel (← (k.skip 2).await 2) (c :: word)
    else if c = mark then some (k, word, false)
    else if c = '\\' && mark = '\x22' then
      if isBreak (k.charAt 1) then do
        let k ← k.await 3
        some (k.next.nextLine, word, true)
      else do
        let (k, e) ← readEscape k
        readQuotedWord mark fuel (← k.await 2) (e :: word)
    else do readQuotedWord mark fuel (← k.next.await 2) (c :: word)

/-- Reads a quoted scalar after its opening quote, up to and with the closing one. -/
def readQuoted (mark : Char) : (fuel : Nat) → Cursor → List Char → Option (Cursor × List Char)
  | 0, _, _ => none
  | fuel + 1, k, text => do
    let k ← k.await 4
    if k.atAnyDocumentMark || k.atEnd then none
    else
      let (k, word, joined) ← readQuotedWord mark (fuel + 1) k []
      let k ← k.await 1
      let text := text ++ word.reverse
      if k.char = mark then some (k.next, text)
      else
        let (k, gap) ← readGap none (fuel + 1) k { folded := joined }
        readQuoted mark fuel k (text ++ gap.text)

end KernelIR.Document
