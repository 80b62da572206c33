import KernelIR.Document.Token

namespace KernelIR.Document

/-- A scalar or flow collection that a colon may still turn into a key: which token it is and where
it began. It is required when nothing but a key may stand there. It is awaited if it may not be
handed out before that is settled. -/
structure KeyMark where
  required : Bool
  awaited : Bool := true
  token : Nat
  line : Nat
  column : Nat
  index : Nat
deriving Repr, Inhabited

/-- A key must lie on the line of its colon and not too far before it. -/
def KeyMark.fresh (m : KeyMark) (k : Cursor) : Bool :=
  m.line = k.line && k.index ≤ m.index + 1024

/-- The block level or an open flow collection: the pending key and, until there has been one, the
token that opened the collection. -/
structure Level where
  key? : Option KeyMark := none
  opening? : Option Nat := none
deriving Repr, Inhabited

/-- The state of reading a document's layout. `queue` holds the tokens read and not yet handed out,
`taken` counts those before them. `indents` are the columns of the enclosing block collections,
innermost first; `outer` are the levels around the current one. `size` exceeds the length of the
text. -/
structure Layout where
  size : Nat
  cursor : Cursor
  queue : List Token := []
  taken : Nat := 0
  indents : List Int := []
  keyAllowed : Bool := true
  level : Level := {}
  outer : List Level := []
deriving Inhabited

namespace Layout

def ofText (text : List Char) : Layout := { size := text.length + 8, cursor := .ofText text }

/-- How deep collections may be nested. -/
def maxDepth : Nat := 10000

def indent (s : Layout) : Int := s.indents.headD (-1)

def inFlow (s : Layout) : Bool := !s.outer.isEmpty

/-- The number of the token that is read next. -/
def upcoming (s : Layout) : Nat := s.taken + s.queue.length

def push (s : Layout) (t : Token) : Layout := { s with queue := s.queue ++ [t] }

/-- Puts a token before the token with number `i`, or last if that one has been handed out. -/
def insert (s : Layout) (i : Nat) (t : Token) : Layout :=
  if i < s.taken then s.push t
  else { s with queue := s.queue.take (i - s.taken) ++ t :: s.queue.drop (i - s.taken) }

def setKey (s : Layout) (m : Option KeyMark) : Layout := { s with level.key? := m }

/-- Gives up the pending key of this level, unless it is required. -/
def dropKey (s : Layout) : Option Layout :=
  if s.level.key?.any KeyMark.required then none else some (s.setKey none)

/-- Notes that a key may begin here. -/
def saveKey (s : Layout) : Option Layout :=
  if s.keyAllowed then
    s.dropKey.map fun s =>
      let key : KeyMark := {
        required := !s.inFlow && s.indent = s.cursor.column
        token := s.upcoming
        line := s.cursor.line
        column := s.cursor.column
        index := s.cursor.index }
      { s with level := { key? := some key } }
  else some s

/-- Opens a block collection if the column lies deeper than the current one; its mark goes before
token `i`. -/
def roll (s : Layout) (column : Int) (i : Nat) (t : Token) : Option Layout :=
  if !s.inFlow && s.indent < column then
    if s.indents.length < maxDepth then some { s.insert i t with indents := column :: s.indents }
    else none
  else some s

/-- Closes the block collections that lie deeper than the column. -/
def unroll (s : Layout) (column : Int) : Layout :=
  if s.inFlow then s
  else
    let closed := s.indents.takeWhile fun i => column < i
    { s with
      indents := s.indents.drop closed.length
      queue := s.queue ++ List.replicate closed.length Token.blockEnd }

/-- Skips blanks, comments and line breaks. A tab counts as a blank only where no key may begin. At
the start of a line one character is passed over if an order mark stood where the latest portion
came. -/
def skipBlanks : (fuel : Nat) → Layout → Option Layout
  | 0, s => some s
  | fuel + 1, s => do
    let k ← s.cursor.await 1
    let k ← if k.column = 0 && k.marked then k.next.await 1 else some k
    let k ← k.skipSpaces (s.inFlow || !s.keyAllowed) (fuel + 1)
    let k ← if k.char = '#' then k.skipComments (fuel + 1) else some k
    if isBreak k.char then
      skipBlanks fuel { s with
        cursor := (← k.await 2).nextLine, keyAllowed := s.keyAllowed || !s.inFlow }
    else some { s with cursor := k }

/-- A token of one character. -/
def simple (s : Layout) (t : Token) : Layout := { s.push t with cursor := s.cursor.next }

/-- The end of the text, which counts as the start of a line. -/
def finish (s : Layout) : Option Layout :=
  let k := s.cursor
  let k := if k.column = 0 then k else { k with column := 0, line := k.line + 1 }
  (({ s with cursor := k } : Layout).unroll (-1)).dropKey.map fun s =>
    { s.push .finish with keyAllowed := false }

def documentMark (s : Layout) (t : Token) : Option Layout :=
  (s.unroll (-1)).dropKey.map fun s =>
    { s.push t with cursor := s.cursor.skip 3, keyAllowed := false }

def flowStart (s : Layout) (t : Token) : Option Layout := do
  let s ← s.saveKey
  if s.outer.length < maxDepth then
    some { s.simple t with
      level := { opening? := some s.upcoming }, outer := s.level :: s.outer, keyAllowed := true }
  else none

/-- Closes a flow collection. One in which no key could begin is no longer awaited as a key. -/
def flowEnd (s : Layout) (t : Token) : Option Layout :=
  s.dropKey.map fun s =>
    let closed := { s.simple t with keyAllowed := false }
    match s.outer with
    | [] => closed
    | l :: ls =>
      let key? := l.key?.map fun m =>
        { m with awaited := m.awaited && s.level.opening? ≠ some m.token }
      { closed with level := { l with key? }, outer := ls }

def comma (s : Layout) : Option Layout :=
  s.dropKey.map fun s => { s.simple .comma with keyAllowed := true }

def blockEntry (s : Layout) : Option Layout :=
  if !s.inFlow && !s.keyAllowed then none
  else do
    let s ← (← s.roll s.cursor.column s.upcoming .blockSequenceStart).dropKey
    some { s.simple .entry with keyAllowed := true }

def explicitKey (s : Layout) : Option Layout :=
  if !s.inFlow && !s.keyAllowed then none
  else do
    let s ← (← s.roll s.cursor.column s.upcoming .blockMappingStart).dropKey
    some { s.simple .key with keyAllowed := !s.inFlow }

/-- A colon ends the pending key, or follows an explicit one. -/
def colon (s : Layout) : Option Layout :=
  match s.level.key? with
  | some m =>
    if m.fresh s.cursor then do
      let s ← (s.insert m.token .key).roll m.column m.token .blockMappingStart
      some { (s.setKey none).simple .value with keyAllowed := false }
    else if m.required then none
    else bare (s.setKey none)
  | none => bare s
where
  bare (s : Layout) : Option Layout :=
    if !s.inFlow && !s.keyAllowed then none
    else do
      let rolled ← s.roll s.cursor.column s.upcoming .blockMappingStart
      some { rolled.simple .value with keyAllowed := !s.inFlow }

def quoted (s : Layout) (mark : Char) : Option Layout := do
  let s ← s.saveKey
  let (cursor, text) ← readQuoted mark s.size s.cursor.next []
  some { s.push (.scalar text false) with cursor, keyAllowed := false }

def plain (s : Layout) : Option Layout := do
  let s ← s.saveKey
  let (cursor, text, folded) ← readPlain s.inFlow (s.indent + 1) s.size s.cursor {} []
  some { s.push (.scalar text true) with cursor, keyAllowed := folded }

/-- The characters that begin something other than a plain scalar. -/
def isIndicator (c : Char) : Bool :=
  "-?:,[]\x7b\x7d#&*!|>\x27\x22%@\x60".toList.contains c

/-- Reads the token at the cursor, which is not a document mark. -/
def token (s : Layout) : Option Layout :=
  let c := s.cursor.char
  let d := s.cursor.charAt 1
  if c = '[' then s.flowStart .flowSequenceStart
  else if c = '\x7b' then s.flowStart .flowMappingStart
  else if c = ']' then s.flowEnd .flowSequenceEnd
  else if c = '\x7d' then s.flowEnd .flowMappingEnd
  else if c = ',' then s.comma
  else if c = '-' && endsWord d then s.blockEntry
  else if c = '?' && (s.inFlow || endsWord d) then s.explicitKey
  else if c = ':' && (s.inFlow || endsWord d) then s.colon
  else if c = '\x27' || c = '\x22' then s.quoted c
  else if (!endsWord c && !isIndicator c) || (c = '-' && !isSpace d) ||
      (!s.inFlow && (c = '?' || c = ':') && !endsWord d) then s.plain
  else none

/-- A comment may follow a token on its line, unless the token is the dash of an entry. -/
def skipLineComment (s : Layout) : Option Layout :=
  if s.queue.getLast? = some .entry then some s
  else (s.cursor.skipLineComment s.size).map fun cursor => { s with cursor }

/-- Reads the next token. At the end of the text there is always one more. -/
def advance (s : Layout) : Option Layout := do
  let s ← skipBlanks s.size s
  let s := s.unroll s.cursor.column
  let k ← s.cursor.await 4
  let s := { s with cursor := k }
  if k.atEnd then s.finish
  else if k.column = 0 && k.char = '%' then none
  else if k.atDocumentMark '-' then s.documentMark .documentStart
  else if k.atDocumentMark '.' then s.documentMark .documentEnd
  else (← s.token).skipLineComment

/-- How many tokens must be known before the first of them is handed out. -/
def lookahead : Nat := 3

/-- Finds the pending key whose token is the next to be handed out. -/
def awaitedKey? (s : Layout) : Option KeyMark :=
  (s.level :: s.outer).findSome? fun l => l.key?.filter fun m => m.awaited && m.token = s.taken

/-- Gives up the pending key whose token is the next to be handed out. -/
def giveUpKey (s : Layout) : Layout :=
  let clear (l : Level) : Level := { l with key? := l.key?.filter fun m => m.token ≠ s.taken }
  { s with level := clear s.level, outer := s.outer.map clear }

/-- Reads tokens until the first of the queue can be handed out. -/
def fill : (fuel : Nat) → Layout → Option Layout
  | 0, _ => none
  | fuel + 1, s =>
    if s.queue.length < lookahead then s.advance.bind (fill fuel)
    else
      match s.awaitedKey? with
      | none => some s
      | some m =>
        if m.fresh s.cursor then s.advance.bind (fill fuel)
        else if m.required then none
        else some s.giveUpKey

/-- The next token; nothing if the text is no document as far as it has to be read for that. -/
def peek (s : Layout) : Option (Token × Layout) :=
  (fill (s.size + lookahead) s).bind fun s => s.queue.head?.map fun t => (t, s)

def drop (s : Layout) : Layout := { s with queue := s.queue.drop 1, taken := s.taken + 1 }

end Layout

end KernelIR.Document
