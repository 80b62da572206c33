import KernelIR.Document.Layout

namespace KernelIR.Document

/-- A document as a tree. A scalar keeps its text as written, and whether it had quotes. -/
inductive Node where
  | scalar (text : String) (plain : Bool)
  | sequence (items : List Node)
  | mapping (entries : List (Node × Node))
deriving Repr, Inhabited

namespace Node

/-- What stands where nothing was written. -/
def empty : Node := .scalar "" true

/-- The plain scalars that stand for no value. -/
def isNull : Node → Bool
  | .scalar text plain => plain && ["", "~", "null", "Null", "NULL"].contains text
  | _ => false

/-- Where the content of an entry of a block sequence is left out. -/
def endsItem (t : Token) : Bool := t = .entry || t = .blockEnd

/-- Where a key or a value of a block mapping is left out. -/
def endsBlockEntry (t : Token) : Bool := t = .key || t = .value || t = .blockEnd

/-- Where the value of a key in a flow collection is left out. -/
def endsFlowItem (close t : Token) : Bool := t = .comma || t = close

/-- Where a document is left out. -/
def endsDocument (t : Token) : Bool := t = .documentStart || t = .documentEnd || t = .finish

mutual

/-- The node at the beginning of the tokens. In a block a collection may be indented, and the
value of a key may be a sequence that is not. -/
def ofLayout (block bare : Bool) : (fuel : Nat) → Layout → Option (Node × Layout)
  | 0, _ => none
  | fuel + 1, s => do
    let (t, s) ← s.peek
    match t with
    | .scalar text plain => some (.scalar (String.ofList text) plain, s.drop)
    | .flowSequenceStart => flowItems fuel true [] s.drop
    | .flowMappingStart => flowEntries fuel true [] s.drop
    | .blockSequenceStart => if block then blockItems fuel [] s.drop else none
    | .blockMappingStart => if block then blockEntries fuel [] s.drop else none
    | .entry => if bare then bareItems fuel [] s else none
    | _ => none

/-- The content of an entry, or nothing. -/
def content (stop : Token → Bool) (block bare : Bool) :
    (fuel : Nat) → Layout → Option (Node × Layout)
  | 0, _ => none
  | fuel + 1, s => do
    let (t, s) ← s.peek
    if stop t then some (empty, s) else ofLayout block bare fuel s

/-- The value that follows a key, or nothing. -/
def valueAfterKey (stop : Token → Bool) (block bare : Bool) :
    (fuel : Nat) → Layout → Option (Node × Layout)
  | 0, _ => none
  | fuel + 1, s => do
    let (t, s) ← s.peek
    if t = .value then content stop block bare fuel s.drop else some (empty, s)

def blockItems : (fuel : Nat) → List Node → Layout → Option (Node × Layout)
  | 0, _, _ => none
  | fuel + 1, items, s => do
    let (t, s) ← s.peek
    match t with
    | .entry =>
      let (n, s) ← content endsItem true false fuel s.drop
      blockItems fuel (items ++ [n]) s
    | .blockEnd => some (.sequence items, s.drop)
    | _ => none

def bareItems : (fuel : Nat) → List Node → Layout → Option (Node × Layout)
  | 0, _, _ => none
  | fuel + 1, items, s => do
    let (t, s) ← s.peek
    if t = .entry then
      let (n, s) ← content (fun t => endsItem t || endsBlockEntry t) true false fuel s.drop
      bareItems fuel (items ++ [n]) s
    else some (.sequence items, s)

def blockEntries : (fuel : Nat) → List (Node × Node) → Layout → Option (Node × Layout)
  | 0, _, _ => none
  | fuel + 1, entries, s => do
    let (t, s) ← s.peek
    match t with
    | .key =>
      let (k, s) ← content endsBlockEntry true true fuel s.drop
      let (v, s) ← valueAfterKey endsBlockEntry true true fuel s
      blockEntries fuel (entries ++ [(k, v)]) s
    | .blockEnd => some (.mapping entries, s.drop)
    | _ => none

/-- The items of a flow sequence; a key with its value makes a mapping of one entry. Where such a
key is left out, the token behind it goes with it. -/
def flowItems : (fuel : Nat) → (first : Bool) → List Node → Layout → Option (Node × Layout)
  | 0, _, _, _ => none
  | fuel + 1, first, items, s => do
    let close := Token.flowSequenceEnd
    let (t, s) ← s.peek
    if t = close then some (.sequence items, s.drop)
    else if !first && t ≠ .comma then none
    else
      let (t, s) ← if first then some (t, s) else s.drop.peek
      if t = close then some (.sequence items, s.drop)
      else if t = .key then
        let (t, s) ← s.drop.peek
        let (k, s) ← if t = .value || endsFlowItem close t then some (empty, s.drop)
          else ofLayout false false fuel s
        let (v, s) ← valueAfterKey (endsFlowItem close) false false fuel s
        flowItems fuel false (items ++ [.mapping [(k, v)]]) s
      else
        let (n, s) ← ofLayout false false fuel s
        flowItems fuel false (items ++ [n]) s

def flowEntries : (fuel : Nat) → (first : Bool) → List (Node × Node) → Layout →
    Option (Node × Layout)
  | 0, _, _, _ => none
  | fuel + 1, first, entries, s => do
    let close := Token.flowMappingEnd
    let (t, s) ← s.peek
    if t = close then some (.mapping entries, s.drop)
    else if !first && t ≠ .comma then none
    else
      let (t, s) ← if first then some (t, s) else s.drop.peek
      if t = close then some (.mapping entries, s.drop)
      else if t = .key then
        let (k, s) ← content (fun t => t = .value || endsFlowItem close t) false false fuel s.drop
        let (v, s) ← valueAfterKey (endsFlowItem close) false false fuel s
        flowEntries fuel false (entries ++ [(k, v)]) s
      else
        let (k, s) ← ofLayout false false fuel s
        let (_, s) ← s.peek
        flowEntries fuel false (entries ++ [(k, empty)]) s

end

/-- The first document of a text, an empty one being a null scalar. What follows it is looked at
only as far as the reader looks ahead. -/
def read? (text : List Char) : Option Node := do
  let fuel := 16 * text.length + 64
  let (t, s) ← (Layout.ofText text).peek
  let (n, s) ← match t with
    | .finish => some (empty, s)
    | .documentStart => content endsDocument true false fuel s.drop
    | _ => ofLayout true false fuel s
  let _ ← s.peek
  return n

end Node

end KernelIR.Document
