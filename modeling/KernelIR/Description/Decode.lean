import KernelIR.Description.Basic
import KernelIR.Document.Node

namespace KernelIR

namespace Document.Node

/-- No two keys of a mapping have the same text or are both collections of one kind. -/
def sameKey : Node → Node → Bool
  | .scalar a _, .scalar b _ => a = b
  | .sequence _, .sequence _ => true
  | .mapping _, .mapping _ => true
  | _, _ => false

def uniqueKeys : List (Node × Node) → Bool
  | [] => true
  | (k, _) :: rest => !rest.any (fun e => sameKey k e.1) && uniqueKeys rest

/-- The entries of a mapping by the texts of their keys. A null key is passed over, and null
stands for no entries. -/
def fields? (n : Node) : Option (List (String × Node)) :=
  if n.isNull then some []
  else
    match n with
    | .mapping entries =>
      if uniqueKeys entries && entries.all (fun e => e.1 matches .scalar ..) then
        some <| entries.filterMap fun e =>
          match e with
          | (.scalar k plain, v) => if isNull (.scalar k plain) then none else some (k, v)
          | _ => none
      else none
    | _ => none

/-- The text of a scalar, null being empty. -/
def text? (n : Node) : Option String :=
  if n.isNull then some ""
  else
    match n with
    | .scalar text _ => some text
    | _ => none

/-- The items of a sequence, null standing for none. -/
def items? (n : Node) : Option (List Node) :=
  if n.isNull then some []
  else
    match n with
    | .sequence items => some items
    | _ => none

/-- A list of which the null items are passed over. -/
def list? {α : Type} (item : Node → Option α) (n : Node) : Option (List α) :=
  n.items?.bind fun items => (items.filter fun i => !i.isNull).mapM item

/-- A record read field by field, starting from its default. Unknown fields are passed over. -/
def record? {α : Type} (start : α) (field : String → Node → α → Option α) (n : Node) : Option α :=
  n.fields?.bind fun fields => fields.foldlM (fun r e => field e.1 e.2 r) start

end Document.Node

open Document (Node)

def InstrSpec.ofNode? : Node → Option InstrSpec :=
  Node.record? {} fun key n s =>
    match key with
    | "name" => n.text?.map fun t => { s with name := t }
    | "op" => n.text?.map fun t => { s with op := t }
    | "type" => n.text?.map fun t => { s with type := t }
    | "pred" => n.text?.map fun t => { s with pred := t }
    | "args" => (n.list? Node.text?).map fun l => { s with args := l }
    | "targets" => (n.list? Node.text?).map fun l => { s with targets := l }
    | "from" => (n.list? Node.text?).map fun l => { s with sources := l }
    | _ => some s

def BlockSpec.ofNode? : Node → Option BlockSpec :=
  Node.record? {} fun key n s =>
    match key with
    | "name" => n.text?.map fun t => { s with name := t }
    | "ins" => (n.list? InstrSpec.ofNode?).map fun l => { s with instrs := l }
    | _ => some s

def TypedSpec.ofNode? : Node → Option TypedSpec :=
  Node.record? {} fun key n s =>
    match key with
    | "name" => n.text?.map fun t => { s with name := t }
    | "type" => n.text?.map fun t => { s with type := t }
    | _ => some s

def FuncSpec.ofNode? : Node → Option FuncSpec :=
  Node.record? {} fun key n s =>
    match key with
    | "name" => n.text?.map fun t => { s with name := t }
    | "ret" => n.text?.map fun t => { s with ret := t }
    | "params" => (n.list? TypedSpec.ofNode?).map fun l => { s with params := l }
    | "intrinsic" => n.text?.map fun t => { s with intrinsic := t }
    | "blocks" => (n.list? BlockSpec.ofNode?).map fun l => { s with blocks := l }
    | _ => some s

/-- The nodes of a metadata table; a null node is an empty one. -/
def TableSpec.nodes? (n : Node) : Option (List (List String)) :=
  n.items?.bind fun items => items.mapM (Node.list? Node.text?)

def TableSpec.list? (n : Node) : Option (List TableSpec) :=
  n.fields?.bind fun fields =>
    fields.mapM fun e => (TableSpec.nodes? e.2).map fun nodes => { name := e.1, nodes }

/-- The description that a document holds; nothing if a field has the wrong shape. -/
def ModuleSpec.ofNode? : Node → Option ModuleSpec :=
  Node.record? {} fun key n s =>
    match key with
    | "name" => n.text?.map fun t => { s with name := t }
    | "globals" => (n.list? TypedSpec.ofNode?).map fun l => { s with globals := l }
    | "functions" => (n.list? FuncSpec.ofNode?).map fun l => { s with functions := l }
    | "metadata" => (TableSpec.list? n).map fun l => { s with tables := l }
    | _ => some s

end KernelIR
