import KernelIR.Function
import KernelIR.Text.Quoted

namespace KernelIR

/-- An operand of a metadata node. -/
inductive MetadataItem where
  | value (v : Value)
  | text (s : String)
deriving Repr, Inhabited

abbrev MetadataNode := List MetadataItem

structure MetadataTable where
  name : String
  nodes : List MetadataNode
deriving Repr, Inhabited

/-- Functions, variables and metadata tables. A function that was taken out is kept in `dropped`,
because calls may still refer to it. The tables are in the order of their names. -/
structure Module where
  name : String
  globals : List Global := []
  functions : List Func := []
  dropped : List Func := []
  tables : List MetadataTable := []
deriving Repr, Inhabited

/-- Whether the first operand of a node is a function. -/
def MetadataNode.refersTo (node : MetadataNode) (id : FuncId) : Bool :=
  match node with
  | .value (.func k) :: _ => k = id
  | _ => false

/-- Adds a node at the end of its table, which is created in name order on first use. -/
def addNode (name : String) (node : MetadataNode) : List MetadataTable → List MetadataTable
  | [] => [⟨name, [node]⟩]
  | t :: ts =>
    if t.name = name then { t with nodes := t.nodes ++ [node] } :: ts
    else if name < t.name then ⟨name, [node]⟩ :: t :: ts
    else t :: addNode name node ts

namespace Module

/-- Every function that was ever in the module. -/
def known (m : Module) : List Func := m.functions ++ m.dropped

def func? (m : Module) (id : FuncId) : Option Func := m.known.find? fun f => f.id = id

def funcNamed? (m : Module) (name : String) : Option Func :=
  m.functions.find? fun f => f.name = name

/-- The function of that name that was made last, even if it was taken out. -/
def latestNamed? (m : Module) (name : String) : Option Func :=
  m.known.foldl (fun found f =>
    if f.name = name && found.all (fun g => g.id < f.id) then some f else found) none

def globalNamed? (m : Module) (name : String) : Option Global :=
  m.globals.find? fun g => g.name = name

def table? (m : Module) (name : String) : Option MetadataTable :=
  m.tables.find? fun t => t.name = name

def instr? (m : Module) (id : InstrId) : Option Instr :=
  m.known.findSome? fun f => f.instr? id

/-- The block that an instruction belongs to, as it is recorded. -/
def owner? (m : Module) (id : InstrId) : Option BlockRef :=
  m.known.findSome? fun f => f.owner? id

def block? (m : Module) (b : BlockRef) : Option Block :=
  (m.func? b.func).bind fun f => f.block? b.number

/-- The function that a block says it was made in. -/
def home? (m : Module) (b : BlockRef) : Option Func :=
  (m.block? b).bind fun k => m.func? k.parent

def label (m : Module) (b : BlockRef) : String :=
  match m.func? b.func with
  | some f => f.label b.number
  | none => ""

/-- The number of blocks of all functions. -/
def blockCount (m : Module) : Nat := (m.known.flatMap fun f => f.blocks).length

/-- The number of the next function. -/
def nextFunc (m : Module) : FuncId := m.known.length

def addFunction (m : Module) (f : Func) : Module :=
  { m with functions := m.functions ++ [f] }

def addGlobal (m : Module) (g : Global) : Module :=
  { m with globals := m.globals ++ [g] }

def addMetadata (m : Module) (table : String) (node : MetadataNode) : Module :=
  { m with tables := addNode table node m.tables }

/-- Stores the new state of a function, wherever it is. -/
def update (m : Module) (f : Func) : Module :=
  let put (g : Func) : Func := if g.id = f.id then f else g
  { m with functions := m.functions.map put, dropped := m.dropped.map put }

/-- Takes a function out, with the metadata nodes that begin with it. Nothing if it is not
there. -/
def removeFunction? (m : Module) (id : FuncId) : Option Module :=
  if m.functions.any fun f => f.id = id then
    some { m with
      functions := m.functions.filter fun f => f.id ≠ id
      dropped := m.dropped ++ m.functions.filter fun f => f.id = id
      tables := m.tables.map fun t => { t with nodes := t.nodes.filter fun n => !n.refersTo id } }
  else none

/-- The names and types behind references. -/
def scope (m : Module) : Scope where
  func id :=
    match m.func? id with
    | some f => (f.name, f.ty)
    | none => ("", .void)
  instr id :=
    match m.instr? id with
    | some i => (i.name, i.ty)
    | none => ("", .void)
  label := m.label

end Module

end KernelIR
