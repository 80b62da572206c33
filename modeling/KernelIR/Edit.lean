import KernelIR.Listing

namespace KernelIR

/-- Why an edit cannot be carried out. -/
inductive EditFault where
  | noInsertionBlock
  | owned
  | notBinary (op : Opcode)
  | notCast (op : Opcode)
  | notPhi
  | manyReturnValues
  | noTerminator (label : String)
  | notInBlock (id : InstrId) (label : String)
  | foreignBlock (label func : String)
  | missingSource (name : String)
  | selfEdge
  | unknownInstr
  | unknownFunc
deriving DecidableEq, Repr

/-- The message for a fault; the module knows the text of instructions. -/
def EditFault.message (m : Module) : EditFault → String
  | .noInsertionBlock => "ir: builder has no insertion block"
  | .owned => "ir: instruction already has a parent block"
  | .notBinary op => "ir: not a binary operator: " ++ op.text
  | .notCast op => "ir: not a cast operator: " ++ op.text
  | .notPhi => "ir: not a phi node"
  | .manyReturnValues => "ir: ret takes at most one value"
  | .noTerminator label => "ir: block " ++ label ++ " has no terminator"
  | .notInBlock id label =>
    "ir: instruction " ++ m.printValue (.instr id) ++ " does not belong to " ++ label
  | .foreignBlock label func => "ir: block " ++ label ++ " does not belong to " ++ func
  | .missingSource name => "ir: phi " ++ name ++ " has a value without a source block"
  | .selfEdge => "simple: adding self edge"
  | .unknownInstr => "ir: unknown instruction"
  | .unknownFunc => "ir: unknown function"

/-- A change of some state that may fail. What was already changed by then stays changed. -/
abbrev Edit (σ α : Type) := EStateM EditFault σ α

/-- Carries out an edit on a part of the state. -/
def Edit.within {σ τ α : Type} (get : σ → τ) (put : σ → τ → σ) (e : Edit τ α) : Edit σ α := fun s =>
  match e (get s) with
  | .ok a t => .ok a (put s t)
  | .error x t => .error x (put s t)

namespace Func

/-- The identity of the next instruction. -/
def nextId (f : Func) : InstrId := ⟨f.id, f.nextSerial⟩

/-- Records that an instruction was put into a block of the function. -/
def adopt (f : Func) (id : InstrId) (b : BlockId) : Func :=
  { f with parents := (id, f.ref b) :: f.parents }

/-- Adds an instruction at the end of a block, to which it belongs from then on. -/
def push (f : Func) (b : BlockId) (i : Instr) : Func :=
  (f.mapBlock b fun k => { k with instrs := k.instrs ++ [i] }).adopt i.id b

/-- Makes an instruction at the end of a block. -/
def emit (f : Func) (b : BlockId) (o : Operation) : Func :=
  { f.push b { o with id := f.nextId } with nextSerial := f.nextSerial + 1 }

/-- Makes an instruction that stands in no block. -/
def emitLoose (f : Func) (o : Operation) : Func :=
  { f with loose := f.loose ++ [{ o with id := f.nextId }], nextSerial := f.nextSerial + 1 }

/-- Changes an instruction in place. -/
def mapInstr (f : Func) (id : InstrId) (g : Operation → Operation) : Func :=
  let change (i : Instr) : Instr := if i.id = id then { g i.toOperation with id := i.id } else i
  { f with
    blocks := f.blocks.map fun k => { k with instrs := k.instrs.map change }
    loose := f.loose.map change }

/-- Adds an empty block at the end. Its number is `maxBlock` of the result. -/
def newBlock (f : Func) (name : String) : Func :=
  { f with blocks := f.blocks ++ [⟨f.maxBlock + 1, name, f.id, []⟩], maxBlock := f.maxBlock + 1 }

/-- The blocks with another one right before the first that satisfies `p`. -/
def insertBefore (p : Block → Bool) (new : Block) : List Block → List Block
  | [] => []
  | b :: bs => if p b then new :: b :: bs else b :: insertBefore p new bs

/-- Adds an empty block right before a block of function `home`. The number is used up even if that
is another function. -/
def newBlockBefore (name : String) (home : FuncId) (pos : Block) : Edit Func BlockId := fun f =>
  let id := f.maxBlock + 1
  let g := { f with maxBlock := id }
  if home = f.id && (f.block? pos.id).isSome then
    .ok id { g with blocks := insertBefore (fun k => k.id = pos.id) ⟨id, name, f.id, []⟩ f.blocks }
  else .error (.foreignBlock pos.label f.name) g

/-- Takes an instruction out of a block; it is loose afterwards and belongs to no block. -/
def detach (f : Func) (id : InstrId) (b : BlockId) : Func :=
  { f.mapBlock b (Block.erase id) with
    loose := f.loose ++ ((f.block? b).bind fun k => k.instrs.find? fun i => i.id = id).toList
    parents := f.parents.filter fun e => e.1 ≠ id }

/-- Takes an instruction out of a block, which must hold it. -/
def remove (id : InstrId) (b : BlockId) : Edit Func Unit := fun f =>
  if (f.block? b).any fun k => k.holds id then .ok () (f.detach id b)
  else .error (.notInBlock id (f.label b)) f

/-- Takes a loose instruction away, to be put elsewhere. -/
def dropLoose (f : Func) (id : InstrId) : Func :=
  { f with loose := f.loose.filter fun i => i.id ≠ id }

def looseInstr? (f : Func) (id : InstrId) : Option Instr := f.loose.find? fun i => i.id = id

/-- Puts an instruction of the function at the end of a block. -/
def append (id : InstrId) (b : BlockId) : Edit Func Unit := fun f =>
  match f.instr? id with
  | some i => .ok () ((f.dropLoose id).push b i)
  | none => .error .unknownInstr f

/-- The instructions with another one right before the one with identity `pos`. -/
def insertInstr (pos : InstrId) (new : Instr) : List Instr → List Instr
  | [] => []
  | i :: is => if i.id = pos then new :: i :: is else i :: insertInstr pos new is

/-- Puts an instruction of the function before another one of a block, which must hold that one. -/
def putBefore (id pos : InstrId) (b : BlockId) : Edit Func Unit := fun f =>
  if (f.block? b).any fun k => k.holds pos then
    match f.instr? id with
    | some i =>
      .ok () (((f.dropLoose id).mapBlock b fun k =>
        { k with instrs := insertInstr pos i k.instrs }).adopt id b)
    | none => .error .unknownInstr f
  else .error (.notInBlock pos (f.label b)) f

/-- Adds a value and the block it flows in from to a phi. -/
def addIncoming (id : InstrId) (v : Value) (b : BlockRef) : Edit Func Unit := fun f =>
  match f.instr? id with
  | none => .error .unknownInstr f
  | some i =>
    if i.op = .phi then
      .ok () (f.mapInstr id fun o =>
        { o with operands := o.operands ++ [v], incoming := o.incoming ++ [b] })
    else .error .notPhi f

end Func

namespace Module

/-- Carries out an edit of one function. -/
def edit {α : Type} (id : FuncId) (e : Edit Func α) : Edit Module α := fun m =>
  match m.func? id with
  | none => .error .unknownFunc m
  | some f =>
    match e f with
    | .ok a f => .ok a (m.update f)
    | .error x f => .error x (m.update f)

/-- Whether an instruction belongs to a block. -/
def owned (m : Module) (id : InstrId) : Bool := (m.owner? id).isSome

/-- Hands a loose instruction of one function over to another. -/
def handOver (m : Module) (id : InstrId) (dst : FuncId) : Module :=
  match m.holder? id, m.func? dst with
  | some f, some g =>
    match f.looseInstr? id with
    | some i =>
      if f.id = g.id then m
      else (m.update (f.dropLoose id)).update { g with loose := g.loose ++ [i] }
    | none => m
  | _, _ => m

/-- Puts an instruction of any function that belongs to no block at the end of a block. -/
def append (id : InstrId) (b : BlockRef) : Edit Module Unit := fun m =>
  if m.owned id then .error .owned m
  else m.handOver id b.func |> edit b.func (Func.append id b.number)

/-- Takes an instruction out of the block that it belongs to, if there is one. -/
def release (id : InstrId) : Edit Module Unit := fun m =>
  match m.owner? id with
  | some b => edit b.func (Func.remove id b.number) m
  | none => .ok () m

/-- Puts an instruction of any function before another one of a block. -/
def putBefore (id pos : InstrId) (b : BlockRef) : Edit Module Unit := fun m =>
  m.handOver id b.func |> edit b.func (Func.putBefore id pos b.number)

/-- Moves an instruction of any function right before the terminator of a block. The instruction is
taken out of its block first, so that moving a terminator before itself fails and leaves it
loose. -/
def moveBeforeTerm (id : InstrId) (dst : BlockRef) : Edit Module Unit := fun m =>
  match (m.block? dst).bind Block.term? with
  | none => .error (.noTerminator (m.label dst)) m
  | some term => (do release id; putBefore id term.id dst) m

end Module

end KernelIR
