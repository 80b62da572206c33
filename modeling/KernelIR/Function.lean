import KernelIR.Instr

namespace KernelIR

open Number (decimal)

/-- A straight line of instructions, with the function that it was made in. -/
structure Block where
  id : BlockId
  name : String
  parent : FuncId
  instrs : List Instr
deriving Repr, Inhabited

namespace Block

/-- A block without a name is called after its number. -/
def label (b : Block) : String :=
  if b.name = "" then "bb_" ++ decimal b.id else b.name

/-- The last instruction, if it ends the block. -/
def term? (b : Block) : Option Instr :=
  b.instrs.getLast?.filter fun i => i.op.isTerminator

/-- The blocks that the terminator leads to. -/
def succs (b : Block) : List BlockRef :=
  match b.term? with
  | some i => i.targets
  | none => []

def holds (b : Block) (id : InstrId) : Bool := b.instrs.any fun i => i.id = id

/-- The position of an instruction. -/
def indexOf? (b : Block) (id : InstrId) : Option Nat := b.instrs.findIdx? fun i => i.id = id

/-- The block without the first occurrence of an instruction. -/
def erase (id : InstrId) (b : Block) : Block :=
  { b with instrs := b.instrs.eraseP fun i => i.id = id }

end Block

/-- The functions whose calls only annotate debug information. -/
inductive Intrinsic where
  | none
  | dbgValue
  | dbgDeclare
deriving DecidableEq, Repr, Inhabited

namespace Intrinsic

def ofName (name : String) : Intrinsic :=
  if name = "llvm.dbg.value" then .dbgValue
  else if name = "llvm.dbg.declare" then .dbgDeclare
  else .none

/-- The intrinsic with a tag. -/
def ofTag? (tag : String) : Option Intrinsic :=
  if tag = "dbg.value" then some .dbgValue
  else if tag = "dbg.declare" then some .dbgDeclare
  else Option.none

def code : Intrinsic → Nat
  | .none => 0
  | .dbgValue => 1
  | .dbgDeclare => 2

def isDebugInfo : Intrinsic → Bool
  | .none => false
  | .dbgValue | .dbgDeclare => true

end Intrinsic

/-- A function: a declaration if it has no blocks. `loose` holds the instructions that were made
or detached and were put into no block since. `parents` records which block an instruction was put
into last, the newest first; one that is not recorded belongs to no block. Numbers of blocks and
instructions are never used twice. -/
structure Func where
  id : FuncId
  name : String
  ret : Ty
  params : List Param
  intrinsic : Intrinsic
  blocks : List Block := []
  loose : List Instr := []
  parents : List (InstrId × BlockRef) := []
  maxBlock : Nat := 0
  nextSerial : Nat := 0
deriving Repr, Inhabited

namespace Func

/-- A function without a body; the parameters are numbered in order. -/
def declare (id : FuncId) (name : String) (ret : Ty) (params : List (String × Ty)) : Func where
  id := id
  name := name
  ret := ret
  params := params.mapIdx fun i p => ⟨p.1, p.2, i⟩
  intrinsic := .ofName name

/-- A function is referred to by its address. -/
def ty (f : Func) : Ty := .pointerTo (.func f.ret (f.params.map Param.ty))

def isDeclaration (f : Func) : Bool := f.blocks.isEmpty

def entry? (f : Func) : Option Block := f.blocks.head?

/-- The instructions that stand in blocks, in block order. -/
def instrs (f : Func) : List Instr := f.blocks.flatMap Block.instrs

def block? (f : Func) (b : BlockId) : Option Block := f.blocks.find? fun k => k.id = b

def blockNamed? (f : Func) (name : String) : Option Block := f.blocks.find? fun k => k.name = name

def paramNamed? (f : Func) (name : String) : Option Param := f.params.find? fun p => p.name = name

def label (f : Func) (b : BlockId) : String :=
  match f.block? b with
  | some k => k.label
  | none => Block.label ⟨b, "", f.id, []⟩

/-- A block of the function, as seen from anywhere. -/
def ref (f : Func) (b : BlockId) : BlockRef := ⟨f.id, b⟩

def succs (f : Func) (b : BlockId) : List BlockRef :=
  match f.block? b with
  | some k => k.succs
  | none => []

/-- The blocks of the function that branch to one of its blocks, each once, in function order. -/
def preds (f : Func) (b : BlockId) : List BlockId :=
  (f.blocks.filter fun k => k.succs.contains (f.ref b)).map Block.id

/-- Whether every branch stays in the function. -/
def isClosed (f : Func) : Bool := f.blocks.all fun b => b.succs.all fun s => s.func = f.id

/-- The block that an instruction belongs to, as it is recorded. -/
def owner? (f : Func) (id : InstrId) : Option BlockRef := f.parents.lookup id

/-- The instructions with the blocks that they stand in. -/
def places (f : Func) : List (InstrId × BlockRef) :=
  f.blocks.flatMap fun k => k.instrs.map fun i => (i.id, f.ref k.id)

/-- Records for every instruction the block that it stands in. -/
def record (f : Func) : Func := { f with parents := f.places }

/-- An instruction of the function, in a block or loose. -/
def instr? (f : Func) (id : InstrId) : Option Instr :=
  (f.instrs ++ f.loose).find? fun i => i.id = id

/-- The first line of a function. -/
def heading (f : Func) : String :=
  (if f.isDeclaration then "declare " else "define ") ++ f.ret.text ++ " @" ++ f.name ++ "(" ++
    commaList (f.params.map fun p => p.ty.text ++ " %" ++ p.name) ++ ")"

/-- Replaces one block. -/
def mapBlock (f : Func) (b : BlockId) (g : Block → Block) : Func :=
  { f with blocks := f.blocks.map fun k => if k.id = b then g k else k }

end Func

end KernelIR
