import KernelIR.Edit

namespace KernelIR

/-- Adds instructions at the end of the current block of a function. `count` numbers the results
that were given no name. -/
structure Builder where
  func : Func
  count : Nat := 0
  block? : Option BlockId := none
deriving Repr, Inhabited

namespace Builder

abbrev Build := Edit Builder

/-- Starts a new block and goes on there. -/
def label (name : String) : Build BlockId := fun b =>
  let f := b.func.newBlock name
  .ok f.maxBlock { b with func := f, block? := some f.maxBlock }

def setBlock (k : BlockId) : Build Unit := fun b => .ok () { b with block? := some k }

/-- Adds an instruction. One with a result that is given no name gets the next number. -/
def add (o : Operation) : Build InstrId := fun b =>
  match b.block? with
  | none => .error .noInsertionBlock b
  | some k =>
    if o.name = "" && !o.ty.isVoid then
      .ok b.func.nextId { b with
        func := b.func.emit k { o with name := "t" ++ Number.decimal b.count }
        count := b.count + 1 }
    else .ok b.func.nextId { b with func := b.func.emit k o }

variable (scope : Scope)

def binary (op : Opcode) (name : String) (x y : Value) : Build InstrId :=
  if op.isBinary then add { op, name, ty := x.ty scope, operands := [x, y] }
  else throw (.notBinary op)

def cast (op : Opcode) (name : String) (x : Value) (ty : Ty) : Build InstrId :=
  if op.isCast then add { op, name, ty, operands := [x] } else throw (.notCast op)

def alloca (name : String) (ty : Ty) : Build InstrId :=
  add { op := .alloca, name, ty := .pointerTo ty }

def load (name : String) (ty : Ty) (address : Value) : Build InstrId :=
  add { op := .load, name, ty, operands := [address] }

def store (x address : Value) : Build InstrId := add { op := .store, operands := [x, address] }

/-- Computes an address; the type is that of the resulting pointer. -/
def elementPtr (name : String) (ty : Ty) (base : Value) (indices : List Value) : Build InstrId :=
  add { op := .elementPtr, name, ty, operands := base :: indices }

def icmp (name : String) (pred : Predicate) (x y : Value) : Build InstrId :=
  add { op := .icmp, name, ty := .i1, pred, operands := [x, y] }

def fcmp (name : String) (pred : Predicate) (x y : Value) : Build InstrId :=
  add { op := .fcmp, name, ty := .i1, pred, operands := [x, y] }

def select (name : String) (c x y : Value) : Build InstrId :=
  add { op := .select, name, ty := x.ty scope, operands := [c, x, y] }

/-- A phi without values; they are added one by one. -/
def phi (name : String) (ty : Ty) : Build InstrId := add { op := .phi, name, ty }

/-- A call through any value. -/
def callValue (name : String) (ret : Ty) (callee : Value) (args : List Value) : Build InstrId :=
  add { op := .call, name, ty := ret, operands := callee :: args }

/-- A direct call. -/
def call (name : String) (callee : Func) (args : List Value) : Build InstrId :=
  callValue name callee.ret (.func callee.id) args

def br (target : BlockRef) : Build InstrId := add { op := .br, targets := [target] }

def condBr (c : Value) (yes no : BlockRef) : Build InstrId :=
  add { op := .condBr, operands := [c], targets := [yes, no] }

def ret (values : List Value) : Build InstrId :=
  if 1 < values.length then throw .manyReturnValues else add { op := .ret, operands := values }

def unreachable : Build InstrId := add { op := .unreachable }

end Builder

end KernelIR
