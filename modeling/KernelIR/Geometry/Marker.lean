import KernelIR.Module

namespace KernelIR

/-- What a size counts: work items in a group, or groups. -/
inductive Role where
  | item
  | group
deriving DecidableEq, Repr, Inhabited

def Role.text : Role → String
  | .item => "local"
  | .group => "group"

abbrev Axis := Fin 3

/-- The statement that a size along an axis has a value. -/
structure Marker where
  role : Role
  axis : Axis
  value : IntConst
deriving DecidableEq, Repr

/-- The functions that state the launch geometry are known by their names. -/
def Func.isMarker (f : Func) : Bool := "__axiom".toList.isPrefixOf f.name.toList

namespace Marker

def axis? : Value → Option Axis
  | .int c => if h : c.unsigned < 3 then some ⟨c.unsigned, h⟩ else none
  | _ => none

/-- The constant that the value of instruction `id` is compared with for equality, right before the
return. -/
def compared? (id : InstrId) (cmp ret : Instr) : Option IntConst :=
  match cmp.op, cmp.pred, cmp.operands with
  | .icmp, .eq, [.instr x, .int c] => if x = id && ret.op = .ret then some c else none
  | _, _, _ => none

/-- What a size query asks for. -/
def queried? (name : String) : Option Role :=
  if name = "get_local_size" then some .item
  else if name = "get_num_groups" then some .group
  else none

/-- A query of one size, compared with a constant. -/
def ofQuery? (m : Module) (f : Func) : Option Marker :=
  match f.blocks.map Block.instrs with
  | [[query, cmp, ret]] => do
    let callee ← query.callee?.bind m.func?
    let role ← queried? callee.name
    match query.args with
    | [arg] => do
      let axis ← axis? arg
      let value ← compared? query.id cmp ret
      return ⟨role, axis, value⟩
    | _ => none
  | _ => none

/-- The sizes that a predefined vector holds. -/
def held? (name : String) : Option Role :=
  if name = "blockDim" then some .item
  else if name = "gridDim" then some .group
  else none

/-- The name that a value was given. Functions and constants do not count. -/
def nameOf (scope : Scope) : Value → String
  | .param p => p.name
  | .global g => g.name
  | .instr id => (scope.instr id).1
  | _ => ""

/-- The vector whose address is cast. -/
def vector? (scope : Scope) (cast : Instr) : Option Role :=
  match cast.op, cast.operands with
  | .cast .addrspacecast, [v] =>
    if (v.ty scope).isStructPointer Ty.sizeVector then held? (nameOf scope v) else none
  | _, _ => none

/-- The field of the vector at address `id` that is addressed. -/
def fieldOf? (id : InstrId) (field : Instr) : Option Axis :=
  match field.op, field.operands with
  | .elementPtr, [.instr x, .int zero, index] =>
    if x = id && zero.unsigned = 0 then axis? index else none
  | _, _ => none

/-- Whether an instruction loads from the address computed by instruction `id`. -/
def loadsFrom (id : InstrId) (load : Instr) : Bool :=
  match load.op, load.operands with
  | .load, [.instr x] => x = id
  | _, _ => false

/-- A field of a predefined vector, compared with a constant. -/
def ofField? (m : Module) (f : Func) : Option Marker :=
  match f.blocks.map Block.instrs with
  | [[cast, field, load, cmp, ret]] => do
    let role ← vector? m.scope cast
    let axis ← fieldOf? cast.id field
    if loadsFrom field.id load then
      let value ← compared? load.id cmp ret
      return ⟨role, axis, value⟩
    else none
  | _ => none

end Marker

end KernelIR
