import KernelIR.Value

namespace KernelIR

/-- What an instruction computes.
A call has its callee first among the operands, a store the stored value and then the address;
operand `i` of a phi flows in from block `i` of `incoming`; a branch leads to its `targets`. -/
structure Operation where
  op : Opcode
  name : String := ""
  ty : Ty := .void
  operands : List Value := []
  pred : Predicate := .unset
  targets : List BlockRef := []
  incoming : List BlockRef := []
deriving Repr, Inhabited

/-- An operation with an identity of its own. -/
structure Instr extends Operation where
  id : InstrId
deriving Repr, Inhabited

namespace Operation

/-- The function that a call names; other calls may go anywhere. -/
def callee? (i : Operation) : Option FuncId :=
  match i.op, i.operands with
  | .call, .func id :: _ => some id
  | _, _ => none

/-- The arguments of a call. -/
def args (i : Operation) : List Value :=
  match i.op with
  | .call => i.operands.drop 1
  | _ => []

variable (scope : Scope)

/-- Stands for an operand or a block that is not there. -/
def missing : String := "<missing>"

def operandText (i : Operation) (k : Nat) : String :=
  match i.operands[k]? with
  | some v => v.typed scope
  | none => missing

def operandTypeText (i : Operation) (k : Nat) : String :=
  match i.operands[k]? with
  | some v => (v.ty scope).text
  | none => "?"

def typedList (vs : List Value) : String := commaList (vs.map fun v => v.typed scope)

def identList (vs : List Value) : String := commaList (vs.map fun v => v.ident scope)

def blockText (bs : List BlockRef) (k : Nat) : String :=
  match bs[k]? with
  | some b => "%" ++ scope.label b
  | none => missing

def phiEntries (i : Operation) : List String :=
  i.operands.mapIdx fun k v => "[ " ++ v.ident scope ++ ", " ++ blockText scope i.incoming k ++ " ]"

def calleeText (i : Operation) : String :=
  match i.operands with
  | v :: _ => v.ident scope
  | [] => ""

/-- The operation without its result. -/
def body (i : Operation) : String :=
  match i.op with
  | .binary op => op.text ++ " " ++ i.operandTypeText scope 0 ++ " " ++ identList scope i.operands
  | .cast op => op.text ++ " " ++ i.operandText scope 0 ++ " to " ++ i.ty.text
  | .alloca => "alloca " ++ i.ty.pointee.text
  | .load => "load " ++ i.ty.text ++ ", " ++ i.operandText scope 0
  | .store => "store " ++ i.operandText scope 0 ++ ", " ++ i.operandText scope 1
  | .icmp | .fcmp =>
    i.op.text ++ " " ++ i.pred.text ++ " " ++ i.operandTypeText scope 0 ++ " " ++
      identList scope i.operands
  | .phi => "phi " ++ i.ty.text ++ " " ++ commaList (i.phiEntries scope)
  | .call =>
    "call " ++ i.ty.text ++ " " ++ i.calleeText scope ++ "(" ++ typedList scope i.args ++ ")"
  | .br => "br label " ++ blockText scope i.targets 0
  | .condBr =>
    "br " ++ i.operandText scope 0 ++ ", label " ++ blockText scope i.targets 0 ++ ", label " ++
      blockText scope i.targets 1
  | .unreachable => "unreachable"
  | .ret =>
    match i.operands with
    | [] => "ret void"
    | v :: _ => "ret " ++ v.typed scope
  | .invalid | .elementPtr | .select | .unassigned _ =>
    i.op.text ++ " " ++ typedList scope i.operands

/-- The line of an instruction: its operation, after the result it is given to. -/
def text (i : Operation) : String :=
  (if i.name = "" then "" else "%" ++ i.name ++ " = ") ++ i.body scope

end Operation

end KernelIR
