import KernelIR.Graph.Loops
import KernelIR.Hoist.Purity

namespace KernelIR

/-- Whether a value is computed outside a loop. -/
def Module.invariantValue (m : Module) (l : Loop) : Value → Bool
  | .instr id => (m.owner? id).all fun b => !l.contains b
  | _ => true

/-- Whether an instruction only takes operands from outside a loop. -/
def Module.invariant (m : Module) (l : Loop) (i : Instr) : Bool :=
  i.operands.all (m.invariantValue l)

/-- The operations worth computing once ahead of a loop: division, and changes of width or kind.
They are safe to execute even if the loop would not have. -/
def Opcode.isMovable : Opcode → Bool
  | .binary op =>
    match op with
    | .udiv | .sdiv | .fdiv | .urem | .srem => true
    | _ => false
  | .cast op =>
    match op with
    | .zext | .sext | .trunc | .ptrtoint | .fptosi | .fptoui => true
    | _ => false
  | _ => false

/-- Whether an instruction may be moved: a movable operation or a call of a pure function. Memory is
never read early, since other threads may write to it. -/
def canHoist (m : Module) (i : Instr) (memo : Purity.Memo) : Bool × Purity.Memo :=
  match i.op with
  | .call =>
    match i.callee? with
    | some id => Purity.query m id memo
    | none => (false, memo)
  | op => (op.isMovable, memo)

end KernelIR
