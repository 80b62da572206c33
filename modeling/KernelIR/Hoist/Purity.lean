import KernelIR.Module

namespace KernelIR.Purity

/-- What an instruction does to memory. -/
inductive Effect where
  | silent
  | memory
  | calls (id : FuncId)
deriving DecidableEq, Repr, Inhabited

/-- An indirect call may do anything; debug intrinsics only annotate. -/
def effect (m : Module) (i : Instr) : Effect :=
  match i.op with
  | .load | .store => .memory
  | .call =>
    match i.callee? with
    | some id => if (m.func? id).any fun f => f.intrinsic.isDebugInfo then .silent else .calls id
    | none => .memory
  | _ => .silent

/-- The answers already found. -/
abbrev Memo := List (FuncId × Bool)

/-- Whether no effect touches memory, where `ask` decides calls. A call of a function that is being
decided closes a cycle, which counts as touching memory. -/
def scan (ask : FuncId → Memo → Bool × Memo) (busy : List FuncId) : List Effect → Memo → Bool × Memo
  | [], memo => (true, memo)
  | .silent :: es, memo => scan ask busy es memo
  | .memory :: _, memo => (false, memo)
  | .calls id :: es, memo =>
    if busy.contains id then (false, memo)
    else
      match ask id memo with
      | (true, memo) => scan ask busy es memo
      | (false, memo) => (false, memo)

/-- Decides a function while those in `busy` are being decided. The answer for a function with a
body is remembered. -/
def decideFunc (m : Module) : (fuel : Nat) → (busy : List FuncId) → FuncId → Memo → Bool × Memo
  | 0, _, _, memo => (false, memo)
  | fuel + 1, busy, id, memo =>
    match m.func? id with
    | none => (false, memo)
    | some f =>
      if f.isDeclaration then (false, memo)
      else
        match memo.lookup id with
        | some answer => (answer, memo)
        | none =>
          if busy.contains id then (false, memo)
          else
            let (answer, memo) :=
              scan (decideFunc m fuel (id :: busy)) (id :: busy) (f.instrs.map (effect m)) memo
            (answer, (id, answer) :: memo)

/-- Whether a function and all it calls neither load nor store. Every function on the way is entered
once, so their number bounds the depth. -/
def query (m : Module) (id : FuncId) (memo : Memo) : Bool × Memo :=
  decideFunc m (m.known.length + 1) [] id memo

end KernelIR.Purity

namespace KernelIR

def Module.isMemoryPure (m : Module) (id : FuncId) : Bool := (Purity.query m id []).1

end KernelIR
