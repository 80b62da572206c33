import KernelIR.Proofs.Ssa
import Mathlib.Logic.Function.Basic

namespace KernelIR

/-- A meaning of the operations over values `V` and memories `M`: what only depends on its operands
is computed, everything else acts on memory. -/
structure Interpretation (V M : Type) where
  constant : Value → V
  undefined : V
  compute : Operation → List V → V
  act : Operation → List V → M → V × M
  truth : V → Bool

/-- What can be observed of a run. -/
inductive Event (V : Type) where
  | enter (b : BlockRef)
  | access (i : Instr) (operands : List V) (result : V)
  | ret (value? : Option V)

/-- A run so far: the results of the instructions, the memory, and what was observed. -/
structure State (V M : Type) where
  env : InstrId → V
  mem : M
  trace : List (Event V)

/-- Where control goes after a block. -/
inductive Control (V : Type) where
  | goto (b : BlockRef)
  | ret (value? : Option V)
  | stuck

/-- Whether an operation acts on memory, where `quiet` are the functions whose calls do not. -/
def Operation.accesses (quiet : FuncId → Bool) (o : Operation) : Bool :=
  match o.op with
  | .load | .store | .alloca => true
  | .call =>
    match o.callee? with
    | some id => !quiet id
    | none => true
  | _ => false

/-- The value that flows into a phi from a block. -/
def Operation.flowing? (o : Operation) (b? : Option BlockRef) : Option Value :=
  b?.bind fun b => (o.entries.find? fun e => e.2 = b).map Prod.fst

namespace Interpretation

variable {V M : Type} (I : Interpretation V M) (quiet : FuncId → Bool) (args : List V)

/-- The value of an operand. -/
def value (env : InstrId → V) : Value → V
  | .instr d => env d
  | .param p => args[p.index]?.getD I.undefined
  | v => I.constant v

def values (env : InstrId → V) (o : Operation) : List V := o.operands.map (I.value args env)

/-- Executes an instruction. Phis and terminators are left to the ways into and out of their
block. -/
def exec (s : State V M) (i : Instr) : State V M :=
  if i.op = .phi || i.op.isTerminator then s
  else
    let operands := I.values args s.env i.toOperation
    if i.accesses quiet then
      let (v, mem) := I.act i.toOperation operands s.mem
      { env := Function.update s.env i.id v, mem, trace := s.trace ++ [.access i operands v] }
    else { s with env := Function.update s.env i.id (I.compute i.toOperation operands) }

/-- The results after the phis of a block took their values, all at once, from the block before. -/
def phis (before? : Option BlockRef) (k : Block) (env : InstrId → V) : InstrId → V := fun d =>
  match k.instrs.find? fun i => i.op = .phi && i.id = d with
  | some i => ((i.flowing? before?).map (I.value args env)).getD I.undefined
  | none => env d

/-- Enters a block from the block before it. -/
def enter (before? : Option BlockRef) (b : BlockRef) (k : Block) (s : State V M) : State V M :=
  { s with env := I.phis args before? k s.env, trace := s.trace ++ [.enter b] }

/-- Enters a block and executes its instructions. -/
def visit (before? : Option BlockRef) (b : BlockRef) (k : Block) (s : State V M) : State V M :=
  k.instrs.foldl (I.exec quiet args) (I.enter args before? b k s)

/-- Where the terminator of a block leads. -/
def next (env : InstrId → V) (k : Block) : Control V :=
  match k.term? with
  | none => .stuck
  | some t =>
    match t.op with
    | .br => (t.targets[0]?.map .goto).getD .stuck
    | .condBr =>
      match I.values args env t.toOperation with
      | c :: _ => (t.targets[if I.truth c then 0 else 1]?.map .goto).getD .stuck
      | [] => .stuck
    | .ret => .ret (I.values args env t.toOperation).head?
    | _ => .stuck

/-- Runs a function for a number of blocks, starting with block `b`. -/
def run (f : Func) : (steps : Nat) → (before? : Option BlockRef) → (b : BlockRef) →
    State V M → State V M
  | 0, _, _, s => s
  | steps + 1, before?, b, s =>
    match f.block? b.number with
    | none => s
    | some k =>
      let s := I.visit quiet args before? b k s
      match I.next args s.env k with
      | .goto c => run f steps (some b) c s
      | .ret v => { s with trace := s.trace ++ [.ret v] }
      | .stuck => s

/-- The first steps of a call of a function. -/
def call (f : Func) (mem : M) (steps : Nat) : State V M :=
  let s : State V M := ⟨fun _ => I.undefined, mem, []⟩
  match f.entryRef? with
  | some r => I.run quiet args f steps none r s
  | none => s

/-- Runs on through a module, into whatever function a branch leads. -/
def roam (m : Module) : (steps : Nat) → (before? : Option BlockRef) → (b : BlockRef) →
    State V M → State V M
  | 0, _, _, s => s
  | steps + 1, before?, b, s =>
    match m.block? b with
    | none => s
    | some k =>
      let s := I.visit quiet args before? b k s
      match I.next args s.env k with
      | .goto c => roam m steps (some b) c s
      | .ret v => { s with trace := s.trace ++ [.ret v] }
      | .stuck => s

/-- The first steps of a call of a function that may lead into other functions of the module. -/
def callWithin (m : Module) (f : Func) (mem : M) (steps : Nat) : State V M :=
  let s : State V M := ⟨fun _ => I.undefined, mem, []⟩
  match f.entryRef? with
  | some r => I.roam quiet args m steps none r s
  | none => s

end Interpretation

end KernelIR
