import KernelIR.Proofs.Geometry.Extraction
import KernelIR.Proofs.Motion.Simulation

namespace KernelIR

variable {V M : Type}

namespace Interpretation

/-- The state in which the first block of a function is entered. -/
def entered (I : Interpretation V M) (f : Func) (mem : M) : State V M :=
  ⟨fun _ => I.undefined, mem, f.entryRef?.toList.map .enter⟩

/-- The results after the first instructions of a function. -/
def results (I : Interpretation V M) (args : List V) (f : Func) (mem : M) (is : List Instr) :
    InstrId → V :=
  (is.foldl (I.exec (fun _ => false) args) (I.entered f mem)).env

variable {I : Interpretation V M} {args : List V} {f : Func} {s : State V M} {i : Instr} {mem : M}
  {v : Value}

@[simp] theorem value_int {env : InstrId → V} (c : IntConst) :
    I.value args env (.int c) = I.constant (.int c) := rfl

/-- A value for each size: the size itself, or always the same. -/
def Plain (g : Nat → Option Nat) : Prop := (∀ n, g n = some n) ∨ ∃ c, ∀ n, g n = c

section Plain

variable {m : Module} {s : Nat → State (Option Nat) Unit} {args : List (Option Nat)}
variable {is : List Instr}

end Plain

end Interpretation

namespace Marker

open Interpretation

variable {m : Module} {f : Func} {d : Dialect} {k : Marker} {front : List Instr} {asked : InstrId}
  {cmp ret : Instr}

namespace Parts

variable {V M : Type} {I : Interpretation V M}

end Parts

end Marker

namespace Module

variable {m : Module} {d : Dialect} {f : Func} {k : Marker}

end Module

end KernelIR
