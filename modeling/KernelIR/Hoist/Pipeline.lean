import KernelIR.Hoist.Motion

namespace KernelIR

namespace Module

/-- Gives the first loop that takes one a preheader. -/
def simplifyFirst : List Loop → Edit Module Bool
  | [] => pure false
  | l :: ls => do
    match ← insertPreheader l with
    | some _ => return true
    | none => simplifyFirst ls

/-- Gives the first loop of a function that takes one a preheader, looking for loops afresh. -/
def simplifyOnce (func : FuncId) : Edit Module Bool := fun m =>
  match m.func? func with
  | none => .error .unknownFunc m
  | some f =>
    match m.loopNest f (m.domTree f) with
    | .ok nest => simplifyFirst nest m
    | .error x => .error x m

/-- Gives the loops of a function preheaders one at a time. -/
def simplifyLoops (func : FuncId) : (fuel : Nat) → Edit Module Bool
  | 0 => pure false
  | fuel + 1 => do
    if ← simplifyOnce func then
      let _ ← simplifyLoops func fuel
      return true
    else return false

/-- Gives every loop of a function a preheader. Each round serves one header for good, so the number
of blocks bounds the rounds. -/
def simplify (func : FuncId) : Edit Module Bool := fun m => simplifyLoops func (m.blockCount + 1) m

end Module

/-- A step of the optimisation. -/
inductive Pass where
  | simplifyLoops
  | hoist
deriving DecidableEq, Repr, Inhabited

def Pass.name : Pass → String
  | .simplifyLoops => "Loop Simplification"
  | .hoist => "Careful Hoisting"

/-- The steps that the options select. -/
def passes (o : Options) : List Pass :=
  if o.insertPreheaders then [.simplifyLoops, .hoist] else [.hoist]

namespace Work

variable (o : Options) (func : FuncId)

/-- Carries out work on a function as it stands. -/
def onFunc {α : Type} (e : Func → Edit Work α) : Edit Work α := fun w =>
  match w.module.func? func with
  | some f => e f w
  | none => .error .unknownFunc w

def applyPass : Pass → Edit Work Bool
  | .simplifyLoops => onModule (Module.simplify func)
  | .hoist => onFunc func (hoistAll o)

/-- Applies a pass and reports a change. -/
def runPass (p : Pass) : Edit Work Bool := do
  let changed ← applyPass o func p
  if changed then
    onFunc func fun f =>
      modify fun w => w.say o.trace ("hoist: " ++ p.name ++ " changed " ++ f.name)
  return changed

def runPasses : List Pass → Edit Work Bool
  | [] => pure false
  | p :: ps => do
    let first ← runPass o func p
    let rest ← runPasses ps
    return first || rest

/-- Writes the function down under a title. -/
def dump (title : String) : Edit Work Unit :=
  onFunc func fun f => modify fun w =>
    w.say o.dumpIR ("hoist: " ++ title ++ "\n" ++ f.print w.module.scope)

/-- Runs the selected steps on a function. Answers whether anything changed. -/
def optimize : Edit Work Bool := do
  dump o func "before optimization"
  let changed ← runPasses o func (passes o)
  dump o func "after optimization"
  return changed

end Work

end KernelIR
