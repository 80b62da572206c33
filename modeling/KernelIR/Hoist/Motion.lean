import KernelIR.Hoist.Basic
import KernelIR.Hoist.Candidate
import KernelIR.Preheader

namespace KernelIR

/-- A module whose functions are being optimised, with the answers, counts and messages so far. -/
structure Work where
  module : Module
  memo : Purity.Memo := []
  stats : Stats := {}
  log : List String := []
deriving Repr, Inhabited

namespace Work

def say (w : Work) (on : Bool) (message : String) : Work :=
  if on then { w with log := w.log ++ [message] } else w

def onModule {α : Type} (e : Edit Module α) : Edit Work α :=
  e.within Work.module fun w module => { w with module }

def motionText (m : Module) (i : Instr) (src dst : BlockRef) : String :=
  "hoist: " ++ i.text m.scope ++ " from " ++ m.label src ++ " to " ++ m.label dst ++ " in " ++
    ((m.home? src).map Func.name).getD ""

variable (o : Options)

/-- Moves an instruction of a loop block to the preheader, if its operands come from outside the
loop and it may be moved. -/
def hoistInstr (l : Loop) (src pre : BlockRef) (i : Instr) : Edit Work Bool := fun w =>
  if w.module.invariant l i then
    match canHoist w.module i w.memo with
    | (false, memo) => .ok false { w with memo }
    | (true, memo) =>
      let w := { w with memo }.say o.trace (motionText w.module i src pre)
      match Module.moveBeforeTerm i.id pre w.module with
      | .ok _ m => .ok true { w with module := m, stats.hoisted := w.stats.hoisted + 1 }
      | .error x m => .error x { w with module := m }
  else .ok false w

/-- Goes over a list of instructions of one block. -/
def hoistInstrs (l : Loop) (src pre : BlockRef) : List Instr → Edit Work Bool
  | [] => pure false
  | i :: is => do
    let first ← hoistInstr o l src pre i
    let rest ← hoistInstrs l src pre is
    return first || rest

def hoistBlock (l : Loop) (pre b : BlockRef) : Edit Work Bool := fun w =>
  match w.module.block? b with
  | some k => hoistInstrs o l b pre k.instrs w
  | none => .ok false w

def hoistBlocks (l : Loop) (pre : BlockRef) : List BlockRef → Edit Work Bool
  | [] => pure false
  | b :: bs => do
    let first ← hoistBlock o l pre b
    let rest ← hoistBlocks l pre bs
    return first || rest

/-- The blocks of a loop outside its subloops, each after those that dominate it. -/
def scanOrder (m : Module) (children : BlockRef → List BlockRef) (nest : LoopNest) (l : Loop) :
    List BlockRef :=
  (treeWalk children l.contains m.blockCount l.header).filter fun b => !nest.inSubloop l b

/-- Moves what it can from the blocks of a loop to its preheader. A loop without one is left
alone. -/
def hoistLoop (children : BlockRef → List BlockRef) (nest : LoopNest) (l : Loop) : Edit Work Bool :=
  fun w =>
    match w.module.preheader? l with
    | none =>
      .ok false { w with
        stats.loops := w.stats.loops + 1, stats.noPreheader := w.stats.noPreheader + 1 }
    | some pre =>
      hoistBlocks o l pre (scanOrder w.module children nest l)
        { w with stats.loops := w.stats.loops + 1 }

def hoistLoops (children : BlockRef → List BlockRef) (nest : LoopNest) : List Loop → Edit Work Bool
  | [] => pure false
  | l :: ls => do
    let first ← hoistLoop o children nest l
    let rest ← hoistLoops children nest ls
    return first || rest

/-- Hoists from every loop of a function, inner loops first, so that an instruction can leave
several loops at once. -/
def hoistAll (f : Func) : Edit Work Bool := fun w =>
  let tree := w.module.domTree f
  match w.module.loopNest f tree with
  | .ok nest => hoistLoops o tree.children nest nest w
  | .error x => .error x w

end Work

end KernelIR
