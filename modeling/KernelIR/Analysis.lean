import KernelIR.Edit
import KernelIR.Graph.Loops

namespace KernelIR

namespace Module

/-- The flow graph of a function. The other functions are drawn in only if a branch leads there. -/
def flow (m : Module) (f : Func) : FlowGraph :=
  { f.flow with
    other := if f.isClosed then []
      else (m.known.filter fun k => k.id ≠ f.id).flatMap fun k => k.flow.own }

def domTree (m : Module) (f : Func) : DomTree := (m.flow f).domTree

/-- The loops of a function, by its dominator tree. There are none to be had if a block branches to
another function's block of its own number. -/
def loopNest (m : Module) (f : Func) (t : DomTree) : Except EditFault LoopNest :=
  if f.flow.clashes then .error .selfEdge else .ok ((m.flow f).loopNest t)

/-- The blocks of a loop that stand in the function of its header, in function order. -/
def loopBlocks (m : Module) (l : Loop) : List Block :=
  match m.home? l.header with
  | some f => f.blocks.filter fun b => l.contains (f.ref b.id)
  | none => []

def loopText (m : Module) (l : Loop) : String :=
  "loop<" ++ m.label l.header ++ ", depth=" ++ Number.decimal l.depth ++ ", blocks=" ++
    Number.decimal l.size ++ ">"

end Module

end KernelIR
