import KernelIR.Graph.Dominators

namespace KernelIR

/-- A natural loop: the header, and the blocks that reach a branch back to it without passing
through it again. `parent?` is the header of the loop around it. -/
structure Loop where
  header : BlockRef
  body : List BlockRef
  parent? : Option BlockRef := none
  depth : Nat := 0
deriving DecidableEq, Repr, Inhabited

namespace Loop

def contains (l : Loop) (b : BlockRef) : Bool := l.body.contains b

def size (l : Loop) : Nat := l.body.length

end Loop

/-- The loops of a function, each after the loops inside it. -/
abbrev LoopNest := List Loop

namespace FlowGraph

/-- The edges from a reachable block to one that dominates it, as (tail, header). -/
def backEdges (g : FlowGraph) (t : DomTree) : List (BlockRef × BlockRef) :=
  let reach := g.reachable
  (g.own.filter fun e => reach.contains e.1.number).flatMap fun e =>
    (e.2.filter fun h => t.dominates h e.1).map fun h => (e.1, h)

/-- Every block with the reachable blocks that branch to it. -/
def reachablePreds (g : FlowGraph) : List (BlockRef × List BlockRef) :=
  let reach := g.reachable
  g.nodes.map fun b => (b, (g.preds b).filter fun p => reach.contains p.number)

/-- The header and everything that reaches a tail without passing through it, where `preds` are the
edges backwards. -/
def loopBody (g : FlowGraph) (preds : List (BlockRef × List BlockRef)) (header : BlockRef)
    (tails : List BlockRef) : List BlockRef :=
  breadthFirst id g.nodes (fun b => (preds.lookup b).getD []) tails [header]

/-- The loops by header, in the order in which their back edges are found. -/
def naturalLoops (g : FlowGraph) (t : DomTree) : List Loop :=
  let edges := g.backEdges t
  let preds := g.reachablePreds
  (edges.map Prod.snd).eraseDups.map fun h =>
    { header := h, body := g.loopBody preds h ((edges.filter fun e => e.2 = h).map Prod.fst) }

/-- The smaller of two candidates for the loop around another one. -/
def smaller : Option Loop → Loop → Option Loop
  | some best, p => if p.size < best.size then some p else some best
  | none, p => some p

/-- The smallest larger loop that contains the header. -/
def enclosing? (loops : List Loop) (l : Loop) : Option Loop :=
  (loops.filter fun p => p.header ≠ l.header && p.contains l.header &&
    l.size < p.size).foldl smaller none

/-- The loops inside a given one, or the outermost ones, each after those inside it. -/
def arrange (loops : List Loop) : (fuel : Nat) → (parent? : Option BlockRef) →
    (depth : Nat) → LoopNest
  | 0, _, _ => []
  | fuel + 1, parent?, depth =>
    (loops.filter fun l => l.parent? = parent?).flatMap fun l =>
      arrange loops fuel (some l.header) (depth + 1) ++ [{ l with depth }]

/-- The position of a block in the function; blocks of other functions count as the first. -/
def position (g : FlowGraph) (b : BlockRef) : Nat := (g.own.findIdx? fun e => e.1 = b).getD 0

/-- The loop nest of a function. Loops side by side are in the order of their headers. -/
def loopNest (g : FlowGraph) (t : DomTree) : LoopNest :=
  let found := g.naturalLoops t
  let linked := found.map fun l => { l with parent? := (enclosing? found l).map Loop.header }
  let sorted := linked.mergeSort fun a b => g.position a.header ≤ g.position b.header
  arrange sorted sorted.length none 1

end FlowGraph

namespace LoopNest

def subloops (n : LoopNest) (l : Loop) : List Loop := n.filter fun s => s.parent? = some l.header

def outermost (n : LoopNest) : List Loop := n.filter fun l => l.parent?.isNone

/-- Whether a block lies in a loop inside the given one. -/
def inSubloop (n : LoopNest) (l : Loop) (b : BlockRef) : Bool :=
  (n.subloops l).any fun s => s.contains b

def deeper : Option Loop → Loop → Option Loop
  | some best, l => if best.depth < l.depth then some l else some best
  | none, l => some l

/-- The innermost loop around a block. -/
def loopFor? (n : LoopNest) (b : BlockRef) : Option Loop :=
  (n.filter fun l => l.contains b).foldl deeper none

end LoopNest

end KernelIR
