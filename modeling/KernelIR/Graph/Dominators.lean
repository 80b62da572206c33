import KernelIR.Graph.LinkForest
import KernelIR.Graph.Search

namespace KernelIR

/-- Numbered vertices as a depth-first search leaves them: the parent of each in the search tree and
the numbers of its predecessors. -/
structure Numbering where
  size : Nat
  parent : Nat → Nat
  preds : Nat → List Nat

/-- The numbering of the blocks that a search reached. A branch to a block of some number counts as
one to the block that was reached with this number. -/
def FlowGraph.numbering (g : FlowGraph) (visits : List Visit) : Numbering :=
  let parents := (visits.map Visit.parent).toArray
  let outs := visits.zipIdx.map fun v => (v.2, (g.succs v.1.block).map BlockRef.number)
  let preds := (visits.map fun v =>
    (outs.filter fun e => e.2.contains v.number).map Prod.fst).toArray
  { size := visits.length
    parent := fun i => parents[i]?.getD 0
    preds := fun i => preds[i]?.getD [] }

/-- The state of computing dominators. A vertex waits in the bucket of its semidominator until the
path to it is known; `dom` is then its immediate dominator or a vertex with the same one. -/
structure DomState where
  forest : LinkForest
  bucket : Nat → List Nat
  dom : Nat → Option Nat

namespace DomState

def initial : DomState := ⟨.initial, fun _ => [], fun _ => none⟩

/-- The least semidominator number over the predecessors of `i`. -/
def findSemi (preds : List Nat) (i : Nat) (F : LinkForest) : LinkForest :=
  preds.foldl (fun F v => let (q, F) := F.eval v; F.lower i (F.semi q)) F

/-- Settles the vertices that waited for parent `p`. -/
def settle (p : Nat) (waiting : List Nat) (s : DomState) : DomState :=
  waiting.foldl (fun s v =>
    let (q, F) := s.forest.eval v
    { s with
      forest := F
      dom := override s.dom v (some (if F.semi q < F.semi v then q else p)) }) s

/-- Handles vertex `i`: finds its semidominator, links it to its parent, and settles what waited for
the parent. -/
def process (n : Numbering) (s : DomState) (i : Nat) : DomState :=
  let p := n.parent i
  let F := (findSemi (n.preds i) i s.forest).link p i
  let bucket := override s.bucket (F.semi i) (i :: s.bucket (F.semi i))
  let s := settle p (bucket p) { s with forest := F, bucket }
  { s with bucket := override s.bucket p [] }

/-- The vertices but the root, in increasing order. -/
def vertices (n : Numbering) : List Nat := List.range' 1 (n.size - 1)

/-- Semidominators and provisional dominators, by decreasing number. -/
def provisional (n : Numbering) : DomState := (vertices n).reverse.foldl (process n) initial

/-- A vertex whose provisional dominator is not its semidominator has the dominator of that one. -/
def finish (s : DomState) (i : Nat) : DomState :=
  if s.dom i = some (s.forest.semi i) then s
  else { s with dom := override s.dom i ((s.dom i).bind s.dom) }

/-- The immediate dominators, by increasing number. -/
def immediate (n : Numbering) : DomState := (vertices n).foldl finish (provisional n)

end DomState

/-- The dominator tree: the entry, and each other reachable block with its immediate dominator.
Blocks are looked up by number, and of each number there is one. -/
structure DomTree where
  root? : Option BlockRef := none
  edges : List (BlockRef × BlockRef) := []
deriving DecidableEq, Repr, Inhabited

/-- The visits with their positions, in function order of their numbers. Those of other functions
whose number the function does not have come first. -/
def FlowGraph.inOrder (g : FlowGraph) (visits : List Visit) : List (Visit × Nat) :=
  let own := g.own.map fun e => e.1.number
  (visits.zipIdx.filter fun v => !own.contains v.1.number) ++
    own.filterMap fun n => visits.zipIdx.find? fun v => v.1.number = n

def FlowGraph.domTree (g : FlowGraph) : DomTree :=
  let visits := g.spanning
  let blocks := (visits.map Visit.block).toArray
  let s := DomState.immediate (g.numbering visits)
  let edges := (g.inOrder visits).filterMap fun (v, i) =>
    if i = 0 then none else (s.dom i).bind fun d => blocks[d]?.map fun a => (v.block, a)
  { root? := g.entry?, edges }

namespace DomTree

/-- The immediate dominator of a block's number. -/
def idom? (t : DomTree) (b : BlockRef) : Option BlockRef :=
  (t.edges.find? fun e => e.1.number = b.number).map Prod.snd

/-- The blocks that a block's number immediately dominates, in function order. -/
def children (t : DomTree) (b : BlockRef) : List BlockRef :=
  (t.edges.filter fun e => e.2.number = b.number).map Prod.fst

/-- Whether a block's number is reachable. The entry counts only as itself. -/
def contains (t : DomTree) (b : BlockRef) : Bool := t.root? = some b || (t.idom? b).isSome

/-- A block and the blocks above it. -/
def chain (t : DomTree) : (fuel : Nat) → BlockRef → List BlockRef
  | 0, b => [b]
  | fuel + 1, b =>
    match t.idom? b with
    | some d => b :: t.chain fuel d
    | none => [b]

/-- Whether `a` dominates `b`. Every reachable block dominates itself. -/
def dominates (t : DomTree) (a b : BlockRef) : Bool :=
  t.contains a && t.contains b && (t.chain t.edges.length b).contains a

end DomTree

/-- Walks a tree in depth-first preorder, passing over the subtrees whose root is not entered. The
walk follows no path longer than `depth`. -/
def treeWalk (children : BlockRef → List BlockRef) (enter : BlockRef → Bool) :
    (depth : Nat) → BlockRef → List BlockRef
  | 0, _ => []
  | depth + 1, b =>
    if enter b then b :: (children b).flatMap (treeWalk children enter depth) else []

/-- The blocks that such a walk asks about. -/
def treeProbes (children : BlockRef → List BlockRef) (enter : BlockRef → Bool) :
    (depth : Nat) → BlockRef → List BlockRef
  | 0, _ => []
  | depth + 1, b =>
    b :: if enter b then (children b).flatMap (treeProbes children enter depth) else []

namespace DomTree

/-- The blocks below a block, which comes first, each before those it dominates. -/
def walk (t : DomTree) (enter : BlockRef → Bool) (b : BlockRef) : List BlockRef :=
  treeWalk t.children enter (t.edges.length + 2) b

/-- The blocks that such a walk asks about. -/
def probes (t : DomTree) (enter : BlockRef → Bool) (b : BlockRef) : List BlockRef :=
  treeProbes t.children enter (t.edges.length + 2) b

/-- The blocks of a dominator tree, each before those it dominates. -/
def preorder (t : DomTree) : List BlockRef :=
  match t.root? with
  | some r => t.walk (fun _ => true) r
  | none => []

end DomTree

end KernelIR
