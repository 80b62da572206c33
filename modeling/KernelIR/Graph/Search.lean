import KernelIR.Graph.Basic

namespace KernelIR

/-- A block as a search reaches it, with the position of the block it was reached from. -/
structure Visit where
  block : BlockRef
  parent : Nat
deriving DecidableEq, Repr, Inhabited

def Visit.number (v : Visit) : BlockId := v.block.number

/-- Breadth-first search over any step function: what is reached after all that was already seen, in
the order in which it is reached. Of several with one key the first stands for all, and those
whose key is not among `keys` are passed over. -/
def breadthFirst {α κ : Type} [DecidableEq κ] (key : α → κ) (keys : List κ) (next : α → List α)
    (queue seen : List α) : List α :=
  match queue with
  | [] => seen
  | b :: queue =>
    if _ : key b ∈ keys ∧ key b ∉ seen.map key then
      breadthFirst key keys next (queue ++ next b) (seen ++ [b])
    else breadthFirst key keys next queue seen
termination_by (unseen keys (seen.map key), queue.length)
decreasing_by
  · next h =>
    rw [List.map_append]
    exact Prod.Lex.left _ _ (unseen_lt h.1 h.2)
  · exact Prod.Lex.right _ (Nat.lt_succ_self _)

namespace FlowGraph

/-- Depth-first search. `stack` holds the edges still to follow and `seen` the blocks reached. The
successors of a block are followed in order, each with everything behind it before the next. Of
several blocks with one number only the first is entered. -/
def depthFirst (g : FlowGraph) (stack seen : List Visit) : List Visit :=
  match stack with
  | [] => seen
  | v :: stack =>
    if h : v.block ∈ g.nodes ∧ v.number ∉ seen.map Visit.number then
      depthFirst g ((g.succs v.block).map (⟨·, seen.length⟩) ++ stack) (seen ++ [v])
    else depthFirst g stack seen
termination_by (unseen g.numbers (seen.map Visit.number), stack.length)
decreasing_by
  · rw [List.map_append]
    exact Prod.Lex.left _ _ (unseen_lt (List.mem_map_of_mem h.1) h.2)
  · exact Prod.Lex.right _ (Nat.lt_succ_self _)

/-- The blocks reached from the entry in a depth-first search, each with the position of its parent
in the search tree. -/
def spanning (g : FlowGraph) : List Visit :=
  match g.entry? with
  | some r => g.depthFirst [⟨r, 0⟩] []
  | none => []

/-- The numbers of the blocks that the function's block of some number branches to. -/
def numbersAfter (g : FlowGraph) (n : BlockId) : List BlockId :=
  match g.own.find? fun e => e.1.number = n with
  | some e => e.2.map BlockRef.number
  | none => []

/-- The numbers reachable from the entry by the branches of the function itself. -/
def reachable (g : FlowGraph) : List BlockId :=
  match g.entry? with
  | some r =>
    breadthFirst id (r.number :: g.own.flatMap fun e => e.2.map BlockRef.number) g.numbersAfter
      [r.number] []
  | none => []

/-- The edges between different blocks, by their numbers, each once. -/
def edges (g : FlowGraph) : List (BlockId × BlockId) :=
  g.own.flatMap fun e =>
    ((e.2.filter fun s => s ≠ e.1).map BlockRef.number).eraseDups.map fun n => (e.1.number, n)

end FlowGraph

end KernelIR
