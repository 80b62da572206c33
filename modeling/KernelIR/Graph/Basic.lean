import KernelIR.Function

namespace KernelIR

/-- The flow graph of a function: its blocks in function order, each with the blocks it branches to.
If a branch leads into another function, `other` holds the blocks of the other functions. -/
structure FlowGraph where
  own : List (BlockRef × List BlockRef)
  other : List (BlockRef × List BlockRef) := []
deriving DecidableEq, Repr, Inhabited

/-- The blocks of a function alone. -/
def Func.flow (f : Func) : FlowGraph := { own := f.blocks.map fun b => (f.ref b.id, b.succs) }

namespace FlowGraph

def out (g : FlowGraph) : List (BlockRef × List BlockRef) := g.own ++ g.other

def nodes (g : FlowGraph) : List BlockRef := g.out.map Prod.fst

def numbers (g : FlowGraph) : List BlockId := g.nodes.map BlockRef.number

def succs (g : FlowGraph) (b : BlockRef) : List BlockRef := (g.out.lookup b).getD []

def entry? (g : FlowGraph) : Option BlockRef := g.own.head?.map Prod.fst

/-- The blocks of the same function that branch to a block, each once, in function order. -/
def preds (g : FlowGraph) (b : BlockRef) : List BlockRef :=
  (g.out.filter fun e => e.1.func = b.func && e.2.contains b).map Prod.fst

/-- Whether a block branches to another function's block of the same number. -/
def clashes (g : FlowGraph) : Bool :=
  g.own.any fun e => e.2.any fun s => s ≠ e.1 && s.number = e.1.number

end FlowGraph

/-- How many of the nodes a search has still to see. -/
def unseen {α : Type} [DecidableEq α] (nodes seen : List α) : Nat :=
  nodes.countP fun n => !seen.contains n

theorem countP_lt_countP {α : Type} {p q : α → Bool} {xs : List α} {a : α}
    (hpq : ∀ x ∈ xs, p x = true → q x = true) (ha : a ∈ xs) (hp : p a = false) (hq : q a = true) :
    xs.countP p < xs.countP q := by
  induction xs with
  | nil => simp at ha
  | cons x xs ih =>
    have tail : xs.countP p ≤ xs.countP q :=
      List.countP_mono_left fun y hy => hpq y (List.mem_cons_of_mem x hy)
    rw [List.countP_cons, List.countP_cons]
    rcases List.mem_cons.mp ha with rfl | ha
    · simp only [hp, hq]
      simp only [Bool.false_eq_true, if_false, if_true]
      omega
    · have less := ih (fun y hy => hpq y (List.mem_cons_of_mem x hy)) ha
      have head := hpq x List.mem_cons_self
      by_cases hx : p x = true
      · rw [if_pos hx, if_pos (head hx)]
        exact Nat.add_lt_add_right less 1
      · rw [if_neg hx]
        exact Nat.lt_of_lt_of_le less (Nat.le_add_right _ _)

theorem unseen_lt {α : Type} [DecidableEq α] {nodes seen : List α} {b : α} (hb : b ∈ nodes)
    (hs : b ∉ seen) :
    unseen nodes (seen ++ [b]) < unseen nodes seen := by
  apply countP_lt_countP (a := b) _ hb
  · simp
  · simpa using hs
  · intro x _ hx
    simp only [List.contains_eq_mem, List.mem_append, List.mem_singleton,
      Bool.not_eq_true', decide_eq_false_iff_not] at hx ⊢
    exact fun h => hx (Or.inl h)

end KernelIR
