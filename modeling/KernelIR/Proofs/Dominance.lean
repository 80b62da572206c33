import KernelIR.Proofs.Flow
import Mathlib

namespace KernelIR

namespace Func

variable {f : Func} {a b d : BlockRef}

theorem Linked.idom?_iff (h : f.Linked) (hb : b ∈ f.flow.nodes) :
    f.flow.domTree.idom? b = some d ↔ f.Reaches b ∧ f.ImmediatelyDominates d b := by
  obtain ⟨k, hk, _⟩ := mem_nodes_flow.mp hb
  obtain ⟨r, hr⟩ := exists_entry hk
  rw [FlowGraph.idom?_eq_some_iff h.closed ((entry?_flow f).trans hr) hb, edge_flow h,
    reaches_iff hr, immediatelyDominates_iff hr]

theorem Linked.idom?_isSome_iff (h : f.Linked) (hb : b ∈ f.flow.nodes) :
    (f.flow.domTree.idom? b).isSome ↔ f.Reaches b ∧ f.entryRef? ≠ some b := by
  obtain ⟨k, hk, _⟩ := mem_nodes_flow.mp hb
  obtain ⟨r, hr⟩ := exists_entry hk
  rw [FlowGraph.idom?_isSome_iff h.closed ((entry?_flow f).trans hr) hb, edge_flow h,
    reaches_iff hr, hr, ne_eq, ne_eq, Option.some_inj, eq_comm]

theorem Linked.contains_iff (h : f.Linked) (hb : b ∈ f.flow.nodes) :
    f.flow.domTree.contains b ↔ f.Reaches b := by
  obtain ⟨k, hk, _⟩ := mem_nodes_flow.mp hb
  obtain ⟨r, hr⟩ := exists_entry hk
  rw [FlowGraph.contains_domTree_iff h.closed ((entry?_flow f).trans hr) hb, edge_flow h,
    reaches_iff hr]

theorem Linked.dominates_iff (h : f.Linked) (ha : a ∈ f.flow.nodes) (hb : b ∈ f.flow.nodes) :
    f.flow.domTree.dominates a b ↔ f.Reaches a ∧ f.Reaches b ∧ f.Dominates a b := by
  obtain ⟨k, hk, _⟩ := mem_nodes_flow.mp hb
  obtain ⟨r, hr⟩ := exists_entry hk
  rw [FlowGraph.dominates_domTree_iff h.closed ((entry?_flow f).trans hr) ha hb, edge_flow h,
    reaches_iff hr, reaches_iff hr, Func.dominates_iff hr]

/-- Nothing is missing on the way to the dominator tree; a declaration has the empty tree. -/
theorem Linked.domTree?_eq (h : f.Linked) : f.flow.domTree? = some f.flow.domTree := by
  cases hb : f.blocks with
  | nil =>
    have hflow : f.flow = { own := [] } := by simp [flow, hb]
    rw [hflow]
    rfl
  | cons k bs =>
    obtain ⟨r, hr⟩ := exists_entry (f := f) (k := k) (by simp [hb])
    exact FlowGraph.domTree?_eq h.closed ((entry?_flow f).trans hr)

end Func

namespace Module

/-- The dominator tree of a function whose branches lead to its own blocks. The computation never
meets a missing parent, link or dominator. It keeps a block for exactly the reachable blocks but the
entry, and this is the immediate dominator; dominance is read off the tree. -/
theorem domTree_dominance (m : Module) (f : Func) (h : f.Linked) :
    f.flow.domTree? = some (m.domTree f) ∧
    (∀ k ∈ f.blocks, ((m.domTree f).idom? (f.ref k.id)).isSome ↔
      f.Reaches (f.ref k.id) ∧ f.entryRef? ≠ some (f.ref k.id)) ∧
    (∀ k ∈ f.blocks, ∀ d, (m.domTree f).idom? (f.ref k.id) = some d ↔
      f.Reaches (f.ref k.id) ∧ f.ImmediatelyDominates d (f.ref k.id)) ∧
    ∀ j ∈ f.blocks, ∀ k ∈ f.blocks, (m.domTree f).dominates (f.ref j.id) (f.ref k.id) ↔
      f.Reaches (f.ref j.id) ∧ f.Reaches (f.ref k.id) ∧
        ∀ p, f.EntryPath p (f.ref k.id) → f.ref j.id ∈ p := by
  have htree : m.domTree f = f.flow.domTree := congrArg FlowGraph.domTree (h.flow_eq m)
  have hnode : ∀ k ∈ f.blocks, f.ref k.id ∈ f.flow.nodes :=
    fun k hk => Func.mem_nodes_flow.mpr ⟨k, hk, rfl⟩
  rw [htree]
  exact ⟨h.domTree?_eq, fun k hk => h.idom?_isSome_iff (hnode k hk),
    fun k hk d => h.idom?_iff (hnode k hk),
      fun j hj k hk => h.dominates_iff (hnode j hj) (hnode k hk)⟩

/-- Two blocks that branch to each other and are both entered from the first one; the last one
cannot be reached. -/
def irreducibleCycle : Func :=
  let ending (id : BlockId) (targets : List BlockId) : Block :=
    ⟨id, "", 0, [{ op := .condBr, targets := targets.map (⟨0, ·⟩), id := ⟨0, id⟩ }]⟩
  Func.record { Func.declare 0 "f" .void [] with
    blocks := [ending 1 [2, 3], ending 2 [3], ending 3 [2, 3, 3], ending 4 [3, 1]] }

theorem irreducibleCycle_linked : irreducibleCycle.Linked := ⟨by decide, by decide⟩

theorem irreducibleCycle_dominance :
    irreducibleCycle.Linked ∧ irreducibleCycle.ImmediatelyDominates ⟨0, 1⟩ ⟨0, 3⟩ ∧
    ¬irreducibleCycle.Reaches ⟨0, 4⟩ := by
  obtain ⟨_, hsome, hidom, _⟩ :=
    domTree_dominance { name := "" } irreducibleCycle irreducibleCycle_linked
  have hthree : (domTree { name := "" } irreducibleCycle).idom? ⟨0, 3⟩ = some ⟨0, 1⟩ := by cbv
  have hfour : (domTree { name := "" } irreducibleCycle).idom? ⟨0, 4⟩ = none := by cbv
  refine ⟨irreducibleCycle_linked, ?_, fun hr => ?_⟩
  · exact ((hidom (irreducibleCycle.blocks.get ⟨2, by decide⟩) (List.get_mem _ _)
      ⟨0, 1⟩).mp hthree).2
  · have h : ((domTree { name := "" } irreducibleCycle).idom? ⟨0, 4⟩).isSome :=
      (hsome (irreducibleCycle.blocks.get ⟨3, by decide⟩) (List.get_mem _ _)).mpr ⟨hr, by decide⟩
    rw [hfour] at h
    exact absurd h (by simp)

end Module

end KernelIR
