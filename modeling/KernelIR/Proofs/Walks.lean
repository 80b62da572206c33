import KernelIR.Proofs.Dominance
import KernelIR.Proofs.Graph.TreeWalk

namespace KernelIR

namespace Func

variable {f : Func} {r b x : BlockRef} {enter : BlockRef → Bool} {n : Nat}

/-- What the flow graph of a function is to its blocks: it starts at the entry, a search of it is no
longer than the function, and ways and dominators are the same. -/
structure Rooted (f : Func) (r : BlockRef) : Prop where
  closed : f.flow.Closed
  entry : f.flow.entry? = some r
  size : f.flow.spanned.size ≤ f.blocks.length
  reaches : f.Reaches = KernelIR.Reaches f.flow.Edge r
  dominates : f.Dominates = KernelIR.Dominates f.flow.Edge r

theorem Linked.rooted (hf : f.Linked) (hr : f.entryRef? = some r) : f.Rooted r := by
  have hentry := (entry?_flow f).trans hr
  have hsize := FlowGraph.size_le_nodes hf.closed hentry
  rw [nodes_flow, List.length_map] at hsize
  refine ⟨hf.closed, hentry, hsize, ?_, ?_⟩
  · funext b
    rw [edge_flow hf, propext (reaches_iff hr)]
  · funext a b
    rw [edge_flow hf, propext (Func.dominates_iff hr)]

theorem Reaches.exists_rooted (hb : f.Reaches b) (hf : f.Linked) : ∃ r, f.Rooted r := by
  obtain ⟨_, r, hr, _⟩ := hb
  exact ⟨r, hf.rooted hr⟩

section Walk

variable (hf : f.Linked) (hb : f.Reaches b)

include hf hb

/-- A walk that goes far enough is the one of the tree itself. -/
theorem walk_eq_treeWalk (hn : f.blocks.length ≤ n) :
    f.flow.domTree.walk enter b = treeWalk f.flow.domTree.children enter n b := by
  obtain ⟨r, hr⟩ := hb.exists_rooted hf
  rw [hr.reaches] at hb
  have hedges := FlowGraph.size_le_edges hr.closed hr.entry
  exact FlowGraph.treeWalk_eq hr.closed hr.entry hb (hedges.trans (Nat.le_succ _))
    (hr.size.trans hn)

/-- A walk comes to a block before those that it dominates. -/
theorem pairwise_treeWalk :
    (treeWalk f.flow.domTree.children enter n b).Pairwise fun x y => ¬f.Dominates y x := by
  obtain ⟨r, hr⟩ := hb.exists_rooted hf
  rw [hr.reaches] at hb
  rw [hr.dominates]
  exact FlowGraph.pairwise_treeWalk hr.closed hr.entry hb

theorem nodup_treeWalk : (treeWalk f.flow.domTree.children enter n b).Nodup :=
  (pairwise_treeWalk hf hb).imp fun {x y} hxy (he : x = y) => hxy (he ▸ .refl x)

/-- A walk finds every block below its start, if it enters all between the two. -/
theorem mem_treeWalk (hx : f.Reaches x) (hbx : f.Dominates b x)
    (henter : ∀ d, f.Dominates b d → f.Dominates d x → enter d = true) (hn : f.blocks.length ≤ n) :
    x ∈ treeWalk f.flow.domTree.children enter n b := by
  obtain ⟨r, hr⟩ := hb.exists_rooted hf
  rw [hr.reaches] at hx
  rw [hr.dominates] at hbx henter
  exact FlowGraph.mem_treeWalk hr.closed hr.entry hx hbx henter (hr.size.trans hn)

/-- Where all between the start and a block that may be entered may be entered too, a walk loses no
other block than those that may not be entered. -/
theorem walk_eq_filter
    (hbetween : ∀ x d, enter x = true → f.Dominates b d → f.Dominates d x → enter d = true) :
    f.flow.domTree.walk enter b = (f.flow.domTree.walk (fun _ => true) b).filter enter := by
  obtain ⟨r, hr⟩ := hb.exists_rooted hf
  rw [hr.reaches] at hb
  rw [hr.dominates] at hbetween
  have hedges := FlowGraph.size_le_edges hr.closed hr.entry
  exact FlowGraph.treeWalk_eq_filter hr.closed hr.entry hb (hedges.trans (Nat.le_succ _)) hbetween

theorem treeWalk_sublist_preorder :
    (treeWalk f.flow.domTree.children enter n b).Sublist f.flow.domTree.preorder := by
  obtain ⟨r, hr⟩ := hb.exists_rooted hf
  rw [hr.reaches] at hb
  exact FlowGraph.treeWalk_sublist_preorder hr.closed hr.entry hb

end Walk

section Preorder

theorem preorder_eq_walk (hr : f.entryRef? = some r) :
    f.flow.domTree.preorder = f.flow.domTree.walk (fun _ => true) r := by
  have hroot : f.flow.domTree.root? = some r := (entry?_flow f).trans hr
  rw [DomTree.preorder, hroot]

theorem preorder_eq_nil (hr : f.entryRef? = none) : f.flow.domTree.preorder = [] := by
  have hroot : f.flow.domTree.root? = none := (entry?_flow f).trans hr
  rw [DomTree.preorder, hroot]

variable (hf : f.Linked)

include hf

theorem mem_preorder_iff : x ∈ f.flow.domTree.preorder ↔ f.Reaches x := by
  cases hr : f.entryRef? with
  | none =>
    rw [preorder_eq_nil hr]
    refine ⟨fun hx => absurd hx List.not_mem_nil, fun hx => ?_⟩
    obtain ⟨_, r, hr', _⟩ := hx
    rw [hr] at hr'
    cases hr'
  | some r =>
    have hrooted := hf.rooted hr
    rw [preorder_eq_walk hr]
    constructor
    · intro hx
      rw [hrooted.reaches]
      exact (FlowGraph.dominates_of_mem_treeWalk hrooted.closed hrooted.entry .root hx).1
    · intro hx
      rw [walk_eq_treeWalk hf (.entry hr) (Nat.le_refl _)]
      refine mem_treeWalk hf (.entry hr) hx ?_ (fun _ _ _ => rfl) (Nat.le_refl _)
      rintro p ⟨r', hr', w⟩
      rw [hr, Option.some_inj] at hr'
      exact hr' ▸ w.first_mem

theorem pairwise_preorder : f.flow.domTree.preorder.Pairwise fun x y => ¬f.Dominates y x := by
  cases hr : f.entryRef? with
  | none =>
    rw [preorder_eq_nil hr]
    exact List.Pairwise.nil
  | some r =>
    rw [preorder_eq_walk hr]
    exact pairwise_treeWalk hf (.entry hr)

theorem nodup_preorder : f.flow.domTree.preorder.Nodup :=
  (pairwise_preorder hf).imp fun {x y} hxy (he : x = y) => hxy (he ▸ .refl x)

/-- A block comes after its immediate dominator. -/
theorem idom_sublist_preorder {d : BlockRef} (hx : f.Reaches x) (hd : f.ImmediatelyDominates d x) :
    [d, x].Sublist f.flow.domTree.preorder :=
  sublist_of_pairwise (pairwise_preorder hf) ((mem_preorder_iff hf).mpr (hd.1.2.reaches hx))
    ((mem_preorder_iff hf).mpr hx) hd.1.1 hd.1.2

/-- Blocks with the same immediate dominator come in the order of the function. -/
theorem siblings_sublist_preorder {d y : BlockRef} (hx : f.Reaches x) (hy : f.Reaches y)
    (hdx : f.ImmediatelyDominates d x) (hdy : f.ImmediatelyDominates d y)
    (hxy : [x, y].Sublist f.flow.nodes) :
    [x, y].Sublist f.flow.domTree.preorder := by
  have hd := hdx.1.2.reaches hx
  obtain ⟨r, hr⟩ : ∃ r, f.entryRef? = some r := hd.elim fun _ h => h.imp fun _ h => h.1
  have hentry := (entry?_flow f).trans hr
  have hchild :
      ∀ {z}, f.Reaches z → f.ImmediatelyDominates d z → z ∈ f.flow.domTree.children d := by
    intro z hz hdz
    rw [FlowGraph.mem_children_iff hf.closed hentry (hd.mem_nodes hf), edge_flow hf,
      ← reaches_iff hr, ← immediatelyDominates_iff hr]
    exact ⟨hz, hdz⟩
  have hchildren : [x, y].Sublist (f.flow.domTree.children d) :=
    pair_sublist_of_sublist (FlowGraph.children_sublist hf.closed hentry rfl d) hf.nodup_nodes
      (hchild hx hdx) (hchild hy hdy) hxy
  -- the walk from a child starts with the child itself
  have hwalk : [x, y].Sublist (treeWalk f.flow.domTree.children (fun _ => true) 2 d) := by
    have hheads : ∀ z, [z].Sublist (treeWalk f.flow.domTree.children (fun _ => true) 1 z) :=
      fun z => by
      rw [treeWalk, if_pos rfl]
      exact (List.nil_sublist _).cons_cons z
    have hpair := (flatMap_sublist_flatMap hheads [x, y]).trans (hchildren.flatMap _)
    rw [treeWalk, if_pos rfl]
    exact hpair.cons d
  exact hwalk.trans (treeWalk_sublist_preorder hf hd)

end Preorder

end Func

end KernelIR
