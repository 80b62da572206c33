import KernelIR.Proofs.Drawing.Lines
import KernelIR.Proofs.Preheader.Spec
import KernelIR.Proofs.Walks

namespace KernelIR

namespace Func

variable {f : Func} {r x : BlockRef} {e k : Block} {a b : BlockId} (hf : f.Linked)

theorem mem_edges_iff : (a, b) ∈ f.flow.edges ↔
    ∃ k ∈ f.blocks, k.id = a ∧ ∃ s ∈ k.succs, s ≠ f.ref k.id ∧ s.number = b := by
  simp only [FlowGraph.edges, flow, List.mem_flatMap, List.mem_map, List.mem_eraseDups,
    List.mem_filter, decide_eq_true_eq, Prod.mk.injEq]
  constructor
  · rintro ⟨_, ⟨k, hk, rfl⟩, n, ⟨s, ⟨hs, hne⟩, rfl⟩, rfl, rfl⟩
    exact ⟨k, hk, rfl, s, hs, hne, rfl⟩
  · rintro ⟨k, hk, rfl, s, hs, hne, rfl⟩
    exact ⟨_, ⟨k, hk, rfl⟩, s.number, ⟨s, ⟨hs, hne⟩, rfl⟩, rfl, rfl⟩

include hf

/-- Branches of a block to itself lead nowhere else. -/
theorem reaches_edges_iff (he : f.entry? = some e) :
    KernelIR.Reaches (fun a b => (a, b) ∈ f.flow.edges) e.id k.id ↔ f.Reaches (f.ref k.id) := by
  have hr : f.entryRef? = some (f.ref e.id) := by rw [entryRef?, he, Option.map_some]
  rw [reaches_iff hr]
  constructor
  · rintro ⟨p, w⟩
    refine ⟨p.map f.ref, w.map f.ref fun a b hab => ?_⟩
    obtain ⟨j, hj, rfl, s, hs, _, rfl⟩ := mem_edges_iff.mp hab
    obtain ⟨t, _, rfl⟩ := hf.targets j hj s hs
    exact ⟨j, hj, rfl, hs⟩
  · rintro ⟨p, w⟩
    have hwalk : ∀ {x y p}, Walk f.Edge x p y →
        KernelIR.Reaches (fun a b => (a, b) ∈ f.flow.edges) x.number y.number := by
      intro x y p w
      induction w with
      | single x => exact ⟨_, .single _⟩
      | @cons x y z p hxy w ih =>
        by_cases hne : y = x
        · exact hne ▸ ih
        · obtain ⟨q, v⟩ := ih
          obtain ⟨j, hj, rfl, hs⟩ := hxy
          exact ⟨_, .cons (mem_edges_iff.mpr ⟨j, hj, rfl, y, hs, hne, rfl⟩) v⟩
    exact hwalk w

/-- The search that draws a function finds the blocks that can be reached, each once. -/
theorem breadthFirst_blocks (he : f.entry? = some e) :
    (breadthFirst BlockRef.number f.flow.numbers f.flow.succs [f.ref e.id] []).Nodup ∧
      ∀ x, x ∈ breadthFirst BlockRef.number f.flow.numbers f.flow.succs [f.ref e.id] [] ↔
      f.Reaches x := by
  have hr : f.entryRef? = some (f.ref e.id) := by rw [entryRef?, he, Option.map_some]
  have hnodes : ∀ x ∈ f.flow.nodes, ∀ y ∈ f.flow.succs x, y ∈ f.flow.nodes :=
    fun x _ y hy => hf.closed.succs x y hy
  have hentry : f.ref e.id ∈ f.flow.nodes := FlowGraph.entry_mem_nodes ((entry?_flow f).trans hr)
  have hnumbers : ∀ x ∈ f.flow.nodes, x.number ∈ f.flow.numbers ↔ x ∈ f.flow.nodes := fun x hx =>
    iff_of_true (List.mem_map_of_mem hx) hx
  have hqueue : ∀ x ∈ [f.ref e.id], x ∈ f.flow.nodes :=
    fun x hx => List.mem_singleton.mp hx ▸ hentry
  -- numbers tell the blocks of the function apart
  rw [breadthFirst_eq_of_key (fun x y hx hy hxy =>
    hf.closed.eq_of_number hx hy hxy) hnumbers hnodes hqueue fun x hx => absurd hx List.not_mem_nil]
  refine ⟨nodup_breadthFirst List.nodup_nil, fun x => ?_⟩
  rw [mem_breadthFirst, or_iff_right List.not_mem_nil, reaches_iff hr, ← edge_flow hf]
  constructor
  · rintro ⟨q, hq, p, w, _⟩
    rw [List.mem_singleton.mp hq] at w
    exact ⟨p, w⟩
  · rintro ⟨p, w⟩
    refine ⟨_, List.mem_singleton_self _, p, w, fun y hy => ⟨?_, List.not_mem_nil⟩⟩
    exact w.closed hentry (fun x y hx hxy => hnodes x hx y hxy) y hy

end Func

namespace Module

open Drawing

variable {m : Module} {f : Func} {e : Block}

theorem draw?_eq (hf : f.Linked) (he : f.entry? = some e) :
    m.draw? f = .ok (some ("\n".intercalate (heading f.name e.id ++
      (breadthFirst BlockRef.number f.flow.numbers f.flow.succs [f.ref e.id] []).flatMap
        (m.drawBlock f.flow.domTree f.nest) ++ ["\x7d", ""]))) := by
  have hnest := hf.loopNest_eq m
  rw [domTree, hf.flow_eq] at hnest
  unfold draw?
  simp only [he, hf.flow_eq, hnest]
  rfl

/-- What is read from the drawing of a function: the blocks that can be reached, and the branches of
each. -/
theorem read_draw (hm : m.func? f.id = some f) (hf : f.Linked) (he : f.entry? = some e) :
    ∃ text, m.draw? f = .ok (some text) ∧
      nodeLines text =
        (breadthFirst BlockRef.number f.flow.numbers f.flow.succs [f.ref e.id] []).map
        BlockRef.number ∧
      edgeLines text = (nodeLines text).flatMap fun n =>
        (f.succs n).map fun s => (n, s.number) := by
  refine ⟨_, draw?_eq hf he, ?_⟩
  obtain ⟨_, hmem⟩ := f.breadthFirst_blocks hf he
  generalize breadthFirst BlockRef.number f.flow.numbers f.flow.succs [f.ref e.id] [] =
    order at hmem ⊢
  have hblock : ∀ x ∈ order,
      ((m.drawBlock f.flow.domTree f.nest x).flatMap lines).filterMap nodeOf? = [x.number] ∧
      ((m.drawBlock f.flow.domTree f.nest x).flatMap lines).filterMap edgeOf? =
        (f.succs x.number).map fun s => (x.number, s.number) := by
    intro x hx
    obtain ⟨k, hk, rfl⟩ := Func.mem_nodes_flow.mp (((hmem x).mp hx).mem_nodes hf)
    have hfound : m.block? (f.ref k.id) = some k := by
      rw [block?, Func.ref, hm, Option.bind_some]
      exact (Func.block?_iff hf).mpr ⟨hk, rfl⟩
    have hsuccs : f.succs (f.ref k.id).number = k.succs := hf.succs_eq hk
    rw [hsuccs]
    exact m.read_drawBlock _ _ hfound
  obtain ⟨hnodes, hedges⟩ := Unread.flatMap (unread_heading f.name e.id)
  obtain ⟨hnodes', hedges'⟩ := Unread.flatMap unread_ending
  have hread : ∀ {β : Type} (R : List Char → Option β),
      ((order.flatMap (m.drawBlock f.flow.domTree f.nest)).flatMap lines).filterMap R =
        order.flatMap fun x =>
          ((m.drawBlock f.flow.domTree f.nest x).flatMap lines).filterMap R := by
    intro β R
    rw [List.flatMap_assoc, List.filterMap_flatMap]
  have hlist : (order.flatMap fun x =>
      ((m.drawBlock f.flow.domTree f.nest x).flatMap lines).filterMap nodeOf?) =
      order.map BlockRef.number := by
    rw [List.flatMap_congr fun x hx => (hblock x hx).1]
    exact List.map_eq_flatMap.symm
  rw [nodeLines, edgeLines, lines_intercalate (by simp), List.flatMap_append, List.flatMap_append,
    List.filterMap_append, List.filterMap_append,
    List.filterMap_append, List.filterMap_append, hnodes, hnodes', hedges, hedges', hread,
    hread, hlist, List.flatMap_congr fun x hx => (hblock x hx).2]
  simp [List.flatMap_map]

/-- All traversals of a function whose branches lead to its own blocks find the same blocks, those
that can be reached: the search over numbers, the search along edges between different blocks, the
dominator tree, the walk over the tree and the drawing. The walk and the drawing list each of them
once and no other block. In the walk a block comes after its immediate dominator, and siblings come
in the order of the function. In the drawing there is an edge for each branch of a block that is
drawn, and it leads to a block that is drawn. -/
theorem traversals_agree (m : Module) (f : Func) (hm : m.func? f.id = some f) (hf : f.Linked)
    (hdefined : f.isDeclaration = false) :
    ∃ entry text, f.entry? = some entry ∧ m.draw? f = .ok (some text) ∧
      (∀ k ∈ f.blocks, (k.id ∈ f.flow.reachable ↔ f.Reaches (f.ref k.id)) ∧
        (Reaches (fun a b => (a, b) ∈ f.flow.edges) entry.id k.id ↔ f.Reaches (f.ref k.id)) ∧
        ((m.domTree f).contains (f.ref k.id) = true ↔ f.Reaches (f.ref k.id)) ∧
        (f.ref k.id ∈ (m.domTree f).preorder ↔ f.Reaches (f.ref k.id)) ∧
        (k.id ∈ nodeLines text ↔ f.Reaches (f.ref k.id))) ∧
      (m.domTree f).preorder.Nodup ∧
      (∀ b ∈ (m.domTree f).preorder, ∃ k ∈ f.blocks, b = f.ref k.id) ∧
      (∀ k ∈ f.blocks, ∀ d, (m.domTree f).idom? (f.ref k.id) = some d →
        [d, f.ref k.id].Sublist (m.domTree f).preorder) ∧
      (∀ j ∈ f.blocks, ∀ k ∈ f.blocks, ∀ d, (m.domTree f).idom? (f.ref j.id) = some d →
        (m.domTree f).idom? (f.ref k.id) = some d → [j.id, k.id].Sublist (f.blocks.map Block.id) →
          [f.ref j.id, f.ref k.id].Sublist (m.domTree f).preorder) ∧
      (nodeLines text).Nodup ∧ (∀ n ∈ nodeLines text, ∃ k ∈ f.blocks, n = k.id) ∧
      edgeLines text = (nodeLines text).flatMap (fun n => (f.succs n).map fun s => (n, s.number)) ∧
      ∀ e ∈ edgeLines text, e.1 ∈ nodeLines text ∧ e.2 ∈ nodeLines text := by
  obtain ⟨entry, he⟩ : ∃ entry, f.entry? = some entry := by
    cases hblocks : f.blocks with
    | nil => simp [Func.isDeclaration, hblocks] at hdefined
    | cons k ks => exact ⟨k, by rw [Func.entry?, hblocks, List.head?_cons]⟩
  obtain ⟨text, hdraw, hnodes, hedges⟩ := read_draw hm hf he
  obtain ⟨hnodup, hmem⟩ := f.breadthFirst_blocks hf he
  have hnode : ∀ k ∈ f.blocks, f.ref k.id ∈ f.flow.nodes :=
    fun k hk => Func.mem_nodes_flow.mpr ⟨k, hk, rfl⟩
  have hown : ∀ {b}, f.Reaches b → ∃ k ∈ f.blocks, b = f.ref k.id :=
    fun hb => Func.mem_nodes_flow.mp (hb.mem_nodes hf)
  have hdrawn : ∀ n, n ∈ nodeLines text ↔ f.Reaches (f.ref n) := by
    intro n
    rw [hnodes, List.mem_map]
    constructor
    · rintro ⟨x, hx, rfl⟩
      obtain ⟨k, _, rfl⟩ := hown ((hmem x).mp hx)
      exact (hmem _).mp hx
    · exact fun hn => ⟨f.ref n, (hmem _).mpr hn, rfl⟩
  have hidom : ∀ k ∈ f.blocks, ∀ d, (m.domTree f).idom? (f.ref k.id) = some d ↔
      f.Reaches (f.ref k.id) ∧ f.ImmediatelyDominates d (f.ref k.id) := by
    intro k hk d
    rw [hf.domTree_eq]
    exact hf.idom?_iff (hnode k hk)
  refine ⟨entry, text, he, hdraw,
    fun k hk => ⟨Func.mem_reachable hf, Func.reaches_edges_iff hf he, ?_, ?_, hdrawn k.id⟩,
    ?_, ?_, ?_, ?_, ?_, ?_, hedges, ?_⟩
  · rw [hf.domTree_eq]
    exact hf.contains_iff (hnode k hk)
  · rw [hf.domTree_eq]
    exact Func.mem_preorder_iff hf
  · rw [hf.domTree_eq]
    exact Func.nodup_preorder hf
  · intro b hb
    rw [hf.domTree_eq] at hb
    exact hown ((Func.mem_preorder_iff hf).mp hb)
  · intro k hk d hd
    obtain ⟨hk', hd⟩ := (hidom k hk d).mp hd
    rw [hf.domTree_eq]
    exact Func.idom_sublist_preorder hf hk' hd
  · intro j hj k hk d hdj hdk hjk
    obtain ⟨hj', hdj⟩ := (hidom j hj d).mp hdj
    obtain ⟨hk', hdk⟩ := (hidom k hk d).mp hdk
    have horder : [f.ref j.id, f.ref k.id].Sublist f.flow.nodes := by
      rw [Func.nodes_flow]
      simpa [Function.comp_def] using hjk.map f.ref
    rw [hf.domTree_eq]
    exact Func.siblings_sublist_preorder hf hj' hk' hdj hdk horder
  · rw [hnodes]
    apply hnodup.map_on
    intro x hx y hy hxy
    obtain ⟨j, _, rfl⟩ := hown ((hmem x).mp hx)
    obtain ⟨k, _, rfl⟩ := hown ((hmem y).mp hy)
    exact congrArg f.ref hxy
  · intro n hn
    obtain ⟨k, hk, href⟩ := hown ((hdrawn n).mp hn)
    exact ⟨k, hk, congrArg BlockRef.number href⟩
  · intro e hin
    rw [hedges] at hin
    obtain ⟨n, hn, hin⟩ := List.mem_flatMap.mp hin
    obtain ⟨s, hs, rfl⟩ := List.mem_map.mp hin
    refine ⟨hn, (hdrawn _).mpr ?_⟩
    have hreach := (hdrawn n).mp hn
    obtain ⟨k, hk, href⟩ := hown hreach
    obtain rfl : n = k.id := congrArg BlockRef.number href
    rw [hf.succs_eq hk] at hs
    obtain ⟨t, _, rfl⟩ := hf.targets k hk s hs
    exact hreach.step ⟨k, hk, rfl, hs⟩

/-- Block 2 leads to itself, and its name reads like the beginning of the node of a block 9. Block 4
is never reached. -/
def nodeLikeName : Func :=
  let ending (id : BlockId) (name : String) (targets : List BlockId) : Block :=
    ⟨id, name, 0, [{ op := .condBr, targets := targets.map (⟨0, ·⟩), id := ⟨0, id⟩ }]⟩
  Func.record { Func.declare 0 "f" .void [] with
    blocks := [ending 1 "" [3, 2], ending 2 "\n    bb_9 [ label = < " [2, 3], ending 3 "" [],
      ending 4 "" [2]] }

def nodeLikeNameModule : Module := { name := "", functions := [nodeLikeName] }

theorem nodeLikeName_traversals_agree : nodeLikeNameModule.func? 0 = some nodeLikeName ∧
    nodeLikeName.Linked ∧ nodeLikeName.isDeclaration = false ∧
    ∃ text, nodeLikeNameModule.draw? nodeLikeName = .ok (some text) ∧ (nodeLines text).Nodup ∧
      (∀ k ∈ nodeLikeName.blocks, k.id ∈ nodeLines text ↔
        nodeLikeName.Reaches (nodeLikeName.ref k.id)) ∧
      2 ∈ nodeLines text ∧ 4 ∉ nodeLines text ∧ 9 ∉ nodeLines text ∧ (2, 2) ∈ edgeLines text := by
  have hlinked : nodeLikeName.Linked := ⟨by decide, by decide⟩
  have hreachable : nodeLikeName.flow.reachable = [1, 3, 2] := by cbv
  obtain ⟨entry, text, _, hdraw, hagree, _, _, _, _, hnodup, hown, hedges, _⟩ :=
    traversals_agree nodeLikeNameModule nodeLikeName rfl hlinked rfl
  have hnodes : ∀ k ∈ nodeLikeName.blocks, k.id ∈ nodeLines text ↔ k.id ∈ [1, 3, 2] := by
    intro k hk
    rw [(hagree k hk).2.2.2.2, ← (hagree k hk).1, hreachable]
  have hblocks : nodeLikeName.blocks.map Block.id = [1, 2, 3, 4] := rfl
  have hnumber : ∀ n ∈ [1, 2, 3, 4], n ∈ nodeLines text ↔ n ∈ [1, 3, 2] := by
    intro n hn
    rw [← hblocks] at hn
    obtain ⟨k, hk, rfl⟩ := List.mem_map.mp hn
    exact hnodes k hk
  have htwo : 2 ∈ nodeLines text := (hnumber 2 (by decide)).mpr (by decide)
  refine ⟨rfl, hlinked, rfl, text, hdraw, hnodup, fun k hk => (hagree k hk).2.2.2.2, htwo,
    ?_, ?_, ?_⟩
  · exact fun h => absurd ((hnumber 4 (by decide)).mp h) (by decide)
  · intro h
    obtain ⟨k, hk, hid⟩ := hown 9 h
    exact absurd (hblocks ▸ List.mem_map_of_mem hk) (hid ▸ by decide)
  · rw [hedges]
    exact List.mem_flatMap.mpr ⟨2, htwo, by decide⟩

/-- Blocks are told apart by their numbers, so a branch to another function's block makes the
function's own block of this number count as one that can be reached. -/
theorem foreignBranch_traversals_disagree : foreignBranchModule.func? 1 = some foreignBranch ∧
    (foreignBranch.blocks.map Block.id).Nodup ∧
    foreignBranch.isDeclaration = false ∧
    ∃ k ∈ foreignBranch.blocks, ¬foreignBranch.Reaches (foreignBranch.ref k.id) ∧
      k.id ∈ foreignBranch.flow.reachable ∧
      (foreignBranchModule.domTree foreignBranch).contains (foreignBranch.ref k.id) = true := by
  have hreachable : foreignBranch.flow.reachable = [1, 2] := by cbv
  have htree : (foreignBranchModule.domTree foreignBranch).contains ⟨1, 2⟩ = true := by cbv
  refine ⟨rfl, by decide, rfl, _, List.mem_cons_of_mem _ List.mem_cons_self,
    foreignBranch_not_reaches, ?_, htree⟩
  rw [hreachable]
  decide

end Module

end KernelIR
