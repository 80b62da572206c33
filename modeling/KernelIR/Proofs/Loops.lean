import KernelIR.Proofs.Dominance
import KernelIR.Proofs.Graph.LoopNest
import KernelIR.Proofs.Graph.Worklist

namespace KernelIR

namespace Func

/-- A branch from a reachable block to one that dominates it. -/
def BackEdge (f : Func) (t h : BlockRef) : Prop := f.Edge t h ∧ f.Reaches t ∧ f.Dominates h t

/-- The natural loop of a header: the header, and every reachable block from which a block that
branches back can be reached without passing through the header. -/
def InLoop (f : Func) (h b : BlockRef) : Prop :=
  b = h ∨ f.Reaches b ∧ ∃ t p, f.BackEdge t h ∧ Walk f.Edge b p t ∧ h ∉ p

variable {f : Func} {h t a b : BlockRef} {n : BlockId} {k : Block}

theorem BackEdge.reaches (e : f.BackEdge t h) : f.Reaches h := e.2.1.step e.1

theorem InLoop.reaches (hh : f.Reaches h) (hb : f.InLoop h b) : f.Reaches b := by
  rcases hb with rfl | hb
  · exact hh
  · exact hb.1

/-- A header dominates its loop. -/
theorem InLoop.dominates (hb : f.InLoop h b) : f.Dominates h b := by
  -- the header dominates the blocks that branch back, and the way to one of them does not pass
  -- through it
  rcases hb with rfl | ⟨_, t, p, e, w, hp⟩
  · exact Dominates.refl b
  · exact (e.2.2.of_walk w).resolve_left hp

theorem find?_own (hf : f.Linked) (hk : k ∈ f.blocks) :
    (f.flow.own.find? fun e => e.1.number = k.id) = some (f.ref k.id, k.succs) := by
  have hn : (f.flow.own.map fun e => e.1.number).Nodup := by
    simpa [flow, ref, Function.comp_def] using hf.distinct
  exact (find?_key_iff hn).mpr ⟨List.mem_map.mpr ⟨k, hk, rfl⟩, rfl⟩

theorem mem_numbersAfter (hf : f.Linked) : a.number ∈ f.flow.numbersAfter n ∧ a.func = f.id ↔
    f.Edge (f.ref n) a := by
  constructor
  · intro h
    obtain ⟨hmem, hfunc⟩ := h
    cases hfind : f.flow.own.find? fun e => e.1.number = n with
    | none => simp [FlowGraph.numbersAfter, hfind] at hmem
    | some e =>
      have hid : e.1.number = n := by simpa using List.find?_some hfind
      obtain ⟨j, hj, rfl⟩ := List.mem_map.mp (List.mem_of_find?_eq_some hfind)
      simp only [FlowGraph.numbersAfter, hfind, List.mem_map] at hmem
      obtain ⟨s, hs, hsa⟩ := hmem
      obtain ⟨u, _, rfl⟩ := hf.targets j hj s hs
      have hau : a = f.ref u.id := by
        cases a
        simp_all [ref]
      refine ⟨j, hj, ?_, hau ▸ hs⟩
      rw [← hid]
      rfl
  · intro e
    obtain ⟨j, hj, hn, ha⟩ := e
    have hid : n = j.id := congrArg BlockRef.number hn
    obtain ⟨u, _, rfl⟩ := hf.targets j hj a ha
    rw [FlowGraph.numbersAfter, hid, find?_own hf hj]
    exact ⟨List.mem_map_of_mem ha, rfl⟩

theorem mem_reachable (hf : f.Linked) : n ∈ f.flow.reachable ↔ f.Reaches (f.ref n) := by
  cases hr : f.entryRef? with
  | none =>
    have hnone : f.flow.reachable = [] := by simp [FlowGraph.reachable, entry?_flow, hr]
    rw [hnone]
    constructor
    · intro h
      exact absurd h List.not_mem_nil
    · intro h
      obtain ⟨p, r, hr', _⟩ := h
      rw [hr] at hr'
      cases hr'
  | some r =>
    obtain ⟨e, _, rfl⟩ := Option.map_eq_some_iff.mp hr
    simp only [FlowGraph.reachable, entry?_flow, hr]
    rw [mem_breadthFirst, reaches_iff hr]
    constructor
    · intro h
      obtain ⟨q, hq, p, w, _⟩ := h.resolve_left List.not_mem_nil
      rw [List.mem_singleton.mp hq] at w
      exact ⟨_, w.map f.ref fun x y hxy => (mem_numbersAfter hf).mp ⟨hxy, rfl⟩⟩
    · intro h
      obtain ⟨p, w⟩ := h
      have hstep : ∀ x y, f.Edge x y → y.number ∈ f.flow.numbersAfter x.number := by
        intro x y hxy
        have hx : x = f.ref x.number := by
          obtain ⟨j, _, rfl, _⟩ := hxy
          rfl
        exact ((mem_numbersAfter hf).mpr (hx ▸ hxy)).1
      have v : Walk (fun x y => y ∈ f.flow.numbersAfter x) e.id (p.map BlockRef.number) n :=
        w.map BlockRef.number hstep
      refine Or.inr ⟨e.id, by simp [ref], p.map BlockRef.number, v,
        fun y hy => ⟨?_, List.not_mem_nil⟩⟩
      -- every number on the way is that of the entry or of a target
      refine v.closed (P := fun y => y ∈ e.id :: _) List.mem_cons_self (fun x y _ hxy => ?_) y hy
      cases hfind : f.flow.own.find? fun e => e.1.number = x with
      | none => simp [FlowGraph.numbersAfter, hfind] at hxy
      | some j =>
        simp only [FlowGraph.numbersAfter, hfind] at hxy
        exact List.mem_cons_of_mem _
          (List.mem_flatMap.mpr ⟨j, List.mem_of_find?_eq_some hfind, hxy⟩)

theorem mem_backEdges (hf : f.Linked) : (t, h) ∈ f.flow.backEdges f.flow.domTree ↔
    f.BackEdge t h := by
  simp only [FlowGraph.backEdges, List.mem_flatMap, List.mem_filter, List.mem_map, Prod.mk.injEq,
    List.contains_eq_mem, decide_eq_true_eq]
  constructor
  · intro hm
    obtain ⟨e, ⟨he, hreach⟩, s, ⟨hs, hdom⟩, rfl, rfl⟩ := hm
    obtain ⟨k, hk, rfl⟩ := List.mem_map.mp he
    have hedge : f.Edge (f.ref k.id) s := ⟨k, hk, rfl, hs⟩
    have ht : f.Reaches (f.ref k.id) := (mem_reachable hf).mp hreach
    have hnode := (ht.step hedge).mem_nodes hf
    exact ⟨hedge, ht, ((hf.dominates_iff hnode (ht.mem_nodes hf)).mp hdom).2.2⟩
  · intro e
    obtain ⟨hedge, ht, hdom⟩ := e
    have hh := ht.step hedge
    have hdec := (hf.dominates_iff (hh.mem_nodes hf) (ht.mem_nodes hf)).mpr ⟨hh, ht, hdom⟩
    obtain ⟨k, hk, rfl, hs⟩ := hedge
    exact ⟨(f.ref k.id, k.succs), ⟨List.mem_map.mpr ⟨k, hk, rfl⟩, (mem_reachable hf).mpr ht⟩,
      h, ⟨hs, hdec⟩, rfl, rfl⟩

/-- The blocks from which the search of a loop goes on are the reachable ones that branch there. -/
theorem mem_reachablePreds (hf : f.Linked) (hb : b ∈ f.flow.nodes) :
    a ∈ (f.flow.reachablePreds.lookup b).getD [] ↔ f.Edge a b ∧ f.Reaches a := by
  have hkeys : (f.flow.reachablePreds.map Prod.fst).Nodup := by
    simpa [FlowGraph.reachablePreds, Function.comp_def] using hf.nodup_nodes
  have hmem : (b, (f.flow.preds b).filter fun p => f.flow.reachable.contains p.number) ∈
      f.flow.reachablePreds := List.mem_map.mpr ⟨b, hb, rfl⟩
  rw [lookup_eq_of_mem hkeys hmem, Option.getD_some, List.mem_filter, FlowGraph.preds, List.mem_map]
  simp only [List.mem_filter, Bool.and_eq_true, decide_eq_true_eq, List.contains_eq_mem]
  obtain ⟨j, _, rfl⟩ := mem_nodes_flow.mp hb
  constructor
  · intro h
    obtain ⟨⟨e, ⟨he, _, hs⟩, rfl⟩, hreach⟩ := h
    have hown : e ∈ f.flow.own := by simpa [FlowGraph.out, flow] using he
    obtain ⟨k, hk, rfl⟩ := List.mem_map.mp hown
    exact ⟨⟨k, hk, rfl, hs⟩, (mem_reachable hf).mp hreach⟩
  · intro h
    obtain ⟨⟨k, hk, rfl, hs⟩, hreach⟩ := h
    refine ⟨⟨(f.ref k.id, k.succs), ⟨?_, rfl, hs⟩, rfl⟩, (mem_reachable hf).mpr hreach⟩
    exact List.mem_append_left _ (List.mem_map.mpr ⟨k, hk, rfl⟩)

/-- The search backwards from the blocks that branch to the header finds its natural loop. -/
theorem mem_loopBody (hf : f.Linked) {tails : List BlockRef}
    (ht : ∀ t, t ∈ tails ↔ f.BackEdge t h) :
    b ∈ f.flow.loopBody f.flow.reachablePreds h tails ↔ f.InLoop h b := by
  rw [FlowGraph.loopBody, mem_breadthFirst, InLoop, List.mem_singleton]
  constructor
  · intro hb
    rcases hb with hb | ⟨t, htail, p, w, hp⟩
    · exact Or.inl hb
    · right
      have e := (ht t).mp htail
      have hnode : ∀ x ∈ p, x ∈ f.flow.nodes := fun x hx => (hp x hx).1
      have hreach : ∀ x ∈ p, f.Reaches x := by
        have v := w.mono (S := fun x y => f.Reaches y) fun x hx y _ hxy =>
          ((mem_reachablePreds hf (hnode x hx)).mp hxy).2
        exact v.closed e.2.1 fun x y _ hy => hy
      have v := w.reverse (S := f.Edge) fun x hx y _ hxy =>
        ((mem_reachablePreds hf (hnode x hx)).mp hxy).1
      refine ⟨hreach b w.last_mem, t, p.reverse, e, v, fun hh => ?_⟩
      exact (hp h (List.mem_reverse.mp hh)).2 (List.mem_singleton_self h)
  · intro hb
    rcases hb with hb | ⟨hreach, t, p, e, w, hp⟩
    · exact Or.inl hb
    · right
      have hall := hreach.walk w
      refine ⟨t, (ht t).mpr e, p.reverse, ?_, fun x hx => ?_⟩
      · exact w.reverse fun x hx y hy hxy =>
          (mem_reachablePreds hf ((hall y hy).mem_nodes hf)).mpr ⟨hxy, hall x hx⟩
      · have hx := List.mem_reverse.mp hx
        refine ⟨(hall x hx).mem_nodes hf, fun hxh => ?_⟩
        rw [List.mem_singleton.mp hxh] at hx
        exact hp hx

/-- Whether a loop is the natural loop of a header. -/
structure IsNaturalLoop (f : Func) (l : Loop) : Prop where
  back : ∃ t, f.BackEdge t l.header
  body : ∀ b, b ∈ l.body ↔ f.InLoop l.header b
  nodup : l.body.Nodup

theorem IsNaturalLoop.header_mem {l : Loop} (hl : f.IsNaturalLoop l) : l.header ∈ l.body :=
  (hl.body _).mpr (Or.inl rfl)

theorem IsNaturalLoop.reaches {l : Loop} (hl : f.IsNaturalLoop l) {b : BlockRef} (hb : b ∈ l.body) :
    f.Reaches b := by
  obtain ⟨t, e⟩ := hl.back
  exact ((hl.body b).mp hb).reaches e.reaches

theorem IsNaturalLoop.exists_block {l : Loop} (hl : f.IsNaturalLoop l) (hf : f.Linked)
    {b : BlockRef} (hb : b ∈ l.body) :
    ∃ k ∈ f.blocks, b = f.ref k.id :=
  mem_nodes_flow.mp ((hl.reaches hb).mem_nodes hf)

theorem isNaturalLoop_of_mem (hf : f.Linked) {l : Loop}
    (hl : l ∈ f.flow.naturalLoops f.flow.domTree) :
    f.IsNaturalLoop l := by
  obtain ⟨h, hh, rfl⟩ := List.mem_map.mp hl
  rw [List.mem_eraseDups, List.mem_map] at hh
  obtain ⟨⟨t, s⟩, he, rfl⟩ := hh
  refine ⟨⟨t, (mem_backEdges hf).mp he⟩, fun b => mem_loopBody hf fun u => ?_, ?_⟩
  · rw [List.mem_map, ← mem_backEdges hf]
    constructor
    · intro hu
      obtain ⟨⟨u', s'⟩, hm, rfl⟩ := hu
      rw [List.mem_filter, decide_eq_true_eq] at hm
      obtain ⟨hm, rfl⟩ := hm
      exact hm
    · intro hu
      exact ⟨(u, s), List.mem_filter.mpr ⟨hu, decide_eq_true rfl⟩, rfl⟩
  · exact nodup_breadthFirst (by simp)

theorem exists_naturalLoop (hf : f.Linked) (e : f.BackEdge t h) :
    ∃ l ∈ f.flow.naturalLoops f.flow.domTree, l.header = h := by
  have hh : h ∈ ((f.flow.backEdges f.flow.domTree).map Prod.snd).eraseDups :=
    List.mem_eraseDups.mpr (List.mem_map.mpr ⟨(t, h), (mem_backEdges hf).mpr e, rfl⟩)
  exact ⟨_, List.mem_map.mpr ⟨h, hh, rfl⟩, rfl⟩

/-- No block branches to a block of its own number in another function. -/
theorem Linked.clashes (hf : f.Linked) : f.flow.clashes = false := by
  rw [FlowGraph.clashes, List.any_eq_false]
  intro e he
  obtain ⟨k, hk, rfl⟩ := List.mem_map.mp he
  rw [List.any_eq_true]
  intro hs
  obtain ⟨s, hs, hne⟩ := hs
  obtain ⟨u, _, rfl⟩ := hf.targets k hk s hs
  rw [Bool.and_eq_true] at hne
  have hnumber : u.id = k.id := of_decide_eq_true hne.2
  exact of_decide_eq_true hne.1 (congrArg f.ref hnumber)

/-- The loop nest of a linked function, as computed from the function alone. -/
def nest (f : Func) : LoopNest := f.flow.loopNest f.flow.domTree

theorem Linked.loopNest_eq (hf : f.Linked) (m : Module) :
    m.loopNest f (m.domTree f) = .ok f.nest := by
  rw [Module.loopNest, hf.clashes, Module.domTree, hf.flow_eq m]
  rfl

theorem Linked.isNaturalLoop (hf : f.Linked) {l : Loop} (hl : l ∈ f.nest) : f.IsNaturalLoop l := by
  obtain ⟨k, hk, hheader, hbody, _⟩ := FlowGraph.of_mem_loopNest hl
  have hnat := isNaturalLoop_of_mem hf hk
  exact ⟨hheader ▸ hnat.back, hheader ▸ hbody ▸ hnat.body, hbody ▸ hnat.nodup⟩

theorem Linked.mem_headers (hf : f.Linked) : h ∈ f.nest.map Loop.header ↔ ∃ t, f.BackEdge t h := by
  constructor
  · intro hh
    obtain ⟨l, hl, rfl⟩ := List.mem_map.mp hh
    exact (hf.isNaturalLoop hl).back
  · intro hh
    obtain ⟨t, e⟩ := hh
    obtain ⟨l, hl, rfl⟩ := exists_naturalLoop hf e
    exact FlowGraph.header_mem_loopNest hl

end Func

namespace Module

/-- The loop nest of a function whose branches lead to its own blocks holds exactly its natural
loops: one for each block that a reachable block it dominates branches back to, with the blocks of
its natural loop, all of which the header dominates. -/
theorem loopNest_natural (m : Module) (f : Func) (hf : f.Linked) :
    ∃ nest, m.loopNest f (m.domTree f) = .ok nest ∧
      (nest.map Loop.header).Nodup ∧
      (∀ h, h ∈ nest.map Loop.header ↔ ∃ t, f.Edge t h ∧ f.Reaches t ∧ f.Dominates h t) ∧
      ∀ l ∈ nest, l.body.Nodup ∧
        (∀ b, b ∈ l.body ↔ b = l.header ∨ f.Reaches b ∧ ∃ t p,
          (f.Edge t l.header ∧ f.Reaches t ∧ f.Dominates l.header t) ∧
            Walk f.Edge b p t ∧ l.header ∉ p) ∧
        ∀ b ∈ l.body, f.Dominates l.header b := by
  refine ⟨f.nest, hf.loopNest_eq m, FlowGraph.nodup_loopNest _ _, fun h => hf.mem_headers,
    fun l hl => ?_⟩
  have hnat := hf.isNaturalLoop hl
  exact ⟨hnat.nodup, hnat.body, fun b hb => ((hnat.body b).mp hb).dominates⟩

/-- Two loops share the block 2 as their header and make one; block 3 is a loop of its own inside,
and block 6 branches into it without being reachable. -/
def sharedHeaderLoops : Func :=
  let ending (id : BlockId) (targets : List BlockId) : Block :=
    ⟨id, "", 0, [{ op := .condBr, targets := targets.map (⟨0, ·⟩), id := ⟨0, id⟩ }]⟩
  Func.record { Func.declare 0 "f" .void [] with
    blocks := [ending 1 [2], ending 2 [3], ending 3 [3, 4], ending 4 [2, 5], ending 5 [2],
      ending 6 [3]] }

theorem sharedHeaderLoops_linked : sharedHeaderLoops.Linked := ⟨by decide, by decide⟩

theorem sharedHeaderLoops_natural :
    sharedHeaderLoops.Linked ∧ sharedHeaderLoops.Dominates ⟨0, 2⟩ ⟨0, 5⟩ ∧
    ∃ t, sharedHeaderLoops.Edge t ⟨0, 3⟩ ∧ sharedHeaderLoops.Reaches t ∧
      sharedHeaderLoops.Dominates ⟨0, 3⟩ t := by
  obtain ⟨nest, hnest, _, hheaders, hloops⟩ :=
    loopNest_natural { name := "" } sharedHeaderLoops sharedHeaderLoops_linked
  let inner : Loop := ⟨⟨0, 3⟩, [⟨0, 3⟩], some ⟨0, 2⟩, 2⟩
  let outer : Loop := ⟨⟨0, 2⟩, [⟨0, 2⟩, ⟨0, 4⟩, ⟨0, 5⟩, ⟨0, 3⟩], none, 1⟩
  have heq : loopNest { name := "" } sharedHeaderLoops (domTree { name := "" } sharedHeaderLoops) =
      .ok [inner, outer] := by
    cbv
  rw [heq] at hnest
  cases hnest
  have houter := hloops outer (by simp)
  exact ⟨sharedHeaderLoops_linked, houter.2.2 ⟨0, 5⟩ (by decide), (hheaders ⟨0, 3⟩).mp (by decide)⟩

/-- The first block branches to the block 2 of another function, which returns. Block 2 branches to
itself and cannot be reached. -/
def foreignBranch : Func :=
  Func.record { Func.declare 1 "f" .void [] with
    blocks := [
      ⟨1, "", 1, [{ op := .br, targets := [⟨0, 2⟩], id := ⟨1, 0⟩ }]⟩,
      ⟨2, "", 1, [{ op := .br, targets := [⟨1, 2⟩], id := ⟨1, 1⟩ }]⟩] }

def foreignBranchModule : Module :=
  let ending (id : BlockId) : Block := ⟨id, "", 0, [{ op := .ret, id := ⟨0, id⟩ }]⟩
  let other := Func.record { Func.declare 0 "other" .void [] with blocks := [ending 1, ending 2] }
  { name := "", functions := [other, foreignBranch] }

theorem foreignBranch_not_reaches : ¬foreignBranch.Reaches ⟨1, 2⟩ := by
  intro hr
  obtain ⟨p, r, hentry, w⟩ := hr
  have hstart : r ≠ ⟨1, 2⟩ := by
    cases hentry
    decide
  -- block 2 is entered from itself only
  have hstep : ∀ a b, a ≠ ⟨1, 2⟩ → foreignBranch.Edge a b → b ≠ ⟨1, 2⟩ := by
    intro a b ha e hb
    obtain ⟨k, hk, rfl, hs⟩ := e
    have hin :
        ∀ k ∈ foreignBranch.blocks, ⟨1, 2⟩ ∈ k.succs → foreignBranch.ref k.id = ⟨1, 2⟩ := by decide
    exact ha (hin k hk (hb ▸ hs))
  exact w.closed hstart hstep _ w.last_mem rfl

/-- Reachability is a matter of block numbers, so a branch out of the function makes a loop of a
block that cannot be reached. -/
theorem foreignBranch_not_natural : (foreignBranch.blocks.map Block.id).Nodup ∧
    ¬∃ nest, foreignBranchModule.loopNest foreignBranch
      (foreignBranchModule.domTree foreignBranch) = .ok nest ∧
      ∀ h, h ∈ nest.map Loop.header ↔
      ∃ t, foreignBranch.Edge t h ∧ foreignBranch.Reaches t ∧ foreignBranch.Dominates h t := by
  refine ⟨by decide, ?_⟩
  intro hnest
  obtain ⟨nest, hnest, hheaders⟩ := hnest
  have heq : foreignBranchModule.loopNest foreignBranch
      (foreignBranchModule.domTree foreignBranch) = .ok [⟨⟨1, 2⟩, [⟨1, 2⟩], none, 1⟩] := by
    cbv
  rw [heq] at hnest
  cases hnest
  obtain ⟨_, _, hreach, hdom⟩ := (hheaders ⟨1, 2⟩).mp (by simp)
  exact foreignBranch_not_reaches (hdom.reaches hreach)

end Module

end KernelIR
