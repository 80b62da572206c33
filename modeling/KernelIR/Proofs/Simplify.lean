import KernelIR.Hoist.Pipeline
import KernelIR.Proofs.Edit
import KernelIR.Proofs.Preheader.Loops

namespace KernelIR

namespace Func

variable {f : Func} {l : Loop} {σ : Instr → Instr} {new : List Instr} {d : BlockRef}

/-- Whether every phi has as many values as blocks that they flow in from. -/
def Paired (f : Func) : Prop := ∀ i ∈ f.instrs, i.op = .phi → i.operands.length = i.incoming.length

/-- The headers of the loops without a preheader. -/
def lacking (f : Func) : List BlockRef :=
  (f.nest.filter fun l => (f.preheader? l).isNone).map Loop.header

theorem mem_lacking : d ∈ f.lacking ↔ ∃ l ∈ f.nest, l.header = d ∧ f.preheader? l = none := by
  simp only [lacking, List.mem_map, List.mem_filter, Option.isNone_iff_eq_none]
  exact exists_congr fun l => ⟨fun h => ⟨h.1.1, h.2, h.1.2⟩, fun h => ⟨⟨h.1, h.2.2⟩, h.2.1⟩⟩

theorem nodup_lacking (f : Func) : f.lacking.Nodup :=
  (FlowGraph.nodup_loopNest f.flow f.flow.domTree).sublist (List.filter_sublist.map _)

/-- The first loop without a preheader. -/
def unserved? (f : Func) : Option Loop := f.nest.find? fun l => (f.preheader? l).isNone

theorem unserved?_eq_none : f.unserved? = none ↔ f.lacking = [] := by
  simp [unserved?, lacking]

theorem unserved?_some (hl : f.unserved? = some l) : l ∈ f.nest ∧ f.preheader? l = none :=
  ⟨List.mem_of_find?_eq_some hl, by simpa using List.find?_some hl⟩

/-- The function after some rounds that each give a loop a preheader. -/
def served : Nat → Func → Func
  | 0, f => f
  | n + 1, f =>
    match f.unserved? with
    | some l => served n (f.withPreheader l)
    | none => f

/-- The function with a preheader for every loop. -/
def simplified (f : Func) : Func := f.served f.lacking.length

theorem length_nest_le (hf : f.Linked) : f.nest.length ≤ f.blocks.length := by
  have hsub : f.nest.map Loop.header ⊆ f.flow.nodes := by
    intro d hd
    obtain ⟨l, hl, rfl⟩ := List.mem_map.mp hd
    have hnat := hf.isNaturalLoop hl
    exact (hnat.reaches hnat.header_mem).mem_nodes hf
  have hle :=
    (List.subperm_of_subset (FlowGraph.nodup_loopNest f.flow f.flow.domTree) hsub).length_le
  rwa [List.length_map, nodes_flow, List.length_map] at hle

theorem length_lacking_le (hf : f.Linked) : f.lacking.length ≤ f.blocks.length := by
  have hle : f.lacking.length ≤ f.nest.length := by
    rw [lacking, List.length_map]
    exact List.length_filter_le _ _
  exact hle.trans (length_nest_le hf)

namespace Inserts

variable (h : f.Inserts l σ new)

include h

theorem paired_entered (hf : f.Paired) : (f.entered l σ new).Paired := by
  intro i hi hop
  obtain ⟨b, hb, hi⟩ := mem_instrs.mp hi
  rcases h.mem_blocks.mp hb with rfl | ⟨k, hk, rfl⟩
  · rcases List.mem_append.mp hi with hi | hi
    · obtain ⟨_, φ, _, hoperands, hincoming⟩ := h.joins.made i hi
      rw [hoperands, hincoming, List.length_map, List.length_map]
    · rw [List.mem_singleton.mp hi] at hop
      cases hop
  · rcases h.mem_changed hk hi with ⟨i', hi', _, hop', hoperands, hincoming, _⟩ | ⟨φ, hφ, _, rfl⟩
    · rw [hoperands, hincoming]
      exact hf i' (mem_instrs.mpr ⟨k, hk, hi'⟩) (hop'.symm.trans hop)
    · rcases h.joins.joined φ hφ with ⟨_, hself⟩ | ⟨v, hv, _⟩
      · rw [hself] at hop ⊢
        exact hf φ (h.mem_instrs_phi hφ) hop
      · rw [hv]
        simp [Instr.withEntries]

theorem mem_headers_entered :
    d ∈ (f.entered l σ new).nest.map Loop.header ↔ d ∈ f.nest.map Loop.header := by
  rw [h.linked_entered.mem_headers, h.linked.mem_headers, h.exists_backEdge_entered]

/-- Another loop lacks a preheader if it did, whatever else changed. -/
theorem preheader?_entered {l' k : Loop} (hl' : (f.entered l σ new).IsNaturalLoop l')
    (hk : f.IsNaturalLoop k) (heq : l'.header = k.header) (hne : k.header ≠ l.header) :
    (f.entered l σ new).preheader? l' = none ↔ f.preheader? k = none := by
  simp only [Option.eq_none_iff_forall_ne_some, ne_eq, preheader?_eq_some_iff h.linked_entered hl',
    preheader?_eq_some_iff h.linked hk]
  constructor
  · rintro hnone n ⟨j, hj, _⟩
    exact hnone _ ⟨_, (h.isPreheader_changed hl' hk heq hne hj.mem).mpr hj, rfl⟩
  · rintro hnone n ⟨j, hj, _⟩
    rcases h.mem_blocks.mp hj.mem with rfl | ⟨i, hi, rfl⟩
    · have hedge := (h.detour.leaves _).mp hj.edge
      exact hne (heq.symm.trans hedge)
    · exact hnone _ ⟨i, (h.isPreheader_changed hl' hk heq hne hi).mp hj, rfl⟩

/-- One loop less lacks a preheader. -/
theorem mem_lacking_entered : d ∈ (f.entered l σ new).lacking ↔ d ∈ f.lacking ∧ d ≠ l.header := by
  have hlinked := h.linked_entered
  rw [mem_lacking, mem_lacking]
  constructor
  · rintro ⟨l', hl', rfl, hnone⟩
    have hnat' := hlinked.isNaturalLoop hl'
    have hne : l'.header ≠ l.header := by
      intro heq
      rw [(preheader?_eq_some_iff hlinked hnat').mpr ⟨_, h.isPreheader_new hnat' heq, rfl⟩] at hnone
      cases hnone
    obtain ⟨k, hk, hheader⟩ := List.mem_map.mp (h.mem_headers_entered.mp (List.mem_map_of_mem hl'))
    refine ⟨⟨k, hk, hheader, ?_⟩, hne⟩
    exact (h.preheader?_entered hnat' (h.linked.isNaturalLoop hk) hheader.symm
      (hheader ▸ hne)).mp hnone
  · rintro ⟨⟨k, hk, rfl, hnone⟩, hne⟩
    obtain ⟨l', hl', hheader⟩ :=
      List.mem_map.mp (h.mem_headers_entered.mpr (List.mem_map_of_mem hk))
    refine ⟨l', hl', hheader, ?_⟩
    exact (h.preheader?_entered (hlinked.isNaturalLoop hl')
      (h.linked.isNaturalLoop hk) hheader hne).mpr hnone

theorem perm_lacking_entered (hl : l.header ∈ f.lacking) :
    f.lacking.Perm (l.header :: (f.entered l σ new).lacking) := by
  have hperm : (f.entered l σ new).lacking.Perm (f.lacking.erase l.header) := by
    rw [List.perm_ext_iff_of_nodup (nodup_lacking _) ((nodup_lacking f).erase _)]
    intro d
    rw [h.mem_lacking_entered, (nodup_lacking f).mem_erase_iff, and_comm]
  exact (List.perm_cons_erase hl).trans (hperm.symm.cons _)

theorem length_lacking_entered (hl : l.header ∈ f.lacking) :
    (f.entered l σ new).lacking.length + 1 = f.lacking.length :=
  (h.perm_lacking_entered hl).length_eq.symm

end Inserts

end Func

namespace Module

variable {m m₁ : Module} {f g : Func} {l : Loop}

/-- The first loop without a preheader is given one. -/
theorem simplifyFirst_eq (hm : m.Consistent) (hf : f ∈ m.known) (hlinked : f.Linked)
    (hpaired : f.Paired) (ls : List Loop) (hls : ∀ l ∈ ls, f.IsNaturalLoop l) :
    simplifyFirst ls m = match ls.find? fun l => (f.preheader? l).isNone with
      | some l => .ok true (m.update (f.withPreheader l))
      | none => .ok false m := by
  induction ls with
  | nil => rfl
  | cons l ls ih =>
    have hl := hls l List.mem_cons_self
    have hext := hm.extensible hf hlinked hl
    have hinsert := insertPreheader_eq hm hf hlinked hl fun φ hφ => by
      obtain ⟨_, _, _, _, hop⟩ := hext.mem_phis.mp hφ
      exact hpaired φ (hext.mem_instrs_phi hφ) hop
    cases hpre : f.preheader? l with
    | none =>
      rw [hpre, Option.isSome_none, if_neg Bool.false_ne_true] at hinsert
      rw [simplifyFirst, Edit.bind_ok hinsert, List.find?_cons_of_pos (by rw [hpre]; rfl)]
      rfl
    | some n =>
      rw [hpre, Option.isSome_some, if_pos rfl] at hinsert
      rw [simplifyFirst, Edit.bind_ok hinsert,
        List.find?_cons_of_neg (by rw [hpre]; exact Bool.false_ne_true)]
      exact ih fun l hl => hls l (List.mem_cons_of_mem _ hl)

theorem simplifyFirst_cases (hm : m.Consistent) (hf : f ∈ m.known) (hlinked : f.Linked)
    (hpaired : f.Paired) (ls : List Loop) (hls : ∀ l ∈ ls, f.IsNaturalLoop l) :
    (simplifyFirst ls m = .ok false m ∧ ∀ l ∈ ls, f.preheader? l ≠ none) ∨
      ∃ l ∈ ls, f.preheader? l = none ∧
        simplifyFirst ls m = .ok true (m.update (f.withPreheader l)) := by
  rw [simplifyFirst_eq hm hf hlinked hpaired ls hls]
  cases hfirst : ls.find? fun l => (f.preheader? l).isNone with
  | none =>
    refine Or.inl ⟨rfl, fun l hl => ?_⟩
    simpa using List.find?_eq_none.mp hfirst l hl
  | some l =>
    exact Or.inr ⟨l, List.mem_of_find?_eq_some hfirst, by simpa using List.find?_some hfirst, rfl⟩

/-- What giving loops preheaders keeps, from a function `f` to the function `g` that it has
become. -/
structure Simplified (m : Module) (f : Func) (m₁ : Module) (g : Func) : Prop where
  consistent : m₁.Consistent
  mem : g ∈ m₁.known
  linked : g.Linked
  paired : g.Paired
  id : g.id = f.id
  module : m₁ = m.update g
  blocks : (f.blocks.map fun k => (k.id, k.name)).Sublist (g.blocks.map fun k => (k.id, k.name))
  count : g.blocks.length + g.lacking.length = f.blocks.length + f.lacking.length
  headers : ∀ d, d ∈ g.nest.map Loop.header ↔ d ∈ f.nest.map Loop.header

namespace Simplified

theorem start (hm : m.Consistent) (hf : f ∈ m.known) (hlinked : f.Linked) (hpaired : f.Paired) :
    Simplified m f m f :=
  ⟨hm, hf, hlinked, hpaired, rfl, (hm.update_self hf).symm, List.Sublist.refl _, rfl,
    fun _ => Iff.rfl⟩

theorem func? (h : Simplified m f m₁ g) : m₁.func? f.id = some g :=
  h.consistent.func?_iff.mpr ⟨h.mem, h.id⟩

/-- Giving one more loop a preheader leaves one less without. -/
theorem step (h : Simplified m f m₁ g) (hl : l ∈ g.nest) (hnone : g.preheader? l = none) :
    Simplified m f (m₁.update (g.withPreheader l)) (g.withPreheader l) ∧
      (g.withPreheader l).lacking.length + 1 = g.lacking.length := by
  obtain ⟨σ, new, heq, hins⟩ :=
    (h.consistent.extensible h.mem h.linked (h.linked.isNaturalLoop hl)).exists_inserts
  have hlacking := hins.length_lacking_entered (Func.mem_lacking.mpr ⟨l, hl, rfl, hnone⟩)
  have hblocks : (g.entered l σ new).blocks.length = g.blocks.length + 1 := by
    simpa using hins.perm_blocks.length_eq
  rw [heq]
  refine ⟨⟨h.consistent.update h.mem hins.grows, ?_, hins.linked_entered,
    hins.paired_entered h.paired, h.id, ?_,
    h.blocks.trans Func.Places.sublist_blocks, ?_,
    fun d => hins.mem_headers_entered.trans (h.headers d)⟩, hlacking⟩
  · exact (mem_known_update h.mem hins.grows.id).mpr (Or.inl rfl)
  · rw [h.module, update_update m hins.grows.id]
  · rw [hblocks, ← h.count, ← hlacking]
    omega

/-- A round serves the first loop without a preheader, if there is one. -/
theorem simplifyOnce_eq (h : Simplified m f m₁ g) : simplifyOnce f.id m₁ = match g.unserved? with
    | some l => .ok true (m₁.update (g.withPreheader l))
    | none => .ok false m₁ := by
  simp only [simplifyOnce, h.func?, h.linked.loopNest_eq]
  exact simplifyFirst_eq h.consistent h.mem h.linked h.paired g.nest fun l hl =>
    h.linked.isNaturalLoop hl

theorem simplifyLoops_idle (h : Simplified m f m₁ g) (hnone : g.lacking = []) {fuel : Nat}
    (hfuel : 0 < fuel) :
    simplifyLoops f.id fuel m₁ = .ok false m₁ := by
  obtain ⟨fuel, rfl⟩ := Nat.exists_eq_add_of_le' hfuel
  have hrun := h.simplifyOnce_eq
  rw [Func.unserved?_eq_none.mpr hnone] at hrun
  rw [simplifyLoops, Edit.bind_ok hrun]
  rfl

/-- There are as many rounds as loops without a preheader, and one more that finds none. What each
of them keeps is kept. -/
theorem simplifyLoops_eq {Q : Func → Prop}
    (keep : ∀ m₁ g l, Simplified m f m₁ g → l ∈ g.nest → g.preheader? l = none → Q g →
      Q (g.withPreheader l))
    (h : Simplified m f m₁ g) (hQ : Q g) : ∃ m₂, Simplified m f m₂ g.simplified ∧ Q g.simplified ∧
      g.simplified.lacking = [] ∧
        ∀ fuel, g.lacking.length < fuel →
          simplifyLoops f.id fuel m₁ = .ok (!g.lacking.isEmpty) m₂ := by
  rw [Func.simplified]
  induction hn : g.lacking.length generalizing m₁ g with
  | zero =>
    have hnone := List.eq_nil_of_length_eq_zero hn
    refine ⟨m₁, h, hQ, hnone, fun fuel hfuel => ?_⟩
    rw [hnone]
    exact h.simplifyLoops_idle hnone hfuel
  | succ n ih =>
    have hlacking : g.lacking ≠ [] := List.ne_nil_of_length_eq_add_one hn
    obtain ⟨l, hfirst⟩ := Option.ne_none_iff_exists'.mp (mt Func.unserved?_eq_none.mp hlacking)
    obtain ⟨hl, hpre⟩ := Func.unserved?_some hfirst
    obtain ⟨hstep, hless⟩ := h.step hl hpre
    obtain ⟨m₂, h₂, hQ₂, hnone, hrest⟩ := ih hstep (keep m₁ g l h hl hpre hQ) (by omega)
    have hserved : g.served (n + 1) = (g.withPreheader l).served n := by rw [Func.served, hfirst]
    have hrun := h.simplifyOnce_eq
    rw [hfirst] at hrun
    rw [hserved]
    refine ⟨m₂, h₂, hQ₂, hnone, fun fuel hfuel => ?_⟩
    obtain ⟨fuel, rfl⟩ := Nat.exists_eq_add_of_le' (Nat.lt_of_le_of_lt (Nat.zero_le _) hfuel)
    rw [simplifyLoops, Edit.bind_ok hrun, if_pos rfl, Edit.bind_ok (hrest fuel (by omega)),
      List.isEmpty_eq_false_iff.mpr hlacking]
    rfl

theorem simplifyLoops_run (h : Simplified m f m₁ g) :
    ∃ changed m₂ g₂, Simplified m f m₂ g₂ ∧ g₂.lacking = [] ∧
    ∀ fuel, g.lacking.length < fuel → simplifyLoops f.id fuel m₁ = .ok changed m₂ := by
  obtain ⟨m₂, h₂, _, hnone, hrun⟩ :=
    simplifyLoops_eq (Q := fun _ => True) (fun _ _ _ _ _ _ _ => trivial) h trivial
  exact ⟨_, m₂, g.simplified, h₂, hnone, hrun⟩

end Simplified

end Module

namespace Work

/-- Every loop of a function is given a preheader, if branches lead to blocks of the function and
phis have as many values as blocks. The rounds come to an end by themselves: any bound above the
number of loops gives the same result. One block is inserted for each loop without a preheader, and
the headers of the loops stay. A second run finds nothing to do. -/
theorem simplify_gives_preheaders (o : Options) (w : Work) (id : FuncId) (f : Func)
    (hm : w.module.Consistent) (hf : w.module.func? id = some f) (hlinked : f.Linked)
    (hphis : ∀ i ∈ f.instrs, i.op = .phi → i.operands.length = i.incoming.length) :
    ∃ changed m₁ g nest nest₁, w.module.loopNest f (w.module.domTree f) = .ok nest ∧
      (∀ fuel, nest.length < fuel → Module.simplifyLoops id fuel w.module = .ok changed m₁) ∧
      applyPass o id .simplifyLoops w = .ok changed { w with module := m₁ } ∧
      m₁.func? id = some g ∧ m₁ = w.module.update g ∧
      (f.blocks.map fun k => (k.id, k.name)).Sublist (g.blocks.map fun k => (k.id, k.name)) ∧
      g.blocks.length = f.blocks.length + nest.countP (fun l => (w.module.preheader? l).isNone) ∧
      m₁.loopNest g (m₁.domTree g) = .ok nest₁ ∧ (∀ l ∈ nest₁, (m₁.preheader? l).isSome) ∧
      (nest₁.map Loop.header).Perm (nest.map Loop.header) ∧
      ∀ w', w'.module = m₁ → applyPass o id .simplifyLoops w' = .ok false w' := by
  obtain ⟨hknown, rfl⟩ := hm.func?_iff.mp hf
  have hstart : Module.Simplified w.module f w.module f :=
    ⟨hm, hknown, hlinked, hphis, rfl, (hm.update_self hknown).symm, List.Sublist.refl _, rfl,
      fun _ => Iff.rfl⟩
  obtain ⟨changed, m₁, g, h, hnone, hrun⟩ := hstart.simplifyLoops_run
  have hlacking : f.lacking.length = f.nest.countP fun l => (w.module.preheader? l).isNone := by
    rw [Func.lacking, List.length_map, ← List.countP_eq_length_filter]
    refine List.countP_congr fun l hl => ?_
    rw [Module.preheader?_eq hm hknown hlinked (hlinked.isNaturalLoop hl), Option.isNone_map]
  have hrounds :
      ∀ fuel, f.nest.length < fuel → Module.simplifyLoops f.id fuel w.module = .ok changed m₁ := by
    intro fuel hfuel
    exact hrun fuel (Nat.lt_of_le_of_lt (hlacking ▸ List.countP_le_length) hfuel)
  have hfuel : f.nest.length < w.module.blockCount + 1 :=
    Nat.lt_succ_of_le ((Func.length_nest_le hlinked).trans (Module.length_le_blockCount hknown))
  refine ⟨changed, m₁, g, f.nest, g.nest, hlinked.loopNest_eq _, hrounds, ?_, h.func?, h.module,
    h.blocks, ?_, h.linked.loopNest_eq _, fun l hl => ?_, ?_, fun w' hw' => ?_⟩
  · simp only [applyPass, onModule, Edit.within, Module.simplify, hrounds _ hfuel]
  · rw [← hlacking, ← h.count, hnone]
    rfl
  · rw [Module.preheader?_eq h.consistent h.mem h.linked (h.linked.isNaturalLoop hl),
      Option.isSome_map]
    by_contra hpre
    rw [Option.not_isSome_iff_eq_none] at hpre
    have hmem : l.header ∈ g.lacking := Func.mem_lacking.mpr ⟨l, hl, rfl, hpre⟩
    rw [hnone] at hmem
    exact List.not_mem_nil hmem
  · exact (List.perm_ext_iff_of_nodup (FlowGraph.nodup_loopNest _ _)
      (FlowGraph.nodup_loopNest _ _)).mpr h.headers
  · have hidle := h.simplifyLoops_idle hnone (Nat.succ_pos w'.module.blockCount)
    rw [← hw'] at hidle
    simp only [applyPass, onModule, Edit.within, Module.simplify, hidle]

/-- The function starts with a loop. Another loop is entered by two branches of one block and by a
block that cannot be reached. -/
def entryLoopAndDoubleBranch : Func :=
  let x := Value.param ⟨"x", .int 32, 1⟩
  let choose (serial : Nat) (targets : List BlockId) : Instr :=
    { op := .condBr, operands := [.param ⟨"flag", .int 1, 0⟩], targets := targets.map (⟨0, ·⟩),
      id := ⟨0, serial⟩ }
  Func.record { Func.declare 0 "f" .void [("flag", .int 1), ("x", .int 32)] with
    blocks := [
      ⟨1, "", 0, [choose 0 [1, 2]]⟩,
      ⟨2, "", 0, [choose 1 [3, 3]]⟩,
      ⟨3, "", 0, [
        { op := .phi, operands := [x, .instr ⟨0, 2⟩, x], incoming := [2, 3, 5].map (⟨0, ·⟩),
          id := ⟨0, 2⟩ },
        choose 3 [3, 4]]⟩,
      ⟨4, "", 0, [{ op := .ret, id := ⟨0, 4⟩ }]⟩,
      ⟨5, "", 0, [choose 5 [3, 4]]⟩]
    maxBlock := 5
    nextSerial := 6 }

def entryLoopAndDoubleBranchWork : Work :=
  { module := { name := "", functions := [entryLoopAndDoubleBranch] } }

theorem entryLoopAndDoubleBranch_gives_preheaders :
    ∃ w₁ g nest, entryLoopAndDoubleBranchWork.module.Consistent ∧
    entryLoopAndDoubleBranchWork.module.func? 0 = some entryLoopAndDoubleBranch ∧
    entryLoopAndDoubleBranch.Linked ∧
    (∀ i ∈ entryLoopAndDoubleBranch.instrs, i.op = .phi → i.operands.length = i.incoming.length) ∧
      applyPass {} 0 .simplifyLoops entryLoopAndDoubleBranchWork = .ok true w₁ ∧
      w₁.module.func? 0 = some g ∧ g.blocks.length = 7 ∧
        w₁.module.loopNest g (w₁.module.domTree g) = .ok nest ∧
        (∀ l ∈ nest, (w₁.module.preheader? l).isSome) ∧
          applyPass {} 0 .simplifyLoops w₁ = .ok false w₁ := by
  have hm : entryLoopAndDoubleBranchWork.module.Consistent := by decide
  have hlinked : entryLoopAndDoubleBranch.Linked := ⟨by decide, by decide⟩
  have hphis : ∀ i ∈ entryLoopAndDoubleBranch.instrs, i.op = .phi →
      i.operands.length = i.incoming.length := by decide
  have hcount :
      Edit.outcome? (applyPass {} 0 .simplifyLoops) entryLoopAndDoubleBranchWork (fun changed w₁ =>
      (changed, (w₁.module.func? 0).map fun g => g.blocks.length)) = some (true, some 7) := by cbv
  obtain ⟨changed, m₁, g, _, nest, _, _, hrun, hg, _, _, _, hnest, hall, _, hagain⟩ :=
    simplify_gives_preheaders
      {} entryLoopAndDoubleBranchWork 0 entryLoopAndDoubleBranch hm rfl hlinked hphis
  simp only [Edit.outcome?_of_ok hrun, hg, Option.map_some, Prod.mk.injEq,
    Option.some_inj] at hcount
  obtain ⟨rfl, hblocks⟩ := hcount
  exact ⟨_, g, nest, hm, rfl, hlinked, hphis, hrun, hg, hblocks, hnest, hall, hagain _ rfl⟩

/-- The module `foreignBranchModule`, with the numbers of its blocks and instructions used up. -/
def foreignBranchExhausted : Work :=
  { module := { Module.foreignBranchModule with
      functions := Module.foreignBranchModule.functions.map fun f =>
        { f with maxBlock := 2, nextSerial := 3 } } }

/-- A loop that a branch out of the function makes is not entered, and gets no preheader. -/
theorem foreignBranchExhausted_lacks_preheader : ∃ f nest,
    foreignBranchExhausted.module.Consistent ∧ foreignBranchExhausted.module.func? 1 = some f ∧
    (∀ i ∈ f.instrs, i.op = .phi → i.operands.length = i.incoming.length) ∧
      applyPass {} 1 .simplifyLoops foreignBranchExhausted = .ok false foreignBranchExhausted ∧
        foreignBranchExhausted.module.loopNest f (foreignBranchExhausted.module.domTree f) =
          .ok nest ∧ ∃ l ∈ nest, foreignBranchExhausted.module.preheader? l = none := by
  refine ⟨_, [⟨⟨1, 2⟩, [⟨1, 2⟩], none, 1⟩], by decide, rfl, by decide, ?_, ?_,
    _, List.mem_cons_self, ?_⟩
  · cbv
  · cbv
  · cbv

end Work

end KernelIR
