import KernelIR.Proofs.Motion.Completeness

namespace KernelIR

/-- How deep a block lies in loops, 0 outside of them. -/
def LoopNest.depthAt (n : LoopNest) (b : BlockRef) : Nat := ((n.loopFor? b).map Loop.depth).getD 0

/-- How deep the block of an instruction lies in loops. -/
def Module.level (m : Module) (n : LoopNest) (i : Instr) : Nat :=
  ((m.owner? i.id).map n.depthAt).getD 0

namespace Func

variable {f : Func} {l j : Loop} {k : Block} {b : BlockRef} (hf : f.Linked)

include hf

theorem depthAt_eq_around (b : BlockRef) : f.nest.depthAt b = f.around b := by
  rw [LoopNest.depthAt, around]
  rcases loopFor?_cases hf b with ⟨hnone, hfree⟩ | ⟨l, hsome, hl⟩
  · rw [hnone, Option.map_none, Option.getD_none, eq_comm, List.countP_eq_zero]
    simpa [Loop.contains] using hfree
  · rw [hsome, Option.map_some, Option.getD_some, depth_eq_countP hf hl.mem]
    apply List.countP_congr
    intro k hk
    simp only [Loop.contains, List.contains_eq_mem, decide_eq_true_eq]
    constructor
    · exact fun hheader =>
        body_subset (hf.isNaturalLoop hl.mem) (hf.isNaturalLoop hk) hheader hl.prop
    · intro hb
      by_cases hkl : k = l
      · exact hkl ▸ (hf.isNaturalLoop hk).header_mem
      · exact ((inside_iff hf hl.mem hk).mp (hl.around k hk hb hkl)).2

namespace IsPreheader

variable (h : f.IsPreheader l k) (hl : l ∈ f.nest)

include h hl

/-- A preheader lies in the loops that its own loop is inside of. -/
theorem mem_body_iff (hj : j ∈ f.nest) : f.ref k.id ∈ j.body ↔ l.Inside j := by
  have hnl := hf.isNaturalLoop hl
  have hnj := hf.isNaturalLoop hj
  rw [inside_iff hf hl hj]
  constructor
  · intro hin
    exact ⟨fun he => h.outside (he ▸ hin), h.header_mem hf hnl hnj hin⟩
  · rintro ⟨hne, hheader⟩
    -- the outer header is above the inner one, so the function does not start with the inner loop
    have hheaders : j.header ≠ l.header := fun he => hne (FlowGraph.eq_of_header hl hj he.symm)
    have habove : f.Dominates j.header l.header := ((hnj.body _).mp hheader).dominates
    have hstart : f.entryRef? ≠ some l.header := by
      intro hentry
      obtain ⟨q, r, hr, w⟩ := hnl.reaches hnl.header_mem
      rw [hentry, Option.some_inj] at hr
      subst hr
      exact hheaders (List.mem_singleton.mp (habove [l.header] ⟨l.header, hentry, .single _⟩))
    exact hnj.mem_of_between hheader (h.dominates hnl hstart) (habove.pred hheaders h.edge)

theorem loopFor?_eq_parent : (f.nest.loopFor? (f.ref k.id)).map Loop.header = l.parent? := by
  have hinner : ∀ p, f.nest.Innermost (f.ref k.id ∈ ·.body) p ↔
      f.nest.Innermost (l.Inside ·) p := by
    intro p
    constructor
    · rintro ⟨hp, hin, haround⟩
      exact ⟨hp, (h.mem_body_iff hf hl hp).mp hin,
        fun j hj hlj => haround j hj ((h.mem_body_iff hf hl hj).mpr hlj)⟩
    · rintro ⟨hp, hin, haround⟩
      exact ⟨hp, (h.mem_body_iff hf hl hp).mpr hin,
        fun j hj hkj => haround j hj ((h.mem_body_iff hf hl hj).mp hkj)⟩
  apply Option.ext
  intro b
  simp only [Option.map_eq_some_iff, loopFor?_eq_some_iff hf, hinner, parent?_eq_some_iff hf hl]

/-- From the blocks that a loop is the innermost one of, its preheader is one loop further out. -/
theorem depthAt_succ (hb : f.nest.loopFor? b = some l) :
    f.nest.depthAt (f.ref k.id) + 1 = f.nest.depthAt b := by
  have hinner := (loopFor?_eq_some_iff hf b l).mp hb
  have hnodup : f.nest.Nodup := List.Nodup.of_map _ (FlowGraph.nodup_loopNest _ _)
  rw [depthAt_eq_around hf, depthAt_eq_around hf, around, around, eq_comm]
  refine countP_eq_succ hnodup hl (by simpa [Loop.contains] using hinner.prop)
    (by simpa [Loop.contains] using h.outside) ?_
  intro j hj hjl
  simp only [Loop.contains, List.contains_eq_mem, decide_eq_true_eq, h.mem_body_iff hf hl hj]
  exact ⟨fun hbj => hinner.around j hj hbj hjl, fun hlj => hlj.1 hinner.prop⟩

end IsPreheader

end Func

theorem Module.Hosts.level_eq {m : Module} {g : Func} (h : m.Hosts g) {k : Block}
    (hk : k ∈ g.blocks) {i : Instr}
    (hi : i ∈ k.instrs) (n : LoopNest) : m.level n i = n.depthAt (g.ref k.id) := by
  have howner : m.owner? i.id = some (g.ref k.id) :=
    h.consistent.owner?_iff.mpr ⟨g, h.mem, k, hk, Block.holds_iff.mpr ⟨i, hi, rfl⟩, rfl⟩
  rw [level, howner, Option.map_some, Option.getD_some]

namespace Work

variable {w w₁ w₂ : Work} {f g g' : Func} {l : Loop} {src pre : Block} {i : Instr} {c c' : Bool}
  {ls : List Loop} (o : Options)

/-- Whether the counters say what has been done, with some loops of the function still to come: each
move took an instruction one level up. -/
structure Accounts (w : Work) (f : Func) (ls : List Loop) (w₁ : Work) : Prop where
  hoisted : w₁.stats.hoisted + (f.instrs.map (w₁.module.level f.nest)).sum =
    w.stats.hoisted + (f.instrs.map (w.module.level f.nest)).sum
  loops : w₁.stats.loops + ls.length = w.stats.loops + f.nest.length
  noPreheader : w₁.stats.noPreheader + ls.countP (fun l => (f.preheader? l).isNone) =
    w.stats.noPreheader + f.nest.countP fun l => (f.preheader? l).isNone

section Move

variable {dst : Block} (hw : w.module.Hosts f) (hs : Sweeps w f c w₁ g)
  (lifts : w₁.Lifts g l i src dst) (module : w₂.module = w₁.module.update (g.moved i dst.id))

include hw hs lifts module

theorem Lifts.level_of_mem {x : Instr} {b : Block} (hb : b ∈ g.blocks)
    (hx : x ∈ (b.moved i dst.id).instrs) :
    w₂.module.level f.nest x = f.nest.depthAt (f.ref b.id) := by
  have hkept := hs.kept hw
  have hosts : w₂.module.Hosts (g.moved i dst.id) := module ▸ hkept.hosts.relocated lifts.relocates
  rw [hosts.level_eq (Func.mem_blocks_moved i dst.id hb) hx, Block.id_moved, Func.ref_moved,
    hkept.ref]

theorem Lifts.level_moved (hl : l ∈ f.nest) (hfor : f.nest.loopFor? (f.ref src.id) = some l) :
    w₂.module.level f.nest i + 1 = w₁.module.level f.nest i := by
  have hkept := hs.kept hw
  have hrel := lifts.relocates
  have hup := lifts.pre.depthAt_succ hkept.hosts.framed.linked (b := f.ref src.id)
  simp only [Func.nest_of_flow hkept.flow, hkept.ref] at hup
  have hdst :=
    (hrel.mem_moved hkept.hosts.framed hkept.hosts.own hrel.dst_mem).mpr (Or.inr ⟨rfl, rfl⟩)
  rw [lifts.level_of_mem hw hs module hrel.dst_mem hdst,
    hkept.hosts.level_eq lifts.src_mem lifts.mem, hkept.ref]
  exact hup hl hfor

theorem Lifts.level_of_ne {x : Instr} (hx : x ∈ g.instrs) (hne : x ≠ i) :
    w₂.module.level f.nest x = w₁.module.level f.nest x := by
  have hkept := hs.kept hw
  obtain ⟨b, hb, hxb⟩ := Func.mem_instrs.mp hx
  have hids : x.id ≠ i.id := by
    intro he
    apply hne
    exact List.inj_on_of_nodup_map hkept.hosts.own (Func.mem_held_of_mem hb hxb)
      (Func.mem_held_of_mem lifts.src_mem lifts.mem) he
  have hstays :=
    (lifts.relocates.mem_moved hkept.hosts.framed hkept.hosts.own hb).mpr (Or.inl ⟨hxb, hids⟩)
  rw [lifts.level_of_mem hw hs module hb hstays, hkept.hosts.level_eq hb hxb, hkept.ref]

/-- A move takes the sum of the levels down by one. -/
theorem Lifts.sum_level (hl : l ∈ f.nest) (hfor : f.nest.loopFor? (f.ref src.id) = some l) :
    (f.instrs.map (w₂.module.level f.nest)).sum + 1 =
    (f.instrs.map (w₁.module.level f.nest)).sum := by
  have hmem : ∀ {x}, x ∈ g.instrs ↔ x ∈ f.instrs := (hs.kept hw).perm.mem_iff
  have hi : i ∈ f.instrs := hmem.mp (Func.mem_instrs.mpr ⟨src, lifts.src_mem, lifts.mem⟩)
  have hnodup : f.instrs.Nodup :=
    (List.Nodup.of_map _ hw.own).sublist (List.sublist_append_left _ _)
  obtain ⟨xs, ys, hsplit⟩ := List.append_of_mem hi
  have hother : ∀ x ∈ xs ++ ys, w₂.module.level f.nest x = w₁.module.level f.nest x := by
    intro x hx
    apply lifts.level_of_ne hw hs module
    · apply hmem.mpr
      rw [hsplit]
      simpa using (List.mem_append.mp hx).imp_right Or.inr
    · rintro rfl
      rw [hsplit, List.nodup_middle, List.nodup_cons] at hnodup
      exact hnodup.1 hx
  have hleft := List.map_congr_left fun x hx => hother x (List.mem_append_left ys hx)
  have hright := List.map_congr_left fun x hx => hother x (List.mem_append_right xs hx)
  have hmoved := lifts.level_moved hw hs module hl hfor
  simp only [hsplit, List.map_append, List.map_cons, List.sum_append, List.sum_cons, hleft, hright]
  omega

end Move

theorem Accounts.examined (hw : w.module.Hosts f) (hs : Sweeps w f c w₁ g) (hl : l ∈ f.nest)
    (hfor : f.nest.loopFor? (f.ref src.id) = some l) (h : Accounts w f ls w₁)
    (e : Examines l src i w₁ g c' w₂ g') :
    Accounts w f ls w₂ := by
  cases e with
  | stay module memo refused stats =>
    refine ⟨?_, ?_, ?_⟩
    · rw [module, stats, h.hoisted]
    · rw [stats, h.loops]
    · rw [stats, h.noPreheader]
  | @move _ dst lifts module memo stats =>
    refine ⟨?_, ?_, ?_⟩
    · have hsum := lifts.sum_level hw hs module hl hfor
      have hhoisted := h.hoisted
      simp only [stats]
      omega
    · rw [stats, ← h.loops]
    · rw [stats, ← h.noPreheader]

theorem hoistAll_accounts (hw : w.module.Hosts f) :
    ∃ c w₁ g, hoistAll o f w = .ok c w₁ ∧ Sweeps w f c w₁ g ∧ Accounts w f [] w₁ := by
  have hlinked := hw.framed.linked
  refine hoistAll_run (R := fun ls w₁ _ => Accounts w f ls w₁) o hw ?_ ?_ ⟨rfl, rfl, rfl⟩
  · intro before l ls c w₁ g _ _ hpre h
    have hloops := h.loops
    have hnone := h.noPreheader
    simp only [List.length_cons, List.countP_cons, hpre, Option.isNone_none,
      if_true] at hloops hnone
    exact ⟨h.hoisted, by simp only; omega, by simp only; omega⟩
  · intro before l ls c w₁ g pre hsplit hs hpre h
    have hl : l ∈ f.nest := by simp [hsplit]
    have hnat := hlinked.isNaturalLoop hl
    have hsome : f.preheader? l = some pre.id :=
      (Func.preheader?_eq_some_iff hlinked hnat).mpr ⟨pre, hpre, rfl⟩
    have hcounted : Sweeps w f c { w₁ with stats.loops := w₁.stats.loops + 1 } g := hs.count rfl rfl
    have hstart : Accounts w f ls { w₁ with stats.loops := w₁.stats.loops + 1 } := by
      have hloops := h.loops
      have hnone := h.noPreheader
      simp only [List.length_cons, List.countP_cons, hsome, Option.isNone_some] at hloops hnone
      exact ⟨h.hoisted, by simp only; omega, by simpa using hnone⟩
    rw [hlinked.domTree_eq]
    refine hoistBlocks_run (R := fun _ _ w₂ _ => Accounts w f ls w₂) o hw hnat hpre
      (fun b hb => mem_of_mem_scanOrder hb)
      (by intros; assumption) ?_ hcounted hstart
    intro before' bs done i is c c' w₂ w₃ g g' src horder hs' _ _ h' e
    have hfor : f.nest.loopFor? (f.ref src.id) = some l :=
      (hs.mem_scanOrder_iff hw hl _).mp (by simp [horder])
    exact h'.examined hw hs' hl hfor e

/-- The counters tell how far hoisting has taken the instructions of a function. It never fails on a
function whose blocks end with terminators and branch to blocks of the function, and changes no
loop. Each move counted takes one instruction one level up, so all of them together are what the
levels have gone down by, and none goes up. Every loop is counted, and those without a preheader are
counted as such. The innermost loop around a preheader is the parent of its loop. -/
theorem hoist_accounts_for_levels (o : Options) (w : Work) (id : FuncId) (f : Func)
    (hm : w.module.Consistent) (hf : w.module.func? id = some f) (hlinked : f.Linked)
    (hended : ∀ k ∈ f.blocks, k.term?.isSome) :
    ∃ changed w₁ g nest, applyPass o id .hoist w = .ok changed w₁ ∧ w₁.module.func? id = some g ∧
      g.instrs.Perm f.instrs ∧ w.module.loopNest f (w.module.domTree f) = .ok nest ∧
      w₁.module.loopNest g (w₁.module.domTree g) = .ok nest ∧
      (w₁.stats.hoisted : Int) = w.stats.hoisted +
        (f.instrs.map fun i => (w.module.level nest i : Int) - w₁.module.level nest i).sum ∧
      (∀ i ∈ f.instrs, w₁.module.level nest i ≤ w.module.level nest i) ∧
      w₁.stats.loops = w.stats.loops + nest.length ∧
      w₁.stats.noPreheader =
      w.stats.noPreheader + nest.countP (fun l => (w.module.preheader? l).isNone) ∧
      ∀ l ∈ nest,
        ∀ p, w.module.preheader? l = some p → (nest.loopFor? p).map Loop.header = l.parent? := by
  obtain ⟨hknown, rfl⟩ := hm.func?_iff.mp hf
  have hw : w.module.Hosts f := ⟨hm, hknown, hlinked, hended⟩
  obtain ⟨changed, w₁, g, hrun, hs, haccounts⟩ := hoistAll_accounts o hw
  have hkept := hs.kept hw
  have hpreheader : ∀ l ∈ f.nest, w.module.preheader? l = (f.preheader? l).map f.ref := fun l hl =>
    Module.preheader?_eq hm hknown hlinked (hlinked.isNaturalLoop hl)
  refine ⟨changed, w₁, g, f.nest, ?_, hkept.id ▸ hkept.hosts.func?, hkept.perm,
    hlinked.loopNest_eq _, ?_, ?_, ?_, by simpa using haccounts.loops, ?_, ?_⟩
  · simp only [applyPass, onFunc, hf]
    exact hrun
  · rw [hkept.hosts.framed.linked.loopNest_eq, Func.nest_of_flow hkept.flow]
  · have hcast : ∀ m : Module, (f.instrs.map fun i => (m.level f.nest i : Int)).sum =
        ((f.instrs.map (m.level f.nest)).sum : Nat) := by
      intro m
      rw [Nat.cast_list_sum, List.map_map]
      rfl
    have hsplit :
        (f.instrs.map fun i => (w.module.level f.nest i : Int) - w₁.module.level f.nest i).sum +
        ((f.instrs.map (w₁.module.level f.nest)).sum : Nat) =
        ((f.instrs.map (w.module.level f.nest)).sum : Nat) := by
      rw [← hcast, ← hcast, ← List.sum_map_add]
      simp
    have hhoisted := haccounts.hoisted
    omega
  · intro i hi
    obtain ⟨j, hj, hij⟩ := Func.mem_instrs.mp hi
    obtain ⟨k, hk, hik⟩ := Func.mem_instrs.mp (hkept.perm.mem_iff.mpr hi)
    rw [hw.level_eq hj hij, hkept.hosts.level_eq hk hik, hkept.ref, Func.depthAt_eq_around hlinked,
      Func.depthAt_eq_around hlinked]
    exact (hs.rises hw).le i j hj hij k hk hik
  · have hcount : f.nest.countP (fun l => (w.module.preheader? l).isNone) =
        f.nest.countP fun l => (f.preheader? l).isNone := by
      apply List.countP_congr
      intro l hl
      simp [hpreheader l hl]
    simpa [hcount] using haccounts.noPreheader
  · intro l hl p hp
    rw [hpreheader l hl] at hp
    obtain ⟨n, hn, rfl⟩ := Option.map_eq_some_iff.mp hp
    obtain ⟨k, hk, rfl⟩ := (Func.preheader?_eq_some_iff hlinked (hlinked.isNaturalLoop hl)).mp hn
    exact hk.loopFor?_eq_parent hlinked hl

/-- A loop with two loops side by side in it, each with a division. The second of them, block 4, has
no preheader: block 3 leads to it and back to itself. -/
def siblingLoops : Work :=
  let divide (serial : Nat) : Instr :=
    { op := .binary .sdiv, operands := [.int ⟨32, 6⟩, .int ⟨32, 3⟩], id := ⟨0, serial⟩ }
  let goto (serial : Nat) (targets : List BlockId) : Instr :=
    { op := .br, targets := targets.map (⟨0, ·⟩), id := ⟨0, serial⟩ }
  let choose (serial : Nat) (targets : List BlockId) : Instr :=
    { goto serial targets with op := .condBr, operands := [.int ⟨1, 1⟩] }
  let loops := Func.record { Func.declare 0 "f" .void [] with
    blocks := [
      ⟨1, "", 0, [goto 0 [2]]⟩,
      ⟨2, "", 0, [divide 1, goto 2 [3]]⟩,
      ⟨3, "", 0, [divide 3, choose 4 [3, 4]]⟩,
      ⟨4, "", 0, [divide 5, choose 6 [4, 5]]⟩,
      ⟨5, "", 0, [choose 7 [2, 6]]⟩,
      ⟨6, "", 0, [{ op := .ret, id := ⟨0, 8⟩ }]⟩]
    maxBlock := 6
    nextSerial := 9 }
  { module := { name := "", functions := [loops] } }

theorem siblingLoops_accounts_for_levels :
    ∃ f w₁ nest, siblingLoops.module.func? 0 = some f ∧ f.Linked ∧
    (∀ k ∈ f.blocks, k.term?.isSome) ∧ siblingLoops.module.Consistent ∧
    applyPass {} 0 .hoist siblingLoops = .ok true w₁ ∧
      w₁.stats = { loops := 3, noPreheader := 1, hoisted := 3 } ∧
      siblingLoops.module.loopNest f (siblingLoops.module.domTree f) = .ok nest ∧
      (f.instrs.map fun i =>
        (siblingLoops.module.level nest i : Int) - w₁.module.level nest i).sum = 3 := by
  have hm : siblingLoops.module.Consistent := by decide
  have hcount :
      Edit.outcome? (applyPass {} 0 .hoist) siblingLoops (fun changed w₁ => (changed, w₁.stats)) =
      some (true, { loops := 3, noPreheader := 1, hoisted := 3 }) := by cbv
  obtain ⟨f, hf, hlinked, hended⟩ :
      ∃ f, siblingLoops.module.func? 0 = some f ∧ f.Linked ∧ ∀ k ∈ f.blocks, k.term?.isSome :=
    ⟨_, rfl, ⟨by decide, by decide⟩, by decide⟩
  obtain ⟨changed, w₁, g, nest, hrun, _, _, hnest, _, hsum, _⟩ :=
    hoist_accounts_for_levels {} siblingLoops 0 f hm hf hlinked hended
  rw [Edit.outcome?_of_ok hrun, Option.some_inj, Prod.mk.injEq] at hcount
  obtain ⟨rfl, hstats⟩ := hcount
  have hstart : siblingLoops.stats.hoisted = 0 := rfl
  rw [hstats, hstart] at hsum
  exact ⟨f, w₁, nest, hf, hlinked, hended, hm, hrun, hstats, hnest, by simpa using hsum.symm⟩

/-- The levels of some instructions by the loops of a function. -/
def levels? (m : Module) (f : Func) (is : List Instr) : Option (List Nat) :=
  (m.loopNest f (m.domTree f)).toOption.map fun nest => is.map (m.level nest)

/-- A loop that leads through another function can have a preheader that is no less deep in loops
than the loop itself, so that a move to it leads out of none. -/
theorem twoForeignHeaders_moves_within_level : twoForeignHeadersWork.module.Consistent ∧
    twoForeignHeadersWork.module.func? 1 = some twoForeignHeaders ∧
    (∀ k ∈ twoForeignHeaders.blocks, k.term?.isSome) ∧
      ¬∃ changed w₁ g nest nest₁, applyPass {} 1 .hoist twoForeignHeadersWork = .ok changed w₁ ∧
        w₁.module.func? 1 = some g ∧
        twoForeignHeadersWork.module.loopNest twoForeignHeaders
          (twoForeignHeadersWork.module.domTree twoForeignHeaders) = .ok nest ∧
        w₁.module.loopNest g (w₁.module.domTree g) = .ok nest₁ ∧
        (w₁.stats.hoisted : Int) = twoForeignHeadersWork.stats.hoisted +
          (twoForeignHeaders.instrs.map fun i =>
            (twoForeignHeadersWork.module.level nest i : Int) - w₁.module.level nest₁ i).sum := by
  have hbefore : levels? twoForeignHeadersWork.module twoForeignHeaders twoForeignHeaders.instrs =
      some [0, 1, 0, 1, 1] := by cbv
  have hafter : Edit.outcome? (applyPass {} 1 .hoist) twoForeignHeadersWork (fun _ w₁ =>
      (w₁.stats.hoisted,
        (w₁.module.func? 1).map fun g => levels? w₁.module g twoForeignHeaders.instrs)) =
        some (1, some (some [0, 1, 0, 1, 1])) := by cbv
  refine ⟨by decide, rfl, by decide, ?_⟩
  rintro ⟨changed, w₁, g, nest, nest₁, hrun, hg, hnest, hnest₁, hsum⟩
  simp only [levels?, hnest, Except.toOption, Option.map_some, Option.some_inj] at hbefore
  simp only [Edit.outcome?_of_ok hrun, hg, levels?, hnest₁, Except.toOption, Option.map_some,
    Option.some_inj, Prod.mk.injEq] at hafter
  obtain ⟨hcount, hlevels⟩ := hafter
  -- the levels are the same before and after the move
  have hsame : ∀ i ∈ twoForeignHeaders.instrs,
      twoForeignHeadersWork.module.level nest i = w₁.module.level nest₁ i :=
    List.map_inj_left.mp (hbefore.trans hlevels.symm)
  have hzero : (twoForeignHeaders.instrs.map fun i =>
      (twoForeignHeadersWork.module.level nest i : Int) - w₁.module.level nest₁ i).sum = 0 := by
    apply List.sum_eq_zero
    intro z hz
    obtain ⟨i, hi, rfl⟩ := List.mem_map.mp hz
    rw [hsame i hi, sub_self]
  rw [hcount, hzero] at hsum
  exact absurd hsum (by decide)

end Work

end KernelIR
