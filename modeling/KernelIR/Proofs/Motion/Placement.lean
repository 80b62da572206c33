import KernelIR.Proofs.Motion.Frame

namespace KernelIR

namespace Func

variable {f : Func} {l : Loop} {k : Block}

/-- A preheader is passed on every way into the loop, unless the function starts with the loop. -/
theorem IsPreheader.dominates_body (h : f.IsPreheader l k) (hl : f.IsNaturalLoop l)
    (hne : f.entryRef? ≠ some l.header) {b : BlockRef} (hb : b ∈ l.body) :
    f.Dominates (f.ref k.id) b :=
  (h.dominates hl hne).trans ((hl.body b).mp hb).dominates

theorem IsPreheader.reaches_iff (h : f.IsPreheader l k) (hl : f.IsNaturalLoop l) :
    f.Reaches (f.ref k.id) ↔ f.entryRef? ≠ some l.header := by
  constructor
  · exact h.entry_ne hl
  · intro hne
    exact (h.dominates hl hne).reaches (hl.reaches hl.header_mem)

/-- Whether the instructions of a function are where they were, or have left a loop for its
preheader. -/
def Leaves (f : Func) (l : Loop) (g : Func) : Prop :=
  ∀ i, ∀ j ∈ f.blocks, i ∈ j.instrs → ∀ k ∈ g.blocks, i ∈ k.instrs →
    k.id = j.id ∨ f.ref j.id ∈ l.body ∧ ∃ pre, f.IsPreheader l pre ∧ k.id = pre.id

theorem Leaves.refl (hn : (f.held.map Instr.id).Nodup) (l : Loop) : f.Leaves l f := by
  intro i j hj hij k hk hik
  have hjk :=
    holder_unique hn hj hk (Block.holds_iff.mpr ⟨i, hij, rfl⟩) (Block.holds_iff.mpr ⟨i, hik, rfl⟩)
  exact Or.inl (congrArg Block.id hjk.symm)

end Func

namespace Work

variable {w w₁ w₂ : Work} {f g g' : Func} {l : Loop} {src pre : Block} {i : Instr} {c c' : Bool}
  (o : Options)

theorem Examines.leaves (hw : w.module.Hosts f) (hl : f.IsNaturalLoop l)
    (hpre : f.IsPreheader l pre) (hs : Sweeps w f c w₁ g) (h : Examines l src i w₁ g c' w₂ g')
    (hleaves : f.Leaves l g) : f.Leaves l g' := by
  cases h with
  | stay => exact hleaves
  | @move _ dst lifts =>
    have hkept := hs.kept hw
    have hbody : f.ref src.id ∈ l.body := hkept.ref src.id ▸ lifts.body
    intro x j hj hxj k hk hxk
    rw [Func.blocks_moved] at hk
    obtain ⟨b, hb, rfl⟩ := List.mem_map.mp hk
    rw [Block.id_moved]
    rcases (lifts.relocates.mem_moved hkept.hosts.framed hkept.hosts.own hb).mp hxk with ⟨hxb, _⟩ |
      ⟨rfl, rfl⟩
    · exact hleaves x j hj hxj b hb hxb
    · refine Or.inr ⟨?_, pre, hpre, hkept.id_preheader hl hpre lifts.pre⟩
      rcases hleaves x j hj hxj src lifts.src_mem lifts.mem with hid | ⟨hin, _⟩
      · exact hid ▸ hbody
      · exact hin

/-- Hoisting from one loop never fails on a function whose blocks are in order. What it moves goes
from the loop to the preheader. -/
theorem hoistLoop_leaves (hw : w.module.Hosts f) (hl : l ∈ f.nest)
    (children : BlockRef → List BlockRef)
    (nest : LoopNest) :
    ∃ c w₁ g, hoistLoop o children nest l w = .ok c w₁ ∧ Sweeps w f c w₁ g ∧ f.Leaves l g := by
  have hlinked := hw.framed.linked
  have hnat := hlinked.isNaturalLoop hl
  have hmodule := Module.preheader?_eq hw.consistent hw.mem hlinked hnat
  cases hpre : f.preheader? l with
  | none =>
    have hskip : hoistLoop o children nest l w = .ok false { w with
        stats.loops := w.stats.loops + 1, stats.noPreheader := w.stats.noPreheader + 1 } := by
      simp [hoistLoop, hmodule, hpre]
    exact ⟨false, _, f, hskip, Sweeps.refl.count rfl rfl, .refl hw.own l⟩
  | some n =>
    obtain ⟨pre, hk, rfl⟩ := (Func.preheader?_eq_some_iff hlinked hnat).mp hpre
    have hcounted : Sweeps w f false { w with stats.loops := w.stats.loops + 1 } f :=
      Sweeps.refl.count rfl rfl
    obtain ⟨c, w₁, g, hrun, hs, hleaves⟩ :=
      hoistBlocks_ok (R := fun _ _ g => f.Leaves l g) o hw hnat hk
        (fun b hb => mem_of_mem_scanOrder hb) (fun _ _ _ _ _ _ _ _ _ hR => hR)
        (fun _ _ _ _ _ _ _ _ _ _ _ _ _ hs _ _ hR he => he.leaves hw hnat hk hs hR)
        hcounted (.refl hw.own l)
    refine ⟨c, w₁, g, ?_, hs, hleaves⟩
    simp only [hoistLoop, hmodule, hpre, Option.map_some]
    exact hrun

/-- Where a preheader stands, and where what is hoisted goes. Unless the function starts with the
loop, the preheader can be reached and dominates the loop, and instructions only go to blocks that
dominate the ones they came from. If the function starts with the loop, the preheader is a block
that is never reached; an instruction that is moved is lost there. -/
theorem preheader_dominates (o : Options) (w : Work) (f : Func)
    (children : BlockRef → List BlockRef)
    (nest : LoopNest) (l : Loop) (hm : w.module.Consistent) (hf : w.module.func? f.id = some f)
    (hlinked : f.Linked)
    (hnest : w.module.loopNest f (w.module.domTree f) = .ok nest) (hl : l ∈ nest) :
    (∀ p, w.module.preheader? l = some p →
      (f.entryRef? ≠ some l.header → f.Reaches p ∧ ∀ b ∈ l.body, f.Dominates p b) ∧
      (f.entryRef? = some l.header → ¬f.Reaches p)) ∧
    ((∀ k ∈ f.blocks, k.term?.isSome) →
      ∃ moved w₁ g, hoistLoop o children nest l w = .ok moved w₁ ∧ w₁.module.func? f.id = some g ∧
        (f.entryRef? ≠ some l.header →
          ∀ i, ∀ j ∈ f.blocks, i ∈ j.instrs → ∀ k ∈ g.blocks, i ∈ k.instrs →
          f.Dominates (f.ref k.id) (f.ref j.id)) ∧
        (f.entryRef? = some l.header → moved = true →
          ∃ i, ∃ j ∈ f.blocks, i ∈ j.instrs ∧ f.Reaches (f.ref j.id) ∧
          ∃ k ∈ g.blocks, i ∈ k.instrs ∧ ¬f.Reaches (f.ref k.id))) := by
  rw [hlinked.loopNest_eq, Except.ok.injEq] at hnest
  subst hnest
  have hnat := hlinked.isNaturalLoop hl
  refine ⟨fun p hp => ?_, fun hended => ?_⟩
  · rw [Module.preheader?_eq hm (hm.func?_iff.mp hf).1 hlinked hnat] at hp
    obtain ⟨n, hn, rfl⟩ := Option.map_eq_some_iff.mp hp
    obtain ⟨k, hk, rfl⟩ := (Func.preheader?_eq_some_iff hlinked hnat).mp hn
    rw [hk.reaches_iff hnat, not_not]
    exact ⟨fun hne => ⟨hne, fun b hb => hk.dominates_body hnat hne hb⟩, fun hentry => hentry⟩
  · have hw : w.module.Hosts f := ⟨hm, (hm.func?_iff.mp hf).1, hlinked, hended⟩
    obtain ⟨moved, w₁, g, hrun, hs, hleaves⟩ := hoistLoop_leaves o hw hl children f.nest
    have hkept := hs.kept hw
    refine ⟨moved, w₁, g, hrun, hkept.id ▸ hkept.hosts.func?, fun hne i j hj hij k hk hik => ?_,
      fun hentry hmoved => ?_⟩
    · rcases hleaves i j hj hij k hk hik with hid | ⟨hin, pre, hpre, hid⟩
      · rw [hid]
        exact .refl _
      · rw [hid]
        exact hpre.dominates_body hnat hne hin
    · obtain ⟨i, j, hj, hij, k, hk, hik, hlt⟩ := (hs.rises hw).lt hmoved
      refine ⟨i, j, hj, hij, ?_⟩
      rcases hleaves i j hj hij k hk hik with hid | ⟨hin, pre, hpre, hid⟩
      · rw [hid] at hlt
        exact absurd hlt (Nat.lt_irrefl _)
      · refine ⟨hnat.reaches hin, k, hk, hik, ?_⟩
        rw [hid, hpre.reaches_iff hnat, not_not]
        exact hentry

/-- The function starts with its loop. The only other branch to it is in a block that cannot be
reached. -/
def loopAtEntry : Func :=
  let x := Value.param ⟨"x", .int 32, 1⟩
  Func.record { Func.declare 0 "f" (.int 32) [("flag", .int 1), ("x", .int 32)] with
    blocks := [
      ⟨1, "", 0, [
        { op := .binary .sdiv, operands := [x, x], id := ⟨0, 0⟩ },
        { op := .condBr, operands := [.param ⟨"flag", .int 1, 0⟩], targets := [⟨0, 1⟩, ⟨0, 2⟩],
          id := ⟨0, 1⟩ }]⟩,
      ⟨2, "", 0, [{ op := .ret, operands := [.instr ⟨0, 0⟩], id := ⟨0, 2⟩ }]⟩,
      ⟨3, "", 0, [{ op := .br, targets := [⟨0, 1⟩], id := ⟨0, 3⟩ }]⟩]
    maxBlock := 3
    nextSerial := 4 }

def loopAtEntryWork : Work := { module := { name := "", functions := [loopAtEntry] } }

/-- The same blocks, with the one before the loop as the entry. -/
def entryBeforeLoop : Func := { loopAtEntry with blocks := loopAtEntry.blocks.reverse }

def entryBeforeLoopWork : Work := { module := { name := "", functions := [entryBeforeLoop] } }

theorem entryBeforeLoop_preheader_dominates : ∃ l w₁ g, entryBeforeLoopWork.module.Consistent ∧
    entryBeforeLoopWork.module.func? 0 = some entryBeforeLoop ∧
    entryBeforeLoop.Linked ∧ (∀ k ∈ entryBeforeLoop.blocks, k.term?.isSome) ∧
      entryBeforeLoopWork.module.loopNest entryBeforeLoop
        (entryBeforeLoopWork.module.domTree entryBeforeLoop) = .ok [l] ∧
      entryBeforeLoop.entryRef? ≠ some l.header ∧
      entryBeforeLoopWork.module.preheader? l = some ⟨0, 3⟩ ∧ entryBeforeLoop.Reaches ⟨0, 3⟩ ∧
      (∀ b ∈ l.body, entryBeforeLoop.Dominates ⟨0, 3⟩ b) ∧
      hoistLoop {} (entryBeforeLoopWork.module.domTree entryBeforeLoop).children [l] l
      entryBeforeLoopWork = .ok true w₁ ∧
        w₁.module.func? 0 = some g ∧
        ∀ i, ∀ j ∈ entryBeforeLoop.blocks, i ∈ j.instrs → ∀ k ∈ g.blocks, i ∈ k.instrs →
          entryBeforeLoop.Dominates (entryBeforeLoop.ref k.id) (entryBeforeLoop.ref j.id) := by
  let l : Loop := ⟨⟨0, 1⟩, [⟨0, 1⟩], none, 1⟩
  have hm : entryBeforeLoopWork.module.Consistent := by decide
  have hlinked : entryBeforeLoop.Linked := ⟨by decide, by decide⟩
  have hended : ∀ k ∈ entryBeforeLoop.blocks, k.term?.isSome := by decide
  have hnest : entryBeforeLoopWork.module.loopNest entryBeforeLoop
      (entryBeforeLoopWork.module.domTree entryBeforeLoop) = .ok [l] := by cbv
  have hpre : entryBeforeLoopWork.module.preheader? l = some ⟨0, 3⟩ := by cbv
  have hmoved : Edit.outcome?
      (hoistLoop {} (entryBeforeLoopWork.module.domTree entryBeforeLoop).children [l] l)
      entryBeforeLoopWork (fun moved _ => moved) = some true := by cbv
  obtain ⟨hplace, hloop⟩ := preheader_dominates {} entryBeforeLoopWork entryBeforeLoop
    (entryBeforeLoopWork.module.domTree entryBeforeLoop).children [l] l hm rfl
    hlinked hnest List.mem_cons_self
  obtain ⟨moved, w₁, g, hrun, hg, hdom, _⟩ := hloop hended
  rw [Edit.outcome?_of_ok hrun, Option.some_inj] at hmoved
  subst hmoved
  have hne : entryBeforeLoop.entryRef? ≠ some l.header := by decide
  obtain ⟨hreach, hbody⟩ := (hplace _ hpre).1 hne
  exact ⟨l, w₁, g, hm, rfl, hlinked, hended, hnest, hne, hpre, hreach, hbody, hrun, hg, hdom hne⟩

/-- The block that cannot be reached counts as the preheader, and the division is moved there. -/
theorem loopAtEntry_loses_instr : ∃ l w₁ g, loopAtEntryWork.module.Consistent ∧
    loopAtEntryWork.module.func? 0 = some loopAtEntry ∧
    loopAtEntry.Linked ∧ (∀ k ∈ loopAtEntry.blocks, k.term?.isSome) ∧
      loopAtEntryWork.module.loopNest loopAtEntry
        (loopAtEntryWork.module.domTree loopAtEntry) = .ok [l] ∧
      loopAtEntryWork.module.preheader? l = some ⟨0, 3⟩ ∧ ¬loopAtEntry.Reaches ⟨0, 3⟩ ∧
      ¬loopAtEntry.Dominates ⟨0, 3⟩ ⟨0, 1⟩ ∧
      hoistLoop {} (loopAtEntryWork.module.domTree loopAtEntry).children [l] l loopAtEntryWork =
        .ok true w₁ ∧ w₁.module.func? 0 = some g ∧
          (g.blocks.map fun k => k.instrs.map Instr.id) =
          [[⟨0, 1⟩], [⟨0, 2⟩], [⟨0, 0⟩, ⟨0, 3⟩]] := by
  have hlinked : loopAtEntry.Linked := ⟨by decide, by decide⟩
  have hout : ¬loopAtEntry.Reaches ⟨0, 3⟩ := by
    have hcontains : loopAtEntry.flow.domTree.contains ⟨0, 3⟩ = false := by cbv
    rw [← hlinked.contains_iff (by decide), hcontains]
    exact Bool.false_ne_true
  have hentry : loopAtEntry.Reaches ⟨0, 1⟩ := .entry rfl
  let l : Loop := ⟨⟨0, 1⟩, [⟨0, 1⟩], none, 1⟩
  have hrun : Edit.outcome? (hoistLoop {}
      (loopAtEntryWork.module.domTree loopAtEntry).children [l] l) loopAtEntryWork (fun moved w₁ =>
      (moved, (w₁.module.func? 0).map fun g => g.blocks.map fun k => k.instrs.map Instr.id)) =
        some (true, some [[⟨0, 1⟩], [⟨0, 2⟩], [⟨0, 0⟩, ⟨0, 3⟩]]) := by cbv
  obtain ⟨moved, w₁, hrun, hread⟩ := Edit.outcome?_eq_some_iff.mp hrun
  rw [Prod.mk.injEq] at hread
  obtain ⟨rfl, hread⟩ := hread
  obtain ⟨g, hg, hblocks⟩ := Option.map_eq_some_iff.mp hread
  refine ⟨l, w₁, g, by decide, rfl, hlinked, by decide, by cbv, by cbv,
    hout, fun hdom => hout (hdom.reaches hentry), hrun, hg, hblocks⟩

end Work

end KernelIR
