import KernelIR.Proofs.Motion.Preservation

namespace KernelIR

namespace Func

/-- How many loops a block lies in. -/
def around (f : Func) (b : BlockRef) : Nat := f.nest.countP fun l => l.contains b

/-- Whether the instructions of a function have only gone to blocks in fewer loops. Answers whether
one has. -/
structure Rises (f : Func) (c : Bool) (g : Func) : Prop where
  le : ∀ i, ∀ j ∈ f.blocks, i ∈ j.instrs → ∀ k ∈ g.blocks, i ∈ k.instrs →
    f.around (f.ref k.id) ≤ f.around (f.ref j.id)
  lt : c = true → ∃ i, ∃ j ∈ f.blocks, i ∈ j.instrs ∧ ∃ k ∈ g.blocks, i ∈ k.instrs ∧
    f.around (f.ref k.id) < f.around (f.ref j.id)
  eq : c = false → g = f

/-- The blocks of a loop lie in more loops than its preheader. -/
theorem IsPreheader.around_lt {f : Func} {l : Loop} {k : Block} (hk : f.IsPreheader l k)
    (hf : f.Linked) (hl : f.IsNaturalLoop l) {b : BlockRef} (hb : b ∈ l.body) :
    f.around (f.ref k.id) < f.around b := by
  obtain ⟨j, hj, hheader⟩ := List.mem_map.mp (hf.mem_headers.mpr hl.back)
  have hsame : ∀ x, x ∈ j.body ↔ x ∈ l.body := by
    intro x
    rw [(hf.isNaturalLoop hj).body, hl.body, hheader]
  apply countP_lt_countP _ hj
  · simpa [Loop.contains, hsame] using hk.outside
  · simpa [Loop.contains, hsame] using hb
  · intro j hj hin
    simp only [Loop.contains, List.contains_eq_mem, decide_eq_true_eq] at hin ⊢
    have hnat := hf.isNaturalLoop hj
    exact body_subset hl hnat (hk.header_mem hf hl hnat hin) hb

theorem Rises.refl {f : Func} (hn : (f.held.map Instr.id).Nodup) : f.Rises false f where
  le i j hj hij k hk hik := by
    have hjk :=
      holder_unique hn hj hk (Block.holds_iff.mpr ⟨i, hij, rfl⟩) (Block.holds_iff.mpr ⟨i, hik, rfl⟩)
    rw [hjk]
  lt := nofun
  eq _ := rfl

/-- What rose is not back where it was. -/
theorem Rises.eq_false {f g : Func} {c : Bool} (h : f.Rises c g) (hn : (f.held.map Instr.id).Nodup)
    (hg : g.blocks = f.blocks) : c = false := by
  rw [Bool.eq_false_iff]
  intro hc
  obtain ⟨i, j, hj, hij, k, hk, hik, hlt⟩ := h.lt hc
  rw [hg] at hk
  have hle := (Rises.refl hn).le i k hk hik j hj hij
  omega

end Func

namespace Work

/-- A move to a preheader leads into fewer loops. -/
theorem Sweeps.rises {w w₁ : Work} {f g : Func} {c : Bool} (h : Sweeps w f c w₁ g)
    (hw : w.module.Hosts f) :
    f.Rises c g := by
  induction h with
  | refl => exact Func.Rises.refl hw.own
  | count _ _ _ ih => exact ih
  | @step c c' w₁ w₂ g g' l src i hs examines ih =>
    cases examines with
    | stay => rwa [Bool.or_false]
    | @move w₂ dst lifts module memo =>
      have hkept := hs.kept hw
      have hrel := lifts.relocates
      have hlt : f.around (f.ref dst.id) < f.around (f.ref src.id) := by
        have hlt := lifts.pre.around_lt hkept.hosts.framed.linked lifts.loop lifts.body
        simpa only [Func.around, Func.nest_of_flow hkept.flow, hkept.ref] using hlt
      have hle : ∀ j ∈ f.blocks, i ∈ j.instrs → f.around (f.ref src.id) ≤ f.around (f.ref j.id) :=
        fun j hj hij => ih.le i j hj hij src lifts.src_mem lifts.mem
      refine ⟨fun x j hj hxj k hk hxk => ?_, fun _ => ?_, by simp⟩
      · rw [Func.blocks_moved] at hk
        obtain ⟨b, hb, rfl⟩ := List.mem_map.mp hk
        rw [Block.id_moved]
        rcases (hrel.mem_moved hkept.hosts.framed hkept.hosts.own hb).mp hxk with ⟨hxb, _⟩ |
          ⟨rfl, rfl⟩
        · exact ih.le x j hj hxj b hb hxb
        · exact (hlt.trans_le (hle j hj hxj)).le
      · have hi : i ∈ f.instrs :=
          hkept.perm.mem_iff.mp (Func.mem_instrs.mpr ⟨src, lifts.src_mem, lifts.mem⟩)
        obtain ⟨j, hj, hij⟩ := Func.mem_instrs.mp hi
        refine ⟨i, j, hj, hij, dst.moved i dst.id,
          Func.mem_blocks_moved i dst.id hrel.dst_mem, ?_, ?_⟩
        · exact (hrel.mem_moved hkept.hosts.framed hkept.hosts.own hrel.dst_mem).mpr
            (Or.inr ⟨rfl, rfl⟩)
        · rw [Block.id_moved]
          exact hlt.trans_le (hle j hj hij)

/-- Blocks of one function with the same numbers and names are told apart by their instructions
only. -/
theorem Kept.blocks_eq {w w₁ : Work} {f g : Func} (h : Kept w f w₁ g) (hw : w.module.Hosts f)
    (hinstrs : g.blocks.map Block.instrs = f.blocks.map Block.instrs) : g.blocks = f.blocks := by
  have hzip : ∀ x : Func, x.Recorded → x.id = f.id → x.blocks =
      ((x.blocks.map fun k => (k.id, k.name)).zip (x.blocks.map Block.instrs)).map
        fun e => ⟨e.1.1, e.1.2, f.id, e.2⟩ := by
    intro x hx hid
    rw [List.zip_map', List.map_map]
    have hself : ∀ k ∈ x.blocks, (⟨k.id, k.name, f.id, k.instrs⟩ : Block) = k := fun k hk => by
      rw [← hid, ← hx.blocks k hk]
    exact (List.map_id' _).symm.trans (List.map_congr_left fun k hk => (hself k hk).symm)
  rw [hzip g h.hosts.recorded h.id, hzip f hw.recorded rfl, h.names, hinstrs]

/-- Hoisting only changes the places of instructions that may be moved, whatever answers on purity
it finds. It never fails on a function whose blocks end with terminators and branch to blocks of the
function. Blocks, the instructions as a whole and the order of those that may not be moved stay, and
so do dominators and loops. It stays recorded where instructions stand. The answer tells whether one
stands in another place than before. -/
theorem hoist_only_relocates (o : Options) (w : Work) (id : FuncId) (f : Func)
    (hm : w.module.Consistent) (hf : w.module.func? id = some f) (hlinked : f.Linked)
    (hended : ∀ k ∈ f.blocks, k.term?.isSome) :
    ∃ changed w₁ g, applyPass o id .hoist w = .ok changed w₁ ∧ w₁.module.func? id = some g ∧
      w₁.module = w.module.update g ∧
      g = { f with blocks := g.blocks, parents := g.parents } ∧ g.Recorded ∧
      (g.blocks.map fun k => (k.id, k.name)) = (f.blocks.map fun k => (k.id, k.name)) ∧
      g.instrs.Perm f.instrs ∧
      (∀ i, (canHoist w₁.module i w₁.memo).1 = (canHoist w.module i w.memo).1) ∧
      (g.blocks.map fun k => k.instrs.filter fun i => !(canHoist w.module i w.memo).1) =
        (f.blocks.map fun k => k.instrs.filter fun i => !(canHoist w.module i w.memo).1) ∧
      w₁.module.domTree g = w.module.domTree f ∧
      w₁.module.loopNest g (w₁.module.domTree g) = w.module.loopNest f (w.module.domTree f) ∧
      (changed = false ↔ g.blocks.map Block.instrs = f.blocks.map Block.instrs) := by
  obtain ⟨hknown, rfl⟩ := hm.func?_iff.mp hf
  have hw : w.module.Hosts f := ⟨hm, hknown, hlinked, hended⟩
  obtain ⟨changed, w₁, g, hrun, hsweeps⟩ := hoistAll_sweeps o hw
  have hkept := hsweeps.kept hw
  have hrises := hsweeps.rises hw
  have hglinked := hkept.hosts.framed.linked
  refine ⟨changed, w₁, g, ?_, hkept.id ▸ hkept.hosts.func?, hkept.module, hkept.frame,
    hkept.hosts.recorded, hkept.names, hkept.perm, hkept.canHoist_eq, hkept.refused, ?_, ?_,
    fun hc => ?_, fun hinstrs => ?_⟩
  · simp only [applyPass, onFunc, hf]
    exact hrun
  · rw [hglinked.domTree_eq, hlinked.domTree_eq, hkept.flow]
  · rw [hglinked.loopNest_eq, hlinked.loopNest_eq, Func.nest_of_flow hkept.flow]
  · rw [hrises.eq hc]
  · exact hrises.eq_false hw.own (hkept.blocks_eq hw hinstrs)

/-- The loops of `nested`, with an answer kept that the function called in them is not pure. -/
def nestedImpureCallee : Work := { nested with memo := [(1, false)] }

theorem nestedImpureCallee_only_relocates :
    ∃ f w₁ g, nestedImpureCallee.module.func? 0 = some f ∧ f.Linked ∧
    (∀ k ∈ f.blocks, k.term?.isSome) ∧ nestedImpureCallee.module.Consistent ∧
      applyPass {} 0 .hoist nestedImpureCallee = .ok true w₁ ∧ w₁.stats.hoisted = 2 ∧
        w₁.module.func? 0 = some g ∧ g.instrs.Perm f.instrs ∧
        g.blocks.map Block.instrs ≠ f.blocks.map Block.instrs := by
  have hm : nestedImpureCallee.module.Consistent := by decide
  have hcheck : (nestedImpureCallee.module.func? 0).all
      (fun f => f.isValid nestedImpureCallee.module.isTerm) = true := by cbv
  have hcount : Edit.outcome? (applyPass {} 0 .hoist) nestedImpureCallee
      (fun changed w₁ => (changed, w₁.stats.hoisted)) = some (true, 2) := by cbv
  obtain ⟨f, hf⟩ : ∃ f, nestedImpureCallee.module.func? 0 = some f := ⟨_, rfl⟩
  rw [hf] at hcheck
  have hframed : f.Framed := (Func.valid_of_isValid hcheck).framed
  obtain ⟨changed, w₁, g, hrun, hg, _, _, _, _, hperm, _, _, _, _, hsame⟩ :=
    hoist_only_relocates {} nestedImpureCallee 0 f hm hf hframed.linked hframed.ended
  rw [Edit.outcome?_of_ok hrun, Option.some_inj, Prod.mk.injEq] at hcount
  obtain ⟨rfl, hhoisted⟩ := hcount
  exact ⟨f, w₁, g, hf, hframed.linked, hframed.ended, hm, hrun, hhoisted, hg, hperm,
    fun h => absurd (hsame.mpr h) (by decide)⟩

/-- Block 3 divides and leads back to block 2 of another function, which leads here. -/
def foreignHeader : Func :=
  let goto (serial : Nat) (target : BlockRef) : Instr :=
    { op := .br, targets := [target], id := ⟨1, serial⟩ }
  Func.record { Func.declare 1 "f" .void [] with
    blocks := [
      ⟨1, "", 1, [goto 0 ⟨0, 2⟩]⟩,
      ⟨2, "", 1, [goto 1 ⟨1, 3⟩]⟩,
      ⟨3, "", 1, [
        { op := .binary .sdiv, operands := [.int ⟨32, 6⟩, .int ⟨32, 3⟩], id := ⟨1, 2⟩ },
        goto 3 ⟨0, 2⟩]⟩]
    maxBlock := 3
    nextSerial := 4 }

def foreignHeaderWork : Work :=
  let goto (serial : Nat) (target : BlockRef) : Instr :=
    { op := .br, targets := [target], id := ⟨0, serial⟩ }
  let other := Func.record { Func.declare 0 "other" .void [] with
    blocks := [⟨1, "", 0, [goto 0 ⟨0, 2⟩]⟩, ⟨2, "", 0, [goto 1 ⟨1, 3⟩]⟩]
    maxBlock := 2
    nextSerial := 2 }
  { module := { name := "", functions := [other, foreignHeader] } }

/-- A preheader is looked for in the function of the header, so an instruction can go to another
function. -/
theorem foreignHeader_loses_instr :
    foreignHeaderWork.module.Consistent ∧ foreignHeaderWork.module.func? 1 = some foreignHeader ∧
    (∀ k ∈ foreignHeader.blocks, k.term?.isSome) ∧
      ¬∃ changed w₁ g, applyPass {} 1 .hoist foreignHeaderWork = .ok changed w₁ ∧
        w₁.module.func? 1 = some g ∧ g.instrs.Perm foreignHeader.instrs := by
  have hcount : Edit.outcome? (applyPass {} 1 .hoist) foreignHeaderWork (fun _ w₁ =>
      (w₁.module.func? 1).map fun g => g.instrs.length) = some (some 3) := by cbv
  refine ⟨by decide, rfl, by decide, fun h => ?_⟩
  obtain ⟨changed, w₁, g, hrun, hg, hperm⟩ := h
  simp only [Edit.outcome?_of_ok hrun, hg, Option.map_some, Option.some_inj] at hcount
  exact absurd (hcount.symm.trans hperm.length_eq) (by decide)

end Work

end KernelIR
