import KernelIR.Proofs.Motion.Completeness

namespace KernelIR

namespace Func

/-- Whether no operand of an instruction is computed in a loop of the function. -/
def isInvariant (f : Func) (l : Loop) (i : Instr) : Bool :=
  decide (∀ d ∈ i.reads, ∀ k ∈ f.blocks, k.holds d = true → f.ref k.id ∉ l.body)

/-- The blocks of a loop in the order in which they are gone over. -/
def scanOrder (f : Func) (l : Loop) : List BlockRef :=
  Work.scanOrder { name := "", functions := [f] } f.flow.domTree.children f.nest l

variable (can : Instr → Bool)

/-- What looking at an instruction of a loop makes of a function. -/
def lift (l : Loop) (pre : BlockId) (f : Func) (i : Instr) : Func :=
  if f.isInvariant l i && can i then f.moved i pre else f

/-- What going over a block of a loop makes of a function. -/
def liftAll (l : Loop) (pre : BlockId) (f : Func) (b : BlockRef) : Func :=
  match f.block? b.number with
  | some k => k.instrs.foldl (lift can l pre) f
  | none => f

/-- What going over a loop of `f` makes of a function. -/
def drain (f g : Func) (l : Loop) : Func :=
  match f.preheader? l with
  | some pre => (f.scanOrder l).foldl (liftAll can l pre) g
  | none => g

/-- What hoisting makes of a function. -/
def hoisted (f : Func) : Func := f.nest.foldl (f.drain can) f

end Func

namespace Work

variable {w : Work} {f : Func} {can : Instr → Bool} (o : Options)

theorem Examines.lift_eq {w₁ w₂ : Work} {g g' : Func} {l : Loop} {src pre : Block} {i : Instr}
    {c c' : Bool} (hcan : ∀ i, (canHoist w.module i w.memo).1 = can i) (hw : w.module.Hosts f)
    (hs : Sweeps w f c w₁ g)
    (hl : f.IsNaturalLoop l) (hpre : f.IsPreheader l pre) (h : Examines l src i w₁ g c' w₂ g') :
    g.lift can l pre.id i = g' := by
  have hkept := hs.kept hw
  have hinv : w₁.module.invariant l i = g.isInvariant l i := by
    rw [Bool.eq_iff_iff, hkept.hosts.invariant_iff (hkept.isNaturalLoop hl), Func.isInvariant,
      decide_eq_true_eq]
  rw [Func.lift, ← hinv, ← hcan, ← hkept.canHoist_eq]
  cases h with
  | stay _ _ refused =>
    refine if_neg fun hboth => ?_
    rw [Bool.and_eq_true] at hboth
    rw [refused hboth.1] at hboth
    exact absurd hboth.2 Bool.false_ne_true
  | @move _ dst lifts =>
    rw [lifts.invariant, lifts.can, ← hkept.id_preheader hl hpre lifts.pre]
    rfl

/-- Hoisting never fails on a function whose blocks are in order, and makes of it what the function
alone tells. -/
theorem hoistAll_result (hcan : ∀ i, (canHoist w.module i w.memo).1 = can i)
    (hw : w.module.Hosts f) :
    ∃ c w₁, hoistAll o f w = .ok c w₁ ∧ Sweeps w f c w₁ (f.hoisted can) := by
  have hlinked := hw.framed.linked
  have hall :=
    hoistAll_ok (R := fun ls g => ls.foldl (f.drain can) g = f.hoisted can) o hw ?_ ?_ rfl
  · obtain ⟨c, w₁, g, hrun, hs, rfl⟩ := hall
    exact ⟨c, w₁, hrun, hs⟩
  · intro before l ls c w₁ g _ _ hnone hR
    rwa [List.foldl_cons, Func.drain, hnone] at hR
  · intro before l ls c w₁ g pre hsplit hs hpre hR
    have hl : l ∈ f.nest := by simp [hsplit]
    have hnat := hlinked.isNaturalLoop hl
    have hkept := hs.kept hw
    have hsome := (Func.preheader?_eq_some_iff hlinked hnat).mpr ⟨pre, hpre, rfl⟩
    have horder : scanOrder w₁.module (w.module.domTree f).children f.nest l = f.scanOrder l := by
      rw [hlinked.domTree_eq]
      have hlength : g.blocks.length = f.blocks.length := by
        simpa using congrArg List.length hkept.names
      refine scanOrder_eq hlinked hl (hlength ▸ Module.length_le_blockCount hkept.hosts.mem) ?_
      exact Module.length_le_blockCount (List.mem_append_left _ List.mem_cons_self)
    rw [horder]
    -- what the rest of the block, the blocks after it and the loops after this one make of the
    -- function
    refine hoistBlocks_ok
      (R := fun is bs g => ls.foldl (f.drain can) (bs.foldl (Func.liftAll can l pre.id)
      (is.foldl (Func.lift can l pre.id) g)) = f.hoisted can) o hw hnat hpre ?_ ?_ ?_ hs ?_
    · exact fun b hb => mem_of_mem_scanOrder hb
    · intro before bs c w₁ g src _ hs hsrc hR
      have hkept := hs.kept hw
      have hblock : g.block? src.id = some src :=
        (Func.block?_iff hkept.hosts.framed.linked).mpr ⟨hsrc, rfl⟩
      have hnumber : (f.ref src.id).number = src.id := rfl
      rwa [List.foldl_nil, List.foldl_cons, Func.liftAll, hnumber, hblock] at hR
    · intro before bs done i is c c' w₁ w₂ g g' src _ hs _ _ hR he
      rwa [List.foldl_cons, he.lift_eq hcan hw hs hnat hpre] at hR
    · rwa [List.foldl_cons, Func.drain, hsome] at hR

end Work

end KernelIR
