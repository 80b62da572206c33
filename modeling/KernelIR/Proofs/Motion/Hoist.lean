import KernelIR.Proofs.Motion.Move
import KernelIR.Proofs.Motion.Sweep

namespace KernelIR

/-- An instruction of the loop that only reads from outside can as well stand in the preheader. -/
theorem Func.movable_of_invariant {f : Func} {l : Loop} {i : Instr} {src dst : Block}
    {isTerm : InstrId → Bool} (hf : f.Valid isTerm) (hl : f.IsNaturalLoop l)
    (hpre : f.IsPreheader l dst) (hsrc : src ∈ f.blocks)
    (hbody : f.ref src.id ∈ l.body) (hi : i ∈ src.instrs) (hphi : i.op ≠ .phi)
    (hterm : i.op.isTerminator = false)
    (hinv : ∀ d ∈ i.reads, ∀ k ∈ f.blocks, k.holds d = true → f.ref k.id ∉ l.body) :
    f.Movable i src dst := by
  have hheader : f.Dominates (f.ref dst.id) l.header := hpre.dominates hl (hf.entry_ne hpre.edge)
  have habove : f.Dominates (f.ref dst.id) (f.ref src.id) :=
    hheader.trans ((hl.body _).mp hbody).dominates
  have hreach := hl.reaches hbody
  refine ⟨hsrc, hpre.mem, hi, hphi, hterm, hreach, ⟨fun he => hpre.outside (he ▸ hbody), habove⟩,
    fun d hd => ?_⟩
  constructor
  · intro he
    exact hinv d hd src hsrc (Block.holds_iff.mpr ⟨i, hi, he.symm⟩) hbody
  · rcases hf.uses src hsrc hreach i hi hphi d hd with hprec | ⟨k, hk, hold, hne, hdom⟩
    · exact absurd hbody (hinv d hd src hsrc hprec.holds)
    · -- the operand stands above the loop block and outside the loop, so above the header
      have hout := hinv d hd k hk hold
      have hkh : f.ref k.id ≠ l.header := fun he => hout (he ▸ hl.header_mem)
      exact ⟨k, hk, hold, (hl.dominates_header hbody hdom hout).pred hkh hpre.edge⟩

namespace Module

variable {m : Module} {f : Func} {i : Instr} {src dst : Block}

theorem Ready.moved (h : m.Ready f) (hi : f.Movable i src dst) :
    (m.update (f.moved i dst.id)).Ready (f.moved i dst.id) := by
  have hlinked := h.valid.linked
  have hgrows := hi.relocates.grows h.own hlinked (h.consistent.blocks f h.mem)
  refine ⟨h.consistent.update h.mem hgrows, ?_, ?_⟩
  · exact (mem_known_update h.mem (Func.id_moved f i dst.id)).mpr (Or.inl rfl)
  · rw [isTerm_moved h.consistent h.mem hlinked hi.relocates]
    exact hi.valid h.valid h.own h.isTerm

end Module

namespace Work

/-- What hoisting can do to a function of the module: look at an instruction, or move one. -/
inductive Hoists : Work → Func → Work → Func → Prop where
  | refl (w : Work) (f : Func) : Hoists w f w f
  | look {w w₁ w₂ : Work} {f g : Func} (h : Hoists w f w₁ g) (module : w₂.module = w₁.module)
      (memo : w₂.memo = w₁.memo ∨ ∃ i, w₂.memo = (canHoist w₁.module i w₁.memo).2) : Hoists w f w₂ g
  | move {w w₁ w₂ : Work} {f g : Func} {i : Instr} {src dst : Block} (h : Hoists w f w₁ g)
      (movable : g.Movable i src dst) (can : (canHoist w₁.module i w₁.memo).1 = true)
      (module : w₂.module = w₁.module.update (g.moved i dst.id))
      (memo : w₂.memo = (canHoist w₁.module i w₁.memo).2) : Hoists w f w₂ (g.moved i dst.id)

namespace Hoists

variable {w w₁ : Work} {f g : Func}

theorem ready (h : Hoists w f w₁ g) (hw : w.module.Ready f) : w₁.module.Ready g := by
  induction h with
  | refl => exact hw
  | look _ module _ ih =>
    rw [module]
    exact ih hw
  | move _ movable _ module _ ih =>
    rw [module]
    exact (ih hw).moved movable

theorem id (h : Hoists w f w₁ g) : g.id = f.id := by
  induction h with
  | refl => rfl
  | look _ _ _ ih => exact ih
  | move _ _ _ _ _ ih => exact ih

end Hoists

theorem Lifts.movable {w : Work} {g : Func} {l : Loop} {i : Instr} {src dst : Block}
    (h : w.Lifts g l i src dst) (hw : w.module.Ready g) : g.Movable i src dst := by
  have hop := canHoist_computes h.can
  exact Func.movable_of_invariant hw.valid h.loop h.pre h.src_mem h.body h.mem hop.1 hop.2
    ((hw.hosts.invariant_iff h.loop).mp h.invariant)

/-- On a function in valid form, what hoisting moves can be moved. -/
theorem Sweeps.hoists {w w₁ : Work} {f g : Func} {c : Bool} (h : Sweeps w f c w₁ g)
    (hw : w.module.Ready f) :
    Hoists w f w₁ g := by
  induction h with
  | refl => exact .refl w f
  | count _ module memo ih => exact .look ih module (Or.inl memo)
  | @step _ _ w₁ _ _ _ _ _ i _ examines ih =>
    cases examines with
    | stay module memo => exact .look ih module (memo.imp_right fun memo => ⟨i, memo⟩)
    | move lifts module memo => exact .move ih (lifts.movable (ih.ready hw)) lifts.can module memo

/-- Hoisting from all loops of a function in valid form never fails. -/
theorem hoistAll_hoists {w : Work} {f : Func} (o : Options) (hw : w.module.Ready f) :
    ∃ c w₁ g, hoistAll o f w = .ok c w₁ ∧ Hoists w f w₁ g := by
  obtain ⟨c, w₁, g, hrun, hsweeps⟩ := hoistAll_sweeps o hw.hosts
  exact ⟨c, w₁, g, hrun, hsweeps.hoists hw⟩

end Work

end KernelIR
