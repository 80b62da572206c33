import KernelIR.Hoist.Compilation
import KernelIR.Proofs.Motion.Sweep

namespace KernelIR

open Edit (Maintains)

namespace Module

variable {P : Module → Prop} {m : Module} {id : FuncId}

/-- Whether `P` survives every move out of a loop into its preheader. The preheader was looked up,
and the instruction found in a block of the loop, while `P` held. -/
def KeptByMoves (P : Module → Prop) (l : Loop) : Prop :=
  ∀ m, P m → ∀ i, i.op.isTerminator = false →
    (∃ m₁ b k, P m₁ ∧ l.contains b ∧ m₁.block? b = some k ∧ i ∈ k.instrs) →
    ∀ pre, (∃ m₁, P m₁ ∧ m₁.preheader? l = some pre) → P ((moveBeforeTerm i.id pre).after m)

/-- Whether `P` survives it when a loop of a function is given a preheader. -/
def KeptByInsertions (P : Module → Prop) (id : FuncId) : Prop :=
  ∀ m, P m → ∀ f nest, m.func? id = some f → m.loopNest f (m.domTree f) = .ok nest →
    ∀ l ∈ nest, P ((insertPreheader l).after m)

/-- Whether `P` survives the moves out of the loops of a function, perhaps with the help of what
else holds of the module from there on. -/
def KeptByHoisting (P : Module → Prop) (id : FuncId) : Prop :=
  ∀ m, P m → ∀ f nest, m.func? id = some f → m.loopNest f (m.domTree f) = .ok nest →
    ∃ Q : Module → Prop, Q m ∧ (∀ m', Q m' → P m') ∧ ∀ l ∈ nest, KeptByMoves Q l

/-- A loop that is given no preheader changes nothing. -/
theorem insertPreheader_none (hn : (m.known.map Func.id).Nodup) {l : Loop} {m' : Module}
    (h : insertPreheader l m = .ok none m') : m' = m := by
  cases hhome : m.home? l.header with
  | none => simp [insertPreheader, hhome] at h
  | some g =>
    simp only [insertPreheader, hhome, edit] at h
    cases hf : m.func? g.id with
    | none => simp [hf] at h
    | some f =>
      simp only [hf, Func.insertPreheader] at h
      split at h
      · next heq =>
        split at heq
        · cases heq
          cases h
          exact update_self hn (List.mem_of_find?_eq_some hf)
        · split at heq
          · cases heq
          · cases heq
            cases h
      · cases h

theorem simplifyFirst_keeps (hP : ∀ m, P m → (m.known.map Func.id).Nodup) (hm : P m)
    {ls : List Loop} (hls : ∀ l ∈ ls, P ((insertPreheader l).after m)) :
    P ((simplifyFirst ls).after m) := by
  induction ls with
  | nil => exact hm
  | cons l ls ih =>
    have hafter := hls l List.mem_cons_self
    rw [simplifyFirst]
    cases hrun : insertPreheader l m with
    | error x m' =>
      rw [Edit.after_bind_error hrun]
      rwa [Edit.after_of_error hrun] at hafter
    | ok pre? m' =>
      rw [Edit.after_bind_ok hrun]
      rw [Edit.after_of_ok hrun] at hafter
      cases pre? with
      | some pre => exact hafter
      | none =>
        rw [insertPreheader_none (hP m hm) hrun]
        exact ih fun l hl => hls l (List.mem_cons_of_mem _ hl)

theorem maintains_simplifyOnce (hP : ∀ m, P m → (m.known.map Func.id).Nodup)
    (h : KeptByInsertions P id) :
    Maintains P (simplifyOnce id) := by
  intro m hm
  rw [Edit.after, simplifyOnce]
  cases hf : m.func? id with
  | none => exact hm
  | some f =>
    cases hnest : m.loopNest f (m.domTree f) with
    | error x => simpa only [hnest] using hm
    | ok nest =>
      simp only [hnest]
      exact simplifyFirst_keeps hP hm (h m hm f nest hf hnest)

theorem maintains_simplifyLoops (hP : ∀ m, P m → (m.known.map Func.id).Nodup)
    (h : KeptByInsertions P id) (fuel : Nat) : Maintains P (simplifyLoops id fuel) := by
  induction fuel with
  | zero => exact .pure false
  | succ fuel ih =>
    refine (maintains_simplifyOnce hP h).bind fun changed => ?_
    cases changed with
    | true => exact ih.bind fun _ => .pure true
    | false => exact .pure false

end Module

namespace Work

variable {P : Module → Prop} {o : Options} {l : Loop} {id : FuncId}

/-- Whether `P` holds of the module at hand. -/
def On (P : Module → Prop) (w : Work) : Prop := P w.module

theorem not_isTerminator_of_canHoist {m : Module} {i : Instr} {memo memo' : Purity.Memo}
    (h : canHoist m i memo = (true, memo')) : i.op.isTerminator = false := by
  rw [canHoist] at h
  cases hop : i.op with
  | br => simp [hop, Opcode.isMovable] at h
  | condBr => simp [hop, Opcode.isMovable] at h
  | ret => simp [hop, Opcode.isMovable] at h
  | unreachable => simp [hop, Opcode.isMovable] at h
  | _ => rfl

theorem maintains_hoistInstr (h : Module.KeptByMoves P l) {src pre : BlockRef} {i : Instr}
    (hi : ∃ m₁ b k, P m₁ ∧ l.contains b ∧ m₁.block? b = some k ∧ i ∈ k.instrs)
    (hpre : ∃ m₁, P m₁ ∧ m₁.preheader? l = some pre) :
    Maintains (On P) (hoistInstr o l src pre i) := by
  intro w hw
  rw [Edit.after, hoistInstr]
  by_cases hinv : w.module.invariant l i = true
  · rw [if_pos hinv]
    cases hcan : canHoist w.module i w.memo with
    | mk can memo =>
      cases can with
      | false => exact hw
      | true =>
        have hmoved := h w.module hw i (not_isTerminator_of_canHoist hcan) hi pre hpre
        simp only [module_say]
        cases hrun : Module.moveBeforeTerm i.id pre w.module with
        | ok a m =>
          rw [Edit.after_of_ok hrun] at hmoved
          exact hmoved
        | error x m =>
          rw [Edit.after_of_error hrun] at hmoved
          exact hmoved
  · rw [if_neg hinv]
    exact hw

theorem maintains_hoistInstrs (h : Module.KeptByMoves P l) {src pre : BlockRef} {is : List Instr}
    (his : ∀ i ∈ is, ∃ m₁ b k, P m₁ ∧ l.contains b ∧ m₁.block? b = some k ∧ i ∈ k.instrs)
    (hpre : ∃ m₁, P m₁ ∧ m₁.preheader? l = some pre) :
    Maintains (On P) (hoistInstrs o l src pre is) := by
  induction is with
  | nil => exact .pure false
  | cons i is ih =>
    refine (maintains_hoistInstr h (his i List.mem_cons_self) hpre).bind fun first => ?_
    exact (ih fun i hi => his i (List.mem_cons_of_mem _ hi)).bind fun rest => .pure _

theorem maintains_hoistBlock (h : Module.KeptByMoves P l) {pre b : BlockRef}
    (hb : l.contains b = true) (hpre : ∃ m₁, P m₁ ∧ m₁.preheader? l = some pre) :
    Maintains (On P) (hoistBlock o l pre b) := by
  intro w hw
  rw [Edit.after, hoistBlock]
  cases hk : w.module.block? b with
  | none => exact hw
  | some k => exact maintains_hoistInstrs h (fun i hi => ⟨w.module, b, k, hw, hb, hk, hi⟩) hpre w hw

theorem maintains_hoistBlocks (h : Module.KeptByMoves P l) {pre : BlockRef} {bs : List BlockRef}
    (hbs : ∀ b ∈ bs, l.contains b = true) (hpre : ∃ m₁, P m₁ ∧ m₁.preheader? l = some pre) :
    Maintains (On P) (hoistBlocks o l pre bs) := by
  induction bs with
  | nil => exact .pure false
  | cons b bs ih =>
    refine (maintains_hoistBlock h (hbs b List.mem_cons_self) hpre).bind fun first => ?_
    exact (ih fun b hb => hbs b (List.mem_cons_of_mem _ hb)).bind fun rest => .pure _

theorem maintains_hoistLoop (h : Module.KeptByMoves P l) {children : BlockRef → List BlockRef}
    {nest : LoopNest} :
    Maintains (On P) (hoistLoop o children nest l) := by
  intro w hw
  rw [Edit.after, hoistLoop]
  cases hpre : w.module.preheader? l with
  | none => exact hw
  | some pre =>
    refine maintains_hoistBlocks h (fun b hb => ?_) ⟨w.module, hw, hpre⟩
      { w with stats.loops := w.stats.loops + 1 } hw
    exact enter_of_mem_treeWalk (List.mem_of_mem_filter hb)

theorem maintains_hoistLoops {children : BlockRef → List BlockRef} {nest ls : LoopNest}
    (h : ∀ l ∈ ls, Module.KeptByMoves P l) : Maintains (On P) (hoistLoops o children nest ls) := by
  induction ls with
  | nil => exact .pure false
  | cons l ls ih =>
    refine (maintains_hoistLoop (h l List.mem_cons_self)).bind fun first => ?_
    exact (ih fun l hl => h l (List.mem_cons_of_mem _ hl)).bind fun rest => .pure _

theorem maintains_applyPass (hP : ∀ m, P m → (m.known.map Func.id).Nodup)
    (hins : Module.KeptByInsertions P id)
    (hmoves : Module.KeptByHoisting P id) (p : Pass) : Maintains (On P) (applyPass o id p) := by
  cases p with
  | simplifyLoops =>
    have hrounds : Maintains P (Module.simplify id) :=
      fun m hm => Module.maintains_simplifyLoops hP hins _ m hm
    have hmodule : Maintains (fun w : Work => P w.module) (onModule (Module.simplify id)) :=
      hrounds.within fun _ _ => rfl
    exact hmodule
  | hoist =>
    intro w hw
    rw [Edit.after, applyPass, onFunc]
    cases hf : w.module.func? id with
    | none => exact hw
    | some f =>
      simp only [hoistAll]
      cases hnest : w.module.loopNest f (w.module.domTree f) with
      | error x => exact hw
      | ok nest =>
        obtain ⟨Q, hQ, hQP, hkept⟩ := hmoves w.module hw f nest hf hnest
        exact hQP _ (maintains_hoistLoops hkept w hQ)

/-- Messages do not matter. -/
theorem maintains_report (P : Module → Prop) (on : Bool) (message : Func → Work → String) :
    Maintains (On P) (onFunc id fun f => modify fun w => w.say on (message f w)) := by
  intro w hw
  rw [Edit.after, onFunc]
  cases w.module.func? id with
  | none => exact hw
  | some f =>
    show P (w.say on (message f w)).module
    rwa [module_say]

theorem maintains_runPass (hP : ∀ m, P m → (m.known.map Func.id).Nodup)
    (hins : Module.KeptByInsertions P id)
    (hmoves : Module.KeptByHoisting P id) (p : Pass) : Maintains (On P) (runPass o id p) := by
  refine (maintains_applyPass hP hins hmoves p).bind fun changed => ?_
  cases changed with
  | false => exact .pure false
  | true =>
    exact (maintains_report P o.trace fun f _ => "hoist: " ++ p.name ++ " changed " ++ f.name).bind
      fun _ => .pure true

theorem maintains_runPasses (hP : ∀ m, P m → (m.known.map Func.id).Nodup)
    (hins : Module.KeptByInsertions P id)
    (hmoves : Module.KeptByHoisting P id) (ps : List Pass) :
    Maintains (On P) (runPasses o id ps) := by
  induction ps with
  | nil => exact .pure false
  | cons p ps ih =>
    exact (maintains_runPass hP hins hmoves p).bind fun first => ih.bind fun rest => .pure _

/-- What every step of the optimisation leaves true holds in the end. -/
theorem maintains_optimize (hP : ∀ m, P m → (m.known.map Func.id).Nodup)
    (hins : Module.KeptByInsertions P id)
    (hmoves : Module.KeptByHoisting P id) : Maintains (On P) (optimize o id) := by
  have hdump : ∀ title, Maintains (On P) (dump o id title) := fun title =>
    maintains_report P o.dumpIR fun f w => "hoist: " ++ title ++ "\n" ++ f.print w.module.scope
  refine (hdump _).bind fun _ => (maintains_runPasses hP hins hmoves _).bind fun changed => ?_
  exact (hdump _).bind fun _ => .pure changed

end Work

namespace Compilation

variable {P : Module → Prop} {o : Options} {α : Type}

theorem module_after_work (memo : Purity.Memo) (e : Edit Work α) (c : Compilation) :
    ((work memo e).after c).module =
    (e.after { module := c.module, memo, stats := c.stats, log := c.log }).module := by
  cases he : e { module := c.module, memo, stats := c.stats, log := c.log } with
  | ok a w => simp only [Edit.after, work, he]
  | error x w => simp only [Edit.after, work, he]

/-- What every step of the optimisation of a function leaves true holds after all functions were
optimised. -/
theorem maintains_hoistModule (hP : ∀ m, P m → (m.known.map Func.id).Nodup)
    (hins : ∀ id, Module.KeptByInsertions P id) (hmoves : ∀ id, Module.KeptByHoisting P id) :
    Maintains (fun c => P c.module) (hoistModule o) := by
  have heach : ∀ ids memo, Maintains (fun c => P c.module) (hoistEach o ids memo) := by
    intro ids
    induction ids with
    | nil => exact fun _ => .pure 0
    | cons id ids ih =>
      intro memo
      refine Maintains.bind (fun c hc => ?_) fun _ => (ih _).bind fun _ => .pure _
      rw [module_after_work]
      exact Work.maintains_optimize hP (hins id) (hmoves id) _ hc
  exact fun c hc => heach _ _ c hc

end Compilation

end KernelIR
