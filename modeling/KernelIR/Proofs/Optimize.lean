import KernelIR.Proofs.Motion.Hoist
import KernelIR.Proofs.Preheader.Valid
import KernelIR.Proofs.Simplify
import KernelIR.Proofs.Validity

namespace KernelIR

namespace Module

variable {m : Module} {f : Func} {l : Loop}

/-- Whether the function with an identity is in valid form. -/
def ReadyAt (id : FuncId) (m : Module) : Prop := ∃ f, f.id = id ∧ m.Ready f

theorem Ready.enterable (hm : m.Ready f) (hl : f.IsNaturalLoop l) (hout : f.entering l ≠ []) :
    f.Enterable m.isTerm l where
  toExtensible := hm.consistent.extensible hm.mem hm.valid.linked hl
  valid := hm.valid
  outside := hout

theorem Ready.isTerm_made (hm : m.Ready f) (n : Nat) : m.isTerm (f.made n) = false := by
  rw [Bool.eq_false_iff]
  intro hterm
  obtain ⟨g, hg, i, hi, hid, _⟩ := hm.consistent.isTerm_iff.mp hterm
  have hlt := hm.consistent.serials f hm.mem g hg i hi i.id List.mem_cons_self (hid ▸ rfl)
  rw [hid] at hlt
  exact Nat.not_le_of_lt hlt (Nat.le_add_right _ _)

/-- The new branch is the only new terminator of the module. -/
theorem Ready.isTerm_entered (hm : m.Ready f) {σ : Instr → Instr} {new : List Instr}
    (h : f.Insertion m.isTerm l σ new) {d : InstrId}
    (hd : (m.update (f.entered l σ new)).isTerm d = true) :
    m.isTerm d = true ∨ d = f.made new.length := by
  have hcons := hm.consistent.update hm.mem h.grows
  obtain ⟨g, hg, i, hi, rfl, hop⟩ := hcons.isTerm_iff.mp hd
  rcases (mem_known_update hm.mem h.grows.id).mp hg with rfl | ⟨hg, _⟩
  · rcases h.terminator_entered hi hop with ⟨j, hj, hid, hop⟩ | hid
    · exact Or.inl (hm.consistent.isTerm_iff.mpr ⟨f, hm.mem, j, hj, hid, hop⟩)
    · exact Or.inr hid
  · exact Or.inl (hm.consistent.isTerm_iff.mpr ⟨g, hg, i, hi, rfl, hop⟩)

/-- A loop entered from outside can be given a preheader. -/
theorem Ready.withPreheader (hm : m.Ready f) (hl : f.IsNaturalLoop l) (hout : f.entering l ≠ []) :
    (m.update (f.withPreheader l)).Ready (f.withPreheader l) := by
  have hent := hm.enterable hl hout
  obtain ⟨σ, new, heq, h⟩ := hent.exists_insertion
  have hmem : f.entered l σ new ∈ (m.update (f.entered l σ new)).known :=
    (mem_known_update hm.mem h.grows.id).mpr (Or.inl rfl)
  rw [heq]
  refine ⟨hm.consistent.update hm.mem h.grows, hmem,
    h.valid_entered (fun i hi d hd => ?_) fun j hj => ?_⟩
  · rw [Bool.eq_false_iff]
    intro hterm
    rcases hm.isTerm_entered h hterm with hterm | hmade
    · rw [hm.valid.operands i hi d hd] at hterm
      cases hterm
    · exact hent.old i (List.mem_append_left _ hi) d (List.mem_cons_of_mem _ hd) _ hmade
  · obtain ⟨n, hlt, hn⟩ := h.joins.exists_made hj
    rw [Bool.eq_false_iff, hn]
    intro hterm
    rcases hm.isTerm_entered h hterm with hterm | hmade
    · rw [hm.isTerm_made n] at hterm
      cases hterm
    · have hserial : f.nextSerial + n = f.nextSerial + new.length := congrArg InstrId.serial hmade
      omega

/-- Every loop is entered from outside, since no branch leads to the entry. -/
theorem Ready.entering_ne (hm : m.Ready f) (hl : f.IsNaturalLoop l) : f.entering l ≠ [] := by
  obtain ⟨t, hback⟩ := hl.back
  exact (hm.consistent.extensible hm.mem hm.valid.linked hl).entering_ne (hm.valid.entry_ne hback.1)

theorem Ready.paired (hm : m.Ready f) : f.Paired := by
  intro i hi hop
  obtain ⟨k, hk, hi⟩ := Func.mem_instrs.mp hi
  exact (hm.valid.entries k hk i hi hop).1

theorem simplifyFirst_ready (ls : List Loop) (hm : m.Ready f) (hls : ∀ l ∈ ls, f.IsNaturalLoop l) :
    ∃ changed m₁, simplifyFirst ls m = .ok changed m₁ ∧ m₁.ReadyAt f.id := by
  rcases simplifyFirst_cases hm.consistent hm.mem hm.valid.linked hm.paired ls hls with ⟨hrun, _⟩ |
    ⟨l, hl, _, hrun⟩
  · exact ⟨false, m, hrun, f, rfl, hm⟩
  · have hnat := hls l hl
    refine ⟨true, _, hrun, f.withPreheader l, ?_, hm.withPreheader hnat (hm.entering_ne hnat)⟩
    exact (hm.consistent.extensible hm.mem hm.valid.linked hnat).id_withPreheader

/-- Each round looks for loops afresh. -/
theorem simplifyOnce_keeps (id : FuncId) : Edit.Keeps (ReadyAt id) (simplifyOnce id) := by
  intro m hm
  obtain ⟨f, rfl, hm⟩ := hm
  simp only [simplifyOnce, hm.func?, hm.valid.linked.loopNest_eq]
  exact simplifyFirst_ready f.nest hm fun l hl => hm.valid.linked.isNaturalLoop hl

theorem simplifyLoops_keeps (id : FuncId) (fuel : Nat) :
    Edit.Keeps (ReadyAt id) (simplifyLoops id fuel) := by
  induction fuel with
  | zero => exact Edit.Keeps.pure false
  | succ fuel ih =>
    apply (simplifyOnce_keeps id).bind
    intro changed
    cases changed with
    | true => exact ih.bind fun _ => Edit.Keeps.pure true
    | false => exact Edit.Keeps.pure false

end Module

namespace Work

variable (o : Options) (id : FuncId)

/-- Whether the function with an identity is in valid form. -/
def ReadyAt (w : Work) : Prop := w.module.ReadyAt id

theorem applyPass_keeps (p : Pass) : Edit.Keeps (ReadyAt id) (applyPass o id p) := by
  intro w hw
  cases p with
  | simplifyLoops =>
    obtain ⟨changed, m, hrun, hm⟩ :=
      Module.simplifyLoops_keeps id (w.module.blockCount + 1) w.module hw
    refine ⟨changed, { w with module := m }, ?_, hm⟩
    simp [applyPass, onModule, Edit.within, Module.simplify, hrun]
  | hoist =>
    obtain ⟨f, rfl, hf⟩ := hw
    obtain ⟨changed, w₁, g, hrun, hoists⟩ := hoistAll_hoists o hf
    refine ⟨changed, w₁, ?_, g, hoists.id, hoists.ready hf⟩
    simp only [applyPass, onFunc, hf.func?]
    exact hrun

theorem say_keeps (on : Bool) (message : Func → Work → String) :
    Edit.Keeps (ReadyAt id) (onFunc id fun f => modify fun w => w.say on (message f w)) := by
  intro w hw
  obtain ⟨f, rfl, hf⟩ := hw
  refine ⟨(), w.say on (message f w), ?_, f, rfl, ?_⟩
  · simp only [onFunc, hf.func?]
    rfl
  · rw [module_say]
    exact hf

theorem runPass_keeps (p : Pass) : Edit.Keeps (ReadyAt id) (runPass o id p) := by
  apply (applyPass_keeps o id p).bind
  intro changed
  cases changed with
  | true => exact (say_keeps id o.trace fun f _ =>
    "hoist: " ++ p.name ++ " changed " ++ f.name).bind fun _ =>
      Edit.Keeps.pure true
  | false => exact Edit.Keeps.pure false

theorem runPasses_keeps (ps : List Pass) : Edit.Keeps (ReadyAt id) (runPasses o id ps) := by
  induction ps with
  | nil => exact Edit.Keeps.pure false
  | cons p ps ih => exact (runPass_keeps o id p).bind fun _ => ih.bind fun _ => Edit.Keeps.pure _

theorem optimize_keeps : Edit.Keeps (ReadyAt id) (optimize o id) := by
  have hdump : ∀ title, Edit.Keeps (ReadyAt id) (dump o id title) := fun title =>
    say_keeps id o.dumpIR fun f w => "hoist: " ++ title ++ "\n" ++ f.print w.module.scope
  apply (hdump _).bind
  intro _
  apply (runPasses_keeps o id (passes o)).bind
  intro changed
  exact (hdump _).bind fun _ => Edit.Keeps.pure changed

/-- Optimising a function in valid form never fails, and leaves it in valid form. -/
theorem optimize_keeps_valid (o : Options) (w : Work) (id : FuncId) (f : Func)
    (hm : w.module.Consistent) (hf : w.module.func? id = some f) (hv : f.Valid w.module.isTerm) :
    ∃ changed w₁ g, optimize o id w = .ok changed w₁ ∧ w₁.module.Consistent ∧
      w₁.module.func? id = some g ∧ g.Valid w₁.module.isTerm := by
  obtain ⟨hknown, rfl⟩ := hm.func?_iff.mp hf
  obtain ⟨changed, w₁, hrun, g, hid, hg⟩ := optimize_keeps o f.id w ⟨f, rfl, hm, hknown, hv⟩
  exact ⟨changed, w₁, g, hrun, hg.consistent, hid ▸ hg.func?, hg.valid⟩

/-- A loop that is entered from two reachable blocks and an unreachable one. Its preheader gets a
phi over the three values, and the division of the loop. -/
def threeEntries : Work :=
  let x := Value.param ⟨"x", .int 32, 1⟩
  let goto (serial : Nat) : Instr := { op := .br, targets := [⟨0, 4⟩], id := ⟨0, serial⟩ }
  let choose (serial : Nat) (targets : List BlockId) : Instr :=
    { op := .condBr, operands := [.param ⟨"flag", .int 1, 0⟩], targets := targets.map (⟨0, ·⟩),
      id := ⟨0, serial⟩ }
  let loop := Func.record { Func.declare 0 "loop" (.int 32) [("flag", .int 1), ("x", .int 32)] with
    blocks := [
      ⟨1, "", 0, [choose 0 [2, 3]]⟩,
      ⟨2, "", 0, [{ op := .binary .add, operands := [x, x], id := ⟨0, 1⟩ }, goto 2]⟩,
      ⟨3, "", 0, [goto 3]⟩,
      ⟨4, "", 0, [
        { op := .phi, operands := [.instr ⟨0, 1⟩, x, .instr ⟨0, 6⟩, x],
          incoming := [2, 3, 4, 6].map (⟨0, ·⟩), id := ⟨0, 4⟩ },
        { op := .binary .sdiv, operands := [x, x], id := ⟨0, 5⟩ },
        { op := .binary .add, operands := [.instr ⟨0, 4⟩, .instr ⟨0, 5⟩], id := ⟨0, 6⟩ },
        choose 7 [4, 5]]⟩,
      ⟨5, "", 0, [{ op := .ret, operands := [.instr ⟨0, 6⟩], id := ⟨0, 8⟩ }]⟩,
      ⟨6, "", 0, [goto 9]⟩]
    maxBlock := 6
    nextSerial := 10 }
  { module := { name := "", functions := [loop] } }

theorem threeEntries_keeps_valid :
    ∃ f m changed w₁ g, threeEntries.module.func? 0 = some f ∧ f.Valid threeEntries.module.isTerm ∧
    threeEntries.module.Consistent ∧ Module.simplifyOnce 0 threeEntries.module = .ok true m ∧
      optimize { insertPreheaders := true } 0 threeEntries = .ok changed w₁ ∧
        w₁.module.func? 0 = some g ∧ g.Valid w₁.module.isTerm := by
  have hm : threeEntries.module.Consistent := by decide
  have hcheck : (threeEntries.module.func? 0).all (fun f => f.isValid threeEntries.module.isTerm) =
      true := by cbv
  have hserved : Edit.outcome? (Module.simplifyOnce 0) threeEntries.module
      (fun changed _ => changed) = some true := by cbv
  obtain ⟨f, hf⟩ : ∃ f, threeEntries.module.func? 0 = some f := ⟨_, rfl⟩
  rw [hf] at hcheck
  have hv : f.Valid threeEntries.module.isTerm := Func.valid_of_isValid hcheck
  obtain ⟨changed, w₁, g, hrun, _, hg, hvalid⟩ :=
    optimize_keeps_valid { insertPreheaders := true } threeEntries 0 f hm hf hv
  obtain ⟨_, m, honce, rfl⟩ := Edit.outcome?_eq_some_iff.mp hserved
  exact ⟨f, m, changed, w₁, g, hf, hv, hm, honce, hrun, hg, hvalid⟩

/-- The division goes to a block of the other function, which is not on the way to the block that
reads it. -/
theorem storeUnderForeignHeader_loses_definition : Module.storeUnderForeignHeaderModule.Consistent ∧
    Module.storeUnderForeignHeaderModule.func? 1 = some Module.storeUnderForeignHeader ∧
    Module.storeUnderForeignHeader.Blockwise Module.storeUnderForeignHeaderModule.isTerm ∧
      ∃ w₁ g r k i d b, optimize {} 1 { module := Module.storeUnderForeignHeaderModule } =
        .ok true w₁ ∧ w₁.module.func? 1 = some g ∧
        g.entryRef? = some r ∧ k ∈ g.blocks ∧ i ∈ k.instrs ∧ d ∈ i.reads ∧
          w₁.module.owner? d = some b ∧
          ∃ p, Walk (w₁.module.flow g).Edge r p (g.ref k.id) ∧ b ∉ p := by
  have hread : Edit.outcome? (optimize {} 1) { module := Module.storeUnderForeignHeaderModule }
      (fun changed w₁ =>
      (changed, w₁.module.owner? ⟨1, 2⟩, (w₁.module.func? 1).map fun g =>
        (g.entryRef?, (w₁.module.flow g).succs ⟨1, 1⟩, (w₁.module.flow g).succs ⟨0, 2⟩,
          g.blocks.any fun k => g.ref k.id = ⟨1, 3⟩ && k.instrs.any fun i => ⟨1, 2⟩ ∈ i.reads))) =
      some (true, some ⟨0, 1⟩, some (some ⟨1, 1⟩, [⟨0, 2⟩], [⟨1, 3⟩], true)) := by cbv
  obtain ⟨_, w₁, hrun, hparts⟩ := Edit.outcome?_eq_some_iff.mp hread
  obtain ⟨rfl, hleft⟩ := Prod.mk.inj hparts
  obtain ⟨howner, hfunc⟩ := Prod.mk.inj hleft
  obtain ⟨g, hg, hflow⟩ := Option.map_eq_some_iff.mp hfunc
  simp only [Prod.mk.injEq, List.any_eq_true, Bool.and_eq_true, decide_eq_true_eq] at hflow
  obtain ⟨hentry, hout, hback, k, hk, href, i, hi, hd⟩ := hflow
  have hfirst : (w₁.module.flow g).Edge ⟨1, 1⟩ ⟨0, 2⟩ := by
    rw [FlowGraph.Edge, hout]
    exact List.mem_singleton_self _
  have hsecond : (w₁.module.flow g).Edge ⟨0, 2⟩ ⟨1, 3⟩ := by
    rw [FlowGraph.Edge, hback]
    exact List.mem_singleton_self _
  refine ⟨by decide, rfl, Module.storeUnderForeignHeader_blockwise, w₁, g, ⟨1, 1⟩, k, i,
    ⟨1, 2⟩, ⟨0, 1⟩, hrun, hg, hentry, hk, hi, hd, howner, [⟨1, 1⟩, ⟨0, 2⟩, ⟨1, 3⟩], ?_, by decide⟩
  rw [href]
  exact .cons hfirst (.cons hsecond (.single _))

end Work

end KernelIR
