import KernelIR.Hoist.Pipeline
import KernelIR.Proofs.Motion.Hoist
import KernelIR.Proofs.Motion.Simulation
import KernelIR.Proofs.Purity
import KernelIR.Proofs.Validity
import Mathlib.Data.Set.Defs
import Mathlib.Logic.Function.Basic

namespace KernelIR

variable {m : Module} {f g : Func} {i : Instr} {src dst : Block} {memo : Purity.Memo}

theorem Module.isMemoryPure_of_outline {m' : Module}
    (h : ∀ id, (m'.func? id).map Purity.outline = (m.func? id).map Purity.outline) :
    m'.isMemoryPure = m.isMemoryPure := by
  funext id
  rw [Bool.eq_iff_iff, isMemoryPure_iff, isMemoryPure_iff, Purity.silent_of_outline h]

theorem right_canHoist (hmemo : Purity.Right m memo) : Purity.Right m (canHoist m i memo).2 :=
  Purity.right_iff_agrees.mpr (agrees_canHoist (Purity.right_iff_agrees.mp hmemo))

/-- What may be moved does not access memory. -/
theorem canHoist_quiet (hmemo : Purity.Right m memo) (h : (canHoist m i memo).1 = true) :
    i.accesses m.isMemoryPure = false := by
  cases hop : i.op with
  | binary op => simp [Operation.accesses, hop]
  | cast op => simp [Operation.accesses, hop]
  | call =>
    cases hcallee : i.callee? with
    | none => simp [canHoist, hop, hcallee] at h
    | some id =>
      have hsilent : Purity.Silent m id := by
        rw [← (Purity.query_iff hmemo).1]
        simpa [canHoist, hop, hcallee] using h
      simp [Operation.accesses, hop, hcallee, Module.isMemoryPure_iff.mpr hsilent]
  | _ => simp [canHoist, hop, Opcode.isMovable] at h

/-- Whether no interpretation tells two functions apart, where `quiet` are the functions whose calls
do not access memory: calls with the same arguments and memory enter the same blocks, do the same to
memory, and return the same value, however far they are followed. -/
def Func.SameRuns (quiet : FuncId → Bool) (f g : Func) : Prop :=
  ∀ (V M : Type) (I : Interpretation V M) (args : List V) (mem : M) (steps : Nat),
    (I.call quiet args g mem steps).trace = (I.call quiet args f mem steps).trace ∧
      (I.call quiet args g mem steps).mem = (I.call quiet args f mem steps).mem

theorem Func.SameRuns.trans {quiet : FuncId → Bool} {k : Func} (h : f.SameRuns quiet g)
    (h' : g.SameRuns quiet k) : f.SameRuns quiet k := by
  intro V M I args mem steps
  obtain ⟨htrace, hmem⟩ := h V M I args mem steps
  obtain ⟨htrace', hmem'⟩ := h' V M I args mem steps
  exact ⟨htrace'.trans htrace, hmem'.trans hmem⟩

namespace Interpretation

variable {V M : Type} (I : Interpretation V M) (quiet : FuncId → Bool) (args : List V)

theorem roam_eq_run (hm : m.func? f.id = some f) (hf : f.Linked) (steps : Nat)
    {before? : Option BlockRef} {k : Block} (hk : k ∈ f.blocks) (s : State V M) :
    I.roam quiet args m steps before? (f.ref k.id) s =
    I.run quiet args f steps before? (f.ref k.id) s := by
  induction steps generalizing before? k s with
  | zero => rfl
  | succ steps ih =>
    have hown : f.block? (f.ref k.id).number = some k := (Func.block?_iff hf).mpr ⟨hk, rfl⟩
    have hblock : m.block? (f.ref k.id) = some k := by
      rw [Module.block?, Func.ref, hm, Option.bind_some]
      exact hown
    rw [roam, run]
    simp only [hblock, hown]
    cases hnext : I.next args (I.visit quiet args before? (f.ref k.id) k s).env k with
    | goto c =>
      obtain ⟨j, hj, _, hc⟩ := Func.edge_of_next hk hnext
      obtain ⟨t, ht, rfl⟩ := hf.targets j hj c hc
      exact ih ht _
    | ret v => rfl
    | stuck => rfl

/-- Other functions take no part in a call of a function whose branches stay in it. -/
theorem callWithin_eq_call (hm : m.func? f.id = some f) (hf : f.Linked) (mem : M) (steps : Nat) :
    I.callWithin quiet args m f mem steps = I.call quiet args f mem steps := by
  rw [callWithin, call, Func.entryRef?, Func.entry?]
  cases hb : f.blocks with
  | nil => rfl
  | cons k ks => exact I.roam_eq_run quiet args hm hf steps (hb ▸ List.mem_cons_self) _

end Interpretation

namespace Work

/-- Hoisting keeps the answers on purity right and the runs the same. -/
theorem Hoists.sameRuns {w w₁ : Work} (h : Hoists w f w₁ g) (hw : w.module.Ready f)
    (hmemo : Purity.Right w.module w.memo) :
    Purity.Right w₁.module w₁.memo ∧ w₁.module.isMemoryPure = w.module.isMemoryPure ∧
      f.SameRuns w.module.isMemoryPure g := by
  induction h with
  | refl => exact ⟨hmemo, rfl, fun _ _ _ _ _ _ => ⟨rfl, rfl⟩⟩
  | look _ module memo ih =>
    obtain ⟨hright, hpure, hruns⟩ := ih hw
    rw [module]
    refine ⟨?_, hpure, hruns⟩
    rcases memo with memo | ⟨i, memo⟩
    · rw [memo]
      exact hright
    · rw [memo]
      exact right_canHoist hright
  | @move w₁ w₂ f g i src dst h movable can module memo ih =>
    obtain ⟨hright, hpure, hruns⟩ := ih hw
    have hready := h.ready hw
    have houtline := Purity.outline_update hready.hosts movable.relocates
    rw [module, memo]
    refine ⟨(right_canHoist hright).of_outline houtline, ?_,
      hruns.trans fun V M I args mem steps => ?_⟩
    · rw [Module.isMemoryPure_of_outline houtline, hpure]
    · have hquiet := canHoist_quiet hright can
      rw [hpure] at hquiet
      exact movable.call_eq hready.valid hready.own hquiet mem steps

/-- Hoisting preserves the meaning of a function in valid form. It never fails, the function it
leaves cannot be told apart from the one before, also when its runs may lead into other functions of
the module, and the purity answers stay right. -/
theorem hoist_preserves_runs (o : Options) (w : Work) (id : FuncId) (f : Func)
    (hm : w.module.Consistent) (hf : w.module.func? id = some f) (hv : f.Valid w.module.isTerm)
    (hmemo : Purity.Right w.module w.memo) :
    ∃ changed w₁ g, applyPass o id .hoist w = .ok changed w₁ ∧ w₁.module.func? id = some g ∧
      f.SameRuns w.module.isMemoryPure g ∧
      (∀ (V M : Type) (I : Interpretation V M) (args : List V) (mem : M) (steps : Nat),
        (I.callWithin w.module.isMemoryPure args w₁.module g mem steps).trace =
          (I.callWithin w.module.isMemoryPure args w.module f mem steps).trace) ∧
      w₁.module.isMemoryPure = w.module.isMemoryPure ∧ Purity.Right w₁.module w₁.memo := by
  obtain ⟨hknown, rfl⟩ := hm.func?_iff.mp hf
  have hready : w.module.Ready f := ⟨hm, hknown, hv⟩
  obtain ⟨changed, w₁, g, hrun, hoists⟩ := hoistAll_hoists o hready
  obtain ⟨hright, hpure, hruns⟩ := hoists.sameRuns hready hmemo
  have hready₁ := hoists.ready hready
  refine ⟨changed, w₁, g, ?_, hoists.id ▸ hready₁.func?, hruns,
    fun V M I args mem steps => ?_, hpure, hright⟩
  · simp only [applyPass, onFunc, hf]
    exact hrun
  · rw [I.callWithin_eq_call _ args hready₁.func? hready₁.valid.linked,
      I.callWithin_eq_call _ args hf hv.linked]
    exact (hruns V M I args mem steps).1

/-- A loop in a loop. The inner one divides and calls a pure function, which can both be done ahead
of the outer one, and stores. -/
def nested : Work :=
  let goto (serial : Nat) (targets : List BlockId) : Instr :=
    { op := .br, targets := targets.map (⟨0, ·⟩), id := ⟨0, serial⟩ }
  let choose (serial : Nat) (targets : List BlockId) : Instr :=
    { goto serial targets with op := .condBr, operands := [.param ⟨"flag", .int 1, 0⟩] }
  let x := Value.param ⟨"x", .int 32, 1⟩
  let loops := Func.record { Func.declare 0 "loops" .void [("flag", .int 1), ("x", .int 32)] with
    blocks := [
      ⟨1, "", 0, [goto 0 [2]]⟩,
      ⟨2, "", 0, [
        { op := .phi, operands := [x, .instr ⟨0, 4⟩], incoming := [⟨0, 1⟩, ⟨0, 4⟩], id := ⟨0, 1⟩ },
        goto 2 [3]]⟩,
      ⟨3, "", 0, [
        { op := .binary .sdiv, operands := [x, x], id := ⟨0, 3⟩ },
        { op := .call, operands := [.func 1, .instr ⟨0, 3⟩], id := ⟨0, 4⟩ },
        { op := .store, operands := [.instr ⟨0, 4⟩, .instr ⟨0, 1⟩], id := ⟨0, 5⟩ },
        choose 6 [3, 4]]⟩,
      ⟨4, "", 0, [choose 7 [2, 5]]⟩,
      ⟨5, "", 0, [{ op := .ret, operands := [.instr ⟨0, 4⟩], id := ⟨0, 8⟩ }]⟩]
    maxBlock := 5
    nextSerial := 9 }
  let same := Func.record { Func.declare 1 "same" (.int 32) [("x", .int 32)] with
    blocks := [⟨1, "", 1, [{ op := .ret, operands := [.param ⟨"x", .int 32, 0⟩], id := ⟨1, 0⟩ }]⟩]
    maxBlock := 1
    nextSerial := 1 }
  { module := { name := "", functions := [loops, same] } }

theorem nested_preserves_runs :
    ∃ f w₁ g, nested.module.func? 0 = some f ∧ f.Valid nested.module.isTerm ∧
    nested.module.Consistent ∧ applyPass {} 0 .hoist nested = .ok true w₁ ∧ w₁.stats.hoisted = 4 ∧
      w₁.module.func? 0 = some g ∧ f.SameRuns nested.module.isMemoryPure g := by
  have hm : nested.module.Consistent := by decide
  have hcheck :
      (nested.module.func? 0).all (fun f => f.isValid nested.module.isTerm) = true := by cbv
  have hcount :
      Edit.outcome? (applyPass {} 0 .hoist) nested (fun changed w₁ => (changed, w₁.stats.hoisted)) =
      some (true, 4) := by cbv
  obtain ⟨f, hf⟩ : ∃ f, nested.module.func? 0 = some f := ⟨_, rfl⟩
  rw [hf] at hcheck
  have hv : f.Valid nested.module.isTerm := Func.valid_of_isValid hcheck
  obtain ⟨changed, w₁, g, hrun, hg, hruns, _⟩ :=
    hoist_preserves_runs {} nested 0 f hm hf hv (Purity.right_nil _)
  rw [Edit.outcome?_of_ok hrun, Option.some_inj, Prod.mk.injEq] at hcount
  obtain ⟨rfl, hhoisted⟩ := hcount
  exact ⟨f, w₁, g, hf, hv, hm, hrun, hhoisted, hg, hruns⟩

/-- Tells what was computed, which is 1, from everything else, which is 0. -/
def flagging : Interpretation Nat Unit where
  constant _ := 0
  undefined := 0
  compute _ _ := 1
  act _ _ _ := (0, ())
  truth _ := false

/-- What the accesses to memory take in the first steps of a call. -/
def flagged (quiet : FuncId → Bool) (m : Module) (f : Func) (steps : Nat) : List (List Nat) :=
  (flagging.callWithin quiet [] m f () steps).trace.filterMap fun
    | .access _ operands _ => some operands
    | _ => none

/-- The division goes to a block of the other function that the call never enters, so that what is
stored was not computed. -/
theorem storeUnderForeignHeader_changes_runs : Module.storeUnderForeignHeaderModule.Consistent ∧
    Module.storeUnderForeignHeaderModule.func? 1 = some Module.storeUnderForeignHeader ∧
    Module.storeUnderForeignHeader.Blockwise Module.storeUnderForeignHeaderModule.isTerm ∧
      ∃ w₁ g, applyPass {} 1 .hoist { module := Module.storeUnderForeignHeaderModule } =
        .ok true w₁ ∧ w₁.module.func? 1 = some g ∧
        ∃ (V M : Type) (I : Interpretation V M) (args : List V) (mem : M) (steps : Nat),
          (I.callWithin Module.storeUnderForeignHeaderModule.isMemoryPure args w₁.module g mem
            steps).trace ≠ (I.callWithin Module.storeUnderForeignHeaderModule.isMemoryPure args
              Module.storeUnderForeignHeaderModule Module.storeUnderForeignHeader mem
              steps).trace := by
  have hafter : Edit.outcome? (applyPass {} 1 .hoist)
      { module := Module.storeUnderForeignHeaderModule } (fun changed w₁ =>
      (changed, (w₁.module.func? 1).map fun g =>
        flagged Module.storeUnderForeignHeaderModule.isMemoryPure w₁.module g 3)) =
        some (true, some [[0, 0]]) := by cbv
  have hbefore : flagged Module.storeUnderForeignHeaderModule.isMemoryPure
      Module.storeUnderForeignHeaderModule Module.storeUnderForeignHeader 3 = [[1, 0]] := by cbv
  obtain ⟨_, w₁, hrun, hread⟩ := Edit.outcome?_eq_some_iff.mp hafter
  obtain ⟨rfl, hfunc⟩ := Prod.mk.inj hread
  obtain ⟨g, hg, hstored⟩ := Option.map_eq_some_iff.mp hfunc
  refine ⟨by decide, rfl, Module.storeUnderForeignHeader_blockwise, w₁, g, hrun, hg,
    Nat, Unit, flagging, [], (), 3, fun heq => ?_⟩
  rw [flagged, heq] at hstored
  exact absurd (hbefore.symm.trans hstored) (by decide)

end Work

end KernelIR
