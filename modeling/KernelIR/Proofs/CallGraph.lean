import KernelIR.Proofs.Purity
import Mathlib.Order.Bounds.Basic
import Mathlib.Data.Set.Basic

namespace KernelIR

variable {m : Module} {i : Instr} {a b id : FuncId}

/-- Whether the function of that number only annotates the program. -/
def Module.annotates (m : Module) (id : FuncId) : Prop :=
  ∃ f, m.func? id = some f ∧ f.intrinsic.isDebugInfo = true

/-- Whether a function calls another one, which is no debug intrinsic, by its name. -/
def Module.CallsFunc (m : Module) (a b : FuncId) : Prop :=
  ∃ f, m.func? a = some f ∧ ∃ i ∈ f.instrs, i.callee? = some b ∧ ¬m.annotates b

/-- Whether a function keeps away from memory, provided that those of a set do. -/
structure Module.Shielded (m : Module) (P : Set FuncId) (id : FuncId) (f : Func) : Prop where
  known : m.func? id = some f
  body : f.isDeclaration = false
  loads : ∀ i ∈ f.instrs, i.op ≠ .load
  stores : ∀ i ∈ f.instrs, i.op ≠ .store
  direct : ∀ i ∈ f.instrs, i.op = .call → ∃ k, i.callee? = some k
  calls : ∀ k, m.CallsFunc id k → k ∈ P

/-- The functions that are found pure. -/
def Module.pureFuncs (m : Module) : Set FuncId := {id | m.isMemoryPure id = true}

namespace Purity

variable {memo : Memo} {P : Set FuncId} {f : Func} {k : FuncId}

/-- Answers one question after another, each with the memo that the ones before have left. -/
def queries (m : Module) : List FuncId → Memo → List Bool × Memo
  | [], memo => ([], memo)
  | id :: ids, memo =>
    let (answer, memo) := query m id memo
    let (answers, memo) := queries m ids memo
    (answer :: answers, memo)

theorem queries_eq (ids : List FuncId) (hmemo : Right m memo) :
    (queries m ids memo).1 = ids.map m.isMemoryPure ∧ Right m (queries m ids memo).2 := by
  induction ids generalizing memo with
  | nil => exact ⟨rfl, hmemo⟩
  | cons id ids ih =>
    have hnext : Right m (query m id memo).2 := (query_iff hmemo).2
    obtain ⟨hanswers, hright⟩ := ih hnext
    exact ⟨congrArg₂ List.cons (query_eq hmemo) hanswers, hright⟩

theorem annotates_iff : m.annotates id ↔
    ((m.func? id).any fun f => f.intrinsic.isDebugInfo) = true := by
  cases h : m.func? id with
  | none => simp [Module.annotates, h]
  | some f => simp [Module.annotates, h]

theorem op_of_callee (h : i.callee? = some k) : i.op = .call := by
  unfold Operation.callee? at h
  split at h
  · next hop _ => exact hop
  · cases h

theorem effect_eq_calls_iff : effect m i = .calls k ↔ i.callee? = some k ∧ ¬m.annotates k := by
  constructor
  · intro h
    unfold effect at h
    split at h
    · cases h
    · cases h
    · split at h
      · next id hcallee =>
        split at h
        · cases h
        · next hany =>
          cases h
          exact ⟨hcallee, fun hk => hany (annotates_iff.mp hk)⟩
      · cases h
    · cases h
  · rintro ⟨hcallee, hk⟩
    have hany : ¬((m.func? k).any fun f => f.intrinsic.isDebugInfo) = true :=
      fun h => hk (annotates_iff.mpr h)
    simp only [effect, op_of_callee hcallee, hcallee, if_neg hany]

theorem effect_eq_memory_iff :
    effect m i = .memory ↔ i.op = .load ∨ i.op = .store ∨ i.op = .call ∧ i.callee? = none := by
  unfold effect
  split
  · next hop => simp [hop]
  · next hop => simp [hop]
  · next hop =>
    cases hcallee : i.callee? with
    | none => simp [hop]
    | some id =>
      by_cases hany : ((m.func? id).any fun f => f.intrinsic.isDebugInfo) = true
      · simp [hop, hany]
      · simp [hop, hany]
  · next hload hstore hcall =>
    refine ⟨nofun, ?_⟩
    rintro (hop | hop | ⟨hop, _⟩)
    · exact absurd hop hload
    · exact absurd hop hstore
    · exact absurd hop hcall

/-- The conditions on a function, in terms of the effects of its instructions. -/
theorem shielded_iff : m.Shielded P id f ↔ m.func? id = some f ∧ f.isDeclaration = false ∧
    (∀ i ∈ f.instrs, effect m i ≠ .memory) ∧
    ∀ i ∈ f.instrs, ∀ k, effect m i = .calls k → k ∈ P := by
  constructor
  · rintro ⟨known, body, loads, stores, direct, calls⟩
    refine ⟨known, body, fun i hi he => ?_, fun i hi k he => ?_⟩
    · rcases effect_eq_memory_iff.mp he with hop | hop | ⟨hop, hnone⟩
      · exact loads i hi hop
      · exact stores i hi hop
      · obtain ⟨k, hk⟩ := direct i hi hop
        rw [hnone] at hk
        cases hk
    · exact calls k ⟨f, known, i, hi, effect_eq_calls_iff.mp he⟩
  · rintro ⟨known, body, calm, calls⟩
    have hcalm :
        ∀ i ∈ f.instrs, ¬(i.op = .load ∨ i.op = .store ∨ i.op = .call ∧ i.callee? = none) :=
      fun i hi h => calm i hi (effect_eq_memory_iff.mpr h)
    refine ⟨known, body, fun i hi h => hcalm i hi (.inl h),
      fun i hi h => hcalm i hi (.inr (.inl h)), fun i hi hop => ?_, fun k hk => ?_⟩
    · exact Option.ne_none_iff_exists'.mp fun h => hcalm i hi (.inr (.inr ⟨hop, h⟩))
    · obtain ⟨g, hg, i, hi, hcallee⟩ := hk
      rw [known] at hg
      cases hg
      exact calls i hi k (effect_eq_calls_iff.mpr hcallee)

theorem calls_iff : Calls m [] a b ↔ m.CallsFunc a b := by
  simp only [Calls, Module.CallsFunc, List.mem_map, effect_eq_calls_iff, List.lookup_nil, true_and]

/-- From a pure function no cycle of calls can be reached. -/
theorem Silent.not_cyclic (ha : Silent m a) (hab : Relation.ReflTransGen m.CallsFunc a b) :
    ¬Relation.TransGen m.CallsFunc b b := by
  have hb : Silent m b := by
    induction hab with
    | refl => exact ha
    | tail _ hcall ih =>
      cases ih with
      | intro known _ _ calls =>
        obtain ⟨f, hf, i, hi, hcallee⟩ := hcall
        rw [known] at hf
        cases hf
        exact calls i hi _ (effect_eq_calls_iff.mpr hcallee)
  have hcalls : Calls m [] = m.CallsFunc := funext fun a => funext fun b => propext calls_iff
  rw [← hcalls]
  exact (presumed_nil_iff.mpr hb).acyclic

end Purity

open Purity

theorem Module.mem_pureFuncs : id ∈ m.pureFuncs ↔ Silent m id := isMemoryPure_iff

/-- The pure functions are those whose conditions hold with the pure functions as the set. -/
theorem Module.mem_pureFuncs_iff_shielded : id ∈ m.pureFuncs ↔
    ∃ f, m.Shielded m.pureFuncs id f := by
  simp only [shielded_iff]
  constructor
  · intro h
    cases mem_pureFuncs.mp h with
    | @intro _ f known body calm calls =>
      exact ⟨f, known, body, calm, fun i hi k he => mem_pureFuncs.mpr (calls i hi k he)⟩
  · rintro ⟨f, known, body, calm, calls⟩
    exact mem_pureFuncs.mpr
      (.intro known body calm fun i hi k he => mem_pureFuncs.mp (calls i hi k he))

theorem Module.pureFuncs_subset {P : Set FuncId} (hP : ∀ id f, m.Shielded P id f → id ∈ P) :
    m.pureFuncs ⊆ P := by
  intro id h
  induction mem_pureFuncs.mp h with
  | @intro id f known body calm calls ih =>
    exact hP id f (shielded_iff.mpr ⟨known, body, calm,
      fun i hi k he => ih i hi k he (mem_pureFuncs.mpr (calls i hi k he))⟩)

/-- However often and in whatever order functions are asked about, with one memo for all questions,
the answers are those of a fresh memo. The functions with the answer `true` are the least set that
is closed under the conditions, and none of them can reach a cycle of calls. -/
theorem Module.isMemoryPure_least (m : Module) :
    (∀ ids : List FuncId, (queries m ids []).1 = ids.map m.isMemoryPure) ∧
      IsLeast {P : Set FuncId | ∀ id f, m.Shielded P id f → id ∈ P} m.pureFuncs ∧
      (∀ id, id ∈ m.pureFuncs ↔ ∃ f, m.Shielded m.pureFuncs id f) ∧
      ∀ a b, Relation.ReflTransGen m.CallsFunc a b → Relation.TransGen m.CallsFunc b b →
        m.isMemoryPure a = false := by
  refine ⟨fun ids => (queries_eq ids (right_nil m)).1, ⟨?_, fun P hP => pureFuncs_subset hP⟩,
    fun id => mem_pureFuncs_iff_shielded, fun a b hab hcycle => ?_⟩
  · exact fun id f h => mem_pureFuncs_iff_shielded.mpr ⟨f, h⟩
  · by_contra h
    have ha : Silent m a := isMemoryPure_iff.mp (by simpa using h)
    exact ha.not_cyclic hab hcycle

end KernelIR
