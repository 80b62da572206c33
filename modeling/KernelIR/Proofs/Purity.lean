import KernelIR.Hoist.Candidate
import Mathlib.Data.List.Perm.Subperm
import Mathlib.Data.Set.Defs
import Mathlib.Logic.Relation

namespace KernelIR.Purity

variable {m : Module} {id a b : FuncId} {f : Func} {base memo : Memo}

/-- The functions that keep away from memory, as the least set: they have a body without loads,
stores and indirect calls, and call only functions of the set besides debug intrinsics. -/
inductive Silent (m : Module) : FuncId → Prop where
  | intro {id : FuncId} {f : Func} (known : m.func? id = some f) (body : f.isDeclaration = false)
      (calm : ∀ i ∈ f.instrs, effect m i ≠ .memory)
      (calls : ∀ i ∈ f.instrs, ∀ k, effect m i = .calls k → Silent m k) : Silent m id

/-- The functions that count as silent when the answers of a memo are believed, right or not. -/
inductive Presumed (m : Module) (base : Memo) : FuncId → Prop where
  | believed {id : FuncId} {f : Func} (known : m.func? id = some f) (body : f.isDeclaration = false)
      (answer : base.lookup id = some true) : Presumed m base id
  | intro {id : FuncId} {f : Func} (known : m.func? id = some f) (body : f.isDeclaration = false)
      (undecided : base.lookup id = none) (calm : ∀ i ∈ f.instrs, effect m i ≠ .memory)
      (calls : ∀ i ∈ f.instrs, ∀ k, effect m i = .calls k → Presumed m base k) : Presumed m base id

theorem presumed_nil_iff : Presumed m [] id ↔ Silent m id := by
  constructor
  · intro h
    induction h with
    | believed _ _ answer => cases answer
    | intro known body _ calm _ ih => exact .intro known body calm ih
  · intro h
    induction h with
    | intro known body calm _ ih => exact .intro known body rfl calm ih

/-- Whether an effect can be part of such a function. -/
def Calm (m : Module) (base : Memo) : Effect → Prop
  | .silent => True
  | .memory => False
  | .calls k => Presumed m base k

theorem presumed_iff_answer {answer : Bool} (hf : m.func? id = some f)
    (hbody : f.isDeclaration = false)
    (ha : base.lookup id = some answer) : answer = true ↔ Presumed m base id := by
  constructor
  · intro h
    exact .believed hf hbody (h ▸ ha)
  · intro h
    cases h with
    | believed _ _ answer' => exact Option.some.inj (ha.symm.trans answer')
    | intro _ _ undecided => rw [undecided] at ha; cases ha

theorem presumed_iff_calm (hf : m.func? id = some f) (hbody : f.isDeclaration = false)
    (hundecided : base.lookup id = none) :
    Presumed m base id ↔ ∀ e ∈ f.instrs.map (effect m), Calm m base e := by
  constructor
  · intro h e he
    obtain ⟨i, hi, rfl⟩ := List.mem_map.mp he
    cases h with
    | believed _ _ answer => rw [hundecided] at answer; cases answer
    | intro known _ _ calm calls =>
      rw [hf] at known
      cases known
      cases hi' : effect m i with
      | silent => trivial
      | memory => exact calm i hi hi'
      | calls k => exact calls i hi k hi'
  · intro h
    have hcalm : ∀ i ∈ f.instrs, Calm m base (effect m i) :=
      fun i hi => h _ (List.mem_map_of_mem hi)
    refine .intro hf hbody hundecided (fun i hi he => ?_) fun i hi k he => ?_
    · have := hcalm i hi
      rwa [he] at this
    · have := hcalm i hi
      rwa [he] at this

/-- Whether a function that the memo leaves open has a call of another one that is no debug
intrinsic. -/
def Calls (m : Module) (base : Memo) (a b : FuncId) : Prop :=
  base.lookup a = none ∧ ∃ f, m.func? a = some f ∧ .calls b ∈ f.instrs.map (effect m)

/-- A least set holds no cycle. -/
theorem Presumed.acyclic (h : Presumed m base a) : ¬Relation.TransGen (Calls m base) a a := by
  induction h with
  | believed _ _ answer =>
    intro hcycle
    obtain ⟨b, hab, _⟩ := Relation.TransGen.head'_iff.mp hcycle
    rw [hab.1] at answer
    cases answer
  | @intro a f known body undecided calm calls ih =>
    intro hcycle
    obtain ⟨b, hab, hba⟩ := Relation.TransGen.head'_iff.mp hcycle
    have hbb : Relation.TransGen (Calls m base) b b := Relation.TransGen.tail' hba hab
    obtain ⟨_, g, hg, hb⟩ := hab
    rw [known] at hg
    cases hg
    obtain ⟨i, hi, he⟩ := List.mem_map.mp hb
    exact ih i hi b he hbb

/-- Whether a memo has come from another one by answers that follow from it. -/
structure Agrees (m : Module) (base memo : Memo) : Prop where
  keeps : ∀ id answer, base.lookup id = some answer → memo.lookup id = some answer
  right : ∀ id answer, base.lookup id = none → memo.lookup id = some answer →
    (answer = true ↔ Presumed m base id)

theorem Agrees.refl (m : Module) (memo : Memo) : Agrees m memo memo where
  keeps _ _ h := h
  right id answer hnone hsome := by
    rw [hnone] at hsome
    cases hsome

theorem Agrees.cons {answer : Bool} (h : Agrees m base memo) (hundecided : base.lookup a = none)
    (ha : answer = true ↔ Presumed m base a) : Agrees m base ((a, answer) :: memo) := by
  have hlookup : ∀ b, ((a, answer) :: memo).lookup b = if b = a then some answer
      else memo.lookup b := by
    intro b
    rw [List.lookup_cons]
    by_cases hb : b = a
    · simp [hb]
    · rw [beq_false_of_ne hb, if_neg hb]
  constructor
  · intro b c hc
    rw [hlookup]
    split
    · next hb => rw [← hb, hc] at hundecided; cases hundecided
    · exact h.keeps b c hc
  · intro b c hnone hc
    rw [hlookup] at hc
    split at hc
    · next hb =>
      cases hc
      rw [hb]
      exact ha
    · exact h.right b c hnone hc

/-- A list of effects is found calm exactly if it is, provided that calls are decided and none of
the functions being decided is presumed silent. -/
theorem scan_iff {ask : FuncId → Memo → Bool × Memo} {busy : List FuncId} {es : List Effect}
    (hask : ∀ k memo, .calls k ∈ es → Agrees m base memo →
      ((ask k memo).1 = true ↔ Presumed m base k) ∧ Agrees m base (ask k memo).2)
    (hbusy : ∀ k ∈ busy, .calls k ∈ es → ¬Presumed m base k) (hmemo : Agrees m base memo) :
    ((scan ask busy es memo).1 = true ↔ ∀ e ∈ es, Calm m base e) ∧
    Agrees m base (scan ask busy es memo).2 := by
  induction es generalizing memo with
  | nil => exact ⟨by simp [scan], hmemo⟩
  | cons e es ih =>
    have hask' := fun k memo hk => hask k memo (List.mem_cons_of_mem e hk)
    have ih := fun memo (hmemo : Agrees m base memo) =>
      ih hask' (fun k hk he => hbusy k hk (List.mem_cons_of_mem e he)) hmemo
    rw [List.forall_mem_cons]
    cases e with
    | silent =>
      rw [scan]
      exact ⟨(ih memo hmemo).1.trans (and_iff_right trivial).symm, (ih memo hmemo).2⟩
    | memory =>
      rw [scan]
      exact ⟨⟨fun h => absurd h (by simp), fun h => h.1.elim⟩, hmemo⟩
    | calls k =>
      rw [scan]
      have hk : Effect.calls k ∈ Effect.calls k :: es := List.mem_cons_self
      split
      · next hin =>
        have hnot := hbusy k (by simpa using hin) hk
        exact ⟨⟨fun h => absurd h (by simp), fun h => absurd h.1 hnot⟩, hmemo⟩
      · obtain ⟨hanswer, hright⟩ := hask k memo hk hmemo
        cases hres : ask k memo with
        | mk answer memo' =>
          rw [hres] at hanswer hright
          cases answer with
          | true =>
            obtain ⟨hiff, hright⟩ := ih memo' hright
            exact ⟨⟨fun h => ⟨hanswer.mp rfl, hiff.mp h⟩, fun h => hiff.mpr h.2⟩, hright⟩
          | false =>
            refine ⟨⟨fun h => absurd h (by simp), fun h => ?_⟩, hright⟩
            exact absurd (hanswer.mpr h.1) (by simp)

/-- The functions being decided, when one of them asks for `id`: a chain of calls that leads
there. -/
structure Chain (m : Module) (base : Memo) (busy : List FuncId) (id : FuncId) : Prop where
  nodup : busy.Nodup
  known : ∀ b ∈ busy, b ∈ m.known.map Func.id
  calls : ∀ b ∈ busy, Relation.TransGen (Calls m base) b id

theorem Chain.length_le {busy : List FuncId} (h : Chain m base busy id) :
    busy.length ≤ m.known.length := by
  have hle := (List.subperm_of_subset h.nodup h.known).length_le
  rwa [List.length_map] at hle

theorem Chain.cons {busy : List FuncId} (h : Chain m base busy a) (hf : m.func? a = some f)
    (ha : a ∉ busy) (hab : Calls m base a b) : Chain m base (a :: busy) b := by
  have hknown : a ∈ m.known.map Func.id := by
    refine List.mem_map.mpr ⟨f, List.mem_of_find?_eq_some hf, ?_⟩
    simpa using List.find?_some hf
  refine ⟨List.nodup_cons.mpr ⟨ha, h.nodup⟩, ?_, ?_⟩
  · exact List.forall_mem_cons.mpr ⟨hknown, h.known⟩
  · exact List.forall_mem_cons.mpr ⟨.single hab, fun c hc => (h.calls c hc).tail hab⟩

/-- A function that is being decided cannot turn out silent if the last one calls it. -/
theorem Chain.not_presumed {busy : List FuncId} (h : Chain m base busy a) (hab : Calls m base a b)
    (hb : b ∈ a :: busy) : ¬Presumed m base b := by
  intro hs
  rcases List.mem_cons.mp hb with rfl | hb
  · exact hs.acyclic (.single hab)
  · exact hs.acyclic ((h.calls b hb).tail hab)

/-- Every answer is final, also one given while other functions are being decided. -/
theorem decideFunc_iff (fuel : Nat) {busy : List FuncId}
    (hfuel : m.known.length < fuel + busy.length)
    (hchain : Chain m base busy id) (hmemo : Agrees m base memo) :
    ((decideFunc m fuel busy id memo).1 = true ↔ Presumed m base id) ∧
      Agrees m base (decideFunc m fuel busy id memo).2 := by
  induction fuel generalizing busy id memo with
  | zero =>
    -- the chain would be longer than the module
    have hle := hchain.length_le
    omega
  | succ fuel ih =>
    rw [decideFunc]
    cases hf : m.func? id with
    | none =>
      refine ⟨⟨fun h => absurd h (by simp), fun h => ?_⟩, hmemo⟩
      cases h with
      | believed known => rw [hf] at known; cases known
      | intro known => rw [hf] at known; cases known
    | some f =>
      by_cases hbody : f.isDeclaration = true
      · simp only [hbody, if_true]
        refine ⟨⟨fun h => absurd h (by simp), fun h => ?_⟩, hmemo⟩
        cases h with
        | believed known body => rw [hf] at known; cases known; rw [hbody] at body; cases body
        | intro known body => rw [hf] at known; cases known; rw [hbody] at body; cases body
      · simp only [hbody]
        have hbody : f.isDeclaration = false := by simpa using hbody
        cases hlook : memo.lookup id with
        | some answer =>
          cases hbase : base.lookup id with
          | none => exact ⟨hmemo.right id answer hbase hlook, hmemo⟩
          | some answer' =>
            rw [hmemo.keeps id answer' hbase] at hlook
            cases hlook
            exact ⟨presumed_iff_answer hf hbody hbase, hmemo⟩
        | none =>
          have hundecided : base.lookup id = none := by
            cases hbase : base.lookup id with
            | none => rfl
            | some answer => rw [hmemo.keeps id answer hbase] at hlook; cases hlook
          by_cases hbusy : id ∈ busy
          · -- a function that waits for itself is on a cycle
            simp only [List.contains_eq_mem, hbusy, decide_true, if_true]
            refine ⟨⟨fun h => absurd h (by simp), fun h => ?_⟩, hmemo⟩
            exact absurd (hchain.calls id hbusy) h.acyclic
          · simp only [List.contains_eq_mem, hbusy, decide_false]
            have hask : ∀ k memo, .calls k ∈ f.instrs.map (effect m) → Agrees m base memo →
                ((decideFunc m fuel (id :: busy) k memo).1 = true ↔ Presumed m base k) ∧
                  Agrees m base (decideFunc m fuel (id :: busy) k memo).2 := by
              intro k memo hk hmemo
              refine ih ?_ (hchain.cons hf hbusy ⟨hundecided, f, hf, hk⟩) hmemo
              simp only [List.length_cons]
              omega
            have hwait :
                ∀ k ∈ id :: busy, .calls k ∈ f.instrs.map (effect m) → ¬Presumed m base k :=
              fun k hk hcall => hchain.not_presumed ⟨hundecided, f, hf, hcall⟩ hk
            obtain ⟨hiff, hagrees⟩ := scan_iff hask hwait hmemo
            have hanswer := hiff.trans (presumed_iff_calm hf hbody hundecided).symm
            exact ⟨hanswer, hagrees.cons hundecided hanswer⟩

/-- A function that is entered while others are being decided leaves one less to enter. -/
theorem unseen_cons_lt {busy : List FuncId} (hid : id ∈ m.known.map Func.id) (hb : id ∉ busy) :
    unseen (m.known.map Func.id) (id :: busy) < unseen (m.known.map Func.id) busy := by
  apply countP_lt_countP (a := id) _ hid
  · simp
  · simpa using hb
  · intro x _ hx
    simp only [List.contains_eq_mem, List.mem_cons, Bool.not_eq_true', decide_eq_false_iff_not,
      not_or] at hx ⊢
    exact hx.2

/-- A bound above the number of functions left to enter is never reached. -/
theorem decideFunc_eq {n k : Nat} {busy : List FuncId} (hn : unseen (m.known.map Func.id) busy < n)
    (hk : unseen (m.known.map Func.id) busy < k) :
    decideFunc m n busy id memo = decideFunc m k busy id memo := by
  induction n generalizing k busy id memo with
  | zero => omega
  | succ n ih =>
    obtain ⟨k, rfl⟩ := Nat.exists_eq_succ_of_ne_zero (Nat.ne_of_gt (Nat.zero_lt_of_lt hk))
    rw [decideFunc, decideFunc]
    cases hf : m.func? id with
    | none => rfl
    | some f =>
      by_cases hbusy : id ∈ busy
      · simp only [List.contains_eq_mem, hbusy, decide_true, if_true]
      · have hid : id ∈ m.known.map Func.id :=
          List.mem_map.mpr ⟨f, List.mem_of_find?_eq_some hf, by simpa using List.find?_some hf⟩
        have hlt := unseen_cons_lt hid hbusy
        have hsame : decideFunc m n (id :: busy) = decideFunc m k (id :: busy) := by
          funext id' memo'
          exact ih (by omega) (by omega)
        simp only [hsame]

theorem decideFunc_eq_query {n : Nat} (hn : m.known.length < n) :
    decideFunc m n [] id memo = query m id memo := by
  have hle : unseen (m.known.map Func.id) [] ≤ (m.known.map Func.id).length := List.countP_le_length
  rw [List.length_map] at hle
  exact decideFunc_eq (by omega) (by omega)

theorem query_agrees (hmemo : Agrees m base memo) :
    ((query m id memo).1 = true ↔ Presumed m base id) ∧ Agrees m base (query m id memo).2 := by
  refine decideFunc_iff _ ?_ ⟨List.nodup_nil, nofun, nofun⟩ hmemo
  simp

/-- Whether the answers found so far are right. -/
def Right (m : Module) (memo : Memo) : Prop :=
  ∀ id answer, memo.lookup id = some answer → (answer = true ↔ Silent m id)

theorem right_nil (m : Module) : Right m [] := nofun

theorem right_iff_agrees : Right m memo ↔ Agrees m [] memo := by
  simp only [Right, ← presumed_nil_iff]
  constructor
  · exact fun h => ⟨nofun, fun id answer _ ha => h id answer ha⟩
  · exact fun h id answer ha => h.right id answer rfl ha

theorem query_iff (hmemo : Right m memo) :
    ((query m id memo).1 = true ↔ Silent m id) ∧ Right m (query m id memo).2 := by
  rw [right_iff_agrees] at hmemo ⊢
  rw [← presumed_nil_iff]
  exact query_agrees hmemo

/-- What an instruction does to memory, if no function is a debug intrinsic. -/
def access (i : Instr) : Effect :=
  match i.op with
  | .load | .store => .memory
  | .call =>
    match i.callee? with
    | some id => .calls id
    | none => .memory
  | _ => .silent

theorem effect_eq_of_access {i j : Instr} (h : access i = access j) : effect m i = effect m j := by
  have heffect : ∀ i, effect m i = match access i with
      | .calls id =>
        if (m.func? id).any fun f => f.intrinsic.isDebugInfo then .silent else .calls id
      | e => e := by
    intro i
    cases hop : i.op with
    | call =>
      cases hcallee : i.callee? with
      | none => simp only [effect, access, hop, hcallee]
      | some id => simp only [effect, access, hop, hcallee]
    | _ => simp only [effect, access, hop]
  rw [heffect, heffect, h]

theorem effect_of_access {i : Instr} (h : access i = .silent) : effect m i = .silent := by
  cases hop : i.op with
  | call =>
    cases hcallee : i.callee? with
    | none => simp [access, hop, hcallee] at h
    | some id => simp [access, hop, hcallee] at h
  | load => simp [access, hop] at h
  | store => simp [access, hop] at h
  | _ => simp only [effect, hop]

/-- What the purity of a function depends on: not on the order of its instructions, nor on those
that have nothing to do with memory. -/
def outline (f : Func) : Bool × Intrinsic × Set Effect :=
  (f.isDeclaration, f.intrinsic, fun e => e ≠ .silent ∧ ∃ i ∈ f.instrs, access i = e)

section Outline

variable {m' : Module} (h : ∀ id, (m'.func? id).map outline = (m.func? id).map outline)

include h

theorem effect_of_outline (i : Instr) : effect m' i = effect m i := by
  have hany : ∀ id, ((m'.func? id).any fun f => f.intrinsic.isDebugInfo) =
      (m.func? id).any fun f => f.intrinsic.isDebugInfo := by
    intro id
    have hmap : ∀ m : Module, ((m.func? id).any fun f => f.intrinsic.isDebugInfo) =
        ((m.func? id).map outline).any fun e => e.2.1.isDebugInfo := by
      intro m
      cases m.func? id with
      | none => rfl
      | some f => rfl
    rw [hmap m', hmap m, h]
  simp only [effect, hany]

theorem Presumed.of_outline (hs : Presumed m base id) : Presumed m' base id := by
  have hfunc : ∀ {id f}, m.func? id = some f →
      ∃ g, m'.func? id = some g ∧ g.isDeclaration = f.isDeclaration ∧
      ∀ i ∈ g.instrs, effect m' i ≠ .silent → ∃ j ∈ f.instrs, effect m j = effect m' i := by
    intro id f known
    have hmap : (m'.func? id).map outline = some (outline f) := by rw [h, known]; rfl
    obtain ⟨g, hg, heq⟩ := Option.map_eq_some_iff.mp hmap
    refine ⟨g, hg, congrArg Prod.fst heq, fun i hi hne => ?_⟩
    have hset : (outline g).2.2 (access i) := ⟨fun hi => hne (effect_of_access hi), i, hi, rfl⟩
    rw [heq] at hset
    obtain ⟨_, j, hj, haccess⟩ := hset
    exact ⟨j, hj, (effect_eq_of_access haccess).trans (effect_of_outline h i).symm⟩
  induction hs with
  | believed known body answer =>
    obtain ⟨g, hg, hbody, _⟩ := hfunc known
    exact .believed hg (hbody.trans body) answer
  | intro known body undecided calm calls ih =>
    obtain ⟨g, hg, hbody, heffect⟩ := hfunc known
    refine .intro hg (hbody.trans body) undecided (fun i hi he => ?_) fun i hi k he => ?_
    · obtain ⟨j, hj, hji⟩ := heffect i hi (by rw [he]; nofun)
      exact calm j hj (hji.trans he)
    · obtain ⟨j, hj, hji⟩ := heffect i hi (by rw [he]; nofun)
      exact ih j hj k (hji.trans he)

theorem presumed_of_outline : Presumed m' base = Presumed m base := by
  funext id
  exact propext ⟨Presumed.of_outline fun id => (h id).symm, Presumed.of_outline h⟩

theorem silent_of_outline : Silent m' = Silent m := by
  funext id
  rw [← presumed_nil_iff, ← presumed_nil_iff, presumed_of_outline h]

theorem Agrees.of_outline (hmemo : Agrees m base memo) : Agrees m' base memo := by
  refine ⟨hmemo.keeps, ?_⟩
  rw [presumed_of_outline h]
  exact hmemo.right

theorem Right.of_outline (hmemo : Right m memo) : Right m' memo := by
  rw [Right, silent_of_outline h]
  exact hmemo

end Outline

end KernelIR.Purity

namespace KernelIR

open Purity

variable {m m' : Module} {i : Instr} {base memo : Memo}

theorem Module.isMemoryPure_iff {id : FuncId} : m.isMemoryPure id = true ↔ Silent m id :=
  (query_iff (right_nil m)).1

/-- One question on a memo of right answers is answered as on an empty one. -/
theorem Purity.query_eq {id : FuncId} (hmemo : Right m memo) :
    (query m id memo).1 = m.isMemoryPure id := by
  rw [Bool.eq_iff_iff, (query_iff hmemo).1, Module.isMemoryPure_iff]

theorem agrees_canHoist (hmemo : Agrees m base memo) : Agrees m base (canHoist m i memo).2 := by
  cases hop : i.op with
  | call =>
    cases hcallee : i.callee? with
    | none => simpa [canHoist, hop, hcallee] using hmemo
    | some id => simpa [canHoist, hop, hcallee] using (query_agrees hmemo).2
  | _ => simpa [canHoist, hop] using hmemo

/-- What may be moved stays the same while answers are found and instructions change places. -/
theorem canHoist_eq (hmemo : Agrees m base memo)
    (h : ∀ id, (m'.func? id).map outline = (m.func? id).map outline) :
    (canHoist m' i memo).1 = (canHoist m i base).1 := by
  cases hop : i.op with
  | call =>
    cases hcallee : i.callee? with
    | none => simp [canHoist, hop, hcallee]
    | some id =>
      have hquery : (query m' id memo).1 = (query m id base).1 := by
        rw [Bool.eq_iff_iff, (query_agrees (hmemo.of_outline h)).1,
          (query_agrees (Agrees.refl m base)).1, presumed_of_outline h]
      simpa [canHoist, hop, hcallee] using hquery
  | _ => simp [canHoist, hop]

end KernelIR
