import KernelIR.Proofs.Consistent
import KernelIR.Proofs.Description.Realization

namespace KernelIR

/-- The descriptions of the instructions of a function, in block order. -/
def FuncSpec.instrs (s : FuncSpec) : List InstrSpec := s.blocks.flatMap BlockSpec.instrs

/-- Whether a value is the result of an instruction at place `n` or later that is described without
a type. -/
def FuncSpec.Pending (s : FuncSpec) (f : Func) (n : Nat) (v : Value) : Prop :=
  ∃ p t j, n ≤ p ∧ s.instrs[p]? = some t ∧ t.type = "" ∧ f.instrs[p]? = some j ∧ v = .instr j.id

theorem FuncSpec.pending_iff {s : FuncSpec} {f : Func} (hids : (f.instrs.map Instr.id).Nodup)
    {n p : Nat} {t : InstrSpec} {j : Instr} (ht : s.instrs[p]? = some t)
    (hj : f.instrs[p]? = some j) :
    s.Pending f n (.instr j.id) ↔ n ≤ p ∧ t.type = "" := by
  constructor
  · intro h
    obtain ⟨q, u, i, hq, hu, htype, hi, hij⟩ := h
    have hlt : p < (f.instrs.map Instr.id).length := by
      rw [List.length_map]
      exact (List.getElem?_eq_some_iff.mp hj).1
    have hpq : p = q := by
      apply (List.getElem?_inj hlt hids).mp
      rw [List.getElem?_map, List.getElem?_map, hj, hi]
      exact congrArg some (Value.instr.inj hij)
    subst hpq
    rw [ht, Option.some.injEq] at hu
    exact ⟨hq, hu ▸ htype⟩
  · intro h
    exact ⟨p, t, j, h.1, ht, h.2, hj, rfl⟩

theorem FuncDraft.Follows.instrs {s : FuncSpec} {d : FuncDraft} (h : d.Follows s) :
    List.Forall₂ Draft.Follows s.instrs d.bodies.flatten := by
  rw [FuncSpec.instrs, List.flatMap]
  exact List.rel_flatten (List.forall₂_map_left_iff.mpr h.bodies)

namespace Description

theorem readResultType_eq_none {op : Opcode} {text : String} {ty? : Option Ty}
    (h : readResultType op text = .ok ty?) :
    ty? = none ↔ text = "" := by
  rw [readResultType] at h
  by_cases htext : text = ""
  · rw [if_pos htext] at h
    obtain ⟨described, hdescribed, h⟩ := bind_eq_ok.mp h
    cases hdescribed
    dsimp only at h
    split at h
    · simp at h
    · contradiction
    · rw [← Except.ok.inj h]
      simp [htext]
  · rw [if_neg htext] at h
    obtain ⟨described, hdescribed, h⟩ := bind_eq_ok.mp h
    have hsome : described ≠ none := by
      intro hnone
      cases ht : readType text with
      | error e => simp [ht, Except.map] at hdescribed
      | ok t => simp [ht, Except.map, hnone] at hdescribed
    dsimp only at h
    split at h
    · contradiction
    · rw [← Except.ok.inj h]
      simp [htext]
    · rw [← Except.ok.inj h]
      simp [htext, hsome]

/-- An instruction is resolved with the types of those before it and the described types of all. -/
theorem ResolvesAll.exists_resolves {m : Module} {d : FuncDraft} {types : TypeTable}
    {drafts : List Draft} {is : List Instr} (h : ResolvesAll m d types drafts is) {n : Nat}
    {draft : Draft} (hn : drafts[n]? = some draft) :
    ∃ i, is[n]? = some i ∧ Resolves m d (typesOf (is.take n) ++ types) draft i := by
  induction h generalizing n with
  | nil => simp at hn
  | cons first _ ih =>
    cases n with
    | zero =>
      rw [List.getElem?_cons_zero, Option.some.injEq] at hn
      exact ⟨_, List.getElem?_cons_zero, hn ▸ first⟩
    | succ n =>
      obtain ⟨i, hi, hres⟩ := ih hn
      refine ⟨i, hi, ?_⟩
      simpa [typesOf] using hres

theorem lookup_describedTypes {d : FuncDraft} (hn : (d.bodies.flatten.map Draft.id).Nodup)
    {draft : Draft} (hd : draft ∈ d.bodies.flatten) :
    (describedTypes d).lookup draft.id = draft.ty? := by
  have hmem : ∀ e, e ∈ describedTypes d ↔
      ∃ x ∈ d.bodies.flatten, ∃ t, x.ty? = some t ∧ (x.id, t) = e := by
    intro e
    simp only [describedTypes, List.mem_filterMap, Option.map_eq_some_iff]
  have hkeys : ((describedTypes d).map Prod.fst).Nodup := by
    rw [List.Nodup, List.pairwise_map, describedTypes, List.pairwise_filterMap]
    refine (List.pairwise_map.mp hn).imp fun hne e he e' he' => ?_
    obtain ⟨_, _, rfl⟩ := Option.map_eq_some_iff.mp he
    obtain ⟨_, _, rfl⟩ := Option.map_eq_some_iff.mp he'
    exact hne
  cases hty : draft.ty? with
  | some t => exact lookup_eq_of_mem hkeys ((hmem _).mpr ⟨draft, hd, t, hty, rfl⟩)
  | none =>
    apply lookup_eq_none_of_not_mem
    intro hid
    obtain ⟨e, he, heid⟩ := List.mem_map.mp hid
    obtain ⟨x, hx, t, ht, rfl⟩ := (hmem e).mp he
    have hxd : x = draft := List.inj_on_of_nodup_map hn hx hd heid
    rw [hxd, hty] at ht
    simp at ht

namespace Loads

variable {spec : ModuleSpec} {m declared : Module} {ds : List FuncDraft} {s : FuncSpec}
  {d : FuncDraft} {f : Func}

theorem known_eq (h : Loads spec declared ds m) : m.known = m.functions := by
  rw [Module.known, h.dropped, List.append_nil]

theorem exists_draft (h : Loads spec declared ds m) (hf : f ∈ m.known) :
    ∃ s d, d.Follows s ∧ ResolvesFunc declared d f := by
  rw [h.known_eq] at hf
  obtain ⟨s, _, d, _, hs, hd⟩ := exists_of_mem_right (forall₂_trans h.follows h.resolves) hf
  exact ⟨s, d, hs, hd⟩

/-- The instructions of a function are numbered in order. -/
theorem ids_instrs (hs : d.Follows s) (hf : ResolvesFunc declared d f) :
    f.instrs.map Instr.id = (List.range f.instrs.length).map (InstrId.mk f.id) := by
  have hids : d.bodies.flatten.map Draft.id = f.instrs.map Instr.id := by
    simpa [Function.comp_def] using congrArg (List.map Prod.snd) hf.results
  rw [← hids, hs.ids, hf.id, hf.instrs.forall₂.length_eq]

theorem held_eq (hs : d.Follows s) (hf : ResolvesFunc declared d f) : f.held = f.instrs := by
  rw [Func.held, hf.loose, hs.loose, List.append_nil]

theorem id_of_mem (hs : d.Follows s) (hf : ResolvesFunc declared d f) {i : Instr}
    (hi : i ∈ f.instrs) :
    i.id.home = f.id ∧ i.id.serial < f.nextSerial := by
  have hserial : f.nextSerial = f.instrs.length := by
    rw [hf.nextSerial, hs.nextSerial, hf.instrs.forall₂.length_eq]
  have hmem : i.id ∈ f.instrs.map Instr.id := List.mem_map_of_mem hi
  rw [ids_instrs hs hf] at hmem
  obtain ⟨n, hn, hni⟩ := List.mem_map.mp hmem
  rw [← hni, hserial]
  exact ⟨rfl, List.mem_range.mp hn⟩

theorem nodup_ids (hs : d.Follows s) (hf : ResolvesFunc declared d f) :
    (f.instrs.map Instr.id).Nodup := by
  rw [ids_instrs hs hf]
  exact List.nodup_range.map fun a b hab => (InstrId.mk.inj hab).2

theorem reads_mem (h : Loads spec declared ds m) (hs : d.Follows s) (hf : ResolvesFunc declared d f)
    {i : Instr} (hi : i ∈ f.instrs) {e : InstrId} (he : .instr e ∈ i.operands) :
    ∃ j ∈ f.instrs, j.id = e := by
  obtain ⟨draft, _, types, hdraft⟩ := exists_of_mem_right hf.instrs.forall₂ hi
  obtain ⟨text, _, htext⟩ := exists_of_mem_right hdraft.operands he
  exact ((h.readOperand_eq_ok hs hf).mp htext).exists_result

/-- What is loaded is recorded. -/
theorem recorded (hs : d.Follows s) (hf : ResolvesFunc declared d f) : f.Recorded where
  parents := by
    rw [show f.parents = f.places by nth_rewrite 1 [hf.func]; rfl]
  blocks k hk := by
    have hmem : k.parent ∈ d.func.blocks.map Block.parent := hf.homes ▸ List.mem_map_of_mem hk
    obtain ⟨j, hj, hjk⟩ := List.mem_map.mp hmem
    rw [← hjk, hs.parents j hj, hf.id]

/-- No number is given twice in a module that is loaded. -/
theorem consistent (h : Loads spec declared ds m) : m.Consistent := by
  have hids : m.known.map Func.id = List.range m.known.length := by
    have hsame : ds.map (fun d => d.func.id) = m.functions.map Func.id :=
      map_eq_of_forall₂ h.resolves fun d f hf => hf.id.symm
    rw [h.known_eq, ← hsame, h.ids, h.resolves.length_eq]
  have hfuncs : (m.known.map Func.id).Nodup := hids ▸ List.nodup_range
  refine ⟨hfuncs, ?_, ?_, ?_, ?_, ?_⟩
  · intro f hf
    obtain ⟨s, d, hs, hd⟩ := h.exists_draft hf
    rw [held_eq hs hd]
    exact nodup_ids hs hd
  · intro f hf g hg hne i hi j hj hij
    obtain ⟨s, d, hs, hd⟩ := h.exists_draft hf
    obtain ⟨s', d', hs', hd'⟩ := h.exists_draft hg
    rw [held_eq hs hd] at hi
    rw [held_eq hs' hd'] at hj
    apply hne
    rw [← (id_of_mem hs hd hi).1, hij, (id_of_mem hs' hd' hj).1]
  · -- Operands are instructions of the same function, so the function of that number is this one.
    intro f hf g hg i hi e he hhome
    obtain ⟨s, d, hs, hd⟩ := h.exists_draft hg
    rw [held_eq hs hd] at hi
    have hresult : ∃ j ∈ g.instrs, j.id = e := by
      cases List.mem_cons.mp he with
      | inl he => exact ⟨i, hi, he.symm⟩
      | inr he =>
        obtain ⟨v, hv, hve⟩ := List.mem_filterMap.mp he
        cases v with
        | instr e' =>
          rw [Value.instr?, Option.some.injEq] at hve
          exact h.reads_mem hs hd hi (hve ▸ hv)
        | _ => simp [Value.instr?] at hve
    obtain ⟨j, hj, rfl⟩ := hresult
    obtain ⟨hjhome, hjserial⟩ := id_of_mem hs hd hj
    have hfg : f = g := List.inj_on_of_nodup_map hfuncs hf hg (hhome.symm.trans hjhome)
    exact hfg ▸ hjserial
  · intro f hf k hk
    obtain ⟨s, d, hs, hd⟩ := h.exists_draft hf
    have hmem : k.id ∈ f.blocks.map Block.id := List.mem_map_of_mem hk
    rw [hd.numbers, hs.numbers, List.mem_range'_1] at hmem
    rw [hd.maxBlock, hs.maxBlock]
    exact Nat.le_of_lt_succ (Nat.one_add _ ▸ hmem.2)
  · intro f hf
    obtain ⟨s, d, hs, hd⟩ := h.exists_draft hf
    exact recorded hs hd

/-- The name and type of a function are those it was declared with. -/
theorem scope_func_eq (h : Loads spec declared ds m) (id : FuncId) :
    declared.scope.func id = m.scope.func id := by
  have hscope : ∀ m :
      Module, m.scope.func id = ((m.func? id).map fun f => (f.name, f.ty)).getD ("", .void) := by
    intro m
    simp only [Module.scope]
    cases m.func? id with
    | none => rfl
    | some f => rfl
  have hfind : (declared.func? id).map (fun f => (f.name, f.ty)) = (m.func? id).map fun f =>
      (f.name, f.ty) := by
    rw [Module.func?, Module.func?, h.known_eq, Module.known, h.known, h.functions, List.append_nil]
    have hsame : List.Forall₂ (fun g f => f.id = g.id ∧ f.name = g.name ∧ f.ty = g.ty)
        (ds.map FuncDraft.func)
        m.functions :=
      List.forall₂_map_left_iff.mpr (h.resolves.imp fun d f hf => ⟨hf.id, hf.name, hf.ty⟩)
    refine map_find?_eq hsame fun g f hgf => ?_
    rw [hgf.1, hgf.2.1, hgf.2.2]
    exact ⟨rfl, rfl⟩
  rw [hscope, hscope, hfind]

/-- What is known of the type of an instruction when the one at place `n` is resolved. -/
theorem lookup_known (hs : d.Follows s) (hf : ResolvesFunc declared d f) {n p : Nat} {t : InstrSpec}
    {j : Instr} (ht : s.instrs[p]? = some t) (hj : f.instrs[p]? = some j) :
    (typesOf (f.instrs.take n) ++ describedTypes d).lookup j.id = if n ≤ p ∧ t.type = "" then none
    else some j.ty := by
  obtain ⟨draft, hdraft, hfollows⟩ := exists_getElem?_right hs.instrs ht
  obtain ⟨j', hj', hres⟩ := hf.instrs.exists_resolves hdraft
  rw [hj, Option.some.injEq] at hj'
  subst hj'
  have hids := nodup_ids hs hf
  have hdrafts : d.bodies.flatten.map Draft.id = f.instrs.map Instr.id :=
    map_eq_of_forall₂ hf.instrs.forall₂ fun draft i hi => hi.choose_spec.id.symm
  have hdescribed : (describedTypes d).lookup j.id = draft.ty? := by
    rw [hres.id]
    exact lookup_describedTypes (hdrafts ▸ hids) (List.mem_of_getElem? hdraft)
  have hnone : draft.ty? = none ↔ t.type = "" := readResultType_eq_none hfollows.type
  have hsettled : ∀ t₀, draft.ty? = some t₀ → j.ty = t₀ := by
    intro t₀ ht₀
    have hcheck := hres.check
    rw [ht₀] at hcheck
    exact checkInstr_described hcheck
  have hkeys :
      (typesOf (f.instrs.take n)).map Prod.fst = ((f.instrs.map Instr.id).take n).reverse := by
    simp [typesOf, Function.comp_def]
  rw [List.lookup_append]
  -- Types that are settled come first in the table, so what is described counts only from place `n`
  -- on.
  by_cases hn : n ≤ p
  · have hlater : (typesOf (f.instrs.take n)).lookup j.id = none := by
      apply lookup_eq_none_of_not_mem
      rw [hkeys, List.mem_reverse]
      intro hmem
      have hdrop : j.id ∈ (f.instrs.map Instr.id).drop n := by
        apply List.mem_of_getElem? (i := p - n)
        rw [List.getElem?_drop, Nat.add_sub_of_le hn, List.getElem?_map, hj]
        rfl
      exact List.disjoint_take_drop hids le_rfl hmem hdrop
    rw [hlater, Option.none_or, hdescribed]
    cases hty : draft.ty? with
    | none => simp [hn, hnone.mp hty]
    | some t₀ =>
      have htype : t.type ≠ "" := fun h => absurd (hnone.mpr h) (by simp [hty])
      simp [htype, hsettled t₀ hty]
  · have hearlier : (typesOf (f.instrs.take n)).lookup j.id = some j.ty := by
      apply lookup_eq_of_mem
      · rw [hkeys, List.nodup_reverse]
        exact hids.sublist (List.take_sublist n _)
      · rw [typesOf, List.mem_reverse]
        refine List.mem_map.mpr ⟨j, ?_, rfl⟩
        have hp : (f.instrs.take n)[p]? = some j := by
          rw [List.getElem?_take_of_lt (Nat.lt_of_not_le hn), hj]
        exact List.mem_of_getElem? hp
    rw [hearlier]
    simp [hn]

/-- A value has its final type in the middle of a function already, unless that type is pending. -/
theorem ty_eq_of_not_pending (h : Loads spec declared ds m) (hs : d.Follows s)
    (hf : ResolvesFunc declared d f)
    (hmem : f ∈ m.functions) {n : Nat} {i : Instr} (hi : i ∈ f.instrs) {v : Value}
    (hv : v ∈ i.operands) :
    (¬s.Pending f n v → v.ty (scopeWith declared (typesOf (f.instrs.take n) ++ describedTypes d)) =
      v.ty m.scope) ∧ (s.Pending f n v →
      v.ty (scopeWith declared (typesOf (f.instrs.take n) ++ describedTypes d)) = .void) := by
  cases v with
  | int | float | param | global =>
    refine ⟨fun _ => rfl, ?_⟩
    intro hp
    obtain ⟨_, _, _, _, _, _, _, hv⟩ := hp
    cases hv
  | func id =>
    refine ⟨fun _ => congrArg Prod.snd (h.scope_func_eq id), ?_⟩
    intro hp
    obtain ⟨_, _, _, _, _, _, _, hv⟩ := hp
    cases hv
  | instr e =>
    obtain ⟨j, hj, rfl⟩ := h.reads_mem hs hf hi hv
    obtain ⟨p, hp⟩ := List.getElem?_of_mem hj
    have hlength : s.instrs.length = f.instrs.length :=
      hs.instrs.length_eq.trans hf.instrs.forall₂.length_eq
    have hlt : p < s.instrs.length := hlength ▸ (List.getElem?_eq_some_iff.mp hp).1
    have ht := List.getElem?_eq_getElem hlt
    have hlookup := lookup_known (n := n) hs hf ht hp
    have hscope : (m.scope.instr j.id).2 = j.ty := by
      have hknown : f ∈ m.known := h.known_eq ▸ hmem
      have hinstr : m.instr? j.id = some j :=
        h.consistent.instr?_iff.mpr ⟨f, hknown, held_eq hs hf ▸ hj, rfl⟩
      simp only [Module.scope, hinstr]
    have hread :
        (Value.instr j.id).ty (scopeWith declared (typesOf (f.instrs.take n) ++ describedTypes d)) =
        if n ≤ p ∧ s.instrs[p].type = "" then .void else j.ty := by
      simp only [Value.ty, scopeWith, hlookup]
      split
      · rfl
      · rfl
    rw [FuncSpec.pending_iff (nodup_ids hs hf) ht hp, hread]
    refine ⟨?_, fun hpending => if_pos hpending⟩
    intro hpending
    rw [if_neg hpending]
    exact hscope.symm

end Loads

end Description

namespace Module

/-- An instruction that is described without a type takes that of its operand, wherever the operand
is defined, unless the type of the operand is left to inference too and the operand comes later:
then it is void. -/
theorem ofSpec_infers_types {spec : ModuleSpec} {m : Module} (h : ofSpec spec = .ok m) {a : Nat}
    {s : FuncSpec} {f : Func} (hs : spec.functions[a]? = some s) (hf : m.functions[a]? = some f)
    {n : Nat} {t : InstrSpec} {i : Instr}
    (ht : s.instrs[n]? = some t) (hi : f.instrs[n]? = some i) (htype : t.type = "") {k : Nat}
    (hk : i.op.typeSource? = some k) :
    ∃ v, i.operands[k]? = some v ∧ (¬s.Pending f n v → i.ty = v.ty m.scope) ∧
      (s.Pending f n v → i.ty = .void) := by
  obtain ⟨declared, ds, hload⟩ := Description.Loads.of_ofSpec h
  obtain ⟨d, hd, hsd⟩ := exists_getElem?_right hload.follows hs
  obtain ⟨f', hf', hdf⟩ := exists_getElem?_right hload.resolves hd
  rw [hf, Option.some.injEq] at hf'
  subst hf'
  obtain ⟨draft, hdraft, hfollows⟩ := exists_getElem?_right hsd.instrs ht
  obtain ⟨i', hi', hres⟩ := hdf.instrs.exists_resolves hdraft
  rw [hi, Option.some.injEq] at hi'
  subst hi'
  have hcheck := hres.check
  rw [(Description.readResultType_eq_none hfollows.type).mpr htype] at hcheck
  obtain ⟨v, hv, hty⟩ := Description.checkInstr_inferred hcheck hk
  have hknown :=
    hload.ty_eq_of_not_pending (n := n) hsd hdf (List.mem_of_getElem? hf) (List.mem_of_getElem? hi)
      (List.mem_of_getElem? hv)
  rw [← hty] at hknown
  exact ⟨v, hv, hknown⟩

/-- A sum in a block listed before the one that computes its operand. Both are described without a
type. -/
def useBeforeDefinition : ModuleSpec where
  functions := [
    { name := "f", ret := "i32", params := [⟨"x", "i32"⟩]
      blocks := [
        ⟨"entry", [{ op := "br", targets := ["late"] }]⟩,
        ⟨"use", [
          { name := "a", op := "add", args := ["%b", "i32 1"] },
          { op := "ret", args := ["%a"] }]⟩,
        ⟨"late", [
          { name := "b", op := "add", args := ["%x", "i32 1"] },
          { op := "br", targets := ["use"] }]⟩] }]

theorem useBeforeDefinition_infers_types :
    ∃ (m : Module) (s : FuncSpec) (f : Func) (i : Instr) (v : Value),
    ofSpec useBeforeDefinition = .ok m ∧ useBeforeDefinition.functions[0]? = some s ∧
    m.functions[0]? = some f ∧ f.instrs[1]? = some i ∧
      i.op.typeSource? = some 0 ∧ i.operands[0]? = some v ∧
      (¬s.Pending f 1 v → i.ty = v.ty m.scope) ∧ (s.Pending f 1 v → i.ty = .void) := by
  have hread : ((ofSpec useBeforeDefinition).toOption.bind fun m : Module =>
      m.functions[0]?.bind fun f : Func =>
      f.instrs[1]?.map fun i : Instr => i.op.typeSource?) = some (some 0) := by decide +kernel
  obtain ⟨m, hm, hread⟩ := Option.bind_eq_some_iff.mp hread
  obtain ⟨f, hf, hread⟩ := Option.bind_eq_some_iff.mp hread
  obtain ⟨i, hi, hk⟩ := Option.map_eq_some_iff.mp hread
  have hok : ofSpec useBeforeDefinition = .ok m := Description.toOption_eq_some.mp hm
  obtain ⟨v, hv, hty⟩ := ofSpec_infers_types hok rfl hf rfl hi rfl hk
  exact ⟨m, _, f, i, v, hok, rfl, hf, hi, hk, hv, hty⟩

/-- The type that is inferred is not that of the operand. -/
theorem useBeforeDefinition_not_inferred :
    ∃ (m : Module) (f : Func) (i : Instr) (v : Value), ofSpec useBeforeDefinition = .ok m ∧
    m.functions[0]? = some f ∧ f.instrs[1]? = some i ∧ i.operands[0]? = some v ∧
      i.ty.text = "void" ∧ (v.ty m.scope).text = "i32" := by
  have hread : ((ofSpec useBeforeDefinition).toOption.bind fun m : Module =>
      m.functions[0]?.bind fun f : Func =>
      f.instrs[1]?.bind fun i : Instr =>
        i.operands[0]?.map fun v : Value => (i.ty.text, (v.ty m.scope).text)) =
      some ("void", "i32") := by decide +kernel
  obtain ⟨m, hm, hread⟩ := Option.bind_eq_some_iff.mp hread
  obtain ⟨f, hf, hread⟩ := Option.bind_eq_some_iff.mp hread
  obtain ⟨i, hi, hread⟩ := Option.bind_eq_some_iff.mp hread
  obtain ⟨v, hv, htexts⟩ := Option.map_eq_some_iff.mp hread
  rw [Prod.mk.injEq] at htexts
  exact ⟨m, f, i, v, Description.toOption_eq_some.mp hm, hf, hi, hv, htexts⟩

end Module

end KernelIR
