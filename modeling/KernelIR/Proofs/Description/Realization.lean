import KernelIR.Proofs.Description.Resolution
import KernelIR.Proofs.Ssa
import Mathlib.Data.List.Forall2
import Mathlib.Data.List.Nodup

namespace KernelIR

/-- What the text of an operand stands for in a function of a module. A later parameter hides an
earlier one of the same name. -/
inductive Denotes (m : Module) (f : Func) : List Char → Value → Prop where
  | param {before after : List Param} {p : Param} (hparams : f.params = before ++ p :: after)
      (hlast : ∀ q ∈ after, q.name ≠ p.name) : Denotes m f ('%' :: p.name.toList) (.param p)
  | result {i : Instr} (hi : i ∈ f.instrs) (hname : i.name ≠ "") :
    Denotes m f ('%' :: i.name.toList) (.instr i.id)
  | func {g : Func} (hg : g ∈ m.functions) : Denotes m f ('@' :: g.name.toList) (.func g.id)
  | global {g : Global} (hg : g ∈ m.globals) : Denotes m f ('@' :: g.name.toList) (.global g)
  | constant {text : List Char} {v : Value} (hspells : Description.Spells text v)
      (hstart : ∀ c ∈ text.head?, c ≠ '%' ∧ c ≠ '@') : Denotes m f text v

/-- The block of a function that has a name. -/
def Func.BlockNamed (f : Func) (name : String) (b : BlockRef) : Prop :=
  ∃ k ∈ f.blocks, k.name = name ∧ b = f.ref k.id

/-- Whether an instruction of a function is the one described: each text stands for the operand or
block in its place and for no other. -/
structure InstrSpec.RealizedBy (m : Module) (f : Func) (s : InstrSpec) (i : Instr) : Prop where
  name : i.name = s.name
  op : i.op.text = if s.op = "br" ∧ s.targets.length = 2 then "condbr" else s.op
  pred : i.pred.text = s.pred
  operands : List.Forall₂ (fun text v => ∀ w, Denotes m f (Text.trim text.toList) w ↔
    w = v) s.args i.operands
  targets : List.Forall₂ (fun name b => ∀ c, f.BlockNamed name c ↔ c = b) s.targets i.targets
  sources : List.Forall₂ (fun name b => ∀ c, f.BlockNamed name c ↔ c = b) s.sources i.incoming
  complete : i.Complete

structure BlockSpec.RealizedBy (m : Module) (f : Func) (s : BlockSpec) (k : Block) : Prop where
  name : k.name = s.name
  instrs : List.Forall₂ (InstrSpec.RealizedBy m f) s.instrs k.instrs
  ended : ∃ t, k.instrs.getLast? = some t ∧ t.op.isTerminator = true

structure FuncSpec.RealizedBy (m : Module) (s : FuncSpec) (f : Func) : Prop where
  name : f.name = s.name
  params :
    List.Forall₂ (fun p q => q.name = p.name ∧ Ty.read p.type.toList = .ok q.ty) s.params f.params
  blocks : List.Forall₂ (BlockSpec.RealizedBy m f) s.blocks f.blocks
  labels : (f.blocks.map Block.name).Nodup
  results : ((f.instrs.map fun i => i.name).filter fun n => n ≠ "").Nodup
  apart : ∀ i ∈ f.instrs, i.name ≠ "" → ∀ p ∈ f.params, i.name ≠ p.name

/-- Whether a module is the one described. -/
structure ModuleSpec.RealizedBy (spec : ModuleSpec) (m : Module) : Prop where
  symbols : m.symbols.Nodup
  globals : List.Forall₂
    (fun s g => g.name = s.name ∧ Ty.read s.type.toList = .ok g.ty) spec.globals m.globals
  functions : List.Forall₂ (FuncSpec.RealizedBy m) spec.functions m.functions

namespace Denotes

variable {m : Module} {f : Func} {text : List Char} {v : Value}

theorem percent_iff : Denotes m f ('%' :: text) v ↔
    (∃ i ∈ f.instrs, i.name = String.ofList text ∧ String.ofList text ≠ "" ∧ v = .instr i.id) ∨
      ∃ before p after, f.params = before ++ p :: after ∧ p.name = String.ofList text ∧
        (∀ q ∈ after, q.name ≠ String.ofList text) ∧ v = .param p := by
  constructor
  · intro h
    cases h with
    | param hparams hlast => exact Or.inr ⟨_, _, _, hparams, by simp, by simpa using hlast, rfl⟩
    | result hi hname => exact Or.inl ⟨_, hi, by simp, by simpa using hname, rfl⟩
    | constant _ hstart => simp at hstart
  · intro h
    cases h with
    | inl h =>
      obtain ⟨i, hi, hname, hne, rfl⟩ := h
      have htext : text = i.name.toList := by rw [hname, String.toList_ofList]
      rw [htext]
      exact .result hi (hname ▸ hne)
    | inr h =>
      obtain ⟨before, p, after, hparams, hname, hlast, rfl⟩ := h
      have htext : text = p.name.toList := by rw [hname, String.toList_ofList]
      rw [htext]
      exact .param hparams (hname ▸ hlast)

theorem at_iff : Denotes m f ('@' :: text) v ↔
    (∃ g ∈ m.functions, g.name = String.ofList text ∧ v = .func g.id) ∨
      ∃ g ∈ m.globals, g.name = String.ofList text ∧ v = .global g := by
  constructor
  · intro h
    cases h with
    | func hg => exact Or.inl ⟨_, hg, by simp, rfl⟩
    | global hg => exact Or.inr ⟨_, hg, by simp, rfl⟩
    | constant _ hstart => simp at hstart
  · intro h
    cases h with
    | inl h =>
      obtain ⟨g, hg, hname, rfl⟩ := h
      have htext : text = g.name.toList := by rw [hname, String.toList_ofList]
      exact htext ▸ .func hg
    | inr h =>
      obtain ⟨g, hg, hname, rfl⟩ := h
      have htext : text = g.name.toList := by rw [hname, String.toList_ofList]
      exact htext ▸ .global hg

theorem constant_iff (hstart : ∀ c ∈ text.head?, c ≠ '%' ∧ c ≠ '@') :
    Denotes m f text v ↔ Description.Spells text v := by
  constructor
  · intro h
    cases h with
    | constant hspells => exact hspells
    | param | result | func | global => simp at hstart
  · exact fun h => .constant h hstart

theorem exists_result {d : InstrId} (h : Denotes m f text (.instr d)) :
    ∃ i ∈ f.instrs, i.id = d := by
  cases h with
  | result hi => exact ⟨_, hi, rfl⟩
  | constant hspells => cases hspells

end Denotes

namespace Description

section

variable {m declared : Module} {name : String} {v : Value} {d : FuncDraft} {f : Func}

/-- The symbol that a name stands for does not depend on which kind is looked up first. -/
theorem readSymbol_eq_ok (hn : m.symbols.Nodup) : readSymbol m name = .ok v ↔
    (∃ g ∈ m.functions, g.name = name ∧ v = .func g.id) ∨
    ∃ g ∈ m.globals, g.name = name ∧ v = .global g := by
  obtain ⟨hglobals, hfuncs, hapart⟩ := List.nodup_append.mp hn
  have hfind : readSymbol m name = .ok v ↔ (∃ g, m.funcNamed? name = some g ∧ v = .func g.id) ∨
      m.funcNamed? name = none ∧ ∃ g, m.globalNamed? name = some g ∧ v = .global g := by
    rw [readSymbol]
    cases m.funcNamed? name with
    | some g => simp [eq_comm]
    | none =>
      cases m.globalNamed? name with
      | some g => simp [eq_comm]
      | none => simp
  have hfunc : ∀ g, m.funcNamed? name = some g ↔ g ∈ m.functions ∧ g.name = name :=
    fun g => find?_key_iff hfuncs
  have hglobal : ∀ g, m.globalNamed? name = some g ↔ g ∈ m.globals ∧ g.name = name :=
    fun g => find?_key_iff hglobals
  simp only [hfind, hfunc, hglobal, and_assoc]
  refine or_congr_right (and_iff_right_of_imp ?_)
  intro h
  obtain ⟨g, hg, hname, _⟩ := h
  rw [Module.funcNamed?, List.find?_eq_none]
  intro k hk
  have hne := hapart _ (List.mem_map_of_mem hg) _ (List.mem_map_of_mem hk)
  simpa [hname, eq_comm] using hne

theorem lookup_paramEntries : f.paramEntries.lookup name = some v ↔
    ∃ before p after, f.params = before ++ p :: after ∧ p.name = name ∧
      (∀ q ∈ after, q.name ≠ name) ∧ v = .param p := by
  rw [List.lookup_eq_some_iff, Func.paramEntries]
  constructor
  · intro h
    obtain ⟨later, earlier, hsplit, hne⟩ := h
    rw [List.reverse_eq_iff, List.reverse_append, List.reverse_cons, List.append_assoc,
      List.singleton_append, List.map_eq_append_iff] at hsplit
    obtain ⟨before, rest, hparams, _, hrest⟩ := hsplit
    obtain ⟨p, after, rfl, hp, hafter⟩ := List.map_eq_cons_iff.mp hrest
    rw [Prod.mk.injEq] at hp
    refine ⟨before, p, after, hparams, hp.1, ?_, hp.2.symm⟩
    intro q hq
    have hmem : (q.name, Value.param q) ∈ later := by
      rw [← List.mem_reverse, ← hafter]
      exact List.mem_map_of_mem hq
    exact (bne_iff_ne.mp (hne _ hmem)).symm
  · intro h
    obtain ⟨before, p, after, hparams, rfl, hlast, rfl⟩ := h
    refine ⟨(after.map fun q => (q.name, Value.param q)).reverse,
      (before.map fun q => (q.name, Value.param q)).reverse, by simp [hparams], ?_⟩
    intro e he
    obtain ⟨q, hq, rfl⟩ := List.mem_map.mp (List.mem_reverse.mp he)
    exact bne_iff_ne.mpr (hlast q hq).symm

theorem mem_entries {drafts : List Draft} : (name, v) ∈ drafts.filterMap Draft.entry? ↔
    ∃ draft ∈ drafts, draft.name = name ∧ name ≠ "" ∧ v = .instr draft.id := by
  rw [List.mem_filterMap]
  refine exists_congr fun draft => and_congr_right fun _ => ?_
  rw [Draft.entry?]
  by_cases hname : draft.name = ""
  · simp only [hname, if_true, reduceCtorEq, false_iff]
    exact fun h => h.2.1 h.1.symm
  · simp only [hname, if_false, Option.some.injEq, Prod.mk.injEq]
    constructor
    · intro h
      exact ⟨h.1, h.1 ▸ hname, h.2.symm⟩
    · intro h
      exact ⟨h.1, h.2.2.symm⟩

theorem map_fst_entries (drafts : List Draft) :
    (drafts.filterMap Draft.entry?).map Prod.fst = (drafts.map Draft.name).filter fun n =>
      n ≠ "" := by
  induction drafts with
  | nil => rfl
  | cons draft drafts ih =>
    by_cases hname : draft.name = ""
    · simp [Draft.entry?, hname, ih]
    · simp [Draft.entry?, hname, ih]

/-- What a name stands for within a function: a result, else the last parameter of that name. -/
theorem lookup_locals {s : FuncSpec} (h : d.Follows s) : d.locals.lookup name = some v ↔
    (∃ draft ∈ d.bodies.flatten, draft.name = name ∧ name ≠ "" ∧ v = .instr draft.id) ∨
      ∃ before p after, d.func.params = before ++ p :: after ∧ p.name = name ∧
        (∀ q ∈ after, q.name ≠ name) ∧ v = .param p := by
  rw [← mem_entries, ← lookup_paramEntries, h.locals, List.lookup_append, Option.or_eq_some_iff]
  have hkeys : ((d.bodies.flatten.filterMap Draft.entry?).reverse.map Prod.fst).Nodup := by
    rw [List.map_reverse, List.nodup_reverse]
    exact h.gains.distinct
  have hresult : (d.bodies.flatten.filterMap Draft.entry?).reverse.lookup name = some v ↔
      (name, v) ∈ d.bodies.flatten.filterMap Draft.entry? := by
    rw [← List.mem_reverse]
    constructor
    · intro hv
      obtain ⟨l₁, l₂, heq, _⟩ := List.lookup_eq_some_iff.mp hv
      rw [heq]
      exact List.mem_append_right _ List.mem_cons_self
    · exact lookup_eq_of_mem hkeys
  rw [hresult]
  -- A parameter is found only if no result has its name, and none has: results are declared under
  -- fresh names.
  refine or_congr_right (and_iff_right_of_imp ?_)
  intro hparam
  apply lookup_eq_none_of_not_mem
  intro hmem
  rw [List.map_reverse, List.mem_reverse] at hmem
  obtain ⟨l₁, l₂, heq, _⟩ := List.lookup_eq_some_iff.mp hparam
  apply h.fresh name hmem
  rw [heq]
  simp

theorem readBlockRef_eq_ok (hn : (f.blocks.map Block.name).Nodup) {b : BlockRef} :
    readBlockRef f name = .ok b ↔ f.BlockNamed name b := by
  have hfind : ∀ k, f.blockNamed? name = some k ↔ k ∈ f.blocks ∧ k.name = name :=
    fun k => find?_key_iff hn
  have hread : readBlockRef f name = .ok b ↔ ∃ k, f.blockNamed? name = some k ∧ b = f.ref k.id := by
    rw [readBlockRef]
    cases f.blockNamed? name with
    | some k => simp [eq_comm]
    | none => simp
  simp only [hread, hfind, Func.BlockNamed, and_assoc]

end

namespace Loads

variable {spec : ModuleSpec} {m declared : Module} {ds : List FuncDraft} {s : FuncSpec}
  {d : FuncDraft} {f : Func}

/-- Filling the blocks changes neither the name of a function nor its number. -/
theorem functions_eq (h : Loads spec declared ds m) :
    declared.functions.map (fun g => (g.name, g.id)) = m.functions.map fun g => (g.name, g.id) := by
  rw [h.functions, List.map_map]
  refine map_eq_of_forall₂ h.resolves fun d f hf => ?_
  rw [hf.name, hf.id]
  rfl

theorem nodup_symbols (h : Loads spec declared ds m) : m.symbols.Nodup := by
  have hnames : declared.functions.map Func.name = m.functions.map Func.name := by
    simpa [Function.comp_def] using congrArg (List.map Prod.fst) h.functions_eq
  rw [Module.symbols, ← h.same, ← hnames]
  exact h.symbols

theorem readOperand_eq_ok (h : Loads spec declared ds m) (hs : d.Follows s)
    (hf : ResolvesFunc declared d f) {text : String} {v : Value} :
    readOperand declared d.locals text = .ok v ↔ Denotes m f (Text.trim text.toList) v := by
  rw [readOperand]
  split
  · next name htext =>
    have hlookup : d.locals.lookup (String.ofList name) = some v ↔ _ := lookup_locals hs
    rw [exists_mem_iff_of_map_eq hf.results fun e => e.1 = String.ofList name ∧
      String.ofList name ≠ "" ∧ v = .instr e.2] at hlookup
    rw [htext, Denotes.percent_iff, hf.params]
    refine Iff.trans ?_ hlookup
    cases d.locals.lookup (String.ofList name) with
    | none => simp
    | some w => simp
  · next name htext =>
    rw [htext, Denotes.at_iff, readSymbol_eq_ok h.symbols, h.same,
      exists_mem_iff_of_map_eq h.functions_eq fun e => e.1 = String.ofList name ∧ v = .func e.2]
  · next hpercent hat =>
    rw [readConstant_eq_ok, Denotes.constant_iff]
    intro c hc
    obtain ⟨rest, htext⟩ := List.head?_eq_some_iff.mp hc
    exact ⟨fun hc => hpercent rest (hc ▸ htext), fun hc => hat rest (hc ▸ htext)⟩

theorem readBlockRef_eq_ok (hs : d.Follows s) (hf : ResolvesFunc declared d f) {name : String}
    {b : BlockRef} :
    readBlockRef d.func name = .ok b ↔ f.BlockNamed name b := by
  rw [Description.readBlockRef_eq_ok hs.distinct]
  show (∃ k ∈ d.func.blocks, k.name = name ∧ b = ⟨d.func.id, k.id⟩) ↔
    ∃ k ∈ f.blocks, k.name = name ∧ b = ⟨f.id, k.id⟩
  rw [hf.id, exists_mem_iff_of_map_eq hf.headers fun e => e.1 = name ∧ b = ⟨d.func.id, e.2⟩]

theorem instr_realizes (h : Loads spec declared ds m) (hs : d.Follows s)
    (hf : ResolvesFunc declared d f)
    {types : TypeTable} {t : InstrSpec} {draft : Draft} {i : Instr} (ht : draft.Follows t)
    (hi : Resolves declared d types draft i) : t.RealizedBy m f i := by
  have hcomplete := checkInstr_complete hi.check
  have hblock : ∀ name b, readBlockRef d.func name = .ok b → ∀ c, f.BlockNamed name c ↔ c = b := by
    intro name b hb c
    rw [← readBlockRef_eq_ok hs hf, hb, Except.ok.injEq, eq_comm]
  refine ⟨hi.name.trans ht.name, hi.op ▸ text_of_readOpcode ht.op,
    hi.pred ▸ text_of_readPredicate ht.pred, ?_, ?_, ?_,
    ⟨hcomplete.operands, hcomplete.targets, hcomplete.sources, hcomplete.pred⟩⟩
  · rw [← ht.spec]
    refine hi.operands.imp fun text v hv w => ?_
    rw [← h.readOperand_eq_ok hs hf, hv, Except.ok.injEq, eq_comm]
  · rw [← ht.spec]
    exact hi.targets.imp hblock
  · rw [← ht.spec]
    exact hi.incoming.imp hblock

theorem block_realizes (h : Loads spec declared ds m) (hs : d.Follows s)
    (hf : ResolvesFunc declared d f)
    {b : BlockSpec} {drafts : List Draft} {k : Block} (hname : k.name = b.name)
    (hb : List.Forall₂ Draft.Follows b.instrs drafts)
    (hk : ResolvesBlock declared d drafts k) : b.RealizedBy m f k := by
  refine ⟨hname, (forall₂_trans hb hk.instrs).imp fun t i hti => ?_, ?_⟩
  · obtain ⟨draft, _, ht, types, hi⟩ := hti
    exact h.instr_realizes hs hf ht hi
  · obtain ⟨t, ht⟩ := Option.isSome_iff_exists.mp hk.ended
    rw [Block.term?, Option.filter_eq_some_iff] at ht
    exact ⟨t, ht⟩

theorem func_realizes (h : Loads spec declared ds m) (hs : d.Follows s)
    (hf : ResolvesFunc declared d f) :
    s.RealizedBy m f := by
  have hnames : List.Forall₂ (fun b k => k.name = b.name) s.blocks f.blocks := by
    have heq : List.Forall₂ (fun a b => a = b) (f.blocks.map Block.name)
        (s.blocks.map BlockSpec.name) := by
      rw [List.forall₂_eq_eq_eq, hf.names, hs.names]
    rw [List.forall₂_map_left_iff, List.forall₂_map_right_iff] at heq
    exact heq.flip
  have hresults : (f.instrs.map fun i => i.name) = d.bodies.flatten.map Draft.name := by
    simpa [Function.comp_def] using (congrArg (List.map Prod.fst) hf.results).symm
  refine ⟨hf.name.trans hs.name, hf.params ▸ hs.params, ?_, hf.names ▸ hs.distinct, ?_, ?_⟩
  · refine List.Forall₂.mp (fun b k hname hbk => ?_) hnames (forall₂_trans hs.bodies hf.blocks)
    obtain ⟨drafts, _, hb, hk⟩ := hbk
    exact h.block_realizes hs hf hname hb hk
  · rw [hresults, ← map_fst_entries]
    exact hs.gains.distinct
  · intro i hi hname p hp heq
    have hmem : i.name ∈ (d.bodies.flatten.filterMap Draft.entry?).map Prod.fst := by
      rw [map_fst_entries, ← hresults]
      exact List.mem_filter.mpr ⟨List.mem_map_of_mem hi, by simpa using hname⟩
    apply hs.fresh _ hmem
    rw [Func.paramEntries, List.map_reverse, List.mem_reverse, List.map_map, heq]
    exact List.mem_map_of_mem (hf.params ▸ hp)

end Loads

end Description

namespace BlockSpec.RealizedBy

variable {m : Module} {f : Func} {s : BlockSpec} {k : Block} {i : Instr}

theorem complete (h : s.RealizedBy m f k) (hi : i ∈ k.instrs) : i.Complete := by
  obtain ⟨t, _, ht⟩ := exists_of_mem_right h.instrs hi
  exact ht.complete

theorem targets_eq_nil (h : s.RealizedBy m f k) (hi : i ∈ k.instrs)
    (hop : i.op ∉ [.br, .condBr, .ret, .call, .phi, .elementPtr]) : i.targets = [] := by
  have hcomplete := h.complete hi
  apply List.eq_nil_of_length_eq_zero
  apply hcomplete.targets
  have htakes := hcomplete.operands
  cases hcode : i.op with
  | br | condBr | ret | call | phi | elementPtr => simp [hcode] at hop
  | invalid | unassigned code => simp [hcode, Opcode.Takes] at htakes
  | _ => rfl

theorem mem_targets (h : s.RealizedBy m f k) (hi : i ∈ k.instrs) {b : BlockRef}
    (hb : b ∈ i.targets) :
    ∃ j ∈ f.blocks, b = f.ref j.id := by
  obtain ⟨t, _, ht⟩ := exists_of_mem_right h.instrs hi
  obtain ⟨name, _, hname⟩ := exists_of_mem_right ht.targets hb
  obtain ⟨j, hj, _, hjb⟩ := (hname b).mpr rfl
  exact ⟨j, hj, hjb⟩

end BlockSpec.RealizedBy

theorem Description.exists_realized {spec : ModuleSpec} {m : Module}
    (h : Module.ofSpec spec = .ok m) {f : Func}
    (hf : f ∈ m.functions) : ∃ s ∈ spec.functions, s.RealizedBy m f := by
  obtain ⟨declared, ds, hload⟩ := Loads.of_ofSpec h
  obtain ⟨s, hs, d, _, hsd, hdf⟩ :=
    exists_of_mem_right (forall₂_trans hload.follows hload.resolves) hf
  exact ⟨s, hs, hload.func_realizes hsd hdf⟩

namespace Module

/-- A module that is accepted is the one described: names are unambiguous, everything stands in the
order of the description, every text stands for what is found in its place, wherever that is
defined, each block ends with a terminator and each operation has the operands that belong to it. -/
theorem ofSpec_realizes {spec : ModuleSpec} {m : Module} (h : ofSpec spec = .ok m) :
    spec.RealizedBy m := by
  obtain ⟨declared, ds, hload⟩ := Description.Loads.of_ofSpec h
  refine ⟨hload.nodup_symbols, hload.globals,
    (forall₂_trans hload.follows hload.resolves).imp fun s f hsf => ?_⟩
  obtain ⟨d, _, hs, hf⟩ := hsf
  exact hload.func_realizes hs hf

/-- Two functions with references to what is defined later: a loop whose values are used in a block
listed earlier, two parameters of one name, and a call of the function that follows. -/
def forwardReferences : ModuleSpec where
  globals := [⟨"size", "i32 addrspace(3)*"⟩]
  functions := [
    { name := "walk", ret := "i32", params := [⟨"n", "i32"⟩, ⟨"n", "i64"⟩]
      blocks := [
        ⟨"entry", [{ op := "br", targets := ["loop"] }]⟩,
        ⟨"done", [
          { name := "r", op := "call",
            args := ["@step", " %q ", "i32 0x10", "double 0x1.8p1", "%n"] },
          { op := "ret", args := ["%r"] }]⟩,
        ⟨"loop", [
          { name := "i", op := "phi", type := "i32", args := ["i32 0", "%q"],
            sources := ["entry", "loop"] },
          { name := "q", op := "udiv", args := ["%i", "i32 3"] },
          { name := "c", op := "icmp", pred := "ult", args := ["%q", "i32 7"] },
          { op := "br", args := ["%c"], targets := ["loop", "done"] }]⟩] },
    { name := "step", ret := "i32", params := [⟨"x", "i32"⟩]
      blocks := [
        ⟨"", [
          { name := "v", op := "load", type := "i32", args := ["@size"] },
          { op := "ret", args := ["%v"] }]⟩] }]

/-- What the operands of its instructions are, one function after the other. -/
def forwardReferencesOperands : List (List (List Value)) := [
  [[],
    [.func 1, .instr ⟨0, 4⟩, .int ⟨32, 16⟩, .float 64 (.finite false (3 * 2 ^ 51) (-51)),
      .param ⟨"n", .int 64, 1⟩],
    [.instr ⟨0, 1⟩],
    [.int ⟨32, 0⟩, .instr ⟨0, 4⟩],
    [.instr ⟨0, 3⟩, .int ⟨32, 3⟩],
    [.instr ⟨0, 4⟩, .int ⟨32, 7⟩],
    [.instr ⟨0, 5⟩]],
  [[.global ⟨"size", .int 32, 3⟩], [.instr ⟨1, 0⟩]]]

theorem forwardReferences_realizes : ∃ m, ofSpec forwardReferences = .ok m ∧
    (m.functions.map fun f => f.instrs.map fun i => i.operands) = forwardReferencesOperands ∧
      forwardReferences.RealizedBy m := by
  have hread : ∃ m, ofSpec forwardReferences = .ok m ∧
      (m.functions.map fun f => f.instrs.map fun i => i.operands) = forwardReferencesOperands :=
    Description.exists_ok_of_any (by decide +kernel)
  obtain ⟨m, hm, hoperands⟩ := hread
  exact ⟨m, hm, hoperands, ofSpec_realizes hm⟩

/-- Every block of a module that is accepted has a last instruction, which is a terminator, and goes
on to the targets of that one: one of this function's blocks after a branch, two after a conditional
one, none after the mark of unreachable code. -/
theorem ofSpec_ends_blocks {spec : ModuleSpec} {m : Module} (h : ofSpec spec = .ok m) {f : Func}
    (hf : f ∈ m.functions) {k : Block} (hk : k ∈ f.blocks) :
    (∃ t, k.instrs.getLast? = some t ∧ t.op.isTerminator = true ∧ k.succs = t.targets ∧
      (t.op = .br → k.succs.length = 1) ∧ (t.op = .condBr → k.succs.length = 2) ∧
      (t.op = .unreachable → k.succs = [])) ∧
    (∀ b ∈ k.succs, ∃ j ∈ f.blocks, b = f.ref j.id) ∧
    ∀ i ∈ k.instrs, (i.op = .br → i.targets.length = 1) ∧ (i.op = .condBr → i.targets.length = 2) ∧
      (i.op ∉ [.br, .condBr, .ret, .call, .phi, .elementPtr] → i.targets = []) := by
  obtain ⟨s, _, hs⟩ := Description.exists_realized h hf
  obtain ⟨b, _, hb⟩ := exists_of_mem_right hs.blocks hk
  obtain ⟨t, hlast, hterm⟩ := hb.ended
  have ht : t ∈ k.instrs := List.mem_of_getLast? hlast
  obtain ⟨body, hbody⟩ := List.getLast?_eq_some_iff.mp hlast
  have hsuccs : k.succs = t.targets := Block.succs_of_term hbody hterm
  have hcount : ∀ i ∈ k.instrs, ∀ n, i.op.targetCount? = some n → i.targets.length = n :=
    fun i hi =>
    (hb.complete hi).targets
  refine ⟨⟨t, hlast, hterm, hsuccs, ?_, ?_, ?_⟩, ?_, ?_⟩
  · intro hop
    rw [hsuccs]
    exact hcount t ht 1 (by rw [hop]; rfl)
  · intro hop
    rw [hsuccs]
    exact hcount t ht 2 (by rw [hop]; rfl)
  · intro hop
    rw [hsuccs]
    exact hb.targets_eq_nil ht (by simp [hop])
  · intro b hb'
    rw [hsuccs] at hb'
    exact hb.mem_targets ht hb'
  · intro i hi
    refine ⟨?_, ?_, hb.targets_eq_nil hi⟩
    · intro hop
      exact hcount i hi 1 (by rw [hop]; rfl)
    · intro hop
      exact hcount i hi 2 (by rw [hop]; rfl)

/-- A function with two terminators in its first block and with targets at operations that are no
branches. -/
def strayTargets : ModuleSpec where
  functions := [
    { name := "g" },
    { name := "f", params := [⟨"p", "i32*"⟩, ⟨"n", "i32"⟩]
      blocks := [
        ⟨"e", [{ op := "ret" }, { op := "br", targets := ["x"] }]⟩,
        ⟨"x", [
          { name := "v", op := "phi", type := "i32", args := ["%n"], sources := ["e"],
            targets := ["e"] },
          { name := "a", op := "getelementptr", type := "i32*", args := ["%p", "%n"],
            targets := ["e", "x"] },
          { op := "call", args := ["@g"], targets := ["x"] },
          { op := "ret", targets := ["e"] }]⟩] }]

theorem strayTargets_ends_blocks : ∃ (m : Module) (f : Func) (k : Block) (t : Instr),
    ofSpec strayTargets = .ok m ∧ m.functions[1]? = some f ∧ f.blocks[0]? = some k ∧
      k.instrs.length = 2 ∧ k.instrs.getLast? = some t ∧ t.op.isTerminator = true ∧
      k.succs = t.targets ∧ (∀ b ∈ k.succs, ∃ j ∈ f.blocks, b = f.ref j.id) ∧
        ∀ i ∈ k.instrs, i.op = .br → i.targets.length = 1 := by
  have hread :
      ((ofSpec strayTargets).toOption.bind fun m : Module => m.functions[1]?.bind fun f : Func =>
      f.blocks[0]?.map fun k : Block => k.instrs.length) = some 2 := by decide +kernel
  obtain ⟨m, hm, hread⟩ := Option.bind_eq_some_iff.mp hread
  obtain ⟨f, hf, hread⟩ := Option.bind_eq_some_iff.mp hread
  obtain ⟨k, hk, hlength⟩ := Option.map_eq_some_iff.mp hread
  have hok : ofSpec strayTargets = .ok m := Description.toOption_eq_some.mp hm
  obtain ⟨⟨t, hlast, hterm, hsuccs, _⟩, hblocks, htargets⟩ :=
    ofSpec_ends_blocks hok (List.mem_of_getElem? hf) (List.mem_of_getElem? hk)
  exact ⟨m, f, k, t, hok, hf, hk, hlength, hlast, hterm, hsuccs, hblocks,
    fun i hi => (htargets i hi).1⟩

/-- Nothing of this is refused: a terminator stands before the end of a block, the block that
returns goes on to another one, and a call, a phi and the address of an element have targets. -/
theorem strayTargets_not_well_formed : ∃ m : Module, ofSpec strayTargets = .ok m ∧
    (∃ f ∈ m.functions, ∃ k ∈ f.blocks, ∃ i ∈ k.instrs.dropLast, i.op.isTerminator = true) ∧
    (∃ f ∈ m.functions, ∃ k ∈ f.blocks, ∃ t ∈ k.instrs.getLast?, t.op = .ret ∧ k.succs ≠ []) ∧
    ∀ op ∈ [Opcode.call, .phi, .elementPtr], ∃ f ∈ m.functions, ∃ i ∈ f.instrs,
      i.op = op ∧ i.targets ≠ [] :=
  Description.exists_ok_of_any (by decide +kernel)

end Module

end KernelIR
