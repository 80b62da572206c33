import KernelIR.Proofs.Description.Reading
import Mathlib.Data.List.Nodup

namespace KernelIR

/-- What is read of an instruction before its operands are looked up is what its description
says. -/
structure Draft.Follows (s : InstrSpec) (draft : Draft) : Prop where
  op : Description.readOpcode s = .ok draft.op
  type : Description.readResultType draft.op s.type = .ok draft.ty?
  pred : Description.readPredicate s.pred = .ok draft.pred
  name : draft.name = s.name
  spec : draft.spec = s

/-- What the result of an instruction is called, if it has a name. -/
def Draft.entry? (draft : Draft) : Option (String × Value) :=
  if draft.name = "" then none else some (draft.name, .instr draft.id)

/-- What the declaration of some instructions adds to a function: the next numbers are theirs, and
their names are new. -/
structure FuncDraft.Gains (drafts : List Draft) (d d' : FuncDraft) : Prop where
  func : d'.func = { d.func with nextSerial := d.func.nextSerial + drafts.length }
  ids :
    drafts.map Draft.id = (List.range' d.func.nextSerial drafts.length).map (InstrId.mk d.func.id)
  locals : d'.locals = (drafts.filterMap Draft.entry?).reverse ++ d.locals
  distinct : ((drafts.filterMap Draft.entry?).map Prod.fst).Nodup
  fresh : ∀ n ∈ (drafts.filterMap Draft.entry?).map Prod.fst, n ∉ d.locals.map Prod.fst

namespace FuncDraft.Gains

variable {xs ys : List Draft} {d d₁ d₂ : FuncDraft}

theorem nil (d : FuncDraft) : d.Gains [] d := ⟨rfl, rfl, rfl, List.nodup_nil, by simp⟩

theorem append (h : d.Gains xs d₁) (h' : d₁.Gains ys d₂) : d.Gains (xs ++ ys) d₂ := by
  have hserial : d₁.func.nextSerial = d.func.nextSerial + xs.length := by rw [h.func]
  have hid : d₁.func.id = d.func.id := by rw [h.func]
  refine ⟨?_, ?_, ?_, ?_, ?_⟩
  · rw [h'.func, h.func, List.length_append, Nat.add_assoc]
  · rw [List.map_append, h.ids, h'.ids, hid, hserial, ← List.map_append, List.length_append,
      ← List.range'_append, Nat.one_mul]
  · rw [h'.locals, h.locals, List.filterMap_append, List.reverse_append, List.append_assoc]
  · rw [List.filterMap_append, List.map_append, List.nodup_append]
    refine ⟨h.distinct, h'.distinct, ?_⟩
    intro a ha b hb hab
    apply h'.fresh b hb
    rw [h.locals, List.map_append, List.map_reverse]
    exact List.mem_append_left _ (List.mem_reverse.mpr (hab ▸ ha))
  · intro n hn
    rw [List.filterMap_append, List.map_append, List.mem_append] at hn
    cases hn with
    | inl hn => exact h.fresh n hn
    | inr hn =>
      intro hold
      apply h'.fresh n hn
      rw [h.locals, List.map_append]
      exact List.mem_append_right _ hold

end FuncDraft.Gains

namespace Description

theorem declareInstr_ok {d d₁ : FuncDraft} {s : InstrSpec} {draft : Draft}
    (h : declareInstr d s = .ok (d₁, draft)) :
    draft.Follows s ∧ d.Gains [draft] d₁ ∧ d₁.bodies = d.bodies := by
  obtain ⟨op, hop, h⟩ := bind_eq_ok.mp h
  obtain ⟨ty?, hty, h⟩ := bind_eq_ok.mp h
  obtain ⟨pred, hpred, h⟩ := bind_eq_ok.mp h
  by_cases hname : s.name = ""
  · rw [if_pos hname, Except.ok.injEq, Prod.mk.injEq] at h
    obtain ⟨rfl, rfl⟩ := h
    refine ⟨⟨hop, hty, hpred, rfl, rfl⟩, ⟨rfl, by simp, ?_, ?_, ?_⟩, rfl⟩
    · simp [Draft.entry?, hname]
    · simp [Draft.entry?, hname]
    · simp [Draft.entry?, hname]
  · rw [if_neg hname] at h
    cases hlookup : d.locals.lookup s.name with
    | some v => simp [hlookup] at h
    | none =>
      simp only [hlookup, Option.isSome_none, Bool.false_eq_true, if_false, Except.ok.injEq,
        Prod.mk.injEq] at h
      obtain ⟨rfl, rfl⟩ := h
      refine ⟨⟨hop, hty, hpred, rfl, rfl⟩, ⟨rfl, by simp, ?_, ?_, ?_⟩, rfl⟩
      · simp [Draft.entry?, hname]
      · simp [Draft.entry?, hname]
      · have hfresh : s.name ∉ d.locals.map Prod.fst := by
          intro hmem
          obtain ⟨e, he, hes⟩ := List.mem_map.mp hmem
          have hne := List.lookup_eq_none_iff.mp hlookup e he
          simp [hes] at hne
        simpa [Draft.entry?, hname] using hfresh

theorem declareInstrs_ok {i j k : Nat} {d d₁ : FuncDraft} {ss : List InstrSpec}
    {drafts : List Draft} (h : declareInstrs i j d k ss = .ok (d₁, drafts)) :
    List.Forall₂ Draft.Follows ss drafts ∧ d.Gains drafts d₁ ∧ d₁.bodies = d.bodies := by
  induction ss generalizing d k drafts with
  | nil =>
    rw [declareInstrs, Except.ok.injEq, Prod.mk.injEq] at h
    obtain ⟨rfl, rfl⟩ := h
    exact ⟨.nil, .nil d, rfl⟩
  | cons s ss ih =>
    obtain ⟨⟨d₂, draft⟩, hfirst, h⟩ := bind_eq_ok.mp h
    obtain ⟨⟨d₃, rest⟩, hrest, h⟩ := bind_eq_ok.mp h
    rw [Except.ok.injEq, Prod.mk.injEq] at h
    obtain ⟨rfl, rfl⟩ := h
    obtain ⟨hfollows, hgains, hbodies⟩ := declareInstr_ok (atPlace_eq_ok.mp hfirst)
    obtain ⟨hfollows', hgains', hbodies'⟩ := ih hrest
    exact ⟨.cons hfollows hfollows', hgains.append hgains', hbodies'.trans hbodies⟩

theorem declareBodies_ok {i j : Nat} {d d₁ : FuncDraft} {bs : List BlockSpec}
    (h : declareBodies i d j bs = .ok d₁) :
    ∃ bodies, d₁.bodies = d.bodies ++ bodies ∧ d.Gains bodies.flatten d₁ ∧
      List.Forall₂ (fun b drafts => List.Forall₂ Draft.Follows b.instrs drafts) bs bodies := by
  induction bs generalizing d j with
  | nil =>
    rw [declareBodies, Except.ok.injEq] at h
    exact ⟨[], by rw [h, List.append_nil], h ▸ .nil d, .nil⟩
  | cons b bs ih =>
    obtain ⟨⟨d₂, drafts⟩, hfirst, h⟩ := bind_eq_ok.mp h
    obtain ⟨hfollows, hgains, hbodies⟩ := declareInstrs_ok hfirst
    obtain ⟨bodies, hall, hgains', hfollows'⟩ := ih h
    refine ⟨drafts :: bodies, ?_, ?_, .cons hfollows hfollows'⟩
    · rw [hall, hbodies, List.append_assoc, List.singleton_append]
    · have hsame : d.Gains drafts { d₂ with bodies := d₂.bodies ++ [drafts] } :=
        ⟨hgains.func, hgains.ids, hgains.locals, hgains.distinct, hgains.fresh⟩
      exact hsame.append hgains'

/-- Blocks are declared empty and in order, and no two have one name. -/
theorem declareBlocks_ok {f f₁ : Func} {bs : List BlockSpec} (h : declareBlocks f bs = .ok f₁) :
    ∃ blocks, f₁ = { f with blocks := f.blocks ++ blocks, maxBlock := f.maxBlock + bs.length } ∧
      blocks.map Block.name = bs.map BlockSpec.name ∧
        blocks.map Block.id = List.range' (f.maxBlock + 1) bs.length ∧
          (∀ k ∈ blocks, k.parent = f.id) ∧
            ((f.blocks.map Block.name).Nodup → (f₁.blocks.map Block.name).Nodup) := by
  induction bs generalizing f with
  | nil =>
    rw [declareBlocks, Except.ok.injEq] at h
    exact ⟨[], by simp [← h], rfl, rfl, by simp, h ▸ id⟩
  | cons b bs ih =>
    rw [declareBlocks] at h
    cases hnamed : f.blockNamed? b.name with
    | some k => simp [hnamed] at h
    | none =>
      simp only [hnamed, Option.isSome_none, Bool.false_eq_true, if_false] at h
      obtain ⟨blocks, hf, hnames, hids, hparents, hdistinct⟩ := ih h
      refine ⟨⟨f.maxBlock + 1, b.name, f.id, []⟩ :: blocks, ?_, ?_, ?_,
        List.forall_mem_cons.mpr ⟨rfl, hparents⟩, ?_⟩
      · rw [hf, List.length_cons, List.append_assoc, List.singleton_append]
        congr 1
        show f.maxBlock + 1 + bs.length = f.maxBlock + (bs.length + 1)
        omega
      · rw [List.map_cons, hnames, List.map_cons]
      · rw [List.map_cons, hids, List.length_cons, List.range'_succ]
      · intro hn
        apply hdistinct
        rw [List.map_append, List.nodup_append]
        refine ⟨hn, by simp, ?_⟩
        intro a ha c hc
        obtain ⟨k, hk, rfl⟩ := List.mem_map.mp ha
        have hne := List.find?_eq_none.mp hnamed k hk
        simpa [List.mem_singleton.mp hc] using hne

end Description

/-- What the parameters of a function are called, the last one first. -/
def Func.paramEntries (f : Func) : List (String × Value) :=
  (f.params.map fun p => (p.name, Value.param p)).reverse

/-- What is declared of a function is what its description says. Its blocks are numbered from 1, its
instructions from 0. -/
structure FuncDraft.Follows (s : FuncSpec) (d : FuncDraft) : Prop where
  name : d.func.name = s.name
  params : List.Forall₂
    (fun p q => q.name = p.name ∧ Ty.read p.type.toList = .ok q.ty) s.params d.func.params
  names : d.func.blocks.map Block.name = s.blocks.map BlockSpec.name
  distinct : (d.func.blocks.map Block.name).Nodup
  numbers : d.func.blocks.map Block.id = List.range' 1 s.blocks.length
  parents : ∀ k ∈ d.func.blocks, k.parent = d.func.id
  maxBlock : d.func.maxBlock = s.blocks.length
  loose : d.func.loose = []
  bodies :
    List.Forall₂ (fun b drafts => List.Forall₂ Draft.Follows b.instrs drafts) s.blocks d.bodies
  gains :
    FuncDraft.Gains d.bodies.flatten ⟨{ d.func with nextSerial := 0 }, d.func.paramEntries, []⟩ d

namespace FuncDraft.Follows

variable {s : FuncSpec} {d : FuncDraft}

theorem locals (h : d.Follows s) :
    d.locals = (d.bodies.flatten.filterMap Draft.entry?).reverse ++ d.func.paramEntries :=
  h.gains.locals

theorem fresh (h : d.Follows s) : ∀ n ∈ (d.bodies.flatten.filterMap Draft.entry?).map Prod.fst,
    n ∉ d.func.paramEntries.map Prod.fst := h.gains.fresh

theorem ids (h : d.Follows s) :
    d.bodies.flatten.map Draft.id =
    (List.range d.bodies.flatten.length).map (InstrId.mk d.func.id) := by
  rw [List.range_eq_range']
  exact h.gains.ids

theorem nextSerial (h : d.Follows s) : d.func.nextSerial = d.bodies.flatten.length := by
  rw [h.gains.func]
  exact Nat.zero_add _

end FuncDraft.Follows

/-- The names of the variables and functions. -/
def Module.symbols (m : Module) : List String :=
  m.globals.map Global.name ++ m.functions.map Func.name

namespace Description

theorem taken_iff {m : Module} {name : String} : taken m name = true ↔ name ∈ m.symbols := by
  simp [taken, Module.symbols, Module.globalNamed?, Module.funcNamed?]

theorem readGlobal_ok {m : Module} {s : TypedSpec} {g : Global} (h : readGlobal m s = .ok g) :
    g.name = s.name ∧ Ty.read s.type.toList = .ok g.ty ∧ s.name ∉ m.symbols := by
  obtain ⟨t, ht, h⟩ := bind_eq_ok.mp h
  cases t with
  | ptr elem space =>
    by_cases htaken : taken m s.name = true
    · simp [htaken] at h
    · simp only [htaken, Bool.false_eq_true, if_false, Except.ok.injEq] at h
      subst h
      exact ⟨rfl, readType_eq_ok.mp ht, fun hmem => htaken (taken_iff.mpr hmem)⟩
  | int | float | struct | void | label | func => simp at h

theorem readGlobals_ok {m m₁ : Module} {i : Nat} {ss : List TypedSpec}
    (h : readGlobals m i ss = .ok m₁) :
    ∃ gs, m₁ = { m with globals := m.globals ++ gs } ∧
      List.Forall₂ (fun s g => g.name = s.name ∧ Ty.read s.type.toList = .ok g.ty) ss gs ∧
        (m.symbols.Nodup → m₁.symbols.Nodup) := by
  induction ss generalizing m i with
  | nil =>
    rw [readGlobals, Except.ok.injEq] at h
    exact ⟨[], by simp [← h], .nil, h ▸ id⟩
  | cons s ss ih =>
    obtain ⟨g, hg, h⟩ := bind_eq_ok.mp h
    obtain ⟨hname, htype, hfresh⟩ := readGlobal_ok (atPlace_eq_ok.mp hg)
    obtain ⟨gs, hm, hgs, hdistinct⟩ := ih h
    refine ⟨g :: gs, ?_, .cons ⟨hname, htype⟩ hgs, ?_⟩
    · rw [hm, Module.addGlobal, List.append_assoc, List.singleton_append]
    · intro hn
      apply hdistinct
      have hperm : (m.addGlobal g).symbols.Perm (g.name :: m.symbols) := by
        simp [Module.symbols, Module.addGlobal]
      rw [hperm.nodup_iff, hname]
      exact List.nodup_cons.mpr ⟨hfresh, hn⟩

theorem readParams_ok {i j : Nat} {ps : List TypedSpec} {ts : List (String × Ty)}
    (h : readParams i j ps = .ok ts) :
    List.Forall₂ (fun p t => t.1 = p.name ∧ Ty.read p.type.toList = .ok t.2) ps ts := by
  induction ps generalizing j ts with
  | nil =>
    rw [readParams, Except.ok.injEq] at h
    exact h ▸ .nil
  | cons p ps ih =>
    obtain ⟨t, ht, h⟩ := bind_eq_ok.mp h
    obtain ⟨rest, hrest, h⟩ := bind_eq_ok.mp h
    cases h
    exact .cons ⟨rfl, readType_eq_ok.mp (atPlace_eq_ok.mp ht)⟩ (ih hrest)

theorem forall₂_mapIdx {α β γ : Type} {R : α → β → Prop} {S : α → γ → Prop} {F : Nat → β → γ}
    {xs : List α} {ys : List β} (hF : ∀ i x y, R x y → S x (F i y)) (h : List.Forall₂ R xs ys) :
    List.Forall₂ S xs (ys.mapIdx F) := by
  induction h generalizing F with
  | nil => exact .nil
  | cons hxy _ ih =>
    rw [List.mapIdx_cons]
    exact .cons (hF 0 _ _ hxy) (ih fun i => hF (i + 1))

theorem readIntrinsic_ok {f f₁ : Func} {tag : String} (h : readIntrinsic f tag = .ok f₁) :
    ∃ k, f₁ = { f with intrinsic := k } := by
  rw [readIntrinsic] at h
  split at h
  · exact ⟨f.intrinsic, (Except.ok.inj h).symm⟩
  · split at h
    · next k _ => exact ⟨k, (Except.ok.inj h).symm⟩
    · simp at h

theorem declareFunc_ok {m : Module} {i : Nat} {s : FuncSpec} {d : FuncDraft}
    (h : declareFunc m i s = .ok d) :
    d.Follows s ∧ d.func.id = m.nextFunc ∧ s.name ∉ m.symbols := by
  obtain ⟨ret, _, h⟩ := bind_eq_ok.mp h
  obtain ⟨params, hparams, h⟩ := bind_eq_ok.mp h
  by_cases htaken : taken m s.name = true
  · simp [htaken] at h
  · rw [if_neg htaken] at h
    obtain ⟨f, hf, h⟩ := bind_eq_ok.mp h
    obtain ⟨k, rfl⟩ := readIntrinsic_ok (atPlace_eq_ok.mp hf)
    obtain ⟨f, hf, h⟩ := bind_eq_ok.mp h
    obtain ⟨blocks, hf, hnames, hids, hparents, hdistinct⟩ :=
      declareBlocks_ok (atPlace_eq_ok.mp hf)
    obtain ⟨bodies, hbodies, hgains, hfollows⟩ := declareBodies_ok h
    have hfunc := hgains.func
    simp only [Func.declare, List.nil_append, Nat.zero_add] at hf hids hbodies
    subst hf
    refine ⟨⟨by rw [hfunc], ?_, ?_, ?_, ?_, ?_, by rw [hfunc], by rw [hfunc], hbodies ▸ hfollows,
      ?_⟩, by rw [hfunc], fun hmem => htaken (taken_iff.mpr hmem)⟩
    · rw [hfunc]
      exact forall₂_mapIdx (fun _ _ _ h => h) (readParams_ok hparams)
    · rw [hfunc]
      exact hnames
    · rw [hfunc]
      exact hdistinct List.nodup_nil
    · rw [hfunc]
      exact hids
    · rw [hfunc]
      exact hparents
    · rw [hfunc, hbodies]
      exact hgains

theorem declareFuncs_ok {m m₁ : Module} {i : Nat} {ss : List FuncSpec} {ds : List FuncDraft}
    (h : declareFuncs m i ss = .ok (m₁, ds)) :
    m₁ = { m with functions := m.functions ++ ds.map FuncDraft.func } ∧
    List.Forall₂ FuncDraft.Follows ss ds ∧
      (m.dropped = [] → ds.map (fun d => d.func.id) = List.range' m.functions.length ds.length) ∧
        (m.symbols.Nodup → m₁.symbols.Nodup) := by
  induction ss generalizing m i ds with
  | nil =>
    rw [declareFuncs, Except.ok.injEq, Prod.mk.injEq] at h
    obtain ⟨rfl, rfl⟩ := h
    exact ⟨by simp, .nil, fun _ => rfl, id⟩
  | cons s ss ih =>
    obtain ⟨d, hd, h⟩ := bind_eq_ok.mp h
    obtain ⟨⟨m₂, rest⟩, hrest, h⟩ := bind_eq_ok.mp h
    rw [Except.ok.injEq, Prod.mk.injEq] at h
    obtain ⟨rfl, rfl⟩ := h
    obtain ⟨hfollows, hid, hfresh⟩ := declareFunc_ok hd
    obtain ⟨hm, hall, hids, hdistinct⟩ := ih hrest
    refine ⟨?_, .cons hfollows hall, ?_, ?_⟩
    · rw [hm]
      simp [Module.addFunction]
    · intro hdropped
      rw [List.map_cons, hids hdropped, hid]
      simp [Module.nextFunc, Module.known, Module.addFunction, hdropped, List.range'_succ]
    · intro hn
      apply hdistinct
      have hsymbols : (m.addFunction d.func).symbols = m.symbols ++ [s.name] := by
        simp [Module.symbols, Module.addFunction, hfollows.name]
      rw [hsymbols, List.nodup_append]
      refine ⟨hn, by simp, ?_⟩
      intro a ha b hb hab
      rw [List.mem_singleton] at hb
      exact hfresh (hb ▸ hab ▸ ha)

end Description

end KernelIR
