import KernelIR.Proofs.Description.Resolution
import KernelIR.Proofs.Renumbering

namespace KernelIR

theorem lookup_map_of_injective {α β κ ι : Type} [DecidableEq κ] [DecidableEq ι] {F : κ → ι}
    (hF : Function.Injective F) (G : α → β) (l : List (κ × α)) (k : κ) :
    (l.map (Prod.map F G)).lookup (F k) = (l.lookup k).map G := by
  induction l with
  | nil => rfl
  | cons e l ih =>
    rw [List.map_cons, Prod.map, List.lookup_cons, List.lookup_cons]
    by_cases he : k = e.1
    · simp [he]
    · have hFe : F k ≠ F e.1 := fun h => he (hF h)
      simp only [beq_false_of_ne he, beq_false_of_ne hFe]
      exact ih

variable (σ : FuncId → FuncId)

def Draft.renumber (draft : Draft) : Draft := { draft with id := draft.id.renumber σ }

def FuncDraft.renumber (d : FuncDraft) : FuncDraft where
  func := d.func.renumber σ
  locals := d.locals.map (Prod.map id (Value.renumber σ))
  bodies := d.bodies.map (List.map (Draft.renumber σ))

namespace Description

def TypeTable.renumber (types : TypeTable) : TypeTable :=
  types.map (Prod.map (InstrId.renumber σ) id)

variable {σ}

section

variable {d d₁ : FuncDraft} {f f₁ : Func} {name : String}

theorem lookup_locals_renumber (d : FuncDraft) (name : String) :
    (d.renumber σ).locals.lookup name = (d.locals.lookup name).map (Value.renumber σ) :=
  lookup_map_of_injective Function.injective_id (Value.renumber σ) d.locals name

theorem blockNamed?_renumber (f : Func) (name : String) :
    (f.renumber σ).blockNamed? name = (f.blockNamed? name).map (Block.renumber σ) :=
  List.find?_map ..

theorem declareInstr_renumber {s : InstrSpec} {draft : Draft}
    (h : declareInstr d s = .ok (d₁, draft)) :
    declareInstr (d.renumber σ) s = .ok (d₁.renumber σ, draft.renumber σ) := by
  obtain ⟨op, hop, h⟩ := bind_eq_ok.mp h
  obtain ⟨ty?, hty, h⟩ := bind_eq_ok.mp h
  obtain ⟨pred, hpred, h⟩ := bind_eq_ok.mp h
  refine bind_eq_ok.mpr ⟨op, hop, bind_eq_ok.mpr ⟨ty?, hty, bind_eq_ok.mpr ⟨pred, hpred, ?_⟩⟩⟩
  by_cases hname : s.name = ""
  · rw [if_pos hname] at h ⊢
    cases h
    rfl
  · rw [if_neg hname] at h ⊢
    rw [lookup_locals_renumber]
    cases hlookup : d.locals.lookup s.name with
    | some v => simp [hlookup] at h
    | none =>
      simp only [hlookup, Option.isSome_none, Bool.false_eq_true, if_false] at h
      cases h
      rfl

theorem declareInstrs_renumber {i j k : Nat} (i' : Nat) {ss : List InstrSpec} {drafts : List Draft}
    (h : declareInstrs i j d k ss = .ok (d₁, drafts)) :
    declareInstrs i' j (d.renumber σ) k ss =
    .ok (d₁.renumber σ, drafts.map (Draft.renumber σ)) := by
  induction ss generalizing d k drafts with
  | nil =>
    rw [declareInstrs, Except.ok.injEq, Prod.mk.injEq] at h
    obtain ⟨rfl, rfl⟩ := h
    rfl
  | cons s ss ih =>
    obtain ⟨⟨d₂, draft⟩, hfirst, h⟩ := bind_eq_ok.mp h
    obtain ⟨⟨d₃, rest⟩, hrest, h⟩ := bind_eq_ok.mp h
    cases h
    have hfirst' := declareInstr_renumber (σ := σ) (atPlace_eq_ok.mp hfirst)
    exact bind_eq_ok.mpr ⟨_, atPlace_eq_ok.mpr hfirst', bind_eq_ok.mpr ⟨_, ih hrest, rfl⟩⟩

theorem declareBodies_renumber {i j : Nat} (i' : Nat) {bs : List BlockSpec}
    (h : declareBodies i d j bs = .ok d₁) :
    declareBodies i' (d.renumber σ) j bs = .ok (d₁.renumber σ) := by
  induction bs generalizing d j with
  | nil =>
    rw [declareBodies, Except.ok.injEq] at h
    rw [declareBodies, h]
  | cons b bs ih =>
    obtain ⟨⟨d₂, drafts⟩, hfirst, h⟩ := bind_eq_ok.mp h
    refine bind_eq_ok.mpr ⟨_, declareInstrs_renumber i' hfirst, ?_⟩
    have hrest := ih h
    rw [FuncDraft.renumber, List.map_append] at hrest
    exact hrest

theorem declareBlocks_renumber {bs : List BlockSpec} (h : declareBlocks f bs = .ok f₁) :
    declareBlocks (f.renumber σ) bs = .ok (f₁.renumber σ) := by
  induction bs generalizing f with
  | nil =>
    rw [declareBlocks, Except.ok.injEq] at h
    rw [declareBlocks, h]
  | cons b bs ih =>
    rw [declareBlocks] at h ⊢
    rw [blockNamed?_renumber]
    cases hnamed : f.blockNamed? b.name with
    | some k => simp [hnamed] at h
    | none =>
      simp only [hnamed, Option.isSome_none, Bool.false_eq_true, if_false] at h
      have hrest := ih h
      rw [Func.renumber, List.map_append] at hrest
      exact hrest

theorem readIntrinsic_renumber {tag : String} (h : readIntrinsic f tag = .ok f₁) :
    readIntrinsic (f.renumber σ) tag = .ok (f₁.renumber σ) := by
  rw [readIntrinsic] at h ⊢
  by_cases htag : tag = ""
  · rw [if_pos htag] at h ⊢
    cases h
    rfl
  · rw [if_neg htag] at h ⊢
    cases hk : Intrinsic.ofTag? tag with
    | none => simp [hk] at h
    | some k =>
      rw [hk] at h
      cases h
      rfl

theorem readParams_place {i j : Nat} (i' : Nat) {ps : List TypedSpec} {ts : List (String × Ty)}
    (h : readParams i j ps = .ok ts) : readParams i' j ps = .ok ts := by
  induction ps generalizing j ts with
  | nil => exact h
  | cons p ps ih =>
    obtain ⟨t, ht, h⟩ := bind_eq_ok.mp h
    obtain ⟨rest, hrest, h⟩ := bind_eq_ok.mp h
    exact bind_eq_ok.mpr ⟨t, atPlace_eq_ok.mpr (atPlace_eq_ok.mp ht),
      bind_eq_ok.mpr ⟨rest, ih hrest, h⟩⟩

/-- A function is declared in the same way wherever its name is not taken. -/
theorem declareFunc_renumber {m m' : Module} {i : Nat} (i' : Nat) {s : FuncSpec}
    (h : declareFunc m i s = .ok d)
    (hid : m'.nextFunc = σ m.nextFunc) (hfresh : s.name ∉ m'.symbols) :
    declareFunc m' i' s = .ok (d.renumber σ) := by
  obtain ⟨ret, hret, h⟩ := bind_eq_ok.mp h
  obtain ⟨params, hparams, h⟩ := bind_eq_ok.mp h
  refine bind_eq_ok.mpr ⟨ret, atPlace_eq_ok.mpr (atPlace_eq_ok.mp hret), ?_⟩
  refine bind_eq_ok.mpr ⟨params, readParams_place i' hparams, ?_⟩
  have htaken : ¬taken m' s.name = true := fun h => hfresh (taken_iff.mp h)
  rw [if_neg htaken]
  by_cases htaken : taken m s.name = true
  · simp [htaken] at h
  · rw [if_neg htaken] at h
    obtain ⟨f, hf, h⟩ := bind_eq_ok.mp h
    obtain ⟨g, hg, h⟩ := bind_eq_ok.mp h
    have hf' := readIntrinsic_renumber (σ := σ) (atPlace_eq_ok.mp hf)
    have hg' := declareBlocks_renumber (σ := σ) (atPlace_eq_ok.mp hg)
    rw [hid]
    refine bind_eq_ok.mpr ⟨_, atPlace_eq_ok.mpr hf', bind_eq_ok.mpr ⟨_, atPlace_eq_ok.mpr hg', ?_⟩⟩
    have hbodies := declareBodies_renumber (σ := σ) i' h
    rw [FuncDraft.renumber, List.map_reverse, List.map_map] at hbodies
    exact hbodies

theorem nextFunc_addFunction (m : Module) (f : Func) :
    (m.addFunction f).nextFunc = m.nextFunc + 1 := by
  show (m.functions ++ [f] ++ m.dropped).length = (m.functions ++ m.dropped).length + 1
  simp only [List.length_append, List.length_singleton]
  omega

/-- Functions are declared one by one with the numbers that follow. -/
theorem declareFuncs_drafts {m m₁ : Module} {i : Nat} {ss : List FuncSpec} {ds : List FuncDraft}
    (h : declareFuncs m i ss = .ok (m₁, ds)) :
    List.Forall₂ (fun p d => ∃ m j, m.nextFunc = p.2 ∧ declareFunc m j p.1 = .ok d)
      (ss.zipIdx m.nextFunc) ds := by
  induction ss generalizing m i ds with
  | nil =>
    rw [declareFuncs, Except.ok.injEq, Prod.mk.injEq] at h
    exact h.2 ▸ .nil
  | cons s ss ih =>
    obtain ⟨d, hd, h⟩ := bind_eq_ok.mp h
    obtain ⟨⟨m₂, rest⟩, hrest, h⟩ := bind_eq_ok.mp h
    cases h
    have hall := ih hrest
    rw [nextFunc_addFunction] at hall
    exact .cons ⟨m, i, rfl, hd⟩ hall

theorem declareFuncs_of_drafts {m : Module} (i : Nat) {ss : List FuncSpec} {ds : List FuncDraft}
    (hn : (m.symbols ++ ss.map FuncSpec.name).Nodup)
    (h : List.Forall₂
      (fun p d => ∀ m' j, m'.nextFunc = p.2 → p.1.name ∉ m'.symbols → declareFunc m' j p.1 = .ok d)
      (ss.zipIdx m.nextFunc) ds) :
    declareFuncs m i ss =
    .ok ({ m with functions := m.functions ++ ds.map FuncDraft.func }, ds) := by
  induction ss generalizing m i ds with
  | nil =>
    cases h
    simp [declareFuncs]
  | cons s ss ih =>
    rw [List.zipIdx_cons] at h
    cases h with
    | @cons _ d _ ds first rest =>
      have hfresh : s.name ∉ m.symbols := by
        intro hmem
        exact (List.nodup_append.mp hn).2.2 _ hmem _ List.mem_cons_self rfl
      have hd := first m i rfl hfresh
      have hsymbols : (m.addFunction d.func).symbols = m.symbols ++ [s.name] := by
        simp [Module.symbols, Module.addFunction, (declareFunc_ok hd).1.name]
      rw [← nextFunc_addFunction m d.func] at rest
      have hrest := ih (i + 1) (by simpa [hsymbols] using hn) rest
      refine bind_eq_ok.mpr ⟨d, hd, bind_eq_ok.mpr ⟨_, hrest, ?_⟩⟩
      simp [Module.addFunction]

end

section

variable {m m' : Module} {scope scope' : Scope} {d : FuncDraft} {types types₁ : TypeTable}

theorem readSymbol_renumber (hm : m.Renumbers σ m') {name : String} {v : Value}
    (h : readSymbol m name = .ok v) :
    readSymbol m' name = .ok (v.renumber σ) := by
  rw [readSymbol] at h ⊢
  rw [hm.funcNamed?]
  cases hf : m.funcNamed? name with
  | some f =>
    rw [hf] at h
    cases h
    rfl
  | none =>
    rw [hf] at h
    have hglobal : m'.globalNamed? name = m.globalNamed? name := by
      rw [Module.globalNamed?, Module.globalNamed?, hm.globals]
    cases hg : m.globalNamed? name with
    | some g =>
      rw [hg] at h
      cases h
      simp [hglobal, hg, Value.renumber]
    | none => simp [hg] at h

theorem readConstant_renumber {text : List Char} {v : Value} (h : readConstant text = .ok v) :
    v.renumber σ = v := by
  cases readConstant_eq_ok.mp h with
  | int => rfl
  | float => rfl

theorem readOperand_renumber (hm : m.Renumbers σ m') {text : String} {v : Value}
    (h : readOperand m d.locals text = .ok v) :
    readOperand m' (d.renumber σ).locals text = .ok (v.renumber σ) := by
  rw [readOperand] at h ⊢
  split at h
  · next name _ =>
    rw [lookup_locals_renumber]
    cases hlookup : d.locals.lookup (String.ofList name) with
    | none => simp [hlookup] at h
    | some w =>
      rw [hlookup] at h
      cases h
      rfl
  · exact readSymbol_renumber hm h
  · rw [readConstant_renumber h]
    exact h

theorem readBlockRef_renumber {f : Func} {name : String} {b : BlockRef}
    (h : readBlockRef f name = .ok b) :
    readBlockRef (f.renumber σ) name = .ok (b.renumber σ) := by
  rw [readBlockRef] at h ⊢
  rw [blockNamed?_renumber]
  cases hk : f.blockNamed? name with
  | none => simp [hk] at h
  | some k =>
    rw [hk] at h
    cases h
    rfl

theorem returnType_renumber (hm : m.Renumbers σ m') (hσ : Function.Injective σ) (i : Operation) :
    returnType m' (i.renumber σ) = returnType m i := by
  have hcallee : (i.renumber σ).callee? = i.callee?.map σ := by
    rw [Operation.callee?, Operation.callee?, Operation.renumber_op, Operation.renumber_operands]
    cases i.op with
    | call =>
      cases i.operands with
      | nil => rfl
      | cons v vs =>
        cases v with
        | _ => rfl
    | _ => rfl
  rw [returnType, returnType, hcallee]
  cases i.callee? with
  | none => rfl
  | some id =>
    simp only [Option.map_some, hm.func? hσ]
    cases m.func? id with
    | none => rfl
    | some f => rfl

theorem inferType_renumber (hscope : scope.Renumbers σ scope') (i : Operation) (k : Nat)
    (ty? : Option Ty) :
    inferType scope' (i.renumber σ) k ty? = inferType scope i k ty? := by
  cases ty? with
  | some t => rfl
  | none =>
    rw [inferType, inferType, Operation.renumber_operands, List.getElem?_map]
    cases i.operands[k]? with
    | none => rfl
    | some v => exact hscope.ty v

/-- Whether an instruction is accepted, and with which type, does not depend on the numbers of
functions. -/
theorem checkInstr_renumber (hm : m.Renumbers σ m') (hσ : Function.Injective σ)
    (hscope : scope.Renumbers σ scope')
    (i : Operation) (ty? : Option Ty) :
    checkInstr m' scope' (i.renumber σ) ty? = checkInstr m scope i ty? := by
  have hexpect : ∀ n k, expect (i.renumber σ) n k = expect i n k := by
    intro n k
    simp [expect]
  rw [checkInstr, checkInstr, Operation.renumber_op]
  cases i.op with
  | _ =>
    simp only [hexpect, inferType_renumber hscope, returnType_renumber hm hσ,
      Operation.renumber_operands, Operation.renumber_incoming, Operation.renumber_pred,
      List.length_map, List.isEmpty_map]

theorem scopeWith_renumber (hm : m.Renumbers σ m') (hσ : Function.Injective σ) (types : TypeTable) :
    (scopeWith m types).Renumbers σ (scopeWith m' (types.renumber σ)) := by
  refine ⟨hm.scope_func hσ, ?_, hm.label hσ⟩
  intro e
  have hlookup := lookup_map_of_injective (InstrId.renumber_injective hσ) id types e
  rw [Option.map_id_apply] at hlookup
  exact congrArg (fun t : Option Ty => ("", t.getD .void)) hlookup

theorem resolveInstr_renumber (hm : m.Renumbers σ m') (hσ : Function.Injective σ) {draft : Draft}
    {i : Instr} (h : resolveInstr m d types draft = .ok (i, types₁)) :
    resolveInstr m' (d.renumber σ) (types.renumber σ) (draft.renumber σ) =
      .ok (i.renumber σ, types₁.renumber σ) := by
  obtain ⟨operands, hoperands, h⟩ := bind_eq_ok.mp h
  obtain ⟨targets, htargets, h⟩ := bind_eq_ok.mp h
  obtain ⟨incoming, hincoming, h⟩ := bind_eq_ok.mp h
  obtain ⟨ty, hty, h⟩ := bind_eq_ok.mp h
  cases h
  rw [← checkInstr_renumber hm hσ (scopeWith_renumber hm hσ types)] at hty
  have hrefs :
      ∀ {names : List String} {bs : List BlockRef}, names.mapM (readBlockRef d.func) = .ok bs →
      names.mapM (readBlockRef (d.renumber σ).func) = .ok (bs.map (BlockRef.renumber σ)) := by
    intro names bs hbs
    exact mapM_map_ok (fun _ _ hb => readBlockRef_renumber hb) hbs
  have hoperands' := mapM_map_ok (fun _ _ hv => readOperand_renumber hm hv) hoperands
  exact bind_eq_ok.mpr ⟨_, hoperands',
    bind_eq_ok.mpr ⟨_, hrefs htargets, bind_eq_ok.mpr ⟨_, hrefs hincoming,
    bind_eq_ok.mpr ⟨ty, hty, rfl⟩⟩⟩⟩

theorem resolveInstrs_renumber (hm : m.Renumbers σ m') (hσ : Function.Injective σ) {a j k : Nat}
    (a' : Nat) {drafts : List Draft} {is : List Instr}
    (h : resolveInstrs m d a j k types drafts = .ok (is, types₁)) :
    resolveInstrs m' (d.renumber σ) a' j k (types.renumber σ)
        (drafts.map (Draft.renumber σ)) =
      .ok (is.map (Instr.renumber σ), types₁.renumber σ) := by
  induction drafts generalizing k types is with
  | nil =>
    cases h
    rfl
  | cons draft drafts ih =>
    obtain ⟨⟨i, types₂⟩, hfirst, h⟩ := bind_eq_ok.mp h
    obtain ⟨⟨rest, types₃⟩, hrest, h⟩ := bind_eq_ok.mp h
    cases h
    have hfirst' := resolveInstr_renumber hm hσ (atPlace_eq_ok.mp hfirst)
    exact bind_eq_ok.mpr ⟨_, atPlace_eq_ok.mpr hfirst', bind_eq_ok.mpr ⟨_, ih hrest, rfl⟩⟩

theorem resolveBlocks_renumber (hm : m.Renumbers σ m') (hσ : Function.Injective σ) {a j : Nat}
    (a' : Nat) {bs ks : List Block} {bodies : List (List Draft)}
    (h : resolveBlocks m d a j types bs bodies = .ok ks) :
    resolveBlocks m' (d.renumber σ) a' j (types.renumber σ) (bs.map (Block.renumber σ))
        (bodies.map (List.map (Draft.renumber σ))) = .ok (ks.map (Block.renumber σ)) := by
  induction bs generalizing j types bodies ks with
  | nil =>
    cases h
    rfl
  | cons b bs ih =>
    cases bodies with
    | nil =>
      cases h
      rfl
    | cons drafts bodies =>
      obtain ⟨⟨is, types₁⟩, his, h⟩ := bind_eq_ok.mp h
      refine bind_eq_ok.mpr ⟨_, resolveInstrs_renumber hm hσ a' his, ?_⟩
      have hterm : Block.term? { b.renumber σ with instrs := is.map (Instr.renumber σ) } =
          (Block.term? { b with instrs := is }).map (Instr.renumber σ) := by
        rw [Block.term?, Block.term?, List.getLast?_map, Option.filter_map]
        rfl
      dsimp only at h ⊢
      rw [hterm]
      cases hlast : Block.term? { b with instrs := is } with
      | none => simp [hlast] at h
      | some t =>
        simp only [hlast, Option.isNone_some, Bool.false_eq_true, if_false] at h
        obtain ⟨rest, hrest, h⟩ := bind_eq_ok.mp h
        cases h
        exact bind_eq_ok.mpr ⟨_, ih hrest, rfl⟩

theorem resolveFunc_renumber (hm : m.Renumbers σ m') (hσ : Function.Injective σ) {a : Nat}
    (a' : Nat) {f : Func} (h : resolveFunc m a d = .ok f) :
    resolveFunc m' a' (d.renumber σ) = .ok (f.renumber σ) := by
  have htypes : describedTypes (d.renumber σ) = (describedTypes d).renumber σ := by
    rw [describedTypes, describedTypes, TypeTable.renumber, FuncDraft.renumber, ← List.map_flatten,
      List.filterMap_map, List.map_filterMap]
    refine List.filterMap_congr fun draft _ => ?_
    simp [Draft.renumber, Function.comp_def]
  obtain ⟨blocks, hblocks, h⟩ := bind_eq_ok.mp h
  cases h
  rw [resolveFunc, htypes]
  refine bind_eq_ok.mpr ⟨_, resolveBlocks_renumber hm hσ a' hblocks, congrArg Except.ok ?_⟩
  exact Func.record_renumber { d.func with blocks }

theorem resolveFuncs_eq_ok {a : Nat} {ds : List FuncDraft} {fs : List Func}
    (h : List.Forall₂ (fun d f => ∀ a, resolveFunc m a d = .ok f) ds fs) :
    resolveFuncs m a ds = .ok fs := by
  induction h generalizing a with
  | nil => rfl
  | cons first _ ih => exact bind_eq_ok.mpr ⟨_, first a, bind_eq_ok.mpr ⟨_, ih, rfl⟩⟩

theorem resolveFuncs_renumber (hm : m.Renumbers σ m') (hσ : Function.Injective σ) {a : Nat}
    {ds : List FuncDraft} {fs : List Func} (h : resolveFuncs m a ds = .ok fs) :
    List.Forall₂ (fun d f => ∀ a, resolveFunc m' a d = .ok f) (ds.map (FuncDraft.renumber σ))
      (fs.map (Func.renumber σ)) := by
  induction ds generalizing a fs with
  | nil =>
    cases h
    exact .nil
  | cons d ds ih =>
    obtain ⟨f, hf, h⟩ := bind_eq_ok.mp h
    obtain ⟨rest, hrest, h⟩ := bind_eq_ok.mp h
    cases h
    exact .cons (fun a' => resolveFunc_renumber hm hσ a' hf) (ih hrest)

theorem readMetadata_renumber (hm : m.Renumbers σ m') {text : String} {x : MetadataItem}
    (h : readMetadata m text = .ok x) : readMetadata m' text = .ok (x.renumber σ) := by
  rw [readMetadata] at h ⊢
  split at h
  · next name _ =>
    cases hv : readSymbol m (String.ofList name) with
    | error e => simp [hv, Except.map] at h
    | ok v =>
      rw [hv] at h
      cases h
      rw [readSymbol_renumber hm hv]
      rfl
  · next cs _ =>
    cases hv : readConstant text.toList with
    | error e =>
      simp only [hv] at h ⊢
      cases h
      rfl
    | ok v =>
      simp only [hv] at h ⊢
      cases h
      rw [MetadataItem.renumber, readConstant_renumber hv]

theorem addNode_renumber (name : String) (node : MetadataNode) (ts : List MetadataTable) :
    addNode name (node.map (MetadataItem.renumber σ)) (ts.map (MetadataTable.renumber σ)) =
      (addNode name node ts).map (MetadataTable.renumber σ) := by
  induction ts with
  | nil => rfl
  | cons t ts ih =>
    rw [List.map_cons, addNode, addNode]
    by_cases hname : t.name = name
    · simp [hname, MetadataTable.renumber]
    · by_cases hlt : name < t.name
      · simp [hname, hlt, MetadataTable.renumber]
      · simp [hname, hlt, MetadataTable.renumber, ← ih]

theorem readNodes_renumber (hm : m.Renumbers σ m') {m₁ : Module} {table : String} {a : Nat}
    {nodes : List (List String)} (h : readNodes table m a nodes = .ok m₁) :
    ∃ m₁', readNodes table m' a nodes = .ok m₁' ∧ m₁.Renumbers σ m₁' := by
  induction nodes generalizing m m' a with
  | nil =>
    cases h
    exact ⟨m', rfl, hm⟩
  | cons node nodes ih =>
    obtain ⟨items, hitems, h⟩ := bind_eq_ok.mp h
    have hitems' : node.mapM (readMetadata m') = .ok (items.map (MetadataItem.renumber σ)) :=
      mapM_map_ok (fun _ _ hx => readMetadata_renumber hm hx) (atPlace_eq_ok.mp hitems)
    have hadd : (m.addMetadata table items).Renumbers σ
        (m'.addMetadata table (items.map (MetadataItem.renumber σ))) := by
      refine ⟨hm.globals, hm.functions, hm.dropped, ?_, hm.names, hm.ids⟩
      rw [Module.addMetadata, Module.addMetadata, hm.tables, addNode_renumber]
    obtain ⟨m₁', hm₁', hm₁⟩ := ih hadd h
    exact ⟨m₁', bind_eq_ok.mpr ⟨_, atPlace_eq_ok.mpr hitems', hm₁'⟩, hm₁⟩

theorem readTables_renumber (hm : m.Renumbers σ m') {m₁ : Module} {ts : List TableSpec}
    (h : readTables m ts = .ok m₁) :
    ∃ m₁', readTables m' ts = .ok m₁' ∧ m₁.Renumbers σ m₁' := by
  induction ts generalizing m m' with
  | nil =>
    cases h
    exact ⟨m', rfl, hm⟩
  | cons t ts ih =>
    obtain ⟨m₂, hm₂, h⟩ := bind_eq_ok.mp h
    obtain ⟨m₂', hm₂', hm⟩ := readNodes_renumber hm hm₂
    obtain ⟨m₁', hm₁', hm₁⟩ := ih hm h
    exact ⟨m₁', bind_eq_ok.mpr ⟨m₂', hm₂', hm₁'⟩, hm₁⟩

end

end Description

end KernelIR
