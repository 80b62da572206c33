import KernelIR.Proofs.Description.Declaration

namespace KernelIR

/-- Whether a metadata node refers to no instruction, and to no function outside a list. -/
def MetadataNode.Within (fs : List Func) (n : MetadataNode) : Prop :=
  ∀ v, .value v ∈ n → (∀ d, v ≠ .instr d) ∧ ∀ id, v = .func id → id ∈ fs.map Func.id

/-- Whether an operation can have so many operands. -/
def Opcode.Takes : Opcode → Nat → Prop
  | .binary _, n | .store, n | .icmp, n | .fcmp, n => n = 2
  | .cast _, n | .load, n | .condBr, n => n = 1
  | .alloca, n | .br, n | .unreachable, n => n = 0
  | .select, n => n = 3
  | .elementPtr, n => 2 ≤ n
  | .call, n => 1 ≤ n
  | .ret, n => n ≤ 1
  | .phi, _ => True
  | .invalid, _ | .unassigned _, _ => False

/-- How many targets an operation has, where this is checked. -/
def Opcode.targetCount? : Opcode → Option Nat
  | .br => some 1
  | .condBr => some 2
  | .ret | .call | .phi | .elementPtr | .invalid | .unassigned _ => none
  | _ => some 0

/-- The operand that an operation takes its type from if it is described without one. -/
def Opcode.typeSource? : Opcode → Option Nat
  | .binary _ => some 0
  | .select => some 1
  | _ => none

/-- Whether an operation has the operands that belong to it. -/
structure Operation.Complete (i : Operation) : Prop where
  operands : i.op.Takes i.operands.length
  targets : ∀ n, i.op.targetCount? = some n → i.targets.length = n
  sources : i.op = .phi → i.operands.length = i.incoming.length
  pred : i.op = .icmp ∨ i.op = .fcmp → i.pred ≠ .unset

namespace Description

theorem expect_eq_ok {i : Operation} {n k : Nat} {u : Unit} :
    expect i n k = .ok u ↔ i.operands.length = n ∧ i.targets.length = k := by
  rw [expect]
  by_cases hn : i.operands.length = n
  · by_cases hk : i.targets.length = k
    · simp [hn, hk]
    · simp [hn, hk]
  · simp [hn]

section

variable {m : Module} {scope : Scope} {i : Operation} {ty? : Option Ty} {t : Ty}

theorem complete_of_expect {n k : Nat} {u : Unit} (h : expect i n k = .ok u) (hn : i.op.Takes n)
    (hk : i.op.targetCount? = some k) (hphi : i.op ≠ .phi) (hpred : i.op = .icmp ∨ i.op = .fcmp →
      i.pred ≠ .unset) :
    i.Complete := by
  obtain ⟨hoperands, htargets⟩ := expect_eq_ok.mp h
  refine ⟨hoperands ▸ hn, ?_, fun h => absurd h hphi, hpred⟩
  intro c hc
  rw [hk, Option.some.injEq] at hc
  rw [htargets, hc]

/-- An operation that is accepted has what belongs to it. -/
theorem checkInstr_complete (h : checkInstr m scope i ty? = .ok t) : i.Complete := by
  rw [checkInstr] at h
  cases hop : i.op with
  | binary op | store | select | br | condBr | unreachable | cast op | load | alloca =>
    simp only [hop] at h
    obtain ⟨u, hu, _⟩ := bind_eq_ok.mp h
    refine complete_of_expect hu ?_ ?_ ?_ ?_
    all_goals simp [hop, Opcode.Takes, Opcode.targetCount?]
  | icmp | fcmp =>
    simp only [hop] at h
    by_cases hpred : i.pred = .unset
    · simp [hpred] at h
    · rw [if_neg hpred] at h
      obtain ⟨u, hu, _⟩ := bind_eq_ok.mp h
      refine complete_of_expect hu ?_ ?_ ?_ fun _ => hpred
      all_goals simp [hop, Opcode.Takes, Opcode.targetCount?]
  | elementPtr =>
    simp only [hop] at h
    by_cases hfew : i.operands.length < 2
    · simp [hfew] at h
    · refine ⟨by rw [hop]; exact Nat.le_of_not_lt hfew, ?_, ?_, ?_⟩
      all_goals simp [hop, Opcode.targetCount?]
  | call =>
    simp only [hop] at h
    cases hoperands : i.operands with
    | nil => simp [hoperands] at h
    | cons v vs =>
      refine ⟨by simp [hop, hoperands, Opcode.Takes], ?_, ?_, ?_⟩
      all_goals simp [hop, Opcode.targetCount?]
  | ret =>
    simp only [hop] at h
    by_cases hmany : 1 < i.operands.length
    · simp [hmany] at h
    · refine ⟨by rw [hop]; exact Nat.le_of_not_lt hmany, ?_, ?_, ?_⟩
      all_goals simp [hop, Opcode.targetCount?]
  | phi =>
    simp only [hop] at h
    by_cases hsources : i.operands.length = i.incoming.length
    · refine ⟨?_, ?_, fun _ => hsources, ?_⟩
      all_goals simp [hop, Opcode.Takes, Opcode.targetCount?]
    · simp [hsources] at h
  | invalid | unassigned code => simp [hop] at h

/-- A type that is described stands. -/
theorem checkInstr_described {t₀ : Ty} (h : checkInstr m scope i (some t₀) = .ok t) : t = t₀ := by
  rw [checkInstr] at h
  cases hop : i.op with
  | binary op | store | select | br | condBr | unreachable | cast op | load | alloca =>
    simp only [hop] at h
    obtain ⟨u, _, ht⟩ := bind_eq_ok.mp h
    exact (Except.ok.inj ht).symm
  | icmp | fcmp =>
    simp only [hop] at h
    split at h
    · simp at h
    · obtain ⟨u, _, ht⟩ := bind_eq_ok.mp h
      exact (Except.ok.inj ht).symm
  | elementPtr | call | ret | phi =>
    simp only [hop] at h
    split at h
    · simp at h
    · exact (Except.ok.inj h).symm
  | invalid | unassigned code => simp [hop] at h

/-- A type that is not described is taken from an operand, as it is known so far. -/
theorem checkInstr_inferred {k : Nat} (h : checkInstr m scope i none = .ok t)
    (hk : i.op.typeSource? = some k) :
    ∃ v, i.operands[k]? = some v ∧ t = v.ty scope := by
  have hsource : ∀ {n : Nat}, i.operands.length = n → k < n → inferType scope i k none = t →
      ∃ v, i.operands[k]? = some v ∧ t = v.ty scope := by
    intro n hn hlt ht
    refine ⟨i.operands[k], List.getElem?_eq_getElem (hn ▸ hlt), ?_⟩
    rw [← ht, inferType, List.getElem?_eq_getElem (hn ▸ hlt)]
  rw [checkInstr] at h
  cases hop : i.op with
  | binary op =>
    rw [hop, Opcode.typeSource?, Option.some.injEq] at hk
    simp only [hop] at h
    obtain ⟨u, hu, ht⟩ := bind_eq_ok.mp h
    subst hk
    exact hsource (expect_eq_ok.mp hu).1 (by omega) (Except.ok.inj ht)
  | select =>
    rw [hop, Opcode.typeSource?, Option.some.injEq] at hk
    simp only [hop] at h
    obtain ⟨u, hu, ht⟩ := bind_eq_ok.mp h
    subst hk
    exact hsource (expect_eq_ok.mp hu).1 (by omega) (Except.ok.inj ht)
  | _ => simp [hop, Opcode.typeSource?] at hk

end

/-- An instruction comes from its draft: the texts are looked up, and its type is settled with the
types known by then. -/
structure Resolves (m : Module) (d : FuncDraft) (types : TypeTable) (draft : Draft) (i : Instr) :
    Prop where
  id : i.id = draft.id
  op : i.op = draft.op
  name : i.name = draft.name
  pred : i.pred = draft.pred
  operands :
    List.Forall₂ (fun text v => readOperand m d.locals text = .ok v) draft.spec.args i.operands
  targets :
    List.Forall₂ (fun name b => readBlockRef d.func name = .ok b) draft.spec.targets i.targets
  incoming :
    List.Forall₂ (fun name b => readBlockRef d.func name = .ok b) draft.spec.sources i.incoming
  check : checkInstr m (scopeWith m types) { i.toOperation with ty := .void } draft.ty? = .ok i.ty

/-- Instructions come from their drafts one after the other, each type being known from then on. -/
inductive ResolvesAll (m : Module) (d : FuncDraft) : TypeTable → List Draft → List Instr →
    Prop where
  | nil {types : TypeTable} : ResolvesAll m d types [] []
  | cons {types : TypeTable} {draft : Draft} {drafts : List Draft} {i : Instr} {is : List Instr}
      (first : Resolves m d types draft i)
        (rest : ResolvesAll m d ((i.id, i.ty) :: types) drafts is) :
      ResolvesAll m d types (draft :: drafts) (i :: is)

/-- The types of some instructions, the last one first. -/
def typesOf (is : List Instr) : TypeTable := (is.map fun i => (i.id, i.ty)).reverse

section

variable {m : Module} {d : FuncDraft} {types types₁ : TypeTable} {draft : Draft}
  {drafts more : List Draft} {i : Instr} {is js : List Instr}

theorem ResolvesAll.append (h : ResolvesAll m d types drafts is)
    (h' : ResolvesAll m d (typesOf is ++ types) more js) :
    ResolvesAll m d types (drafts ++ more) (is ++ js) := by
  induction h with
  | nil => exact h'
  | cons first _ ih =>
    apply ResolvesAll.cons first
    apply ih
    simpa [typesOf] using h'

theorem ResolvesAll.forall₂ (h : ResolvesAll m d types drafts is) :
    List.Forall₂ (fun draft i => ∃ types, Resolves m d types draft i) drafts is := by
  induction h with
  | nil => exact .nil
  | cons first _ ih => exact .cons ⟨_, first⟩ ih

theorem resolveInstr_ok (h : resolveInstr m d types draft = .ok (i, types₁)) :
    Resolves m d types draft i ∧ types₁ = (i.id, i.ty) :: types := by
  obtain ⟨operands, hoperands, h⟩ := bind_eq_ok.mp h
  obtain ⟨targets, htargets, h⟩ := bind_eq_ok.mp h
  obtain ⟨incoming, hincoming, h⟩ := bind_eq_ok.mp h
  obtain ⟨ty, hty, h⟩ := bind_eq_ok.mp h
  rw [Except.ok.injEq, Prod.mk.injEq] at h
  obtain ⟨rfl, rfl⟩ := h
  exact ⟨⟨rfl, rfl, rfl, rfl, mapM_eq_ok.mp hoperands, mapM_eq_ok.mp htargets,
    mapM_eq_ok.mp hincoming, hty⟩, rfl⟩

theorem resolveInstrs_ok {a j k : Nat}
    (h : resolveInstrs m d a j k types drafts = .ok (is, types₁)) :
    ResolvesAll m d types drafts is ∧ types₁ = typesOf is ++ types := by
  induction drafts generalizing k types is with
  | nil =>
    rw [resolveInstrs, Except.ok.injEq, Prod.mk.injEq] at h
    obtain ⟨rfl, rfl⟩ := h
    exact ⟨.nil, rfl⟩
  | cons draft drafts ih =>
    obtain ⟨⟨i, types₂⟩, hfirst, h⟩ := bind_eq_ok.mp h
    obtain ⟨⟨rest, types₃⟩, hrest, h⟩ := bind_eq_ok.mp h
    rw [Except.ok.injEq, Prod.mk.injEq] at h
    obtain ⟨rfl, rfl⟩ := h
    obtain ⟨hi, rfl⟩ := resolveInstr_ok (atPlace_eq_ok.mp hfirst)
    obtain ⟨hall, rfl⟩ := ih hrest
    exact ⟨.cons hi hall, by simp [typesOf]⟩

end

/-- The instructions of a block come from their drafts, and the last one is a terminator. -/
structure ResolvesBlock (m : Module) (d : FuncDraft) (drafts : List Draft) (k : Block) : Prop where
  instrs : List.Forall₂ (fun draft i => ∃ types, Resolves m d types draft i) drafts k.instrs
  ended : k.term?.isSome

/-- A function comes from its draft: only the blocks are filled, and what is put into them is
recorded. -/
structure ResolvesFunc (m : Module) (d : FuncDraft) (f : Func) : Prop where
  func : f = { d.func with blocks := f.blocks, parents := f.places }
  headers : f.blocks.map (fun k => (k.name, k.id)) = d.func.blocks.map fun k => (k.name, k.id)
  homes : f.blocks.map Block.parent = d.func.blocks.map Block.parent
  blocks : List.Forall₂ (ResolvesBlock m d) d.bodies f.blocks
  instrs : ResolvesAll m d (describedTypes d) d.bodies.flatten f.instrs

namespace ResolvesFunc

variable {m : Module} {d : FuncDraft} {f : Func}

theorem id (h : ResolvesFunc m d f) : f.id = d.func.id := by rw [h.func]

theorem name (h : ResolvesFunc m d f) : f.name = d.func.name := by rw [h.func]

theorem params (h : ResolvesFunc m d f) : f.params = d.func.params := by rw [h.func]

theorem ty (h : ResolvesFunc m d f) : f.ty = d.func.ty := by
  rw [h.func]
  rfl

theorem loose (h : ResolvesFunc m d f) : f.loose = d.func.loose := by rw [h.func]

theorem maxBlock (h : ResolvesFunc m d f) : f.maxBlock = d.func.maxBlock := by rw [h.func]

theorem nextSerial (h : ResolvesFunc m d f) : f.nextSerial = d.func.nextSerial := by rw [h.func]

theorem names (h : ResolvesFunc m d f) :
    f.blocks.map Block.name = d.func.blocks.map Block.name := by
  simpa [Function.comp_def] using congrArg (List.map Prod.fst) h.headers

/-- Instructions keep the names and numbers of their drafts. -/
theorem results (h : ResolvesFunc m d f) :
    d.bodies.flatten.map (fun draft => (draft.name, draft.id)) = f.instrs.map fun i =>
      (i.name, i.id) := by
  refine map_eq_of_forall₂ h.instrs.forall₂ fun draft i hi => ?_
  obtain ⟨_, hi⟩ := hi
  rw [hi.name, hi.id]

theorem numbers (h : ResolvesFunc m d f) : f.blocks.map Block.id = d.func.blocks.map Block.id := by
  simpa [Function.comp_def] using congrArg (List.map Prod.snd) h.headers

end ResolvesFunc

section

variable {m : Module} {d : FuncDraft}

theorem resolveBlocks_ok {a j : Nat} {types : TypeTable} {bs ks : List Block}
    {bodies : List (List Draft)} (hlength : bs.length = bodies.length)
    (h : resolveBlocks m d a j types bs bodies = .ok ks) :
    ks.map (fun k => (k.name, k.id)) = bs.map (fun k => (k.name, k.id)) ∧
      ks.map Block.parent = bs.map Block.parent ∧
        List.Forall₂ (ResolvesBlock m d) bodies ks ∧
          ResolvesAll m d types bodies.flatten (ks.flatMap Block.instrs) := by
  induction bs generalizing j types bodies ks with
  | nil =>
    cases bodies with
    | nil =>
      rw [resolveBlocks, Except.ok.injEq] at h
      · subst h
        exact ⟨rfl, rfl, .nil, .nil⟩
      · simp
    | cons drafts bodies => simp at hlength
  | cons b bs ih =>
    cases bodies with
    | nil => simp at hlength
    | cons drafts bodies =>
      obtain ⟨⟨is, types₁⟩, his, h⟩ := bind_eq_ok.mp h
      obtain ⟨hall, rfl⟩ := resolveInstrs_ok his
      cases hterm : Block.term? { b with instrs := is } with
      | none => simp [hterm] at h
      | some t =>
        simp only [hterm, Option.isNone_some, Bool.false_eq_true, if_false] at h
        obtain ⟨rest, hrest, h⟩ := bind_eq_ok.mp h
        cases h
        obtain ⟨hheaders, hhomes, hblocks, hinstrs⟩ := ih (by simpa using hlength) hrest
        refine ⟨by simp [hheaders], by simp [hhomes],
          .cons ⟨hall.forall₂, by rw [hterm]; rfl⟩ hblocks, ?_⟩
        rw [List.flatten_cons, List.flatMap_cons]
        exact hall.append hinstrs

theorem resolveFunc_ok {a : Nat} {f : Func} (hlength : d.func.blocks.length = d.bodies.length)
    (h : resolveFunc m a d = .ok f) : ResolvesFunc m d f := by
  obtain ⟨blocks, hblocks, h⟩ := bind_eq_ok.mp h
  cases h
  obtain ⟨hheaders, hhomes, hall, hinstrs⟩ := resolveBlocks_ok hlength hblocks
  exact ⟨rfl, hheaders, hhomes, hall, hinstrs⟩

theorem resolveFuncs_ok {a : Nat} {ds : List FuncDraft} {fs : List Func}
    (hlength : ∀ d ∈ ds, d.func.blocks.length = d.bodies.length)
    (h : resolveFuncs m a ds = .ok fs) :
    List.Forall₂ (ResolvesFunc m) ds fs := by
  induction ds generalizing a fs with
  | nil =>
    rw [resolveFuncs, Except.ok.injEq] at h
    exact h ▸ .nil
  | cons d ds ih =>
    obtain ⟨f, hf, h⟩ := bind_eq_ok.mp h
    obtain ⟨rest, hrest, h⟩ := bind_eq_ok.mp h
    cases h
    rw [List.forall_mem_cons] at hlength
    exact .cons (resolveFunc_ok hlength.1 hf) (ih hlength.2 hrest)

/-- A node is added to the tables and none is taken away. -/
theorem mem_addNode {table : String} {node n : MetadataNode} {t : MetadataTable}
    {ts : List MetadataTable} (ht : t ∈ addNode table node ts) (hn : n ∈ t.nodes) :
    n = node ∨ ∃ t' ∈ ts, n ∈ t'.nodes := by
  induction ts with
  | nil =>
    rw [addNode, List.mem_singleton] at ht
    subst ht
    exact Or.inl (List.mem_singleton.mp hn)
  | cons s ts ih =>
    have htail : t ∈ ts → ∃ t' ∈ s :: ts, n ∈ t'.nodes :=
      fun ht => ⟨t, List.mem_cons_of_mem _ ht, hn⟩
    rw [addNode] at ht
    split at ht
    · rcases List.mem_cons.mp ht with rfl | ht
      · rcases List.mem_append.mp hn with hn | hn
        · exact Or.inr ⟨s, List.mem_cons_self, hn⟩
        · exact Or.inl (List.mem_singleton.mp hn)
      · exact Or.inr (htail ht)
    · split at ht
      · rcases List.mem_cons.mp ht with rfl | ht
        · exact Or.inl (List.mem_singleton.mp hn)
        · exact Or.inr ⟨t, ht, hn⟩
      · rcases List.mem_cons.mp ht with rfl | ht
        · exact Or.inr ⟨t, List.mem_cons_self, hn⟩
        · obtain hnode | ⟨t', ht', hn'⟩ := ih ht
          · exact Or.inl hnode
          · exact Or.inr ⟨t', List.mem_cons_of_mem _ ht', hn'⟩

theorem readMetadata_ok {text : String} {v : Value} (h : readMetadata m text = .ok (.value v)) :
    (∀ d, v ≠ .instr d) ∧ ∀ id, v = .func id → id ∈ m.functions.map Func.id := by
  rw [readMetadata] at h
  split at h
  · next name _ =>
    rw [readSymbol] at h
    split at h
    · next f hf =>
      cases h
      have hmem : f ∈ m.functions := List.mem_of_find?_eq_some hf
      refine ⟨nofun, fun id hid => ?_⟩
      cases hid
      exact List.mem_map_of_mem hmem
    · split at h
      · cases h
        exact ⟨nofun, nofun⟩
      · cases h
  · split at h
    · next u hu =>
      cases h
      have hspells := readConstant_eq_ok.mp hu
      generalize text.toList = cs at hspells
      cases hspells with
      | int => exact ⟨nofun, nofun⟩
      | float => exact ⟨nofun, nofun⟩
    · cases h

/-- Metadata changes nothing but the tables. -/
theorem readNodes_ok {m₁ : Module} {table : String} {a : Nat} {nodes : List (List String)}
    (h : readNodes table m a nodes = .ok m₁) : ∃ tables, m₁ = { m with tables } ∧
      ((∀ t ∈ m.tables, ∀ n ∈ t.nodes, n.Within m.functions) →
        ∀ t ∈ tables, ∀ n ∈ t.nodes, n.Within m.functions) := by
  induction nodes generalizing m a with
  | nil => exact ⟨m.tables, (Except.ok.inj h).symm, fun hm => hm⟩
  | cons node nodes ih =>
    obtain ⟨items, hitems, h⟩ := bind_eq_ok.mp h
    have hnode : MetadataNode.Within m.functions items := by
      intro v hv
      obtain ⟨text, _, htext⟩ := exists_of_mem_right (mapM_eq_ok.mp (atPlace_eq_ok.mp hitems)) hv
      exact readMetadata_ok htext
    obtain ⟨tables, rfl, htables⟩ := ih h
    refine ⟨tables, rfl, fun hm => htables fun t ht n hn => ?_⟩
    rcases mem_addNode ht hn with rfl | ⟨t', ht', hn'⟩
    · exact hnode
    · exact hm t' ht' n hn'

theorem readTables_ok {m₁ : Module} {ts : List TableSpec} (h : readTables m ts = .ok m₁) :
    ∃ tables, m₁ = { m with tables } ∧
      ((∀ t ∈ m.tables, ∀ n ∈ t.nodes, n.Within m.functions) →
        ∀ t ∈ tables, ∀ n ∈ t.nodes, n.Within m.functions) := by
  induction ts generalizing m with
  | nil => exact ⟨m.tables, (Except.ok.inj h).symm, fun hm => hm⟩
  | cons t ts ih =>
    obtain ⟨m₂, hm₂, h⟩ := bind_eq_ok.mp h
    obtain ⟨_, rfl, hfirst⟩ := readNodes_ok hm₂
    obtain ⟨tables, rfl, htables⟩ := ih h
    exact ⟨tables, rfl, fun hm => htables (hfirst hm)⟩

end

/-- How a module comes from its description: the functions of `declared` still have empty blocks,
and the operands are looked up there. -/
structure Loads (spec : ModuleSpec) (declared : Module) (ds : List FuncDraft) (m : Module) :
    Prop where
  globals : List.Forall₂
    (fun s g => g.name = s.name ∧ Ty.read s.type.toList = .ok g.ty) spec.globals m.globals
  follows : List.Forall₂ FuncDraft.Follows spec.functions ds
  resolves : List.Forall₂ (ResolvesFunc declared) ds m.functions
  ids : ds.map (fun d => d.func.id) = List.range ds.length
  symbols : declared.symbols.Nodup
  same : declared.globals = m.globals
  functions : declared.functions = ds.map FuncDraft.func
  known : declared.dropped = []
  dropped : m.dropped = []
  tables : ∀ t ∈ m.tables, ∀ n ∈ t.nodes, n.Within m.functions

theorem Loads.of_ofSpec {spec : ModuleSpec} {m : Module} (h : Module.ofSpec spec = .ok m) :
    ∃ declared ds, Loads spec declared ds m := by
  obtain ⟨m₀, hglobals, h⟩ := bind_eq_ok.mp h
  obtain ⟨⟨m₁, ds⟩, hdeclared, h⟩ := bind_eq_ok.mp h
  obtain ⟨fs, hfs, h⟩ := bind_eq_ok.mp h
  obtain ⟨gs, rfl, hgs, hdistinct⟩ := readGlobals_ok hglobals
  obtain ⟨rfl, hfollows, hids, hdistinct'⟩ := declareFuncs_ok hdeclared
  obtain ⟨tables, rfl, htables⟩ := readTables_ok h
  have hlength : ∀ d ∈ ds, d.func.blocks.length = d.bodies.length := by
    intro d hd
    obtain ⟨s, _, hs⟩ := exists_of_mem_right hfollows hd
    have hnames := congrArg List.length hs.names
    rw [List.length_map, List.length_map] at hnames
    rw [hnames, hs.bodies.length_eq]
  refine ⟨_, ds, hgs, hfollows, resolveFuncs_ok hlength hfs, ?_, ?_, rfl, rfl, rfl, rfl,
    htables nofun⟩
  · rw [hids rfl, List.range_eq_range']
    rfl
  · exact hdistinct' (hdistinct List.nodup_nil)

end Description

end KernelIR
