import KernelIR.Listing
import KernelIR.Proofs.Consistent

namespace KernelIR

variable (σ : FuncId → FuncId)

def InstrId.renumber (d : InstrId) : InstrId := { d with home := σ d.home }

def BlockRef.renumber (b : BlockRef) : BlockRef := { b with func := σ b.func }

def Value.renumber : Value → Value
  | .func id => .func (σ id)
  | .instr d => .instr (d.renumber σ)
  | v => v

def Operation.renumber (i : Operation) : Operation :=
  { i with
    operands := i.operands.map (Value.renumber σ)
    targets := i.targets.map (BlockRef.renumber σ)
    incoming := i.incoming.map (BlockRef.renumber σ) }

def Instr.renumber (i : Instr) : Instr := { i.toOperation.renumber σ with id := i.id.renumber σ }

def Block.renumber (b : Block) : Block :=
  { b with parent := σ b.parent, instrs := b.instrs.map (Instr.renumber σ) }

/-- A function keeps the names, types and block numbers of everything in it. -/
def Func.renumber (f : Func) : Func :=
  { f with
    id := σ f.id
    blocks := f.blocks.map (Block.renumber σ)
    loose := f.loose.map (Instr.renumber σ)
    parents := f.parents.map fun e => (e.1.renumber σ, e.2.renumber σ) }

def MetadataItem.renumber : MetadataItem → MetadataItem
  | .value v => .value (v.renumber σ)
  | .text s => .text s

def MetadataTable.renumber (t : MetadataTable) : MetadataTable :=
  { t with nodes := t.nodes.map (List.map (MetadataItem.renumber σ)) }

variable {σ}

namespace Operation

variable (i : Operation)

@[simp] theorem renumber_op : (i.renumber σ).op = i.op := rfl

@[simp] theorem renumber_name : (i.renumber σ).name = i.name := rfl

@[simp] theorem renumber_ty : (i.renumber σ).ty = i.ty := rfl

@[simp] theorem renumber_pred : (i.renumber σ).pred = i.pred := rfl

@[simp] theorem renumber_operands :
    (i.renumber σ).operands = i.operands.map (Value.renumber σ) := rfl

@[simp] theorem renumber_targets :
    (i.renumber σ).targets = i.targets.map (BlockRef.renumber σ) := rfl

@[simp] theorem renumber_incoming :
    (i.renumber σ).incoming = i.incoming.map (BlockRef.renumber σ) := rfl

@[simp] theorem renumber_args : (i.renumber σ).args = i.args.map (Value.renumber σ) := by
  rw [args, args, renumber_op, renumber_operands]
  cases i.op with
  | call => exact (List.map_drop ..).symm
  | _ => rfl

end Operation

theorem InstrId.renumber_injective (hσ : Function.Injective σ) :
    Function.Injective (InstrId.renumber σ) := by
  intro d e hde
  cases d
  cases e
  rw [InstrId.renumber, InstrId.renumber, InstrId.mk.injEq] at hde
  rw [InstrId.mk.injEq]
  exact ⟨hσ hde.1, hde.2⟩

theorem Func.label_renumber (f : Func) (n : BlockId) : (f.renumber σ).label n = f.label n := by
  have hblock : (f.renumber σ).block? n = (f.block? n).map (Block.renumber σ) := List.find?_map ..
  rw [Func.label, Func.label, hblock]
  cases f.block? n with
  | none => rfl
  | some k => rfl

theorem Func.record_renumber (f : Func) : (f.renumber σ).record = f.record.renumber σ := by
  have hplaces : (f.renumber σ).places =
      f.places.map fun e => (e.1.renumber σ, e.2.renumber σ) := by
    simp only [Func.places, Func.renumber, List.flatMap_map, List.map_flatMap, Block.renumber,
      List.map_map, Function.comp_def]
    rfl
  rw [Func.record, hplaces]
  rfl

/-- Whether names, types and labels are the same for references that are renumbered. -/
structure Scope.Renumbers (σ : FuncId → FuncId) (scope scope' : Scope) : Prop where
  func : ∀ id, scope'.func (σ id) = scope.func id
  instr : ∀ d, scope'.instr (d.renumber σ) = scope.instr d
  label : ∀ b, scope'.label (b.renumber σ) = scope.label b

namespace Scope.Renumbers

variable {scope scope' : Scope}

theorem ty (h : scope.Renumbers σ scope') (v : Value) : (v.renumber σ).ty scope' = v.ty scope := by
  cases v with
  | func id => exact congrArg Prod.snd (h.func id)
  | instr d => exact congrArg Prod.snd (h.instr d)
  | int | float | param | global => rfl

theorem ident (h : scope.Renumbers σ scope') (v : Value) :
    (v.renumber σ).ident scope' = v.ident scope := by
  cases v with
  | func id => rw [Value.renumber, Value.ident, h.func, Value.ident]
  | instr d => rw [Value.renumber, Value.ident, h.instr, Value.ident]
  | int | float | param | global => rfl

theorem typed (h : scope.Renumbers σ scope') (v : Value) :
    (v.renumber σ).typed scope' = v.typed scope := by
  rw [Value.typed, h.ty, h.ident, Value.typed]

theorem operandText (h : scope.Renumbers σ scope') (i : Operation) (k : Nat) :
    (i.renumber σ).operandText scope' k = i.operandText scope k := by
  rw [Operation.operandText, Operation.operandText, Operation.renumber, List.getElem?_map]
  cases i.operands[k]? with
  | none => rfl
  | some v => exact h.typed v

theorem operandTypeText (h : scope.Renumbers σ scope') (i : Operation) (k : Nat) :
    (i.renumber σ).operandTypeText scope' k = i.operandTypeText scope k := by
  rw [Operation.operandTypeText, Operation.operandTypeText, Operation.renumber, List.getElem?_map]
  cases i.operands[k]? with
  | none => rfl
  | some v => exact congrArg Ty.text (h.ty v)

theorem typedList (h : scope.Renumbers σ scope') (vs : List Value) :
    Operation.typedList scope' (vs.map (Value.renumber σ)) = Operation.typedList scope vs := by
  simp [Operation.typedList, Function.comp_def, h.typed]

theorem identList (h : scope.Renumbers σ scope') (vs : List Value) :
    Operation.identList scope' (vs.map (Value.renumber σ)) = Operation.identList scope vs := by
  simp [Operation.identList, Function.comp_def, h.ident]

theorem blockText (h : scope.Renumbers σ scope') (bs : List BlockRef) (k : Nat) :
    Operation.blockText scope' (bs.map (BlockRef.renumber σ)) k =
    Operation.blockText scope bs k := by
  rw [Operation.blockText, Operation.blockText, List.getElem?_map]
  cases bs[k]? with
  | none => rfl
  | some b => exact congrArg (fun s => "%" ++ s) (h.label b)

theorem phiEntries (h : scope.Renumbers σ scope') (i : Operation) :
    (i.renumber σ).phiEntries scope' = i.phiEntries scope := by
  apply List.ext_getElem?
  intro k
  simp [Operation.phiEntries, h.ident, h.blockText, Function.comp_def]

theorem calleeText (h : scope.Renumbers σ scope') (i : Operation) :
    (i.renumber σ).calleeText scope' = i.calleeText scope := by
  rw [Operation.calleeText, Operation.calleeText, Operation.renumber]
  cases i.operands with
  | nil => rfl
  | cons v vs => exact h.ident v

theorem body (h : scope.Renumbers σ scope') (i : Operation) :
    (i.renumber σ).body scope' = i.body scope := by
  rw [Operation.body, Operation.body, Operation.renumber_op]
  cases hop : i.op with
  | ret =>
    rw [Operation.renumber_operands]
    cases i.operands with
    | nil => rfl
    | cons v vs => exact congrArg (fun s => "ret " ++ s) (h.typed v)
  | _ =>
    simp only [h.operandText, h.operandTypeText, h.phiEntries, h.calleeText,
      Operation.renumber_args, h.typedList, h.identList, h.blockText, Operation.renumber_operands,
      Operation.renumber_targets, Operation.renumber_ty, Operation.renumber_pred]

theorem text (h : scope.Renumbers σ scope') (i : Operation) :
    (i.renumber σ).text scope' = i.text scope := by
  rw [Operation.text, Operation.text, h.body, Operation.renumber_name]

theorem printBlock (h : scope.Renumbers σ scope') (b : Block) :
    (b.renumber σ).print scope' = b.print scope := by
  have hlines : ∀ i : Instr, (i.renumber σ).text scope' = i.text scope :=
    fun i => h.text i.toOperation
  simp only [Block.print, Block.renumber, List.map_map, Function.comp_def, hlines]
  rfl

theorem printFunc (h : scope.Renumbers σ scope') (f : Func) :
    (f.renumber σ).print scope' = f.print scope := by
  have hdecl : (f.renumber σ).isDeclaration = f.isDeclaration := by
    simp [Func.isDeclaration, Func.renumber]
  have hheading : (f.renumber σ).heading = f.heading := by
    rw [Func.heading, Func.heading, hdecl]
    rfl
  have hblocks :
      (f.renumber σ).blocks.map (Block.print scope') = f.blocks.map (Block.print scope) := by
    simp only [Func.renumber, List.map_map, Function.comp_def, h.printBlock]
  rw [Func.print, Func.print, hdecl, hheading, hblocks]

theorem printTable (h : scope.Renumbers σ scope') (t : MetadataTable) :
    (t.renumber σ).print scope' = t.print scope := by
  have hitem : ∀ x : MetadataItem, (x.renumber σ).print scope' = x.print scope := by
    intro x
    cases x with
    | value v => exact h.typed v
    | text s => rfl
  simp only [MetadataTable.print, MetadataTable.renumber, List.map_map, Function.comp_def,
    MetadataNode.print, hitem]

end Scope.Renumbers

/-- What a search finds by a key in a list that is renumbered and put into another order. -/
theorem find?_key_of_perm {α β κ ι : Type} [DecidableEq κ] [DecidableEq ι] (key : α → κ)
    (key' : β → ι) {F : α → β} {τ : κ → ι} (hτ : Function.Injective τ) {xs : List α} {ys : List β}
    (hn : (xs.map key).Nodup)
    (hperm : ys.Perm (xs.map F)) (hkey : ∀ x, key' (F x) = τ (key x)) (k : κ) :
    ys.find? (fun y => key' y = τ k) = (xs.find? fun x => key x = k).map F := by
  have hn' : (ys.map key').Nodup := by
    have hkeys : (xs.map F).map key' = (xs.map key).map τ := by simp [Function.comp_def, hkey]
    rw [(hperm.map key').nodup_iff, hkeys]
    exact hn.map hτ
  apply Option.ext
  intro y
  rw [find?_key_iff hn', hperm.mem_iff, Option.map_eq_some_iff, List.mem_map]
  constructor
  · intro h
    obtain ⟨⟨x, hx, rfl⟩, hy⟩ := h
    rw [hkey] at hy
    exact ⟨x, (find?_key_iff hn).mpr ⟨hx, hτ hy⟩, rfl⟩
  · intro h
    obtain ⟨x, hx, rfl⟩ := h
    obtain ⟨hx, hk⟩ := (find?_key_iff hn).mp hx
    exact ⟨⟨x, hx, rfl⟩, by rw [hkey, hk]⟩

/-- Whether a module is another one with its functions renumbered and in any order. -/
structure Module.Renumbers (σ : FuncId → FuncId) (m m' : Module) : Prop where
  globals : m'.globals = m.globals
  functions : m'.functions.Perm (m.functions.map (Func.renumber σ))
  dropped : m.dropped = [] ∧ m'.dropped = []
  tables : m'.tables = m.tables.map (MetadataTable.renumber σ)
  names : (m.functions.map Func.name).Nodup
  ids : (m.functions.map Func.id).Nodup

namespace Module.Renumbers

variable {m m' : Module}

theorem func? (h : m.Renumbers σ m') (hσ : Function.Injective σ) (id : FuncId) :
    m'.func? (σ id) = (m.func? id).map (Func.renumber σ) := by
  rw [Module.func?, Module.func?, known, known, h.dropped.1, h.dropped.2, List.append_nil,
    List.append_nil]
  exact find?_key_of_perm Func.id Func.id hσ h.ids h.functions (fun _ => rfl) id

theorem funcNamed? (h : m.Renumbers σ m') (name : String) :
    m'.funcNamed? name = (m.funcNamed? name).map (Func.renumber σ) :=
  find?_key_of_perm Func.name Func.name Function.injective_id h.names h.functions
    (fun _ => rfl) name

theorem label (h : m.Renumbers σ m') (hσ : Function.Injective σ) (b : BlockRef) :
    m'.label (b.renumber σ) = m.label b := by
  rw [Module.label, Module.label, BlockRef.renumber, h.func? hσ]
  cases m.func? b.func with
  | none => rfl
  | some f => exact f.label_renumber b.number

theorem scope_func (h : m.Renumbers σ m') (hσ : Function.Injective σ) (id : FuncId) :
    m'.scope.func (σ id) = m.scope.func id := by
  simp only [scope, h.func? hσ]
  cases m.func? id with
  | none => rfl
  | some f => rfl

theorem mem_known (h : m.Renumbers σ m') {f' : Func} : f' ∈ m'.known ↔
    ∃ f ∈ m.known, f.renumber σ = f' := by
  rw [known, known, h.dropped.1, h.dropped.2, List.append_nil, List.append_nil, h.functions.mem_iff,
    List.mem_map]

theorem instr? (h : m.Renumbers σ m') (hσ : Function.Injective σ) (hm : m.Consistent)
    (hm' : m'.Consistent) (d : InstrId) :
    m'.instr? (d.renumber σ) = (m.instr? d).map (Instr.renumber σ) := by
  have hheld : ∀ f : Func, (f.renumber σ).held = f.held.map (Instr.renumber σ) := by
    intro f
    simp [Func.held, Func.instrs, Func.renumber, Block.renumber, List.flatMap_map, List.map_flatMap]
  apply Option.ext
  intro i'
  rw [hm'.instr?_iff, Option.map_eq_some_iff]
  constructor
  · intro hi
    obtain ⟨f', hf', hheld', hid⟩ := hi
    obtain ⟨f, hf, rfl⟩ := h.mem_known.mp hf'
    rw [hheld] at hheld'
    obtain ⟨i, hi, rfl⟩ := List.mem_map.mp hheld'
    exact ⟨i, hm.instr?_iff.mpr ⟨f, hf, hi, InstrId.renumber_injective hσ hid⟩, rfl⟩
  · intro hi
    obtain ⟨i, hi, rfl⟩ := hi
    obtain ⟨f, hf, hmem, rfl⟩ := hm.instr?_iff.mp hi
    exact ⟨f.renumber σ, h.mem_known.mpr ⟨f, hf, rfl⟩, hheld f ▸ List.mem_map_of_mem hmem, rfl⟩

/-- Names, types and labels do not depend on the numbers. -/
theorem scope (h : m.Renumbers σ m') (hσ : Function.Injective σ) (hm : m.Consistent)
    (hm' : m'.Consistent) :
    m.scope.Renumbers σ m'.scope := by
  refine ⟨h.scope_func hσ, ?_, h.label hσ⟩
  intro d
  simp only [Module.scope, h.instr? hσ hm hm']
  cases m.instr? d with
  | none => rfl
  | some i => rfl

end Module.Renumbers

end KernelIR
