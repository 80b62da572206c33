import KernelIR.Proofs.Preheader.Insertion
import KernelIR.Proofs.Simplify

namespace KernelIR

/-- The blocks that an instruction refers to. -/
def Operation.refs (o : Operation) : List BlockRef := o.targets ++ o.incoming

namespace Func

variable {f g k : Func} {l : Loop} {σ : Instr → Instr} {new : List Instr}

/-- What a change of a function keeps so that every reference can still be followed. -/
structure Retains (f g : Func) : Prop where
  id : g.id = f.id
  instrs : ∀ i ∈ f.held, ∃ j ∈ g.held, j.id = i.id
  blocks : ∀ b ∈ f.blocks, ∃ c ∈ g.blocks, c.id = b.id
  operands :
    ∀ j ∈ g.held, ∀ v ∈ j.operands, (∃ i ∈ f.held, v ∈ i.operands) ∨ ∃ i ∈ g.held, v = .instr i.id
  refs : ∀ j ∈ g.held, ∀ b ∈ j.refs, (∃ i ∈ f.held, b ∈ i.refs) ∨ ∃ c ∈ g.blocks, b = g.ref c.id

theorem Retains.refl (f : Func) : f.Retains f where
  id := rfl
  instrs i hi := ⟨i, hi, rfl⟩
  blocks b hb := ⟨b, hb, rfl⟩
  operands j hj _ hv := Or.inl ⟨j, hj, hv⟩
  refs j hj _ hb := Or.inl ⟨j, hj, hb⟩

theorem Retains.trans (h : f.Retains g) (h' : g.Retains k) : f.Retains k where
  id := h'.id.trans h.id
  instrs i hi := by
    obtain ⟨j, hj, hji⟩ := h.instrs i hi
    obtain ⟨x, hx, hxj⟩ := h'.instrs j hj
    exact ⟨x, hx, hxj.trans hji⟩
  blocks b hb := by
    obtain ⟨c, hc, hcb⟩ := h.blocks b hb
    obtain ⟨d, hd, hdc⟩ := h'.blocks c hc
    exact ⟨d, hd, hdc.trans hcb⟩
  operands x hx v hv := by
    rcases h'.operands x hx v hv with ⟨j, hj, hv⟩ | hown
    · rcases h.operands j hj v hv with hold | ⟨i, hi, rfl⟩
      · exact Or.inl hold
      · obtain ⟨y, hy, hyi⟩ := h'.instrs i hi
        exact Or.inr ⟨y, hy, by rw [hyi]⟩
    · exact Or.inr hown
  refs x hx b hb := by
    rcases h'.refs x hx b hb with ⟨j, hj, hb⟩ | hown
    · rcases h.refs j hj b hb with hold | ⟨c, hc, rfl⟩
      · exact Or.inl hold
      · obtain ⟨d, hd, hdc⟩ := h'.blocks c hc
        exact Or.inr ⟨d, hd, by rw [Func.ref, Func.ref, h'.id, hdc]⟩
    · exact Or.inr hown

/-- Moving instructions around changes no reference. -/
theorem Retains.of_perm (hid : g.id = f.id)
    (hnumbers : g.blocks.map Block.id = f.blocks.map Block.id)
    (hperm : g.held.Perm f.held) : f.Retains g where
  id := hid
  instrs i hi := ⟨i, hperm.mem_iff.mpr hi, rfl⟩
  blocks b hb := by
    have hmem : b.id ∈ g.blocks.map Block.id := hnumbers ▸ List.mem_map_of_mem hb
    exact List.mem_map.mp hmem
  operands j hj _ hv := Or.inl ⟨j, hperm.mem_iff.mp hj, hv⟩
  refs j hj _ hb := Or.inl ⟨j, hperm.mem_iff.mp hj, hb⟩

/-- A new block before a header refers to what the phis of the header referred to, and to the
header. -/
theorem Places.retains (h : f.Places l σ new) : f.Retains (f.entered l σ new) where
  id := rfl
  instrs i hi := by
    obtain ⟨j, hj, ha⟩ := h.exists_alters hi
    exact ⟨j, hj, ha.id⟩
  blocks b hb := ⟨f.changed l σ b, h.mem_changed_blocks hb, id_rewired b⟩
  operands j hj v hv := by
    rcases h.alters_held hj with ⟨i, hi, ha⟩ | hnew | rfl
    · rcases ha.operands v hv with hv | ⟨n, hn, rfl⟩
      · exact Or.inl ⟨i, hi, hv⟩
      · exact Or.inr
          ⟨n, mem_held_of_mem (h.mem_blocks.mpr (Or.inl rfl)) (List.mem_append_left _ hn), rfl⟩
    · obtain ⟨_, φ, hφ, hoperands, _⟩ := h.joins.made j hnew
      rw [hoperands] at hv
      obtain ⟨e, he, rfl⟩ := List.mem_map.mp hv
      exact Or.inl ⟨φ, List.mem_append_left _ (h.mem_instrs_phi hφ),
        (List.of_mem_zip (List.mem_of_mem_filter he)).1⟩
    · exact absurd hv List.not_mem_nil
  refs j hj b hb := by
    have hfresh : ∃ c ∈ (f.entered l σ new).blocks, f.ref f.fresh = (f.entered l σ new).ref c.id :=
      ⟨f.preheader l new, h.mem_blocks.mpr (Or.inl rfl), rfl⟩
    rcases h.alters_held hj with ⟨i, hi, ha⟩ | hnew | rfl
    · rcases List.mem_append.mp hb with hb | hb
      · rcases ha.targets b hb with hb | rfl
        · exact Or.inl ⟨i, hi, List.mem_append_left _ hb⟩
        · exact Or.inr hfresh
      · rcases ha.sources b hb with hb | rfl
        · exact Or.inl ⟨i, hi, List.mem_append_right _ hb⟩
        · exact Or.inr hfresh
    · obtain ⟨_, φ, hφ, _, hincoming⟩ := h.joins.made j hnew
      rw [Operation.refs, h.joins.plain j hnew, hincoming, List.nil_append] at hb
      obtain ⟨e, he, rfl⟩ := List.mem_map.mp hb
      exact Or.inl ⟨φ, List.mem_append_left _ (h.mem_instrs_phi hφ),
        List.mem_append_right _ (List.of_mem_zip (List.mem_of_mem_filter he)).2⟩
    · obtain ⟨c, hc, hheader⟩ := h.header
      have hb' : b = l.header := by simpa [Operation.refs, entrance] using hb
      refine Or.inr ⟨f.changed l σ c, h.mem_changed_blocks hc, ?_⟩
      rw [hb', hheader]
      exact congrArg f.ref (id_rewired c).symm

end Func

/-- Whether a reference to an instruction or a function can be followed. -/
def Value.Resolved (m : Module) : Value → Prop
  | .instr d => (m.instr? d).isSome
  | .func id => (m.func? id).isSome
  | _ => True

/-- Whether all that an instruction refers to can be found. -/
structure Instr.Resolved (m : Module) (i : Instr) : Prop where
  operands : ∀ v ∈ i.operands, v.Resolved m
  refs : ∀ b ∈ i.refs, (m.block? b).isSome

namespace Module

variable {m m' : Module} {f g : Func}

namespace Consistent

theorem func?_isSome_iff (hm : m.Consistent) {id : FuncId} : (m.func? id).isSome ↔
    ∃ f ∈ m.known, f.id = id := by
  simp only [Option.isSome_iff_exists, hm.func?_iff]

theorem instr?_isSome_iff (hm : m.Consistent) {d : InstrId} :
    (m.instr? d).isSome ↔ ∃ f ∈ m.known, ∃ i ∈ f.held, i.id = d := by
  simp only [Option.isSome_iff_exists, hm.instr?_iff]
  constructor
  · rintro ⟨i, f, hf, hi, hid⟩
    exact ⟨f, hf, i, hi, hid⟩
  · rintro ⟨f, hf, i, hi, hid⟩
    exact ⟨i, f, hf, hi, hid⟩

theorem block?_isSome_iff (hm : m.Consistent) {b : BlockRef} :
    (m.block? b).isSome ↔ ∃ f ∈ m.known, ∃ k ∈ f.blocks, b = f.ref k.id := by
  rw [block?, Option.isSome_bind, Option.any_eq_true]
  simp only [hm.func?_iff, Func.block?, List.find?_isSome, decide_eq_true_eq]
  constructor
  · rintro ⟨f, ⟨hf, hid⟩, k, hk, hkb⟩
    exact ⟨f, hf, k, hk, by rw [Func.ref, hid, hkb]⟩
  · rintro ⟨f, hf, k, hk, rfl⟩
    exact ⟨f, ⟨hf, rfl⟩, k, hk, rfl⟩

end Consistent

/-- Whether all that can be found in a module can be found in another one. -/
structure Supplies (m m' : Module) : Prop where
  funcs : ∀ id, (m.func? id).isSome → (m'.func? id).isSome
  instrs : ∀ d, (m.instr? d).isSome → (m'.instr? d).isSome
  blocks : ∀ b, (m.block? b).isSome → (m'.block? b).isSome

theorem Supplies.refl (m : Module) : m.Supplies m := ⟨fun _ => id, fun _ => id, fun _ => id⟩

theorem Supplies.trans {m'' : Module} (h : m.Supplies m') (h' : m'.Supplies m'') : m.Supplies m'' :=
  ⟨fun id hid => h'.funcs id (h.funcs id hid), fun d hd => h'.instrs d (h.instrs d hd),
    fun b hb => h'.blocks b (h.blocks b hb)⟩

theorem Supplies.value (h : m.Supplies m') {v : Value} (hv : v.Resolved m) : v.Resolved m' := by
  cases v with
  | instr d => exact h.instrs d hv
  | func id => exact h.funcs id hv
  | _ => trivial

theorem Supplies.instr (h : m.Supplies m') {i : Instr} (hi : i.Resolved m) : i.Resolved m' :=
  ⟨fun v hv => h.value (hi.operands v hv), fun b hb => h.blocks b (hi.refs b hb)⟩

/-- A consistent module in which blocks end with terminators, branches stay in their function, phis
have as many values as sources, and every reference leads to something. -/
structure Intact (m : Module) : Prop where
  consistent : m.Consistent
  framed : ∀ f ∈ m.known, f.Framed
  paired : ∀ f ∈ m.known, f.Paired
  resolved : ∀ f ∈ m.known, ∀ i ∈ f.held, i.Resolved m
  tables : ∀ t ∈ m.tables, ∀ n ∈ t.nodes, ∀ v, .value v ∈ n → v.Resolved m

theorem supplies_update (hm : m.Consistent) (hm' : (m.update g).Consistent) (hf : f ∈ m.known)
    (hg : f.Retains g) :
    m.Supplies (m.update g) := by
  have hknown := fun x => mem_known_update (x := x) hf hg.id
  refine ⟨fun id => ?_, fun d => ?_, fun b => ?_⟩
  · rw [hm.func?_isSome_iff, hm'.func?_isSome_iff]
    rintro ⟨x, hx, rfl⟩
    by_cases hid : x.id = f.id
    · exact ⟨g, (hknown g).mpr (Or.inl rfl), hg.id.trans hid.symm⟩
    · exact ⟨x, (hknown x).mpr (Or.inr ⟨hx, hid⟩), rfl⟩
  · rw [hm.instr?_isSome_iff, hm'.instr?_isSome_iff]
    rintro ⟨x, hx, i, hi, rfl⟩
    by_cases hid : x.id = f.id
    · rw [List.inj_on_of_nodup_map hm.funcs hx hf hid] at hi
      exact ⟨g, (hknown g).mpr (Or.inl rfl), hg.instrs i hi⟩
    · exact ⟨x, (hknown x).mpr (Or.inr ⟨hx, hid⟩), i, hi, rfl⟩
  · rw [hm.block?_isSome_iff, hm'.block?_isSome_iff]
    rintro ⟨x, hx, k, hk, rfl⟩
    by_cases hid : x.id = f.id
    · rw [List.inj_on_of_nodup_map hm.funcs hx hf hid] at hk ⊢
      obtain ⟨c, hc, hck⟩ := hg.blocks k hk
      exact ⟨g, (hknown g).mpr (Or.inl rfl), c, hc, by rw [Func.ref, Func.ref, hg.id, hck]⟩
    · exact ⟨x, (hknown x).mpr (Or.inr ⟨hx, hid⟩), k, hk, rfl⟩

/-- A changed function that refers to nothing new leaves the module intact. -/
theorem Intact.update (h : m.Intact) (hf : f ∈ m.known) (hg : f.Retains g)
    (hm' : (m.update g).Consistent)
    (hframed : g.Framed) (hpaired : g.Paired) : (m.update g).Intact := by
  have hsupplies := supplies_update h.consistent hm' hf hg
  have hmem : g ∈ (m.update g).known := (mem_known_update hf hg.id).mpr (Or.inl rfl)
  refine ⟨hm', fun x hx => ?_, fun x hx => ?_, fun x hx i hi => ?_, fun t ht n hn v hv => ?_⟩
  · rcases (mem_known_update hf hg.id).mp hx with rfl | ⟨hx, _⟩
    · exact hframed
    · exact h.framed x hx
  · rcases (mem_known_update hf hg.id).mp hx with rfl | ⟨hx, _⟩
    · exact hpaired
    · exact h.paired x hx
  · rcases (mem_known_update hf hg.id).mp hx with rfl | ⟨hx, _⟩
    · refine ⟨fun v hv => ?_, fun b hb => ?_⟩
      · rcases hg.operands i hi v hv with ⟨j, hj, hv⟩ | ⟨j, hj, rfl⟩
        · exact hsupplies.value ((h.resolved f hf j hj).operands v hv)
        · exact hm'.instr?_isSome_iff.mpr ⟨x, hmem, j, hj, rfl⟩
      · rcases hg.refs i hi b hb with ⟨j, hj, hb⟩ | ⟨c, hc, rfl⟩
        · exact hsupplies.blocks b ((h.resolved f hf j hj).refs b hb)
        · exact hm'.block?_isSome_iff.mpr ⟨x, hmem, c, hc, rfl⟩
    · exact hsupplies.instr (h.resolved x hx i hi)
  · exact hsupplies.value (h.tables t ht n hn v hv)

theorem supplies_of_perm (hm : m.Consistent) (hknown : m'.known.Perm m.known) : m.Supplies m' := by
  have hm' := hm.of_perm hknown
  refine ⟨fun id => ?_, fun d => ?_, fun b => ?_⟩
  · simp only [hm.func?_isSome_iff, hm'.func?_isSome_iff, hknown.mem_iff, imp_self]
  · simp only [hm.instr?_isSome_iff, hm'.instr?_isSome_iff, hknown.mem_iff, imp_self]
  · simp only [hm.block?_isSome_iff, hm'.block?_isSome_iff, hknown.mem_iff, imp_self]

/-- Functions may change places, and metadata may be dropped. -/
theorem Intact.of_perm (h : m.Intact) (hknown : m'.known.Perm m.known)
    (htables : ∀ t ∈ m'.tables, ∀ n ∈ t.nodes, ∃ t' ∈ m.tables, n ∈ t'.nodes) : m'.Intact := by
  have hm' := h.consistent.of_perm hknown
  have hsupplies := supplies_of_perm h.consistent hknown
  refine ⟨hm', fun f hf => h.framed f (hknown.mem_iff.mp hf),
    fun f hf => h.paired f (hknown.mem_iff.mp hf),
    fun f hf i hi => hsupplies.instr (h.resolved f (hknown.mem_iff.mp hf) i hi),
      fun t ht n hn v hv => ?_⟩
  obtain ⟨t', ht', hn'⟩ := htables t ht n hn
  exact hsupplies.value (h.tables t' ht' n hn' v hv)

end Module

end KernelIR
