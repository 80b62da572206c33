import KernelIR.Builder
import KernelIR.Proofs.Loops
import KernelIR.Proofs.Motion.Traversal
import KernelIR.Proofs.Ownership.Tidy

namespace KernelIR

namespace Func

theorem flatMap_insertBefore {β : Type} {P : Block → Bool} {n : Block} {G : Block → List β}
    (hn : G n = []) (ks : List Block) : (insertBefore P n ks).flatMap G = ks.flatMap G := by
  induction ks with
  | nil => rfl
  | cons k ks ih =>
    rw [insertBefore]
    split
    · rw [List.flatMap_cons, hn, List.nil_append]
    · rw [List.flatMap_cons, List.flatMap_cons, ih]

theorem after_insertPreheader (l : Loop) (f : Func) :
    (insertPreheader l).after f = f ∨ (insertPreheader l).after f = f.withPreheader l := by
  rw [Edit.after, insertPreheader]
  split_ifs
  · exact Or.inl rfl
  · cases (f.phis l.header.number).find? fun i => i.incoming.length < i.operands.length with
    | some i => exact Or.inl rfl
    | none => exact Or.inr rfl

theorem held_mapInstr (f : Func) (d : InstrId) (F : Operation → Operation) : (f.mapInstr d F).held =
    f.held.map fun i => if i.id = d then { F i.toOperation with id := i.id } else i := by
  simp [held, instrs, mapInstr, List.map_flatMap, List.flatMap_map]

theorem places_mapInstr (f : Func) (d : InstrId) (F : Operation → Operation) :
    (f.mapInstr d F).places = f.places := by
  have hid : ∀ i : Instr,
      (if i.id = d then { F i.toOperation with id := i.id } else i).id = i.id := by
    intro i
    split
    · rfl
    · rfl
  simp only [places, mapInstr, List.flatMap_map, List.map_map, Function.comp_def, hid]
  rfl

theorem Recorded.mapInstr {f : Func} (h : f.Recorded) (d : InstrId) (F : Operation → Operation) :
    (f.mapInstr d F).Recorded where
  parents := by
    rw [places_mapInstr]
    exact h.parents
  blocks k hk := by
    obtain ⟨j, hj, rfl⟩ := List.mem_map.mp hk
    exact h.blocks j hj

theorem ids_mapInstr (f : Func) (d : InstrId) (F : Operation → Operation) :
    (f.mapInstr d F).held.map Instr.id = f.held.map Instr.id := by
  rw [held_mapInstr, List.map_map]
  refine List.map_congr_left fun i _ => ?_
  rw [Function.comp_apply]
  split
  · rfl
  · rfl

end Func

namespace Module

variable {m : Module} {f g : Func} {k : Block} {d : InstrId}

/-- A change that makes no instruction. -/
theorem develops_of_held (hext : f.Extends g) (hnext : g.nextSerial = f.nextSerial)
    (hheld : g.held = f.held) (hrecorded : f.Recorded → g.Recorded) : m.Develops f g :=
  ⟨hext, ⟨0, hnext, by simp [hheld]⟩, hrecorded, fun i hi => Or.inl (hheld ▸ hi)⟩

theorem develops_refl (m : Module) (f : Func) : m.Develops f f :=
  develops_of_held (.refl f) rfl rfl fun h => h

theorem develops_newBlock (m : Module) (f : Func) (name : String) :
    m.Develops f (f.newBlock name) := by
  apply develops_of_held
  · exact ⟨rfl, Nat.le_succ _, Nat.le_refl _, [f.maxBlock + 1], by simp [Func.newBlock], by simp,
      by simp [Func.newBlock]⟩
  · rfl
  · simp [Func.held, Func.instrs, Func.newBlock]
  · intro h
    refine ⟨?_, fun k hk => ?_⟩
    · have hplaces : (f.newBlock name).places = f.places := by
        simp [Func.places, Func.newBlock, Func.ref]
      rw [hplaces]
      exact h.parents
    · rcases List.mem_append.mp hk with hk | hk
      · exact h.blocks k hk
      · rw [List.mem_singleton.mp hk]
        rfl

theorem develops_newBlockBefore (m : Module) (f : Func) (name : String) (home : FuncId)
    (pos : Block) :
    m.Develops f ((Func.newBlockBefore name home pos).after f) := by
  rw [Edit.after, Func.newBlockBefore]
  by_cases hpos : (decide (home = f.id) && (f.block? pos.id).isSome) = true
  · rw [if_pos hpos]
    have hfound : ∃ k ∈ f.blocks, decide (k.id = pos.id) = true := by
      rw [Bool.and_eq_true, Func.block?, List.find?_isSome] at hpos
      exact hpos.2
    apply develops_of_held
    · refine ⟨rfl, Nat.le_succ _, Nat.le_refl _, [f.maxBlock + 1], ?_, by simp, by simp⟩
      exact ((Func.perm_insertBefore hfound).map Block.id).trans
        (List.perm_append_singleton _ _).symm
    · rfl
    · simp only [Func.held, Func.instrs]
      rw [Func.flatMap_insertBefore rfl]
    · intro h
      refine ⟨?_, fun k hk => ?_⟩
      · rw [Func.places, Func.flatMap_insertBefore rfl]
        exact h.parents
      · rcases List.mem_cons.mp ((Func.perm_insertBefore hfound).mem_iff.mp hk) with rfl | hk
        · rfl
        · exact h.blocks k hk
  · rw [if_neg hpos]
    exact develops_of_held (.of_numbers rfl rfl (Nat.le_succ _) (Nat.le_refl _)) rfl rfl
      fun h => ⟨h.parents, h.blocks⟩

/-- One instruction is made at the end of a block. -/
theorem develops_emit (hn : (f.blocks.map Block.id).Nodup) (hk : k ∈ f.blocks) {o : Operation}
    (ho : ({ o with id := f.nextId } : Instr).Sound (m.held.map Instr.id) m.refs) :
    m.Develops f (f.emit k.id o) := by
  let i : Instr := { o with id := f.nextId }
  let F (b : Block) : Block := { b with instrs := b.instrs ++ [i] }
  have hput : (F k).instrs.Perm (i :: k.instrs) := List.perm_append_singleton i k.instrs
  have hheld : (f.emit k.id o).held.Perm (f.held ++ [i]) := by
    have hinstrs : (f.push k.id i).instrs.Perm (i :: f.instrs) :=
      Func.perm_instrs_put hn hk (F := F) rfl hput
    exact (hinstrs.append_right _).trans (List.perm_append_singleton i _).symm
  refine ⟨.of_numbers rfl ?_ (Nat.le_refl _) (Nat.le_succ _), ⟨1, rfl, ?_⟩, fun h => ?_,
    fun j hj => ?_⟩
  · show (f.push k.id i).blocks.map Block.id = f.blocks.map Block.id
    exact Func.numbers_of_bare (Func.bare_mapBlock f k.id (F := F) fun _ => rfl)
  · have hids := hheld.map Instr.id
    rwa [List.map_append] at hids
  · have hpush := h.put hn hk (F := F) (fun _ => rfl) hput
    exact ⟨hpush.parents, hpush.blocks⟩
  · rcases List.mem_append.mp (hheld.mem_iff.mp hj) with hj | hj
    · exact Or.inl hj
    · rw [List.mem_singleton.mp hj]
      exact Or.inr
        (ho.mono (fun d hd => List.mem_append_left _ hd) fun b hb => List.mem_append_left _ hb)

/-- A phi takes one more value and one more source. -/
theorem Tidy.develops_addIncoming (h : m.Tidy) (hf : f ∈ m.known) (d : InstrId) {v : Value}
    (b : BlockRef) (hv : ∀ d, v.instr? = some d → d ∈ m.held.map Instr.id) :
    m.Develops f ((Func.addIncoming d v b).after f) := by
  rw [Edit.after, Func.addIncoming]
  cases f.instr? d with
  | none => exact develops_refl m f
  | some i =>
    by_cases hop : i.op = .phi
    · simp only [if_pos hop]
      refine ⟨.of_numbers rfl (by simp [Func.mapInstr]) (Nat.le_refl _) (Nat.le_refl _),
        ⟨0, rfl, ?_⟩, fun h => h.mapInstr d _, fun j hj => ?_⟩
      · rw [Func.ids_mapInstr]
        simp
      · rw [Func.held_mapInstr] at hj
        obtain ⟨i, hi, rfl⟩ := List.mem_map.mp hj
        have hsound := h.sound i (mem_held.mpr ⟨f, hf, hi⟩)
        by_cases hid : i.id = d
        · right
          rw [if_pos hid]
          refine ⟨fun e he => List.mem_append_left _ ?_,
            fun c hc => List.mem_append_left _ (hsound.targets c hc), ?_⟩
          · rw [Operation.reads, List.filterMap_append] at he
            rcases List.mem_append.mp he with he | he
            · exact hsound.reads e he
            · exact hv e (by simpa using he)
          · intro hphi
            simp [hsound.paired hphi]
        · rw [if_neg hid]
          exact Or.inl hi
    · simp only [if_neg hop]
      exact develops_refl m f

/-- A loop is given a preheader. -/
theorem Tidy.develops_insertPreheader (h : m.Tidy) (hf : f ∈ m.known) {l : Loop}
    (hl : l.header ∈ f.refs) :
    m.Develops f ((Func.insertPreheader l).after f) := by
  have hroomy := h.consistent.roomy hf (h.numbered f hf).distinct (Func.mem_refs.mp hl)
  obtain ⟨σ, new, heq, hplaces⟩ := hroomy.exists_places
  have hplaced : m.Develops f (f.entered l σ new) := by
    have hids : ∀ n ∈ new, n.id ∈ (f.entered l σ new).held.map Instr.id := fun n hn =>
      List.mem_map_of_mem
        (Func.mem_held_of_mem (hplaces.mem_blocks.mpr (Or.inl rfl)) (List.mem_append_left _ hn))
    have hfresh : f.ref f.fresh ∈ (f.entered l σ new).refs :=
      Func.mem_refs.mpr ⟨f.preheader l new, hplaces.mem_blocks.mpr (Or.inl rfl), rfl⟩
    refine ⟨⟨rfl, Nat.le_succ _, Nat.le_add_right _ _, [f.fresh], ?_, by simp, ?_⟩,
      ⟨new.length + 1, ?_, ?_⟩, hplaces.recorded, ?_⟩
    · exact hplaces.perm_numbers.trans (List.perm_append_singleton _ _).symm
    · simp [Func.fresh, Func.entered, Func.expand]
    · simp [Func.entered, Func.expand]
    · exact hplaces.perm_ids.trans List.perm_append_comm
    · intro j hj
      right
      rcases hplaces.alters_held hj with ⟨i, hi, ha⟩ | hnew | rfl
      · have hsound := h.sound i (mem_held.mpr ⟨f, hf, hi⟩)
        refine ⟨fun e he => ?_, fun c hc => ?_,
          fun hphi => ha.paired (hsound.paired (ha.op ▸ hphi))⟩
        · obtain ⟨v, hv, hve⟩ := List.mem_filterMap.mp he
          rcases ha.operands v hv with hv | ⟨n, hn, rfl⟩
          · exact List.mem_append_left _ (hsound.reads e (List.mem_filterMap.mpr ⟨v, hv, hve⟩))
          · cases hve
            exact List.mem_append_right _ (hids n hn)
        · rcases ha.targets c hc with hc | rfl
          · exact List.mem_append_left _ (hsound.targets c hc)
          · exact List.mem_append_right _ hfresh
      · obtain ⟨_, φ, hφ, hoperands, hincoming⟩ := hplaces.joins.made j hnew
        refine ⟨fun e he => ?_, fun c hc => ?_,
          fun _ => by rw [hoperands, hincoming, List.length_map, List.length_map]⟩
        · obtain ⟨entry, hentry, hread⟩ := Operation.exists_entry_of_mem_reads hoperands he
          have hmem := mem_held.mpr ⟨f, hf, List.mem_append_left _ (hplaces.mem_instrs_phi hφ)⟩
          exact List.mem_append_left _ ((h.sound φ hmem).reads e
            (Operation.mem_reads_of_entry (List.mem_of_mem_filter hentry) hread))
        · rw [hplaces.joins.plain j hnew] at hc
          exact absurd hc List.not_mem_nil
      · refine ⟨fun e he => absurd he List.not_mem_nil, fun c hc => ?_, fun hphi => by cases hphi⟩
        rw [List.mem_singleton.mp hc]
        exact List.mem_append_left _ (List.mem_flatMap.mpr ⟨f, hf, hl⟩)
  rcases Func.after_insertPreheader l f with hsame | hafter
  · rw [hsame]
    exact develops_refl m f
  · rw [hafter, heq]
    exact hplaced

end Module

end KernelIR
