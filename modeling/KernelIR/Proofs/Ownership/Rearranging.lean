import KernelIR.Proofs.Ownership.Records
import Mathlib.Data.List.Forall2

namespace KernelIR

namespace Func

variable {f g h : Func} {d : InstrId} {i : Instr} {k : Block}

/-- A function without its instructions. -/
def bare (f : Func) : Func :=
  { f with blocks := f.blocks.map Block.bare, loose := [], parents := [] }

theorem id_of_bare (h : g.bare = f.bare) : g.id = f.id := by
  have hid : g.bare.id = f.bare.id := congrArg Func.id h
  exact hid

theorem maxBlock_of_bare (h : g.bare = f.bare) : g.maxBlock = f.maxBlock := by
  have hmax : g.bare.maxBlock = f.bare.maxBlock := congrArg Func.maxBlock h
  exact hmax

theorem nextSerial_of_bare (h : g.bare = f.bare) : g.nextSerial = f.nextSerial := by
  have hnext : g.bare.nextSerial = f.bare.nextSerial := congrArg Func.nextSerial h
  exact hnext

/-- The blocks of a function, as seen from anywhere. -/
def refs (f : Func) : List BlockRef := f.blocks.map fun k => f.ref k.id

theorem mem_refs {b : BlockRef} : b ∈ f.refs ↔ ∃ k ∈ f.blocks, b = f.ref k.id := by
  simp [refs, eq_comm]

theorem refs_bare (f : Func) : f.bare.refs = f.refs := by
  simp [refs, bare, Block.bare, ref]

theorem numbers_of_bare (h : g.bare = f.bare) : g.blocks.map Block.id = f.blocks.map Block.id := by
  have hblocks := congrArg (fun f => f.blocks.map Block.id) h
  simpa [bare, Block.bare, Function.comp_def] using hblocks

/-- Whether two functions differ only in where the instructions stand, and that is recorded. -/
structure Shuffles (f g : Func) : Prop where
  bare : g.bare = f.bare
  held : g.held.Perm f.held
  recorded : f.Recorded → g.Recorded

theorem Shuffles.refl (f : Func) : f.Shuffles f := ⟨rfl, .refl _, fun h => h⟩

theorem bare_mapBlock (f : Func) (b : BlockId) {F : Block → Block}
    (hF : ∀ k, (F k).bare = k.bare) : (f.mapBlock b F).bare = f.bare := by
  have hblocks : (f.mapBlock b F).blocks.map Block.bare = f.blocks.map Block.bare := by
    rw [mapBlock, List.map_map]
    refine List.map_congr_left fun k _ => ?_
    rw [Function.comp_apply]
    split
    · exact hF k
    · rfl
  simp only [bare, hblocks]
  rfl

theorem shuffles_withdraw (f : Func) (d : InstrId) : f.Shuffles (f.withdraw d) where
  bare := by simp [bare, withdraw, Block.bare, Block.without, Function.comp_def]
  held := perm_held_withdraw f d
  recorded h := h.withdraw d

theorem perm_held_dropLoose (hids : (f.held.map Instr.id).Nodup) (hi : f.looseInstr? d = some i) :
    f.held.Perm ((f.dropLoose d).held ++ [i]) := by
  have hid : i.id = d := by simpa using List.find?_some hi
  have hnodup : (f.loose.map Instr.id).Nodup := by
    rw [held, List.map_append, List.nodup_append] at hids
    exact hids.2.1
  have hloose := perm_cons_filter hnodup (List.mem_of_find?_eq_some hi)
  rw [hid] at hloose
  rw [held, held, List.append_assoc]
  exact (hloose.trans (List.perm_append_singleton _ _).symm).append_left _

/-- A loose instruction is put into a block. -/
theorem shuffles_put (hn : (f.blocks.map Block.id).Nodup) (hids : (f.held.map Instr.id).Nodup)
    (hi : f.looseInstr? i.id = some i) (hk : k ∈ f.blocks) {F : Block → Block}
    (hF : ∀ k, (F k).bare = k.bare) (hput : (F k).instrs.Perm (i :: k.instrs)) :
    f.Shuffles (((f.dropLoose i.id).mapBlock k.id F).adopt i.id k.id) where
  bare := bare_mapBlock (f.dropLoose i.id) k.id hF
  held := by
    have hid : (F k).id = k.id := (congrArg Block.id (hF k) :)
    have hinstrs := perm_instrs_put (f := f.dropLoose i.id) hn hk hid hput
    refine List.Perm.trans ?_ (perm_held_dropLoose hids hi).symm
    exact (hinstrs.append_right _).trans (List.perm_append_singleton i _).symm
  recorded h := by
    have hdrop : (f.dropLoose i.id).Recorded := ⟨h.parents, h.blocks⟩
    exact hdrop.put hn hk hF hput

theorem perm_insertInstr {l : List Instr} (h : ∃ j ∈ l, j.id = d) :
    (insertInstr d i l).Perm (i :: l) := by
  induction l with
  | nil => simp at h
  | cons j l ih =>
    rw [insertInstr]
    split
    · exact .refl _
    · next hne =>
      have hrest : ∃ j ∈ l, j.id = d := by simpa [hne] using h
      exact ((ih hrest).cons j).trans (.swap i j l)

section

variable (hn : (f.blocks.map Block.id).Nodup) (hids : (f.held.map Instr.id).Nodup)

include hn hids

omit hn in
/-- What is known to the function but stands in no block is loose. -/
theorem looseInstr?_of_instr? (hout : ∀ j ∈ f.instrs, j.id ≠ d) (hi : f.instr? d = some i) :
    i.id = d ∧ f.looseInstr? i.id = some i := by
  obtain ⟨hmem, rfl⟩ := (find?_key_iff hids).mp hi
  rw [held, List.map_append, List.nodup_append] at hids
  have hloose : i ∈ f.loose :=
    (List.mem_append.mp hmem).resolve_left fun hin => hout i hin rfl
  exact ⟨rfl, (find?_key_iff hids.2.1).mpr ⟨hloose, rfl⟩⟩

theorem shuffles_putBefore (hout : ∀ j ∈ f.instrs, j.id ≠ d) (pos : InstrId) (n : BlockId) :
    f.Shuffles ((putBefore d pos n).after f) := by
  rw [Edit.after, putBefore]
  cases hk : f.block? n with
  | none => exact .refl f
  | some k =>
    rw [Option.any_some]
    by_cases hholds : k.holds pos = true
    · rw [if_pos hholds]
      cases hi : f.instr? d with
      | none => exact .refl f
      | some i =>
        obtain ⟨hkf, rfl⟩ := (find?_key_iff hn).mp hk
        obtain ⟨rfl, hloose⟩ := looseInstr?_of_instr? hids hout hi
        exact shuffles_put hn hids hloose hkf (fun _ => rfl)
          (perm_insertInstr (Block.holds_iff.mp hholds))
    · rw [if_neg hholds]
      exact .refl f

theorem shuffles_append (hout : ∀ j ∈ f.instrs, j.id ≠ d) (hk : k ∈ f.blocks) :
    f.Shuffles ((append d k.id).after f) := by
  rw [Edit.after, append]
  cases hi : f.instr? d with
  | none => exact .refl f
  | some i =>
    obtain ⟨rfl, hloose⟩ := looseInstr?_of_instr? hids hout hi
    exact shuffles_put hn hids hloose hk (fun _ => rfl) (List.perm_append_singleton i k.instrs)

end

end Func

namespace Module

variable {m m₁ m₂ : Module} {f g : Func} {d : InstrId}

/-- The instructions of all functions, in blocks or loose. -/
def held (m : Module) : List Instr := m.known.flatMap Func.held

theorem mem_held {i : Instr} : i ∈ m.held ↔ ∃ f ∈ m.known, i ∈ f.held := List.mem_flatMap

/-- Whether no two functions, instructions or blocks of a function have one name, and it is recorded
where instructions and blocks stand. -/
structure Distinct (m : Module) : Prop where
  funcs : (m.known.map Func.id).Nodup
  blocks : ∀ f ∈ m.known, (f.blocks.map Block.id).Nodup
  instrs : (m.held.map Instr.id).Nodup
  recorded : ∀ f ∈ m.known, f.Recorded

theorem Distinct.own (h : m.Distinct) (hf : f ∈ m.known) : (f.held.map Instr.id).Nodup :=
  h.instrs.sublist ((List.sublist_flatten_of_mem (List.mem_map_of_mem hf)).map Instr.id)

/-- The functions hold different instructions. -/
theorem Distinct.apart (h : m.Distinct) (hf : f ∈ m.known) (hg : g ∈ m.known) (hne : f.id ≠ g.id)
    {i j : Instr} (hi : i ∈ f.held) (hj : j ∈ g.held) : i.id ≠ j.id := by
  intro he
  have hdisjoint := h.instrs
  rw [held, List.map_flatMap, List.nodup_flatMap] at hdisjoint
  have hsymm : Std.Symm (Function.onFun List.Disjoint fun f : Func => f.held.map Instr.id) :=
    ⟨fun _ _ h _ ha hb => h hb ha⟩
  have hfg := hdisjoint.2.forall hf hg fun he => hne (congrArg Func.id he)
  exact hfg (List.mem_map_of_mem hi) (he ▸ List.mem_map_of_mem hj)

theorem Distinct.home_unique (h : m.Distinct) (hf : f ∈ m.known) (hg : g ∈ m.known) {i j : Instr}
    (hi : i ∈ f.held) (hj : j ∈ g.held) (he : i.id = j.id) : f = g := by
  by_contra hne
  have hid : f.id ≠ g.id := fun he => hne (List.inj_on_of_nodup_map h.funcs hf hg he)
  exact h.apart hf hg hid hi hj he

theorem Distinct.holder?_of_mem (h : m.Distinct) (hf : f ∈ m.known) {i : Instr} (hi : i ∈ f.held) :
    m.holder? i.id = some f := by
  have holds : ∀ g : Func, (g.instr? i.id).isSome = true ↔ ∃ j ∈ g.held, j.id = i.id := by
    intro g
    rw [Func.instr?, List.find?_isSome]
    simp [Func.held]
  rw [holder?, find?_iff_of_unique, holds]
  · exact ⟨hf, i, hi, rfl⟩
  · intro x hx y hy hxi hyi
    obtain ⟨a, ha, hai⟩ := (holds x).mp hxi
    obtain ⟨b, hb, hbi⟩ := (holds y).mp hyi
    exact h.home_unique hx hy ha hb (hai.trans hbi.symm)

theorem Consistent.distinct (h : m.Consistent)
    (hblocks : ∀ f ∈ m.known, (f.blocks.map Block.id).Nodup) :
    m.Distinct := by
  refine ⟨h.funcs, hblocks, ?_, h.recorded⟩
  rw [held, List.map_flatMap, List.nodup_flatMap]
  refine ⟨h.own, ?_⟩
  have hfuncs := h.funcs
  rw [List.Nodup, List.pairwise_map] at hfuncs
  refine hfuncs.imp_of_mem fun {f g} hf hg hne d hdf hdg => ?_
  obtain ⟨i, hi, rfl⟩ := List.mem_map.mp hdf
  obtain ⟨j, hj, hji⟩ := List.mem_map.mp hdg
  exact h.apart f hf g hg hne i hi j hj hji.symm

theorem Distinct.func?_iff (h : m.Distinct) {id : FuncId} : m.func? id = some f ↔
    f ∈ m.known ∧ f.id = id :=
  find?_key_iff h.funcs

/-- The blocks of all functions. -/
def refs (m : Module) : List BlockRef := m.known.flatMap Func.refs

theorem Distinct.block?_iff (h : m.Distinct) {b : BlockRef} {k : Block} :
    m.block? b = some k ↔ ∃ f ∈ m.known, k ∈ f.blocks ∧ b = f.ref k.id := by
  rw [block?, Option.bind_eq_some_iff]
  constructor
  · rintro ⟨f, hf, hk⟩
    obtain ⟨hf, hid⟩ := h.func?_iff.mp hf
    obtain ⟨hk, hkb⟩ := (find?_key_iff (h.blocks f hf)).mp hk
    exact ⟨f, hf, hk, by rw [Func.ref, hid, hkb]⟩
  · rintro ⟨f, hf, hk, rfl⟩
    exact ⟨f, h.func?_iff.mpr ⟨hf, rfl⟩, (find?_key_iff (h.blocks f hf)).mpr ⟨hk, rfl⟩⟩

theorem Distinct.block?_isSome_iff (h : m.Distinct) {b : BlockRef} : (m.block? b).isSome ↔
    b ∈ m.refs := by
  simp only [Option.isSome_iff_exists, h.block?_iff, refs, List.mem_flatMap, Func.mem_refs]
  constructor
  · rintro ⟨k, f, hf, hk, rfl⟩
    exact ⟨f, hf, k, hk, rfl⟩
  · rintro ⟨f, hf, k, hk, rfl⟩
    exact ⟨k, f, hf, hk, rfl⟩

/-- An instruction occurs in a block just if the block is its owner. -/
theorem Distinct.owner?_iff (h : m.Distinct) {b : BlockRef} :
    m.owner? d = some b ↔ ∃ k, m.block? b = some k ∧ k.holds d = true := by
  rw [owner?_iff_of_unique h.recorded (fun _ hf => h.own hf)
    fun _ hf _ hg _ hi _ hj => h.home_unique hf hg hi hj]
  simp only [h.block?_iff]
  constructor
  · rintro ⟨f, hf, k, hk, hd, hb⟩
    exact ⟨k, ⟨f, hf, hk, hb⟩, hd⟩
  · rintro ⟨k, ⟨f, hf, hk, hb⟩, hd⟩
    exact ⟨f, hf, k, hk, hd, hb⟩

/-- An instruction belongs to no block just if it stands in none. -/
theorem Distinct.owner?_eq_none_iff (h : m.Distinct) :
    m.owner? d = none ↔ ∀ f ∈ m.known, ∀ j ∈ f.instrs, j.id ≠ d := by
  rw [Option.eq_none_iff_forall_ne_some]
  constructor
  · intro hnone f hf j hj hid
    obtain ⟨k, hk, hjk⟩ := Func.mem_instrs.mp hj
    refine hnone (f.ref k.id) (h.owner?_iff.mpr ⟨k, h.block?_iff.mpr ⟨f, hf, hk, rfl⟩, ?_⟩)
    exact Block.holds_iff.mpr ⟨j, hjk, hid⟩
  · intro hout b howner
    obtain ⟨k, hk, hd⟩ := h.owner?_iff.mp howner
    obtain ⟨f, hf, hkf, -⟩ := h.block?_iff.mp hk
    obtain ⟨j, hj, hid⟩ := Block.holds_iff.mp hd
    exact hout f hf j (Func.mem_instrs.mpr ⟨k, hkf, hj⟩) hid

/-- Whatever block an instruction belongs to, it is found there and taken out. -/
theorem Distinct.release_eq (h : m.Distinct) (hf : f ∈ m.known) {i : Instr} (hi : i ∈ f.held) :
    release i.id m = .ok () (m.update (f.withdraw i.id)) := by
  cases howner : m.owner? i.id with
  | none =>
    have hout := h.owner?_eq_none_iff.mp howner f hf
    rw [release_of_none howner, (h.recorded f hf).withdraw_eq_self hout, update_self h.funcs hf]
  | some b =>
    obtain ⟨k, hk, hd⟩ := h.owner?_iff.mp howner
    obtain ⟨g, hg, hkg, rfl⟩ := h.block?_iff.mp hk
    obtain ⟨j, hj, hid⟩ := Block.holds_iff.mp hd
    cases h.home_unique hf hg hi (Func.mem_held_of_mem hkg hj) hid.symm
    exact release_of_owner howner (h.func?_iff.mpr ⟨hf, rfl⟩) (h.own hf) (h.blocks f hf) hkg hd

/-- Whether two modules differ only in where the instructions stand, and that is recorded. -/
structure Shuffles (m m' : Module) : Prop where
  frame : m' = { m with functions := m'.functions, dropped := m'.dropped }
  functions : m'.functions.map Func.bare = m.functions.map Func.bare
  dropped : m'.dropped.map Func.bare = m.dropped.map Func.bare
  held : m'.held.Perm m.held
  recorded : (∀ f ∈ m.known, f.Recorded) → ∀ f ∈ m'.known, f.Recorded

namespace Shuffles

theorem refl (m : Module) : m.Shuffles m := ⟨rfl, rfl, rfl, .refl _, fun h => h⟩

theorem trans (h : m.Shuffles m₁) (h' : m₁.Shuffles m₂) : m.Shuffles m₂ := by
  refine ⟨?_, h'.functions.trans h.functions, h'.dropped.trans h.dropped, h'.held.trans h.held,
    fun hm => h'.recorded (h.recorded hm)⟩
  rw [h'.frame, h.frame]

theorem known (h : m.Shuffles m₁) : m₁.known.map Func.bare = m.known.map Func.bare := by
  rw [Module.known, Module.known, List.map_append, List.map_append, h.functions, h.dropped]

theorem exists_bare (h : m.Shuffles m₁) (hg : g ∈ m₁.known) : ∃ f ∈ m.known, g.bare = f.bare := by
  have hmem : g.bare ∈ m.known.map Func.bare := h.known ▸ List.mem_map_of_mem hg
  obtain ⟨f, hf, he⟩ := List.mem_map.mp hmem
  exact ⟨f, hf, he.symm⟩

theorem distinct (h : m.Shuffles m₁) (hm : m.Distinct) : m₁.Distinct where
  funcs := by
    have hids : m₁.known.map Func.id = m.known.map Func.id := by
      have hmap := congrArg (List.map Func.id) h.known
      simpa [Func.bare, Function.comp_def] using hmap
    exact hids ▸ hm.funcs
  blocks g hg := by
    obtain ⟨f, hf, he⟩ := h.exists_bare hg
    exact Func.numbers_of_bare he ▸ hm.blocks f hf
  instrs := (h.held.map Instr.id).nodup_iff.mpr hm.instrs
  recorded := h.recorded hm.recorded

theorem consistent (h : m.Shuffles m₁) (hm : m.Consistent) (hd : m.Distinct) : m₁.Consistent where
  funcs := (h.distinct hd).funcs
  own _ hf := (h.distinct hd).own hf
  apart _ hf _ hg hne _ hi _ hj := (h.distinct hd).apart hf hg hne hi hj
  serials f hf g hg i hi d hid hhome := by
    obtain ⟨f', hf', hbare⟩ := h.exists_bare hf
    obtain ⟨g', hg', hi'⟩ := mem_held.mp (h.held.mem_iff.mp (mem_held.mpr ⟨g, hg, hi⟩))
    rw [Func.nextSerial_of_bare hbare]
    exact hm.serials f' hf' g' hg' i hi' d hid (hhome.trans (Func.id_of_bare hbare))
  blocks f hf k hk := by
    obtain ⟨f', hf', hbare⟩ := h.exists_bare hf
    have hid : k.id ∈ f'.blocks.map Block.id := Func.numbers_of_bare hbare ▸ List.mem_map_of_mem hk
    obtain ⟨k', hk', he⟩ := List.mem_map.mp hid
    rw [Func.maxBlock_of_bare hbare, ← he]
    exact hm.blocks f' hf' k' hk'
  recorded := h.recorded hm.recorded

theorem refs (h : m.Shuffles m₁) : m₁.refs = m.refs := by
  have hbare : ∀ m : Module, m.refs = (m.known.map Func.bare).flatMap Func.refs := fun m => by
    simp [Module.refs, List.flatMap_map, Func.refs_bare]
  rw [hbare, hbare, h.known]

end Shuffles

/-- One function is replaced. -/
theorem perm_held_update (hm : (m.known.map Func.id).Nodup) (hf : f ∈ m.known) (hid : g.id = f.id) :
    ((m.update g).held ++ f.held).Perm (m.held ++ g.held) := by
  rw [held, known_update]
  exact perm_flatMap_replace hm hf hid Func.held

theorem map_bare_update (hm : (m.known.map Func.id).Nodup) (hf : f ∈ m.known)
    (hg : g.bare = f.bare) :
    (m.update g).functions.map Func.bare = m.functions.map Func.bare ∧
      (m.update g).dropped.map Func.bare = m.dropped.map Func.bare := by
  have hput : ∀ x ∈ m.known, (if x.id = g.id then g else x).bare = x.bare := by
    intro x hx
    split
    · next he => rw [List.inj_on_of_nodup_map hm hx hf (he.trans (Func.id_of_bare hg)), hg]
    · rfl
  simp only [update, List.map_map]
  exact ⟨List.map_congr_left fun x hx => hput x (List.mem_append_left _ hx),
    List.map_congr_left fun x hx => hput x (List.mem_append_right _ hx)⟩

theorem shuffles_update (hm : m.Distinct) (hf : f ∈ m.known) (hg : f.Shuffles g) :
    m.Shuffles (m.update g) := by
  obtain ⟨hfunctions, hdropped⟩ := map_bare_update hm.funcs hf hg.bare
  refine ⟨rfl, hfunctions, hdropped, ?_, fun hrecorded x hx => ?_⟩
  · rw [← List.perm_append_right_iff f.held]
    exact (perm_held_update hm.funcs hf (Func.id_of_bare hg.bare)).trans (hg.held.append_left _)
  · rcases (mem_known_update hf (Func.id_of_bare hg.bare)).mp hx with rfl | ⟨hx, _⟩
    · exact hg.recorded (hrecorded f hf)
    · exact hrecorded x hx

theorem after_edit {α : Type} (id : FuncId) (e : Edit Func α) (m : Module) :
    (edit id e).after m = ((m.func? id).map fun f => m.update (e.after f)).getD m := by
  rw [Edit.after, edit]
  cases m.func? id with
  | none => rfl
  | some f =>
    rw [Option.map_some, Option.getD_some, Edit.after]
    simp only
    cases e f with
    | ok a g => rfl
    | error x g => rfl

theorem shuffles_edit {α : Type} (hm : m.Distinct) {id : FuncId} {e : Edit Func α}
    (he : ∀ f ∈ m.known, f.id = id → f.Shuffles (e.after f)) :
    m.Shuffles ((edit id e).after m) := by
  rw [after_edit]
  cases hf : m.func? id with
  | none => exact .refl m
  | some f =>
    obtain ⟨hmem, hid⟩ := hm.func?_iff.mp hf
    exact shuffles_update hm hmem (he f hmem hid)

/-- Either nothing is handed over, or a loose instruction leaves one function and comes to
another. -/
theorem handOver_cases (hm : m.Distinct) (d : InstrId) (dst : FuncId) :
    m.handOver d dst = m ∨
    ∃ f ∈ m.known, ∃ g ∈ m.known, ∃ i, f.id ≠ g.id ∧ f.looseInstr? d = some i ∧
      m.handOver d dst = (m.update (f.dropLoose d)).update { g with loose := g.loose ++ [i] } := by
  rw [handOver]
  split
  · next f g hholder hdst =>
    split
    · next i hi =>
      split
      · exact Or.inl rfl
      · next hne =>
        exact Or.inr ⟨f, List.mem_of_find?_eq_some hholder, g, (hm.func?_iff.mp hdst).1, i,
          hne, hi, rfl⟩
    · exact Or.inl rfl
  · exact Or.inl rfl

/-- Handing over concerns no block. -/
theorem exists_of_mem_handOver (hm : m.Distinct) {dst : FuncId} {x : Func}
    (hx : x ∈ (m.handOver d dst).known) :
    ∃ y ∈ m.known, x.id = y.id ∧ x.blocks = y.blocks ∧ x.parents = y.parents := by
  rcases handOver_cases hm d dst with hsame | ⟨f, hf, g, hg, i, hne, -, hmoved⟩
  · exact ⟨x, hsame ▸ hx, rfl, rfl, rfl⟩
  · have hg₁ : g ∈ (m.update (f.dropLoose d)).known :=
      (mem_known_update (g := f.dropLoose d) hf rfl).mpr (Or.inr ⟨hg, fun he => hne he.symm⟩)
    rw [hmoved] at hx
    rcases (mem_known_update (g := { g with loose := g.loose ++ [i] }) hg₁ rfl).mp hx with
      rfl | ⟨hx, -⟩
    · exact ⟨g, hg, rfl, rfl, rfl⟩
    · rcases (mem_known_update (g := f.dropLoose d) hf rfl).mp hx with rfl | ⟨hx, -⟩
      · exact ⟨f, hf, rfl, rfl, rfl⟩
      · exact ⟨x, hx, rfl, rfl, rfl⟩

theorem shuffles_handOver (hm : m.Distinct) (d : InstrId) (dst : FuncId) :
    m.Shuffles (m.handOver d dst) := by
  have hrecorded : (∀ f ∈ m.known, f.Recorded) → ∀ f ∈ (m.handOver d dst).known, f.Recorded := by
    intro h x hx
    obtain ⟨y, hy, hid, hblocks, hparents⟩ := exists_of_mem_handOver hm hx
    have hplaces : x.places = y.places := by simp only [Func.places, Func.ref, hid, hblocks]
    refine ⟨?_, fun k hk => hid ▸ (h y hy).blocks k (hblocks ▸ hk)⟩
    rw [hparents, hplaces]
    exact (h y hy).parents
  rcases handOver_cases hm d dst with hsame | ⟨f, hf, g, hg, i, hne, hi, hmoved⟩
  · rw [hsame]
    exact .refl m
  rw [hmoved] at hrecorded ⊢
  have hg₁ : g ∈ (m.update (f.dropLoose d)).known :=
    (mem_known_update (g := f.dropLoose d) hf rfl).mpr (Or.inr ⟨hg, fun he => hne he.symm⟩)
  have hfuncs : ((m.update (f.dropLoose d)).known.map Func.id).Nodup := ids_update m _ ▸ hm.funcs
  have hleft := map_bare_update (g := f.dropLoose d) hm.funcs hf rfl
  have hcame := map_bare_update (g := { g with loose := g.loose ++ [i] }) hfuncs hg₁ rfl
  refine ⟨rfl, hcame.1.trans hleft.1, hcame.2.trans hleft.2, ?_, hrecorded⟩
  have htaken : ((m.update (f.dropLoose d)).held ++ [i]).Perm m.held := by
    rw [← List.perm_append_right_iff (f.dropLoose d).held, List.append_assoc]
    have hdrop := Func.perm_held_dropLoose (hm.own hf) hi
    exact ((List.perm_append_comm.trans hdrop.symm).append_left _).trans
      (perm_held_update (g := f.dropLoose d) hm.funcs hf rfl)
  refine List.Perm.trans ?_ htaken
  rw [← List.perm_append_right_iff g.held, List.append_assoc]
  refine (perm_held_update (g := { g with loose := g.loose ++ [i] }) hfuncs hg₁ rfl).trans
    (.append_left _ ?_)
  rw [Func.held, Func.held, ← List.append_assoc]
  exact List.perm_append_comm

/-- Whether no block holds an instruction. -/
def Frees (m : Module) (d : InstrId) : Prop := ∀ f ∈ m.known, ∀ j ∈ f.instrs, j.id ≠ d

theorem Frees.handOver (h : m.Frees d) (hm : m.Distinct) (dst : FuncId) :
    (m.handOver d dst).Frees d := by
  intro x hx j hj
  obtain ⟨y, hy, -, hblocks, -⟩ := exists_of_mem_handOver hm hx
  rw [Func.instrs, hblocks] at hj
  exact h y hy j hj

/-- Whatever is to be moved can be taken out first. -/
theorem Distinct.exists_release (h : m.Distinct) (d : InstrId) : ∃ m₁, release d m = .ok () m₁ ∧
    (m₁ = m ∨ ∃ f ∈ m.known, m₁ = m.update (f.withdraw d)) ∧ m₁.Frees d := by
  by_cases hheld : ∃ i ∈ m.held, i.id = d
  · obtain ⟨i, hi, rfl⟩ := hheld
    obtain ⟨f, hf, hif⟩ := mem_held.mp hi
    refine ⟨_, h.release_eq hf hif, Or.inr ⟨f, hf, rfl⟩, fun x hx j hj hid => ?_⟩
    rcases (mem_known_update (g := f.withdraw i.id) hf rfl).mp hx with rfl | ⟨hx, hne⟩
    · rw [Func.instrs_withdraw] at hj
      have hne := List.of_mem_filter hj
      exact of_decide_eq_true hne hid
    · exact h.apart hx hf hne (List.mem_append_left _ hj) hif hid
  · have hfree : m.Frees d := fun f hf j hj hid =>
      hheld ⟨j, mem_held.mpr ⟨f, hf, List.mem_append_left _ hj⟩, hid⟩
    exact ⟨m, release_of_none (h.owner?_eq_none_iff.mpr hfree), Or.inl rfl, hfree⟩

theorem shuffles_of_release (hm : m.Distinct)
    (h : m₁ = m ∨ ∃ f ∈ m.known, m₁ = m.update (f.withdraw d)) : m.Shuffles m₁ := by
  rcases h with rfl | ⟨f, hf, rfl⟩
  · exact .refl m₁
  · exact shuffles_update hm hf (Func.shuffles_withdraw f d)

theorem shuffles_putBefore (hm : m.Distinct) (hfree : m.Frees d) (pos : InstrId) (b : BlockRef) :
    m.Shuffles ((putBefore d pos b).after m) := by
  have hover := shuffles_handOver hm d b.func
  have hm₁ := hover.distinct hm
  exact hover.trans (shuffles_edit hm₁ fun f hf _ =>
    Func.shuffles_putBefore (hm₁.blocks f hf) (hm₁.own hf)
      (hfree.handOver hm b.func f hf) pos b.number)

/-- Wherever a move ends, every instruction is still held once. -/
theorem shuffles_moveBeforeTerm (hm : m.Distinct) (d : InstrId) (dst : BlockRef) :
    m.Shuffles ((moveBeforeTerm d dst).after m) := by
  cases hterm : (m.block? dst).bind Block.term? with
  | none =>
    rw [Edit.after, moveBeforeTerm, hterm]
    exact .refl m
  | some t =>
    obtain ⟨k, hk, hterm⟩ := Option.bind_eq_some_iff.mp hterm
    obtain ⟨m₁, hrelease, htaken, hfree⟩ := hm.exists_release d
    have hshuffles := shuffles_of_release hm htaken
    have hafter : (moveBeforeTerm d dst).after m = (putBefore d t.id dst).after m₁ := by
      rw [Edit.after, moveBeforeTerm_of_release hk hterm hrelease, Edit.after]
    rw [hafter]
    exact hshuffles.trans (shuffles_putBefore (hshuffles.distinct hm) hfree t.id dst)

theorem shuffles_append (hm : m.Distinct) (d : InstrId) {b : BlockRef} (hb : b ∈ m.refs) :
    m.Shuffles ((append d b).after m) := by
  rw [Edit.after, append]
  by_cases howned : m.owned d = true
  · rw [if_pos howned]
    exact .refl m
  · rw [if_neg howned]
    have hfree : m.Frees d := by
      rw [owned, Bool.not_eq_true, Option.isSome_eq_false_iff, Option.isNone_iff_eq_none] at howned
      exact hm.owner?_eq_none_iff.mp howned
    have hover := shuffles_handOver hm d b.func
    have hm₁ := hover.distinct hm
    refine hover.trans (shuffles_edit hm₁ fun f hf hid => ?_)
    rw [← hover.refs] at hb
    obtain ⟨x, hx, hbx⟩ := List.mem_flatMap.mp hb
    obtain ⟨k, hk, rfl⟩ := Func.mem_refs.mp hbx
    have hxf : x = f := List.inj_on_of_nodup_map hm₁.funcs hx hf hid.symm
    exact Func.shuffles_append (hm₁.blocks f hf) (hm₁.own hf) (hfree.handOver hm _ f hf) (hxf ▸ hk)

end Module

end KernelIR
