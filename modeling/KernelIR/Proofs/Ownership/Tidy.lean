import KernelIR.Proofs.Ownership.Rearranging
import KernelIR.Proofs.Preheader.Insertion

namespace KernelIR

namespace Func

variable {f g h : Func}

/-- The identities that a function has handed out. -/
def madeIds (f : Func) : List InstrId := (List.range f.nextSerial).map (InstrId.mk f.id)

/-- Whether the blocks of a function have numbers of their own, which were handed out. -/
structure Numbered (f : Func) : Prop where
  distinct : (f.blocks.map Block.id).Nodup
  bounds : ∀ n : Nat, n ∈ f.blocks.map Block.id → 1 ≤ n ∧ n ≤ f.maxBlock

/-- Whether a function has kept its blocks, and given blocks that were added numbers that were not
handed out before. -/
structure Extends (f g : Func) : Prop where
  id : g.id = f.id
  maxBlock : f.maxBlock ≤ g.maxBlock
  nextSerial : f.nextSerial ≤ g.nextSerial
  blocks :
    ∃ new : List Nat, (g.blocks.map Block.id).Perm (f.blocks.map Block.id ++ new) ∧ new.Nodup ∧
    ∀ n ∈ new, f.maxBlock < n ∧ n ≤ g.maxBlock

theorem Extends.of_numbers (id : g.id = f.id)
    (numbers : g.blocks.map Block.id = f.blocks.map Block.id)
    (maxBlock : f.maxBlock ≤ g.maxBlock) (nextSerial : f.nextSerial ≤ g.nextSerial) : f.Extends g :=
  ⟨id, maxBlock, nextSerial, [], by rw [numbers, List.append_nil], .nil, by simp⟩

theorem Extends.refl (f : Func) : f.Extends f := .of_numbers rfl rfl (Nat.le_refl _) (Nat.le_refl _)

theorem Extends.of_bare (hg : g.bare = f.bare) : f.Extends g :=
  .of_numbers (id_of_bare hg) (numbers_of_bare hg) (Nat.le_of_eq (maxBlock_of_bare hg).symm)
    (Nat.le_of_eq (nextSerial_of_bare hg).symm)

theorem Extends.trans (hg : f.Extends g) (hh : g.Extends h) : f.Extends h := by
  obtain ⟨new, hperm, hnodup, hnew⟩ := hg.blocks
  obtain ⟨newer, hperm', hnodup', hnewer⟩ := hh.blocks
  refine ⟨hh.id.trans hg.id, hg.maxBlock.trans hh.maxBlock, hg.nextSerial.trans hh.nextSerial,
    new ++ newer, ?_, ?_, ?_⟩
  · rw [← List.append_assoc]
    exact hperm'.trans (hperm.append_right _)
  · rw [List.nodup_append]
    refine ⟨hnodup, hnodup', fun n hn n' hn' he => ?_⟩
    have hlt : n < n' := Nat.lt_of_le_of_lt (hnew n hn).2 (hnewer n' hn').1
    exact Nat.ne_of_lt hlt he
  · intro n hn
    have hf := hg.maxBlock
    have hg := hh.maxBlock
    rcases List.mem_append.mp hn with hn | hn
    · have hbounds := hnew n hn
      omega
    · have hbounds := hnewer n hn
      omega

theorem Extends.refs (hg : f.Extends g) {b : BlockRef} (hb : b ∈ f.refs) : b ∈ g.refs := by
  obtain ⟨new, hperm, _⟩ := hg.blocks
  obtain ⟨k, hk, rfl⟩ := mem_refs.mp hb
  have hid : k.id ∈ g.blocks.map Block.id :=
    hperm.mem_iff.mpr (List.mem_append_left _ (List.mem_map_of_mem hk))
  obtain ⟨k', hk', he⟩ := List.mem_map.mp hid
  exact mem_refs.mpr ⟨k', hk', by rw [ref, ref, hg.id, he]⟩

theorem Numbered.of_extends (hf : f.Numbered) (hg : f.Extends g) : g.Numbered := by
  obtain ⟨new, hperm, hnodup, hnew⟩ := hg.blocks
  have hmax := hg.maxBlock
  constructor
  · rw [hperm.nodup_iff, List.nodup_append]
    refine ⟨hf.distinct, hnodup, fun n hn n' hn' he => ?_⟩
    have hlt : n < n' := Nat.lt_of_le_of_lt (hf.bounds n hn).2 (hnew n' hn').1
    exact Nat.ne_of_lt hlt he
  · intro n hn
    rcases List.mem_append.mp (hperm.mem_iff.mp hn) with hn | hn
    · have hbounds := hf.bounds n hn
      omega
    · have hbounds := hnew n hn
      omega

end Func

namespace Module

/-- Whether every function has kept its blocks, and new blocks have new numbers. -/
def Extends (m m' : Module) : Prop := ∀ f ∈ m.known, ∃ g ∈ m'.known, f.Extends g

theorem Extends.refl (m : Module) : m.Extends m := fun f hf => ⟨f, hf, .refl f⟩

theorem Extends.trans {m₁ m₂ m₃ : Module} (h : m₁.Extends m₂) (h' : m₂.Extends m₃) :
    m₁.Extends m₃ := by
  intro f hf
  obtain ⟨g, hg, hfg⟩ := h f hf
  obtain ⟨k, hk, hgk⟩ := h' g hg
  exact ⟨k, hk, hfg.trans hgk⟩

theorem Extends.refs {m m' : Module} (h : m.Extends m') {b : BlockRef} (hb : b ∈ m.refs) :
    b ∈ m'.refs := by
  obtain ⟨f, hf, hb⟩ := List.mem_flatMap.mp hb
  obtain ⟨g, hg, hfg⟩ := h f hf
  exact List.mem_flatMap.mpr ⟨g, hg, hfg.refs hb⟩

/-- The identities that were handed out. -/
def madeIds (m : Module) : List InstrId := m.known.flatMap Func.madeIds

end Module

/-- Whether an instruction takes its operands and leads to blocks from what there is, and has as
many values as sources if it is a phi. -/
structure Instr.Sound (ids : List InstrId) (refs : List BlockRef) (i : Instr) : Prop where
  reads : ∀ d ∈ i.reads, d ∈ ids
  targets : ∀ b ∈ i.targets, b ∈ refs
  paired : i.op = .phi → i.operands.length = i.incoming.length

theorem Instr.Sound.mono {ids ids' : List InstrId} {refs refs' : List BlockRef} {i : Instr}
    (h : i.Sound ids refs) (hids : ∀ d ∈ ids, d ∈ ids') (hrefs : ∀ b ∈ refs, b ∈ refs') :
    i.Sound ids' refs' :=
  ⟨fun d hd => hids d (h.reads d hd), fun b hb => hrefs b (h.targets b hb), h.paired⟩

namespace Module

variable {m m' m₀ : Module} {f g : Func}

/-- Whether every instruction that was made is held once, blocks have numbers of their own, it is
recorded where both stand, and instructions are sound. -/
structure Tidy (m : Module) : Prop where
  funcs : (m.known.map Func.id).Nodup
  next : ∀ f ∈ m.known, f.id < m.nextFunc
  numbered : ∀ f ∈ m.known, f.Numbered
  held : (m.held.map Instr.id).Perm m.madeIds
  recorded : ∀ f ∈ m.known, f.Recorded
  sound : ∀ i ∈ m.held, i.Sound (m.held.map Instr.id) m.refs

theorem nodup_madeIds (hn : (m.known.map Func.id).Nodup) : m.madeIds.Nodup := by
  rw [madeIds, List.nodup_flatMap]
  constructor
  · intro f _
    refine List.nodup_range.map fun a b he => ?_
    simpa using he
  · rw [List.Nodup, List.pairwise_map] at hn
    refine hn.imp fun {f g} hne d hdf hdg => hne ?_
    simp only [Func.madeIds, List.mem_map] at hdf hdg
    obtain ⟨a, _, rfl⟩ := hdf
    obtain ⟨b, _, he⟩ := hdg
    exact (congrArg InstrId.home he).symm

theorem Tidy.distinct (h : m.Tidy) : m.Distinct :=
  ⟨h.funcs, fun f hf => (h.numbered f hf).distinct,
    h.held.nodup_iff.mpr (nodup_madeIds h.funcs), h.recorded⟩

theorem mem_madeIds {d : InstrId} : d ∈ m.madeIds ↔
    ∃ f ∈ m.known, f.id = d.home ∧ d.serial < f.nextSerial := by
  simp only [madeIds, Func.madeIds, List.mem_flatMap, List.mem_map, List.mem_range]
  constructor
  · rintro ⟨f, hf, n, hn, rfl⟩
    exact ⟨f, hf, rfl, hn⟩
  · rintro ⟨f, hf, hid, hn⟩
    exact ⟨f, hf, d.serial, hn, by rw [hid]⟩

theorem Tidy.consistent (h : m.Tidy) : m.Consistent where
  funcs := h.funcs
  own f hf := h.distinct.own hf
  apart _ hf _ hg hne _ hi _ hj := h.distinct.apart hf hg hne hi hj
  serials f hf g hg i hi d hd hhome := by
    have hmem : i ∈ m.held := mem_held.mpr ⟨g, hg, hi⟩
    have hid : d ∈ m.held.map Instr.id := by
      rcases List.mem_cons.mp hd with rfl | hd
      · exact List.mem_map_of_mem hmem
      · exact (h.sound i hmem).reads d hd
    obtain ⟨x, hx, hxid, hlt⟩ := mem_madeIds.mp (h.held.mem_iff.mp hid)
    rwa [List.inj_on_of_nodup_map h.funcs hx hf (hxid.trans hhome)] at hlt
  blocks f hf k hk := ((h.numbered f hf).bounds k.id (List.mem_map_of_mem hk)).2
  recorded := h.recorded

/-- Whether a module is tidy and has kept what another one had. -/
structure Advances (m m' : Module) : Prop where
  tidy : m'.Tidy
  kept : m.Extends m'

theorem Tidy.advances (h : m.Tidy) : m.Advances m := ⟨h, .refl m⟩

theorem Advances.trans (h : m₀.Advances m) (h' : m.Advances m') : m₀.Advances m' :=
  ⟨h'.tidy, h.kept.trans h'.kept⟩

/-- Instructions may change places. -/
theorem Tidy.shuffle (h : m.Tidy) (hs : m.Shuffles m') : m.Advances m' := by
  have hmade : m'.madeIds = m.madeIds := by
    have hbare : ∀ m : Module, m.madeIds = (m.known.map Func.bare).flatMap Func.madeIds :=
      fun m => by
      rw [List.flatMap_map]
      rfl
    rw [hbare, hbare, hs.known]
  have hids := hs.held.map Instr.id
  refine ⟨⟨(hs.distinct h.distinct).funcs, fun g hg => ?_, fun g hg => ?_, ?_,
    hs.recorded h.recorded, fun i hi => ?_⟩, fun f hf => ?_⟩
  · obtain ⟨f, hf, he⟩ := hs.exists_bare hg
    have hlength : m'.known.length = m.known.length := by
      rw [← List.length_map (f := Func.bare), hs.known, List.length_map]
    rw [nextFunc, hlength, Func.id_of_bare he]
    exact h.next f hf
  · obtain ⟨f, hf, he⟩ := hs.exists_bare hg
    exact (h.numbered f hf).of_extends (.of_bare he)
  · rw [hmade]
    exact hids.trans h.held
  · exact (h.sound i (hs.held.mem_iff.mp hi)).mono (fun d hd => hids.mem_iff.mpr hd) fun b hb =>
      hs.refs ▸ hb
  · have hmem : f.bare ∈ m'.known.map Func.bare := hs.known ▸ List.mem_map_of_mem hf
    obtain ⟨g, hg, he⟩ := List.mem_map.mp hmem
    exact ⟨g, hg, .of_bare he⟩

/-- What a change of one function has to keep: an instruction is an old one or sound, and has an
identity that was held or the next one. -/
structure Develops (m : Module) (f g : Func) : Prop extends f.Extends g where
  held : ∃ n, g.nextSerial = f.nextSerial + n ∧
    (g.held.map Instr.id).Perm (f.held.map Instr.id ++ (List.range n).map f.made)
  recorded : f.Recorded → g.Recorded
  sound : ∀ i ∈ g.held,
    i ∈ f.held ∨ i.Sound (m.held.map Instr.id ++ g.held.map Instr.id) (m.refs ++ g.refs)

theorem perm_of_append_perm {α : Type} {a b x y : List α} (h : (a ++ x).Perm (b ++ (x ++ y))) :
    a.Perm (b ++ y) := by
  rw [← List.perm_append_right_iff x, List.append_assoc]
  exact h.trans (List.perm_append_comm.append_left _)

theorem Tidy.update (h : m.Tidy) (hf : f ∈ m.known) (hg : m.Develops f g) :
    m.Advances (m.update g) := by
  obtain ⟨n, hnext, hheld⟩ := hg.held
  have hids :
      ((m.update g).held.map Instr.id).Perm (m.held.map Instr.id ++ (List.range n).map f.made) := by
    have hperm := (perm_held_update h.funcs hf hg.id).map Instr.id
    rw [List.map_append, List.map_append] at hperm
    exact perm_of_append_perm (hperm.trans (hheld.append_left _))
  have hmade : (m.update g).madeIds.Perm (m.madeIds ++ (List.range n).map f.made) := by
    have hperm := perm_flatMap_replace h.funcs hf hg.id Func.madeIds
    have hfunc : g.madeIds = f.madeIds ++ (List.range n).map f.made := by
      rw [Func.madeIds, hnext, hg.id, List.range_add, List.map_append, List.map_map]
      rfl
    rw [madeIds, known_update]
    rw [hfunc] at hperm
    exact perm_of_append_perm hperm
  have hkept : m.Extends (m.update g) := by
    intro x hx
    by_cases hid : x.id = f.id
    · rw [List.inj_on_of_nodup_map h.funcs hx hf hid]
      exact ⟨g, (mem_known_update hf hg.id).mpr (Or.inl rfl), hg.toExtends⟩
    · exact ⟨x, (mem_known_update hf hg.id).mpr (Or.inr ⟨hx, hid⟩), .refl x⟩
  refine ⟨⟨ids_update m g ▸ h.funcs, fun x hx => ?_, fun x hx => ?_, ?_, fun x hx => ?_,
    fun i hi => ?_⟩, hkept⟩
  · have hlength : (m.update g).known.length = m.known.length := by
      rw [known_update, List.length_map]
    rw [nextFunc, hlength]
    rcases (mem_known_update hf hg.id).mp hx with rfl | ⟨hx, _⟩
    · exact hg.id ▸ h.next f hf
    · exact h.next x hx
  · rcases (mem_known_update hf hg.id).mp hx with rfl | ⟨hx, _⟩
    · exact (h.numbered f hf).of_extends hg.toExtends
    · exact h.numbered x hx
  · exact hids.trans ((h.held.append_right _).trans hmade.symm)
  · rcases (mem_known_update hf hg.id).mp hx with rfl | ⟨hx, _⟩
    · exact hg.recorded (h.recorded f hf)
    · exact h.recorded x hx
  · have hmem : g ∈ (m.update g).known := (mem_known_update hf hg.id).mpr (Or.inl rfl)
    have hknown : ∀ d ∈ m.held.map Instr.id, d ∈ (m.update g).held.map Instr.id := fun d hd =>
      hids.mem_iff.mpr (List.mem_append_left _ hd)
    have hold : i ∈ m.held → i.Sound ((m.update g).held.map Instr.id) (m.update g).refs := fun hi =>
      (h.sound i hi).mono hknown fun b hb => hkept.refs hb
    obtain ⟨x, hx, hix⟩ := mem_held.mp hi
    rcases (mem_known_update hf hg.id).mp hx with rfl | ⟨hx, _⟩
    · rcases hg.sound i hix with hi | hsound
      · exact hold (mem_held.mpr ⟨f, hf, hi⟩)
      · refine hsound.mono (fun d hd => ?_) fun b hb => ?_
        · rcases List.mem_append.mp hd with hd | hd
          · exact hknown d hd
          · obtain ⟨j, hj, rfl⟩ := List.mem_map.mp hd
            exact List.mem_map_of_mem (mem_held.mpr ⟨x, hmem, hj⟩)
        · rcases List.mem_append.mp hb with hb | hb
          · exact hkept.refs hb
          · exact List.mem_flatMap.mpr ⟨x, hmem, hb⟩
    · exact hold (mem_held.mpr ⟨x, hx, hix⟩)

/-- An edit of one function that keeps what it has to keep. -/
theorem Tidy.edit {α : Type} (h : m.Tidy) {id : FuncId} {e : Edit Func α}
    (he : ∀ f ∈ m.known, f.id = id → m.Develops f (e.after f)) :
    m.Advances ((Module.edit id e).after m) := by
  rw [after_edit]
  cases hf : m.func? id with
  | none => exact h.advances
  | some f =>
    obtain ⟨hmem, hid⟩ := h.distinct.func?_iff.mp hf
    exact h.update hmem (he f hmem hid)

end Module

end KernelIR
