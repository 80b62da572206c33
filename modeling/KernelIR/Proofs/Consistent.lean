import KernelIR.Proofs.Ssa
import Mathlib.Algebra.Order.BigOperators.Group.List
import Mathlib.Algebra.Order.Group.Nat
import Mathlib.Data.List.Pairwise

namespace KernelIR

theorem findSome?_iff_of_unique {α β : Type} {l : List α} {F : α → Option β} {y : β}
    (h : ∀ a ∈ l, ∀ b ∈ l, ∀ x z, F a = some x → F b = some z → x = z) :
    l.findSome? F = some y ↔ ∃ a ∈ l, F a = some y := by
  constructor
  · exact List.exists_of_findSome?_eq_some
  · intro hy
    obtain ⟨a, ha, hay⟩ := hy
    have hsome : (l.findSome? F).isSome := by
      rw [List.findSome?_isSome_iff]
      exact ⟨a, ha, by rw [hay]; rfl⟩
    obtain ⟨z, hz⟩ := Option.isSome_iff_exists.mp hsome
    obtain ⟨b, hb, hbz⟩ := List.exists_of_findSome?_eq_some hz
    rw [hz, h b hb a ha z y hbz hay]

namespace Func

/-- The instructions of a function, in blocks or loose. -/
def held (f : Func) : List Instr := f.instrs ++ f.loose

variable {f : Func} {d : InstrId} {i : Instr} {j k : Block}

theorem mem_held_of_mem (hk : k ∈ f.blocks) (hi : i ∈ k.instrs) : i ∈ f.held :=
  List.mem_append_left _ (mem_instrs.mpr ⟨k, hk, hi⟩)

theorem holder_unique (hn : (f.held.map Instr.id).Nodup) (hj : j ∈ f.blocks) (hk : k ∈ f.blocks)
    (hdj : j.holds d = true) (hdk : k.holds d = true) : j = k := by
  by_contra hne
  have hblocks : (f.blocks.flatMap fun k => k.instrs.map Instr.id).Nodup := by
    rw [held, List.map_append, List.nodup_append] at hn
    simpa [instrs, List.map_flatMap] using hn.1
  have hsymm : Std.Symm (Function.onFun List.Disjoint fun k : Block => k.instrs.map Instr.id) :=
    ⟨fun _ _ h _ ha hb => h hb ha⟩
  have hjk := (List.nodup_flatMap.mp hblocks).2.forall hj hk hne
  obtain ⟨x, hx, hxd⟩ := Block.holds_iff.mp hdj
  obtain ⟨y, hy, hyd⟩ := Block.holds_iff.mp hdk
  exact hjk (List.mem_map.mpr ⟨x, hx, hxd⟩) (List.mem_map.mpr ⟨y, hy, hyd⟩)

theorem nodup_block (hn : (f.held.map Instr.id).Nodup) (hk : k ∈ f.blocks) :
    (k.instrs.map Instr.id).Nodup := by
  rw [held, List.map_append, List.nodup_append, instrs, List.map_flatMap, List.nodup_flatMap] at hn
  exact hn.1.1 k hk

theorem fst_places (f : Func) : f.places.map Prod.fst = f.instrs.map Instr.id := by
  simp [places, instrs, List.map_flatMap, Function.comp_def]

theorem mem_places {b : BlockRef} :
    (d, b) ∈ f.places ↔ ∃ k ∈ f.blocks, k.holds d = true ∧ b = f.ref k.id := by
  simp only [places, List.mem_flatMap, List.mem_map, Prod.mk.injEq, Block.holds_iff]
  constructor
  · rintro ⟨k, hk, i, hi, hid, hb⟩
    exact ⟨k, hk, ⟨i, hi, hid⟩, hb.symm⟩
  · rintro ⟨k, hk, ⟨i, hi, hid⟩, hb⟩
    exact ⟨k, hk, i, hi, hid, hb.symm⟩

/-- Whether it is recorded of each instruction in which block it stands, and of each block in which
function. -/
structure Recorded (f : Func) : Prop where
  parents : f.parents.Perm f.places
  blocks : ∀ k ∈ f.blocks, k.parent = f.id

instance (f : Func) : Decidable f.Recorded :=
  decidable_of_iff (f.parents.Perm f.places ∧ ∀ k ∈ f.blocks, k.parent = f.id)
    ⟨fun h => ⟨h.1, h.2⟩, fun h => ⟨h.parents, h.blocks⟩⟩

theorem Recorded.owner?_iff (h : f.Recorded) (hn : (f.held.map Instr.id).Nodup) {b : BlockRef} :
    f.owner? d = some b ↔ ∃ k ∈ f.blocks, k.holds d = true ∧ b = f.ref k.id := by
  have hkeys : (f.parents.map Prod.fst).Nodup := by
    rw [(h.parents.map Prod.fst).nodup_iff, fst_places]
    rw [held, List.map_append, List.nodup_append] at hn
    exact hn.1
  rw [← mem_places, ← h.parents.mem_iff, owner?]
  constructor
  · intro howner
    obtain ⟨_, _, hsplit, _⟩ := List.lookup_eq_some_iff.mp howner
    exact hsplit ▸ List.mem_append_right _ List.mem_cons_self
  · exact lookup_eq_of_mem hkeys

end Func

namespace Module

/-- Where the records are right and an instruction occurs once and in one function, its owner is the
block that holds it. -/
theorem owner?_iff_of_unique {m : Module} {d : InstrId} {b : BlockRef}
    (hrecorded : ∀ f ∈ m.known, f.Recorded) (hown : ∀ f ∈ m.known, (f.held.map Instr.id).Nodup)
    (hhome : ∀ f ∈ m.known, ∀ g ∈ m.known, ∀ i ∈ f.held, ∀ j ∈ g.held, i.id = j.id → f = g) :
    m.owner? d = some b ↔ ∃ f ∈ m.known, ∃ k ∈ f.blocks, k.holds d = true ∧ b = f.ref k.id := by
  have howner : ∀ f ∈ m.known, ∀ b, f.owner? d = some b ↔
      ∃ k ∈ f.blocks, k.holds d = true ∧ b = f.ref k.id := fun f hf _ =>
    (hrecorded f hf).owner?_iff (hown f hf)
  rw [owner?, findSome?_iff_of_unique]
  · constructor
    · intro h
      obtain ⟨f, hf, hb⟩ := h
      exact ⟨f, hf, (howner f hf b).mp hb⟩
    · intro h
      obtain ⟨f, hf, hb⟩ := h
      exact ⟨f, hf, (howner f hf b).mpr hb⟩
  · intro f hf g hg x z hx hz
    obtain ⟨j, hj, hdj, rfl⟩ := (howner f hf x).mp hx
    obtain ⟨k, hk, hdk, rfl⟩ := (howner g hg z).mp hz
    obtain ⟨u, hu, hud⟩ := Block.holds_iff.mp hdj
    obtain ⟨v, hv, hvd⟩ := Block.holds_iff.mp hdk
    have hfg := hhome f hf g hg u (Func.mem_held_of_mem hj hu) v (Func.mem_held_of_mem hk hv)
      (hud.trans hvd.symm)
    subst hfg
    rw [Func.holder_unique (hown f hf) hj hk hdj hdk]

/-- Numbers are never used twice: functions and instructions have identities of their own, and those
that are mentioned were handed out. It is recorded where instructions and blocks stand. -/
structure Consistent (m : Module) : Prop where
  funcs : (m.known.map Func.id).Nodup
  own : ∀ f ∈ m.known, (f.held.map Instr.id).Nodup
  apart : ∀ f ∈ m.known, ∀ g ∈ m.known, f.id ≠ g.id → ∀ i ∈ f.held, ∀ j ∈ g.held, i.id ≠ j.id
  serials : ∀ f ∈ m.known, ∀ g ∈ m.known, ∀ i ∈ g.held, ∀ d ∈ i.id :: i.reads, d.home = f.id →
    d.serial < f.nextSerial
  blocks : ∀ f ∈ m.known, ∀ k ∈ f.blocks, k.id ≤ f.maxBlock
  recorded : ∀ f ∈ m.known, f.Recorded

instance (m : Module) : Decidable m.Consistent :=
  decidable_of_iff ((m.known.map Func.id).Nodup ∧ (∀ f ∈ m.known, (f.held.map Instr.id).Nodup) ∧
      (∀ f ∈ m.known, ∀ g ∈ m.known, f.id ≠ g.id → ∀ i ∈ f.held, ∀ j ∈ g.held, i.id ≠ j.id) ∧
      (∀ f ∈ m.known, ∀ g ∈ m.known, ∀ i ∈ g.held, ∀ d ∈ i.id :: i.reads, d.home = f.id →
        d.serial < f.nextSerial) ∧
      (∀ f ∈ m.known, ∀ k ∈ f.blocks, k.id ≤ f.maxBlock) ∧ ∀ f ∈ m.known, f.Recorded)
    ⟨fun ⟨funcs, own, apart, serials, blocks, recorded⟩ =>
      ⟨funcs, own, apart, serials, blocks, recorded⟩,
    fun h => ⟨h.funcs, h.own, h.apart, h.serials, h.blocks, h.recorded⟩⟩

namespace Consistent

variable {m : Module} {f g : Func} {d : InstrId} {i j : Instr}

theorem func?_iff (hm : m.Consistent) {n : FuncId} : m.func? n = some f ↔ f ∈ m.known ∧ f.id = n :=
  find?_key_iff hm.funcs

theorem func_unique (hm : m.Consistent) (hf : f ∈ m.known) (hg : g ∈ m.known) (hi : i ∈ f.held)
    (hj : j ∈ g.held) (h : i.id = j.id) : f = g := by
  by_contra hne
  have hid : f.id ≠ g.id := fun he => hne (List.inj_on_of_nodup_map hm.funcs hf hg he)
  exact hm.apart f hf g hg hid i hi j hj h

theorem instr_unique (hm : m.Consistent) (hf : f ∈ m.known) (hg : g ∈ m.known) (hi : i ∈ f.held)
    (hj : j ∈ g.held) (h : i.id = j.id) : i = j := by
  have hfg := hm.func_unique hf hg hi hj h
  subst hfg
  exact List.inj_on_of_nodup_map (hm.own f hf) hi hj h

theorem instr?_iff (hm : m.Consistent) : m.instr? d = some i ↔
    ∃ f ∈ m.known, i ∈ f.held ∧ i.id = d := by
  have hown : ∀ f ∈ m.known, ∀ i, f.instr? d = some i ↔ i ∈ f.held ∧ i.id = d := fun f hf i =>
    find?_key_iff (hm.own f hf)
  rw [instr?, findSome?_iff_of_unique]
  · constructor
    · intro h
      obtain ⟨f, hf, hi⟩ := h
      exact ⟨f, hf, (hown f hf i).mp hi⟩
    · intro h
      obtain ⟨f, hf, hi⟩ := h
      exact ⟨f, hf, (hown f hf i).mpr hi⟩
  · intro f hf g hg x z hx hz
    have hx := (hown f hf x).mp hx
    have hz := (hown g hg z).mp hz
    exact hm.instr_unique hf hg hx.1 hz.1 (hx.2.trans hz.2.symm)

theorem holder?_iff (hm : m.Consistent) : m.holder? d = some f ↔
    f ∈ m.known ∧ ∃ i ∈ f.held, i.id = d := by
  have holds : ∀ g : Func, (g.instr? d).isSome = true ↔ ∃ i ∈ g.held, i.id = d := by
    intro g
    rw [Func.instr?, List.find?_isSome]
    simp [Func.held]
  rw [holder?, find?_iff_of_unique, holds]
  intro f hf g hg hfd hgd
  obtain ⟨i, hi, hid⟩ := (holds f).mp hfd
  obtain ⟨j, hj, hjd⟩ := (holds g).mp hgd
  exact hm.func_unique hf hg hi hj (hid.trans hjd.symm)

theorem owner?_iff (hm : m.Consistent) {b : BlockRef} :
    m.owner? d = some b ↔ ∃ f ∈ m.known, ∃ k ∈ f.blocks, k.holds d = true ∧ b = f.ref k.id :=
  owner?_iff_of_unique hm.recorded hm.own fun _ hf _ hg _ hi _ hj => hm.func_unique hf hg hi hj

/-- A block that stands in a function was made there. -/
theorem home?_eq (hm : m.Consistent) (hf : f ∈ m.known) {k : Block} (hk : k ∈ f.blocks) :
    m.home? (f.ref k.id) = some f := by
  have hfunc : m.func? f.id = some f := hm.func?_iff.mpr ⟨hf, rfl⟩
  obtain ⟨j, hj⟩ : ∃ j, f.block? k.id = some j := by
    rw [← Option.isSome_iff_exists, Func.block?, List.find?_isSome]
    exact ⟨k, hk, decide_eq_true rfl⟩
  have hblock : m.block? (f.ref k.id) = some j := by
    rw [block?, Func.ref, hfunc, Option.bind_some, hj]
  rw [home?, hblock, Option.bind_some,
    (hm.recorded f hf).blocks j (List.mem_of_find?_eq_some hj), hfunc]

theorem isTerm_iff (hm : m.Consistent) :
    m.isTerm d = true ↔ ∃ f ∈ m.known, ∃ i ∈ f.held, i.id = d ∧ i.op.isTerminator = true := by
  rw [isTerm, Option.any_eq_true]
  constructor
  · intro h
    obtain ⟨i, hi, ht⟩ := h
    obtain ⟨f, hf, hif, hid⟩ := hm.instr?_iff.mp hi
    exact ⟨f, hf, i, hif, hid, ht⟩
  · intro h
    obtain ⟨f, hf, i, hif, hid, ht⟩ := h
    exact ⟨i, hm.instr?_iff.mpr ⟨f, hf, hif, hid⟩, ht⟩

end Consistent

variable {m : Module} {f g : Func}

theorem known_update (m : Module) (f : Func) :
    (m.update f).known = m.known.map fun g => if g.id = f.id then f else g := by
  simp [known, update]

theorem mem_known_update (hf : f ∈ m.known) (hid : g.id = f.id) {x : Func} :
    x ∈ (m.update g).known ↔ x = g ∨ x ∈ m.known ∧ x.id ≠ f.id := by
  rw [known_update, List.mem_map]
  constructor
  · intro h
    obtain ⟨y, hy, rfl⟩ := h
    by_cases hyf : y.id = g.id
    · exact Or.inl (if_pos hyf)
    · rw [if_neg hyf]
      exact Or.inr ⟨hy, hid ▸ hyf⟩
  · intro h
    rcases h with rfl | ⟨hx, hne⟩
    · exact ⟨f, hf, if_pos hid.symm⟩
    · exact ⟨x, hx, if_neg (hid ▸ hne)⟩

theorem ids_update (m : Module) (f : Func) :
    (m.update f).known.map Func.id = m.known.map Func.id := by
  rw [known_update, List.map_map]
  apply List.map_congr_left
  intro x _
  by_cases hx : x.id = f.id
  · simp [hx]
  · simp [hx]

theorem func?_update (m : Module) (f : Func) (id : FuncId) :
    (m.update f).func? id = (m.func? id).map fun g => if g.id = f.id then f else g := by
  have hput : ∀ g : Func, (if g.id = f.id then f else g).id = g.id := by
    intro g
    by_cases hg : g.id = f.id
    · rw [if_pos hg, hg]
    · rw [if_neg hg]
  rw [func?, known_update, List.find?_map, func?]
  simp only [Function.comp_def, hput]

end Module

/-- A change of a function that takes only new numbers for what it makes. -/
structure Func.Grows (f g : Func) : Prop where
  id : g.id = f.id
  serial : f.nextSerial ≤ g.nextSerial
  own : (g.held.map Instr.id).Nodup
  ids : ∀ i ∈ g.held, (∃ j ∈ f.held, j.id = i.id) ∨
    i.id.home = f.id ∧ f.nextSerial ≤ i.id.serial ∧ i.id.serial < g.nextSerial
  reads : ∀ i ∈ g.held, ∀ d ∈ i.reads, (∃ j ∈ f.held, d ∈ j.reads) ∨ ∃ j ∈ g.held, j.id = d
  blocks : ∀ k ∈ g.blocks, k.id ≤ g.maxBlock
  recorded : f.Recorded → g.Recorded

namespace Module

variable {m : Module} {f g : Func}

/-- An identity of the changed function is new, or was handed out before. -/
theorem Consistent.serial_lt (hm : m.Consistent) (hf : f ∈ m.known) (h : f.Grows g) {x : Func}
    (hx : x ∈ (m.update g).known) {i : Instr} (hi : i ∈ g.held) (hhome : i.id.home = x.id) :
    i.id.serial < x.nextSerial := by
  rcases h.ids i hi with ⟨j, hj, hji⟩ | ⟨hnew, _, hlt⟩
  · have hold : ∀ y ∈ m.known, y.id = x.id → i.id.serial < y.nextSerial := by
      intro y hy hyx
      exact hji ▸ hm.serials y hy f hf j hj j.id List.mem_cons_self (hji ▸ hhome.trans hyx.symm)
    rcases (mem_known_update hf h.id).mp hx with rfl | ⟨hx, _⟩
    · exact Nat.lt_of_lt_of_le (hold f hf h.id.symm) h.serial
    · exact hold x hx rfl
  · rcases (mem_known_update hf h.id).mp hx with rfl | ⟨_, hne⟩
    · exact hlt
    · exact absurd (hhome.symm.trans hnew) hne

/-- Such a change keeps the module consistent. -/
theorem Consistent.update (hm : m.Consistent) (hf : f ∈ m.known) (h : f.Grows g) :
    (m.update g).Consistent := by
  have old : ∀ x ∈ m.known, ∀ i ∈ x.held, x.id ≠ f.id → ∀ j ∈ g.held, i.id ≠ j.id := by
    intro x hx i hi hne j hj he
    rcases h.ids j hj with ⟨k, hk, hkj⟩ | ⟨hhome, hle, _⟩
    · exact hm.apart x hx f hf hne i hi k hk (he.trans hkj.symm)
    · have hlt := hm.serials f hf x hx i hi i.id List.mem_cons_self (he ▸ hhome)
      rw [he] at hlt
      omega
  have known := fun x => mem_known_update (x := x) hf h.id
  refine ⟨(ids_update m g) ▸ hm.funcs, fun x hx => ?_, fun x hx y hy hne i hi j hj => ?_,
    fun x hx y hy i hi d hd hhome => ?_, fun x hx => ?_, fun x hx => ?_⟩
  · rcases (known x).mp hx with rfl | ⟨hx, _⟩
    · exact h.own
    · exact hm.own x hx
  · rcases (known x).mp hx with rfl | ⟨hxm, hxf⟩
    · rcases (known y).mp hy with rfl | ⟨hym, hyf⟩
      · exact absurd rfl hne
      · exact (old y hym j hj hyf i hi).symm
    · rcases (known y).mp hy with rfl | ⟨hym, hyf⟩
      · exact old x hxm i hi hxf j hj
      · exact hm.apart x hxm y hym hne i hi j hj
  · -- what is mentioned outside the changed function is bounded as before
    have outside : ∀ z ∈ m.known, ∀ i ∈ z.held, ∀ d ∈ i.id :: i.reads, d.home = x.id →
        d.serial < x.nextSerial := by
      intro z hz i hi d hd hhome
      rcases (known x).mp hx with rfl | ⟨hx, _⟩
      · exact Nat.lt_of_lt_of_le (hm.serials f hf z hz i hi d hd (h.id ▸ hhome)) h.serial
      · exact hm.serials x hx z hz i hi d hd hhome
    rcases (known y).mp hy with rfl | ⟨hy, _⟩
    · rcases List.mem_cons.mp hd with rfl | hd
      · exact hm.serial_lt hf h hx hi hhome
      · rcases h.reads i hi d hd with ⟨j, hj, hdj⟩ | ⟨j, hj, rfl⟩
        · exact outside f hf j hj d (List.mem_cons_of_mem _ hdj) hhome
        · exact hm.serial_lt hf h hx hj hhome
    · exact outside y hy i hi d hd hhome
  · rcases (known x).mp hx with rfl | ⟨hx, _⟩
    · exact h.blocks
    · exact hm.blocks x hx
  · rcases (known x).mp hx with rfl | ⟨hx, _⟩
    · exact h.recorded (hm.recorded f hf)
    · exact hm.recorded x hx

/-- The order of the functions does not matter. -/
theorem Consistent.of_perm (hm : m.Consistent) {m' : Module} (h : m'.known.Perm m.known) :
    m'.Consistent where
  funcs := (h.map Func.id).nodup_iff.mpr hm.funcs
  own f hf := hm.own f (h.mem_iff.mp hf)
  apart f hf g hg := hm.apart f (h.mem_iff.mp hf) g (h.mem_iff.mp hg)
  serials f hf g hg := hm.serials f (h.mem_iff.mp hf) g (h.mem_iff.mp hg)
  blocks f hf := hm.blocks f (h.mem_iff.mp hf)
  recorded f hf := hm.recorded f (h.mem_iff.mp hf)

theorem length_le_blockCount (hf : f ∈ m.known) : f.blocks.length ≤ m.blockCount :=
  (List.sublist_flatten_of_mem (List.mem_map_of_mem hf)).length_le

/-- A consistent module and a function of it whose blocks are in order. -/
structure Hosts (m : Module) (f : Func) : Prop where
  consistent : m.Consistent
  mem : f ∈ m.known
  framed : f.Framed

theorem Hosts.own (h : m.Hosts f) : (f.held.map Instr.id).Nodup := h.consistent.own f h.mem

theorem Hosts.recorded (h : m.Hosts f) : f.Recorded := h.consistent.recorded f h.mem

theorem Hosts.func? (h : m.Hosts f) : m.func? f.id = some f :=
  h.consistent.func?_iff.mpr ⟨h.mem, rfl⟩

theorem Hosts.block? (h : m.Hosts f) {k : Block} (hk : k ∈ f.blocks) :
    m.block? (f.ref k.id) = some k := by
  have hfunc : m.func? (f.ref k.id).func = some f := h.func?
  rw [Module.block?, hfunc]
  exact (Func.block?_iff h.framed.linked).mpr ⟨hk, rfl⟩

theorem update_self (hn : (m.known.map Func.id).Nodup) (hf : f ∈ m.known) : m.update f = m := by
  have hput : ∀ gs : List Func, (∀ g ∈ gs, g ∈ m.known) →
      (gs.map fun g => if g.id = f.id then f else g) = gs := by
    intro gs hgs
    have hself : ∀ g ∈ gs, (if g.id = f.id then f else g) = g := by
      intro g hg
      by_cases hid : g.id = f.id
      · rw [if_pos hid]
        exact List.inj_on_of_nodup_map hn hf (hgs g hg) hid.symm
      · rw [if_neg hid]
    rw [List.map_congr_left hself, List.map_id']
  simp only [Module.update, hput m.functions fun g hg => List.mem_append_left _ hg,
    hput m.dropped fun g hg => List.mem_append_right _ hg]

theorem Consistent.update_self (hm : m.Consistent) (hf : f ∈ m.known) : m.update f = m :=
  Module.update_self hm.funcs hf

theorem Hosts.update_self (h : m.Hosts f) : m.update f = m := h.consistent.update_self h.mem

/-- The last change of a function counts. -/
theorem update_update (m : Module) (h : g.id = f.id) : (m.update f).update g = m.update g := by
  have hput : ∀ x : Func, (if (if x.id = f.id then f else x).id = g.id then g
      else if x.id = f.id then f else x) = if x.id = g.id then g else x := by
    intro x
    by_cases hx : x.id = f.id
    · simp [hx, h]
    · simp [hx, h]
  simp [update, Function.comp_def, hput]

/-- A consistent module and a function of it in valid form. -/
structure Ready (m : Module) (f : Func) : Prop where
  consistent : m.Consistent
  mem : f ∈ m.known
  valid : f.Valid m.isTerm

theorem Ready.hosts (h : m.Ready f) : m.Hosts f := ⟨h.consistent, h.mem, h.valid.framed⟩

theorem Ready.own (h : m.Ready f) : (f.held.map Instr.id).Nodup := h.hosts.own

theorem Ready.func? (h : m.Ready f) : m.func? f.id = some f := h.hosts.func?

theorem Ready.isTerm (h : m.Ready f) :
    ∀ t ∈ f.instrs, t.op.isTerminator = true → m.isTerm t.id = true := by
  intro t ht hop
  have hheld : t ∈ f.held := List.mem_append_left _ ht
  exact h.consistent.isTerm_iff.mpr ⟨f, h.mem, t, hheld, rfl, hop⟩

end Module

end KernelIR
