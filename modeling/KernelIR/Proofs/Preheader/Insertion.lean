import KernelIR.Proofs.Graph.Detour
import KernelIR.Proofs.Preheader.Enterable

namespace KernelIR

namespace Func

theorem perm_insertBefore {P : Block → Bool} {n : Block} {ks : List Block}
    (h : ∃ k ∈ ks, P k = true) :
    (insertBefore P n ks).Perm (n :: ks) := by
  induction ks with
  | nil =>
    obtain ⟨k, hk, _⟩ := h
    exact absurd hk List.not_mem_nil
  | cons k ks ih =>
    rw [insertBefore]
    split
    · exact List.Perm.refl _
    · next hk =>
      have hrest : ∃ k ∈ ks, P k = true := by
        obtain ⟨x, hx, hpx⟩ := h
        rcases List.mem_cons.mp hx with rfl | hx
        · exact absurd hpx hk
        · exact ⟨x, hx, hpx⟩
      exact ((ih hrest).cons k).trans (List.Perm.swap n k ks)

theorem sublist_insertBefore (P : Block → Bool) (n : Block) (ks : List Block) :
    ks.Sublist (insertBefore P n ks) := by
  induction ks with
  | nil => exact List.Sublist.refl _
  | cons k ks ih =>
    rw [insertBefore]
    split
    · exact List.sublist_cons_self _ _
    · exact ih.cons_cons k

variable {f : Func} {l : Loop} {σ : Instr → Instr} {new : List Instr}

/-- The new block. -/
def preheader (f : Func) (l : Loop) (new : List Instr) : Block :=
  ⟨f.fresh, f.label l.header.number ++ ".preheader", f.id, new ++ [f.entrance l new.length]⟩

/-- What becomes of an old block. -/
def changed (f : Func) (l : Loop) (σ : Instr → Instr) (k : Block) : Block :=
  (f.rewired l k).mapInstrs σ

/-- The function with the new block. -/
def entered (f : Func) (l : Loop) (σ : Instr → Instr) (new : List Instr) : Func :=
  f.expand l σ (new ++ [f.entrance l new.length])

/-- A new block before the header, with what becomes of the phis of the header. -/
structure Places (f : Func) (l : Loop) (σ : Instr → Instr) (new : List Instr) :
    Prop extends f.Roomy l where
  joins : Joins f ((f.entering l).map f.ref) (f.phis l.header.number) σ new

/-- Such a block before the header of a natural loop. -/
structure Inserts (f : Func) (l : Loop) (σ : Instr → Instr) (new : List Instr) : Prop
    extends f.Extensible l, f.Places l σ new

theorem Roomy.exists_places (h : f.Roomy l) :
    ∃ σ new, f.withPreheader l = f.entered l σ new ∧ f.Places l σ new := by
  obtain ⟨k, hk, hheader⟩ := h.header
  have hphis : f.phis l.header.number = k.instrs.filter fun i => i.op = .phi := by
    have hblock : f.block? l.header.number = some k :=
      (find?_key_iff h.distinct).mpr ⟨hk, (congrArg BlockRef.number hheader).symm⟩
    rw [phis, hblock]
  have hnodup : ((f.phis l.header.number).map Instr.id).Nodup := by
    rw [hphis]
    exact (nodup_block h.own hk).sublist (List.filter_sublist.map _)
  have hold : ∀ φ ∈ f.phis l.header.number, ∀ n, f.made n ≠ φ.id := fun φ hφ n he =>
    h.old φ (List.mem_append_left _ (h.mem_instrs_phi hφ)) φ.id List.mem_cons_self n he.symm
  obtain ⟨σ, new, heq, hjoins⟩ := withPreheader_eq h.numbers hnodup hold
  exact ⟨σ, new, heq, h, hjoins⟩

theorem Extensible.exists_inserts (h : f.Extensible l) :
    ∃ σ new, f.withPreheader l = f.entered l σ new ∧ f.Inserts l σ new := by
  obtain ⟨σ, new, heq, hplaces⟩ := h.toRoomy.exists_places
  exact ⟨σ, new, heq, h, hplaces.joins⟩

theorem Extensible.id_withPreheader (h : f.Extensible l) : (f.withPreheader l).id = f.id := by
  obtain ⟨σ, new, heq, _⟩ := h.exists_inserts
  rw [heq]
  rfl

theorem map_redirect {β : Type} {F : Instr → β}
    (hF : ∀ (i : Instr) ts, F { i with targets := ts } = F i)
    (old new : BlockRef) (k : Block) : (k.redirect old new).instrs.map F = k.instrs.map F := by
  rcases List.eq_nil_or_concat k.instrs with hk | ⟨body, t, hk⟩
  · simp [Block.redirect, hk]
  · simp [Block.redirect, hk, hF]

theorem term?_mapInstrs {k : Block} (h : ∀ i, (σ i).op = i.op) :
    (k.mapInstrs σ).term? = k.term?.map σ := by
  rcases List.eq_nil_or_concat k.instrs with hk | ⟨body, t, hk⟩
  · simp [Block.term?, Block.mapInstrs, hk]
  · simp [Block.term?, Block.mapInstrs, hk, h, Option.filter, apply_ite]

theorem succs_mapInstrs {k : Block} (h : ∀ i, (σ i).op = i.op ∧ (σ i).targets = i.targets) :
    (k.mapInstrs σ).succs = k.succs := by
  rw [Block.succs, term?_mapInstrs fun i => (h i).1, Block.succs]
  cases k.term? with
  | none => rfl
  | some t => exact (h t).2

/-- What becomes of an instruction when a block is put before the header. -/
structure Alters (f : Func) (new : List Instr) (i j : Instr) : Prop where
  id : j.id = i.id
  op : j.op = i.op
  title : j.name = i.name ∧ j.ty = i.ty
  count : j.targets.length = i.targets.length
  targets : ∀ b ∈ j.targets, b ∈ i.targets ∨ b = f.ref f.fresh
  operands : ∀ v ∈ j.operands, v ∈ i.operands ∨ ∃ n ∈ new, v = .instr n.id
  sources : ∀ b ∈ j.incoming, b ∈ i.incoming ∨ b = f.ref f.fresh
  paired : i.operands.length = i.incoming.length → j.operands.length = j.incoming.length

theorem Alters.refl (f : Func) (new : List Instr) (i : Instr) : Alters f new i i :=
  ⟨rfl, rfl, ⟨rfl, rfl⟩, rfl, fun _ => Or.inl, fun _ => Or.inl, fun _ => Or.inl, fun h => h⟩

namespace Places

variable (h : f.Places l σ new)

include h

omit h in
theorem map_changed {β : Type} {F : Instr → β}
    (hF : ∀ (i : Instr) ts, F { i with targets := ts } = F i)
    (hσ : ∀ i, F (σ i) = F i) (k : Block) : (f.changed l σ k).instrs.map F = k.instrs.map F := by
  rw [changed, Block.mapInstrs, List.map_map, Function.comp_def]
  simp only [hσ]
  rw [rewired]
  split
  · exact map_redirect hF _ _ k
  · rfl

theorem ids_changed (k : Block) : (f.changed l σ k).instrs.map Instr.id = k.instrs.map Instr.id :=
  map_changed (fun _ _ => rfl) (fun i => (h.joins.same i).1) k

theorem ops_changed (k : Block) :
    ((f.changed l σ k).instrs.map fun i => i.op) = k.instrs.map fun i => i.op :=
  map_changed (F := fun i => i.op) (fun _ _ => rfl) (fun i => (h.joins.same i).2.1) k

theorem holds_changed {k : Block} {d : InstrId} (hd : k.holds d = true) :
    (f.changed l σ k).holds d = true := by
  obtain ⟨i, hi, rfl⟩ := Block.holds_iff.mp hd
  have hid : i.id ∈ (f.changed l σ k).instrs.map Instr.id :=
    h.ids_changed k ▸ List.mem_map_of_mem hi
  obtain ⟨j, hj, hji⟩ := List.mem_map.mp hid
  exact Block.holds_iff.mpr ⟨j, hj, hji⟩

omit h in
/-- The old blocks keep their order, numbers and names. -/
theorem sublist_blocks : (f.blocks.map fun k => (k.id, k.name)).Sublist
    ((f.entered l σ new).blocks.map fun k => (k.id, k.name)) := by
  have hold : (f.blocks.map fun k => (k.id, k.name)) = (f.blocks.map (f.changed l σ)).map fun k =>
      (k.id, k.name) := by
    rw [List.map_map]
    refine List.map_congr_left fun k _ => ?_
    rw [Function.comp_apply, changed, Block.mapInstrs, rewired]
    split
    · rfl
    · rfl
  rw [hold]
  exact (sublist_insertBefore _ _ _).map _

theorem perm_blocks :
    (f.entered l σ new).blocks.Perm (f.preheader l new :: f.blocks.map (f.changed l σ)) := by
  obtain ⟨k, hk, hheader⟩ := h.header
  refine perm_insertBefore ⟨f.changed l σ k, List.mem_map_of_mem hk, ?_⟩
  have hid : (f.changed l σ k).id = k.id := id_rewired k
  simp [hid, hheader, ref]

theorem mem_blocks {b : Block} :
    b ∈ (f.entered l σ new).blocks ↔
    b = f.preheader l new ∨ ∃ k ∈ f.blocks, b = f.changed l σ k := by
  rw [h.perm_blocks.mem_iff, List.mem_cons, List.mem_map]
  simp only [eq_comm]

/-- Only the phis of the header are given other entries. -/
theorem eq_self {k : Block} (hk : k ∈ f.blocks) {i j : Instr} (hi : i ∈ k.instrs)
    (hij : j.id = i.id) (hφ : ¬(l.header = f.ref k.id ∧ i.op = .phi)) : σ j = j := by
  apply h.joins.others
  intro hin
  obtain ⟨φ, hmem, hid⟩ := List.mem_map.mp hin
  obtain ⟨k', hk', hheader, hφk, hop⟩ := h.mem_phis.mp hmem
  have hiφ : φ = i :=
    List.inj_on_of_nodup_map h.own (mem_held_of_mem hk' hφk) (mem_held_of_mem hk hi) (hid.trans hij)
  subst hiφ
  have hkk : k = k' := holder_unique h.own hk hk' (Block.holds_iff.mpr ⟨φ, hi, rfl⟩)
    (Block.holds_iff.mpr ⟨φ, hφk, rfl⟩)
  exact hφ ⟨hkk ▸ hheader, hop⟩

/-- An old block stays as it is, but for where the terminator leads if the block enters the loop. -/
theorem rewired_cases {k : Block} (hk : k ∈ f.blocks) :
    (k.id ∉ f.entering l ∧ f.rewired l k = k) ∨
    (k.id ∈ f.entering l ∧ ∃ body t, k.instrs = body ++ [t] ∧
      t.op.isTerminator = true ∧ (f.rewired l k).instrs =
        body ++ [{ t with targets := t.targets.map fun s => if s = l.header then f.ref f.fresh
          else s }]) := by
  by_cases hout : k.id ∈ f.entering l
  · right
    have hsucc := ((h.mem_entering hk).mp hout).1
    cases hterm : k.term? with
    | none => simp [Block.succs, hterm] at hsucc
    | some t =>
      rw [Block.term?, Option.filter_eq_some_iff] at hterm
      obtain ⟨body, hbody⟩ := List.getLast?_eq_some_iff.mp hterm.1
      exact ⟨hout, body, t, hbody, hterm.2, by simp [rewired, hout, Block.redirect, hbody]⟩
  · exact Or.inl ⟨hout, by simp [rewired, hout]⟩

/-- The phis of an old block are the same ones, with the entries they are given. -/
theorem filter_phi_changed {k : Block} (hk : k ∈ f.blocks) :
    ((f.changed l σ k).instrs.filter fun i => i.op = .phi) =
    (k.instrs.filter fun i => i.op = .phi).map σ := by
  have hrewired : ((f.rewired l k).instrs.filter fun i => i.op = .phi) = k.instrs.filter fun i =>
      i.op = .phi := by
    rcases h.rewired_cases hk with ⟨_, hsame⟩ | ⟨_, body, t, hinstrs, hterm, hrewired⟩
    · rw [hsame]
    · -- the terminator that leads elsewhere is no phi
      have hphi : t.op ≠ .phi := by
        intro hop
        rw [hop] at hterm
        cases hterm
      simp [hrewired, hinstrs, hphi]
  have hop : (fun i : Instr => decide (i.op = .phi)) ∘ σ = fun i => decide (i.op = .phi) :=
    funext fun i => by simp [(h.joins.same i).2.1]
  rw [changed, Block.mapInstrs, List.filter_map, hop, hrewired]

/-- Of the instructions of an old block, the phis of the header are given other entries, and the
others at most lead elsewhere. -/
theorem changed_cases {k : Block} (hk : k ∈ f.blocks) {j : Instr}
    (hj : j ∈ (f.changed l σ k).instrs) :
    (∃ φ ∈ k.instrs, φ ∈ f.phis l.header.number ∧ l.header = f.ref k.id ∧ j = σ φ) ∨
      ∃ i ∈ k.instrs, ¬(l.header = f.ref k.id ∧ i.op = .phi) ∧
        (j = i ∨ j = { i with targets := i.targets.map fun s => if s = l.header then f.ref f.fresh
          else s }) := by
  have hold : ∀ i ∈ k.instrs,
      (∃ φ ∈ k.instrs, φ ∈ f.phis l.header.number ∧ l.header = f.ref k.id ∧ σ i = σ φ) ∨
      ∃ i' ∈ k.instrs, ¬(l.header = f.ref k.id ∧ i'.op = .phi) ∧ (σ i = i' ∨
        σ i = { i' with targets := i'.targets.map fun s => if s = l.header then f.ref f.fresh
          else s }) := by
    intro i hi
    by_cases hφ : l.header = f.ref k.id ∧ i.op = .phi
    · exact Or.inl ⟨i, hi, h.mem_phis.mpr ⟨k, hk, hφ.1, hi, hφ.2⟩, hφ.1, rfl⟩
    · exact Or.inr ⟨i, hi, hφ, Or.inl (h.eq_self hk hi rfl hφ)⟩
  rw [changed, Block.mapInstrs] at hj
  obtain ⟨i, hi, rfl⟩ := List.mem_map.mp hj
  rcases h.rewired_cases hk with ⟨_, hsame⟩ | ⟨_, body, t, hinstrs, hterm, hrewired⟩
  · exact hold i (hsame ▸ hi)
  · rw [hrewired] at hi
    rcases List.mem_append.mp hi with hi | hi
    · exact hold i (hinstrs ▸ List.mem_append_left _ hi)
    · have htk : t ∈ k.instrs := hinstrs ▸ List.mem_append_right _ List.mem_cons_self
      have hφ : ¬(l.header = f.ref k.id ∧ t.op = .phi) := by
        intro hφ
        rw [hφ.2] at hterm
        cases hterm
      have hid : i.id = t.id := by rw [List.mem_singleton.mp hi]
      rw [h.eq_self hk htk hid hφ, List.mem_singleton.mp hi]
      exact Or.inr ⟨t, htk, hφ, Or.inr rfl⟩

/-- The instructions of an old block: but for the phis of the header, they take the same
operands. -/
theorem mem_changed {k : Block} (hk : k ∈ f.blocks) {j : Instr}
    (hj : j ∈ (f.changed l σ k).instrs) :
    (∃ i ∈ k.instrs, j.id = i.id ∧ j.op = i.op ∧ j.operands = i.operands ∧ j.incoming = i.incoming ∧
      ¬(l.header = f.ref k.id ∧ i.op = .phi)) ∨
      ∃ φ ∈ f.phis l.header.number, l.header = f.ref k.id ∧ j = σ φ := by
  rcases h.changed_cases hk hj with ⟨φ, _, hφ, hheader, rfl⟩ | ⟨i, hi, hφ, rfl | rfl⟩
  · exact Or.inr ⟨φ, hφ, hheader, rfl⟩
  · exact Or.inl ⟨j, hi, rfl, rfl, rfl, rfl, hφ⟩
  · exact Or.inl ⟨i, hi, rfl, rfl, rfl, rfl, hφ⟩

theorem succs_changed {k : Block} (hk : k ∈ f.blocks) :
    (f.changed l σ k).succs = if k.id ∈ f.entering l then
      k.succs.map fun s => if s = l.header then f.ref f.fresh else s else k.succs := by
  rw [changed, succs_mapInstrs fun i => (h.joins.same i).2]
  rcases h.rewired_cases hk with ⟨hout, hsame⟩ | ⟨hout, body, t, hinstrs, hterm, hrewired⟩
  · rw [if_neg hout, hsame]
  · rw [if_pos hout, Block.succs_of_term hrewired hterm, Block.succs_of_term hinstrs hterm]

theorem mem_succs_changed {k : Block} (hk : k ∈ f.blocks) {b : BlockRef} :
    b ∈ (f.changed l σ k).succs ↔ (b = f.ref f.fresh ∧ l.header ∈ k.succs ∧ f.ref k.id ∉ l.body) ∨
      (b ∈ k.succs ∧ ¬(b = l.header ∧ f.ref k.id ∉ l.body)) := by
  rw [h.succs_changed hk]
  by_cases hout : k.id ∈ f.entering l
  · have hin := (h.mem_entering hk).mp hout
    rw [if_pos hout, List.mem_map]
    constructor
    · intro hb
      obtain ⟨s, hs, rfl⟩ := hb
      by_cases hsh : s = l.header
      · rw [if_pos hsh]
        exact Or.inl ⟨rfl, hin⟩
      · rw [if_neg hsh]
        exact Or.inr ⟨hs, fun hb => hsh hb.1⟩
    · intro hb
      rcases hb with ⟨rfl, hs, _⟩ | ⟨hs, hne⟩
      · exact ⟨l.header, hs, if_pos rfl⟩
      · exact ⟨b, hs, if_neg fun hb => hne ⟨hb, hin.2⟩⟩
  · rw [if_neg hout]
    constructor
    · intro hs
      refine Or.inr ⟨hs, fun hb => hout ((h.mem_entering hk).mpr ⟨hb.1 ▸ hs, hb.2⟩)⟩
    · intro hb
      rcases hb with ⟨_, hs⟩ | ⟨hs, _⟩
      · exact absurd ((h.mem_entering hk).mpr hs) hout
      · exact hs

theorem mem_changed_blocks {k : Block} (hk : k ∈ f.blocks) :
    f.changed l σ k ∈ (f.entered l σ new).blocks :=
  h.mem_blocks.mpr (Or.inr ⟨k, hk, rfl⟩)

theorem perm_numbers :
    ((f.entered l σ new).blocks.map Block.id).Perm (f.fresh :: f.blocks.map Block.id) := by
  have hmap : (f.blocks.map (f.changed l σ)).map Block.id = f.blocks.map Block.id := by
    rw [List.map_map]
    exact List.map_congr_left fun k _ => id_rewired k
  have hperm := h.perm_blocks.map Block.id
  rwa [List.map_cons, hmap] at hperm

/-- The instructions read what they read before, or one of the new phis. -/
theorem reads_phi {φ : Instr} (hφ : φ ∈ f.phis l.header.number) {d : InstrId}
    (hd : d ∈ (σ φ).reads) :
    d ∈ φ.reads ∨ ∃ j ∈ new, j.id = d := by
  rcases h.joins.joined φ hφ with ⟨_, hself⟩ | ⟨v, hv, hfrom⟩
  · exact Or.inl (hself ▸ hd)
  rw [hv] at hd
  obtain ⟨e, he, hed⟩ := Operation.exists_entry_of_mem_reads rfl hd
  rcases List.mem_append.mp he with he | he
  · exact Or.inl (Operation.mem_reads_of_entry (List.mem_of_mem_filter he) hed)
  · rw [List.mem_singleton.mp he] at hed
    rcases hfrom with ⟨o, hmoved⟩ | ⟨j, hj, rfl, _⟩
    · have hmem : (v, o) ∈ φ.moved ((f.entering l).map f.ref) := hmoved ▸ List.mem_cons_self
      exact Or.inl (Operation.mem_reads_of_entry (List.mem_of_mem_filter hmem) hed)
    · exact Or.inr ⟨j, hj, Option.some.inj hed⟩

theorem reads_entered {i : Instr} (hi : i ∈ (f.entered l σ new).instrs) {d : InstrId}
    (hd : d ∈ i.reads) :
    (∃ i' ∈ f.instrs, d ∈ i'.reads) ∨ ∃ j ∈ new, j.id = d := by
  obtain ⟨b, hb, hi⟩ := mem_instrs.mp hi
  rcases h.mem_blocks.mp hb with rfl | ⟨k, hk, rfl⟩
  · rcases List.mem_append.mp hi with hi | hi
    · obtain ⟨_, φ, hφ, hoperands, _⟩ := h.joins.made i hi
      obtain ⟨e, he, hed⟩ := Operation.exists_entry_of_mem_reads hoperands hd
      exact Or.inl ⟨φ, h.mem_instrs_phi hφ,
        Operation.mem_reads_of_entry (List.mem_of_mem_filter he) hed⟩
    · rw [List.mem_singleton.mp hi] at hd
      exact absurd hd List.not_mem_nil
  · rcases h.mem_changed hk hi with ⟨i', hi', _, _, hoperands, _⟩ | ⟨φ, hφ, _, rfl⟩
    · rw [Operation.reads, hoperands] at hd
      exact Or.inl ⟨i', mem_instrs.mpr ⟨k, hk, hi'⟩, hd⟩
    · exact (h.reads_phi hφ hd).imp_left fun hd => ⟨φ, h.mem_instrs_phi hφ, hd⟩

theorem ids_new :
    (new ++ [f.entrance l new.length]).map Instr.id = (List.range (new.length + 1)).map f.made := by
  rw [List.map_append, h.joins.ids, List.range_succ, List.map_append]
  rfl

/-- The identities are the old ones and the new ones. -/
theorem perm_ids : ((f.entered l σ new).held.map Instr.id).Perm
    ((List.range (new.length + 1)).map f.made ++ f.held.map Instr.id) := by
  have hinstrs : ((f.entered l σ new).instrs.map Instr.id).Perm
      ((List.range (new.length + 1)).map f.made ++ f.instrs.map Instr.id) := by
    have hperm := (h.perm_blocks.flatMap_right Block.instrs).map Instr.id
    have hold : ((f.blocks.map (f.changed l σ)).flatMap Block.instrs).map Instr.id =
        f.instrs.map Instr.id := by
      rw [List.map_flatMap, List.flatMap_map, instrs, List.map_flatMap]
      exact List.flatMap_congr fun k _ => h.ids_changed k
    rw [List.flatMap_cons, List.map_append, hold] at hperm
    rw [← h.ids_new]
    exact hperm
  have hloose : (f.loose.map σ).map Instr.id = f.loose.map Instr.id := by
    rw [List.map_map]
    exact List.map_congr_left fun i _ => (h.joins.same i).1
  rw [held, held, List.map_append, List.map_append, ← List.append_assoc]
  exact hinstrs.append (List.Perm.of_eq hloose)

/-- The new block holds what was put there. -/
theorem recorded (hr : f.Recorded) : (f.entered l σ new).Recorded where
  parents := by
    let G (k : Block) : List (InstrId × BlockRef) := k.instrs.map fun i => (i.id, f.ref k.id)
    have hchanged : ∀ k, G (f.changed l σ k) = G k := by
      intro k
      have hid : (f.changed l σ k).id = k.id := id_rewired k
      have hids := congrArg (List.map fun d => (d, f.ref k.id)) (h.ids_changed k)
      rw [List.map_map, List.map_map] at hids
      simp only [G, hid]
      exact hids
    have hplaces : (f.entered l σ new).places.Perm (G (f.preheader l new) ++ f.places) := by
      have hperm := h.perm_blocks.flatMap_right G
      rw [List.flatMap_cons, List.flatMap_map, List.flatMap_congr fun k _ => hchanged k] at hperm
      exact hperm
    exact ((List.reverse_perm _).append hr.parents).trans hplaces.symm
  blocks b hb := by
    rcases h.mem_blocks.mp hb with rfl | ⟨k, hk, rfl⟩
    · rfl
    · have hparent : (f.changed l σ k).parent = k.parent := by
        rw [changed, Block.mapInstrs, rewired]
        split
        · rfl
        · rfl
      rw [hparent]
      exact hr.blocks k hk

theorem loose_eq {i : Instr} (hi : i ∈ (f.entered l σ new).loose) : i ∈ f.loose := by
  obtain ⟨j, hj, rfl⟩ := List.mem_map.mp hi
  rw [h.joins.others j]
  · exact hj
  · intro hin
    obtain ⟨φ, hφ, hid⟩ := List.mem_map.mp hin
    have hn := h.own
    rw [held, List.map_append, List.nodup_append] at hn
    exact hn.2.2 _ (List.mem_map_of_mem (h.mem_instrs_phi hφ)) _ (List.mem_map_of_mem hj) hid

theorem grows : f.Grows (f.entered l σ new) where
  id := rfl
  serial := Nat.le_add_right _ _
  own := by
    rw [h.perm_ids.nodup_iff, List.nodup_append]
    refine ⟨?_, h.own, ?_⟩
    · refine List.nodup_range.map fun a b he => ?_
      have hserial : f.nextSerial + a = f.nextSerial + b := congrArg InstrId.serial he
      omega
    · intro x hx y hy he
      obtain ⟨n, _, rfl⟩ := List.mem_map.mp hx
      obtain ⟨i, hi, rfl⟩ := List.mem_map.mp hy
      exact h.old i hi i.id List.mem_cons_self n he.symm
  ids i hi := by
    have hid := h.perm_ids.mem_iff.mp (List.mem_map_of_mem hi)
    rcases List.mem_append.mp hid with hid | hid
    · right
      obtain ⟨n, hn, he⟩ := List.mem_map.mp hid
      have hlt : n < new.length + 1 := List.mem_range.mp hn
      have hserial : (f.entered l σ new).nextSerial = f.nextSerial + (new.length + 1) := by
        simp [entered, expand]
      rw [← he, hserial]
      exact ⟨rfl, Nat.le_add_right _ _, Nat.add_lt_add_left hlt _⟩
    · left
      obtain ⟨j, hj, he⟩ := List.mem_map.mp hid
      exact ⟨j, hj, he⟩
  reads i hi d hd := by
    rcases List.mem_append.mp hi with hi | hi
    · rcases h.reads_entered hi hd with ⟨j, hj, hdj⟩ | ⟨j, hj, hjd⟩
      · exact Or.inl ⟨j, List.mem_append_left _ hj, hdj⟩
      · refine Or.inr
          ⟨j, mem_held_of_mem (h.mem_blocks.mpr (Or.inl rfl)) (List.mem_append_left _ hj), hjd⟩
    · exact Or.inl ⟨i, List.mem_append_right _ (h.loose_eq hi), hd⟩
  blocks k hk := by
    rcases h.mem_blocks.mp hk with rfl | ⟨j, hj, rfl⟩
    · exact Nat.le_refl _
    · have hid : (f.changed l σ j).id = j.id := id_rewired j
      rw [hid]
      exact Nat.le_succ_of_le (h.numbers j hj)
  recorded := h.recorded

theorem ended_entered (hf : ∀ k ∈ f.blocks, k.term?.isSome) :
    ∀ k ∈ (f.entered l σ new).blocks, k.term?.isSome := by
  have hterm : ∀ k :
      Block, k.term?.isSome = ((k.instrs.map fun i => i.op).getLast?.any Opcode.isTerminator) := by
    intro k
    rw [Block.term?, List.getLast?_map]
    cases k.instrs.getLast? with
    | none => rfl
    | some i => cases hi : i.op.isTerminator <;> simp [Option.filter, hi]
  intro b hb
  rcases h.mem_blocks.mp hb with rfl | ⟨k, hk, rfl⟩
  · simp [hterm, preheader, entrance, Opcode.isTerminator]
  · rw [hterm, h.ops_changed, ← hterm]
    exact hf k hk

/-- The only new terminator is the branch to the header. -/
theorem terminator_entered {i : Instr} (hi : i ∈ (f.entered l σ new).held)
    (hop : i.op.isTerminator = true) :
    (∃ j ∈ f.held, j.id = i.id ∧ j.op.isTerminator = true) ∨ i.id = f.made new.length := by
  rcases List.mem_append.mp hi with hi | hi
  · obtain ⟨b, hb, hi⟩ := mem_instrs.mp hi
    rcases h.mem_blocks.mp hb with rfl | ⟨k, hk, rfl⟩
    · rcases List.mem_append.mp hi with hi | hi
      · rw [(h.joins.made i hi).1] at hop
        cases hop
      · rw [List.mem_singleton.mp hi]
        exact Or.inr rfl
    · rcases h.mem_changed hk hi with ⟨j, hj, hid, hop', _⟩ | ⟨φ, hφ, _, rfl⟩
      · exact Or.inl ⟨j, mem_held_of_mem hk hj, hid.symm, hop' ▸ hop⟩
      · obtain ⟨_, _, _, _, hphi⟩ := h.mem_phis.mp hφ
        rw [(h.joins.same φ).2.1, hphi] at hop
        cases hop
  · exact Or.inl ⟨i, List.mem_append_right _ (h.loose_eq hi), rfl, hop⟩

/-- A phi of the header takes its old entries and one from the new block. -/
theorem alters_phi {φ : Instr} (hφ : φ ∈ f.phis l.header.number) : Alters f new φ (σ φ) := by
  rcases h.joins.joined φ hφ with ⟨_, hself⟩ | ⟨v, hv, hfrom⟩
  · rw [hself]
    exact .refl f new φ
  have hkept : ∀ e ∈ φ.kept ((f.entering l).map f.ref), e.1 ∈ φ.operands ∧ e.2 ∈ φ.incoming :=
    fun e he =>
    List.of_mem_zip (List.mem_of_mem_filter he)
  refine ⟨(h.joins.same φ).1, (h.joins.same φ).2.1, h.joins.titles φ,
    congrArg List.length (h.joins.same φ).2.2, ?_, ?_, ?_, ?_⟩
  · intro b hb
    exact Or.inl ((h.joins.same φ).2.2 ▸ hb)
  · intro u hu
    rw [hv] at hu
    obtain ⟨e, he, rfl⟩ := List.mem_map.mp hu
    rcases List.mem_append.mp he with he | he
    · exact Or.inl (hkept e he).1
    · rw [List.mem_singleton.mp he]
      rcases hfrom with ⟨o, hmoved⟩ | ⟨j, hj, hju, _⟩
      · have hmem : (v, o) ∈ φ.moved ((f.entering l).map f.ref) := hmoved ▸ List.mem_cons_self
        exact Or.inl (List.of_mem_zip (List.mem_of_mem_filter hmem)).1
      · exact Or.inr ⟨j, hj, hju⟩
  · intro b hb
    rw [hv] at hb
    obtain ⟨e, he, rfl⟩ := List.mem_map.mp hb
    rcases List.mem_append.mp he with he | he
    · exact Or.inl (hkept e he).2
    · rw [List.mem_singleton.mp he]
      exact Or.inr rfl
  · intro _
    rw [hv]
    simp [Instr.withEntries]

theorem alters_changed {k : Block} (hk : k ∈ f.blocks) {j : Instr}
    (hj : j ∈ (f.changed l σ k).instrs) :
    ∃ i ∈ k.instrs, Alters f new i j := by
  rcases h.changed_cases hk hj with ⟨φ, hi, hφ, _, rfl⟩ | ⟨i, hi, _, rfl | rfl⟩
  · exact ⟨φ, hi, h.alters_phi hφ⟩
  · exact ⟨j, hi, .refl f new j⟩
  · refine ⟨i, hi, rfl, rfl, ⟨rfl, rfl⟩, List.length_map _, ?_, fun _ => Or.inl, fun _ => Or.inl,
      fun h => h⟩
    intro b hb
    obtain ⟨s, hs, rfl⟩ := List.mem_map.mp hb
    by_cases hsh : s = l.header
    · exact Or.inr (if_pos hsh)
    · rw [if_neg hsh]
      exact Or.inl hs

/-- Every instruction is an old one, one of the new phis or the branch to the header. -/
theorem alters_held {j : Instr} (hj : j ∈ (f.entered l σ new).held) :
    (∃ i ∈ f.held, Alters f new i j) ∨ j ∈ new ∨ j = f.entrance l new.length := by
  rcases List.mem_append.mp hj with hj | hj
  · obtain ⟨b, hb, hj⟩ := mem_instrs.mp hj
    rcases h.mem_blocks.mp hb with rfl | ⟨k, hk, rfl⟩
    · right
      simpa [preheader] using hj
    · obtain ⟨i, hi, ha⟩ := h.alters_changed hk hj
      exact Or.inl ⟨i, mem_held_of_mem hk hi, ha⟩
  · exact Or.inl ⟨j, List.mem_append_right _ (h.loose_eq hj), .refl f new j⟩

/-- Every old instruction is still there. -/
theorem exists_alters {i : Instr} (hi : i ∈ f.held) :
    ∃ j ∈ (f.entered l σ new).held, Alters f new i j := by
  have hid : i.id ∈ (f.entered l σ new).held.map Instr.id :=
    h.perm_ids.mem_iff.mpr (List.mem_append_right _ (List.mem_map_of_mem hi))
  obtain ⟨j, hj, hji⟩ := List.mem_map.mp hid
  have hold : ∀ n, i.id ≠ f.made n := h.old i hi i.id List.mem_cons_self
  rcases h.alters_held hj with ⟨i', hi', ha⟩ | hnew | rfl
  · have heq : i' = i := List.inj_on_of_nodup_map h.own hi' hi (ha.id.symm.trans hji)
    exact ⟨j, hj, heq ▸ ha⟩
  · obtain ⟨n, _, hn⟩ := h.joins.exists_made hnew
    exact absurd (hji.symm.trans hn) (hold n)
  · exact absurd hji.symm (hold new.length)

end Places

namespace Inserts

variable (h : f.Inserts l σ new)

include h

theorem edge_entered {a b : BlockRef} : (f.entered l σ new).Edge a b ↔
    (a = f.ref f.fresh ∧ b = l.header) ∨
    ∃ k ∈ f.blocks, a = f.ref k.id ∧ b ∈ (f.changed l σ k).succs := by
  have hinstrs : (f.preheader l new).instrs = new ++ [f.entrance l new.length] := rfl
  have hpre : (f.preheader l new).succs = [l.header] := Block.succs_of_term hinstrs rfl
  constructor
  · intro e
    obtain ⟨k, hk, rfl, hb⟩ := e
    rcases h.mem_blocks.mp hk with rfl | ⟨j, hj, rfl⟩
    · rw [hpre] at hb
      exact Or.inl ⟨rfl, List.mem_singleton.mp hb⟩
    · exact Or.inr ⟨j, hj, congrArg f.ref (id_rewired j), hb⟩
  · intro e
    rcases e with ⟨rfl, rfl⟩ | ⟨k, hk, rfl, hb⟩
    · refine ⟨f.preheader l new, h.mem_blocks.mpr (Or.inl rfl), rfl, ?_⟩
      rw [hpre]
      exact List.mem_cons_self
    · exact ⟨f.changed l σ k, h.mem_blocks.mpr (Or.inr ⟨k, hk, rfl⟩),
        congrArg f.ref (id_rewired k).symm, hb⟩

/-- The branches into the loop from outside take a detour through the new block. -/
theorem detour :
    Detour f.Edge (f.entered l σ new).Edge l.header (f.ref f.fresh) (fun a => a ∉ l.body) := by
  obtain ⟨j, hj, hheader⟩ := h.header
  have htarget : l.header ≠ f.ref f.fresh := hheader ▸ h.ne_fresh hj
  constructor
  · exact fun a b e => h.edge_ne e
  · exact htarget
  · intro b
    rw [h.edge_entered]
    constructor
    · intro e
      rcases e with ⟨_, he⟩ | ⟨k, hk, he, _⟩
      · exact he
      · exact absurd he.symm (h.ne_fresh hk)
    · exact fun he => Or.inl ⟨rfl, he⟩
  · intro a
    rw [h.edge_entered]
    constructor
    · intro e
      rcases e with ⟨_, he⟩ | ⟨k, hk, rfl, hb⟩
      · exact absurd he.symm htarget
      · rcases (h.mem_succs_changed hk).mp hb with ⟨_, hs, hout⟩ | ⟨hs, _⟩
        · exact ⟨⟨k, hk, rfl, hs⟩, hout⟩
        · exact absurd rfl (h.edge_ne ⟨k, hk, rfl, hs⟩).2
    · intro e
      obtain ⟨⟨k, hk, rfl, hs⟩, hout⟩ := e
      exact Or.inr ⟨k, hk, rfl, (h.mem_succs_changed hk).mpr (Or.inl ⟨rfl, hs, hout⟩)⟩
  · intro a b ha hb
    rw [h.edge_entered]
    constructor
    · intro e
      rcases e with ⟨he, _⟩ | ⟨k, hk, rfl, hs⟩
      · exact absurd he ha
      · rcases (h.mem_succs_changed hk).mp hs with ⟨he, _⟩ | ⟨hs, hne⟩
        · exact absurd he hb
        · exact ⟨⟨k, hk, rfl, hs⟩, hne⟩
    · intro e
      obtain ⟨⟨k, hk, rfl, hs⟩, hne⟩ := e
      exact Or.inr ⟨k, hk, rfl, (h.mem_succs_changed hk).mpr (Or.inr ⟨hs, hne⟩)⟩

theorem edge_header {x : BlockRef} : (f.entered l σ new).Edge x l.header ↔
    x = f.ref f.fresh ∨ f.Edge x l.header ∧ x ∈ l.body := by
  have hd := h.detour
  by_cases hx : x = f.ref f.fresh
  · subst hx
    exact ⟨fun _ => Or.inl rfl, fun _ => (hd.leaves _).mpr rfl⟩
  · rw [hd.keeps x l.header hx hd.target]
    simp [hx]

theorem edge_other {x b : BlockRef} (hb : b ≠ l.header) (hb' : b ≠ f.ref f.fresh) :
    (f.entered l σ new).Edge x b ↔ f.Edge x b := by
  have hd := h.detour
  by_cases hx : x = f.ref f.fresh
  · subst hx
    rw [hd.leaves]
    exact ⟨fun he => absurd he hb, fun e => absurd rfl (h.edge_ne e).1⟩
  · rw [hd.keeps x b hx hb']
    simp [hb]

/-- The function starts with the new block if it started with the header, and otherwise where it
did. -/
theorem entryRef?_entered : (f.entered l σ new).entryRef? =
    if f.entryRef? = some l.header then some (f.ref f.fresh) else f.entryRef? := by
  obtain ⟨j, _, hheader⟩ := h.header
  have hfirst : (f.entered l σ new).entryRef? =
      (insertBefore (fun k => k.id = l.header.number) (f.preheader l new)
        (f.blocks.map (f.changed l σ))).head?.map fun k => f.ref k.id := rfl
  have hold : f.entryRef? = f.blocks.head?.map fun k => f.ref k.id := rfl
  rw [hfirst, hold]
  cases f.blocks with
  | nil => rfl
  | cons k ks =>
    have hid : (f.changed l σ k).id = k.id := id_rewired k
    have hcase : some (f.ref k.id) = some l.header ↔ k.id = l.header.number := by
      rw [Option.some_inj, hheader]
      exact ⟨congrArg BlockRef.number, congrArg f.ref⟩
    rw [List.map_cons, insertBefore, List.head?_cons, Option.map_some, hid]
    by_cases hk : k.id = l.header.number
    · rw [if_pos (decide_eq_true hk), if_pos (hcase.mpr hk)]
      rfl
    · rw [if_neg (by simpa using hk), if_neg fun he => hk (hcase.mp he)]
      exact congrArg (fun n => some (f.ref n)) hid

/-- The ways from the start of the function to an old block, with the detour or without it. -/
theorem entryPath_entered {b : BlockRef} (hb : b ≠ f.ref f.fresh) {q : List BlockRef} :
    f.EntryPath q b ↔
    ∃ s, (f.entered l σ new).EntryPath s b ∧ s.filter (· ≠ f.ref f.fresh) = q := by
  have hd := h.detour
  have hentry := h.entryRef?_entered
  have hstart : ∀ {r}, f.entryRef? = some r → r ≠ f.ref f.fresh := by
    intro r hr
    obtain ⟨k, hk, hkr⟩ := Option.map_eq_some_iff.mp hr
    exact hkr ▸ h.ne_fresh (List.mem_of_head? hk)
  constructor
  · rintro ⟨r, hr, w⟩
    obtain ⟨s, v, hs⟩ := hd.lift w (hstart hr)
    by_cases hrh : r = l.header
    · subst hrh
      rw [if_pos hr] at hentry
      refine ⟨f.ref f.fresh :: s, ⟨_, hentry, .cons ((hd.leaves _).mpr rfl) v⟩, ?_⟩
      rw [List.filter_cons_of_neg (by simp), hs]
    · rw [if_neg fun he => hrh (Option.some.inj (hr.symm.trans he)), hr] at hentry
      exact ⟨s, ⟨r, hentry, v⟩, hs⟩
  · rintro ⟨s, ⟨r, hr, w⟩, rfl⟩
    rw [hentry] at hr
    by_cases hrh : f.entryRef? = some l.header
    · rw [if_pos hrh, Option.some_inj] at hr
      exact ⟨l.header, hrh, (hd.erase w hb).2 hr.symm⟩
    · rw [if_neg hrh] at hr
      exact ⟨r, hr, (hd.erase w hb).1 (hstart hr)⟩

theorem reaches_entered {b : BlockRef} (hb : b ≠ f.ref f.fresh) :
    (f.entered l σ new).Reaches b ↔ f.Reaches b := by
  constructor
  · rintro ⟨s, hs⟩
    exact ⟨_, (h.entryPath_entered hb).mpr ⟨s, hs, rfl⟩⟩
  · rintro ⟨q, hq⟩
    obtain ⟨s, hs, _⟩ := (h.entryPath_entered hb).mp hq
    exact ⟨s, hs⟩

/-- Old blocks dominate each other as before. -/
theorem dominates_entered {a b : BlockRef} (ha : a ≠ f.ref f.fresh) (hb : b ≠ f.ref f.fresh) :
    (f.entered l σ new).Dominates a b ↔ f.Dominates a b := by
  constructor
  · intro hdom q hq
    obtain ⟨s, hs, rfl⟩ := (h.entryPath_entered hb).mp hq
    exact List.mem_filter.mpr ⟨hdom s hs, by simpa using ha⟩
  · intro hdom s hs
    exact List.mem_of_mem_filter (hdom _ ((h.entryPath_entered hb).mpr ⟨s, hs, rfl⟩))

theorem available_entered {d : InstrId} {b : BlockRef} (hd : f.Available d b)
    (hb : b ≠ f.ref f.fresh) :
    (f.entered l σ new).Available d b := by
  obtain ⟨k, hk, hold, hdom⟩ := hd
  refine ⟨f.changed l σ k, h.mem_changed_blocks hk, h.holds_changed hold, ?_⟩
  have href : (f.entered l σ new).ref (f.changed l σ k).id = f.ref k.id :=
    congrArg f.ref (id_rewired k)
  rw [href]
  exact (h.dominates_entered (h.ne_fresh hk) hb).mpr hdom

theorem linked_entered : (f.entered l σ new).Linked := by
  constructor
  · rw [h.perm_numbers.nodup_iff, List.nodup_cons]
    refine ⟨fun hin => ?_, h.linked.distinct⟩
    obtain ⟨k, hk, hid⟩ := List.mem_map.mp hin
    exact h.ne_fresh hk (congrArg f.ref hid)
  · intro k hk s hs
    have htarget : s = f.ref f.fresh ∨ ∃ t ∈ f.blocks, s = f.ref t.id := by
      rcases h.edge_entered.mp ⟨k, hk, rfl, hs⟩ with ⟨_, rfl⟩ | ⟨j, hj, _, hs⟩
      · obtain ⟨t, ht, hheader⟩ := h.header
        exact Or.inr ⟨t, ht, hheader⟩
      · rcases (h.mem_succs_changed hj).mp hs with ⟨rfl, _⟩ | ⟨hs, _⟩
        · exact Or.inl rfl
        · exact Or.inr (h.linked.targets j hj s hs)
    rcases htarget with rfl | ⟨t, ht, rfl⟩
    · exact ⟨f.preheader l new, h.mem_blocks.mpr (Or.inl rfl), rfl⟩
    · exact ⟨f.changed l σ t, h.mem_changed_blocks ht, congrArg f.ref (id_rewired t).symm⟩

end Inserts

end Func

end KernelIR
