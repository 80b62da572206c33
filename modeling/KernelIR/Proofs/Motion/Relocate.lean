import KernelIR.Proofs.Ownership.Records

namespace KernelIR

namespace Block

/-- Takes an instruction away, and puts it before the last one of block `dst`. -/
def moved (i : Instr) (dst : BlockId) (k : Block) : Block :=
  if k.id = dst then (k.without i.id).insertLast i else k.without i.id

@[simp] theorem id_moved (i : Instr) (dst : BlockId) (k : Block) : (k.moved i dst).id = k.id := by
  rw [moved]
  split
  · rfl
  · rfl

@[simp] theorem name_moved (i : Instr) (dst : BlockId) (k : Block) :
    (k.moved i dst).name = k.name := by
  rw [moved]
  split
  · rfl
  · rfl

theorem sublist_insertLast (i : Instr) (k : Block) : k.instrs.Sublist (k.insertLast i).instrs := by
  have hsub : (k.instrs.dropLast ++ k.instrs.getLast?.toList).Sublist
      (k.instrs.dropLast ++ i :: k.instrs.getLast?.toList) :=
    List.Sublist.append_left (List.sublist_cons_self i _) _
  rw [dropLast_append_last] at hsub
  exact hsub

/-- Instructions that stay keep their order. -/
theorem Precedes.moved {k : Block} {i : Instr} {dst : BlockId} {d e : InstrId} (h : k.Precedes d e)
    (hd : d ≠ i.id) (he : e ≠ i.id) : (k.moved i dst).Precedes d e := by
  have hfilter := h.filter fun x => decide (x ≠ i.id)
  rw [List.filter_map] at hfilter
  have hpair : [d, e].filter (fun x => decide (x ≠ i.id)) = [d, e] := by simp [hd, he]
  rw [hpair] at hfilter
  refine hfilter.trans (List.Sublist.map _ ?_)
  rw [Block.moved]
  split
  · exact sublist_insertLast i (k.without i.id)
  · exact List.Sublist.refl _

end Block

namespace Func

/-- The function after an instruction went to the end of block `dst`, before the terminator. -/
def moved (f : Func) (i : Instr) (dst : BlockId) : Func :=
  { ((f.withdraw i.id).mapBlock dst (Block.insertLast i)).adopt i.id dst with loose := f.loose }

theorem blocks_moved (f : Func) (i : Instr) (dst : BlockId) :
    (f.moved i dst).blocks = f.blocks.map (Block.moved i dst) := by
  simp [moved, adopt, mapBlock, withdraw, Block.moved, Block.without, Function.comp_def]

/-- Only where the instruction stands is changed, and what is recorded of that. -/
theorem moved_frame (f : Func) (i : Instr) (dst : BlockId) : f.moved i dst =
    { f with blocks := (f.moved i dst).blocks, parents := (f.moved i dst).parents } := rfl

@[simp] theorem id_moved (f : Func) (i : Instr) (dst : BlockId) : (f.moved i dst).id = f.id := rfl

@[simp] theorem ref_moved (f : Func) (i : Instr) (dst n : BlockId) :
    (f.moved i dst).ref n = f.ref n := rfl

theorem mem_blocks_moved {f : Func} {k : Block} (i : Instr) (dst : BlockId) (hk : k ∈ f.blocks) :
    k.moved i dst ∈ (f.moved i dst).blocks := by
  rw [blocks_moved]
  exact List.mem_map_of_mem hk

/-- An instruction of block `src` that is no terminator, and another block to put it into. -/
structure Relocates (f : Func) (i : Instr) (src dst : Block) : Prop where
  src_mem : src ∈ f.blocks
  dst_mem : dst ∈ f.blocks
  mem : i ∈ src.instrs
  term : i.op.isTerminator = false
  ne : dst ≠ src

section Relocated

variable {f : Func} {i : Instr} {src dst k : Block}

variable (hf : f.Framed) (hn : (f.held.map Instr.id).Nodup) (h : f.Relocates i src dst)

include hn h

theorem Relocates.not_mem (hk : k ∈ f.blocks) (hne : k ≠ src) : ∀ j ∈ k.instrs, j.id ≠ i.id := by
  intro j hj he
  have hik : k.holds i.id = true := Block.holds_iff.mpr ⟨j, hj, he⟩
  have his : src.holds i.id = true := Block.holds_iff.mpr ⟨i, h.mem, rfl⟩
  exact hne (holder_unique hn hk h.src_mem hik his)

theorem Relocates.eq_src (hk : k ∈ f.blocks) (hold : k.holds i.id = true) : k = src := by
  by_contra hne
  obtain ⟨j, hj, hji⟩ := Block.holds_iff.mp hold
  exact h.not_mem hn hk hne j hj hji

/-- The block it leaves keeps the others in their order. -/
theorem Relocates.instrs_src (hf : f.Linked) {l r : List Instr}
    (hinstrs : src.instrs = l ++ i :: r) :
    (src.moved i dst.id).instrs = l ++ r ∧ ∀ j ∈ l ++ r, j.id ≠ i.id := by
  have hids := nodup_block hn h.src_mem
  rw [hinstrs, List.map_append, List.map_cons, List.nodup_middle, List.nodup_cons,
    ← List.map_append] at hids
  have hother : ∀ j ∈ l ++ r, j.id ≠ i.id := fun j hj he => hids.1 (List.mem_map.mpr ⟨j, hj, he⟩)
  have hdst : src.id ≠ dst.id := fun he => h.ne (hf.block_unique h.src_mem h.dst_mem he).symm
  have hfilter : ((l ++ r).filter fun j => j.id ≠ i.id) = l ++ r :=
    List.filter_eq_self.mpr fun j hj => decide_eq_true (hother j hj)
  refine ⟨?_, hother⟩
  rw [Block.moved, if_neg hdst, Block.without, ← hfilter]
  simp [hinstrs]

theorem Relocates.settling_eq : f.settling i (f.ref dst.id) = f.moved i dst.id := by
  have hblocks : (f.settling i (f.ref dst.id)).blocks = (f.moved i dst.id).blocks := by
    rw [blocks_moved]
    exact List.map_congr_left fun k _ => by simp [Block.moved, ref]
  have hloose : (f.loose.filter fun j => j.id ≠ i.id) = f.loose := by
    rw [held, List.map_append, List.nodup_append] at hn
    refine List.filter_eq_self.mpr fun j hj => decide_eq_true fun he => ?_
    have hmem : i ∈ f.instrs := mem_instrs.mpr ⟨src, h.src_mem, h.mem⟩
    exact hn.2.2 i.id (List.mem_map_of_mem hmem) j.id (List.mem_map_of_mem hj) he.symm
  have hparents : (f.settling i (f.ref dst.id)).parents = (f.moved i dst.id).parents :=
    congrArg (· ++ _) (if_pos rfl)
  rw [moved_frame, ← hblocks, ← hparents, settling, hloose]

theorem Relocates.perm_instrs (hf : f.Linked) : (f.moved i dst.id).instrs.Perm f.instrs := by
  have hids : ((f.withdraw i.id).blocks.map Block.id).Nodup := by
    rw [withdraw, List.map_map]
    exact hf.distinct
  have hdst : dst.without i.id ∈ (f.withdraw i.id).blocks := List.mem_map_of_mem h.dst_mem
  have hinsert :=
    perm_instrs_put (F := Block.insertLast i) hids hdst rfl (Block.perm_insertLast i _)
  have hnodup : (f.instrs.map Instr.id).Nodup := by
    rw [held, List.map_append, List.nodup_append] at hn
    exact hn.1
  have hmem : i ∈ f.instrs := mem_instrs.mpr ⟨src, h.src_mem, h.mem⟩
  rw [instrs_withdraw] at hinsert
  exact hinsert.trans (perm_cons_filter hnodup hmem).symm

theorem Relocates.perm_held (hf : f.Linked) : (f.moved i dst.id).held.Perm f.held :=
  (h.perm_instrs hn hf).append_right f.loose

omit hn in
theorem Relocates.recorded (hf : f.Linked) (hr : f.Recorded) : (f.moved i dst.id).Recorded := by
  have hids : ((f.withdraw i.id).blocks.map Block.id).Nodup := by
    rw [withdraw, List.map_map]
    exact hf.distinct
  have hput := (hr.withdraw i.id).put (F := Block.insertLast i) hids (List.mem_map_of_mem h.dst_mem)
    (fun _ => rfl) (Block.perm_insertLast i _)
  exact ⟨hput.parents, hput.blocks⟩

theorem Relocates.grows (hf : f.Linked) (hmax : ∀ k ∈ f.blocks, k.id ≤ f.maxBlock) :
    f.Grows (f.moved i dst.id) := by
  refine grows_of_perm hn rfl rfl (h.perm_held hn hf) (fun b hb => ?_) (h.recorded hf)
  rw [blocks_moved] at hb
  obtain ⟨k, hk, rfl⟩ := List.mem_map.mp hb
  rw [Block.id_moved]
  exact hmax k hk

include hf

theorem Relocates.moved_cases (hk : k ∈ f.blocks) :
    (k = src ∧ ∃ l r t, k.instrs = l ++ i :: r ++ [t] ∧ t.op.isTerminator = true ∧
        (k.moved i dst.id).instrs = l ++ r ++ [t] ∧ ∀ j ∈ l ++ r ++ [t], j.id ≠ i.id) ∨
      (k = dst ∧ ∃ l t, k.instrs = l ++ [t] ∧ t.op.isTerminator = true ∧
        (k.moved i dst.id).instrs = l ++ [i, t] ∧ ∀ j ∈ l ++ [t], j.id ≠ i.id) ∨
      k ≠ src ∧ k ≠ dst ∧ k.moved i dst.id = k := by
  have hkeep : k ≠ src → (k.instrs.filter fun j => j.id ≠ i.id) = k.instrs := fun hne =>
    List.filter_eq_self.mpr fun j hj => decide_eq_true (h.not_mem hn hk hne j hj)
  obtain ⟨body, t, hbody, ht⟩ := hf.exists_term hk
  by_cases hsrc : k = src
  · left
    refine ⟨hsrc, ?_⟩
    have hit : i ≠ t := by
      intro he
      rw [← he, h.term] at ht
      cases ht
    have hmem : i ∈ body ++ [t] := hbody ▸ hsrc ▸ h.mem
    have hib : i ∈ body :=
      (List.mem_append.mp hmem).resolve_right fun he => hit (List.mem_singleton.mp he)
    obtain ⟨l, r, rfl⟩ := List.append_of_mem hib
    have hinstrs : src.instrs = l ++ i :: (r ++ [t]) := by
      rw [← hsrc, hbody, List.append_assoc, List.cons_append]
    refine ⟨l, r, t, hbody, ht, ?_⟩
    rw [hsrc, List.append_assoc]
    exact h.instrs_src hn hf.linked hinstrs
  · right
    have hother := h.not_mem hn hk hsrc
    by_cases hdst : k = dst
    · left
      refine ⟨hdst, body, t, hbody, ht, ?_, hbody ▸ hother⟩
      rw [Block.moved, if_pos (congrArg Block.id hdst)]
      exact Block.instrs_insertLast ((hkeep hsrc).trans hbody)
    · right
      have hid : k.id ≠ dst.id := fun he => hdst (hf.linked.block_unique hk h.dst_mem he)
      refine ⟨hsrc, hdst, ?_⟩
      rw [Block.moved, if_neg hid, Block.without, hkeep hsrc]

theorem Relocates.succs_moved (hk : k ∈ f.blocks) : (k.moved i dst.id).succs = k.succs := by
  rcases h.moved_cases hf hn hk with ⟨_, l, r, t, hold, ht, hnew, _⟩ |
    ⟨_, l, t, hold, ht, hnew, _⟩ | ⟨_, _, he⟩
  · rw [Block.succs_of_term hold ht, Block.succs_of_term hnew ht]
  · have hnew' : (k.moved i dst.id).instrs = (l ++ [i]) ++ [t] := by simp [hnew]
    rw [Block.succs_of_term hold ht, Block.succs_of_term hnew' ht]
  · rw [he]

theorem Relocates.flow_moved : (f.moved i dst.id).flow = f.flow := by
  have hblock :
      ∀ k ∈ f.blocks, ((f.moved i dst.id).ref (k.moved i dst.id).id, (k.moved i dst.id).succs) =
      (f.ref k.id, k.succs) := by
    intro k hk
    rw [h.succs_moved hf hn hk, Block.id_moved, ref_moved]
  rw [flow, flow, blocks_moved, List.map_map]
  exact congrArg (FlowGraph.mk · []) (List.map_congr_left hblock)

theorem Relocates.mem_moved {j : Instr} (hk : k ∈ f.blocks) :
    j ∈ (k.moved i dst.id).instrs ↔ (j ∈ k.instrs ∧ j.id ≠ i.id) ∨ (k = dst ∧ j = i) := by
  rcases h.moved_cases hf hn hk with
    ⟨hsrc, l, r, t, hold, _, hnew, hne⟩ | ⟨hdst, l, t, hold, _, hnew, hne⟩ | ⟨hsrc, hdst, he⟩
  · have hkd : k ≠ dst := fun he => h.ne (he.symm.trans hsrc)
    rw [hold, hnew]
    constructor
    · intro hj
      refine Or.inl ⟨?_, hne j hj⟩
      simp only [List.mem_append, List.mem_cons] at hj ⊢
      tauto
    · intro hj
      rcases hj with ⟨hj, hji⟩ | ⟨hd, _⟩
      · have hji' : j ≠ i := fun he => hji (by rw [he])
        simp only [List.mem_append, List.mem_cons] at hj ⊢
        tauto
      · exact absurd hd hkd
  · rw [hold, hnew]
    constructor
    · intro hj
      by_cases hji : j = i
      · exact Or.inr ⟨hdst, hji⟩
      · have hjl : j ∈ l ++ [t] := by
          simp only [List.mem_append, List.mem_cons] at hj ⊢
          tauto
        exact Or.inl ⟨hjl, hne j hjl⟩
    · intro hj
      simp only [List.mem_append, List.mem_cons] at hj ⊢
      tauto
  · rw [he]
    constructor
    · exact fun hj => Or.inl ⟨hj, h.not_mem hn hk hsrc j hj⟩
    · intro hj
      rcases hj with hj | hj
      · exact hj.1
      · exact absurd hj.1 hdst

theorem Relocates.holds_moved {d : InstrId} (hk : k ∈ f.blocks) (hd : d ≠ i.id)
    (hold : k.holds d = true) :
    (k.moved i dst.id).holds d = true := by
  obtain ⟨j, hj, rfl⟩ := Block.holds_iff.mp hold
  exact Block.holds_iff.mpr ⟨j, (h.mem_moved hf hn hk).mpr (Or.inl ⟨hj, hd⟩), rfl⟩

theorem Relocates.holds_dst : (dst.moved i dst.id).holds i.id = true :=
  Block.holds_iff.mpr ⟨i, (h.mem_moved hf hn h.dst_mem).mpr (Or.inr ⟨rfl, rfl⟩), rfl⟩

theorem Relocates.framed_moved : (f.moved i dst.id).Framed where
  linked := linked_of_flow (h.flow_moved hf hn) rfl hf.linked
  ended k hk := by
    rw [blocks_moved] at hk
    obtain ⟨j, hj, rfl⟩ := List.mem_map.mp hk
    rcases h.moved_cases hf hn hj with ⟨_, l, r, t, _, ht, hnew, _⟩ | ⟨_, l, t, _, ht, hnew, _⟩ |
      ⟨_, _, he⟩
    · simp [Block.term?, hnew, ht, Option.filter]
    · simp [Block.term?, hnew, ht, Option.filter]
    · rw [he]
      exact hf.ended j hj

/-- The instruction that was taken out can be put before the terminator. -/
theorem Relocates.putBefore_eq {t : Instr} (hterm : dst.term? = some t) :
    putBefore i.id t.id dst.id (f.withdraw i.id) = .ok () (f.moved i dst.id) := by
  obtain ⟨front, hfront⟩ := Block.exists_front hterm
  have hdst : f.block? (f.ref dst.id).number = some dst :=
    (block?_iff hf.linked).mpr ⟨h.dst_mem, rfl⟩
  have hne : t.id ≠ i.id := h.not_mem hn h.dst_mem h.ne t (by simp [hfront])
  rw [← h.settling_eq hn]
  exact putBefore_withdraw hn hdst hf.linked.distinct rfl
    (mem_held_of_mem h.src_mem h.mem) hterm hne

end Relocated

end Func

namespace Module

variable {m : Module} {f : Func} {i : Instr} {src dst : Block}

/-- The edit that moves an instruction does not fail. -/
theorem moveBeforeTerm_eq (hm : m.Consistent) (hf : f ∈ m.known) (hv : f.Framed)
    (h : f.Relocates i src dst) :
    moveBeforeTerm i.id (f.ref dst.id) m = .ok () (m.update (f.moved i dst.id)) := by
  have hn := hm.own f hf
  have hheld := Func.mem_held_of_mem h.src_mem h.mem
  have hfunc : m.func? f.id = some f := hm.func?_iff.mpr ⟨hf, rfl⟩
  have hsrc : src.holds i.id = true := Block.holds_iff.mpr ⟨i, h.mem, rfl⟩
  have howner : m.owner? i.id = some (f.ref src.id) :=
    hm.owner?_iff.mpr ⟨f, hf, src, h.src_mem, hsrc, rfl⟩
  have hrelease := release_of_owner howner hfunc hn hv.linked.distinct h.src_mem hsrc
  -- the instruction is loose now, in the same function
  let g := f.withdraw i.id
  have hg : g ∈ (m.update g).known := (mem_known_update (g := g) hf rfl).mpr (Or.inl rfl)
  have hm₁ : (m.update g).Consistent :=
    hm.update hf (Func.grows_withdraw hn (hm.blocks f hf) i.id)
  have hfunc₁ : (m.update g).func? g.id = some g := hm₁.func?_iff.mpr ⟨hg, rfl⟩
  have hholder : (m.update g).holder? i.id = some g :=
    hm₁.holder?_iff.mpr ⟨hg, i, (Func.perm_held_withdraw f i.id).mem_iff.mpr hheld, rfl⟩
  obtain ⟨t, hterm⟩ := Option.isSome_iff_exists.mp (hv.ended dst h.dst_mem)
  have hblock : m.block? (f.ref dst.id) = some dst := by
    rw [block?, Func.ref, hfunc]
    exact (Func.block?_iff hv.linked).mpr ⟨h.dst_mem, rfl⟩
  have hput := edit_of_ok hfunc₁ (h.putBefore_eq hv hn hterm)
  have hid : (f.moved i dst.id).id = g.id := rfl
  rw [update_update m hid] at hput
  have hover := handOver_of_holder hholder hfunc₁
  rw [moveBeforeTerm_of_release hblock hterm hrelease, putBefore]
  exact (congrArg (edit f.id (Func.putBefore i.id t.id dst.id)) hover).trans hput

/-- Moving an instruction keeps the module consistent and the blocks in order. -/
theorem Hosts.relocated (hm : m.Hosts f) (h : f.Relocates i src dst) :
    (m.update (f.moved i dst.id)).Hosts (f.moved i dst.id) where
  consistent :=
    hm.consistent.update hm.mem (h.grows hm.own hm.framed.linked (hm.consistent.blocks f hm.mem))
  mem := (mem_known_update hm.mem (Func.id_moved f i dst.id)).mpr (Or.inl rfl)
  framed := h.framed_moved hm.framed hm.own

theorem isTerm_moved (hm : m.Consistent) (hf : f ∈ m.known) (hl : f.Linked)
    (h : f.Relocates i src dst) :
    (m.update (f.moved i dst.id)).isTerm = m.isTerm := by
  have hperm := h.perm_held (hm.own f hf) hl
  have hm' := hm.update hf (h.grows (hm.own f hf) hl (hm.blocks f hf))
  have known := fun x => mem_known_update (x := x) hf (Func.id_moved f i dst.id)
  funext d
  rw [Bool.eq_iff_iff, hm'.isTerm_iff, hm.isTerm_iff]
  constructor
  · intro hd
    obtain ⟨x, hx, j, hj, hjd⟩ := hd
    rcases (known x).mp hx with rfl | ⟨hx, _⟩
    · exact ⟨f, hf, j, hperm.mem_iff.mp hj, hjd⟩
    · exact ⟨x, hx, j, hj, hjd⟩
  · intro hd
    obtain ⟨x, hx, j, hj, hjd⟩ := hd
    by_cases hxf : x.id = f.id
    · have hxf := List.inj_on_of_nodup_map hm.funcs hx hf hxf
      exact ⟨_, (known _).mpr (Or.inl rfl), j, hperm.mem_iff.mpr (hxf ▸ hj), hjd⟩
    · exact ⟨x, (known _).mpr (Or.inr ⟨hx, hxf⟩), j, hj, hjd⟩

end Module

end KernelIR
