import KernelIR.Proofs.Consistent
import KernelIR.Proofs.Edit
import Mathlib.Data.List.Perm.Lattice

namespace KernelIR

/-- An element of a list is replaced by another one with the same key. -/
theorem perm_flatMap_replace {α β κ : Type} [DecidableEq κ] {key : α → κ} {l : List α}
    (hn : (l.map key).Nodup) {a b : α} (ha : a ∈ l) (hb : key b = key a) (F : α → List β) :
    ((l.map fun x => if key x = key b then b else x).flatMap F ++ F a).Perm
      (l.flatMap F ++ F b) := by
  induction l with
  | nil => exact absurd ha List.not_mem_nil
  | cons x l ih =>
    rw [List.map_cons, List.nodup_cons] at hn
    rw [List.map_cons, List.flatMap_cons, List.flatMap_cons]
    rcases List.mem_cons.mp ha with rfl | ha
    · have hrest : (l.map fun x => if key x = key b then b else x) = l := by
        refine (List.map_congr_left fun y hy => if_neg fun he => hn.1 ?_).trans (List.map_id l)
        exact List.mem_map.mpr ⟨y, hy, he.trans hb⟩
      rw [hrest, if_pos hb.symm, List.append_assoc (F a)]
      exact List.perm_append_comm.trans (List.perm_append_comm.append_left _)
    · have hne : key x ≠ key b := fun he => hn.1 (List.mem_map.mpr ⟨a, ha, hb.symm.trans he.symm⟩)
      rw [if_neg hne, List.append_assoc, List.append_assoc]
      exact (ih hn.2 ha).append_left _

/-- An element of a list is taken out by its key. -/
theorem perm_cons_filter {α κ : Type} [DecidableEq κ] {key : α → κ} {l : List α}
    (hn : (l.map key).Nodup) {a : α} (ha : a ∈ l) :
    l.Perm (a :: l.filter fun x => key x ≠ key a) := by
  induction l with
  | nil => exact absurd ha List.not_mem_nil
  | cons x l ih =>
    rw [List.map_cons, List.nodup_cons] at hn
    rcases List.mem_cons.mp ha with rfl | ha
    · rw [List.filter_cons_of_neg (by simp), List.filter_eq_self.mpr]
      intro y hy
      exact decide_eq_true fun he => hn.1 (List.mem_map.mpr ⟨y, hy, he⟩)
    · have hne : key x ≠ key a := fun he => hn.1 (List.mem_map.mpr ⟨a, ha, he.symm⟩)
      rw [List.filter_cons_of_pos (by simpa using hne)]
      exact ((ih hn.2 ha).cons x).trans (.swap a x _)

/-- Keys occur once, so that the first element with a key is the only one. -/
theorem eraseP_eq_filter {α κ : Type} [DecidableEq κ] {key : α → κ} {l : List α}
    (hn : (l.map key).Nodup) (c : κ) :
    l.eraseP (fun x => key x = c) = l.filter fun x => key x ≠ c := by
  induction l with
  | nil => rfl
  | cons x l ih =>
    rw [List.map_cons, List.nodup_cons] at hn
    by_cases hx : key x = c
    · have hrest : (l.filter fun x => key x ≠ c) = l := List.filter_eq_self.mpr fun y hy =>
        decide_eq_true fun he => hn.1 (List.mem_map.mpr ⟨y, hy, he.trans hx.symm⟩)
      rw [List.eraseP_cons_of_pos (by simpa using hx), List.filter_cons_of_neg (by simpa using hx),
        hrest]
    · rw [List.eraseP_cons_of_neg (by simpa using hx), List.filter_cons_of_pos (by simpa using hx),
        ih hn.2]

namespace Block

variable {k : Block} {i t : Instr} {d : InstrId}

/-- A block without its instructions. -/
def bare (k : Block) : Block := { k with instrs := [] }

/-- Puts an instruction before the last one. -/
def insertLast (i : Instr) (k : Block) : Block :=
  { k with instrs := k.instrs.dropLast ++ i :: k.instrs.getLast?.toList }

/-- Takes an instruction away. -/
def without (d : InstrId) (k : Block) : Block :=
  { k with instrs := k.instrs.filter fun j => j.id ≠ d }

theorem without_eq_self (h : ∀ j ∈ k.instrs, j.id ≠ d) : k.without d = k := by
  have hfilter : (k.instrs.filter fun j => j.id ≠ d) = k.instrs :=
    List.filter_eq_self.mpr fun j hj => decide_eq_true (h j hj)
  rw [without, hfilter]

theorem erase_eq_without (hn : (k.instrs.map Instr.id).Nodup) (d : InstrId) :
    k.erase d = k.without d := by
  rw [erase, eraseP_eq_filter hn, without]

theorem instrs_insertLast {body : List Instr} (h : k.instrs = body ++ [t]) :
    (k.insertLast i).instrs = body ++ [i, t] := by
  simp [insertLast, h]

theorem exists_front (h : k.term? = some t) : ∃ front, k.instrs = front ++ [t] := by
  rw [term?, Option.filter_eq_some_iff] at h
  exact List.getLast?_eq_some_iff.mp h.1

/-- The terminator stays the last instruction if another one is taken away. -/
theorem without_eq_append {front : List Instr} (h : k.instrs = front ++ [t]) (ht : t.id ≠ d) :
    (k.without d).instrs = (front.filter fun j => j.id ≠ d) ++ [t] := by
  simp [without, h, ht]

theorem dropLast_append_last (k : Block) :
    k.instrs.dropLast ++ k.instrs.getLast?.toList = k.instrs := by
  rcases List.eq_nil_or_concat k.instrs with hk | ⟨body, t, hk⟩
  · simp [hk]
  · simp [hk]

theorem perm_insertLast (i : Instr) (k : Block) : (k.insertLast i).instrs.Perm (i :: k.instrs) := by
  have hperm : (k.instrs.dropLast ++ i :: k.instrs.getLast?.toList).Perm
      (i :: (k.instrs.dropLast ++ k.instrs.getLast?.toList)) := List.perm_middle
  rw [dropLast_append_last] at hperm
  exact hperm

end Block

namespace Func

variable {f : Func} {i t : Instr} {d : InstrId} {k : Block} {dst : BlockRef}

theorem insertInstr_last {l : List Instr} (ht : ∀ j ∈ l, j.id ≠ t.id) (x : Instr) :
    insertInstr t.id x (l ++ [t]) = l ++ [x, t] := by
  induction l with
  | nil => simp [insertInstr]
  | cons j l ih =>
    have hj : j.id ≠ t.id := ht j List.mem_cons_self
    rw [List.cons_append, insertInstr, if_neg hj, ih fun y hy => ht y (List.mem_cons_of_mem _ hy)]
    rfl

/-- One block is changed. -/
theorem perm_flatMap_mapBlock {β : Type} (hn : (f.blocks.map Block.id).Nodup) (hk : k ∈ f.blocks)
    {F : Block → Block} (hF : (F k).id = k.id) (G : Block → List β) :
    ((f.mapBlock k.id F).blocks.flatMap G ++ G k).Perm (f.blocks.flatMap G ++ G (F k)) := by
  have hblocks : (f.mapBlock k.id F).blocks =
      f.blocks.map fun x => if x.id = (F k).id then F k else x := by
    refine List.map_congr_left fun x hx => ?_
    rw [hF]
    by_cases hid : x.id = k.id
    · rw [List.inj_on_of_nodup_map hn hx hk hid]
    · rw [if_neg hid, if_neg hid]
  rw [hblocks]
  exact perm_flatMap_replace hn hk hF G

/-- One block gets one more instruction. -/
theorem perm_instrs_put (hn : (f.blocks.map Block.id).Nodup) (hk : k ∈ f.blocks)
    {F : Block → Block} (hF : (F k).id = k.id) (hput : (F k).instrs.Perm (i :: k.instrs)) :
    (f.mapBlock k.id F).instrs.Perm (i :: f.instrs) := by
  rw [← List.perm_append_right_iff k.instrs]
  refine (perm_flatMap_mapBlock hn hk hF Block.instrs).trans ?_
  exact (hput.append_left _).trans List.perm_middle

/-- The function after an instruction was taken out of whatever block it stood in. -/
def withdraw (f : Func) (d : InstrId) : Func :=
  { f with
    blocks := f.blocks.map (Block.without d)
    loose := f.loose ++ f.instrs.filter fun j => j.id = d
    parents := f.parents.filter fun e => e.1 ≠ d }

theorem instrs_withdraw (f : Func) (d : InstrId) :
    (f.withdraw d).instrs = f.instrs.filter fun j => j.id ≠ d := by
  rw [instrs, withdraw, List.flatMap_map, instrs, List.filter_flatMap]
  rfl

theorem perm_held_withdraw (f : Func) (d : InstrId) : (f.withdraw d).held.Perm f.held := by
  have hsplit := List.filter_append_perm (fun i : Instr => decide (i.id ≠ d)) f.instrs
  have hinstrs := instrs_withdraw f d
  simp only [decide_not, Bool.not_not] at hsplit hinstrs
  rw [held, held, hinstrs, withdraw]
  refine (List.perm_append_comm.append_left _).trans ?_
  rw [← List.append_assoc]
  exact hsplit.append_right _

theorem block?_withdraw (f : Func) (d : InstrId) (n : BlockId) :
    (f.withdraw d).block? n = (f.block? n).map (Block.without d) := by
  simp only [block?, withdraw, List.find?_map]
  rfl

theorem Recorded.withdraw (h : f.Recorded) (d : InstrId) : (f.withdraw d).Recorded where
  parents := by
    have hplaces : (f.withdraw d).places = f.places.filter fun e => e.1 ≠ d := by
      rw [places, Func.withdraw, List.flatMap_map, places, List.filter_flatMap]
      simp only [Block.without, List.filter_map, Function.comp_def]
      rfl
    rw [hplaces]
    exact h.parents.filter _
  blocks k hk := by
    obtain ⟨j, hj, rfl⟩ := List.mem_map.mp hk
    exact h.blocks j hj

theorem Recorded.filter_parents (h : f.Recorded) (hd : ∀ j ∈ f.instrs, j.id ≠ d) :
    (f.parents.filter fun e => e.1 ≠ d) = f.parents := by
  refine List.filter_eq_self.mpr fun e he => decide_eq_true fun hed => ?_
  have hmem : e.1 ∈ f.instrs.map Instr.id :=
    f.fst_places ▸ List.mem_map_of_mem (h.parents.mem_iff.mp he)
  obtain ⟨j, hj, hje⟩ := List.mem_map.mp hmem
  exact hd j hj (hje.trans hed)

theorem Recorded.withdraw_eq_self (h : f.Recorded) (hd : ∀ j ∈ f.instrs, j.id ≠ d) :
    f.withdraw d = f := by
  have hblocks : f.blocks.map (Block.without d) = f.blocks := by
    have hself : ∀ k ∈ f.blocks, k.without d = k := fun k hk =>
      Block.without_eq_self fun j hj => hd j (mem_instrs.mpr ⟨k, hk, hj⟩)
    rw [List.map_congr_left hself, List.map_id']
  have hnone : (f.instrs.filter fun j => j.id = d) = [] :=
    List.filter_eq_nil_iff.mpr fun j hj he => hd j hj (of_decide_eq_true he)
  rw [Func.withdraw, hblocks, hnone, List.append_nil, h.filter_parents hd]

/-- An instruction is put into a block, to which it belongs from then on. -/
theorem Recorded.put (h : f.Recorded) (hn : (f.blocks.map Block.id).Nodup) (hk : k ∈ f.blocks)
    {F : Block → Block} (hF : ∀ k, (F k).bare = k.bare)
    (hput : (F k).instrs.Perm (i :: k.instrs)) :
    ((f.mapBlock k.id F).adopt i.id k.id).Recorded where
  parents := by
    have hid : (F k).id = k.id := (congrArg Block.id (hF k) :)
    let G (k : Block) : List (InstrId × BlockRef) := k.instrs.map fun i => (i.id, f.ref k.id)
    have hG : (G (F k)).Perm ((i.id, f.ref k.id) :: G k) := by
      simp only [G, hid]
      exact hput.map _
    have hplaces : (f.mapBlock k.id F).places.Perm ((i.id, f.ref k.id) :: f.places) := by
      rw [← List.perm_append_right_iff (G k)]
      refine (perm_flatMap_mapBlock hn hk hid G).trans ?_
      exact (hG.append_left _).trans List.perm_middle
    exact (h.parents.cons _).trans hplaces.symm
  blocks b hb := by
    obtain ⟨j, hj, rfl⟩ := List.mem_map.mp hb
    split
    · have hparent : (F j).parent = j.parent := (congrArg Block.parent (hF j) :)
      rw [hparent]
      exact h.blocks j hj
    · exact h.blocks j hj

section

variable (hn : (f.held.map Instr.id).Nodup)

include hn

theorem nodup_withdraw (d : InstrId) : ((f.withdraw d).held.map Instr.id).Nodup :=
  ((perm_held_withdraw f d).map Instr.id).nodup_iff.mpr hn

/-- Taking an instruction out of its block comes to taking it out of every block. -/
theorem detach_eq_withdraw (hblocks : (f.blocks.map Block.id).Nodup) (hk : k ∈ f.blocks)
    (hd : k.holds d = true) : f.detach d k.id = f.withdraw d := by
  have hmap : (f.mapBlock k.id (Block.erase d)).blocks = f.blocks.map (Block.without d) := by
    refine List.map_congr_left fun x hx => ?_
    split
    · rw [Block.erase_eq_without (nodup_block hn hx)]
    · next hne =>
      refine (Block.without_eq_self fun j hj he => hne ?_).symm
      rw [holder_unique hn hx hk (Block.holds_iff.mpr ⟨j, hj, he⟩) hd]
  have hblock : f.block? k.id = some k := (find?_key_iff hblocks).mpr ⟨hk, rfl⟩
  obtain ⟨i, hi, rfl⟩ := Block.holds_iff.mp hd
  have hfound : (k.instrs.find? fun j => j.id = i.id) = some i :=
    (find?_key_iff (nodup_block hn hk)).mpr ⟨hi, rfl⟩
  have hself : (f.instrs.filter fun j => j.id = i.id) = [i] := by
    have hids : (f.instrs.map Instr.id).Nodup := by
      rw [held, List.map_append, List.nodup_append] at hn
      exact hn.1
    have hmem : i ∈ f.instrs := mem_instrs.mpr ⟨k, hk, hi⟩
    have hperm := (perm_cons_filter hids hmem).filter fun j => decide (j.id = i.id)
    rw [List.filter_cons_of_pos (by simp), List.filter_filter] at hperm
    simpa using hperm
  rw [detach, hblock, Option.bind_some, hfound, Option.toList_some, withdraw, hself, ← hmap]
  rfl

theorem remove_eq (hblocks : (f.blocks.map Block.id).Nodup) (hk : k ∈ f.blocks)
    (hd : k.holds d = true) : remove d k.id f = .ok () (f.withdraw d) := by
  have hblock : f.block? k.id = some k := (find?_key_iff hblocks).mpr ⟨hk, rfl⟩
  rw [remove, hblock, Option.any_some, if_pos hd, detach_eq_withdraw hn hblocks hk hd]

theorem instr?_withdraw (hi : i ∈ f.held) : (f.withdraw i.id).instr? i.id = some i :=
  (find?_key_iff (nodup_withdraw hn i.id)).mpr ⟨(perm_held_withdraw f i.id).mem_iff.mpr hi, rfl⟩

theorem looseInstr?_withdraw (hi : i ∈ f.held) : (f.withdraw i.id).looseInstr? i.id = some i := by
  have hids := nodup_withdraw hn i.id
  rw [held, List.map_append, List.nodup_append] at hids
  refine (find?_key_iff hids.2.1).mpr ⟨?_, rfl⟩
  rcases List.mem_append.mp hi with hi | hi
  · exact List.mem_append_right _ (List.mem_filter.mpr ⟨hi, decide_eq_true rfl⟩)
  · exact List.mem_append_left _ hi

end

/-- The function after an instruction, wherever it was, went right before the last one of block
`dst`. -/
def settling (i : Instr) (dst : BlockRef) (f : Func) : Func :=
  { f with
    blocks := f.blocks.map fun k =>
      if f.ref k.id = dst then (k.without i.id).insertLast i else k.without i.id
    loose := f.loose.filter fun j => j.id ≠ i.id
    parents := (if f.id = dst.func then [(i.id, dst)] else []) ++
      f.parents.filter fun e => e.1 ≠ i.id }

section Settling

variable (hn : (f.held.map Instr.id).Nodup) (hk : f.block? dst.number = some k)

include hn hk

/-- What is put before the terminator comes last but one. -/
theorem insertInstr_without (hterm : k.term? = some t) (hne : t.id ≠ i.id) :
    insertInstr t.id i (k.without i.id).instrs = ((k.without i.id).insertLast i).instrs := by
  obtain ⟨front, hfront⟩ := Block.exists_front hterm
  have hrest := Block.without_eq_append hfront hne
  have hnodup := nodup_block hn (List.mem_of_find?_eq_some hk)
  rw [hfront, List.map_append, List.nodup_append] at hnodup
  have hids : ∀ j ∈ front.filter fun j => j.id ≠ i.id, j.id ≠ t.id := fun j hj =>
    hnodup.2.2 j.id (List.mem_map_of_mem (List.mem_of_mem_filter hj)) t.id (by simp)
  rw [hrest, insertInstr_last hids, Block.instrs_insertLast hrest]

/-- An instruction that is taken out of a function and put before a terminator has settled there. -/
theorem adopt_withdraw (hblocks : (f.blocks.map Block.id).Nodup) (hdst : f.id = dst.func)
    (hterm : k.term? = some t) (hne : t.id ≠ i.id) :
    (((f.withdraw i.id).dropLoose i.id).mapBlock dst.number fun b =>
      { b with instrs := insertInstr t.id i b.instrs }).adopt i.id dst.number =
        f.settling i dst := by
  have hkf : k ∈ f.blocks := List.mem_of_find?_eq_some hk
  have hkid : k.id = dst.number := by simpa using List.find?_some hk
  have hput : ∀ x ∈ f.blocks, (if (x.without i.id).id = dst.number then
      { x.without i.id with instrs := insertInstr t.id i (x.without i.id).instrs }
        else x.without i.id) =
        if f.ref x.id = dst then (x.without i.id).insertLast i else x.without i.id := by
    intro x hx
    by_cases hid : x.id = dst.number
    · have hxk : x = k := List.inj_on_of_nodup_map hblocks hx hkf (hid.trans hkid.symm)
      have hxid : (x.without i.id).id = dst.number := hid
      have hxref : f.ref x.id = dst := by rw [ref, hdst, hid]
      rw [if_pos hxid, if_pos hxref, hxk, insertInstr_without hn hk hterm hne]
      rfl
    · have hxid : (x.without i.id).id ≠ dst.number := hid
      have hxref : f.ref x.id ≠ dst := fun he => hid (congrArg BlockRef.number he)
      rw [if_neg hxid, if_neg hxref]
  have hsettled : ((f.blocks.map (Block.without i.id)).map fun b =>
      if b.id = dst.number then { b with instrs := insertInstr t.id i b.instrs } else b) =
        (f.settling i dst).blocks := by
    rw [List.map_map]
    exact List.map_congr_left hput
  have hloose : ((f.withdraw i.id).dropLoose i.id).loose = (f.settling i dst).loose := by
    simp [dropLoose, withdraw, settling]
  have hparents : (i.id, f.ref dst.number) :: (f.withdraw i.id).parents =
      (f.settling i dst).parents := by
    simp [settling, withdraw, hdst, ref]
  have hframe : f.settling i dst = { f with
      blocks := (f.settling i dst).blocks
      loose := (f.settling i dst).loose
      parents := (f.settling i dst).parents } := rfl
  rw [hframe, ← hsettled, ← hloose, ← hparents]
  rfl

/-- An instruction of the function that stands in no block comes before the terminator. -/
theorem putBefore_withdraw (hblocks : (f.blocks.map Block.id).Nodup) (hdst : f.id = dst.func)
    (hi : i ∈ f.held) (hterm : k.term? = some t) (hne : t.id ≠ i.id) :
    putBefore i.id t.id dst.number (f.withdraw i.id) = .ok () (f.settling i dst) := by
  have hblock : (f.withdraw i.id).block? dst.number = some (k.without i.id) := by
    rw [block?_withdraw, hk, Option.map_some]
  have hholds : (k.without i.id).holds t.id = true := by
    obtain ⟨front, hfront⟩ := Block.exists_front hterm
    exact Block.holds_iff.mpr ⟨t, by rw [Block.without_eq_append hfront hne]; simp, rfl⟩
  simp only [putBefore, hblock, Option.any_some, hholds, if_true, instr?_withdraw hn hi,
    adopt_withdraw hn hk hblocks hdst hterm hne]

end Settling

/-- A change that only moves instructions takes no new numbers. -/
theorem grows_of_perm {g : Func} (hn : (f.held.map Instr.id).Nodup) (hid : g.id = f.id)
    (hserial : g.nextSerial = f.nextSerial) (hperm : g.held.Perm f.held)
    (hblocks : ∀ k ∈ g.blocks, k.id ≤ g.maxBlock) (hrecorded : f.Recorded → g.Recorded) :
    f.Grows g where
  id := hid
  serial := Nat.le_of_eq hserial.symm
  own := (hperm.map Instr.id).nodup_iff.mpr hn
  ids j hj := Or.inl ⟨j, hperm.mem_iff.mp hj, rfl⟩
  reads j hj _ hd := Or.inl ⟨j, hperm.mem_iff.mp hj, hd⟩
  blocks := hblocks
  recorded := hrecorded

theorem grows_withdraw (hn : (f.held.map Instr.id).Nodup) (hmax : ∀ k ∈ f.blocks, k.id ≤ f.maxBlock)
    (d : InstrId) : f.Grows (f.withdraw d) := by
  refine grows_of_perm hn rfl rfl (perm_held_withdraw f d) (fun k hk => ?_) fun h => h.withdraw d
  obtain ⟨j, hj, rfl⟩ := List.mem_map.mp hk
  exact hmax j hj

end Func

namespace Module

variable {m : Module} {f g : Func} {d pos : InstrId} {k : Block}

theorem edit_of_ok {α : Type} {e : Edit Func α} {a : α} (hf : m.func? f.id = some f)
    (he : e f = .ok a g) : edit f.id e m = .ok a (m.update g) := by
  simp only [edit, hf, he]

theorem edit_of_error {α : Type} {e : Edit Func α} {x : EditFault} (hf : m.func? f.id = some f)
    (he : e f = .error x g) : edit f.id e m = .error x (m.update g) := by
  simp only [edit, hf, he]

theorem release_of_none (h : m.owner? d = none) : release d m = .ok () m := by
  rw [release, h]

/-- An instruction is found in the block that it is recorded to belong to. -/
theorem release_of_owner (howner : m.owner? d = some (f.ref k.id)) (hf : m.func? f.id = some f)
    (hn : (f.held.map Instr.id).Nodup) (hblocks : (f.blocks.map Block.id).Nodup)
    (hk : k ∈ f.blocks) (hd : k.holds d = true) :
    release d m = .ok () (m.update (f.withdraw d)) := by
  rw [release, howner]
  exact edit_of_ok hf (Func.remove_eq hn hblocks hk hd)

/-- Within its own function an instruction need not be handed over. -/
theorem handOver_of_holder (hholder : m.holder? d = some f) (hf : m.func? f.id = some f) :
    m.handOver d f.id = m := by
  simp only [handOver, hholder, hf, if_true]
  cases f.looseInstr? d with
  | none => rfl
  | some i => rfl

theorem moveBeforeTerm_of_release {m₁ : Module} {t : Instr} {dst : BlockRef}
    (hk : m.block? dst = some k) (hterm : k.term? = some t) (hrelease : release d m = .ok () m₁) :
    moveBeforeTerm d dst m = putBefore d t.id dst m₁ := by
  rw [moveBeforeTerm, hk, Option.bind_some, hterm]
  exact Edit.bind_ok hrelease

end Module

end KernelIR
