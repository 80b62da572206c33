import KernelIR.Proofs.Motion.Completeness

namespace KernelIR

/-- The instructions of a block. -/
def Module.instrsAt (m : Module) (b : BlockRef) : List Instr := (m.block? b).elim [] Block.instrs

/-- The least set of instructions of a loop, outside its subloops, that may be moved and take no
operand from the loop but from the set. -/
inductive Work.Departs (w : Work) (nest : LoopNest) (l : Loop) : InstrId → Prop where
  | intro {b : BlockRef} {i : Instr} (body : b ∈ l.body) (own : nest.inSubloop l b = false)
      (mem : i ∈ w.module.instrsAt b) (accepts : w.Accepts i)
      (operands : ∀ d ∈ i.reads, ∀ c ∈ l.body, w.module.owner? d = some c → Departs w nest l d) :
      Departs w nest l i.id

theorem Instr.not_mem_append (moved : List Instr) (i : Instr) (d : InstrId) :
    (decide (d ≠ i.id) && decide (d ∉ moved.map Instr.id)) =
      decide (d ∉ (moved ++ [i]).map Instr.id) := by
  rw [List.map_append, Bool.eq_iff_iff]
  simp only [Bool.and_eq_true, decide_eq_true_eq, List.mem_append, List.map_singleton,
    List.mem_singleton]
  tauto

namespace Block

/-- A block after instructions went to the end of block `dst`, before its terminator. -/
def gathered (moved : List Instr) (dst : BlockId) (k : Block) : Block :=
  if k.id = dst then { k with instrs := k.instrs.dropLast ++ moved ++ k.instrs.getLast?.toList }
  else { k with instrs := k.instrs.filter fun i => i.id ∉ moved.map Instr.id }

variable {moved : List Instr} {dst : BlockId} {k : Block} {i : Instr}

@[simp] theorem id_gathered : (k.gathered moved dst).id = k.id := by
  rw [gathered]
  split
  · rfl
  · rfl

theorem gathered_nil : k.gathered [] dst = k := by
  rw [gathered]
  split
  · simp [dropLast_append_last]
  · simp

theorem mem_gathered (hk : k.id ≠ dst) : i ∈ (k.gathered moved dst).instrs ↔
    i ∈ k.instrs ∧ i.id ∉ moved.map Instr.id := by
  simp [gathered, hk]

/-- Moving one instruction more. -/
theorem moved_gathered {t : Instr} {body : List Instr} (hbody : k.instrs = body ++ [t])
    (hnew : i.id ∉ moved.map Instr.id) (hout : k.id = dst → ∀ j ∈ k.instrs, j.id ≠ i.id) :
    (k.gathered moved dst).moved i dst = k.gathered (moved ++ [i]) dst := by
  rw [Block.moved, id_gathered]
  split
  · next hk =>
    have hstay : (k.gathered moved dst).without i.id = k.gathered moved dst := by
      apply without_eq_self
      intro j hj he
      have hmem : j ∈ k.instrs ∨ j ∈ moved := by
        rw [hbody]
        simp only [gathered, if_pos hk, hbody] at hj
        simp at hj ⊢
        tauto
      rcases hmem with hj | hj
      · exact hout hk j hj he
      · exact hnew (he ▸ List.mem_map_of_mem hj)
    rw [hstay, insertLast]
    simp [gathered, hk, hbody]
  · next hk =>
    simp only [gathered, if_neg hk, without, List.filter_filter, Instr.not_mem_append]

end Block

namespace Func

variable {f : Func} {moved : List Instr} {dst : BlockId} {i : Instr}

/-- A function after instructions went to the end of block `dst`, before its terminator. -/
def gathered (moved : List Instr) (dst : BlockId) (f : Func) : Func :=
  { f with
    blocks := f.blocks.map (Block.gathered moved dst)
    parents := (moved.map fun i => (i.id, f.ref dst)).reverse ++
      f.parents.filter fun e => e.1 ∉ moved.map Instr.id }

theorem gathered_nil : f.gathered [] dst = f := by
  have hblocks : f.blocks.map (Block.gathered [] dst) = f.blocks := by
    have hsame : Block.gathered [] dst = fun k => k := funext fun k => Block.gathered_nil
    rw [hsame, List.map_id']
  have hparents : (f.parents.filter fun e => e.1 ∉ ([] : List Instr).map Instr.id) = f.parents :=
    List.filter_eq_self.mpr fun e _ => decide_eq_true List.not_mem_nil
  rw [gathered, hblocks, hparents]
  rfl

theorem moved_gathered (hf : f.Framed) (hnew : i.id ∉ moved.map Instr.id)
    (hout : ∀ k ∈ f.blocks, k.id = dst → ∀ j ∈ k.instrs, j.id ≠ i.id) :
    (f.gathered moved dst).moved i dst = f.gathered (moved ++ [i]) dst := by
  have hblocks : ((f.gathered moved dst).moved i dst).blocks =
      (f.gathered (moved ++ [i]) dst).blocks := by
    rw [blocks_moved, gathered, List.map_map]
    refine List.map_congr_left fun k hk => ?_
    obtain ⟨body, t, hbody, _⟩ := hf.exists_term hk
    exact Block.moved_gathered hbody hnew (hout k hk)
  have hparents : ((f.gathered moved dst).moved i dst).parents =
      (f.gathered (moved ++ [i]) dst).parents := by
    have hstay : ((moved.map fun j => (j.id, f.ref dst)).reverse.filter fun e => e.1 ≠ i.id) =
        (moved.map fun j => (j.id, f.ref dst)).reverse := by
      refine List.filter_eq_self.mpr fun e he => decide_eq_true fun hid => hnew ?_
      obtain ⟨j, hj, rfl⟩ := List.mem_map.mp (List.mem_reverse.mp he)
      exact hid ▸ List.mem_map_of_mem hj
    have hcons : ((f.gathered moved dst).moved i dst).parents =
        (i.id, f.ref dst) :: (f.gathered moved dst).parents.filter fun e => e.1 ≠ i.id := rfl
    rw [hcons, gathered, gathered, List.filter_append, hstay, List.filter_filter]
    simp only [Instr.not_mem_append, List.map_append, List.reverse_append, List.map_singleton,
      List.reverse_singleton, List.cons_append, List.nil_append]
  rw [moved_frame, hblocks, hparents]
  rfl

end Func

namespace Work

/-- What holds while hoisting goes over the blocks of a loop of `f`: of the instructions seen so
far, those that depart have gone to the end of the preheader, in the order in which they were
seen. -/
structure Gathers (w : Work) (f : Func) (l : Loop) (pre : BlockId) (seen moved : List Instr)
    (g : Func) : Prop where
  func : g = f.gathered moved pre
  sublist : moved.Sublist seen
  mem : ∀ i ∈ seen, i ∈ moved ↔ w.Departs f.nest l i.id

theorem Gathers.start (w : Work) (f : Func) (l : Loop) (pre : BlockId) :
    Gathers w f l pre [] [] f where
  func := Func.gathered_nil.symm
  sublist := List.Sublist.refl _
  mem := nofun

theorem Gathers.blocks {w : Work} {f g : Func} {l : Loop} {pre : BlockId} {seen moved : List Instr}
    (h : Gathers w f l pre seen moved g) : g.blocks = f.blocks.map (Block.gathered moved pre) := by
  rw [h.func]
  rfl

section Step

variable {w w₁ w₂ : Work} {f g g' : Func} {c c' : Bool} {l : Loop} {pre src k : Block} {i : Instr}
  {is seen moved : List Instr} {bs order : List BlockRef} (hw : w.module.Hosts f) (hl : l ∈ f.nest)

include hw

theorem instrsAt_ref (hk : k ∈ f.blocks) : w.module.instrsAt (f.ref k.id) = k.instrs := by
  rw [Module.instrsAt, hw.block? hk]
  rfl

include hl

/-- An instruction of the function departs if it may be moved, the loop is the innermost one around
it, and it takes no operand from the loop that does not depart. -/
theorem departs_iff (hk : k ∈ f.blocks) (hi : i ∈ k.instrs) : w.Departs f.nest l i.id ↔
    f.nest.loopFor? (f.ref k.id) = some l ∧ w.Accepts i ∧
      ∀ j ∈ f.blocks, f.ref j.id ∈ l.body →
        ∀ e ∈ j.instrs, e.id ∈ i.reads → w.Departs f.nest l e.id := by
  have hlinked := hw.framed.linked
  have hnat := hlinked.isNaturalLoop hl
  constructor
  · intro h
    generalize hd : i.id = d at h
    cases h with
    | @intro b e body own mem accepts operands =>
      obtain ⟨j, hj, rfl⟩ := hnat.exists_block hlinked body
      rw [instrsAt_ref hw hj] at mem
      have hei : e = i := List.inj_on_of_nodup_map hw.own (Func.mem_held_of_mem hj mem)
        (Func.mem_held_of_mem hk hi) hd.symm
      subst hei
      have hjk : j = k :=
        Func.holder_unique hw.own hj hk (Block.holds_iff.mpr ⟨e, mem, rfl⟩)
          (Block.holds_iff.mpr ⟨e, hi, rfl⟩)
      subst hjk
      refine ⟨?_, accepts, fun j hj hin x hx hread => operands x.id hread _ hin ?_⟩
      · by_contra hne
        rw [(Func.inSubloop_iff hlinked hl body).mpr hne] at own
        cases own
      · exact hw.consistent.owner?_iff.mpr ⟨f, hw.mem, j, hj, Block.holds_iff.mpr ⟨x, hx, rfl⟩, rfl⟩
  · rintro ⟨hfor, hacc, hoperands⟩
    have hbody := ((Func.loopFor?_eq_some_iff hlinked _ l).mp hfor).prop
    refine .intro hbody ?_ ((instrsAt_ref hw hk).symm ▸ hi) hacc fun d hd b hb howner => ?_
    · rw [Bool.eq_false_iff]
      exact fun hin => (Func.inSubloop_iff hlinked hl hbody).mp hin hfor
    · obtain ⟨x, hx, j, hj, hold, rfl⟩ := hw.consistent.owner?_iff.mp howner
      obtain ⟨j', _, he⟩ := hnat.exists_block hlinked hb
      have hxf : x = f :=
        List.inj_on_of_nodup_map hw.consistent.funcs hx hw.mem (congrArg BlockRef.func he)
      subst hxf
      obtain ⟨e, hej, rfl⟩ := Block.holds_iff.mp hold
      exact hoperands j hj hb e hej hd

/-- What departs stands in a block that is gone over. -/
theorem Departs.exists_instr {d : InstrId} (h : w.Departs f.nest l d) :
    ∃ k ∈ f.blocks, ∃ e ∈ k.instrs, e.id = d ∧ f.nest.loopFor? (f.ref k.id) = some l := by
  have hlinked := hw.framed.linked
  have h' := h
  cases h' with
  | @intro b e body own mem accepts operands =>
    obtain ⟨k, hk, rfl⟩ := (hlinked.isNaturalLoop hl).exists_block hlinked body
    rw [instrsAt_ref hw hk] at mem
    exact ⟨k, hk, e, mem, rfl, ((departs_iff hw hl hk mem).mp h).1⟩

variable {done : List Instr} (hpre : f.IsPreheader l pre) (hs : Sweeps w f c w₁ g)
  (h : Gathers w f l pre.id seen moved g) (hk : k ∈ f.blocks)
    (hfor : f.nest.loopFor? (f.ref k.id) = some l)

include hpre hs h hk hfor

/-- The next instruction in turn departs if it may be moved and, by now, takes no operand from the
loop. What it reads of the loop was seen before it. -/
theorem Gathers.departs_iff_invariant (hordered : f.Ordered w.Accepts)
    (hinstrs : k.instrs = done ++ i :: is) (hbs : ∀ b ∈ bs, ¬f.Dominates b (f.ref k.id))
    (hrest : ∀ j ∈ f.blocks, f.nest.loopFor? (f.ref j.id) = some l → ∀ e ∈ j.instrs,
      e ∈ seen ∨ f.Pending (i :: is) bs e) :
    w.Departs f.nest l i.id ↔ w₁.module.invariant l i = true ∧ w.Accepts i := by
  have hlinked := hw.framed.linked
  have hnat := hlinked.isNaturalLoop hl
  have hkept := hs.kept hw
  have hi : i ∈ k.instrs := by simp [hinstrs]
  have hbody := ((Func.loopFor?_eq_some_iff hlinked _ l).mp hfor).prop
  have hne : ∀ {j : Block}, f.ref j.id ∈ l.body → j.id ≠ pre.id :=
    fun hin he => hpre.outside (he ▸ hin)
  rw [departs_iff hw hl hk hi, hkept.hosts.invariant_iff (hkept.isNaturalLoop hnat), h.blocks]
  simp only [hkept.ref]
  constructor
  · rintro ⟨_, hacc, hoperands⟩
    refine ⟨fun d hd j' hj' hold hin => ?_, hacc⟩
    obtain ⟨j, hj, rfl⟩ := List.mem_map.mp hj'
    rw [Block.id_gathered] at hin
    obtain ⟨e, he, rfl⟩ := Block.holds_iff.mp hold
    obtain ⟨hej, hstays⟩ := (Block.mem_gathered (hne hin)).mp he
    have hdep := hoperands j hj hin e hej hd
    obtain ⟨hforj, hacce, _⟩ := (departs_iff hw hl hj hej).mp hdep
    rcases hrest j hj hforj e hej with hseen | hpend
    · exact hstays (List.mem_map_of_mem ((h.mem e hseen).mpr hdep))
    · exact hordered.not_pending hw.own hj hk (hnat.reaches hin)
        (hnat.reaches hbody) hej hinstrs hacce hacc hd hbs hpend
  · rintro ⟨hinv, hacc⟩
    refine ⟨hfor, hacc, fun j hj hin e hej hread => ?_⟩
    by_contra hdep
    have hstays : e.id ∉ moved.map Instr.id := by
      intro hmem
      obtain ⟨x, hx, hxe⟩ := List.mem_map.mp hmem
      exact hdep (hxe ▸ (h.mem x (h.sublist.subset hx)).mp hx)
    refine hinv e.id hread (j.gathered moved pre.id) (List.mem_map_of_mem hj) ?_
      (by rwa [Block.id_gathered])
    exact Block.holds_iff.mpr ⟨e, (Block.mem_gathered (hne hin)).mpr ⟨hej, hstays⟩, rfl⟩

/-- Looking at the next instruction. -/
theorem Gathers.examined
    (hdeparts : w.Departs f.nest l i.id ↔ w₁.module.invariant l i = true ∧ w.Accepts i)
    (hi : i ∈ k.instrs) (hnew : i.id ∉ moved.map Instr.id) (e : Examines l src i w₁ g c' w₂ g') :
    ∃ moved', Gathers w f l pre.id (seen ++ [i]) moved' g' := by
  have hnat := hw.framed.linked.isNaturalLoop hl
  have hkept := hs.kept hw
  cases e with
  | stay _ _ refused =>
    refine ⟨moved, h.func, h.sublist.trans (List.sublist_append_left _ _), fun x hx => ?_⟩
    rcases List.mem_append.mp hx with hx | hx
    · exact h.mem x hx
    · rw [List.mem_singleton.mp hx, hdeparts]
      refine iff_of_false (fun hmem => hnew (List.mem_map_of_mem hmem)) fun hboth => ?_
      have hcan := (hkept.canHoist_eq i).trans hboth.2
      rw [refused hboth.1] at hcan
      cases hcan
  | @move _ dst lifts =>
    have hdep := hdeparts.mpr ⟨lifts.invariant, (hkept.canHoist_eq i).symm.trans lifts.can⟩
    have hout : ∀ j ∈ f.blocks, j.id = pre.id → ∀ x ∈ j.instrs, x.id ≠ i.id := by
      intro j hj hid x hx he
      have hjk : j = k :=
        Func.holder_unique hw.own hj hk (Block.holds_iff.mpr ⟨x, hx, he⟩)
          (Block.holds_iff.mpr ⟨i, hi, rfl⟩)
      apply hpre.outside
      rw [← hid, hjk]
      exact ((Func.loopFor?_eq_some_iff hw.framed.linked _ l).mp hfor).prop
    refine ⟨moved ++ [i], ?_, h.sublist.append (List.Sublist.refl _), fun x hx => ?_⟩
    · rw [hkept.id_preheader hnat hpre lifts.pre, h.func]
      exact Func.moved_gathered hw.framed hnew hout
    · rcases List.mem_append.mp hx with hx | hx
      · rw [List.mem_append, h.mem x hx, List.mem_singleton]
        exact or_iff_left_of_imp fun he => he ▸ hdep
      · rw [List.mem_singleton.mp hx]
        exact iff_of_true (List.mem_append_right _ (List.mem_singleton_self i)) hdep

end Step

section Run

variable {w : Work} {f : Func} {l : Loop} {pre : Block} {order : List BlockRef} (o : Options)

theorem mem_flatMap_instrsAt (hw : w.module.Hosts f)
    (horder : ∀ b ∈ order, ∃ k ∈ f.blocks, b = f.ref k.id) {i : Instr} :
    i ∈ order.flatMap w.module.instrsAt ↔ ∃ k ∈ f.blocks, f.ref k.id ∈ order ∧ i ∈ k.instrs := by
  rw [List.mem_flatMap]
  constructor
  · rintro ⟨b, hb, hi⟩
    obtain ⟨k, hk, rfl⟩ := horder b hb
    exact ⟨k, hk, hb, instrsAt_ref hw hk ▸ hi⟩
  · rintro ⟨k, hk, hb, hi⟩
    exact ⟨f.ref k.id, hb, (instrsAt_ref hw hk).symm ▸ hi⟩

theorem nodup_flatMap_instrsAt (hw : w.module.Hosts f)
    (horder : ∀ b ∈ order, ∃ k ∈ f.blocks, b = f.ref k.id)
    (hnodup : order.Nodup) : ((order.flatMap w.module.instrsAt).map Instr.id).Nodup := by
  rw [List.map_flatMap, List.nodup_flatMap]
  constructor
  · intro b hb
    obtain ⟨k, hk, rfl⟩ := horder b hb
    rw [instrsAt_ref hw hk]
    exact Func.nodup_block hw.own hk
  · apply hnodup.imp_of_mem
    intro a b ha hb hab d hda hdb
    obtain ⟨j, hj, rfl⟩ := horder a ha
    obtain ⟨k, hk, rfl⟩ := horder b hb
    simp only [instrsAt_ref hw hj, instrsAt_ref hw hk] at hda hdb
    have hjk := Func.holder_unique hw.own hj hk (Block.holds_iff.mpr (List.mem_map.mp hda))
      (Block.holds_iff.mpr (List.mem_map.mp hdb))
    exact hab (by rw [hjk])

/-- Going over the blocks of a loop moves what departs. -/
theorem hoistBlocks_gathers (hw : w.module.Hosts f) (hl : l ∈ f.nest) (hpre : f.IsPreheader l pre)
    (hordered : f.Ordered w.Accepts) {w₁ : Work} (hs : Sweeps w f false w₁ f)
    (horder : order = scanOrder w.module f.flow.domTree.children f.nest l) :
    ∃ c w₂ g moved, hoistBlocks o l (f.ref pre.id) order w₁ = .ok c w₂ ∧ Sweeps w f c w₂ g ∧
      Gathers w f l pre.id (order.flatMap w.module.instrsAt) moved g := by
  have hlinked := hw.framed.linked
  have hnat := hlinked.isNaturalLoop hl
  have hmem : ∀ b, b ∈ order ↔ f.nest.loopFor? b = some l := fun b =>
    horder ▸ mem_scanOrder_iff hlinked hl (Module.length_le_blockCount hw.mem)
  have hpair : order.Pairwise fun x y => ¬f.Dominates y x := horder ▸ pairwise_scanOrder hlinked hl
  have hbody : ∀ b ∈ order, b ∈ l.body := fun b hb =>
    ((Func.loopFor?_eq_some_iff hlinked _ l).mp ((hmem b).mp hb)).prop
  have hown : ∀ b ∈ order, ∃ k ∈ f.blocks, b = f.ref k.id :=
    fun b hb => hnat.exists_block hlinked (hbody b hb)
  have hids :=
    nodup_flatMap_instrsAt hw hown (hpair.imp fun {x y} hxy (he : x = y) => hxy (he ▸ .refl x))
  let R (is : List Instr) (bs : List BlockRef) (g : Func) : Prop :=
    ∃ seen moved, (∃ k ∈ f.blocks, is <:+ k.instrs) ∧
    order.flatMap w.module.instrsAt = seen ++ (is ++ bs.flatMap w.module.instrsAt) ∧
    Gathers w f l pre.id seen moved g
  -- the block that is gone over is one of `f`, without what has been moved
  have hblock :
      ∀ {before bs src seen moved g}, order = before ++ f.ref src.id :: bs → src ∈ g.blocks →
      Gathers w f l pre.id seen moved g → ∃ k ∈ f.blocks, k.id = src.id ∧
        src.instrs = k.instrs.filter fun i => i.id ∉ moved.map Instr.id := by
    intro before bs src seen moved g hsplit hsrc h
    rw [h.blocks] at hsrc
    obtain ⟨k, hk, rfl⟩ := List.mem_map.mp hsrc
    rw [Block.id_gathered] at hsplit ⊢
    have hne : k.id ≠ pre.id := fun he => hpre.outside (he ▸ hbody _ (by simp [hsplit]))
    exact ⟨k, hk, rfl, by rw [Block.gathered, if_neg hne]⟩
  have hblocks := hoistBlocks_ok (R := R) o hw hnat hpre hbody ?_ ?_ hs ?_
  · obtain ⟨c, w₂, g, hrun, hs', seen, moved, _, hseen, h⟩ := hblocks
    rw [List.flatMap_nil, List.append_nil, List.append_nil] at hseen
    exact ⟨c, w₂, g, moved, hrun, hs', hseen ▸ h⟩
  · intro before bs c w₁ g src hsplit hs hsrc hR
    obtain ⟨seen, moved, _, hseen, h⟩ := hR
    obtain ⟨k, hk, hid, hinstrs⟩ := hblock hsplit hsrc h
    rw [List.nil_append, List.flatMap_cons, ← hid, instrsAt_ref hw hk] at hseen
    have hsame : src.instrs = k.instrs := by
      rw [hinstrs, List.filter_eq_self]
      intro i hi
      rw [decide_eq_true_eq]
      intro hmoved
      rw [hseen, List.map_append, List.nodup_append] at hids
      exact hids.2.2 _ ((h.sublist.map Instr.id).subset hmoved) i.id
        (List.mem_map_of_mem (List.mem_append_left _ hi)) rfl
    rw [← hsame] at hseen
    exact ⟨seen, moved, ⟨k, hk, hsame ▸ List.suffix_rfl⟩, hseen, h⟩
  · intro before bs done i is c c' w₁ w₂ g g' src hsplit hs hsrc hinstrs hR he
    obtain ⟨seen, moved, ⟨k, hk, done', hk'⟩, hseen, h⟩ := hR
    obtain ⟨k', hk'', hid, hfilter⟩ := hblock hsplit hsrc h
    have hi : i ∈ src.instrs := by simp [hinstrs]
    rw [hfilter, List.mem_filter, decide_eq_true_eq] at hi
    have hik : i ∈ k.instrs := by simp [← hk']
    have hkk : k' = k := Func.holder_unique hw.own hk'' hk (Block.holds_iff.mpr ⟨i, hi.1, rfl⟩)
      (Block.holds_iff.mpr ⟨i, hik, rfl⟩)
    subst hkk
    rw [← hid] at hsplit
    have hfor : f.nest.loopFor? (f.ref k'.id) = some l := (hmem _).mp (by simp [hsplit])
    have hlater := (List.pairwise_append.mp (hsplit ▸ hpair)).2.1
    rw [List.pairwise_cons] at hlater
    have hdeparts := h.departs_iff_invariant hw hl hpre hs hk hfor hordered hk'.symm hlater.1 ?_
    · obtain ⟨moved', h'⟩ := h.examined hw hl hpre hs hk hfor hdeparts hik hi.2 he
      refine ⟨seen ++ [i], moved', ⟨k', hk, ?_⟩, ?_, h'⟩
      · exact (List.suffix_cons i is).trans ⟨done', hk'⟩
      · simp [hseen]
    · intro j hj hforj e hej
      have hein : e ∈ order.flatMap w.module.instrsAt :=
        (mem_flatMap_instrsAt hw hown).mpr ⟨j, hj, (hmem _).mpr hforj, hej⟩
      rw [hseen, List.mem_append, List.mem_append,
        mem_flatMap_instrsAt hw fun b hb => hown b (by simp [hsplit, hb])] at hein
      exact hein
  · exact ⟨[], [], ⟨pre, hpre.mem, List.nil_suffix⟩, rfl, .start w f l pre.id⟩

end Run

/-- What going over one loop does, if definitions come before their uses. Without a preheader
nothing changes. Otherwise the loop gives up the least set of its own instructions that may be moved
and take no operand from the loop but from the set. They go to the end of the preheader, before its
terminator, in the order of the dominator tree and of their blocks; every other block keeps the rest
in order. The answer tells whether there were any. -/
theorem hoistLoop_moves_least (o : Options) (w : Work) (f : Func) (nest : LoopNest) (l : Loop)
    (hm : w.module.Consistent) (hf : w.module.func? f.id = some f) (hlinked : f.Linked)
    (hended : ∀ k ∈ f.blocks, k.term?.isSome)
    (huses : ∀ j ∈ f.blocks,
      ∀ k ∈ f.blocks, f.Reaches (f.ref k.id) → ∀ e ∈ j.instrs, ∀ i ∈ k.instrs, i.op ≠ .phi →
      e.id ∈ i.reads → (j = k ∧ k.Precedes e.id i.id) ∨
      f.StrictlyDominates (f.ref j.id) (f.ref k.id))
    (hnest : w.module.loopNest f (w.module.domTree f) = .ok nest) (hl : l ∈ nest) :
    (w.module.preheader? l = none →
      ∃ w₁, hoistLoop o (w.module.domTree f).children nest l w = .ok false w₁ ∧
        w₁.module = w.module) ∧
    ∀ p, w.module.preheader? l = some p → (∃ k ∈ f.blocks, p = f.ref k.id) ∧
      ∃ changed w₁ moved, hoistLoop o (w.module.domTree f).children nest l w = .ok changed w₁ ∧
        (∀ d, d ∈ moved.map Instr.id ↔ w.Departs nest l d) ∧
        moved.Sublist ((w.module.domTree f).preorder.flatMap w.module.instrsAt) ∧
        w₁.module = w.module.update (f.gathered moved p.number) ∧
        (changed = true ↔ moved ≠ []) := by
  rw [hlinked.loopNest_eq, Except.ok.injEq] at hnest
  subst hnest
  have hnat := hlinked.isNaturalLoop hl
  have hw : w.module.Hosts f := ⟨hm, (hm.func?_iff.mp hf).1, hlinked, hended⟩
  have hordered : f.Ordered w.Accepts := fun j hj k hk _ hkr e he i hi _ hacc hread =>
    huses j hj k hk hkr e he i hi (canHoist_computes hacc).1 hread
  refine ⟨fun hnone => ?_, fun p hp => ?_⟩
  · let counted : Work :=
      { w with stats.loops := w.stats.loops + 1, stats.noPreheader := w.stats.noPreheader + 1 }
    exact ⟨counted, by simp [hoistLoop, hnone, counted], rfl⟩
  have hpre := hp
  rw [Module.preheader?_eq hm hw.mem hlinked hnat, Option.map_eq_some_iff] at hpre
  obtain ⟨n, hn, rfl⟩ := hpre
  obtain ⟨pre, hpre, rfl⟩ := (Func.preheader?_eq_some_iff hlinked hnat).mp hn
  refine ⟨⟨pre, hpre.mem, rfl⟩, ?_⟩
  have hcounted : Sweeps w f false { w with stats.loops := w.stats.loops + 1 } f :=
    Sweeps.refl.count rfl rfl
  obtain ⟨changed, w₁, g, moved, hrun, hs, h⟩ :=
    hoistBlocks_gathers o hw hl hpre hordered hcounted rfl
  have hkept := hs.kept hw
  refine ⟨changed, w₁, moved, ?_, fun d => ?_, ?_, h.func ▸ hkept.module, ?_⟩
  · simp only [hoistLoop, hp]
    rw [hlinked.domTree_eq]
    exact hrun
  · constructor
    · intro hd
      obtain ⟨i, hi, rfl⟩ := List.mem_map.mp hd
      exact (h.mem i (h.sublist.subset hi)).mp hi
    · intro hd
      obtain ⟨k, hk, i, hi, rfl, hfor⟩ := hd.exists_instr hw hl
      have hin : f.ref k.id ∈ scanOrder w.module f.flow.domTree.children f.nest l :=
        (mem_scanOrder_iff hlinked hl (Module.length_le_blockCount hw.mem)).mpr hfor
      refine List.mem_map_of_mem ((h.mem i ?_).mpr hd)
      exact List.mem_flatMap.mpr ⟨_, hin, (instrsAt_ref hw hk).symm ▸ hi⟩
  · rw [hlinked.domTree_eq]
    exact h.sublist.trans ((scanOrder_sublist hlinked hl).flatMap _)
  · have hrises := hs.rises hw
    constructor
    · rintro hchanged rfl
      have hsame : g.blocks = f.blocks := h.blocks.trans (Gathers.start w f l pre.id).blocks.symm
      rw [hrises.eq_false hw.own hsame] at hchanged
      cases hchanged
    · intro hmoved
      by_contra hchanged
      have hsame : f.blocks.map (Block.gathered moved pre.id) = f.blocks.map id := by
        rw [← h.blocks, hrises.eq (Bool.eq_false_iff.mpr hchanged), List.map_id]
      have hinstrs := congrArg (fun k => k.instrs.length) (List.map_inj_left.mp hsame pre hpre.mem)
      have hlast := congrArg List.length (Block.dropLast_append_last pre)
      simp only [Block.gathered, if_pos, List.length_append, id_eq] at hinstrs hlast
      exact hmoved (List.length_eq_zero_iff.mp (by omega))

/-- A loop around another one. It divides in its header, and by the quotient in the block after the
inner loop, which the inner loop's block dominates. -/
def divisionsAroundInner : Func :=
  let x := Value.param ⟨"x", .int 32, 1⟩
  let choose (serial : Nat) (targets : List BlockId) : Instr :=
    { op := .condBr, operands := [.param ⟨"flag", .int 1, 0⟩], targets := targets.map (⟨0, ·⟩),
      id := ⟨0, serial⟩ }
  Func.record { Func.declare 0 "f" (.int 32) [("flag", .int 1), ("x", .int 32)] with
    blocks := [
      ⟨1, "", 0, [{ op := .br, targets := [⟨0, 2⟩], id := ⟨0, 0⟩ }]⟩,
      ⟨2, "", 0, [
        { op := .binary .sdiv, operands := [x, x], id := ⟨0, 1⟩ },
        { op := .br, targets := [⟨0, 3⟩], id := ⟨0, 2⟩ }]⟩,
      ⟨3, "", 0, [choose 3 [3, 4]]⟩,
      ⟨4, "", 0, [
        { op := .binary .srem, operands := [x, .instr ⟨0, 1⟩], id := ⟨0, 4⟩ },
        choose 5 [2, 5]]⟩,
      ⟨5, "", 0, [{ op := .ret, operands := [.instr ⟨0, 4⟩], id := ⟨0, 6⟩ }]⟩]
    maxBlock := 5
    nextSerial := 7 }

def divisionsAroundInnerWork : Work :=
  { module := { name := "", functions := [divisionsAroundInner] } }

theorem divisionsAroundInner_moves_least :
    ∃ nest l w₁ moved, divisionsAroundInnerWork.module.Consistent ∧
    divisionsAroundInner.Valid divisionsAroundInnerWork.module.isTerm ∧
      divisionsAroundInnerWork.module.loopNest divisionsAroundInner
        (divisionsAroundInnerWork.module.domTree divisionsAroundInner) = .ok nest ∧ l ∈ nest ∧
      l.header = ⟨0, 2⟩ ∧ divisionsAroundInnerWork.module.preheader? l = some ⟨0, 1⟩ ∧
      hoistLoop {} (divisionsAroundInnerWork.module.domTree divisionsAroundInner).children nest l
      divisionsAroundInnerWork = .ok true w₁ ∧
      moved.map Instr.id = [⟨0, 1⟩, ⟨0, 4⟩] ∧
      (∀ d, d ∈ moved.map Instr.id ↔ divisionsAroundInnerWork.Departs nest l d) ∧
      w₁.module =
      divisionsAroundInnerWork.module.update (divisionsAroundInner.gathered moved 1) := by
  let inner : Loop := ⟨⟨0, 3⟩, [⟨0, 3⟩], some ⟨0, 2⟩, 2⟩
  let outer : Loop := ⟨⟨0, 2⟩, [⟨0, 2⟩, ⟨0, 4⟩, ⟨0, 3⟩], none, 1⟩
  have hm : divisionsAroundInnerWork.module.Consistent := by decide
  have hcheck : divisionsAroundInner.isValid divisionsAroundInnerWork.module.isTerm = true := by cbv
  have hv : divisionsAroundInner.Valid divisionsAroundInnerWork.module.isTerm :=
    Func.valid_of_isValid hcheck
  have hnest : divisionsAroundInnerWork.module.loopNest divisionsAroundInner
      (divisionsAroundInnerWork.module.domTree divisionsAroundInner) = .ok [inner, outer] := by cbv
  have hpre : divisionsAroundInnerWork.module.preheader? outer = some ⟨0, 1⟩ := by cbv
  have hread : Edit.outcome?
      (hoistLoop {} (divisionsAroundInnerWork.module.domTree divisionsAroundInner).children
        [inner, outer] outer)
      divisionsAroundInnerWork
      (fun changed w₁ => (changed, (w₁.module.instrsAt ⟨0, 1⟩).map Instr.id)) =
        some (true, [⟨0, 1⟩, ⟨0, 4⟩, ⟨0, 0⟩]) := by cbv
  have hn := hm.own divisionsAroundInner List.mem_cons_self
  obtain ⟨_, hmoves⟩ := hoistLoop_moves_least {} divisionsAroundInnerWork divisionsAroundInner
    [inner, outer] outer hm rfl hv.linked hv.framed.ended
    (fun j hj k hk hr e he i hi hop hd => hv.uses_held hn hj hk hr he hi hop hd) hnest (by simp)
  obtain ⟨_, changed, w₁, moved, hrun, hdeparts, _, hmodule, _⟩ := hmoves _ hpre
  rw [Edit.outcome?_of_ok hrun, Option.some_inj, Prod.mk.injEq] at hread
  obtain ⟨rfl, hinstrs⟩ := hread
  have hlast :
      w₁.module.instrsAt ⟨0, 1⟩ = moved ++ [{ op := .br, targets := [⟨0, 2⟩], id := ⟨0, 0⟩ }] := by
    rw [hmodule]
    rfl
  rw [hlast, List.map_append] at hinstrs
  have hids : moved.map Instr.id = [⟨0, 1⟩, ⟨0, 4⟩] :=
    List.append_cancel_right
      (show moved.map Instr.id ++ [⟨0, 0⟩] = [⟨0, 1⟩, ⟨0, 4⟩] ++ [⟨0, 0⟩] from hinstrs)
  exact ⟨_, outer, w₁, moved, hm, hv, hnest, by simp, rfl, hpre, hrun, hids, hdeparts, hmodule⟩

/-- The loop of blocks 2 and 3, where block 3 leads to a block 2 of another function. Block 2 here
divides. -/
def foreignNamesake : Func :=
  let goto (serial : Nat) (target : BlockRef) : Instr :=
    { op := .br, targets := [target], id := ⟨1, serial⟩ }
  Func.record { Func.declare 1 "f" .void [] with
    blocks := [
      ⟨1, "", 1, [goto 0 ⟨1, 3⟩]⟩,
      ⟨2, "", 1, [
        { op := .binary .sdiv, operands := [.int ⟨32, 6⟩, .int ⟨32, 3⟩], id := ⟨1, 1⟩ },
        goto 2 ⟨1, 3⟩]⟩,
      ⟨3, "", 1, [goto 3 ⟨0, 2⟩]⟩]
    maxBlock := 3
    nextSerial := 4 }

def foreignNamesakeWork : Work :=
  let other := Func.record { Func.declare 0 "other" .void [] with
    blocks := [
      ⟨1, "", 0, [{ op := .ret, id := ⟨0, 0⟩ }]⟩,
      ⟨2, "", 0, [{ op := .ret, id := ⟨0, 1⟩ }]⟩]
    maxBlock := 2
    nextSerial := 2 }
  { module := { name := "", functions := [other, foreignNamesake] } }

/-- The walk over the loop comes to the block of the other function in place of the one that the
loop has, and the division stays. -/
theorem foreignNamesake_stays : ∃ nest l w₁ g, foreignNamesakeWork.module.Consistent ∧
    foreignNamesakeWork.module.func? 1 = some foreignNamesake ∧
    (∀ k ∈ foreignNamesake.blocks, k.term?.isSome) ∧ (∀ i ∈ foreignNamesake.instrs, i.reads = []) ∧
      foreignNamesakeWork.module.loopNest foreignNamesake
        (foreignNamesakeWork.module.domTree foreignNamesake) = .ok nest ∧ l ∈ nest ∧
      foreignNamesakeWork.module.preheader? l = some ⟨1, 1⟩ ∧
      foreignNamesakeWork.Departs nest l ⟨1, 1⟩ ∧
      hoistLoop {} (foreignNamesakeWork.module.domTree foreignNamesake).children nest l
        foreignNamesakeWork = .ok false w₁ ∧ w₁.module.func? 1 = some g ∧
          (g.blocks.map fun k => k.instrs.map Instr.id) =
          [[⟨1, 0⟩], [⟨1, 1⟩, ⟨1, 2⟩], [⟨1, 3⟩]] := by
  let l : Loop := ⟨⟨1, 3⟩, [⟨1, 3⟩, ⟨1, 2⟩], none, 1⟩
  have hrun : Edit.outcome? (hoistLoop {} (foreignNamesakeWork.module.domTree
      foreignNamesake).children [l] l) foreignNamesakeWork (fun changed w₁ =>
      (changed, (w₁.module.func? 1).map fun g => g.blocks.map fun k => k.instrs.map Instr.id)) =
        some (false, some [[⟨1, 0⟩], [⟨1, 1⟩, ⟨1, 2⟩], [⟨1, 3⟩]]) := by cbv
  obtain ⟨changed, w₁, hrun, hread⟩ := Edit.outcome?_eq_some_iff.mp hrun
  rw [Prod.mk.injEq] at hread
  obtain ⟨rfl, hread⟩ := hread
  obtain ⟨g, hg, hblocks⟩ := Option.map_eq_some_iff.mp hread
  let divides : Instr :=
    { op := .binary .sdiv, operands := [.int ⟨32, 6⟩, .int ⟨32, 3⟩], id := ⟨1, 1⟩ }
  have hdeparts : foreignNamesakeWork.Departs [l] l divides.id :=
    .intro (b := ⟨1, 2⟩) (by decide) rfl List.mem_cons_self rfl fun _ h => absurd h List.not_mem_nil
  exact ⟨[l], l, w₁, g, by decide, rfl, by decide, by decide, by cbv,
    List.mem_cons_self, by cbv, hdeparts, hrun, hg, hblocks⟩

end Work

end KernelIR
