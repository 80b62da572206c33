import KernelIR.Proofs.Modular
import KernelIR.Proofs.Ownership.Rearranging

namespace KernelIR

namespace Block

variable {i : Instr} {d : InstrId}

theorem label_without (k : Block) (d : InstrId) : (k.without d).label = k.label := rfl

theorem holds_without (hd : d ≠ i.id) (k : Block) : (k.without i.id).holds d = k.holds d := by
  rw [Bool.eq_iff_iff, holds_iff, holds_iff]
  constructor
  · rintro ⟨j, hj, rfl⟩
    exact ⟨j, List.mem_of_mem_filter hj, rfl⟩
  · rintro ⟨j, hj, rfl⟩
    exact ⟨j, List.mem_filter.mpr ⟨hj, decide_eq_true hd⟩, rfl⟩

theorem holds_insertLast (hd : d ≠ i.id) (k : Block) : (k.insertLast i).holds d = k.holds d := by
  have hmem : ∀ j, j ∈ (k.insertLast i).instrs ↔ j = i ∨ j ∈ k.instrs := fun j =>
    (perm_insertLast i k).mem_iff.trans List.mem_cons
  rw [Bool.eq_iff_iff, holds_iff, holds_iff]
  constructor
  · rintro ⟨j, hj, rfl⟩
    exact ⟨j, ((hmem j).mp hj).resolve_left fun he => hd (congrArg Instr.id he), rfl⟩
  · rintro ⟨j, hj, rfl⟩
    exact ⟨j, (hmem j).mpr (Or.inr hj), rfl⟩

end Block

namespace Func

variable {f : Func} {i : Instr} {k : Block} {dst : BlockRef}

/-- The function with one more loose instruction. -/
def withLoose (i : Instr) (f : Func) : Func := { f with loose := f.loose ++ [i] }

/-- It makes no difference whether the instruction was loose before. -/
theorem settling_withLoose (i : Instr) (dst : BlockRef) (f : Func) :
    (f.withLoose i).settling i dst = f.settling i dst := by
  have hloose : ((f.loose ++ [i]).filter fun j => j.id ≠ i.id) = f.loose.filter fun j =>
      j.id ≠ i.id := by simp
  exact congrArg (fun loose => { f.settling i dst with loose }) hloose

/-- Elsewhere nothing changes. -/
theorem Recorded.settling_eq_self (hf : f.Recorded) (h : ∀ j ∈ f.held, j.id ≠ i.id)
    (hdst : f.id ≠ dst.func) : f.settling i dst = f := by
  have hblocks : (f.blocks.map fun k =>
      if f.ref k.id = dst then (k.without i.id).insertLast i else k.without i.id) = f.blocks := by
    refine (List.map_congr_left fun k hk => ?_).trans (List.map_id' f.blocks)
    have hne : f.ref k.id ≠ dst := fun he => hdst (congrArg BlockRef.func he)
    rw [if_neg hne]
    exact Block.without_eq_self fun j hj => h j (mem_held_of_mem hk hj)
  have hloose : (f.loose.filter fun j => j.id ≠ i.id) = f.loose :=
    List.filter_eq_self.mpr fun j hj => decide_eq_true (h j (List.mem_append_right _ hj))
  have hparents := hf.filter_parents fun j hj => h j (List.mem_append_left _ hj)
  rw [settling, hblocks, hloose, hparents, if_neg hdst, List.nil_append]

/-- An instruction that is taken out of its function leaves a function that it does not go to. -/
theorem dropLoose_withdraw (hdst : f.id ≠ dst.func) :
    (f.withdraw i.id).dropLoose i.id = f.settling i dst := by
  have hne : ∀ k : Block, f.ref k.id ≠ dst := fun k he => hdst (congrArg BlockRef.func he)
  simp [dropLoose, withdraw, settling, hne, hdst, Block.without]

/-- A block ends in the instruction itself, which is gone before it is looked for. -/
theorem putBefore_of_gone (hk : f.block? dst.number = some k) (i : Instr) :
    putBefore i.id i.id dst.number (f.withdraw i.id) =
      .error (.notInBlock i.id k.label) (f.withdraw i.id) := by
  have hblock : (f.withdraw i.id).block? dst.number = some (k.without i.id) := by
    rw [block?_withdraw, hk, Option.map_some]
  have hgone : (k.without i.id).holds i.id = false := by simp [Block.holds, Block.without]
  have hlabel : (f.withdraw i.id).label dst.number = k.label := by
    rw [label, hblock]
    exact k.label_without i.id
  simp only [putBefore, hblock, Option.any_some, hgone, Bool.false_eq_true, if_false, hlabel]

end Func

namespace Module

variable {m : Module} {f g : Func} {i t : Instr} {d : InstrId} {k : Block} {dst : BlockRef}
  {F : Func → Func}

theorem update_eq_replace (hm : m.Distinct) (hf : f ∈ m.known) (hid : (F f).id = f.id)
    (hother : ∀ x ∈ m.known, x.id ≠ f.id → F x = x) : m.update (F f) = m.replace F := by
  have hput : m.update (F f) = m.replace fun x => if x.id = (F f).id then F f else x := rfl
  rw [hput]
  refine replace_congr fun x hx => ?_
  rw [hid]
  by_cases hxf : x.id = f.id
  · rw [if_pos hxf, List.inj_on_of_nodup_map hm.funcs hx hf hxf]
  · rw [if_neg hxf, hother x hx hxf]

theorem update_update_eq_replace (hm : m.Distinct) (hf : f ∈ m.known) (hg : g ∈ m.known)
    (hid : ∀ x, (F x).id = x.id) (hother : ∀ x ∈ m.known, x.id ≠ f.id → x.id ≠ g.id → F x = x) :
    (m.update (F f)).update (F g) = m.replace F := by
  have hput : (m.update (F f)).update (F g) =
      (m.update (F f)).replace fun x => if x.id = (F g).id then F g else x := rfl
  rw [hput, replace_update]
  refine replace_congr fun x hx => ?_
  simp only [hid]
  by_cases hxf : x.id = f.id
  · cases List.inj_on_of_nodup_map hm.funcs hx hf hxf
    rw [if_pos rfl, hid]
    split
    · next hxg => rw [List.inj_on_of_nodup_map hm.funcs hx hg hxg]
    · rfl
  · rw [if_neg hxf]
    split
    · next hxg => rw [List.inj_on_of_nodup_map hm.funcs hx hg hxg]
    · next hxg => rw [hother x hx hxf hxg]

/-- The functions that are involved in a move: the one that holds the instruction, and the one it
goes to. -/
theorem Distinct.involved (hm : m.Distinct) (hi : i ∈ m.held) (hk : m.block? dst = some k) :
    ∃ f ∈ m.known, i ∈ f.held ∧
      ∃ g ∈ m.known, g.id = dst.func ∧ g.block? dst.number = some k := by
  obtain ⟨f, hf, hif⟩ := mem_held.mp hi
  obtain ⟨g, hg, hk⟩ := Option.bind_eq_some_iff.mp hk
  obtain ⟨hgm, hid⟩ := hm.func?_iff.mp hg
  exact ⟨f, hf, hif, g, hgm, hid, hk⟩

/-- Without a terminator to stand before, nothing is changed. -/
theorem moveBeforeTerm_of_open (hk : m.block? dst = some k) (hterm : k.term? = none) :
    moveBeforeTerm d dst m = .error (.noTerminator k.label) m := by
  have hlabel : m.label dst = k.label := by
    obtain ⟨g, hg, hblock⟩ := Option.bind_eq_some_iff.mp hk
    simp only [label, hg, Func.label, hblock]
  rw [moveBeforeTerm, hk, Option.bind_some, hterm, hlabel]

theorem Distinct.withdraw (hm : m.Distinct) (hf : f ∈ m.known) (d : InstrId) :
    (m.update (f.withdraw d)).Distinct :=
  (shuffles_update hm hf (Func.shuffles_withdraw f d)).distinct hm

theorem mem_known_withdraw (hf : f ∈ m.known) (d : InstrId) :
    f.withdraw d ∈ (m.update (f.withdraw d)).known :=
  (mem_known_update (g := f.withdraw d) hf rfl).mpr (Or.inl rfl)

/-- In its own function an instruction that was taken out is put before another one. -/
theorem putBefore_of_own (hm : m.Distinct) (hf : f ∈ m.known) (hif : i ∈ f.held)
    (hid : f.id = dst.func) (pos : InstrId) :
    putBefore i.id pos dst (m.update (f.withdraw i.id)) =
      edit f.id (Func.putBefore i.id pos dst.number) (m.update (f.withdraw i.id)) := by
  have hm₁ := hm.withdraw hf i.id
  have hf₁ := mem_known_withdraw hf i.id
  have hif₁ : i ∈ (f.withdraw i.id).held := (Func.perm_held_withdraw f i.id).mem_iff.mpr hif
  have hstays := handOver_of_holder (hm₁.holder?_of_mem hf₁ hif₁) (hm₁.func?_iff.mpr ⟨hf₁, rfl⟩)
  have hdst : (f.withdraw i.id).id = dst.func := hid
  rw [hdst] at hstays
  rw [putBefore, hstays, hid]

/-- The terminator of the block itself ends up loose. -/
theorem moveBeforeTerm_of_term (hm : m.Distinct) (hk : m.block? dst = some k)
    (hterm : k.term? = some i) : moveBeforeTerm i.id dst m =
      .error (.notInBlock i.id k.label) (m.replace fun x => x.withdraw i.id) := by
  obtain ⟨f, hf, hkf, hdst⟩ := hm.block?_iff.mp hk
  obtain ⟨front, hfront⟩ := Block.exists_front hterm
  have hif : i ∈ f.held := Func.mem_held_of_mem hkf (by simp [hfront])
  have hblock : f.block? dst.number = some k := by
    rw [hdst]
    exact (find?_key_iff (hm.blocks f hf)).mpr ⟨hkf, rfl⟩
  have hm₁ := hm.withdraw hf i.id
  have hf₁ := mem_known_withdraw hf i.id
  have hedit := edit_of_error (hm₁.func?_iff.mpr ⟨hf₁, rfl⟩) (Func.putBefore_of_gone hblock i)
  have hother : ∀ x ∈ m.known, x.id ≠ f.id → x.withdraw i.id = x := fun x hx hne =>
    (hm.recorded x hx).withdraw_eq_self fun j hj =>
      hm.apart hx hf hne (List.mem_append_left _ hj) hif
  rw [update_self hm₁.funcs hf₁] at hedit
  rw [moveBeforeTerm_of_release hk hterm (hm.release_eq hf hif),
    putBefore_of_own hm hf hif (congrArg BlockRef.func hdst).symm,
    ← update_eq_replace (F := fun x => x.withdraw i.id) hm hf rfl hother]
  exact hedit

/-- Taken out and handed over, an instruction is gone from its function and loose in the other
one. -/
theorem handOver_withdraw (hm : m.Distinct) (hf : f ∈ m.known) (hif : i ∈ f.held)
    (hg : g ∈ m.known) (hid : g.id = dst.func) (hne : f.id ≠ g.id) :
    (m.update (f.withdraw i.id)).handOver i.id dst.func =
      (m.update (f.settling i dst)).update (g.withLoose i) := by
  have hm₁ := hm.withdraw hf i.id
  have hf₁ := mem_known_withdraw hf i.id
  have hif₁ : i ∈ (f.withdraw i.id).held := (Func.perm_held_withdraw f i.id).mem_iff.mpr hif
  have hg₁ : g ∈ (m.update (f.withdraw i.id)).known :=
    (mem_known_update (g := f.withdraw i.id) hf rfl).mpr (Or.inr ⟨hg, fun he => hne he.symm⟩)
  have hfunc : (m.update (f.withdraw i.id)).func? dst.func = some g :=
    hm₁.func?_iff.mpr ⟨hg₁, hid⟩
  have hne₁ : (f.withdraw i.id).id ≠ g.id := hne
  have hdrop : ((f.withdraw i.id).dropLoose i.id).id = (f.withdraw i.id).id := rfl
  simp only [handOver, hm₁.holder?_of_mem hf₁ hif₁, hfunc,
    Func.looseInstr?_withdraw (hm.own hf) hif, if_neg hne₁]
  rw [update_update m hdrop, Func.dropLoose_withdraw (hid ▸ hne)]
  rfl

/-- An instruction of another function is taken out there and handed over before it settles. -/
theorem putBefore_of_foreign (hm : m.Distinct) (hf : f ∈ m.known) (hif : i ∈ f.held)
    (hg : g ∈ m.known) (hid : g.id = dst.func) (hne : f.id ≠ g.id)
    (hk : g.block? dst.number = some k) (hterm : k.term? = some t) (hti : t.id ≠ i.id) :
    putBefore i.id t.id dst (m.update (f.withdraw i.id)) =
      .ok () ((m.update (f.settling i dst)).update (g.settling i dst)) := by
  have hover := handOver_withdraw hm hf hif hg hid hne
  have hm₁ := hm.withdraw hf i.id
  have hm₂ : ((m.update (f.settling i dst)).update (g.withLoose i)).Distinct :=
    hover ▸ (shuffles_handOver hm₁ i.id dst.func).distinct hm₁
  have hg₂ : g.withLoose i ∈ ((m.update (f.settling i dst)).update (g.withLoose i)).known := by
    have hmem : g ∈ (m.update (f.settling i dst)).known :=
      (mem_known_update (g := f.settling i dst) hf rfl).mpr (Or.inr ⟨hg, fun he => hne he.symm⟩)
    exact (mem_known_update (g := g.withLoose i) hmem rfl).mpr (Or.inl rfl)
  have hi₂ : i ∈ (g.withLoose i).held :=
    List.mem_append_right _ (List.mem_append_right _ (List.mem_singleton_self i))
  -- in the other function it settles like an instruction that was taken out there
  have hstill : (g.withLoose i).withdraw i.id = g.withLoose i :=
    (hm₂.recorded _ hg₂).withdraw_eq_self fun j hj =>
      hm.apart hg hf hne.symm (List.mem_append_left _ hj) hif
  have hput := Func.putBefore_withdraw (hm₂.own hg₂) hk (hm₂.blocks _ hg₂) hid hi₂ hterm hti
  rw [hstill, Func.settling_withLoose] at hput
  have hedit := edit_of_ok (hm₂.func?_iff.mpr ⟨hg₂, rfl⟩) hput
  have hsame : (g.settling i dst).id = (g.withLoose i).id := rfl
  have hdst : (g.withLoose i).id = dst.func := hid
  rw [update_update _ hsame, hdst] at hedit
  rw [putBefore, hover]
  exact hedit

/-- Any other instruction settles, wherever it comes from. -/
theorem moveBeforeTerm_of_ne (hm : m.Distinct) (hi : i ∈ m.held) (hk : m.block? dst = some k)
    (hterm : k.term? = some t) (hne : t.id ≠ i.id) :
    moveBeforeTerm i.id dst m = .ok () (m.replace (Func.settling i dst)) := by
  obtain ⟨f, hf, hif, g, hg, hid, hblock⟩ := hm.involved hi hk
  have hother : ∀ x ∈ m.known, x.id ≠ f.id → x.id ≠ g.id → x.settling i dst = x :=
    fun x hx hxf hxg => (hm.recorded x hx).settling_eq_self
      (fun j hj => hm.apart hx hf hxf hj hif) (hid ▸ hxg)
  rw [moveBeforeTerm_of_release hk hterm (hm.release_eq hf hif)]
  by_cases hfg : f.id = g.id
  · cases List.inj_on_of_nodup_map hm.funcs hf hg hfg
    have hput := Func.putBefore_withdraw (hm.own hf) hblock (hm.blocks f hf) hid hif hterm hne
    have hedit := edit_of_ok ((hm.withdraw hf i.id).func?_iff.mpr
      ⟨mem_known_withdraw hf i.id, rfl⟩) hput
    have hsame : (f.settling i dst).id = (f.withdraw i.id).id := rfl
    rw [update_update m hsame,
      update_eq_replace hm hf rfl fun x hx hxf => hother x hx hxf hxf] at hedit
    rw [putBefore_of_own hm hf hif hid]
    exact hedit
  · rw [putBefore_of_foreign hm hf hif hg hid hfg hblock hterm hne,
      update_update_eq_replace (F := Func.settling i dst) hm hf hg (fun _ => rfl) hother]

theorem func?_replace (hF : ∀ x, (F x).id = x.id) (id : FuncId) :
    (m.replace F).func? id = (m.func? id).map F := by
  have hknown : (m.replace F).known = m.known.map F := by simp [known, replace]
  have hkey : (fun x : Func => decide (x.id = id)) ∘ F = fun x => decide (x.id = id) := by
    funext x
    simp [hF]
  rw [func?, func?, hknown, List.find?_map, hkey]

/-- Each block is changed for itself. -/
theorem block?_replace {G : BlockRef → Block → Block} (hF : ∀ x, (F x).id = x.id)
    (hblocks : ∀ x, (F x).blocks = x.blocks.map fun k => G (x.ref k.id) k)
    (hG : ∀ b k, (G b k).id = k.id) (b : BlockRef) :
    (m.replace F).block? b = (m.block? b).map (G b) := by
  rw [block?, block?, func?_replace hF]
  cases hx : m.func? b.func with
  | none => rfl
  | some x =>
    have hid : x.id = b.func := by simpa using List.find?_some hx
    have hkey : ((fun k : Block => decide (k.id = b.number)) ∘ fun k => G (x.ref k.id) k) =
        fun k => decide (k.id = b.number) := by
      funext k
      simp [hG]
    rw [Option.map_some, Option.bind_some, Option.bind_some, Func.block?, Func.block?, hblocks,
      List.find?_map, hkey]
    cases hk : x.blocks.find? fun k => decide (k.id = b.number) with
    | none => rfl
    | some k =>
      have hnumber : k.id = b.number := by simpa using List.find?_some hk
      have href : x.ref k.id = b := by rw [Func.ref, hid, hnumber]
      rw [Option.map_some, Option.map_some, href]

theorem block?_settling (m : Module) (i : Instr) (dst b : BlockRef) :
    (m.replace (Func.settling i dst)).block? b = (m.block? b).map fun k =>
      if b = dst then (k.without i.id).insertLast i else k.without i.id := by
  refine block?_replace (F := Func.settling i dst)
    (G := fun b k => if b = dst then (k.without i.id).insertLast i else k.without i.id)
    (fun _ => rfl) (fun _ => rfl) (fun b k => ?_) b
  split
  · rfl
  · rfl

theorem block?_withdraw (m : Module) (d : InstrId) (b : BlockRef) :
    (m.replace fun x => x.withdraw d).block? b = (m.block? b).map (Block.without d) :=
  block?_replace (F := fun x => x.withdraw d) (G := fun _ => Block.without d) (fun _ => rfl)
    (fun _ => rfl) (fun _ _ => rfl) b

/-- An instruction that stays in its block keeps its owner. -/
theorem owner?_of_blocks {m' : Module} {G : BlockRef → Block → Block} (hm : m.Distinct)
    (hm' : m'.Distinct) (hblocks : ∀ b, m'.block? b = (m.block? b).map (G b))
    (hG : ∀ b k, (G b k).holds d = k.holds d) :
    m'.owner? d = m.owner? d := by
  ext b
  rw [hm'.owner?_iff, hm.owner?_iff, hblocks]
  simp only [Option.map_eq_some_iff]
  constructor
  · rintro ⟨_, ⟨k, hk, rfl⟩, hd⟩
    exact ⟨k, hk, hG b k ▸ hd⟩
  · rintro ⟨k, hk, hd⟩
    exact ⟨_, ⟨k, hk, rfl⟩, (hG b k).trans hd⟩

/-- What a move leaves, if it takes place: the instruction stands right before the terminator of its
new block, and every other instruction stands where it stood, in the same order. -/
structure Settles (m m' : Module) (i t : Instr) (dst : BlockRef) (k : Block) : Prop where
  shuffles : m.Shuffles m'
  owner : m'.owner? i.id = some dst
  placed : ∃ front, (k.instrs.filter fun j => j.id ≠ i.id) = front ++ [t] ∧
    m'.block? dst = some { k with instrs := front ++ [i, t] }
  left : ∀ b ≠ dst, m'.block? b = (m.block? b).map fun k =>
    { k with instrs := k.instrs.filter fun j => j.id ≠ i.id }
  others : ∀ d ≠ i.id, m'.owner? d = m.owner? d

/-- What a move leaves if it fails halfway: the instruction has no block any more. -/
structure Strays (m m' : Module) (i : Instr) (dst : BlockRef) (k : Block) : Prop where
  shuffles : m.Shuffles m'
  owner : m.owner? i.id = some dst
  loose : m'.owner? i.id = none
  left : m'.block? dst = some { k with instrs := k.instrs.dropLast }
  others : ∀ b ≠ dst, m'.block? b = m.block? b

theorem settles_replace (hm : m.Distinct) (hi : i ∈ m.held) (hk : m.block? dst = some k)
    (hterm : k.term? = some t) (hne : t.id ≠ i.id) :
    m.Settles (m.replace (Func.settling i dst)) i t dst k := by
  obtain ⟨front, hfront⟩ := Block.exists_front hterm
  have hrest := Block.without_eq_append hfront hne
  have hshuffles : m.Shuffles (m.replace (Func.settling i dst)) := by
    have hafter := shuffles_moveBeforeTerm hm i.id dst
    rwa [Edit.after_of_ok (moveBeforeTerm_of_ne hm hi hk hterm hne)] at hafter
  have hplaced :
      (m.replace (Func.settling i dst)).block? dst = some ((k.without i.id).insertLast i) := by
    rw [block?_settling, hk, Option.map_some, if_pos rfl]
  have hm' := hshuffles.distinct hm
  refine ⟨hshuffles, ?_, ⟨_, hrest, ?_⟩, fun b hb => ?_, fun d hd => ?_⟩
  · refine hm'.owner?_iff.mpr ⟨_, hplaced, Block.holds_iff.mpr ⟨i, ?_, rfl⟩⟩
    simp [Block.insertLast]
  · rw [hplaced, ← Block.instrs_insertLast hrest]
    rfl
  · rw [block?_settling]
    simp only [if_neg hb]
    rfl
  · refine owner?_of_blocks hm hm' (block?_settling m i dst) fun b k => ?_
    split
    · rw [Block.holds_insertLast hd, Block.holds_without hd]
    · rw [Block.holds_without hd]

theorem strays_replace (hm : m.Distinct) (hk : m.block? dst = some k) (hterm : k.term? = some i) :
    m.Strays (m.replace fun x => x.withdraw i.id) i dst k := by
  obtain ⟨front, hfront⟩ := Block.exists_front hterm
  have hshuffles : m.Shuffles (m.replace fun x => x.withdraw i.id) := by
    have hafter := shuffles_moveBeforeTerm hm i.id dst
    rwa [Edit.after_of_error (moveBeforeTerm_of_term hm hk hterm)] at hafter
  have howner : m.owner? i.id = some dst :=
    hm.owner?_iff.mpr ⟨k, hk, Block.holds_iff.mpr ⟨i, by simp [hfront], rfl⟩⟩
  refine ⟨hshuffles, howner, ?_, ?_, fun b hb => ?_⟩
  · rw [Option.eq_none_iff_forall_ne_some]
    intro b hb
    obtain ⟨k', hk', hd⟩ := (hshuffles.distinct hm).owner?_iff.mp hb
    rw [block?_withdraw, Option.map_eq_some_iff] at hk'
    obtain ⟨k, -, rfl⟩ := hk'
    simp [Block.holds, Block.without] at hd
  · obtain ⟨f, hf, hkf, -⟩ := hm.block?_iff.mp hk
    have hnodup := Func.nodup_block (hm.own hf) hkf
    rw [hfront, List.map_append, List.nodup_append] at hnodup
    have hkeep : (front.filter fun j => j.id ≠ i.id) = front := List.filter_eq_self.mpr fun j hj =>
      decide_eq_true (hnodup.2.2 j.id (List.mem_map_of_mem hj) i.id (by simp))
    have hinstrs : (k.without i.id).instrs = k.instrs.dropLast := by
      rw [Block.without, hfront, List.filter_append, hkeep]
      simp
    rw [block?_withdraw, hk, Option.map_some, ← hinstrs]
    rfl
  · rw [block?_withdraw]
    cases hb' : m.block? b with
    | none => rfl
    | some k' =>
      rw [Option.map_some, Block.without_eq_self]
      intro j hj he
      have hother := hm.owner?_iff.mpr ⟨k', hb', Block.holds_iff.mpr ⟨j, hj, he⟩⟩
      exact hb (Option.some.inj (hother.symm.trans howner))

/-- A move of any instruction, in a block or loose, to any block takes place as a whole if the block
ends in a terminator other than the instruction, and changes nothing if it does not end in a
terminator. The terminator itself is taken out of the block before the move fails, and is in no
block afterwards. -/
theorem moveBeforeTerm_settles_or_strays (m : Module) (hm : m.Distinct) {i : Instr}
    (hi : i ∈ m.held) {dst : BlockRef} {k : Block} (hk : m.block? dst = some k) :
    (k.term? = none → moveBeforeTerm i.id dst m = .error (.noTerminator k.label) m) ∧
    (∀ t, k.term? = some t → t ≠ i →
    ∃ m', moveBeforeTerm i.id dst m = .ok () m' ∧ m.Settles m' i t dst k) ∧ (k.term? = some i →
      ∃ m', moveBeforeTerm i.id dst m = .error (.notInBlock i.id k.label) m' ∧
        m.Strays m' i dst k) := by
  refine ⟨moveBeforeTerm_of_open hk, fun t hterm hne => ?_, fun hterm => ?_⟩
  · have hid : t.id ≠ i.id := by
      obtain ⟨f, hf, hkf, -⟩ := hm.block?_iff.mp hk
      obtain ⟨front, hfront⟩ := Block.exists_front hterm
      have htm : t ∈ m.held := mem_held.mpr ⟨f, hf, Func.mem_held_of_mem hkf (by simp [hfront])⟩
      exact fun he => hne (List.inj_on_of_nodup_map hm.instrs htm hi he)
    exact ⟨_, moveBeforeTerm_of_ne hm hi hk hterm hid, settles_replace hm hi hk hterm hid⟩
  · exact ⟨_, moveBeforeTerm_of_term hm hk hterm, strays_replace hm hk hterm⟩

/-- Two functions; the first has a block that is still open, and a loose instruction. -/
def openBlockAndLoose : Module where
  name := "bench"
  functions := [
    Func.record { Func.declare 0 "f" .void [] with
      blocks := [
        ⟨1, "src", 0, [{ op := .binary .mul, name := "x", ty := .i32, id := ⟨0, 0⟩ },
          { op := .br, targets := [⟨0, 2⟩], id := ⟨0, 1⟩ }]⟩,
        ⟨2, "dst", 0, [{ op := .ret, id := ⟨0, 2⟩ }]⟩,
        ⟨3, "open", 0, []⟩]
      loose := [{ op := .binary .add, name := "y", ty := .i32, id := ⟨0, 3⟩ }]
      maxBlock := 3, nextSerial := 4 },
    Func.record { Func.declare 1 "g" .void [] with
      blocks := [⟨1, "far", 1, [{ op := .ret, id := ⟨1, 0⟩ }]⟩], maxBlock := 1, nextSerial := 1 }]

theorem openBlockAndLoose_distinct : openBlockAndLoose.Distinct :=
  ⟨by decide, by decide, by decide, by decide⟩

/-- An instruction goes to the other function, a loose one into a block, and none into the open
block. -/
theorem openBlockAndLoose_settles :
    (∃ m', moveBeforeTerm ⟨0, 0⟩ ⟨1, 1⟩ openBlockAndLoose = .ok () m' ∧
      m'.owner? ⟨0, 0⟩ = some ⟨1, 1⟩ ∧ m'.owner? ⟨0, 1⟩ = some ⟨0, 1⟩) ∧
    (∃ m', moveBeforeTerm ⟨0, 3⟩ ⟨0, 2⟩ openBlockAndLoose = .ok () m' ∧
      m'.owner? ⟨0, 3⟩ = some ⟨0, 2⟩) ∧
    moveBeforeTerm ⟨0, 0⟩ ⟨0, 3⟩ openBlockAndLoose =
    .error (.noTerminator "open") openBlockAndLoose := by
  let x : Instr := { op := .binary .mul, name := "x", ty := .i32, id := ⟨0, 0⟩ }
  let y : Instr := { op := .binary .add, name := "y", ty := .i32, id := ⟨0, 3⟩ }
  have hx : x ∈ openBlockAndLoose.held := .head _
  have hy : y ∈ openBlockAndLoose.held := .tail _ (.tail _ (.tail _ (.head _)))
  have hfar :
      openBlockAndLoose.block? ⟨1, 1⟩ = some ⟨1, "far", 1, [{ op := .ret, id := ⟨1, 0⟩ }]⟩ := rfl
  have hdst :
      openBlockAndLoose.block? ⟨0, 2⟩ = some ⟨2, "dst", 0, [{ op := .ret, id := ⟨0, 2⟩ }]⟩ := rfl
  have hopen : openBlockAndLoose.block? ⟨0, 3⟩ = some ⟨3, "open", 0, []⟩ := rfl
  refine ⟨?_, ?_, ?_⟩
  · obtain ⟨-, hsettles, -⟩ :=
      moveBeforeTerm_settles_or_strays openBlockAndLoose openBlockAndLoose_distinct hx hfar
    obtain ⟨m', hrun, heffect⟩ := hsettles _ rfl fun he => absurd (congrArg Instr.id he) (by decide)
    exact ⟨m', hrun, heffect.owner, heffect.others ⟨0, 1⟩ (by decide)⟩
  · obtain ⟨-, hsettles, -⟩ :=
      moveBeforeTerm_settles_or_strays openBlockAndLoose openBlockAndLoose_distinct hy hdst
    obtain ⟨m', hrun, heffect⟩ := hsettles _ rfl fun he => absurd (congrArg Instr.id he) (by decide)
    exact ⟨m', hrun, heffect.owner⟩
  · exact (moveBeforeTerm_settles_or_strays openBlockAndLoose openBlockAndLoose_distinct hx hopen).1
      rfl

/-- The terminator of a block that is moved to the end of the same block is lost to it, though the
move fails. -/
theorem openBlockAndLoose_loses_terminator : openBlockAndLoose.Distinct ∧ ∃ x m',
    moveBeforeTerm ⟨0, 1⟩ ⟨0, 1⟩ openBlockAndLoose = .error x m' ∧
    openBlockAndLoose.owner? ⟨0, 1⟩ = some ⟨0, 1⟩ ∧
      m'.owner? ⟨0, 1⟩ = none ∧ (m'.block? ⟨0, 1⟩).map (fun k => k.instrs.map Instr.id) =
      some [⟨0, 0⟩] :=
  ⟨openBlockAndLoose_distinct, _, _, rfl, rfl, rfl, rfl⟩

end Module

end KernelIR
