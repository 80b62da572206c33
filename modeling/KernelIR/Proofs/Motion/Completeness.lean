import KernelIR.Proofs.Motion.Frame
import KernelIR.Proofs.Walks

namespace KernelIR

/-- What stands before the terminator of a block comes before an instruction put there. -/
theorem Func.Relocates.precedes_dst {f : Func} {i e : Instr} {src dst : Block}
    (h : f.Relocates i src dst) (hf : f.Framed) (hn : (f.held.map Instr.id).Nodup)
    (he : e ∈ dst.instrs) (hop : e.op.isTerminator = false) :
    (dst.moved i dst.id).Precedes e.id i.id := by
  rcases h.moved_cases hf hn h.dst_mem with ⟨hsrc, _⟩ | ⟨_, a, t, hold, ht, hnew, _⟩ | ⟨_, hdst, _⟩
  · exact absurd hsrc h.ne
  · have hea : e ∈ a := by
      rw [hold] at he
      refine (List.mem_append.mp he).resolve_right fun het => ?_
      rw [List.mem_singleton.mp het, ht] at hop
      cases hop
    rw [Block.Precedes, hnew, List.map_append]
    exact List.Sublist.append (List.singleton_sublist.mpr (List.mem_map_of_mem hea))
      (List.singleton_sublist.mpr List.mem_cons_self)
  · exact absurd rfl hdst

/-- An instruction does not come before one that it stands after. -/
theorem Block.not_precedes {k : Block} {i e : Instr} {done rest : List Instr}
    (hn : (k.instrs.map Instr.id).Nodup)
    (hk : k.instrs = done ++ i :: rest) (he : e ∈ rest) : ¬k.Precedes e.id i.id := by
  obtain ⟨xs, ys, rfl⟩ := List.append_of_mem he
  have hsplit : k.instrs.map Instr.id = (done ++ i :: xs).map Instr.id ++
      e.id :: ys.map Instr.id := by simp [hk]
  rw [Precedes, hsplit]
  rw [hsplit] at hn
  exact not_sublist_of_before hn (List.mem_map_of_mem (by simp))

namespace Func

/-- Whether the instructions with a property come after those among them that they read, as far as
both can be reached. -/
def Ordered (f : Func) (P : Instr → Prop) : Prop :=
  ∀ j ∈ f.blocks, ∀ k ∈ f.blocks, f.Reaches (f.ref j.id) → f.Reaches (f.ref k.id) →
    ∀ e ∈ j.instrs, ∀ i ∈ k.instrs, P e → P i → e.id ∈ i.reads →
      (j = k ∧ k.Precedes e.id i.id) ∨ f.StrictlyDominates (f.ref j.id) (f.ref k.id)

/-- Whether the instructions with a property that stand in a loop, but in none inside it, have to
stay there: each reads one of the loop that has to stay. Says nothing about those that are still
pending. -/
def Settled (f : Func) (P : Instr → Prop) (l : Loop) (pending : Instr → Prop) : Prop :=
  ∀ k ∈ f.blocks, f.nest.loopFor? (f.ref k.id) = some l → ∀ x ∈ k.instrs, P x → ¬pending x →
    ∃ j ∈ f.blocks, f.ref j.id ∈ l.body ∧ ∃ e ∈ j.instrs, e.id ∈ x.reads ∧ ¬(P e ∧ pending e)

/-- The instructions still to be looked at: those given, and those of the blocks to come. -/
def Pending (f : Func) (is : List Instr) (bs : List BlockRef) (x : Instr) : Prop :=
  x ∈ is ∨ ∃ k ∈ f.blocks, f.ref k.id ∈ bs ∧ x ∈ k.instrs

variable {f : Func} {P pending pending' : Instr → Prop} {l : Loop} {i x : Instr} {src dst : Block}
  {is : List Instr} {bs : List BlockRef}

theorem pending_enter (hf : f.Linked) (hsrc : src ∈ f.blocks) :
    f.Pending [] (f.ref src.id :: bs) x ↔ f.Pending src.instrs bs x := by
  constructor
  · rintro (hx | ⟨k, hk, href, hx⟩)
    · exact absurd hx List.not_mem_nil
    · rcases List.mem_cons.mp href with he | hbs
      · have hks : k = src := hf.block_unique hk hsrc (congrArg BlockRef.number he)
        exact Or.inl (hks ▸ hx)
      · exact Or.inr ⟨k, hk, hbs, hx⟩
  · rintro (hx | ⟨k, hk, hbs, hx⟩)
    · exact Or.inr ⟨src, hsrc, List.mem_cons_self, hx⟩
    · exact Or.inr ⟨k, hk, List.mem_cons_of_mem _ hbs, hx⟩

/-- Fewer instructions are pending. What no longer is has to stay. -/
theorem Settled.shrink (h : f.Settled P l pending) (hle : ∀ x, pending' x → pending x)
    (hnew : ∀ x, P x → pending x → ¬pending' x →
      ∃ j ∈ f.blocks, f.ref j.id ∈ l.body ∧ ∃ e ∈ j.instrs, e.id ∈ x.reads ∧ ¬(P e ∧ pending' e)) :
    f.Settled P l pending' := by
  intro k hk hfor x hx hP hx'
  by_cases hpend : pending x
  · exact hnew x hP hpend hx'
  · obtain ⟨j, hj, hbody, e, he, hread, hstay⟩ := h k hk hfor x hx hP hpend
    exact ⟨j, hj, hbody, e, he, hread, fun hboth => hstay ⟨hboth.1, hle e hboth.2⟩⟩

/-- What an instruction reads is not still to come when it is looked at. -/
theorem Ordered.not_pending {e : Instr} {j k : Block} {done : List Instr} (h : f.Ordered P)
    (hn : (f.held.map Instr.id).Nodup) (hj : j ∈ f.blocks) (hk : k ∈ f.blocks)
    (hjr : f.Reaches (f.ref j.id))
    (hkr : f.Reaches (f.ref k.id)) (he : e ∈ j.instrs) (hinstrs : k.instrs = done ++ i :: is)
    (hPe : P e) (hPi : P i)
    (hread : e.id ∈ i.reads) (hbs : ∀ b ∈ bs, ¬f.Dominates b (f.ref k.id)) :
    ¬f.Pending (i :: is) bs e := by
  have hdom := h j hj k hk hjr hkr e he i (by simp [hinstrs]) hPe hPi hread
  have hold : j.holds e.id = true := Block.holds_iff.mpr ⟨e, he, rfl⟩
  rintro (hrest | ⟨b, hb, hbb, heb⟩)
  · have hek : e ∈ k.instrs := by
      rw [hinstrs]
      exact List.mem_append_right _ hrest
    have hjk : j = k := holder_unique hn hj hk hold (Block.holds_iff.mpr ⟨e, hek, rfl⟩)
    rcases hdom with ⟨_, hprec⟩ | hdom
    · rcases List.mem_cons.mp hrest with rfl | hrest
      · exact List.nodup_iff_sublist.mp (nodup_block hn hk) e.id hprec
      · exact Block.not_precedes (nodup_block hn hk) hinstrs hrest hprec
    · exact hdom.1 (by rw [hjk])
  · rw [← holder_unique hn hj hb hold (Block.holds_iff.mpr ⟨e, heb, rfl⟩)] at hbb
    rcases hdom with ⟨hjk, _⟩ | hdom
    · exact hbs _ hbb (hjk ▸ Dominates.refl _)
    · exact hbs _ hbb hdom.2

section Moved

variable (hf : f.Framed) (hn : (f.held.map Instr.id).Nodup) (hrel : f.Relocates i src dst)

include hf hn hrel

/-- A move away from where it matters: the instruction does not come to the loop's own blocks, and
in the loop it was pending. -/
theorem Settled.moved (h : f.Settled P l pending) (hdst : f.nest.loopFor? (f.ref dst.id) ≠ some l)
    (hsrc : f.ref src.id ∈ l.body → P i ∧ pending i)
    (hsame : ∀ x, x.id ≠ i.id → (pending' x ↔ pending x)) :
    (f.moved i dst.id).Settled P l pending' := by
  intro k' hk' hfor x hx hP hpend
  rw [nest_of_flow (hrel.flow_moved hf hn)] at hfor
  rw [blocks_moved] at hk'
  obtain ⟨k, hk, rfl⟩ := List.mem_map.mp hk'
  rw [Block.id_moved, ref_moved] at hfor
  rcases (hrel.mem_moved hf hn hk).mp hx with ⟨hxk, hxi⟩ | ⟨rfl, rfl⟩
  · obtain ⟨j, hj, hbody, e, he, hread, hstay⟩ :=
      h k hk hfor x hxk hP fun hpx => hpend ((hsame x hxi).mpr hpx)
    have hei : e.id ≠ i.id := by
      intro heq
      have hei : e = i :=
        List.inj_on_of_nodup_map hn (mem_held_of_mem hj he)
          (mem_held_of_mem hrel.src_mem hrel.mem) heq
      have hjs : j = src := hrel.eq_src hn hj (Block.holds_iff.mpr ⟨e, he, heq⟩)
      exact hstay (hei ▸ hsrc (hjs ▸ hbody))
    refine ⟨j.moved i dst.id, mem_blocks_moved i dst.id hj, ?_, e, ?_, hread, ?_⟩
    · rwa [Block.id_moved, ref_moved]
    · exact (hrel.mem_moved hf hn hj).mpr (Or.inl ⟨he, hei⟩)
    · exact fun hboth => hstay ⟨hboth.1, (hsame e hei).mp hboth.2⟩
  · exact absurd hfor hdst

theorem pending_moved (hxi : x.id ≠ i.id) :
    (f.moved i dst.id).Pending is bs x ↔ f.Pending (i :: is) bs x := by
  have hne : x ≠ i := fun he => hxi (congrArg Instr.id he)
  refine or_congr ?_ ?_
  · rw [List.mem_cons, or_iff_right hne]
  · simp only [blocks_moved, List.mem_map, exists_exists_and_eq_and, Block.id_moved, ref_moved]
    refine exists_congr fun k => and_congr_right fun hk => and_congr_right fun _ => ?_
    rw [hrel.mem_moved hf hn hk]
    simp [hxi, hne]

/-- The operands of what moves out of a loop are computed above the preheader, and what reads it
below. -/
theorem Ordered.moved (h : f.Ordered P) (hP : ∀ x, P x → x.op.isTerminator = false) (hi : P i)
    (hl : f.IsNaturalLoop l) (hpre : f.IsPreheader l dst) (hbody : f.ref src.id ∈ l.body)
    (hinv : ∀ d ∈ i.reads, ∀ k ∈ f.blocks, k.holds d = true → f.ref k.id ∉ l.body) :
    (f.moved i dst.id).Ordered P := by
  have hflow := hrel.flow_moved hf hn
  have hsrc := hl.reaches hbody
  intro j' hj' k' hk' hjr hkr e he x hx hPe hPx hread
  rw [reaches_of_flow hflow] at hjr hkr
  rw [blocks_moved] at hj' hk'
  obtain ⟨j, hj, rfl⟩ := List.mem_map.mp hj'
  obtain ⟨k, hk, rfl⟩ := List.mem_map.mp hk'
  simp only [StrictlyDominates, dominates_of_flow hflow, Block.id_moved, ref_moved] at hjr hkr ⊢
  rcases (hrel.mem_moved hf hn hk).mp hx with ⟨hxk, hxi⟩ | ⟨rfl, rfl⟩
  · rcases (hrel.mem_moved hf hn hj).mp he with ⟨hej, hei⟩ | ⟨rfl, rfl⟩
    · rcases h j hj k hk hjr hkr e hej x hxk hPe hPx hread with ⟨rfl, hprec⟩ | hdom
      · exact Or.inl ⟨rfl, hprec.moved hei hxi⟩
      · exact Or.inr hdom
    · -- the preheader is above the block that the instruction comes from, which is above its reader
      right
      have hheader := hpre.dominates hl (hpre.entry_ne hl hjr)
      have habove : f.Dominates (f.ref j.id) (f.ref src.id) :=
        hheader.trans ((hl.body _).mp hbody).dominates
      have hsk : f.Dominates (f.ref src.id) (f.ref k.id) := by
        rcases h src hrel.src_mem k hk hsrc hkr e hrel.mem x hxk hPe hPx hread with ⟨rfl, _⟩ | hdom
        · exact Dominates.refl _
        · exact hdom.2
      refine ⟨fun he => ?_, habove.trans hsk⟩
      have heq : f.ref j.id = f.ref src.id := habove.antisymm (he ▸ hsk) hsrc
      exact hpre.outside (heq ▸ hbody)
  · rcases (hrel.mem_moved hf hn hj).mp he with ⟨hej, hei⟩ | ⟨_, rfl⟩
    · have hout := hinv e.id hread j hj (Block.holds_iff.mpr ⟨e, hej, rfl⟩)
      rcases h j hj src hrel.src_mem hjr hsrc e hej x hrel.mem hPe hPx hread with ⟨rfl, _⟩ | hdom
      · exact absurd hbody hout
      · have hne : f.ref j.id ≠ l.header := fun heq => hout (heq ▸ hl.header_mem)
        have hjk : f.Dominates (f.ref j.id) (f.ref k.id) :=
          (hl.dominates_header hbody hdom.2 hout).pred hne hpre.edge
        by_cases heq : f.ref j.id = f.ref k.id
        · have hjk : j = k := hf.linked.block_unique hj hk (congrArg BlockRef.number heq)
          subst hjk
          exact Or.inl ⟨rfl, hrel.precedes_dst hf hn hej (hP e hPe)⟩
        · exact Or.inr ⟨heq, hjk⟩
    · exact absurd hbody (hinv e.id hread src hrel.src_mem (Block.holds_iff.mpr ⟨e, hrel.mem, rfl⟩))

end Moved

/-- A loop of the nest is not inside one that comes before it. -/
theorem not_inside_of_before {k : Loop} {before after : List Loop} (hf : f.Linked)
    (hsplit : f.nest = before ++ l :: after) (hk : k ∈ before) : l ≠ k ∧ ¬l.Inside k := by
  have hnodup : f.nest.Nodup := List.Nodup.of_map _ (FlowGraph.nodup_loopNest _ _)
  have hmem : l ∈ f.nest ∧ k ∈ f.nest := by simp [hsplit, hk]
  rw [hsplit] at hnodup
  constructor
  · exact fun he => (List.nodup_append.mp hnodup).2.2 k hk l List.mem_cons_self he.symm
  · intro hin
    exact not_sublist_of_before hnodup hk (hsplit ▸ sublist_of_inside hf hmem.1 hmem.2 hin)

end Func

/-- In valid form, definitions come before their uses. -/
theorem Func.Valid.uses_held {f : Func} {isTerm : InstrId → Bool} {j k : Block} {e i : Instr}
    (hf : f.Valid isTerm) (hn : (f.held.map Instr.id).Nodup) (hj : j ∈ f.blocks) (hk : k ∈ f.blocks)
    (hr : f.Reaches (f.ref k.id))
    (he : e ∈ j.instrs) (hi : i ∈ k.instrs) (hop : i.op ≠ .phi) (hread : e.id ∈ i.reads) :
    (j = k ∧ k.Precedes e.id i.id) ∨ f.StrictlyDominates (f.ref j.id) (f.ref k.id) := by
  have hold : j.holds e.id = true := Block.holds_iff.mpr ⟨e, he, rfl⟩
  rcases hf.uses k hk hr i hi hop e.id hread with hprec | ⟨j', hj', hold', hdom⟩
  · exact Or.inl ⟨holder_unique hn hj hk hold hprec.holds, hprec⟩
  · rw [holder_unique hn hj hj' hold hold']
    exact Or.inr hdom

namespace Work

section Order

variable {m : Module} {f : Func} {l : Loop} (hf : f.Linked) (hl : l ∈ f.nest)

include hf hl

/-- The walk over a loop comes to all its blocks: what stands between the header and a block of the
loop is in it. -/
theorem mem_treeWalk_header {n : Nat} (hn : f.blocks.length ≤ n) {b : BlockRef} :
    b ∈ treeWalk f.flow.domTree.children l.contains n l.header ↔ b ∈ l.body := by
  have hnat := hf.isNaturalLoop hl
  constructor
  · intro hb
    simpa [Loop.contains] using enter_of_mem_treeWalk hb
  · intro hbody
    refine Func.mem_treeWalk hf (hnat.reaches hnat.header_mem) (hnat.reaches hbody)
      ((hnat.body b).mp hbody).dominates ?_ hn
    intro d hhd hdb
    simpa [Loop.contains] using hnat.mem_of_between hbody hdb hhd

/-- The blocks of a loop that are gone over are those that it is the innermost loop of. -/
theorem mem_scanOrder_iff (hcount : f.blocks.length ≤ m.blockCount) {b : BlockRef} :
    b ∈ scanOrder m f.flow.domTree.children f.nest l ↔ f.nest.loopFor? b = some l := by
  rw [scanOrder, List.mem_filter, mem_treeWalk_header hf hl hcount, Bool.not_eq_true']
  constructor
  · rintro ⟨hbody, hout⟩
    by_contra hne
    rw [(Func.inSubloop_iff hf hl hbody).mpr hne] at hout
    cases hout
  · intro hfor
    have hbody : b ∈ l.body := ((Func.loopFor?_eq_some_iff hf b l).mp hfor).prop
    refine ⟨hbody, ?_⟩
    rw [Bool.eq_false_iff]
    exact fun hin => (Func.inSubloop_iff hf hl hbody).mp hin hfor

/-- A block is gone over before those that it dominates. -/
theorem pairwise_scanOrder :
    (scanOrder m f.flow.domTree.children f.nest l).Pairwise fun x y => ¬f.Dominates y x := by
  have hnat := hf.isNaturalLoop hl
  exact (Func.pairwise_treeWalk hf (hnat.reaches hnat.header_mem)).filter _

/-- The walk over a loop ends by itself within any bound that is not below the number of blocks. -/
theorem treeWalk_header_eq {n n' : Nat} (hn : f.blocks.length ≤ n) (hn' : f.blocks.length ≤ n') :
    treeWalk f.flow.domTree.children l.contains n l.header =
      treeWalk f.flow.domTree.children l.contains n' l.header := by
  have hnat := hf.isNaturalLoop hl
  have hheader := hnat.reaches hnat.header_mem
  rw [← Func.walk_eq_treeWalk hf hheader hn, Func.walk_eq_treeWalk hf hheader hn']

/-- The order does not depend on the rest of the module. -/
theorem scanOrder_eq {m' : Module} (hm : f.blocks.length ≤ m.blockCount)
    (hm' : f.blocks.length ≤ m'.blockCount) :
    scanOrder m f.flow.domTree.children f.nest l =
    scanOrder m' f.flow.domTree.children f.nest l := by
  rw [scanOrder, scanOrder, treeWalk_header_eq hf hl hm hm']

/-- Blocks are gone over in the order of the whole dominator tree. -/
theorem scanOrder_sublist :
    (scanOrder m f.flow.domTree.children f.nest l).Sublist f.flow.domTree.preorder := by
  have hnat := hf.isNaturalLoop hl
  exact List.filter_sublist.trans (Func.treeWalk_sublist_preorder hf (hnat.reaches hnat.header_mem))

end Order

/-- Whether an instruction may be moved, by the answers on purity there are. -/
def Accepts (w : Work) (i : Instr) : Prop := (canHoist w.module i w.memo).1 = true

/-- What holds while hoisting goes over the loops of a function: those done with have to keep what
is in them, if they have a preheader. -/
structure Progress (w : Work) (f : Func) (done : List Loop) (g : Func) : Prop where
  ordered : g.Ordered w.Accepts
  settled : ∀ l ∈ done, f.preheader? l ≠ none → g.Settled w.Accepts l fun _ => False

section Step

variable {w w₁ w₂ : Work} {f g g' : Func} {c c' : Bool} {l : Loop} {src : Block} {i : Instr}
  {is : List Instr} {before after : List Loop} {bs : List BlockRef} (hw : w.module.Hosts f)
    (hs : Sweeps w f c w₁ g)
  (hsrc : src ∈ g.blocks) (hfor : f.nest.loopFor? (f.ref src.id) = some l)

include hw hs hfor

/-- A move out of a loop touches no loop that comes before it: neither block is in one. -/
theorem Progress.examined (hsplit : f.nest = before ++ l :: after) (h : Progress w f before g)
    (e : Examines l src i w₁ g c' w₂ g') : Progress w f before g' := by
  have hkept := hs.kept hw
  have hlinked := hw.framed.linked
  cases e with
  | stay => exact h
  | @move _ dst lifts =>
    have hrel := lifts.relocates
    have hacc : w.Accepts i := (hkept.canHoist_eq i).symm.trans lifts.can
    refine ⟨?_, fun k hk hpre => ?_⟩
    · exact Func.Ordered.moved hkept.hosts.framed hkept.hosts.own hrel h.ordered
        (fun x hx => (canHoist_computes hx).2) hacc lifts.loop lifts.pre lifts.body
        ((hkept.hosts.invariant_iff lifts.loop).mp lifts.invariant)
    · have hmem : l ∈ f.nest ∧ k ∈ f.nest := by simp [hsplit, hk]
      obtain ⟨hne, hout⟩ := Func.not_inside_of_before hlinked hsplit hk
      refine Func.Settled.moved hkept.hosts.framed hkept.hosts.own hrel (h.settled k hk hpre) ?_ ?_
        fun _ _ => Iff.rfl
      · intro hdst
        rw [Func.nest_of_flow hkept.flow, Func.loopFor?_eq_some_iff hlinked] at hdst
        have hheader := lifts.pre.header_mem hkept.hosts.framed.linked lifts.loop
          (hkept.isNaturalLoop (hlinked.isNaturalLoop hmem.2)) hdst.prop
        exact hout ((Func.inside_iff hlinked hmem.1 hmem.2).mpr ⟨hne, hheader⟩)
      · intro hin
        rw [hkept.ref] at hin
        exact absurd
          (((Func.loopFor?_eq_some_iff hlinked _ l).mp hfor).around k hmem.2 hin (Ne.symm hne)) hout

include hsrc

/-- An instruction that stays reads one that has to stay as well, since what it reads was looked at
before. -/
theorem settled_examined {done : List Instr} (hl : f.IsNaturalLoop l)
    (hinstrs : src.instrs = done ++ i :: is)
    (hbs : ∀ b ∈ bs, ¬f.Dominates b (f.ref src.id)) (hordered : g.Ordered w.Accepts)
    (h : g.Settled w.Accepts l (g.Pending (i :: is) bs)) (e : Examines l src i w₁ g c' w₂ g') :
    g'.Settled w.Accepts l (g'.Pending is bs) := by
  have hkept := hs.kept hw
  have hown := hkept.hosts.own
  have hlinked := hkept.hosts.framed.linked
  have hbody : g.ref src.id ∈ l.body := by
    rw [hkept.ref]
    exact ((Func.loopFor?_eq_some_iff hw.framed.linked _ l).mp hfor).prop
  have hnat := hkept.isNaturalLoop hl
  have hi : i ∈ src.instrs := by simp [hinstrs]
  cases e with
  | stay _ _ refused =>
    refine h.shrink (fun x hx => hx.imp_left (List.mem_cons_of_mem i)) fun x hacc hx hx' => ?_
    have hxi : x = i := by
      rcases hx with hx | hx
      · exact (List.mem_cons.mp hx).resolve_right fun hin => hx' (Or.inl hin)
      · exact absurd (Or.inr hx) hx'
    subst hxi
    have hvaries : ¬w₁.module.invariant l x = true := by
      intro hinv
      have hcan := (hkept.canHoist_eq x).trans hacc
      rw [refused hinv] at hcan
      cases hcan
    rw [hkept.hosts.invariant_iff hnat] at hvaries
    push Not at hvaries
    obtain ⟨d, hd, j, hj, hold, hin⟩ := hvaries
    obtain ⟨e, he, rfl⟩ := Block.holds_iff.mp hold
    refine ⟨j, hj, hin, e, he, hd, fun hboth => ?_⟩
    rw [← hkept.ref, ← Func.dominates_of_flow hkept.flow] at hbs
    exact hordered.not_pending hown hj hsrc (hnat.reaches hin)
      (hnat.reaches hbody) he hinstrs hboth.1 hacc hd hbs
      (hboth.2.imp_left (List.mem_cons_of_mem x))
  | @move _ dst lifts =>
    have hrel := lifts.relocates
    have hacc : w.Accepts i := (hkept.canHoist_eq i).symm.trans lifts.can
    refine Func.Settled.moved hkept.hosts.framed hown hrel h ?_
      (fun _ => ⟨hacc, Or.inl List.mem_cons_self⟩)
      fun x hxi => Func.pending_moved hkept.hosts.framed hown hrel hxi
    intro hdst
    exact lifts.pre.outside ((Func.loopFor?_eq_some_iff hlinked _ l).mp hdst).prop

end Step

section Run

variable {w w₁ : Work} {f g : Func} {c : Bool} {l : Loop} {pre : Block} {before after : List Loop}
  (o : Options)

theorem Sweeps.mem_scanOrder_iff (hs : Sweeps w f c w₁ g) (hw : w.module.Hosts f) (hl : l ∈ f.nest)
    (b : BlockRef) :
    b ∈ scanOrder w₁.module f.flow.domTree.children f.nest l ↔ f.nest.loopFor? b = some l := by
  have hkept := hs.kept hw
  have hlength : g.blocks.length = f.blocks.length := by
    simpa using congrArg List.length hkept.names
  exact Work.mem_scanOrder_iff hw.framed.linked hl
    (hlength ▸ Module.length_le_blockCount hkept.hosts.mem)

/-- Going over the blocks of a loop once is enough. -/
theorem hoistBlocks_settles (hw : w.module.Hosts f) (hsplit : f.nest = before ++ l :: after)
    (hpre : f.IsPreheader l pre) (hs : Sweeps w f c w₁ g) (h : Progress w f before g) :
    ∃ c' w₂ g', hoistBlocks o l (f.ref pre.id)
      (scanOrder w₁.module f.flow.domTree.children f.nest l) w₁ = .ok c' w₂ ∧
      Sweeps w f (c || c') w₂ g' ∧ Progress w f (before ++ [l]) g' := by
  have hlinked := hw.framed.linked
  have hl : l ∈ f.nest := by simp [hsplit]
  have hnat := hlinked.isNaturalLoop hl
  have hmem := hs.mem_scanOrder_iff hw hl
  have hpair := pairwise_scanOrder (m := w₁.module) hlinked hl
  have hbody : ∀ b ∈ scanOrder w₁.module f.flow.domTree.children f.nest l, b ∈ l.body :=
    fun b hb => mem_of_mem_scanOrder hb
  have hblocks := hoistBlocks_ok
    (R := fun is bs g => Progress w f before g ∧
      g.Settled w.Accepts l (g.Pending is bs)) o hw hnat hpre hbody ?_ ?_
    hs ⟨h, ?_⟩
  · obtain ⟨c', w₂, g', hrun, hs', hprogress, hsettled⟩ := hblocks
    refine ⟨c', w₂, g', hrun, hs', hprogress.ordered, fun k hk hp => ?_⟩
    rcases List.mem_append.mp hk with hk | hk
    · exact hprogress.settled k hk hp
    · rw [List.mem_singleton.mp hk]
      refine hsettled.shrink (fun _ => False.elim) fun x _ hx _ => ?_
      simp [Func.Pending] at hx
  · intro before' bs c w₁ g src _ hs hsrc hR
    have hkept := hs.kept hw
    have hpend : ∀ x, g.Pending [] (f.ref src.id :: bs) x ↔ g.Pending src.instrs bs x := by
      intro x
      rw [← hkept.ref]
      exact Func.pending_enter hkept.hosts.framed.linked hsrc
    refine ⟨hR.1, hR.2.shrink (fun x hx => (hpend x).mpr hx) fun x _ hx hx' => ?_⟩
    exact absurd ((hpend x).mp hx) hx'
  · intro before' bs done i is c c' w₁ w₂ g g' src horder hs hsrc hinstrs hR he
    have hfor : f.nest.loopFor? (f.ref src.id) = some l := (hmem _).mp (by simp [horder])
    refine ⟨hR.1.examined hw hs hfor hsplit he, ?_⟩
    rw [horder, List.pairwise_append, List.pairwise_cons] at hpair
    exact settled_examined hw hs hsrc hfor hnat hinstrs hpair.2.1.1 hR.1.ordered hR.2 he
  · intro k hk hfor x hx _ hpend
    have hkept := hs.kept hw
    rw [Func.nest_of_flow hkept.flow] at hfor
    exact absurd (Or.inr ⟨k, hk, (hmem _).mpr hfor, hx⟩) hpend

/-- Hoisting goes over every loop once, and none of them has something left to move then. -/
theorem hoistAll_settles (hw : w.module.Hosts f) (hordered : f.Ordered w.Accepts) :
    ∃ c w₁ g, hoistAll o f w = .ok c w₁ ∧ Sweeps w f c w₁ g ∧ Progress w f f.nest g := by
  have hall :=
    hoistAll_ok (R := fun ls g => ∃ done, f.nest = done ++ ls ∧ Progress w f done g) o hw ?_ ?_
      ⟨[], rfl, hordered, nofun⟩
  · obtain ⟨c, w₁, g, hrun, hs, done, hdone, h⟩ := hall
    rw [List.append_nil] at hdone
    exact ⟨c, w₁, g, hrun, hs, hdone ▸ h⟩
  · intro before l ls c w₁ g _ _ hpre hR
    obtain ⟨done, hsplit, h⟩ := hR
    refine ⟨done ++ [l], by simp [hsplit], h.ordered, fun k hk hp => ?_⟩
    rcases List.mem_append.mp hk with hk | hk
    · exact h.settled k hk hp
    · rw [List.mem_singleton.mp hk] at hp
      exact absurd hpre hp
  · intro before l ls c w₁ g pre _ hs hpre hR
    obtain ⟨done, hsplit, h⟩ := hR
    obtain ⟨c', w₂, g', hrun, hs', h'⟩ := hoistBlocks_settles o hw hsplit hpre hs h
    exact ⟨c', w₂, g', hw.framed.linked.domTree_eq w.module ▸ hrun, hs', done ++ [l],
      by simp [hsplit], h'⟩

/-- Where every loop has to keep what is in it, hoisting has nothing to do. -/
theorem hoistAll_idle (hw : w.module.Hosts f)
    (h : ∀ l ∈ f.nest, f.preheader? l ≠ none → f.Settled w.Accepts l fun _ => False) :
    ∃ w₁, hoistAll o f w = .ok false w₁ ∧ w₁.module = w.module := by
  have hlinked := hw.framed.linked
  have hall := hoistAll_ok (R := fun _ g => g = f) o hw (by intros; assumption) ?_ rfl
  · obtain ⟨c, w₁, g, hrun, hs, rfl⟩ := hall
    obtain rfl := (hs.rises hw).eq_false hw.own rfl
    exact ⟨w₁, hrun, (hs.kept hw).module.trans hw.update_self⟩
  · intro before l ls c w₁ g pre hsplit hs hpre hg
    have hl : l ∈ f.nest := by simp [hsplit]
    have hnat := hlinked.isNaturalLoop hl
    have hsome : f.preheader? l ≠ none := by
      rw [(Func.preheader?_eq_some_iff hlinked hnat).mpr ⟨pre, hpre, rfl⟩]
      nofun
    rw [hlinked.domTree_eq]
    have hmem := hs.mem_scanOrder_iff hw hl
    refine hoistBlocks_ok (R := fun _ _ g => g = f) o hw hnat hpre
      (fun b hb => mem_of_mem_scanOrder hb)
      (by intros; assumption) ?_ hs hg
    intro before' bs done i is c c' w₁ w₂ g g' src horder hs hsrc _ hg he
    cases he with
    | stay => exact hg
    | move lifts =>
      subst hg
      have hkept := hs.kept hw
      have hfor : g.nest.loopFor? (g.ref src.id) = some l := (hmem _).mp (by simp [horder])
      obtain ⟨j, hj, hbody, e, he, hread, _⟩ := h l hl hsome src hsrc hfor i lifts.mem
        ((hkept.canHoist_eq i).symm.trans lifts.can) not_false
      exact absurd hbody ((hkept.hosts.invariant_iff hnat).mp lifts.invariant e.id hread j hj
        (Block.holds_iff.mpr ⟨e, he, rfl⟩))

end Run

/-- Hoisting is done after one run, if definitions come before their uses. It never fails on a
function whose blocks end with terminators and branch to blocks of the function, and loses no
instruction. What may be moved and still stands in a loop reads something computed in the innermost
loop around it, unless this loop has no preheader. So every further run that accepts the same
instructions changes nothing. -/
theorem hoist_completes (o : Options) (w : Work) (id : FuncId) (f : Func) (hm : w.module.Consistent)
    (hf : w.module.func? id = some f) (hlinked : f.Linked) (hended : ∀ k ∈ f.blocks, k.term?.isSome)
    (huses : ∀ j ∈ f.blocks,
      ∀ k ∈ f.blocks, f.Reaches (f.ref k.id) → ∀ e ∈ j.instrs, ∀ i ∈ k.instrs, i.op ≠ .phi →
      e.id ∈ i.reads → (j = k ∧ k.Precedes e.id i.id) ∨
      f.StrictlyDominates (f.ref j.id) (f.ref k.id)) :
    ∃ changed w₁ g nest, applyPass o id .hoist w = .ok changed w₁ ∧ w₁.module.func? id = some g ∧
      g.instrs.Perm f.instrs ∧ w₁.module.loopNest g (w₁.module.domTree g) = .ok nest ∧
      (∀ k ∈ g.blocks, ∀ x ∈ k.instrs, w₁.Accepts x → ∀ l, nest.loopFor? (g.ref k.id) = some l →
        w₁.module.preheader? l = none ∨ ∃ d ∈ x.reads, ∃ b ∈ l.body, w₁.module.owner? d = some b) ∧
      ∀ o' w', w'.module = w₁.module → (∀ x, w'.Accepts x ↔ w₁.Accepts x) →
        ∃ w₂, applyPass o' id .hoist w' = .ok false w₂ ∧ w₂.module = w₁.module := by
  obtain ⟨hknown, rfl⟩ := hm.func?_iff.mp hf
  have hw : w.module.Hosts f := ⟨hm, hknown, hlinked, hended⟩
  have hordered : f.Ordered w.Accepts := fun j hj k hk _ hkr e he i hi _ hacc hread =>
    huses j hj k hk hkr e he i hi (canHoist_computes hacc).1 hread
  obtain ⟨changed, w₁, g, hrun, hs, hprogress⟩ := hoistAll_settles o hw hordered
  have hkept := hs.kept hw
  have hg : w₁.module.func? f.id = some g := hkept.id ▸ hkept.hosts.func?
  have hacc : w₁.Accepts = w.Accepts := by
    funext x
    rw [Accepts, Accepts, hkept.canHoist_eq]
  have hsettled : ∀ l ∈ g.nest, g.preheader? l ≠ none → g.Settled w₁.Accepts l fun _ => False := by
    intro l hl hpre
    rw [Func.nest_of_flow hkept.flow] at hl
    rw [Func.preheader?_of_flow hkept.flow hkept.id] at hpre
    exact hacc ▸ hprogress.settled l hl hpre
  refine ⟨changed, w₁, g, g.nest, ?_, hg, hkept.perm,
    hkept.hosts.framed.linked.loopNest_eq _, ?_, ?_⟩
  · simp only [applyPass, onFunc, hf]
    exact hrun
  · intro k hk x hx haccx l hfor
    have hl := ((Func.loopFor?_eq_some_iff hkept.hosts.framed.linked _ l).mp hfor).mem
    by_cases hpre : g.preheader? l = none
    · left
      rw [Module.preheader?_eq hkept.hosts.consistent hkept.hosts.mem hkept.hosts.framed.linked
        (hkept.hosts.framed.linked.isNaturalLoop hl), hpre]
      rfl
    · right
      obtain ⟨j, hj, hbody, e, he, hread, _⟩ := hsettled l hl hpre k hk hfor x hx haccx not_false
      have hold := Block.holds_iff.mpr ⟨e, he, rfl⟩
      exact ⟨e.id, hread, g.ref j.id, hbody,
        hkept.hosts.consistent.owner?_iff.mpr ⟨g, hkept.hosts.mem, j, hj, hold, rfl⟩⟩
  · intro o' w' hmodule haccepts
    have hw' : w'.module.Hosts g := hmodule ▸ hkept.hosts
    have hacc' : w'.Accepts = w₁.Accepts := funext fun x => propext (haccepts x)
    obtain ⟨w₂, hidle, hsame⟩ := hoistAll_idle o' hw' (hacc' ▸ hsettled)
    refine ⟨w₂, ?_, hsame.trans hmodule⟩
    simp only [applyPass, onFunc, hmodule, hg]
    exact hidle

theorem nested_completes :
    ∃ f w₁ w₂, nested.module.func? 0 = some f ∧ f.Linked ∧ (∀ k ∈ f.blocks, k.term?.isSome) ∧
    nested.module.Consistent ∧ applyPass {} 0 .hoist nested = .ok true w₁ ∧ w₁.stats.hoisted = 4 ∧
      applyPass {} 0 .hoist w₁ = .ok false w₂ ∧ w₂.module = w₁.module := by
  have hm : nested.module.Consistent := by decide
  have hcheck :
      (nested.module.func? 0).all (fun f => f.isValid nested.module.isTerm) = true := by cbv
  have hcount :
      Edit.outcome? (applyPass {} 0 .hoist) nested (fun changed w₁ => (changed, w₁.stats.hoisted)) =
      some (true, 4) := by cbv
  obtain ⟨f, hf⟩ : ∃ f, nested.module.func? 0 = some f := ⟨_, rfl⟩
  rw [hf] at hcheck
  have hv : f.Valid nested.module.isTerm := Func.valid_of_isValid hcheck
  have hn := hm.own f (hm.func?_iff.mp hf).1
  obtain ⟨changed, w₁, g, nest, hrun, _, _, _, _, hagain⟩ :=
    hoist_completes {} nested 0 f hm hf hv.linked hv.framed.ended
      fun j hj k hk hr e he i hi hop hd =>
      hv.uses_held hn hj hk hr he hi hop hd
  rw [Edit.outcome?_of_ok hrun, Option.some_inj, Prod.mk.injEq] at hcount
  obtain ⟨rfl, hhoisted⟩ := hcount
  obtain ⟨w₂, hsecond, hsame⟩ := hagain {} w₁ rfl fun _ => Iff.rfl
  exact ⟨f, w₁, w₂, hf, hv.linked, hv.framed.ended, hm, hrun, hhoisted, hsecond, hsame⟩

/-- Block 4 divides and leads to two blocks of another function, which leads back here. -/
def twoForeignHeaders : Func :=
  let goto (serial : Nat) (targets : List BlockRef) : Instr :=
    { op := .br, targets, id := ⟨1, serial⟩ }
  Func.record { Func.declare 1 "f" .void [] with
    blocks := [
      ⟨1, "", 1, [goto 0 [⟨0, 2⟩]]⟩,
      ⟨2, "", 1, [goto 1 [⟨1, 4⟩]]⟩,
      ⟨3, "", 1, [{ op := .ret, id := ⟨1, 2⟩ }]⟩,
      ⟨4, "", 1, [
        { op := .binary .sdiv, operands := [.int ⟨32, 6⟩, .int ⟨32, 3⟩], id := ⟨1, 3⟩ },
        { goto 4 [⟨0, 2⟩, ⟨0, 3⟩] with op := .condBr, operands := [.int ⟨1, 1⟩] }]⟩]
    maxBlock := 4
    nextSerial := 5 }

def twoForeignHeadersWork : Work :=
  let goto (serial : Nat) (target : BlockRef) : Instr :=
    { op := .br, targets := [target], id := ⟨0, serial⟩ }
  let other := Func.record { Func.declare 0 "other" .void [] with
    blocks := [
      ⟨1, "", 0, [goto 0 ⟨0, 2⟩]⟩,
      ⟨2, "", 0, [goto 1 ⟨0, 3⟩]⟩,
      ⟨3, "", 0, [goto 2 ⟨1, 4⟩]⟩]
    maxBlock := 3
    nextSerial := 3 }
  { module := { name := "", functions := [other, twoForeignHeaders] } }

/-- What went to a block of another function can be moved from there again: it lies in a loop that
was gone over before. -/
theorem twoForeignHeaders_moves_twice : twoForeignHeadersWork.module.Consistent ∧
    twoForeignHeadersWork.module.func? 1 = some twoForeignHeaders ∧
    (∀ k ∈ twoForeignHeaders.blocks, k.term?.isSome) ∧
    (∀ i ∈ twoForeignHeaders.instrs, i.reads = []) ∧
      ∃ w₁ w₂, applyPass {} 1 .hoist twoForeignHeadersWork = .ok true w₁ ∧
        applyPass {} 1 .hoist w₁ = .ok true w₂ := by
  have htwice : Edit.outcome? (applyPass {} 1 .hoist) twoForeignHeadersWork (fun first w₁ =>
      (first, Edit.outcome? (applyPass {} 1 .hoist) w₁ fun second _ => second)) =
      some (true, some true) := by cbv
  refine ⟨by decide, rfl, by decide, by decide, ?_⟩
  obtain ⟨_, w₁, hfirst, hboth⟩ := Edit.outcome?_eq_some_iff.mp htwice
  obtain ⟨rfl, hagain⟩ := Prod.mk.inj hboth
  obtain ⟨_, w₂, hsecond, rfl⟩ := Edit.outcome?_eq_some_iff.mp hagain
  exact ⟨w₁, w₂, hfirst, hsecond⟩

end Work

end KernelIR
