import KernelIR.Proofs.Motion.Relocate

namespace KernelIR

namespace Block

theorem Shaped.insertLast {k : Block} {i : Instr} (h : k.Shaped) (hphi : i.op ≠ .phi)
    (hterm : i.op.isTerminator = false) : (k.insertLast i).Shaped := by
  obtain ⟨phis, body, t, hk, hphis, hbody, ht⟩ := h
  refine ⟨phis, body ++ [i], t, ?_, hphis, fun j hj => ?_, ht⟩
  · rw [instrs_insertLast hk]
    simp
  · rcases List.mem_append.mp hj with hj | hj
    · exact hbody j hj
    · rw [List.mem_singleton.mp hj]
      exact ⟨hphi, hterm⟩

/-- A block keeps its shape if instructions but the terminator are taken away. -/
theorem Shaped.filter {k : Block} {p : Instr → Bool} (h : k.Shaped)
    (hp : ∀ t ∈ k.instrs, t.op.isTerminator = true → p t = true) :
    Shaped { k with instrs := k.instrs.filter p } := by
  obtain ⟨phis, body, t, hk, hphis, hbody, ht⟩ := h
  have hpt : p t = true := hp t (by simp [hk]) ht
  refine ⟨phis.filter p, body.filter p, t, ?_, fun j hj => ?_, fun j hj => ?_, ht⟩
  · simp [hk, hpt]
  · exact hphis j (List.mem_of_mem_filter hj)
  · exact hbody j (List.mem_of_mem_filter hj)

end Block

namespace Func

/-- An instruction of block `src` that can as well stand at the end of `dst`: it only computes,
control passes through `dst` on every way to `src`, and what it reads is there. -/
structure Movable (f : Func) (i : Instr) (src dst : Block) : Prop where
  src_mem : src ∈ f.blocks
  dst_mem : dst ∈ f.blocks
  mem : i ∈ src.instrs
  phi : i.op ≠ .phi
  term : i.op.isTerminator = false
  reach : f.Reaches (f.ref src.id)
  above : f.StrictlyDominates (f.ref dst.id) (f.ref src.id)
  reads : ∀ d ∈ i.reads, d ≠ i.id ∧ f.Available d (f.ref dst.id)

section Moved

variable {f : Func} {i : Instr} {src dst k : Block} {isTerm : InstrId → Bool}

theorem Movable.relocates (h : f.Movable i src dst) : f.Relocates i src dst :=
  ⟨h.src_mem, h.dst_mem, h.mem, h.term, fun he => h.above.1 (by rw [he])⟩

variable (hf : f.Valid isTerm) (hn : (f.held.map Instr.id).Nodup) (h : f.Movable i src dst)

include hf hn h

/-- What was available at the end of a block still is. -/
theorem Movable.available {d : InstrId} {b : BlockRef} (hd : f.Available d b) :
    (f.moved i dst.id).Available d b := by
  obtain ⟨k, hk, hold, hdom⟩ := hd
  rw [Available, dominates_of_flow (h.relocates.flow_moved hf.framed hn)]
  by_cases hdi : d = i.id
  · have hks : k = src := h.relocates.eq_src hn hk (hdi ▸ hold)
    refine ⟨dst.moved i dst.id, mem_blocks_moved i dst.id h.dst_mem,
      hdi ▸ h.relocates.holds_dst hf.framed hn, ?_⟩
    rw [Block.id_moved, ref_moved]
    exact h.above.2.trans (hks ▸ hdom)
  · refine ⟨k.moved i dst.id, mem_blocks_moved i dst.id hk,
      h.relocates.holds_moved hf.framed hn hk hdi hold, ?_⟩
    rw [Block.id_moved, ref_moved]
    exact hdom

/-- What stood in a strict dominator still stands in one. -/
theorem Movable.strictly {d : InstrId} {b : BlockRef}
    (hd : ∃ j ∈ f.blocks, j.holds d = true ∧ f.StrictlyDominates (f.ref j.id) b) :
    ∃ j ∈ (f.moved i dst.id).blocks, j.holds d = true ∧
      (f.moved i dst.id).StrictlyDominates ((f.moved i dst.id).ref j.id) b := by
  obtain ⟨j, hj, hold, hne, hdom⟩ := hd
  simp only [StrictlyDominates, dominates_of_flow (h.relocates.flow_moved hf.framed hn), ref_moved]
  by_cases hdi : d = i.id
  · have hjs : j = src := h.relocates.eq_src hn hj (hdi ▸ hold)
    refine ⟨dst.moved i dst.id, mem_blocks_moved i dst.id h.dst_mem,
      hdi ▸ h.relocates.holds_dst hf.framed hn, ?_⟩
    rw [Block.id_moved]
    constructor
    · intro he
      have hsrc : f.Dominates (f.ref src.id) (f.ref dst.id) := he ▸ hjs ▸ hdom
      exact h.above.1 (h.above.2.antisymm hsrc h.reach)
    · exact h.above.2.trans (hjs ▸ hdom)
  · refine ⟨j.moved i dst.id, mem_blocks_moved i dst.id hj,
      h.relocates.holds_moved hf.framed hn hj hdi hold, ?_⟩
    rw [Block.id_moved]
    exact ⟨hne, hdom⟩

theorem Movable.shaped_moved (hk : k ∈ f.blocks) : (k.moved i dst.id).Shaped := by
  have hterm : ∀ t ∈ k.instrs, t.op.isTerminator = true → decide (t.id ≠ i.id) = true := by
    intro t ht hop
    rw [decide_eq_true_eq]
    intro he
    have hti : t = i := List.inj_on_of_nodup_map hn (mem_held_of_mem hk ht)
      (mem_held_of_mem h.src_mem h.mem) he
    rw [hti, h.term] at hop
    cases hop
  have hrest := (hf.shaped k hk).filter hterm
  rw [Block.moved]
  split
  · exact hrest.insertLast h.phi h.term
  · exact hrest

/-- What an instruction reads is computed before it after the move as well. -/
theorem Movable.uses_moved (hterm : ∀ t ∈ f.instrs, t.op.isTerminator = true → isTerm t.id = true)
    (hk : k ∈ f.blocks) (hr : f.Reaches (f.ref k.id)) {j : Instr}
    (hj : j ∈ (k.moved i dst.id).instrs)
    (hphi : j.op ≠ .phi) {d : InstrId} (hd : d ∈ j.reads) :
    (k.moved i dst.id).Precedes d j.id ∨
      ∃ b ∈ (f.moved i dst.id).blocks, b.holds d = true ∧
        (f.moved i dst.id).StrictlyDominates ((f.moved i dst.id).ref b.id) (f.ref k.id) := by
  rcases (h.relocates.mem_moved hf.framed hn hk).mp hj with ⟨hjk, hji⟩ | ⟨hkd, hji⟩
  · rcases hf.uses k hk hr j hjk hphi d hd with hpre | hstrict
    · by_cases hdi : d = i.id
      · -- the instruction stood before its reader, and now stands in a block further up
        have hks := h.relocates.eq_src hn hk (hdi ▸ hpre.holds)
        right
        refine ⟨dst.moved i dst.id, mem_blocks_moved i dst.id h.dst_mem,
          hdi ▸ h.relocates.holds_dst hf.framed hn, ?_⟩
        rw [StrictlyDominates, dominates_of_flow (h.relocates.flow_moved hf.framed hn),
          Block.id_moved, ref_moved, hks]
        exact h.above
      · exact Or.inl (hpre.moved hdi hji)
    · exact Or.inr (h.strictly hf hn hstrict)
  · rw [hji] at hd ⊢
    obtain ⟨hdi, b, hb, hold, hdom⟩ := h.reads d hd
    by_cases hbd : b = dst
    · -- the operand stands in the target block, before its terminator
      left
      rcases h.relocates.moved_cases hf.framed hn hk
        with hsrc | ⟨_, l, t, hold', ht, hnew, _⟩ | hother
      · exact absurd (hkd.symm.trans hsrc.1) h.relocates.ne
      · obtain ⟨x, hx, rfl⟩ := Block.holds_iff.mp hold
        have hxt : x ≠ t := by
          intro hxt
          have htm : t ∈ f.instrs := mem_instrs.mpr ⟨k, hk, by simp [hold']⟩
          have hno := hf.operands i (mem_instrs.mpr ⟨src, h.src_mem, h.mem⟩) x.id hd
          rw [hxt, hterm t htm ht] at hno
          cases hno
        rw [hbd, ← hkd, hold'] at hx
        have hxl : x ∈ l :=
          (List.mem_append.mp hx).resolve_right fun he => hxt (List.mem_singleton.mp he)
        have hpair : ([x.id] ++ [i.id]).Sublist (l.map Instr.id ++ [i.id, t.id]) :=
          (List.singleton_sublist.mpr (List.mem_map_of_mem hxl)).append (by simp)
        rw [Block.Precedes, hnew, List.map_append]
        exact hpair
      · exact absurd hkd hother.2.1
    · right
      refine h.strictly hf hn ⟨b, hb, hold, ?_⟩
      rw [hkd]
      refine ⟨fun he => hbd ?_, hdom⟩
      exact hf.linked.block_unique hb h.dst_mem (congrArg BlockRef.number he)

/-- Moving such an instruction keeps a function in valid form. -/
theorem Movable.valid (hterm : ∀ t ∈ f.instrs, t.op.isTerminator = true → isTerm t.id = true) :
    (f.moved i dst.id).Valid isTerm := by
  have hflow := h.relocates.flow_moved hf.framed hn
  have hblocks : ∀ b ∈ (f.moved i dst.id).blocks, ∃ k ∈ f.blocks, b = k.moved i dst.id := by
    intro b hb
    rw [blocks_moved] at hb
    obtain ⟨k, hk, hkb⟩ := List.mem_map.mp hb
    exact ⟨k, hk, hkb.symm⟩
  have hphis : ∀ k ∈ f.blocks, ∀ j ∈ (k.moved i dst.id).instrs, j.op = .phi → j ∈ k.instrs := by
    intro k hk j hj hop
    rcases (h.relocates.mem_moved hf.framed hn hk).mp hj with hjk | ⟨_, rfl⟩
    · exact hjk.1
    · exact absurd hop h.phi
  refine ⟨linked_of_flow hflow rfl hf.linked, ?_, ?_, ?_, ?_, ?_, ?_⟩
  · intro b hb
    obtain ⟨k, hk, rfl⟩ := hblocks b hb
    exact h.shaped_moved hf hn hk
  · intro b hb j hj hop
    obtain ⟨k, hk, rfl⟩ := hblocks b hb
    rw [Block.id_moved, preds_of_flow hflow rfl]
    exact hf.entries k hk j (hphis k hk j hj hop) hop
  · intro j hj d hd
    obtain ⟨b, hb, hjb⟩ := mem_instrs.mp hj
    obtain ⟨k, hk, rfl⟩ := hblocks b hb
    rcases (h.relocates.mem_moved hf.framed hn hk).mp hjb with ⟨hjk, _⟩ | ⟨_, rfl⟩
    · exact hf.operands j (mem_instrs.mpr ⟨k, hk, hjk⟩) d hd
    · exact hf.operands j (mem_instrs.mpr ⟨src, h.src_mem, h.mem⟩) d hd
  · intro b hb
    rw [ entry?, blocks_moved, List.head?_map] at hb
    obtain ⟨k, hk, rfl⟩ := Option.map_eq_some_iff.mp hb
    rw [Block.id_moved, preds_of_flow hflow rfl]
    exact hf.entry k hk
  · intro b hb hr j hj hop d hd
    obtain ⟨k, hk, rfl⟩ := hblocks b hb
    rw [Block.id_moved, ref_moved, reaches_of_flow hflow] at hr
    rw [Block.id_moved, ref_moved]
    exact h.uses_moved hf hn hterm hk hr hj hop hd
  · intro b hb j hj hop e he hr d hd
    obtain ⟨k, hk, rfl⟩ := hblocks b hb
    rw [reaches_of_flow hflow] at hr
    exact h.available hf hn (hf.flows k hk j (hphis k hk j hj hop) hop e he hr d hd)

end Moved

end Func

end KernelIR
