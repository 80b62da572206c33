import KernelIR.Proofs.Consistent
import KernelIR.Proofs.Nesting

namespace KernelIR

namespace Func

/-- What a preheader is: a block outside the loop that branches to the header only, and the only one
outside the loop that does. -/
structure IsPreheader (f : Func) (l : Loop) (k : Block) : Prop where
  mem : k ∈ f.blocks
  succs : k.succs = [l.header]
  outside : f.ref k.id ∉ l.body
  only : ∀ b, f.Edge b l.header → b ∉ l.body → b = f.ref k.id

variable {f g : Func} {l j : Loop} {n : BlockId} {k : Block}

section SameFlow

variable (h : g.flow = f.flow)

include h

theorem isNaturalLoop_of_flow (hl : f.IsNaturalLoop l) : g.IsNaturalLoop l := by
  obtain ⟨hback, hbody, hnodup⟩ := hl
  constructor
  · simpa only [BackEdge, edge_of_flow h, reaches_of_flow h, dominates_of_flow h] using hback
  · simpa only [InLoop, BackEdge, edge_of_flow h, reaches_of_flow h, dominates_of_flow h]
      using hbody
  · exact hnodup

theorem nest_of_flow : g.nest = f.nest := by rw [nest, nest, h]

theorem preheader?_of_flow (hid : g.id = f.id) : g.preheader? l = f.preheader? l := by
  have hentering : g.entering l = f.entering l := by
    rw [ entering, entering, preds_of_flow h hid]
    simp only [ref, hid]
  rw [preheader?, preheader?, hentering]
  simp only [succs_of_flow h]

end SameFlow

theorem Linked.succs_eq (hf : f.Linked) (hk : k ∈ f.blocks) : f.succs k.id = k.succs := by
  have hblock : f.block? k.id = some k := (block?_iff hf).mpr ⟨hk, rfl⟩
  rw [succs, hblock]

theorem Linked.edge_iff (hf : f.Linked) (hk : k ∈ f.blocks) {b : BlockRef} :
    f.Edge (f.ref k.id) b ↔ b ∈ k.succs := by
  constructor
  · intro e
    obtain ⟨j, hj, hid, hb⟩ := e
    rwa [hf.block_unique hk hj (congrArg BlockRef.number hid)]
  · exact fun hb => ⟨k, hk, rfl, hb⟩

section Linked

variable (hf : f.Linked) (hl : f.IsNaturalLoop l)

include hf hl

theorem mem_entering : n ∈ f.entering l ↔ f.Edge (f.ref n) l.header ∧ f.ref n ∉ l.body := by
  obtain ⟨j, _, hheader⟩ := hl.exists_block hf hl.header_mem
  rw [ entering, List.mem_filter, mem_preds_iff, hheader]
  simp [Loop.contains, ref]

theorem mem_map_entering {b : BlockRef} : b ∈ (f.entering l).map f.ref ↔
    f.Edge b l.header ∧ b ∉ l.body := by
  rw [List.mem_map]
  constructor
  · intro hb
    obtain ⟨n, hn, rfl⟩ := hb
    exact (mem_entering hf hl).mp hn
  · intro hb
    obtain ⟨k, _, rfl⟩ := mem_nodes_flow.mp hb.1.mem_nodes
    exact ⟨k.id, (mem_entering hf hl).mpr hb, rfl⟩

omit hl in
theorem nodup_entering : (f.entering l).Nodup := by
  have hpreds : (f.preds l.header.number).Nodup := List.Nodup.of_map f.ref (hf.nodup_map_preds _)
  exact hpreds.filter _

/-- The preheader found is the one there is. -/
theorem preheader?_eq_some_iff : f.preheader? l = some n ↔ ∃ k, f.IsPreheader l k ∧ k.id = n := by
  have hcases : f.preheader? l = some n ↔ f.entering l = [n] ∧ (f.succs n).length = 1 := by
    rw [preheader?]
    split
    · next p hp =>
      rw [Option.ite_none_right_eq_some, Option.some_inj, hp, List.singleton_inj]
      constructor
      · rintro ⟨hlen, rfl⟩
        exact ⟨rfl, hlen⟩
      · rintro ⟨rfl, hlen⟩
        exact ⟨hlen, rfl⟩
    · next hne => exact ⟨nofun, fun h => absurd h.1 (hne n)⟩
  rw [hcases]
  constructor
  · intro h
    obtain ⟨hone, hlen⟩ := h
    have hmem : ∀ q, f.Edge (f.ref q) l.header ∧ f.ref q ∉ l.body ↔ q = n := by
      intro q
      rw [← mem_entering hf hl, hone, List.mem_singleton]
    obtain ⟨⟨k, hk, hid, hs⟩, hout⟩ := (hmem n).mpr rfl
    have hid : n = k.id := congrArg BlockRef.number hid
    subst hid
    refine ⟨k, ⟨hk, ?_, hout, fun b e hb => ?_⟩, rfl⟩
    · rw [hf.succs_eq hk] at hlen
      obtain ⟨s, hone⟩ := List.length_eq_one_iff.mp hlen
      rw [hone] at hs ⊢
      rw [List.mem_singleton.mp hs]
    · obtain ⟨j, _, rfl⟩ := mem_nodes_flow.mp e.mem_nodes
      rw [(hmem j.id).mp ⟨e, hb⟩]
  · intro h
    obtain ⟨k, hk, rfl⟩ := h
    constructor
    · apply List.perm_singleton.mp
      rw [List.perm_ext_iff_of_nodup (nodup_entering hf) (List.nodup_singleton _)]
      intro q
      rw [mem_entering hf hl, List.mem_singleton]
      constructor
      · exact fun hq => congrArg BlockRef.number (hk.only _ hq.1 hq.2)
      · rintro rfl
        exact ⟨⟨k, hk.mem, rfl, by simp [hk.succs]⟩, hk.outside⟩
    · rw [hf.succs_eq hk.mem, hk.succs, List.length_singleton]

end Linked

namespace IsPreheader

variable (h : f.IsPreheader l k)

include h

theorem edge : f.Edge (f.ref k.id) l.header := ⟨k, h.mem, rfl, by simp [h.succs]⟩

theorem eq_header (hf : f.Linked) {b : BlockRef} (e : f.Edge (f.ref k.id) b) : b = l.header := by
  rw [hf.edge_iff h.mem, h.succs] at e
  exact List.mem_singleton.mp e

/-- Every way into the loop leads through the preheader, unless the function starts with the
loop. -/
theorem dominates (hl : f.IsNaturalLoop l) (hne : f.entryRef? ≠ some l.header) :
    f.Dominates (f.ref k.id) l.header := by
  apply Dominates.of_preds hne
  intro c _ e
  by_cases hin : c ∈ l.body
  · exact Or.inr ((hl.body c).mp hin).dominates
  · left
    rw [h.only c e hin]
    exact Dominates.refl _

/-- A function does not start with a loop whose preheader can be reached. -/
theorem entry_ne (hl : f.IsNaturalLoop l) (hr : f.Reaches (f.ref k.id)) :
    f.entryRef? ≠ some l.header := by
  intro hentry
  have hdom : f.Dominates l.header (f.ref k.id) := by
    intro p hp
    obtain ⟨r, hr, w⟩ := hp
    rw [hentry] at hr
    cases hr
    exact w.first_mem
  -- its branch would be one back
  have hback : f.BackEdge (f.ref k.id) l.header := ⟨h.edge, hr, hdom⟩
  exact h.outside ((hl.body _).mpr hback.inLoop)

/-- A loop with the preheader of another one in it has its header too. -/
theorem header_mem (hf : f.Linked) (hl : f.IsNaturalLoop l) (hj : f.IsNaturalLoop j)
    (hk : f.ref k.id ∈ j.body) :
    l.header ∈ j.body := by
  have hbody : l.header = j.header → False :=
    fun he => h.outside ((hl.body _).mpr (he ▸ (hj.body _).mp hk))
  have hreach := hj.reaches hk
  -- the way to a branch back goes on from the preheader to the header
  have hway : ∀ {t p}, f.BackEdge t j.header → Walk f.Edge (f.ref k.id) p t → t ≠ f.ref k.id →
      (j.header ∈ p → j.header = f.ref k.id) → l.header ∈ j.body := by
    intro t p e w hne hp
    obtain ⟨c, s, hc, v, hs, hout⟩ := (w.leave w.first_mem).resolve_left (Ne.symm hne)
    rw [h.eq_header hf hc] at v
    refine (hj.body _).mpr (Or.inr ⟨hreach.step h.edge, t, s, e, v, fun hin => ?_⟩)
    exact hout (hp (hs hin) ▸ hin)
  have htail : ∀ {t}, f.BackEdge t j.header → t ≠ f.ref k.id := fun e he =>
    hbody (h.eq_header hf (he ▸ e.1)).symm
  rcases (hj.body _).mp hk with he | ⟨_, t, p, e, w, hp⟩
  · obtain ⟨t, e⟩ := hj.back
    obtain ⟨q, r, hr, w⟩ := e.2.1
    obtain ⟨_, s, _, v, _⟩ := w.split (e.2.2 q ⟨r, hr, w⟩)
    exact hway e (he ▸ v) (htail e) fun _ => he.symm
  · exact hway e w (htail e) fun hin => absurd hin hp

end IsPreheader

end Func

namespace Module

variable {m : Module} {f : Func} {l : Loop}

/-- The preheader of a loop is looked for in the function of the loop. -/
theorem preheader?_eq (hm : m.Consistent) (hf : f ∈ m.known) (hlinked : f.Linked)
    (hl : f.IsNaturalLoop l) : m.preheader? l = (f.preheader? l).map f.ref := by
  obtain ⟨k, hk, hheader⟩ := hl.exists_block hlinked hl.header_mem
  rw [preheader?, hheader, hm.home?_eq hf hk, Option.bind_some]

/-- A preheader is put into the function that has the header of the loop. -/
theorem insertPreheader_eq_edit (hm : m.Consistent) (hf : f ∈ m.known) {k : Block}
    (hk : k ∈ f.blocks) (hheader : l.header = f.ref k.id) :
    insertPreheader l m = edit f.id (Func.insertPreheader l) m := by
  rw [insertPreheader, hheader, hm.home?_eq hf hk]

end Module

end KernelIR
