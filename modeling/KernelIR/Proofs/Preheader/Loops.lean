import KernelIR.Proofs.Preheader.Insertion

namespace KernelIR

namespace Func

variable {f : Func} {l k l' : Loop} {σ : Instr → Instr} {new : List Instr} {t b d : BlockRef}
  {j : Block}

/-- A loop is entered from outside, unless the function starts with it. -/
theorem Extensible.entering_ne (h : f.Extensible l) (hne : f.entryRef? ≠ some l.header) :
    f.entering l ≠ [] := by
  intro hnil
  -- with no way in, every block would dominate the header, the next one too
  have hdom : f.Dominates (f.ref f.fresh) l.header := by
    apply Dominates.of_preds hne
    intro c _ e
    right
    by_contra hnot
    have hout : c ∉ l.body := fun hin => hnot ((h.loop.body c).mp hin).dominates
    obtain ⟨j, _, rfl⟩ := mem_nodes_flow.mp e.mem_nodes
    have hin := (Func.mem_entering h.linked h.loop).mpr ⟨e, hout⟩
    rw [hnil] at hin
    exact List.not_mem_nil hin
  obtain ⟨j, hj, he⟩ :=
    mem_nodes_flow.mp ((hdom.reaches (h.loop.reaches h.loop.header_mem)).mem_nodes h.linked)
  exact h.ne_fresh hj he.symm

namespace Inserts

variable (h : f.Inserts l σ new)

include h

/-- The branches back between old blocks are the same. -/
theorem backEdge_entered (ht : t ≠ f.ref f.fresh) (hd : d ≠ f.ref f.fresh) :
    (f.entered l σ new).BackEdge t d ↔ f.BackEdge t d := by
  have hedge := h.detour.keeps t d ht hd
  rw [BackEdge, BackEdge, h.reaches_entered ht, h.dominates_entered hd ht, hedge]
  constructor
  · exact fun e => ⟨e.1.1, e.2⟩
  · intro e
    refine ⟨⟨e.1, fun hout => hout.2 ?_⟩, e.2⟩
    obtain ⟨rfl, _⟩ := hout
    exact (h.loop.body t).mpr (BackEdge.inLoop e)

/-- No loop starts at the new block: what it dominates and comes back to it would be in the loop. -/
theorem not_backEdge_fresh : ¬(f.entered l σ new).BackEdge t (f.ref f.fresh) := by
  intro e
  have hd := h.detour
  obtain ⟨hedge, hout⟩ := (hd.enters t).mp e.1
  have ht := (h.edge_ne hedge).1
  have hdom : (f.entered l σ new).Dominates l.header t := by
    intro q hq
    have hin := e.2.2 q hq
    obtain ⟨r, _, w⟩ := hq
    obtain ⟨c, s, hc, v, hs, _⟩ := (w.leave hin).resolve_left (Ne.symm ht)
    rw [(hd.leaves c).mp hc] at v
    exact hs v.first_mem
  have hback : f.BackEdge t l.header :=
    ⟨hedge, (h.reaches_entered ht).mp e.2.1, (h.dominates_entered hd.target ht).mp hdom⟩
  exact hout ((h.loop.body t).mpr hback.inLoop)

/-- The new block does not branch back: what leads there would be in the loop. -/
theorem not_backEdge_of_fresh : ¬(f.entered l σ new).BackEdge (f.ref f.fresh) d := by
  intro e
  have hd := h.detour
  obtain rfl := (hd.leaves d).mp e.1
  obtain ⟨q, r, hr, w⟩ := e.2.1
  rcases w.unsnoc with ⟨rfl, _⟩ | ⟨c, s, v, hc, _⟩
  · have hin := e.2.2 [f.ref f.fresh] ⟨_, hr, .single _⟩
    exact hd.target (List.mem_singleton.mp hin)
  · obtain ⟨hedge, hout⟩ := (hd.enters c).mp hc
    have hcf := (h.edge_ne hedge).1
    have hback : f.BackEdge c l.header :=
      ⟨hedge, (h.reaches_entered hcf).mp ⟨s, r, hr, v⟩,
        (h.dominates_entered hd.target hcf).mp (e.2.2.pred hd.target hc)⟩
    exact hout ((h.loop.body c).mpr hback.inLoop)

theorem exists_backEdge_entered : (∃ t, (f.entered l σ new).BackEdge t d) ↔
    ∃ t, f.BackEdge t d := by
  constructor
  · rintro ⟨t, e⟩
    have ht : t ≠ f.ref f.fresh := fun he => h.not_backEdge_of_fresh (he ▸ e)
    have hd : d ≠ f.ref f.fresh := fun he => h.not_backEdge_fresh (he ▸ e)
    exact ⟨t, (h.backEdge_entered ht hd).mp e⟩
  · rintro ⟨t, e⟩
    obtain ⟨ht, hd⟩ := h.edge_ne e.1
    exact ⟨t, (h.backEdge_entered ht hd).mpr e⟩

/-- An old block is in the same loops. -/
theorem inLoop_entered (hb : b ≠ f.ref f.fresh) (hd : d ≠ f.ref f.fresh) :
    (f.entered l σ new).InLoop d b ↔ f.InLoop d b := by
  rw [InLoop, InLoop, h.reaches_entered hb]
  refine or_congr_right (and_congr_right fun _ => ?_)
  constructor
  · rintro ⟨t, p, e, w, hp⟩
    have ht : t ≠ f.ref f.fresh := fun he => h.not_backEdge_of_fresh (he ▸ e)
    exact ⟨t, _, (h.backEdge_entered ht hd).mp e, (h.detour.erase w ht).1 hb,
      fun hin => hp (List.mem_of_mem_filter hin)⟩
  · rintro ⟨t, p, e, w, hp⟩
    obtain ⟨s, v, rfl⟩ := h.detour.lift w hb
    refine ⟨t, s, (h.backEdge_entered (h.edge_ne e.1).1 hd).mpr e, v, fun hin => hp ?_⟩
    exact List.mem_filter.mpr ⟨hin, by simpa using hd⟩

theorem mem_body_entered (hl' : (f.entered l σ new).IsNaturalLoop l') (hk : f.IsNaturalLoop k)
    (heq : l'.header = k.header) (hb : b ≠ f.ref f.fresh) : b ∈ l'.body ↔ b ∈ k.body := by
  obtain ⟨t, e⟩ := hk.back
  rw [hl'.body, hk.body, heq, h.inLoop_entered hb (h.edge_ne e.1).2]

/-- The new block is the preheader of the loop it was made for. -/
theorem isPreheader_new (hl' : (f.entered l σ new).IsNaturalLoop l') (heq : l'.header = l.header) :
    (f.entered l σ new).IsPreheader l' (f.preheader l new) where
  mem := h.mem_blocks.mpr (Or.inl rfl)
  succs := by
    have hinstrs : (f.preheader l new).instrs = new ++ [f.entrance l new.length] := rfl
    rw [Block.succs_of_term hinstrs rfl, heq]
    rfl
  outside := by
    have hd := h.detour
    rw [hl'.body, heq]
    rintro (he | ⟨_, t, p, e, w, hp⟩)
    · exact hd.target he.symm
    · have ht : t ≠ f.ref f.fresh := fun he => h.not_backEdge_of_fresh (he ▸ e)
      obtain ⟨c, s, hc, v, hs, _⟩ := (w.leave w.first_mem).resolve_left (Ne.symm ht)
      rw [(hd.leaves c).mp hc] at v
      exact hp (hs v.first_mem)
  only b e hout := by
    rw [heq] at e
    rcases h.edge_header.mp e with he | ⟨hedge, hin⟩
    · exact he
    · exact absurd ((h.mem_body_entered hl' h.loop heq (h.edge_ne hedge).1).mpr hin) hout

/-- Other loops have the preheaders they had. -/
theorem isPreheader_changed (hl' : (f.entered l σ new).IsNaturalLoop l') (hk : f.IsNaturalLoop k)
    (heq : l'.header = k.header) (hne : k.header ≠ l.header) (hj : j ∈ f.blocks) :
    (f.entered l σ new).IsPreheader l' (f.changed l σ j) ↔ f.IsPreheader k j := by
  obtain ⟨t, e⟩ := hk.back
  have hkf := (h.edge_ne e.1).2
  have href : (f.entered l σ new).ref (f.changed l σ j).id = f.ref j.id :=
    congrArg f.ref (id_rewired j)
  have hbody : ∀ b, b ≠ f.ref f.fresh → (b ∈ l'.body ↔ b ∈ k.body) :=
    fun b => h.mem_body_entered hl' hk heq
  have hedge : ∀ b, (f.entered l σ new).Edge b l'.header ↔ f.Edge b k.header := fun b => by
    rw [heq, h.edge_other hne hkf]
  have hsuccs : (f.changed l σ j).succs = [l'.header] ↔ j.succs = [k.header] := by
    rw [h.succs_changed hj, heq]
    by_cases hout : j.id ∈ f.entering l
    · have hin := ((h.mem_entering hj).mp hout).1
      rw [if_pos hout]
      constructor
      · intro hs
        have hmem :=
          List.mem_map_of_mem (f := fun s => if s = l.header then f.ref f.fresh else s) hin
        rw [hs, if_pos rfl] at hmem
        exact absurd (List.mem_singleton.mp hmem).symm hkf
      · intro hs
        rw [hs] at hin
        exact absurd (List.mem_singleton.mp hin).symm hne
    · rw [if_neg hout]
  constructor
  · intro hp
    refine ⟨hj, hsuccs.mp hp.succs, fun hin => hp.outside ?_, fun b e hb => ?_⟩
    · rw [href]
      exact (hbody _ (h.ne_fresh hj)).mpr hin
    · rw [← href]
      exact hp.only b ((hedge b).mpr e) fun hin => hb ((hbody b (h.edge_ne e).1).mp hin)
  · intro hp
    refine ⟨h.mem_changed_blocks hj, hsuccs.mpr hp.succs, fun hin => hp.outside ?_,
      fun b e hb => ?_⟩
    · rw [href] at hin
      exact (hbody _ (h.ne_fresh hj)).mp hin
    · have e := (hedge b).mp e
      rw [href]
      exact hp.only b e fun hin => hb ((hbody b (h.edge_ne e).1).mpr hin)

end Inserts

end Func

namespace Module

variable {m : Module} {f : Func} {l : Loop} (hm : m.Consistent) (hf : f ∈ m.known)
  (hlinked : f.Linked) (hl : f.IsNaturalLoop l)

include hm hf hlinked hl

theorem Consistent.extensible : f.Extensible l where
  toRoomy := hm.roomy hf hlinked.distinct (hl.exists_block hlinked hl.header_mem)
  linked := hlinked
  loop := hl

/-- A loop without a preheader is given one. -/
theorem insertPreheader_eq
    (hphis : ∀ φ ∈ f.phis l.header.number, φ.operands.length = φ.incoming.length) :
    insertPreheader l m =
      if (f.preheader? l).isSome then .ok none m
      else .ok (some f.fresh) (m.update (f.withPreheader l)) := by
  have hext := hm.extensible hf hlinked hl
  obtain ⟨k, hk, hheader⟩ := hext.header
  have hfunc : m.func? f.id = some f := hm.func?_iff.mpr ⟨hf, rfl⟩
  have hopen :
      ((f.entering l).isEmpty && f.entry?.map Block.id ≠ some l.header.number) = false := by
    rw [Bool.and_eq_false_iff, List.isEmpty_eq_false_iff, decide_eq_false_iff_not, ne_eq, not_not]
    by_cases hentry : f.entryRef? = some l.header
    · right
      obtain ⟨e, he, heq⟩ := Option.map_eq_some_iff.mp hentry
      rw [he, ← heq]
      rfl
    · exact Or.inl (hext.entering_ne hentry)
  have hnone :
      ((f.phis l.header.number).find? fun i => i.incoming.length < i.operands.length) = none := by
    rw [List.find?_eq_none]
    intro φ hφ
    simp [hphis φ hφ]
  rw [insertPreheader_eq_edit hm hf hk hheader]
  simp only [edit, hfunc, Func.insertPreheader, hopen, Bool.or_false, hnone]
  by_cases hsome : (f.preheader? l).isSome = true
  · simp only [if_pos hsome, hm.update_self hf]
  · simp only [if_neg hsome]
    rfl

end Module

end KernelIR
