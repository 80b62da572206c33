import KernelIR.Proofs.Preheader.Insertion

namespace KernelIR

namespace Func

variable {f : Func} {l : Loop} {σ : Instr → Instr} {new : List Instr}
  {isTerm isTerm' : InstrId → Bool} {φ j : Instr} {x b : BlockRef}

/-- A new block before the header of a loop in a function in valid form. -/
structure Insertion (f : Func) (isTerm : InstrId → Bool) (l : Loop) (σ : Instr → Instr)
    (new : List Instr) : Prop
    extends f.Enterable isTerm l, f.Inserts l σ new

theorem Enterable.exists_insertion (h : f.Enterable isTerm l) :
    ∃ σ new, f.withPreheader l = f.entered l σ new ∧ f.Insertion isTerm l σ new := by
  obtain ⟨σ, new, heq, hinserts⟩ := h.toExtensible.exists_inserts
  exact ⟨σ, new, heq, { h with joins := hinserts.joins }⟩

namespace Insertion

variable (h : f.Insertion isTerm l σ new)

include h

theorem entryRef?_eq : (f.entered l σ new).entryRef? = f.entryRef? := by
  -- the header is branched to, so the function does not start there
  obtain ⟨t, e⟩ := h.loop.back
  rw [h.entryRef?_entered, if_neg (h.valid.entry_ne e.1)]

theorem exists_root :
    ∃ r, f.entryRef? = some r ∧ (f.entered l σ new).entryRef? = some r ∧ r ≠ f.ref f.fresh := by
  obtain ⟨j, hj, _⟩ := h.header
  obtain ⟨r, hr⟩ := exists_entry hj
  obtain ⟨k, hk, hkr⟩ := Option.map_eq_some_iff.mp hr
  exact ⟨r, hr, h.entryRef?_eq.trans hr, hkr ▸ h.ne_fresh (List.mem_of_head? hk)⟩

theorem shaped_entered : ∀ k ∈ (f.entered l σ new).blocks, k.Shaped := by
  intro k hk
  rcases h.mem_blocks.mp hk with rfl | ⟨j, hj, rfl⟩
  · refine ⟨new, [], f.entrance l new.length, by simp [preheader], ?_, by simp, rfl⟩
    exact fun j hj => (h.joins.made j hj).1
  · exact (h.valid.shaped j hj).of_ops (h.ops_changed j)

/-- Every phi of the header takes a value from the new block. -/
theorem joined_phi (hφ : φ ∈ f.phis l.header.number) :
    ∃ v, σ φ = φ.withEntries (φ.kept ((f.entering l).map f.ref) ++ [(v, f.ref f.fresh)]) ∧
      ((∃ o, φ.moved ((f.entering l).map f.ref) = [(v, o)]) ∨ ∃ j ∈ new, v = .instr j.id) := by
  obtain ⟨v, hv, hfrom⟩ := (h.joins.joined φ hφ).resolve_left fun hnone => h.moved_ne hφ hnone.1
  exact ⟨v, hv, hfrom.imp_right fun ⟨j, hj, heq, _⟩ => ⟨j, hj, heq⟩⟩

/-- The phis of the new block take exactly the values from outside. -/
theorem entries_new (hj : j ∈ new) : j.operands.length = j.incoming.length ∧
    j.incoming.Perm (((f.entered l σ new).preds f.fresh).map (f.entered l σ new).ref) := by
  obtain ⟨_, φ, hφ, hoperands, hincoming⟩ := h.joins.made j hj
  obtain ⟨hlen, hnodup, _⟩ := h.incoming_phi hφ
  refine ⟨by rw [hoperands, hincoming, List.length_map, List.length_map], ?_⟩
  rw [h.linked_entered.perm_preds_iff, hincoming]
  constructor
  · rw [Operation.snd_moved hlen]
    exact hnodup.filter _
  · intro x
    rw [h.mem_snd_moved hφ]
    exact (h.detour.enters x).symm

/-- A phi of the header takes the values from the loop as before and one from the new block. -/
theorem entries_phi (hφ : φ ∈ f.phis l.header.number) :
    (σ φ).operands.length = (σ φ).incoming.length ∧
    (σ φ).incoming.Perm
      (((f.entered l σ new).preds l.header.number).map (f.entered l σ new).ref) := by
  obtain ⟨v, hv, _⟩ := h.joined_phi hφ
  obtain ⟨hlen, hnodup, _⟩ := h.incoming_phi hφ
  obtain ⟨k, hk, hheader⟩ := h.header
  have hincoming :
      (σ φ).incoming = (φ.kept ((f.entering l).map f.ref)).map Prod.snd ++ [f.ref f.fresh] := by
    rw [hv]
    simp [Instr.withEntries]
  refine ⟨by rw [hv]; simp [Instr.withEntries], ?_⟩
  have href : (f.entered l σ new).ref l.header.number = l.header := by
    rw [hheader]
    rfl
  rw [h.linked_entered.perm_preds_iff, hincoming, href]
  constructor
  · rw [List.nodup_append]
    refine ⟨?_, List.nodup_singleton _, ?_⟩
    · rw [Operation.snd_kept hlen]
      exact hnodup.filter _
    · intro x hx y hy he
      rw [he, List.mem_singleton.mp hy] at hx
      exact (h.edge_ne ((h.mem_snd_kept hφ).mp hx).1).1 rfl
  · intro x
    rw [List.mem_append, h.mem_snd_kept hφ, List.mem_singleton, h.edge_header, or_comm]

theorem entries_entered : ∀ k ∈ (f.entered l σ new).blocks, ∀ i ∈ k.instrs, i.op = .phi →
    i.operands.length = i.incoming.length ∧
      i.incoming.Perm (((f.entered l σ new).preds k.id).map (f.entered l σ new).ref) := by
  intro b hb i hi hop
  rcases h.mem_blocks.mp hb with rfl | ⟨k, hk, rfl⟩
  · rcases List.mem_append.mp hi with hi | hi
    · exact h.entries_new hi
    · rw [List.mem_singleton.mp hi] at hop
      cases hop
  · have hid : (f.changed l σ k).id = k.id := id_rewired k
    rcases h.mem_changed hk hi with ⟨i', hi', _, hop', hoperands, hincoming, hφ⟩ |
    ⟨φ, hφ, hheader, rfl⟩
    · have hphi : i'.op = .phi := hop'.symm.trans hop
      obtain ⟨hlen, hperm⟩ := h.valid.entries k hk i' hi' hphi
      rw [hoperands, hincoming, hid]
      refine ⟨hlen, ?_⟩
      rw [h.linked.perm_preds_iff] at hperm
      rw [h.linked_entered.perm_preds_iff]
      refine ⟨hperm.1, fun x => (hperm.2 x).trans ?_⟩
      exact (h.edge_other (fun he => hφ ⟨he.symm, hphi⟩) (h.ne_fresh hk)).symm
    · have hn : l.header.number = k.id := congrArg BlockRef.number hheader
      rw [hid, ← hn]
      exact h.entries_phi hφ

theorem entry_entered :
    ∀ k, entry? (f.entered l σ new) = some k → (f.entered l σ new).preds k.id = [] := by
  intro k hk
  have hroot : f.entryRef? = some (f.ref k.id) := by
    rw [← h.entryRef?_eq, entryRef?, hk]
    rfl
  obtain ⟨r, hr, _, hne⟩ := h.exists_root
  rw [Option.some.inj (hr.symm.trans hroot)] at hne
  obtain ⟨t, hback⟩ := h.loop.back
  have hheader : f.ref k.id ≠ l.header := fun he => h.valid.entry_ne hback.1 (he ▸ hroot)
  rw [List.eq_nil_iff_forall_not_mem]
  intro p hp
  exact h.valid.entry_ne ((h.edge_other hheader hne).mp (mem_preds_iff.mp hp)) hroot

theorem uses_entered :
    ∀ k ∈ (f.entered l σ new).blocks, (f.entered l σ new).Reaches ((f.entered l σ new).ref k.id) →
    ∀ i ∈ k.instrs, i.op ≠ .phi → ∀ d ∈ i.reads, k.Precedes d i.id ∨
      ∃ j ∈ (f.entered l σ new).blocks, j.holds d = true ∧
        (f.entered l σ new).StrictlyDominates ((f.entered l σ new).ref j.id)
          ((f.entered l σ new).ref k.id) := by
  intro b hb hr i hi hop d hd
  rcases h.mem_blocks.mp hb with rfl | ⟨k, hk, rfl⟩
  · rcases List.mem_append.mp hi with hi | hi
    · exact absurd (h.joins.made i hi).1 hop
    · rw [List.mem_singleton.mp hi] at hd
      exact absurd hd List.not_mem_nil
  · have href : ∀ k, (f.entered l σ new).ref (f.changed l σ k).id = f.ref k.id := fun k =>
      congrArg f.ref (id_rewired k)
    rw [href] at hr ⊢
    have hreach : f.Reaches (f.ref k.id) := (h.reaches_entered (h.ne_fresh hk)).mp hr
    rcases h.mem_changed hk hi with ⟨i', hi', hid, hop', hoperands, _⟩ | ⟨φ, hφ, _, rfl⟩
    · rw [Operation.reads, hoperands] at hd
      rcases h.valid.uses k hk hreach i' hi' (hop' ▸ hop) d hd with hprec | ⟨j, hj, hold, hne, hdom⟩
      · left
        rw [Block.Precedes, h.ids_changed, hid]
        exact hprec
      · refine Or.inr ⟨f.changed l σ j, h.mem_changed_blocks hj, h.holds_changed hold, ?_⟩
        rw [href]
        exact ⟨hne, (h.dominates_entered (h.ne_fresh hj) (h.ne_fresh hk)).mpr hdom⟩
    · obtain ⟨_, _, _, _, hphi⟩ := h.mem_phis.mp hφ
      exact absurd ((h.joins.same φ).2.1.trans hphi) hop

/-- The value that a phi of the header takes from the new block is computed there, or above the only
block that leads there. -/
theorem available_new (hφ : φ ∈ f.phis l.header.number) {v : Value} {d : InstrId}
    (hd : v.instr? = some d) (hr : (f.entered l σ new).Reaches (f.ref f.fresh))
    (hv : (∃ o, φ.moved ((f.entering l).map f.ref) = [(v, o)]) ∨ ∃ j ∈ new, v = .instr j.id) :
    (f.entered l σ new).Available d (f.ref f.fresh) := by
  rcases hv with ⟨o, hmoved⟩ | ⟨j, hj, rfl⟩
  · have hmem : (v, o) ∈ φ.entries := List.mem_of_mem_filter (hmoved ▸ List.mem_cons_self)
    have honly : ∀ c, f.Edge c l.header → c ∉ l.body → c = o := by
      intro c hc hout
      have hin := (h.mem_snd_moved hφ).mpr ⟨hc, hout⟩
      rw [hmoved] at hin
      exact List.mem_singleton.mp hin
    obtain ⟨r, hroot, hroot', hne⟩ := h.exists_root
    have ho : f.Reaches o := by
      obtain ⟨p, w⟩ := (reaches_iff hroot').mp hr
      rcases w.unsnoc with ⟨he, _⟩ | ⟨c, q, v, e, _⟩
      · exact absurd he hne
      · obtain ⟨hc, hout⟩ := (h.detour.enters c).mp e
        rw [← honly c hc hout]
        exact (h.reaches_entered (h.edge_ne hc).1).mp ⟨q, r, hroot', v⟩
    obtain ⟨k, hk, _, hφk, hop⟩ := h.mem_phis.mp hφ
    obtain ⟨j, hj, hold, hdom⟩ := h.valid.flows k hk φ hφk hop (v, o) hmem ho d hd
    refine ⟨f.changed l σ j, h.mem_changed_blocks hj, h.holds_changed hold, ?_⟩
    have href : (f.entered l σ new).ref (f.changed l σ j).id = f.ref j.id :=
      congrArg f.ref (id_rewired j)
    rw [href, dominates_iff hroot']
    apply h.detour.dominates_new hne (h.ne_fresh hj)
    intro c hc hout
    rw [honly c hc hout]
    exact (dominates_iff hroot).mp hdom
  · refine ⟨f.preheader l new, h.mem_blocks.mpr (Or.inl rfl), ?_, Dominates.refl _⟩
    exact Block.holds_iff.mpr ⟨j, List.mem_append_left _ hj, Option.some.inj hd⟩

/-- An entry of an old phi, wherever it stands now. -/
theorem available_old {k : Block} (hk : k ∈ f.blocks) {i : Instr} (hi : i ∈ k.instrs)
    (hop : i.op = .phi) {e : Value × BlockRef} (he : e ∈ i.entries)
    (hr : (f.entered l σ new).Reaches e.2) {d : InstrId}
    (hd : e.1.instr? = some d) : (f.entered l σ new).Available d e.2 := by
  obtain ⟨_, hperm⟩ := h.valid.entries k hk i hi hop
  have hedge : f.Edge e.2 (f.ref k.id) :=
    ((h.linked.perm_preds_iff.mp hperm).2 e.2).mp (List.of_mem_zip he).2
  have hne := (h.edge_ne hedge).1
  exact h.available_entered
    (h.valid.flows k hk i hi hop e he ((h.reaches_entered hne).mp hr) d hd) hne

theorem flows_entered :
    ∀ k ∈ (f.entered l σ new).blocks, ∀ i ∈ k.instrs, i.op = .phi → ∀ e ∈ i.entries,
    (f.entered l σ new).Reaches e.2 →
    ∀ d, e.1.instr? = some d → (f.entered l σ new).Available d e.2 := by
  intro b hb i hi hop e he hr d hd
  rcases h.mem_blocks.mp hb with rfl | ⟨k, hk, rfl⟩
  · rcases List.mem_append.mp hi with hi | hi
    · obtain ⟨_, φ, hφ, hoperands, hincoming⟩ := h.joins.made i hi
      rw [Operation.entries_of_map hoperands hincoming] at he
      obtain ⟨k, hk, _, hφk, hop⟩ := h.mem_phis.mp hφ
      exact h.available_old hk hφk hop (List.mem_of_mem_filter he) hr hd
    · rw [List.mem_singleton.mp hi] at hop
      cases hop
  · rcases h.mem_changed hk hi with ⟨i', hi', _, hop', hoperands, hincoming, _⟩ | ⟨φ, hφ, _, rfl⟩
    · rw [Operation.entries, hoperands, hincoming] at he
      exact h.available_old hk hi' (hop'.symm.trans hop) he hr hd
    · obtain ⟨v, hv, hfrom⟩ := h.joined_phi hφ
      rw [hv, Operation.entries_of_map rfl rfl] at he
      rcases List.mem_append.mp he with he | he
      · obtain ⟨k, hk, _, hφk, hop⟩ := h.mem_phis.mp hφ
        exact h.available_old hk hφk hop (List.mem_of_mem_filter he) hr hd
      · rw [List.mem_singleton.mp he] at hr hd ⊢
        exact h.available_new hφ hd hr hfrom

/-- A preheader keeps a function in valid form. -/
theorem valid_entered (hreads : ∀ i ∈ f.instrs, ∀ d ∈ i.reads, isTerm' d = false)
    (hnew : ∀ j ∈ new, isTerm' j.id = false) : (f.entered l σ new).Valid isTerm' where
  linked := h.linked_entered
  shaped := h.shaped_entered
  entries := h.entries_entered
  operands i hi d hd := by
    rcases h.reads_entered hi hd with ⟨i', hi', hd⟩ | ⟨j, hj, rfl⟩
    · exact hreads i' hi' d hd
    · exact hnew j hj
  entry := h.entry_entered
  uses := h.uses_entered
  flows := h.flows_entered

end Insertion

end Func

end KernelIR
