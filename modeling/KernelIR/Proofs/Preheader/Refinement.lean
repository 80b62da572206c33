import KernelIR.Proofs.Semantics
import KernelIR.Proofs.Simplify

namespace KernelIR

/-- What a value at the end of a block stands for when the block was entered from `p`: the phis of
the block pass on what flows into them from there. -/
def Block.source? (k : Block) (p : BlockRef) (v : Value) : Option Value :=
  match v.instr?.bind fun d => k.instrs.find? fun i => i.op = .phi && i.id = d with
  | some i => i.flowing? (some p)
  | none => some v

theorem Operation.flowing?_of_mem {o : Operation} {v : Value} {p : BlockRef}
    (hn : (o.entries.map Prod.snd).Nodup)
    (hv : (v, p) ∈ o.entries) : o.flowing? (some p) = some v := by
  simp [flowing?, (find?_key_iff hn).mpr ⟨hv, rfl⟩]

namespace Func

open Operation

/-- Whether a phi has one entry for each block that branches to block `n`. -/
def Covers (f : Func) (n : BlockId) (φ : Instr) : Prop :=
  φ.operands.length = φ.incoming.length ∧ φ.incoming.Perm ((f.preds n).map f.ref)

variable {f : Func} {l k l' : Loop} {σ : Instr → Instr} {new : List Instr} {φ : Instr}
  {p : BlockRef} {b : Block}

namespace Inserts

variable (h : f.Inserts l σ new)

include h

/-- The dominator trees agree about old blocks. -/
theorem domTree_dominates {a : Block} (ha : a ∈ f.blocks) (hb : b ∈ f.blocks) :
    (f.entered l σ new).flow.domTree.dominates (f.ref a.id) (f.ref b.id) =
      f.flow.domTree.dominates (f.ref a.id) (f.ref b.id) := by
  have hnode : ∀ {k}, k ∈ f.blocks → f.ref k.id ∈ (f.entered l σ new).flow.nodes := fun hk =>
    mem_nodes_flow.mpr ⟨_, h.mem_changed_blocks hk, congrArg f.ref (id_rewired _).symm⟩
  rw [Bool.eq_iff_iff, h.linked_entered.dominates_iff (hnode ha) (hnode hb),
    h.linked.dominates_iff (mem_nodes_flow.mpr ⟨a, ha, rfl⟩) (mem_nodes_flow.mpr ⟨b, hb, rfl⟩),
    h.reaches_entered (h.ne_fresh ha), h.reaches_entered (h.ne_fresh hb),
    h.dominates_entered (h.ne_fresh ha) (h.ne_fresh hb)]

/-- The new block is in the loops around the one it was made for. -/
theorem fresh_mem_body_iff (hl' : (f.entered l σ new).IsNaturalLoop l') (hk : f.IsNaturalLoop k)
    (heq : l'.header = k.header) : f.ref f.fresh ∈ l'.body ↔
    l.header ≠ k.header ∧ l.header ∈ k.body := by
  have hd := h.detour
  obtain ⟨u, hu⟩ := hk.back
  have hkf : k.header ≠ f.ref f.fresh := (h.edge_ne hu.1).2
  rw [hl'.body, hk.body, heq]
  constructor
  · intro hin
    obtain ⟨_, t, q, e, w, hq⟩ := hin.resolve_left (Ne.symm hkf)
    have ht : t ≠ f.ref f.fresh := fun he => h.not_backEdge_of_fresh (he ▸ e)
    have v := (hd.erase w ht).2 rfl
    have hout : k.header ∉ q.filter (· ≠ f.ref f.fresh) :=
      fun hin => hq (List.mem_of_mem_filter hin)
    have hreach := h.loop.reaches h.loop.header_mem
    exact ⟨fun he => hout (he ▸ v.first_mem),
      Or.inr ⟨hreach, t, _, (h.backEdge_entered ht hkf).mp e, v, hout⟩⟩
  · rintro ⟨hne, hin⟩
    obtain ⟨hreach, t, q, e, w, hq⟩ := hin.resolve_left hne
    obtain ⟨s, v, rfl⟩ := hd.lift w hd.target
    have hback := (h.backEdge_entered (h.edge_ne e.1).1 hkf).mpr e
    refine Or.inr ⟨?_, t, f.ref f.fresh :: s, hback, .cons ((hd.leaves _).mpr rfl) v, ?_⟩
    · obtain ⟨j, hj, hheader⟩ := List.mem_map.mp (h.linked_entered.mem_headers.mpr
        (h.exists_backEdge_entered.mpr h.loop.back))
      have hnat := h.linked_entered.isNaturalLoop hj
      have hpre := h.isPreheader_new hnat hheader
      by_cases hentry : f.entryRef? = some l.header
      · refine Reaches.entry ?_
        rw [h.entryRef?_entered, if_pos hentry]
      · refine (hpre.dominates hnat ?_).reaches (hnat.reaches hnat.header_mem)
        rwa [h.entryRef?_entered, if_neg hentry, hheader]
    · rw [List.mem_cons, not_or]
      exact ⟨hkf, fun hin => hq (List.mem_filter.mpr ⟨hin, by simpa using hkf⟩)⟩

theorem block?_changed (hb : b ∈ f.blocks) :
    (f.entered l σ new).block? b.id = some (f.changed l σ b) :=
  (block?_iff h.linked_entered).mpr ⟨h.mem_changed_blocks hb, id_rewired b⟩

theorem block?_fresh : (f.entered l σ new).block? f.fresh = some (f.preheader l new) :=
  (block?_iff h.linked_entered).mpr ⟨h.mem_blocks.mpr (Or.inl rfl), rfl⟩

/-- An old block has the phis it had, with the entries they are given. -/
theorem phis_entered (hb : b ∈ f.blocks) : (f.entered l σ new).phis b.id = (f.phis b.id).map σ := by
  have hblock : f.block? b.id = some b := (block?_iff h.linked).mpr ⟨hb, rfl⟩
  simp only [phis, h.block?_changed hb, hblock, h.filter_phi_changed hb]

theorem phis_other (hb : b ∈ f.blocks) (hne : f.ref b.id ≠ l.header) :
    (f.entered l σ new).phis b.id = f.phis b.id := by
  have hblock : f.block? b.id = some b := (block?_iff h.linked).mpr ⟨hb, rfl⟩
  have hself : ∀ φ ∈ f.phis b.id, σ φ = φ := by
    intro φ hφ
    simp only [phis, hblock, List.mem_filter] at hφ
    exact h.eq_self hb hφ.1 rfl fun hheader => hne hheader.1.symm
  rw [h.phis_entered hb, List.map_congr_left hself, List.map_id']

/-- The sources of a phi of the header that covers the branches there. -/
theorem mem_incoming (hφ : f.Covers l.header.number φ) : φ.incoming.Nodup ∧ ∀ x, x ∈ φ.incoming ↔
    f.Edge x l.header := by
  obtain ⟨j, _, hheader⟩ := h.header
  have hnumber : f.ref l.header.number = l.header := by
    rw [hheader]
    rfl
  have hsources := h.linked.perm_preds_iff.mp hφ.2
  rwa [hnumber] at hsources

theorem entries_ne_fresh (hφ : f.Covers l.header.number φ) {e : Value × BlockRef}
    (he : e ∈ φ.entries) :
    e.2 ≠ f.ref f.fresh :=
  (h.edge_ne (((h.mem_incoming hφ).2 _).mp (List.of_mem_zip he).2)).1

theorem nodup_sources (hφ : f.Covers l.header.number φ) : (φ.entries.map Prod.snd).Nodup := by
  rw [Operation.snd_entries hφ.1]
  exact (h.mem_incoming hφ).1

theorem exists_flowing (hφ : f.Covers l.header.number φ) (hp : f.Edge p l.header) :
    ∃ v, φ.flowing? (some p) = some v ∧ (v, p) ∈ φ.entries := by
  have hin : p ∈ φ.entries.map Prod.snd := by
    rw [Operation.snd_entries hφ.1]
    exact ((h.mem_incoming hφ).2 p).mpr hp
  obtain ⟨⟨v, q⟩, hv, rfl⟩ := List.mem_map.mp hin
  exact ⟨v, flowing?_of_mem (h.nodup_sources hφ) hv, hv⟩

/-- What flows in from the loop stays. -/
theorem entries_inside (hmem : φ ∈ f.phis l.header.number) (hφ : f.Covers l.header.number φ) :
    (σ φ).entries.filter (·.2 ≠ f.ref f.fresh) = φ.entries.filter fun e => l.contains e.2 := by
  have hkept : φ.kept ((f.entering l).map f.ref) = φ.entries.filter fun e => l.contains e.2 := by
    refine List.filter_congr fun e he => ?_
    have hedge := ((h.mem_incoming hφ).2 _).mp (List.of_mem_zip he).2
    rw [Bool.eq_iff_iff]
    simp [-List.mem_map, Loop.contains, mem_map_entering h.linked h.loop, hedge]
  have hold :
      ∀ {es : List (Value × BlockRef)}, es ⊆ φ.entries → es.filter (·.2 ≠ f.ref f.fresh) = es := by
    intro es hsub
    rw [List.filter_eq_self]
    exact fun e he => by simpa using h.entries_ne_fresh hφ (hsub he)
  rcases h.joins.joined φ hmem with ⟨hnone, hself⟩ | ⟨v, hv, _⟩
  · rw [hself, hold (List.Subset.refl _), ← hkept, Operation.kept, eq_comm, List.filter_eq_self]
    intro e he
    simpa using List.filter_eq_nil_iff.mp hnone e he
  · have hsub : φ.kept ((f.entering l).map f.ref) ⊆ φ.entries := List.filter_subset_self _
    rw [hv, Operation.entries_of_map rfl rfl, List.filter_append, hold hsub, hkept]
    simp

/-- A value that flows into the header from outside stands for itself in the new block. -/
theorem source?_old (hmem : φ ∈ f.phis l.header.number) {v : Value} (hv : (v, p) ∈ φ.entries) :
    (f.preheader l new).source? p v = some v := by
  have hnone : (v.instr?.bind fun d =>
      (f.preheader l new).instrs.find? fun i => i.op = .phi && i.id = d) = none := by
    rw [Option.bind_eq_none_iff]
    intro d hd
    have hread := Operation.mem_reads_of_entry hv hd
    have hmade :=
      h.old φ (List.mem_append_left _ (h.mem_instrs_phi hmem)) d (List.mem_cons_of_mem _ hread)
    rw [List.find?_eq_none]
    intro i hi hid
    have hin : i.id ∈ (List.range (new.length + 1)).map f.made := h.ids_new ▸ List.mem_map_of_mem hi
    obtain ⟨n, _, hn⟩ := List.mem_map.mp hin
    simp only [Bool.and_eq_true, decide_eq_true_eq] at hid
    exact hmade n (hid.2.symm.trans hn.symm)
  rw [Block.source?, hnone]

/-- A new phi stands for what flows into it. -/
theorem source?_new {j : Instr} (hj : j ∈ new) :
    (f.preheader l new).source? p (.instr j.id) = j.flowing? (some p) := by
  have hmem : j ∈ (f.preheader l new).instrs := List.mem_append_left _ hj
  have hfind : ((f.preheader l new).instrs.find? fun i => i.op = .phi && i.id = j.id) = some j := by
    refine (find?_iff_of_unique fun a ha b hb hja hjb => ?_).mpr
      ⟨hmem, by simp [(h.joins.made j hj).1]⟩
    have hnodup : ((f.preheader l new).instrs.map Instr.id).Nodup :=
      nodup_block h.grows.own (h.mem_blocks.mpr (Or.inl rfl))
    simp only [Bool.and_eq_true, decide_eq_true_eq] at hja hjb
    exact List.inj_on_of_nodup_map hnodup ha hb (hja.2.trans hjb.2.symm)
  simp only [Block.source?, Value.instr?, Option.bind_some, hfind]

/-- What a phi of the header takes through the new block is what it took from the block before. -/
theorem source?_flowing (hmem : φ ∈ f.phis l.header.number) (hφ : f.Covers l.header.number φ)
    (hp : f.Edge p l.header) (hout : p ∉ l.body) :
    ∃ v, φ.flowing? (some p) = some v ∧
      ((σ φ).flowing? (some (f.ref f.fresh))).bind ((f.preheader l new).source? p) = some v := by
  obtain ⟨v, hflow, hv⟩ := h.exists_flowing hφ hp
  refine ⟨v, hflow, ?_⟩
  have hpout : p ∈ (f.entering l).map f.ref := (mem_map_entering h.linked h.loop).mpr ⟨hp, hout⟩
  have hmoved : (v, p) ∈ φ.moved ((f.entering l).map f.ref) :=
    List.mem_filter.mpr ⟨hv, by simpa using hpout⟩
  obtain ⟨u, hu, hfrom⟩ :=
    (h.joins.joined φ hmem).resolve_left fun hnone => List.ne_nil_of_mem hmoved hnone.1
  have htaken : (σ φ).flowing? (some (f.ref f.fresh)) = some u := by
    have hkept :
        ((φ.kept ((f.entering l).map f.ref)).find? fun e => e.2 = f.ref f.fresh) = none := by
      rw [List.find?_eq_none]
      intro e he
      simpa using h.entries_ne_fresh hφ (List.mem_of_mem_filter he)
    rw [hu, flowing?, Option.bind_some, Operation.entries_of_map rfl rfl, List.find?_append, hkept]
    simp
  rw [htaken, Option.bind_some]
  rcases hfrom with ⟨o, hone⟩ | ⟨j, hj, rfl, hentries⟩
  · rw [hone, List.mem_singleton, Prod.mk.injEq] at hmoved
    rw [← hmoved.1]
    exact h.source?_old hmem hv
  · rw [h.source?_new hj]
    rw [← hentries] at hmoved
    have hsub : (j.entries.map Prod.snd).Sublist (φ.entries.map Prod.snd) := by
      rw [hentries]
      exact List.filter_sublist.map _
    exact flowing?_of_mem ((h.nodup_sources hφ).sublist hsub) hmoved

end Inserts

end Func

namespace Module

variable {m m₁ : Module} {f : Func} {l : Loop} {n : BlockId}

/-- A preheader that was inserted is the new block of the function. -/
theorem insertPreheader_some (hm : m.Consistent) (hf : f ∈ m.known) {k : Block} (hk : k ∈ f.blocks)
    (hheader : l.header = f.ref k.id) (hrun : insertPreheader l m = .ok (some n) m₁) :
    n = f.fresh ∧ m₁ = m.update (f.withPreheader l) := by
  rw [insertPreheader_eq_edit hm hf hk hheader] at hrun
  simp only [edit, hm.func?_iff.mpr ⟨hf, rfl⟩, Func.insertPreheader] at hrun
  split at hrun
  · next heq =>
    split at heq
    · cases heq
      cases hrun
    · split at heq
      · cases heq
      · cases heq
        cases hrun
        exact ⟨rfl, rfl⟩
  · cases hrun

/-- A preheader for a loop of a function whose branches lead to its own blocks. The ways to an old
block are the old ones once the new block is left out, and dominance is the same. The loops have the
headers and the old blocks they had, and the new block is in those around its own. A phi of another
block stays as it is. A phi of the header with an entry for each branch there takes from the loop
what it took, and through the new block what it took from the block before. -/
theorem insertPreheader_refines (m m₁ : Module) (f : Func) (nest : LoopNest) (l : Loop)
    (n : BlockId) (hm : m.Consistent) (hf : m.func? f.id = some f) (hlinked : f.Linked)
    (hnest : m.loopNest f (m.domTree f) = .ok nest) (hl : l ∈ nest)
    (hrun : insertPreheader l m = .ok (some n) m₁) :
    ∃ g pre nest₁, m₁.func? f.id = some g ∧ m₁ = m.update g ∧ g.block? n = some pre ∧
      pre.succs = [l.header] ∧ (g.blocks.map Block.id).Perm (n :: f.blocks.map Block.id) ∧
      m₁.loopNest g (m₁.domTree g) = .ok nest₁ ∧ (∀ b ∈ f.blocks, ∀ q, f.EntryPath q (f.ref b.id) ↔
        ∃ s, g.EntryPath s (f.ref b.id) ∧ s.filter (· ≠ f.ref n) = q) ∧
      (∀ a ∈ f.blocks, ∀ b ∈ f.blocks,
        (m₁.domTree g).dominates (f.ref a.id) (f.ref b.id) =
        (m.domTree f).dominates (f.ref a.id) (f.ref b.id)) ∧
      (nest₁.map Loop.header).Perm (nest.map Loop.header) ∧
      (∀ k ∈ nest, ∀ k' ∈ nest₁, k'.header = k.header →
        (∀ b, b ≠ f.ref n → (b ∈ k'.body ↔ b ∈ k.body)) ∧ (f.ref n ∈ k'.body ↔ l.Inside k)) ∧
      (∀ b ∈ f.blocks, f.ref b.id ≠ l.header → g.phis b.id = f.phis b.id) ∧
      (g.phis l.header.number).map Instr.id = (f.phis l.header.number).map Instr.id ∧
      ∀ φ ∈ f.phis l.header.number, f.Covers l.header.number φ →
        ∃ φ' ∈ g.phis l.header.number, φ'.id = φ.id ∧
        φ'.entries.filter (·.2 ≠ f.ref n) = φ.entries.filter (fun e => l.contains e.2) ∧
        ∀ p, f.Edge p l.header → p ∉ l.body → ∃ v, φ.flowing? (some p) = some v ∧
          (φ'.flowing? (some (f.ref n))).bind (pre.source? p) = some v := by
  rw [hlinked.loopNest_eq] at hnest
  cases hnest
  have hnat := hlinked.isNaturalLoop hl
  obtain ⟨hknown, _⟩ := hm.func?_iff.mp hf
  obtain ⟨j, hj, hheader⟩ := hnat.exists_block hlinked hnat.header_mem
  obtain ⟨rfl, rfl⟩ := insertPreheader_some hm hknown hj hheader hrun
  obtain ⟨σ, new, heq, h⟩ := (hm.extensible hknown hlinked hnat).exists_inserts
  rw [heq]
  have hlinked₁ := h.linked_entered
  have hphis : (f.entered l σ new).phis l.header.number = (f.phis l.header.number).map σ := by
    rw [hheader]
    exact h.phis_entered hj
  refine ⟨f.entered l σ new, f.preheader l new, (f.entered l σ new).nest, ?_, rfl,
    h.block?_fresh, ?_, ?_, hlinked₁.loopNest_eq _,
    fun b hb q => h.entryPath_entered (h.ne_fresh hb), fun a ha b hb => ?_, ?_,
    fun k hk k' hk' hkk => ?_, fun b hb hne => h.phis_other hb hne, ?_, fun φ hφ hcovers => ?_⟩
  · rw [func?_update, hf, Option.map_some, if_pos h.grows.id.symm]
  · have hinstrs : (f.preheader l new).instrs = new ++ [f.entrance l new.length] := rfl
    exact Block.succs_of_term hinstrs rfl
  · exact h.perm_numbers
  · rw [hlinked₁.domTree_eq, hlinked.domTree_eq]
    exact h.domTree_dominates ha hb
  · exact (List.perm_ext_iff_of_nodup (FlowGraph.nodup_loopNest _ _)
      (FlowGraph.nodup_loopNest _ _)).mpr
      fun d => h.mem_headers_entered
  · have hnat' := hlinked₁.isNaturalLoop hk'
    have hnatk := hlinked.isNaturalLoop hk
    refine ⟨fun b hb => h.mem_body_entered hnat' hnatk hkk hb, ?_⟩
    rw [h.fresh_mem_body_iff hnat' hnatk hkk, Func.inside_iff hlinked hl hk]
    refine and_congr_left fun _ => not_congr ⟨fun he => ?_, congrArg Loop.header⟩
    exact FlowGraph.eq_of_header hl hk he
  · rw [hphis, List.map_map]
    exact List.map_congr_left fun φ _ => (h.joins.same φ).1
  · refine ⟨σ φ, ?_, (h.joins.same φ).1, h.entries_inside hφ hcovers, fun p hp hout => ?_⟩
    · rw [hphis]
      exact List.mem_map_of_mem hφ
    · exact h.source?_flowing hφ hcovers hp hout

/-- A loop inside the loop of block 2, with block 3 as its header, is entered from two blocks. -/
def innerTwoEntries : Func :=
  let branch (serial : Nat) (targets : List BlockId) : Instr :=
    { op := .condBr, operands := [.param ⟨"flag", .int 1, 0⟩], targets := targets.map (⟨0, ·⟩)
      id := ⟨0, serial⟩ }
  let taken : List Value := [.param ⟨"x", .int 32, 1⟩, .instr ⟨0, 2⟩, .param ⟨"y", .int 32, 2⟩]
  let phi : Instr :=
    { op := .phi, operands := taken, incoming := [2, 3, 4].map (⟨0, ·⟩), id := ⟨0, 2⟩ }
  Func.record { Func.declare 0 "f" .void [("flag", .int 1), ("x", .int 32), ("y", .int 32)] with
    blocks := [
      ⟨1, "", 0, [branch 0 [2]]⟩,
      ⟨2, "", 0, [branch 1 [3, 4]]⟩,
      ⟨3, "", 0, [phi, branch 3 [3, 5]]⟩,
      ⟨4, "", 0, [branch 4 [3]]⟩,
      ⟨5, "", 0, [branch 5 [2, 6]]⟩,
      ⟨6, "", 0, [{ op := .ret, id := ⟨0, 6⟩ }]⟩]
    maxBlock := 6
    nextSerial := 7 }

theorem innerTwoEntries_refines : ∃ inner m₁ g pre nest₁,
    Consistent { name := "", functions := [innerTwoEntries] } ∧ innerTwoEntries.Linked ∧
    insertPreheader inner { name := "", functions := [innerTwoEntries] } = .ok (some 7) m₁ ∧
      m₁.func? 0 = some g ∧ g.block? 7 = some pre ∧ m₁.loopNest g (m₁.domTree g) = .ok nest₁ ∧
        (∀ q, innerTwoEntries.EntryPath q ⟨0, 5⟩ ↔
          ∃ s, g.EntryPath s ⟨0, 5⟩ ∧ s.filter (· ≠ ⟨0, 7⟩) = q) ∧
          (∀ k ∈ nest₁, k.header = ⟨0, 2⟩ → ⟨0, 7⟩ ∈ k.body) ∧
            ∃ φ ∈ g.phis 3, (φ.flowing? (some ⟨0, 7⟩)).bind (pre.source? ⟨0, 4⟩) =
              some (.param ⟨"y", .int 32, 2⟩) := by
  let inner : Loop := ⟨⟨0, 3⟩, [⟨0, 3⟩], some ⟨0, 2⟩, 2⟩
  let outer : Loop := ⟨⟨0, 2⟩, [⟨0, 2⟩, ⟨0, 5⟩, ⟨0, 3⟩, ⟨0, 4⟩], none, 1⟩
  have hm : Consistent { name := "", functions := [innerTwoEntries] } := by decide
  have hlinked : innerTwoEntries.Linked := ⟨by decide, by decide⟩
  have hnest : loopNest { name := "", functions := [innerTwoEntries] } innerTwoEntries
      (domTree { name := "", functions := [innerTwoEntries] } innerTwoEntries) =
      .ok [inner, outer] := by cbv
  have hrun : Edit.outcome? (insertPreheader inner) { name := "", functions := [innerTwoEntries] }
      (fun n _ => n) = some (some 7) := by
    cbv
  obtain ⟨_, m₁, hrun, rfl⟩ := Edit.outcome?_eq_some_iff.mp hrun
  obtain ⟨g, pre, nest₁, hg, _, hpre, _, _, hnest₁, hpaths, _, _, hloops, _, _, hphis⟩ :=
    insertPreheader_refines _ m₁ innerTwoEntries _ inner 7 hm rfl hlinked hnest
      List.mem_cons_self hrun
  have hinside : inner.Inside outer := ⟨by decide, by decide⟩
  obtain ⟨φ, hφ, _, _, hflows⟩ :=
    hphis ((innerTwoEntries.phis 3).get ⟨0, by decide⟩) (List.get_mem _ _) ⟨by decide, by decide⟩
  obtain ⟨v, hv, htaken⟩ := hflows ⟨0, 4⟩ ⟨innerTwoEntries.blocks.get ⟨3, by decide⟩,
    List.get_mem _ _, rfl, by decide⟩ (by decide)
  cases hv
  refine ⟨inner, m₁, g, pre, nest₁, hm, hlinked, hrun, hg, hpre, hnest₁,
    hpaths (innerTwoEntries.blocks.get ⟨4, by decide⟩) (List.get_mem _ _),
    fun k hk hheader => ?_, φ, hφ, htaken⟩
  exact (hloops outer (by simp) k hk hheader).2.mpr hinside

/-- Block 3 branches to the block 5 of another function, which leads back to block 4. -/
def foreignDetour : Func :=
  let ending (serial : Nat) (op : Opcode) (targets : List BlockRef) : List Instr :=
    [{ op, targets, id := ⟨0, serial⟩ }]
  Func.record { Func.declare 0 "f" .void [] with
    blocks := [
      ⟨1, "", 0, ending 0 .condBr [⟨0, 2⟩, ⟨0, 3⟩]⟩,
      ⟨2, "", 0, ending 1 .br [⟨0, 2⟩]⟩,
      ⟨3, "", 0, ending 2 .br [⟨1, 5⟩]⟩,
      ⟨4, "", 0, ending 3 .ret []⟩]
    maxBlock := 4
    nextSerial := 4 }

def foreignDetourModule : Module :=
  let other := Func.record { Func.declare 1 "other" .void [] with
    blocks := [⟨5, "", 1, [{ op := .br, targets := [⟨0, 4⟩], id := ⟨1, 0⟩ }]⟩]
    maxBlock := 5
    nextSerial := 1 }
  { name := "", functions := [foreignDetour, other] }

/-- Blocks are told apart by their numbers, so the new block takes the place of a block of another
function that branches lead to, and what was reached through that one is no longer dominated by
anything. -/
theorem foreignDetour_loses_dominance : ∃ nest l m₁ g, foreignDetourModule.Consistent ∧
    foreignDetourModule.func? 0 = some foreignDetour ∧
    (foreignDetour.blocks.map Block.id).Nodup ∧
    foreignDetourModule.loopNest foreignDetour
      (foreignDetourModule.domTree foreignDetour) = .ok nest ∧ l ∈ nest ∧
      insertPreheader l foreignDetourModule = .ok (some 5) m₁ ∧ m₁.func? 0 = some g ∧
        (foreignDetourModule.domTree foreignDetour).dominates ⟨0, 3⟩ ⟨0, 4⟩ = true ∧
        (m₁.domTree g).dominates ⟨0, 3⟩ ⟨0, 4⟩ = false := by
  let l : Loop := ⟨⟨0, 2⟩, [⟨0, 2⟩], none, 1⟩
  have hm : foreignDetourModule.Consistent := by decide
  have hnest : foreignDetourModule.loopNest foreignDetour
      (foreignDetourModule.domTree foreignDetour) = .ok [l] := by cbv
  have hbefore :
      (foreignDetourModule.domTree foreignDetour).dominates ⟨0, 3⟩ ⟨0, 4⟩ = true := by cbv
  have hafter : Edit.outcome? (insertPreheader l) foreignDetourModule (fun n m₁ =>
      (n, (m₁.func? 0).map fun g => (m₁.domTree g).dominates ⟨0, 3⟩ ⟨0, 4⟩)) =
      some (some 5, some false) := by cbv
  obtain ⟨n, m₁, hrun, hread⟩ := Edit.outcome?_eq_some_iff.mp hafter
  rw [Prod.mk.injEq, Option.map_eq_some_iff] at hread
  obtain ⟨rfl, g, hg, hlost⟩ := hread
  exact ⟨[l], l, m₁, g, hm, rfl, by decide, hnest, List.mem_cons_self, hrun, hg, hbefore, hlost⟩

end Module

end KernelIR
