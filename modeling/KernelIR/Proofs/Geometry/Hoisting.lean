import KernelIR.Proofs.Geometry.Markers
import KernelIR.Proofs.Geometry.Steady
import KernelIR.Proofs.Graph.Onward
import KernelIR.Proofs.Motion.Traversal
import KernelIR.Proofs.Ownership.Editing

namespace KernelIR

namespace Func

variable {f g : Func} {l : Loop}

theorem Steady.sealed (h : f.Steady g) (hg : g.Sealed) : f.Sealed := by
  obtain ⟨k', i, hblocks, hlast, hop⟩ := hg
  have hpairs := h.blocks
  rw [hblocks] at hpairs
  obtain ⟨k, ks, hk, hnil, hcons⟩ := List.forall₂_cons_right_iff.mp hpairs
  rw [List.forall₂_nil_right_iff.mp hnil] at hcons
  exact ⟨k, i, hcons, hk.last ▸ hlast, hop⟩

/-- A function whose blocks lead nowhere is left alone. -/
theorem Steady.blocks_eq (h : f.Steady g) (hf : ∀ k ∈ f.blocks, k.succs = []) :
    g.blocks = f.blocks := by
  have hsame : List.Forall₂ (fun k k' => k = k') f.blocks g.blocks :=
    List.forall₂_iff_zip.mpr ⟨h.blocks.length_eq, fun hz =>
      ((List.forall₂_zip h.blocks hz).rest (hf _ (List.of_mem_zip hz).1)).symm⟩
  rw [List.forall₂_eq_eq_eq] at hsame
  exact hsame.symm

/-- A function with a preheader has more than one block. -/
theorem Places.not_sealed {σ : Instr → Instr} {new : List Instr} (h : f.Places l σ new) :
    ¬(f.entered l σ new).Sealed := by
  rintro ⟨k, i, hblocks, -⟩
  obtain ⟨j, hj, _⟩ := h.header
  have hlength := h.perm_blocks.length_eq
  rw [hblocks, List.length_singleton, List.length_cons, List.length_map] at hlength
  have hpos := List.length_pos_of_mem hj
  omega

end Func

namespace Module

variable {m m' m₁ : Module} {f g : Func} {l : Loop} {b : BlockRef}

/-- Whether no instruction but a branch has targets. -/
def OnlyBranchesLead (m : Module) : Prop :=
  ∀ f ∈ m.known, ∀ i ∈ f.held, i.targets ≠ [] → i.op = .br ∨ i.op = .condBr

instance (m : Module) : Decidable m.OnlyBranchesLead :=
  inferInstanceAs
    (Decidable (∀ f ∈ m.known, ∀ i ∈ f.held, i.targets ≠ [] → i.op = .br ∨ i.op = .condBr))

/-- Whether every function, block and instruction of a module has a number of its own, and only
branches lead to other blocks. -/
structure Regular (m : Module) : Prop where
  consistent : m.Consistent
  numbered : ∀ f ∈ m.known, (f.blocks.map Block.id).Nodup
  branches : m.OnlyBranchesLead

namespace Regular

theorem distinct (hm : m.Regular) : m.Distinct := hm.consistent.distinct hm.numbered

theorem succs_of_sealed (hm : m.Regular) (hf : f ∈ m.known) (hs : f.Sealed) {k : Block}
    (hk : k ∈ f.blocks) :
    k.succs = [] := by
  obtain ⟨k', i, hblocks, hlast, hop⟩ := hs
  rw [hblocks, List.mem_singleton] at hk
  subst hk
  have hterm : k.term? = some i := by simp [Block.term?, hlast, hop, Opcode.isTerminator]
  rw [Block.succs, hterm]
  by_contra hne
  have hheld :=
    Func.mem_held_of_mem (hblocks ▸ List.mem_singleton_self k) (List.mem_of_getLast? hlast)
  rcases hm.branches f hf i hheld hne with hbr | hbr
  · rw [hop] at hbr
    cases hbr
  · rw [hop] at hbr
    cases hbr

/-- What branches in the flow graph of a function is a block of the module that branches. -/
theorem leads_of_flow (hm : m.Regular) (hf : f ∈ m.known) (h : (m.flow f).Leads b) : m.Leads b := by
  have hblock : ∀ g ∈ m.known, ∀ e ∈ g.flow.own, e.1 = b → e.2 ≠ [] → m.Leads b := by
    intro g hg e he hb hne
    obtain ⟨k, hk, rfl⟩ := List.mem_map.mp he
    exact ⟨k, hm.distinct.block?_iff.mpr ⟨g, hg, hk, hb.symm⟩, hne⟩
  obtain ⟨e, he, hb, hne⟩ := h
  rcases List.mem_append.mp he with he | he
  · exact hblock f hf e he hb hne
  · simp only [flow] at he
    split_ifs at he
    · exact absurd he List.not_mem_nil
    · obtain ⟨g, hg, he⟩ := List.mem_flatMap.mp he
      exact hblock g (List.mem_of_mem_filter hg) e he hb hne

theorem of_shuffles (hm : m.Regular) (h : m.Shuffles m') : m'.Regular where
  consistent := h.consistent hm.consistent hm.distinct
  numbered := (h.distinct hm.distinct).blocks
  branches f hf i hi := by
    obtain ⟨g, hg, hi⟩ := mem_held.mp (h.held.mem_iff.mp (mem_held.mpr ⟨f, hf, hi⟩))
    exact hm.branches g hg i hi

end Regular

/-- The names and types of instructions do not depend on where they stand. -/
theorem Shuffles.instr?_eq (h : m.Shuffles m') (hm : m.Regular) (d : InstrId) :
    m'.instr? d = m.instr? d := by
  ext i
  rw [(hm.of_shuffles h).consistent.instr?_iff, hm.consistent.instr?_iff]
  have hmem : ∀ m : Module, (∃ f ∈ m.known, i ∈ f.held ∧ i.id = d) ↔ i ∈ m.held ∧ i.id = d :=
    fun m => by
    rw [mem_held]
    constructor
    · rintro ⟨f, hf, hi, hid⟩
      exact ⟨⟨f, hf, hi⟩, hid⟩
    · rintro ⟨⟨f, hf, hi⟩, hid⟩
      exact ⟨f, hf, hi, hid⟩
  rw [hmem, hmem, h.held.mem_iff]

theorem settled_of_steady (hm : m.Regular) (h : m.Shuffles m') (hs : m.Steady m') :
    m.Settled m' := by
  have hsig : ∀ fs gs : List Func, gs.map Func.bare = fs.map Func.bare →
      gs.map Func.signature = fs.map Func.signature := fun fs gs he => by
    have hmap := congrArg (List.map Func.signature) he
    rwa [List.map_map, List.map_map] at hmap
  refine ⟨by rw [h.frame], hsig _ _ h.functions, hsig _ _ h.dropped,
    fun f hf f' hf' hid hsealed => ?_, fun d hd => ⟨fun g hg hhome => ?_, ?_⟩⟩
  · obtain ⟨x, hx, hsteady⟩ := exists_of_mem_right hs hf'
    cases List.inj_on_of_nodup_map hm.consistent.funcs hx hf (hsteady.id.symm.trans hid)
    exact hsteady.blocks_eq fun k hk => hm.succs_of_sealed hf (hsealed.elim id hsteady.sealed) hk
  · obtain ⟨f, hf, hbare⟩ := h.exists_bare hg
    rw [Func.nextSerial_of_bare hbare]
    exact hd f hf ((Func.id_of_bare hbare).symm.trans hhome)
  · simp only [scope, h.instr?_eq hm d]

/-- Whether a module is regular and states the geometry of another one. -/
structure Undisturbed (m m' : Module) : Prop where
  regular : m'.Regular
  settled : m.Settled m'

theorem Regular.undisturbed (hm : m.Regular) : m.Undisturbed m := ⟨hm, .refl hm.consistent.funcs⟩

theorem Undisturbed.trans (h : m.Undisturbed m₁) (h' : m₁.Undisturbed m') : m.Undisturbed m' :=
  ⟨h'.regular, h.settled.trans h'.settled⟩

section

variable (hm : m.Regular) (hf : f ∈ m.known) {σ : Instr → Instr} {new : List Instr}
  (h : f.Places l σ new)

include hm hf h

theorem Regular.update_entered : (m.update (f.entered l σ new)).Regular := by
  have hknown := fun x => mem_known_update (m := m) (g := f.entered l σ new) (x := x) hf rfl
  refine ⟨hm.consistent.update hf h.grows, fun x hx => ?_, fun x hx j hj hne => ?_⟩
  · rcases (hknown x).mp hx with rfl | ⟨hx, _⟩
    · rw [h.perm_numbers.nodup_iff, List.nodup_cons]
      refine ⟨fun hmem => ?_, hm.numbered f hf⟩
      obtain ⟨k, hk, hid⟩ := List.mem_map.mp hmem
      have hle := h.numbers k hk
      rw [hid] at hle
      exact Nat.not_succ_le_self _ hle
    · exact hm.numbered x hx
  · rcases (hknown x).mp hx with rfl | ⟨hx, _⟩
    · rcases h.alters_held hj with ⟨i, hi, ha⟩ | hnew | rfl
      · rw [ha.op]
        refine hm.branches f hf i hi fun hnil => hne (List.eq_nil_of_length_eq_zero ?_)
        rw [ha.count, hnil, List.length_nil]
      · exact absurd (h.joins.plain j hnew) hne
      · exact Or.inl rfl
    · exact hm.branches x hx j hj hne

/-- An identity that was handed out before is not that of a new instruction. -/
theorem Regular.title_entered {d : InstrId} (hd : m.Handed d) :
    (m.update (f.entered l σ new)).scope.instr d = m.scope.instr d := by
  have hm' := hm.update_entered hf h
  have hknown := fun x => mem_known_update (m := m) (g := f.entered l σ new) (x := x) hf rfl
  simp only [scope]
  cases hi : m.instr? d with
  | some i =>
    obtain ⟨x, hx, hxi, hid⟩ := hm.consistent.instr?_iff.mp hi
    by_cases hxf : x.id = f.id
    · cases List.inj_on_of_nodup_map hm.consistent.funcs hx hf hxf
      obtain ⟨j, hj, ha⟩ := h.exists_alters hxi
      have hj' : (m.update (f.entered l σ new)).instr? d = some j :=
        hm'.consistent.instr?_iff.mpr ⟨_, (hknown _).mpr (Or.inl rfl), hj, ha.id.trans hid⟩
      rw [hj']
      simp only [ha.title]
    · have hi' : (m.update (f.entered l σ new)).instr? d = some i :=
        hm'.consistent.instr?_iff.mpr ⟨x, (hknown x).mpr (Or.inr ⟨hx, hxf⟩), hxi, hid⟩
      rw [hi']
  | none =>
    have hnone : (m.update (f.entered l σ new)).instr? d = none := by
      rw [Option.eq_none_iff_forall_ne_some] at hi ⊢
      intro j hj
      obtain ⟨x, hx, hxj, hid⟩ := hm'.consistent.instr?_iff.mp hj
      rcases (hknown x).mp hx with rfl | ⟨hx, _⟩
      · rcases h.grows.ids j hxj with ⟨i, hi', hij⟩ | ⟨hhome, hle, _⟩
        · exact hi i (hm.consistent.instr?_iff.mpr ⟨f, hf, hi', hij.trans hid⟩)
        · have hlt := hd f hf (by rw [← hid, hhome])
          rw [← hid] at hlt
          omega
      · exact hi j (hm.consistent.instr?_iff.mpr ⟨x, hx, hxj, hid⟩)
    rw [hnone]

theorem Regular.settled_entered (hlead : ¬f.Sealed) : m.Settled (m.update (f.entered l σ new)) := by
  have hput :
      ∀ x ∈ m.known, (if x.id = (f.entered l σ new).id then f.entered l σ new else x).signature =
      x.signature := by
    intro x hx
    split
    · next hid =>
      cases List.inj_on_of_nodup_map hm.consistent.funcs hx hf hid
      rfl
    · rfl
  have hsig : ∀ fs : List Func, (∀ x ∈ fs, x ∈ m.known) → (fs.map fun x =>
      if x.id = (f.entered l σ new).id then f.entered l σ new else x).map Func.signature =
      fs.map Func.signature := by
    intro fs hfs
    rw [List.map_map]
    exact List.map_congr_left fun x hx => hput x (hfs x hx)
  have hknown := fun x => mem_known_update (m := m) (g := f.entered l σ new) (x := x) hf rfl
  refine ⟨rfl, hsig _ fun _ => List.mem_append_left _, hsig _ fun _ => List.mem_append_right _,
    fun x hx y hy hid hsealed => ?_, fun d hd => ⟨fun x hx hhome => ?_, hm.title_entered hf h hd⟩⟩
  · rcases (hknown y).mp hy with rfl | ⟨hy, _⟩
    · cases List.inj_on_of_nodup_map hm.consistent.funcs hx hf hid.symm
      exact absurd hsealed (not_or.mpr ⟨hlead, h.not_sealed⟩)
    · rw [List.inj_on_of_nodup_map hm.consistent.funcs hy hx hid]
  · rcases (hknown x).mp hx with rfl | ⟨hx, _⟩
    · exact Nat.lt_of_lt_of_le (hd f hf hhome) h.grows.serial
    · exact hd x hx hhome

end

theorem Leads.not_sealed (h : m.Leads b) (hm : m.Regular) (hf : f ∈ m.known) (hid : f.id = b.func) :
    ¬f.Sealed := by
  obtain ⟨k, hk, hne⟩ := h
  obtain ⟨g, hg, hkg, rfl⟩ := hm.distinct.block?_iff.mp hk
  cases List.inj_on_of_nodup_map hm.consistent.funcs hf hg hid
  exact fun hs => hne (hm.succs_of_sealed hf hs hkg)

/-- A loop whose header branches is given a preheader. -/
theorem Regular.insertPreheader (hm : m.Regular) (hl : m.Leads l.header) :
    m.Undisturbed ((Module.insertPreheader l).after m) := by
  have hlead : ∀ f ∈ m.known, f.id = l.header.func → ¬f.Sealed := fun f => hl.not_sealed hm
  obtain ⟨k, hk, _⟩ := hl
  obtain ⟨f, hf, hkf, hheader⟩ := hm.distinct.block?_iff.mp hk
  rw [Edit.after, insertPreheader_eq_edit hm.consistent hf hkf hheader, ← Edit.after, after_edit,
    hm.distinct.func?_iff.mpr ⟨hf, rfl⟩, Option.map_some, Option.getD_some]
  rcases Func.after_insertPreheader l f with hsame | hafter
  · rw [hsame, update_self hm.consistent.funcs hf]
    exact hm.undisturbed
  · obtain ⟨σ, new, heq, hplaces⟩ :=
      (hm.consistent.roomy hf (hm.numbered f hf) ⟨k, hkf, hheader⟩).exists_places
    have hopen := hlead f hf (congrArg BlockRef.func hheader).symm
    rw [hafter, heq]
    exact ⟨hm.update_entered hf hplaces, hm.settled_entered hf hplaces hopen⟩

/-- While the instructions of a function are hoisted: they change places, but blocks are steady. -/
structure Hoists (m m' : Module) : Prop where
  shuffles : m.Shuffles m'
  steady : m.Steady m'

theorem Hoists.undisturbed (h : m.Hoists m') (hm : m.Regular) : m.Undisturbed m' :=
  ⟨hm.of_shuffles h.shuffles, settled_of_steady hm h.shuffles h.steady⟩

/-- A preheader branches. -/
theorem leads_preheader (hm : m.Regular) (h : m.preheader? l = some b) : m.Leads b := by
  obtain ⟨f, hhome, hb⟩ := Option.bind_eq_some_iff.mp h
  obtain ⟨_, -, hf⟩ := Option.bind_eq_some_iff.mp hhome
  obtain ⟨p, hp, rfl⟩ := Option.map_eq_some_iff.mp hb
  have hmem : p ∈ f.entering l := by
    rw [Func.preheader?] at hp
    split at hp
    · next q hq =>
      split_ifs at hp
      cases hp
      rw [hq]
      exact List.mem_singleton_self _
    · cases hp
  obtain ⟨k, hk, rfl⟩ := List.mem_map.mp (List.mem_of_mem_filter hmem)
  have hsucc := List.of_mem_filter hk
  rw [List.contains_iff_mem] at hsucc
  have hblock : m.block? (f.ref k.id) = some k := hm.distinct.block?_iff.mpr
    ⟨f, (hm.distinct.func?_iff.mp hf).1, List.mem_of_mem_filter hk, rfl⟩
  exact ⟨k, hblock, List.ne_nil_of_mem hsucc⟩

/-- An instruction that was found in a block that branches is not at the end of one, and stands in
no other kind of block. -/
theorem Hoists.yields (hm : m.Regular) (h : m.Hoists m') (h₁ : m.Hoists m₁) {i : Instr} {k : Block}
    (hk : m₁.block? b = some k) (hi : i ∈ k.instrs) (hne : k.succs ≠ [])
    (hterm : i.op.isTerminator = false) :
    ∀ g ∈ m'.known, ∀ k' ∈ g.blocks, k'.Yields i.id := by
  have hm' := hm.of_shuffles h.shuffles
  have hm₁ := hm.of_shuffles h₁.shuffles
  intro g hg k' hk' hholds
  have hsuccs : k'.succs ≠ [] := by
    -- a block that leads nowhere has never changed, so the instruction would stand in two blocks
    intro hnil
    have hb' : m'.block? (g.ref k'.id) = some k' := hm'.distinct.block?_iff.mpr ⟨g, hg, hk', rfl⟩
    obtain ⟨k₀, hk₀, hsteady⟩ := h.steady.exists_block_of hb'
    have hnil₀ : k₀.succs = [] := hsteady.succs.symm.trans hnil
    obtain ⟨k₁, hk₁, hsteady₁⟩ := h₁.steady.exists_block hk₀
    have hsame : k₁ = k' := (hsteady₁.rest hnil₀).trans (hsteady.rest hnil₀).symm
    subst hsame
    have howner : ∀ {c : BlockRef} {j : Block}, m₁.block? c = some j → j.holds i.id = true →
        m₁.owner? i.id = some c := by
      intro c j hj hjd
      obtain ⟨x, hx, hjx, hc⟩ := hm₁.distinct.block?_iff.mp hj
      exact hm₁.consistent.owner?_iff.mpr ⟨x, hx, j, hjx, hjd, hc⟩
    have hbc := (howner hk (Block.holds_iff.mpr ⟨i, hi, rfl⟩)).symm.trans (howner hk₁ hholds)
    rw [Option.some.inj hbc, hk₁] at hk
    exact hne (Option.some.inj hk ▸ hnil)
  refine ⟨hsuccs, fun t ht hid => ?_⟩
  have htheld : t ∈ m.held :=
    h.shuffles.held.mem_iff.mp
      (mem_held.mpr ⟨g, hg, Func.mem_held_of_mem hk' (List.mem_of_getLast? ht)⟩)
  have hiheld : i ∈ m.held := by
    obtain ⟨x, hx, hkx, _⟩ := hm₁.distinct.block?_iff.mp hk
    exact h₁.shuffles.held.mem_iff.mp (mem_held.mpr ⟨x, hx, Func.mem_held_of_mem hkx hi⟩)
  cases List.inj_on_of_nodup_map hm.distinct.instrs htheld hiheld hid
  apply hsuccs
  rw [Block.succs, Block.term?, ht, Option.filter_some, if_neg (by simp [hterm])]

/-- Nothing but steady blocks comes of hoisting from a loop whose blocks branch. -/
theorem Regular.keptByMoves (hm : m.Regular) (hl : ∀ b, l.contains b = true → m.Leads b) :
    KeptByMoves m.Hoists l := by
  rintro m' h i hterm ⟨m₁, b, k, h₁, hb, hk, hi⟩ pre ⟨m₂, h₂, hpre⟩
  have hm' := hm.of_shuffles h.shuffles
  have hne : k.succs ≠ [] := by
    obtain ⟨k', hk', hne⟩ := h₁.steady.leads_iff.mpr (hl b hb)
    rw [hk] at hk'
    exact Option.some.inj hk' ▸ hne
  have hpre' : m'.Leads pre := h.steady.leads_iff.mpr
    (h₂.steady.leads_iff.mp (leads_preheader (hm.of_shuffles h₂.shuffles) hpre))
  have hdst :
      ∀ g ∈ m'.known, g.id = pre.func → ∀ k ∈ g.blocks, k.id = pre.number → k.succs ≠ [] := by
    intro g hg hid k hk hnum
    obtain ⟨k', hk', hne⟩ := hpre'
    have hblock : m'.block? pre = some k :=
      hm'.distinct.block?_iff.mpr ⟨g, hg, hk, by rw [Func.ref, hid, hnum]⟩
    rw [hblock] at hk'
    exact Option.some.inj hk' ▸ hne
  exact ⟨h.shuffles.trans (shuffles_moveBeforeTerm hm'.distinct i.id pre),
    h.steady.trans (steady_moveBeforeTerm hm'.distinct (h.yields hm h₁ hk hi hne hterm) hdst)⟩

theorem keptByInsertions (m : Module) (id : FuncId) : KeptByInsertions m.Undisturbed id := by
  intro m' h f nest hf hnest l hl
  rw [loopNest] at hnest
  split at hnest
  · cases hnest
  · cases hnest
    have hlead := h.regular.leads_of_flow (List.mem_of_find?_eq_some hf) (FlowGraph.leads_header hl)
    exact h.trans (h.regular.insertPreheader hlead)

theorem keptByHoisting (m : Module) (id : FuncId) : KeptByHoisting m.Undisturbed id := by
  intro m₀ h f nest hf hnest
  rw [loopNest] at hnest
  split at hnest
  · cases hnest
  · cases hnest
    refine ⟨m₀.Hoists, ⟨.refl m₀, .refl m₀⟩, fun m' h' => h.trans (h'.undisturbed h.regular),
      fun l hl => ?_⟩
    exact h.regular.keptByMoves fun b hb => h.regular.leads_of_flow (List.mem_of_find?_eq_some hf)
      (FlowGraph.leads_of_mem_body hl (List.contains_iff_mem.mp hb))

end Module

namespace Compilation

/-- Whatever becomes of it, optimising all functions leaves the module stating the geometry that it
stated before. -/
theorem undisturbed_hoistModule (o : Options) {c : Compilation} (hc : c.module.Regular) :
    c.module.Undisturbed ((hoistModule o).after c).module :=
  maintains_hoistModule (fun _ h => h.regular.consistent.funcs) (c.module.keptByInsertions)
    (c.module.keptByHoisting)
    c hc.undisturbed

end Compilation

end KernelIR
