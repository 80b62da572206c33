import KernelIR.Proofs.Safety
import Mathlib.Data.List.Forall2
import Mathlib.Data.List.Nodup
import Mathlib.Data.List.Perm.Basic

namespace KernelIR

namespace Func

/-- The labels of the blocks. -/
def labels (f : Func) : List String := f.blocks.map Block.label

/-- The names of the instructions that have one. -/
def names (f : Func) : List String := (f.instrs.map fun i => i.name).filter fun n => n ≠ ""

/-- The loops without a preheader. -/
def unserved (f : Func) : List Loop := f.nest.filter fun l => (f.preheader? l).isNone

/-- The label of the preheader that a loop is given. -/
def preheaderLabel (f : Func) (l : Loop) : String := f.label l.header.number ++ ".preheader"

/-- The phis of a loop's header into which several values flow from outside the loop. -/
def joining (f : Func) (l : Loop) : List Instr :=
  (f.phis l.header.number).filter fun φ => 2 ≤ (φ.moved ((f.entering l).map f.ref)).length

/-- The phis for which a preheader is given a phi of its own. -/
def joined (f : Func) : List Instr := f.unserved.flatMap f.joining

variable {f : Func} {l k l' : Loop} {σ : Instr → Instr} {new : List Instr} {b : Block}

theorem map_header_unserved : f.unserved.map Loop.header = f.lacking := rfl

theorem mem_unserved : l ∈ f.unserved ↔ l ∈ f.nest ∧ f.preheader? l = none := by
  rw [unserved, List.mem_filter, Option.isNone_iff_eq_none]

theorem eq_of_header_unserved (hl : l ∈ f.unserved) (hk : k ∈ f.unserved)
    (h : l.header = k.header) : l = k :=
  List.inj_on_of_nodup_map (nodup_lacking f) hl hk h

theorem Linked.label_eq (hf : f.Linked) (hb : b ∈ f.blocks) : f.label b.id = b.label := by
  have hblock : f.block? b.id = some b := (block?_iff hf).mpr ⟨hb, rfl⟩
  rw [label, hblock]

theorem Linked.phis_eq (hf : f.Linked) (hb : b ∈ f.blocks) :
    f.phis b.id = b.instrs.filter fun i => i.op = .phi := by
  have hblock : f.block? b.id = some b := (block?_iff hf).mpr ⟨hb, rfl⟩
  rw [phis, hblock]

theorem IsNaturalLoop.exists_header (hl : f.IsNaturalLoop l) (hf : f.Linked) :
    ∃ b ∈ f.blocks, l.header = f.ref b.id ∧
    f.label l.header.number = b.label ∧
    f.phis l.header.number = b.instrs.filter fun i => i.op = .phi := by
  obtain ⟨b, hb, hheader⟩ := hl.exists_block hf hl.header_mem
  rw [hheader]
  exact ⟨b, hb, rfl, hf.label_eq hb, hf.phis_eq hb⟩

theorem label_changed (b : Block) : (f.changed l σ b).label = b.label := by
  rw [changed, Block.mapInstrs, rewired]
  split
  · rfl
  · rfl

namespace Inserts

variable (h : f.Inserts l σ new)

include h

/-- One label comes in. -/
theorem perm_labels : (f.entered l σ new).labels.Perm (f.preheaderLabel l :: f.labels) := by
  have hnew : (f.preheader l new).label = f.preheaderLabel l :=
    if_neg fun he => absurd (String.append_eq_empty_iff.mp he).2 (by decide)
  have hold : (f.blocks.map (f.changed l σ)).map Block.label = f.labels := by
    rw [List.map_map, labels]
    exact List.map_congr_left fun b _ => label_changed b
  have hperm := h.perm_blocks.map Block.label
  rwa [List.map_cons, hnew, hold] at hperm

/-- The names that come in are those of the new phis. -/
theorem perm_names :
    (f.entered l σ new).names.Perm (((f.joining l).map fun φ => φ.name ++ ".ph") ++ f.names) := by
  have hnew : ((f.preheader l new).instrs.map fun i => i.name) =
      ((f.joining l).map fun φ => φ.name ++ ".ph") ++ [""] := by
    rw [preheader, List.map_append, h.joins.names]
    rfl
  have hold : (((f.blocks.map (f.changed l σ)).flatMap Block.instrs).map fun i => i.name) =
      f.instrs.map fun i => i.name := by
    rw [List.map_flatMap, List.flatMap_map, instrs, List.map_flatMap]
    exact List.flatMap_congr fun b _ =>
      Places.map_changed (fun _ _ => rfl) (fun i => (h.joins.titles i).1) b
  have hperm := (h.perm_blocks.flatMap_right Block.instrs).map fun i => i.name
  rw [List.flatMap_cons, List.map_append, hnew, hold] at hperm
  have hkept : (((f.joining l).map fun φ => φ.name ++ ".ph") ++ [""]).filter (fun n => n ≠ "") =
      (f.joining l).map fun φ => φ.name ++ ".ph" := by
    have hall : ∀ n ∈ (f.joining l).map fun φ => φ.name ++ ".ph", n ≠ "" := by
      intro n hn
      obtain ⟨φ, _, rfl⟩ := List.mem_map.mp hn
      exact fun he => absurd (String.append_eq_empty_iff.mp he).2 (by decide)
    rw [List.filter_append, List.filter_eq_self.mpr fun n hn => decide_eq_true (hall n hn)]
    exact List.append_nil _
  have hfilter := hperm.filter fun n => n ≠ ""
  rwa [List.filter_append, hkept] at hfilter

/-- The phis of the blocks other than the header stay. -/
theorem phis_changed (hb : b ∈ f.blocks) (hne : l.header ≠ f.ref b.id) :
    ((f.changed l σ b).instrs.filter fun i => i.op = .phi) = b.instrs.filter fun i =>
      i.op = .phi := by
  have hself : ∀ φ ∈ b.instrs.filter fun i => i.op = .phi, σ φ = φ := fun φ hφ =>
    h.eq_self hb (List.mem_of_mem_filter hφ) rfl fun hheader => hne hheader.1
  rw [h.filter_phi_changed hb, List.map_congr_left hself, List.map_id']

/-- Another loop is entered from the same blocks. -/
theorem mem_map_entering_entered (hl' : (f.entered l σ new).IsNaturalLoop l')
    (hk : f.IsNaturalLoop k) (heq : k.header = l'.header) (hne : k.header ≠ l.header)
    {c : BlockRef} :
    c ∈ ((f.entered l σ new).entering l').map (f.entered l σ new).ref ↔
    c ∈ (f.entering k).map f.ref := by
  obtain ⟨t, e⟩ := hk.back
  rw [mem_map_entering h.linked_entered hl', mem_map_entering h.linked hk, ← heq,
    h.edge_other hne (h.edge_ne e.1).2]
  refine and_congr_right fun e => not_congr ?_
  exact h.mem_body_entered hl' hk heq.symm (h.edge_ne e).1

/-- Another loop that lacks a preheader lacks one with the same names. -/
theorem naming_entered (hl' : (f.entered l σ new).IsNaturalLoop l') (hk : f.IsNaturalLoop k)
    (heq : k.header = l'.header) (hne : k.header ≠ l.header) :
    (f.entered l σ new).preheaderLabel l' = f.preheaderLabel k ∧
    (f.entered l σ new).joining l' = f.joining k := by
  obtain ⟨b, hb, hheader, hlabel', hphis'⟩ := hk.exists_header h.linked
  have hid : (f.changed l σ b).id = b.id := id_rewired b
  have hnumber : k.header.number = b.id := congrArg BlockRef.number hheader
  have hmem := h.mem_changed_blocks hb
  have hlabel := h.linked_entered.label_eq hmem
  have hphis := h.linked_entered.phis_eq hmem
  rw [hid] at hlabel hphis
  have hmoved :
      ∀ φ : Instr, φ.moved (((f.entered l σ new).entering l').map (f.entered l σ new).ref) =
      φ.moved ((f.entering k).map f.ref) := by
    intro φ
    refine List.filter_congr fun e _ => ?_
    rw [List.contains_eq_mem, List.contains_eq_mem, decide_eq_decide]
    exact h.mem_map_entering_entered hl' hk heq hne
  rw [← hnumber, label_changed, ← hlabel'] at hlabel
  rw [← hnumber, h.phis_changed hb fun he => hne (hheader.trans he.symm), ← hphis'] at hphis
  rw [preheaderLabel, preheaderLabel, joining, joining, ← heq, hlabel, hphis]
  simp only [hmoved, and_self]

/-- The loops that still lack a preheader, each in the place of an old one with the same names. -/
theorem exists_rest (hl : l ∈ f.unserved) : ∃ rest, f.unserved.Perm (l :: rest) ∧
    List.Forall₂ (fun l' k => (f.entered l σ new).preheaderLabel l' = f.preheaderLabel k ∧
      (f.entered l σ new).joining l' = f.joining k) (f.entered l σ new).unserved rest := by
  have hheaders : (l.header :: (f.entered l σ new).lacking).Perm (f.unserved.map Loop.header) :=
    (h.perm_lacking_entered
      (mem_lacking.mpr ⟨l, (mem_unserved.mp hl).1, rfl, (mem_unserved.mp hl).2⟩)).symm
  have hself : List.Forall₂ (fun d k => k ∈ f.unserved ∧ k.header = d)
      (f.unserved.map Loop.header) f.unserved := by
    rw [List.forall₂_map_left_iff, List.forall₂_same]
    exact fun k hk => ⟨hk, rfl⟩
  obtain ⟨ks, hpairs, hperm⟩ := List.perm_comp_forall₂ hheaders hself
  cases hpairs with
  | @cons _ k _ rest hfirst hrest =>
    obtain rfl := eq_of_header_unserved hfirst.1 hl hfirst.2
    refine ⟨rest, hperm.symm, ?_⟩
    rw [← map_header_unserved, List.forall₂_map_left_iff] at hrest
    have hin : ∀ l' ∈ (f.entered k σ new).unserved, l' ∈ (f.entered k σ new).unserved :=
      fun _ hl' => hl'
    refine ((List.forall₂_and_left _ _).mpr ⟨hin, hrest⟩).imp ?_
    intro l' k' hpair
    obtain ⟨hl', hk', heq⟩ := hpair
    have hne : k'.header ≠ k.header := by
      rw [heq]
      exact (h.mem_lacking_entered.mp (List.mem_map_of_mem hl')).2
    exact h.naming_entered (h.linked_entered.isNaturalLoop (mem_unserved.mp hl').1)
      (h.linked.isNaturalLoop (mem_unserved.mp hk').1) heq hne

end Inserts

theorem map_eq_of_forall₂ {α β γ : Type} {F : α → γ} {G : β → γ} {xs : List α} {ys : List β}
    (h : List.Forall₂ (fun x y => F x = G y) xs ys) : xs.map F = ys.map G := by
  rwa [← List.forall₂_eq_eq_eq, List.forall₂_map_left_iff, List.forall₂_map_right_iff]

/-- From a function `f` to the function `g` that it has become, what is named and what is still to
be named stay the same together. -/
structure Balances (f g : Func) : Prop where
  params : g.params = f.params
  labels :
    (g.labels ++ g.unserved.map g.preheaderLabel).Perm (f.labels ++ f.unserved.map f.preheaderLabel)
  names : (g.names ++ g.joined.map fun φ => φ.name ++ ".ph").Perm
    (f.names ++ f.joined.map fun φ => φ.name ++ ".ph")

theorem Balances.refl (f : Func) : f.Balances f := ⟨rfl, .refl _, .refl _⟩

theorem Balances.trans {g j : Func} (h : f.Balances g) (h' : g.Balances j) : f.Balances j :=
  ⟨h'.params.trans h.params, h'.labels.trans h.labels, h'.names.trans h.names⟩

/-- A preheader takes the names that were left for it. -/
theorem Inserts.balances (h : f.Inserts l σ new) (hl : l ∈ f.unserved) :
    f.Balances (f.entered l σ new) := by
  obtain ⟨rest, hperm, hrest⟩ := h.exists_rest hl
  have hlabels : (f.entered l σ new).unserved.map (f.entered l σ new).preheaderLabel =
      rest.map f.preheaderLabel :=
    map_eq_of_forall₂ (hrest.imp fun _ _ hpair => hpair.1)
  have hjoining :
      (f.entered l σ new).unserved.map (f.entered l σ new).joining = rest.map f.joining :=
    map_eq_of_forall₂ (hrest.imp fun _ _ hpair => hpair.2)
  have hjoined : (f.entered l σ new).joined = rest.flatMap f.joining := by
    rw [joined, List.flatMap_def, hjoining, ← List.flatMap_def]
  refine ⟨rfl, ?_, ?_⟩
  · rw [hlabels]
    refine (h.perm_labels.append_right _).trans ?_
    exact List.perm_middle.symm.trans ((hperm.map f.preheaderLabel).symm.append_left _)
  · have hpending : f.joined.Perm (f.joining l ++ rest.flatMap f.joining) :=
      hperm.flatMap_right f.joining
    rw [hjoined]
    refine (h.perm_names.append_right _).trans ?_
    refine (List.perm_append_comm.append_right _).trans ?_
    rw [List.append_assoc, ← List.map_append]
    exact (hpending.map _).symm.append_left _

/-- The new labels differ from each other as the labels of the headers do. -/
theorem nodup_preheaderLabels (hf : f.Linked) (hlabels : f.labels.Nodup) :
    (f.unserved.map f.preheaderLabel).Nodup := by
  refine List.Nodup.map_on ?_ (List.Nodup.of_map Loop.header (nodup_lacking f))
  intro l hl k hk he
  obtain ⟨b, hb, hlb, hlabel, _⟩ := (hf.isNaturalLoop (mem_unserved.mp hl).1).exists_header hf
  obtain ⟨c, hc, hkc, hlabel', _⟩ := (hf.isNaturalLoop (mem_unserved.mp hk).1).exists_header hf
  rw [preheaderLabel, preheaderLabel, hlabel, hlabel', String.append_left_inj] at he
  have hbc : b = c := List.inj_on_of_nodup_map hlabels hb hc he
  exact eq_of_header_unserved hl hk (by rw [hlb, hkc, hbc])

theorem exists_block_of_mem_joining (hf : f.Linked) (hl : l ∈ f.unserved) {φ : Instr}
    (hφ : φ ∈ f.joining l) :
    ∃ b ∈ f.blocks, l.header = f.ref b.id ∧ φ ∈ b.instrs := by
  obtain ⟨b, hb, hheader, _, hphis⟩ := (hf.isNaturalLoop (mem_unserved.mp hl).1).exists_header hf
  have hmem := List.mem_of_mem_filter hφ
  rw [hphis] at hmem
  exact ⟨b, hb, hheader, List.mem_of_mem_filter hmem⟩

theorem mem_instrs_of_mem_joined (hf : f.Linked) {φ : Instr} (hφ : φ ∈ f.joined) :
    φ ∈ f.instrs := by
  obtain ⟨l, hl, hφ⟩ := List.mem_flatMap.mp hφ
  obtain ⟨b, hb, _, hmem⟩ := exists_block_of_mem_joining hf hl hφ
  exact mem_instrs.mpr ⟨b, hb, hmem⟩

/-- No phi is joined twice. -/
theorem nodup_joined (hf : f.Linked) (hown : (f.held.map Instr.id).Nodup) : f.joined.Nodup := by
  rw [joined, List.nodup_flatMap]
  constructor
  · intro l hl
    obtain ⟨b, hb, _, _, hphis⟩ := (hf.isNaturalLoop (mem_unserved.mp hl).1).exists_header hf
    rw [joining, hphis]
    exact ((List.Nodup.of_map _ (nodup_block hown hb)).filter _).filter _
  · refine (List.pairwise_map.mp (nodup_lacking f)).imp_of_mem ?_
    intro l k hl hk hne φ hφ hφ'
    obtain ⟨b, hb, hlb, hmem⟩ := exists_block_of_mem_joining hf hl hφ
    obtain ⟨c, hc, hkc, hmem'⟩ := exists_block_of_mem_joining hf hk hφ'
    have hbc : b = c := holder_unique hown hb hc (Block.holds_iff.mpr ⟨φ, hmem, rfl⟩)
      (Block.holds_iff.mpr ⟨φ, hmem', rfl⟩)
    exact hne (by rw [hlb, hkc, hbc])

theorem eq_of_name (hnames : f.names.Nodup) {i j : Instr} (hi : i ∈ f.instrs) (hj : j ∈ f.instrs)
    (hne : i.name ≠ "") (h : i.name = j.name) : i = j := by
  rw [names, List.filter_map] at hnames
  exact List.inj_on_of_nodup_map hnames (List.mem_filter.mpr ⟨hi, by simpa using hne⟩)
    (List.mem_filter.mpr ⟨hj, by simpa [← h] using hne⟩) h

/-- The new names differ from each other if at most one of the phis that are joined has no name. -/
theorem nodup_joinedNames (hf : f.Linked) (hown : (f.held.map Instr.id).Nodup)
    (hnames : f.names.Nodup) :
    (f.joined.map fun φ => φ.name ++ ".ph").Nodup ↔
      ∀ φ ∈ f.joined, ∀ ψ ∈ f.joined, φ.name = "" → ψ.name = "" → φ = ψ := by
  constructor
  · intro hn φ hφ ψ hψ h h'
    exact List.inj_on_of_nodup_map hn hφ hψ (by rw [h, h'])
  · intro hone
    refine List.Nodup.map_on ?_ (nodup_joined hf hown)
    intro φ hφ ψ hψ he
    rw [String.append_left_inj] at he
    by_cases hname : φ.name = ""
    · exact hone φ hφ ψ hψ hname (he ▸ hname)
    · exact eq_of_name hnames (mem_instrs_of_mem_joined hf hφ)
        (mem_instrs_of_mem_joined hf hψ) hname he

end Func

/-- A run gives away exactly the names that were to be given. -/
theorem Module.simplify_balances {m : Module} {f : Func} (hm : m.Consistent) (hf : f ∈ m.known)
    (hlinked : f.Linked) (hpaired : f.Paired) :
    ∃ changed m₁ g, simplify f.id m = .ok changed m₁ ∧ m₁.func? f.id = some g ∧
      g.params = f.params ∧ g.labels.Perm (f.labels ++ f.unserved.map f.preheaderLabel) ∧
        g.names.Perm (f.names ++ f.joined.map fun φ => φ.name ++ ".ph") := by
  have hkeep : ∀ m₁ g l, Simplified m f m₁ g → l ∈ g.nest → g.preheader? l = none → f.Balances g →
      f.Balances (g.withPreheader l) := by
    intro m₁ g l hs hl hpre hbalances
    have hext := hs.consistent.extensible hs.mem hs.linked (hs.linked.isNaturalLoop hl)
    obtain ⟨σ, new, heq, hins⟩ := hext.exists_inserts
    rw [heq]
    exact hbalances.trans (hins.balances (Func.mem_unserved.mpr ⟨hl, hpre⟩))
  obtain ⟨m₁, h, hbalances, hnone, hrun⟩ :=
    Simplified.simplifyLoops_eq hkeep (Simplified.start hm hf hlinked hpaired) (.refl f)
  have hunserved : f.simplified.unserved = [] := List.map_eq_nil_iff.mp hnone
  have hlabels := hbalances.labels
  have hnames := hbalances.names
  rw [hunserved, List.map_nil, List.append_nil] at hlabels
  rw [Func.joined, hunserved, List.flatMap_nil, List.map_nil, List.append_nil] at hnames
  have hfuel : f.lacking.length < m.blockCount + 1 :=
    Nat.lt_succ_of_le ((Func.length_lacking_le hlinked).trans (length_le_blockCount hf))
  exact ⟨_, m₁, f.simplified, hrun _ hfuel, h.func?, hbalances.params, hlabels, hnames⟩

namespace Work

variable {spec : ModuleSpec} {w : Work} {f : Func}

theorem simplify_accepted (o : Options) (hw : Module.ofSpec spec = .ok w.module)
    (hf : f ∈ w.module.functions) :
    ∃ changed m₁ g, applyPass o f.id .simplifyLoops w = .ok changed { w with module := m₁ } ∧
      m₁.func? f.id = some g ∧ g.params = f.params ∧
      g.labels.Perm (f.labels ++ f.unserved.map f.preheaderLabel) ∧
        g.names.Perm (f.names ++ f.joined.map fun φ => φ.name ++ ".ph") := by
  obtain ⟨declared, ds, hload⟩ := Description.Loads.of_ofSpec hw
  have hintact := hload.intact
  have hknown : f ∈ w.module.known := List.mem_append_left _ hf
  obtain ⟨changed, m₁, g, hrun, hg⟩ := Module.simplify_balances hintact.consistent hknown
    (hintact.framed f hknown).linked (hintact.paired f hknown)
  refine ⟨changed, m₁, g, ?_, hg⟩
  simp only [applyPass, onModule, Edit.within, hrun]

/-- A function of an accepted module gets one more block for each loop without a preheader, labelled
after the header, and one more name for each phi that is joined, after its own. The labels stay
distinct if and only if none of the new ones was a label before. The names stay distinct and
different from the parameters if and only if none of the new ones was a name or a parameter before
and at most one phi that is joined has no name. -/
theorem simplify_keeps_names_apart_iff (o : Options) (w : Work) (f : Func) {spec : ModuleSpec}
    (hw : Module.ofSpec spec = .ok w.module) (hf : f ∈ w.module.functions)
    (hlabels : f.labels.Nodup) :
    ∃ changed m₁ g, applyPass o f.id .simplifyLoops w = .ok changed { w with module := m₁ } ∧
      m₁.func? f.id = some g ∧ g.params = f.params ∧
      g.labels.Perm (f.labels ++ f.unserved.map f.preheaderLabel) ∧
      g.names.Perm (f.names ++ f.joined.map fun φ => φ.name ++ ".ph") ∧
      (g.labels.Nodup ↔ ∀ l ∈ f.unserved, f.preheaderLabel l ∉ f.labels) ∧
      (g.names.Nodup ∧ (∀ p ∈ g.params, p.name ∉ g.names) ↔
        (∀ φ ∈ f.joined, φ.name ++ ".ph" ∉ f.names ∧ ∀ p ∈ f.params, p.name ≠ φ.name ++ ".ph") ∧
          ∀ φ ∈ f.joined, ∀ ψ ∈ f.joined, φ.name = "" → ψ.name = "" → φ = ψ) := by
  obtain ⟨s, _, hs⟩ := Description.exists_realized hw hf
  obtain ⟨declared, ds, hload⟩ := Description.Loads.of_ofSpec hw
  have hknown : f ∈ w.module.known := List.mem_append_left _ hf
  have hlinked := (hload.intact.framed f hknown).linked
  have hapart : ∀ p ∈ f.params, p.name ∉ f.names := by
    intro p hp hin
    obtain ⟨hmem, hne⟩ := List.mem_filter.mp hin
    obtain ⟨i, hi, hname⟩ := List.mem_map.mp hmem
    exact hs.apart i hi (by simpa [hname] using hne) p hp hname
  obtain ⟨changed, m₁, g, hrun, hg, hparams, hg₁, hg₂⟩ := simplify_accepted o hw hf
  refine ⟨changed, m₁, g, hrun, hg, hparams, hg₁, hg₂, ?_, ?_⟩
  · rw [hg₁.nodup_iff, List.nodup_append]
    constructor
    · intro h l hl hin
      exact h.2.2 _ hin _ (List.mem_map_of_mem hl) rfl
    · intro h
      refine ⟨hlabels, Func.nodup_preheaderLabels hlinked hlabels, ?_⟩
      rintro s hs t ht rfl
      obtain ⟨l, hl, rfl⟩ := List.mem_map.mp ht
      exact h l hl hs
  · have hdistinct := Func.nodup_joinedNames hlinked (hload.consistent.own f hknown) hs.results
    rw [hg₂.nodup_iff, List.nodup_append, hparams, hdistinct]
    simp only [hg₂.mem_iff, List.mem_append, not_or]
    constructor
    · rintro ⟨⟨_, hone, hnew⟩, hparam⟩
      refine ⟨fun φ hφ => ⟨fun hin => ?_, fun p hp he => ?_⟩, hone⟩
      · exact hnew _ hin _ (List.mem_map_of_mem hφ) rfl
      · exact (hparam p hp).2 (he ▸ List.mem_map_of_mem hφ)
    · rintro ⟨hnew, hone⟩
      refine ⟨⟨hs.results, hone, ?_⟩, fun p hp => ⟨hapart p hp, fun hin => ?_⟩⟩
      · rintro n hn t ht rfl
        obtain ⟨φ, hφ, rfl⟩ := List.mem_map.mp ht
        exact (hnew φ hφ).1 hn
      · obtain ⟨φ, hφ, he⟩ := List.mem_map.mp hin
        exact (hnew φ hφ).2 p hp he.symm

/-- A loop is entered from two blocks, and has two phis. -/
def twoEntries (other first second : String) : ModuleSpec :=
  let phi (name : String) : InstrSpec :=
    { name, op := "phi", type := "i32", args := ["i32 1", "i32 2", "i32 3"],
      sources := ["left", other, "loop"] }
  { functions := [
      { name := "f", params := [⟨"c", "i1"⟩]
        blocks := [
          ⟨"top", [{ op := "br", args := ["%c"], targets := ["left", other] }]⟩,
          ⟨"left", [{ op := "br", targets := ["loop"] }]⟩,
          ⟨other, [{ op := "br", targets := ["loop"] }]⟩,
          ⟨"loop", [
            phi first, phi second,
            { op := "br", args := ["%c"], targets := ["loop", "end"] }]⟩,
          ⟨"end", [{ op := "ret" }]⟩] }] }

def twoEntriesFlow : FlowGraph where
  own := [(⟨0, 1⟩, [⟨0, 2⟩, ⟨0, 3⟩]), (⟨0, 2⟩, [⟨0, 4⟩]), (⟨0, 3⟩, [⟨0, 4⟩]),
    (⟨0, 4⟩, [⟨0, 4⟩, ⟨0, 5⟩]), (⟨0, 5⟩, [])]

def twoEntriesLoop : Loop := ⟨⟨0, 4⟩, [⟨0, 4⟩], none, 1⟩

theorem loopNest_twoEntriesFlow :
    twoEntriesFlow.loopNest twoEntriesFlow.domTree = [twoEntriesLoop] := by cbv

/-- Whether a function has the flow of `twoEntries`, with these labels and names and these names of
phis to be joined. -/
def entersTwice (labels names joined : List String) (f : Func) : Bool :=
  f.flow = twoEntriesFlow ∧ f.preheader? twoEntriesLoop = none ∧ f.labels = labels ∧
    f.names = names ∧ f.params.map Param.name = ["c"] ∧
    f.preheaderLabel twoEntriesLoop = "loop.preheader" ∧
      (f.joining twoEntriesLoop).map (fun φ => φ.name) = joined

theorem exists_twoEntries (spec : ModuleSpec) (labels names joined : List String)
    (h : ((Module.ofSpec spec).toOption.any fun m =>
      m.functions.head?.any (entersTwice labels names joined)) = true) :
    ∃ m f, Module.ofSpec spec = .ok m ∧ f ∈ m.functions ∧ f.labels = labels ∧ f.names = names ∧
      f.params.map Param.name = ["c"] ∧ f.unserved.map f.preheaderLabel = ["loop.preheader"] ∧
        f.joined.map (fun φ => φ.name) = joined := by
  obtain ⟨m, hm, h⟩ := (Option.any_eq_true _ _).mp h
  obtain ⟨f, hf, h⟩ := (Option.any_eq_true _ _).mp h
  obtain ⟨hflow, hpre, hlabels, hnames, hparams, hlabel, hjoined⟩ := of_decide_eq_true h
  have hunserved : f.unserved = [twoEntriesLoop] := by
    rw [Func.unserved, Func.nest, hflow, loopNest_twoEntriesFlow]
    exact List.filter_cons_of_pos (by rw [hpre]; rfl)
  refine ⟨m, f, Description.toOption_eq_some.mp hm, List.mem_of_head? hf, hlabels, hnames,
    hparams, ?_, ?_⟩
  · rw [hunserved, List.map_singleton, hlabel]
  · rw [Func.joined, hunserved, List.flatMap_singleton, hjoined]

theorem twoEntries_keeps_names_apart :
    ∃ m f changed m₁ g, Module.ofSpec (twoEntries "other" "i" "") = .ok m ∧ f ∈ m.functions ∧
    f.labels.Nodup ∧
    applyPass {} f.id .simplifyLoops { module := m } = .ok changed { module := m₁ } ∧
      m₁.func? f.id = some g ∧ g.labels.Nodup ∧ g.names.Perm ["i", "i.ph", ".ph"] ∧ g.names.Nodup ∧
        ∀ p ∈ g.params, p.name ∉ g.names := by
  obtain ⟨m, f, hm, hf, hlabels, hnames, hparams, hunserved, hjoined⟩ :=
    exists_twoEntries (twoEntries "other" "i" "")
    ["top", "left", "other", "loop", "end"] ["i"] ["i", ""] (by decide +kernel)
  have hdistinct : f.labels.Nodup := by
    rw [hlabels]
    decide
  obtain ⟨changed, m₁, g, hrun, hg, _, _, hperm, hlabels₁, hnames₁⟩ :=
    simplify_keeps_names_apart_iff {} { module := m } f hm hf hdistinct
  have hnew : ∀ l ∈ f.unserved, f.preheaderLabel l ∉ f.labels := by
    intro l hl
    have hmem : f.preheaderLabel l ∈ f.unserved.map f.preheaderLabel := List.mem_map_of_mem hl
    rw [hunserved, List.mem_singleton] at hmem
    rw [hmem, hlabels]
    decide
  have hparam : ∀ p ∈ f.params, p.name = "c" := by
    intro p hp
    have hmem : p.name ∈ f.params.map Param.name := List.mem_map_of_mem hp
    rwa [hparams, List.mem_singleton] at hmem
  simp only [List.map_eq_cons_iff, List.map_eq_nil_iff] at hjoined
  obtain ⟨a, _, hjoined, ha, b, _, rfl, hb, rfl⟩ := hjoined
  rw [hjoined, hnames] at hperm hnames₁
  simp only [List.map_cons, List.map_nil, ha, hb] at hperm
  refine ⟨m, f, changed, m₁, g, hm, hf, hdistinct, hrun, hg, hlabels₁.mpr hnew, hperm,
    hnames₁.mpr ⟨?_, ?_⟩⟩
  · simp only [List.forall_mem_cons, ha, hb]
    refine ⟨⟨by decide, fun p hp => ?_⟩, ⟨by decide, fun p hp => ?_⟩, by simp⟩
    · rw [hparam p hp]
      decide
    · rw [hparam p hp]
      decide
  · simp [ha]

/-- A block has the label of the preheader, and neither phi has a name. -/
theorem twoEntries_confuses_names :
    ∃ m f changed m₁ g, Module.ofSpec (twoEntries "loop.preheader" "" "") = .ok m ∧
    f ∈ m.functions ∧ f.labels.Nodup ∧
    applyPass {} f.id .simplifyLoops { module := m } = .ok changed { module := m₁ } ∧
      m₁.func? f.id = some g ∧ ¬g.labels.Nodup ∧ ¬g.names.Nodup := by
  obtain ⟨m, f, hm, hf, hlabels, hnames, _, hunserved, hjoined⟩ :=
    exists_twoEntries (twoEntries "loop.preheader" "" "")
    ["top", "left", "loop.preheader", "loop", "end"] [] ["", ""] (by decide +kernel)
  obtain ⟨changed, m₁, g, hrun, hg, _, hlabels₁, hnames₁⟩ :=
    simplify_accepted (w := { module := m }) {} hm hf
  have hadded : (f.joined.map fun φ => φ.name ++ ".ph") = [".ph", ".ph"] := by
    have hmap := congrArg (List.map (· ++ ".ph")) hjoined
    rwa [List.map_map] at hmap
  rw [hlabels, hunserved] at hlabels₁
  rw [hnames, hadded] at hnames₁
  refine ⟨m, f, changed, m₁, g, hm, hf, hlabels ▸ by decide, hrun, hg, ?_, ?_⟩
  · rw [hlabels₁.nodup_iff]
    decide
  · rw [hnames₁.nodup_iff]
    decide

end Work

end KernelIR
