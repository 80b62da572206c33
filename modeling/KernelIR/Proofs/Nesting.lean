import KernelIR.Proofs.Loops
import Mathlib.Order.OrderDual

namespace KernelIR

/-- One element more passes a test than passes another one. -/
theorem countP_eq_succ {α : Type} [DecidableEq α] {xs : List α} {a : α} {p q : α → Bool}
    (hn : xs.Nodup) (ha : a ∈ xs) (hp : p a = true) (hq : q a = false)
    (h : ∀ x ∈ xs, x ≠ a → (p x = true ↔ q x = true)) : xs.countP p = xs.countP q + 1 := by
  have hperm : xs.Perm (a :: xs.erase a) := List.perm_cons_erase ha
  rw [hperm.countP_eq, hperm.countP_eq, List.countP_cons_of_pos hp,
    List.countP_cons_of_neg (by simp [hq]), List.countP_congr]
  intro x hx
  rw [hn.mem_erase_iff] at hx
  exact h x hx.2 hx.1

/-- Whether a loop lies inside another one, which has all its blocks and more. -/
def Loop.Inside (l k : Loop) : Prop := l.body ⊆ k.body ∧ ¬k.body ⊆ l.body

namespace Loop.Inside

variable {l k j : Loop}

theorem irrefl (l : Loop) : ¬l.Inside l := fun h => h.2 (List.Subset.refl _)

theorem trans (h : l.Inside k) (h' : k.Inside j) : l.Inside j :=
  ⟨List.Subset.trans h.1 h'.1, fun hj => h'.2 (List.Subset.trans hj h.1)⟩

theorem size_lt (h : l.Inside k) (hl : l.body.Nodup) : l.size < k.size := by
  have hsub : l.body.Subperm k.body := List.subperm_of_subset hl h.1
  refine Nat.lt_of_le_of_ne hsub.length_le fun he => ?_
  exact h.2 (hsub.perm_of_length_le he.ge).symm.subset

end Loop.Inside

namespace LoopNest

/-- The innermost loop of a nest with some property: all others with the property are around it. -/
structure Innermost (n : LoopNest) (P : Loop → Prop) (l : Loop) : Prop where
  mem : l ∈ n
  prop : P l
  around : ∀ k ∈ n, P k → k ≠ l → l.Inside k

theorem Innermost.unique {n : LoopNest} {P : Loop → Prop} {l k : Loop} (hl : n.Innermost P l)
    (hk : n.Innermost P k) : l = k := by
  by_contra hne
  have hlk := hl.around k hk.mem hk.prop (Ne.symm hne)
  have hkl := hk.around l hl.mem hl.prop hne
  exact Loop.Inside.irrefl l (hlk.trans hkl)

theorem deeper_eq_best : deeper = best fun l => OrderDual.toDual l.depth := by
  funext b? l
  cases b? with
  | none => rfl
  | some b => rfl

/-- A nest whose parts agree: loops with a block in common are one inside the other, and parents,
depths, the order of the loops and the innermost loop around a block are those of the sets of
blocks. `nodes` are the blocks of the function in their order. -/
structure Proper (n : LoopNest) (nodes : List BlockRef) : Prop where
  distinct : (n.map Loop.header).Nodup
  laminar : ∀ l ∈ n, ∀ k ∈ n, l ≠ k → l.body.Disjoint k.body ∨ l.Inside k ∨ k.Inside l
  parent : ∀ l ∈ n, ∀ h, l.parent? = some h ↔ ∃ p, n.Innermost (l.Inside ·) p ∧ p.header = h
  top : ∀ l ∈ n, l.parent? = none ↔ ∀ k ∈ n, ¬l.Inside k
  subloops : ∀ l ∈ n, ∀ s, s ∈ n.subloops l ↔ s ∈ n ∧ n.Innermost (s.Inside ·) l
  subloops_order : ∀ l ∈ n, (n.subloops l).Pairwise fun s t => [s.header, t.header].Sublist nodes
  depth : ∀ l ∈ n, l.depth = n.countP fun k => k.contains l.header
  order : ∀ l ∈ n, ∀ k ∈ n, l.Inside k → [l, k].Sublist n
  loopFor : ∀ b l, n.loopFor? b = some l ↔ n.Innermost (b ∈ ·.body) l
  loopFor_none : ∀ b, n.loopFor? b = none ↔ ∀ k ∈ n, b ∉ k.body
  inSubloop : ∀ l ∈ n, ∀ b ∈ l.body, n.inSubloop l b = true ↔ n.loopFor? b ≠ some l

end LoopNest

namespace Func

variable {f : Func} {l k p : Loop} {b : BlockRef}

/-- What is above a block of the loop and below its header is in the loop. -/
theorem IsNaturalLoop.mem_of_between (hl : f.IsNaturalLoop l) {b d : BlockRef} (hb : b ∈ l.body)
    (hd : f.Dominates d b) (hh : f.Dominates l.header d) : d ∈ l.body := by
  -- the last part of a walk to the block leads from the header through it
  have hreach := hl.reaches hb
  have hheader := hl.reaches hl.header_mem
  by_cases hdh : d = l.header
  · rw [hdh]
    exact hl.header_mem
  have hnot : ¬f.Dominates d l.header := fun hdom => hdh (hdom.antisymm hh hheader)
  rcases (hl.body b).mp hb with rfl | ⟨_, t, p, e, w, hp⟩
  · exact absurd hd hnot
  · obtain ⟨q, r, hr, v⟩ := hreach
    have hq : l.header ∈ q := ((hl.body b).mp hb).dominates q ⟨r, hr, v⟩
    have hbh : l.header ≠ b := fun he => hp (he ▸ w.first_mem)
    obtain ⟨c, s, hc, u, _, hs⟩ := (v.leave hq).resolve_left hbh
    have hds : d ∈ l.header :: s := (hd.of_walk (.cons hc u)).resolve_right hnot
    have hds : d ∈ s := (List.mem_cons.mp hds).resolve_left hdh
    obtain ⟨_, s', _, hsuffix, _, hs', _⟩ := u.split hds
    obtain ⟨z, hz, hmem⟩ := hsuffix.append w
    refine (hl.body d).mpr (Or.inr ⟨hd.reaches ⟨q, r, hr, v⟩, t, z, e, hz, fun hin => ?_⟩)
    rcases (hmem l.header).mp hin with hin | hin
    · exact hs (hs' hin)
    · exact hp hin

/-- What is above a block of the loop, but outside the loop, is above its header. -/
theorem IsNaturalLoop.dominates_header (hl : f.IsNaturalLoop l) {b d : BlockRef} (hb : b ∈ l.body)
    (hd : f.Dominates d b) (hout : d ∉ l.body) : f.Dominates d l.header := by
  rcases hd.linear ((hl.body _).mp hb).dominates (hl.reaches hb) with h | h
  · exact h
  · exact absurd (hl.mem_of_between hb hd h) hout

/-- The way from a block of the loop to a branch back stays in the loop. -/
theorem InLoop.walk {h t : BlockRef} {p : List BlockRef} (hb : f.Reaches b) (e : f.BackEdge t h)
    (w : Walk f.Edge b p t) (hp : h ∉ p) : ∀ x ∈ p, f.InLoop h x := by
  intro x hx
  obtain ⟨_, s, _, v, _, hs, _⟩ := w.split hx
  exact Or.inr ⟨hb.walk w x hx, t, s, e, v, fun hh => hp (hs hh)⟩

theorem BackEdge.inLoop {t h : BlockRef} (e : f.BackEdge t h) : f.InLoop h t := by
  by_cases hth : t = h
  · exact Or.inl hth
  · exact Or.inr ⟨e.2.1, t, [t], e, .single t, fun hin => hth (List.mem_singleton.mp hin).symm⟩

section Natural

variable (hl : f.IsNaturalLoop l) (hk : f.IsNaturalLoop k)

include hl hk

/-- The header of a loop is not in a loop whose own header it has in it. -/
theorem header_not_mem (h : l.header ∈ k.body) (hne : l.header ≠ k.header) : k.header ∉ l.body := by
  intro h'
  have hkl := ((hk.body _).mp h).dominates
  have hlk := ((hl.body _).mp h').dominates
  exact hne (hlk.antisymm hkl (hk.reaches hk.header_mem))

/-- A loop that has the header of another one has all its blocks. -/
theorem body_subset (h : l.header ∈ k.body) : l.body ⊆ k.body := by
  intro b hb
  by_cases hne : l.header = k.header
  · exact (hk.body b).mpr (hne ▸ (hl.body b).mp hb)
  have hout := header_not_mem hl hk h hne
  rcases (hl.body b).mp hb with rfl | ⟨hreach, t, p, e, w, hp⟩
  · exact h
  · -- from the branch back to the inner header the way goes on to one back to the outer header
    obtain ⟨_, u, q, e', v, hq⟩ := ((hk.body _).mp h).resolve_left hne
    obtain ⟨z, hz, hmem⟩ := w.append (.cons e.1 v)
    refine (hk.body b).mpr (Or.inr ⟨hreach, u, z, e', hz, fun hin => ?_⟩)
    have hpl : ∀ x ∈ p, x ∈ l.body := fun x hx => (hl.body x).mpr (InLoop.walk hreach e w hp x hx)
    rcases (hmem _).mp hin with hin | hin
    · exact hout (hpl _ hin)
    · rcases List.mem_cons.mp hin with he | hin
      · exact hout (he ▸ hpl t w.last_mem)
      · exact hq hin

/-- Of two loops with a block in common, one has the header of the other. -/
theorem header_mem_or (hbl : b ∈ l.body) (hbk : b ∈ k.body) :
    l.header ∈ k.body ∨ k.header ∈ l.body := by
  have hdl := ((hl.body b).mp hbl).dominates
  have hdk := ((hk.body b).mp hbk).dominates
  rcases hdl.linear hdk (hl.reaches hbl) with h | h
  · exact Or.inr (hl.mem_of_between hbl hdk h)
  · exact Or.inl (hk.mem_of_between hbk hdl h)

end Natural

section Nest

variable (hf : f.Linked)

include hf

theorem inside_iff (hl : l ∈ f.nest) (hk : k ∈ f.nest) : l.Inside k ↔
    l ≠ k ∧ l.header ∈ k.body := by
  have hnl := hf.isNaturalLoop hl
  have hnk := hf.isNaturalLoop hk
  constructor
  · intro h
    refine ⟨fun he => ?_, h.1 hnl.header_mem⟩
    rw [he] at h
    exact Loop.Inside.irrefl k h
  · intro h
    obtain ⟨hne, hmem⟩ := h
    refine ⟨body_subset hnl hnk hmem, fun hsub => ?_⟩
    have hheader : l.header ≠ k.header := fun he => hne (FlowGraph.eq_of_header hl hk he)
    exact header_not_mem hnl hnk hmem hheader (hsub hnk.header_mem)

theorem encloses_iff (hl : l ∈ f.nest) (hk : k ∈ f.nest) : FlowGraph.Encloses k l ↔ l.Inside k := by
  constructor
  · intro h
    obtain ⟨hne, hmem, _⟩ := h
    exact (inside_iff hf hl hk).mpr ⟨fun he => hne (congrArg Loop.header he.symm), hmem⟩
  · intro h
    obtain ⟨hne, hmem⟩ := (inside_iff hf hl hk).mp h
    refine ⟨fun he => hne (FlowGraph.eq_of_header hl hk he.symm), hmem, ?_⟩
    exact h.size_lt (hf.isNaturalLoop hl).nodup

/-- The loops around a block are one inside the other. -/
theorem inside_or (hl : l ∈ f.nest) (hk : k ∈ f.nest) (hne : l ≠ k) (hbl : b ∈ l.body)
    (hbk : b ∈ k.body) :
    l.Inside k ∨ k.Inside l := by
  rw [inside_iff hf hl hk, inside_iff hf hk hl]
  rcases header_mem_or (hf.isNaturalLoop hl) (hf.isNaturalLoop hk) hbl hbk with h | h
  · exact Or.inl ⟨hne, h⟩
  · exact Or.inr ⟨Ne.symm hne, h⟩

/-- A loop is at the top with none around it, or its parent is the innermost loop around it. -/
theorem parent_cases (hl : l ∈ f.nest) :
    (l.parent? = none ∧ l.depth = 1 ∧ ∀ k ∈ f.nest, ¬l.Inside k) ∨
      ∃ p, l.parent? = some p.header ∧ l.depth = p.depth + 1 ∧ f.nest.Innermost (l.Inside ·) p := by
  rcases FlowGraph.depth_loopNest hl with ⟨hnone, hdepth⟩ | ⟨p, hp, hsome, hdepth⟩
  · left
    refine ⟨hnone, hdepth, fun k hk hlk => ?_⟩
    exact FlowGraph.parent?_eq_none hl hnone k hk ((encloses_iff hf hl hk).mpr hlk)
  · right
    obtain ⟨q, hq, hqp, henc, hleast⟩ := FlowGraph.parent?_eq_some hl hsome
    have heq : q = p := FlowGraph.eq_of_header hq hp hqp
    subst heq
    have hlq := (encloses_iff hf hl hq).mp henc
    refine ⟨q, hsome, hdepth, hq, hlq, fun k hk hlk hne => ?_⟩
    have hheader := (hf.isNaturalLoop hl).header_mem
    refine (inside_or hf hk hq hne (hlk.1 hheader) (hlq.1 hheader)).resolve_left fun hkq => ?_
    -- a loop between the two would have been chosen
    have hlt := hkq.size_lt (hf.isNaturalLoop hk).nodup
    exact Nat.not_lt_of_le (hleast k hk ((encloses_iff hf hl hk).mpr hlk)) hlt

theorem parent?_eq_some_iff (hl : l ∈ f.nest) (h : BlockRef) :
    l.parent? = some h ↔ ∃ p, f.nest.Innermost (l.Inside ·) p ∧ p.header = h := by
  rcases parent_cases hf hl with ⟨hnone, _, htop⟩ | ⟨p, hsome, _, hp⟩
  · rw [hnone]
    refine ⟨nofun, fun hex => ?_⟩
    obtain ⟨p, hp, _⟩ := hex
    exact absurd hp.prop (htop p hp.mem)
  · rw [hsome, Option.some_inj]
    constructor
    · exact fun he => ⟨p, hp, he⟩
    · intro hex
      obtain ⟨q, hq, rfl⟩ := hex
      rw [hp.unique hq]

theorem parent?_eq_none_iff (hl : l ∈ f.nest) : l.parent? = none ↔ ∀ k ∈ f.nest, ¬l.Inside k := by
  rcases parent_cases hf hl with ⟨hnone, _, htop⟩ | ⟨p, hsome, _, hp⟩
  · exact ⟨fun _ => htop, fun _ => hnone⟩
  · rw [hsome]
    exact ⟨nofun, fun h => absurd hp.prop (h p hp.mem)⟩

/-- What holds of the children of a loop, and of a loop if it holds of its parent, holds of all
loops inside it. -/
theorem inside_induction {P : Loop → Prop} (hk : k ∈ f.nest)
    (child : ∀ l ∈ f.nest, l.parent? = some k.header → l.depth = k.depth + 1 → P l)
    (below : ∀ l ∈ f.nest, ∀ p ∈ f.nest, l.Inside p → l.parent? = some p.header →
      l.depth = p.depth + 1 → P p → P l) (hl : l ∈ f.nest) (h : l.Inside k) : P l := by
  induction hd : l.depth using Nat.strongRecOn generalizing l with
  | _ d ih =>
    rcases parent_cases hf hl with ⟨_, _, htop⟩ | ⟨p, hparent, hdepth, hp⟩
    · exact absurd h (htop k hk)
    · by_cases hkp : k = p
      · subst hkp
        exact child l hl hparent hdepth
      · exact below l hl p hp.mem hp.prop hparent hdepth
          (ih p.depth (by omega) hp.mem (hp.around k hk h hkp) rfl)

theorem depth_lt_of_inside (hl : l ∈ f.nest) (hk : k ∈ f.nest) (h : l.Inside k) :
    k.depth < l.depth := by
  refine inside_induction hf hk (P := fun l => k.depth < l.depth) ?_ ?_ hl h
  · intro l _ _ hdepth
    omega
  · intro l _ p _ _ _ hdepth hp
    omega

/-- A loop inside another one lies in a child of it. -/
theorem exists_subloop (hl : l ∈ f.nest) (hk : k ∈ f.nest) (h : l.Inside k) :
    ∃ s ∈ f.nest.subloops k, l.body ⊆ s.body := by
  refine inside_induction hf hk (P := fun l => ∃ s ∈ f.nest.subloops k, l.body ⊆ s.body) ?_ ?_ hl h
  · intro l hl hparent _
    exact ⟨l, List.mem_filter.mpr ⟨hl, decide_eq_true hparent⟩, List.Subset.refl _⟩
  · intro l _ p _ hlp _ _ hp
    obtain ⟨s, hs, hps⟩ := hp
    exact ⟨s, hs, List.Subset.trans hlp.1 hps⟩

theorem mem_subloops_iff (hl : l ∈ f.nest) {s : Loop} :
    s ∈ f.nest.subloops l ↔ s ∈ f.nest ∧ f.nest.Innermost (s.Inside ·) l := by
  rw [LoopNest.subloops, List.mem_filter, decide_eq_true_eq]
  refine and_congr_right fun hs => ?_
  rw [parent?_eq_some_iff hf hs]
  constructor
  · intro h
    obtain ⟨p, hp, he⟩ := h
    rw [← FlowGraph.eq_of_header hp.mem hl he]
    exact hp
  · exact fun h => ⟨l, h, rfl⟩

/-- A loop comes after those inside it. -/
theorem sublist_of_inside (hl : l ∈ f.nest) (hk : k ∈ f.nest) (h : l.Inside k) :
    [l, k].Sublist f.nest := by
  have hup :
      Relation.ReflTransGen (FlowGraph.Up (f.flow.ordered f.flow.domTree)) l.header k.header := by
    refine inside_induction hf hk
      (P := fun l => Relation.ReflTransGen _ l.header k.header) ?_ ?_ hl h
    · exact fun l hl hparent _ => .single (FlowGraph.up_ordered hl hparent)
    · exact fun l hl p _ _ hparent _ hp => .head (FlowGraph.up_ordered hl hparent) hp
  have hne : l ≠ k := ((inside_iff hf hl hk).mp h).1
  obtain ⟨s, t, hsplit⟩ := List.append_of_mem hl
  have hpair := FlowGraph.pairwise_loopNest f.flow f.flow.domTree
  rw [← nest, hsplit] at hpair
  rw [hsplit] at hk ⊢
  rcases List.mem_append.mp hk with hks | hkt
  · exact absurd hup ((List.pairwise_append.mp hpair).2.2 k hks l List.mem_cons_self)
  · have hkt : k ∈ t := (List.mem_cons.mp hkt).resolve_left (Ne.symm hne)
    exact ((List.singleton_sublist.mpr hkt).cons_cons l).trans (List.sublist_append_right s _)

/-- The depth of a loop is the number of loops around its header. -/
theorem depth_eq_countP (hl : l ∈ f.nest) :
    l.depth = f.nest.countP fun k => k.contains l.header := by
  have hnodup : f.nest.Nodup := List.Nodup.of_map _ (FlowGraph.nodup_loopNest _ _)
  induction hd : l.depth using Nat.strongRecOn generalizing l with
  | _ d ih =>
    have hself : l.contains l.header = true := by
      simpa [Loop.contains] using (hf.isNaturalLoop hl).header_mem
    -- the loop itself is one more than those around it, which are those around the header of its
    -- parent
    rcases parent_cases hf hl with ⟨_, hone, htop⟩ | ⟨p, _, hdepth, hp⟩
    · rw [countP_eq_succ (q := fun _ => false) hnodup hl hself rfl]
      · simp [← hd, hone]
      · intro k hk hne
        refine iff_of_false (fun hin => ?_) (by simp)
        have hin : l.header ∈ k.body := by simpa [Loop.contains] using hin
        exact htop k hk ((inside_iff hf hl hk).mpr ⟨Ne.symm hne, hin⟩)
    · have hlt : p.depth < d := by omega
      rw [countP_eq_succ (q := fun k => k.contains p.header) hnodup hl hself,
        ← ih p.depth hlt hp.mem rfl]
      · omega
      · rw [Loop.contains, List.contains_eq_mem, decide_eq_false_iff_not]
        intro hin
        have hpl : p ≠ l := fun he => Loop.Inside.irrefl l (he ▸ hp.prop)
        exact Loop.Inside.irrefl l (hp.prop.trans ((inside_iff hf hp.mem hl).mpr ⟨hpl, hin⟩))
      · intro k hk hne
        simp only [Loop.contains, List.contains_eq_mem, decide_eq_true_eq]
        constructor
        · intro hin
          by_cases hkp : k = p
          · exact hkp ▸ (hf.isNaturalLoop hk).header_mem
          · have hlk := (inside_iff hf hl hk).mpr ⟨Ne.symm hne, hin⟩
            exact (hp.around k hk hlk hkp).1 (hf.isNaturalLoop hp.mem).header_mem
        · intro hin
          exact body_subset (hf.isNaturalLoop hp.mem) (hf.isNaturalLoop hk) hin
            (hp.prop.1 (hf.isNaturalLoop hl).header_mem)

theorem loopFor?_cases (b : BlockRef) : (f.nest.loopFor? b = none ∧ ∀ k ∈ f.nest, b ∉ k.body) ∨
    ∃ l, f.nest.loopFor? b = some l ∧ f.nest.Innermost (b ∈ ·.body) l := by
  have hmem : ∀ k, k ∈ (f.nest.filter fun l => l.contains b) ↔ k ∈ f.nest ∧ b ∈ k.body := by
    simp [Loop.contains]
  rw [LoopNest.loopFor?, LoopNest.deeper_eq_best]
  cases h :
    (f.nest.filter fun l => l.contains b).foldl (best fun l => OrderDual.toDual l.depth) none with
  | none =>
    left
    have hempty := (foldl_best (x := default) _ _ none).2 h
    exact ⟨rfl, fun k hk hb => List.ne_nil_of_mem ((hmem k).mpr ⟨hk, hb⟩) hempty⟩
  | some l =>
    right
    obtain ⟨hl, hle⟩ := (foldl_best _ _ none).1 h
    obtain ⟨hl, hb⟩ := (hmem l).mp hl
    refine ⟨l, rfl, hl, hb, fun k hk hkb hne => ?_⟩
    refine (inside_or hf hl hk (Ne.symm hne) hb hkb).resolve_right fun hkl => ?_
    -- a loop inside the one found would be deeper
    have hdepth := depth_lt_of_inside hf hk hl hkl
    exact Nat.not_lt_of_le (hle k ((hmem k).mpr ⟨hk, hkb⟩)) hdepth

theorem loopFor?_eq_some_iff (b : BlockRef) (l : Loop) :
    f.nest.loopFor? b = some l ↔ f.nest.Innermost (b ∈ ·.body) l := by
  rcases loopFor?_cases hf b with ⟨hnone, hfree⟩ | ⟨k, hsome, hk⟩
  · rw [hnone]
    exact ⟨nofun, fun hl => absurd hl.prop (hfree l hl.mem)⟩
  · rw [hsome, Option.some_inj]
    exact ⟨fun he => he ▸ hk, fun hl => hk.unique hl⟩

theorem loopFor?_eq_none_iff (b : BlockRef) : f.nest.loopFor? b = none ↔
    ∀ k ∈ f.nest, b ∉ k.body := by
  rcases loopFor?_cases hf b with ⟨hnone, hfree⟩ | ⟨k, hsome, hk⟩
  · exact ⟨fun _ => hfree, fun _ => hnone⟩
  · rw [hsome]
    exact ⟨nofun, fun hfree => absurd hk.prop (hfree k hk.mem)⟩

theorem inSubloop_iff (hl : l ∈ f.nest) (hb : b ∈ l.body) :
    f.nest.inSubloop l b = true ↔ f.nest.loopFor? b ≠ some l := by
  have hany : f.nest.inSubloop l b = true ↔ ∃ s ∈ f.nest.subloops l, b ∈ s.body := by
    simp [LoopNest.inSubloop, Loop.contains]
  rw [hany]
  constructor
  · intro hs hfor
    obtain ⟨s, hs, hbs⟩ := hs
    obtain ⟨hs, hinner⟩ := (mem_subloops_iff hf hl).mp hs
    have hsl : s ≠ l := fun he => Loop.Inside.irrefl l (he ▸ hinner.prop)
    have hls := ((loopFor?_eq_some_iff hf b l).mp hfor).around s hs hbs hsl
    exact Loop.Inside.irrefl l (hls.trans hinner.prop)
  · intro hfor
    rcases loopFor?_cases hf b with ⟨_, hfree⟩ | ⟨k, hsome, hk⟩
    · exact absurd hb (hfree l hl)
    · have hlk : l ≠ k := fun he => hfor (he ▸ hsome)
      obtain ⟨s, hs, hks⟩ := exists_subloop hf hk.mem hl (hk.around l hl hb hlk)
      exact ⟨s, hs, hks hk.prop⟩

/-- The children of a loop come in the order of their headers. -/
theorem pairwise_subloops (l : Loop) :
    (f.nest.subloops l).Pairwise fun s t => [s.header, t.header].Sublist f.flow.nodes := by
  have hown : f.flow.nodes = f.flow.own.map Prod.fst := by
    simp [FlowGraph.nodes, FlowGraph.out, flow]
  have hdistinct : f.nest.Pairwise fun s t => s.header ≠ t.header :=
    List.pairwise_map.mp (FlowGraph.nodup_loopNest f.flow f.flow.domTree)
  have hboth := hdistinct.and (FlowGraph.pairwise_position f.flow f.flow.domTree)
  refine (hboth.filter fun s => s.parent? = some l.header).imp_of_mem fun {s t} hs ht hst => ?_
  rw [LoopNest.subloops, List.mem_filter, decide_eq_true_eq] at hs ht
  have hmem : ∀ {k : Loop}, k ∈ f.nest → k.header ∈ f.flow.own.map Prod.fst := fun hk =>
    hown ▸ ((hf.isNaturalLoop hk).reaches (hf.isNaturalLoop hk).header_mem).mem_nodes hf
  rw [hown]
  exact FlowGraph.sublist_of_position (hmem hs.1) (hmem ht.1) hst.1 (hst.2 (hs.2.trans ht.2.symm))

theorem proper_nest : f.nest.Proper f.flow.nodes where
  distinct := FlowGraph.nodup_loopNest _ _
  laminar l hl k hk hne := by
    by_cases hshared : ∃ b, b ∈ l.body ∧ b ∈ k.body
    · obtain ⟨b, hbl, hbk⟩ := hshared
      exact Or.inr (inside_or hf hl hk hne hbl hbk)
    · exact Or.inl fun b hbl hbk => hshared ⟨b, hbl, hbk⟩
  parent l hl h := parent?_eq_some_iff hf hl h
  top l hl := parent?_eq_none_iff hf hl
  subloops l hl s := mem_subloops_iff hf hl
  subloops_order l _ := pairwise_subloops hf l
  depth l hl := depth_eq_countP hf hl
  order l hl k hk h := sublist_of_inside hf hl hk h
  loopFor b l := loopFor?_eq_some_iff hf b l
  loopFor_none b := loopFor?_eq_none_iff hf b
  inSubloop l hl b hb := inSubloop_iff hf hl hb

end Nest

end Func

namespace Module

/-- The loop nest of a function whose branches lead to its own blocks: it has its natural loops, one
for each header, and what it says about each of them agrees with the sets of their blocks. -/
theorem loopNest_proper (m : Module) (f : Func) (hf : f.Linked) :
    ∃ nest, m.loopNest f (m.domTree f) = .ok nest ∧
      (∀ h, h ∈ nest.map Loop.header ↔ ∃ t, f.BackEdge t h) ∧ (∀ l ∈ nest, f.IsNaturalLoop l) ∧
      nest.Proper (f.blocks.map fun k => f.ref k.id) := by
  refine ⟨f.nest, hf.loopNest_eq m, fun h => hf.mem_headers, fun l hl => hf.isNaturalLoop hl, ?_⟩
  rw [← Func.nodes_flow]
  exact Func.proper_nest hf

/-- Block 2 is the header of a loop with two loops side by side in it, those of the blocks 3 and 6,
and block 4 is a loop inside the first of them. -/
def threeLevels : Func :=
  let ending (id : BlockId) (targets : List BlockId) : Block :=
    ⟨id, "", 0, [{ op := .condBr, targets := targets.map (⟨0, ·⟩), id := ⟨0, id⟩ }]⟩
  Func.record { Func.declare 0 "f" .void [] with
    blocks := [ending 1 [2], ending 2 [3], ending 3 [4], ending 4 [4, 5], ending 5 [3, 6],
      ending 6 [6, 7], ending 7 [2, 8], ending 8 []] }

def threeLevelsNest : LoopNest :=
  let loop (header : BlockId) (others : List BlockId) (parent? : Option BlockId) (depth : Nat) :
      Loop :=
    ⟨⟨0, header⟩, (header :: others).map (⟨0, ·⟩), parent?.map (⟨0, ·⟩), depth⟩
  [loop 4 [] (some 3) 3, loop 3 [5, 4] (some 2) 2, loop 6 [] (some 2) 2,
    loop 2 [7, 6, 5, 4, 3] none 1]

theorem threeLevels_proper :
    threeLevels.Linked ∧ threeLevelsNest.Proper (threeLevels.blocks.map fun k => ⟨0, k.id⟩) := by
  have hlinked : threeLevels.Linked := ⟨by decide, by decide⟩
  obtain ⟨nest, hnest, _, _, hproper⟩ := loopNest_proper { name := "" } threeLevels hlinked
  have heq : loopNest { name := "" } threeLevels (domTree { name := "" } threeLevels) =
      .ok threeLevelsNest := by cbv
  rw [heq] at hnest
  cases hnest
  exact ⟨hlinked, hproper⟩

/-- Block 2 branches to the blocks 3 and 4 of another function, which lead back to it. -/
def twoForeignLatches : Func :=
  let ending (id : BlockId) (targets : List BlockRef) : Block :=
    ⟨id, "", 1, [{ op := .condBr, targets, id := ⟨1, id⟩ }]⟩
  Func.record { Func.declare 1 "f" .void [] with
    blocks := [ending 1 [⟨0, 3⟩], ending 2 [⟨0, 3⟩, ⟨0, 4⟩], ending 3 [⟨1, 2⟩]] }

def twoForeignLatchesModule : Module :=
  let ending (id : BlockId) (targets : List BlockRef) : Block :=
    ⟨id, "", 0, [{ op := .br, targets, id := ⟨0, id⟩ }]⟩
  let other := Func.record { Func.declare 0 "other" .void [] with
    blocks := [ending 1 [], ending 2 [], ending 3 [⟨0, 4⟩], ending 4 [⟨1, 2⟩]] }
  { name := "", functions := [other, twoForeignLatches] }

/-- The blocks before a block are looked for in its own function, so two loops that lead through
another function can share blocks with none of them inside the other. -/
theorem twoForeignLatches_not_proper : (twoForeignLatches.blocks.map Block.id).Nodup ∧
    ¬∃ nest, twoForeignLatchesModule.loopNest twoForeignLatches
      (twoForeignLatchesModule.domTree twoForeignLatches) = .ok nest ∧
      ∀ l ∈ nest, ∀ k ∈ nest, l ≠ k → l.body.Disjoint k.body ∨ l.Inside k ∨ k.Inside l := by
  refine ⟨by decide, ?_⟩
  intro hnest
  obtain ⟨nest, hnest, hlaminar⟩ := hnest
  let three : Loop := ⟨⟨0, 3⟩, [⟨0, 3⟩, ⟨1, 2⟩, ⟨1, 3⟩], none, 1⟩
  let four : Loop := ⟨⟨0, 4⟩, [⟨0, 4⟩, ⟨1, 2⟩, ⟨1, 3⟩], none, 1⟩
  have heq : twoForeignLatchesModule.loopNest twoForeignLatches
      (twoForeignLatchesModule.domTree twoForeignLatches) = .ok [three, four] := by cbv
  rw [heq] at hnest
  cases hnest
  rcases hlaminar three (by simp) four (by simp) (by decide) with h | h | h
  · exact h (show ⟨1, 2⟩ ∈ three.body by decide) (by decide)
  · exact absurd (h.1 (show ⟨0, 3⟩ ∈ three.body by decide)) (by decide)
  · exact absurd (h.1 (show ⟨0, 4⟩ ∈ four.body by decide)) (by decide)

end Module

end KernelIR
