import KernelIR.Proofs.Graph.ImmediateDominator
import KernelIR.Proofs.Graph.Search
import Mathlib.Data.List.Perm.Subperm

namespace KernelIR

theorem DomTree.chain_of_idom?_eq_none {t : DomTree} {b : BlockRef} (h : t.idom? b = none)
    (n : Nat) :
    t.chain n b = [b] := by
  cases n with
  | zero => rfl
  | succ n => rw [chain, h]

/-- Whether the ways up a tree end, wherever they begin: the size of the tree bounds them. -/
def DomTree.Ends (t : DomTree) : Prop :=
  ∀ n, t.edges.length ≤ n → ∀ b, t.chain n b = t.chain t.edges.length b

namespace FlowGraph

variable {g : FlowGraph} {r a b : BlockRef} {i j : Nat} {v : Visit}

/-- The block that the depth-first search reaches at a position. -/
def blockAt (g : FlowGraph) (i : Nat) : BlockRef := (g.spanning[i]?.map Visit.block).getD default

/-- The numbering by the depth-first search. -/
abbrev spanned (g : FlowGraph) : Numbering := g.numbering g.spanning

theorem blockAt_eq (h : g.spanning[i]? = some v) : g.blockAt i = v.block := by
  simp [blockAt, h]

theorem exists_visit (h : i < g.spanned.size) :
    ∃ v, g.spanning[i]? = some v ∧ g.blockAt i = v.block := by
  obtain ⟨v, hv⟩ : ∃ v, g.spanning[i]? = some v := ⟨_, List.getElem?_eq_getElem h⟩
  exact ⟨v, hv, blockAt_eq hv⟩

theorem lt_of_visit (h : g.spanning[i]? = some v) : i < g.spanned.size :=
  (List.getElem?_eq_some_iff.mp h).1

theorem visit_of_mem_inOrder (h : (v, i) ∈ g.inOrder g.spanning) : g.spanning[i]? = some v := by
  rcases List.mem_append.mp h with h | h
  · exact List.mk_mem_zipIdx_iff_getElem?.mp (List.mem_of_mem_filter h)
  · obtain ⟨m, _, hm⟩ := List.mem_filterMap.mp h
    exact List.mk_mem_zipIdx_iff_getElem?.mp (List.mem_of_find?_eq_some hm)

/-- The edge that a visit gives the dominator tree: none for the root. -/
theorem edge_of_visit_iff {e : BlockRef × BlockRef} :
    (if i = 0 then none else ((DomState.immediate g.spanned).dom i).bind fun d =>
      (g.spanning.map Visit.block).toArray[d]?.map fun a => (v.block, a)) = some e ↔
    0 < i ∧ ∃ d u, (DomState.immediate g.spanned).dom i = some d ∧ g.spanning[d]? = some u ∧
      e = (v.block, u.block) := by
  simp only [List.getElem?_toArray, List.getElem?_map, Option.map_map]
  constructor
  · intro he
    split at he
    · cases he
    · next h0 =>
      obtain ⟨d, hd, he⟩ := Option.bind_eq_some_iff.mp he
      obtain ⟨u, hu, rfl⟩ := Option.map_eq_some_iff.mp he
      exact ⟨Nat.pos_of_ne_zero h0, d, u, hd, hu, rfl⟩
  · rintro ⟨h0, d, u, hd, hu, rfl⟩
    rw [if_neg (Nat.ne_of_gt h0), hd, Option.bind_some, hu]
    rfl

section Spanning

variable (hg : g.Closed) (hr : g.entry? = some r)

include hg hr

theorem isSearch_spanned : g.spanned.IsSearch := (searching_spanning hg hr).1.search

theorem blockAt_zero : g.blockAt 0 = r := blockAt_eq (searching_spanning hg hr).2

theorem zero_lt_spanned : 0 < g.spanned.size := lt_of_visit (searching_spanning hg hr).2

theorem blockAt_mem (h : i < g.spanned.size) : g.blockAt i ∈ g.nodes := by
  obtain ⟨v, hv, he⟩ := exists_visit h
  exact he ▸ (searching_spanning hg hr).1.nodes v (List.mem_of_getElem? hv)

theorem blockAt_injective (hi : i < g.spanned.size) (hj : j < g.spanned.size)
    (h : g.blockAt i = g.blockAt j) : i = j := by
  obtain ⟨u, hu, hbu⟩ := exists_visit hi
  obtain ⟨w, hw, hbw⟩ := exists_visit hj
  have hd := (searching_spanning hg hr).1.distinct
  have hnum : (g.spanning.map Visit.number)[i]? = (g.spanning.map Visit.number)[j]? := by
    rw [List.getElem?_map, List.getElem?_map, hu, hw, Option.map_some, Option.map_some]
    exact congrArg some (congrArg BlockRef.number ((hbu.symm.trans h).trans hbw))
  exact (List.getElem?_inj (by simpa using hi) hd).mp hnum

theorem edge_blockAt (h : g.spanned.Edge i j) : g.Edge (g.blockAt i) (g.blockAt j) := by
  obtain ⟨hj, hm⟩ := h
  obtain ⟨w, hw, hbw⟩ := exists_visit hj
  obtain ⟨u, hu, he⟩ := (hg.edge_iff (searching_spanning hg hr).1.nodes hw).mp hm
  rw [blockAt_eq hu, hbw]
  exact he

theorem exists_edge_of_edge (hi : i < g.spanned.size) (h : g.Edge (g.blockAt i) b) :
    ∃ j, g.spanned.Edge i j ∧ j < g.spanned.size ∧ g.blockAt j = b := by
  obtain ⟨u, hu, hbu⟩ := exists_visit hi
  have hs := (searching_spanning hg hr).1
  rcases hs.pending i u hu b (hbu ▸ h) with ⟨w, hw, hwb⟩ | hmem
  · obtain ⟨j, hj⟩ := List.getElem?_of_mem hw
    refine ⟨j, ⟨lt_of_visit hj, ?_⟩, lt_of_visit hj, (blockAt_eq hj).trans hwb⟩
    rw [hg.edge_iff hs.nodes hj]
    exact ⟨u, hu, hwb ▸ hbu ▸ h⟩
  · exact absurd hmem List.not_mem_nil

theorem walk_blockAt {p : List Nat} (w : Walk g.spanned.Edge i p j) :
    Walk g.Edge (g.blockAt i) (p.map g.blockAt) (g.blockAt j) :=
  w.map g.blockAt fun _ _ => edge_blockAt hg hr

/-- Every walk from the entry is one of the numbering. -/
theorem exists_walk_of_walk {q : List BlockRef} (w : Walk g.Edge r q b) :
    ∃ p j, Walk g.spanned.Edge 0 p j ∧ p.map g.blockAt = q ∧ j < g.spanned.size ∧ g.blockAt j = b :=
  w.lift (P := fun i => i < g.spanned.size) g.blockAt (fun _ _ => exists_edge_of_edge hg hr)
    (zero_lt_spanned hg hr) (blockAt_zero hg hr)

/-- The search reaches exactly what can be reached. -/
theorem reaches_iff : Reaches g.Edge r b ↔ ∃ i, i < g.spanned.size ∧ g.blockAt i = b := by
  constructor
  · rintro ⟨q, w⟩
    obtain ⟨p, j, _, _, hj, hb⟩ := exists_walk_of_walk hg hr w
    exact ⟨j, hj, hb⟩
  · rintro ⟨i, hi, rfl⟩
    obtain ⟨p, w⟩ := (isSearch_spanned hg hr).reaches hi
    rw [← blockAt_zero hg hr]
    exact ⟨_, walk_blockAt hg hr w⟩

theorem lt_of_mem_walk {p : List Nat} (w : Walk g.spanned.Edge 0 p j) :
    ∀ x ∈ p, x < g.spanned.size :=
  w.closed (zero_lt_spanned hg hr) fun _ _ _ e => e.1

theorem dominates_blockAt (hi : i < g.spanned.size) (hj : j < g.spanned.size) :
    Dominates g.Edge r (g.blockAt i) (g.blockAt j) ↔ Dominates g.spanned.Edge 0 i j := by
  constructor
  · intro h p w
    have hw := walk_blockAt hg hr w
    rw [blockAt_zero hg hr] at hw
    obtain ⟨x, hx, he⟩ := List.mem_map.mp (h _ hw)
    have hxi := blockAt_injective hg hr (lt_of_mem_walk hg hr w x hx) hi he
    exact hxi ▸ hx
  · intro h q w
    obtain ⟨p, k, hp, rfl, hk, he⟩ := exists_walk_of_walk hg hr w
    have hkj := blockAt_injective hg hr hk hj he
    exact List.mem_map_of_mem (h p (hkj ▸ hp))

theorem strictlyDominates_blockAt (hi : i < g.spanned.size) (hj : j < g.spanned.size) :
    StrictlyDominates g.Edge r (g.blockAt i) (g.blockAt j) ↔
    StrictlyDominates g.spanned.Edge 0 i j := by
  have hne : g.blockAt i ≠ g.blockAt j ↔ i ≠ j :=
    not_congr ⟨blockAt_injective hg hr hi hj, congrArg g.blockAt⟩
  rw [StrictlyDominates, StrictlyDominates, dominates_blockAt hg hr hi hj, hne]

theorem immediatelyDominates_blockAt (hi : i < g.spanned.size) (hj : j < g.spanned.size)
    (h : ImmediatelyDominates g.spanned.Edge 0 i j) :
    ImmediatelyDominates g.Edge r (g.blockAt i) (g.blockAt j) := by
  refine ⟨(strictlyDominates_blockAt hg hr hi hj).mpr h.strict, fun c hc => ?_⟩
  have hreach : Reaches g.Edge r c := hc.2.reaches ((reaches_iff hg hr).mpr ⟨j, hj, rfl⟩)
  obtain ⟨k, hk, rfl⟩ := (reaches_iff hg hr).mp hreach
  rw [strictlyDominates_blockAt hg hr hk hj] at hc
  exact (dominates_blockAt hg hr hk hi).mpr (h.closest k hc)

theorem mem_inOrder : (v, i) ∈ g.inOrder g.spanning ↔ g.spanning[i]? = some v := by
  have hd := (searching_spanning hg hr).1.distinct
  constructor
  · exact visit_of_mem_inOrder
  · intro h
    unfold inOrder
    simp only [List.mem_append, List.mem_filter, List.mem_filterMap,
      List.mk_mem_zipIdx_iff_getElem?]
    by_cases hown : v.number ∈ g.own.map fun e => e.1.number
    · refine Or.inr ⟨v.number, hown, ?_⟩
      obtain ⟨⟨u, j⟩, hu⟩ :
          ∃ u, g.spanning.zipIdx.find? (fun u => u.1.number = v.number) = some u := by
        rw [← Option.isSome_iff_exists, List.find?_isSome]
        exact ⟨(v, i), List.mk_mem_zipIdx_iff_getElem?.mpr h, by simp⟩
      have hj := List.mk_mem_zipIdx_iff_getElem?.mp (List.mem_of_find?_eq_some hu)
      have hnum : u.number = v.number := by simpa using List.find?_some hu
      have hmap : (g.spanning.map Visit.number)[j]? = (g.spanning.map Visit.number)[i]? := by
        rw [List.getElem?_map, List.getElem?_map, hj, h, Option.map_some, Option.map_some, hnum]
      have hji : j = i := (List.getElem?_inj (by simpa using lt_of_visit hj) hd).mp hmap
      subst hji
      rw [hu, Option.some.inj (hj.symm.trans h)]
    · exact Or.inl ⟨h, by simpa using hown⟩

/-- The edges of the dominator tree: each vertex but the root with what was computed for it. -/
theorem mem_edges_domTree : (b, a) ∈ g.domTree.edges ↔
    ∃ i d, 0 < i ∧ i < g.spanned.size ∧ d < g.spanned.size ∧
      (DomState.immediate g.spanned).dom i = some d ∧ g.blockAt i = b ∧ g.blockAt d = a := by
  unfold domTree
  simp only [List.mem_filterMap, Prod.exists, mem_inOrder hg hr, edge_of_visit_iff]
  constructor
  · rintro ⟨v, i, hv, h0, d, u, hd, hu, he⟩
    cases he
    exact ⟨i, d, h0, lt_of_visit hv, lt_of_visit hu, hd, blockAt_eq hv, blockAt_eq hu⟩
  · rintro ⟨i, d, h0, hi, hd, hdom, rfl, rfl⟩
    obtain ⟨v, hv, hbv⟩ := exists_visit hi
    obtain ⟨u, hu, hbu⟩ := exists_visit hd
    exact ⟨v, i, hv, h0, d, u, hdom, hu, by rw [hbv, hbu]⟩

theorem exists_immediate (h0 : 0 < i) (hi : i < g.spanned.size) :
    ∃ d, d < i ∧ (DomState.immediate g.spanned).dom i = some d ∧
      ImmediatelyDominates g.Edge r (g.blockAt d) (g.blockAt i) := by
  have hn := isSearch_spanned hg hr
  obtain ⟨d, hd, him⟩ := DomState.immediate_spec hn h0 hi
  have hle := hn.above_le (hn.dominates_above him.strict.2 hi)
  have hlt := Nat.lt_of_le_of_ne hle him.strict.1
  exact ⟨d, hlt, hd, immediatelyDominates_blockAt hg hr (Nat.lt_trans hlt hi) hi him⟩

theorem immediate_of_mem_edges (h : (b, a) ∈ g.domTree.edges) :
    Reaches g.Edge r b ∧ ImmediatelyDominates g.Edge r a b := by
  obtain ⟨i, d, h0, hi, _, hd, rfl, rfl⟩ := (mem_edges_domTree hg hr).mp h
  obtain ⟨e, _, he, him⟩ := exists_immediate hg hr h0 hi
  rw [hd] at he
  cases he
  exact ⟨(reaches_iff hg hr).mpr ⟨i, hi, rfl⟩, him⟩

theorem exists_edge_domTree (h : Reaches g.Edge r b) (hne : b ≠ r) :
    ∃ a, (b, a) ∈ g.domTree.edges := by
  obtain ⟨i, hi, rfl⟩ := (reaches_iff hg hr).mp h
  have h0 : 0 < i := Nat.pos_of_ne_zero fun h => hne (h ▸ blockAt_zero hg hr)
  obtain ⟨d, hdi, hd, _⟩ := exists_immediate hg hr h0 hi
  exact ⟨_, (mem_edges_domTree hg hr).mpr ⟨i, d, h0, hi, Nat.lt_trans hdi hi, hd, rfl, rfl⟩⟩

theorem idom?_eq_some_iff (hb : b ∈ g.nodes) :
    g.domTree.idom? b = some a ↔ Reaches g.Edge r b ∧ ImmediatelyDominates g.Edge r a b := by
  -- an edge with the number of a block is one of the block
  have hfind : ∀ e, g.domTree.edges.find? (fun e => e.1.number = b.number) = some e →
      (b, e.2) ∈ g.domTree.edges := by
    rintro ⟨x, y⟩ he
    have hmem := List.mem_of_find?_eq_some he
    obtain ⟨i, d, _, hi, _, _, rfl, _⟩ := (mem_edges_domTree hg hr).mp hmem
    have hnum : (g.blockAt i).number = b.number := by simpa using List.find?_some he
    rwa [hg.eq_of_number (blockAt_mem hg hr hi) hb hnum] at hmem
  unfold DomTree.idom?
  constructor
  · intro h
    obtain ⟨e, he, rfl⟩ := Option.map_eq_some_iff.mp h
    exact immediate_of_mem_edges hg hr (hfind e he)
  · rintro ⟨hreach, him⟩
    have hne : b ≠ r := by
      rintro rfl
      exact him.strict.1 (Dominates.root_iff.mp him.strict.2)
    obtain ⟨c, hc⟩ := exists_edge_domTree hg hr hreach hne
    obtain ⟨e, he⟩ : ∃ e, g.domTree.edges.find? (fun e => e.1.number = b.number) = some e := by
      rw [← Option.isSome_iff_exists, List.find?_isSome]
      exact ⟨(b, c), hc, by simp⟩
    rw [he, Option.map_some, (immediate_of_mem_edges hg hr (hfind e he)).2.unique him hreach]

theorem idom?_isSome_iff (hb : b ∈ g.nodes) : (g.domTree.idom? b).isSome ↔
    Reaches g.Edge r b ∧ b ≠ r := by
  rw [Option.isSome_iff_exists]
  constructor
  · rintro ⟨a, ha⟩
    obtain ⟨hreach, him⟩ := (idom?_eq_some_iff hg hr hb).mp ha
    refine ⟨hreach, ?_⟩
    rintro rfl
    exact him.strict.1 (Dominates.root_iff.mp him.strict.2)
  · rintro ⟨hreach, hne⟩
    obtain ⟨a, ha⟩ := exists_edge_domTree hg hr hreach hne
    exact ⟨a, (idom?_eq_some_iff hg hr hb).mpr (immediate_of_mem_edges hg hr ha)⟩

theorem contains_domTree_iff (hb : b ∈ g.nodes) : g.domTree.contains b ↔ Reaches g.Edge r b := by
  have hroot : g.domTree.root? = some r := hr
  rw [DomTree.contains, Bool.or_eq_true, idom?_isSome_iff hg hr hb, hroot, decide_eq_true_eq,
    Option.some_inj]
  constructor
  · rintro (rfl | h)
    · exact .root
    · exact h.1
  · intro h
    by_cases he : b = r
    · exact Or.inl he.symm
    · exact Or.inr ⟨h, he⟩

theorem idom?_blockAt_zero : g.domTree.idom? (g.blockAt 0) = none := by
  rw [← Option.not_isSome_iff_eq_none,
    idom?_isSome_iff hg hr (blockAt_mem hg hr (zero_lt_spanned hg hr))]
  exact fun h => h.2 (blockAt_zero hg hr)

/-- The way up the tree leads to blocks that the search found before. -/
theorem exists_idom?_blockAt (h0 : 0 < i) (hi : i < g.spanned.size) :
    ∃ d, d < i ∧ g.domTree.idom? (g.blockAt i) = some (g.blockAt d) ∧
      ImmediatelyDominates g.Edge r (g.blockAt d) (g.blockAt i) := by
  obtain ⟨d, hdi, _, him⟩ := exists_immediate hg hr h0 hi
  have hreach := (reaches_iff hg hr).mpr ⟨i, hi, rfl⟩
  exact ⟨d, hdi, (idom?_eq_some_iff hg hr (blockAt_mem hg hr hi)).mpr ⟨hreach, him⟩, him⟩

/-- The way up the tree from a block leads through its dominators. -/
theorem mem_chain_iff {fuel : Nat} (hi : i < g.spanned.size) (hf : i ≤ fuel) :
    a ∈ g.domTree.chain fuel (g.blockAt i) ↔ Dominates g.Edge r a (g.blockAt i) := by
  induction fuel generalizing i with
  | zero =>
    obtain rfl : i = 0 := by omega
    rw [DomTree.chain, List.mem_singleton, blockAt_zero hg hr, Dominates.root_iff]
  | succ fuel ih =>
    rw [DomTree.chain]
    rcases Nat.eq_zero_or_pos i with rfl | h0
    · rw [idom?_blockAt_zero hg hr, blockAt_zero hg hr, Dominates.root_iff]
      exact List.mem_singleton
    · obtain ⟨d, hdi, hd, him⟩ := exists_idom?_blockAt hg hr h0 hi
      rw [hd]
      simp only [List.mem_cons, ih (Nat.lt_trans hdi hi) (by omega)]
      constructor
      · rintro (rfl | h)
        · exact Dominates.refl _
        · exact h.trans him.strict.2
      · intro h
        by_cases he : a = g.blockAt i
        · exact Or.inl he
        · exact Or.inr (him.closest a ⟨he, h⟩)

/-- The way up from a block ends by itself within any bound that is not below its position. -/
theorem chain_blockAt {n k : Nat} (hi : i < g.spanned.size) (hn : i ≤ n) (hk : i ≤ k) :
    g.domTree.chain n (g.blockAt i) = g.domTree.chain k (g.blockAt i) := by
  have hzero := DomTree.chain_of_idom?_eq_none (idom?_blockAt_zero hg hr)
  induction i using Nat.strongRecOn generalizing n k with
  | _ i ih =>
    rcases Nat.eq_zero_or_pos i with rfl | h0
    · rw [hzero, hzero]
    · obtain ⟨n, rfl⟩ := Nat.exists_eq_succ_of_ne_zero (Nat.ne_of_gt (Nat.lt_of_lt_of_le h0 hn))
      obtain ⟨k, rfl⟩ := Nat.exists_eq_succ_of_ne_zero (Nat.ne_of_gt (Nat.lt_of_lt_of_le h0 hk))
      obtain ⟨d, hdi, hd, _⟩ := exists_idom?_blockAt hg hr h0 hi
      rw [DomTree.chain, DomTree.chain, hd]
      simp only [ih d hdi (n := n) (k := k) (Nat.lt_trans hdi hi) (by omega) (by omega)]

/-- The tree has an edge for every vertex but the root, so its size bounds the way up. -/
theorem size_le_edges : g.spanned.size ≤ g.domTree.edges.length + 1 := by
  have hnodup : ((List.range' 1 (g.spanned.size - 1)).map g.blockAt).Nodup := by
    refine List.Nodup.map_on (fun i hi j hj he => ?_) List.nodup_range'
    rw [List.mem_range'_1] at hi hj
    exact blockAt_injective hg hr (by omega) (by omega) he
  have hsub :
      (List.range' 1 (g.spanned.size - 1)).map g.blockAt ⊆ g.domTree.edges.map Prod.fst := by
    intro b hb
    obtain ⟨i, hi, rfl⟩ := List.mem_map.mp hb
    rw [List.mem_range'_1] at hi
    obtain ⟨d, hdi, hd, _⟩ := exists_immediate hg hr (i := i) (by omega) (by omega)
    exact List.mem_map.mpr ⟨(g.blockAt i, g.blockAt d),
      (mem_edges_domTree hg hr).mpr ⟨i, d, by omega, by omega, by omega, hd, rfl, rfl⟩, rfl⟩
  have hle := (List.subperm_of_subset hnodup hsub).length_le
  rw [List.length_map, List.length_map, List.length_range'] at hle
  omega

/-- The size of the tree is never reached on the way up, which may begin outside of the graph. -/
theorem chain_domTree {n : Nat} (hn : g.domTree.edges.length ≤ n) (b : BlockRef) :
    g.domTree.chain n b = g.domTree.chain g.domTree.edges.length b := by
  cases hidom : g.domTree.idom? b with
  | none => rw [DomTree.chain_of_idom?_eq_none hidom, DomTree.chain_of_idom?_eq_none hidom]
  | some a =>
    -- the block need not be one of the graph, but the block above it is
    obtain ⟨e, he, rfl⟩ := Option.map_eq_some_iff.mp hidom
    obtain ⟨i, d, h0, hi, _, hd, _, ha⟩ :=
      (mem_edges_domTree hg hr).mp (List.mem_of_find?_eq_some he)
    obtain ⟨c, hci, hc, _⟩ := exists_immediate hg hr h0 hi
    rw [hd] at hc
    cases hc
    have hsize := size_le_edges hg hr
    obtain ⟨k, hk⟩ := Nat.exists_eq_succ_of_ne_zero (show g.domTree.edges.length ≠ 0 by omega)
    obtain ⟨n, rfl⟩ := Nat.exists_eq_succ_of_ne_zero (show n ≠ 0 by omega)
    rw [hk, DomTree.chain, DomTree.chain, hidom]
    simp only [← ha,
      chain_blockAt hg hr (i := d) (n := n) (k := k) (by omega) (by omega) (by omega)]

theorem dominates_domTree_iff (ha : a ∈ g.nodes) (hb : b ∈ g.nodes) : g.domTree.dominates a b ↔
    Reaches g.Edge r a ∧ Reaches g.Edge r b ∧ Dominates g.Edge r a b := by
  rw [DomTree.dominates, Bool.and_eq_true, Bool.and_eq_true, contains_domTree_iff hg hr ha,
    contains_domTree_iff hg hr hb, and_assoc]
  refine and_congr_right fun _ => and_congr_right fun hreach => ?_
  obtain ⟨i, hi, rfl⟩ := (reaches_iff hg hr).mp hreach
  have hsize := size_le_edges hg hr
  rw [List.contains_iff_mem, mem_chain_iff hg hr hi (by omega)]

end Spanning

theorem ends_domTree (hg : g.Closed) : g.domTree.Ends := by
  intro n hn b
  cases hr : g.entry? with
  | some r => exact chain_domTree hg hr hn b
  | none =>
    have hidom : g.domTree.idom? b = none := by simp [domTree, spanning, hr, DomTree.idom?]
    rw [DomTree.chain_of_idom?_eq_none hidom, DomTree.chain_of_idom?_eq_none hidom]

end FlowGraph

end KernelIR
