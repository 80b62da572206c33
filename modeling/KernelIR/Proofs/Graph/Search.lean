import KernelIR.Proofs.Graph.Semidominator
import Mathlib.Data.List.Nodup

namespace KernelIR

namespace FlowGraph

/-- The branches between blocks. -/
def Edge (g : FlowGraph) (a b : BlockRef) : Prop := b ∈ g.succs a

/-- Whether every branch leads to a block of the graph, and no two blocks have one number. -/
structure Closed (g : FlowGraph) : Prop where
  distinct : g.numbers.Nodup
  succs : ∀ a b, g.Edge a b → b ∈ g.nodes

variable {g : FlowGraph} {stack seen : List Visit} {v e : Visit} {i j : Nat}

theorem Closed.eq_of_number (h : g.Closed) {a b : BlockRef} (ha : a ∈ g.nodes) (hb : b ∈ g.nodes)
    (he : a.number = b.number) : a = b :=
  List.inj_on_of_nodup_map h.distinct ha hb he

@[simp] theorem numbering_size (g : FlowGraph) (seen : List Visit) :
    (g.numbering seen).size = seen.length := rfl

theorem numbering_parent (h : seen[i]? = some v) : (g.numbering seen).parent i = v.parent := by
  simp [numbering, h]

theorem mem_preds (h : seen[i]? = some v) :
    j ∈ (g.numbering seen).preds i ↔
      ∃ u, seen[j]? = some u ∧ v.number ∈ (g.succs u.block).map BlockRef.number := by
  have hpreds : (g.numbering seen).preds i = ((seen.zipIdx.map fun v =>
      (v.2, (g.succs v.1.block).map BlockRef.number)).filter fun e =>
      e.2.contains v.number).map Prod.fst := by
    simp [numbering, h]
  rw [hpreds, List.mem_map]
  constructor
  · rintro ⟨e, he, rfl⟩
    obtain ⟨he, hm⟩ := List.mem_filter.mp he
    obtain ⟨⟨u, k⟩, hu, rfl⟩ := List.mem_map.mp he
    exact ⟨u, List.mk_mem_zipIdx_iff_getElem?.mp hu, by simpa using hm⟩
  · rintro ⟨u, hu, hm⟩
    refine ⟨(j, (g.succs u.block).map BlockRef.number),
      List.mem_filter.mpr ⟨?_, by simpa using hm⟩, rfl⟩
    exact List.mem_map.mpr ⟨(u, j), List.mk_mem_zipIdx_iff_getElem?.mpr hu, rfl⟩

/-- An edge of the numbering is a branch between the blocks. -/
theorem Closed.edge_iff (hg : g.Closed) (hnodes : ∀ u ∈ seen, u.block ∈ g.nodes)
    (hv : seen[i]? = some v) :
    j ∈ (g.numbering seen).preds i ↔ ∃ u, seen[j]? = some u ∧ g.Edge u.block v.block := by
  rw [mem_preds hv]
  constructor
  · rintro ⟨u, hu, hm⟩
    obtain ⟨b, hb, he⟩ := List.mem_map.mp hm
    have hbv := hg.eq_of_number (hg.succs _ b hb) (hnodes v (List.mem_of_getElem? hv)) he
    exact ⟨u, hu, hbv ▸ hb⟩
  · rintro ⟨u, hu, he⟩
    exact ⟨u, hu, List.mem_map_of_mem he⟩

/-- The state of a depth-first search: what was seen is searched, and the edges still to follow
start at the vertices on the way to the last one, the lowest first. -/
structure Searching (g : FlowGraph) (stack seen : List Visit) : Prop where
  nodes : ∀ v ∈ seen, v.block ∈ g.nodes
  distinct : (seen.map Visit.number).Nodup
  search : (g.numbering seen).IsSearch
  pending :
    ∀ i u, seen[i]? = some u → ∀ b, g.Edge u.block b → (∃ w ∈ seen, w.block = b) ∨ ⟨b, i⟩ ∈ stack
  branch : ∀ e ∈ stack, ∃ u, seen[e.parent]? = some u ∧ g.Edge u.block e.block
  spine : ∀ e ∈ stack, (g.numbering seen).Above e.parent (seen.length - 1)
  order : stack.Pairwise fun e e' => e'.parent ≤ e.parent

section Extend

variable (hp : ∀ i, 0 < i → i < seen.length → (g.numbering seen).parent i < i)

theorem parent_extend (h : i < seen.length) :
    (g.numbering (seen ++ [v])).parent i = (g.numbering seen).parent i := by
  have hi : (seen ++ [v])[i]? = some (seen.get ⟨i, h⟩) := by
    rw [List.getElem?_append_left h]
    simp
  rw [numbering_parent hi, numbering_parent (v := seen.get ⟨i, h⟩) (by simp)]

theorem above_extend {a b : Nat} (h : (g.numbering seen).Above a b) :
    (g.numbering (seen ++ [v])).Above a b := by
  refine Relation.ReflTransGen.mono (fun x y hxy => ?_) a b h
  obtain ⟨h0, hy, he⟩ := hxy
  rw [numbering_size] at hy
  refine ⟨h0, ?_, (parent_extend hy).trans he⟩
  rw [numbering_size, List.length_append, List.length_singleton]
  omega

include hp in
/-- The new vertex is below none of the old ones. -/
theorem above_of_extend {a b : Nat} (h : (g.numbering (seen ++ [v])).Above a b)
    (hb : b < seen.length) :
    (g.numbering seen).Above a b := by
  induction h with
  | refl => exact .refl a
  | @tail b c _ hc ih =>
    obtain ⟨h0, _, he⟩ := hc
    rw [parent_extend hb] at he
    have hlt : b < c := he ▸ hp c h0 hb
    exact Numbering.Above.trans (ih (by omega)) (he ▸ .parent h0 hb)

end Extend

section Push

variable (hg : g.Closed) (h : Searching g (v :: stack) seen) (hv : v.block ∈ g.nodes)
  (hnew : v.number ∉ seen.map Visit.number)

include h in
theorem Searching.parent_lt_length : v.parent < seen.length := by
  obtain ⟨u, hu, _⟩ := h.branch v List.mem_cons_self
  exact (List.getElem?_eq_some_iff.mp hu).1

theorem getElem?_extend (v : Visit) (h : i < seen.length + 1) :
    (i = seen.length ∧ (seen ++ [v])[i]? = some v) ∨
      ∃ u, seen[i]? = some u ∧ (seen ++ [v])[i]? = some u := by
  rcases Nat.eq_or_lt_of_le (Nat.le_of_lt_succ h) with rfl | h
  · exact Or.inl ⟨rfl, by simp⟩
  · refine Or.inr ⟨seen.get ⟨i, h⟩, by simp, ?_⟩
    rw [List.getElem?_append_left h]
    simp

include h hv in
theorem Searching.nodes_push : ∀ u ∈ seen ++ [v], u.block ∈ g.nodes := by
  intro u hu
  rcases List.mem_append.mp hu with hu | hu
  · exact h.nodes u hu
  · rw [List.mem_singleton.mp hu]
    exact hv

include h in
theorem Searching.above_new : (g.numbering (seen ++ [v])).Above v.parent seen.length := by
  have hpos : 0 < seen.length := Nat.zero_lt_of_lt h.parent_lt_length
  have hk : (seen ++ [v])[seen.length]? = some v := by simp
  have hp := Numbering.Above.parent (n := g.numbering (seen ++ [v])) hpos (by simp)
  rwa [numbering_parent hk] at hp

include h hnew in
/-- A branch to the new block comes from a block on the way to it: it is still to be followed, and
what is to be followed starts there. -/
theorem Searching.above_new_of_edge {u : Visit} (hj : seen[j]? = some u)
    (he : g.Edge u.block v.block) :
    (g.numbering (seen ++ [v])).Above j seen.length := by
  rcases h.pending j u hj v.block he with ⟨w, hw, hb⟩ | hmem
  · exact absurd (List.mem_map.mpr ⟨w, hw, congrArg BlockRef.number hb⟩) hnew
  · rcases List.mem_cons.mp hmem with he | hmem
    · have hjp : j = v.parent := congrArg Visit.parent he
      exact hjp ▸ h.above_new
    · have hle : j ≤ v.parent := (List.pairwise_cons.mp h.order).1 _ hmem
      have hlast : seen.length - 1 < (g.numbering seen).size := by
        have := h.parent_lt_length
        rw [numbering_size]
        omega
      have habove := h.search.above_of_le hlast (h.spine _ (List.mem_cons_of_mem v hmem))
        (h.spine v List.mem_cons_self) hle
      exact (above_extend habove).trans h.above_new

include hg h hv in
/-- The branches between blocks seen before are those they were. -/
theorem Searching.preds_push {u : Visit} (hi : seen[i]? = some u) (hj : j < seen.length) :
    j ∈ (g.numbering (seen ++ [v])).preds i ↔ j ∈ (g.numbering seen).preds i := by
  have hlt := (List.getElem?_eq_some_iff.mp hi).1
  have hi' : (seen ++ [v])[i]? = some u := by rw [List.getElem?_append_left hlt]; exact hi
  rw [hg.edge_iff (h.nodes_push hv) hi', hg.edge_iff h.nodes hi, List.getElem?_append_left hj]

include hg h hv in
theorem Searching.parent_push : ∀ i, 0 < i → i < seen.length + 1 →
    (g.numbering (seen ++ [v])).parent i < i ∧
    (g.numbering (seen ++ [v])).parent i ∈ (g.numbering (seen ++ [v])).preds i := by
  intro i h0 hi
  have hpk := h.parent_lt_length
  rcases getElem?_extend v hi with ⟨rfl, hk⟩ | ⟨u, hu, _⟩
  · obtain ⟨u, hu, he⟩ := h.branch v List.mem_cons_self
    rw [numbering_parent hk, hg.edge_iff (h.nodes_push hv) hk, List.getElem?_append_left hpk]
    exact ⟨hpk, u, hu, he⟩
  · have hi' := (List.getElem?_eq_some_iff.mp hu).1
    have hlt := h.search.parent_lt i h0 hi'
    rw [parent_extend hi', h.preds_push hg hv hu (Nat.lt_trans hlt hi')]
    exact ⟨hlt, h.search.parent_edge i h0 hi'⟩

include hg h hv hnew in
theorem Searching.forward_push (hi : i < seen.length + 1)
    (hj : j ∈ (g.numbering (seen ++ [v])).preds i)
    (hji : j < i) : (g.numbering (seen ++ [v])).Above j i := by
  rcases getElem?_extend v hi with ⟨rfl, hk⟩ | ⟨u, hu, _⟩
  · obtain ⟨w, hw, he⟩ := (hg.edge_iff (h.nodes_push hv) hk).mp hj
    rw [List.getElem?_append_left hji] at hw
    exact h.above_new_of_edge hnew hw he
  · have hi' := (List.getElem?_eq_some_iff.mp hu).1
    rw [h.preds_push hg hv hu (Nat.lt_trans hji hi')] at hj
    exact above_extend (h.search.forward i j hi' hj hji)

include h in
theorem Searching.between_push {a b c : Nat} (hb : b < seen.length + 1)
    (hab : (g.numbering (seen ++ [v])).Above a b) (hac : a ≤ c) (hcb : c ≤ b) :
    (g.numbering (seen ++ [v])).Above a c := by
  have hpk := h.parent_lt_length
  have old : ∀ x, x < seen.length → (g.numbering (seen ++ [v])).Above a x →
      (g.numbering seen).Above a x := fun x hx hax => above_of_extend h.search.parent_lt hax hx
  rcases Nat.eq_or_lt_of_le (Nat.le_of_lt_succ hb) with rfl | hb
  · rcases Nat.eq_or_lt_of_le hcb with rfl | hc
    · exact hab
    · -- the vertices above the new one are above its parent, and so above the last one before
      rcases hab.eq_or_parent with rfl | ⟨_, _, hap⟩
      · omega
      · rw [numbering_parent (v := v) (by simp)] at hap
        have hlast := (old _ hpk hap).trans (h.spine v List.mem_cons_self)
        refine above_extend (h.search.between a (seen.length - 1) c ?_ hlast hac (by omega))
        rw [numbering_size]
        omega
  · exact above_extend (h.search.between a b c hb (old b hb hab) hac hcb)

include hg h hv hnew in
theorem Searching.search_push : (g.numbering (seen ++ [v])).IsSearch := by
  have hsize : (g.numbering (seen ++ [v])).size = seen.length + 1 := by simp
  refine ⟨fun i h0 hi => ?_, fun i h0 hi => ?_, fun i j hi hj => ?_, fun i j hi hj hji => ?_,
    fun a b c hb hab hac hcb => ?_⟩
  · exact (h.parent_push hg hv i h0 (hsize ▸ hi)).1
  · exact (h.parent_push hg hv i h0 (hsize ▸ hi)).2
  · obtain ⟨u, hu⟩ : ∃ u, (seen ++ [v])[i]? = some u :=
      ⟨_, List.getElem?_eq_getElem (by simpa using hi)⟩
    obtain ⟨w, hw, _⟩ := (hg.edge_iff (h.nodes_push hv) hu).mp hj
    exact (List.getElem?_eq_some_iff.mp hw).1
  · exact h.forward_push hg hv hnew (hsize ▸ hi) hj hji
  · exact h.between_push (hsize ▸ hb) hab hac hcb

include hg h hv hnew in
/-- A new block is seen, and its branches are followed next. -/
theorem Searching.push :
    Searching g ((g.succs v.block).map (⟨·, seen.length⟩) ++ stack) (seen ++ [v]) := by
  have hk : (seen ++ [v])[seen.length]? = some v := by simp
  have hpk := h.parent_lt_length
  refine ⟨h.nodes_push hv, ?_, h.search_push hg hv hnew, fun i u hu b hb => ?_, fun e he => ?_,
    fun e he => ?_, ?_⟩
  · rw [List.map_append, List.nodup_append']
    refine ⟨h.distinct, List.nodup_singleton _, ?_⟩
    simpa using hnew
  · rcases getElem?_extend v (by simpa using (List.getElem?_eq_some_iff.mp hu).1) with ⟨rfl, _⟩ |
      ⟨w, hw, hw'⟩
    · rw [hk] at hu
      cases hu
      exact Or.inr (List.mem_append_left _ (List.mem_map.mpr ⟨b, hb, rfl⟩))
    · have hwu : w = u := Option.some.inj (hw'.symm.trans hu)
      subst hwu
      rcases h.pending i w hw b hb with ⟨x, hx, hxb⟩ | hmem
      · exact Or.inl ⟨x, List.mem_append_left _ hx, hxb⟩
      · rcases List.mem_cons.mp hmem with he | hmem
        · exact Or.inl ⟨v, by simp, by rw [← he]⟩
        · exact Or.inr (List.mem_append_right _ hmem)
  · rcases List.mem_append.mp he with he | he
    · obtain ⟨b, hb, rfl⟩ := List.mem_map.mp he
      exact ⟨v, hk, hb⟩
    · obtain ⟨u, hu, hb⟩ := h.branch e (List.mem_cons_of_mem v he)
      have hlt := (List.getElem?_eq_some_iff.mp hu).1
      exact ⟨u, by rw [List.getElem?_append_left hlt]; exact hu, hb⟩
  · rw [List.length_append, List.length_singleton, Nat.add_sub_cancel]
    rcases List.mem_append.mp he with he | he
    · obtain ⟨b, hb, rfl⟩ := List.mem_map.mp he
      exact .refl _
    · have hle : e.parent ≤ v.parent := (List.pairwise_cons.mp h.order).1 e he
      have habove := h.search.above_of_le (w := seen.length - 1) (by rw [numbering_size]; omega)
        (h.spine e (List.mem_cons_of_mem v he)) (h.spine v List.mem_cons_self) hle
      exact (above_extend habove).trans h.above_new
  · refine List.pairwise_append.mpr ⟨?_, (List.pairwise_cons.mp h.order).2, fun e he e' he' => ?_⟩
    · exact List.pairwise_map.mpr (List.pairwise_of_forall fun _ _ => Nat.le_refl _)
    · obtain ⟨b, hb, rfl⟩ := List.mem_map.mp he
      obtain ⟨u, hu, _⟩ := h.branch e' (List.mem_cons_of_mem v he')
      exact Nat.le_of_lt (List.getElem?_eq_some_iff.mp hu).1

end Push

theorem Searching.skip (h : Searching g (v :: stack) seen) (hold : ∃ w ∈ seen, w.block = v.block) :
    Searching g stack seen := by
  refine ⟨h.nodes, h.distinct, h.search, fun i u hu b hb => ?_,
    fun e he => h.branch e (List.mem_cons_of_mem v he),
    fun e he => h.spine e (List.mem_cons_of_mem v he), (List.pairwise_cons.mp h.order).2⟩
  rcases h.pending i u hu b hb with hs | hmem
  · exact Or.inl hs
  · rcases List.mem_cons.mp hmem with he | hmem
    · obtain ⟨w, hw, hb⟩ := hold
      exact Or.inl ⟨w, hw, hb.trans (congrArg Visit.block he).symm⟩
    · exact Or.inr hmem

theorem searching_depthFirst (hg : g.Closed) (stack seen : List Visit)
    (h : Searching g stack seen) :
    Searching g [] (g.depthFirst stack seen) := by
  induction stack, seen using FlowGraph.depthFirst.induct g with
  | case1 seen =>
    rw [depthFirst]
    exact h
  | case2 seen v stack hv ih =>
    rw [depthFirst, dif_pos hv]
    exact ih (h.push hg hv.1 hv.2)
  | case3 seen v stack hv ih =>
    rw [depthFirst, dif_neg hv]
    refine ih (h.skip ?_)
    -- the block is one of the graph, so its number was seen, and it is the block seen with it
    obtain ⟨u, _, he⟩ := h.branch v List.mem_cons_self
    have hvn := hg.succs _ _ he
    have hs : v.number ∈ seen.map Visit.number := not_not.mp fun hn => hv ⟨hvn, hn⟩
    obtain ⟨w, hw, hn⟩ := List.mem_map.mp hs
    exact ⟨w, hw, hg.eq_of_number (h.nodes w hw) hvn hn⟩

theorem isPrefix_depthFirst (g : FlowGraph) (stack seen : List Visit) :
    seen <+: g.depthFirst stack seen := by
  induction stack, seen using FlowGraph.depthFirst.induct g with
  | case1 seen => simp [depthFirst]
  | case2 seen v stack hv ih =>
    rw [depthFirst, dif_pos hv]
    exact (List.prefix_append seen [v]).trans ih
  | case3 seen v stack hv ih =>
    rw [depthFirst, dif_neg hv]
    exact ih

theorem searching_entry {r : BlockRef} (hr : r ∈ g.nodes) :
    Searching g ((g.succs r).map (⟨·, 0⟩)) [⟨r, 0⟩] := by
  have hone : ∀ i, i < (g.numbering [⟨r, 0⟩]).size → i = 0 := fun i hi => Nat.lt_one_iff.mp hi
  refine ⟨by simp [hr], by simp, ⟨?_, ?_, ?_, ?_, ?_⟩, fun i u hu b hb => ?_, fun e he => ?_,
    fun e he => ?_, ?_⟩
  · intro i h0 hi
    have := hone i hi
    omega
  · intro i h0 hi
    have := hone i hi
    omega
  · intro i j hi hj
    obtain rfl := hone i hi
    obtain ⟨u, hu, _⟩ := (mem_preds (v := ⟨r, 0⟩) rfl).mp hj
    exact (List.getElem?_eq_some_iff.mp hu).1
  · intro i j hi _ hji
    have := hone i hi
    omega
  · intro a b c hb hab hac hcb
    obtain rfl := hone b hb
    obtain rfl : c = 0 := by omega
    exact hab
  · have hi : i < 1 := (List.getElem?_eq_some_iff.mp hu).1
    obtain rfl : i = 0 := by omega
    cases hu
    exact Or.inr (List.mem_map.mpr ⟨b, hb, rfl⟩)
  · obtain ⟨b, hb, rfl⟩ := List.mem_map.mp he
    exact ⟨⟨r, 0⟩, rfl, hb⟩
  · obtain ⟨b, hb, rfl⟩ := List.mem_map.mp he
    exact .refl 0
  · exact List.pairwise_map.mpr (List.pairwise_of_forall fun _ _ => Nat.le_refl _)

theorem entry_mem_nodes {r : BlockRef} (h : g.entry? = some r) : r ∈ g.nodes := by
  obtain ⟨e, he, rfl⟩ := Option.map_eq_some_iff.mp h
  exact List.mem_map_of_mem (List.mem_append_left _ (List.mem_of_mem_head? he))

/-- The depth-first search from the entry is complete and starts there. -/
theorem searching_spanning (hg : g.Closed) {r : BlockRef} (h : g.entry? = some r) :
    Searching g [] g.spanning ∧ g.spanning[0]? = some ⟨r, 0⟩ := by
  have hr := entry_mem_nodes h
  have hs : g.spanning = g.depthFirst ((g.succs r).map (⟨·, 0⟩)) [⟨r, 0⟩] := by
    simp only [spanning, h]
    rw [depthFirst, dif_pos ⟨hr, by simp⟩]
    simp
  rw [hs]
  refine ⟨searching_depthFirst hg _ _ (searching_entry hr), ?_⟩
  obtain ⟨rest, he⟩ := isPrefix_depthFirst g ((g.succs r).map (⟨·, 0⟩)) [⟨r, 0⟩]
  rw [← he]
  rfl

end FlowGraph

end KernelIR
