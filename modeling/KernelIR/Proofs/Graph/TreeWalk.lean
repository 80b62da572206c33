import KernelIR.Proofs.Graph.DominatorTree
import Mathlib.Logic.Function.Iterate

namespace KernelIR

/-- In a list that is sorted by a relation, what is related comes in this order. -/
theorem sublist_of_pairwise {α : Type} {R : α → α → Prop} {xs : List α} {a b : α}
    (h : xs.Pairwise fun x y => ¬R y x) (ha : a ∈ xs) (hb : b ∈ xs) (hne : a ≠ b) (hab : R a b) :
    [a, b].Sublist xs := by
  obtain ⟨ys, zs, rfl⟩ := List.append_of_mem ha
  have hbzs : b ∈ zs := by
    rcases List.mem_append.mp hb with hb | hb
    · exact absurd hab ((List.pairwise_append.mp h).2.2 b hb a List.mem_cons_self)
    · exact (List.mem_cons.mp hb).resolve_left (Ne.symm hne)
  exact ((List.singleton_sublist.mpr hbzs).cons_cons a).trans (List.sublist_append_right ys _)

theorem map_filterMap_sublist {α β γ : Type} {G : α → Option β} {key : β → γ} {place : α → γ}
    {xs : List α} (h : ∀ x ∈ xs, ∀ y, G x = some y → key y = place x) :
    ((xs.filterMap G).map key).Sublist (xs.map place) := by
  induction xs with
  | nil => exact List.nil_sublist _
  | cons x xs ih =>
    have hrest := ih fun z hz => h z (List.mem_cons_of_mem x hz)
    cases hx : G x with
    | none =>
      rw [List.filterMap_cons_none hx]
      exact hrest.cons (place x)
    | some y =>
      rw [List.filterMap_cons_some hx, List.map_cons, List.map_cons, h x List.mem_cons_self y hx]
      exact hrest.cons_cons (place x)

theorem not_sublist_of_before {α : Type} {a b : α} {xs ys : List α} (hn : (xs ++ a :: ys).Nodup)
    (hb : b ∈ xs) :
    ¬[a, b].Sublist (xs ++ a :: ys) := by
  intro h
  rw [List.nodup_append] at hn
  obtain ⟨us, vs, hpair, hus, hvs⟩ := List.sublist_append_iff.mp h
  cases us with
  | nil =>
    have hbv : b ∈ vs := by
      rw [← List.nil_append vs, ← hpair]
      exact List.mem_cons_of_mem a List.mem_cons_self
    exact hn.2.2 b hb b (hvs.subset hbv) rfl
  | cons u us =>
    have hau : a = u := (List.cons.inj hpair).1
    exact hn.2.2 u (hus.subset List.mem_cons_self) a List.mem_cons_self hau.symm

/-- A part of a list without repetitions has its elements in the order of the list. -/
theorem pair_sublist_of_sublist {α : Type} {xs ys : List α} {a b : α} (h : xs.Sublist ys)
    (hys : ys.Nodup) (ha : a ∈ xs) (hb : b ∈ xs) (hab : [a, b].Sublist ys) : [a, b].Sublist xs := by
  have hne : a ≠ b := by
    rintro rfl
    exact List.nodup_iff_sublist.mp hys a hab
  obtain ⟨us, vs, rfl⟩ := List.append_of_mem ha
  rcases List.mem_append.mp hb with hb | hb
  · -- then they come in the other order
    have hba : [b, a].Sublist ys :=
      ((List.singleton_sublist.mpr hb).append
        (List.singleton_sublist.mpr List.mem_cons_self)).trans h
    obtain ⟨ps, qs, rfl, hbps, haqs⟩ := List.cons_sublist_iff.mp hba
    obtain ⟨ss, ts, rfl⟩ := List.append_of_mem (List.singleton_sublist.mp haqs)
    rw [← List.append_assoc] at hys hab
    exact absurd hab (not_sublist_of_before hys (List.mem_append_left ss hbps))
  · have hbvs : b ∈ vs := (List.mem_cons.mp hb).resolve_left (Ne.symm hne)
    exact ((List.singleton_sublist.mpr hbvs).cons_cons a).trans (List.sublist_append_right us _)

section Walk

variable {children : BlockRef → List BlockRef} {enter : BlockRef → Bool} {n k : Nat}
  {b x y : BlockRef}

theorem mem_treeWalk_succ : x ∈ treeWalk children enter (n + 1) b ↔
    enter b = true ∧ (x = b ∨ ∃ c ∈ children b, x ∈ treeWalk children enter n c) := by
  rw [treeWalk]
  split
  · next hb => rw [List.mem_cons, List.mem_flatMap, and_iff_right hb]
  · next hb => exact iff_of_false List.not_mem_nil fun h => hb h.1

theorem enter_of_mem_treeWalk (h : x ∈ treeWalk children enter n b) : enter x = true := by
  induction n generalizing b with
  | zero => exact absurd h List.not_mem_nil
  | succ n ih =>
    obtain ⟨hb, rfl | ⟨c, _, hc⟩⟩ := mem_treeWalk_succ.mp h
    · exact hb
    · exact ih hc

theorem flatMap_sublist_flatMap {α β : Type} {F G : α → List β} (h : ∀ a, (F a).Sublist (G a))
    (l : List α) :
    (l.flatMap F).Sublist (l.flatMap G) := by
  induction l with
  | nil => exact List.nil_sublist _
  | cons a l ih =>
    rw [List.flatMap_cons, List.flatMap_cons]
    exact (h a).append ih

/-- A walk that may go deeper comes to more blocks, in the same order. -/
theorem treeWalk_mono (hnk : n ≤ k) :
    (treeWalk children enter n b).Sublist (treeWalk children enter k b) := by
  induction n generalizing b k with
  | zero => exact List.nil_sublist _
  | succ n ih =>
    obtain ⟨k, rfl⟩ := Nat.exists_eq_add_of_le' (Nat.lt_of_lt_of_le n.succ_pos hnk)
    rw [treeWalk, treeWalk]
    split
    · exact List.Sublist.cons_cons b
        (flatMap_sublist_flatMap (fun c => ih (Nat.le_of_succ_le_succ hnk)) _)
    · exact List.nil_sublist _

/-- A walk that enters every block comes to more, in the same order. -/
theorem treeWalk_sublist :
    (treeWalk children enter n b).Sublist (treeWalk children (fun _ => true) n b) := by
  induction n generalizing b with
  | zero => exact List.nil_sublist _
  | succ n ih =>
    rw [treeWalk, treeWalk, if_pos rfl]
    split
    · exact List.Sublist.cons_cons b (flatMap_sublist_flatMap (fun c => ih) _)
    · exact List.nil_sublist _

/-- The walk from a block that a walk comes to is a part of a longer one. -/
theorem treeWalk_below (h : x ∈ treeWalk children enter n b) :
    (treeWalk children enter k x).Sublist (treeWalk children enter (n + k) b) := by
  induction n generalizing b with
  | zero => exact absurd h List.not_mem_nil
  | succ n ih =>
    obtain ⟨hb, rfl | ⟨c, hc, hx⟩⟩ := mem_treeWalk_succ.mp h
    · exact treeWalk_mono (Nat.le_add_left k _)
    · rw [Nat.succ_add, treeWalk, if_pos hb]
      refine (ih hx).trans (List.Sublist.cons b ?_)
      rw [List.flatMap]
      exact List.sublist_flatten_of_mem (List.mem_map_of_mem hc)

/-- A walk that may be one step longer goes on below a block that it came to. -/
theorem mem_treeWalk_of_child (h : x ∈ treeWalk children enter n b) (hy : y ∈ children x)
    (henter : enter y = true) : y ∈ treeWalk children enter (n + 1) b := by
  induction n generalizing b with
  | zero => exact absurd h List.not_mem_nil
  | succ n ih =>
    obtain ⟨hb, rfl | ⟨c, hc, hx⟩⟩ := mem_treeWalk_succ.mp h
    · exact mem_treeWalk_succ.mpr ⟨hb, Or.inr ⟨y, hy, mem_treeWalk_succ.mpr ⟨henter, Or.inl rfl⟩⟩⟩
    · exact mem_treeWalk_succ.mpr ⟨hb, Or.inr ⟨c, hc, ih hx⟩⟩

/-- One round of the walk that keeps the blocks it has still to look at on a stack, and what it has
visited. A block that is entered is visited, and its children go on the stack, the first of them on
top. -/
def walkRound (children : BlockRef → List BlockRef) (enter : BlockRef → Bool) :
    List BlockRef × List BlockRef → List BlockRef × List BlockRef
  | ([], order) => ([], order)
  | (b :: stack, order) =>
    if enter b then (children b ++ stack, order ++ [b]) else (stack, order)

theorem flatMap_eq_of_sublist {α β : Type} {F G : α → List β} (h : ∀ a, (F a).Sublist (G a))
    {l : List α} (heq : l.flatMap F = l.flatMap G) : ∀ a ∈ l, F a = G a := by
  induction l with
  | nil => exact nofun
  | cons a l ih =>
    rw [List.flatMap_cons, List.flatMap_cons] at heq
    have hfirst := (h a).length_le
    have hrest := (flatMap_sublist_flatMap h l).length_le
    have hlength := congrArg List.length heq
    rw [List.length_append, List.length_append] at hlength
    have ha : F a = G a := (h a).eq_of_length (by omega)
    rw [ha, List.append_cancel_left_eq] at heq
    exact List.forall_mem_cons.mpr ⟨ha, ih heq⟩

/-- Blocks on top of the stack are visited one after the other, with what is below each of them. -/
theorem exists_walkRounds_append {below : BlockRef → List BlockRef} {cs : List BlockRef}
    (stack order : List BlockRef)
    (h : ∀ c ∈ cs, ∀ stack order, ∃ rounds,
      (walkRound children enter)^[rounds] (c :: stack, order) = (stack, order ++ below c)) :
    ∃ rounds, (walkRound children enter)^[rounds] (cs ++ stack, order) =
      (stack, order ++ cs.flatMap below) := by
  induction cs generalizing order with
  | nil => exact ⟨0, by simp⟩
  | cons c cs ih =>
    obtain ⟨i, hi⟩ := h c List.mem_cons_self (cs ++ stack) order
    obtain ⟨j, hj⟩ := ih (order ++ below c) fun x hx => h x (List.mem_cons_of_mem c hx)
    refine ⟨j + i, ?_⟩
    rw [Function.iterate_add_apply, List.cons_append, hi, hj, List.flatMap_cons, List.append_assoc]

/-- The stack is used up down to where it was when a block was put on it, and then the block and
those below it have been visited in the order of the tree. -/
theorem exists_walkRounds (h : treeWalk children enter n b = treeWalk children enter (n + 1) b)
    (stack order : List BlockRef) :
    ∃ rounds, (walkRound children enter)^[rounds] (b :: stack, order) =
      (stack, order ++ treeWalk children enter n b) := by
  induction n generalizing b stack order with
  | zero =>
    have hb : ¬enter b = true := by
      intro hb
      simp [treeWalk, hb] at h
    refine ⟨1, ?_⟩
    simp [walkRound, hb, treeWalk]
  | succ n ih =>
    rw [treeWalk, treeWalk] at h
    by_cases hb : enter b = true
    · rw [if_pos hb, if_pos hb, List.cons_inj_right] at h
      have hchildren := flatMap_eq_of_sublist (fun c => treeWalk_mono (Nat.le_succ n)) h
      obtain ⟨rounds, hrounds⟩ := exists_walkRounds_append stack (order ++ [b])
        fun c hc stack order => ih (hchildren c hc) stack order
      refine ⟨rounds + 1, ?_⟩
      rw [Function.iterate_succ_apply, walkRound, if_pos hb, hrounds, treeWalk, if_pos hb,
        List.append_assoc, List.singleton_append]
    · refine ⟨1, ?_⟩
      simp [walkRound, hb, treeWalk]

end Walk

namespace FlowGraph

variable {g : FlowGraph} {r b c x : BlockRef} {enter : BlockRef → Bool} {n : Nat}

section Tree

variable (hg : g.Closed) (hr : g.entry? = some r)

include hg hr

theorem pairwise_inOrder : (g.inOrder g.spanning).Pairwise fun u v => u.1.number ≠ v.1.number := by
  have hspan : g.spanning.zipIdx.Pairwise fun u v => u.1.number ≠ v.1.number := by
    have hd := (searching_spanning hg hr).1.distinct
    rw [← List.zipIdx_map_fst 0 g.spanning, List.map_map] at hd
    exact List.pairwise_map.mp hd
  have hown : (g.own.map fun e => e.1.number).Nodup := by
    have hd := hg.distinct
    rw [numbers, nodes, out, List.map_append, List.map_append, List.map_map] at hd
    exact hd.of_append_left
  have hnumber : ∀ {m : BlockId} {u : Visit × Nat},
      g.spanning.zipIdx.find? (fun v => v.1.number = m) = some u →
      u.1.number = m := fun hu => by simpa using List.find?_some hu
  refine List.pairwise_append.mpr ⟨hspan.filter _, ?_, fun u hu v hv he => ?_⟩
  · refine List.pairwise_filterMap.mpr (hown.imp fun hne u hu v hv he => hne ?_)
    exact (hnumber hu).symm.trans (he.trans (hnumber hv))
  · obtain ⟨m, hm, hv⟩ := List.mem_filterMap.mp hv
    rw [List.mem_filter, he, hnumber hv] at hu
    exact absurd hm (by simpa using hu.2)

/-- A block has one edge at most. -/
theorem pairwise_edges_domTree : g.domTree.edges.Pairwise fun e e' => e.1 ≠ e'.1 := by
  unfold domTree
  refine List.pairwise_filterMap.mpr
    ((pairwise_inOrder hg hr).imp fun {u v} hne e he e' he' heq => hne ?_)
  obtain ⟨_, _, _, _, _, rfl⟩ := edge_of_visit_iff.mp he
  obtain ⟨_, _, _, _, _, rfl⟩ := edge_of_visit_iff.mp he'
  exact congrArg BlockRef.number heq

theorem nodup_children (b : BlockRef) : (g.domTree.children b).Nodup :=
  List.pairwise_map.mpr ((pairwise_edges_domTree hg hr).filter _)

/-- Children come in the order of the function. -/
theorem children_sublist (hother : g.other = []) (b : BlockRef) :
    (g.domTree.children b).Sublist g.nodes := by
  have hs := (searching_spanning hg hr).1
  have hown : g.nodes = g.own.map Prod.fst := by simp [nodes, out, hother]
  have hfirst : (g.spanning.zipIdx.filter fun v =>
      !(g.own.map fun e => e.1.number).contains v.1.number) = [] := by
    rw [List.filter_eq_nil_iff]
    intro v hv
    have hnode := hs.nodes v.1 (List.fst_mem_of_mem_zipIdx hv)
    rw [hown] at hnode
    obtain ⟨e, he, heq⟩ := List.mem_map.mp hnode
    have hnumber : v.1.number ∈ g.own.map fun e => e.1.number :=
      List.mem_map.mpr ⟨e, he, congrArg BlockRef.number heq⟩
    simpa using hnumber
  have hvisits : ((g.inOrder g.spanning).map fun v => v.1.block).Sublist g.nodes := by
    rw [inOrder, hfirst, List.nil_append, List.filterMap_map, hown]
    apply map_filterMap_sublist
    intro e he v hv
    have hnumber : v.1.number = e.1.number := by simpa using List.find?_some hv
    have hnode := hs.nodes v.1 (List.fst_mem_of_mem_zipIdx (List.mem_of_find?_eq_some hv))
    exact hg.eq_of_number hnode (hown ▸ List.mem_map_of_mem he) hnumber
  refine (List.filter_sublist.map Prod.fst).trans (List.Sublist.trans ?_ hvisits)
  unfold domTree
  apply map_filterMap_sublist
  rintro ⟨v, i⟩ _ e he
  obtain ⟨_, _, _, _, _, rfl⟩ := edge_of_visit_iff.mp he
  rfl

theorem mem_children_iff (hb : b ∈ g.nodes) :
    c ∈ g.domTree.children b ↔ Reaches g.Edge r c ∧ ImmediatelyDominates g.Edge r b c := by
  rw [DomTree.children, List.mem_map]
  constructor
  · rintro ⟨⟨x, a⟩, he, rfl⟩
    rw [List.mem_filter, decide_eq_true_eq] at he
    obtain ⟨i, d, _, _, hd, _, _, ha⟩ := (mem_edges_domTree hg hr).mp he.1
    have hab : a = b := hg.eq_of_number (ha ▸ blockAt_mem hg hr hd) hb he.2
    exact hab ▸ immediate_of_mem_edges hg hr he.1
  · rintro ⟨hreach, him⟩
    have hne : c ≠ r := by
      rintro rfl
      exact him.strict.1 (Dominates.root_iff.mp him.strict.2)
    obtain ⟨a, ha⟩ := exists_edge_domTree hg hr hreach hne
    have hab : a = b := (immediate_of_mem_edges hg hr ha).2.unique him hreach
    exact ⟨(c, b), List.mem_filter.mpr ⟨hab ▸ ha, by simp⟩, rfl⟩

theorem mem_nodes_of_reaches (h : Reaches g.Edge r b) : b ∈ g.nodes := by
  obtain ⟨i, hi, rfl⟩ := (reaches_iff hg hr).mp h
  exact blockAt_mem hg hr hi

/-- A walk stays below where it starts. -/
theorem dominates_of_mem_treeWalk (hb : Reaches g.Edge r b)
    (h : x ∈ treeWalk g.domTree.children enter n b) :
    Reaches g.Edge r x ∧ Dominates g.Edge r b x := by
  induction n generalizing b with
  | zero => exact absurd h List.not_mem_nil
  | succ n ih =>
    obtain ⟨_, rfl | ⟨c, hc, hx⟩⟩ := mem_treeWalk_succ.mp h
    · exact ⟨hb, .refl x⟩
    · obtain ⟨hreach, him⟩ := (mem_children_iff hg hr (mem_nodes_of_reaches hg hr hb)).mp hc
      obtain ⟨hx, hcx⟩ := ih hreach hx
      exact ⟨hx, him.strict.2.trans hcx⟩

/-- Two children of a block have nothing below them in common. -/
theorem children_apart {c' y : BlockRef} (hb : b ∈ g.nodes) (hc : c ∈ g.domTree.children b)
    (hc' : c' ∈ g.domTree.children b) (hne : c ≠ c') (hx : Reaches g.Edge r x)
    (hcx : Dominates g.Edge r c x)
    (hcy : Dominates g.Edge r c' y) : ¬Dominates g.Edge r y x := by
  intro hyx
  have hno : ∀ {c c'}, c ∈ g.domTree.children b → c' ∈ g.domTree.children b → c ≠ c' →
      ¬Dominates g.Edge r c c' := by
    intro c c' hc hc' hne hcc'
    obtain ⟨hreach, him⟩ := (mem_children_iff hg hr hb).mp hc
    obtain ⟨_, him'⟩ := (mem_children_iff hg hr hb).mp hc'
    exact him.strict.1 (him.strict.2.antisymm (him'.closest c ⟨hne, hcc'⟩) hreach)
  rcases hcx.linear (hcy.trans hyx) hx with h | h
  · exact hno hc hc' hne h
  · exact hno hc' hc (Ne.symm hne) h

/-- A walk comes to a block before those that it dominates. -/
theorem pairwise_treeWalk (hb : Reaches g.Edge r b) :
    (treeWalk g.domTree.children enter n b).Pairwise fun x y => ¬Dominates g.Edge r y x := by
  induction n generalizing b with
  | zero => exact List.Pairwise.nil
  | succ n ih =>
    have hnode := mem_nodes_of_reaches hg hr hb
    have hchild := fun c => mem_children_iff hg hr hnode (c := c)
    rw [treeWalk]
    split
    · refine List.pairwise_cons.mpr ⟨fun y hy hyb => ?_, ?_⟩
      · obtain ⟨c, hc, hy⟩ := List.mem_flatMap.mp hy
        obtain ⟨hreach, him⟩ := (hchild c).mp hc
        have hcy := (dominates_of_mem_treeWalk hg hr hreach hy).2
        exact him.strict.1 (him.strict.2.antisymm (hcy.trans hyb) hreach)
      · refine List.pairwise_flatMap.mpr ⟨fun c hc => ih ((hchild c).mp hc).1, ?_⟩
        refine (nodup_children hg hr b).imp_of_mem fun {c c'} hc hc' hne x hx y hy => ?_
        obtain ⟨hreach, hcx⟩ := dominates_of_mem_treeWalk hg hr ((hchild c).mp hc).1 hx
        exact children_apart hg hr hnode hc hc' hne hreach hcx
          (dominates_of_mem_treeWalk hg hr ((hchild c').mp hc').1 hy).2
    · exact List.Pairwise.nil

theorem size_le_nodes : g.spanned.size ≤ g.nodes.length := by
  have hs := (searching_spanning hg hr).1
  have hnodup : (g.spanning.map Visit.block).Nodup := by
    refine List.Nodup.of_map BlockRef.number ?_
    rw [List.map_map]
    exact hs.distinct
  have hsub : g.spanning.map Visit.block ⊆ g.nodes := fun c hc => by
    obtain ⟨v, hv, rfl⟩ := List.mem_map.mp hc
    exact hs.nodes v hv
  simpa using (List.subperm_of_subset hnodup hsub).length_le

/-- A walk finds every block below its start, if it enters all between the two. -/
theorem mem_treeWalk (hx : Reaches g.Edge r x) (hbx : Dominates g.Edge r b x)
    (henter : ∀ d, Dominates g.Edge r b d → Dominates g.Edge r d x → enter d = true)
    (hn : g.spanned.size ≤ n) :
    x ∈ treeWalk g.domTree.children enter n b := by
  obtain ⟨i, hi, rfl⟩ := (reaches_iff hg hr).mp hx
  -- the search comes to a block after those above it, so its position bounds the way down
  suffices hwalk : g.blockAt i ∈ treeWalk g.domTree.children enter (i + 1) b from
    (treeWalk_mono (Nat.le_trans hi hn)).subset hwalk
  clear hn
  induction i using Nat.strongRecOn with
  | _ i ih =>
    by_cases hib : g.blockAt i = b
    · exact mem_treeWalk_succ.mpr ⟨henter b (.refl b) hbx, Or.inl hib⟩
    · have hi0 : 0 < i := Nat.pos_of_ne_zero fun h0 => by
        rw [h0, blockAt_zero hg hr] at hib hbx
        exact hib (Dominates.root_iff.mp hbx).symm
      obtain ⟨d, hdi, _, him⟩ := exists_immediate hg hr hi0 hi
      have hd := Nat.lt_trans hdi hi
      have hbd := him.closest b ⟨fun he => hib he.symm, hbx⟩
      have hmem := ih d hdi hd ((reaches_iff hg hr).mpr ⟨d, hd, rfl⟩) hbd
        fun e hbe hed => henter e hbe (hed.trans him.strict.2)
      have hchild := (mem_children_iff hg hr (blockAt_mem hg hr hd)).mpr ⟨hx, him⟩
      exact (treeWalk_mono (Nat.succ_le_succ hdi)).subset
        (mem_treeWalk_of_child hmem hchild (henter _ hbx (.refl _)))

/-- A walk enters all between its start and a block that it comes to. -/
theorem enter_of_between {d : BlockRef} (hb : Reaches g.Edge r b)
    (hx : x ∈ treeWalk g.domTree.children enter n b)
    (hbd : Dominates g.Edge r b d) (hdx : Dominates g.Edge r d x) : enter d = true := by
  induction n generalizing b with
  | zero => exact absurd hx List.not_mem_nil
  | succ n ih =>
    obtain ⟨henter, rfl | ⟨c, hc, hx⟩⟩ := mem_treeWalk_succ.mp hx
    · rwa [hdx.antisymm hbd hb]
    · obtain ⟨hreach, him⟩ := (mem_children_iff hg hr (mem_nodes_of_reaches hg hr hb)).mp hc
      obtain ⟨hreachx, hcx⟩ := dominates_of_mem_treeWalk hg hr hreach hx
      by_cases hdc : d = c
      · exact ih hreach hx (hdc ▸ .refl d)
      · rcases hdx.linear hcx hreachx with hup | hdown
        · -- what is strictly above the child is above the start
          rwa [(him.closest d ⟨hdc, hup⟩).antisymm hbd hb]
        · exact ih hreach hx hdown

/-- A walk does not depend on how far it may go, if that is far enough. -/
theorem treeWalk_eq {k : Nat} (hb : Reaches g.Edge r b) (hn : g.spanned.size ≤ n)
    (hk : g.spanned.size ≤ k) :
    treeWalk g.domTree.children enter n b = treeWalk g.domTree.children enter k b := by
  have hnodup : ∀ k, (treeWalk g.domTree.children enter k b).Nodup := fun k =>
    (pairwise_treeWalk hg hr hb).imp fun {x y} hxy (he : x = y) => hxy (he ▸ .refl x)
  have hsub : ∀ {n k}, g.spanned.size ≤ k →
      treeWalk g.domTree.children enter n b ⊆ treeWalk g.domTree.children enter k b := by
    intro n k hk x hx
    obtain ⟨hreach, hbx⟩ := dominates_of_mem_treeWalk hg hr hb hx
    exact mem_treeWalk hg hr hreach hbx (fun d hbd hdx => enter_of_between hg hr hb hx hbd hdx) hk
  have hlength := ((List.perm_ext_iff_of_nodup (hnodup n) (hnodup k)).mpr fun x =>
    ⟨fun hx => hsub hk hx, fun hx => hsub hn hx⟩).length_eq
  rcases Nat.le_total n k with hle | hle
  · exact (treeWalk_mono hle).eq_of_length hlength
  · exact ((treeWalk_mono hle).eq_of_length hlength.symm).symm

/-- Where all between the start and a block that may be entered may be entered too, passing over
subtrees loses no other block than those that may not be entered. -/
theorem treeWalk_eq_filter (hb : Reaches g.Edge r b) (hn : g.spanned.size ≤ n)
    (hbetween : ∀ x d, enter x = true → Dominates g.Edge r b d → Dominates g.Edge r d x →
      enter d = true) :
    treeWalk g.domTree.children enter n b =
    (treeWalk g.domTree.children (fun _ => true) n b).filter enter := by
  have hnodup : ∀ enter, (treeWalk g.domTree.children enter n b).Nodup := fun enter =>
    (pairwise_treeWalk hg hr hb).imp fun {x y} hxy (he : x = y) => hxy (he ▸ .refl x)
  have hsub : (treeWalk g.domTree.children enter n b).Sublist
      ((treeWalk g.domTree.children (fun _ => true) n b).filter enter) := by
    rw [← List.filter_eq_self.mpr fun x hx => enter_of_mem_treeWalk hx]
    exact treeWalk_sublist.filter enter
  refine hsub.eq_of_length (List.Perm.length_eq ?_)
  rw [List.perm_ext_iff_of_nodup (hnodup enter) ((hnodup _).filter enter)]
  intro x
  refine ⟨fun hx => hsub.subset hx, fun hx => ?_⟩
  obtain ⟨hx, henter⟩ := List.mem_filter.mp hx
  obtain ⟨hreach, hbx⟩ := dominates_of_mem_treeWalk hg hr hb hx
  exact mem_treeWalk hg hr hreach hbx (fun d hbd hdx => hbetween x d henter hbd hdx) hn

theorem preorder_eq (hn : g.spanned.size ≤ n) :
    g.domTree.preorder = treeWalk g.domTree.children (fun _ => true) n r := by
  have hroot : g.domTree.root? = some r := hr
  rw [DomTree.preorder, hroot]
  exact treeWalk_eq hg hr .root (Nat.le_trans (size_le_edges hg hr) (Nat.le_succ _)) hn

/-- A walk goes over blocks in the order of the walk over the whole tree. -/
theorem treeWalk_sublist_preorder (hb : Reaches g.Edge r b) :
    (treeWalk g.domTree.children enter n b).Sublist g.domTree.preorder := by
  have hmem : b ∈ treeWalk g.domTree.children (fun _ => true) g.spanned.size r :=
    mem_treeWalk hg hr hb (fun _ w => w.first_mem) (fun _ _ _ => rfl) (Nat.le_refl _)
  rw [preorder_eq hg hr (Nat.le_add_right g.spanned.size n)]
  exact treeWalk_sublist.trans (treeWalk_below hmem)

end Tree

end FlowGraph

end KernelIR
