import KernelIR.Proofs.Graph.DominatorTree
import KernelIR.Proofs.Graph.LoopNest
import KernelIR.Proofs.Graph.Worklist

namespace KernelIR

namespace LinkForest

variable {F : LinkForest} {k v a : Nat}

/-- Whether links and labels lead upwards, and labels do not lead beyond `k`. Only the vertices from
`k` on are linked. -/
structure Shaped (F : LinkForest) (k : Nat) : Prop where
  ancestor : ∀ j a, F.ancestor j = some a → a < j ∧ k ≤ j
  root : ∀ j, j < k → F.label j = j
  label : ∀ j, k ≤ j → k ≤ F.label j ∧ F.label j ≤ j

theorem shaped_initial (k : Nat) : initial.Shaped k :=
  ⟨fun _ _ h => by simp [initial] at h, fun _ _ => rfl, fun j hj => ⟨hj, Nat.le_refl j⟩⟩

theorem Shaped.link (h : F.Shaped (k + 1)) {p : Nat} (hp : p < k) : (F.link p k).Shaped k := by
  refine ⟨fun j a ha => ?_, fun j hj => h.root j (by omega), fun j hj => ?_⟩
  · by_cases hjk : j = k
    · subst hjk
      have hpa : p = a := by simpa [LinkForest.link, override_self] using ha
      omega
    · have hold := h.ancestor j a (by simpa [LinkForest.link, override_of_ne _ _ hjk] using ha)
      omega
  · rcases Nat.eq_or_lt_of_le hj with rfl | hj
    · have hroot := h.root k (Nat.lt_succ_self k)
      show k ≤ F.label k ∧ F.label k ≤ k
      omega
    · have hlabel := h.label j hj
      show k ≤ F.label j ∧ F.label j ≤ j
      omega

theorem Shaped.shorten (h : F.Shaped k) (hv : k ≤ v) (hav : a < v) (ha : k ≤ a) :
    (F.shorten v a).Shaped k := by
  refine ⟨fun j b hb => ?_, fun j hj => ?_, fun j hj => ?_⟩
  · by_cases hjv : j = v
    · subst hjv
      have hup := h.ancestor a b ((override_self _ _ _).symm.trans hb)
      omega
    · rw [(shorten_frame F hjv).1] at hb
      exact h.ancestor j b hb
  · rw [(shorten_frame F (by omega)).2]
    exact h.root j hj
  · by_cases hjv : j = v
    · subst hjv
      have hself := h.label j hj
      have hup := h.label a ha
      rcases (F.shorten_label j a).1 with hl | hl <;> omega
    · rw [(shorten_frame F hjv).2]
      exact h.label j hj

theorem Shaped.compress (h : F.Shaped k) (fuel v : Nat) :
    (compress fuel F v).Shaped k ∧ (compress fuel F v).semi = F.semi := by
  induction fuel generalizing v with
  | zero => exact ⟨h, rfl⟩
  | succ fuel ih =>
    rw [LinkForest.compress]
    cases hv : F.ancestor v with
    | none => exact ⟨h, rfl⟩
    | some a =>
      by_cases ha : (F.ancestor a).isSome = true
      · obtain ⟨b, hb⟩ := Option.isSome_iff_exists.mp ha
        have hva := h.ancestor v a hv
        simp only [if_pos ha]
        exact ⟨(ih a).1.shorten hva.2 hva.1 (h.ancestor a b hb).2, (ih a).2⟩
      · simp only [if_neg ha]
        exact ⟨h, trivial⟩

/-- What a query answers is the vertex itself or a linked one above it. -/
theorem Shaped.eval (h : F.Shaped k) (v : Nat) :
    (F.eval v).2.Shaped k ∧ (F.eval v).2.semi = F.semi ∧
    ((F.eval v).1 = v ∨ k ≤ (F.eval v).1 ∧ (F.eval v).1 ≤ v) := by
  rw [LinkForest.eval]
  by_cases hv : (F.ancestor v).isSome = true
  · obtain ⟨a, ha⟩ := Option.isSome_iff_exists.mp hv
    obtain ⟨hshaped, hsemi⟩ := h.compress v v
    rw [if_pos hv]
    exact ⟨hshaped, hsemi, Or.inr (hshaped.label v (h.ancestor v a ha).2)⟩
  · rw [if_neg hv]
    exact ⟨h, rfl, Or.inl rfl⟩

end LinkForest

/-- Whether the predecessors of vertices are in `A`, the parent of a vertex among them. -/
structure Numbering.Into (n : Numbering) (A : Nat → Prop) : Prop where
  parent : ∀ i, 0 < i → i < n.size → n.parent i < i ∧ n.parent i ∈ n.preds i
  preds : ∀ i v, i < n.size → v ∈ n.preds i → v < n.size ∧ A v

theorem Numbering.Into.rooted {n : Numbering} {A : Nat → Prop} (h : n.Into A) : n.Rooted :=
  ⟨fun i h0 hi => (h.parent i h0 hi).1, fun i v hi hv => (h.preds i v hi hv).1⟩

namespace DomState

variable {n : Numbering} {A : Nat → Prop} {F G : LinkForest} {s t : DomState} {i k p v w d : Nat}

/-- While the semidominator of `i` is looked for, it is `i` or in `A`, and no greater than the
predecessors below `i` but those that are still to be asked. -/
structure Sought (n : Numbering) (A : Nat → Prop) (F G : LinkForest) (i : Nat) (todo : List Nat) :
    Prop where
  shaped : G.Shaped (i + 1)
  same : ∀ j, j ≠ i → G.semi j = F.semi j
  semi : G.semi i = i ∨ A (G.semi i)
  least : ∀ v ∈ n.preds i, v < i → v ∈ todo ∨ G.semi i ≤ v

section

variable (hn : n.Into A) (hlow : ∀ j, j < i → F.semi j = j)
  (hhigh : ∀ j, i < j → j < n.size → A (F.semi j)) (hi : i < n.size)

include hn hlow hhigh hi

theorem Sought.pred {vs : List Nat} (h : Sought n A F G i (v :: vs)) (hv : v ∈ n.preds i) :
    Sought n A F ((G.eval v).2.lower i ((G.eval v).2.semi (G.eval v).1)) i vs := by
  obtain ⟨hshaped, hsemi, hq⟩ := h.shaped.eval v
  obtain ⟨hvn, hAv⟩ := hn.preds i v hi hv
  have hbelow : v < i → G.semi (G.eval v).1 = v := by
    intro hvi
    have hself : (G.eval v).1 = v := hq.resolve_right fun hq => by omega
    rw [hself, h.same v (by omega), hlow v hvi]
  have hoffer : G.semi (G.eval v).1 = G.semi i ∨ A (G.semi (G.eval v).1) := by
    rcases Nat.lt_or_ge v i with hvi | hvi
    · exact Or.inr ((hbelow hvi).symm ▸ hAv)
    by_cases hqi : (G.eval v).1 = i
    · exact Or.inl (congrArg G.semi hqi)
    · right
      rw [h.same _ hqi]
      exact hhigh _ (by omega) (by omega)
  have hlowered : ((G.eval v).2.lower i ((G.eval v).2.semi (G.eval v).1)).semi i =
      min (G.semi i) (G.semi (G.eval v).1) := by
    rw [← hsemi]
    exact override_self _ _ _
  refine ⟨⟨hshaped.ancestor, hshaped.root, hshaped.label⟩, fun j hj => ?_, ?_, fun u hu hui => ?_⟩
  · rw [← h.same j hj, ← hsemi]
    exact override_of_ne _ _ hj
  · rw [hlowered]
    have hself := h.semi
    rcases Nat.le_total (G.semi i) (G.semi (G.eval v).1) with hle | hle
    · rwa [Nat.min_eq_left hle]
    · rw [Nat.min_eq_right hle]
      rcases hoffer with heq | hA
      · rwa [heq]
      · exact Or.inr hA
  · rw [hlowered]
    rcases h.least u hu hui with hmem | hle
    · rcases List.mem_cons.mp hmem with rfl | hmem
      · exact Or.inr (Nat.le_trans (Nat.min_le_right _ _) (Nat.le_of_eq (hbelow hui)))
      · exact Or.inl hmem
    · exact Or.inr (Nat.le_trans (Nat.min_le_left _ _) hle)

theorem sought_findSemi {vs : List Nat} (hvs : ∀ v ∈ vs, v ∈ n.preds i) (h : Sought n A F G i vs) :
    Sought n A F (findSemi vs i G) i [] := by
  induction vs generalizing G with
  | nil => exact h
  | cons v vs ih =>
    exact ih (fun v hv => hvs v (List.mem_cons_of_mem _ hv))
      (h.pred hn hlow hhigh hi (hvs v List.mem_cons_self))

end

/-- While dominators are computed and the vertices from `k` on have been handled: semidominators are
in `A`, and a provisional dominator is the semidominator or at least a smaller vertex. -/
structure Onward (n : Numbering) (A : Nat → Prop) (s : DomState) (k : Nat) : Prop where
  shaped : s.forest.Shaped k
  low : ∀ j, j < k → s.forest.semi j = j
  high : ∀ j, k ≤ j → j < n.size → A (s.forest.semi j)
  waits : ∀ p, ∀ w ∈ s.bucket p, k ≤ w ∧ s.forest.semi w = p
  dom : ∀ w d, s.dom w = some d → k ≤ w ∧ (d = s.forest.semi w ∨ d < w)

theorem onward_initial (n : Numbering) (A : Nat → Prop) : Onward n A initial n.size where
  shaped := LinkForest.shaped_initial _
  low _ _ := rfl
  high _ hj hlt := absurd hlt (Nat.not_lt.mpr hj)
  waits _ _ hw := absurd hw List.not_mem_nil
  dom _ _ hd := by simp [initial] at hd

theorem Onward.settle (h : Onward n A s k) {waiting : List Nat}
    (hwait : ∀ w ∈ waiting, k ≤ w ∧ s.forest.semi w = p) :
    Onward n A (settle p waiting s) k := by
  induction waiting generalizing s with
  | nil => exact h
  | cons w ws ih =>
    obtain ⟨hshaped, hsemi, hq⟩ := h.shaped.eval w
    obtain ⟨hkw, hwp⟩ := hwait w List.mem_cons_self
    let s' : DomState := { s with
      forest := (s.forest.eval w).2
      dom := override s.dom w
        (some (if (s.forest.eval w).2.semi (s.forest.eval w).1 < (s.forest.eval w).2.semi w
        then (s.forest.eval w).1 else p)) }
    have hstep : Onward n A s' k := by
      refine ⟨hshaped, fun j hj => ?_, fun j hj hlt => ?_, fun p w hw => ?_, fun x d hd => ?_⟩
      · exact (congrFun hsemi j).trans (h.low j hj)
      · exact (congrFun hsemi j).symm ▸ h.high j hj hlt
      · exact ⟨(h.waits p w hw).1, (congrFun hsemi w).trans (h.waits p w hw).2⟩
      · show k ≤ x ∧ (d = (s.forest.eval w).2.semi x ∨ d < x)
        rw [hsemi]
        by_cases hxw : x = w
        · subst hxw
          have hd : (if s.forest.semi (s.forest.eval x).1 < s.forest.semi x then (s.forest.eval x).1
              else p) = d := by
            rw [← hsemi]
            exact Option.some.inj ((override_self _ _ _).symm.trans hd)
          refine ⟨hkw, ?_⟩
          split_ifs at hd with hlt
          · right
            have hne : (s.forest.eval x).1 ≠ x := fun he => Nat.lt_irrefl _ (he ▸ hlt)
            omega
          · exact Or.inl (hd.symm.trans hwp.symm)
        · exact h.dom x d ((override_of_ne _ _ hxw).symm.trans hd)
    have hrest : ∀ w ∈ ws, k ≤ w ∧ s'.forest.semi w = p := fun w hw =>
      ⟨(hwait w (List.mem_cons_of_mem _ hw)).1,
        (congrFun hsemi w).trans (hwait w (List.mem_cons_of_mem _ hw)).2⟩
    exact ih hstep hrest

theorem Onward.clear (h : Onward n A s k) (p : Nat) :
    Onward n A { s with bucket := override s.bucket p [] } k := by
  refine ⟨h.shaped, h.low, h.high, fun q w hw => h.waits q w ?_, h.dom⟩
  simp only [override] at hw
  split_ifs at hw with hq
  · exact absurd hw List.not_mem_nil
  · exact hw

theorem Onward.process (hn : n.Into A) (h : Onward n A s (i + 1)) (hi0 : 0 < i) (hi : i < n.size) :
    Onward n A (process n s i) i := by
  obtain ⟨hpi, hpp⟩ := hn.parent i hi0 hi
  have hsought :=
    sought_findSemi (F := s.forest) hn (fun j hj => h.low j (by omega)) (fun j hj => h.high j hj) hi
      (fun v hv => hv)
      ⟨h.shaped, fun _ _ => rfl, Or.inl (h.low i (Nat.lt_succ_self i)), fun v hv _ => Or.inl hv⟩
  have hless : (findSemi (n.preds i) i s.forest).semi i ≤ n.parent i :=
    (hsought.least _ hpp hpi).resolve_left List.not_mem_nil
  let F := findSemi (n.preds i) i s.forest
  let b := override s.bucket (F.semi i) (i :: s.bucket (F.semi i))
  have hqueued : Onward n A { s with forest := F.link (n.parent i) i, bucket := b } i := by
    refine ⟨hsought.shaped.link hpi, fun j hj => ?_, fun j hj hlt => ?_, fun p w hw => ?_,
      fun w d hd => ?_⟩
    · exact (hsought.same j (by omega)).trans (h.low j (by omega))
    · show A (F.semi j)
      rcases Nat.eq_or_lt_of_le hj with rfl | hj
      · exact hsought.semi.resolve_left (by omega)
      · rw [hsought.same j (by omega)]
        exact h.high j hj hlt
    · show i ≤ w ∧ F.semi w = p
      rcases mem_enter hw with ⟨rfl, rfl⟩ | hw
      · exact ⟨Nat.le_refl _, rfl⟩
      · have hold := h.waits p w hw
        rw [hsought.same w (by omega)]
        exact ⟨by omega, hold.2⟩
    · show i ≤ w ∧ (d = F.semi w ∨ d < w)
      have hold := h.dom w d hd
      rw [hsought.same w (by omega)]
      exact ⟨by omega, hold.2⟩
  exact (hqueued.settle (hqueued.waits (n.parent i))).clear (n.parent i)

theorem onward_provisional (hn : n.Into A) (h : 0 < n.size) : Onward n A (provisional n) 1 :=
  provisional_induction (P := fun i s => Onward n A s i) h (onward_initial n A)
    fun _ _ hi0 hi hs => hs.process hn hi0 hi

/-- Finishing the vertices in increasing order: those below `k` have a dominator in `A`, if any. -/
structure Reached (A : Nat → Prop) (s t : DomState) (k : Nat) : Prop where
  forest : t.forest = s.forest
  done : ∀ w d, w < k → t.dom w = some d → A d
  left : ∀ w, k ≤ w → t.dom w = s.dom w

theorem Reached.finish (hs : Onward n A s 1) (h : Reached A s t k) (hk0 : 0 < k) (hk : k < n.size) :
    Reached A s (finish t k) (k + 1) := by
  have htk := h.left k (Nat.le_refl k)
  have hlt : ∀ w d, w < k + 1 → w ≠ k → t.dom w = some d → A d :=
    fun w d hw hne => h.done w d (by omega)
  rw [DomState.finish, h.forest, htk]
  by_cases hsemi : s.dom k = some (s.forest.semi k)
  · rw [if_pos hsemi]
    refine ⟨h.forest, fun w d hw hd => ?_, fun w hw => h.left w (by omega)⟩
    by_cases hwk : w = k
    · subst hwk
      rw [htk, hsemi] at hd
      exact Option.some.inj hd ▸ hs.high w hk0 hk
    · exact hlt w d hw hwk hd
  · rw [if_neg hsemi]
    refine ⟨rfl, fun w d hw hd => ?_, fun w hw => ?_⟩
    · by_cases hwk : w = k
      · subst hwk
        obtain ⟨q, hq, hd⟩ := Option.bind_eq_some_iff.mp ((override_self _ _ _).symm.trans hd)
        have hqw : q < w := (hs.dom w q hq).2.resolve_left fun he => hsemi (he ▸ hq)
        exact h.done q d hqw hd
      · exact hlt w d hw hwk ((override_of_ne _ _ hwk).symm.trans hd)
    · exact (override_of_ne _ _ (by omega)).trans (h.left w (by omega))

/-- Dominators are in `A`. -/
theorem mem_immediate (hn : n.Into A) (hw : w < n.size)
    (hd : (immediate n).dom w = some d) : A d := by
  have hs := onward_provisional hn (Nat.zero_lt_of_lt hw)
  have run : ∀ m, m < n.size →
      Reached A (provisional n) ((List.range' 1 m).foldl DomState.finish (provisional n))
        (m + 1) := by
    intro m hm
    induction m with
    | zero =>
      refine ⟨rfl, fun w d hw hd => ?_, fun _ _ => rfl⟩
      have hpos := (hs.dom w d hd).1
      omega
    | succ m ih =>
      rw [List.range'_1_concat, List.foldl_append, Nat.add_comm 1 m]
      exact (ih (by omega)).finish hs (Nat.succ_pos m) hm
  exact (run (n.size - 1) (by omega)).done w d (by omega) hd

end DomState

namespace FlowGraph

variable {g : FlowGraph} {stack seen : List Visit} {l : Loop} {a b : BlockRef}

/-- Whether every block but the first was reached by a branch of an earlier one. -/
structure Followed (g : FlowGraph) (stack seen : List Visit) : Prop where
  visited : ∀ i v, 0 < i → seen[i]? = some v →
    ∃ u, v.parent < i ∧ seen[v.parent]? = some u ∧ v.block ∈ g.succs u.block
  pending : ∀ v ∈ stack, ∃ u, seen[v.parent]? = some u ∧ v.block ∈ g.succs u.block

theorem followed_depthFirst (stack seen : List Visit) (h : Followed g stack seen) :
    Followed g [] (g.depthFirst stack seen) := by
  induction stack, seen using FlowGraph.depthFirst.induct g with
  | case1 seen =>
    rw [depthFirst]
    exact h
  | case2 seen v stack hv ih =>
    rw [depthFirst, dif_pos hv]
    have hkeep : ∀ i u, seen[i]? = some u → (seen ++ [v])[i]? = some u := fun i u hu => by
      rw [List.getElem?_append_left (List.getElem?_eq_some_iff.mp hu).1]
      exact hu
    refine ih ⟨fun i w hi hw => ?_, fun e he => ?_⟩
    · rw [List.getElem?_append] at hw
      split_ifs at hw with hlt
      · obtain ⟨u, hp, hu, hs⟩ := h.visited i w hi hw
        exact ⟨u, hp, hkeep _ u hu, hs⟩
      · obtain ⟨hi, rfl⟩ : i - seen.length = 0 ∧ v = w := by
          simpa [List.getElem?_singleton] using hw
        obtain ⟨u, hu, hs⟩ := h.pending v List.mem_cons_self
        have hp := (List.getElem?_eq_some_iff.mp hu).1
        exact ⟨u, by omega, hkeep _ u hu, hs⟩
    · rcases List.mem_append.mp he with he | he
      · obtain ⟨b, hb, rfl⟩ := List.mem_map.mp he
        exact ⟨v, by simp, hb⟩
      · obtain ⟨u, hu, hs⟩ := h.pending e (List.mem_cons_of_mem v he)
        exact ⟨u, hkeep _ u hu, hs⟩
  | case3 seen v stack hv ih =>
    rw [depthFirst, dif_neg hv]
    exact ih ⟨h.visited, fun e he => h.pending e (List.mem_cons_of_mem v he)⟩

theorem followed_spanning (g : FlowGraph) : Followed g [] g.spanning := by
  rw [spanning]
  cases hr : g.entry? with
  | none => exact ⟨by simp, by simp⟩
  | some r =>
    have hfirst : g.depthFirst [⟨r, 0⟩] [] = g.depthFirst ((g.succs r).map (⟨·, 0⟩)) [⟨r, 0⟩] := by
      rw [depthFirst, dif_pos ⟨entry_mem_nodes hr, by simp⟩]
      simp
    simp only [hfirst]
    refine followed_depthFirst _ _ ⟨fun i v hi hv => ?_, fun v hv => ?_⟩
    · obtain ⟨rfl, -⟩ : i = 0 ∧ _ := by simpa [List.getElem?_singleton] using hv
      exact absurd hi (Nat.lt_irrefl 0)
    · obtain ⟨b, hb, rfl⟩ := List.mem_map.mp hv
      exact ⟨⟨r, 0⟩, rfl, hb⟩

/-- The search reaches a vertex only from one that branches. -/
theorem into_spanned (g : FlowGraph) : g.spanned.Into fun i => g.succs (g.blockAt i) ≠ [] := by
  constructor
  · intro i h0 hi
    obtain ⟨v, hv, _⟩ := exists_visit hi
    obtain ⟨u, hp, hu, hs⟩ := g.followed_spanning.visited i v h0 hv
    rw [numbering_parent hv]
    exact ⟨hp, (mem_preds hv).mpr ⟨u, hu, List.mem_map_of_mem hs⟩⟩
  · intro i j hi hj
    obtain ⟨v, hv, _⟩ := exists_visit hi
    obtain ⟨u, hu, hs⟩ := (mem_preds hv).mp hj
    rw [blockAt_eq hu]
    exact ⟨lt_of_visit hu, fun hnil => by simp [hnil] at hs⟩

theorem succs_ne_nil_of_mem_edges (h : (b, a) ∈ g.domTree.edges) : g.succs a ≠ [] := by
  rw [domTree, List.mem_filterMap] at h
  obtain ⟨⟨v, i⟩, hv, he⟩ := h
  obtain ⟨_, d, u, hd, hu, heq⟩ := edge_of_visit_iff.mp he
  cases heq
  rw [← blockAt_eq hu]
  exact DomState.mem_immediate g.into_spanned (lt_of_visit (visit_of_mem_inOrder hv)) hd

/-- A block above another one in the tree branches. -/
theorem succs_ne_nil_of_mem_chain {n : Nat} (h : a ∈ g.domTree.chain n b) :
    a = b ∨ g.succs a ≠ [] := by
  induction n generalizing b with
  | zero => exact Or.inl (List.mem_singleton.mp h)
  | succ n ih =>
    rw [DomTree.chain] at h
    cases hb : g.domTree.idom? b with
    | none =>
      rw [hb] at h
      exact Or.inl (List.mem_singleton.mp h)
    | some d =>
      rw [hb] at h
      obtain ⟨e, he, rfl⟩ := Option.map_eq_some_iff.mp hb
      rcases List.mem_cons.mp h with rfl | h
      · exact Or.inl rfl
      · right
        rcases ih h with rfl | hne
        · exact succs_ne_nil_of_mem_edges (List.mem_of_find?_eq_some he)
        · exact hne

/-- Whether a block branches. -/
def Leads (g : FlowGraph) (b : BlockRef) : Prop := ∃ e ∈ g.out, e.1 = b ∧ e.2 ≠ []

theorem leads_of_succs (h : g.succs b ≠ []) : g.Leads b := by
  rw [succs] at h
  cases hb : g.out.lookup b with
  | none => simp [hb] at h
  | some s =>
    rw [hb, Option.getD_some] at h
    obtain ⟨before, after, hout, -⟩ := List.lookup_eq_some_iff.mp hb
    exact ⟨(b, s), by simp [hout], rfl, h⟩

theorem leads_of_mem_preds (h : a ∈ g.preds b) : g.Leads a := by
  obtain ⟨e, he, rfl⟩ := List.mem_map.mp h
  have hboth := List.of_mem_filter he
  rw [Bool.and_eq_true, List.contains_iff_mem] at hboth
  exact ⟨e, List.mem_of_mem_filter he, rfl, List.ne_nil_of_mem hboth.2⟩

theorem mem_preds_of_lookup (h : a ∈ (g.reachablePreds.lookup b).getD []) : a ∈ g.preds b := by
  cases hpreds : g.reachablePreds.lookup b with
  | none => simp [hpreds] at h
  | some ps =>
    rw [hpreds, Option.getD_some] at h
    obtain ⟨before, after, hall, -⟩ := List.lookup_eq_some_iff.mp hpreds
    have hmem : (b, ps) ∈ g.reachablePreds := by simp [hall]
    obtain ⟨c, _, heq⟩ := List.mem_map.mp hmem
    cases heq
    exact List.mem_of_mem_filter h

theorem leads_of_mem_backEdges (h : (a, b) ∈ g.backEdges g.domTree) : g.Leads a ∧ g.Leads b := by
  obtain ⟨e, he, hab⟩ := List.mem_flatMap.mp h
  obtain ⟨c, hc, heq⟩ := List.mem_map.mp hab
  cases heq
  have hmem := List.mem_of_mem_filter hc
  have htail : g.Leads e.1 :=
    ⟨e, List.mem_append_left _ (List.mem_of_mem_filter he), rfl, List.ne_nil_of_mem hmem⟩
  refine ⟨htail, ?_⟩
  have hdom := List.of_mem_filter hc
  rw [DomTree.dominates, Bool.and_eq_true, List.contains_iff_mem] at hdom
  rcases succs_ne_nil_of_mem_chain hdom.2 with rfl | hne
  · exact htail
  · exact leads_of_succs hne

theorem leads_header (hl : l ∈ g.loopNest g.domTree) : g.Leads l.header := by
  obtain ⟨a, ha⟩ := exists_mem_backEdges hl
  exact (leads_of_mem_backEdges ha).2

/-- Every block of a loop branches. -/
theorem leads_of_mem_body (hl : l ∈ g.loopNest g.domTree) (hb : b ∈ l.body) : g.Leads b := by
  obtain ⟨k, hk, _, hbody, _⟩ := of_mem_loopNest hl
  obtain ⟨h, hh, rfl⟩ := List.mem_map.mp hk
  replace hb := mem_breadthFirst.mp (hbody ▸ hb)
  rcases hb with hb | ⟨q, hq, p, hwalk, _⟩
  · obtain ⟨⟨a, h'⟩, he, rfl⟩ := List.mem_map.mp (List.mem_eraseDups.mp hh)
    rw [List.mem_singleton.mp hb]
    exact (leads_of_mem_backEdges he).2
  · have htail : g.Leads q := by
      obtain ⟨⟨a, h'⟩, he, rfl⟩ := List.mem_map.mp hq
      exact (leads_of_mem_backEdges (List.mem_of_mem_filter he)).1
    exact hwalk.closed htail
      (fun c d _ hd => leads_of_mem_preds (mem_preds_of_lookup hd)) b hwalk.last_mem

end FlowGraph

end KernelIR
