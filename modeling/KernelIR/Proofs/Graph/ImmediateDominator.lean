import KernelIR.Proofs.Graph.LinkForest

namespace KernelIR

namespace DomState

open LinkForest

variable {n : Numbering} {F G : LinkForest} {s : DomState} {i k p v w d : Nat}

/-- What is settled about `w`, whose semidominator is `s`: this is the immediate dominator, or a
vertex between them that has the same strict dominators. -/
def Verdict (n : Numbering) (s w d : Nat) : Prop :=
  (d = s ∧ ImmediatelyDominates n.Edge 0 s w) ∨
  (s < d ∧ d < w ∧ ∀ c, StrictlyDominates n.Edge 0 c w ↔ StrictlyDominates n.Edge 0 c d)

/-- While the semidominator of `i` is looked for: the forest with the numbers of the other vertices
is kept, and the number of `i` is reached from the predecessors seen so far and bounds what they
offer. -/
structure Lowered (n : Numbering) (F G : LinkForest) (i : Nat) (seen : List Nat) : Prop where
  tracks : G.Tracks n (i + 1)
  same : ∀ j, j ≠ i → G.semi j = F.semi j
  reached : G.semi i = i ∨ n.Bypass (G.semi i) i
  le_self : G.semi i ≤ i
  small : ∀ v ∈ seen, v < i → G.semi i ≤ v
  large : ∀ v ∈ seen, ∀ u, i < u → n.Above u v → G.semi i ≤ F.semi u

/-- What a predecessor offers is the number of `i` itself or leads to `i`. -/
theorem Lowered.offered (hn : n.IsSearch) {seen : List Nat} (h : Lowered n F G i seen)
    (hlow : ∀ j, j < i → F.semi j = j)
    (hsemi : ∀ j, i < j → j < n.size → n.IsSemi (F.semi j) j) (hi : i < n.size) (hv : v ∈ n.preds i)
    {q : Nat} (hq : IsAnswer n G (i + 1) v q) : G.semi q = G.semi i ∨ n.Bypass (G.semi q) i := by
  rcases hq with ⟨hvi, rfl⟩ | ⟨_, hiq, hqv, _⟩
  · rcases Nat.eq_or_lt_of_le (Nat.le_of_lt_succ hvi) with rfl | hlt
    · exact Or.inl rfl
    · rw [h.same q (by omega), hlow q hlt]
      exact Or.inr (.edge ⟨hi, hv⟩)
  · have hqs := Nat.lt_of_le_of_lt (hn.above_le hqv) (hn.preds_lt i v hi hv)
    rw [h.same q (by omega)]
    exact Or.inr (hn.bypass_of_above (hsemi q hiq hqs).bypass hqv hiq ⟨hi, hv⟩)

/-- One predecessor: a smaller one offers itself, a larger one the least number at or above it. -/
theorem Lowered.pred (hn : n.IsSearch) {seen : List Nat} (h : Lowered n F G i seen)
    (hlow : ∀ j, j < i → F.semi j = j)
    (hsemi : ∀ j, i < j → j < n.size → n.IsSemi (F.semi j) j) (hi : i < n.size)
    (hv : v ∈ n.preds i) :
    Lowered n F ((G.eval v).2.lower i ((G.eval v).2.semi (G.eval v).1)) i (v :: seen) := by
  obtain ⟨ht, hs, ha⟩ := h.tracks.eval hn.rooted (hn.preds_lt i v hi hv) (Nat.succ_pos i)
  generalize G.eval v = r at ht hs ha
  obtain ⟨q, H⟩ := r
  simp only at ht hs ha ⊢
  have hself : (H.lower i (H.semi q)).semi i = min (G.semi i) (G.semi q) := by
    rw [← hs]
    exact override_self _ _ _
  have hother : ∀ j, j ≠ i → (H.lower i (H.semi q)).semi j = F.semi j := by
    intro j hj
    rw [← h.same j hj, ← hs]
    exact override_of_ne _ _ hj
  refine ⟨ht.lower _, hother, ?_, ?_, ?_, ?_⟩
  · rw [hself]
    rcases Nat.le_total (G.semi i) (G.semi q) with hle | hle
    · rw [Nat.min_eq_left hle]
      exact h.reached
    · rw [Nat.min_eq_right hle]
      rcases h.offered hn hlow hsemi hi hv ha with hq | hq
      · rw [hq]
        exact h.reached
      · exact Or.inr hq
  · rw [hself]
    exact Nat.le_trans (Nat.min_le_left _ _) h.le_self
  · intro x hx hxi
    rw [hself]
    rcases List.mem_cons.mp hx with rfl | hx
    · rcases ha with ⟨_, rfl⟩ | ⟨hix, _⟩
      · rw [h.same q (by omega), hlow q hxi]
        exact Nat.min_le_right _ _
      · omega
    · exact Nat.le_trans (Nat.min_le_left _ _) (h.small x hx hxi)
  · intro x hx u hiu hux
    rw [hself]
    rcases List.mem_cons.mp hx with rfl | hx
    · rcases ha with ⟨hxi, _⟩ | ⟨_, hiq, _, hmin⟩
      · have := hn.above_le hux
        omega
      · have hle := hmin u hux hiu
        rw [h.same u (by omega)] at hle
        exact Nat.le_trans (Nat.min_le_right _ _) hle
    · exact Nat.le_trans (Nat.min_le_left _ _) (h.large x hx u hiu hux)

theorem lowered_findSemi (hn : n.IsSearch) (hlow : ∀ j, j < i → F.semi j = j)
    (hsemi : ∀ j, i < j → j < n.size → n.IsSemi (F.semi j) j) (hi : i < n.size)
    {todo seen : List Nat} (htodo : ∀ v ∈ todo, v ∈ n.preds i) (h : Lowered n F G i seen) :
    Lowered n F (findSemi todo i G) i (todo.reverse ++ seen) := by
  induction todo generalizing G seen with
  | nil => exact h
  | cons v todo ih =>
    have step := h.pred hn hlow hsemi hi (htodo v List.mem_cons_self)
    have rest := ih (fun x hx => htodo x (List.mem_cons_of_mem v hx)) step
    rw [List.reverse_cons, List.append_assoc]
    exact rest

theorem lowered_nil (h : F.Tracks n (i + 1)) (hself : F.semi i = i) : Lowered n F F i [] :=
  ⟨h, fun _ _ => rfl, Or.inl hself, Nat.le_of_eq hself, by simp, by simp⟩

/-- The number found from all predecessors is the semidominator. -/
theorem isSemi_findSemi (hn : n.IsSearch) (h : F.Tracks n (i + 1))
    (hlow : ∀ j, j ≤ i → F.semi j = j)
    (hsemi : ∀ j, i < j → j < n.size → n.IsSemi (F.semi j) j) (h0 : 0 < i) (hi : i < n.size) :
    (findSemi (n.preds i) i F).Tracks n (i + 1) ∧
    (∀ j, j ≠ i → (findSemi (n.preds i) i F).semi j = F.semi j) ∧
    n.IsSemi ((findSemi (n.preds i) i F).semi i) i := by
  have done := lowered_findSemi hn (fun j hj => hlow j (Nat.le_of_lt hj)) hsemi hi (fun v hv => hv)
    (lowered_nil h (hlow i (Nat.le_refl i)))
  have hmem : ∀ v ∈ n.preds i, v ∈ (n.preds i).reverse ++ [] := by simp
  refine ⟨done.tracks, done.same, hn.isSemi_of_preds ?_ done.le_self
    (fun v hv => done.small v (hmem v hv)) fun v hv u x hu huv hb => ?_⟩
  · -- the parent is among the predecessors, so the number of `i` was lowered
    have hp := hn.parent_lt i h0 hi
    have hle := done.small _ (hmem _ (hn.parent_edge i h0 hi)) hp
    rcases done.reached with he | hb
    · omega
    · exact hb
  · have hus := Nat.lt_of_le_of_lt (hn.above_le huv) (hn.preds_lt i v hi hv)
    exact Nat.le_trans (done.large v (hmem v hv) u hu huv) ((hsemi u hu hus).least x hb)

theorem exists_child (h : n.Above p w) (hlt : p < w) :
    ∃ c, 0 < c ∧ c < n.size ∧ n.parent c = p ∧ n.Above c w := by
  rcases Relation.ReflTransGen.cases_head h with rfl | ⟨c, ⟨h0, hc, hp⟩, hcw⟩
  · exact absurd hlt (Nat.lt_irrefl _)
  · exact ⟨c, h0, hc, hp, hcw⟩

/-- Between the parent of `i` and a vertex below `i` there is nothing before `i`. -/
theorem le_of_parent_lt (hn : n.IsSearch) (hw : w < n.size) (hiw : n.Above i w) {u : Nat}
    (huw : n.Above u w) (hpu : n.parent i < u) : i ≤ u := by
  by_contra hlt
  have hui := hn.above_of_le hw huw hiw (by omega)
  rcases hui.eq_or_parent with rfl | ⟨_, _, hu⟩
  · omega
  · have := hn.above_le hu
    omega

/-- The verdict on a vertex `w` below `i` whose semidominator is the parent of `i`, from a vertex of
least `semi` on the path from `i` to `w`. -/
theorem verdict (hn : n.IsSearch) (hi0 : 0 < i) (hin : i < n.size) (hw : w < n.size)
    (hiw : n.Above i w) (hsemi : ∀ j, i ≤ j → j < n.size → n.IsSemi (F.semi j) j)
    (hp : F.semi w = n.parent i) {q : Nat}
    (hq : IsAnswer n F i w q) :
    Verdict n (n.parent i) w (if F.semi q < F.semi w then q else n.parent i) := by
  have hle := hn.above_le hiw
  obtain ⟨hwi, _⟩ | ⟨_, hiq, hqw, hmin⟩ := hq
  · omega
  have hqs := Nat.lt_of_le_of_lt (hn.above_le hqw) hw
  have hws : n.IsSemi (n.parent i) w := hp ▸ hsemi w hle hw
  have hpi := hn.parent_lt i hi0 hin
  -- every vertex between the parent and `w` is one that the query looked at
  have least : ∀ u x, n.parent i < u → n.Above u w → n.Bypass x u → F.semi q ≤ x := by
    intro u x hu huw hb
    have hiu := le_of_parent_lt hn hw hiw huw hu
    have hus := Nat.lt_of_le_of_lt (hn.above_le huw) hw
    exact Nat.le_trans (hmin u huw hiu) ((hsemi u hiu hus).least x hb)
  rw [hp]
  split
  case isTrue hlt =>
    have hqw' : q ≠ w := by
      rintro rfl
      omega
    have := hn.above_le hqw
    refine Or.inr ⟨by omega, by omega, fun c => ?_⟩
    exact hn.strict_iff_of_semi hws (by omega) (by omega) hqw (hsemi q hiq hqs)
      (Nat.le_of_lt hlt) least
  case isFalse hlt =>
    refine Or.inl ⟨rfl, hn.immediate_of_semi hws (by omega) fun u x hu huw hb => ?_⟩
    have := least u x hu huw hb
    omega

/-- Settling keeps the forest and its numbers, and gives each waiting vertex its verdict. -/
theorem settle_spec (hn : n.IsSearch) (hi0 : 0 < i) (hin : i < n.size) {waiting : List Nat}
    (hwait : ∀ w ∈ waiting, w < n.size ∧ n.Above i w ∧ s.forest.semi w = n.parent i)
    (hsemi : ∀ j, i ≤ j → j < n.size → n.IsSemi (s.forest.semi j) j) (ht : s.forest.Tracks n i) :
    let t := settle (n.parent i) waiting s
    t.forest.Tracks n i ∧ t.forest.semi = s.forest.semi ∧ t.bucket = s.bucket ∧
    (∀ w ∈ waiting, ∃ d, t.dom w = some d ∧ Verdict n (s.forest.semi w) w d) ∧
    ∀ w, w ∉ waiting → t.dom w = s.dom w := by
  induction waiting generalizing s with
  | nil => exact ⟨ht, rfl, rfl, by simp, fun _ _ => rfl⟩
  | cons v waiting ih =>
    obtain ⟨hv, hiv, hpv⟩ := hwait v List.mem_cons_self
    obtain ⟨he, hes, hea⟩ := ht.eval hn.rooted hv hi0
    have hverdict := verdict hn hi0 hin hv hiv hsemi hpv hea
    simp only [settle, List.foldl_cons]
    generalize s.forest.eval v = r at he hes hea hverdict ⊢
    obtain ⟨q, H⟩ := r
    simp only at he hes hea hverdict ⊢
    rw [← hes] at hverdict
    generalize hd : (if H.semi q < H.semi v then q else n.parent i) = d at hverdict ⊢
    have rest := ih (s := { s with forest := H, dom := override s.dom v (some d) })
      (fun w hw => by rw [hes]; exact hwait w (List.mem_cons_of_mem v hw))
      (fun j hj hjs => by rw [hes]; exact hsemi j hj hjs) he
    simp only [settle] at rest
    obtain ⟨h1, h2, h3, h4, h5⟩ := rest
    refine ⟨h1, h2.trans hes, h3, fun w hw => ?_, fun w hw => ?_⟩
    · by_cases hmem : w ∈ waiting
      · rw [← hes]
        exact h4 w hmem
      · have hwv : w = v := (List.mem_cons.mp hw).resolve_right hmem
        subst hwv
        refine ⟨d, (h5 w hmem).trans (override_self _ _ _), ?_⟩
        rw [hpv]
        exact hverdict
    · have hne : w ≠ v := fun h => hw (h ▸ List.mem_cons_self)
      exact (h5 w fun h => hw (List.mem_cons_of_mem v h)).trans (override_of_ne _ _ hne)

/-- The state when the vertices from `k` on are handled. A vertex waits in the bucket of its
semidominator as long as the child of the semidominator on the way to it is not handled. -/
structure Stage (n : Numbering) (s : DomState) (k : Nat) : Prop where
  tracks : s.forest.Tracks n k
  low : ∀ j, j < k → s.forest.semi j = j
  semi : ∀ j, k ≤ j → j < n.size → n.IsSemi (s.forest.semi j) j
  waits : ∀ p w, w ∈ s.bucket p → k ≤ w ∧ w < n.size ∧ s.forest.semi w = p ∧
    ∀ c, n.parent c = p → n.Above c w → c < k
  verdict : ∀ w, k ≤ w → w < n.size →
    w ∈ s.bucket (s.forest.semi w) ∨ ∃ d, s.dom w = some d ∧ Verdict n (s.forest.semi w) w d

theorem stage_initial : Stage n initial n.size where
  tracks := tracks_initial
  low _ _ := rfl
  semi _ hj hlt := absurd hlt (Nat.not_lt.mpr hj)
  waits _ _ hw := absurd hw List.not_mem_nil
  verdict _ hj hlt := absurd hlt (Nat.not_lt.mpr hj)

/-- What waits for the parent of `i` when `i` is handled lies below `i`. -/
theorem Stage.waits_below (hn : n.IsSearch) (h : Stage n s (i + 1)) (hi0 : 0 < i) (hin : i < n.size)
    (hw : w ∈ s.bucket (n.parent i)) : n.Above i w := by
  obtain ⟨hiw, hws, hp, hchild⟩ := h.waits _ w hw
  have hsw : n.IsSemi (n.parent i) w := hp ▸ h.semi w hiw hws
  have hpw := hn.semi_above hsw (by omega)
  obtain ⟨c, hc0, hcs, hcp, hcw⟩ := exists_child hpw (hn.semi_lt hsw (by omega))
  have hci : c ≤ i := Nat.le_of_lt_succ (hchild c hcp hcw)
  have habove := hn.between c w i hws hcw hci (by omega)
  rcases habove.eq_or_parent with rfl | ⟨_, _, hup⟩
  · exact hcw
  · have h1 := hn.above_le hup
    have h2 := hn.parent_lt c hc0 hcs
    omega

theorem mem_enter {b : Nat → List Nat} {m q : Nat} (h : w ∈ override b m (i :: b m) q) :
    (w = i ∧ q = m) ∨ w ∈ b q := by
  unfold override at h
  split at h
  case isTrue hq =>
    rcases List.mem_cons.mp h with h | h
    · exact Or.inl ⟨h, hq⟩
    · exact Or.inr (hq ▸ h)
  case isFalse => exact Or.inr h

theorem mem_enter_of_mem {b : Nat → List Nat} {m q : Nat} (h : w ∈ b q) :
    w ∈ override b m (i :: b m) q := by
  unfold override
  split
  case isTrue hq => exact List.mem_cons_of_mem i (hq ▸ h)
  case isFalse => exact h

/-- When `i` has its number and waits in the bucket of its semidominator. -/
structure Queued (n : Numbering) (F : LinkForest) (b : Nat → List Nat) (dom : Nat → Option Nat)
    (i : Nat) :
    Prop where
  tracks : F.Tracks n (i + 1)
  low : ∀ j, j < i → F.semi j = j
  semi : ∀ j, i ≤ j → j < n.size → n.IsSemi (F.semi j) j
  waits : ∀ p w, w ∈ b p → i ≤ w ∧ w < n.size ∧ F.semi w = p ∧
    ∀ c, n.parent c = p → n.Above c w → c ≤ i
  below : ∀ w ∈ b (n.parent i), n.Above i w
  verdict : ∀ w, i ≤ w → w < n.size →
    w ∈ b (F.semi w) ∨ ∃ d, dom w = some d ∧ Verdict n (F.semi w) w d

theorem Stage.queued (hn : n.IsSearch) (h : Stage n s (i + 1)) (hi0 : 0 < i) (hin : i < n.size) :
    let F := findSemi (n.preds i) i s.forest
    Queued n F (override s.bucket (F.semi i) (i :: s.bucket (F.semi i))) s.dom i := by
  obtain ⟨ht, hsame, hsi⟩ :=
    isSemi_findSemi hn h.tracks (fun j hj => h.low j (Nat.lt_succ_of_le hj))
      (fun j hj => h.semi j hj) hi0 hin
  simp only
  generalize findSemi (n.preds i) i s.forest = F at ht hsame hsi
  refine ⟨ht, fun j hj => ?_, fun j hj hjs => ?_, fun q w hw => ?_, fun w hw => ?_,
    fun w hw hws => ?_⟩
  · exact (hsame j (by omega)).trans (h.low j (by omega))
  · rcases Nat.eq_or_lt_of_le hj with rfl | hj
    · exact hsi
    · rw [hsame j (by omega)]
      exact h.semi j hj hjs
  · rcases mem_enter hw with ⟨rfl, rfl⟩ | hw
    · exact ⟨Nat.le_refl _, hin, rfl, fun c _ hc => hn.above_le hc⟩
    · obtain ⟨hiw, hws, hq, hchild⟩ := h.waits q w hw
      exact ⟨by omega, hws, (hsame w (by omega)).trans hq,
        fun c hc hcw => Nat.le_of_lt_succ (hchild c hc hcw)⟩
  · rcases mem_enter hw with ⟨rfl, _⟩ | hw
    · exact .refl w
    · exact h.waits_below hn hi0 hin hw
  · rcases Nat.eq_or_lt_of_le hw with rfl | hw
    · refine Or.inl ?_
      rw [override_self]
      exact List.mem_cons_self
    · rw [hsame w (by omega)]
      exact (h.verdict w hw hws).imp_left mem_enter_of_mem

/-- Linking `i` to its parent and settling what waits for the parent. -/
theorem Queued.settle (hn : n.IsSearch) {b : Nat → List Nat} (h : Queued n F b s.dom i)
    (hi0 : 0 < i) (hin : i < n.size) :
    let p := n.parent i
    let t := DomState.settle p (b p) { s with forest := F.link p i, bucket := b }
    Stage n { t with bucket := override t.bucket p [] } i := by
  intro p t
  have hwait : ∀ w ∈ b p, w < n.size ∧ n.Above i w ∧ F.semi w = p := by
    intro w hw
    obtain ⟨_, hws, hp, _⟩ := h.waits p w hw
    exact ⟨hws, h.below w hw, hp⟩
  obtain ⟨htracks, hts, htb, hdone, hkept⟩ : t.forest.Tracks n i ∧ t.forest.semi = F.semi ∧
      t.bucket = b ∧ (∀ w ∈ b p, ∃ d, t.dom w = some d ∧ Verdict n (F.semi w) w d) ∧
      ∀ w, w ∉ b p → t.dom w = s.dom w :=
    settle_spec hn hi0 hin (s := { s with forest := F.link p i, bucket := b }) hwait h.semi
      (h.tracks.link hn.rooted hi0 hin)
  refine ⟨htracks, ?_, ?_, fun q w hw => ?_, fun w hw hws => ?_⟩
  · rw [hts]
    exact h.low
  · rw [hts]
    exact h.semi
  · simp only at hw ⊢
    have hqp : q ≠ p := by
      rintro rfl
      rw [override_self] at hw
      exact absurd hw List.not_mem_nil
    rw [override_of_ne _ _ hqp, htb] at hw
    rw [hts]
    obtain ⟨hiw, hws, hq, hchild⟩ := h.waits q w hw
    refine ⟨hiw, hws, hq, fun c hc hcw => Nat.lt_of_le_of_ne (hchild c hc hcw) ?_⟩
    -- only the bucket of the parent, which is empty now, waited for `i`
    rintro rfl
    exact hqp hc.symm
  · simp only
    rw [hts]
    by_cases hb : w ∈ b p
    · exact Or.inr (hdone w hb)
    · rw [hkept w hb]
      rcases h.verdict w hw hws with hmw | hd
      · have hne : F.semi w ≠ p := fun he => hb (he ▸ hmw)
        rw [override_of_ne _ _ hne, htb]
        exact Or.inl hmw
      · exact Or.inr hd

theorem Stage.process (hn : n.IsSearch) (h : Stage n s (i + 1)) (hi0 : 0 < i) (hin : i < n.size) :
    Stage n (process n s i) i :=
  (h.queued hn hi0 hin).settle hn hi0 hin

/-- What holds in the beginning and is passed on from each vertex to the one before holds in the
end. -/
theorem provisional_induction {P : Nat → DomState → Prop} (h : 0 < n.size)
    (start : P n.size initial)
    (step : ∀ i s, 0 < i → i < n.size → P (i + 1) s → P i (DomState.process n s i)) :
    P 1 (provisional n) := by
  have run : ∀ m s, m < n.size → P (m + 1) s →
      P 1 ((List.range' 1 m).reverse.foldl (DomState.process n) s) := by
    intro m
    induction m with
    | zero => exact fun s _ hs => hs
    | succ m ih =>
      intro s hm hs
      rw [List.range'_1_concat, List.reverse_append, List.reverse_singleton, List.singleton_append,
        List.foldl_cons, Nat.add_comm 1 m]
      exact ih _ (by omega) (step (m + 1) s (Nat.succ_pos m) hm hs)
  refine run (n.size - 1) initial (by omega) ?_
  rwa [Nat.sub_add_cancel h]

theorem stage_provisional (hn : n.IsSearch) (h : 0 < n.size) : Stage n (provisional n) 1 :=
  provisional_induction (P := fun i s => Stage n s i) h stage_initial
    fun _ _ hi0 hin hs => hs.process hn hi0 hin

theorem verdict_provisional (hn : n.IsSearch) (h0 : 0 < w) (hw : w < n.size) :
    ∃ d, (provisional n).dom w = some d ∧ Verdict n ((provisional n).forest.semi w) w d := by
  -- in the end no vertex waits, since every child was handled
  have h := stage_provisional hn (Nat.zero_lt_of_lt hw)
  rcases h.verdict w h0 hw with hb | hd
  · have hs := h.semi w h0 hw
    obtain ⟨c, hc0, _, hcp, hcw⟩ := exists_child (hn.semi_above hs h0) (hn.semi_lt hs h0)
    exact absurd ((h.waits _ w hb).2.2.2 c hcp hcw) (Nat.not_lt.mpr hc0)
  · exact hd

/-- A vertex with the strict dominators of another has its immediate dominator. -/
theorem immediate_congr {d : Nat} (h : ImmediatelyDominates n.Edge 0 d v)
    (he : ∀ c, StrictlyDominates n.Edge 0 c w ↔ StrictlyDominates n.Edge 0 c v) :
    ImmediatelyDominates n.Edge 0 d w :=
  ⟨(he d).mpr h.strict, fun c hc => h.closest c ((he c).mp hc)⟩

/-- Finishing the vertices in increasing order: those below `k` have their immediate dominator, the
others still their verdict. -/
structure Finished (n : Numbering) (s t : DomState) (k : Nat) : Prop where
  forest : t.forest = s.forest
  done : ∀ w, 0 < w → w < k → ∃ d, t.dom w = some d ∧ ImmediatelyDominates n.Edge 0 d w
  left : ∀ w, k ≤ w → t.dom w = s.dom w

theorem Finished.finish {t : DomState} (h : Finished n s t k) (hk0 : 0 < k)
    (hv : ∃ d, s.dom k = some d ∧ Verdict n (s.forest.semi k) k d) :
    Finished n s (finish t k) (k + 1) := by
  obtain ⟨d, hd, hverdict⟩ := hv
  have htd : t.dom k = some d := (h.left k (Nat.le_refl k)).trans hd
  unfold DomState.finish
  rw [htd, h.forest]
  split
  case isTrue he =>
    have hds : d = s.forest.semi k := Option.some.inj he
    refine ⟨h.forest, fun w hw0 hw => ?_, fun w hw => h.left w (by omega)⟩
    rcases Nat.eq_or_lt_of_le (Nat.le_of_lt_succ hw) with rfl | hw
    · rcases hverdict with ⟨_, hi⟩ | ⟨hlt, _⟩
      · exact ⟨d, htd, hds ▸ hi⟩
      · omega
    · exact h.done w hw0 hw
  case isFalse he =>
    obtain ⟨rfl, _⟩ | ⟨hlt, hdk, hiff⟩ := hverdict
    · exact absurd rfl he
    obtain ⟨e, hte, hie⟩ := h.done d (by omega) hdk
    refine ⟨rfl, fun w hw0 hw => ?_, fun w hw => ?_⟩
    · by_cases hwk : w = k
      · subst hwk
        refine ⟨e, ?_, immediate_congr hie hiff⟩
        simp only [override_self, Option.bind_some]
        exact hte
      · obtain ⟨e', hte', hie'⟩ := h.done w hw0 (by omega)
        exact ⟨e', (override_of_ne _ _ hwk).trans hte', hie'⟩
    · exact (override_of_ne _ _ (by omega)).trans (h.left w (by omega))

theorem finished_provisional (hn : n.IsSearch) {m : Nat} (hm : m < n.size) :
    Finished n (provisional n) ((List.range' 1 m).foldl DomState.finish (provisional n))
      (m + 1) := by
  induction m with
  | zero => exact ⟨rfl, fun w hw0 hw => by omega, fun _ _ => rfl⟩
  | succ m ih =>
    rw [List.range'_1_concat, List.foldl_append, Nat.add_comm 1 m]
    exact (ih (by omega)).finish (Nat.succ_pos m) (verdict_provisional hn (Nat.succ_pos m) hm)

/-- The computation gives every vertex but the root its immediate dominator. -/
theorem immediate_spec (hn : n.IsSearch) (h0 : 0 < w) (hw : w < n.size) :
    ∃ d, (immediate n).dom w = some d ∧ ImmediatelyDominates n.Edge 0 d w :=
  (finished_provisional hn (m := n.size - 1) (by omega)).done w h0 (by omega)

end DomState

end KernelIR
