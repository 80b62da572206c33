import KernelIR.Proofs.Graph.Semidominator

namespace KernelIR

theorem override_self {α : Type} (f : Nat → α) (k : Nat) (a : α) : override f k a k = a :=
  if_pos rfl

theorem override_of_ne {α : Type} (f : Nat → α) {k i : Nat} (a : α) (h : i ≠ k) :
    override f k a i = f i := if_neg h

namespace LinkForest

variable (n : Numbering)

/-- A linked vertex: the link goes up the search tree without passing over a root, and the label is
a vertex of least `semi` on the part passed over. The vertices from `k` on are linked. -/
structure Linked (F : LinkForest) (k j a : Nat) : Prop where
  ancestor : F.ancestor j = some a
  lt : a < j
  above : n.Above a j
  label_above : n.Above (F.label j) j
  label_lt : a < F.label j
  least : ∀ u, n.Above u j → a < u → k ≤ u ∧ F.semi (F.label j) ≤ F.semi u

/-- The forest while the vertices from `k` on are linked to their parents. -/
structure Tracks (F : LinkForest) (k : Nat) : Prop where
  root : ∀ j, j < k → F.ancestor j = none ∧ F.label j = j
  linked : ∀ j, k ≤ j → j < n.size → ∃ a, F.Linked n k j a

variable {n} {F G : LinkForest} {k j a v : Nat}

theorem Linked.least_label (h : F.Linked n k j a) : k ≤ F.label j :=
  (h.least _ h.label_above h.label_lt).1

/-- What is known of a linked vertex only depends on its own link and label and on the numbers of
the linked vertices. -/
theorem Linked.congr (h : F.Linked n k j a) (ha : G.ancestor j = F.ancestor j)
    (hl : G.label j = F.label j) (hs : ∀ u, k ≤ u → G.semi u = F.semi u) : G.Linked n k j a where
  ancestor := ha.trans h.ancestor
  lt := h.lt
  above := h.above
  label_above := hl ▸ h.label_above
  label_lt := hl ▸ h.label_lt
  least u hu hau := by
    obtain ⟨hk, hle⟩ := h.least u hu hau
    rw [hl, hs _ h.least_label, hs u hk]
    exact ⟨hk, hle⟩

theorem tracks_initial : Tracks n initial n.size where
  root _ _ := ⟨rfl, rfl⟩
  linked _ hj hlt := absurd hlt (Nat.not_lt.mpr hj)

theorem Tracks.ancestor_isSome (h : F.Tracks n k) (hj : j < n.size) :
    (F.ancestor j).isSome ↔ k ≤ j := by
  constructor
  · intro hs
    by_contra hlt
    rw [(h.root j (Nat.lt_of_not_le hlt)).1] at hs
    exact absurd hs (by simp)
  · intro hk
    obtain ⟨a, ha⟩ := h.linked j hk hj
    rw [ha.ancestor]
    rfl

theorem Tracks.lower (h : F.Tracks n (k + 1)) (s : Nat) : (F.lower k s).Tracks n (k + 1) where
  root := h.root
  linked j hj hlt := by
    obtain ⟨a, ha⟩ := h.linked j hj hlt
    exact ⟨a, ha.congr rfl rfl fun u hu => override_of_ne _ _ (by omega)⟩

theorem Tracks.link (hn : n.Rooted) (h : F.Tracks n (k + 1)) (h0 : 0 < k) (hk : k < n.size) :
    (F.link (n.parent k) k).Tracks n k where
  root j hj :=
    ⟨(override_of_ne _ _ (by omega)).trans (h.root j (by omega)).1, (h.root j (by omega)).2⟩
  linked j hj hlt := by
    rcases Nat.eq_or_lt_of_le hj with rfl | hj
    · have hlabel : (F.link (n.parent k) k).label k = k := (h.root k (Nat.lt_succ_self k)).2
      refine ⟨n.parent k, override_self _ _ _, hn.parent_lt k h0 hk, .parent h0 hk, ?_, ?_, ?_⟩
      · rw [hlabel]
        exact .refl k
      · rw [hlabel]
        exact hn.parent_lt k h0 hk
      · intro u hu hpu
        rcases hu.eq_or_parent with rfl | ⟨_, _, hu⟩
        · rw [hlabel]
          exact ⟨Nat.le_refl _, Nat.le_refl _⟩
        · exact absurd (hn.above_le hu) (Nat.not_le.mpr hpu)
    · obtain ⟨a, ha⟩ := h.linked j hj hlt
      refine ⟨a, (override_of_ne _ _ (by omega)).trans ha.ancestor, ha.lt, ha.above, ha.label_above,
        ha.label_lt, fun u hu hau => ?_⟩
      obtain ⟨hku, hle⟩ := ha.least u hu hau
      exact ⟨by omega, hle⟩

@[simp] theorem shorten_semi (F : LinkForest) (v a : Nat) : (F.shorten v a).semi = F.semi := rfl

theorem shorten_frame (F : LinkForest) {v a j : Nat} (h : j ≠ v) :
    (F.shorten v a).ancestor j = F.ancestor j ∧ (F.shorten v a).label j = F.label j := by
  refine ⟨override_of_ne _ _ h, ?_⟩
  unfold shorten
  split
  · exact override_of_ne _ _ h
  · rfl

/-- The new label is the better one of the two. -/
theorem shorten_label (F : LinkForest) (v a : Nat) :
    ((F.shorten v a).label v = F.label v ∨ (F.shorten v a).label v = F.label a) ∧
    F.semi ((F.shorten v a).label v) ≤ F.semi (F.label v) ∧
    F.semi ((F.shorten v a).label v) ≤ F.semi (F.label a) := by
  unfold shorten
  split
  case isTrue h =>
    simp only [override_self, or_true, true_and]
    exact ⟨Nat.le_of_lt h, Nat.le_refl _⟩
  case isFalse h => exact ⟨Or.inl rfl, Nat.le_refl _, Nat.le_of_not_lt h⟩

/-- Skipping an ancestor joins the parts that the two links passed over. -/
theorem Linked.shorten (hn : n.Rooted) (hv : F.Linked n k v a) {r : Nat} (ha : F.Linked n k a r) :
    (F.shorten v a).Linked n k v r := by
  obtain ⟨hl, hlv, hla⟩ := F.shorten_label v a
  refine ⟨(override_self _ _ _).trans ha.ancestor, Nat.lt_trans ha.lt hv.lt,
    ha.above.trans hv.above, ?_, ?_, fun u hu hru => ?_⟩
  · rcases hl with hl | hl <;> rw [hl]
    · exact hv.label_above
    · exact ha.label_above.trans hv.above
  · rcases hl with hl | hl <;> rw [hl]
    · exact Nat.lt_trans ha.lt hv.label_lt
    · exact ha.label_lt
  · rw [shorten_semi]
    rcases Nat.lt_or_ge a u with hau | hua
    · obtain ⟨hk, hle⟩ := hv.least u hu hau
      exact ⟨hk, Nat.le_trans hlv hle⟩
    · obtain ⟨hk, hle⟩ := ha.least u (hn.above_of_le hu hv.above hua) hru
      exact ⟨hk, Nat.le_trans hla hle⟩

/-- Compression leaves the numbers and the larger vertices alone. -/
theorem Tracks.compress_frame (h : F.Tracks n k) (hv : v < n.size) (fuel : Nat) :
    (compress fuel F v).semi = F.semi ∧
    ∀ j, v < j → (compress fuel F v).ancestor j = F.ancestor j ∧
      (compress fuel F v).label j = F.label j := by
  induction fuel generalizing v with
  | zero => exact ⟨rfl, fun j _ => ⟨rfl, rfl⟩⟩
  | succ fuel ih =>
    unfold compress
    cases ha : F.ancestor v with
    | none => exact ⟨rfl, fun j _ => ⟨rfl, rfl⟩⟩
    | some a =>
      simp only
      split
      · have hav : a < v := by
          obtain ⟨b, hb⟩ := h.linked v ((h.ancestor_isSome hv).mp (by rw [ha]; rfl)) hv
          have he : b = a := Option.some.inj (hb.ancestor.symm.trans ha)
          exact he ▸ hb.lt
        obtain ⟨hs, hf⟩ := ih (Nat.lt_trans hav hv)
        refine ⟨hs, fun j hj => ?_⟩
        obtain ⟨h1, h2⟩ := shorten_frame (compress fuel F a) (a := a) (Nat.ne_of_gt hj)
        obtain ⟨h3, h4⟩ := hf j (Nat.lt_trans hav hj)
        exact ⟨h1.trans h3, h2.trans h4⟩
      · exact ⟨rfl, fun j _ => ⟨rfl, rfl⟩⟩

/-- Induction along compression: it ends at a vertex below a root, and else it goes on from a forest
in which the path above the ancestor is compressed. -/
theorem Tracks.compress_induction {P : Nat → LinkForest → Prop} (h : F.Tracks n k) (h0 : 0 < k)
    (top : ∀ v a, F.Linked n k v a → a < k → P v F)
    (step : ∀ v a G, k ≤ a → a < n.size → F.Linked n k v a → G.Linked n k v a → P a G →
      P v (G.shorten v a))
    (hk : k ≤ v) (hv : v < n.size) {fuel : Nat} (hf : v ≤ fuel) :
    P v (LinkForest.compress fuel F v) := by
  induction fuel generalizing v with
  | zero => omega
  | succ fuel ih =>
    obtain ⟨a, ha⟩ := h.linked v hk hv
    have hlt := ha.lt
    have has : a < n.size := Nat.lt_trans hlt hv
    unfold LinkForest.compress
    rw [ha.ancestor]
    simp only
    split
    case isTrue hs =>
      have hka := (h.ancestor_isSome has).mp hs
      obtain ⟨hsemi, hframe⟩ := h.compress_frame has fuel
      obtain ⟨hanc, hlabel⟩ := hframe v hlt
      exact step v a _ hka has ha (ha.congr hanc hlabel fun u _ => congrFun hsemi u)
        (ih hka has (by omega))
    case isFalse hs =>
      rw [h.ancestor_isSome has] at hs
      exact top v a ha (Nat.lt_of_not_le hs)

theorem Tracks.shorten (hn : n.Rooted) (h : F.Tracks n k) (hk : k ≤ v)
    (hv : F.Linked n k v a) {r : Nat} (ha : F.Linked n k a r) : (F.shorten v a).Tracks n k := by
  refine ⟨fun j hj => ?_, fun j hj hlt => ?_⟩
  · obtain ⟨hanc, hlabel⟩ := shorten_frame F (a := a) (by omega : j ≠ v)
    rw [hanc, hlabel]
    exact h.root j hj
  · by_cases hjv : j = v
    · exact ⟨r, hjv ▸ hv.shorten hn ha⟩
    · obtain ⟨b, hb⟩ := h.linked j hj hlt
      obtain ⟨hanc, hlabel⟩ := shorten_frame F (a := a) hjv
      exact ⟨b, hb.congr hanc hlabel fun _ _ => rfl⟩

/-- Compression leads a linked vertex to the root of its tree and keeps what the forest tracks. -/
theorem Tracks.compress (hn : n.Rooted) (h : F.Tracks n k) (hk : k ≤ v) (hv : v < n.size)
    {fuel : Nat} (hf : v ≤ fuel) (h0 : 0 < k) :
    (compress fuel F v).Tracks n k ∧ ∃ r, r < k ∧ (compress fuel F v).Linked n k v r := by
  refine h.compress_induction (P := fun v G => G.Tracks n k ∧ ∃ r, r < k ∧ G.Linked n k v r) h0
    (fun v a ha hak => ⟨h, a, hak, ha⟩) (fun v a G hka _ _ hG hP => ?_) hk hv hf
  obtain ⟨ht, r, hr, hl⟩ := hP
  exact ⟨ht.shorten hn (Nat.le_trans hka (Nat.le_of_lt hG.lt)) hG hl, r, hr, hG.shorten hn hl⟩

/-- The answer to a query at `v`: itself below `k`, and else a vertex of least `semi` among the
linked ones at or above `v`. -/
def IsAnswer (n : Numbering) (F : LinkForest) (k v q : Nat) : Prop :=
  (v < k ∧ q = v) ∨
  (k ≤ v ∧ k ≤ q ∧ n.Above q v ∧ ∀ u, n.Above u v → k ≤ u → F.semi q ≤ F.semi u)

theorem Tracks.eval (hn : n.Rooted) (h : F.Tracks n k) (hv : v < n.size) (h0 : 0 < k) :
    (F.eval v).2.Tracks n k ∧ (F.eval v).2.semi = F.semi ∧ IsAnswer n F k v (F.eval v).1 := by
  unfold LinkForest.eval
  split
  case isTrue hs =>
    have hk := (h.ancestor_isSome hv).mp hs
    obtain ⟨ht, r, hr, hl⟩ := h.compress hn hk hv (Nat.le_refl v) h0
    obtain ⟨hsemi, _⟩ := h.compress_frame hv v
    refine ⟨ht, hsemi, Or.inr ⟨hk, hl.least_label, hl.label_above, fun u hu hku => ?_⟩⟩
    have hle := (hl.least u hu (Nat.lt_of_lt_of_le hr hku)).2
    rwa [hsemi] at hle
  case isFalse hs =>
    rw [h.ancestor_isSome hv] at hs
    exact ⟨h, rfl, Or.inl ⟨Nat.lt_of_not_le hs, rfl⟩⟩

end LinkForest

end KernelIR
