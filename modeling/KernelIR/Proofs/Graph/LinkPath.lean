import KernelIR.Proofs.Graph.LinkForest

namespace KernelIR

namespace LinkForest

/-- Whether the links lead from a vertex up to another one. -/
def Climbs (links : Nat → Option Nat) : Nat → Nat → Prop :=
  Relation.ReflTransGen fun v a => links v = some a

/-- Whether `u` is on the path of links that begins at `v`. The root, which has no link, is left
out. -/
def OnPath (links : Nat → Option Nat) (v u : Nat) : Prop := Climbs links v u ∧ (links u).isSome

/-- What a query at `v` has to answer: `v` itself if it has no link, and else the vertex of least
`semi` on its path, of several the one that comes first. -/
def Answers (links : Nat → Option Nat) (semi : Nat → Nat) (v q : Nat) : Prop :=
  (links v = none ∧ q = v) ∨
  (OnPath links v q ∧ (∀ u, OnPath links v u → semi q ≤ semi u) ∧
    ∀ u, OnPath links v u → Climbs links u q → u ≠ q → semi q < semi u)

section

variable {links : Nat → Option Nat} {semi : Nat → Nat} {v u q r : Nat}

theorem Climbs.eq_of_root (h : Climbs links v u) (hv : links v = none) : u = v := by
  rcases Relation.ReflTransGen.cases_head h with rfl | ⟨a, ha, _⟩
  · rfl
  · rw [hv] at ha
    exact absurd ha (by simp)

theorem OnPath.isSome (h : OnPath links v u) : (links v).isSome := by
  cases hv : links v with
  | none =>
    have hu := h.2
    rw [h.1.eq_of_root hv, hv] at hu
    exact hu
  | some a => rfl

/-- Of two vertices on one path the links lead from one to the other. -/
theorem OnPath.total (hu : OnPath links v u) (hq : OnPath links v q) :
    Climbs links u q ∨ Climbs links q u := by
  refine Relation.ReflTransGen.total_of_right_unique (fun a b c hb hc => ?_) hu.1 hq.1
  exact Option.some.inj (hb.symm.trans hc)

theorem Answers.unique (hq : Answers links semi v q) (hr : Answers links semi v r) : q = r := by
  rcases hq with ⟨hv, rfl⟩ | ⟨hq, hqmin, hqfirst⟩
  · rcases hr with ⟨_, rfl⟩ | ⟨hr, _⟩
    · rfl
    · exact absurd hr.isSome (by simp [hv])
  rcases hr with ⟨hv, _⟩ | ⟨hr, hrmin, hrfirst⟩
  · exact absurd hq.isSome (by simp [hv])
  by_contra hne
  rcases hq.total hr with h | h
  · exact absurd (hrfirst q hq h hne) (Nat.not_lt.mpr (hqmin r hr))
  · exact absurd (hqfirst r hr h (Ne.symm hne)) (Nat.not_lt.mpr (hrmin q hq))

end

/-- The recursion of compression without a bound on its depth: a derivation is a run that ends. The
ancestor is looked up again when the path above it is compressed. -/
inductive Compresses (F : LinkForest) : Nat → LinkForest → Prop where
  | top {v a : Nat} (hv : F.ancestor v = some a) (ha : F.ancestor a = none) : Compresses F v F
  | step {v a b : Nat} {G : LinkForest} (hv : F.ancestor v = some a) (ha : (F.ancestor a).isSome)
      (h : Compresses F a G) (hb : G.ancestor v = some b) : Compresses F v (G.shorten v b)

end LinkForest

/-- The links of the vertices from `k` on to their parents. -/
def Numbering.linksFrom (n : Numbering) (k : Nat) : Nat → Option Nat :=
  fun v => if k ≤ v ∧ v < n.size then some (n.parent v) else none

namespace Numbering

variable {n : Numbering} {k v u : Nat}

theorem linksFrom_eq_some_iff {a : Nat} : n.linksFrom k v = some a ↔
    k ≤ v ∧ v < n.size ∧ n.parent v = a := by
  unfold linksFrom
  split
  case isTrue h => simp [h]
  case isFalse h =>
    simp only [reduceCtorEq, false_iff]
    exact fun ha => h ⟨ha.1, ha.2.1⟩

theorem linksFrom_isSome : (n.linksFrom k v).isSome ↔ k ≤ v ∧ v < n.size := by
  rw [Option.isSome_iff_exists]
  simp [linksFrom_eq_some_iff]

theorem linksFrom_size : n.linksFrom n.size = fun _ => none := by
  funext v
  exact if_neg (by omega)

theorem linksFrom_link (hk : k < n.size) :
    override (n.linksFrom (k + 1)) k (some (n.parent k)) = n.linksFrom k := by
  funext v
  unfold override
  split
  case isTrue h => exact (linksFrom_eq_some_iff.mpr ⟨by omega, by omega, by rw [h]⟩).symm
  case isFalse h =>
    unfold linksFrom
    congr 1
    exact propext ⟨fun hv => by omega, fun hv => by omega⟩

/-- The links lead up the search tree. -/
theorem above_of_climbs (hk : 0 < k) (h : LinkForest.Climbs (n.linksFrom k) v u) : n.Above u v := by
  induction h with
  | refl => exact .refl v
  | tail _ ha ih =>
    obtain ⟨hle, hlt, rfl⟩ := linksFrom_eq_some_iff.mp ha
    exact (Above.parent (by omega) hlt).trans ih

/-- The path of a vertex holds those at or above it that are linked. -/
theorem onPath_iff (hn : n.Rooted) (hk : 0 < k) (hv : v < n.size) :
    LinkForest.OnPath (n.linksFrom k) v u ↔ n.Above u v ∧ k ≤ u := by
  constructor
  · intro h
    exact ⟨above_of_climbs hk h.1, (linksFrom_isSome.mp h.2).1⟩
  · rintro ⟨h, hu⟩
    have hle := hn.above_le h
    refine ⟨?_, linksFrom_isSome.mpr ⟨hu, by omega⟩⟩
    induction h with
    | refl => exact .refl
    | tail h hp ih =>
      obtain ⟨h0, hlt, rfl⟩ := hp
      have hup := hn.above_le h
      exact Relation.ReflTransGen.head (linksFrom_eq_some_iff.mpr ⟨by omega, hlt, rfl⟩)
        (ih (Nat.lt_trans (hn.parent_lt _ h0 hlt) hlt) hup)

end Numbering

namespace LinkForest

variable {n : Numbering} {F : LinkForest} {k v a : Nat}

theorem eval_of_linked (h : F.Tracks n k) (hk : k ≤ v) (hv : v < n.size) :
    F.eval v = ((LinkForest.compress v F v).label v, LinkForest.compress v F v) :=
  if_pos ((h.ancestor_isSome hv).mpr hk)

/-- Compression ends. -/
theorem Tracks.compresses (h : F.Tracks n k) (h0 : 0 < k) (hk : k ≤ v) (hv : v < n.size) :
    Compresses F v (F.eval v).2 := by
  rw [eval_of_linked h hk hv]
  refine h.compress_induction h0 (fun v a ha hak => ?_) (fun v a G hka has ha hG hP => ?_) hk hv
    (Nat.le_refl v)
  · exact .top ha.ancestor (h.root a hak).1
  · exact .step ha.ancestor ((h.ancestor_isSome has).mpr hka) hP hG.ancestor

/-- Whether each label is the first vertex of least `semi`: what comes before it has a larger
one. -/
def Nearest (n : Numbering) (F : LinkForest) (k : Nat) : Prop :=
  ∀ j, k ≤ j → j < n.size → ∀ u, n.Above u j → F.label j < u → F.semi (F.label j) < F.semi u

theorem shorten_label_self (F : LinkForest) (v a : Nat) :
    (F.shorten v a).label v = if F.semi (F.label a) < F.semi (F.label v) then F.label a
    else F.label v := by
  unfold shorten
  split
  · exact override_self _ _ _
  · rfl

theorem Nearest.shorten (hn : n.Rooted) (h : F.Nearest n k) (hv : F.Linked n k v a) (hka : k ≤ a)
    (has : a < n.size) : (F.shorten v a).Nearest n k := by
  intro j hj hlt u hu hbefore
  rw [shorten_semi]
  by_cases hjv : j = v
  · subst hjv
    rw [shorten_label_self] at hbefore ⊢
    split at hbefore
    case isTrue hless =>
      rw [if_pos hless]
      -- the label of the ancestor was taken over, so it is less than all that comes before the
      -- ancestor
      rcases Nat.lt_or_ge a u with hau | hua
      · exact Nat.lt_of_lt_of_le hless (hv.least u hu hau).2
      · exact h a hka has u (hn.above_of_le hu hv.above hua) hbefore
    case isFalse hless =>
      rw [if_neg hless]
      exact h j hj hlt u hu hbefore
  · rw [(shorten_frame F hjv).2] at hbefore ⊢
    exact h j hj hlt u hu hbefore

/-- A forest in which queries answer as the links from `k` on were made. -/
structure Faithful (n : Numbering) (F : LinkForest) (k : Nat) : Prop where
  tracks : F.Tracks n k
  nearest : F.Nearest n k

theorem faithful_initial : Faithful n initial n.size :=
  ⟨tracks_initial, fun _ hj hlt => absurd hlt (Nat.not_lt.mpr hj)⟩

theorem Faithful.lower (h : F.Faithful n (k + 1)) (s : Nat) : (F.lower k s).Faithful n (k + 1) := by
  refine ⟨h.tracks.lower s, fun j hj hlt u hu hbefore => ?_⟩
  obtain ⟨a, ha⟩ := h.tracks.linked j hj hlt
  have hlabel := ha.least_label
  have hless := h.nearest j hj hlt u hu hbefore
  have hbefore : F.label j < u := hbefore
  have hself : (F.lower k s).semi (F.label j) = F.semi (F.label j) := override_of_ne _ _ (by omega)
  have hother : (F.lower k s).semi u = F.semi u := override_of_ne _ _ (by omega)
  show (F.lower k s).semi (F.label j) < (F.lower k s).semi u
  rwa [hself, hother]

theorem Faithful.link (hn : n.Rooted) (h : F.Faithful n (k + 1)) (h0 : 0 < k) (hk : k < n.size) :
    (F.link (n.parent k) k).Faithful n k := by
  refine ⟨h.tracks.link hn h0 hk, fun j hj hlt u hu hbefore => ?_⟩
  have hbefore : F.label j < u := hbefore
  rcases Nat.eq_or_lt_of_le hj with rfl | hj
  · have hself := (h.tracks.root k (Nat.lt_succ_self k)).2
    have hle := hn.above_le hu
    omega
  · exact h.nearest j hj hlt u hu hbefore

theorem Faithful.compress (hn : n.Rooted) (h : F.Faithful n k) (h0 : 0 < k) (hk : k ≤ v)
    (hv : v < n.size) :
    (LinkForest.compress v F v).Faithful n k := by
  refine ⟨(h.tracks.compress hn hk hv (Nat.le_refl v) h0).1, ?_⟩
  exact h.tracks.compress_induction (P := fun _ G => G.Nearest n k) h0 (fun _ _ _ _ => h.nearest)
    (fun _ _ _ hka has _ hG hP => hP.shorten hn hG hka has) hk hv (Nat.le_refl v)

theorem Faithful.eval (hn : n.Rooted) (h : F.Faithful n k) (h0 : 0 < k) (hv : v < n.size) :
    (F.eval v).2.Faithful n k := by
  rcases Nat.lt_or_ge v k with hvk | hk
  · have hroot : F.eval v = (v, F) := if_neg (by simp [(h.tracks.root v hvk).1])
    rw [hroot]
    exact h
  · rw [eval_of_linked h.tracks hk hv]
    exact h.compress hn h0 hk hv

/-- A query answers as if no path had been compressed. -/
theorem Faithful.answers (hn : n.Rooted) (h : F.Faithful n k) (h0 : 0 < k) (hv : v < n.size) :
    Answers (n.linksFrom k) F.semi v (F.eval v).1 := by
  obtain ⟨_, hsemi, ⟨hvk, heq⟩ | ⟨hk, hkq, hq, hmin⟩⟩ := h.tracks.eval hn hv h0
  · exact Or.inl ⟨if_neg (by omega), heq⟩
  · refine Or.inr ⟨(Numbering.onPath_iff hn h0 hv).mpr ⟨hq, hkq⟩, fun u hu => ?_,
      fun u hu huq hne => ?_⟩
    · obtain ⟨hu, hku⟩ := (Numbering.onPath_iff hn h0 hv).mp hu
      exact hmin u hu hku
    · obtain ⟨hu, _⟩ := (Numbering.onPath_iff hn h0 hv).mp hu
      have hle := hn.above_le (Numbering.above_of_climbs h0 huq)
      have hless := (h.compress hn h0 hk hv).nearest v hk hv u hu
      rw [eval_of_linked h.tracks hk hv] at hsemi hle hne ⊢
      rw [hsemi] at hless
      exact hless (by omega)

end LinkForest

end KernelIR
