import Mathlib.Logic.Relation
import KernelIR.Graph.Dominators
import KernelIR.Proofs.Graph.Walk

namespace KernelIR

namespace Numbering

variable (n : Numbering)

/-- The edges of the numbered graph. -/
def Edge (v w : Nat) : Prop := w < n.size ∧ v ∈ n.preds w

/-- Whether `a` is `b` or above it in the search tree. -/
def Above : Nat → Nat → Prop :=
  Relation.ReflTransGen fun a b => 0 < b ∧ b < n.size ∧ n.parent b = a

/-- What a depth-first search guarantees: an edge to a larger number leads down the tree, and the
vertices below a vertex are an interval of numbers. -/
structure IsSearch : Prop where
  parent_lt : ∀ i, 0 < i → i < n.size → n.parent i < i
  parent_edge : ∀ i, 0 < i → i < n.size → n.parent i ∈ n.preds i
  preds_lt : ∀ i v, i < n.size → v ∈ n.preds i → v < n.size
  forward : ∀ i v, i < n.size → v ∈ n.preds i → v < i → n.Above v i
  between : ∀ a b c, b < n.size → n.Above a b → a ≤ c → c ≤ b → n.Above a c

/-- What every numbering by a search guarantees, whatever order it took: a parent comes before its
children, and predecessors are vertices. -/
structure Rooted : Prop where
  parent_lt : ∀ i, 0 < i → i < n.size → n.parent i < i
  preds_lt : ∀ i v, i < n.size → v ∈ n.preds i → v < n.size

/-- Whether `v` leads to `w` through vertices larger than `w` only. -/
inductive Bypass : Nat → Nat → Prop where
  | edge {v w : Nat} (h : n.Edge v w) : Bypass v w
  | step {v u w : Nat} (h : n.Edge v u) (hu : w < u) (b : Bypass u w) : Bypass v w

/-- The semidominator: the least vertex that leads to `w` in this way. -/
structure IsSemi (s w : Nat) : Prop where
  bypass : n.Bypass s w
  least : ∀ v, n.Bypass v w → s ≤ v

variable {n} {a b c d s t u v w x z : Nat}

theorem Above.refl (a : Nat) : n.Above a a := Relation.ReflTransGen.refl

theorem Above.trans (h : n.Above a b) (k : n.Above b c) : n.Above a c :=
  Relation.ReflTransGen.trans h k

theorem Above.parent (h : 0 < w) (hw : w < n.size) : n.Above (n.parent w) w :=
  Relation.ReflTransGen.single ⟨h, hw, rfl⟩

/-- The vertices above a vertex other than itself are those above its parent. -/
theorem Above.eq_or_parent (h : n.Above a w) :
    a = w ∨ (0 < w ∧ w < n.size ∧ n.Above a (n.parent w)) := by
  rcases Relation.ReflTransGen.cases_tail h with he | ⟨c, hc, hp⟩
  · exact Or.inl he.symm
  · obtain ⟨h0, hw, rfl⟩ := hp
    exact Or.inr ⟨h0, hw, hc⟩

namespace Rooted

variable (hn : n.Rooted)

include hn

theorem above_le (h : n.Above a b) : a ≤ b := by
  induction h with
  | refl => exact Nat.le_refl a
  | tail _ hp ih =>
    obtain ⟨h0, hw, rfl⟩ := hp
    exact Nat.le_trans ih (Nat.le_of_lt (hn.parent_lt _ h0 hw))

/-- Of two vertices above a third the smaller is above the larger. -/
theorem above_of_le (ha : n.Above a w) (hb : n.Above b w) (h : a ≤ b) : n.Above a b := by
  induction hb with
  | refl => exact ha
  | tail hb hp ih =>
    obtain ⟨h0, hw, rfl⟩ := hp
    rcases ha.eq_or_parent with rfl | ⟨_, _, ha⟩
    · have hle := hn.above_le hb
      have hlt := hn.parent_lt _ h0 hw
      omega
    · exact ih ha

end Rooted

theorem Bypass.target_lt (h : n.Bypass v w) : w < n.size := by
  induction h with
  | edge h => exact h.1
  | step _ _ _ ih => exact ih

theorem Bypass.walk (h : n.Bypass v w) :
    ∃ p, Walk n.Edge v p w ∧ ∀ x ∈ p, x = v ∨ x = w ∨ w < x := by
  induction h with
  | @edge v w h =>
    refine ⟨[v, w], .cons h (.single w), fun x hx => ?_⟩
    rcases List.mem_cons.mp hx with hx | hx
    · exact Or.inl hx
    · exact Or.inr (Or.inl (List.mem_singleton.mp hx))
  | @step v u w h hu b ih =>
    obtain ⟨p, hp, hm⟩ := ih
    refine ⟨v :: p, .cons h hp, fun x hx => ?_⟩
    rcases List.mem_cons.mp hx with hx | hx
    · exact Or.inl hx
    · rcases hm x hx with rfl | hx
      · exact Or.inr (Or.inr hu)
      · exact Or.inr hx

namespace IsSearch

variable (hn : n.IsSearch)

include hn

theorem rooted : n.Rooted := ⟨hn.parent_lt, hn.preds_lt⟩

theorem above_le (h : n.Above a b) : a ≤ b := hn.rooted.above_le h

theorem zero_above (hw : w < n.size) : n.Above 0 w := by
  induction w using Nat.strongRecOn with
  | _ w ih =>
    rcases Nat.eq_zero_or_pos w with rfl | h0
    · exact .refl 0
    · have hp := hn.parent_lt w h0 hw
      exact (ih _ hp (Nat.lt_trans hp hw)).trans (.parent h0 hw)

/-- Of two vertices above a third the smaller is above the larger. -/
theorem above_of_le (hw : w < n.size) (ha : n.Above a w) (hb : n.Above b w) (h : a ≤ b) :
    n.Above a b :=
  hn.between a w b hw ha h (hn.above_le hb)

theorem edge_parent (h : 0 < w) (hw : w < n.size) : n.Edge (n.parent w) w :=
  ⟨hw, hn.parent_edge w h hw⟩

theorem above_walk (h : n.Above a b) :
    ∃ p, Walk n.Edge a p b ∧ ∀ x ∈ p, n.Above a x ∧ n.Above x b := by
  induction h with
  | refl =>
    refine ⟨[a], .single a, fun x hx => ?_⟩
    rw [List.mem_singleton.mp hx]
    exact ⟨.refl a, .refl a⟩
  | @tail b c h hp ih =>
    obtain ⟨p, w, hm⟩ := ih
    obtain ⟨h0, hc, rfl⟩ := hp
    refine ⟨p ++ [c], w.snoc (hn.edge_parent h0 hc), fun x hx => ?_⟩
    rcases List.mem_append.mp hx with hx | hx
    · exact ⟨(hm x hx).1, (hm x hx).2.trans (.parent h0 hc)⟩
    · rw [List.mem_singleton.mp hx]
      exact ⟨Above.trans h (.parent h0 hc), .refl c⟩

theorem reaches (hw : w < n.size) : Reaches n.Edge 0 w := by
  obtain ⟨p, v, _⟩ := hn.above_walk (hn.zero_above hw)
  exact ⟨p, v⟩

/-- A smaller vertex that leads to `w` through larger ones is above it. -/
theorem bypass_above (h : n.Bypass v w) (hv : v < w) : n.Above v w := by
  cases h with
  | edge h => exact hn.forward w v h.1 h.2 hv
  | step h hu b =>
    exact hn.between v _ w h.1 (hn.forward _ v h.1 h.2 (Nat.lt_trans hv hu)) (Nat.le_of_lt hv)
      (Nat.le_of_lt hu)

theorem semi_lt (h : n.IsSemi s w) (h0 : 0 < w) : s < w :=
  Nat.lt_of_le_of_lt (h.least _ (.edge (hn.edge_parent h0 h.bypass.target_lt)))
    (hn.parent_lt w h0 h.bypass.target_lt)

theorem semi_above (h : n.IsSemi s w) (h0 : 0 < w) : n.Above s w :=
  hn.bypass_above h.bypass (hn.semi_lt h h0)

/-- A vertex that leads to `u` through larger ones is larger itself or on the tree path that `u` is
on. -/
theorem landing_step (e : n.Edge z x) (huv : n.Above u v) (h : x = u ∨ u < x ∧ n.Bypass x u) :
    n.Bypass z u ∧ (n.Above z v ∨ u < z) := by
  have hb : n.Bypass z u := by
    rcases h with rfl | ⟨hx, hb⟩
    · exact .edge e
    · exact .step e hx hb
  refine ⟨hb, ?_⟩
  rcases Nat.lt_trichotomy z u with h | rfl | h
  · exact Or.inl ((hn.bypass_above hb h).trans huv)
  · exact Or.inl huv
  · exact Or.inr h

/-- Where a walk to `v`, in its last part among the vertices from `t` on, first meets the tree path
to `v`: it reaches that vertex through larger ones only. -/
theorem landing {p : List Nat} (w : Walk n.Edge z p v) (ht : t ≤ v) :
    ∃ u ∈ p, t ≤ u ∧ n.Above u v ∧
      ((∃ x, x < t ∧ n.Bypass x u) ∨ t ≤ z ∧ (z = u ∨ u < z ∧ n.Bypass z u)) := by
  induction w with
  | single v => exact ⟨v, List.mem_singleton_self v, ht, .refl v, Or.inr ⟨ht, Or.inl rfl⟩⟩
  | @cons z x v p e w ih =>
    obtain ⟨u, hu, htu, huv, h | ⟨_, h⟩⟩ := ih ht
    · exact ⟨u, List.mem_cons_of_mem z hu, htu, huv, Or.inl h⟩
    · obtain ⟨hb, hc⟩ := hn.landing_step e huv h
      by_cases hz : z < t
      · exact ⟨u, List.mem_cons_of_mem z hu, htu, huv, Or.inl ⟨z, hz, hb⟩⟩
      · have hz' : t ≤ z := Nat.le_of_not_lt hz
        rcases hc with hc | hc
        · exact ⟨z, List.mem_cons_self, hz', hc, Or.inr ⟨hz', Or.inl rfl⟩⟩
        · exact ⟨u, List.mem_cons_of_mem z hu, htu, huv, Or.inr ⟨hz', Or.inr ⟨hc, hb⟩⟩⟩

/-- What leads to `w` from a larger vertex comes down a tree path to a predecessor of `w`. -/
theorem bypass_landing (h : n.Bypass z w) (hz : w < z) :
    ∃ v ∈ n.preds w, ∃ u, w < u ∧ n.Above u v ∧ (z = u ∨ u < z ∧ n.Bypass z u) := by
  induction h with
  | @edge z w h => exact ⟨z, h.2, z, hz, .refl z, Or.inl rfl⟩
  | @step z x w e hx _ ih =>
    obtain ⟨v, hv, u, hu, huv, h⟩ := ih hx
    obtain ⟨hb, hc | hc⟩ := hn.landing_step e huv h
    · exact ⟨v, hv, z, hz, hc, Or.inl rfl⟩
    · exact ⟨v, hv, u, hu, huv, Or.inr ⟨hc, hb⟩⟩

/-- How a semidominator is found: it is a bound for the smaller predecessors and for the
semidominators on the tree paths to the larger ones, and it is reached. -/
theorem isSemi_of_preds (hs : n.Bypass s w) (hsw : s ≤ w) (hsmall : ∀ v ∈ n.preds w, v < w → s ≤ v)
    (hlarge : ∀ v ∈ n.preds w, ∀ u x, w < u → n.Above u v → n.Bypass x u → s ≤ x) :
    n.IsSemi s w := by
  refine ⟨hs, fun x hx => ?_⟩
  cases hx with
  | edge h =>
    by_cases hv : x < w
    · exact hsmall x h.2 hv
    · exact Nat.le_trans hsw (Nat.le_of_not_lt hv)
  | @step _ y _ e hy b =>
    obtain ⟨v, hv, u, hu, huv, h⟩ := hn.bypass_landing b hy
    exact hlarge v hv u x hu huv (hn.landing_step e huv h).1

theorem bypass_down (huv : n.Above u v) (hwu : w < u) (e : n.Edge v w) : n.Bypass u w := by
  induction huv using Relation.ReflTransGen.head_induction_on with
  | refl => exact .edge e
  | @head a b hab _ ih =>
    obtain ⟨h0, hb, rfl⟩ := hab
    have hlt := Nat.lt_trans hwu (hn.parent_lt b h0 hb)
    exact .step (hn.edge_parent h0 hb) hlt (ih hlt)

/-- What leads around `u` leads around a smaller vertex with a predecessor below `u`. -/
theorem bypass_of_above (hx : n.Bypass x u) (huv : n.Above u v) (hwu : w < u) (e : n.Edge v w) :
    n.Bypass x w := by
  have down := hn.bypass_down huv hwu e
  induction hx with
  | edge h => exact .step h hwu down
  | step h hy _ ih => exact .step h (Nat.lt_trans hwu hy) (ih huv hwu down)

theorem dominates_above (h : Dominates n.Edge 0 d w) (hw : w < n.size) : n.Above d w := by
  obtain ⟨p, v, hm⟩ := hn.above_walk (hn.zero_above hw)
  exact (hm d (h p v)).2

/-- A dominator of `w` dominates the larger vertices on the tree path to `w`. -/
theorem dominates_of_above (h : Dominates n.Edge 0 d w) (hu : n.Above u w) (hd : d < u) :
    Dominates n.Edge 0 d u := by
  obtain ⟨p, v, hm⟩ := hn.above_walk hu
  exact (h.of_walk v).resolve_left fun hp => Nat.not_lt.mpr (hn.above_le (hm d hp).1) hd

/-- A strict dominator is at or above the semidominator: one walk goes down the tree to it and then
around all that lies between. -/
theorem strict_above_semi (hs : n.IsSemi s w) (h0 : 0 < w) (h : StrictlyDominates n.Edge 0 d w) :
    n.Above d s := by
  have hw := hs.bypass.target_lt
  have hd := hn.above_le (hn.dominates_above h.2 hw)
  obtain ⟨p, v, hm⟩ := hs.bypass.walk
  rcases h.2.of_walk v with hp | hp
  · rcases hm d hp with rfl | he | hlt
    · exact .refl d
    · exact absurd he h.1
    · exact absurd hlt (Nat.not_lt.mpr hd)
  · exact hn.dominates_above hp (Nat.lt_trans (hn.semi_lt hs h0) hw)

/-- If no vertex between the semidominator `s` and `w` can be reached from above `s`, then `s` is
the immediate dominator. -/
theorem immediate_of_semi (hs : n.IsSemi s w) (h0 : 0 < w)
    (hmin : ∀ u x, s < u → n.Above u w → n.Bypass x u → s ≤ x) :
    ImmediatelyDominates n.Edge 0 s w := by
  have hsw := hn.semi_lt hs h0
  have dom : Dominates n.Edge 0 s w := by
    intro p v
    obtain ⟨u, hu, hsu, huw, ⟨x, hx, hb⟩ | ⟨hz, h⟩⟩ := hn.landing v (Nat.le_of_lt hsw)
    · rcases Nat.eq_or_lt_of_le hsu with rfl | hsu
      · exact hu
      · exact absurd (hmin u x hsu huw hb) (Nat.not_le.mpr hx)
    · rw [Nat.le_zero.mp hz]
      exact v.first_mem
  refine ⟨⟨Nat.ne_of_lt hsw, dom⟩, fun c hc => ?_⟩
  have hcs := hn.strict_above_semi hs h0 hc
  rcases Nat.eq_or_lt_of_le (hn.above_le hcs) with rfl | hlt
  · exact Dominates.refl c
  · exact hn.dominates_of_above hc.2 (hn.semi_above hs h0) hlt

/-- Otherwise `w` has the strict dominators of a vertex in between whose semidominator is least. -/
theorem strict_iff_of_semi (hs : n.IsSemi s w) (h0 : 0 < w) (hsu : s < u) (huw : n.Above u w)
    (ht : n.IsSemi t u) (hts : t ≤ s)
    (hmin : ∀ y x, s < y → n.Above y w → n.Bypass x y → t ≤ x) :
    StrictlyDominates n.Edge 0 d w ↔ StrictlyDominates n.Edge 0 d u := by
  have hw := hs.bypass.target_lt
  have hu0 : 0 < u := Nat.zero_lt_of_lt hsu
  constructor
  · intro h
    have hlt := Nat.lt_of_le_of_lt (hn.above_le (hn.strict_above_semi hs h0 h)) hsu
    exact ⟨Nat.ne_of_lt hlt, hn.dominates_of_above h.2 huw hlt⟩
  · intro h
    have hdt := hn.above_le (hn.strict_above_semi ht hu0 h)
    have huw' := hn.above_le huw
    have hdw : d < w := by omega
    refine ⟨Nat.ne_of_lt hdw, fun p v => ?_⟩
    obtain ⟨y, hy, hdy, hyw, ⟨x, hx, hb⟩ | ⟨hz, h'⟩⟩ := hn.landing v (Nat.le_of_lt hdw)
    · rcases Nat.eq_or_lt_of_le hdy with rfl | hdy
      · exact hy
      · -- from `x` above `d` a walk leads around `y` and down to `u`, past `d`
        exfalso
        have hys : y ≤ s := by
          by_contra hlt
          have := hmin y x (Nat.lt_of_not_le hlt) hyw hb
          omega
        obtain ⟨q, vq, hq⟩ := hb.walk
        obtain ⟨q', vq', hq'⟩ := hn.above_walk (hn.above_of_le hw hyw huw (by omega))
        have hdy' : Dominates n.Edge 0 d y := by
          refine (h.2.of_walk vq').resolve_left fun hd => ?_
          exact Nat.not_lt.mpr (hn.above_le (hq' d hd).1) hdy
        have hdx : Dominates n.Edge 0 d x := by
          refine (hdy'.of_walk vq).resolve_left fun hd => ?_
          rcases hq d hd with he | he | he <;> omega
        have hxs : x < n.size := by omega
        exact Nat.not_lt.mpr (hn.above_le (hn.dominates_above hdx hxs)) hx
    · rw [Nat.le_zero.mp hz]
      exact v.first_mem

end IsSearch

end Numbering

end KernelIR
