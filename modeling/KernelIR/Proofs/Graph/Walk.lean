import Mathlib.Data.List.Basic
import Mathlib.Tactic.ByContra

namespace KernelIR

/-- A walk along a relation, with the vertices it passes through from the first to the last. -/
inductive Walk {α : Type} (R : α → α → Prop) : α → List α → α → Prop where
  | single (a : α) : Walk R a [a] a
  | cons {a b c : α} {p : List α} (h : R a b) (w : Walk R b p c) : Walk R a (a :: p) c

namespace Walk

variable {α : Type} {R : α → α → Prop} {a b c x : α} {p q : List α}

theorem first_mem (w : Walk R a p b) : a ∈ p := by
  cases w with
  | single => exact List.mem_singleton_self a
  | cons h w => exact List.mem_cons_self

theorem last_mem (w : Walk R a p b) : b ∈ p := by
  induction w with
  | single a => exact List.mem_singleton_self a
  | cons h w ih => exact List.mem_cons_of_mem _ ih

theorem append (w : Walk R a p b) (v : Walk R b q c) :
    ∃ s, Walk R a s c ∧ ∀ x, x ∈ s ↔ x ∈ p ∨ x ∈ q := by
  induction w with
  | single a =>
    refine ⟨q, v, fun x => ?_⟩
    constructor
    · exact Or.inr
    · rintro (hx | hx)
      · rw [List.mem_singleton.mp hx]
        exact v.first_mem
      · exact hx
  | @cons a b' c' p h w ih =>
    obtain ⟨s, hs, hm⟩ := ih v
    refine ⟨a :: s, .cons h hs, fun x => ?_⟩
    rw [List.mem_cons, List.mem_cons, hm, or_assoc]

theorem snoc (w : Walk R a p b) (h : R b c) : Walk R a (p ++ [c]) c := by
  induction w with
  | single a => exact .cons h (.single c)
  | cons h' w ih => exact .cons h' (ih h)

theorem reverse {S : α → α → Prop} (w : Walk R a p b)
    (h : ∀ x ∈ p, ∀ y ∈ p, R x y → S y x) : Walk S b p.reverse a := by
  induction w with
  | single a => exact .single a
  | cons hab w ih =>
    rw [List.reverse_cons]
    have hba := h _ List.mem_cons_self _ (List.mem_cons_of_mem _ w.first_mem) hab
    apply (ih _).snoc hba
    intro x hx y hy
    exact h x (List.mem_cons_of_mem _ hx) y (List.mem_cons_of_mem _ hy)

theorem unsnoc (w : Walk R a p b) :
    (a = b ∧ p = [a]) ∨ ∃ c q, Walk R a q c ∧ R c b ∧ p = q ++ [b] := by
  induction w with
  | single a => exact Or.inl ⟨rfl, rfl⟩
  | @cons a x b p hab w ih =>
    rcases ih with ⟨rfl, rfl⟩ | ⟨c, q, v, e, rfl⟩
    · exact Or.inr ⟨a, [a], .single a, hab, rfl⟩
    · exact Or.inr ⟨c, a :: q, .cons hab v, e, rfl⟩

/-- A walk may be taken along any relation that holds between its vertices. -/
theorem mono {S : α → α → Prop} (w : Walk R a p b)
    (h : ∀ x ∈ p, ∀ y ∈ p, R x y → S x y) : Walk S a p b := by
  induction w with
  | single a => exact .single a
  | cons hab w ih =>
    refine .cons (h _ List.mem_cons_self _ (List.mem_cons_of_mem _ w.first_mem) hab) (ih ?_)
    intro x hx y hy
    exact h x (List.mem_cons_of_mem _ hx) y (List.mem_cons_of_mem _ hy)

/-- A walk splits at each of its vertices. If this is not the last one, the first part is
shorter. -/
theorem split (w : Walk R a p b) (hx : x ∈ p) :
    ∃ q s, Walk R a q x ∧ Walk R x s b ∧ q ⊆ p ∧ s ⊆ p ∧ (x ≠ b → q.length < p.length) := by
  induction w with
  | single a =>
    rw [List.mem_singleton.mp hx]
    exact ⟨[a], [a], .single a, .single a, List.Subset.refl _, List.Subset.refl _,
      fun h => absurd rfl h⟩
  | @cons a b' c' p h w ih =>
    by_cases hxa : x = a
    · subst hxa
      refine ⟨[x], x :: p, .single x, .cons h w, by simp, List.Subset.refl _, fun _ => ?_⟩
      have hp : 0 < p.length := List.length_pos_of_mem w.first_mem
      simp only [List.length_cons, List.length_nil]
      omega
    · have hx' : x ∈ p := (List.mem_cons.mp hx).resolve_left hxa
      obtain ⟨q, s, hq, hs, hqp, hsp, hl⟩ := ih hx'
      refine ⟨a :: q, s, .cons h hq, hs, List.cons_subset_cons a hqp, ?_, fun hne => ?_⟩
      · exact List.subset_cons_of_subset a hsp
      · exact Nat.succ_lt_succ (hl hne)

/-- The part of a walk from the last vertex with some property. -/
theorem since {P : α → Prop} (w : Walk R a p b) (h : ∃ x ∈ p, P x) :
    ∃ x s, P x ∧ Walk R x s b ∧ s ⊆ p ∧ ∀ y ∈ s, P y → y = x := by
  induction w with
  | single a =>
    obtain ⟨x, hx, hp⟩ := h
    rw [List.mem_singleton.mp hx] at hp
    exact ⟨a, [a], hp, .single a, List.Subset.refl _, fun y hy _ => List.mem_singleton.mp hy⟩
  | @cons a b' c' p hab w ih =>
    by_cases hq : ∃ x ∈ p, P x
    · obtain ⟨x, s, hp, hs, hsp, hl⟩ := ih hq
      exact ⟨x, s, hp, hs, List.subset_cons_of_subset a hsp, hl⟩
    · obtain ⟨x, hx, hp⟩ := h
      have hxa : x = a := (List.mem_cons.mp hx).resolve_right fun hxp => hq ⟨x, hxp, hp⟩
      subst hxa
      refine ⟨x, x :: p, hp, .cons hab w, List.Subset.refl _, fun y hy hpy => ?_⟩
      exact (List.mem_cons.mp hy).resolve_right fun hyp => hq ⟨y, hyp, hpy⟩

/-- The part of a walk after it leaves a vertex for the last time. -/
theorem leave (w : Walk R a p b) (hx : x ∈ p) :
    x = b ∨ ∃ c s, R x c ∧ Walk R c s b ∧ s ⊆ p ∧ x ∉ s := by
  induction w with
  | single a => exact Or.inl (List.mem_singleton.mp hx)
  | @cons a b' c' p hab w ih =>
    by_cases hxp : x ∈ p
    · rcases ih hxp with he | ⟨c, s, e, v, hsp, hs⟩
      · exact Or.inl he
      · exact Or.inr ⟨c, s, e, v, List.subset_cons_of_subset a hsp, hs⟩
    · have hxa : x = a := (List.mem_cons.mp hx).resolve_right hxp
      subst hxa
      exact Or.inr ⟨b', p, hab, w, List.subset_cons_self x p, hxp⟩

/-- What is closed along the relation holds at every vertex of a walk that starts with it. -/
theorem closed {P : α → Prop} (w : Walk R a p b) (ha : P a)
    (h : ∀ x y, P x → R x y → P y) : ∀ x ∈ p, P x := by
  induction w with
  | single a => intro x hx; rw [List.mem_singleton.mp hx]; exact ha
  | cons hab w ih =>
    intro x hx
    rcases List.mem_cons.mp hx with rfl | hx
    · exact ha
    · exact ih (h _ _ ha hab) x hx

theorem map {β : Type} {S : β → β → Prop} (f : α → β) (h : ∀ x y, R x y → S (f x) (f y))
    (w : Walk R a p b) : Walk S (f a) (p.map f) (f b) := by
  induction w with
  | single a => exact .single (f a)
  | cons hab w ih => exact .cons (h _ _ hab) ih

/-- A walk between images is the image of a walk, if the relation can be followed back among the
vertices with some property. -/
theorem lift {β : Type} {S : β → β → Prop} {P : α → Prop} (f : α → β)
    (h : ∀ x y, P x → S (f x) y → ∃ z, R x z ∧ P z ∧ f z = y)
    {u v : β} {q : List β} (w : Walk S u q v) (hp : P a) (ha : f a = u) :
    ∃ p b, Walk R a p b ∧ p.map f = q ∧ P b ∧ f b = v := by
  induction w generalizing a with
  | single u => exact ⟨[a], a, .single a, by simp [ha], hp, ha⟩
  | cons huv w ih =>
    obtain ⟨z, hz, hpz, hzv⟩ := h a _ hp (ha ▸ huv)
    obtain ⟨p, b, hw, hq, hb⟩ := ih hpz hzv
    exact ⟨a :: p, b, .cons hz hw, by simp [ha, hq], hb⟩

end Walk

variable {α : Type} (R : α → α → Prop) (r : α)

/-- Whether a vertex can be reached from the root. -/
def Reaches (b : α) : Prop := ∃ p, Walk R r p b

/-- Whether every walk from the root to `b` passes through `a`. -/
def Dominates (a b : α) : Prop := ∀ p, Walk R r p b → a ∈ p

def StrictlyDominates (a b : α) : Prop := a ≠ b ∧ Dominates R r a b

/-- The strict dominator that every other one dominates. -/
structure ImmediatelyDominates (d b : α) : Prop where
  strict : StrictlyDominates R r d b
  closest : ∀ c, StrictlyDominates R r c b → Dominates R r c d

variable {R r} {a b c d : α}

theorem Reaches.root : Reaches R r r := ⟨[r], .single r⟩

namespace Dominates

theorem refl (a : α) : Dominates R r a a := fun _ w => w.last_mem

theorem root_iff : Dominates R r a r ↔ a = r := by
  constructor
  · exact fun h => List.mem_singleton.mp (h [r] (.single r))
  · intro h
    rw [h]
    exact refl r

theorem trans (h : Dominates R r a b) (k : Dominates R r b c) : Dominates R r a c := by
  intro p w
  obtain ⟨q, _, hq, _, hqp, _⟩ := w.split (k p w)
  exact hqp (h q hq)

theorem reaches (h : Dominates R r a b) (hb : Reaches R r b) : Reaches R r a := by
  obtain ⟨p, w⟩ := hb
  obtain ⟨q, _, hq, _⟩ := w.split (h p w)
  exact ⟨q, hq⟩

theorem antisymm (h : Dominates R r a b) (k : Dominates R r b a) (hb : Reaches R r b) : a = b := by
  -- the walk to `b` leads through `a`, and the part up to there through `b` again, each time
  -- shorter
  by_contra hne
  have descent : ∀ n p, p.length = n → ¬Walk R r p b := by
    intro n
    induction n using Nat.strongRecOn with
    | _ n ih =>
      intro p hp w
      obtain ⟨q, _, hq, _, _, _, hl⟩ := w.split (h p w)
      obtain ⟨s, _, hs, _, _, _, hl'⟩ := hq.split (k q hq)
      have hqn : q.length < n := hp ▸ hl hne
      exact ih s.length (Nat.lt_trans (hl' (Ne.symm hne)) hqn) s rfl hs
  obtain ⟨p, w⟩ := hb
  exact descent p.length p rfl w

/-- A strict dominator of a block dominates the blocks before it. -/
theorem pred (h : Dominates R r a c) (hne : a ≠ c) (e : R b c) : Dominates R r a b := by
  intro p w
  rcases List.mem_append.mp (h _ (w.snoc e)) with ha | ha
  · exact ha
  · exact absurd (List.mem_singleton.mp ha) hne

/-- What dominates all the blocks before a block but those that the block dominates itself dominates
the block. -/
theorem of_preds (hne : r ≠ b)
    (h : ∀ c, Reaches R r c → R c b → Dominates R r a c ∨ Dominates R r b c) :
    Dominates R r a b := by
  -- a walk that comes by `b` a first time comes from one of the others
  have hit : ∀ n p, p.length = n → Walk R r p b → a ∈ p := by
    intro n
    induction n using Nat.strongRecOn with
    | _ n ih =>
      intro p hp w
      rcases w.unsnoc with ⟨he, _⟩ | ⟨c, q, v, e, rfl⟩
      · exact absurd he hne
      · rcases h c ⟨q, v⟩ e with ha | hb
        · exact List.mem_append_left _ (ha q v)
        · rw [List.length_append, List.length_singleton] at hp
          apply List.mem_append_left
          by_cases hbc : b = c
          · subst hbc
            exact ih q.length (by omega) q rfl v
          · obtain ⟨s, _, hs, _, hsq, _, hlt⟩ := v.split (hb q v)
            have hlt := hlt hbc
            exact hsq (ih s.length (by omega) s rfl hs)
  intro p w
  exact hit p.length p rfl w

/-- A dominator of the last vertex of a walk is on the walk, or dominates the first vertex. -/
theorem of_walk {p : List α} (h : Dominates R r a c) (w : Walk R b p c) :
    a ∈ p ∨ Dominates R r a b := by
  by_cases ha : a ∈ p
  · exact Or.inl ha
  · refine Or.inr fun q v => ?_
    obtain ⟨s, hs, hm⟩ := v.append w
    exact ((hm a).mp (h s hs)).resolve_right ha

/-- The dominators of a block are in a line. -/
theorem linear (h : Dominates R r a c) (k : Dominates R r b c) (hc : Reaches R r c) :
    Dominates R r a b ∨ Dominates R r b a := by
  -- of two, the one that a walk meets last is dominated by the other
  by_cases hab : a = b
  · exact Or.inl (hab ▸ refl a)
  obtain ⟨p, w⟩ := hc
  obtain ⟨x, s, hx, v, _, hl⟩ := w.since (P := fun y => y = a ∨ y = b) ⟨a, h p w, Or.inl rfl⟩
  rcases hx with rfl | rfl
  · exact Or.inr ((k.of_walk v).resolve_left fun hb => hab (hl b hb (Or.inr rfl)).symm)
  · exact Or.inl ((h.of_walk v).resolve_left fun ha => hab (hl a ha (Or.inl rfl)))

end Dominates

theorem ImmediatelyDominates.unique (h : ImmediatelyDominates R r c b)
    (k : ImmediatelyDominates R r d b) (hb : Reaches R r b) : c = d :=
  (k.closest c h.strict).antisymm (h.closest d k.strict) (k.strict.2.reaches hb)

end KernelIR
