import KernelIR.Proofs.Graph.Walk

namespace KernelIR

variable {α : Type}

/-- Whether `S` is `R` with a new vertex `p`, through which the edges from `out` to `h` lead
instead. -/
structure Detour (R S : α → α → Prop) (h p : α) (out : α → Prop) : Prop where
  fresh : ∀ a b, R a b → a ≠ p ∧ b ≠ p
  target : h ≠ p
  leaves : ∀ b, S p b ↔ b = h
  enters : ∀ a, S a p ↔ R a h ∧ out a
  keeps : ∀ a b, a ≠ p → b ≠ p → (S a b ↔ R a b ∧ ¬(b = h ∧ out a))

namespace Detour

variable [DecidableEq α] {R S : α → α → Prop} {h p r a b : α} {out : α → Prop} {q : List α}

/-- A walk takes the detour wherever it has to. -/
theorem lift (d : Detour R S h p out) (w : Walk R a q b) (ha : a ≠ p) :
    ∃ s, Walk S a s b ∧ s.filter (· ≠ p) = q := by
  induction w with
  | single a => exact ⟨[a], .single a, List.filter_cons_of_pos (by simpa using ha)⟩
  | @cons a c b q e w ih =>
    have hc := (d.fresh a c e).2
    obtain ⟨s, v, rfl⟩ := ih hc
    have hcons : ∀ t : List α, (a :: t).filter (· ≠ p) = a :: t.filter (· ≠ p) :=
      fun t => List.filter_cons_of_pos (by simpa using ha)
    by_cases hout : c = h ∧ out a
    · obtain ⟨rfl, hout⟩ := hout
      refine ⟨a :: p :: s, .cons ((d.enters a).mpr ⟨e, hout⟩) (.cons ((d.leaves c).mpr rfl) v), ?_⟩
      rw [hcons, List.filter_cons_of_neg (by simp)]
    · exact ⟨a :: s, .cons ((d.keeps a c ha hc).mpr ⟨e, hout⟩) v, hcons s⟩

/-- Without the detour a walk between old vertices is an old one; from the detour on it starts at
`h`. -/
theorem erase (d : Detour R S h p out) (w : Walk S a q b) (hb : b ≠ p) :
    (a ≠ p → Walk R a (q.filter (· ≠ p)) b) ∧ (a = p → Walk R h (q.filter (· ≠ p)) b) := by
  induction w with
  | single a =>
    refine ⟨fun ha => ?_, fun ha => absurd ha hb⟩
    rw [List.filter_cons_of_pos (by simpa using ha)]
    exact .single a
  | @cons a c b q e w ih =>
    obtain ⟨hold, hnew⟩ := ih hb
    constructor
    · intro ha
      rw [List.filter_cons_of_pos (by simpa using ha)]
      by_cases hc : c = p
      · subst hc
        exact .cons ((d.enters a).mp e).1 (hnew rfl)
      · exact .cons ((d.keeps a c ha hc).mp e).1 (hold hc)
    · intro ha
      subst ha
      have hch := (d.leaves c).mp e
      subst hch
      rw [List.filter_cons_of_neg (by simp)]
      exact hold d.target

/-- Old vertices dominate each other as before. -/
theorem dominates_iff (d : Detour R S h p out) (hr : r ≠ p) (ha : a ≠ p) (hb : b ≠ p) :
    Dominates S r a b ↔ Dominates R r a b := by
  constructor
  · intro hdom q w
    obtain ⟨s, v, rfl⟩ := d.lift w hr
    exact List.mem_filter.mpr ⟨hdom s v, by simpa using ha⟩
  · intro hdom q w
    exact List.mem_of_mem_filter (hdom _ ((d.erase w hb).1 hr))

/-- What dominates all that enter the detour dominates it. -/
theorem dominates_new (d : Detour R S h p out) (hr : r ≠ p) (ha : a ≠ p)
    (hdom : ∀ c, R c h → out c → Dominates R r a c) : Dominates S r a p := by
  apply Dominates.of_preds hr
  intro c _ e
  obtain ⟨hc, hout⟩ := (d.enters c).mp e
  exact Or.inl ((d.dominates_iff hr ha (d.fresh c h hc).1).mpr (hdom c hc hout))

end Detour

end KernelIR
