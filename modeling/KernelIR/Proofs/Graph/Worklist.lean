import KernelIR.Graph.Search
import KernelIR.Proofs.Graph.Walk

namespace KernelIR

variable {α : Type} {keys queue seen : List α} {next : α → List α} {x : α}

/-- Whether a walk along `next` leads from the queue to `x` through keys that are not yet seen. -/
def Waiting (keys : List α) (next : α → List α) (queue seen : List α) (x : α) : Prop :=
  ∃ q ∈ queue, ∃ p, Walk (fun a b => b ∈ next a) q p x ∧ ∀ y ∈ p, y ∈ keys ∧ y ∉ seen

/-- Taking a new vertex off the queue, what waits is the vertex itself and what waits behind it or
the rest of the queue. -/
theorem waiting_take {b : α} (hb : b ∈ keys ∧ b ∉ seen) :
    Waiting keys next (b :: queue) seen x ↔
      x = b ∨ Waiting keys next (queue ++ next b) (seen ++ [b]) x := by
  -- a walk through the vertex is cut where it leaves it for the last time
  constructor
  · intro h
    obtain ⟨q, hq, p, w, hp⟩ := h
    by_cases hbp : b ∈ p
    · rcases w.leave hbp with he | ⟨c, s, e, v, hsp, hs⟩
      · exact Or.inl he.symm
      · right
        refine ⟨c, List.mem_append_right _ e, s, v, fun z hz => ⟨(hp z (hsp hz)).1, fun hzs => ?_⟩⟩
        rcases List.mem_append.mp hzs with hzs | hzs
        · exact (hp z (hsp hz)).2 hzs
        · exact hs (List.mem_singleton.mp hzs ▸ hz)
    · right
      have hqb : q ≠ b := fun he => hbp (he ▸ w.first_mem)
      have hqq : q ∈ queue := (List.mem_cons.mp hq).resolve_left hqb
      refine ⟨q, List.mem_append_left _ hqq, p, w, fun y hy => ⟨(hp y hy).1, fun hys => ?_⟩⟩
      rcases List.mem_append.mp hys with hys | hys
      · exact (hp y hy).2 hys
      · exact hbp (List.mem_singleton.mp hys ▸ hy)
  · intro h
    rcases h with rfl | ⟨q, hq, p, w, hp⟩
    · refine ⟨x, List.mem_cons_self, [x], .single x, fun y hy => ?_⟩
      rw [List.mem_singleton.mp hy]
      exact hb
    · have hold : ∀ y ∈ p, y ∈ keys ∧ y ∉ seen := fun y hy =>
        ⟨(hp y hy).1, fun hys => (hp y hy).2 (List.mem_append_left _ hys)⟩
      rcases List.mem_append.mp hq with hq | hq
      · exact ⟨q, List.mem_cons_of_mem _ hq, p, w, hold⟩
      · refine ⟨b, List.mem_cons_self, b :: p, .cons hq w, fun y hy => ?_⟩
        rcases List.mem_cons.mp hy with rfl | hy
        · exact hb
        · exact hold y hy

theorem waiting_skip {b : α} (hb : ¬(b ∈ keys ∧ b ∉ seen)) :
    Waiting keys next (b :: queue) seen x ↔ Waiting keys next queue seen x := by
  constructor
  · intro h
    obtain ⟨q, hq, p, w, hp⟩ := h
    rcases List.mem_cons.mp hq with rfl | hq
    · exact absurd (hp q w.first_mem) hb
    · exact ⟨q, hq, p, w, hp⟩
  · intro h
    obtain ⟨q, hq, p, w, hp⟩ := h
    exact ⟨q, List.mem_cons_of_mem _ hq, p, w, hp⟩

variable [DecidableEq α]

theorem mem_breadthFirst : x ∈ breadthFirst id keys next queue seen ↔
    x ∈ seen ∨ Waiting keys next queue seen x := by
  induction queue, seen using breadthFirst.induct id keys next with
  | case1 seen =>
    rw [breadthFirst]
    constructor
    · exact Or.inl
    · intro h
      rcases h with h | ⟨q, hq, _⟩
      · exact h
      · exact absurd hq List.not_mem_nil
  | case2 seen b queue hb ih =>
    have hb' : b ∈ keys ∧ b ∉ seen := by simpa using hb
    rw [breadthFirst, dif_pos hb, ih, waiting_take hb', List.mem_append,
      List.mem_singleton, or_assoc]
  | case3 seen b queue hb ih =>
    have hb' : ¬(b ∈ keys ∧ b ∉ seen) := by simpa using hb
    rw [breadthFirst, dif_neg hb, ih, waiting_skip hb']

theorem nodup_breadthFirst (h : seen.Nodup) : (breadthFirst id keys next queue seen).Nodup := by
  induction queue, seen using breadthFirst.induct id keys next with
  | case1 seen =>
    rw [breadthFirst]
    exact h
  | case2 seen b queue hb ih =>
    rw [breadthFirst, dif_pos hb]
    apply ih
    have hbs : b ∉ seen := by simpa using hb.2
    rw [List.nodup_append]
    refine ⟨h, by simp, fun y hy z hz he => ?_⟩
    rw [List.mem_singleton.mp hz] at he
    exact hbs (he ▸ hy)
  | case3 seen b queue hb ih =>
    rw [breadthFirst, dif_neg hb]
    exact ih h

/-- Where keys tell vertices apart, a search by keys is one by the vertices themselves. -/
theorem breadthFirst_eq_of_key {κ : Type} [DecidableEq κ] {key : α → κ} {ks : List κ} {P : α → Prop}
    (hinj : ∀ a b, P a → P b → key a = key b → a = b) (hkeys : ∀ a, P a → (key a ∈ ks ↔ a ∈ keys))
    (hnext : ∀ a, P a → ∀ b ∈ next a, P b) (hqueue : ∀ a ∈ queue, P a) (hseen : ∀ a ∈ seen, P a) :
    breadthFirst key ks next queue seen = breadthFirst id keys next queue seen := by
  induction queue, seen using breadthFirst.induct key ks next with
  | case1 seen => rw [breadthFirst, breadthFirst]
  | case2 seen b queue hb ih =>
    have hPb := hqueue b List.mem_cons_self
    have hb' : id b ∈ keys ∧ id b ∉ seen.map id := by
      rw [List.map_id]
      exact ⟨(hkeys b hPb).mp hb.1, fun hin => hb.2 (List.mem_map_of_mem hin)⟩
    rw [breadthFirst, dif_pos hb, breadthFirst, dif_pos hb']
    apply ih
    · intro a ha
      rcases List.mem_append.mp ha with ha | ha
      · exact hqueue a (List.mem_cons_of_mem b ha)
      · exact hnext b hPb a ha
    · intro a ha
      rcases List.mem_append.mp ha with ha | ha
      · exact hseen a ha
      · exact List.mem_singleton.mp ha ▸ hPb
  | case3 seen b queue hb ih =>
    have hPb := hqueue b List.mem_cons_self
    have hb' : ¬(id b ∈ keys ∧ id b ∉ seen.map id) := by
      rw [List.map_id]
      rintro ⟨hin, hnew⟩
      refine hb ⟨(hkeys b hPb).mpr hin, fun hkey => hnew ?_⟩
      obtain ⟨a, ha, he⟩ := List.mem_map.mp hkey
      exact hinj a b (hseen a ha) hPb he ▸ ha
    rw [breadthFirst, dif_neg hb, breadthFirst, dif_neg hb']
    exact ih (fun a ha => hqueue a (List.mem_cons_of_mem b ha)) hseen

end KernelIR
