import KernelIR.Edit

namespace KernelIR

namespace Edit

variable {σ α β : Type}

theorem bind_ok {x : Edit σ α} {F : α → Edit σ β} {s t : σ} {a : α} (h : x s = .ok a t) :
    (x >>= F) s = F a t := by
  simp [bind, EStateM.bind, h]

/-- What is read off the answer of an edit and the state it leaves, unless it fails. -/
def outcome? (e : Edit σ α) (s : σ) (read : α → σ → β) : Option β :=
  match e s with
  | .ok a t => some (read a t)
  | .error _ _ => none

theorem outcome?_of_ok {e : Edit σ α} {s t : σ} {a : α} (h : e s = .ok a t) (read : α → σ → β) :
    outcome? e s read = some (read a t) := by
  simp [outcome?, h]

theorem outcome?_eq_some_iff {e : Edit σ α} {s : σ} {read : α → σ → β} {b : β} :
    outcome? e s read = some b ↔ ∃ a t, e s = .ok a t ∧ read a t = b := by
  constructor
  · intro h
    cases he : e s with
    | error x t => simp [outcome?, he] at h
    | ok a t => exact ⟨a, t, rfl, Option.some_inj.mp ((outcome?_of_ok he read).symm.trans h)⟩
  · rintro ⟨a, t, he, rfl⟩
    exact outcome?_of_ok he read

/-- Carries out an edit for each element of a list, and answers whether one of them changed
something. -/
def sweep (step : α → Edit σ Bool) : List α → Edit σ Bool
  | [] => pure false
  | x :: xs => do
    let first ← step x
    let rest ← sweep step xs
    return first || rest

/-- What each step keeps about the rest of the list, the answer so far and the state holds at the
end. -/
theorem sweep_ok {step : α → Edit σ Bool} {P : List α → Bool → σ → Prop}
    (hstep : ∀ x xs c s, P (x :: xs) c s → ∃ c' t, step x s = .ok c' t ∧ P xs (c || c') t)
    (xs : List α) {c : Bool} {s : σ} (hs : P xs c s) :
    ∃ c' t, sweep step xs s = .ok c' t ∧ P [] (c || c') t := by
  induction xs generalizing c s with
  | nil => exact ⟨false, s, rfl, by rwa [Bool.or_false]⟩
  | cons x xs ih =>
    obtain ⟨c₁, t, hrun, ht⟩ := hstep x xs c s hs
    obtain ⟨c₂, u, hrest, hu⟩ := ih ht
    refine ⟨c₁ || c₂, u, ?_, by rwa [← Bool.or_assoc]⟩
    rw [sweep, bind_ok hrun, bind_ok hrest]
    rfl

/-- Whether an edit succeeds wherever `P` holds, and `P` holds afterwards. -/
def Keeps (P : σ → Prop) (e : Edit σ α) : Prop := ∀ s, P s → ∃ a t, e s = .ok a t ∧ P t

theorem Keeps.pure {P : σ → Prop} (a : α) : Keeps P (pure a : Edit σ α) :=
  fun s hs => ⟨a, s, rfl, hs⟩

theorem Keeps.bind {P : σ → Prop} {e : Edit σ α} {F : α → Edit σ β} (h : Keeps P e)
    (hF : ∀ a, Keeps P (F a)) :
    Keeps P (e >>= F) := by
  intro s hs
  obtain ⟨a, t, ht, hp⟩ := h s hs
  obtain ⟨b, u, hu, hq⟩ := hF a t hp
  exact ⟨b, u, (bind_ok ht).trans hu, hq⟩

/-- The state that an edit leaves, whether it succeeds or fails. -/
def after (e : Edit σ α) (s : σ) : σ :=
  match e s with
  | .ok _ t => t
  | .error _ t => t

theorem after_of_ok {e : Edit σ α} {s t : σ} {a : α} (h : e s = .ok a t) : e.after s = t := by
  simp [after, h]

theorem after_of_error {e : Edit σ α} {s t : σ} {x : EditFault} (h : e s = .error x t) :
    e.after s = t := by
  simp [after, h]

theorem after_bind_ok {e : Edit σ α} {F : α → Edit σ β} {s t : σ} {a : α} (h : e s = .ok a t) :
    (e >>= F).after s = (F a).after t := by
  rw [after, bind_ok h, after]

theorem after_bind_error {e : Edit σ α} {F : α → Edit σ β} {s t : σ} {x : EditFault}
    (h : e s = .error x t) :
    (e >>= F).after s = t := by
  have herror : (e >>= F) s = .error x t := by simp [bind, EStateM.bind, h]
  exact after_of_error herror

theorem after_discard (e : Edit σ α) (s : σ) : (e >>= fun _ => pure ()).after s = e.after s := by
  cases he : e s with
  | ok a t =>
    rw [after_bind_ok he, after_of_ok he]
    rfl
  | error x t => rw [after_bind_error he, after_of_error he]

/-- Whether `P` holds after an edit if it held before, even if the edit fails. -/
def Maintains (P : σ → Prop) (e : Edit σ α) : Prop := ∀ s, P s → P (e.after s)

theorem Maintains.pure {P : σ → Prop} (a : α) : Maintains P (pure a : Edit σ α) := fun _ hs => hs

theorem Maintains.bind {P : σ → Prop} {e : Edit σ α} {F : α → Edit σ β} (h : Maintains P e)
    (hF : ∀ a, Maintains P (F a)) : Maintains P (e >>= F) := by
  intro s hs
  have ht := h s hs
  cases he : e s with
  | error x t =>
    rw [after_bind_error he]
    rwa [after_of_error he] at ht
  | ok a t =>
    rw [after_bind_ok he]
    rw [after_of_ok he] at ht
    exact hF a t ht

theorem after_within {τ : Type} {get : σ → τ} {put : σ → τ → σ} (e : Edit τ α) (s : σ) :
    (e.within get put).after s = put s (e.after (get s)) := by
  rw [after, within, after]
  cases e (get s) with
  | ok a t => rfl
  | error x t => rfl

theorem Maintains.within {τ : Type} {P : τ → Prop} {get : σ → τ} {put : σ → τ → σ} {e : Edit τ α}
    (h : Maintains P e) (hput : ∀ s t, get (put s t) = t) :
    Maintains (fun s => P (get s)) (e.within get put) := by
  intro s hs
  rw [after_within, hput]
  exact h (get s) hs

end Edit

end KernelIR
