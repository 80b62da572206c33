import KernelIR.Description.Load
import KernelIR.Proofs.Flow
import KernelIR.Proofs.Number.Floating
import Mathlib.Data.List.Forall2

namespace KernelIR

section

variable {α β γ : Type} {R : α → β → Prop} {xs : List α} {ys : List β}

theorem exists_of_mem_right (h : List.Forall₂ R xs ys) {y : β} (hy : y ∈ ys) : ∃ x ∈ xs, R x y := by
  induction h with
  | nil => simp at hy
  | cons hxy _ ih =>
    cases List.mem_cons.mp hy with
    | inl hy => exact ⟨_, List.mem_cons_self, hy ▸ hxy⟩
    | inr hy =>
      obtain ⟨x, hx, hR⟩ := ih hy
      exact ⟨x, List.mem_cons_of_mem _ hx, hR⟩

theorem map_eq_of_forall₂ {F : α → γ} {G : β → γ} (h : List.Forall₂ R xs ys)
    (hR : ∀ x y, R x y → F x = G y) :
    xs.map F = ys.map G := by
  rw [← List.forall₂_eq_eq_eq, List.forall₂_map_left_iff, List.forall₂_map_right_iff]
  exact h.imp hR

theorem exists_getElem?_right (h : List.Forall₂ R xs ys) {n : Nat} {x : α} (hx : xs[n]? = some x) :
    ∃ y, ys[n]? = some y ∧ R x y := by
  induction h generalizing n with
  | nil => simp at hx
  | cons hxy _ ih =>
    cases n with
    | zero =>
      rw [List.getElem?_cons_zero, Option.some.injEq] at hx
      exact ⟨_, List.getElem?_cons_zero, hx ▸ hxy⟩
    | succ n => exact ih hx

/-- What a search finds in two lists that agree item by item. -/
theorem map_find?_eq {F : α → γ} {G : β → γ} {P : α → Bool} {Q : β → Bool}
    (h : List.Forall₂ R xs ys) (hR : ∀ x y, R x y → P x = Q y ∧ F x = G y) :
    (xs.find? P).map F = (ys.find? Q).map G := by
  induction h with
  | nil => rfl
  | @cons x y _ _ hxy _ ih =>
    obtain ⟨hPQ, hFG⟩ := hR x y hxy
    rw [List.find?_cons, List.find?_cons, hPQ]
    cases Q y with
    | true => exact congrArg some hFG
    | false => exact ih

/-- What holds of an item of a list is seen on what the items are mapped to. -/
theorem exists_mem_iff_of_map_eq {F : α → γ} {G : β → γ} (h : xs.map F = ys.map G) (P : γ → Prop) :
    (∃ x ∈ xs, P (F x)) ↔ ∃ y ∈ ys, P (G y) := by
  have hmem : ∀ {δ : Type} (zs : List δ) (H : δ → γ), (∃ z ∈ zs, P (H z)) ↔
      ∃ c ∈ zs.map H, P c := by
    intro δ zs H
    simp
  rw [hmem xs F, hmem ys G, h]

theorem forall₂_trans {S : β → γ → Prop} {zs : List γ} (h : List.Forall₂ R xs ys)
    (h' : List.Forall₂ S ys zs) :
    List.Forall₂ (fun x z => ∃ y ∈ ys, R x y ∧ S y z) xs zs := by
  induction h generalizing zs with
  | nil =>
    cases h'
    exact .nil
  | cons hxy _ ih =>
    cases h' with
    | cons hyz hrest =>
      refine .cons ⟨_, List.mem_cons_self, hxy, hyz⟩ ((ih hrest).imp fun x z hxz => ?_)
      obtain ⟨y, hy, hxyz⟩ := hxz
      exact ⟨y, List.mem_cons_of_mem _ hy, hxyz⟩

end

namespace Text

variable {c : Char} {text before after : List Char}

theorem cutLast_eq_none_iff : cutLast [c] text = none ↔ c ∉ text := by
  induction text with
  | nil => simp [cutLast]
  | cons d text ih =>
    cases hcut : cutLast [c] text with
    | none =>
      have hrest := ih.mp hcut
      by_cases hd : c = d
      · subst hd
        simp [cutLast, hcut]
      · simp [cutLast, hcut, hd, hrest]
    | some p =>
      have hrest : c ∈ text := by
        by_contra hc
        rw [ih.mpr hc] at hcut
        exact absurd hcut (by simp)
      simp [cutLast, hcut, hrest]

/-- A text is cut at the last place where a character stands. -/
theorem cutLast_eq_some_iff :
    cutLast [c] text = some (before, after) ↔ text = before ++ c :: after ∧ c ∉ after := by
  constructor
  · intro h
    refine ⟨by simpa using cutLast_eq_append h, ?_⟩
    induction text generalizing before with
    | nil => simp [cutLast] at h
    | cons d text ih =>
      rw [cutLast] at h
      cases hcut : cutLast [c] text with
      | some p =>
        simp only [hcut, Option.some.injEq, Prod.mk.injEq] at h
        have hrest : cutLast [c] text = some (p.1, after) := by rw [hcut, ← h.2]
        exact ih hrest
      | none =>
        rw [hcut] at h
        have hrest := cutLast_eq_none_iff.mp hcut
        by_cases hd : c = d
        · simp [hd] at h
          exact h.2 ▸ hrest
        · simp [hd] at h
  · intro h
    obtain ⟨rfl, hafter⟩ := h
    induction before with
    | nil => simp [cutLast, cutLast_eq_none_iff.mpr hafter]
    | cons d before ih => simp [cutLast, ih]

end Text

theorem Opcode.text_of_ofName? {name : String} {op : Opcode} (h : ofName? name = some op) :
    op.text = name := by
  simpa using List.find?_some h

theorem Predicate.text_of_ofName? {name : String} {p : Predicate} (h : ofName? name = some p) :
    p.text = name := by
  simpa using List.find?_some h

namespace Description

variable {α β ε : Type}

theorem bind_eq_ok {x : Except ε α} {F : α → Except ε β} {b : β} :
    x >>= F = .ok b ↔ ∃ a, x = .ok a ∧ F a = .ok b := by
  cases x with
  | error e => simp [bind, Except.bind]
  | ok a => simp [bind, Except.bind]

theorem exists_of_isOk {x : Except ε α} (h : x.isOk = true) : ∃ a, x = .ok a := by
  cases x with
  | error e => simp [Except.isOk, Except.toBool] at h
  | ok a => exact ⟨a, rfl⟩

/-- What is accepted can be looked at. -/
theorem exists_ok_of_any {x : Except ε α} {P : α → Prop} [DecidablePred P]
    (h : x.toOption.any (fun a => P a) = true) : ∃ a, x = .ok a ∧ P a := by
  cases x with
  | error e => simp [Except.toOption] at h
  | ok a => exact ⟨a, rfl, by simpa [Except.toOption] using h⟩

theorem toOption_eq_some {x : Except ε α} {a : α} : x.toOption = some a ↔ x = .ok a := by
  cases x with
  | error e => simp [Except.toOption]
  | ok b => simp [Except.toOption]

@[simp] theorem atPlace_eq_ok {place : Place} {x : Loading α} {a : α} : atPlace place x = .ok a ↔
    x = .ok a := by
  cases x with
  | error e => simp [atPlace]
  | ok b => simp [atPlace]

/-- A list is read if each of its items is. -/
theorem mapM_eq_ok {F : α → Except ε β} {xs : List α} {ys : List β} :
    xs.mapM F = .ok ys ↔ List.Forall₂ (fun x y => F x = .ok y) xs ys := by
  induction xs generalizing ys with
  | nil => simp [pure, Except.pure, eq_comm]
  | cons x xs ih =>
    rw [List.mapM_cons, bind_eq_ok, List.forall₂_cons_left_iff]
    constructor
    · intro h
      obtain ⟨y, hy, h⟩ := h
      obtain ⟨zs, hzs, h⟩ := bind_eq_ok.mp h
      exact ⟨y, zs, hy, ih.mp hzs, (Except.ok.inj h).symm⟩
    · intro h
      obtain ⟨y, zs, hy, hzs, rfl⟩ := h
      exact ⟨y, hy, bind_eq_ok.mpr ⟨zs, ih.mpr hzs, rfl⟩⟩

theorem exists_mapM_eq_ok {F : α → Except ε β} {xs : List α} (h : ∀ x ∈ xs, ∃ y, F x = .ok y) :
    ∃ ys, xs.mapM F = .ok ys := by
  simp only [mapM_eq_ok]
  induction xs with
  | nil => exact ⟨[], .nil⟩
  | cons x xs ih =>
    obtain ⟨y, hy⟩ := h x List.mem_cons_self
    obtain ⟨ys, hys⟩ := ih fun z hz => h z (List.mem_cons_of_mem _ hz)
    exact ⟨y :: ys, .cons hy hys⟩

theorem mapM_map_ok {γ : Type} {F : α → Except ε β} {G : α → Except ε γ} {T : β → γ} {xs : List α}
    {ys : List β} (hFG : ∀ x y, F x = .ok y → G x = .ok (T y)) (h : xs.mapM F = .ok ys) :
    xs.mapM G = .ok (ys.map T) := by
  rw [mapM_eq_ok, List.forall₂_map_right_iff]
  exact (mapM_eq_ok.mp h).imp hFG

@[simp] theorem readType_eq_ok {text : String} {t : Ty} : readType text = .ok t ↔
    Ty.read text.toList = .ok t := by
  rw [readType]
  cases Ty.read text.toList with
  | error e => simp
  | ok u => simp

/-- A constant is written as a type and, after a space, a literal of that type. -/
inductive Spells : List Char → Value → Prop where
  | int {type literal : List Char} {bits n : Int} (htype : Ty.read type = .ok (.int bits))
      (hspace : ' ' ∉ literal) (hliteral : Number.NamesInteger literal n) :
      Spells (type ++ ' ' :: literal) (.int ⟨bits, BitVec.ofInt 64 n⟩)
  | float {type literal : List Char} {bits : Int} {x : Number.Binary64}
      (htype : Ty.read type = .ok (.float bits)) (hspace : ' ' ∉ literal)
      (hliteral : Number.NamesReal literal x) : Spells (type ++ ' ' :: literal) (.float bits x)

theorem readConstant_eq_ok {text : List Char} {v : Value} : readConstant text = .ok v ↔
    Spells text v := by
  constructor
  · intro h
    rw [readConstant] at h
    cases hcut : Text.cutLast [' '] text with
    | none => simp [hcut] at h
    | some p =>
      obtain ⟨type, literal⟩ := p
      obtain ⟨rfl, hspace⟩ := Text.cutLast_eq_some_iff.mp hcut
      rw [hcut] at h
      obtain ⟨t, ht, h⟩ := bind_eq_ok.mp h
      rw [readType_eq_ok, String.toList_ofList] at ht
      cases t with
      | int bits =>
        cases hn : Number.readInteger literal with
        | none => simp [hn] at h
        | some n =>
          simp only [hn, Except.ok.injEq] at h
          exact h ▸ .int ht hspace (Number.readInteger_iff.mp hn)
      | float bits =>
        cases hx : Number.readReal literal with
        | none => simp [hx] at h
        | some x =>
          simp only [hx, Except.ok.injEq] at h
          exact h ▸ .float ht hspace (Number.readReal_iff.mp hx)
      | ptr | struct | void | label | func => simp at h
  · intro h
    cases h with
    | int ht hspace hn =>
      have hread := Number.readInteger_iff.mpr hn
      rw [readConstant, Text.cutLast_eq_some_iff.mpr ⟨rfl, hspace⟩]
      exact bind_eq_ok.mpr ⟨_, readType_eq_ok.mpr (by rwa [String.toList_ofList]), by simp [hread]⟩
    | float ht hspace hx =>
      have hread := Number.readReal_iff.mpr hx
      rw [readConstant, Text.cutLast_eq_some_iff.mpr ⟨rfl, hspace⟩]
      exact bind_eq_ok.mpr ⟨_, readType_eq_ok.mpr (by rwa [String.toList_ofList]), by simp [hread]⟩

/-- An operation has the name that it is described by, except that a branch to two blocks is a
conditional one. -/
theorem text_of_readOpcode {s : InstrSpec} {op : Opcode} (h : readOpcode s = .ok op) :
    op.text = if s.op = "br" ∧ s.targets.length = 2 then "condbr" else s.op := by
  rw [readOpcode] at h
  split at h
  · next hname =>
    have hbr := Opcode.text_of_ofName? hname
    cases h
    by_cases htwo : s.targets.length = 2
    · simp [htwo, ← hbr, Opcode.text]
    · simp [htwo, ← hbr, Opcode.text]
  · next hne hname =>
    cases h
    have hbr : s.op ≠ "br" := by
      intro hbr
      rw [hbr, show Opcode.ofName? "br" = some .br by decide] at hname
      exact hne (Option.some.inj hname).symm
    simp [hbr, Opcode.text_of_ofName? hname]
  · simp at h

theorem text_of_readPredicate {name : String} {p : Predicate} (h : readPredicate name = .ok p) :
    p.text = name := by
  rw [readPredicate] at h
  by_cases hname : name = ""
  · rw [if_pos hname, Except.ok.injEq] at h
    simp [← h, hname, Predicate.text]
  · rw [if_neg hname] at h
    split at h
    · next hp =>
      cases h
      exact Predicate.text_of_ofName? hp
    · simp at h

end Description

end KernelIR
