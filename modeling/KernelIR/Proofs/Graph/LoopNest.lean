import KernelIR.Graph.Loops
import Mathlib.Data.List.Nodup
import Mathlib.Data.Nat.Basic
import Mathlib.Logic.Relation
import Mathlib.Order.Lattice

namespace KernelIR

open Relation (ReflTransGen TransGen)

theorem nodup_eraseDups {α : Type} [DecidableEq α] (l : List α) : l.eraseDups.Nodup := by
  induction hn : l.length using Nat.strongRecOn generalizing l with
  | _ n ih =>
    cases l with
    | nil => simp
    | cons a l =>
      rw [List.eraseDups_cons, List.nodup_cons]
      constructor
      · intro ha
        rw [List.mem_eraseDups] at ha
        simp at ha
      · have hlen := List.length_filter_le (fun b => !b == a) l
        rw [List.length_cons] at hn
        exact ih _ (by omega) _ rfl

section Best

variable {α κ : Type} [LinearOrder κ] {rank : α → κ} {x : α}

/-- The better of the best element so far and another one, and the earlier one of equals. -/
def best (rank : α → κ) : Option α → α → Option α
  | some b, x => if rank x < rank b then some x else some b
  | none, x => some x

theorem best_cases (rank : α → κ) (b? : Option α) (x : α) : ∃ c, best rank b? x = some c ∧
    c ∈ b?.toList ++ [x] ∧ ∀ q ∈ b?.toList ++ [x], rank c ≤ rank q := by
  cases b? with
  | none => exact ⟨x, rfl, by simp, by simp⟩
  | some b =>
    rw [best]
    split
    · next h => exact ⟨x, rfl, by simp, by simpa using h.le⟩
    · next h => exact ⟨b, rfl, by simp, by simpa using h⟩

/-- A search for the best element finds one as good as all, unless there is none. -/
theorem foldl_best (rank : α → κ) (xs : List α) (b? : Option α) :
    (xs.foldl (best rank) b? = some x → x ∈ b?.toList ++ xs ∧
      ∀ q ∈ b?.toList ++ xs, rank x ≤ rank q) ∧
      (xs.foldl (best rank) b? = none → b?.toList ++ xs = []) := by
  induction xs generalizing b? with
  | nil =>
    cases b? with
    | none => simp
    | some b => simp +contextual
  | cons y xs ih =>
    obtain ⟨c, hc, hmem, hle⟩ := best_cases rank b? y
    rw [List.foldl_cons, hc]
    obtain ⟨hsome, hnone⟩ := ih (some c)
    have hsplit : b?.toList ++ y :: xs = b?.toList ++ [y] ++ xs := by simp
    rw [hsplit]
    refine ⟨fun h => ?_, fun h => absurd (hnone h) (by simp)⟩
    obtain ⟨hx, hall⟩ := hsome h
    simp only [Option.toList_some, List.singleton_append, List.mem_cons,
      forall_eq_or_imp] at hx hall
    constructor
    · rcases hx with rfl | hx
      · exact List.mem_append_left _ hmem
      · exact List.mem_append_right _ hx
    · intro q hq
      rcases List.mem_append.mp hq with hq | hq
      · exact hall.1.trans (hle q hq)
      · exact hall.2 q hq

end Best

namespace FlowGraph

/-- Loops with headers of their own, where the parent of each is one of them and larger. -/
structure Nested (loops : List Loop) : Prop where
  distinct : (loops.map Loop.header).Nodup
  larger : ∀ l ∈ loops, ∀ h, l.parent? = some h → ∃ p ∈ loops, p.header = h ∧ l.size < p.size

/-- The step from the header of a loop to that of its parent. -/
def Up (loops : List Loop) (a b : BlockRef) : Prop := ∃ l ∈ loops, l.header = a ∧ l.parent? = some b

variable {loops : List Loop} {l p c : Loop} {parent? : Option BlockRef} {fuel depth : Nat}

theorem Nested.eq_of_header (h : Nested loops) (hl : l ∈ loops) (hp : p ∈ loops)
    (he : l.header = p.header) : l = p :=
  List.inj_on_of_nodup_map h.distinct hl hp he

theorem Nested.up_unique (h : Nested loops) : Relator.RightUnique (Up loops) := by
  intro a b c hb hc
  obtain ⟨l, hl, rfl, hlb⟩ := hb
  obtain ⟨p, hp, he, hpc⟩ := hc
  have hlp := h.eq_of_header hp hl he
  rw [hlp, hlb] at hpc
  exact Option.some.inj hpc

theorem Nested.size_le (h : Nested loops) (hl : l ∈ loops) (hp : p ∈ loops)
    (up : ReflTransGen (Up loops) l.header p.header) : l.size ≤ p.size := by
  have grows :
      ∀ b, ReflTransGen (Up loops) l.header b → ∀ p ∈ loops, p.header = b → l.size ≤ p.size := by
    intro b up
    induction up with
    | refl =>
      intro p hp he
      exact Nat.le_of_eq (congrArg Loop.size (h.eq_of_header hl hp he.symm))
    | tail _ step ih =>
      intro p hp he
      obtain ⟨k, hk, hkb, hkp⟩ := step
      obtain ⟨q, hq, hqe, hlt⟩ := h.larger k hk _ hkp
      have hqp : q = p := h.eq_of_header hq hp (hqe.trans he.symm)
      have hle := ih k hk hkb
      rw [hqp] at hlt
      omega
  exact grows _ up p hp rfl

/-- Of two loops side by side none is above the other. -/
theorem Nested.eq_of_beside (h : Nested loops) (hl : l ∈ loops) (hp : p ∈ loops)
    (he : l.parent? = p.parent?) (up : ReflTransGen (Up loops) l.header p.header) : l = p := by
  rcases up.cases_head with heq | ⟨b, step, up⟩
  · exact h.eq_of_header hl hp heq
  · obtain ⟨k, hk, hkl, hkb⟩ := step
    have hkl := h.eq_of_header hk hl hkl
    rw [hkl] at hkb
    obtain ⟨q, hq, hqb, hlt⟩ := h.larger p hp b (he ▸ hkb)
    have hle := h.size_le hq hp (hqb ▸ up)
    omega

theorem Nested.acyclic (h : Nested loops) (a : BlockRef) : ¬TransGen (Up loops) a a := by
  intro cycle
  obtain ⟨b, step, up⟩ := TransGen.head'_iff.mp cycle
  obtain ⟨l, hl, rfl, hlb⟩ := step
  obtain ⟨p, hp, rfl, hlt⟩ := h.larger l hl b hlb
  exact Nat.not_lt_of_le (h.size_le hp hl up) hlt

/-- Of two loops side by side, nothing leads up to both. -/
theorem Nested.eq_of_both (h : Nested loops) (hl : l ∈ loops) (hp : p ∈ loops)
    (he : l.parent? = p.parent?) {a : BlockRef} (hal : ReflTransGen (Up loops) a l.header)
    (hap : ReflTransGen (Up loops) a p.header) : l = p := by
  rcases ReflTransGen.total_of_right_unique h.up_unique hal hap with up | up
  · exact h.eq_of_beside hl hp he up
  · exact (h.eq_of_beside hp hl he.symm up).symm

/-- A loop that lies `n` loops deep below a parent. -/
inductive Deep (loops : List Loop) : Option BlockRef → Nat → Loop → Prop where
  | child {l : Loop} (hl : l ∈ loops) : Deep loops l.parent? 0 l
  | inside {c l : Loop} {n : Nat} (hc : c ∈ loops) (h : Deep loops (some c.header) n l) :
      Deep loops c.parent? (n + 1) l

theorem Deep.under {n : Nat} (h : Deep loops parent? n p) (hl : l ∈ loops)
    (hp : l.parent? = some p.header) : Deep loops parent? (n + 1) l := by
  induction h with
  | child hc =>
    have hdeep : Deep loops l.parent? 0 l := .child hl
    exact .inside hc (hp ▸ hdeep)
  | inside hc _ ih => exact .inside hc (ih hp)

theorem Deep.up {n : Nat} (h : Deep loops parent? n l) :
    ∃ c ∈ loops, c.parent? = parent? ∧ ReflTransGen (Up loops) l.header c.header := by
  induction h with
  | @child l hl => exact ⟨l, hl, rfl, .refl⟩
  | @inside c l n hc _ ih =>
    obtain ⟨k, hk, hkc, up⟩ := ih
    exact ⟨c, hc, rfl, up.tail ⟨k, hk, rfl, hkc⟩⟩

/-- A loop is a child, or its own parent lies one loop less deep. -/
theorem Deep.last {n : Nat} (h : Deep loops parent? n l) : (n = 0 ∧ l.parent? = parent?) ∨
    ∃ p m, p ∈ loops ∧ n = m + 1 ∧ l.parent? = some p.header ∧ Deep loops parent? m p := by
  induction h with
  | child hl => exact Or.inl ⟨rfl, rfl⟩
  | @inside c l n hc _ ih =>
    right
    rcases ih with ⟨rfl, hp⟩ | ⟨p, m, hp, rfl, hlp, hdeep⟩
    · exact ⟨c, 0, hc, rfl, hp, .child hc⟩
    · exact ⟨p, m + 1, hp, rfl, hlp, .inside hc hdeep⟩

theorem Deep.mem_arrange {n : Nat} (h : Deep loops parent? n l) (hn : n < fuel) :
    { l with depth := depth + n } ∈ arrange loops fuel parent? depth := by
  induction h generalizing fuel depth with
  | @child l hl =>
    obtain ⟨fuel, rfl⟩ := Nat.exists_eq_succ_of_ne_zero (Nat.ne_of_gt hn)
    rw [arrange, List.mem_flatMap]
    exact ⟨l, by simp [hl], by simp⟩
  | @inside c l n hc _ ih =>
    obtain ⟨fuel, rfl⟩ := Nat.exists_eq_succ_of_ne_zero (Nat.ne_of_gt (Nat.zero_lt_of_lt hn))
    have hin : { l with depth := depth + 1 + n } ∈ arrange loops fuel (some c.header) (depth + 1) :=
      ih (Nat.lt_of_succ_lt_succ hn)
    rw [Nat.add_assoc, Nat.add_comm 1 n] at hin
    rw [arrange, List.mem_flatMap]
    exact ⟨c, by simp [hc], List.mem_append_left _ hin⟩

/-- What is arranged below a parent are loops of the list at their depth. -/
theorem of_mem_arrange {x : Loop} (hx : x ∈ arrange loops fuel parent? depth) :
    ∃ l n, l ∈ loops ∧ n < fuel ∧ Deep loops parent? n l ∧ x = { l with depth := depth + n } := by
  induction fuel generalizing parent? depth with
  | zero => exact absurd hx List.not_mem_nil
  | succ fuel ih =>
    rw [arrange, List.mem_flatMap] at hx
    obtain ⟨c, hc, hx⟩ := hx
    rw [List.mem_filter, decide_eq_true_eq] at hc
    obtain ⟨hc, rfl⟩ := hc
    rcases List.mem_append.mp hx with hx | hx
    · obtain ⟨l, n, hl, hn, hdeep, rfl⟩ := ih hx
      refine ⟨l, n + 1, hl, Nat.succ_lt_succ hn, .inside hc hdeep, ?_⟩
      rw [Nat.add_assoc, Nat.add_comm 1 n]
    · exact ⟨c, 0, hc, Nat.succ_pos fuel, .child hc, List.mem_singleton.mp hx⟩

/-- The order of the arrangement: a loop comes before another one if this is around it, or if the
two are in loops side by side that come in this order. -/
def Before (loops : List Loop) (a b : BlockRef) : Prop :=
  TransGen (Up loops) a b ∨ ∃ c k, [c, k].Sublist loops ∧ c.parent? = k.parent? ∧
    ReflTransGen (Up loops) a c.header ∧ ReflTransGen (Up loops) b k.header

theorem pairwise_arrange (loops : List Loop) (fuel : Nat) (parent? : Option BlockRef)
    (depth : Nat) :
    (arrange loops fuel parent? depth).Pairwise fun x y => Before loops x.header y.header := by
  induction fuel generalizing parent? depth with
  | zero => exact .nil
  | succ fuel ih =>
    have below : ∀ c ∈ loops, ∀ x ∈ arrange loops fuel (some c.header) (depth + 1),
        TransGen (Up loops) x.header c.header := by
      intro c _ x hx
      obtain ⟨l, n, _, _, hdeep, rfl⟩ := of_mem_arrange hx
      obtain ⟨k, hk, hkc, up⟩ := hdeep.up
      exact .tail' up ⟨k, hk, rfl, hkc⟩
    have within :
        ∀ c ∈ loops, ∀ x ∈ arrange loops fuel (some c.header) (depth + 1) ++ [{ c with depth }],
        ReflTransGen (Up loops) x.header c.header := by
      intro c hc x hx
      rcases List.mem_append.mp hx with hx | hx
      · exact (below c hc x hx).to_reflTransGen
      · rw [List.mem_singleton.mp hx]
    rw [arrange, List.pairwise_flatMap]
    constructor
    · intro c hc
      rw [List.pairwise_append]
      refine ⟨ih _ _, List.pairwise_singleton _ _, fun x hx y hy => Or.inl ?_⟩
      rw [List.mem_singleton.mp hy]
      exact below c (List.mem_of_mem_filter hc) x hx
    · apply List.pairwise_of_forall_sublist
      intro c k hck x hx y hy
      have hmem : ∀ z ∈ [c, k], z ∈ loops ∧ z.parent? = parent? := by
        intro z hz
        simpa using hck.subset hz
      obtain ⟨hc, hcp⟩ := hmem c (by simp)
      obtain ⟨hk, hkp⟩ := hmem k (by simp)
      exact Or.inr ⟨c, k, hck.trans List.filter_sublist, hcp.trans hkp.symm, within c hc x hx,
        within k hk y hy⟩

theorem Nested.ne_of_sublist (h : Nested loops) (hs : [l, p].Sublist loops) : l ≠ p := by
  have hn : [l, p].Nodup := (List.Nodup.of_map _ h.distinct).sublist hs
  simpa using hn

/-- No loop comes before itself or a loop inside it. -/
theorem Nested.not_up_of_before (h : Nested loops) {a b : BlockRef} (hab : Before loops a b) :
    ¬ReflTransGen (Up loops) b a := by
  intro hba
  rcases hab with hab | ⟨c, k, hs, he, hac, hbk⟩
  · exact h.acyclic a (hab.trans_left hba)
  · have hc : c ∈ loops := hs.subset (by simp)
    have hk : k ∈ loops := hs.subset (by simp)
    exact h.ne_of_sublist hs (h.eq_of_both hc hk he (hba.trans hac) hbk)

/-- Loops side by side stay in their order. -/
theorem Nested.sublist_of_before (h : Nested loops) (hl : l ∈ loops) (hp : p ∈ loops)
    (he : l.parent? = p.parent?) (hlp : Before loops l.header p.header) : [l, p].Sublist loops := by
  rcases hlp with up | ⟨c, k, hs, hck, hlc, hpk⟩
  · have heq := h.eq_of_beside hl hp he up.to_reflTransGen
    exact absurd (heq ▸ up) (h.acyclic _)
  · have hc : c ∈ loops := hs.subset (by simp)
    have hk : k ∈ loops := hs.subset (by simp)
    rcases hlc.cases_head with hlc | ⟨b, step, up⟩
    · -- the first loop is one of those side by side, and so is the second
      have hlc := h.eq_of_header hl hc hlc
      have hpk := h.eq_of_beside hp hk (he.symm.trans (hlc ▸ hck)) hpk
      rw [hlc, hpk]
      exact hs
    · -- the parent of the first, and of the second, would be inside both
      obtain ⟨q, hq, hql, hqb⟩ := step
      have hql := h.eq_of_header hq hl hql
      have hpb : p.parent? = some b := he ▸ hql ▸ hqb
      exact absurd (h.eq_of_both hc hk hck (.head ⟨p, hp, rfl, hpb⟩ up) hpk) (h.ne_of_sublist hs)

theorem Nested.nodup_arrange (h : Nested loops) :
    ((arrange loops fuel parent? depth).map Loop.header).Nodup := by
  rw [List.Nodup, List.pairwise_map]
  refine (pairwise_arrange loops fuel parent? depth).imp fun {x y} hxy he => ?_
  exact h.not_up_of_before hxy (he ▸ .refl)

/-- How many loops are larger. This bounds the depth. -/
def rank (loops : List Loop) (l : Loop) : Nat := loops.countP fun p => l.size < p.size

theorem rank_lt_length (hl : l ∈ loops) : rank loops l < loops.length := by
  have hlt : rank loops l < loops.countP fun _ => true :=
    countP_lt_countP (fun _ _ _ => rfl) hl (by simp) rfl
  rwa [List.countP_true] at hlt

theorem rank_lt_rank (hp : p ∈ loops) (h : l.size < p.size) : rank loops p < rank loops l := by
  apply countP_lt_countP (a := p) _ hp
  · simp
  · simpa using h
  · intro q _ hq
    simp only [decide_eq_true_eq] at hq ⊢
    omega

theorem Nested.exists_deep (h : Nested loops) (hl : l ∈ loops) :
    ∃ n, n ≤ rank loops l ∧ Deep loops none n l := by
  induction hr : rank loops l using Nat.strongRecOn generalizing l with
  | _ r ih =>
    have hdeep : Deep loops l.parent? 0 l := .child hl
    cases hp : l.parent? with
    | none => exact ⟨0, Nat.zero_le _, hp ▸ hdeep⟩
    | some b =>
      obtain ⟨p, hpl, rfl, hlt⟩ := h.larger l hl b hp
      have hrank := rank_lt_rank hpl hlt
      obtain ⟨n, hn, hd⟩ := ih _ (hr ▸ hrank) hpl rfl
      exact ⟨n + 1, by omega, hd.under hl hp⟩

/-- A loop inside another one has more loops larger than itself, so a bound above their number is
never reached. -/
theorem Nested.arrange_eq (h : Nested loops) {n k : Nat}
    (hn : ∀ l ∈ loops, l.parent? = parent? → loops.length ≤ n + rank loops l)
    (hk : ∀ l ∈ loops, l.parent? = parent? → loops.length ≤ k + rank loops l) :
    arrange loops n parent? depth = arrange loops k parent? depth := by
  have hnone : ∀ parent?, (∀ l ∈ loops, l.parent? = parent? → loops.length ≤ 0 + rank loops l) →
      (loops.filter fun l => l.parent? = parent?) = [] := by
    intro parent? h0
    rw [List.filter_eq_nil_iff]
    intro l hl hp
    have hle := h0 l hl (of_decide_eq_true hp)
    have hlt := rank_lt_length hl
    omega
  induction n generalizing k parent? depth with
  | zero =>
    cases k with
    | zero => rfl
    | succ k => rw [arrange, arrange, hnone parent? hn, List.flatMap_nil]
  | succ n ih =>
    cases k with
    | zero => rw [arrange, arrange, hnone parent? hk, List.flatMap_nil]
    | succ k =>
      rw [arrange, arrange]
      refine List.flatMap_congr fun l hl => ?_
      obtain ⟨hl, hp⟩ := List.mem_filter.mp hl
      have hle := hn l hl (of_decide_eq_true hp)
      have hle' := hk l hl (of_decide_eq_true hp)
      have hinside : ∀ c ∈ loops, c.parent? = some l.header → rank loops l < rank loops c := by
        intro c hc hcp
        obtain ⟨q, hq, hql, hlt⟩ := h.larger c hc _ hcp
        rw [h.eq_of_header hq hl hql] at hlt
        exact rank_lt_rank hl hlt
      rw [ih (k := k)]
      · intro c hc hcp
        have hlt := hinside c hc hcp
        omega
      · intro c hc hcp
        have hlt := hinside c hc hcp
        omega

/-- Every loop is arranged, since no chain of parents is longer than the list. -/
theorem Nested.mem_arrange (h : Nested loops) (hl : l ∈ loops) :
    ∃ e, { l with depth := e } ∈ arrange loops loops.length none depth := by
  obtain ⟨n, hn, hd⟩ := h.exists_deep hl
  exact ⟨depth + n, hd.mem_arrange (Nat.lt_of_le_of_lt hn (rank_lt_length hl))⟩

/-- A loop is arranged at the top, or one deeper than its parent. -/
theorem arrange_parent {x : Loop} (hx : x ∈ arrange loops fuel none depth) :
    (x.parent? = none ∧ x.depth = depth) ∨
      ∃ p ∈ arrange loops fuel none depth, x.parent? = some p.header ∧ x.depth = p.depth + 1 := by
  obtain ⟨l, n, _, hn, hdeep, rfl⟩ := of_mem_arrange hx
  rcases hdeep.last with ⟨rfl, hp⟩ | ⟨p, m, _, rfl, hp, hdeep⟩
  · exact Or.inl ⟨hp, rfl⟩
  · exact Or.inr ⟨_, hdeep.mem_arrange (Nat.lt_of_succ_lt hn), hp, rfl⟩

/-- Whether a loop is a candidate for the parent of another one. -/
def Encloses (p l : Loop) : Prop := p.header ≠ l.header ∧ l.header ∈ p.body ∧ l.size < p.size

theorem mem_candidates :
    p ∈ (loops.filter fun p => p.header ≠ l.header && p.contains l.header && l.size < p.size) ↔
    p ∈ loops ∧ Encloses p l := by
  simp [Encloses, Loop.contains, and_assoc]

theorem smaller_eq_best : smaller = best Loop.size := by
  funext b? l
  cases b? with
  | none => rfl
  | some b => rfl

/-- The smallest of the candidates is chosen. -/
theorem enclosing?_eq_some (h : enclosing? loops l = some p) :
    p ∈ loops ∧ Encloses p l ∧ ∀ q ∈ loops, Encloses q l → p.size ≤ q.size := by
  rw [enclosing?, smaller_eq_best] at h
  obtain ⟨hp, hle⟩ := (foldl_best Loop.size _ none).1 h
  obtain ⟨hp, he⟩ := mem_candidates.mp hp
  exact ⟨hp, he, fun q hq hql => hle q (mem_candidates.mpr ⟨hq, hql⟩)⟩

theorem enclosing?_eq_none (h : enclosing? loops l = none) : ∀ q ∈ loops, ¬Encloses q l := by
  intro q hq hql
  rw [enclosing?, smaller_eq_best] at h
  have hempty := (foldl_best (x := l) Loop.size _ none).2 h
  exact List.ne_nil_of_mem (mem_candidates.mpr ⟨hq, hql⟩) hempty

variable {g : FlowGraph} {t : DomTree}

theorem nodup_naturalLoops (g : FlowGraph) (t : DomTree) :
    ((g.naturalLoops t).map Loop.header).Nodup := by
  have hh : (g.naturalLoops t).map Loop.header = ((g.backEdges t).map Prod.snd).eraseDups := by
    simp [naturalLoops, Function.comp_def]
  rw [hh]
  exact nodup_eraseDups _

/-- The loops with their parents, in the order of their headers. -/
def ordered (g : FlowGraph) (t : DomTree) : List Loop :=
  ((g.naturalLoops t).map fun l =>
    { l with parent? := (enclosing? (g.naturalLoops t) l).map Loop.header }).mergeSort
      fun a b => g.position a.header ≤ g.position b.header

theorem loopNest_eq (g : FlowGraph) (t : DomTree) :
    g.loopNest t = arrange (g.ordered t) (g.ordered t).length none 1 := rfl

theorem mem_ordered : l ∈ g.ordered t ↔ ∃ k ∈ g.naturalLoops t,
    l = { k with parent? := (enclosing? (g.naturalLoops t) k).map Loop.header } := by
  rw [ordered, List.mem_mergeSort, List.mem_map]
  constructor
  · intro h
    obtain ⟨k, hk, he⟩ := h
    exact ⟨k, hk, he.symm⟩
  · intro h
    obtain ⟨k, hk, he⟩ := h
    exact ⟨k, hk, he.symm⟩

theorem nested_ordered (g : FlowGraph) (t : DomTree) : Nested (g.ordered t) where
  distinct := by
    have hperm := (List.mergeSort_perm ((g.naturalLoops t).map fun l =>
      { l with parent? := (enclosing? (g.naturalLoops t) l).map Loop.header })
      fun a b => g.position a.header ≤ g.position b.header).map Loop.header
    rw [ordered, hperm.nodup_iff, List.map_map]
    exact nodup_naturalLoops g t
  larger := by
    intro l hl h hp
    obtain ⟨k, hk, rfl⟩ := mem_ordered.mp hl
    obtain ⟨p, hpk, rfl⟩ := Option.map_eq_some_iff.mp hp
    obtain ⟨hmem, he, _⟩ := enclosing?_eq_some hpk
    exact ⟨_, mem_ordered.mpr ⟨p, hmem, rfl⟩, rfl, he.2.2⟩

/-- The number of loops is never reached when they are arranged. -/
theorem arrange_eq_loopNest {n : Nat} (hn : (g.ordered t).length ≤ n) :
    arrange (g.ordered t) n none 1 = g.loopNest t := by
  rw [loopNest_eq]
  exact (nested_ordered g t).arrange_eq (fun l _ _ => by omega) fun l _ _ => by omega

theorem nodup_loopNest (g : FlowGraph) (t : DomTree) : ((g.loopNest t).map Loop.header).Nodup := by
  rw [loopNest_eq]
  exact (nested_ordered g t).nodup_arrange

theorem of_mem_loopNest (hl : l ∈ g.loopNest t) :
    ∃ k ∈ g.naturalLoops t, l.header = k.header ∧ l.body = k.body ∧
    l.parent? = (enclosing? (g.naturalLoops t) k).map Loop.header := by
  rw [loopNest_eq] at hl
  obtain ⟨p, n, hp, _, _, rfl⟩ := of_mem_arrange hl
  obtain ⟨k, hk, heq⟩ := mem_ordered.mp hp
  rw [heq]
  exact ⟨k, hk, rfl, rfl, rfl⟩

/-- Every loop is found by a branch back to its header. -/
theorem exists_mem_backEdges (hl : l ∈ g.loopNest t) : ∃ a, (a, l.header) ∈ g.backEdges t := by
  obtain ⟨k, hk, hheader, _⟩ := of_mem_loopNest hl
  obtain ⟨h, hh, rfl⟩ := List.mem_map.mp hk
  obtain ⟨⟨a, h'⟩, he, rfl⟩ := List.mem_map.mp (List.mem_eraseDups.mp hh)
  exact ⟨a, hheader ▸ he⟩

/-- No loop is lost when the nest is made. -/
theorem exists_mem_loopNest (hl : l ∈ g.naturalLoops t) :
    ∃ k ∈ g.loopNest t, k.header = l.header ∧ k.body = l.body := by
  have hp := mem_ordered.mpr ⟨l, hl, rfl⟩
  rw [loopNest_eq]
  obtain ⟨e, he⟩ := (nested_ordered g t).mem_arrange hp
  exact ⟨_, he, rfl, rfl⟩

theorem header_mem_loopNest (hl : l ∈ g.naturalLoops t) :
    l.header ∈ (g.loopNest t).map Loop.header := by
  obtain ⟨k, hk, he, _⟩ := exists_mem_loopNest hl
  exact he ▸ List.mem_map_of_mem hk

theorem eq_of_header (hl : l ∈ g.loopNest t) (hp : p ∈ g.loopNest t)
    (he : l.header = p.header) : l = p :=
  List.inj_on_of_nodup_map (nodup_loopNest g t) hl hp he

/-- The parent of a loop is the smallest of the candidates in the nest. -/
theorem parent?_eq_some {h : BlockRef} (hl : l ∈ g.loopNest t) (hh : l.parent? = some h) :
    ∃ p ∈ g.loopNest t, p.header = h ∧ Encloses p l ∧
      ∀ q ∈ g.loopNest t, Encloses q l → p.size ≤ q.size := by
  obtain ⟨k, hk, hheader, hbody, hparent⟩ := of_mem_loopNest hl
  rw [hparent] at hh
  obtain ⟨p, hp, rfl⟩ := Option.map_eq_some_iff.mp hh
  obtain ⟨hmem, henc, hleast⟩ := enclosing?_eq_some hp
  obtain ⟨r, hr, hrh, hrb⟩ := exists_mem_loopNest hmem
  refine ⟨r, hr, hrh, ?_, fun q hq hql => ?_⟩
  · simpa only [Encloses, Loop.size, hrh, hrb, hheader, hbody] using henc
  · obtain ⟨u, hu, huh, hub, _⟩ := of_mem_loopNest hq
    rw [Loop.size, Loop.size, hrb, hub]
    apply hleast u hu
    simpa only [Encloses, Loop.size, huh, hub, hheader, hbody] using hql

theorem parent?_eq_none (hl : l ∈ g.loopNest t) (hh : l.parent? = none) :
    ∀ q ∈ g.loopNest t, ¬Encloses q l := by
  obtain ⟨k, hk, hheader, hbody, hparent⟩ := of_mem_loopNest hl
  rw [hparent, Option.map_eq_none_iff] at hh
  intro q hq hql
  obtain ⟨u, hu, huh, hub, _⟩ := of_mem_loopNest hq
  apply enclosing?_eq_none hh u hu
  simpa only [Encloses, Loop.size, huh, hub, hheader, hbody] using hql

/-- A loop of the nest stands at the top, or one deeper than its parent. -/
theorem depth_loopNest (hl : l ∈ g.loopNest t) : (l.parent? = none ∧ l.depth = 1) ∨
    ∃ p ∈ g.loopNest t, l.parent? = some p.header ∧ l.depth = p.depth + 1 := arrange_parent hl

/-- The step from a loop of the nest to its parent is one among the loops that were arranged. -/
theorem up_ordered {h : BlockRef} (hl : l ∈ g.loopNest t) (hh : l.parent? = some h) :
    Up (g.ordered t) l.header h := by
  obtain ⟨p, n, hp, _, _, rfl⟩ := of_mem_arrange hl
  exact ⟨p, hp, rfl, hh⟩

/-- A loop does not come before one inside it. -/
theorem pairwise_loopNest (g : FlowGraph) (t : DomTree) :
    (g.loopNest t).Pairwise fun a b => ¬ReflTransGen (Up (g.ordered t)) b.header a.header :=
  (pairwise_arrange _ _ _ _).imp fun h => (nested_ordered g t).not_up_of_before h

/-- Loops side by side are in the order of their headers. -/
theorem pairwise_position (g : FlowGraph) (t : DomTree) : (g.loopNest t).Pairwise fun a b =>
    a.parent? = b.parent? → g.position a.header ≤ g.position b.header := by
  have hsorted : (g.ordered t).Pairwise fun a b => g.position a.header ≤ g.position b.header := by
    let le (a b : Loop) : Bool := g.position a.header ≤ g.position b.header
    have htrans : ∀ a b c, le a b = true → le b c = true → le a c = true := by
      simp only [le, decide_eq_true_eq]
      omega
    have htotal : ∀ a b, (le a b || le b a) = true := by
      simp only [le, Bool.or_eq_true, decide_eq_true_eq]
      omega
    exact (List.pairwise_mergeSort htrans htotal _).imp fun h => of_decide_eq_true h
  refine (pairwise_arrange _ _ _ _).imp_of_mem fun {a b} ha hb hab he => ?_
  obtain ⟨l, _, hl, _, _, rfl⟩ := of_mem_arrange ha
  obtain ⟨p, _, hp, _, _, rfl⟩ := of_mem_arrange hb
  have hs : [l, p].Sublist (g.ordered t) := (nested_ordered g t).sublist_of_before hl hp he hab
  have hle : g.position l.header ≤ g.position p.header := hsorted.forall_sublist hs
  exact hle

/-- Of two blocks of the function, the one at the lower position comes first. -/
theorem sublist_of_position {a b : BlockRef} (ha : a ∈ g.own.map Prod.fst)
    (hb : b ∈ g.own.map Prod.fst) (hne : a ≠ b) (h : g.position a ≤ g.position b) :
    [a, b].Sublist (g.own.map Prod.fst) := by
  have hindex : ∀ c ∈ g.own.map Prod.fst, ∃ h : g.position c < (g.own.map Prod.fst).length,
      (g.own.map Prod.fst)[g.position c] = c := by
    intro c hc
    obtain ⟨e, he, rfl⟩ := List.mem_map.mp hc
    have hsome : (g.own.findIdx? fun x => x.1 = e.1).isSome := by
      rw [List.findIdx?_isSome, List.any_eq_true]
      exact ⟨e, he, by simp⟩
    obtain ⟨i, hi⟩ := Option.isSome_iff_exists.mp hsome
    obtain ⟨hlt, heq, _⟩ := List.findIdx?_eq_some_iff_getElem.mp hi
    have hpos : g.position e.1 = i := by rw [position, hi, Option.getD_some]
    simp only [hpos, List.length_map, List.getElem_map]
    exact ⟨hlt, of_decide_eq_true heq⟩
  obtain ⟨hi, hia⟩ := hindex a ha
  obtain ⟨hj, hjb⟩ := hindex b hb
  have hlt : g.position a < g.position b := by
    refine Nat.lt_of_le_of_ne h fun he => hne ?_
    rw [← hia, ← hjb]
    simp only [he]
  have hpair : (g.own.map Prod.fst).Pairwise fun x y => [x, y].Sublist (g.own.map Prod.fst) :=
    List.pairwise_of_forall_sublist fun h => h
  simpa only [hia, hjb] using List.pairwise_iff_getElem.mp hpair _ _ hi hj hlt

end FlowGraph

end KernelIR
