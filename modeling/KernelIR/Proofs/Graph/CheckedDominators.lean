import KernelIR.Proofs.Graph.DominatorTree

namespace KernelIR

namespace LinkForest

/-- Compression that fails at a missing link and when the links do not end within `fuel` steps. -/
def compress? : (fuel : Nat) → LinkForest → (v : Nat) → Option LinkForest
  | 0, _, _ => none
  | fuel + 1, F, v =>
    (F.ancestor v).bind fun a =>
      if (F.ancestor a).isSome then (compress? fuel F a).map fun F => F.shorten v a else some F

def eval? (F : LinkForest) (v : Nat) : Option (Nat × LinkForest) :=
  if (F.ancestor v).isSome then (compress? v F v).map fun F => (F.label v, F) else some (v, F)

variable {n : Numbering} {F : LinkForest} {k v : Nat}

theorem Tracks.compress?_eq (h : F.Tracks n k) (hk : k ≤ v) (hv : v < n.size) (h0 : 0 < k)
    {fuel : Nat} (hf : v ≤ fuel) : compress? fuel F v = some (LinkForest.compress fuel F v) := by
  induction fuel generalizing v with
  | zero => omega
  | succ fuel ih =>
    obtain ⟨a, ha⟩ := h.linked v hk hv
    have hlt := ha.lt
    rw [compress?, LinkForest.compress, ha.ancestor, Option.bind_some]
    simp only
    split
    case isTrue hs =>
      have hka := (h.ancestor_isSome (Nat.lt_trans hlt hv)).mp hs
      rw [ih hka (Nat.lt_trans hlt hv) (by omega)]
      rfl
    case isFalse => rfl

theorem Tracks.eval?_eq (h : F.Tracks n k) (hv : v < n.size) (h0 : 0 < k) :
    eval? F v = some (LinkForest.eval F v) := by
  unfold eval? LinkForest.eval
  split
  case isTrue hs =>
    rw [h.compress?_eq ((h.ancestor_isSome hv).mp hs) hv h0 (Nat.le_refl v)]
    rfl
  case isFalse => rfl

end LinkForest

/-- The parent of a vertex that is not the root. -/
def Numbering.parent? (n : Numbering) (i : Nat) : Option Nat :=
  if 0 < i && i < n.size then some (n.parent i) else none

namespace DomState

open LinkForest

def findSemi? (preds : List Nat) (i : Nat) (F : LinkForest) : Option LinkForest :=
  preds.foldlM (fun F v => (F.eval? v).map fun r => r.2.lower i (r.2.semi r.1)) F

def settle? (p : Nat) (waiting : List Nat) (s : DomState) : Option DomState :=
  waiting.foldlM (fun s v => (s.forest.eval? v).map fun r =>
    { s with
      forest := r.2
      dom := override s.dom v (some (if r.2.semi r.1 < r.2.semi v then r.1 else p)) }) s

/-- Handles a vertex, which must have a parent and get the number of a vertex. -/
def process? (n : Numbering) (s : DomState) (i : Nat) : Option DomState :=
  (n.parent? i).bind fun p =>
    (findSemi? (n.preds i) i s.forest).bind fun F =>
      if F.semi i < n.size then
        let bucket := override s.bucket (F.semi i) (i :: s.bucket (F.semi i))
        (settle? p (bucket p) { s with forest := F.link p i, bucket }).map fun s =>
          { s with bucket := override s.bucket p [] }
      else none

/-- Finishes a vertex, which must have a provisional dominator, and this one a dominator if it is
asked for. -/
def finish? (s : DomState) (i : Nat) : Option DomState :=
  (s.dom i).bind fun d =>
    if d = s.forest.semi i then some s
    else (s.dom d).map fun e => { s with dom := override s.dom i (some e) }

def immediate? (n : Numbering) : Option DomState :=
  ((vertices n).reverse.foldlM (process? n) initial).bind fun s => (vertices n).foldlM finish? s

end DomState

/-- The dominator tree, computed so that every parent, link and dominator that is followed must be
there. -/
def FlowGraph.domTree? (g : FlowGraph) : Option DomTree :=
  let visits := g.spanning
  (DomState.immediate? (g.numbering visits)).bind fun s =>
    (((g.inOrder visits).filter fun v => v.2 ≠ 0).mapM fun v =>
      (s.dom v.2).bind fun d => visits[d]?.map fun a => (v.1.block, a.block)).map fun edges =>
        { root? := g.entry?, edges }

namespace DomState

open LinkForest

variable {n : Numbering} {F G : LinkForest} {s : DomState} {i k : Nat}

theorem findSemi?_eq (hn : n.IsSearch) (hlow : ∀ j, j < i → F.semi j = j)
    (hsemi : ∀ j, i < j → j < n.size → n.IsSemi (F.semi j) j) (hi : i < n.size)
    {todo seen : List Nat} (htodo : ∀ v ∈ todo, v ∈ n.preds i) (h : Lowered n F G i seen) :
    findSemi? todo i G = some (findSemi todo i G) := by
  induction todo generalizing G seen with
  | nil => rfl
  | cons v todo ih =>
    have hv := htodo v List.mem_cons_self
    have step := h.pred hn hlow hsemi hi hv
    have rest := ih (fun x hx => htodo x (List.mem_cons_of_mem v hx)) step
    simp only [findSemi?, findSemi, List.foldlM_cons, List.foldl_cons] at rest ⊢
    rw [h.tracks.eval?_eq (hn.preds_lt i v hi hv) (Nat.succ_pos i)]
    exact rest

theorem settle?_eq (hn : n.IsSearch) (hi0 : 0 < i) (p : Nat) {waiting : List Nat}
    (hwait : ∀ w ∈ waiting, w < n.size) (ht : s.forest.Tracks n i) :
    settle? p waiting s = some (settle p waiting s) := by
  induction waiting generalizing s with
  | nil => rfl
  | cons v waiting ih =>
    have hv := hwait v List.mem_cons_self
    have rest := ih (s := { s with
        forest := (s.forest.eval v).2
        dom := override s.dom v (some (if (s.forest.eval v).2.semi (s.forest.eval v).1 <
          (s.forest.eval v).2.semi v then (s.forest.eval v).1 else p)) })
      (fun w hw => hwait w (List.mem_cons_of_mem v hw)) (ht.eval hn.rooted hv hi0).1
    simp only [settle?, settle, List.foldlM_cons, List.foldl_cons] at rest ⊢
    rw [ht.eval?_eq hv hi0]
    exact rest

theorem Stage.process?_eq (hn : n.IsSearch) (h : Stage n s (i + 1)) (hi0 : 0 < i)
    (hin : i < n.size) :
    process? n s i = some (DomState.process n s i) := by
  have hlow : ∀ j, j ≤ i → s.forest.semi j = j := fun j hj => h.low j (Nat.lt_succ_of_le hj)
  have hfind := findSemi?_eq hn (fun j hj => hlow j (Nat.le_of_lt hj)) (fun j hj => h.semi j hj) hin
    (fun v hv => hv) (lowered_nil h.tracks (hlow i (Nat.le_refl i)))
  obtain ⟨ht, _, hsi⟩ := isSemi_findSemi hn h.tracks hlow (fun j hj => h.semi j hj) hi0 hin
  have hlt := Nat.lt_trans (hn.semi_lt hsi hi0) hin
  unfold process? DomState.process Numbering.parent?
  rw [if_pos (by simp [hi0, hin]), hfind, Option.bind_some, Option.bind_some, if_pos hlt]
  generalize findSemi (n.preds i) i s.forest = F at ht
  simp only
  rw [settle?_eq hn hi0 (n.parent i) (fun w hw => ?_) (ht.link hn.rooted hi0 hin)]
  · rfl
  · rcases mem_enter hw with ⟨rfl, _⟩ | hw
    · exact hin
    · exact (h.waits _ w hw).2.1

theorem Finished.finish?_eq {t : DomState} (h : Finished n s t k)
    (hv : ∃ d, s.dom k = some d ∧ Verdict n (s.forest.semi k) k d) :
    finish? t k = some (DomState.finish t k) := by
  obtain ⟨d, hd, hverdict⟩ := hv
  have htd : t.dom k = some d := (h.left k (Nat.le_refl k)).trans hd
  unfold finish? DomState.finish
  rw [htd, Option.bind_some]
  by_cases he : d = t.forest.semi k
  · rw [if_pos he, if_pos (congrArg some he)]
  · rw [if_neg he, if_neg fun h => he (Option.some.inj h)]
    rw [h.forest] at he
    obtain ⟨rfl, _⟩ | ⟨hlt, hdk, _⟩ := hverdict
    · exact absurd rfl he
    obtain ⟨e, hte, _⟩ := h.done d (by omega) hdk
    rw [Option.bind_some, hte]
    rfl

theorem immediate?_eq (hn : n.IsSearch) (h : 0 < n.size) : immediate? n = some (immediate n) := by
  have down : ∀ m s, m < n.size → Stage n s (m + 1) →
      (List.range' 1 m).reverse.foldlM (process? n) s =
        some ((List.range' 1 m).reverse.foldl (DomState.process n) s) := by
    intro m
    induction m with
    | zero => exact fun s _ _ => rfl
    | succ m ih =>
      intro s hm hs
      rw [List.range'_1_concat, List.reverse_append, List.reverse_singleton, List.singleton_append,
        List.foldlM_cons, List.foldl_cons, Nat.add_comm 1 m, hs.process?_eq hn (Nat.succ_pos m) hm]
      exact ih _ (by omega) (hs.process hn (Nat.succ_pos m) hm)
  have up : ∀ m, m < n.size → (List.range' 1 m).foldlM finish? (provisional n) =
      some ((List.range' 1 m).foldl DomState.finish (provisional n)) := by
    intro m
    induction m with
    | zero => exact fun _ => rfl
    | succ m ih =>
      intro hm
      have hf := (finished_provisional hn (m := m) (by omega)).finish?_eq
        (verdict_provisional hn (Nat.succ_pos m) hm)
      rw [List.range'_1_concat, List.foldlM_append, List.foldl_append, ih (by omega),
        Nat.add_comm 1 m]
      simp only [Option.bind_eq_bind, Option.bind_some, List.foldlM_cons, List.foldlM_nil,
        List.foldl_cons, List.foldl_nil, hf]
      rfl
  have start : Stage n initial (n.size - 1 + 1) := by
    rw [Nat.sub_add_cancel h]
    exact stage_initial
  unfold immediate? vertices
  rw [down (n.size - 1) initial (by omega) start, Option.bind_some]
  exact up (n.size - 1) (by omega)

end DomState

namespace FlowGraph

variable {g : FlowGraph} {r : BlockRef}

/-- Every vertex but the root has a dominator, and this one a block. -/
theorem mapM_edges_eq (hg : g.Closed) (hr : g.entry? = some r) (l : List (Visit × Nat))
    (hl : ∀ v ∈ l, g.spanning[v.2]? = some v.1) :
    (l.filter fun v => v.2 ≠ 0).mapM
      (fun v => ((DomState.immediate g.spanned).dom v.2).bind fun d =>
        g.spanning[d]?.map fun a => (v.1.block, a.block)) =
    some (l.filterMap fun v => if v.2 = 0 then none else
      ((DomState.immediate g.spanned).dom v.2).bind fun d =>
        (g.spanning.map Visit.block).toArray[d]?.map fun a => (v.1.block, a)) := by
  induction l with
  | nil => rfl
  | cons v l ih =>
    have rest := ih fun u hu => hl u (List.mem_cons_of_mem v hu)
    have hv := hl v List.mem_cons_self
    by_cases h0 : v.2 = 0
    · rw [List.filter_cons_of_neg (by simpa using h0), List.filterMap_cons_none (by simp [h0])]
      exact rest
    · obtain ⟨d, hdi, hd, _⟩ := exists_immediate hg hr (Nat.pos_of_ne_zero h0) (lt_of_visit hv)
      obtain ⟨u, hu, _⟩ := exists_visit (Nat.lt_trans hdi (lt_of_visit hv))
      rw [List.filter_cons_of_pos (by simpa using h0), List.mapM_cons, rest,
        List.filterMap_cons_some (b := (v.1.block, u.block)) (by simp [h0, hd, hu])]
      simp [hd, hu]

/-- Nothing that the computation follows is missing. -/
theorem domTree?_eq (hg : g.Closed) (hr : g.entry? = some r) : g.domTree? = some g.domTree := by
  simp only [domTree?, domTree]
  rw [DomState.immediate?_eq (isSearch_spanned hg hr) (zero_lt_spanned hg hr), Option.bind_some,
    mapM_edges_eq hg hr _ fun v hv => (mem_inOrder hg hr).mp hv]
  rfl

end FlowGraph

end KernelIR
