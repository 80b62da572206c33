import KernelIR.Proofs.Graph.LinkPath
import KernelIR.Proofs.Graph.Onward
import Mathlib

namespace KernelIR

namespace DomState

open LinkForest

/-- How far the vertices are handled. In `next k` those from `k` on are handled; in `search` the
predecessors `todo` of `i` are still to be asked; in `offer` one of them has answered `q`; in
`settle` vertex `i` is linked, and what is in `todo` still waits for its parent. -/
inductive Phase where
  | next (k : Nat)
  | search (i : Nat) (todo : List Nat)
  | offer (i q : Nat) (todo : List Nat)
  | settle (i : Nat) (todo : List Nat)

/-- A moment of the computation. The links are recorded as they are made, and no step looks at the
record. -/
structure Moment where
  phase : Phase
  state : DomState
  links : Nat → Option Nat

/-- Links `i` to its parent and lets it wait in the bucket of its semidominator. -/
def enqueue (s : DomState) (i p : Nat) : DomState :=
  { s with
    forest := s.forest.link p i
    bucket := override s.bucket (s.forest.semi i) (i :: s.bucket (s.forest.semi i)) }

namespace Moment

def start (n : Numbering) : Moment := ⟨.next n.size, .initial, fun _ => none⟩

/-- The steps of handling the vertices. Predecessors are asked in any order, some perhaps more than
once, and what waits is settled in any order. -/
inductive Step (n : Numbering) : Moment → Moment → Prop where
  | enter {i s links todo} (hi : 0 < i) (h : ∀ v, v ∈ todo ↔ v ∈ n.preds i) :
      Step n ⟨.next (i + 1), s, links⟩ ⟨.search i todo, s, links⟩
  | ask {i v todo s links} :
      Step n ⟨.search i (v :: todo), s, links⟩
        ⟨.offer i (s.forest.eval v).1 todo, { s with forest := (s.forest.eval v).2 }, links⟩
  | lower {i q todo s links} :
      Step n ⟨.offer i q todo, s, links⟩
        ⟨.search i todo, { s with forest := s.forest.lower i (s.forest.semi q) }, links⟩
  | link {i waiting s links} (h : waiting.Perm ((s.enqueue i (n.parent i)).bucket (n.parent i))) :
      Step n ⟨.search i [], s, links⟩
        ⟨.settle i waiting, s.enqueue i (n.parent i), override links i (some (n.parent i))⟩
  | settle {i v todo s links} :
      Step n ⟨.settle i (v :: todo), s, links⟩ ⟨.settle i todo,
        DomState.settle (n.parent i) [v] s, links⟩
  | leave {i s links} :
      Step n ⟨.settle i [], s, links⟩
        ⟨.next i, { s with bucket := override s.bucket (n.parent i) [] }, links⟩

def Steps (n : Numbering) : Moment → Moment → Prop := Relation.ReflTransGen (Step n)

def Reached (n : Numbering) (m : Moment) : Prop := Steps n (start n) m

/-- The moment after one more query, which touches nothing but the forest. -/
def query (m : Moment) (v : Nat) : Moment :=
  { m with state := { m.state with forest := (m.state.forest.eval v).2 } }

/-- Whether two moments differ at most in how far paths are compressed, which no query shows. -/
structure Alike (n : Numbering) (m t : Moment) : Prop where
  phase : m.phase = t.phase
  links : m.links = t.links
  bucket : m.state.bucket = t.state.bucket
  dom : m.state.dom = t.state.dom
  semi : m.state.forest.semi = t.state.forest.semi
  answer : ∀ w, w < n.size → (m.state.forest.eval w).1 = (t.state.forest.eval w).1

end Moment

/-- The vertices from here on are linked. -/
def Phase.level : Phase → Nat
  | .next k => k
  | .search i _ => i + 1
  | .offer i _ _ => i + 1
  | .settle i _ => i

/-- Whether a phase only speaks of vertices, and the root is not to be linked. -/
def Phase.Within (n : Numbering) : Phase → Prop
  | .next k => k ≤ n.size ∧ (0 < n.size → 0 < k)
  | .search i todo => 0 < i ∧ i < n.size ∧ ∀ v ∈ todo, v < n.size
  | .offer i _ todo => 0 < i ∧ i < n.size ∧ ∀ v ∈ todo, v < n.size
  | .settle i todo => 0 < i ∧ i < n.size ∧ ∀ v ∈ todo, v < n.size

theorem Phase.Within.level_pos {n : Numbering} {p : Phase} (h : p.Within n) (hn : 0 < n.size) :
    0 < p.level := by
  cases p with
  | next k => exact h.2 hn
  | search i todo => exact Nat.succ_pos i
  | offer i q todo => exact Nat.succ_pos i
  | settle i todo => exact h.1

namespace Moment

/-- What holds at every moment. -/
structure Sound (n : Numbering) (m : Moment) : Prop where
  phase : m.phase.Within n
  bucket : ∀ p, ∀ w ∈ m.state.bucket p, w < n.size
  links : m.links = n.linksFrom m.phase.level
  forest : m.state.forest.Faithful n m.phase.level

variable {n : Numbering} {m m' t : Moment} {v : Nat}

theorem sound_start (n : Numbering) : Sound n (start n) where
  phase := ⟨Nat.le_refl _, id⟩
  bucket _ _ hw := absurd hw List.not_mem_nil
  links := Numbering.linksFrom_size.symm
  forest := faithful_initial

theorem Sound.level_pos (h : Sound n m) (hv : v < n.size) : 0 < m.phase.level :=
  h.phase.level_pos (Nat.zero_lt_of_lt hv)

theorem Sound.answers (hn : n.Rooted) (h : Sound n m) (hv : v < n.size) :
    Answers m.links m.state.forest.semi v (m.state.forest.eval v).1 :=
  h.links ▸ h.forest.answers hn (h.level_pos hv) hv

theorem Sound.compresses (h : Sound n m) (hv : v < n.size) (hl : (m.links v).isSome) :
    Compresses m.state.forest v (m.state.forest.eval v).2 := by
  rw [h.links, Numbering.linksFrom_isSome] at hl
  exact h.forest.tracks.compresses (h.level_pos hv) hl.1 hv

theorem Sound.eval_semi (hn : n.Rooted) (h : Sound n m) (hv : v < n.size) :
    (m.state.forest.eval v).2.semi = m.state.forest.semi :=
  (h.forest.tracks.eval hn hv (h.level_pos hv)).2.1

theorem Sound.query (hn : n.Rooted) (h : Sound n m) (hv : v < n.size) : Sound n (m.query v) :=
  ⟨h.phase, h.bucket, h.links, h.forest.eval hn (h.level_pos hv) hv⟩

theorem Sound.step (hn : n.Rooted) (h : Sound n m) (hs : Step n m t) : Sound n t := by
  obtain ⟨hphase, hbucket, hlinks, hforest⟩ := h
  cases hs with
  | @enter i s links todo hi htodo =>
    have hlt : i < n.size := hphase.1
    exact ⟨⟨hi, hlt, fun v hv => hn.preds_lt i v hlt ((htodo v).mp hv)⟩, hbucket, hlinks, hforest⟩
  | @ask i v todo s links =>
    obtain ⟨hi, hlt, htodo⟩ := hphase
    exact ⟨⟨hi, hlt, fun w hw => htodo w (List.mem_cons_of_mem v hw)⟩, hbucket, hlinks,
      hforest.eval hn (Nat.succ_pos i) (htodo v List.mem_cons_self)⟩
  | lower => exact ⟨hphase, hbucket, hlinks, hforest.lower _⟩
  | @link i waiting s links hwaiting =>
    obtain ⟨hi, hlt, _⟩ := hphase
    have hentered : ∀ p, ∀ w ∈ (s.enqueue i (n.parent i)).bucket p, w < n.size := by
      intro p w hw
      rcases mem_enter hw with ⟨rfl, _⟩ | hw
      · exact hlt
      · exact hbucket p w hw
    refine ⟨⟨hi, hlt, fun w hw => hentered _ w (hwaiting.mem_iff.mp hw)⟩, hentered, ?_,
      hforest.link hn hi hlt⟩
    have hlinks : links = n.linksFrom (i + 1) := hlinks
    rw [hlinks]
    exact Numbering.linksFrom_link hlt
  | @settle i v todo s links =>
    obtain ⟨hi, hlt, htodo⟩ := hphase
    exact ⟨⟨hi, hlt, fun w hw => htodo w (List.mem_cons_of_mem v hw)⟩, hbucket, hlinks,
      hforest.eval hn hi (htodo v List.mem_cons_self)⟩
  | @leave i s links =>
    obtain ⟨hi, hlt, _⟩ := hphase
    refine ⟨⟨Nat.le_of_lt hlt, fun _ => hi⟩, fun p w hw => ?_, hlinks, hforest⟩
    simp only [override] at hw
    split at hw
    · exact absurd hw List.not_mem_nil
    · exact hbucket p w hw

theorem Sound.steps (hn : n.Rooted) (h : Sound n m) (hs : Steps n m t) : Sound n t := by
  induction hs with
  | refl => exact h
  | tail _ hs ih => exact ih.step hn hs

theorem Reached.sound (hn : n.Rooted) (h : Reached n m) : Sound n m := (sound_start n).steps hn h

/-- What a query answers is settled by the links and the numbers. -/
theorem Sound.alike (hn : n.Rooted) (hm : Sound n m) (ht : Sound n t) (hphase : m.phase = t.phase)
    (hbucket : m.state.bucket = t.state.bucket) (hdom : m.state.dom = t.state.dom)
    (hsemi : m.state.forest.semi = t.state.forest.semi) : Alike n m t := by
  have hlinks : m.links = t.links := by rw [hm.links, ht.links, hphase]
  refine ⟨hphase, hlinks, hbucket, hdom, hsemi, fun w hw => ?_⟩
  have hanswer := hm.answers hn hw
  rw [hlinks, hsemi] at hanswer
  exact hanswer.unique (ht.answers hn hw)

theorem Alike.symm (h : Alike n m t) : Alike n t m :=
  ⟨h.phase.symm, h.links.symm, h.bucket.symm, h.dom.symm, h.semi.symm,
    fun w hw => (h.answer w hw).symm⟩

theorem Sound.query_alike (hn : n.Rooted) (h : Sound n m) (hv : v < n.size) :
    Alike n (m.query v) m :=
  (h.query hn hv).alike hn h rfl rfl rfl (h.eval_semi hn hv)

theorem Alike.eval_semi (hn : n.Rooted) (h : Alike n m t) (hm : Sound n m) (ht : Sound n t)
    (hv : v < n.size) :
    (m.state.forest.eval v).2.semi = (t.state.forest.eval v).2.semi :=
  (hm.eval_semi hn hv).trans (h.semi.trans (ht.eval_semi hn hv).symm)

/-- Every step from a moment is one from a moment that is like it. -/
theorem Alike.step (hn : n.Rooted) (h : Alike n m t) (hm : Sound n m) (ht : Sound n t)
    (hs : Step n m m') :
    ∃ t', Step n t t' ∧ Alike n m' t' := by
  have hm' := hm.step hn hs
  -- it is enough to give a step after which phase, buckets, dominators and numbers agree
  suffices hmatch : ∃ t', Step n t t' ∧ m'.phase = t'.phase ∧ m'.state.bucket = t'.state.bucket ∧
      m'.state.dom = t'.state.dom ∧ m'.state.forest.semi = t'.state.forest.semi by
    obtain ⟨t', hs', hphase, hbucket, hdom, hsemi⟩ := hmatch
    exact ⟨t', hs', hm'.alike hn (ht.step hn hs') hphase hbucket hdom hsemi⟩
  have heval := fun v (hv : v < n.size) => h.eval_semi hn hm ht hv
  obtain ⟨phase, s, links⟩ := m
  obtain ⟨phase', s', links'⟩ := t
  obtain ⟨hphase, _, hbucket, hdom, hsemi, hanswer⟩ := h
  simp only at hphase hbucket hdom hsemi hanswer heval
  subst hphase
  cases hs with
  | enter hi htodo => exact ⟨_, .enter hi htodo, rfl, hbucket, hdom, hsemi⟩
  | @ask i v todo =>
    have hv := hm.phase.2.2 v List.mem_cons_self
    refine ⟨_, .ask, ?_, hbucket, hdom, heval v hv⟩
    rw [hanswer v hv]
  | lower =>
    refine ⟨_, .lower, rfl, hbucket, hdom, ?_⟩
    simp only [LinkForest.lower, hsemi]
  | @link i waiting _ _ hwaiting =>
    have henqueue : (s.enqueue i (n.parent i)).bucket = (s'.enqueue i (n.parent i)).bucket := by
      simp only [enqueue, hbucket, hsemi]
    exact ⟨_, .link (henqueue ▸ hwaiting), rfl, henqueue, hdom, hsemi⟩
  | @settle i v todo =>
    have hv := hm.phase.2.2 v List.mem_cons_self
    refine ⟨_, .settle, rfl, hbucket, ?_, heval v hv⟩
    simp only [DomState.settle, List.foldl_cons, List.foldl_nil, hdom, heval v hv, hanswer v hv]
  | leave =>
    refine ⟨_, .leave, rfl, ?_, hdom, hsemi⟩
    simp only [hbucket]

theorem Alike.steps (hn : n.Rooted) (h : Alike n m t) (hm : Sound n m) (ht : Sound n t)
    (hs : Steps n m m') :
    ∃ t', Steps n t t' ∧ Alike n m' t' := by
  induction hs with
  | refl => exact ⟨t, .refl, h⟩
  | tail hs hlast ih =>
    obtain ⟨t', hs', h'⟩ := ih
    obtain ⟨t'', hlast', h''⟩ := h'.step hn (hm.steps hn hs) (ht.steps hn hs') hlast
    exact ⟨t'', Relation.ReflTransGen.tail hs' hlast', h''⟩

theorem steps_search (n : Numbering) (i : Nat) (todo : List Nat) (s : DomState)
    (links : Nat → Option Nat) :
    Steps n ⟨.search i todo, s, links⟩
      ⟨.search i [], { s with forest := findSemi todo i s.forest }, links⟩ := by
  induction todo generalizing s with
  | nil => exact .refl
  | cons v todo ih =>
    exact Relation.ReflTransGen.head .ask (Relation.ReflTransGen.head .lower (ih _))

theorem steps_settle (n : Numbering) (i : Nat) (todo : List Nat) (s : DomState)
    (links : Nat → Option Nat) :
    Steps n ⟨.settle i todo, s, links⟩ ⟨.settle i [], DomState.settle (n.parent i) todo s,
      links⟩ := by
  induction todo generalizing s with
  | nil => exact .refl
  | cons v todo ih => exact Relation.ReflTransGen.head .settle (ih _)

/-- Handling a vertex takes these steps. -/
theorem steps_process {i : Nat} (hi : 0 < i) (s : DomState) (links : Nat → Option Nat) :
    Steps n ⟨.next (i + 1), s, links⟩ ⟨.next i, process n s i,
      override links i (some (n.parent i))⟩ := by
  refine Relation.ReflTransGen.head (.enter hi fun v => Iff.rfl)
    ((steps_search n i _ s links).trans ?_)
  refine Relation.ReflTransGen.head (.link (List.Perm.refl _)) ((steps_settle n i _ _ _).trans ?_)
  exact Relation.ReflTransGen.single .leave

theorem reached_provisional (n : Numbering) :
    ∃ links, Reached n ⟨.next (min 1 n.size), provisional n, links⟩ := by
  rcases Nat.eq_zero_or_pos n.size with h0 | h0
  · refine ⟨fun _ => none, ?_⟩
    have hnone : provisional n = initial := by simp [provisional, vertices, h0]
    rw [hnone, h0, Nat.min_eq_right (Nat.zero_le 1), ← h0]
    exact .refl
  · rw [Nat.min_eq_left h0]
    refine provisional_induction (P := fun i s => ∃ links, Reached n ⟨.next i, s, links⟩) h0
      ⟨fun _ => none, .refl⟩ fun i s hi _ hs => ?_
    obtain ⟨links, hs⟩ := hs
    exact ⟨_, hs.trans (steps_process hi s links)⟩

end Moment

end DomState

namespace FlowGraph

open LinkForest DomState

/-- Dominators are computed through such moments, wherever the branches of the graph lead. At each
of them a query at any vertex answers what the links made so far say, however far paths are
compressed; its own compression ends; and all goes on after it as if it had not been made. -/
theorem queries_ignore_compression (g : FlowGraph) :
    (∃ links,
      Moment.Reached g.spanned ⟨.next (min 1 g.spanned.size), provisional g.spanned, links⟩) ∧
    ∀ m, Moment.Reached g.spanned m → ∀ v, v < g.spanned.size →
      Answers m.links m.state.forest.semi v (m.state.forest.eval v).1 ∧
      ((m.links v).isSome → Compresses m.state.forest v (m.state.forest.eval v).2) ∧
      Moment.Alike g.spanned (m.query v) m ∧
      (∀ t, Moment.Steps g.spanned (m.query v) t →
        ∃ u, Moment.Steps g.spanned m u ∧ Moment.Alike g.spanned t u) ∧
      ∀ u, Moment.Steps g.spanned m u →
        ∃ t, Moment.Steps g.spanned (m.query v) t ∧ Moment.Alike g.spanned t u := by
  have hn := g.into_spanned.rooted
  refine ⟨Moment.reached_provisional _, fun m hm v hv => ?_⟩
  have hsound := hm.sound hn
  have hquery := hsound.query hn hv
  have halike := hsound.query_alike hn hv
  refine ⟨hsound.answers hn hv, hsound.compresses hv, halike, fun t ht => ?_, fun u hu => ?_⟩
  · exact halike.steps hn hquery hsound ht
  · obtain ⟨t, ht, h⟩ := halike.symm.steps hn hsound hquery hu
    exact ⟨t, ht, h.symm⟩

/-- Four blocks in a row, from the last of which a branch leads back to the second. -/
def lasso : FlowGraph :=
  { own := [(⟨0, 1⟩, [⟨0, 2⟩]), (⟨0, 2⟩, [⟨0, 3⟩]), (⟨0, 3⟩, [⟨0, 4⟩]), (⟨0, 4⟩, [⟨0, 2⟩])] }

/-- The moment when the last two blocks are linked and the predecessors of the second are to be
asked. -/
def lassoTail : Moment :=
  ⟨.search 1 (lasso.spanned.preds 1), process lasso.spanned (process lasso.spanned .initial 3) 2,
    override (override (fun _ => none) 3 (some (lasso.spanned.parent 3))) 2
      (some (lasso.spanned.parent 2))⟩

theorem lasso_size : lasso.spanned.size = 4 := by cbv

theorem lassoTail_reached : Moment.Reached lasso.spanned lassoTail := by
  have hstart : Moment.Reached lasso.spanned ⟨.next 4, .initial, fun _ => none⟩ := by
    have h : Moment.Reached lasso.spanned (Moment.start lasso.spanned) := .refl
    rwa [Moment.start, lasso_size] at h
  have hthree := hstart.trans (Moment.steps_process (i := 3) (by decide) _ _)
  have htwo := hthree.trans (Moment.steps_process (i := 2) (by decide) _ _)
  exact Relation.ReflTransGen.tail htwo (.enter (by decide) fun v => Iff.rfl)

/-- A query at the last block answers the third, and from then on its link passes over the third. -/
theorem lassoTail_query :
    Moment.Reached lasso.spanned lassoTail ∧ lassoTail.state.forest.ancestor 3 = some 2 ∧
    (lassoTail.query 3).state.forest.ancestor 3 = some 1 ∧ (lassoTail.links 3).isSome ∧
    Answers lassoTail.links lassoTail.state.forest.semi 3 2 ∧
    Compresses lassoTail.state.forest 3 (lassoTail.query 3).state.forest ∧
    Moment.Alike lasso.spanned (lassoTail.query 3) lassoTail := by
  obtain ⟨_, h⟩ := queries_ignore_compression lasso
  obtain ⟨hanswer, hcompresses, halike, _⟩ :=
    h lassoTail lassoTail_reached 3 (by rw [lasso_size]; decide)
  have htwo : (lassoTail.state.forest.eval 3).1 = 2 := by cbv
  have hlinked : (lassoTail.links 3).isSome := by cbv
  rw [htwo] at hanswer
  exact ⟨lassoTail_reached, by cbv, by cbv, hlinked, hanswer, hcompresses hlinked, halike⟩

end FlowGraph

end KernelIR
