import KernelIR.Analysis
import KernelIR.Proofs.Graph.CheckedDominators

namespace KernelIR

theorem lookup_eq_of_mem {α β : Type} [DecidableEq α] {l : List (α × β)} {a : α} {b : β}
    (hn : (l.map Prod.fst).Nodup) (h : (a, b) ∈ l) : l.lookup a = some b := by
  induction l with
  | nil => exact absurd h List.not_mem_nil
  | cons e l ih =>
    rw [List.map_cons, List.nodup_cons] at hn
    rw [List.lookup_cons]
    rcases List.mem_cons.mp h with rfl | h
    · simp
    · have hne : a ≠ e.1 := fun he => hn.1 (he ▸ List.mem_map.mpr ⟨(a, b), h, rfl⟩)
      rw [beq_false_of_ne hne]
      exact ih hn.2 h

theorem lookup_eq_none_of_not_mem {α β : Type} [DecidableEq α] {l : List (α × β)} {a : α}
    (h : a ∉ l.map Prod.fst) : l.lookup a = none := by
  rw [List.lookup_eq_none_iff]
  intro e he
  have hne : a ≠ e.1 := fun heq => h (heq ▸ List.mem_map_of_mem he)
  exact bne_iff_ne.mpr hne

theorem find?_iff_of_unique {α : Type} {P : α → Bool} {l : List α} {x : α}
    (h : ∀ a ∈ l, ∀ b ∈ l, P a = true → P b = true → a = b) :
    l.find? P = some x ↔ x ∈ l ∧ P x = true := by
  constructor
  · intro hx
    exact ⟨List.mem_of_find?_eq_some hx, by simpa using List.find?_some hx⟩
  · intro hx
    have hsome : (l.find? P).isSome := List.find?_isSome.mpr ⟨x, hx⟩
    obtain ⟨y, hy⟩ := Option.isSome_iff_exists.mp hsome
    have hpy : P y = true := by simpa using List.find?_some hy
    rw [hy, h y (List.mem_of_find?_eq_some hy) x hx.1 hpy hx.2]

theorem find?_key_iff {α κ : Type} [DecidableEq κ] {key : α → κ} {l : List α} {c : κ} {x : α}
    (hn : (l.map key).Nodup) : l.find? (fun y => key y = c) = some x ↔ x ∈ l ∧ key x = c := by
  rw [find?_iff_of_unique, decide_eq_true_eq]
  intro a ha b hb hac hbc
  exact List.inj_on_of_nodup_map hn ha hb
    ((of_decide_eq_true hac).trans (of_decide_eq_true hbc).symm)

namespace Func

/-- The branches of a function's blocks. -/
def Edge (f : Func) (a b : BlockRef) : Prop := ∃ k ∈ f.blocks, a = f.ref k.id ∧ b ∈ k.succs

/-- The block where execution starts. -/
def entryRef? (f : Func) : Option BlockRef := f.entry?.map fun k => f.ref k.id

/-- The blocks that a path from the entry to `b` passes through. -/
def EntryPath (f : Func) (p : List BlockRef) (b : BlockRef) : Prop :=
  ∃ r, f.entryRef? = some r ∧ Walk f.Edge r p b

def Reaches (f : Func) (b : BlockRef) : Prop := ∃ p, f.EntryPath p b

/-- Whether every path from the entry to `b` passes through `a`. -/
def Dominates (f : Func) (a b : BlockRef) : Prop := ∀ p, f.EntryPath p b → a ∈ p

def StrictlyDominates (f : Func) (a b : BlockRef) : Prop := a ≠ b ∧ f.Dominates a b

/-- Whether `d` is a strict dominator of `b` that every other one dominates. -/
def ImmediatelyDominates (f : Func) (d b : BlockRef) : Prop :=
  f.StrictlyDominates d b ∧ ∀ c, f.StrictlyDominates c b → c ≠ d → f.Dominates c d

/-- Whether the blocks have numbers of their own and every branch leads to one of them. -/
structure Linked (f : Func) : Prop where
  distinct : (f.blocks.map Block.id).Nodup
  targets : ∀ k ∈ f.blocks, ∀ s ∈ k.succs, ∃ t ∈ f.blocks, s = f.ref t.id

variable {f : Func} {r a b d : BlockRef} {k : Block}

theorem nodes_flow (f : Func) : f.flow.nodes = f.blocks.map fun k => f.ref k.id := by
  simp [FlowGraph.nodes, FlowGraph.out, flow]

theorem mem_nodes_flow : b ∈ f.flow.nodes ↔ ∃ k ∈ f.blocks, b = f.ref k.id := by
  rw [nodes_flow, List.mem_map]
  exact ⟨fun ⟨k, hk, h⟩ => ⟨k, hk, h.symm⟩, fun ⟨k, hk, h⟩ => ⟨k, hk, h.symm⟩⟩

theorem entry?_flow (f : Func) : f.flow.entry? = f.entryRef? := by
  simp [FlowGraph.entry?, flow, entryRef?, entry?, Option.map_map, Function.comp_def]

theorem Linked.nodup_nodes (h : f.Linked) : f.flow.nodes.Nodup := by
  rw [nodes_flow]
  refine List.Nodup.of_map BlockRef.number ?_
  rw [List.map_map]
  exact h.distinct

theorem succs_flow (h : f.Linked) (hk : k ∈ f.blocks) : f.flow.succs (f.ref k.id) = k.succs := by
  have hmem : (f.ref k.id, k.succs) ∈ f.flow.out :=
    List.mem_append_left _ (List.mem_map.mpr ⟨k, hk, rfl⟩)
  rw [FlowGraph.succs, lookup_eq_of_mem h.nodup_nodes hmem, Option.getD_some]

theorem edge_flow_iff (h : f.Linked) : f.flow.Edge a b ↔ f.Edge a b := by
  constructor
  · intro he
    have ha : a ∈ f.flow.nodes := by
      by_contra hn
      rw [FlowGraph.Edge, FlowGraph.succs, lookup_eq_none_of_not_mem hn] at he
      exact absurd he List.not_mem_nil
    obtain ⟨k, hk, rfl⟩ := mem_nodes_flow.mp ha
    rw [FlowGraph.Edge, succs_flow h hk] at he
    exact ⟨k, hk, rfl, he⟩
  · rintro ⟨k, hk, rfl, he⟩
    rw [FlowGraph.Edge, succs_flow h hk]
    exact he

theorem edge_flow (h : f.Linked) : f.flow.Edge = f.Edge := by
  funext a b
  exact propext (edge_flow_iff h)

theorem Linked.closed (h : f.Linked) : f.flow.Closed where
  distinct := by
    have hn : f.flow.numbers = f.blocks.map Block.id := by
      simp [FlowGraph.numbers, nodes_flow, Function.comp_def, ref]
    rw [hn]
    exact h.distinct
  succs a b he := by
    obtain ⟨k, hk, rfl, hb⟩ := (edge_flow_iff h).mp he
    exact mem_nodes_flow.mpr (h.targets k hk b hb)

theorem Linked.isClosed (h : f.Linked) : f.isClosed = true := by
  simp only [Func.isClosed, List.all_eq_true, decide_eq_true_eq]
  intro k hk s hs
  obtain ⟨t, _, rfl⟩ := h.targets k hk s hs
  rfl

/-- No other function takes part in the analysis of such a function. -/
theorem Linked.flow_eq (h : f.Linked) (m : Module) : m.flow f = f.flow := by
  simp [Module.flow, h.isClosed, flow]

theorem Linked.domTree_eq (h : f.Linked) (m : Module) : m.domTree f = f.flow.domTree := by
  rw [Module.domTree, h.flow_eq]

section Entry

variable (hr : f.entryRef? = some r)

include hr

theorem entryPath_iff {p : List BlockRef} : f.EntryPath p b ↔ Walk f.Edge r p b := by
  constructor
  · rintro ⟨x, hx, w⟩
    rw [hr] at hx
    cases hx
    exact w
  · exact fun w => ⟨r, hr, w⟩

theorem reaches_iff : f.Reaches b ↔ KernelIR.Reaches f.Edge r b :=
  exists_congr fun _ => entryPath_iff hr

theorem dominates_iff : f.Dominates a b ↔ KernelIR.Dominates f.Edge r a b :=
  forall_congr' fun _ => imp_congr_left (entryPath_iff hr)

theorem strictlyDominates_iff : f.StrictlyDominates a b ↔ KernelIR.StrictlyDominates f.Edge r a b :=
  and_congr_right fun _ => dominates_iff hr

theorem immediatelyDominates_iff :
    f.ImmediatelyDominates d b ↔ KernelIR.ImmediatelyDominates f.Edge r d b := by
  constructor
  · rintro ⟨hs, hc⟩
    refine ⟨(strictlyDominates_iff hr).mp hs, fun c h => ?_⟩
    by_cases he : c = d
    · exact he ▸ KernelIR.Dominates.refl c
    · exact (dominates_iff hr).mp (hc c ((strictlyDominates_iff hr).mpr h) he)
  · intro h
    refine ⟨(strictlyDominates_iff hr).mpr h.strict, fun c hc _ => ?_⟩
    exact (dominates_iff hr).mpr (h.closest c ((strictlyDominates_iff hr).mp hc))

end Entry

theorem exists_entry (hk : k ∈ f.blocks) : ∃ r, f.entryRef? = some r := by
  cases hb : f.blocks with
  | nil => rw [hb] at hk; exact absurd hk List.not_mem_nil
  | cons e bs => exact ⟨f.ref e.id, by simp [entryRef?, entry?, hb]⟩

theorem Reaches.entry (hr : f.entryRef? = some r) : f.Reaches r := ⟨[r], r, hr, .single r⟩

theorem Reaches.step (h : f.Reaches a) (e : f.Edge a b) : f.Reaches b := by
  obtain ⟨p, r, hr, w⟩ := h
  exact ⟨_, r, hr, w.snoc e⟩

theorem Reaches.walk (h : f.Reaches a) {p : List BlockRef} (w : Walk f.Edge a p b) :
    ∀ x ∈ p, f.Reaches x :=
  w.closed h fun _ _ hx e => hx.step e

theorem Reaches.mem_nodes (h : f.Reaches b) (hf : f.Linked) : b ∈ f.flow.nodes := by
  obtain ⟨p, r, hr, w⟩ := h
  rw [← edge_flow hf] at w
  have hnode := FlowGraph.entry_mem_nodes ((entry?_flow f).trans hr)
  exact w.closed hnode (fun x y _ e => hf.closed.succs x y e) b w.last_mem

theorem Edge.mem_nodes (e : f.Edge a b) : a ∈ f.flow.nodes := by
  obtain ⟨k, hk, rfl, _⟩ := e
  exact mem_nodes_flow.mpr ⟨k, hk, rfl⟩

namespace Dominates

theorem refl (a : BlockRef) : f.Dominates a a := by
  intro p h
  obtain ⟨r, _, w⟩ := h
  exact w.last_mem

theorem trans (h : f.Dominates a b) (k : f.Dominates b d) : f.Dominates a d := by
  intro p hp
  obtain ⟨r, hr, w⟩ := hp
  exact ((dominates_iff hr).mp h).trans ((dominates_iff hr).mp k) p w

theorem reaches (h : f.Dominates a b) (hb : f.Reaches b) : f.Reaches a := by
  have hb' := hb
  obtain ⟨p, r, hr, w⟩ := hb'
  exact (reaches_iff hr).mpr (((dominates_iff hr).mp h).reaches ((reaches_iff hr).mp hb))

theorem antisymm (h : f.Dominates a b) (k : f.Dominates b a) (hb : f.Reaches b) : a = b := by
  have hb' := hb
  obtain ⟨p, r, hr, w⟩ := hb'
  exact ((dominates_iff hr).mp h).antisymm ((dominates_iff hr).mp k) ((reaches_iff hr).mp hb)

theorem pred (h : f.Dominates a b) (hne : a ≠ b) (e : f.Edge d b) : f.Dominates a d := by
  intro p hp
  obtain ⟨r, hr, w⟩ := hp
  exact ((dominates_iff hr).mp h).pred hne e p w

theorem of_preds (hne : f.entryRef? ≠ some b)
    (h : ∀ c, f.Reaches c → f.Edge c b → f.Dominates a c ∨ f.Dominates b c) : f.Dominates a b := by
  intro p hp
  obtain ⟨r, hr, w⟩ := hp
  have hrb : r ≠ b := fun he => hne (he ▸ hr)
  refine KernelIR.Dominates.of_preds hrb (fun c hc e => ?_) p w
  rw [← dominates_iff hr, ← dominates_iff hr]
  exact h c ((reaches_iff hr).mpr hc) e

theorem of_walk {p : List BlockRef} (h : f.Dominates a d) (w : Walk f.Edge b p d) :
    a ∈ p ∨ f.Dominates a b := by
  by_cases ha : a ∈ p
  · exact Or.inl ha
  · right
    intro q hq
    obtain ⟨r, hr, v⟩ := hq
    exact (((dominates_iff hr).mp h).of_walk w).resolve_left ha q v

theorem linear (h : f.Dominates a d) (k : f.Dominates b d) (hd : f.Reaches d) :
    f.Dominates a b ∨ f.Dominates b a := by
  have hd' := hd
  obtain ⟨p, r, hr, w⟩ := hd'
  rw [dominates_iff hr, dominates_iff hr]
  exact ((dominates_iff hr).mp h).linear ((dominates_iff hr).mp k) ((reaches_iff hr).mp hd)

end Dominates

end Func

end KernelIR
