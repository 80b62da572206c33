import KernelIR.Module
import KernelIR.Preheader
import KernelIR.Proofs.Flow

namespace KernelIR

/-- The instruction that a value is the result of. -/
def Value.instr? : Value → Option InstrId
  | .instr d => some d
  | _ => none

/-- The instructions whose results an operation takes. -/
def Operation.reads (o : Operation) : List InstrId := o.operands.filterMap Value.instr?

namespace Block

/-- Whether instruction `d` stands before instruction `e`. -/
def Precedes (k : Block) (d e : InstrId) : Prop := [d, e].Sublist (k.instrs.map Instr.id)

/-- Phis first, and the only terminator at the end. -/
def Shaped (k : Block) : Prop :=
  ∃ phis body term, k.instrs = phis ++ body ++ [term] ∧ (∀ i ∈ phis, i.op = .phi) ∧
    (∀ i ∈ body, i.op ≠ .phi ∧ i.op.isTerminator = false) ∧ term.op.isTerminator = true

theorem holds_iff {k : Block} {d : InstrId} : k.holds d = true ↔ ∃ i ∈ k.instrs, i.id = d := by
  simp [holds]

theorem Precedes.holds {k : Block} {d e : InstrId} (h : k.Precedes d e) : k.holds d = true := by
  have hd : d ∈ k.instrs.map Instr.id := h.subset List.mem_cons_self
  exact holds_iff.mpr (List.mem_map.mp hd)

theorem Shaped.exists_term {k : Block} (h : k.Shaped) :
    ∃ body term, k.instrs = body ++ [term] ∧ term.op.isTerminator = true ∧
      ∀ i ∈ body, i.op.isTerminator = false := by
  obtain ⟨phis, body, term, hk, hphis, hbody, hterm⟩ := h
  refine ⟨phis ++ body, term, hk, hterm, fun i hi => ?_⟩
  rcases List.mem_append.mp hi with hi | hi
  · rw [hphis i hi]
    rfl
  · exact (hbody i hi).2

/-- The shape of a block depends on the kinds of its instructions only. -/
theorem Shaped.of_ops {j k : Block} (h : k.Shaped)
    (he : (j.instrs.map fun i => i.op) = k.instrs.map fun i => i.op) : j.Shaped := by
  obtain ⟨phis, body, term, hk, hphis, hbody, hterm⟩ := h
  rw [hk, List.map_append, List.map_append, List.map_eq_append_iff] at he
  obtain ⟨front, last, hj, hfront, hlast⟩ := he
  obtain ⟨phis', body', rfl, hphis', hbody'⟩ := List.map_eq_append_iff.mp hfront
  obtain ⟨term', rfl, hterm'⟩ := List.map_eq_singleton_iff.mp hlast
  have hop :
      ∀ {xs ys : List Instr} {Q : Opcode → Prop}, xs.map (fun i => i.op) = ys.map (fun i => i.op) →
      (∀ i ∈ ys, Q i.op) → ∀ i ∈ xs, Q i.op := by
    intro xs ys Q hxy hys i hi
    have hmem : i.op ∈ ys.map fun i => i.op := hxy ▸ List.mem_map_of_mem hi
    obtain ⟨y, hy, hyi⟩ := List.mem_map.mp hmem
    exact hyi ▸ hys y hy
  refine ⟨phis', body', term', hj, ?_, ?_, by rw [hterm']; exact hterm⟩
  · exact hop (Q := fun o => o = .phi) hphis' hphis
  · exact hop (Q := fun o => o ≠ .phi ∧ o.isTerminator = false) hbody' hbody

theorem succs_of_term {k : Block} {body : List Instr} {term : Instr}
    (hk : k.instrs = body ++ [term])
    (ht : term.op.isTerminator = true) : k.succs = term.targets := by
  have hterm : k.term? = some term := by simp [term?, hk, ht, Option.filter]
  rw [succs, hterm]

end Block

namespace Func

/-- Whether `d` stands in a block that dominates `b`, so that it is computed before control leaves
`b`. -/
def Available (f : Func) (d : InstrId) (b : BlockRef) : Prop :=
  ∃ k ∈ f.blocks, k.holds d = true ∧ f.Dominates (f.ref k.id) b

/-- Whether the blocks of a function end with terminators, which lead to blocks of the function. -/
structure Framed (f : Func) : Prop where
  linked : f.Linked
  ended : ∀ k ∈ f.blocks, k.term?.isSome

/-- Static single assignment form. An operand is read where its instruction stands, an operand of a
phi at the end of the block it flows in from. Only what reachable blocks read has to be computed
before. -/
structure Valid (f : Func) (isTerm : InstrId → Bool) : Prop where
  linked : f.Linked
  shaped : ∀ k ∈ f.blocks, k.Shaped
  entries : ∀ k ∈ f.blocks, ∀ i ∈ k.instrs, i.op = .phi →
    i.operands.length = i.incoming.length ∧ i.incoming.Perm ((f.preds k.id).map f.ref)
  operands : ∀ i ∈ f.instrs, ∀ d ∈ i.reads, isTerm d = false
  entry : ∀ k, f.entry? = some k → f.preds k.id = []
  uses : ∀ k ∈ f.blocks, f.Reaches (f.ref k.id) → ∀ i ∈ k.instrs, i.op ≠ .phi → ∀ d ∈ i.reads,
    k.Precedes d i.id ∨
      ∃ j ∈ f.blocks, j.holds d = true ∧ f.StrictlyDominates (f.ref j.id) (f.ref k.id)
  flows : ∀ k ∈ f.blocks, ∀ i ∈ k.instrs, i.op = .phi → ∀ e ∈ i.entries, f.Reaches e.2 →
    ∀ d, e.1.instr? = some d → f.Available d e.2

end Func

/-- Whether an instruction of the module is a terminator. -/
def Module.isTerm (m : Module) (d : InstrId) : Bool := (m.instr? d).any fun i => i.op.isTerminator

namespace Func

variable {f g : Func} {a b : BlockRef} {k : Block}

theorem mem_preds_iff {n p : BlockId} : p ∈ f.preds n ↔ f.Edge (f.ref p) (f.ref n) := by
  simp only [preds, List.mem_map, List.mem_filter, List.contains_eq_mem, decide_eq_true_eq]
  constructor
  · intro h
    obtain ⟨k, ⟨hk, hs⟩, rfl⟩ := h
    exact ⟨k, hk, rfl, hs⟩
  · intro h
    obtain ⟨k, hk, hid, hs⟩ := h
    exact ⟨k, ⟨hk, hs⟩, (congrArg BlockRef.number hid).symm⟩

theorem mem_map_preds {n : BlockId} : a ∈ (f.preds n).map f.ref ↔ f.Edge a (f.ref n) := by
  rw [List.mem_map]
  constructor
  · intro hx
    obtain ⟨p, hp, rfl⟩ := hx
    exact mem_preds_iff.mp hp
  · intro e
    have e' := e
    obtain ⟨k, _, rfl, _⟩ := e'
    exact ⟨k.id, mem_preds_iff.mpr e, rfl⟩

theorem Linked.nodup_map_preds (hf : f.Linked) (n : BlockId) : ((f.preds n).map f.ref).Nodup := by
  have hsub : ((f.preds n).map f.ref).Sublist f.flow.nodes := by
    rw [preds, List.map_map, nodes_flow]
    exact List.filter_sublist.map _
  exact hf.nodup_nodes.sublist hsub

/-- A phi has one entry for each block before its own. -/
theorem Linked.perm_preds_iff (hf : f.Linked) {n : BlockId} {bs : List BlockRef} :
    bs.Perm ((f.preds n).map f.ref) ↔ bs.Nodup ∧ ∀ x, x ∈ bs ↔ f.Edge x (f.ref n) := by
  constructor
  · intro h
    exact ⟨h.nodup_iff.mpr (hf.nodup_map_preds n), fun x => h.mem_iff.trans mem_map_preds⟩
  · intro h
    exact (List.perm_ext_iff_of_nodup h.1 (hf.nodup_map_preds n)).mpr fun x =>
      (h.2 x).trans mem_map_preds.symm

theorem mem_instrs {i : Instr} : i ∈ f.instrs ↔ ∃ k ∈ f.blocks, i ∈ k.instrs := List.mem_flatMap

theorem block?_iff (hf : f.Linked) {n : BlockId} : f.block? n = some k ↔ k ∈ f.blocks ∧ k.id = n :=
  find?_key_iff hf.distinct

theorem Linked.block_unique (hf : f.Linked) {j : Block} (hj : j ∈ f.blocks) (hk : k ∈ f.blocks)
    (h : j.id = k.id) : j = k :=
  List.inj_on_of_nodup_map hf.distinct hj hk h

theorem Framed.exists_term (hf : f.Framed) (hk : k ∈ f.blocks) :
    ∃ body t, k.instrs = body ++ [t] ∧ t.op.isTerminator = true := by
  obtain ⟨t, ht⟩ := Option.isSome_iff_exists.mp (hf.ended k hk)
  rw [Block.term?, Option.filter_eq_some_iff] at ht
  obtain ⟨body, hbody⟩ := List.getLast?_eq_some_iff.mp ht.1
  exact ⟨body, t, hbody, ht.2⟩

theorem Valid.framed {isTerm : InstrId → Bool} (hf : f.Valid isTerm) : f.Framed where
  linked := hf.linked
  ended k hk := by
    obtain ⟨body, t, hbody, ht, _⟩ := (hf.shaped k hk).exists_term
    simp [Block.term?, hbody, ht, Option.filter]

/-- What is not the entry is not entered by branches to it only. -/
theorem Valid.entry_ne {isTerm : InstrId → Bool} (hf : f.Valid isTerm) (e : f.Edge a b) :
    f.entryRef? ≠ some b := by
  intro hb
  obtain ⟨k, hk, rfl⟩ := Option.map_eq_some_iff.mp hb
  have ha : a = f.ref a.number := by
    obtain ⟨j, _, rfl, _⟩ := e
    rfl
  have hpred : a.number ∈ f.preds k.id := mem_preds_iff.mpr (ha ▸ e)
  rw [hf.entry k hk] at hpred
  exact List.not_mem_nil hpred

section SameFlow

variable (h : g.flow = f.flow)

include h

theorem edge_of_flow : g.Edge = f.Edge := by
  have edge_iff : ∀ (f : Func) a b, f.Edge a b ↔ ∃ e ∈ f.flow.own, a = e.1 ∧ b ∈ e.2 := by
    intro f a b
    simp [Edge, flow]
  funext a b
  rw [propext (edge_iff g a b), propext (edge_iff f a b), h]

theorem entryRef?_of_flow : g.entryRef? = f.entryRef? := by
  rw [← entry?_flow, ← entry?_flow, h]

theorem entryPath_of_flow : g.EntryPath = f.EntryPath := by
  funext p b
  rw [EntryPath, EntryPath, edge_of_flow h, entryRef?_of_flow h]

theorem reaches_of_flow : g.Reaches = f.Reaches := by
  funext b
  rw [Reaches, Reaches, entryPath_of_flow h]

theorem dominates_of_flow : g.Dominates = f.Dominates := by
  funext a b
  rw [Dominates, Dominates, entryPath_of_flow h]

theorem preds_of_flow (hid : g.id = f.id) (n : BlockId) : g.preds n = f.preds n := by
  have preds_eq : ∀ f : Func, f.preds n =
      (f.flow.own.filter fun e => e.2.contains (f.ref n)).map fun e => e.1.number := by
    intro f
    simp [preds, flow, List.filter_map, Function.comp_def, ref]
  rw [preds_eq g, preds_eq f, h, ref, hid, ref]

theorem succs_of_flow (n : BlockId) : g.succs n = f.succs n := by
  have succs_eq : ∀ f :
      Func, f.succs n = ((f.flow.own.find? fun e => e.1.number = n).map Prod.snd).getD [] := by
    intro f
    have hfind : (f.flow.own.find? fun e => e.1.number = n) =
        (f.block? n).map fun k => (f.ref k.id, k.succs) := by
      rw [flow, List.find?_map]
      rfl
    rw [hfind, succs]
    cases f.block? n with
    | none => rfl
    | some k => rfl
  rw [succs_eq g, succs_eq f, h]

theorem linked_of_flow (hid : g.id = f.id) (hf : f.Linked) : g.Linked := by
  have hnodes : ∀ f : Func, f.flow.own.map (fun e => e.1.number) = f.blocks.map Block.id := by
    intro f
    simp [flow, ref, Function.comp_def]
  constructor
  · rw [← hnodes, h, hnodes]
    exact hf.distinct
  · intro k hk s hs
    have e : f.Edge (g.ref k.id) s := edge_of_flow h ▸ ⟨k, hk, rfl, hs⟩
    obtain ⟨j, hj, _, hs⟩ := e
    obtain ⟨t, ht, rfl⟩ := hf.targets j hj s hs
    have hnode : t.id ∈ g.blocks.map Block.id := by
      rw [← hnodes, h, hnodes]
      exact List.mem_map_of_mem ht
    obtain ⟨u, hu, hut⟩ := List.mem_map.mp hnode
    exact ⟨u, hu, by rw [ref, ref, hid, hut]⟩

end SameFlow

end Func

end KernelIR
