import KernelIR.Proofs.Dominance
import KernelIR.Proofs.Ssa

namespace KernelIR

instance (k : Block) (d e : InstrId) : Decidable (k.Precedes d e) :=
  inferInstanceAs (Decidable ([d, e].Sublist (k.instrs.map Instr.id)))

/-- Whether a block has its phis first and its only terminator at the end. -/
def Block.isShaped (k : Block) : Bool :=
  let rest := k.instrs.dropWhile fun i => i.op = .phi
  (rest.getLast?.any fun i => i.op.isTerminator) &&
    rest.dropLast.all fun i => i.op ≠ .phi && !i.op.isTerminator

theorem Block.shaped_of_isShaped {k : Block} (h : k.isShaped = true) : k.Shaped := by
  rw [isShaped, Bool.and_eq_true, Option.any_eq_true, List.all_eq_true] at h
  obtain ⟨⟨t, ht, hterm⟩, hbody⟩ := h
  refine ⟨k.instrs.takeWhile fun i => i.op = .phi,
    (k.instrs.dropWhile fun i => i.op = .phi).dropLast, t, ?_,
    fun i hi => ?_, fun i hi => ?_, hterm⟩
  · rw [List.append_assoc, List.dropLast_append_getLast? t ht, List.takeWhile_append_dropWhile]
  · simpa using List.all_eq_true.mp List.all_takeWhile i hi
  · simpa using hbody i hi

namespace Func

variable {f : Func} {d : InstrId} {b : BlockRef} {k : Block}

/-- Whether a computation is above a block, by the dominator tree. -/
def isAbove (f : Func) (t : DomTree) (d : InstrId) (b : BlockRef) : Bool :=
  f.blocks.any fun k => k.holds d && t.dominates (f.ref k.id) b

/-- Whether an operand of an instruction in a block is computed before it, by the dominator tree. -/
def isReady (f : Func) (t : DomTree) (k : Block) (i : Instr) (d : InstrId) : Bool :=
  if k.holds d then decide (k.Precedes d i.id) else f.isAbove t d (f.ref k.id)

/-- Whether everything that reachable blocks read is computed before, by the dominator tree. -/
def isComputed (f : Func) (t : DomTree) : Bool :=
  f.blocks.all fun k => k.instrs.all fun i =>
    if i.op = .phi then i.entries.all fun e => !t.contains e.2 ||
      e.1.instr?.all fun d => f.isAbove t d e.2
    else !t.contains (f.ref k.id) || i.reads.all fun d => f.isReady t k i d

/-- Whether a function is in valid form. -/
def isValid (f : Func) (isTerm : InstrId → Bool) : Bool :=
  decide (f.blocks.map Block.id).Nodup &&
    decide (∀ k ∈ f.blocks, ∀ s ∈ k.succs, ∃ t ∈ f.blocks, s = f.ref t.id) &&
    f.blocks.all Block.isShaped &&
    decide (∀ k ∈ f.blocks, ∀ i ∈ k.instrs, i.op = .phi →
      i.operands.length = i.incoming.length ∧ i.incoming.Perm ((f.preds k.id).map f.ref)) &&
    decide (∀ i ∈ f.instrs, ∀ d ∈ i.reads, isTerm d = false) &&
    (f.entry?.all fun k => (f.preds k.id).isEmpty) &&
    f.isComputed f.flow.domTree

theorem Linked.available_of_isAbove (h : f.Linked) (hb : f.Reaches b)
    (ha : f.isAbove f.flow.domTree d b = true) : f.Available d b := by
  obtain ⟨k, hk, hdk⟩ := List.any_eq_true.mp ha
  rw [Bool.and_eq_true] at hdk
  have hnode : f.ref k.id ∈ f.flow.nodes := mem_nodes_flow.mpr ⟨k, hk, rfl⟩
  exact ⟨k, hk, hdk.1, ((h.dominates_iff hnode (hb.mem_nodes h)).mp hdk.2).2.2⟩

theorem Linked.computed_of_isReady (h : f.Linked) (hk : k ∈ f.blocks) (hr : f.Reaches (f.ref k.id))
    {i : Instr} (hd : f.isReady f.flow.domTree k i d = true) :
    k.Precedes d i.id ∨
    ∃ j ∈ f.blocks, j.holds d = true ∧ f.StrictlyDominates (f.ref j.id) (f.ref k.id) := by
  rw [isReady] at hd
  by_cases hold : k.holds d = true
  · rw [if_pos hold] at hd
    exact Or.inl (of_decide_eq_true hd)
  · rw [if_neg hold] at hd
    obtain ⟨j, hj, hjd, hdom⟩ := h.available_of_isAbove hr hd
    refine Or.inr ⟨j, hj, hjd, fun he => hold ?_, hdom⟩
    rw [← h.block_unique hj hk (congrArg BlockRef.number he)]
    exact hjd

theorem valid_of_isValid {isTerm : InstrId → Bool} (h : f.isValid isTerm = true) :
    f.Valid isTerm := by
  simp only [isValid, isComputed, Bool.and_eq_true, decide_eq_true_eq, List.all_eq_true] at h
  obtain ⟨⟨⟨⟨⟨⟨hdistinct, htargets⟩, hshaped⟩, hentries⟩, hoperands⟩, hentry⟩, hcomputed⟩ := h
  have hlinked : f.Linked := ⟨hdistinct, htargets⟩
  have hreach : ∀ b, f.Reaches b → f.flow.domTree.contains b = true := fun b hb =>
    (hlinked.contains_iff (hb.mem_nodes hlinked)).mpr hb
  refine ⟨hlinked, fun k hk => Block.shaped_of_isShaped (hshaped k hk), hentries, hoperands,
    ?_, ?_, ?_⟩
  · intro k hk
    rw [hk] at hentry
    simpa using hentry
  · intro k hk hr i hi hphi d hd
    have hall := hcomputed k hk i hi
    rw [if_neg hphi, hreach _ hr, Bool.not_true, Bool.false_or] at hall
    exact hlinked.computed_of_isReady hk hr (List.all_eq_true.mp hall d hd)
  · intro k hk i hi hphi e he hr d hd
    have hall := hcomputed k hk i hi
    rw [if_pos hphi] at hall
    have hone := List.all_eq_true.mp hall e he
    rw [hreach _ hr, Bool.not_true, Bool.false_or, hd] at hone
    exact hlinked.available_of_isAbove hr hone

/-- Whether a function without phis is in valid form as far as each block tells by itself: it ends
with its only terminator, and reads only what it computed before. Where branches lead is left
open. -/
structure Blockwise (f : Func) (isTerm : InstrId → Bool) : Prop where
  shaped : ∀ k ∈ f.blocks, k.Shaped
  plain : ∀ i ∈ f.instrs, i.op ≠ .phi
  operands : ∀ i ∈ f.instrs, ∀ d ∈ i.reads, isTerm d = false
  entry : ∀ k, f.entry? = some k → f.preds k.id = []
  uses : ∀ k ∈ f.blocks, ∀ i ∈ k.instrs, ∀ d ∈ i.reads, k.Precedes d i.id

/-- Nothing but branches that stay in the function is missing. -/
theorem Blockwise.valid {isTerm : InstrId → Bool} (h : f.Blockwise isTerm) (hf : f.Linked) :
    f.Valid isTerm where
  linked := hf
  shaped := h.shaped
  entries k hk i hi hop := absurd hop (h.plain i (mem_instrs.mpr ⟨k, hk, hi⟩))
  operands := h.operands
  entry := h.entry
  uses k hk _ i hi _ d hd := Or.inl (h.uses k hk i hi d hd)
  flows k hk i hi hop := absurd hop (h.plain i (mem_instrs.mpr ⟨k, hk, hi⟩))

end Func

namespace Module

/-- Block 3 divides, stores the quotient and leads back to block 2 of another function, which leads
here. -/
def storeUnderForeignHeader : Func :=
  let goto (serial : Nat) (target : BlockRef) : Instr :=
    { op := .br, targets := [target], id := ⟨1, serial⟩ }
  let place := Param.mk "p" (.pointerTo (.int 32)) 0
  Func.record { Func.declare 1 "f" .void [(place.name, place.ty)] with
    blocks := [
      ⟨1, "", 1, [goto 0 ⟨0, 2⟩]⟩,
      ⟨2, "", 1, [goto 1 ⟨1, 3⟩]⟩,
      ⟨3, "", 1, [
        { op := .binary .sdiv, operands := [.int ⟨32, 6⟩, .int ⟨32, 3⟩], id := ⟨1, 2⟩ },
        { op := .store, operands := [.instr ⟨1, 2⟩, .param place], id := ⟨1, 3⟩ },
        goto 4 ⟨0, 2⟩]⟩]
    maxBlock := 3
    nextSerial := 5 }

def storeUnderForeignHeaderModule : Module :=
  let goto (serial : Nat) (target : BlockRef) : Instr :=
    { op := .br, targets := [target], id := ⟨0, serial⟩ }
  let other := Func.record { Func.declare 0 "other" .void [] with
    blocks := [⟨1, "", 0, [goto 0 ⟨0, 2⟩]⟩, ⟨2, "", 0, [goto 1 ⟨1, 3⟩]⟩]
    maxBlock := 2
    nextSerial := 2 }
  { name := "", functions := [other, storeUnderForeignHeader] }

theorem storeUnderForeignHeader_blockwise :
    storeUnderForeignHeader.Blockwise storeUnderForeignHeaderModule.isTerm := by
  have hshaped : ∀ k ∈ storeUnderForeignHeader.blocks, k.isShaped = true := by decide
  refine ⟨fun k hk => Block.shaped_of_isShaped (hshaped k hk), by decide, by decide, fun k hk => ?_,
    by decide⟩
  cases hk
  decide

end Module

end KernelIR
