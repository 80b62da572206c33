import KernelIR.Proofs.Consistent
import KernelIR.Proofs.Preheader.Joining
import KernelIR.Proofs.Preheader.Spec

namespace KernelIR

namespace Operation

variable {o : Operation} {outs : List BlockRef}

theorem entries_of_map {es : List (Value × BlockRef)} (hf : o.operands = es.map Prod.fst)
    (hs : o.incoming = es.map Prod.snd) : o.entries = es :=
  (List.zip_of_prod hf.symm hs.symm).symm

theorem snd_entries (h : o.operands.length = o.incoming.length) :
    o.entries.map Prod.snd = o.incoming :=
  List.map_snd_zip (Nat.le_of_eq h.symm)

theorem snd_moved (h : o.operands.length = o.incoming.length) :
    (o.moved outs).map Prod.snd = o.incoming.filter outs.contains := by
  rw [← snd_entries h, List.filter_map]
  rfl

theorem snd_kept (h : o.operands.length = o.incoming.length) :
    (o.kept outs).map Prod.snd = o.incoming.filter fun b => !outs.contains b := by
  rw [← snd_entries h, List.filter_map]
  rfl

/-- What an entry of a phi reads is read by the phi. -/
theorem mem_reads_of_entry {e : Value × BlockRef} {d : InstrId} (he : e ∈ o.entries)
    (hd : e.1.instr? = some d) :
    d ∈ o.reads :=
  List.mem_filterMap.mpr ⟨e.1, (List.of_mem_zip he).1, hd⟩

/-- With as many operands as blocks, everything a phi reads is an entry. -/
theorem exists_entry_of_mem_reads {es : List (Value × BlockRef)} {d : InstrId}
    (hf : o.operands = es.map Prod.fst) (hd : d ∈ o.reads) : ∃ e ∈ es, e.1.instr? = some d := by
  obtain ⟨v, hv, hvd⟩ := List.mem_filterMap.mp hd
  rw [hf] at hv
  obtain ⟨e, he, rfl⟩ := List.mem_map.mp hv
  exact ⟨e, he, hvd⟩

end Operation

namespace Func

/-- A loop headed by a block of a function that leaves room for a new block and new instructions. -/
structure Roomy (f : Func) (l : Loop) : Prop where
  distinct : (f.blocks.map Block.id).Nodup
  own : (f.held.map Instr.id).Nodup
  numbers : ∀ k ∈ f.blocks, k.id ≤ f.maxBlock
  old : ∀ i ∈ f.held, ∀ d ∈ i.id :: i.reads, ∀ n, d ≠ f.made n
  header : ∃ k ∈ f.blocks, l.header = f.ref k.id

/-- A natural loop of a function that leaves such room. -/
structure Extensible (f : Func) (l : Loop) : Prop extends f.Roomy l where
  linked : f.Linked
  loop : f.IsNaturalLoop l

/-- A loop of a function in valid form that is entered from outside. -/
structure Enterable (f : Func) (isTerm : InstrId → Bool) (l : Loop) :
    Prop extends f.Extensible l where
  valid : f.Valid isTerm
  outside : f.entering l ≠ []

variable {f : Func} {isTerm : InstrId → Bool} {l : Loop} {φ : Instr} {k : Block} {x : BlockRef}

namespace Roomy

variable (h : f.Roomy l)

include h

theorem mem_phis :
    φ ∈ f.phis l.header.number ↔
    ∃ k ∈ f.blocks, l.header = f.ref k.id ∧ φ ∈ k.instrs ∧ φ.op = .phi := by
  obtain ⟨k, hk, hheader⟩ := h.header
  have hblock : f.block? l.header.number = some k :=
    (find?_key_iff h.distinct).mpr ⟨hk, (congrArg BlockRef.number hheader).symm⟩
  rw [phis, hblock]
  simp only [List.mem_filter, decide_eq_true_eq]
  constructor
  · intro hφ
    exact ⟨k, hk, hheader, hφ⟩
  · intro hφ
    obtain ⟨j, hj, hjh, hφ⟩ := hφ
    have hjk : j = k :=
      List.inj_on_of_nodup_map h.distinct hj hk (congrArg BlockRef.number (hjh.symm.trans hheader))
    exact hjk ▸ hφ

theorem mem_instrs_phi (hφ : φ ∈ f.phis l.header.number) : φ ∈ f.instrs := by
  obtain ⟨k, hk, _, hmem, _⟩ := h.mem_phis.mp hφ
  exact mem_instrs.mpr ⟨k, hk, hmem⟩

theorem ne_fresh (hk : k ∈ f.blocks) : f.ref k.id ≠ f.ref f.fresh := by
  intro he
  have hle := h.numbers k hk
  have hid : k.id = f.maxBlock + 1 := congrArg BlockRef.number he
  rw [hid] at hle
  exact Nat.not_succ_le_self _ hle

/-- The blocks outside the loop that branch to its header. -/
theorem mem_entering (hk : k ∈ f.blocks) :
    k.id ∈ f.entering l ↔ l.header ∈ k.succs ∧ f.ref k.id ∉ l.body := by
  obtain ⟨j, _, hheader⟩ := h.header
  have hpreds : k.id ∈ f.preds l.header.number ↔ l.header ∈ k.succs := by
    rw [mem_preds_iff, hheader]
    constructor
    · intro e
      obtain ⟨k', hk', hid, hb⟩ := e
      rwa [List.inj_on_of_nodup_map h.distinct hk hk' (congrArg BlockRef.number hid)]
    · exact fun hb => ⟨k, hk, rfl, hb⟩
  rw [ entering, List.mem_filter, hpreds]
  simp [Loop.contains]

end Roomy

theorem Extensible.edge_ne (h : f.Extensible l) {a b : BlockRef} (e : f.Edge a b) :
    a ≠ f.ref f.fresh ∧ b ≠ f.ref f.fresh := by
  obtain ⟨k, hk, rfl, hb⟩ := e
  obtain ⟨t, ht, rfl⟩ := h.linked.targets k hk b hb
  exact ⟨h.ne_fresh hk, h.ne_fresh ht⟩

namespace Enterable

variable (h : f.Enterable isTerm l)

include h

/-- A phi of the header has one entry for each block that branches there. -/
theorem incoming_phi (hφ : φ ∈ f.phis l.header.number) :
    φ.operands.length = φ.incoming.length ∧ φ.incoming.Nodup ∧ ∀ x, x ∈ φ.incoming ↔
    f.Edge x l.header := by
  obtain ⟨k, hk, hheader, hmem, hop⟩ := h.mem_phis.mp hφ
  obtain ⟨hlen, hperm⟩ := h.valid.entries k hk φ hmem hop
  rw [hheader]
  exact ⟨hlen, h.linked.perm_preds_iff.mp hperm⟩

theorem mem_snd_moved (hφ : φ ∈ f.phis l.header.number) :
    x ∈ (φ.moved ((f.entering l).map f.ref)).map Prod.snd ↔ f.Edge x l.header ∧ x ∉ l.body := by
  obtain ⟨hlen, _, hedge⟩ := h.incoming_phi hφ
  rw [Operation.snd_moved hlen, List.mem_filter, hedge, List.contains_iff_mem,
    mem_map_entering h.linked h.loop]
  exact ⟨fun hx => hx.2, fun hx => ⟨hx.1, hx⟩⟩

/-- Every phi of the header takes a value from outside. -/
theorem moved_ne (hφ : φ ∈ f.phis l.header.number) : φ.moved ((f.entering l).map f.ref) ≠ [] := by
  intro hnil
  obtain ⟨n, hn⟩ := List.exists_mem_of_ne_nil _ h.outside
  have hin := (h.mem_snd_moved hφ).mpr ((Func.mem_entering h.linked h.loop).mp hn)
  rw [hnil] at hin
  exact List.not_mem_nil hin

theorem mem_snd_kept (hφ : φ ∈ f.phis l.header.number) :
    x ∈ (φ.kept ((f.entering l).map f.ref)).map Prod.snd ↔ f.Edge x l.header ∧ x ∈ l.body := by
  obtain ⟨hlen, _, hedge⟩ := h.incoming_phi hφ
  rw [Operation.snd_kept hlen, List.mem_filter, hedge]
  simp only [List.contains_eq_mem, Bool.not_eq_true', decide_eq_false_iff_not,
    mem_map_entering h.linked h.loop]
  constructor
  · intro hx
    exact ⟨hx.1, by_contra fun hout => hx.2 ⟨hx.1, hout⟩⟩
  · intro hx
    exact ⟨hx.1, fun hout => hout.2 hx.2⟩

end Enterable

end Func

/-- Numbers that were never handed out are room. -/
theorem Module.Consistent.roomy {m : Module} {f : Func} {l : Loop} (hm : m.Consistent)
    (hf : f ∈ m.known) (distinct : (f.blocks.map Block.id).Nodup)
    (header : ∃ k ∈ f.blocks, l.header = f.ref k.id) : f.Roomy l where
  distinct := distinct
  own := hm.own f hf
  numbers := hm.blocks f hf
  old i hi d hd n he := by
    have hlt := hm.serials f hf f hf i hi d hd (he ▸ rfl)
    rw [he] at hlt
    exact Nat.not_le_of_lt hlt (Nat.le_add_right _ _)
  header := header

end KernelIR
