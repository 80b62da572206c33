import KernelIR.Proofs.Motion.Move
import KernelIR.Proofs.Semantics

namespace KernelIR

variable {V M : Type} {I : Interpretation V M} {quiet : FuncId → Bool} {args : List V}

namespace Interpretation

variable {env env' : InstrId → V} {s s' : State V M} {d : InstrId} {j : Instr} {js : List Instr}

theorem value_congr {v : Value} (h : ∀ d, v.instr? = some d → env' d = env d) :
    I.value args env' v = I.value args env v := by
  cases v with
  | instr d => exact h d rfl
  | _ => rfl

theorem values_congr {o : Operation} (h : ∀ d ∈ o.reads, env' d = env d) :
    I.values args env' o = I.values args env o := by
  apply List.map_congr_left
  intro v hv
  apply value_congr
  intro d hd
  exact h d (List.mem_filterMap.mpr ⟨v, hv, hd⟩)

theorem exec_term (h : j.op.isTerminator = true) : I.exec quiet args s j = s := by
  simp [exec, h]

theorem exec_compute (hphi : j.op ≠ .phi) (hterm : j.op.isTerminator = false)
    (hq : j.accesses quiet = false) :
    I.exec quiet args s j =
      { s with
        env := Function.update s.env j.id
          (I.compute j.toOperation (I.values args s.env j.toOperation)) } := by
  simp [exec, hphi, hterm, hq]

theorem env_exec_of_ne (h : d ≠ j.id) : (I.exec quiet args s j).env d = s.env d := by
  rw [exec]
  split
  · rfl
  · split
    · exact Function.update_of_ne h _ _
    · exact Function.update_of_ne h _ _

theorem env_foldl_of_not_mem (h : ∀ j ∈ js, d ≠ j.id) :
    (js.foldl (I.exec quiet args) s).env d = s.env d := by
  induction js generalizing s with
  | nil => rfl
  | cons j js ih =>
    rw [List.foldl_cons, ih fun x hx => h x (List.mem_cons_of_mem _ hx)]
    exact env_exec_of_ne (h j List.mem_cons_self)

theorem phis_of_not_mem {before? : Option BlockRef} {k : Block}
    (h : ∀ j ∈ k.instrs, j.op = .phi → d ≠ j.id) :
    I.phis args before? k env d = env d := by
  have hnone : (k.instrs.find? fun i => i.op = .phi && i.id = d) = none := by
    rw [List.find?_eq_none]
    intro j hj hd
    simp only [Bool.and_eq_true, decide_eq_true_eq] at hd
    exact h j hj hd.1 hd.2.symm
  rw [phis, hnone]

end Interpretation

/-- In a list without duplicates, what comes after a member stands behind it. -/
theorem mem_of_pair_sublist {α : Type} {x y : α} {l r : List α} (hn : (l ++ x :: r).Nodup)
    (h : [x, y].Sublist (l ++ x :: r)) : y ∈ r := by
  induction l with
  | nil =>
    rw [List.nil_append, List.nodup_cons] at hn
    rw [List.nil_append, List.sublist_cons_iff] at h
    rcases h with h | ⟨t, ht, h⟩
    · exact absurd (h.subset List.mem_cons_self) hn.1
    · cases ht
      exact List.singleton_sublist.mp h
  | cons a l ih =>
    rw [List.cons_append, List.nodup_cons] at hn
    rw [List.cons_append, List.sublist_cons_iff] at h
    rcases h with h | ⟨t, ht, h⟩
    · exact ih hn.2 h
    · cases ht
      exact absurd (by simp) hn.1

/-- Two runs that agree on everything but the result of one instruction. -/
structure Near (d : InstrId) (s s' : State V M) : Prop where
  env : ∀ e, e ≠ d → s'.env e = s.env e
  mem : s'.mem = s.mem
  trace : s'.trace = s.trace

namespace Near

open Interpretation

variable {s s' : State V M} {d : InstrId} {j : Instr} {js : List Instr}

theorem values (h : Near d s s') {o : Operation} (hd : d ∈ o.reads → s'.env d = s.env d) :
    I.values args s'.env o = I.values args s.env o := by
  apply values_congr
  intro e he
  by_cases hed : e = d
  · rw [hed] at he ⊢
    exact hd he
  · exact h.env e hed

/-- Executing an instruction on both sides keeps them near, if it does not read where they
differ. -/
theorem exec (h : Near d s s') (hj : j.op ≠ .phi → d ∈ j.reads → s'.env d = s.env d) :
    Near d (I.exec quiet args s j) (I.exec quiet args s' j) := by
  by_cases hskip : (j.op = .phi || j.op.isTerminator) = true
  · rw [Interpretation.exec, Interpretation.exec, if_pos hskip, if_pos hskip]
    exact h
  · have hphi : j.op ≠ .phi := fun he => hskip (by simp [he])
    have hvalues : I.values args s'.env j.toOperation = I.values args s.env j.toOperation :=
      h.values (hj hphi)
    have hput :
        ∀ v e, e ≠ d → Function.update s'.env j.id v e = Function.update s.env j.id v e := by
      intro v e he
      by_cases hej : e = j.id
      · rw [hej, Function.update_self, Function.update_self]
      · rw [Function.update_of_ne hej, Function.update_of_ne hej, h.env e he]
    rw [Interpretation.exec, Interpretation.exec, if_neg hskip, if_neg hskip]
    simp only [hvalues, h.mem]
    by_cases hacc : j.accesses quiet = true
    · rw [if_pos hacc, if_pos hacc]
      exact ⟨hput _, rfl, by rw [h.trace]⟩
    · rw [if_neg hacc, if_neg hacc]
      exact ⟨hput _, rfl, h.trace⟩

theorem foldl (h : Near d s s') (hne : ∀ j ∈ js, d ≠ j.id)
    (hjs : ∀ j ∈ js, j.op ≠ .phi → d ∈ j.reads → s'.env d = s.env d) :
    Near d (js.foldl (I.exec quiet args) s) (js.foldl (I.exec quiet args) s') := by
  induction js generalizing s s' with
  | nil => exact h
  | cons j js ih =>
    rw [List.foldl_cons, List.foldl_cons]
    have hj := hne j List.mem_cons_self
    apply ih (h.exec (hjs j List.mem_cons_self)) fun x hx => hne x (List.mem_cons_of_mem _ hx)
    intro x hx hphi hd
    rw [env_exec_of_ne hj, env_exec_of_ne hj]
    exact hjs x (List.mem_cons_of_mem _ hx) hphi hd

theorem left (h : Near d s s') (v : V) : Near d { s with env := Function.update s.env d v } s' := by
  refine ⟨fun e he => ?_, h.mem, h.trace⟩
  simp only [Function.update_of_ne he]
  exact h.env e he

theorem right (h : Near d s s') (v : V) :
    Near d s { s' with env := Function.update s'.env d v } := by
  refine ⟨fun e he => ?_, h.mem, h.trace⟩
  simp only [Function.update_of_ne he]
  exact h.env e he

end Near

/-- Whether control can come to block `b` from the block before it, or starts there. -/
def Func.Comes (f : Func) (before? : Option BlockRef) (b : BlockRef) : Prop :=
  match before? with
  | none => f.entryRef? = some b
  | some a => f.Reaches a ∧ f.Edge a b

namespace Func

variable {f : Func} {before? : Option BlockRef} {a b : BlockRef}

theorem Comes.reaches (h : f.Comes before? b) : f.Reaches b := by
  cases before? with
  | none => exact Reaches.entry h
  | some a => exact h.1.step h.2

/-- A strict dominator dominates the block that control comes from. -/
theorem Comes.dominates (h : f.Comes before? b) (ha : f.StrictlyDominates a b) :
    ∃ c, before? = some c ∧ f.Dominates a c := by
  cases before? with
  | none =>
    have hone : a ∈ [b] := ha.2 [b] ⟨b, h, .single b⟩
    exact absurd (List.mem_singleton.mp hone) ha.1
  | some c => exact ⟨c, rfl, ha.2.pred ha.1 h.2⟩

end Func

/-- The runs before and after a move, when control leaves block `before?`. They agree on all results
but that of the moved instruction. This one is the same where the old block was passed, and where
the new one was passed it is already computed from operands that stay as they are. -/
structure Agree (I : Interpretation V M) (args : List V) (f : Func) (i : Instr) (src dst : Block)
    (before? : Option BlockRef) (s s' : State V M) : Prop where
  near : Near i.id s s'
  late : ∀ b, before? = some b → f.Dominates (f.ref src.id) b → s'.env i.id = s.env i.id
  early : ∀ b, before? = some b → f.Dominates (f.ref dst.id) b →
    s'.env i.id = I.compute i.toOperation (I.values args s'.env i.toOperation)

namespace Func

open Interpretation

variable {f : Func} {i j : Instr} {src dst k : Block} {isTerm : InstrId → Bool}
  {before? : Option BlockRef} {s s' : State V M}

variable (hf : f.Valid isTerm) (hn : (f.held.map Instr.id).Nodup) (h : f.Movable i src dst)

include hn h

/-- Whoever reads the instruction comes after it in its block, or stands in a block below. -/
theorem Movable.reader (hf : f.Valid isTerm) (hk : k ∈ f.blocks) (hr : f.Reaches (f.ref k.id))
    (hj : j ∈ k.instrs) (hphi : j.op ≠ .phi) (hd : i.id ∈ j.reads) :
    (k = src ∧ k.Precedes i.id j.id) ∨ f.StrictlyDominates (f.ref src.id) (f.ref k.id) := by
  rcases hf.uses k hk hr j hj hphi i.id hd with hprec | ⟨b, hb, hold, hstrict⟩
  · exact Or.inl ⟨h.relocates.eq_src hn hk hprec.holds, hprec⟩
  · rw [h.relocates.eq_src hn hb hold] at hstrict
    exact Or.inr hstrict

/-- A block below the new one does not compute the operands. -/
theorem Movable.operands_stay (hk : k ∈ f.blocks) (hr : f.Reaches (f.ref k.id))
    (hdst : f.StrictlyDominates (f.ref dst.id) (f.ref k.id)) {d : InstrId} (hd : d ∈ i.reads) :
    ∀ j ∈ k.instrs, d ≠ j.id := by
  intro j hj he
  obtain ⟨_, b, hb, hold, hdom⟩ := h.reads d hd
  have hkb : k = b := holder_unique hn hk hb (Block.holds_iff.mpr ⟨j, hj, he.symm⟩) hold
  rw [← hkb] at hdom
  exact hdst.1 (hdst.2.antisymm hdom hr)

omit hn in
theorem Movable.not_read : i.id ∉ i.reads := fun hd => (h.reads i.id hd).1 rfl

include hf

theorem Movable.nodup_moved (hk : k ∈ f.blocks) :
    ((k.moved i dst.id).instrs.map Instr.id).Nodup := by
  have hheld := ((h.relocates.perm_held hn hf.linked).map Instr.id).nodup_iff.mpr hn
  exact nodup_block hheld (mem_blocks_moved i dst.id hk)

/-- The phis of a block are the same after the move. -/
theorem Movable.find_phi (hk : k ∈ f.blocks) (d : InstrId) :
    ((k.moved i dst.id).instrs.find? fun j => j.op = .phi && j.id = d) =
      k.instrs.find? fun j => j.op = .phi && j.id = d := by
  have hunique : ∀ js : List Instr, (js.map Instr.id).Nodup → ∀ x,
      js.find? (fun j => j.op = .phi && j.id = d) = some x ↔
      x ∈ js ∧ (x.op = .phi && x.id = d) = true := by
    intro js hjs x
    apply find?_iff_of_unique
    intro a ha b hb had hbd
    simp only [Bool.and_eq_true, decide_eq_true_eq] at had hbd
    exact List.inj_on_of_nodup_map hjs ha hb (had.2.trans hbd.2.symm)
  apply Option.ext
  intro x
  rw [hunique _ (h.nodup_moved hf hn hk), hunique _ (nodup_block hn hk),
    h.relocates.mem_moved hf.framed hn hk]
  simp only [Bool.and_eq_true, decide_eq_true_eq]
  constructor
  · intro hx
    rcases hx with ⟨⟨hx, _⟩ | ⟨_, rfl⟩, hphi, hxd⟩
    · exact ⟨hx, hphi, hxd⟩
    · exact absurd hphi h.phi
  · intro hx
    obtain ⟨hx, hphi, hxd⟩ := hx
    refine ⟨Or.inl ⟨hx, fun he => h.phi ?_⟩, hphi, hxd⟩
    have hxi : x = i :=
      List.inj_on_of_nodup_map hn (mem_held_of_mem hk hx) (mem_held_of_mem h.src_mem h.mem) he
    exact hxi ▸ hphi

/-- Coming into a block, the phis take the same values. -/
theorem Movable.phis_near (hk : k ∈ f.blocks) (hcomes : f.Comes before? (f.ref k.id))
    (hs : Agree I args f i src dst before? s s') {d : InstrId} (hd : d ≠ i.id) :
    I.phis args before? (k.moved i dst.id) s'.env d = I.phis args before? k s.env d := by
  rw [Interpretation.phis, Interpretation.phis, h.find_phi hf hn hk]
  split
  · next x hx =>
    have hxk := List.mem_of_find?_eq_some hx
    have hop : x.op = .phi := by
      have hfound := List.find?_some hx
      simp only [Bool.and_eq_true, decide_eq_true_eq] at hfound
      exact hfound.1
    cases hflow : x.flowing? before? with
    | none => rfl
    | some v =>
      rw [Option.map_some, Option.map_some, Option.getD_some, Option.getD_some]
      apply value_congr
      intro e he
      by_cases hei : e = i.id
      · -- the phi reads the instruction at the end of the block before, which its block dominates
        cases before? with
        | none => cases hflow
        | some b =>
          obtain ⟨en, hen, rfl⟩ := Option.map_eq_some_iff.mp hflow
          have hb : en.2 = b := by simpa using List.find?_some hen
          have havail :=
            hf.flows k hk x hxk hop en (List.mem_of_find?_eq_some hen) (hb ▸ hcomes.1) e he
          obtain ⟨c, hc, hold, hdom⟩ := havail
          rw [h.relocates.eq_src hn hc (hei ▸ hold), hb] at hdom
          rw [hei]
          exact hs.late b rfl hdom
      · exact hs.near.env e hei
  · exact hs.near.env d hd

theorem Movable.enter_near (hk : k ∈ f.blocks) (hcomes : f.Comes before? (f.ref k.id))
    (hs : Agree I args f i src dst before? s s') (b : BlockRef) :
    Near i.id (I.enter args before? b k s) (I.enter args before? b (k.moved i dst.id) s') := by
  refine ⟨fun d hd => h.phis_near hf hn hk hcomes hs hd, hs.near.mem, ?_⟩
  rw [enter, enter, hs.near.trace]

omit hf in
/-- No phi is the moved instruction. -/
theorem Movable.enter_self (hk : k ∈ f.blocks) (b : BlockRef) :
    (I.enter args before? b k s).env i.id = s.env i.id := by
  apply phis_of_not_mem
  intro j hj hop he
  have hji :=
    List.inj_on_of_nodup_map hn (mem_held_of_mem hk hj) (mem_held_of_mem h.src_mem h.mem) he.symm
  exact h.phi (hji ▸ hop)

/-- Below the new block neither the instruction nor its operands are computed, however far the block
is executed. -/
theorem Movable.stays (hk : k ∈ f.blocks) (hr : f.Reaches (f.ref k.id)) (hne : k ≠ dst)
    (habove : f.StrictlyDominates (f.ref dst.id) (f.ref k.id)) (b : BlockRef) {l r : List Instr}
    (hl : (k.moved i dst.id).instrs = l ++ r) :
    let t := l.foldl (I.exec quiet args) (I.enter args before? b (k.moved i dst.id) s')
    t.env i.id = s'.env i.id ∧
      I.values args t.env i.toOperation = I.values args s'.env i.toOperation := by
  have hkeep : ∀ d, (∀ j ∈ k.instrs, j.id ≠ i.id → d ≠ j.id) →
      (l.foldl (I.exec quiet args) (I.enter args before? b (k.moved i dst.id) s')).env d =
      s'.env d := by
    intro d hd
    have hin : ∀ j ∈ (k.moved i dst.id).instrs, d ≠ j.id := by
      intro j hj
      rcases (h.relocates.mem_moved hf.framed hn hk).mp hj with ⟨hj, hji⟩ | ⟨he, _⟩
      · exact hd j hj hji
      · exact absurd he hne
    have hphis : (I.enter args before? b (k.moved i dst.id) s').env d = s'.env d :=
      phis_of_not_mem fun j hj _ => hin j hj
    rw [← hphis]
    apply env_foldl_of_not_mem
    intro j hj
    exact hin j (hl ▸ List.mem_append_left r hj)
  refine ⟨hkeep i.id fun j _ hji => hji.symm, ?_⟩
  apply values_congr
  intro d hd
  exact hkeep d fun j hj _ => h.operands_stay hn hk hr habove hd j hj

/-- Below the new block the instruction keeps its early result. -/
theorem Movable.early_stays (hk : k ∈ f.blocks) (hne : k ≠ dst)
    (hcomes : f.Comes before? (f.ref k.id))
    (hs : Agree I args f i src dst before? s s') (hdom : f.Dominates (f.ref dst.id) (f.ref k.id))
    (b : BlockRef) :
    let t := I.visit quiet args before? b (k.moved i dst.id) s'
    t.env i.id = I.compute i.toOperation (I.values args t.env i.toOperation) := by
  have hid : f.ref dst.id ≠ f.ref k.id := fun he =>
    hne (hf.linked.block_unique hk h.dst_mem (congrArg BlockRef.number he).symm)
  obtain ⟨c, hc, hcdom⟩ := hcomes.dominates ⟨hid, hdom⟩
  intro t
  obtain ⟨hself, hvalues⟩ : t.env i.id = s'.env i.id ∧
      I.values args t.env i.toOperation = I.values args s'.env i.toOperation :=
    h.stays hf hn hk hcomes.reaches hne ⟨hid, hdom⟩ b (List.append_nil _).symm
  rw [hself, hvalues]
  exact hs.early c hc hcdom

/-- What stands before the instruction does not read it. -/
theorem Movable.not_read_before {l r : List Instr} {t : Instr} (hk : k ∈ f.blocks)
    (hr : f.Reaches (f.ref k.id)) (hold : k.instrs = l ++ i :: r ++ [t]) (hj : j ∈ l)
    (hphi : j.op ≠ .phi) : i.id ∉ j.reads := by
  intro hd
  have hjk : j ∈ k.instrs := by simp [hold, hj]
  have hids := nodup_block hn hk
  have hsplit : k.instrs.map Instr.id = l.map Instr.id ++ i.id :: (r ++ [t]).map Instr.id := by
    simp [hold]
  rcases h.reader hn hf hk hr hjk hphi hd with ⟨_, hprec⟩ | hstrict
  · rw [hsplit] at hids
    rw [Block.Precedes, hsplit] at hprec
    have hback := mem_of_pair_sublist hids hprec
    rw [List.nodup_append] at hids
    exact hids.2.2 j.id (List.mem_map_of_mem hj) j.id (List.mem_cons_of_mem _ hback) rfl
  · have hks : k = src := h.relocates.eq_src hn hk (Block.holds_iff.mpr ⟨i, by simp [hold], rfl⟩)
    exact hstrict.1 (by rw [hks])

section Visit

variable (hcomes : f.Comes before? (f.ref k.id)) (hs : Agree I args f i src dst before? s s')
  (b : BlockRef)

include hcomes hs

/-- A block that the move does not touch. -/
theorem Movable.visit_other (hk : k ∈ f.blocks) (hsrc : k ≠ src) (hsame : k.moved i dst.id = k) :
    Near i.id (I.visit quiet args before? b k s)
      (I.visit quiet args before? b (k.moved i dst.id) s') ∧
      (f.Dominates (f.ref src.id) (f.ref k.id) →
        (I.visit quiet args before? b (k.moved i dst.id) s').env i.id =
          (I.visit quiet args before? b k s).env i.id) := by
  have hother : ∀ j ∈ k.instrs, i.id ≠ j.id :=
    fun j hj => (h.relocates.not_mem hn hk hsrc j hj).symm
  have hid : f.ref src.id ≠ f.ref k.id := fun he =>
    hsrc (hf.linked.block_unique hk h.src_mem (congrArg BlockRef.number he).symm)
  have hbelow : f.Dominates (f.ref src.id) (f.ref k.id) → s'.env i.id = s.env i.id := by
    intro hdom
    obtain ⟨c, hc, hcdom⟩ := hcomes.dominates ⟨hid, hdom⟩
    exact hs.late c hc hcdom
  have hold : (I.visit quiet args before? b k s).env i.id = s.env i.id :=
    (env_foldl_of_not_mem hother).trans (h.enter_self hn hk b)
  have hnew : (I.visit quiet args before? b (k.moved i dst.id) s').env i.id = s'.env i.id := by
    rw [hsame]
    exact (env_foldl_of_not_mem hother).trans (h.enter_self hn hk b)
  constructor
  · have henter := h.enter_near hf hn hk hcomes hs b
    rw [hsame] at henter ⊢
    apply henter.foldl hother
    intro j hj hphi hd
    rw [h.enter_self hn hk b, h.enter_self hn hk b]
    rcases h.reader hn hf hk hcomes.reaches hj hphi hd with ⟨he, _⟩ | hstrict
    · exact absurd he hsrc
    · exact hbelow hstrict.2
  · intro hdom
    rw [hold, hnew]
    exact hbelow hdom

/-- The block the instruction goes to computes it at its end. -/
theorem Movable.visit_dst (hq : i.accesses quiet = false) (hk : k = dst) :
    Near i.id (I.visit quiet args before? b k s)
      (I.visit quiet args before? b (k.moved i dst.id) s') ∧
      ¬f.Dominates (f.ref src.id) (f.ref k.id) ∧
      let t := I.visit quiet args before? b (k.moved i dst.id) s'
      t.env i.id = I.compute i.toOperation (I.values args t.env i.toOperation) := by
  have hmem : k ∈ f.blocks := hk ▸ h.dst_mem
  have hnot : ¬f.Dominates (f.ref src.id) (f.ref k.id) := by
    intro hdom
    rw [hk] at hdom
    exact h.above.1 (h.above.2.antisymm hdom h.reach)
  rcases h.relocates.moved_cases hf.framed hn hmem with ⟨he, _⟩ | ⟨_, l, t, hold, ht, hnew, hne⟩ |
    ⟨_, he, _⟩
  · exact absurd (hk.symm.trans he) h.relocates.ne
  · have hnoread : ∀ j ∈ l, j.op ≠ .phi → i.id ∈ j.reads →
        (I.enter args before? b (k.moved i dst.id) s').env i.id =
        (I.enter args before? b k s).env i.id := by
      intro j hj hphi hd
      have hjk : j ∈ k.instrs := by simp [hold, hj]
      rcases h.reader hn hf hmem hcomes.reaches hjk hphi hd with ⟨he, _⟩ | hstrict
      · exact absurd (hk.symm.trans he) h.relocates.ne
      · exact absurd hstrict.2 hnot
    have hother : ∀ j ∈ l, i.id ≠ j.id := fun j hj => (hne j (List.mem_append_left _ hj)).symm
    have hnear : Near i.id (l.foldl (I.exec quiet args) (I.enter args before? b k s))
        (l.foldl (I.exec quiet args) (I.enter args before? b (k.moved i dst.id) s')) :=
      (h.enter_near hf hn hmem hcomes hs b).foldl hother hnoread
    have hleft : I.visit quiet args before? b k s =
        l.foldl (I.exec quiet args) (I.enter args before? b k s) := by
      rw [visit, hold, List.foldl_append, List.foldl_cons, List.foldl_nil, exec_term ht]
    have hright : I.visit quiet args before? b (k.moved i dst.id) s' =
        I.exec quiet args
          (l.foldl (I.exec quiet args) (I.enter args before? b (k.moved i dst.id) s')) i := by
      rw [visit, hnew, List.foldl_append, List.foldl_cons, List.foldl_cons, List.foldl_nil,
        exec_term ht]
    rw [exec_compute h.phi h.term hq] at hright
    refine ⟨?_, hnot, ?_⟩
    · rw [hleft, hright]
      exact hnear.right _
    · simp only [hright, Function.update_self]
      apply congrArg
      apply values_congr
      intro d hd
      rw [Function.update_of_ne (h.reads d hd).1]
  · exact absurd hk he

/-- The block the instruction stood in: it computes there what was computed before. -/
theorem Movable.visit_src (hq : i.accesses quiet = false) (hk : k = src) :
    Near i.id (I.visit quiet args before? b k s)
      (I.visit quiet args before? b (k.moved i dst.id) s') ∧
      (I.visit quiet args before? b (k.moved i dst.id) s').env i.id =
        (I.visit quiet args before? b k s).env i.id := by
  have hmem : k ∈ f.blocks := hk ▸ h.src_mem
  have habove : f.StrictlyDominates (f.ref dst.id) (f.ref k.id) := hk ▸ h.above
  have hne' : k ≠ dst := fun he => h.relocates.ne (he.symm.trans hk)
  obtain ⟨c, hc, hcdom⟩ := hcomes.dominates habove
  rcases h.relocates.moved_cases hf.framed hn hmem with ⟨_, l, r, t, hold, ht, hnew, hne⟩ |
    ⟨he, _⟩ | ⟨he, _⟩
  · let s₁ := l.foldl (I.exec quiet args) (I.enter args before? b k s)
    let s₁' := l.foldl (I.exec quiet args) (I.enter args before? b (k.moved i dst.id) s')
    have hbefore : ∀ j ∈ l, i.id ≠ j.id := fun j hj => (hne j (by simp [hj])).symm
    have hafter : ∀ j ∈ r ++ [t], i.id ≠ j.id := fun j hj => (hne j (by simp at hj ⊢; tauto)).symm
    -- up to the instruction nothing reads it
    have hnear : Near i.id s₁ s₁' := by
      apply (h.enter_near hf hn hmem hcomes hs b).foldl hbefore
      intro j hj hphi hd
      exact absurd hd (h.not_read_before hf hn hmem hcomes.reaches hold hj hphi)
    have hsplit : (k.moved i dst.id).instrs = l ++ (r ++ [t]) := by rw [hnew, List.append_assoc]
    obtain ⟨hself, hstay⟩ := h.stays hf hn hmem hcomes.reaches hne' habove b hsplit
    -- so the operands are those of the early computation
    have hvalues : I.values args s₁.env i.toOperation = I.values args s'.env i.toOperation :=
      (hnear.values fun hd => absurd hd h.not_read).symm.trans hstay
    have hexec : I.exec quiet args s₁ i = { s₁ with
        env := Function.update s₁.env i.id
          (I.compute i.toOperation (I.values args s₁.env i.toOperation)) } :=
      exec_compute h.phi h.term hq
    have hequal : s₁'.env i.id = (I.exec quiet args s₁ i).env i.id := by
      rw [hself, hs.early c hc hcdom, hexec]
      simp only [Function.update_self, hvalues]
    have hnear₂ : Near i.id (I.exec quiet args s₁ i) s₁' := by
      rw [hexec]
      exact hnear.left _
    have hleft : I.visit quiet args before? b k s =
        (r ++ [t]).foldl (I.exec quiet args) (I.exec quiet args s₁ i) := by
      rw [visit, hold, List.append_assoc, List.foldl_append, List.cons_append, List.foldl_cons]
    have hright : I.visit quiet args before? b (k.moved i dst.id) s' =
        (r ++ [t]).foldl (I.exec quiet args) s₁' := by
      rw [visit, hsplit, List.foldl_append]
    rw [hleft, hright]
    refine ⟨hnear₂.foldl hafter fun _ _ _ _ => hequal, ?_⟩
    rw [env_foldl_of_not_mem hafter, env_foldl_of_not_mem hafter]
    exact hequal
  · exact absurd he hne'
  · exact absurd hk he

/-- Visiting a block keeps the runs in agreement. -/
theorem Movable.visit_agree (hq : i.accesses quiet = false) (hk : k ∈ f.blocks) :
    Agree I args f i src dst (some (f.ref k.id)) (I.visit quiet args before? b k s)
      (I.visit quiet args before? b (k.moved i dst.id) s') := by
  have hearly : k ≠ dst → ∀ c, some (f.ref k.id) = some c → f.Dominates (f.ref dst.id) c →
      (I.visit quiet args before? b (k.moved i dst.id) s').env i.id = I.compute i.toOperation
        (I.values args (I.visit quiet args before? b (k.moved i dst.id) s').env i.toOperation) := by
    intro hne c hc hdom
    rw [← Option.some.inj hc] at hdom
    exact h.early_stays hf hn hk hne hcomes hs hdom b
  rcases h.relocates.moved_cases hf.framed hn hk with ⟨hsrc, _⟩ | ⟨hdst, _⟩ | ⟨hsrc, hdst, hsame⟩
  · obtain ⟨hnear, hlate⟩ := h.visit_src hf hn hcomes hs b hq hsrc
    have hdst : k ≠ dst := fun he => h.relocates.ne (he.symm.trans hsrc)
    exact ⟨hnear, fun _ _ _ => hlate, hearly hdst⟩
  · obtain ⟨hnear, hnot, hnew⟩ := h.visit_dst hf hn hcomes hs b hq hdst
    refine ⟨hnear, fun c hc hdom => ?_, fun _ _ _ => hnew⟩
    rw [← Option.some.inj hc] at hdom
    exact absurd hdom hnot
  · obtain ⟨hnear, hlate⟩ := h.visit_other hf hn hcomes hs b hk hsrc hsame
    refine ⟨hnear, fun c hc hdom => ?_, hearly hdst⟩
    rw [← Option.some.inj hc] at hdom
    exact hlate hdom

end Visit

theorem Movable.term?_moved (hk : k ∈ f.blocks) : (k.moved i dst.id).term? = k.term? := by
  rcases h.relocates.moved_cases hf.framed hn hk with ⟨_, l, r, t, hold, _, hnew, _⟩ |
    ⟨_, l, t, hold, _, hnew, _⟩ | ⟨_, _, he⟩
  · rw [Block.term?, Block.term?, hold, hnew, List.getLast?_concat, List.getLast?_concat]
  · have hnew' : (k.moved i dst.id).instrs = (l ++ [i]) ++ [t] := by simp [hnew]
    rw [Block.term?, Block.term?, hold, hnew', List.getLast?_concat, List.getLast?_concat]
  · rw [he]

/-- The terminators lead to the same place. -/
theorem Movable.next_eq (hk : k ∈ f.blocks) (hr : f.Reaches (f.ref k.id))
    (hs : Agree I args f i src dst (some (f.ref k.id)) s s') :
    I.next args s'.env (k.moved i dst.id) = I.next args s.env k := by
  have hvalues : ∀ t, k.term? = some t →
      I.values args s'.env t.toOperation = I.values args s.env t.toOperation := by
    intro t ht
    apply hs.near.values
    intro hd
    have hterm := Option.filter_eq_some_iff.mp ht
    have htk : t ∈ k.instrs := List.mem_of_getLast? hterm.1
    have hphi : t.op ≠ .phi := by
      intro he
      have hop := hterm.2
      rw [he] at hop
      cases hop
    apply hs.late (f.ref k.id) rfl
    rcases h.reader hn hf hk hr htk hphi hd with ⟨he, _⟩ | hstrict
    · rw [he]
      exact Dominates.refl _
    · exact hstrict.2
  rw [next, next, h.term?_moved hf hn hk]
  cases ht : k.term? with
  | none => rfl
  | some t => simp only [hvalues t ht]

omit hf hn h in
theorem edge_of_next {env : InstrId → V} {c : BlockRef} (hk : k ∈ f.blocks)
    (hc : I.next args env k = .goto c) :
    f.Edge (f.ref k.id) c := by
  refine ⟨k, hk, rfl, ?_⟩
  have htarget : ∀ (t : Instr) (n : Nat),
      ((t.targets[n]?.map Control.goto).getD .stuck : Control V) = .goto c → c ∈ t.targets := by
    intro t n hn
    cases ht : t.targets[n]? with
    | none =>
      rw [ht] at hn
      cases hn
    | some x =>
      rw [ht] at hn
      cases hn
      exact List.mem_of_getElem? ht
  rw [next] at hc
  rw [Block.succs]
  cases ht : k.term? with
  | none =>
    rw [ht] at hc
    cases hc
  | some t =>
    simp only [ht] at hc
    cases hop : t.op with
    | br =>
      rw [hop] at hc
      exact htarget t 0 hc
    | condBr =>
      simp only [hop] at hc
      split at hc
      · exact htarget t _ hc
      · cases hc
    | _ =>
      rw [hop] at hc
      cases hc

omit hf hn h in
theorem block?_moved (n : BlockId) :
    (f.moved i dst.id).block? n = (f.block? n).map (Block.moved i dst.id) := by
  rw [block?, blocks_moved, List.find?_map, block?]
  simp only [Function.comp_def, Block.id_moved]

/-- Runs of any length are observed alike before and after the move. -/
theorem Movable.run_eq (hq : i.accesses quiet = false) (steps : Nat) {b : BlockRef}
    (hcomes : f.Comes before? b) (hs : Agree I args f i src dst before? s s') :
    (I.run quiet args (f.moved i dst.id) steps before? b s').trace =
    (I.run quiet args f steps before? b s).trace ∧
      (I.run quiet args (f.moved i dst.id) steps before? b s').mem =
      (I.run quiet args f steps before? b s).mem := by
  induction steps generalizing before? b s s' with
  | zero => exact ⟨hs.near.trace, hs.near.mem⟩
  | succ steps ih =>
    obtain ⟨k, hk, rfl⟩ := mem_nodes_flow.mp (hcomes.reaches.mem_nodes hf.linked)
    have hold : f.block? (f.ref k.id).number = some k := (block?_iff hf.linked).mpr ⟨hk, rfl⟩
    have hnew : (f.moved i dst.id).block? (f.ref k.id).number = some (k.moved i dst.id) := by
      rw [block?_moved, hold]
      rfl
    have hagree := h.visit_agree hf hn hcomes hs (f.ref k.id) hq hk
    have hnext := h.next_eq hf hn hk hcomes.reaches hagree
    rw [run, run]
    simp only [hold, hnew, hnext]
    split
    · next c hc => exact ih ⟨hcomes.reaches, edge_of_next hk hc⟩ hagree
    · exact ⟨by rw [hagree.near.trace], hagree.near.mem⟩
    · exact ⟨hagree.near.trace, hagree.near.mem⟩

theorem Movable.call_eq (hq : i.accesses quiet = false) (mem : M) (steps : Nat) :
    (I.call quiet args (f.moved i dst.id) mem steps).trace = (I.call quiet args f mem steps).trace ∧
      (I.call quiet args (f.moved i dst.id) mem steps).mem =
      (I.call quiet args f mem steps).mem := by
  rw [call, call, entryRef?_of_flow (h.relocates.flow_moved hf.framed hn)]
  cases hr : f.entryRef? with
  | none => exact ⟨rfl, rfl⟩
  | some r => exact h.run_eq hf hn hq steps hr ⟨⟨fun _ _ => rfl, rfl, rfl⟩, nofun, nofun⟩

end Func

end KernelIR
