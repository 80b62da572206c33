import KernelIR.Proofs.Mentions
import KernelIR.Proofs.Ownership.Editing
import KernelIR.Session

namespace KernelIR

/-- What a builder can be asked to add. -/
inductive Emission where
  | binary (op : Opcode) (name : String) (x y : Value)
  | cast (op : Opcode) (name : String) (x : Value) (ty : Ty)
  | alloca (name : String) (ty : Ty)
  | load (name : String) (ty : Ty) (address : Value)
  | store (x address : Value)
  | elementPtr (name : String) (ty : Ty) (base : Value) (indices : List Value)
  | icmp (name : String) (pred : Predicate) (x y : Value)
  | fcmp (name : String) (pred : Predicate) (x y : Value)
  | select (name : String) (c x y : Value)
  | phi (name : String) (ty : Ty)
  | callValue (name : String) (ty : Ty) (callee : Value) (args : List Value)
  | call (name : String) (callee : Func) (args : List Value)
  | br (target : BlockRef)
  | condBr (c : Value) (yes no : BlockRef)
  | ret (values : List Value)
  | unreachable

namespace Emission

def build (scope : Scope) : Emission → Builder.Build InstrId
  | .binary op name x y => Builder.binary scope op name x y
  | .cast op name x ty => Builder.cast op name x ty
  | .alloca name ty => Builder.alloca name ty
  | .load name ty address => Builder.load name ty address
  | .store x address => Builder.store x address
  | .elementPtr name ty base indices => Builder.elementPtr name ty base indices
  | .icmp name pred x y => Builder.icmp name pred x y
  | .fcmp name pred x y => Builder.fcmp name pred x y
  | .select name c x y => Builder.select scope name c x y
  | .phi name ty => Builder.phi name ty
  | .callValue name ty callee args => Builder.callValue name ty callee args
  | .call name callee args => Builder.call name callee args
  | .br target => Builder.br target
  | .condBr c yes no => Builder.condBr c yes no
  | .ret values => Builder.ret values
  | .unreachable => Builder.unreachable

/-- The operands that are named. -/
def values : Emission → List Value
  | .binary _ _ x y | .icmp _ _ x y | .fcmp _ _ x y | .store x y => [x, y]
  | .cast _ _ x _ | .load _ _ x => [x]
  | .elementPtr _ _ base indices => base :: indices
  | .select _ c x y => [c, x, y]
  | .callValue _ _ callee args => callee :: args
  | .call _ callee args => .func callee.id :: args
  | .condBr c _ _ => [c]
  | .ret values => values
  | .alloca _ _ | .phi _ _ | .br _ | .unreachable => []

/-- The blocks that are branched to. -/
def targets : Emission → List BlockRef
  | .br target => [target]
  | .condBr _ yes no => [yes, no]
  | _ => []

/-- A builder adds one instruction that takes what it is given, or refuses. A new phi has no
values. -/
theorem build_cases (scope : Scope) (e : Emission) : (∃ x, e.build scope = throw x) ∨
    ∃ o, e.build scope = Builder.add o ∧ o.operands = e.values ∧ o.targets = e.targets ∧
      (o.op = .phi → o.operands.length = o.incoming.length) := by
  cases e with
  | binary op name x y =>
    by_cases hop : op.isBinary = true
    · refine Or.inr ⟨_, if_pos hop, rfl, rfl, ?_⟩
      rintro rfl
      cases hop
    · exact Or.inl ⟨_, if_neg hop⟩
  | cast op name x ty =>
    by_cases hop : op.isCast = true
    · refine Or.inr ⟨_, if_pos hop, rfl, rfl, ?_⟩
      rintro rfl
      cases hop
    · exact Or.inl ⟨_, if_neg hop⟩
  | ret values =>
    by_cases hmany : 1 < values.length
    · exact Or.inl ⟨_, if_pos hmany⟩
    · refine Or.inr ⟨_, if_neg hmany, rfl, rfl, ?_⟩
      intro hphi
      cases hphi
  | phi name ty =>
    refine Or.inr ⟨_, rfl, rfl, rfl, ?_⟩
    intro _
    rfl
  | _ =>
    refine Or.inr ⟨_, rfl, rfl, rfl, ?_⟩
    intro hphi
    cases hphi

end Emission

theorem Builder.func_after_add (o : Operation) (b : Builder) : ((add o).after b).func = b.func ∨
    ∃ k name, b.block? = some k ∧ ((add o).after b).func = b.func.emit k { o with name } := by
  rw [Edit.after, add]
  cases b.block? with
  | none => exact Or.inl rfl
  | some k =>
    right
    simp only
    split_ifs
    · exact ⟨k, _, rfl, rfl⟩
    · exact ⟨k, o.name, rfl, rfl⟩

namespace Module

variable {m : Module} {f : Func}

theorem Tidy.mem_ids_iff (h : m.Tidy) {d : InstrId} : (m.instr? d).isSome ↔
    d ∈ m.held.map Instr.id := by
  simp only [h.consistent.instr?_isSome_iff, Module.held, List.map_flatMap, List.mem_flatMap,
    List.mem_map]

theorem Tidy.own_block (h : m.Tidy) (hf : f ∈ m.known) {n : BlockId} (hn : f.ref n ∈ m.refs) :
    ∃ k ∈ f.blocks, k.id = n := by
  obtain ⟨g, hg, hn⟩ := List.mem_flatMap.mp hn
  obtain ⟨k, hk, he⟩ := Func.mem_refs.mp hn
  rw [Func.ref, Func.ref, BlockRef.mk.injEq] at he
  cases List.inj_on_of_nodup_map h.funcs hg hf he.1.symm
  exact ⟨k, hk, he.2.symm⟩

/-- A function is added. -/
theorem Tidy.addFunction (h : m.Tidy) (name : String) (ret : Ty) (params : List (String × Ty)) :
    m.Advances (m.addFunction (Func.declare m.nextFunc name ret params)) := by
  let new := Func.declare m.nextFunc name ret params
  have hknown : (m.addFunction new).known.Perm (new :: m.known) := by
    rw [known, known, Module.addFunction, List.append_assoc]
    exact List.perm_middle
  have hheld : (m.addFunction new).held.Perm m.held := hknown.flatMap_right Func.held
  have hkept : m.Extends (m.addFunction new) := fun f hf =>
    ⟨f, hknown.mem_iff.mpr (List.mem_cons_of_mem _ hf), .refl f⟩
  refine ⟨⟨?_, fun f hf => ?_, fun f hf => ?_, ?_, fun f hf => ?_, fun i hi => ?_⟩, hkept⟩
  · rw [(hknown.map Func.id).nodup_iff, List.map_cons, List.nodup_cons]
    refine ⟨fun hmem => ?_, h.funcs⟩
    obtain ⟨f, hf, hid⟩ := List.mem_map.mp hmem
    exact Nat.ne_of_lt (h.next f hf) hid
  · rw [nextFunc, hknown.length_eq, List.length_cons]
    rcases List.mem_cons.mp (hknown.mem_iff.mp hf) with rfl | hf
    · exact Nat.lt_succ_self _
    · exact Nat.lt_succ_of_lt (h.next f hf)
  · rcases List.mem_cons.mp (hknown.mem_iff.mp hf) with rfl | hf
    · exact ⟨.nil, by simp [new, Func.declare]⟩
    · exact h.numbered f hf
  · have hmade : (m.addFunction new).madeIds.Perm m.madeIds := hknown.flatMap_right Func.madeIds
    exact ((hheld.map Instr.id).trans h.held).trans hmade.symm
  · rcases List.mem_cons.mp (hknown.mem_iff.mp hf) with rfl | hf
    · exact ⟨.nil, fun _ hk => absurd hk List.not_mem_nil⟩
    · exact h.recorded f hf
  · exact (h.sound i (hheld.mem_iff.mp hi)).mono (fun d hd => (hheld.map Instr.id).mem_iff.mpr hd)
      fun b hb =>
      hkept.refs hb

/-- A header of a loop is a block that is branched to. -/
theorem Tidy.header_mem_refs (h : m.Tidy) (hf : f ∈ m.known) {nest : LoopNest}
    (hnest : m.loopNest f (m.domTree f) = .ok nest) {l : Loop} (hl : l ∈ nest) :
    l.header ∈ m.refs := by
  rw [loopNest] at hnest
  split at hnest
  · cases hnest
  · cases hnest
    obtain ⟨a, ha⟩ := FlowGraph.exists_mem_backEdges hl
    obtain ⟨e, he, ha⟩ := List.mem_flatMap.mp ha
    obtain ⟨c, hc, heq⟩ := List.mem_map.mp ha
    obtain ⟨k, hk, rfl⟩ := List.mem_map.mp (List.mem_of_mem_filter he)
    cases heq
    have hsucc : l.header ∈ k.succs := List.mem_of_mem_filter hc
    rw [Block.succs] at hsucc
    cases hterm : k.term? with
    | none => simp [hterm] at hsucc
    | some t =>
      rw [hterm] at hsucc
      rw [Block.term?, Option.filter_eq_some_iff] at hterm
      exact (h.sound t (mem_held.mpr
        ⟨f, hf, Func.mem_held_of_mem hk (List.mem_of_getLast? hterm.1)⟩)).targets _ hsucc

theorem Tidy.insertPreheader (h : m.Tidy) {l : Loop} (hl : l.header ∈ m.refs) :
    m.Advances ((Module.insertPreheader l).after m) := by
  obtain ⟨f, hf, hl⟩ := List.mem_flatMap.mp hl
  obtain ⟨k, hk, hheader⟩ := Func.mem_refs.mp hl
  rw [Edit.after, insertPreheader_eq_edit h.consistent hf hk hheader, ← Edit.after]
  refine h.edit fun g hg hid => ?_
  cases List.inj_on_of_nodup_map h.funcs hg hf hid
  exact h.develops_insertPreheader hf hl

theorem Tidy.moveBeforeTerm (h : m.Tidy) (d : InstrId) (dst : BlockRef) :
    m.Advances ((Module.moveBeforeTerm d dst).after m) :=
  h.shuffle (shuffles_moveBeforeTerm h.distinct d dst)

/-- Optimising keeps a module tidy, even if it fails. -/
theorem Tidy.optimize {w : Work} (h : w.module.Tidy) (o : Options) (id : FuncId) :
    w.module.Advances ((Work.optimize o id).after w).module := by
  have hinserts : KeptByInsertions w.module.Advances id := fun m hm f nest hf hnest l hl =>
    hm.trans
      (hm.tidy.insertPreheader (hm.tidy.header_mem_refs (List.mem_of_find?_eq_some hf) hnest hl))
  have hmoves : KeptByHoisting w.module.Advances id := fun m hm f nest _ _ =>
    ⟨w.module.Advances, hm, fun _ h => h,
      fun l _ m hm i _ _ pre _ => hm.trans (hm.tidy.moveBeforeTerm i.id pre)⟩
  exact Work.maintains_optimize (fun m hm => hm.tidy.funcs) hinserts hmoves w h.advances

end Module

/-- A call that makes a function or works on those that there are. A builder stands anywhere, a loop
may be out of date, and so may the answers about purity. -/
inductive Call where
  | declare (name : String) (ret : Ty) (params : List (String × Ty))
  | newBlock (f : FuncId) (name : String)
  | newBlockBefore (f : FuncId) (name : String) (home : FuncId) (pos : Block)
  | label (f : FuncId) (cursor : Cursor) (name : String)
  | emit (f : FuncId) (cursor : Cursor) (e : Emission)
  | append (d : InstrId) (b : BlockRef)
  | addIncoming (d : InstrId) (v : Value) (b : BlockRef)
  | moveBeforeTerm (d : InstrId) (dst : BlockRef)
  | insertPreheader (l : Loop)
  | optimize (f : FuncId) (o : Options) (memo : Purity.Memo)

namespace Call

open Session (onModule onFunc onCompilation)

/-- Goes on with a function. -/
def turnTo (f : FuncId) (s : Session) : Session := { s with current? := some f }

def perform : Call → Edit Session Unit
  | .declare name ret params => modify fun s => s.addFunction name ret params
  | .newBlock f name => fun s => onFunc (modify fun f => f.newBlock name) (turnTo f s)
  | .newBlockBefore f name home pos => fun s =>
    (do let _ ← onFunc (Func.newBlockBefore name home pos)) (turnTo f s)
  | .label f cursor name =>
    fun s => (do let _ ← Session.build (Builder.label name)) ((turnTo f s).setCursor f cursor)
  | .emit f cursor e => fun s =>
    (do let _ ← Session.build (e.build s.module.scope)) ((turnTo f s).setCursor f cursor)
  | .append d b => onModule (Module.append d b)
  | .addIncoming d v b => Session.addIncoming d v b
  | .moveBeforeTerm d dst => onModule (Module.moveBeforeTerm d dst)
  | .insertPreheader l => do let _ ← onModule (Module.insertPreheader l)
  | .optimize f o memo => do let _ ← onCompilation (Compilation.work memo (Work.optimize o f))

/-- The blocks that a call adds to or branches to, or whose loop it works on. -/
def blocks : Call → List BlockRef
  | .emit f cursor e => (cursor.block?.map (BlockRef.mk f)).toList ++ e.targets
  | .append _ b => [b]
  | .insertPreheader l => [l.header]
  | _ => []

/-- The operands that a call names. -/
def values : Call → List Value
  | .emit _ _ e => e.values
  | .addIncoming _ v _ => [v]
  | _ => []

/-- A call can be made only with blocks and instructions that there are. -/
def possible (m : Module) (c : Call) : Bool :=
  c.blocks.all (fun b => (m.block? b).isSome) &&
    c.values.all fun v => v.instr?.all fun d => (m.instr? d).isSome

/-- Makes one call after the other. A call that fails leaves what it had changed, and the next one
is made. -/
def run : List Call → Session → Session
  | [], s => s
  | c :: cs, s => run cs (if c.possible s.module then c.perform.after s else s)

end Call

namespace Session

variable {s : Session} {α : Type}

theorem module_after_onModule (e : Edit Module α) (s : Session) :
    ((onModule e).after s).module = e.after s.module := by
  rw [onModule, Edit.after_within]
  rfl

theorem module_after_onFunc (e : Edit Func α) {id : FuncId} (hs : s.current? = some id) :
    ((onFunc e).after s).module = (Module.edit id e).after s.module := by
  have honly : (onFunc e).after s = (onModule (Module.edit id e)).after s := by
    simp only [Edit.after, onFunc, hs]
  rw [honly, module_after_onModule]

theorem after_addIncoming_of_none {d : InstrId} (hd : s.module.holder? d = none) (v : Value)
    (b : BlockRef) :
    (addIncoming d v b).after s = s := by
  simp only [Edit.after, addIncoming, onModule, Edit.within, hd]
  rfl

theorem after_addIncoming_of_some {d : InstrId} {f : Func} (hd : s.module.holder? d = some f)
    (v : Value) (b : BlockRef) : (addIncoming d v b).after s =
    (onModule (Module.edit f.id (Func.addIncoming d v b))).after s := by
  simp only [Edit.after, addIncoming, onModule, Edit.within, hd]

theorem module_after_work (memo : Purity.Memo) (e : Edit Work α) (s : Session) :
    ((onCompilation (Compilation.work memo e)).after s).module =
      (e.after ⟨s.module, memo, s.compilation.stats, s.compilation.log⟩).module := by
  rw [onCompilation, Edit.after_within]
  exact Compilation.module_after_work memo e s.compilation

theorem builder_setCursor (s : Session) (f : Func) (c : Cursor) :
    (s.setCursor f.id c).builder f = ⟨f, c.count, c.block?⟩ := by
  simp [builder, cursor, setCursor]

/-- A builder changes one function. -/
theorem advances_build (hs : s.module.Tidy) {id : FuncId} (hid : s.current? = some id) (c : Cursor)
    {e : Builder.Build α} (he : ∀ f ∈ s.module.known, f.id = id →
      s.module.Develops f (e.after ⟨f, c.count, c.block?⟩).func) :
    s.module.Advances ((build e).after (s.setCursor id c)).module := by
  rw [Edit.after, build]
  have hfunc : (s.setCursor id c).func? = s.module.func? id := by
    simp [func?, setCursor, hid, module]
  rw [hfunc]
  cases hf : s.module.func? id with
  | none => exact hs.advances
  | some f =>
    obtain ⟨hmem, rfl⟩ := hs.distinct.func?_iff.mp hf
    have hafter :
        (e.within (fun s : Session => s.builder f) putBuilder).after (s.setCursor f.id c) =
        putBuilder (s.setCursor f.id c) (e.after ((s.setCursor f.id c).builder f)) :=
      Edit.after_within e (s.setCursor f.id c)
    rw [builder_setCursor] at hafter
    have hmodule : (putBuilder (s.setCursor f.id c) (e.after ⟨f, c.count, c.block?⟩)).module =
        s.module.update (e.after ⟨f, c.count, c.block?⟩).func := rfl
    have hadvances := hs.update hmem (he f hmem rfl)
    rw [← hmodule, ← hafter] at hadvances
    exact hadvances

end Session

namespace Call

variable {s : Session}

/-- What a builder adds is sound if it names only what there is. -/
theorem develops_emission {m : Module} (h : m.Tidy) {f : Func} (hf : f ∈ m.known) {cursor : Cursor}
    {e : Emission} (hcursor : ∀ k, cursor.block? = some k → f.ref k ∈ m.refs)
    (htargets : ∀ b ∈ e.targets, b ∈ m.refs)
    (hvalues : ∀ v ∈ e.values, ∀ d, v.instr? = some d → d ∈ m.held.map Instr.id) (scope : Scope) :
    m.Develops f ((e.build scope).after ⟨f, cursor.count, cursor.block?⟩).func := by
  rcases e.build_cases scope with ⟨x, hx⟩ | ⟨o, ho, hoperands, htarget, hphi⟩
  · rw [hx]
    exact Module.develops_refl m f
  rw [ho]
  rcases Builder.func_after_add o ⟨f, cursor.count, cursor.block?⟩ with hsame | ⟨k, name, hk, hemit⟩
  · rw [hsame]
    exact Module.develops_refl m f
  · rw [hemit]
    obtain ⟨k, hkf, rfl⟩ := h.own_block hf (hcursor k hk)
    refine Module.develops_emit (h.numbered f hf).distinct hkf ⟨fun d hd => ?_,
      fun b hb => ?_, hphi⟩
    · obtain ⟨v, hv, hd⟩ := List.mem_filterMap.mp hd
      exact hvalues v (hoperands ▸ hv) d hd
    · exact htargets b (htarget ▸ hb)

/-- One call keeps a module tidy, whether it succeeds or fails. -/
theorem advances_perform (hs : s.module.Tidy) {c : Call} (hc : c.possible s.module = true) :
    s.module.Advances (c.perform.after s).module := by
  rw [possible, Bool.and_eq_true, List.all_eq_true, List.all_eq_true] at hc
  have hblocks : ∀ b ∈ c.blocks, b ∈ s.module.refs :=
    fun b hb => hs.distinct.block?_isSome_iff.mp (hc.1 b hb)
  have hvalues : ∀ v ∈ c.values, ∀ d, v.instr? = some d → d ∈ s.module.held.map Instr.id :=
    fun v hv d hd => by
    have hall := hc.2 v hv
    rw [hd] at hall
    exact hs.mem_ids_iff.mp hall
  have hturned : ∀ {f : FuncId}, (turnTo f s).current? = some f := rfl
  cases c with
  | declare name ret params => exact hs.addFunction name ret params
  | newBlock f name =>
    show s.module.Advances ((Session.onFunc _).after (turnTo f s)).module
    rw [Session.module_after_onFunc _ hturned]
    exact hs.edit fun g _ _ => Module.develops_newBlock _ g name
  | newBlockBefore f name home pos =>
    show s.module.Advances (Edit.after (_ >>= _) (turnTo f s)).module
    rw [Edit.after_discard, Session.module_after_onFunc _ hturned]
    exact hs.edit fun g _ _ => Module.develops_newBlockBefore _ g name home pos
  | label f cursor name =>
    show s.module.Advances (Edit.after (_ >>= _) ((turnTo f s).setCursor f cursor)).module
    rw [Edit.after_discard]
    exact Session.advances_build (s := turnTo f s) hs rfl cursor fun g _ _ =>
      Module.develops_newBlock _ g name
  | emit f cursor e =>
    show s.module.Advances (Edit.after (_ >>= _) ((turnTo f s).setCursor f cursor)).module
    rw [Edit.after_discard]
    refine Session.advances_build (s := turnTo f s) hs rfl cursor fun g hg hid => ?_
    refine develops_emission hs hg (fun k hk => ?_) (fun b hb => ?_) hvalues _
    · exact hblocks _ (List.mem_append_left _ (by simp [hk, hid, Func.ref]))
    · exact hblocks b (List.mem_append_right _ hb)
  | append d b =>
    show s.module.Advances ((Session.onModule _).after s).module
    rw [Session.module_after_onModule]
    exact hs.shuffle (Module.shuffles_append hs.distinct d (hblocks b (List.mem_singleton_self b)))
  | addIncoming d v b =>
    cases hholder : s.module.holder? d with
    | none =>
      rw [perform, Session.after_addIncoming_of_none hholder]
      exact hs.advances
    | some f =>
      rw [perform, Session.after_addIncoming_of_some hholder, Session.module_after_onModule]
      exact hs.edit fun g hg _ =>
        hs.develops_addIncoming hg d b (hvalues v (List.mem_singleton_self v))
  | moveBeforeTerm d dst =>
    show s.module.Advances ((Session.onModule _).after s).module
    rw [Session.module_after_onModule]
    exact hs.moveBeforeTerm d dst
  | insertPreheader l =>
    show s.module.Advances (Edit.after (_ >>= _) s).module
    rw [Edit.after_discard, Session.module_after_onModule]
    exact hs.insertPreheader (hblocks l.header (List.mem_singleton_self _))
  | optimize f o memo =>
    show s.module.Advances (Edit.after (_ >>= _) s).module
    rw [Edit.after_discard, Session.module_after_work]
    exact Module.Tidy.optimize (w := { module := s.module, memo, stats := _, log := _ }) hs o f

/-- The calls made one after the other keep a module tidy. -/
theorem advances_run (cs : List Call) {s : Session} (hs : s.module.Tidy) :
    s.module.Advances (run cs s).module := by
  induction cs generalizing s with
  | nil => exact hs.advances
  | cons c cs ih =>
    rw [run]
    by_cases hc : c.possible s.module = true
    · rw [if_pos hc]
      have hstep := advances_perform hs hc
      exact hstep.trans (ih hstep.tidy)
    · rw [if_neg hc]
      exact ih hs

end Call

namespace Module

variable {m : Module}

/-- Who owns what in a module. -/
structure Ownership (m : Module) : Prop where
  /-- No instruction occurs twice over all blocks. -/
  once : ((m.known.flatMap Func.instrs).map Instr.id).Nodup
  /-- An instruction that was made is never lost. -/
  made : ∀ d ∈ m.madeIds, (m.instr? d).isSome
  /-- An instruction occurs in a block just if the block is recorded as its owner. -/
  owner : ∀ d b, m.owner? d = some b ↔ ∃ k, m.block? b = some k ∧ k.holds d = true
  /-- No owner is recorded just if it is loose. -/
  loose : ∀ d ∈ m.madeIds, m.owner? d = none ↔ d ∈ (m.known.flatMap Func.loose).map Instr.id
  /-- The blocks of a function are found by their numbers there. -/
  listed : ∀ f ∈ m.known, ∀ k ∈ f.blocks, m.block? (f.ref k.id) = some k
  /-- A block knows the function that lists it. -/
  housed : ∀ f ∈ m.known, ∀ k ∈ f.blocks, k.parent = f.id
  /-- The numbers differ and stay in bounds. -/
  numbered : ∀ f ∈ m.known, f.Numbered
  /-- A phi has as many values as sources. -/
  paired : ∀ i ∈ m.held, i.op = .phi → i.operands.length = i.incoming.length

theorem perm_held (m : Module) :
    m.held.Perm (m.known.flatMap Func.instrs ++ m.known.flatMap Func.loose) :=
  (List.flatMap_append_perm m.known Func.instrs Func.loose).symm

/-- An instruction has an owner if it stands in a block of some function. -/
theorem Tidy.owner?_isSome_iff (h : m.Tidy) {d : InstrId} :
    (m.owner? d).isSome ↔ d ∈ (m.known.flatMap Func.instrs).map Instr.id := by
  simp only [Option.isSome_iff_exists, h.consistent.owner?_iff, Block.holds_iff, Func.instrs,
    List.mem_map, List.mem_flatMap]
  constructor
  · rintro ⟨b, f, hf, k, hk, ⟨i, hi, hid⟩, -⟩
    exact ⟨i, ⟨f, hf, k, hk, hi⟩, hid⟩
  · rintro ⟨i, ⟨f, hf, k, hk, hi⟩, hid⟩
    exact ⟨_, f, hf, k, hk, ⟨i, hi, hid⟩, rfl⟩

theorem Tidy.ownership (h : m.Tidy) : m.Ownership := by
  have hnodup := ((perm_held m).map Instr.id).nodup_iff.mp h.distinct.instrs
  rw [List.map_append, List.nodup_append] at hnodup
  obtain ⟨honce, -, hapart⟩ := hnodup
  have hmade : ∀ d ∈ m.madeIds, d ∈ (m.known.flatMap Func.instrs).map Instr.id ∨
      d ∈ (m.known.flatMap Func.loose).map Instr.id := by
    intro d hd
    rw [← List.mem_append, ← List.map_append]
    exact ((perm_held m).map Instr.id).mem_iff.mp (h.held.mem_iff.mpr hd)
  refine ⟨honce, fun d hd => h.mem_ids_iff.mpr (h.held.mem_iff.mpr hd),
    fun d b => h.distinct.owner?_iff, fun d hd => ?_,
    fun f hf k hk => h.distinct.block?_iff.mpr ⟨f, hf, hk, rfl⟩,
    fun f hf => (h.recorded f hf).blocks, h.numbered, fun i hi => (h.sound i hi).paired⟩
  rw [← Option.not_isSome_iff_eq_none, h.owner?_isSome_iff]
  constructor
  · exact fun hno => (hmade d hd).resolve_left hno
  · exact fun hloose howned => hapart d howned d hloose rfl

end Module

namespace Call

/-- Before the first function is declared. -/
def start (m : Module) : Session := .ofModule { m with functions := [], dropped := [] }

/-- Whatever is called, every instruction that was made has one place, and no number of a block is
ever given out twice. -/
theorem ownership_of_every_run (m : Module) (cs more : List Call) :
    (run cs (start m)).module.Ownership ∧
    (run cs (start m)).module.Extends (run more (run cs (start m))).module := by
  have hstart : (start m).module.Tidy :=
    ⟨.nil, by simp [start, Session.module, Session.ofModule, Module.known],
      by simp [start, Session.module, Session.ofModule, Module.known], .nil,
      by simp [start, Session.module, Session.ofModule, Module.known],
      by simp [start, Session.module, Session.ofModule, Module.held, Module.known]⟩
  have htidy := (advances_run cs hstart).tidy
  exact ⟨htidy.ownership, (advances_run more htidy).kept⟩

/-- A terminator that is moved before itself fails to settle, and can be put back. -/
example :
    let s := run [.declare "f" .void [], .newBlock 0 "entry", .emit 0 ⟨0, some 1⟩ (.ret []),
      .moveBeforeTerm ⟨0, 0⟩ ⟨0, 1⟩] (start default)
    s.module.owner? ⟨0, 0⟩ = none ∧
      (run [.append ⟨0, 0⟩ ⟨0, 1⟩] s).module.owner? ⟨0, 0⟩ = some ⟨0, 1⟩ := by
  decide

end Call

end KernelIR
