import KernelIR.Hoist.Compilation
import KernelIR.Proofs.Mentions
import KernelIR.Proofs.Motion.Result
import KernelIR.Proofs.Simplify

namespace KernelIR

open Purity

/-- Whether an instruction may be moved, where `pure` are the functions that keep away from
memory. -/
def Instr.isMovable (pure : FuncId → Bool) (i : Instr) : Bool :=
  match i.op with
  | .call => i.callee?.any pure
  | op => op.isMovable

theorem canHoist_eq_isMovable {m : Module} {memo : Memo} (hmemo : Right m memo) (i : Instr) :
    (canHoist m i memo).1 = i.isMovable m.isMemoryPure := by
  cases hop : i.op with
  | call =>
    cases hcallee : i.callee? with
    | none => simp [canHoist, Instr.isMovable, hop, hcallee]
    | some id => simpa [canHoist, Instr.isMovable, hop, hcallee] using query_eq hmemo
  | _ => simp [canHoist, Instr.isMovable, hop]

namespace Func

variable {f : Func} {l : Loop}

section Insertion

variable {σ : Instr → Instr} {new : List Instr} (h : f.Inserts l σ new)

include h

theorem Inserts.access_changed {k : Block} (hk : k ∈ f.blocks) :
    (f.changed l σ k).instrs.map access = k.instrs.map access := by
  have hsame :
      ∀ i ∈ k.instrs, ∀ j : Instr, j.id = i.id → j.op = i.op → access (σ j) = access j := by
    intro i hi j hid hop
    by_cases hφ : l.header = f.ref k.id ∧ i.op = .phi
    · have hphi := hop.trans hφ.2
      simp [access, (h.joins.same j).2.1, hphi]
    · rw [h.eq_self hk hi hid hφ]
  rw [changed, Block.mapInstrs, List.map_map]
  rcases h.rewired_cases hk with ⟨_, hkeep⟩ | ⟨_, body, t, hinstrs, _, hrewired⟩
  · rw [hkeep]
    exact List.map_congr_left fun i hi => hsame i hi i rfl rfl
  · rw [hrewired, hinstrs, List.map_append, List.map_append]
    have hbody : body.map (access ∘ σ) = body.map access :=
      List.map_congr_left fun i hi => hsame i (hinstrs ▸ List.mem_append_left _ hi) i rfl rfl
    have ht : t ∈ k.instrs := hinstrs ▸ List.mem_append_right _ List.mem_cons_self
    rw [hbody, List.map_singleton, List.map_singleton]
    exact congrArg (body.map access ++ [·]) (hsame t ht _ rfl rfl)

/-- The new block has nothing to do with memory. -/
theorem Inserts.outline_entered : outline (f.entered l σ new) = outline f := by
  have hsilent : ∀ i ∈ (f.preheader l new).instrs, access i = .silent := by
    intro i hi
    rcases List.mem_append.mp hi with hi | hi
    · obtain ⟨hop, _⟩ := h.joins.made i hi
      simp [access, hop]
    · rw [List.mem_singleton.mp hi]
      rfl
  have haccess : ∀ e ≠ .silent, (∃ i ∈ (f.entered l σ new).instrs, access i = e) ↔
      ∃ i ∈ f.instrs, access i = e := by
    intro e he
    have hmem : ∀ g : Func, (∃ i ∈ g.instrs, access i = e) ↔
        ∃ k ∈ g.blocks, e ∈ k.instrs.map access := by
      intro g
      simp only [mem_instrs, List.mem_map]
      constructor
      · rintro ⟨i, ⟨k, hk, hi⟩, hie⟩
        exact ⟨k, hk, i, hi, hie⟩
      · rintro ⟨k, hk, i, hi, hie⟩
        exact ⟨i, ⟨k, hk, hi⟩, hie⟩
    rw [hmem, hmem]
    constructor
    · rintro ⟨b, hb, hin⟩
      rcases h.mem_blocks.mp hb with rfl | ⟨k, hk, rfl⟩
      · obtain ⟨i, hi, rfl⟩ := List.mem_map.mp hin
        exact absurd (hsilent i hi) he
      · exact ⟨k, hk, h.access_changed hk ▸ hin⟩
    · rintro ⟨k, hk, hin⟩
      exact ⟨_, h.mem_changed_blocks hk, (h.access_changed hk).symm ▸ hin⟩
  have hbody : (f.entered l σ new).isDeclaration = f.isDeclaration := by
    obtain ⟨k, hk, _⟩ := h.header
    have hne : ∀ {g : Func} {k : Block}, k ∈ g.blocks → g.isDeclaration = false := by
      intro g k hk
      rw [isDeclaration, List.isEmpty_eq_false_iff]
      exact List.ne_nil_of_mem hk
    rw [hne hk, hne (h.mem_changed_blocks hk)]
  rw [outline, outline, hbody]
  refine congrArg _ (congrArg _ (funext fun e => propext ?_))
  exact and_congr_right (haccess e)

end Insertion

/-- What optimising makes of a function, where `pure` are the functions that keep away from
memory. -/
def optimized (o : Options) (pure : FuncId → Bool) (f : Func) : Func :=
  (if o.insertPreheaders then f.simplified else f).hoisted (Instr.isMovable pure)

end Func

namespace Work

variable {w w₁ w₂ : Work} {f g k : Func} {c : Bool} (o : Options)

/-- What optimising a function asks for: blocks in order, phis with as many values as blocks, and
right answers. -/
structure Fit (w : Work) (f : Func) : Prop where
  hosts : w.module.Hosts f
  paired : f.Paired
  right : Right w.module w.memo

/-- What optimising keeps, from a function `f` to the function `g` that it has become. -/
structure Reworks (w : Work) (f : Func) (w₁ : Work) (g : Func) : Prop where
  fit : Fit w₁ g
  id : g.id = f.id
  module : w₁.module = w.module.update g
  outline : ∀ id, (w₁.module.func? id).map outline = (w.module.func? id).map outline
  retains : f.Retains g

namespace Reworks

theorem isMemoryPure (h : Reworks w f w₁ g) : w₁.module.isMemoryPure = w.module.isMemoryPure :=
  Module.isMemoryPure_of_outline h.outline

theorem refl (h : Fit w f) : Reworks w f w f :=
  ⟨h, rfl, h.hosts.update_self.symm, fun _ => rfl, .refl f⟩

theorem trans (h : Reworks w f w₁ g) (h' : Reworks w₁ g w₂ k) : Reworks w f w₂ k where
  fit := h'.fit
  id := h'.id.trans h.id
  module := by rw [h'.module, h.module, Module.update_update _ h'.id]
  outline id := (h'.outline id).trans (h.outline id)
  retains := h.retains.trans h'.retains

/-- Messages and counts do not matter. -/
theorem look (h : Reworks w f w₁ g) (module : w₂.module = w₁.module) (memo : w₂.memo = w₁.memo) :
    Reworks w f w₂ g where
  fit := ⟨module ▸ h.fit.hosts, h.fit.paired, by rw [module, memo]; exact h.fit.right⟩
  id := h.id
  module := module.trans h.module
  outline := module ▸ h.outline
  retains := h.retains

end Reworks

theorem Fit.simplify (h : Fit w f) :
    ∃ w₁, applyPass o f.id .simplifyLoops w = .ok (!f.lacking.isEmpty) w₁ ∧
    Reworks w f w₁ f.simplified ∧
    f.simplified.blocks.length = f.blocks.length + f.lacking.length := by
  have hlinked := h.hosts.framed.linked
  have hstart := Module.Simplified.start h.hosts.consistent h.hosts.mem hlinked h.paired
  have hrounds := Module.Simplified.simplifyLoops_eq
    (Q := fun g => (∀ k ∈ g.blocks, k.term?.isSome) ∧ outline g = outline f ∧ f.Retains g) ?_ hstart
    ⟨h.hosts.framed.ended, rfl, .refl f⟩
  · obtain ⟨m₁, hs, ⟨hended, houtline, hretains⟩, hnone, hrun⟩ := hrounds
    have hsame : ∀ id, (m₁.func? id).map outline = (w.module.func? id).map outline := by
      rw [hs.module]
      exact outline_of_update h.hosts.consistent h.hosts.mem hs.id houtline
    have hfuel : f.lacking.length < w.module.blockCount + 1 :=
      Nat.lt_succ_of_le
        ((Func.length_lacking_le hlinked).trans (Module.length_le_blockCount h.hosts.mem))
    refine ⟨{ w with module := m₁ }, ?_,
      ⟨⟨⟨hs.consistent, hs.mem, hs.linked, hended⟩, hs.paired, ?_⟩, hs.id,
      hs.module, hsame, hretains⟩, ?_⟩
    · simp only [applyPass, onModule, Edit.within, Module.simplify, hrun _ hfuel]
    · exact h.right.of_outline hsame
    · rw [← hs.count, hnone]
      rfl
  · intro m₁ g l hs hl _ hQ
    obtain ⟨σ, new, heq, hins⟩ :=
      (hs.consistent.extensible hs.mem hs.linked (hs.linked.isNaturalLoop hl)).exists_inserts
    rw [heq]
    exact ⟨hins.ended_entered hQ.1, hins.outline_entered.trans hQ.2.1, hQ.2.2.trans hins.retains⟩

/-- Hoisting finds right answers. -/
theorem Sweeps.right (h : Sweeps w f c w₁ g) (hw : w.module.Hosts f)
    (hmemo : Right w.module w.memo) :
    Right w₁.module w₁.memo := by
  induction h with
  | refl => exact hmemo
  | count _ module memo ih =>
    rw [module, memo]
    exact ih
  | step hs examines ih =>
    cases examines with
    | stay module memo =>
      rcases memo with memo | memo
      · rw [module, memo]
        exact ih
      · rw [module, memo]
        exact right_canHoist ih
    | move lifts module memo =>
      rw [module, memo]
      exact (right_canHoist ih).of_outline (outline_update (hs.kept hw).hosts lifts.relocates)

theorem Fit.hoist (h : Fit w f) {can : Instr → Bool}
    (hcan : can = Instr.isMovable w.module.isMemoryPure) :
    ∃ c w₁, applyPass o f.id .hoist w = .ok c w₁ ∧ Reworks w f w₁ (f.hoisted can) ∧
      (c = true ↔ f.hoisted can ≠ f) ∧ (f.hoisted can).blocks.length = f.blocks.length := by
  obtain ⟨c, w₁, hrun, hs⟩ :=
    hoistAll_result o (fun i => hcan ▸ canHoist_eq_isMovable h.right i) h.hosts
  have hkept := hs.kept h.hosts
  have hrises := hs.rises h.hosts
  refine ⟨c, w₁, ?_, ⟨⟨hkept.hosts, ?_, hs.right h.hosts h.right⟩, hkept.id, hkept.module,
    hkept.outline, ?_⟩, ?_, ?_⟩
  · simp only [applyPass, onFunc, h.hosts.func?]
    exact hrun
  · intro i hi
    exact h.paired i (hkept.perm.mem_iff.mp hi)
  · refine .of_perm hkept.id ?_ ?_
    · simpa [Function.comp_def] using congrArg (List.map Prod.fst) hkept.names
    · have hloose : (f.hoisted can).loose = f.loose := by rw [hkept.frame]
      rw [Func.held, Func.held, hloose]
      exact hkept.perm.append_right _
  · constructor
    · intro hc heq
      rw [hrises.eq_false h.hosts.own (congrArg Func.blocks heq)] at hc
      cases hc
    · intro hne
      by_contra hc
      exact hne (hrises.eq (Bool.eq_false_iff.mpr hc))
  · simpa using congrArg List.length hkept.names

theorem onFunc_say {id : FuncId} (hf : w.module.func? id = some f) (on : Bool)
    (message : Func → Work → String) :
    onFunc id (fun f => modify fun w => w.say on (message f w)) w =
    .ok () (w.say on (message f w)) := by
  simp only [onFunc, hf]
  rfl

theorem runPass_ok {id : FuncId} {p : Pass} (hrun : applyPass o id p w = .ok c w₁)
    (hf : w₁.module.func? id = some f) :
    ∃ w₂, runPass o id p w = .ok c w₂ ∧ w₂.module = w₁.module ∧ w₂.memo = w₁.memo := by
  rw [runPass, Edit.bind_ok hrun]
  cases c with
  | false => exact ⟨w₁, rfl, rfl, rfl⟩
  | true =>
    rw [if_pos rfl,
      Edit.bind_ok (onFunc_say hf o.trace fun f _ => "hoist: " ++ p.name ++ " changed " ++ f.name)]
    exact ⟨_, rfl, module_say _ _ _, memo_say _ _ _⟩

theorem Reworks.runPass (h : Reworks w f w₁ g) {p : Pass} (hrun : applyPass o f.id p w₁ = .ok c w₂)
    (h' : Reworks w₁ g w₂ k) : ∃ w₃, runPass o f.id p w₁ = .ok c w₃ ∧ Reworks w f w₃ k := by
  have hid := h'.id.trans h.id
  obtain ⟨w₃, hrun, hmodule, hmemo⟩ := runPass_ok o hrun (hid ▸ h'.fit.hosts.func?)
  exact ⟨w₃, hrun, (h.trans h').look hmodule hmemo⟩

theorem Reworks.dump (h : Reworks w f w₁ g) (title : String) :
    ∃ w₂, dump o f.id title w₁ = .ok () w₂ ∧ Reworks w f w₂ g := by
  have hf : w₁.module.func? f.id = some g := h.id ▸ h.fit.hosts.func?
  exact ⟨_, onFunc_say hf o.dumpIR fun f w => "hoist: " ++ title ++ "\n" ++ f.print w.module.scope,
    h.look (module_say _ _ _) (memo_say _ _ _)⟩

theorem runPasses_cons {id : FuncId} {p : Pass} {ps : List Pass} {c' : Bool}
    (hrun : runPass o id p w = .ok c w₁)
    (hrest : runPasses o id ps w₁ = .ok c' w₂) : runPasses o id (p :: ps) w = .ok (c || c') w₂ := by
  rw [runPasses, Edit.bind_ok hrun, Edit.bind_ok hrest]
  rfl

/-- The steps make of a function what it and the purity of the others tell. The answer tells whether
the function is another one than before. -/
theorem Reworks.runPasses (h : Reworks w f w₁ f) :
    ∃ c w₂, runPasses o f.id (passes o) w₁ = .ok c w₂ ∧
    Reworks w f w₂ (f.optimized o w.module.isMemoryPure) ∧
    (c = true ↔ f.optimized o w.module.isMemoryPure ≠ f) := by
  cases hpre : o.insertPreheaders with
  | false =>
    obtain ⟨c, w₂, hrun, h₂, hc, _⟩ := h.fit.hoist o (congrArg _ h.isMemoryPure.symm)
    obtain ⟨w₃, hpass, h₃⟩ := h.runPass o hrun h₂
    rw [Func.optimized, passes, hpre, if_neg Bool.false_ne_true, if_neg Bool.false_ne_true]
    refine ⟨c || false, w₃, runPasses_cons o hpass rfl, h₃, ?_⟩
    rwa [Bool.or_false]
  | true =>
    obtain ⟨w₂, hrun, h₂, hlength⟩ := h.fit.simplify o
    obtain ⟨w₃, hpass, h₃⟩ := h.runPass o hrun h₂
    obtain ⟨c, w₄, hrun', h₄, hc, hlength'⟩ := h₃.fit.hoist o (congrArg _ h₃.isMemoryPure.symm)
    obtain ⟨w₅, hpass', h₅⟩ := h₃.runPass o (h₃.id ▸ hrun') h₄
    rw [Func.optimized, passes, hpre, if_pos rfl, if_pos rfl]
    refine ⟨!f.lacking.isEmpty || (c || false), w₅,
      runPasses_cons o hpass (runPasses_cons o hpass' rfl), h₅, ?_⟩
    cases hlacking : f.lacking with
    | nil =>
      have hsame : f.simplified = f := by rw [Func.simplified, hlacking]; rfl
      rw [hsame] at hc ⊢
      simpa using hc
    | cons d ds =>
      -- a block was inserted, and none is taken out again
      have hne : f.simplified.hoisted (Instr.isMovable w.module.isMemoryPure) ≠ f := by
        intro heq
        rw [heq, hlength, hlacking, List.length_cons] at hlength'
        omega
      simpa using hne

/-- Optimising a function never fails if its blocks are in order. -/
theorem Fit.optimize (h : Fit w f) : ∃ c w₁, optimize o f.id w = .ok c w₁ ∧
    Reworks w f w₁ (f.optimized o w.module.isMemoryPure) ∧
    (c = true ↔ f.optimized o w.module.isMemoryPure ≠ f) := by
  obtain ⟨w₁, hbefore, h₁⟩ := (Reworks.refl h).dump o "before optimization"
  obtain ⟨c, w₂, hrun, h₂, hc⟩ := h₁.runPasses o
  obtain ⟨w₃, hafter, h₃⟩ := h₂.dump o "after optimization"
  refine ⟨c, w₃, ?_, h₃, hc⟩
  rw [Work.optimize, Edit.bind_ok hbefore, Edit.bind_ok hrun, Edit.bind_ok hafter]
  rfl

end Work

namespace Func

variable {f : Func}

theorem nest_of_isDeclaration (hf : f.Linked) (h : f.isDeclaration = true) : f.nest = [] := by
  rw [List.eq_nil_iff_forall_not_mem]
  intro l hl
  have hnat := hf.isNaturalLoop hl
  obtain ⟨k, hk, _⟩ := hnat.exists_block hf hnat.header_mem
  rw [List.isEmpty_iff.mp h] at hk
  exact List.not_mem_nil hk

theorem optimized_of_isDeclaration (o : Options) (pure : FuncId → Bool) (hf : f.Linked)
    (h : f.isDeclaration = true) :
    f.optimized o pure = f := by
  have hnest := nest_of_isDeclaration hf h
  have hsimple : f.simplified = f := by
    rw [simplified, lacking, hnest]
    rfl
  rw [optimized, hsimple, ite_self, hoisted, hnest]
  rfl

end Func

namespace Module

variable {m m' : Module} {f g : Func} {F G : Func → Func}

/-- The module with its functions changed. -/
def replace (m : Module) (F : Func → Func) : Module :=
  { m with functions := m.functions.map F, dropped := m.dropped.map F }

theorem replace_congr (h : ∀ f ∈ m.known, F f = G f) : m.replace F = m.replace G := by
  rw [replace, replace, List.map_congr_left fun f hf => h f (List.mem_append_left _ hf),
    List.map_congr_left fun f hf => h f (List.mem_append_right _ hf)]

theorem replace_eq (hkeep : ∀ f ∈ m.functions, F f = G f) (hdropped : ∀ f ∈ m.dropped, F f = f) :
    m.replace F = { m with functions := m.functions.map G } := by
  rw [replace, List.map_congr_left hkeep, List.map_congr_left hdropped, List.map_id']

theorem replace_update (m : Module) (g : Func) (F : Func → Func) :
    (m.update g).replace F = m.replace fun f => F (if f.id = g.id then g else f) := by
  simp [replace, update, Function.comp_def]

theorem Consistent.isMemoryPure_of_perm (hm : m.Consistent) (h : m'.known.Perm m.known) :
    m'.isMemoryPure = m.isMemoryPure := by
  apply isMemoryPure_of_outline
  intro id
  have hfunc : m'.func? id = m.func? id := by
    ext f
    rw [(hm.of_perm h).func?_iff, hm.func?_iff, h.mem_iff]
  rw [hfunc]

end Module

namespace Compilation

variable {c c₁ : Compilation} {f : Func} {memo : Memo} {pure : FuncId → Bool}
  {changes : Func → Bool} (o : Options)

theorem work_ok {α : Type} {e : Edit Work α} {a : α} {w : Work}
    (h : e { module := c.module, memo, stats := c.stats, log := c.log } = .ok a w) :
    work memo e c = .ok (a, w.memo) ⟨w.module, w.stats, w.log⟩ := by
  rw [work, h]

/-- The functions of a list become what each of them would become alone. -/
theorem hoistEach_ok (hchanges : ∀ f, changes f = true ↔ f.optimized o pure ≠ f) {fs : List Func}
    (hm : c.module.Consistent) (hpure : c.module.isMemoryPure = pure) (hmemo : Right c.module memo)
    (hids : (fs.map Func.id).Nodup) (hfs : ∀ f ∈ fs, f ∈ c.module.known ∧ f.Framed ∧ f.Paired) :
    ∃ c₁, hoistEach o (fs.map Func.id) memo c = .ok (fs.countP changes) c₁ ∧
      c₁.module = c.module.replace fun f => if f.id ∈ fs.map Func.id then f.optimized o pure
        else f := by
  induction fs generalizing c memo with
  | nil =>
    refine ⟨c, rfl, ?_⟩
    simp [Module.replace]
  | cons f fs ih =>
    obtain ⟨hf, hframed, hpaired⟩ := hfs f List.mem_cons_self
    let w : Work := { module := c.module, memo, stats := c.stats, log := c.log }
    have hfit : w.Fit f := ⟨⟨hm, hf, hframed⟩, hpaired, hmemo⟩
    obtain ⟨b, w₁, hrun, hw, hb⟩ := hfit.optimize o
    have hid := hw.id
    rw [hpure] at hw hb hid
    rw [List.map_cons, List.nodup_cons] at hids
    have hrest : ∀ g ∈ fs, g ∈ w₁.module.known ∧ g.Framed ∧ g.Paired := by
      intro g hg
      have hgf := hfs g (List.mem_cons_of_mem _ hg)
      refine ⟨?_, hgf.2⟩
      rw [hw.module, Module.mem_known_update hf hid]
      exact Or.inr ⟨hgf.1, fun he => hids.1 (he ▸ List.mem_map_of_mem hg)⟩
    obtain ⟨c₁, hall, hmodule⟩ := ih (c := ⟨w₁.module, w₁.stats, w₁.log⟩) hw.fit.hosts.consistent
      (hw.isMemoryPure.trans hpure) hw.fit.right hids.2 hrest
    refine ⟨c₁, ?_, ?_⟩
    · have hbf : changes f = b := by rw [Bool.eq_iff_iff, hb, hchanges]
      rw [List.countP_cons, hbf]
      refine (Edit.bind_ok (work_ok hrun)).trans ((Edit.bind_ok hall).trans ?_)
      cases b with
      | true => rfl
      | false => rfl
    · rw [hmodule, hw.module, Module.replace_update]
      refine Module.replace_congr fun g hg => ?_
      by_cases hgf : g.id = f.id
      · have heq : g = f := List.inj_on_of_nodup_map hm.funcs hg hf hgf
        rw [heq, hid, if_pos rfl, hid, if_neg hids.1, if_pos (by simp)]
      · rw [hid, if_neg hgf]
        simp [hgf]

theorem hoistModule_ok (hchanges : ∀ f, changes f = true ↔ f.optimized o pure ≠ f)
    (hm : c.module.Consistent) (hpure : c.module.isMemoryPure = pure)
    (hfs : ∀ f ∈ c.module.functions, f.Framed ∧ f.Paired) :
    ∃ c₁, hoistModule o c = .ok (c.module.functions.countP changes) c₁ ∧
      c₁.module =
      { c.module with functions := c.module.functions.map (Func.optimized o pure) } := by
  have hnodup := List.nodup_append.mp (List.map_append ▸ hm.funcs)
  have hdeclared : ∀ f ∈ c.module.functions, f.isDeclaration = true → f.optimized o pure = f :=
    fun f hf =>
    Func.optimized_of_isDeclaration o pure (hfs f hf).1.linked
  have hids : ((c.module.functions.filter fun f => !f.isDeclaration).map Func.id).Nodup :=
    hnodup.1.sublist (List.filter_sublist.map _)
  obtain ⟨c₁, hrun, hmodule⟩ := hoistEach_ok o hchanges hm hpure (right_nil _) hids fun f hf =>
    ⟨List.mem_append_left _ (List.mem_of_mem_filter hf), hfs f (List.mem_of_mem_filter hf)⟩
  refine ⟨c₁, ?_, ?_⟩
  · rw [hoistModule, hrun, List.countP_filter]
    congr 1
    refine List.countP_congr fun f hf => ?_
    rw [Bool.and_eq_true, and_iff_left_iff_imp, hchanges, Bool.not_eq_true', Bool.eq_false_iff]
    exact fun hne hbody => hne (hdeclared f hf hbody)
  · rw [hmodule]
    apply Module.replace_eq
    · intro f hf
      cases hbody : f.isDeclaration with
      | true => rw [hdeclared f hf hbody, ite_self]
      | false => exact if_pos (List.mem_map_of_mem (List.mem_filter.mpr ⟨hf, by simp [hbody]⟩))
    · intro f hf
      refine if_neg fun hid => ?_
      obtain ⟨g, hg, hgf⟩ := List.mem_map.mp hid
      exact hnodup.2.2 _ (List.mem_map_of_mem (List.mem_of_mem_filter hg)) _
        (List.mem_map_of_mem hf) hgf

/-- Optimising a whole module comes to optimising each function alone in the module as it was, if
blocks end with terminators, branches lead to blocks of the function and phis have as many values as
blocks. None of it fails. The answer is the number of functions that alone would be changed, and in
another order of the functions the result is the same, in that order. -/
theorem hoistModule_is_modular (o : Options) (c : Compilation) (hm : c.module.Consistent)
    (hlinked : ∀ f ∈ c.module.functions, f.Linked)
    (hended : ∀ f ∈ c.module.functions, ∀ k ∈ f.blocks, k.term?.isSome)
    (hphis : ∀ f ∈ c.module.functions,
      ∀ i ∈ f.instrs, i.op = .phi → i.operands.length = i.incoming.length) :
    ∃ (alone : Func → Func) (changes : Func → Bool),
      (∀ f ∈ c.module.functions,
        ∃ c₁, hoist o f.id c = .ok (changes f) c₁ ∧ c₁.module.func? f.id = some (alone f) ∧
        (changes f = true ↔ alone f ≠ f)) ∧
      (∃ c₁, hoistModule o c = .ok (c.module.functions.countP changes) c₁ ∧
        c₁.module = { c.module with functions := c.module.functions.map alone }) ∧
      ∀ fs, fs.Perm c.module.functions →
        ∃ c₁, hoistModule o { c with module.functions := fs } =
          .ok (c.module.functions.countP changes) c₁ ∧
          c₁.module = { c.module with functions := fs.map alone } := by
  classical
  obtain ⟨changes, hchanges⟩ : ∃ changes : Func → Bool, ∀ f, changes f = true ↔
      f.optimized o c.module.isMemoryPure ≠ f := ⟨fun f => decide _, fun f => decide_eq_true_iff⟩
  have hfs : ∀ f ∈ c.module.functions, f.Framed ∧ f.Paired :=
    fun f hf => ⟨⟨hlinked f hf, hended f hf⟩, hphis f hf⟩
  refine ⟨Func.optimized o c.module.isMemoryPure, changes, fun f hf => ?_,
    hoistModule_ok o hchanges hm rfl hfs, fun fs hperm => ?_⟩
  · let w : Work := { module := c.module, stats := c.stats, log := c.log }
    have hfit : w.Fit f :=
      ⟨⟨hm, List.mem_append_left _ hf, (hfs f hf).1⟩, (hfs f hf).2, right_nil _⟩
    obtain ⟨b, w₁, hrun, hw, hb⟩ := hfit.optimize o
    have hbf : changes f = b := by rw [Bool.eq_iff_iff, hb, hchanges]
    refine ⟨⟨w₁.module, w₁.stats, w₁.log⟩, ?_, hw.id ▸ hw.fit.hosts.func?, hchanges f⟩
    rw [hbf]
    exact Edit.bind_ok (work_ok hrun)
  · have hknown : (Module.known { c.module with functions := fs }).Perm c.module.known :=
      hperm.append_right _
    obtain ⟨c₁, hrun, hmodule⟩ := hoistModule_ok (c := { c with module.functions := fs }) o hchanges
      (hm.of_perm hknown) (hm.isMemoryPure_of_perm hknown) fun f hf => hfs f (hperm.mem_iff.mp hf)
    refine ⟨c₁, ?_, hmodule⟩
    rw [hrun, hperm.countP_eq]

/-- Two functions that each have a loop. The first one calls the second one in its loop, whose own
loop is entered by two branches of one block. The third one has no body. -/
def twoLoopFunctions : Compilation :=
  let x := Value.param ⟨"x", .int 32, 1⟩
  let choose (func : FuncId) (serial : Nat) (targets : List BlockId) : Instr :=
    { op := .condBr, operands := [.param ⟨"flag", .int 1, 0⟩], targets := targets.map (⟨func, ·⟩),
      id := ⟨func, serial⟩ }
  let params := [("flag", Ty.int 1), ("x", Ty.int 32)]
  let caller := Func.record { Func.declare 0 "caller" (.int 32) params with
    blocks := [
      ⟨1, "", 0, [{ op := .br, targets := [⟨0, 2⟩], id := ⟨0, 0⟩ }]⟩,
      ⟨2, "", 0, [
        { op := .call, operands := [.func 1, x], id := ⟨0, 1⟩ },
        { op := .call, operands := [.func 2, .instr ⟨0, 1⟩], id := ⟨0, 2⟩ },
        choose 0 3 [2, 3]]⟩,
      ⟨3, "", 0, [{ op := .ret, operands := [.instr ⟨0, 1⟩], id := ⟨0, 4⟩ }]⟩]
    maxBlock := 3
    nextSerial := 5 }
  let callee := Func.record { Func.declare 1 "callee" (.int 32) params with
    blocks := [
      ⟨1, "", 1, [choose 1 0 [2, 2]]⟩,
      ⟨2, "", 1, [
        { op := .phi, operands := [x, .instr ⟨1, 2⟩], incoming := [⟨1, 1⟩, ⟨1, 2⟩], id := ⟨1, 1⟩ },
        { op := .binary .sdiv, operands := [x, x], id := ⟨1, 2⟩ },
        choose 1 3 [2, 3]]⟩,
      ⟨3, "", 1, [{ op := .ret, operands := [.instr ⟨1, 1⟩], id := ⟨1, 4⟩ }]⟩]
    maxBlock := 3
    nextSerial := 5 }
  let sink := Func.declare 2 "sink" .void [("x", .int 32)]
  { module := { name := "", functions := [caller, callee, sink] } }

theorem twoLoopFunctions_is_modular : ∃ c₁ c₂, twoLoopFunctions.module.Consistent ∧
    (∀ f ∈ twoLoopFunctions.module.functions, f.Linked) ∧
    (∀ f ∈ twoLoopFunctions.module.functions, ∀ k ∈ f.blocks, k.term?.isSome) ∧
    (∀ f ∈ twoLoopFunctions.module.functions,
      ∀ i ∈ f.instrs, i.op = .phi → i.operands.length = i.incoming.length) ∧
      hoistModule { insertPreheaders := true } twoLoopFunctions = .ok 2 c₁ ∧
      (c₁.module.functions.map fun f => f.blocks.map fun k => k.instrs.length) =
      [[2, 2, 1], [1, 2, 2, 1], []] ∧
      hoistModule { insertPreheaders := true }
        { twoLoopFunctions with module.functions := twoLoopFunctions.module.functions.reverse } =
        .ok 2 c₂ ∧ c₂.module.functions = c₁.module.functions.reverse := by
  have hm : twoLoopFunctions.module.Consistent := by decide
  have hlinked : ∀ f ∈ twoLoopFunctions.module.functions, f.Linked := by
    simp only [twoLoopFunctions, List.forall_mem_cons]
    exact ⟨⟨by decide, by decide⟩, ⟨by decide, by decide⟩, ⟨by decide, by decide⟩, nofun⟩
  have hended : ∀ f ∈ twoLoopFunctions.module.functions, ∀ k ∈ f.blocks, k.term?.isSome := by decide
  have hphis : ∀ f ∈ twoLoopFunctions.module.functions,
      ∀ i ∈ f.instrs, i.op = .phi → i.operands.length = i.incoming.length := by
    decide
  have hcount :
      Edit.outcome? (hoistModule { insertPreheaders := true }) twoLoopFunctions (fun n c₁ =>
      (n, c₁.module.functions.map fun f => f.blocks.map fun k => k.instrs.length)) =
        some (2, [[2, 2, 1], [1, 2, 2, 1], []]) := by cbv
  obtain ⟨alone, changes, _, ⟨c₁, hrun, hmodule⟩, hperm⟩ :=
    hoistModule_is_modular { insertPreheaders := true } twoLoopFunctions hm hlinked hended hphis
  obtain ⟨c₂, hrun', hmodule'⟩ := hperm _ (List.reverse_perm _)
  rw [Edit.outcome?_of_ok hrun, Option.some_inj, Prod.mk.injEq] at hcount
  rw [hcount.1] at hrun hrun'
  refine ⟨c₁, c₂, hm, hlinked, hended, hphis, hrun, hcount.2, hrun', ?_⟩
  rw [hmodule', hmodule, List.map_reverse]

/-- A function whose instruction goes to another function changes what that one becomes. -/
theorem foreignHeaderWork_is_not_modular : Work.foreignHeaderWork.module.Consistent ∧
    (∀ f ∈ Work.foreignHeaderWork.module.functions, ∀ k ∈ f.blocks, k.term?.isSome) ∧
    (∀ f ∈ Work.foreignHeaderWork.module.functions,
      ∀ i ∈ f.instrs, i.op = .phi → i.operands.length = i.incoming.length) ∧
      ∃ n c₁ f b c₂ g, hoistModule {} { module := Work.foreignHeaderWork.module } = .ok n c₁ ∧
        c₁.module.func? 0 = some f ∧ hoist {} 0 { module := Work.foreignHeaderWork.module } =
          .ok b c₂ ∧ c₂.module.func? 0 = some g ∧ f.instrs.length ≠ g.instrs.length := by
  have hall :
      Edit.outcome? (hoistModule {}) { module := Work.foreignHeaderWork.module } (fun _ c₁ =>
      (c₁.module.func? 0).map fun f => f.instrs.length) = some (some 3) := by cbv
  have halone : Edit.outcome? (hoist {} 0) { module := Work.foreignHeaderWork.module } (fun _ c₁ =>
      (c₁.module.func? 0).map fun f => f.instrs.length) = some (some 2) := by cbv
  obtain ⟨n, c₁, hrun, hf⟩ := Edit.outcome?_eq_some_iff.mp hall
  obtain ⟨b, c₂, hrun', hg⟩ := Edit.outcome?_eq_some_iff.mp halone
  obtain ⟨f, hf, hlength⟩ := Option.map_eq_some_iff.mp hf
  obtain ⟨g, hg, hlength'⟩ := Option.map_eq_some_iff.mp hg
  refine ⟨by decide, by decide, by decide, n, c₁, f, b, c₂, g, hrun, hf,
    hrun', hg, ?_⟩
  rw [hlength, hlength']
  decide

end Compilation

end KernelIR
