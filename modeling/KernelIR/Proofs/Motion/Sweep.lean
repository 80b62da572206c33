import KernelIR.Hoist.Motion
import KernelIR.Proofs.Edit
import KernelIR.Proofs.Graph.TreeWalk
import KernelIR.Proofs.Motion.Relocate
import KernelIR.Proofs.Preheader.Spec
import KernelIR.Proofs.Purity

namespace KernelIR

namespace Purity

variable {m : Module} {f g : Func} {i : Instr} {src dst : Block}

/-- A function of the same outline in place of another one changes no outline in the module. -/
theorem outline_of_update (hm : m.Consistent) (hf : f ∈ m.known) (hid : g.id = f.id)
    (h : outline g = outline f) (id : FuncId) :
    ((m.update g).func? id).map outline = (m.func? id).map outline := by
  rw [Module.func?_update, Option.map_map]
  cases hk : m.func? id with
  | none => rfl
  | some k =>
    have hknown := (hm.func?_iff.mp hk).1
    by_cases hkg : k.id = g.id
    · have hkf : k = f := List.inj_on_of_nodup_map hm.funcs hknown hf (hkg.trans hid)
      subst hkf
      simp [hid, h]
    · simp [hkg]

/-- Moving an instruction changes no outline in the module. -/
theorem outline_update (hm : m.Hosts f) (h : f.Relocates i src dst) (id : FuncId) :
    ((m.update (f.moved i dst.id)).func? id).map outline = (m.func? id).map outline := by
  refine outline_of_update hm.consistent hm.mem (Func.id_moved f i dst.id) ?_ id
  have hbody : (f.moved i dst.id).isDeclaration = f.isDeclaration := by
    simp [Func.isDeclaration, Func.blocks_moved]
  have hinstrs : ∀ j, j ∈ (f.moved i dst.id).instrs ↔ j ∈ f.instrs := fun j =>
    (h.perm_instrs hm.own hm.framed.linked).mem_iff
  simp only [outline, hbody, hinstrs]
  rfl

end Purity

theorem canHoist_computes {m : Module} {i : Instr} {memo : Purity.Memo}
    (h : (canHoist m i memo).1 = true) :
    i.op ≠ .phi ∧ i.op.isTerminator = false := by
  cases hop : i.op with
  | binary op => exact ⟨nofun, rfl⟩
  | cast op => exact ⟨nofun, rfl⟩
  | call => exact ⟨nofun, rfl⟩
  | _ => simp [canHoist, hop, Opcode.isMovable] at h

/-- The operands of an invariant instruction stand outside the loop. -/
theorem Module.Hosts.invariant_iff {m : Module} {f : Func} (h : m.Hosts f) {l : Loop}
    (hl : f.IsNaturalLoop l) {i : Instr} : m.invariant l i = true ↔
      ∀ d ∈ i.reads, ∀ k ∈ f.blocks, k.holds d = true → f.ref k.id ∉ l.body := by
  rw [invariant, List.all_eq_true]
  constructor
  · intro hall d hd k hk hold
    obtain ⟨v, hv, hvd⟩ := List.mem_filterMap.mp hd
    have hv' : v = .instr d := by
      cases v with
      | instr e => exact congrArg Value.instr (Option.some.inj hvd)
      | _ => cases hvd
    have howner : m.owner? d = some (f.ref k.id) :=
      h.consistent.owner?_iff.mpr ⟨f, h.mem, k, hk, hold, rfl⟩
    have hinv := hall v hv
    rw [hv', invariantValue, howner] at hinv
    simpa [Loop.contains] using hinv
  · intro hreads v hv
    cases v with
    | instr d =>
      have hd : d ∈ i.reads := List.mem_filterMap.mpr ⟨.instr d, hv, rfl⟩
      rw [invariantValue, Option.all_eq_true]
      intro b hb
      obtain ⟨g, hg, k, hk, hold, rfl⟩ := h.consistent.owner?_iff.mp hb
      simp only [Loop.contains, List.contains_eq_mem, Bool.not_eq_true', decide_eq_false_iff_not]
      intro hin
      -- a block of the loop is one of the function
      obtain ⟨j, _, he⟩ := hl.exists_block h.framed.linked hin
      have hgf : g = f :=
        List.inj_on_of_nodup_map h.consistent.funcs hg h.mem (congrArg BlockRef.func he)
      subst hgf
      exact hreads d hd k hk hold hin
    | _ => rfl

namespace Work

/-- What makes hoisting move an instruction: it may be moved, it stands in a loop that computes none
of its operands, and the loop has a preheader. -/
structure Lifts (w : Work) (g : Func) (l : Loop) (i : Instr) (src dst : Block) : Prop where
  loop : g.IsNaturalLoop l
  pre : g.IsPreheader l dst
  src_mem : src ∈ g.blocks
  body : g.ref src.id ∈ l.body
  mem : i ∈ src.instrs
  invariant : w.module.invariant l i = true
  can : (canHoist w.module i w.memo).1 = true

theorem Lifts.relocates {w : Work} {g : Func} {l : Loop} {i : Instr} {src dst : Block}
    (h : w.Lifts g l i src dst) : g.Relocates i src dst :=
  ⟨h.src_mem, h.pre.mem, h.mem, (canHoist_computes h.can).2, fun he => h.pre.outside (he ▸ h.body)⟩

/-- What looking at an instruction of a loop comes to: it stays, or it moves to the preheader. -/
inductive Examines (l : Loop) (src : Block) (i : Instr) (w : Work) (g : Func) :
    Bool → Work → Func → Prop where
  | stay {w₁ : Work} (module : w₁.module = w.module)
      (memo : w₁.memo = w.memo ∨ w₁.memo = (canHoist w.module i w.memo).2)
      (refused : w.module.invariant l i = true → (canHoist w.module i w.memo).1 = false)
        (stats : w₁.stats = w.stats) :
      Examines l src i w g false w₁ g
  | move {w₁ : Work} {dst : Block} (lifts : w.Lifts g l i src dst)
      (module : w₁.module = w.module.update (g.moved i dst.id))
        (memo : w₁.memo = (canHoist w.module i w.memo).2)
      (stats : w₁.stats = { w.stats with hoisted := w.stats.hoisted + 1 }) :
      Examines l src i w g true w₁ (g.moved i dst.id)

/-- What hoisting does to a function of a module, one instruction after the other. Answers whether
one was moved. -/
inductive Sweeps (w : Work) (f : Func) : Bool → Work → Func → Prop where
  | refl : Sweeps w f false w f
  | count {c : Bool} {w₁ w₂ : Work} {g : Func} (h : Sweeps w f c w₁ g)
    (module : w₂.module = w₁.module)
      (memo : w₂.memo = w₁.memo) : Sweeps w f c w₂ g
  | step {c c' : Bool} {w₁ w₂ : Work} {g g' : Func} {l : Loop} {src : Block} {i : Instr}
    (h : Sweeps w f c w₁ g)
      (examines : Examines l src i w₁ g c' w₂ g') : Sweeps w f (c || c') w₂ g'

@[simp] theorem module_say (w : Work) (on : Bool) (s : String) :
    (w.say on s).module = w.module := by
  rw [say]
  split
  · rfl
  · rfl

@[simp] theorem memo_say (w : Work) (on : Bool) (s : String) : (w.say on s).memo = w.memo := by
  rw [say]
  split
  · rfl
  · rfl

@[simp] theorem stats_say (w : Work) (on : Bool) (s : String) : (w.say on s).stats = w.stats := by
  rw [say]
  split
  · rfl
  · rfl

section Step

variable {w : Work} {g : Func} {l : Loop} {i : Instr} {src dst : Block} (o : Options)

/-- One instruction of a loop block never makes hoisting fail. -/
theorem hoistInstr_examines (hw : w.module.Hosts g) (hl : g.IsNaturalLoop l)
    (hpre : g.IsPreheader l dst) (hsrc : src ∈ g.blocks) (hbody : g.ref src.id ∈ l.body)
    (hi : i ∈ src.instrs) (b : BlockRef) :
    ∃ c w₁ g₁, hoistInstr o l b (g.ref dst.id) i w = .ok c w₁ ∧ Examines l src i w g c w₁ g₁ := by
  by_cases hinv : w.module.invariant l i = true
  · cases hcan : canHoist w.module i w.memo with
    | mk answer memo =>
      cases answer with
      | false =>
        refine ⟨false, { w with memo }, g, by simp [hoistInstr, hinv, hcan],
          .stay rfl (Or.inr ?_) (fun _ => ?_) rfl⟩
        · rw [hcan]
        · rw [hcan]
      | true =>
        have hlifts : w.Lifts g l i src dst := ⟨hl, hpre, hsrc, hbody, hi, hinv, by rw [hcan]⟩
        have hedit := Module.moveBeforeTerm_eq hw.consistent hw.mem hw.framed hlifts.relocates
        refine ⟨true, _, g.moved i dst.id, by simp [hoistInstr, hinv, hcan, hedit]; rfl,
          .move hlifts rfl ?_ ?_⟩
        · simp [hcan]
        · simp
  · have hfalse : w.module.invariant l i = false := Bool.eq_false_iff.mpr hinv
    exact ⟨false, w, g, by simp [hoistInstr, hfalse],
      .stay rfl (Or.inl rfl) (fun h => absurd h hinv) rfl⟩

end Step

/-- What hoisting leaves as it is, from the start of a pass to some point of it. -/
structure Kept (w : Work) (f : Func) (w₁ : Work) (g : Func) : Prop where
  hosts : w₁.module.Hosts g
  module : w₁.module = w.module.update g
  frame : g = { f with blocks := g.blocks, parents := g.parents }
  flow : g.flow = f.flow
  names : (g.blocks.map fun k => (k.id, k.name)) = f.blocks.map fun k => (k.id, k.name)
  perm : g.instrs.Perm f.instrs
  outline : ∀ id, (w₁.module.func? id).map Purity.outline = (w.module.func? id).map Purity.outline
  agrees : Purity.Agrees w.module w.memo w₁.memo
  refused : (g.blocks.map fun k => k.instrs.filter fun i => !(canHoist w.module i w.memo).1) =
    f.blocks.map fun k => k.instrs.filter fun i => !(canHoist w.module i w.memo).1

namespace Kept

variable {w w₁ w₂ : Work} {f g g' : Func} {l : Loop} {i : Instr} {src : Block} {c : Bool}

theorem refl (hw : w.module.Hosts f) : Kept w f w f where
  hosts := hw
  module := hw.update_self.symm
  frame := rfl
  flow := rfl
  names := rfl
  perm := List.Perm.refl _
  outline _ := rfl
  agrees := Purity.Agrees.refl _ _
  refused := rfl

variable (h : Kept w f w₁ g)

include h

theorem id : g.id = f.id := by rw [h.frame]

theorem ref (n : BlockId) : g.ref n = f.ref n := by rw [Func.ref, Func.ref, h.id]

theorem canHoist_eq (i : Instr) :
    (canHoist w₁.module i w₁.memo).1 = (canHoist w.module i w.memo).1 :=
  KernelIR.canHoist_eq h.agrees h.outline

theorem agrees_next (i : Instr) : Purity.Agrees w.module w.memo (canHoist w₁.module i w₁.memo).2 :=
  (agrees_canHoist (h.agrees.of_outline h.outline)).of_outline fun id => (h.outline id).symm

theorem isNaturalLoop (hl : f.IsNaturalLoop l) : g.IsNaturalLoop l :=
  Func.isNaturalLoop_of_flow h.flow hl

theorem isPreheader (hl : f.IsNaturalLoop l) {k : Block} (hk : f.IsPreheader l k) :
    ∃ k', g.IsPreheader l k' ∧ k'.id = k.id := by
  rw [← Func.preheader?_eq_some_iff h.hosts.framed.linked (h.isNaturalLoop hl),
    Func.preheader?_of_flow h.flow h.id,
    Func.preheader?_eq_some_iff
      (Func.linked_of_flow h.flow.symm h.id.symm h.hosts.framed.linked) hl]
  exact ⟨k, hk, rfl⟩

theorem id_preheader (hl : f.IsNaturalLoop l) {k k' : Block} (hk : f.IsPreheader l k)
    (hk' : g.IsPreheader l k') :
    k'.id = k.id := by
  have hflow : f.Linked := Func.linked_of_flow h.flow.symm h.id.symm h.hosts.framed.linked
  have hsome := (Func.preheader?_eq_some_iff hflow hl).mpr ⟨k, hk, rfl⟩
  have hsome' :=
    (Func.preheader?_eq_some_iff h.hosts.framed.linked (h.isNaturalLoop hl)).mpr ⟨k', hk', rfl⟩
  rw [Func.preheader?_of_flow h.flow h.id, hsome] at hsome'
  exact (Option.some.inj hsome').symm

/-- Looking at other instructions and counting loops changes nothing. -/
theorem look (module : w₂.module = w₁.module) (memo : Purity.Agrees w.module w.memo w₂.memo) :
    Kept w f w₂ g where
  hosts := module ▸ h.hosts
  module := module.trans h.module
  frame := h.frame
  flow := h.flow
  names := h.names
  perm := h.perm
  outline := module ▸ h.outline
  agrees := memo
  refused := h.refused

theorem move {dst : Block} (lifts : w₁.Lifts g l i src dst)
    (module : w₂.module = w₁.module.update (g.moved i dst.id))
    (memo : w₂.memo = (canHoist w₁.module i w₁.memo).2) : Kept w f w₂ (g.moved i dst.id) := by
  have hrel := lifts.relocates
  have hown := h.hosts.own
  have hlinked := h.hosts.framed.linked
  have hblocks := fun k hk => hrel.moved_cases h.hosts.framed hown (k := k) hk
  refine ⟨?_, ?_, ?_, ?_, ?_, ?_, ?_, ?_, ?_⟩
  · exact module ▸ h.hosts.relocated hrel
  · rw [module, h.module, Module.update_update w.module (Func.id_moved g i dst.id)]
  · exact congrArg (fun x : Func => { x with
      blocks := (g.moved i dst.id).blocks, parents := (g.moved i dst.id).parents }) h.frame
  · exact (hrel.flow_moved h.hosts.framed hown).trans h.flow
  · rw [Func.blocks_moved, List.map_map, ← h.names]
    exact List.map_congr_left fun k _ =>
      Prod.ext (Block.id_moved i dst.id k) (Block.name_moved i dst.id k)
  · exact (hrel.perm_instrs hown hlinked).trans h.perm
  · intro id
    rw [module, Purity.outline_update h.hosts hrel, h.outline]
  · exact memo ▸ h.agrees_next i
  · rw [← h.refused, Func.blocks_moved, List.map_map]
    have hcan : (canHoist w.module i w.memo).1 = true := h.canHoist_eq i ▸ lifts.can
    refine List.map_congr_left fun k hk => ?_
    rcases hblocks k hk with ⟨_, a, b, t, hold, _, hnew, _⟩ | ⟨_, a, t, hold, _, hnew, _⟩ |
      ⟨_, _, he⟩
    · simp [hold, hnew, hcan]
    · simp [hold, hnew, hcan]
    · simp [he]

theorem examined (e : Examines l src i w₁ g c w₂ g') : Kept w f w₂ g' := by
  cases e with
  | stay module memo =>
    refine h.look module ?_
    rcases memo with memo | memo
    · exact memo ▸ h.agrees
    · exact memo ▸ h.agrees_next i
  | move lifts module memo => exact h.move lifts module memo

end Kept

theorem Sweeps.kept {w w₁ : Work} {f g : Func} {c : Bool} (h : Sweeps w f c w₁ g)
    (hw : w.module.Hosts f) :
    Kept w f w₁ g := by
  induction h with
  | refl => exact Kept.refl hw
  | count _ module memo ih => exact ih.look module (memo ▸ ih.agrees)
  | step _ examines ih => exact ih.examined examines

section Run

variable {w w₁ : Work} {f g : Func} {c : Bool} (o : Options)

theorem hoistInstrs_eq (l : Loop) (src pre : BlockRef) :
    hoistInstrs o l src pre = Edit.sweep (hoistInstr o l src pre) := by
  funext is
  induction is with
  | nil => rfl
  | cons i is ih => rw [hoistInstrs, Edit.sweep, ih]

theorem hoistBlocks_eq (l : Loop) (pre : BlockRef) :
    hoistBlocks o l pre = Edit.sweep (hoistBlock o l pre) := by
  funext bs
  induction bs with
  | nil => rfl
  | cons b bs ih => rw [hoistBlocks, Edit.sweep, ih]

theorem hoistLoops_eq (children : BlockRef → List BlockRef) (nest : LoopNest) :
    hoistLoops o children nest = Edit.sweep (hoistLoop o children nest) := by
  funext ls
  induction ls with
  | nil => rfl
  | cons l ls ih => rw [hoistLoops, Edit.sweep, ih]

/-- The rule for going over the blocks of a loop. `R` is about the instructions of the block and the
blocks that are still to come. -/
theorem hoistBlocks_run {R : List Instr → List BlockRef → Work → Func → Prop} {l : Loop}
    {pre : Block} {order : List BlockRef} (hw : w.module.Hosts f) (hl : f.IsNaturalLoop l)
    (hpre : f.IsPreheader l pre)
    (horder : ∀ b ∈ order, b ∈ l.body)
    (enter : ∀ before bs c w₁ g src, order = before ++ f.ref src.id :: bs → Sweeps w f c w₁ g →
      src ∈ g.blocks → R [] (f.ref src.id :: bs) w₁ g → R src.instrs bs w₁ g)
    (examine : ∀ before bs done i is c c' w₁ w₂ g g' src, order = before ++ f.ref src.id :: bs →
      Sweeps w f c w₁ g → src ∈ g.blocks → src.instrs = done ++ i :: is → R (i :: is) bs w₁ g →
        Examines l src i w₁ g c' w₂ g' → R is bs w₂ g')
    (hs : Sweeps w f c w₁ g) (start : R [] order w₁ g) :
    ∃ c' w₂ g', hoistBlocks o l (f.ref pre.id) order w₁ = .ok c' w₂ ∧ Sweeps w f (c || c') w₂ g' ∧
      R [] [] w₂ g' := by
  let P (bs : List BlockRef) (c : Bool) (w₁ : Work) : Prop :=
    ∃ before g, order = before ++ bs ∧ Sweeps w f c w₁ g ∧ R [] bs w₁ g
  have hblock : ∀ b bs c w₁, P (b :: bs) c w₁ →
      ∃ c' w₂, hoistBlock o l (f.ref pre.id) b w₁ = .ok c' w₂ ∧ P bs (c || c') w₂ := by
    intro b bs c w₁ hP
    obtain ⟨before, g, hsplit, hs, hR⟩ := hP
    have hkept := hs.kept hw
    have hb : b ∈ l.body := horder b (by simp [hsplit])
    obtain ⟨src, hsrc, hbsrc⟩ := (hkept.isNaturalLoop hl).exists_block hkept.hosts.framed.linked hb
    have hrun : hoistBlock o l (f.ref pre.id) b w₁ =
        Edit.sweep (hoistInstr o l b (f.ref pre.id)) src.instrs w₁ := by
      rw [hoistBlock, hbsrc, hkept.hosts.block? hsrc, ← hoistInstrs_eq]
    rw [hkept.ref] at hbsrc
    subst hbsrc
    let Q (is : List Instr) (c : Bool) (w₁ : Work) : Prop :=
      ∃ done g k, Sweeps w f c w₁ g ∧ k ∈ g.blocks ∧
      k.id = src.id ∧ k.instrs = done ++ is ∧ R is bs w₁ g
    have hinstr : ∀ i is c w₁, Q (i :: is) c w₁ → ∃ c' w₂,
        hoistInstr o l (f.ref src.id) (f.ref pre.id) i w₁ = .ok c' w₂ ∧ Q is (c || c') w₂ := by
      intro i is c w₁ hQ
      obtain ⟨done, g, k, hs, hk, hid, hinstrs, hR⟩ := hQ
      have hkept := hs.kept hw
      obtain ⟨dst, hdst, hdid⟩ := hkept.isPreheader hl hpre
      have hbody : g.ref k.id ∈ l.body := by rwa [hkept.ref, hid]
      have hi : i ∈ k.instrs := by simp [hinstrs]
      obtain ⟨c', w₂, g', hrun, hexamines⟩ :=
        hoistInstr_examines o hkept.hosts (hkept.isNaturalLoop hl) hdst hk
        hbody hi (f.ref src.id)
      rw [hdid, hkept.ref] at hrun
      refine ⟨c', w₂, hrun, ?_⟩
      have hnext := examine _ _ _ _ _ _ _ _ _ _ _ _ (hid ▸ hsplit) hs hk hinstrs hR hexamines
      have hsweeps := Sweeps.step hs hexamines
      cases hexamines with
      | stay => exact ⟨done ++ [i], g, k, hsweeps, hk, hid, by simp [hinstrs], hnext⟩
      | @move _ dst lifts =>
        refine ⟨done, _, k.moved i dst.id, hsweeps, Func.mem_blocks_moved i dst.id hk, ?_,
          ?_, hnext⟩
        · rw [Block.id_moved, hid]
        · exact (lifts.relocates.instrs_src hkept.hosts.own hkept.hosts.framed.linked hinstrs).1
    rw [hrun]
    obtain ⟨c', w₂, hok, done, g', _, hs', _, _, _, hR'⟩ := Edit.sweep_ok (P := Q) hinstr src.instrs
      ⟨[], g, src, hs, hsrc, rfl, rfl, enter _ _ _ _ _ _ hsplit hs hsrc hR⟩
    exact ⟨c', w₂, hok, before ++ [f.ref src.id], g', by simp [hsplit], hs', hR'⟩
  rw [hoistBlocks_eq]
  obtain ⟨c', w₂, hok, before, g', _, hs', hR'⟩ :=
    Edit.sweep_ok (P := P) hblock order ⟨[], g, rfl, hs, start⟩
  exact ⟨c', w₂, g', hok, hs', hR'⟩

/-- The same where the counts and messages do not matter. -/
theorem hoistBlocks_ok {R : List Instr → List BlockRef → Func → Prop} {l : Loop} {pre : Block}
    {order : List BlockRef} (hw : w.module.Hosts f) (hl : f.IsNaturalLoop l)
    (hpre : f.IsPreheader l pre)
    (horder : ∀ b ∈ order, b ∈ l.body)
    (enter : ∀ before bs c w₁ g src, order = before ++ f.ref src.id :: bs → Sweeps w f c w₁ g →
      src ∈ g.blocks → R [] (f.ref src.id :: bs) g → R src.instrs bs g)
    (examine : ∀ before bs done i is c c' w₁ w₂ g g' src, order = before ++ f.ref src.id :: bs →
      Sweeps w f c w₁ g → src ∈ g.blocks → src.instrs = done ++ i :: is → R (i :: is) bs g →
        Examines l src i w₁ g c' w₂ g' → R is bs g')
    (hs : Sweeps w f c w₁ g) (start : R [] order g) :
    ∃ c' w₂ g', hoistBlocks o l (f.ref pre.id) order w₁ = .ok c' w₂ ∧ Sweeps w f (c || c') w₂ g' ∧
      R [] [] g' :=
  hoistBlocks_run (R := fun is bs _ g => R is bs g) o hw hl hpre horder enter examine hs start

theorem mem_of_mem_scanOrder {m : Module} {children : BlockRef → List BlockRef} {nest : LoopNest}
    {l : Loop} {b : BlockRef} (hb : b ∈ scanOrder m children nest l) : b ∈ l.body := by
  have henter := enter_of_mem_treeWalk (List.mem_of_mem_filter hb)
  simpa [Loop.contains] using henter

/-- The rule for going over the loops of a function. `R` is about the loops that are still to
come. -/
theorem hoistAll_run {R : List Loop → Work → Func → Prop} (hw : w.module.Hosts f)
    (skip : ∀ before l ls c w₁ g, f.nest = before ++ l :: ls → Sweeps w f c w₁ g →
      f.preheader? l = none → R (l :: ls) w₁ g → R ls { w₁ with
        stats.loops := w₁.stats.loops + 1, stats.noPreheader := w₁.stats.noPreheader + 1 } g)
    (sweep : ∀ before l ls c w₁ g pre, f.nest = before ++ l :: ls → Sweeps w f c w₁ g →
      f.IsPreheader l pre → R (l :: ls) w₁ g → ∃ c' w₂ g', hoistBlocks o l (f.ref pre.id)
        (scanOrder w₁.module (w.module.domTree f).children f.nest l)
          { w₁ with stats.loops := w₁.stats.loops + 1 } = .ok c' w₂ ∧ Sweeps w f (c || c') w₂ g' ∧
            R ls w₂ g')
    (start : R f.nest w f) :
      ∃ c w₁ g, hoistAll o f w = .ok c w₁ ∧ Sweeps w f c w₁ g ∧ R [] w₁ g := by
  have hlinked := hw.framed.linked
  let P (ls : List Loop) (c : Bool) (w₁ : Work) : Prop :=
    ∃ before g, f.nest = before ++ ls ∧ Sweeps w f c w₁ g ∧ R ls w₁ g
  have hloop : ∀ l ls c w₁, P (l :: ls) c w₁ → ∃ c' w₂,
      hoistLoop o (w.module.domTree f).children f.nest l w₁ = .ok c' w₂ ∧ P ls (c || c') w₂ := by
    intro l ls c w₁ hP
    obtain ⟨before, g, hsplit, hs, hR⟩ := hP
    have hkept := hs.kept hw
    have hl : f.IsNaturalLoop l := hlinked.isNaturalLoop (by simp [hsplit])
    have hmodule : w₁.module.preheader? l = (f.preheader? l).map f.ref := by
      have href : g.ref = f.ref := funext hkept.ref
      rw [Module.preheader?_eq hkept.hosts.consistent hkept.hosts.mem hkept.hosts.framed.linked
        (hkept.isNaturalLoop hl), Func.preheader?_of_flow hkept.flow hkept.id, href]
    have hnext : f.nest = (before ++ [l]) ++ ls := by simp [hsplit]
    cases hpre : f.preheader? l with
    | none =>
      refine ⟨false, _, by simp [hoistLoop, hmodule, hpre], before ++ [l], g, hnext, ?_,
        skip _ _ _ _ _ _ hsplit hs hpre hR⟩
      rw [Bool.or_false]
      exact hs.count rfl rfl
    | some n =>
      obtain ⟨pre, hk, rfl⟩ := (Func.preheader?_eq_some_iff hlinked hl).mp hpre
      obtain ⟨c', w₂, g', hrun, hs', hR'⟩ := sweep _ _ _ _ _ _ _ hsplit hs hk hR
      refine ⟨c', w₂, ?_, before ++ [l], g', hnext, hs', hR'⟩
      simp only [hoistLoop, hmodule, hpre, Option.map_some]
      exact hrun
  obtain ⟨c, w₁, hok, before, g, _, hs, hR⟩ :=
    Edit.sweep_ok (P := P) hloop f.nest (c := false) ⟨[], f, rfl, .refl, start⟩
  refine ⟨c, w₁, g, ?_, by simpa using hs, hR⟩
  rw [hoistAll, hlinked.loopNest_eq, ← hok, ← hoistLoops_eq]

theorem hoistAll_ok {R : List Loop → Func → Prop} (hw : w.module.Hosts f)
    (skip : ∀ before l ls c w₁ g, f.nest = before ++ l :: ls → Sweeps w f c w₁ g →
      f.preheader? l = none → R (l :: ls) g → R ls g)
    (sweep : ∀ before l ls c w₁ g pre, f.nest = before ++ l :: ls → Sweeps w f c w₁ g →
      f.IsPreheader l pre → R (l :: ls) g → ∃ c' w₂ g', hoistBlocks o l (f.ref pre.id)
        (scanOrder w₁.module (w.module.domTree f).children f.nest l) w₁ = .ok c' w₂ ∧
          Sweeps w f (c || c') w₂ g' ∧ R ls g')
    (start : R f.nest f) : ∃ c w₁ g, hoistAll o f w = .ok c w₁ ∧ Sweeps w f c w₁ g ∧ R [] g := by
  refine hoistAll_run (R := fun ls _ g => R ls g) o hw skip ?_ start
  intro before l ls c w₁ g pre hsplit hs hpre hR
  have hcounted : Sweeps w f c { w₁ with stats.loops := w₁.stats.loops + 1 } g := hs.count rfl rfl
  exact sweep _ _ _ _ _ _ _ hsplit hcounted hpre hR

/-- Hoisting never fails on a function whose blocks are in order. -/
theorem hoistAll_sweeps (hw : w.module.Hosts f) :
    ∃ c w₁ g, hoistAll o f w = .ok c w₁ ∧ Sweeps w f c w₁ g := by
  have hall := hoistAll_ok (R := fun _ _ => True) o hw (by intros; trivial) ?_ trivial
  · obtain ⟨c, w₁, g, hok, hs, _⟩ := hall
    exact ⟨c, w₁, g, hok, hs⟩
  · intro before l ls c w₁ g pre hsplit hs hpre _
    have hl : f.IsNaturalLoop l := hw.framed.linked.isNaturalLoop (by simp [hsplit])
    exact hoistBlocks_ok (R := fun _ _ _ => True) o hw hl hpre (fun b hb => mem_of_mem_scanOrder hb)
      (by intros; trivial) (by intros; trivial) hs trivial

end Run

end Work

end KernelIR
