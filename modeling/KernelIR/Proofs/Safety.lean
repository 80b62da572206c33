import KernelIR.Drawing
import KernelIR.Geometry.Basic
import KernelIR.Proofs.Description.Inference
import KernelIR.Proofs.Modular
import Mathlib.Order.Basic

namespace KernelIR

namespace Description.Loads

variable {spec : ModuleSpec} {declared m : Module} {ds : List FuncDraft} {f : Func}

theorem framed (h : Loads spec declared ds m) (hf : f ∈ m.known) : f.Framed := by
  obtain ⟨s, d, hs, hd⟩ := h.exists_draft hf
  have hreal := h.func_realizes hs hd
  have hblock : ∀ k ∈ f.blocks, ∃ b : BlockSpec, b.RealizedBy m f k := fun k hk => by
    obtain ⟨b, _, hb⟩ := exists_of_mem_right hreal.blocks hk
    exact ⟨b, hb⟩
  refine ⟨⟨?_, fun k hk t ht => ?_⟩, fun k hk => ?_⟩
  · rw [hd.numbers, hs.numbers]
    exact List.nodup_range'
  · obtain ⟨b, hb⟩ := hblock k hk
    obtain ⟨x, hlast, hterm⟩ := hb.ended
    obtain ⟨body, hbody⟩ := List.getLast?_eq_some_iff.mp hlast
    rw [Block.succs_of_term hbody hterm] at ht
    exact hb.mem_targets (List.mem_of_getLast? hlast) ht
  · obtain ⟨b, hb⟩ := hblock k hk
    obtain ⟨x, hlast, hterm⟩ := hb.ended
    simp [Block.term?, hlast, hterm]

/-- A text stands for a constant, a parameter or something of the module. -/
theorem resolved (h : Loads spec declared ds m) (hf : f ∈ m.known) {i : Instr} (hi : i ∈ f.instrs) :
    i.Resolved m := by
  obtain ⟨s, d, hs, hd⟩ := h.exists_draft hf
  obtain ⟨k, hk, hik⟩ := Func.mem_instrs.mp hi
  obtain ⟨b, _, hb⟩ := exists_of_mem_right (h.func_realizes hs hd).blocks hk
  obtain ⟨t, _, ht⟩ := exists_of_mem_right hb.instrs hik
  have hnamed : ∀ name c, f.BlockNamed name c → (m.block? c).isSome := by
    intro name c hc
    obtain ⟨j, hj, _, hjc⟩ := hc
    exact h.consistent.block?_isSome_iff.mpr ⟨f, hf, j, hj, hjc⟩
  refine ⟨fun v hv => ?_, fun c hc => ?_⟩
  · obtain ⟨text, _, htext⟩ := exists_of_mem_right ht.operands hv
    have hden := (htext v).mpr rfl
    generalize Text.trim text.toList = cs at hden
    cases hden with
    | result hj =>
      exact h.consistent.instr?_isSome_iff.mpr ⟨f, hf, _, List.mem_append_left _ hj, rfl⟩
    | func hg => exact h.consistent.func?_isSome_iff.mpr ⟨_, List.mem_append_left _ hg, rfl⟩
    | constant hspells =>
      cases v with
      | instr d => cases hspells
      | func id => cases hspells
      | _ => trivial
    | _ => trivial
  · rcases List.mem_append.mp hc with hc | hc
    · obtain ⟨name, _, hname⟩ := exists_of_mem_right ht.targets hc
      exact hnamed name c ((hname c).mpr rfl)
    · obtain ⟨name, _, hname⟩ := exists_of_mem_right ht.sources hc
      exact hnamed name c ((hname c).mpr rfl)

theorem intact (h : Loads spec declared ds m) : m.Intact where
  consistent := h.consistent
  framed _ hf := h.framed hf
  paired f hf i hi hop := by
    obtain ⟨s, d, hs, hd⟩ := h.exists_draft hf
    obtain ⟨k, hk, hik⟩ := Func.mem_instrs.mp hi
    obtain ⟨b, _, hb⟩ := exists_of_mem_right (h.func_realizes hs hd).blocks hk
    exact (hb.complete hik).sources hop
  resolved f hf i hi := by
    obtain ⟨s, d, hs, hd⟩ := h.exists_draft hf
    rw [held_eq hs hd] at hi
    exact h.resolved hf hi
  tables t ht n hn v hv := by
    obtain ⟨hinstr, hfunc⟩ := h.tables t ht n hn v hv
    cases v with
    | instr d => exact absurd rfl (hinstr d)
    | func id =>
      obtain ⟨g, hg, hid⟩ := List.mem_map.mp (hfunc id rfl)
      exact h.consistent.func?_isSome_iff.mpr ⟨g, List.mem_append_left _ hg, hid⟩
    | _ => trivial

end Description.Loads

namespace Module

variable {m m' : Module} {f : Func}

/-- Whether no search is cut off by the bound on its length: with any larger bound it gives the same
answer. The dominator tree is also the one that is found if every vertex that is looked up must be
there. -/
structure Unhindered (m : Module) : Prop where
  purity :
    ∀ id memo n, m.known.length < n → Purity.decideFunc m n [] id memo = Purity.query m id memo
  dominators : ∀ f ∈ m.known, (m.flow f).domTree? = some (m.domTree f)
  chains : ∀ f ∈ m.known, (m.domTree f).Ends
  nests : ∀ f ∈ m.known, ∀ t n, ((m.flow f).ordered t).length ≤ n →
    FlowGraph.arrange ((m.flow f).ordered t) n none 1 = (m.flow f).loopNest t
  scans : ∀ f ∈ m.known, ∀ l ∈ (m.flow f).loopNest (m.domTree f), ∀ n, m.blockCount ≤ n →
    treeWalk (m.domTree f).children l.contains n l.header =
      treeWalk (m.domTree f).children l.contains m.blockCount l.header
  rounds : ∀ f ∈ m.known, ∀ n, m.blockCount < n → simplifyLoops f.id n m = simplify f.id m

theorem Intact.unhindered (h : m.Intact) : m.Unhindered where
  purity _ _ _ hn := Purity.decideFunc_eq_query hn
  dominators f hf := by
    have hlinked := (h.framed f hf).linked
    rw [hlinked.flow_eq, hlinked.domTree_eq]
    exact hlinked.domTree?_eq
  chains f hf := by
    have hlinked := (h.framed f hf).linked
    rw [hlinked.domTree_eq]
    exact FlowGraph.ends_domTree hlinked.closed
  nests f hf t n hn := FlowGraph.arrange_eq_loopNest hn
  scans f hf l hl n hn := by
    have hlinked := (h.framed f hf).linked
    rw [hlinked.flow_eq, hlinked.domTree_eq] at hl
    rw [hlinked.domTree_eq]
    have hle := length_le_blockCount hf
    exact Work.treeWalk_header_eq hlinked hl (hle.trans hn) hle
  rounds f hf n hn := by
    have hlinked := (h.framed f hf).linked
    have hstart := Simplified.start h.consistent hf hlinked (h.paired f hf)
    have hle : f.lacking.length ≤ m.blockCount :=
      (Func.length_lacking_le hlinked).trans (length_le_blockCount hf)
    obtain ⟨changed, m₁, g, _, _, hrun⟩ := hstart.simplifyLoops_run
    rw [simplify, hrun n (Nat.lt_of_le_of_lt hle hn), hrun _ (Nat.lt_succ_of_le hle)]

theorem loopNest_ok (hf : f.Linked) (t : DomTree) :
    m.loopNest f t = .ok ((m.flow f).loopNest t) := by
  rw [loopNest, hf.clashes]
  rfl

/-- A drawing is made of every function that has a body. -/
theorem draw?_ok (hf : f.Linked) :
    ∃ drawing?, m.draw? f = .ok drawing? ∧ (drawing?.isSome ↔ f.isDeclaration = false) := by
  cases hblocks : f.blocks with
  | nil =>
    exact ⟨none, by simp [draw?, Func.entry?, hblocks], by simp [Func.isDeclaration, hblocks]⟩
  | cons k ks =>
    simp only [draw?, Func.entry?, hblocks, List.head?_cons, loopNest_ok hf]
    exact ⟨_, rfl, by simp [Func.isDeclaration, hblocks]⟩

/-- A function that is taken out can still be followed to. -/
theorem Intact.removeFunction (h : m.Intact) (id : FuncId) :
    ((m.removeFunction? id).getD m).Intact ∧ m.Supplies ((m.removeFunction? id).getD m) := by
  rw [removeFunction?]
  split
  · have hknown : ((m.functions.filter fun f => f.id ≠ id) ++
        (m.dropped ++ m.functions.filter fun f => f.id = id)).Perm m.known := by
      have hsplit := List.filter_append_perm (fun f => decide (f.id ≠ id)) m.functions
      simp only [decide_not, Bool.not_not] at hsplit ⊢
      exact ((List.perm_append_comm.append_left _).trans
        (.of_eq (List.append_assoc _ _ _).symm)).trans
        (hsplit.append_right _)
    refine ⟨h.of_perm hknown fun t ht n hn => ?_, supplies_of_perm h.consistent hknown⟩
    obtain ⟨t', ht', rfl⟩ := List.mem_map.mp ht
    exact ⟨t', ht', List.mem_of_mem_filter hn⟩
  · exact ⟨h, .refl m⟩

theorem Intact.stripMarkers (h : m.Intact) :
    m.stripMarkers.2.Intact ∧ m.Supplies m.stripMarkers.2 := by
  rw [Module.stripMarkers]
  generalize m.markerFuncs = fs
  induction fs generalizing m with
  | nil => exact ⟨h, .refl m⟩
  | cons f fs ih =>
    obtain ⟨hremoved, hsupplies⟩ := h.removeFunction f.id
    obtain ⟨hrest, hsupplies'⟩ := ih hremoved
    exact ⟨hrest, hsupplies.trans hsupplies'⟩

end Module

namespace Compilation

open Purity (Right)

variable {c : Compilation} {f : Func} {memo : Purity.Memo} (o : Options)

/-- Optimising a function leaves the module intact. -/
theorem optimize_intact (h : c.module.Intact) (hf : f ∈ c.module.known)
    (hmemo : Right c.module memo) :
    ∃ changed memo' c', work memo (Work.optimize o f.id) c = .ok (changed, memo') c' ∧
      c'.module.Intact ∧ c.module.Supplies c'.module ∧ Right c'.module memo' := by
  have hfit : Work.Fit { module := c.module, memo, stats := c.stats, log := c.log } f :=
    ⟨⟨h.consistent, hf, h.framed f hf⟩, h.paired f hf, hmemo⟩
  obtain ⟨changed, w, hrun, hw, _⟩ := hfit.optimize o
  have hconsistent := hw.fit.hosts.consistent
  rw [hw.module] at hconsistent
  refine ⟨changed, w.memo, _, work_ok hrun, ?_, ?_, hw.fit.right⟩
  · show w.module.Intact
    rw [hw.module]
    exact h.update hf hw.retains hconsistent hw.fit.hosts.framed hw.fit.paired
  · show c.module.Supplies w.module
    rw [hw.module]
    exact Module.supplies_update h.consistent hconsistent hf hw.retains

theorem hoistEach_intact {ids : List FuncId} (h : c.module.Intact)
    (hids : ∀ id ∈ ids, (c.module.func? id).isSome) (hmemo : Right c.module memo) :
    ∃ n c', hoistEach o ids memo c = .ok n c' ∧ c'.module.Intact ∧ c.module.Supplies c'.module := by
  induction ids generalizing c memo with
  | nil => exact ⟨0, c, rfl, h, .refl _⟩
  | cons id ids ih =>
    obtain ⟨f, hf, rfl⟩ := h.consistent.func?_isSome_iff.mp (hids id List.mem_cons_self)
    obtain ⟨changed, memo', c', hrun, h', hsupplies, hmemo'⟩ := optimize_intact o h hf hmemo
    obtain ⟨n, c'', hrest, h'', hsupplies'⟩ :=
      ih h' (fun id hid => hsupplies.funcs id (hids id (List.mem_cons_of_mem _ hid))) hmemo'
    exact ⟨_, c'', (Edit.bind_ok hrun).trans (Edit.bind_ok hrest), h'', hsupplies.trans hsupplies'⟩

theorem hoistModule_intact (h : c.module.Intact) :
    ∃ n c', hoistModule o c = .ok n c' ∧ c'.module.Intact ∧ c.module.Supplies c'.module := by
  refine hoistEach_intact o h (fun id hid => ?_) (Purity.right_nil _)
  obtain ⟨f, hf, rfl⟩ := List.mem_map.mp hid
  exact h.consistent.func?_isSome_iff.mpr
    ⟨f, List.mem_append_left _ (List.mem_of_mem_filter hf), rfl⟩

theorem module_extractGeometry (d : Dialect) : (extractGeometry o d c).2.module =
    if o.stripMarkers && (c.module.geometry d).2.all GeometryFault.isDimension then
    c.module.stripMarkers.2
    else c.module := by
  simp only [extractGeometry]
  split <;> rfl

theorem extractGeometry_intact (d : Dialect) (h : c.module.Intact) :
    (extractGeometry o d c).2.module.Intact ∧
    c.module.Supplies (extractGeometry o d c).2.module := by
  rw [module_extractGeometry]
  split
  · exact h.stripMarkers
  · exact ⟨h, .refl _⟩

end Compilation

/-- A module at work, with the dominator trees found so far. They stay as they were found, whatever
becomes of the functions. -/
structure Inspection where
  compilation : Compilation
  trees : List (FuncId × DomTree) := []

namespace Inspection

variable {α : Type} {s : Inspection}

def module (s : Inspection) : Module := s.compilation.module

def onCompilation (e : Edit Compilation α) : Edit Inspection α :=
  e.within Inspection.compilation fun s compilation => { s with compilation }

/-- Asks for something and changes nothing. -/
def ask (e : Inspection → Except EditFault α) : Edit Inspection α := fun s =>
  match e s with
  | .ok a => .ok a s
  | .error x => .error x s

/-- The loops of a function by a dominator tree, which may be out of date. -/
def nestBy (s : Inspection) (p : FuncId × DomTree) : Except EditFault LoopNest :=
  match s.module.func? p.1 with
  | some f => s.module.loopNest f p.2
  | none => .error .unknownFunc

/-- Whether the module is intact and the trees found so far are about its functions. -/
structure Sound (s : Inspection) : Prop where
  intact : s.module.Intact
  trees : ∀ p ∈ s.trees, (s.module.func? p.1).isSome ∧ p.2.Ends

theorem Sound.of_supplies (h : s.Sound) {c : Compilation} (hc : c.module.Intact)
    (hsupplies : s.module.Supplies c.module) : Sound { s with compilation := c } :=
  ⟨hc, fun p hp => ⟨hsupplies.funcs p.1 (h.trees p hp).1, (h.trees p hp).2⟩⟩

theorem keeps_ask {e : Inspection → Except EditFault α} (h : ∀ s, s.Sound → ∃ a, e s = .ok a) :
    Edit.Keeps Sound (ask e) := by
  intro s hs
  obtain ⟨a, ha⟩ := h s hs
  exact ⟨a, s, by rw [ask, ha], hs⟩

theorem keeps_onCompilation {e : Edit Compilation α}
    (h : ∀ c : Compilation, c.module.Intact →
      ∃ a c', e c = .ok a c' ∧ c'.module.Intact ∧ c.module.Supplies c'.module) :
    Edit.Keeps Sound (onCompilation e) := by
  intro s hs
  obtain ⟨a, c, hrun, hc, hsupplies⟩ := h s.compilation hs.intact
  exact ⟨a, _, by rw [onCompilation, Edit.within, hrun], hs.of_supplies hc hsupplies⟩

end Inspection

/-- A way to use a module. -/
inductive Use where
  | print
  | dominators
  | loops
  | draw
  | hoist (o : Options)
  | geometry (o : Options) (d : Dialect)
  | strip
  | entries (d : Dialect)

inductive Answer where
  | text (s : String)
  | trees (ts : List (FuncId × DomTree))
  | nests (ns : List LoopNest)
  | drawings (ds : List (Option String))
  | count (n : Nat)
  | geometry (g : Geometry) (fault? : Option GeometryFault)
  | entries (fs : List Func)

namespace Use

open Inspection

/-- Uses a module once. Loops are found by every tree there is, and all functions are drawn. -/
def perform : Use → Edit Inspection Answer
  | .print => ask fun s => .ok (.text s.module.print)
  | .dominators => fun s =>
    let found := s.module.functions.map fun f => (f.id, s.module.domTree f)
    .ok (.trees found) { s with trees := found ++ s.trees }
  | .loops => ask fun s => (s.trees.mapM s.nestBy).map .nests
  | .draw => ask fun s => (s.module.functions.mapM s.module.draw?).map .drawings
  | .hoist o => do return .count (← onCompilation (Compilation.hoistModule o))
  | .geometry o d => onCompilation fun c =>
    let ((g, fault?), c) := Compilation.extractGeometry o d c
    .ok (.geometry g fault?) c
  | .strip => onCompilation fun c =>
    let (n, c) := Compilation.stripMarkers c
    .ok (.count n) c
  | .entries d => ask fun s => .ok (.entries (s.module.entryPoints d))

/-- Uses a module time and again. -/
def run : List Use → Edit Inspection (List Answer)
  | [] => pure []
  | u :: us => do
    let answer ← u.perform
    let answers ← run us
    return answer :: answers

/-- Each use of a module succeeds and leaves it intact. -/
theorem keeps_perform (u : Use) : Edit.Keeps Sound u.perform := by
  cases u with
  | print => exact keeps_ask fun s _ => ⟨_, rfl⟩
  | dominators =>
    intro s hs
    refine ⟨_, _, rfl, hs.intact, fun p hp => ?_⟩
    rcases List.mem_append.mp hp with hp | hp
    · obtain ⟨f, hf, rfl⟩ := List.mem_map.mp hp
      have hknown : f ∈ s.module.known := List.mem_append_left _ hf
      exact ⟨hs.intact.consistent.func?_isSome_iff.mpr ⟨f, hknown, rfl⟩,
        hs.intact.unhindered.chains f hknown⟩
    · exact hs.trees p hp
  | loops =>
    refine keeps_ask fun s hs => ?_
    have hnests : ∀ p ∈ s.trees, ∃ nest, s.nestBy p = .ok nest := by
      intro p hp
      obtain ⟨f, hf⟩ := Option.isSome_iff_exists.mp (hs.trees p hp).1
      have hlinked := (hs.intact.framed f (hs.intact.consistent.func?_iff.mp hf).1).linked
      exact ⟨_, by rw [nestBy, hf]; exact Module.loopNest_ok hlinked p.2⟩
    obtain ⟨nests, hall⟩ := Description.exists_mapM_eq_ok hnests
    exact ⟨.nests nests, by rw [hall]; rfl⟩
  | draw =>
    refine keeps_ask fun s hs => ?_
    have hdrawings : ∀ f ∈ s.module.functions, ∃ drawing?, s.module.draw? f = .ok drawing? := by
      intro f hf
      obtain ⟨drawing?, hdraw, _⟩ :=
        Module.draw?_ok (hs.intact.framed f (List.mem_append_left _ hf)).linked
      exact ⟨drawing?, hdraw⟩
    obtain ⟨drawings, hall⟩ := Description.exists_mapM_eq_ok hdrawings
    exact ⟨.drawings drawings, by rw [hall]; rfl⟩
  | hoist o =>
    exact (keeps_onCompilation fun c hc => Compilation.hoistModule_intact o hc).bind fun n =>
      .pure (Answer.count n)
  | geometry o d =>
    exact keeps_onCompilation fun c hc => ⟨_, _, rfl, Compilation.extractGeometry_intact o d hc⟩
  | strip => exact keeps_onCompilation fun c hc => ⟨_, _, rfl, hc.stripMarkers⟩
  | entries d => exact keeps_ask fun s _ => ⟨_, rfl⟩

theorem keeps_run (us : List Use) : Edit.Keeps Sound (run us) := by
  induction us with
  | nil => exact .pure []
  | cons u us ih => exact (keeps_perform u).bind fun _ => ih.bind fun _ => .pure _

end Use

namespace Module

/-- An accepted module can be used in every way, in any order and time and again. Every use has an
answer, and leaves a module of which every definition can be drawn, every reference leads to
something and no search is cut off. Nor is a way up one of the dominator trees, however old. -/
theorem ofSpec_serves_every_use {spec : ModuleSpec} {m : Module} (h : ofSpec spec = .ok m)
    (stats : Stats) (log : List String) (us : List Use) :
    ∃ answers s, Use.run us { compilation := { module := m, stats, log } } = .ok answers s ∧
      s.module.Intact ∧ s.module.Unhindered ∧ (∀ p ∈ s.trees, p.2.Ends) ∧
      ∀ f ∈ s.module.functions, f.isDeclaration = false →
        ∃ drawing, s.module.draw? f = .ok (some drawing) := by
  obtain ⟨declared, ds, hloads⟩ := Description.Loads.of_ofSpec h
  have hstart : Inspection.Sound { compilation := { module := m, stats, log } } :=
    ⟨hloads.intact, fun p hp => absurd hp List.not_mem_nil⟩
  obtain ⟨answers, s, hrun, hs⟩ := Use.keeps_run us _ hstart
  refine ⟨answers, s, hrun, hs.intact, hs.intact.unhindered, fun p hp => (hs.trees p hp).2,
    fun f hf hdefined => ?_⟩
  obtain ⟨drawing?, hdraw, hsome⟩ :=
    draw?_ok (m := s.module) (hs.intact.framed f (List.mem_append_left _ hf)).linked
  obtain ⟨drawing, rfl⟩ := Option.isSome_iff_exists.mp (hsome.mpr hdefined)
  exact ⟨drawing, hdraw⟩

/-- The entry heads a loop, in which two blocks that branch to each other are both entered. A value
is computed from itself, a return has a target, and no block leads there. The marker states
nothing. -/
def irreducibleEntryLoop : ModuleSpec where
  functions := [
    { name := "f", params := [⟨"n", "i32"⟩, ⟨"c", "i1"⟩]
      blocks := [
        ⟨"top", [
          { name := "p", op := "phi", type := "i32", args := ["i32 0", "%a"],
            sources := ["lost", "left"] },
          { op := "br", args := ["%c"], targets := ["left", "right"] }]⟩,
        ⟨"left", [
          { name := "a", op := "add", type := "i32", args := ["%a", "%n"] },
          { op := "br", args := ["%c"], targets := ["right", "top"] }]⟩,
        ⟨"right", [
          { name := "b", op := "mul", args := ["%n", "i32 2"] },
          { op := "br", targets := ["left"] }]⟩,
        ⟨"lost", [{ op := "ret", targets := ["left"] }]⟩] },
    { name := "__axiom_x", blocks := [⟨"e", [{ op := "ret" }]⟩] }]
  tables := [⟨"opencl.kernels", [["@f"], ["@__axiom_x"]]⟩]

theorem irreducibleEntryLoop_serves_every_use : ∃ m answers s, ofSpec irreducibleEntryLoop = .ok m ∧
    Use.run [.draw, .dominators, .hoist { insertPreheaders := true }, .loops,
        .geometry { stripMarkers := true } .opencl, .print, .hoist {}, .strip,
        .entries .opencl, .loops]
      { compilation := { module := m } } = .ok answers s ∧
      s.module.Intact ∧ s.module.Unhindered := by
  have hok : (ofSpec irreducibleEntryLoop).isOk = true := by decide +kernel
  obtain ⟨m, hm⟩ := Description.exists_of_isOk hok
  obtain ⟨answers, s, hrun, hintact, hunhindered, _⟩ := ofSpec_serves_every_use hm {} [] _
  exact ⟨m, answers, s, hm, hrun, hintact, hunhindered⟩

end Module

end KernelIR
