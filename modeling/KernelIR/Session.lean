import KernelIR.Builder
import KernelIR.Geometry.Basic

namespace KernelIR

/-- Where a builder left off in a function. -/
structure Cursor where
  count : Nat := 0
  block? : Option BlockId := none
deriving DecidableEq, Repr, Inhabited

/-- Work on a module step by step: the function at hand, where the builder of each function stands,
the latest dominator tree and loops, which later steps may outdate, and the purity answers found on
the way. -/
structure Session where
  compilation : Compilation
  current? : Option FuncId := none
  cursors : List (FuncId × Cursor) := []
  tree : DomTree := {}
  nest? : Option LoopNest := none
  purity : Purity.Memo := []
  defaults : Options := {}
deriving Inhabited

namespace Session

/-- Starts with the first function of a module. -/
def ofModule (m : Module) : Session :=
  { compilation := { module := m }, current? := m.functions.head?.map Func.id }

def module (s : Session) : Module := s.compilation.module

def func? (s : Session) : Option Func := s.current?.bind s.module.func?

def setModule (s : Session) (m : Module) : Session := { s with compilation.module := m }

def onCompilation {α : Type} (e : Edit Compilation α) : Edit Session α :=
  e.within Session.compilation fun s compilation => { s with compilation }

def onModule {α : Type} (e : Edit Module α) : Edit Session α := e.within module setModule

def cursor (s : Session) (id : FuncId) : Cursor := (s.cursors.lookup id).getD {}

def setCursor (s : Session) (id : FuncId) (c : Cursor) : Session :=
  { s with cursors := (id, c) :: s.cursors.filter fun e => e.1 ≠ id }

/-- The builder of a function. -/
def builder (s : Session) (f : Func) : Builder :=
  ⟨f, (s.cursor f.id).count, (s.cursor f.id).block?⟩

def putBuilder (s : Session) (b : Builder) : Session :=
  (s.setModule (s.module.update b.func)).setCursor b.func.id ⟨b.count, b.block?⟩

/-- Adds to the function at hand. -/
def build {α : Type} (e : Builder.Build α) : Edit Session α := fun s =>
  match s.func? with
  | none => .error .unknownFunc s
  | some f => e.within (fun s => s.builder f) putBuilder s

/-- Edits the function at hand. -/
def onFunc {α : Type} (e : Edit Func α) : Edit Session α := fun s =>
  match s.current? with
  | none => .error .unknownFunc s
  | some id => onModule (Module.edit id e) s

/-- Declares a function and goes on with it. -/
def addFunction (s : Session) (name : String) (ret : Ty) (params : List (String × Ty)) : Session :=
  let f := Func.declare s.module.nextFunc name ret params
  { s.setModule (s.module.addFunction f) with current? := some f.id }

/-- Makes an instruction that stands in no block. -/
def makeLoose (o : Operation) : Edit Session InstrId :=
  onFunc fun f => .ok f.nextId (f.emitLoose o)

/-- Replaces one operand of an instruction. Answers whether there is such an operand. -/
def setOperand (id : InstrId) (k : Nat) (v : Value) : Edit Session Bool :=
  onModule fun m =>
    match m.holder? id with
    | none => .error .unknownInstr m
    | some f =>
      if (f.instr? id).any fun i => k < i.operands.length then
        .ok true (m.update (f.mapInstr id fun o => { o with operands := o.operands.set k v }))
      else .ok false m

/-- Adds an entry to a phi of any function. -/
def addIncoming (id : InstrId) (v : Value) (b : BlockRef) : Edit Session Unit :=
  onModule fun m =>
    match m.holder? id with
    | none => .error .unknownInstr m
    | some f => Module.edit f.id (Func.addIncoming id v b) m

/-- Computes the dominator tree and the loops of the function at hand. -/
def analyze : Edit Session Unit := fun s =>
  match s.func? with
  | none => .error .unknownFunc s
  | some f =>
    let s := { s with tree := s.module.domTree f }
    match s.module.loopNest f s.tree with
    | .ok nest => .ok () { s with nest? := some nest }
    | .error x => .error x s

/-- Whether a function is pure, by the answers of this session or afresh. -/
def isPure (shared : Bool) (id : FuncId) : StateM Session Bool := fun s =>
  if shared then
    let (answer, purity) := Purity.query s.module id s.purity
    (answer, { s with purity })
  else (s.module.isMemoryPure id, s)

/-- Hoists from a loop of a nest, whose blocks are taken in the order that `children` gives. -/
def hoistLoop (o : Options) (children : BlockRef → List BlockRef) (nest : LoopNest) (l : Loop) :
    Edit Session Bool :=
  onCompilation do
    let (moved, _) ← Compilation.work [] (Work.hoistLoop o children nest l)
    return moved

/-- Optimises the function at hand. -/
def hoist (o : Options) : Edit Session Bool := fun s =>
  match s.current? with
  | none => .error .unknownFunc s
  | some id => onCompilation (Compilation.hoist o id) s

/-- Applies one pass to the function at hand, with the purity answers of this session. -/
def applyPass (o : Options) (p : Pass) : Edit Session Bool := fun s =>
  match s.current? with
  | none => .error .unknownFunc s
  | some id =>
    match onCompilation (Compilation.work s.purity (Work.applyPass o id p)) s with
    | .ok (changed, purity) s => .ok changed { s with purity }
    | .error x s => .error x s

/-- Takes a function out of the module. Answers whether it was there. -/
def removeFunction (id : FuncId) : StateM Session Bool := fun s =>
  match s.module.removeFunction? id with
  | some m => (true, s.setModule m)
  | none => (false, s)

def onGeometry {α : Type} (e : StateM Compilation α) : StateM Session α := fun s =>
  let (a, compilation) := e s.compilation
  (a, { s with compilation })

end Session

end KernelIR
