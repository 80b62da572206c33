import KernelIR.Analysis

namespace KernelIR

/-- Sends the branches of a block's terminator that lead to `old` to `new` instead. -/
def Block.redirect (old new : BlockRef) (b : Block) : Block :=
  { b with instrs := b.instrs.dropLast ++ (b.instrs.getLast?.map fun i =>
      { i with targets := i.targets.map fun t => if t = old then new else t }).toList }

/-- The values of a phi with the blocks they flow in from. -/
def Operation.entries (i : Operation) : List (Value × BlockRef) := i.operands.zip i.incoming

namespace Func

/-- The blocks outside a loop of the function that branch to its header. -/
def entering (f : Func) (l : Loop) : List BlockId :=
  (f.preds l.header.number).filter fun p => !l.contains (f.ref p)

/-- The only block outside a loop that branches to its header, if it branches nowhere else. -/
def preheader? (f : Func) (l : Loop) : Option BlockId :=
  match f.entering l with
  | [p] => if (f.succs p).length = 1 then some p else none
  | _ => none

/-- The phis of a block. -/
def phis (f : Func) (b : BlockId) : List Instr :=
  match f.block? b with
  | some k => k.instrs.filter fun i => i.op = .phi
  | none => []

def setEntries (f : Func) (id : InstrId) (entries : List (Value × BlockRef)) : Func :=
  f.mapInstr id fun o =>
    { o with operands := entries.map Prod.fst, incoming := entries.map Prod.snd }

/-- Makes the values that flow into a phi from the blocks `outs` flow in from `pre`. A single value
is passed on as it is; several meet in a phi of their own in `pre`. -/
def mergeEntries (pre : BlockId) (outs : List BlockRef) (f : Func) (phi : Instr) : Func :=
  let kept := phi.entries.filter fun e => !outs.contains e.2
  match phi.entries.filter fun e => outs.contains e.2 with
  | [] => f
  | [e] => f.setEntries phi.id (kept ++ [(e.1, f.ref pre)])
  | moved =>
    let merged := f.emit pre
      { op := .phi, name := phi.name ++ ".ph", ty := phi.ty, operands := moved.map Prod.fst,
        incoming := moved.map Prod.snd }
    merged.setEntries phi.id (kept ++ [(.instr f.nextId, f.ref pre)])

/-- Puts a new block before the header of a loop. Whatever entered the loop from outside goes
through it. -/
def withPreheader (f : Func) (l : Loop) : Func :=
  let header := l.header.number
  let outs := f.entering l
  let pre := f.maxBlock + 1
  let placed := { f with
    maxBlock := pre
    blocks := insertBefore (fun b => b.id = header) ⟨pre, f.label header ++ ".preheader", f.id, []⟩
      (f.blocks.map fun b => if outs.contains b.id then b.redirect l.header (f.ref pre) else b) }
  let merged := (f.phis header).foldl (mergeEntries pre (outs.map f.ref)) placed
  merged.emit pre { op := .br, targets := [l.header] }

/-- Gives a loop of the function a preheader, if it has none and is entered from outside or at the
entry of the function. Answers the new block. -/
def insertPreheader (l : Loop) : Edit Func (Option BlockId) := fun f =>
  let header := l.header.number
  if (f.preheader? l).isSome || ((f.entering l).isEmpty && f.entry?.map Block.id ≠ some header) then
    .ok none f
  else
    match (f.phis header).find? fun i => i.incoming.length < i.operands.length with
    | some i => .error (.missingSource i.name) f
    | none => .ok (some (f.maxBlock + 1)) (f.withPreheader l)

end Func

namespace Module

def preheader? (m : Module) (l : Loop) : Option BlockRef :=
  (m.home? l.header).bind fun f => (f.preheader? l).map f.ref

/-- Gives a loop a preheader in the function of its header. -/
def insertPreheader (l : Loop) : Edit Module (Option BlockId) := fun m =>
  match m.home? l.header with
  | none => .error .unknownFunc m
  | some f => edit f.id (Func.insertPreheader l) m

end Module

end KernelIR
