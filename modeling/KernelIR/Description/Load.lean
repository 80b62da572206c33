import KernelIR.Description.Basic
import KernelIR.Description.Fault
import KernelIR.Module
import KernelIR.Number.Real

namespace KernelIR

/-- An instruction whose operands are not looked up yet. Its type may be left to inference. -/
structure Draft where
  id : InstrId
  op : Opcode
  name : String
  ty? : Option Ty
  pred : Predicate
  spec : InstrSpec
deriving Repr, Inhabited

/-- A function whose operands are not looked up yet, with the values its names stand for, the
newest first. -/
structure FuncDraft where
  func : Func
  locals : List (String × Value)
  bodies : List (List Draft)
deriving Repr, Inhabited

namespace Description

abbrev Loading := Except LoadCause

def readType (text : String) : Loading Ty :=
  match Ty.read text.toList with
  | .ok t => .ok t
  | .error e => .error (.type e)

/-- A name is taken if a variable or a function has it. -/
def taken (m : Module) (name : String) : Bool :=
  (m.globalNamed? name).isSome || (m.funcNamed? name).isSome

def readGlobal (m : Module) (spec : TypedSpec) : Loading Global := do
  match ← readType spec.type with
  | .ptr elem space =>
    if taken m spec.name then .error (.duplicateSymbol spec.name)
    else .ok { name := spec.name, elem, space }
  | _ => .error (.notPointer spec.name)

/-- Puts a fault at a place. -/
def atPlace {α : Type} (place : Place) : Loading α → Except LoadFault α
  | .ok a => .ok a
  | .error cause => .error { place, cause }

def readGlobals (m : Module) : (i : Nat) → List TypedSpec → Except LoadFault Module
  | _, [] => .ok m
  | i, spec :: specs => do
    let g ← atPlace (.global i) (readGlobal m spec)
    readGlobals (m.addGlobal g) (i + 1) specs

def readReturnType (text : String) : Loading Ty :=
  if text = "" then .ok .void else readType text

def readParams (i : Nat) : (j : Nat) → List TypedSpec → Except LoadFault (List (String × Ty))
  | _, [] => .ok []
  | j, p :: ps => do
    let t ← atPlace (.param i j) (readType p.type)
    let ts ← readParams i (j + 1) ps
    .ok ((p.name, t) :: ts)

/-- A tag says which intrinsic a function is, whatever its name. -/
def readIntrinsic (f : Func) (tag : String) : Loading Func :=
  if tag = "" then .ok f
  else
    match Intrinsic.ofTag? tag with
    | some k => .ok { f with intrinsic := k }
    | none => .error (.unknownIntrinsic tag)

/-- The blocks of a function, still empty and numbered from 1. -/
def declareBlocks (f : Func) : List BlockSpec → Loading Func
  | [] => .ok f
  | b :: bs =>
    if (f.blockNamed? b.name).isSome then .error (.duplicateBlock b.name)
    else
      declareBlocks { f with
        blocks := f.blocks ++ [⟨f.maxBlock + 1, b.name, f.id, []⟩]
        maxBlock := f.maxBlock + 1 } bs

/-- An unconditional branch with two targets is a conditional one. -/
def readOpcode (spec : InstrSpec) : Loading Opcode :=
  match Opcode.ofName? spec.op with
  | some .br => .ok (if spec.targets.length = 2 then .condBr else .br)
  | some op => .ok op
  | none => .error (.unknownOpcode spec.op)

/-- The type a description gives; an allocation is described by what it allocates. -/
def readResultType (op : Opcode) (text : String) : Loading (Option Ty) := do
  let ty? ← if text = "" then .ok none else (readType text).map some
  match op, ty? with
  | .alloca, none => .error .allocaWithoutType
  | .alloca, some t => .ok (some (.pointerTo t))
  | _, t => .ok t

def readPredicate (name : String) : Loading Predicate :=
  if name = "" then .ok .unset
  else
    match Predicate.ofName? name with
    | some p => .ok p
    | none => .error (.unknownPredicate name)

/-- Declares the next instruction of a function and the name of its result. -/
def declareInstr (d : FuncDraft) (spec : InstrSpec) : Loading (FuncDraft × Draft) := do
  let op ← readOpcode spec
  let ty? ← readResultType op spec.type
  let pred ← readPredicate spec.pred
  let id : InstrId := ⟨d.func.id, d.func.nextSerial⟩
  let draft : Draft := { id, op, name := spec.name, ty?, pred, spec }
  let func := { d.func with nextSerial := d.func.nextSerial + 1 }
  if spec.name = "" then .ok ({ d with func }, draft)
  else if (d.locals.lookup spec.name).isSome then .error (.redefinition spec.name)
  else .ok ({ d with func, locals := (spec.name, .instr id) :: d.locals }, draft)

def declareInstrs (i j : Nat) (d : FuncDraft) :
    (k : Nat) → List InstrSpec → Except LoadFault (FuncDraft × List Draft)
  | _, [] => .ok (d, [])
  | k, s :: ss => do
    let (d, draft) ← atPlace (.instr i j k) (declareInstr d s)
    let (d, drafts) ← declareInstrs i j d (k + 1) ss
    .ok (d, draft :: drafts)

def declareBodies (i : Nat) (d : FuncDraft) : (j : Nat) → List BlockSpec →
    Except LoadFault FuncDraft
  | _, [] => .ok d
  | j, b :: bs => do
    let (d, drafts) ← declareInstrs i j d 0 b.instrs
    declareBodies i { d with bodies := d.bodies ++ [drafts] } (j + 1) bs

/-- Declares a function with its blocks and instructions. Parameters are local values; a later one
hides an earlier one of the same name. -/
def declareFunc (m : Module) (i : Nat) (spec : FuncSpec) : Except LoadFault FuncDraft := do
  let ret ← atPlace (.ret i) (readReturnType spec.ret)
  let params ← readParams i 0 spec.params
  if taken m spec.name then .error ⟨.func i, .duplicateSymbol spec.name⟩
  else
    let f := Func.declare m.nextFunc spec.name ret params
    let f ← atPlace (.intrinsic i) (readIntrinsic f spec.intrinsic)
    let locals := (f.params.map fun p => (p.name, Value.param p)).reverse
    let f ← atPlace (.func i) (declareBlocks f spec.blocks)
    declareBodies i { func := f, locals, bodies := [] } 0 spec.blocks

def declareFuncs (m : Module) :
    (i : Nat) → List FuncSpec → Except LoadFault (Module × List FuncDraft)
  | _, [] => .ok (m, [])
  | i, s :: ss => do
    let d ← declareFunc m i s
    let (m, ds) ← declareFuncs (m.addFunction d.func) (i + 1) ss
    .ok (m, d :: ds)

/-- The function or variable that a name stands for. -/
def readSymbol (m : Module) (name : String) : Loading Value :=
  match m.funcNamed? name with
  | some f => .ok (.func f.id)
  | none =>
    match m.globalNamed? name with
    | some g => .ok (.global g)
    | none => .error (.undefinedSymbol name)

/-- A constant is a type and a literal, divided by the last space. -/
def readConstant (text : List Char) : Loading Value :=
  match Text.cutLast [' '] text with
  | none => .error (.invalidOperand (String.ofList text))
  | some (type, literal) => do
    match ← readType (String.ofList type) with
    | .int bits =>
      match Number.readInteger literal with
      | some n => .ok (.int ⟨bits, BitVec.ofInt 64 n⟩)
      | none => .error (.invalidInteger (String.ofList text))
    | .float bits =>
      match Number.readReal literal with
      | some x => .ok (.float bits x)
      | none => .error (.invalidFloat (String.ofList text))
    | t => .error (.unsupportedConstant t.text)

/-- The value that the text of an operand stands for. -/
def readOperand (m : Module) (locals : List (String × Value)) (text : String) : Loading Value :=
  match Text.trim text.toList with
  | '%' :: name =>
    match locals.lookup (String.ofList name) with
    | some v => .ok v
    | none => .error (.undefinedValue (String.ofList name))
  | '@' :: name => readSymbol m (String.ofList name)
  | cs => readConstant cs

def readBlockRef (f : Func) (name : String) : Loading BlockRef :=
  match f.blockNamed? name with
  | some b => .ok (f.ref b.id)
  | none => .error (.undefinedBlock name)

/-- Checks the number of operands and of targets. -/
def expect (i : Operation) (operands targets : Nat) : Loading Unit :=
  if i.operands.length ≠ operands then .error (.operandCount i.op operands i.operands.length)
  else if i.targets.length ≠ targets then .error (.targetCount i.op targets i.targets.length)
  else .ok ()

def requireType (op : Opcode) : Option Ty → Loading Ty
  | some t => .ok t
  | none => .error (.withoutType op)

/-- The type of operand `k`, for an instruction that was described without one. -/
def inferType (scope : Scope) (i : Operation) (k : Nat) : Option Ty → Ty
  | some t => t
  | none =>
    match i.operands[k]? with
    | some v => v.ty scope
    | none => .void

/-- The type that a direct call returns. -/
def returnType (m : Module) (i : Operation) : Ty :=
  match i.callee? with
  | some id =>
    match m.func? id with
    | some f => f.ret
    | none => .void
  | none => .void

/-- Checks the shape of an instruction and gives its type. -/
def checkInstr (m : Module) (scope : Scope) (i : Operation) (ty? : Option Ty) : Loading Ty :=
  match i.op with
  | .binary _ => do
    expect i 2 0
    .ok (inferType scope i 0 ty?)
  | .cast _ | .load | .alloca => do
    expect i (if i.op = .alloca then 0 else 1) 0
    requireType i.op ty?
  | .store => do
    expect i 2 0
    .ok (ty?.getD .void)
  | .elementPtr =>
    if i.operands.length < 2 then .error (.operandsMissing i.op 2 i.operands.length)
    else requireType i.op ty?
  | .select => do
    expect i 3 0
    .ok (inferType scope i 1 ty?)
  | .br => do
    expect i 0 1
    .ok (ty?.getD .void)
  | .condBr => do
    expect i 1 2
    .ok (ty?.getD .void)
  | .unreachable => do
    expect i 0 0
    .ok (ty?.getD .void)
  | .call =>
    if i.operands.isEmpty then .error .callWithoutCallee else .ok (ty?.getD (returnType m i))
  | .ret => if 1 < i.operands.length then .error .manyReturnValues else .ok (ty?.getD .void)
  | .phi =>
    if i.operands.length ≠ i.incoming.length then .error .phiSources else requireType i.op ty?
  | .icmp | .fcmp =>
    if i.pred = .unset then .error .withoutPredicate
    else do
      expect i 2 0
      .ok (ty?.getD .i1)
  | .invalid | .unassigned _ => .error (.unsupported i.op)

/-- The types of a function's instructions as far as they are known. -/
abbrev TypeTable := List (InstrId × Ty)

/-- The names and types behind references while a function is being resolved. -/
def scopeWith (m : Module) (types : TypeTable) : Scope where
  func := m.scope.func
  instr id := ("", (types.lookup id).getD .void)
  label := m.scope.label

/-- Looks up the operands and blocks of an instruction. -/
def resolveInstr (m : Module) (d : FuncDraft) (types : TypeTable) (draft : Draft) :
    Loading (Instr × TypeTable) := do
  let operands ← draft.spec.args.mapM (readOperand m d.locals)
  let targets ← draft.spec.targets.mapM (readBlockRef d.func)
  let incoming ← draft.spec.sources.mapM (readBlockRef d.func)
  let i : Operation :=
    { op := draft.op, name := draft.name, operands, pred := draft.pred, targets, incoming }
  let ty ← checkInstr m (scopeWith m types) i draft.ty?
  .ok ({ i with ty, id := draft.id }, (draft.id, ty) :: types)

def resolveInstrs (m : Module) (d : FuncDraft) (i j : Nat) :
    (k : Nat) → TypeTable → List Draft → Except LoadFault (List Instr × TypeTable)
  | _, types, [] => .ok ([], types)
  | k, types, draft :: drafts => do
    let (ins, types) ← atPlace (.instr i j k) (resolveInstr m d types draft)
    let (rest, types) ← resolveInstrs m d i j (k + 1) types drafts
    .ok (ins :: rest, types)

/-- Fills the blocks, each of which must end with a terminator. -/
def resolveBlocks (m : Module) (d : FuncDraft) (i : Nat) :
    (j : Nat) → TypeTable → List Block → List (List Draft) → Except LoadFault (List Block)
  | j, types, b :: bs, drafts :: rest => do
    let (instrs, types) ← resolveInstrs m d i j 0 types drafts
    let b := { b with instrs }
    if b.term?.isNone then .error ⟨.block i j, .notTerminated b.label⟩
    else
      let bs ← resolveBlocks m d i (j + 1) types bs rest
      .ok (b :: bs)
  | _, _, _, _ => .ok []

/-- The types that were described; the others count as void until they are inferred. -/
def describedTypes (d : FuncDraft) : TypeTable :=
  d.bodies.flatten.filterMap fun draft => draft.ty?.map fun t => (draft.id, t)

def resolveFunc (m : Module) (i : Nat) (d : FuncDraft) : Except LoadFault Func := do
  let blocks ← resolveBlocks m d i 0 (describedTypes d) d.func.blocks d.bodies
  .ok ({ d.func with blocks } : Func).record

def resolveFuncs (m : Module) : (i : Nat) → List FuncDraft → Except LoadFault (List Func)
  | _, [] => .ok []
  | i, d :: ds => do
    let f ← resolveFunc m i d
    let fs ← resolveFuncs m (i + 1) ds
    .ok (f :: fs)

/-- A metadata operand: a symbol, else a constant, else a plain string. -/
def readMetadata (m : Module) (text : String) : Loading MetadataItem :=
  match text.toList with
  | '@' :: name => (readSymbol m (String.ofList name)).map .value
  | cs =>
    match readConstant cs with
    | .ok v => .ok (.value v)
    | .error _ => .ok (.text text)

def readNodes (table : String) (m : Module) : (i : Nat) → List (List String) →
    Except LoadFault Module
  | _, [] => .ok m
  | i, node :: nodes => do
    let items ← atPlace (.table table i) (node.mapM (readMetadata m))
    readNodes table (m.addMetadata table items) (i + 1) nodes

def readTables (m : Module) : List TableSpec → Except LoadFault Module
  | [] => .ok m
  | t :: ts => do
    let m ← readNodes t.name m 0 t.nodes
    readTables m ts

end Description

open Description in
/-- The module that a description stands for. Variables come first, then the functions with their
blocks and instructions, so that operands may refer to anything; then the operands and the
metadata tables in the order of their names. -/
def Module.ofSpec (spec : ModuleSpec) : Except LoadFault Module := do
  let m ← readGlobals { name := spec.name } 0 spec.globals
  let (m, drafts) ← declareFuncs m 0 spec.functions
  let functions ← resolveFuncs m 0 drafts
  readTables { m with functions } (spec.tables.mergeSort fun a b => a.name ≤ b.name)

end KernelIR
