import KernelIR.Module

namespace KernelIR

def MetadataItem.print (scope : Scope) : MetadataItem → String
  | .value v => v.typed scope
  | .text s => "!" ++ Text.quote s

def MetadataNode.print (scope : Scope) (node : MetadataNode) : String :=
  "!\x7b" ++ commaList (node.map fun i => i.print scope) ++ "\x7d"

def MetadataTable.print (scope : Scope) (t : MetadataTable) : String :=
  "!" ++ t.name ++ " = !\x7b" ++ commaList (t.nodes.map fun n => n.print scope) ++ "\x7d"

def Block.print (scope : Scope) (b : Block) : String :=
  b.label ++ ":\n" ++ String.join (b.instrs.map fun i => "    " ++ i.text scope ++ "\n")

/-- The text of a function: its heading, and the body of a definition in braces. -/
def Func.print (scope : Scope) (f : Func) : String :=
  if f.isDeclaration then f.heading ++ "\n"
  else f.heading ++ " \x7b\n" ++ String.join (f.blocks.map (Block.print scope)) ++ "\x7d\n"

def Global.print (g : Global) : String :=
  "@" ++ g.name ++ " = external global " ++ g.elem.text ++ "\n"

/-- The text of a module. A blank line follows the variables and separates the functions; each
metadata table starts on a new line. -/
def Module.print (m : Module) : String :=
  let scope := m.scope
  String.join (m.globals.map Global.print) ++ (if m.globals.isEmpty then "" else "\n") ++
    "\n".intercalate (m.functions.map (Func.print scope)) ++
    String.join (m.tables.map fun t => "\n" ++ t.print scope) ++
    (if m.tables.isEmpty then "" else "\n")

/-- The function that holds an instruction, in a block or loose. -/
def Module.holder? (m : Module) (id : InstrId) : Option Func :=
  m.known.find? fun f => (f.instr? id).isSome

/-- A value on its own: an instruction is its line, a function its heading. -/
def Module.printValue (m : Module) (v : Value) : String :=
  match v with
  | .func id =>
    match m.func? id with
    | some f => f.heading
    | none => ""
  | .instr id =>
    match m.instr? id with
    | some i => i.text m.scope
    | none => ""
  | v => v.typed m.scope

end KernelIR
