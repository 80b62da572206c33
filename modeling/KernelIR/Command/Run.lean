import KernelIR.Command.Flags
import KernelIR.Description.Decode
import KernelIR.Description.Load
import KernelIR.Drawing
import KernelIR.Geometry.Basic

namespace KernelIR.Command

open Number (decimal)

/-- What a command needs from its surroundings. Reading and writing a file answer what went
wrong. -/
structure World (μ : Type → Type) where
  read : String → μ (Except String String)
  write : String → String → μ (Except String Unit)
  out : String → μ Unit
  err : String → μ Unit
  /-- the description that a text holds -/
  decode : String → Option ModuleSpec := fun text =>
    (Document.Node.read? text.toList).bind ModuleSpec.ofNode?

/-- Why a command fails. -/
inductive Failure where
  | file (message : String)
  | document (path : String)
  | load (path : String) (fault : LoadFault)
  | edit (message : String)
  | geometry (fault : GeometryFault)

namespace Failure

/-- The line that a failure is reported with. An unsupported size has a line of its own. -/
def line : Failure → String
  | .file message => "kernopt: " ++ message ++ "\n"
  | .document path => "kernopt: " ++ path ++ ": Syntax error: not a module description\n"
  | .load path fault => "kernopt: " ++ path ++ ": " ++ fault.message ++ "\n"
  | .edit message => "kernopt: " ++ message ++ "\n"
  | .geometry fault =>
    if fault.isDimension then fault.message ++ "\n" else "kernopt: " ++ fault.message ++ "\n"

/-- The exit status. -/
def status : Failure → Nat
  | .geometry fault => if fault.isDimension then 111 else 1
  | _ => 1

end Failure

/-- Reads a module description. A module without a name is called after its file. -/
def readModule (decode : String → Option ModuleSpec) (path text : String) :
    Except Failure Module :=
  match decode text with
  | none => .error (.document path)
  | some spec =>
    match Module.ofSpec spec with
    | .error fault => .error (.load path fault)
    | .ok m => .ok (if m.name = "" then { m with name := path } else m)

/-- What the analyses of a module wrote, the module afterwards, and why they stopped. -/
structure Report where
  out : String := ""
  err : String := ""
  compilation : Compilation
  failure? : Option Failure := none

namespace Settings

/-- The options of a run. Dumping is up to the environment alone. -/
def options (s : Settings) (d : Defaults) : Options where
  trace := s.trace
  dumpIR := d.options.dumpIR
  stripMarkers := s.stripMarkers
  insertPreheaders := s.insertPreheaders

/-- Without anything else to do, the module is printed. -/
def prints (s : Settings) : Bool := s.dump || (!s.hoist && !s.dims && !s.entries && s.dot = "")

end Settings

variable (s : Settings) (o : Options) (dialect : Dialect)

def listEntries (r : Report) : Report :=
  if s.entries then
    let lines :=
      (r.compilation.module.entryPoints dialect).map fun f => "entry: @" ++ f.name ++ "\n"
    { r with out := r.out ++ String.join lines }
  else r

def hoistModule (r : Report) : Report :=
  if s.hoist then
    match Compilation.hoistModule o r.compilation with
    | .ok n c =>
      { r with
        out := r.out ++ "hoist: " ++ decimal n ++ " function(s) changed\n"
        err := r.err ++ logText c.log
        compilation := c }
    | .error x c =>
      { r with
        err := r.err ++ logText c.log
        compilation := c
        failure? := some (.edit (x.message c.module)) }
  else r

/-- The message on a size, if the run is traced. -/
def sizeNote : GeometryFault → String
  | .dimension role axis =>
    if s.trace then "dims: " ++ dimensionDetail role.text (axis.val : Nat) ++ "\n" else ""
  | _ => ""

def findGeometry (r : Report) : Report :=
  if s.dims && r.failure?.isNone then
    match Compilation.extractGeometry o dialect r.compilation with
    | ((g, none), c) => { r with out := r.out ++ "dims: " ++ g.text ++ "\n", compilation := c }
    | ((_, some x), c) =>
      { r with err := r.err ++ sizeNote s x, compilation := c, failure? := some (.geometry x) }
  else r

/-- Runs the analyses that were asked for. -/
def analyze (m : Module) : Report :=
  findGeometry s o dialect
    (hoistModule s o (listEntries s dialect { compilation := { module := m } }))

/-- The drawings of all functions with a body. -/
def drawings (m : Module) : String :=
  String.join (m.functions.filterMap fun f => (m.draw? f).toOption.join)

def statsText (stats : Stats) : String :=
  "stats: loops=" ++ decimal stats.loops ++ " no-preheader=" ++ decimal stats.noPreheader ++
    " hoisted=" ++ decimal stats.hoisted ++ "\nstats: axioms=" ++ decimal stats.candidates ++
    " matched=" ++ decimal stats.matched ++ "\n"

section

variable {μ : Type → Type} [Monad μ] (w : World μ)

/-- Draws and prints a module after its analyses. -/
def present (m : Module) : μ (Option Failure) := do
  if s.dot ≠ "" then
    match ← w.write s.dot (drawings m) with
    | .error message => return some (.file message)
    | .ok _ => w.err ("kernopt: wrote " ++ s.dot ++ "\n")
  if s.prints then w.out m.print
  return none

/-- Processes a file. Answers the counts, and what went wrong. -/
def process (path : String) : μ (Stats × Option Failure) := do
  match Dialect.read s.dialect with
  | .error x => return ({}, some (.geometry x))
  | .ok dialect =>
    match ← w.read path with
    | .error message => return ({}, some (.file message))
    | .ok text =>
      match readModule w.decode path text with
      | .error x => return ({}, some x)
      | .ok m =>
        let r := analyze s o dialect m
        w.out r.out
        w.err r.err
        let failure? ← match r.failure? with
          | some x => pure (some x)
          | none => present s w r.compilation.module
        return (r.compilation.stats, failure?)

/-- Processes a file and reports how it went. Answers the exit status. -/
def execute (path : String) : μ Nat := do
  let (stats, failure?) ← process s o w path
  if s.stats then w.err (statsText stats)
  match failure? with
  | none => return 0
  | some x =>
    w.err x.line
    return x.status

def refuse (x : FlagFault) : μ Nat := do
  w.err ("kernopt: " ++ x.message ++ "\n")
  return 1

end

/-- The whole command. Help comes before the version, and both before any file. -/
def run {μ : Type → Type} [Monad μ] (w : World μ) (env : Environment) (args : List String) :
    μ Nat := do
  match env.defaults? with
  | none =>
    w.err "panic: kernopt: invalid value for KERNOPT_DIALECT\n"
    return 2
  | some d =>
    match (Settings.ofDefaults d).readArgs args with
    | .error x => refuse w x
    | .ok (s, paths) =>
      if s.help then
        w.out (helpText d)
        return 0
      else if s.version then
        w.out versionText
        return 0
      else
        match paths with
        | [path] => execute s (s.options d) w path
        | paths => refuse w (.argumentCount paths.length)

end KernelIR.Command
