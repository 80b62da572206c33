import KernelIR.Command.Environment

namespace KernelIR.Command

open Text (quote)

inductive Flag where
  | dialect | dims | dot | dump | entries | help | hoist | insertPreheaders | stats | stripMarkers
  | trace | version
deriving DecidableEq, Repr, Inhabited

namespace Flag

/-- Every flag, in the order of their names. -/
def all : List Flag :=
  [.dialect, .dims, .dot, .dump, .entries, .help, .hoist, .insertPreheaders, .stats, .stripMarkers,
    .trace, .version]

def name : Flag → String
  | .dialect => "dialect"
  | .dims => "dims"
  | .dot => "dot"
  | .dump => "dump"
  | .entries => "entries"
  | .help => "help"
  | .hoist => "hoist"
  | .insertPreheaders => "insert-preheaders"
  | .stats => "stats"
  | .stripMarkers => "strip-markers"
  | .trace => "trace"
  | .version => "version"

def letter? : Flag → Option Char
  | .help => some 'h'
  | .version => some 'v'
  | _ => none

/-- What stands for the value of a flag that takes a text. The other flags are switches. -/
def placeholder? : Flag → Option String
  | .dialect => some "string"
  | .dot => some "FILE"
  | _ => none

def summary : Flag → String
  | .dialect => "Source language of the module (c, cuda, opencl)"
  | .dims => "Recover the kernel launch geometry"
  | .dot => "Write the annotated CFG of every function to FILE in Graphviz format"
  | .dump => "Print the module after all transformations"
  | .entries => "List the kernel entry points"
  | .help => "help for kernopt"
  | .hoist => "Hoist loop invariant computations into preheaders"
  | .insertPreheaders => "Give loops without a preheader a dedicated one"
  | .stats => "Print hoisting and extraction statistics to stderr"
  | .stripMarkers => "Remove the geometry marker functions after --dims"
  | .trace => "Log every hoisted instruction"
  | .version => "version for kernopt"

def named? (name : List Char) : Option Flag := all.find? fun f => f.name.toList = name

def lettered? (c : Char) : Option Flag := all.find? fun f => f.letter? = some c

/-- How a flag is referred to in messages. -/
def title (f : Flag) : String :=
  match f.letter? with
  | some c => "-" ++ String.singleton c ++ ", --" ++ f.name
  | none => "--" ++ f.name

end Flag

/-- Why a command line is refused. -/
inductive FlagFault where
  | malformed (arg : String)
  | unknown (name : String)
  | unknownLetter (c : Char) (group : String)
  | valueMissing (name : String)
  | notSwitch (flag : Flag) (value : String)
  | argumentCount (n : Nat)
deriving DecidableEq, Repr

/-- A letter in quotes. Only the start of the encoding of a letter outside ASCII is looked at, which
reads as U+00C3. -/
def quoteLetter (c : Char) : String :=
  let shown := if c.toNat < 128 then c else 'Ã'
  "\x27" ++ (if shown = '\x27' then "\\\x27" else if shown = '\x22' then "\x22"
    else Text.quoteChar shown) ++ "\x27"

def FlagFault.message : FlagFault → String
  | .malformed arg => "bad flag syntax: " ++ arg
  | .unknown name => "unknown flag: --" ++ name
  | .unknownLetter c group => "unknown shorthand flag: " ++ quoteLetter c ++ " in -" ++ group
  | .valueMissing name => "flag needs an argument: --" ++ name
  | .notSwitch flag value =>
    "invalid argument " ++ quote value ++ " for " ++ quote flag.title ++
      " flag: strconv.ParseBool: parsing " ++ quote value ++ ": invalid syntax"
  | .argumentCount n => "accepts 1 arg(s), received " ++ Number.decimal n

/-- What the command line asks for. -/
structure Settings where
  dialect : String
  dot : String := ""
  dims : Bool := false
  dump : Bool := false
  entries : Bool := false
  help : Bool := false
  hoist : Bool := false
  insertPreheaders : Bool := false
  stats : Bool := false
  stripMarkers : Bool := false
  trace : Bool := false
  version : Bool := false
deriving DecidableEq, Repr, Inhabited

namespace Settings

def ofDefaults (d : Defaults) : Settings where
  dialect := d.dialect.text
  insertPreheaders := d.options.insertPreheaders
  stripMarkers := d.options.stripMarkers
  trace := d.options.trace

/-- Sets a switch. -/
def switch (s : Settings) (on : Bool) : Flag → Settings
  | .dims => { s with dims := on }
  | .dump => { s with dump := on }
  | .entries => { s with entries := on }
  | .help => { s with help := on }
  | .hoist => { s with hoist := on }
  | .insertPreheaders => { s with insertPreheaders := on }
  | .stats => { s with stats := on }
  | .stripMarkers => { s with stripMarkers := on }
  | .trace => { s with trace := on }
  | .version => { s with version := on }
  | .dialect | .dot => s

def readSwitch? (value : String) : Option Bool :=
  if ["1", "t", "T", "true", "TRUE", "True"].contains value then some true
  else if ["0", "f", "F", "false", "FALSE", "False"].contains value then some false
  else none

/-- Gives a flag a value. -/
def assign (s : Settings) (f : Flag) (value : String) : Except FlagFault Settings :=
  match f with
  | .dialect => .ok { s with dialect := value }
  | .dot => .ok { s with dot := value }
  | f =>
    match readSwitch? value with
    | some on => .ok (s.switch on f)
    | none => .error (.notSwitch f value)

/-- How a setting of a test run begins. Such settings are not for this program. -/
def testMark : List Char := "test.".toList

/-- Reads a group of letters. A value after an equals sign belongs to the letter before it and ends
the group, as does a setting of a test run. -/
def readLetters (s : Settings) : List Char → Except FlagFault Settings
  | [] => .ok s
  | c :: cs =>
    if testMark.isPrefixOf (c :: cs) then .ok s
    else
      match Flag.lettered? c with
      | none => .error (.unknownLetter c (String.ofList (c :: cs)))
      | some f =>
        match cs with
        | '=' :: v :: vs => s.assign f (String.ofList (v :: vs))
        | cs => readLetters (s.switch true f) cs

/-- Whether what follows the two dashes of a long flag cannot be a name. -/
def isMalformed : List Char → Bool
  | '-' :: _ | '=' :: _ => true
  | _ => false

/-- Reads a command line: the settings, and the arguments that are not flags. Two dashes end the
flags. -/
def readArgs (s : Settings) : List String → Except FlagFault (Settings × List String)
  | [] => .ok (s, [])
  | arg :: rest =>
    match arg.toList with
    | ['-', '-'] => .ok (s, rest)
    | '-' :: '-' :: cs =>
      if isMalformed cs then .error (.malformed arg)
      else
        let name := cs.takeWhile fun c => c ≠ '='
        match Flag.named? name, cs.dropWhile fun c => c ≠ '=' with
        | none, _ => .error (.unknown (String.ofList name))
        | some f, _ :: value => do
          readArgs (← s.assign f (String.ofList value)) rest
        | some f, [] =>
          if f.placeholder?.isSome then
            match rest with
            | [] => .error (.valueMissing f.name)
            | value :: rest => do readArgs (← s.assign f value) rest
          else readArgs (s.switch true f) rest
    | '-' :: c :: cs => do readArgs (← s.readLetters (c :: cs)) rest
    | _ => do
      let (s, positional) ← readArgs s rest
      return (s, arg :: positional)

end Settings

/-- A flag with its letter and placeholder, as the help shows it. -/
def helpHead (f : Flag) : String :=
  (match f.letter? with
    | some c => "  -" ++ String.singleton c ++ ", --"
    | none => "      --") ++ f.name ++
  (match f.placeholder? with
    | some p => " " ++ p
    | none => "")

/-- The default of a flag, where it is worth showing. -/
def helpDefault (d : Defaults) : Flag → String
  | .dialect => " (default " ++ quote d.dialect.text ++ ")"
  | .insertPreheaders => if d.options.insertPreheaders then " (default true)" else ""
  | .stripMarkers => if d.options.stripMarkers then " (default true)" else ""
  | .trace => if d.options.trace then " (default true)" else ""
  | _ => ""

def helpLine (d : Defaults) (f : Flag) : String :=
  let width := (Flag.all.map fun f => (helpHead f).length).foldl max 0 + 3
  let head := helpHead f
  head ++ String.ofList (List.replicate (width - head.length) ' ') ++ f.summary ++
    helpDefault d f ++ "\n"

def helpText (d : Defaults) : String :=
  "kernopt loads a kernel module description and analyzes it.\n\n" ++
    "It hoists loop invariant computations that cannot touch memory into loop\n" ++
    "preheaders, lists the kernel entry points, and recovers the launch geometry\n" ++
    "from the __axiom marker functions of OpenCL and CUDA modules.\n\n" ++
    "Usage:\n  kernopt [flags] module.yaml\n\nFlags:\n" ++ String.join (Flag.all.map (helpLine d))

def versionText : String := "kernopt version 0.1.0\n"

end KernelIR.Command
