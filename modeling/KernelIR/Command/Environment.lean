import KernelIR.Geometry.Dialect
import KernelIR.Hoist.Basic

namespace KernelIR.Command

/-- The variables of the environment. -/
abbrev Environment := String → Option String

/-- What holds unless the command line says otherwise. -/
structure Defaults where
  options : Options := {}
  dialect : Dialect := .opencl
deriving DecidableEq, Repr, Inhabited

/-- The words that switch something on. -/
def positiveWords : List String :=
  ["absolutely", "affirmative", "enable", "enabled", "positive", "t", "true", "y", "yes"]

/-- A word in lower case, with a capital, or in upper case. -/
def spellings (word : String) : List String := [word, word.capitalize, word.toUpper]

def isPositive (value : String) : Bool :=
  value = "1" || (positiveWords.flatMap spellings).contains value

def Environment.switch (env : Environment) (name : String) : Bool := (env name).any isPositive

/-- The dialect that a variable names. An empty variable is as good as none. -/
def Environment.dialect? (env : Environment) (name : String) : Option Dialect :=
  match env name with
  | none | some "" => some .opencl
  | some value => Dialect.ofName? value

/-- The defaults that the environment sets; nothing if it names no dialect. -/
def Environment.defaults? (env : Environment) : Option Defaults :=
  (env.dialect? "KERNOPT_DIALECT").map fun dialect =>
    { options := {
        trace := env.switch "KERNOPT_TRACE"
        dumpIR := env.switch "KERNOPT_DUMP_IR"
        stripMarkers := env.switch "KERNOPT_STRIP_MARKERS"
        insertPreheaders := env.switch "KERNOPT_INSERT_PREHEADERS" }
      dialect }

end KernelIR.Command
