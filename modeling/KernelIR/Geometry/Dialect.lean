import KernelIR.Number.Integer
import KernelIR.Text.Quoted

namespace KernelIR

/-- The language a module was compiled from. A code that no language has been given is kept as a
number. -/
inductive Dialect where
  | c
  | cuda
  | opencl
  | unassigned (code : Nat)
deriving DecidableEq, Repr, Inhabited

namespace Dialect

def ofCode : Nat → Dialect
  | 0 => .c
  | 1 => .cuda
  | 2 => .opencl
  | n => .unassigned n

def code : Dialect → Nat
  | .c => 0
  | .cuda => 1
  | .opencl => 2
  | .unassigned n => n

def text : Dialect → String
  | .c => "c"
  | .cuda => "cuda"
  | .opencl => "opencl"
  | .unassigned n => "dialect(" ++ Number.decimal n ++ ")"

/-- The dialect with a name, in upper or lower case. -/
def ofName? (name : String) : Option Dialect :=
  [.c, .cuda, .opencl].find? fun d => d.text.toList = name.toList.map Char.toLower

end Dialect

end KernelIR
