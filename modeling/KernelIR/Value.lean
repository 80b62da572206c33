import KernelIR.Number.Shortest
import KernelIR.Opcode
import KernelIR.Type.Basic

namespace KernelIR

open Number (decimal Binary64)

/-- A function is known by a number of its own, so that two of one name stay apart. -/
abbrev FuncId := Nat

/-- A block is known within its function; the first one made there has number 1. -/
abbrev BlockId := Nat

/-- A block of any function, by its number there. -/
structure BlockRef where
  func : FuncId
  number : BlockId
deriving DecidableEq, Repr, Inhabited

/-- An instruction is known by the function it was made in and its number there, wherever it
stands now. -/
structure InstrId where
  home : FuncId
  serial : Nat
deriving DecidableEq, Repr, Inhabited

/-- A parameter of a function and its position. -/
structure Param where
  name : String
  ty : Ty
  index : Nat
deriving DecidableEq, Repr, Inhabited

/-- A variable of the module; its value is the address of the storage. -/
structure Global where
  name : String
  elem : Ty
  space : Int
deriving DecidableEq, Repr, Inhabited

def Global.ty (g : Global) : Ty := .ptr g.elem g.space

/-- An integer constant: a machine word read at the width of its type. -/
structure IntConst where
  bits : Int
  word : BitVec 64
deriving DecidableEq, Repr, Inhabited

/-- The width that cuts the word; a width outside 0 to 63 leaves it whole. -/
def IntConst.width? (c : IntConst) : Option Nat :=
  if 0 ≤ c.bits && c.bits < 64 then some c.bits.toNat else none

/-- The word read as an unsigned number of its width. -/
def IntConst.unsigned (c : IntConst) : Nat :=
  match c.width? with
  | some n => (c.word &&& ((1#64 <<< n) - 1#64)).toNat
  | none => c.word.toNat

/-- The word read as a signed number of its width. -/
def IntConst.signed (c : IntConst) : Int :=
  match c.width? with
  | some n => ((c.word <<< (64 - n)).sshiftRight (64 - n)).toInt
  | none => c.word.toInt

/-- The stored word as a signed number of 64 bits. -/
def IntConst.stored (c : IntConst) : Int := c.word.toInt

/-- What an instruction can take as an operand. -/
inductive Value where
  | int (c : IntConst)
  | float (bits : Int) (number : Binary64)
  | param (p : Param)
  | global (g : Global)
  | func (id : FuncId)
  | instr (id : InstrId)
deriving DecidableEq, Repr, Inhabited

def Value.isConstant : Value → Bool
  | .int _ | .float .. => true
  | _ => false

/-- What the text of a reference needs to know about functions, instructions and blocks. -/
structure Scope where
  func : FuncId → String × Ty
  instr : InstrId → String × Ty
  label : BlockRef → String

/-- Floating point constants are positional for exponents from -4 up to 5. -/
def floatLayout : Number.RealLayout := { least := -4, bound := 6, exponentWidth := 2 }

namespace Value

variable (scope : Scope)

def ty : Value → Ty
  | .int c => .int c.bits
  | .float bits _ => .float bits
  | .param p => p.ty
  | .global g => g.ty
  | .func id => (scope.func id).2
  | .instr id => (scope.instr id).2

/-- How a value is referred to. An instruction without a name has no reference. -/
def ident : Value → String
  | .int c => decimal c.signed
  | .float _ number => number.text floatLayout
  | .param p => "%" ++ p.name
  | .global g => "@" ++ g.name
  | .func id => "@" ++ (scope.func id).1
  | .instr id => let name := (scope.instr id).1; if name = "" then "" else "%" ++ name

/-- A reference after its type. -/
def typed (v : Value) : String := (v.ty scope).text ++ " " ++ v.ident scope

end Value

end KernelIR
