import KernelIR.Opcode
import KernelIR.Type.Reader

namespace KernelIR

open Number (decimal)
open Text (quote)

/-- Where in a description a fault lies. -/
inductive Place where
  | global (i : Nat)
  | func (i : Nat)
  | ret (i : Nat)
  | param (i j : Nat)
  | intrinsic (i : Nat)
  | block (i j : Nat)
  | instr (i j k : Nat)
  | table (name : String) (i : Nat)
deriving DecidableEq, Repr

/-- Why a description is refused. -/
inductive LoadCause where
  | type (fault : TypeFault)
  | notPointer (name : String)
  | duplicateSymbol (name : String)
  | unknownIntrinsic (tag : String)
  | duplicateBlock (name : String)
  | unknownOpcode (name : String)
  | allocaWithoutType
  | unknownPredicate (name : String)
  | redefinition (name : String)
  | notTerminated (label : String)
  | undefinedBlock (name : String)
  | undefinedValue (name : String)
  | undefinedSymbol (name : String)
  | operandCount (op : Opcode) (expected found : Nat)
  | operandsMissing (op : Opcode) (least found : Nat)
  | targetCount (op : Opcode) (expected found : Nat)
  | withoutType (op : Opcode)
  | unsupported (op : Opcode)
  | callWithoutCallee
  | manyReturnValues
  | phiSources
  | withoutPredicate
  | invalidOperand (text : String)
  | invalidInteger (text : String)
  | invalidFloat (text : String)
  | unsupportedConstant (ty : String)
deriving DecidableEq, Repr

structure LoadFault where
  place : Place
  cause : LoadCause
deriving DecidableEq, Repr

def indexed (name : String) (i : Nat) : String := name ++ "[" ++ decimal i ++ "]"

def Place.path : Place → String
  | .global i => indexed "globals" i
  | .func i => indexed "functions" i
  | .ret i => indexed "functions" i ++ ".ret"
  | .param i j => indexed "functions" i ++ indexed ".params" j
  | .intrinsic i => indexed "functions" i ++ ".intrinsic"
  | .block i j => indexed "functions" i ++ indexed ".blocks" j
  | .instr i j k => indexed "functions" i ++ indexed ".blocks" j ++ indexed ".ins" k
  | .table name i => "metadata." ++ indexed name i

/-- The reason given for a name that nothing has. -/
def undefinedReason (kind name : String) : String := "undefined " ++ kind ++ " " ++ quote name

def expectedReason (op : Opcode) (expected : String) (things : String) (found : Nat) : String :=
  op.text ++ " expects " ++ expected ++ " " ++ things ++ ", got " ++ decimal found

def LoadCause.reason : LoadCause → String
  | .type fault => fault.message
  | .notPointer name => "global " ++ quote name ++ " must have a pointer type"
  | .duplicateSymbol name => "duplicated symbol " ++ quote name
  | .unknownIntrinsic tag => "unknown intrinsic " ++ quote tag
  | .duplicateBlock name => "duplicated block " ++ quote name
  | .unknownOpcode name => "unknown opcode " ++ quote name
  | .allocaWithoutType => "alloca requires a type"
  | .unknownPredicate name => "unknown predicate " ++ quote name
  | .redefinition name => "redefinition of %" ++ name
  | .notTerminated label => "block " ++ quote label ++ " is not terminated"
  | .undefinedBlock name => undefinedReason "block" name
  | .undefinedValue name => undefinedReason "value" ("%" ++ name)
  | .undefinedSymbol name => undefinedReason "symbol" ("@" ++ name)
  | .operandCount op expected found => expectedReason op (decimal expected) "operands" found
  | .operandsMissing op least found =>
    expectedReason op ("at least " ++ decimal least) "operands" found
  | .targetCount op expected found => expectedReason op (decimal expected) "targets" found
  | .withoutType op => op.text ++ " requires a type"
  | .unsupported op => "unsupported opcode " ++ op.text
  | .callWithoutCallee => "call without a callee"
  | .manyReturnValues => "ret takes at most one operand"
  | .phiSources => "phi needs one source block per value"
  | .withoutPredicate => "compare without a predicate"
  | .invalidOperand text => "invalid operand " ++ quote text
  | .invalidInteger text => "invalid integer literal " ++ quote text
  | .invalidFloat text => "invalid float literal " ++ quote text
  | .unsupportedConstant ty => ty ++ " constants are not supported"

/-- The message for a reason at a path; the path of the whole text is empty. -/
def syntaxMessage (path reason : String) : String :=
  if path = "" then "Syntax error: " ++ reason else "Syntax error at " ++ path ++ ": " ++ reason

def LoadFault.message (f : LoadFault) : String := syntaxMessage f.place.path f.cause.reason

end KernelIR
