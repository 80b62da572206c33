import KernelIR.Number.Integer

namespace KernelIR

open Number (decimal)

inductive BinaryOp where
  | add | sub | mul | udiv | sdiv | urem | srem | fadd | fsub | fmul | fdiv | frem
  | shl | lshr | ashr | and | or | xor
deriving DecidableEq, Repr, Inhabited

inductive CastOp where
  | trunc | zext | sext | fptoui | fptosi | uitofp | sitofp | ptrtoint | inttoptr
  | bitcast | addrspacecast
deriving DecidableEq, Repr, Inhabited

/-- What an instruction does. A code that no operation has been given is kept as a number. -/
inductive Opcode where
  | invalid
  | binary (op : BinaryOp)
  | cast (op : CastOp)
  | alloca | load | store | elementPtr
  | icmp | fcmp | phi | select | call
  | br | condBr | ret | unreachable
  | unassigned (code : Nat)
deriving DecidableEq, Repr, Inhabited

/-- The condition of a comparison. -/
inductive Predicate where
  | unset
  | eq | ne | ugt | uge | ult | ule | sgt | sge | slt | sle
  | oeq | one | ogt | oge | olt | ole
  | unassigned (code : Nat)
deriving DecidableEq, Repr, Inhabited

def BinaryOp.text : BinaryOp → String
  | .add => "add"
  | .sub => "sub"
  | .mul => "mul"
  | .udiv => "udiv"
  | .sdiv => "sdiv"
  | .urem => "urem"
  | .srem => "srem"
  | .fadd => "fadd"
  | .fsub => "fsub"
  | .fmul => "fmul"
  | .fdiv => "fdiv"
  | .frem => "frem"
  | .shl => "shl"
  | .lshr => "lshr"
  | .ashr => "ashr"
  | .and => "and"
  | .or => "or"
  | .xor => "xor"

def CastOp.text : CastOp → String
  | .trunc => "trunc"
  | .zext => "zext"
  | .sext => "sext"
  | .fptoui => "fptoui"
  | .fptosi => "fptosi"
  | .uitofp => "uitofp"
  | .sitofp => "sitofp"
  | .ptrtoint => "ptrtoint"
  | .inttoptr => "inttoptr"
  | .bitcast => "bitcast"
  | .addrspacecast => "addrspacecast"

namespace Opcode

def text : Opcode → String
  | .invalid => "invalid"
  | .binary op => op.text
  | .cast op => op.text
  | .alloca => "alloca"
  | .load => "load"
  | .store => "store"
  | .elementPtr => "getelementptr"
  | .icmp => "icmp"
  | .fcmp => "fcmp"
  | .phi => "phi"
  | .select => "select"
  | .call => "call"
  | .br => "br"
  | .condBr => "condbr"
  | .ret => "ret"
  | .unreachable => "unreachable"
  | .unassigned code => "op(" ++ decimal code ++ ")"

/-- The operations in the order of their codes, from zero. -/
def assigned : List Opcode :=
  [.invalid,
    .binary .add, .binary .sub, .binary .mul, .binary .udiv, .binary .sdiv, .binary .urem,
    .binary .srem, .binary .fadd, .binary .fsub, .binary .fmul, .binary .fdiv, .binary .frem,
    .binary .shl, .binary .lshr, .binary .ashr, .binary .and, .binary .or, .binary .xor,
    .cast .trunc, .cast .zext, .cast .sext, .cast .fptoui, .cast .fptosi, .cast .uitofp,
    .cast .sitofp, .cast .ptrtoint, .cast .inttoptr, .cast .bitcast, .cast .addrspacecast,
    .alloca, .load, .store, .elementPtr, .icmp, .fcmp, .phi, .select, .call,
    .br, .condBr, .ret, .unreachable]

def ofCode (code : Nat) : Opcode := assigned[code]?.getD (.unassigned code)

def code : Opcode → Nat
  | .unassigned code => code
  | op => assigned.idxOf op

/-- The operation with a name; the invalid one cannot be asked for. -/
def ofName? (name : String) : Option Opcode :=
  (assigned.drop 1).find? fun op => op.text = name

def isBinary : Opcode → Bool
  | .binary _ => true
  | _ => false

def isCast : Opcode → Bool
  | .cast _ => true
  | _ => false

/-- The operations that end a block. -/
def isTerminator : Opcode → Bool
  | .br | .condBr | .ret | .unreachable => true
  | _ => false

end Opcode

namespace Predicate

def text : Predicate → String
  | .unset => ""
  | .eq => "eq"
  | .ne => "ne"
  | .ugt => "ugt"
  | .uge => "uge"
  | .ult => "ult"
  | .ule => "ule"
  | .sgt => "sgt"
  | .sge => "sge"
  | .slt => "slt"
  | .sle => "sle"
  | .oeq => "oeq"
  | .one => "one"
  | .ogt => "ogt"
  | .oge => "oge"
  | .olt => "olt"
  | .ole => "ole"
  | .unassigned code => "pred(" ++ decimal code ++ ")"

/-- The conditions in the order of their codes, from zero. -/
def assigned : List Predicate :=
  [.unset, .eq, .ne, .ugt, .uge, .ult, .ule, .sgt, .sge, .slt, .sle, .oeq, .one, .ogt, .oge,
    .olt, .ole]

def ofCode (code : Nat) : Predicate := assigned[code]?.getD (.unassigned code)

def code : Predicate → Nat
  | .unassigned code => code
  | p => assigned.idxOf p

/-- The condition with a name; its absence cannot be asked for. -/
def ofName? (name : String) : Option Predicate :=
  (assigned.drop 1).find? fun p => p.text = name

end Predicate

end KernelIR
