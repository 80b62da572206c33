import KernelIR.Number.Integer

namespace KernelIR

open Number (decimal)

/-- The types of values. A width is any integer; only the reader of descriptions restricts it. -/
inductive Ty where
  | int (bits : Int)
  | float (bits : Int)
  | ptr (elem : Ty) (space : Int)
  | struct (name : String) (fields : List Ty)
  | void
  | label
  | func (ret : Ty) (params : List Ty)
deriving Repr, Inhabited

/-- Items separated by commas. -/
def commaList (items : List String) : String := ", ".intercalate items

mutual

/-- A struct with a name is written by that name, and a pointer in the default address space
does not mention it. -/
def Ty.text : Ty → String
  | .int bits => "i" ++ decimal bits
  | .float bits =>
    if bits = 32 then "float" else if bits = 64 then "double" else "f" ++ decimal bits
  | .ptr elem space =>
    if space = 0 then elem.text ++ "*" else elem.text ++ " addrspace(" ++ decimal space ++ ")*"
  | .struct name fields =>
    if name = "" then "\x7b " ++ commaList (Ty.texts fields) ++ " \x7d" else "%" ++ name
  | .void => "void"
  | .label => "label"
  | .func ret params => ret.text ++ " (" ++ commaList (Ty.texts params) ++ ")"

def Ty.texts : List Ty → List String
  | [] => []
  | t :: ts => t.text :: Ty.texts ts

end

mutual

/-- Whether two types are the same in every part. -/
def Ty.same : Ty → Ty → Bool
  | .int a, .int b => a = b
  | .float a, .float b => a = b
  | .ptr t a, .ptr u b => t.same u && a = b
  | .struct m ts, .struct n us => m = n && Ty.allSame ts us
  | .void, .void => true
  | .label, .label => true
  | .func t ts, .func u us => t.same u && Ty.allSame ts us
  | _, _ => false

def Ty.allSame : List Ty → List Ty → Bool
  | [], [] => true
  | t :: ts, u :: us => t.same u && Ty.allSame ts us
  | _, _ => false

end

mutual

theorem Ty.same_iff (t u : Ty) : t.same u = true ↔ t = u := by
  cases t with
  | ptr t => cases u <;> simp [same, same_iff t]
  | struct name ts => cases u <;> simp [same, allSame_iff ts]
  | func t ts => cases u <;> simp [same, same_iff t, allSame_iff ts]
  | int | float | void | label => cases u <;> simp [same]

theorem Ty.allSame_iff (ts us : List Ty) : Ty.allSame ts us = true ↔ ts = us := by
  cases ts with
  | nil => cases us <;> simp [allSame]
  | cons t ts => cases us <;> simp [allSame, same_iff t, allSame_iff ts]

end

instance : DecidableEq Ty := fun t u => decidable_of_iff _ (Ty.same_iff t u)

namespace Ty

def i1 : Ty := .int 1

def i32 : Ty := .int 32

/-- A pointer in the default address space. -/
def pointerTo (elem : Ty) : Ty := .ptr elem 0

/-- Three fields of one type, the layout of the built-in size vectors. -/
def vector3 (name : String) (elem : Ty) : Ty := .struct name [elem, elem, elem]

/-- Only the name decides which struct a pointer leads to. -/
def isStructPointer (name : String) : Ty → Bool
  | .ptr (.struct n _) _ => n = name
  | _ => false

/-- What a pointer leads to; any other type stands for itself. -/
def pointee : Ty → Ty
  | .ptr elem _ => elem
  | t => t

def isVoid : Ty → Bool
  | .void => true
  | _ => false

/-- The struct type of the built-in size vectors. -/
def sizeVector : String := "struct._3DimensionalVector"

/-- The struct type that a name stands for: only the size vector has known fields. -/
def named (name : String) : Ty :=
  if name = sizeVector then vector3 name i32 else .struct name []

end Ty

end KernelIR
