import KernelIR.Text.Blank
import KernelIR.Text.Quoted
import KernelIR.Type.Basic

namespace KernelIR

open Text (quote trim cutLast)

/-- Why a text is no type. Each cause but the first holds the offending text. -/
inductive TypeFault where
  | empty
  | unknown (text : String)
  | width (text : String)
  | space (text : String)
deriving DecidableEq, Repr

def TypeFault.message : TypeFault → String
  | .empty => "empty type"
  | .unknown text => "unknown type " ++ quote text
  | .width text => "invalid integer type " ++ quote text
  | .space text => "invalid address space in " ++ quote text

namespace Ty

/-- The types without a suffix. -/
def readSimple (cs : List Char) : Except TypeFault Ty :=
  let text := String.ofList cs
  if text = "void" then .ok .void
  else if text = "label" then .ok .label
  else if text = "float" then .ok (.float 32)
  else if text = "double" then .ok (.float 64)
  else
    match cs with
    | [] => .error .empty
    | '%' :: name => .ok (named (String.ofList name))
    | 'i' :: digits =>
      match Number.readDecimal digits with
      | some n => if 0 < n && n ≤ 64 then .ok (.int n) else .error (.width text)
      | none => .error (.width text)
    | _ => .error (.unknown text)

def spaceMark : List Char := " addrspace(".toList

/-- Splits what precedes a star into the pointee and its address space. -/
def readSpace (cs : List Char) : Except TypeFault (List Char × Int) :=
  match cutLast spaceMark cs with
  | some (elem, number) =>
    if number.getLast? = some ')' then
      match Number.readDecimal number.dropLast with
      | some n => if 0 ≤ n then .ok (elem, n) else .error (.space (String.ofList cs))
      | none => .error (.space (String.ofList cs))
    else .ok (cs, 0)
  | none => .ok (cs, 0)

theorem length_readSpace_le {cs elem : List Char} {space : Int}
    (h : readSpace cs = .ok (elem, space)) : elem.length ≤ cs.length := by
  unfold readSpace at h
  split at h
  · next e n hc =>
    have split := Text.cutLast_eq_append hc
    have le : e.length ≤ cs.length := by
      rw [split]
      simp only [List.length_append]
      omega
    split at h
    · split at h
      · split at h
        · cases h
          exact le
        · cases h
      · cases h
    · cases h
      exact Nat.le_refl _
  · cases h
    exact Nat.le_refl _

/-- Reads a type from its text, blanks around each part being free. -/
def read (src : List Char) : Except TypeFault Ty :=
  match _ : trim src with
  | [] => .error .empty
  | c :: cs =>
    if (c :: cs).getLast? = some '*' then
      match _ : readSpace (trim (c :: cs).dropLast) with
      | .error e => .error e
      | .ok (elem, space) =>
        match read elem with
        | .error e => .error e
        | .ok t => .ok (.ptr t space)
    else readSimple (c :: cs)
termination_by src.length
decreasing_by
  have outer : (c :: cs).length ≤ src.length := ‹trim src = c :: cs› ▸ Text.length_trim_le src
  have inner := Text.length_trim_le (c :: cs).dropLast
  have pointee := length_readSpace_le ‹readSpace _ = .ok (elem, space)›
  simp only [List.length_cons, List.length_dropLast] at outer inner
  omega

end Ty

end KernelIR
