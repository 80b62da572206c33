import KernelIR.Edit

namespace KernelIR

structure Options where
  trace : Bool := false
  dumpIR : Bool := false
  stripMarkers : Bool := false
  insertPreheaders : Bool := false
deriving DecidableEq, Repr, Inhabited

/-- What was done so far: loops examined, those among them without a preheader, instructions moved,
and functions taken for geometry markers and recognised as such. -/
structure Stats where
  loops : Nat := 0
  noPreheader : Nat := 0
  hoisted : Nat := 0
  candidates : Nat := 0
  matched : Nat := 0
deriving DecidableEq, Repr, Inhabited

/-- The text of a log; every message ends its line. -/
def logText (messages : List String) : String :=
  String.join (messages.map fun s => if s.toList.getLast? = some '\n' then s else s ++ "\n")

end KernelIR
