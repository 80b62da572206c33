namespace KernelIR

/-- How an instruction is described: names and texts, not yet looked up. -/
structure InstrSpec where
  name : String := ""
  op : String := ""
  type : String := ""
  pred : String := ""
  args : List String := []
  targets : List String := []
  sources : List String := []
deriving DecidableEq, Repr, Inhabited

structure BlockSpec where
  name : String := ""
  instrs : List InstrSpec := []
deriving DecidableEq, Repr, Inhabited

/-- A named thing of some type: a parameter or a variable. -/
structure TypedSpec where
  name : String := ""
  type : String := ""
deriving DecidableEq, Repr, Inhabited

structure FuncSpec where
  name : String := ""
  ret : String := ""
  params : List TypedSpec := []
  intrinsic : String := ""
  blocks : List BlockSpec := []
deriving DecidableEq, Repr, Inhabited

structure TableSpec where
  name : String := ""
  nodes : List (List String) := []
deriving DecidableEq, Repr, Inhabited

/-- The description of a module. -/
structure ModuleSpec where
  name : String := ""
  globals : List TypedSpec := []
  functions : List FuncSpec := []
  tables : List TableSpec := []
deriving DecidableEq, Repr, Inhabited

end KernelIR
