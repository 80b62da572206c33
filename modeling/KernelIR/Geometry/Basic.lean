import KernelIR.Geometry.Entry
import KernelIR.Geometry.Marker
import KernelIR.Hoist.Compilation

namespace KernelIR

open Number (decimal)

/-- The launch geometry of a kernel: the sizes known so far, and the width of the last one found. -/
structure Geometry where
  size : Role → Axis → Option IntConst := fun _ _ => none
  bits : Int := 0

instance : Inhabited Geometry := ⟨{}⟩

/-- Why there is no launch geometry. -/
inductive GeometryFault where
  | noKernels
  | unknownDialect
  | unknownName (name : String)
  | dimension (role : Role) (axis : Axis)
deriving DecidableEq, Repr

def dimensionMessage : String := "Unsupported kernel dimension"

def dimensionDetail (role : String) (axis : Int) : String :=
  role ++ " size of axis " ++ decimal axis ++ " is missing or not positive"

namespace GeometryFault

def message : GeometryFault → String
  | .noKernels => "kernel: dialect has no kernel launch geometry"
  | .unknownDialect => "kernel: unknown dialect"
  | .unknownName name => "kernel: unknown dialect: " ++ Text.quote name
  | .dimension _ _ => dimensionMessage

/-- Whether the fault lies in a size rather than in the dialect. -/
def isDimension : GeometryFault → Bool
  | .dimension _ _ => true
  | _ => false

end GeometryFault

/-- The dialect that a name stands for. -/
def Dialect.read (name : String) : Except GeometryFault Dialect :=
  match ofName? name with
  | some d => .ok d
  | none => .error (.unknownName name)

namespace Geometry

/-- Takes note of a marker; an earlier one of the same role and axis is forgotten. -/
def record (g : Geometry) (k : Marker) : Geometry where
  size r a := if r = k.role ∧ a = k.axis then some k.value else g.size r a
  bits := k.value.bits

def ofMarkers (ks : List Marker) : Geometry := ks.foldl record {}

def isPositive (size : Option IntConst) : Bool := size.any fun c => 0 < c.signed

/-- The sizes in the order in which they are checked. -/
def dimensions : List (Role × Axis) := [0, 1, 2].flatMap fun a => [(.item, a), (.group, a)]

/-- The first size that is missing or not positive. -/
def fault? (g : Geometry) : Option GeometryFault :=
  (dimensions.find? fun d => !isPositive (g.size d.1 d.2)).map fun d => .dimension d.1 d.2

/-- A size, or 0 if it is not known. -/
def value (g : Geometry) (r : Role) (a : Axis) : Int :=
  match g.size r a with
  | some c => c.signed
  | none => 0

def values (g : Geometry) (r : Role) : List Int := [g.value r 0, g.value r 1, g.value r 2]

def text (g : Geometry) : String :=
  "local=(" ++ commaList ((g.values .item).map decimal) ++ ") group=(" ++
    commaList ((g.values .group).map decimal) ++ ") bits=" ++ decimal g.bits

end Geometry

namespace Module

/-- How markers are written in a dialect. -/
def markerOf (m : Module) : Dialect → Except GeometryFault (Func → Option Marker)
  | .cuda => .ok (Marker.ofField? m)
  | .opencl => .ok (Marker.ofQuery? m)
  | .c => .error .noKernels
  | .unassigned _ => .error .unknownDialect

def markerFuncs (m : Module) : List Func := m.functions.filter Func.isMarker

/-- Takes the marker functions out, and counts them. -/
def stripMarkers (m : Module) : Nat × Module :=
  (m.markerFuncs.length, m.markerFuncs.foldl (fun m f => (m.removeFunction? f.id).getD m) m)

/-- The launch geometry that the markers state, and what is wrong with it. -/
def geometry (m : Module) (d : Dialect) : Geometry × Option GeometryFault :=
  match m.markerOf d with
  | .error x => ({}, some x)
  | .ok marker =>
    let g := Geometry.ofMarkers (m.markerFuncs.filterMap marker)
    (g, g.fault?)

/-- How many functions are taken for markers, and how many state a size. -/
def markerCounts (m : Module) (d : Dialect) : Nat × Nat :=
  match m.markerOf d with
  | .error _ => (0, 0)
  | .ok marker => (m.markerFuncs.length, (m.markerFuncs.filterMap marker).length)

end Module

namespace Compilation

def stripMarkers : StateM Compilation Nat := fun c =>
  let (n, module) := c.module.stripMarkers
  (n, { c with module })

/-- Finds the launch geometry. If the options say so, the markers are then taken out, unless the
dialect has none. -/
def extractGeometry (o : Options) (d : Dialect) :
    StateM Compilation (Geometry × Option GeometryFault) := fun c =>
  let found := c.module.geometry d
  let (candidates, matched) := c.module.markerCounts d
  let c := { c with
    stats.candidates := c.stats.candidates + candidates
    stats.matched := c.stats.matched + matched }
  if o.stripMarkers && found.2.all GeometryFault.isDimension then (found, (stripMarkers c).2)
  else (found, c)

end Compilation

end KernelIR
