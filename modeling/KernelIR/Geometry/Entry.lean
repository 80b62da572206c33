import KernelIR.Geometry.Dialect
import KernelIR.Module

namespace KernelIR

/-- Whether a list of tags and values has the tag of a kernel. -/
def hasKernelTag : List MetadataItem → Bool
  | [] => false
  | .text s :: rest => s = "kernel" || hasKernelTag (rest.drop 1)
  | .value _ :: rest => hasKernelTag (rest.drop 1)
termination_by items => items.length
decreasing_by
  all_goals
    simp only [List.length_drop, List.length_cons]
    omega

namespace Module

/-- The nodes of a table that are about a function. -/
def nodesOf (m : Module) (table : String) (id : FuncId) : List MetadataNode :=
  match m.table? table with
  | some t => t.nodes.filter fun n => n.refersTo id
  | none => []

/-- Whether the metadata says that a function is a kernel. Every dialect has its own table; tags and
values alternate after the function in the first, and a mention is enough in the second. -/
def isEntryPoint (m : Module) (id : FuncId) : Dialect → Bool
  | .cuda => (m.nodesOf "nvvm.annotations" id).any fun n => hasKernelTag (n.drop 1)
  | .opencl => !(m.nodesOf "opencl.kernels" id).isEmpty
  | .c | .unassigned _ => false

def entryPoints (m : Module) (d : Dialect) : List Func :=
  m.functions.filter fun f => m.isEntryPoint f.id d

end Module

end KernelIR
