import KernelIR.Analysis
import KernelIR.Builder
import KernelIR.Command.Environment
import KernelIR.Command.Flags
import KernelIR.Command.Run
import KernelIR.Description.Basic
import KernelIR.Description.Decode
import KernelIR.Description.Fault
import KernelIR.Description.Load
import KernelIR.Document.Cursor
import KernelIR.Document.Layout
import KernelIR.Document.Node
import KernelIR.Document.Token
import KernelIR.Drawing
import KernelIR.Edit
import KernelIR.Function
import KernelIR.Geometry.Basic
import KernelIR.Geometry.Dialect
import KernelIR.Geometry.Entry
import KernelIR.Geometry.Marker
import KernelIR.Graph.Basic
import KernelIR.Graph.Dominators
import KernelIR.Graph.LinkForest
import KernelIR.Graph.Loops
import KernelIR.Graph.Search
import KernelIR.Hoist.Basic
import KernelIR.Hoist.Candidate
import KernelIR.Hoist.Compilation
import KernelIR.Hoist.Motion
import KernelIR.Hoist.Pipeline
import KernelIR.Hoist.Purity
import KernelIR.Instr
import KernelIR.Listing
import KernelIR.Main
import KernelIR.Module
import KernelIR.Number.Binary64
import KernelIR.Number.Integer
import KernelIR.Number.Real
import KernelIR.Number.Shortest
import KernelIR.Opcode
import KernelIR.Preheader
import KernelIR.Proofs.CallGraph
import KernelIR.Proofs.Consistent
import KernelIR.Proofs.Description.Declaration
import KernelIR.Proofs.Description.Inference
import KernelIR.Proofs.Description.Order
import KernelIR.Proofs.Description.Reading
import KernelIR.Proofs.Description.Realization
import KernelIR.Proofs.Description.Renumbering
import KernelIR.Proofs.Description.Resolution
import KernelIR.Proofs.Dominance
import KernelIR.Proofs.Edit
import KernelIR.Proofs.Flow
import KernelIR.Proofs.Graph.CheckedDominators
import KernelIR.Proofs.Graph.Detour
import KernelIR.Proofs.Graph.DominatorTree
import KernelIR.Proofs.Graph.ImmediateDominator
import KernelIR.Proofs.Graph.LinkForest
import KernelIR.Proofs.Graph.LoopNest
import KernelIR.Proofs.Graph.Search
import KernelIR.Proofs.Graph.Semidominator
import KernelIR.Proofs.Graph.TreeWalk
import KernelIR.Proofs.Graph.Walk
import KernelIR.Proofs.Graph.Worklist
import KernelIR.Proofs.Loops
import KernelIR.Proofs.Modular
import KernelIR.Proofs.Motion.Completeness
import KernelIR.Proofs.Motion.Frame
import KernelIR.Proofs.Motion.Hoist
import KernelIR.Proofs.Motion.Move
import KernelIR.Proofs.Motion.Placement
import KernelIR.Proofs.Motion.Preservation
import KernelIR.Proofs.Motion.Relocate
import KernelIR.Proofs.Motion.Result
import KernelIR.Proofs.Motion.Simulation
import KernelIR.Proofs.Motion.Sweep
import KernelIR.Proofs.Nesting
import KernelIR.Proofs.Optimize
import KernelIR.Proofs.Preheader.Enterable
import KernelIR.Proofs.Preheader.Insertion
import KernelIR.Proofs.Preheader.Joining
import KernelIR.Proofs.Preheader.Loops
import KernelIR.Proofs.Preheader.Refinement
import KernelIR.Proofs.Preheader.Spec
import KernelIR.Proofs.Preheader.Valid
import KernelIR.Proofs.Purity
import KernelIR.Proofs.Renumbering
import KernelIR.Proofs.Semantics
import KernelIR.Proofs.Simplify
import KernelIR.Proofs.Ssa
import KernelIR.Proofs.Validity
import KernelIR.Session
import KernelIR.Text.Blank
import KernelIR.Text.Graphic
import KernelIR.Text.Quoted
import KernelIR.Type.Basic
import KernelIR.Type.Reader
import KernelIR.Value
import KernelIR.Proofs.Motion.Extent
import KernelIR.Proofs.Safety
import KernelIR.Proofs.Ownership.Records
import KernelIR.Proofs.Ownership.Rearranging
import KernelIR.Proofs.Motion.Traversal
import KernelIR.Proofs.Ownership.Tidy
import KernelIR.Proofs.Ownership.Editing
import KernelIR.Proofs.Ownership.Moving
import KernelIR.Proofs.Ownership.Calls
import KernelIR.Proofs.Graph.Onward
import KernelIR.Proofs.Geometry.Markers
import KernelIR.Proofs.Geometry.Steady
import KernelIR.Proofs.Geometry.Stripping
import KernelIR.Proofs.Geometry.Hoisting
import KernelIR.Proofs.Geometry.Independence
import KernelIR.Proofs.Motion.Levels
import KernelIR.Proofs.Motion.LoopWalk
import KernelIR.Proofs.Drawing.Lines
import KernelIR.Proofs.Traversals
import KernelIR.Proofs.Geometry.Extraction
import KernelIR.Proofs.Geometry.Meaning
import KernelIR.Proofs.Number.Decimal
import KernelIR.Proofs.Number.Floating
import KernelIR.Proofs.Number.Literal
import KernelIR.Proofs.Number.Rounding
import KernelIR.Proofs.Constant.Width
import KernelIR.Proofs.Type.RoundTrip
import KernelIR.Proofs.Constant.Printing
import KernelIR.Proofs.Preheader.Naming
import KernelIR.Proofs.Graph.Compression
