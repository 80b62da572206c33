import KernelIR.Analysis

namespace KernelIR

open Number (decimal)

namespace Drawing

/-- Characters that mean something in a label are written as entities. -/
def escape (s : String) : String :=
  String.join <| s.toList.map fun c =>
    match c with
    | '&' => "&amp;"
    | '\x27' => "&#39;"
    | '<' => "&lt;"
    | '>' => "&gt;"
    | '\x22' => "&#34;"
    | c => String.singleton c

/-- Blanks that a layout engine would otherwise fold. -/
def keepBlanks (s : String) : String :=
  String.join (s.toList.map fun c => if c = ' ' then "&nbsp;" else String.singleton c)

def row (s : String) : String :=
  "<tr><td align=\"left\">" ++ keepBlanks (escape s) ++ "</td></tr>\n"

/-- A cell wide enough for the longest of the lines below it. -/
def titleRow (lines : List String) (title : String) : String :=
  let width := (lines.map String.utf8ByteSize).foldl max 0
  "<tr><td width=\"" ++ decimal (width * 10 + 5 : Nat) ++ "\">" ++ escape title ++ "</td></tr>\n"

/-- Stands for nothing. -/
def empty : String := "∅"

def set (labels : List String) : String := "\x7b" ++ commaList labels ++ "\x7d"

def nodeName (b : BlockId) : String := "bb_" ++ decimal b

/-- What an edge is taken for: the first way out of a conditional branch is the true one. -/
def edgeLabel (b : Block) (k : Nat) : String :=
  if b.term?.any fun i => i.op = .condBr then (if k = 0 then "true" else "false") else "goto"

def edgeLine (b : Block) (k : Nat) (s : BlockRef) : String :=
  "    " ++ nodeName b.id ++ " -> " ++ nodeName s.number ++ " [ label = \"" ++
    edgeLabel b k ++ "\" ]"

end Drawing

open Drawing

namespace Module

variable (m : Module) (tree : DomTree) (nest : LoopNest)

/-- What is known about a block: where control comes from, the dominators next to it, and the
innermost loop around it. -/
def blockNotes (b : BlockRef) : List String :=
  let preds := ((m.func? b.func).map fun f => (f.preds b.number).map f.label).getD []
  let idom := ((tree.idom? b).map m.label).getD empty
  let loop := ((nest.loopFor? b).map fun l =>
    m.label l.header ++ " (depth " ++ decimal l.depth ++ ")").getD empty
  ["# pred = " ++ set preds, "# idom_by = " ++ idom,
    "# idom_of = " ++ set ((tree.children b).map m.label), "# loop = " ++ loop]

/-- The table of a block: its label, the notes and the instructions. -/
def blockTable (r : BlockRef) (b : Block) : String :=
  let notes := m.blockNotes tree nest r
  let lines := b.instrs.map fun i => i.text m.scope
  "<table border=\"1\" cellborder=\"0\" cellspacing=\"0\">\n" ++
    titleRow (notes ++ lines) b.label ++ "<hr/>\n" ++ String.join (notes.map row) ++
    (if lines.isEmpty then "" else "<hr/>\n" ++ String.join (lines.map row)) ++ "</table>"

/-- The line of a block, and those of the edges out of it. -/
def drawBlock (r : BlockRef) : List String :=
  match m.block? r with
  | some b =>
    ("    " ++ nodeName b.id ++ " [ label = < " ++ m.blockTable tree nest r b ++ " > ]") ::
      b.succs.mapIdx (edgeLine b)
  | none => []

/-- The flow graph of a function as a drawing. A declaration has none. Of several blocks with one
number the one nearest to the entry is drawn. -/
def draw? (f : Func) : Except EditFault (Option String) :=
  match f.entry? with
  | none => .ok none
  | some entry => do
    let g := m.flow f
    let tree := g.domTree
    let nest ← m.loopNest f tree
    let heading := [
      "digraph " ++ Text.quote f.name ++ " \x7b",
      "    graph [ fontname = \"Fira Code\" ]",
      "    node [ fontname = \"Fira Code\" fontsize=\"16\" shape = \"plaintext\" ]",
      "    edge [ fontname = \"Fira Code\" ]",
      "    START [ shape = \"circle\" ]",
      "    START -> " ++ nodeName entry.id]
    let order := breadthFirst BlockRef.number g.numbers g.succs [f.ref entry.id] []
    let blocks := order.flatMap (m.drawBlock tree nest)
    .ok (some ("\n".intercalate (heading ++ blocks ++ ["\x7d", ""])))

end Module

/-- The message for a function that cannot be drawn. -/
def Func.noDrawingMessage (f : Func) : String := "ir: " ++ f.name ++ " is a declaration"

end KernelIR
