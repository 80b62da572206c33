namespace KernelIR

/-- Overrides a function at one argument. -/
def override {α : Type} (f : Nat → α) (k : Nat) (a : α) : Nat → α :=
  fun i => if i = k then a else f i

/-- The forest that grows while dominators are computed. Vertices are numbers, and a link leads to a
smaller one. `ancestor` follows the links, shortened as paths are compressed; `label` is a vertex
of least `semi` on the part of the path that was cut out. -/
structure LinkForest where
  semi : Nat → Nat
  label : Nat → Nat
  ancestor : Nat → Option Nat

namespace LinkForest

/-- Every vertex is a tree of its own. -/
def initial : LinkForest := ⟨id, id, fun _ => none⟩

def link (F : LinkForest) (parent v : Nat) : LinkForest :=
  { F with ancestor := override F.ancestor v (some parent) }

def lower (F : LinkForest) (v s : Nat) : LinkForest :=
  { F with semi := override F.semi v (min (F.semi v) s) }

/-- Takes over the label of the ancestor if its `semi` is less, and skips that ancestor. -/
def shorten (F : LinkForest) (v a : Nat) : LinkForest :=
  { F with
    label :=
      if F.semi (F.label a) < F.semi (F.label v) then override F.label v (F.label a) else F.label
    ancestor := override F.ancestor v (F.ancestor a) }

/-- Compresses the path above a vertex, from the top, so that its ancestor becomes the last vertex
below the root. -/
def compress : (fuel : Nat) → LinkForest → (v : Nat) → LinkForest
  | 0, F, _ => F
  | fuel + 1, F, v =>
    match F.ancestor v with
    | none => F
    | some a => if (F.ancestor a).isSome then (compress fuel F a).shorten v a else F

/-- A vertex of least `semi` on the path from `v` up to the root, which is left out; `v` itself if
it is a root. Links lead to smaller numbers, so `v` steps reach the root. -/
def eval (F : LinkForest) (v : Nat) : Nat × LinkForest :=
  if (F.ancestor v).isSome then
    let F := compress v F v
    (F.label v, F)
  else (v, F)

end LinkForest

end KernelIR
