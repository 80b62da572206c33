import KernelIR.Hoist.Pipeline

namespace KernelIR

/-- A module being optimised, with the counts and messages so far. -/
structure Compilation where
  module : Module
  stats : Stats := {}
  log : List String := []
deriving Repr, Inhabited

namespace Compilation

/-- Carries out work on the module, starting from the given purity answers. -/
def work {α : Type} (memo : Purity.Memo) (e : Edit Work α) : Edit Compilation (α × Purity.Memo) :=
  fun c =>
    match e { module := c.module, memo, stats := c.stats, log := c.log } with
    | .ok a w => .ok (a, w.memo) ⟨w.module, w.stats, w.log⟩
    | .error x w => .error x ⟨w.module, w.stats, w.log⟩

/-- Optimises one function. -/
def hoist (o : Options) (id : FuncId) : Edit Compilation Bool := do
  let (changed, _) ← work [] (Work.optimize o id)
  return changed

/-- Optimises the functions of a list, which share their purity answers, and counts those that
changed. -/
def hoistEach (o : Options) : List FuncId → Purity.Memo → Edit Compilation Nat
  | [], _ => pure 0
  | id :: ids, memo => do
    let (changed, memo) ← work memo (Work.optimize o id)
    let rest ← hoistEach o ids memo
    return if changed then rest + 1 else rest

/-- Optimises every function that has a body. -/
def hoistModule (o : Options) : Edit Compilation Nat := fun c =>
  hoistEach o ((c.module.functions.filter fun f => !f.isDeclaration).map Func.id) [] c

end Compilation

end KernelIR
