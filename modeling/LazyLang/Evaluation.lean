import LazyLang.Evaluation.Builtins

/-!
# Evaluation

Forcing a lazy value runs its computation once and keeps the outcome; a value that is forced while
its computation runs depends on itself. Forcing, moving traversals on and applying functions call on
each other, so they are tied together by fuel: each step hands one unit less to the runner below it.
With enough fuel the outcome does not depend on it.
-/

namespace LazyLang

/-- Applies what should be a function. -/
def Runner.applyValue (R : Runner) (callee : Value) (args : List (Option Ref)) : Eval Value := do
  R.apply (← callee.toFunction) args

/-- Runs a deferred computation. -/
def Thunk.run (R : Runner) : Thunk → Eval Value
  | apply callee args => do R.applyValue (← R.force callee) args
  | call f args => R.call f args
  | forward tag target => do
    match tag with
    | some tag => ExceptT.lift (Run.note (.forced tag))
    | none => pure ()
    R.force target

/-- Forces a lazy value: its outcome, once it is there, is never computed again. -/
def Runner.forceCell (R : Runner) (r : Ref) : Eval Value := do
  match (← get).cell r with
  | .done outcome => outcome
  | .forcing => throw .cyclicEvaluation
  | .pending thunk =>
    ExceptT.lift (Run.set r .forcing)
    let outcome ← ExceptT.lift (thunk.run R).run
    ExceptT.lift (Run.set r (.done outcome))
    outcome

namespace Runner

mutual

/-- Forcing with the given fuel. -/
def forceWith : Nat → Ref → Eval Value
  | 0, _ => ExceptT.lift Run.outOfFuel
  | fuel + 1, r =>
    forceCell ⟨fuel, fun r => forceWith fuel r, fun t => nextWith fuel t,
      fun f args => applyWith fuel f args⟩ r

/-- Moving a traversal on with the given fuel. -/
def nextWith : Nat → Traversal → Run (Option Item × Traversal)
  | 0, _ => Run.outOfFuel
  | fuel + 1, t =>
    t.step ⟨fuel, fun r => forceWith fuel r, fun t => nextWith fuel t,
      fun f args => applyWith fuel f args⟩

/-- Applying a function with the given fuel. -/
def applyWith : Nat → Function → List (Option Ref) → Eval Value
  | 0, _, _ => ExceptT.lift Run.outOfFuel
  | fuel + 1, f, args =>
    applyFunction ⟨fuel, fun r => forceWith fuel r, fun t => nextWith fuel t,
      fun f args => applyWith fuel f args⟩ f args

end

/-- The runner with the given fuel. -/
def ofFuel (fuel : Nat) : Runner := ⟨fuel, forceWith fuel, nextWith fuel, applyWith fuel⟩

theorem ofFuel_succ_force (fuel : Nat) : (ofFuel (fuel + 1)).force = (ofFuel fuel).forceCell := rfl

theorem ofFuel_succ_next (fuel : Nat) : (ofFuel (fuel + 1)).next = Traversal.step (ofFuel fuel) :=
  rfl

theorem ofFuel_succ_apply (fuel : Nat) : (ofFuel (fuel + 1)).apply = (ofFuel fuel).applyFunction :=
  rfl

end Runner

end LazyLang
