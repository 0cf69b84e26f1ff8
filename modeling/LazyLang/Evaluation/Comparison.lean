import LazyLang.Evaluation.Traversal
import LazyLang.Value.Arithmetic

/-!
# Equality and text of values

Both go through arrays element by element and force every element that they come to.
-/

namespace LazyLang.Runner

mutual

/-- Deep equality. Numbers are equal by value and arrays element by element; functions cannot be
compared. -/
def equalValues (R : Runner) : Nat → Value → Value → Eval Bool
  | 0, _, _ => ExceptT.lift Run.outOfFuel
  | fuel + 1, a, b =>
    match a, b with
    | .integer x, .integer y => pure (x == y)
    | .integer x, .float y => pure (x.toFloat == y)
    | .float x, .integer y => pure (x == y.toFloat)
    | .float x, .float y => pure (x == y)
    | .string x, .string y => pure (x == y)
    | .boolean x, .boolean y => pure (x == y)
    | .none, .none => pure true
    | .array xs, .array ys => do
      let left ← ExceptT.lift (xs.traverse R)
      let right ← ExceptT.lift (ys.traverse R)
      equalItems R fuel left right
    | .function _, _ | _, .function _ =>
      throw (.invalidArgument "=" "functions cannot be compared")
    | _, _ => pure false

/-- Equality of what is left of two arrays. -/
def equalItems (R : Runner) : Nat → Traversal → Traversal → Eval Bool
  | 0, _, _ => ExceptT.lift Run.outOfFuel
  | fuel + 1, left, right => do
    let (x, left) ← ExceptT.lift (R.next left)
    let (y, right) ← ExceptT.lift (R.next right)
    match x, y with
    | none, none => pure true
    | some x, some y =>
      let a ← R.force (← x)
      let b ← R.force (← y)
      if ← equalValues R fuel a b then equalItems R fuel left right else pure false
    | _, _ => pure false

end

/-- Deep equality. -/
def equal (R : Runner) (a b : Value) : Eval Bool := equalValues R R.fuel a b

/-- The text of a value. Strings inside arrays are quoted. -/
def renderValue (R : Runner) : Nat → Bool → Value → Eval String
  | 0, _, _ => ExceptT.lift Run.outOfFuel
  | fuel + 1, nested, v =>
    match v with
    | .string s => pure (if nested then Text.Quoted.encode s else s)
    | .integer i => pure (toString i.toInt)
    | .float x => pure (Decimal.text .literal x)
    | .boolean b => pure (if b then "true" else "false")
    | .none => pure "none"
    | .function f => pure ("<function " ++ f.name ++ ">")
    | .array s => do
      let texts ← R.fold s [] fun texts item => do
        let text ← renderValue R fuel true (← R.force (← item))
        return .yield (text :: texts)
      return "[" ++ ", ".intercalate texts.reverse ++ "]"

/-- The text of a value. -/
def render (R : Runner) (v : Value) : Eval String := renderValue R R.fuel false v

end LazyLang.Runner
