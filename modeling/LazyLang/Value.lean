import LazyLang.Builtin
import LazyLang.Decimal.Text
import LazyLang.RuntimeError
import LazyLang.Text.Quoted
import LazyLang.Typing

/-!
# Values

What an expression evaluates to. Arguments and elements are references to lazy values in a store, so
a value is a finite description: a function is its body with the arguments it has so far, and an
array is a recipe by which its elements are produced anew on every traversal.
-/

namespace LazyLang

/-- The address of a lazy value. -/
structure Ref where
  index : Nat
  deriving DecidableEq

/-- The lazy values of the names in scope. -/
abbrev ValueScope := Layers Ref

/-- What a traversal of an array meets: an element, or a failure in place of one. -/
abbrev Item := Except RuntimeError Ref

/-- What a function of the host does with its arguments. -/
inductive HostAction where
  | first
  | last
  | list
  | sum
  | truthy
  | constant (value : Ref)
  | fail

/-- A function with the arguments it has so far. Each parameter is a slot, and an open slot is
`none`. A pipeline gives the result of one function to another, and a flipped function takes its two
arguments in the other order. -/
inductive Function where
  | builtin (body : Builtin) (slots : List (Option Ref))
  | pipeline (name : String) (inner outer : Function) (slots : List (Option Ref))
  | flipped (inner : Function) (slots : List (Option Ref))
  | host (name : String) (action : HostAction) (slots : List (Option Ref))

/-- The recipe for the elements of an array. A watched array notes every traversal under its tag. -/
inductive Sequence where
  | values (items : List Ref)
  | literal (scope : ValueScope) (elements : List TypedExpr)
  | integers (first stop : Int)
  | repeated (item : Ref)
  | iterate (step : Function) (seed : Ref)
  | drop (count : Nat) (source : Sequence)
  | take (count : Nat) (source : Sequence)
  | stepped (step : Nat) (source : Sequence)
  | reverse (source : Sequence)
  | selection (start stop : Option Int) (step : Int) (source : Sequence)
  | concat (first second : Sequence)
  | map (f : Function) (source : Sequence)
  | filter (predicate : Function) (source : Sequence)
  | zipWith (f : Function) (left right : Sequence)
  | watched (tag : String) (items : List Item)

/-- A value. -/
inductive Value where
  | string (value : String)
  | integer (value : Int64)
  | float (value : Float)
  | boolean (value : Bool)
  | none
  | array (items : Sequence)
  | function (f : Function)

namespace Function

/-- The name of a function. -/
def name : Function → String
  | builtin body _ => body.name
  | pipeline name _ _ _ => name
  | flipped _ _ => "flip"
  | host name _ _ => name

/-- The slots of a function. -/
def slots : Function → List (Option Ref)
  | builtin _ slots | pipeline _ _ _ slots | flipped _ slots | host _ _ slots => slots

/-- The same function with other arguments. -/
def withSlots (slots : List (Option Ref)) : Function → Function
  | builtin body _ => builtin body slots
  | pipeline name inner outer _ => pipeline name inner outer slots
  | flipped inner _ => flipped inner slots
  | host name action _ => host name action slots

/-- A built-in function without arguments. -/
def ofBuiltin (body : Builtin) (arity : Nat) : Function :=
  builtin body (List.replicate arity none)

/-- A function of the host without arguments. -/
def ofHost (name : String) (arity : Nat) (action : HostAction) : Function :=
  host name action (List.replicate arity none)

/-- The number of slots that are still open. -/
def openSlots (f : Function) : Nat := f.slots.countP Option.isNone

/-- Puts arguments into the open slots from left to right; a placeholder leaves its slot open. -/
def fillSlots : List (Option Ref) → List (Option Ref) → List (Option Ref)
  | slots, [] => slots
  | [], _ => []
  | some x :: slots, args => some x :: fillSlots slots args
  | none :: slots, arg :: args => arg :: fillSlots slots args

/-- The arguments, once every slot holds one. -/
def allFilled : List (Option Ref) → Option (List Ref)
  | [] => some []
  | none :: _ => none
  | some x :: slots => (allFilled slots).map (x :: ·)

/-- What supplying arguments to a function gives: a function of the open slots, or all the arguments
that its body needs. -/
inductive Supplied where
  | awaiting (f : Function)
  | complete (args : List Ref)

/-- Supplies arguments, of which there may be no more than open slots. -/
def supply (f : Function) (args : List (Option Ref)) : Except RuntimeError Supplied :=
  if args.length > f.openSlots then .error (.tooManyArguments f.name f.openSlots args.length)
  else
    let slots := fillSlots f.slots args
    match allFilled slots with
    | some refs => .ok (.complete refs)
    | none => .ok (.awaiting (f.withSlots slots))

/-- A function with its name and the number of its open slots. -/
def describe (f : Function) : String :=
  "Function \x7b name: " ++ Text.Quoted.encode f.name ++ ", open: " ++ toString f.openSlots ++
    " \x7d"

end Function

namespace Value

/-- The kind of value, in words. -/
def typeName : Value → String
  | string _ => "String"
  | integer _ => "Integer"
  | float _ => "Float"
  | boolean _ => "Boolean"
  | none => "None"
  | array _ => "Array"
  | function _ => "Function"

/-- The failure of an operation that found another kind of value than it expected. -/
def mismatch (operation expected : String) (found : Value) : RuntimeError :=
  .invalidArgument operation ("expected " ++ expected ++ ", found " ++ found.typeName)

/-- Booleans as they are, and numbers when they are not zero. -/
def truthy (operation : String) : Value → Except RuntimeError Bool
  | boolean b => .ok b
  | integer i => .ok (i != 0)
  | float x => .ok (x != 0)
  | other => .error (mismatch operation "Boolean" other)

/-- A number as a float. -/
def toFloat (operation : String) : Value → Except RuntimeError Float
  | integer i => .ok i.toFloat
  | float x => .ok x
  | other => .error (mismatch operation "a number" other)

/-- An integer. -/
def toInteger (operation : String) : Value → Except RuntimeError Int64
  | integer i => .ok i
  | other => .error (mismatch operation "Integer" other)

/-- A string. -/
def toText (operation : String) : Value → Except RuntimeError String
  | string s => .ok s
  | other => .error (mismatch operation "String" other)

/-- The elements of an array. -/
def toSequence (operation : String) : Value → Except RuntimeError Sequence
  | array items => .ok items
  | other => .error (mismatch operation "Array" other)

/-- A function. -/
def toFunction : Value → Except RuntimeError Function
  | function f => .ok f
  | other => .error (.notAFunction other.typeName)

/-- A value in short, without its elements. -/
def describe : Value → String
  | string s => "String(" ++ Text.Quoted.encode s ++ ")"
  | integer i => "Integer(" ++ toString i.toInt ++ ")"
  | float x => "Float(" ++ Decimal.text .plain x ++ ")"
  | boolean b => "Boolean(" ++ (if b then "true" else "false") ++ ")"
  | none => "None"
  | array _ => "Array(..)"
  | function f => "Function(" ++ f.name ++ ")"

end Value

end LazyLang
