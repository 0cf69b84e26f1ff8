import LazyLang.Store

/-!
# The standard library

The built-in functions with their types, and two constants. The standard scope binds each to its
value; how many arguments a function takes is read off its type.
-/

namespace LazyLang

namespace Builtin

/-- The unbound variable that most types speak of. -/
def anyT : Ty := .generic "T"

/-- A second variable. -/
def anyU : Ty := .generic "U"

/-- A third variable. -/
def anyV : Ty := .generic "V"

/-- A variable that stands for a number. -/
def numeric : Ty := .constrained "T" .float

/-- The parameter types of a function. -/
def params : Builtin → List Ty
  | add | subtract | multiply | divide | remainder | power => [numeric, numeric]
  | negate | abs => [numeric]
  | less | lessOrEqual | greater | greaterOrEqual => [.float, .float]
  | equal | notEqual => [anyT, anyT]
  | choose => [.boolean, anyT, anyT]
  | not => [.boolean]
  | and | or => [.boolean, .boolean]
  | inclusiveRange | range => [.integer, .integer]
  | count => [.integer]
  | repeated | identity | string => [anyT]
  | iterate => [.function [anyT] anyT, anyT]
  | contains => [anyT, .array anyT]
  | index => [.array anyT, .integer]
  | slice =>
    let bound := Ty.unionOf [.integer, .none]
    [.array anyT, bound, bound, bound]
  | length | head | tail | reverse => [.array anyT]
  | take | drop => [.integer, .array anyT]
  | concat => [.array anyT, .array anyT]
  | map => [.function [anyT] anyU, .array anyT]
  | filter => [.function [anyT] .boolean, .array anyT]
  | fold => [.function [anyU, anyT] anyU, anyU, .array anyT]
  | zipWith => [.function [anyT, anyU] anyV, .array anyT, .array anyU]
  | sum | product | min | max => [.array numeric]
  | compose => [.function [anyU] anyV, .function [anyT] anyU]
  | pipe => [.function [anyT] anyU, .function [anyU] anyV]
  | const => [anyT, anyU]
  | flip => [.function [anyT, anyU] anyV]
  | sin | cos | tan | sqrt | exp | ln | floor | ceil | round => [.float]
  | join => [.string, .array .string]
  | upper | lower | lengthOf => [.string]

/-- The result type of a function. -/
def result : Builtin → Ty
  | add | subtract | multiply | divide | remainder | power | negate | abs => numeric
  | sum | product | min | max => numeric
  | less | lessOrEqual | greater | greaterOrEqual | equal | notEqual | not | and | or | contains =>
    .boolean
  | choose | identity | const => anyT
  | inclusiveRange | range | count => .array .integer
  | repeated | iterate | slice | tail | take | drop | reverse | concat | filter => .array anyT
  | index | head => Ty.unionOf [anyT, .none]
  | length | lengthOf | floor | ceil | round => .integer
  | map => .array anyU
  | fold => anyU
  | zipWith => .array anyV
  | compose | pipe => .function [anyT] anyV
  | flip => .function [anyU, anyT] anyV
  | sin | cos | tan | sqrt | exp | ln => .float
  | join | upper | lower | string => .string

/-- The type of a function. -/
def type (b : Builtin) : Ty := .function b.params b.result

/-- The function as a value. -/
def value (b : Builtin) : Value := .function (.ofBuiltin b b.params.length)

end Builtin

/-- A named value with its type. -/
structure Entry where
  name : String
  type : Ty
  value : Value

namespace Library

/-- The ratio of a circle's circumference to its diameter. -/
def pi : Entry := ⟨"pi", .float, .float 3.141592653589793⟩

/-- The base of the natural logarithm. -/
def e : Entry := ⟨"e", .float, .float 2.718281828459045⟩

/-- A built-in function as an entry. -/
def ofBuiltin (b : Builtin) : Entry := ⟨b.name, b.type, b.value⟩

/-- All entries of the standard library. -/
def standard : List Entry := Builtin.all.map ofBuiltin ++ [pi, e]

/-- The entry of a name. -/
def find? (name : String) : Option Entry := standard.find? (·.name = name)

end Library

/-- What a name in scope is bound to: a type and a lazy value. -/
structure Binding where
  type : Ty
  value : Ref

/-- A scope that serves both the checking and the evaluation of programs. -/
abbrev Scope := Layers Binding

namespace Scope

/-- What the checker sees of a scope. -/
def types (scope : Scope) : TypeScope := scope.project Binding.type

/-- What the evaluation sees of a scope. -/
def values (scope : Scope) : ValueScope := scope.project Binding.value

/-- Puts the values of the entries into the store and binds their names to them. -/
def bindEntries : List Entry → Store → List (String × Binding) × Store
  | [], st => ([], st)
  | entry :: rest, st =>
    let (r, st) := st.addValue entry.value
    let (bindings, st) := bindEntries rest st
    ((entry.name, ⟨entry.type, r⟩) :: bindings, st)

/-- A scope of one layer with the given entries. -/
def ofEntries (entries : List Entry) (st : Store) : Scope × Store :=
  let (bindings, st) := bindEntries entries st
  ([bindings], st)

/-- The scope of the standard library. -/
def standard (st : Store) : Scope × Store := ofEntries Library.standard st

/-- The scope with one more known value on top. -/
def withValue (scope : Scope) (name : String) (type : Ty) (value : Value) (st : Store) :
    Scope × Store :=
  let (r, st) := st.addValue value
  (scope.extend [(name, ⟨type, r⟩)], st)

end Scope

end LazyLang
