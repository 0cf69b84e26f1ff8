/-!
# The built-in functions

Operators are built-in functions like all others, named by their symbol.
-/

namespace LazyLang

/-- A built-in function. -/
inductive Builtin where
  | add
  | subtract
  | multiply
  | divide
  | remainder
  | power
  | negate
  | less
  | lessOrEqual
  | greater
  | greaterOrEqual
  | equal
  | notEqual
  | choose
  | not
  | and
  | or
  | inclusiveRange
  | range
  | count
  | repeated
  | iterate
  | contains
  | index
  | slice
  | length
  | head
  | tail
  | take
  | drop
  | reverse
  | concat
  | map
  | filter
  | fold
  | zipWith
  | sum
  | product
  | min
  | max
  | compose
  | pipe
  | identity
  | const
  | flip
  | sin
  | cos
  | tan
  | sqrt
  | exp
  | ln
  | abs
  | floor
  | ceil
  | round
  | join
  | upper
  | lower
  | string
  | lengthOf
  deriving DecidableEq

namespace Builtin

/-- The name by which programs call the function. -/
def name : Builtin → String
  | add => "+"
  | subtract => "-"
  | multiply => "*"
  | divide => "/"
  | remainder => "%"
  | power => "**"
  | negate => "neg"
  | less => "<"
  | lessOrEqual => "<="
  | greater => ">"
  | greaterOrEqual => ">="
  | equal => "="
  | notEqual => "!="
  | choose => "if"
  | not => "not"
  | and => "and"
  | or => "or"
  | inclusiveRange => ".."
  | range => "range"
  | count => "count"
  | repeated => "repeat"
  | iterate => "iterate"
  | contains => "in"
  | index => "[]"
  | slice => "[:]"
  | length => "length"
  | head => "head"
  | tail => "tail"
  | take => "take"
  | drop => "drop"
  | reverse => "reverse"
  | concat => "concat"
  | map => "map"
  | filter => "filter"
  | fold => "fold"
  | zipWith => "zip_with"
  | sum => "sum"
  | product => "product"
  | min => "min"
  | max => "max"
  | compose => "."
  | pipe => "&"
  | identity => "identity"
  | const => "const"
  | flip => "flip"
  | sin => "sin"
  | cos => "cos"
  | tan => "tan"
  | sqrt => "sqrt"
  | exp => "exp"
  | ln => "ln"
  | abs => "abs"
  | floor => "floor"
  | ceil => "ceil"
  | round => "round"
  | join => "join"
  | upper => "upper"
  | lower => "lower"
  | string => "string"
  | lengthOf => "length_of"

/-- Every built-in function, in the order of declaration. -/
def all : List Builtin := [
  add, subtract, multiply, divide, remainder, power, negate, less, lessOrEqual, greater,
  greaterOrEqual, equal, notEqual, choose, not, and, or, inclusiveRange, range, count, repeated,
  iterate, contains, index, slice, length, head, tail, take, drop, reverse, concat, map, filter,
  fold, zipWith, sum, product, min, max, compose, pipe, identity, const, flip, sin, cos, tan, sqrt,
  exp, ln, abs, floor, ceil, round, join, upper, lower, string, lengthOf]

end Builtin

end LazyLang
