/-!
# Failures of an evaluation

What a running program can meet that its types do not tell: a division by zero, an overflow, the
element of an empty array. The remaining kinds arise where a value is used outside its type.
-/

namespace LazyLang

/-- Why an evaluation failed. -/
inductive RuntimeError where
  | notAFunction (found : String)
  | tooManyArguments (name : String) (expected found : Nat)
  | divisionByZero
  | overflow (operation : String)
  | emptyArray (operation : String)
  | invalidArgument (operation detail : String)
  | unboundIdentifier (name : String)
  | unrecognized
  | cyclicEvaluation
  | limitExceeded (limit : Nat)
  deriving DecidableEq

/-- The failure in words. -/
def RuntimeError.message : RuntimeError → String
  | notAFunction found => "a value of type " ++ found ++ " is not a function"
  | tooManyArguments name expected found =>
    "too many arguments for '" ++ name ++ "': expected at most " ++ toString expected ++
      ", found " ++ toString found
  | divisionByZero => "division by zero"
  | overflow operation => "integer overflow in '" ++ operation ++ "'"
  | emptyArray operation => "'" ++ operation ++ "' of an empty array"
  | invalidArgument operation detail => "invalid argument for '" ++ operation ++ "': " ++ detail
  | unboundIdentifier name => "unbound identifier '" ++ name ++ "'"
  | unrecognized => "unrecognized expression"
  | cyclicEvaluation => "value depends on itself"
  | limitExceeded limit => "array has more than " ++ toString limit ++ " elements"

end LazyLang
