import LazyLang.Decimal.Text
import LazyLang.Expr
import LazyLang.Text.Quoted

/-!
# From expressions to source text

`render` writes an expression with parentheses around every operator and its operands, so that the
shape of the tree can be read off the text: `1 + 2 * 3` is written `(1 + (2 * 3))`. Calls of the
functions behind operators are written in operator form whenever they have as many arguments as the
operator has operands; all others are written as calls.
-/

namespace LazyLang.Expr

variable {α : Type}

/-- The names of the functions behind binary operators. -/
def binarySymbols : List String :=
  ["+", "-", "*", "/", "%", "**", "<", "<=", ">", ">=", "=", "!=", "..", "in", ".", "&"]

/-- An argument in writing: as an argument, and as a bound of a slice, where `none` is left out. A
placeholder is an argument that is not given. -/
structure ArgText where
  given : Bool
  text : String
  bound : String

namespace ArgText

/-- The text of a placeholder. -/
def placeholder : ArgText := ⟨false, "_", ""⟩

/-- The text of a given argument. -/
def ofText (e : Expr α) (text : String) : ArgText :=
  match e with
  | .none _ => ⟨true, text, ""⟩
  | _ => ⟨true, text, text⟩

end ArgText

/-- A call in the form of a call. -/
def plainCallText (callee : String) (args : List ArgText) : String :=
  callee ++ "(" ++ ", ".intercalate (args.map (·.text)) ++ ")"

/-- A call in the form that belongs to the function's name, if it is called by name. -/
def callText (symbol? : Option String) (callee : String) (args : List ArgText) : String :=
  match symbol?, args with
  | some symbol, [x] =>
    if symbol = "neg" && x.given then "(-" ++ x.text ++ ")" else plainCallText callee args
  | some symbol, [x, y] =>
    if x.given && y.given then
      if symbol ∈ binarySymbols then "(" ++ x.text ++ " " ++ symbol ++ " " ++ y.text ++ ")"
      else if symbol = "[]" then x.text ++ "[" ++ y.text ++ "]"
      else plainCallText callee args
    else plainCallText callee args
  | some symbol, [x, a, b, c] =>
    if symbol = "[:]" && x.given then
      x.text ++ "[" ++ a.bound ++ ":" ++ b.bound ++ ":" ++ c.bound ++ "]"
    else plainCallText callee args
  | _, _ => plainCallText callee args

/-- The name that an expression consists of. -/
def name? : Expr α → Option String
  | identifier _ name => some name
  | _ => Option.none

/-- Tokens that no rule accepts, in angle brackets. -/
def unrecognizedText (tokens : List Token) : String :=
  " ".intercalate ("<unrecognized" :: tokens.map (·.text)) ++ ">"

mutual

/-- The source text of an expression. -/
def render : Expr α → String
  | identifier _ name => name
  | integer _ value => toString value.toInt
  | float _ value => Decimal.text .literal value
  | string _ value => Text.Quoted.encode value
  | boolean _ value => if value then "true" else "false"
  | none _ => "none"
  | array _ elements => "[" ++ ", ".intercalate (renderElements elements) ++ "]"
  | call _ callee args => callText callee.name? (render callee) (renderArgs args)
  | unrecognized _ tokens => unrecognizedText tokens

/-- The source texts of the elements of an array. -/
def renderElements : List (Expr α) → List String
  | [] => []
  | e :: rest => render e :: renderElements rest

/-- The source texts of the arguments of a call. -/
def renderArgs : List (Option (Expr α)) → List ArgText
  | [] => []
  | Option.none :: rest => .placeholder :: renderArgs rest
  | some e :: rest => .ofText e (render e) :: renderArgs rest

end

end LazyLang.Expr
