import LazyLang.Decimal.Binary
import LazyLang.Expr
import LazyLang.Text.Quoted

/-!
# Expressions of one token

Names and literals. Each rule looks at the next token and accepts it or says what it expected
instead.
-/

namespace LazyLang

/-- An expression as the parser builds it, without annotations. -/
abbrev Tree := Expr Unit

/-- Why a rule does not apply: what it expected and which token, if any, it found. -/
structure Unexpected where
  expected : String
  found : Option Token

/-- The failure in words. -/
def Unexpected.message (u : Unexpected) : String :=
  "Expected " ++ u.expected ++ ", found " ++
    match u.found with
    | none => "end of input"
    | some t => t.describe

/-- The number that decimal digits denote; other characters are passed over. -/
def numberOfDigits (cs : List Char) : Nat :=
  cs.foldl (fun n c => if c.isDigit then 10 * n + (c.toNat - '0'.toNat) else n) 0

namespace Tree

/-- An integer literal. One too large for 64 bits reads as 0, with a message. -/
def ofInteger (t : Token) : Tree :=
  let n := numberOfDigits t.text.toList
  if n < Nat.pow 2 63 then .integer (Node.plain t.span) (Int64.ofNat n)
  else
    let message := Message.error ("Integer literal " ++ t.text ++ " is out of range") t.span
    .integer ⟨t.span, [message], ()⟩ 0

/-- A float literal: the nearest float to the decimal. -/
def ofFloat (t : Token) : Tree :=
  let places := (t.text.toList.dropWhile (· ≠ '.')).length - 1
  .float (Node.plain t.span) (Decimal.ofDigits (numberOfDigits t.text.toList) places)

/-- The expression that a single token is. -/
def ofToken? (t : Token) : Option Tree :=
  let node := Node.plain t.span
  match t.kind with
  | .string => some (.string node (Text.Quoted.decode t.text))
  | .float => some (ofFloat t)
  | .integer => some (ofInteger t)
  | .trueWord => some (.boolean node true)
  | .falseWord => some (.boolean node false)
  | .noneWord => some (.none node)
  | .identifier => some (.identifier node t.text)
  | _ => none

end Tree

/-- A rule for a single token: which kinds it accepts and how it is called in messages. -/
structure TokenRule where
  expected : String
  accepts : TokenKind → Bool

namespace TokenRule

/-- Accepts the next token or says that it is not the expected one. -/
def run (rule : TokenRule) : List Token → Except Unexpected Token
  | [] => .error ⟨rule.expected, none⟩
  | t :: _ => if rule.accepts t.kind then .ok t else .error ⟨rule.expected, some t⟩

/-- Any expression of one token. -/
def literal : TokenRule where
  expected := "expression"
  accepts
    | .string | .float | .integer | .trueWord | .falseWord | .noneWord | .identifier => true
    | _ => false

/-- A name. -/
def identifier : TokenRule := ⟨"identifier", (· = .identifier)⟩

/-- An integer literal. -/
def integer : TokenRule := ⟨"integer", (· = .integer)⟩

/-- A float literal. -/
def float : TokenRule := ⟨"float", (· = .float)⟩

/-- A number of either kind. -/
def number : TokenRule := ⟨"number", fun kind => kind = .integer || kind = .float⟩

/-- A string literal. -/
def string : TokenRule := ⟨"string", (· = .string)⟩

/-- `true` or `false`. -/
def boolean : TokenRule := ⟨"boolean", fun kind => kind = .trueWord || kind = .falseWord⟩

/-- The word `none`. -/
def none : TokenRule := ⟨"'none'", (· = .noneWord)⟩

/-- An opening parenthesis. -/
def openParen : TokenRule := ⟨"'('", (· = .openParen)⟩

/-- An opening bracket. -/
def openBracket : TokenRule := ⟨"'['", (· = .openBracket)⟩

/-- A minus sign. -/
def minus : TokenRule := ⟨"'-'", (· = .minus)⟩

/-- A placeholder. -/
def underscore : TokenRule := ⟨"'_'", (· = .underscore)⟩

end TokenRule

end LazyLang
