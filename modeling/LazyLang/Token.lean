import LazyLang.Diagnostic

/-!
# Tokens

The kinds of token, in the order in which they are declared: of two kinds that match equally much
of a text the earlier wins, so that `true` is a word of its own and not an identifier.
-/

namespace LazyLang

/-- The kinds of token. -/
inductive TokenKind where
  | trueWord
  | falseWord
  | noneWord
  | inWord
  | underscore
  | identifier
  | float
  | integer
  | string
  | doubleStar
  | star
  | slash
  | percent
  | plus
  | minus
  | lessEquals
  | lessThan
  | greaterEquals
  | greaterThan
  | notEquals
  | equals
  | dotDot
  | dot
  | ampersand
  | comma
  | colon
  | openParen
  | closeParen
  | openBracket
  | closeBracket
  deriving DecidableEq

namespace TokenKind

/-- Every kind, in the order of declaration. -/
def all : List TokenKind := [
  trueWord, falseWord, noneWord, inWord, underscore, identifier, float, integer, string, doubleStar,
  star, slash, percent, plus, minus, lessEquals, lessThan, greaterEquals, greaterThan, notEquals,
  equals, dotDot, dot, ampersand, comma, colon, openParen, closeParen, openBracket, closeBracket]

/-- The one text of a kind, for the kinds that have only one. -/
def spelling? : TokenKind → Option String
  | trueWord => some "true"
  | falseWord => some "false"
  | noneWord => some "none"
  | inWord => some "in"
  | underscore => some "_"
  | identifier | float | integer | string => none
  | doubleStar => some "**"
  | star => some "*"
  | slash => some "/"
  | percent => some "%"
  | plus => some "+"
  | minus => some "-"
  | lessEquals => some "<="
  | lessThan => some "<"
  | greaterEquals => some ">="
  | greaterThan => some ">"
  | notEquals => some "!="
  | equals => some "="
  | dotDot => some ".."
  | dot => some "."
  | ampersand => some "&"
  | comma => some ","
  | colon => some ":"
  | openParen => some "("
  | closeParen => some ")"
  | openBracket => some "["
  | closeBracket => some "]"

end TokenKind

/-- A token: its kind, the text it was read from and where that text stands. -/
structure Token where
  kind : TokenKind
  text : String
  span : Span
  deriving DecidableEq

/-- A token in words, for messages. -/
def Token.describe (t : Token) : String :=
  match t.kind with
  | .identifier => "identifier '" ++ t.text ++ "'"
  | .float => "float '" ++ t.text ++ "'"
  | .integer => "integer '" ++ t.text ++ "'"
  | .string => "string " ++ t.text
  | _ => "'" ++ t.text ++ "'"

end LazyLang
