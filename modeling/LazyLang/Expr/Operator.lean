import LazyLang.Token

/-!
# Operators

What may follow an operand: a binary operator, the arguments of a call or an index. Each binds with
a precedence, and of two operators of the same precedence the right one binds first when they
associate to the right.
-/

namespace LazyLang

/-- How an operator takes what follows it. -/
inductive OperatorForm where
  | call
  | access
  | binary
  deriving DecidableEq

/-- An operator: the name of its function, how tightly it binds and to which side it associates. -/
structure Operator where
  symbol : String
  precedence : Nat
  toRight : Bool
  form : OperatorForm
  deriving DecidableEq

namespace Operator

/-- The precedence that the operand of a minus sign is read at. -/
def unaryPrecedence : Nat := 12

/-- The operator that a token begins. -/
def ofKind? : TokenKind → Option Operator
  | .openParen => some ⟨"()", 99, false, .call⟩
  | .openBracket => some ⟨"[]", 13, true, .access⟩
  | .dot => some ⟨".", 13, true, .binary⟩
  | .ampersand => some ⟨"&", 13, true, .binary⟩
  | .doubleStar => some ⟨"**", 11, true, .binary⟩
  | .star => some ⟨"*", 10, false, .binary⟩
  | .slash => some ⟨"/", 10, false, .binary⟩
  | .percent => some ⟨"%", 10, false, .binary⟩
  | .plus => some ⟨"+", 9, false, .binary⟩
  | .minus => some ⟨"-", 9, false, .binary⟩
  | .lessThan => some ⟨"<", 7, false, .binary⟩
  | .lessEquals => some ⟨"<=", 7, false, .binary⟩
  | .greaterThan => some ⟨">", 7, false, .binary⟩
  | .greaterEquals => some ⟨">=", 7, false, .binary⟩
  | .equals => some ⟨"=", 6, false, .binary⟩
  | .notEquals => some ⟨"!=", 6, false, .binary⟩
  | .dotDot => some ⟨"..", 6, false, .binary⟩
  | .inWord => some ⟨"in", 5, true, .binary⟩
  | _ => none

/-- Whether the operator goes on with an operand that was read at the precedence `floor`: it binds
tighter, or as tightly and to the right. -/
def bindsOver (op : Operator) (floor : Nat) : Bool :=
  op.precedence > floor || (op.precedence = floor && op.toRight)

end Operator

/-- Whether an expression may begin with a token of this kind. -/
def TokenKind.startsExpression : TokenKind → Bool
  | .identifier | .integer | .float | .string | .trueWord | .falseWord | .noneWord | .openParen
  | .openBracket | .minus => true
  | _ => false

end LazyLang
