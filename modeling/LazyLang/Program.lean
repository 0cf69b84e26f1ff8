import LazyLang.Evaluation.Plain
import LazyLang.Expr.Parser
import LazyLang.Library
import LazyLang.Token.Lexer

/-!
# Programs

A program is a source text of one expression. It is compiled against the types of a scope: cut into
tokens, read, and typed. It compiles when no message is an error and its type is known. Evaluation
suspends the expression in a scope of values, forces it and strips the result; whatever fails there
becomes a message about the whole program.
-/

namespace LazyLang

/-- What compiling a program gives. There is no expression when the text cannot be cut into
tokens. -/
structure Compilation where
  messages : List Message
  tokens : List Token
  expression : Option TypedExpr
  compiled : Bool

/-- What evaluating a program gives. -/
structure Evaluated where
  messages : List Message
  result : Option Plain
  evaluated : Bool

/-- What compiling and evaluating a program gives. -/
structure Execution where
  messages : List Message
  result : Option Plain
  compiled : Bool
  evaluated : Bool

/-- Compiles a source text against the types in scope. -/
def compile (source : String) (scope : TypeScope) : Compilation :=
  match Token.tokenize source with
  | .error message => ⟨[message], [], none, false⟩
  | .ok tokens =>
    let expression := (Tree.ofTokens tokens).typed scope
    let messages := expression.allMessages
    ⟨messages, tokens, some expression, !Message.hasErrors messages && expression.info.isSome⟩

namespace Runner

/-- Forces and strips a lazy value. -/
def stripRef (R : Runner) (limit : Option Nat) (r : Ref) : Eval (Option Plain) := do
  R.strip limit (← R.force r)

/-- Evaluates an expression to its plain result. -/
def evaluate (R : Runner) (e : TypedExpr) (scope : ValueScope) (limit : Option Nat) :
    Run Evaluated := do
  let r ← Run.update (e.suspend scope)
  match ← (R.stripRef limit r).run with
  | .ok (some plain) => pure ⟨[], some plain, true⟩
  | .ok none =>
    pure ⟨[.error "Function values have no plain representation" e.span], none, false⟩
  | .error failure =>
    pure ⟨[.error ("Internal error: " ++ failure.message) e.span], none, false⟩

/-- Compiles a source text and, when that succeeds, evaluates it. -/
def execute (R : Runner) (source : String) (scope : Scope) (limit : Option Nat) :
    Run Execution := do
  let c := compile source scope.types
  match c.compiled, c.expression with
  | true, some e =>
    let outcome ← R.evaluate e scope.values limit
    pure ⟨c.messages ++ outcome.messages, outcome.result, true, outcome.evaluated⟩
  | _, _ => pure ⟨c.messages, none, false, false⟩

end Runner

end LazyLang
