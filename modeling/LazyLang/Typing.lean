import LazyLang.Expr
import LazyLang.Layers
import LazyLang.Ty.Evidence

/-!
# Typing

`Expr.typed` annotates every node with its type. A defect becomes a message on the node that it
concerns, and a node whose type cannot be known is annotated with `none`; everything else is checked
all the same.

A call fills the parameters of its function from left to right, and a placeholder leaves its
parameter open. The arguments tell what the generic variables stand for; each is checked against its
parameter as declared and as known so far. With all parameters filled the call has the result type,
otherwise it is a function of the open ones.
-/

namespace LazyLang

/-- An expression with the type of every node that has one. -/
abbrev TypedExpr := Expr (Option Ty)

/-- The types of the names in scope. -/
abbrev TypeScope := Layers Ty

/-- What can be wrong with the types of a program. -/
inductive TypeError where
  | unresolvedIdentifier (name : String)
  | argumentMismatch (expected found : Ty)
  | tooManyArguments (expected found : Nat)
  | notAFunction (found : Ty)

namespace TypeError

/-- The error in words. -/
def render : TypeError → String
  | unresolvedIdentifier name => "Unresolved identifier '" ++ name ++ "'"
  | argumentMismatch expected found =>
    "Expected argument of type " ++ expected.pretty ++ ", found " ++ found.pretty
  | tooManyArguments expected found =>
    "Too many arguments: expected " ++ toString expected ++ ", found " ++ toString found
  | notAFunction found => "Cannot call a value of type " ++ found.pretty

/-- The message about the error. -/
def message (e : TypeError) (span : Span) : Message := .error e.render span

end TypeError

/-- The arguments of a call as they fit the parameters: with messages where they do not, the
parameters that stay open, and what the generic variables stand for. -/
structure Fitted where
  args : List (Option TypedExpr)
  remaining : List Ty
  evidence : Evidence

namespace Fitted

/-- What is known of the generic variables after an argument of type `found`. One that does not fit
its parameter tells nothing. -/
def learn (param found : Ty) (e : Evidence) : Evidence :=
  if param.isSubtype found then e.merge (.ofArgument param found) else e

/-- An argument of type `found` with a message if it does not fit, given what is known with it. -/
def checkArgument (param found : Ty) (e : Evidence) (arg : TypedExpr) : TypedExpr :=
  let specialized := e.substitute param
  if param.isSubtype found && specialized.isSubtype found then arg
  else arg.addMessages [TypeError.message (.argumentMismatch specialized found) arg.span]

/-- Fits the arguments to the parameters from left to right. -/
def fit : List Ty → List (Option TypedExpr) → Evidence → Fitted
  | params, [], e => ⟨[], params, e⟩
  | [], args, e => ⟨args, [], e⟩
  | param :: params, none :: args, e =>
    let rest := fit params args e
    ⟨none :: rest.args, param :: rest.remaining, rest.evidence⟩
  | param :: params, some arg :: args, e =>
    match arg.info with
    | none =>
      let rest := fit params args e
      ⟨some arg :: rest.args, rest.remaining, rest.evidence⟩
    | some found =>
      let known := learn param found e
      let rest := fit params args known
      ⟨some (checkArgument param found known arg) :: rest.args, rest.remaining, rest.evidence⟩

section Fit

variable {param found : Ty} {params : List Ty} {arg : TypedExpr} {args : List (Option TypedExpr)}
  {e : Evidence}

theorem fit_nil (params : List Ty) (e : Evidence) : fit params [] e = ⟨[], params, e⟩ := by
  cases params <;> rfl

/-- An argument without a type stays as it is and tells nothing. -/
theorem fit_untyped (h : arg.info = none) :
    fit (param :: params) (some arg :: args) e =
      ⟨some arg :: (fit params args e).args, (fit params args e).remaining,
        (fit params args e).evidence⟩ := by
  rw [fit, h]

/-- An argument with a type is checked against what is known with it, and so are the ones after
it. -/
theorem fit_typed (h : arg.info = some found) :
    fit (param :: params) (some arg :: args) e =
      ⟨some (checkArgument param found (learn param found e) arg) ::
          (fit params args (learn param found e)).args,
        (fit params args (learn param found e)).remaining,
        (fit params args (learn param found e)).evidence⟩ := by
  rw [fit, h]

end Fit

/-- The type of the call: the result, or a function of the parameters that stay open. -/
def resultType (f : Fitted) (result : Ty) : Ty :=
  match f.evidence.substituteEach f.remaining with
  | [] => f.evidence.substitute result
  | params => .function params (f.evidence.substitute result)

end Fitted

namespace Expr

/-- The type of an array with these elements; elements without a type tell nothing. -/
def arrayType (elements : List TypedExpr) : Ty :=
  match elements.filterMap (·.info) with
  | [] => .emptyArray
  | known => .array (Ty.unionOf known)

/-- A name with its type. -/
def typedIdentifier (scope : TypeScope) (node : Node Unit) (name : String) : TypedExpr :=
  match scope.get? name with
  | some type => .identifier ⟨node.span, node.messages, some type⟩ name
  | Option.none =>
    let message := TypeError.message (.unresolvedIdentifier name) node.span
    .identifier ⟨node.span, node.messages ++ [message], Option.none⟩ name

/-- A call of typed parts with its type. A function without a type has been reported already. -/
def typedCall (node : Node Unit) (callee : TypedExpr) (args : List (Option TypedExpr)) :
    TypedExpr :=
  match callee.info with
  | Option.none => .call ⟨node.span, node.messages, Option.none⟩ callee args
  | some (.function params result) =>
    let fitted := Fitted.fit params args []
    let surplus :=
      if args.length > params.length then
        [TypeError.message (.tooManyArguments params.length args.length) node.span]
      else []
    .call ⟨node.span, node.messages ++ surplus, some (fitted.resultType result)⟩ callee fitted.args
  | some other =>
    let message := TypeError.message (.notAFunction other) callee.span
    .call ⟨node.span, node.messages ++ [message], Option.none⟩ callee args

mutual

/-- The expression with the types of all its nodes. -/
def typed (scope : TypeScope) : Expr Unit → TypedExpr
  | identifier node name => typedIdentifier scope node name
  | integer node value => .integer ⟨node.span, node.messages, some .integer⟩ value
  | float node value => .float ⟨node.span, node.messages, some .float⟩ value
  | string node value => .string ⟨node.span, node.messages, some .string⟩ value
  | boolean node value => .boolean ⟨node.span, node.messages, some .boolean⟩ value
  | none node => .none ⟨node.span, node.messages, some .none⟩
  | unrecognized node tokens => .unrecognized ⟨node.span, node.messages, Option.none⟩ tokens
  | array node elements =>
    let elements := typedElements scope elements
    .array ⟨node.span, node.messages, some (arrayType elements)⟩ elements
  | call node callee args => typedCall node (typed scope callee) (typedArgs scope args)

/-- The elements of an array with their types. -/
def typedElements (scope : TypeScope) : List (Expr Unit) → List TypedExpr
  | [] => []
  | e :: rest => typed scope e :: typedElements scope rest

/-- The arguments of a call with their types. -/
def typedArgs (scope : TypeScope) : List (Option (Expr Unit)) → List (Option TypedExpr)
  | [] => []
  | Option.none :: rest => Option.none :: typedArgs scope rest
  | some e :: rest => some (typed scope e) :: typedArgs scope rest

end

end Expr

end LazyLang
