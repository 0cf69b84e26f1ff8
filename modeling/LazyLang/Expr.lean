import LazyLang.Token

/-!
# Expression trees

An expression is a literal, a name, an array or a call; operators are calls of the function named
after their symbol. Every node carries the source text it covers, its messages and an annotation:
nothing after parsing, the type after checking.
-/

namespace LazyLang

/-- What every node of a tree carries. -/
structure Node (α : Type) where
  span : Span
  messages : List Message
  info : α

/-- A node without messages. -/
def Node.plain (span : Span) : Node Unit := ⟨span, [], ()⟩

/-- An expression whose nodes are annotated with `α`. An argument of a call that is `none` is a
placeholder: its slot stays open. An unrecognized expression holds tokens that no rule accepts. -/
inductive Expr (α : Type) where
  | identifier (node : Node α) (name : String)
  | integer (node : Node α) (value : Int64)
  | float (node : Node α) (value : Float)
  | string (node : Node α) (value : String)
  | boolean (node : Node α) (value : Bool)
  | array (node : Node α) (elements : List (Expr α))
  | call (node : Node α) (callee : Expr α) (args : List (Option (Expr α)))
  | none (node : Node α)
  | unrecognized (node : Node α) (tokens : List Token)

namespace Expr

variable {α : Type}

/-- What the node at the root carries. -/
def node : Expr α → Node α
  | identifier n _ | integer n _ | float n _ | string n _ | boolean n _ | array n _ | call n _ _
  | none n | unrecognized n _ => n

/-- The same expression with another node at the root. -/
def withNode (node : Node α) : Expr α → Expr α
  | identifier _ name => identifier node name
  | integer _ value => integer node value
  | float _ value => float node value
  | string _ value => string node value
  | boolean _ value => boolean node value
  | array _ elements => array node elements
  | call _ callee args => call node callee args
  | none _ => none node
  | unrecognized _ tokens => unrecognized node tokens

/-- The source text that the expression covers, without parentheses around it. -/
def span (e : Expr α) : Span := e.node.span

/-- The messages about this very node. -/
def messages (e : Expr α) : List Message := e.node.messages

/-- The annotation of the root. -/
def info (e : Expr α) : α := e.node.info

/-- The expression with more messages about its root. -/
def addMessages (messages : List Message) (e : Expr α) : Expr α :=
  e.withNode { e.node with messages := e.node.messages ++ messages }

/-- Whether the root holds tokens that no rule accepts. -/
def isUnrecognized : Expr α → Bool
  | unrecognized _ _ => true
  | _ => false

mutual

/-- The messages of all nodes, those of the parts before those of the whole. -/
def allMessages : Expr α → List Message
  | array node elements => elementMessages elements ++ node.messages
  | call node callee args => allMessages callee ++ argMessages args ++ node.messages
  | identifier node _ | integer node _ | float node _ | string node _ | boolean node _ | none node
  | unrecognized node _ => node.messages

/-- The messages of the elements of an array. -/
def elementMessages : List (Expr α) → List Message
  | [] => []
  | e :: rest => allMessages e ++ elementMessages rest

/-- The messages of the arguments of a call. -/
def argMessages : List (Option (Expr α)) → List Message
  | [] => []
  | Option.none :: rest => argMessages rest
  | some e :: rest => allMessages e ++ argMessages rest

end

/-- The tokens, out of all those of the text, that lie inside the span of the expression. -/
def consumedTokens (tokens : List Token) (e : Expr α) : List Token :=
  tokens.filter fun t => e.span.covers t.span

@[simp] theorem node_withNode (node : Node α) (e : Expr α) : (e.withNode node).node = node := by
  cases e <;> rfl

@[simp] theorem messages_addMessages (messages : List Message) (e : Expr α) :
    (e.addMessages messages).messages = e.messages ++ messages := by
  simp [addMessages, Expr.messages]

@[simp] theorem span_addMessages (messages : List Message) (e : Expr α) :
    (e.addMessages messages).span = e.span := by
  simp [addMessages, span]

end Expr

end LazyLang
