import LazyLang.Expr.Parser

/-!
# Reading with a cursor

The rules of `LazyLang.Expr.Parser` once more, as steps over a token list with a position that they
move and that a rule which gives up has to put back. Nothing in them says that they end: the rules
and the loops that may go on for as long as they please are `Rules`, which call on those made with
less fuel and have no result without any. `LazyLang.Proofs.Grammar.Progress` shows that they end
with enough of it, and read what the functions on lists read.
-/

namespace LazyLang

/-- A position in a list of tokens. -/
structure Cursor where
  tokens : List Token
  index : Nat

/-- A step that may move the cursor. It has no result if it runs out of fuel. -/
abbrev Moving := StateT Cursor Option

/-- What a rule reads, or why it does not apply. -/
abbrev Reading (α : Type) := Except Unexpected α

namespace Cursor

/-- The token at the position. -/
def peek? : Moving (Option Token) := fun c => some (c.tokens[c.index]?, c)

/-- The last token before the position. -/
def previous? : Moving (Option Token) := fun c =>
  some (if c.index = 0 then none else c.tokens[c.index - 1]?, c)

/-- Moves over the next token, if there is one. -/
def advance : Moving (Option Token) := fun c =>
  match c.tokens[c.index]? with
  | some t => some (some t, { c with index := c.index + 1 })
  | none => some (none, c)

def position : Moving Nat := fun c => some (c.index, c)

def restore (index : Nat) : Moving Unit := fun c => some ((), { c with index })

/-- Moves over the next token if it is of the kind. -/
def takeIf (kind : TokenKind) : Moving (Option Token) := do
  if (← peek?).any (·.kind = kind) then advance else return none

section Combinators

variable {α : Type}

/-- The first rule, or the second one from where the first one began. -/
def orElse (p q : Moving (Reading α)) : Moving (Reading α) := do
  let start ← position
  match ← p with
  | .ok a => return .ok a
  | .error _ =>
    restore start
    q

/-- The rule, under a name for what it expects. -/
def label (name : String) (p : Moving (Reading α)) : Moving (Reading α) := do
  let start ← position
  match ← p with
  | .ok a => return .ok a
  | .error _ =>
    restore start
    return .error ⟨name, ← peek?⟩

/-- The rule, if it applies. -/
def optional (p : Moving (Reading α)) : Moving (Option α) := do
  let start ← position
  match ← p with
  | .ok a => return some a
  | .error _ =>
    restore start
    return none

end Combinators

/-- The next token, if the rule accepts it. -/
def expect (rule : TokenRule) : Moving (Reading Token) := do
  let next ← peek?
  match next.filter (rule.accepts ·.kind) with
  | some t =>
    let _ ← advance
    return .ok t
  | none => return .error ⟨rule.expected, next⟩

/-- The literal or name that the next token is, if the rule accepts it. -/
def leaf (rule : TokenRule) : Moving (Reading Tree) := do
  let next ← peek?
  match (next.filter (rule.accepts ·.kind)).bind Tree.ofToken? with
  | some tree =>
    let _ ← advance
    return .ok tree
  | none => return .error ⟨rule.expected, next⟩

def literal : Moving (Reading Tree) :=
  label "expression" <|
    orElse (orElse (orElse (orElse (orElse (leaf .string) (leaf .float)) (leaf .integer))
      (leaf .boolean)) (leaf .none)) (leaf .identifier)

/-- The expression after the parenthesis `opening`, which is closed or gets a message. -/
def closing (opening : Token) (inner : Tree) : Moving Tree := do
  match ← takeIf .closeParen with
  | some _ => return inner
  | none =>
    return inner.addMessages [.error "Missing closing ')'" (opening.span.merge inner.span)]

/-- A placeholder, where the list may have one. -/
def placeholder? (form : ListForm) : Moving (Option Token) :=
  if form.placeholders then optional (expect .underscore) else return none

/-- The variables of the loop over a list: what has been read, the last token, whether an item is
due and the last separator as long as it is neither reported nor followed by an item. -/
structure ListState where
  items : List (Option Tree)
  separators : Nat
  messages : List Message
  stop : Token
  expecting : Bool
  dangling : Option Span

namespace ListState

def start (opening : Token) : ListState := ⟨[], 0, [], opening, true, none⟩

/-- The closing token is missing. -/
def unclosed (form : ListForm) (opening : Token) (st : ListState) : ListState :=
  { st with
    messages := st.messages ++ [.error ("Missing closing '" ++ form.closing ++ "'")
      (opening.span.merge st.stop.span)] }

/-- After the closing token `t`. -/
def closed (form : ListForm) (t : Token) (st : ListState) : ListState :=
  if st.expecting && st.separators > 0 then
    if form.mayOmit then { st with items := st.items ++ [none], stop := t }
    else
      { st with
        messages := st.messages ++ st.dangling.toList.map (Message.error "Unexpected separator" ·)
        dangling := none
        stop := t }
  else { st with stop := t }

/-- After the separator `t`. -/
def separated (form : ListForm) (t : Token) (st : ListState) : ListState :=
  { st with
    items := if st.expecting && form.mayOmit then st.items ++ [none] else st.items
    messages :=
      if st.expecting && !form.mayOmit then
        st.messages ++ [.error "Unexpected separator" t.span]
      else st.messages
    dangling := if st.expecting then none else some t.span
    separators := st.separators + 1
    expecting := true
    stop := t }

/-- After an item that begins with `t`. -/
def followed (t : Token) (item : Option Tree) (previous : Option Token) (st : ListState) :
    ListState :=
  { st with
    messages :=
      if st.expecting then st.messages
      else st.messages ++ [.error "Missing separator between items" t.span]
    stop := previous.getD st.stop
    items := st.items ++ [item]
    expecting := false
    dangling := none }

theorem nothing_left : ([] : List Token).length ≤ ([] : List Token).length := Nat.le_refl _

/-- What has been read, as a list with nothing left to read. -/
def listed (st : ListState) : Listed [] :=
  ⟨st.items, st.separators, st.messages, st.stop, [], nothing_left⟩

end ListState

/-- What one turn of a loop leaves: another turn, or the end. -/
inductive Turn (α : Type) where
  | again (state : α)
  | done (state : α)

/-- The rules and the loops that a step can call on: an expression over a floor, the operators after
an operand, the items of a list whose opening token has been read, and the tokens and the pieces
that are collected after those read before. -/
structure Rules where
  expression : Nat → Moving (Reading Tree)
  operators : Nat → Tree → Moving Tree
  listItems : ListForm → Token → ListState → Moving (Listed [])
  runTokens : List Token → Moving (List Token)
  pieces : List Tree → Moving (List Tree)

namespace Rules

variable (R : Rules)

def parenthesized : Moving (Reading Tree) := do
  let start ← position
  match ← expect .openParen with
  | .error e => return .error e
  | .ok opening =>
    match ← takeIf .closeParen with
    | some t =>
      return .ok (Tree.unrecognizedTokens [opening, t] (opening.span.merge t.span)
        "Empty parentheses")
    | none =>
      match ← R.expression 0 with
      | .error e =>
        restore start
        return .error e
      | .ok inner => return .ok (← closing opening inner)

def array : Moving (Reading Tree) := do
  match ← expect .openBracket with
  | .error e => return .error e
  | .ok opening =>
    let list ← R.listItems .elements opening (.start opening)
    return .ok (.array ⟨opening.span.merge list.last.span, list.messages, ()⟩
      (list.items.filterMap id))

def negation : Moving (Reading Tree) := do
  match ← expect .minus with
  | .error e => return .error e
  | .ok minus =>
    let start ← position
    match ← R.expression Operator.unaryPrecedence with
    | .ok tree => return .ok (Tree.negationOf minus.span tree)
    | .error _ =>
      restore start
      return .ok (Tree.unrecognizedTokens [minus] minus.span "Expected expression after '-'")

def operand : Moving (Reading Tree) := do
  match ← peek? with
  | some t =>
    match t.kind with
    | .openParen => R.parenthesized
    | .openBracket => R.array
    | .minus => R.negation
    | _ => literal
  | none => literal

def call (callee : Tree) : Moving Tree := do
  match ← advance with
  | none => return callee
  | some opening => return Tree.callOf callee (← R.listItems .arguments opening (.start opening))

def access (target : Tree) : Moving Tree := do
  match ← advance with
  | none => return target
  | some opening =>
    return Tree.accessOf target opening.span (← R.listItems .components opening (.start opening))

def binary (left : Tree) (op : Operator) : Moving Tree := do
  match ← advance with
  | none => return left
  | some t =>
    let start ← position
    match ← R.expression op.precedence with
    | .ok right => return Tree.binaryOf left op.symbol t.span right
    | .error _ =>
      restore start
      return Tree.halfOf left op.symbol t.span

def operation (left : Tree) (op : Operator) : Moving Tree :=
  match op.form with
  | .call => R.call left
  | .access => R.access left
  | .binary => R.binary left op

/-- One operator after `left`, if it binds over `floor`. -/
def extend (floor : Nat) (left : Tree) : Moving (Turn Tree) := do
  match (← peek?).bind (Operator.ofKind? ·.kind) with
  | some op =>
    if op.bindsOver floor then return .again (← R.operation left op) else return .done left
  | none => return .done left

/-- An item of a list: a placeholder, where the list has any, or an expression. -/
def listItem (form : ListForm) : Moving (Reading (Option Tree)) := do
  match ← placeholder? form with
  | some _ => return .ok none
  | none => return (← R.expression 0).map some

/-- One turn of the loop over a list: its end, a separator or an item. -/
def listTurn (form : ListForm) (opening : Token) (st : ListState) : Moving (Turn ListState) := do
  match ← peek? with
  | none => return .done (st.unclosed form opening)
  | some t =>
    if t.kind = form.close then
      let _ ← advance
      return .done (st.closed form t)
    else if t.kind = form.separator then
      let _ ← advance
      return .again (st.separated form t)
    else
      let start ← position
      match ← R.listItem form with
      | .ok item => return .again (st.followed t item (← previous?))
      | .error _ =>
        restore start
        return .done (st.unclosed form opening)

/-- A run of tokens with which no expression begins. -/
def unrecognizedRun : Moving Tree := do
  match ← R.runTokens [] with
  | [] => return Tree.unrecognizedTokens [] Span.origin "Unexpected end of input"
  | first :: more =>
    return Tree.unrecognizedTokens (first :: more)
      (first.span.merge (more.getLastD first).span) ("Unexpected " ++ first.describe)

/-- The rules that call on the given ones. -/
def next : Rules where
  expression floor := do
    let start ← position
    match ← R.operand with
    | .error e =>
      restore start
      return .error e
    | .ok left => return .ok (← R.operators floor left)
  operators floor left := do
    match ← R.extend floor left with
    | .again left => R.operators floor left
    | .done left => return left
  listItems form opening st := do
    match ← R.listTurn form opening st with
    | .again st => R.listItems form opening st
    | .done st => return st.listed
  runTokens before := do
    match ← advance with
    | none => return before
    | some t =>
      if (← peek?).any (·.kind.startsExpression) then return before ++ [t]
      else R.runTokens (before ++ [t])
  pieces before := do
    match ← peek? with
    | none => return before
    | some _ =>
      let start ← position
      match ← R.expression 0 with
      | .ok tree => R.pieces (before ++ [tree])
      | .error _ =>
        restore start
        R.pieces (before ++ [← R.unrecognizedRun])

/-- A program: its first piece, with messages about those after it. -/
def program : Moving Tree := do
  match ← R.pieces [] with
  | [] => return Tree.unrecognizedTokens [] Span.origin "Empty program"
  | root :: extras => return root.addMessages (extras.flatMap Tree.surplusMessages)

/-- Rules that have no result. -/
def exhausted : Rules where
  expression _ _ := none
  operators _ _ _ := none
  listItems _ _ _ _ := none
  runTokens _ _ := none
  pieces _ _ := none

/-- The rules with the given fuel. -/
def ofFuel : Nat → Rules
  | 0 => exhausted
  | fuel + 1 => (ofFuel fuel).next

end Rules

end Cursor

end LazyLang
