import LazyLang.Expr.Literal
import LazyLang.Expr.Operator

/-!
# From tokens to expressions

Operators are read by precedence: `expression` reads an operand and then, in `extend`, every
operator that binds over the precedence it was called at. A rule that fails has read nothing, and a
rule that succeeds has read at least one token, which the result carries as a proof; so every rule
ends.

Malformed text is read on from wherever possible: a missing operand, separator or closing token
becomes a message about the node at which it was noticed. `Tree.ofTokens` therefore never fails.
-/

namespace LazyLang

/-- An expression read from the front of `s`, with the last token read and the tokens left. -/
structure Taken (s : List Token) where
  tree : Tree
  last : Token
  rest : List Token
  shorter : rest.length < s.length

/-- The same reading, as one from more tokens. -/
def Taken.widen {s t : List Token} (r : Taken s) (h : s.length ≤ t.length) : Taken t :=
  ⟨r.tree, r.last, r.rest, Nat.lt_of_lt_of_le r.shorter h⟩

/-- An operand with all the operators read after it, of which there may be none. -/
structure Extended (s : List Token) where
  tree : Tree
  last : Token
  rest : List Token
  le : rest.length ≤ s.length

/-- The same reading, as one from more tokens. -/
def Extended.widen {s t : List Token} (r : Extended s) (h : s.length ≤ t.length) : Extended t :=
  ⟨r.tree, r.last, r.rest, Nat.le_trans r.le h⟩

/-- The items of a list up to its end, with the number of separators between them. An item that is
`none` is a placeholder or an omitted component. -/
structure Listed (s : List Token) where
  items : List (Option Tree)
  separators : Nat
  messages : List Message
  last : Token
  rest : List Token
  le : rest.length ≤ s.length

/-- The kinds of list: what separates and closes them and whether an item may be left out or be a
placeholder. -/
structure ListForm where
  separator : TokenKind
  close : TokenKind
  closing : String
  mayOmit : Bool
  placeholders : Bool

namespace ListForm

/-- The elements of an array. -/
def elements : ListForm := ⟨.comma, .closeBracket, "]", false, false⟩

/-- The arguments of a call. -/
def arguments : ListForm := ⟨.comma, .closeParen, ")", false, true⟩

/-- An index, or the components of a slice. -/
def components : ListForm := ⟨.colon, .closeBracket, "]", true, false⟩

end ListForm

/-- How far the reading of a list has come: whether an item is due, whether there has been a
separator, and the last separator as long as it is neither reported nor followed by an item. -/
structure ListProgress where
  due : Bool
  separated : Bool
  dangling : Option Span

namespace ListProgress

/-- Before the first item. -/
def start : ListProgress := ⟨true, false, none⟩

/-- After an item. -/
def afterItem (p : ListProgress) : ListProgress := ⟨false, p.separated, none⟩

/-- After a separator. -/
def afterSeparator (p : ListProgress) (span : Span) : ListProgress :=
  ⟨true, true, if p.due then none else some span⟩

end ListProgress

namespace Listed

/-- The list breaks off: its closing token is missing. -/
def unclosed (form : ListForm) (opening last : Token) (s : List Token) : Listed s where
  items := []
  separators := 0
  messages :=
    [.error ("Missing closing '" ++ form.closing ++ "'") (opening.span.merge last.span)]
  last := last
  rest := s
  le := Nat.le_refl _

/-- The list is closed by `t`. A separator right before it leaves an item out, or is one too
many. -/
def closed (form : ListForm) (p : ListProgress) (t : Token) (rest : List Token) :
    Listed (t :: rest) where
  items := if p.due && p.separated && form.mayOmit then [none] else []
  separators := 0
  messages :=
    if p.due && p.separated && !form.mayOmit then
      p.dangling.toList.map (Message.error "Unexpected separator" ·)
    else []
  last := t
  rest := rest
  le := Nat.le_succ _

/-- The list goes on after the separator `t`. -/
def afterSeparator (form : ListForm) (p : ListProgress) (t : Token) {rest : List Token}
    (r : Listed rest) : Listed (t :: rest) where
  items := if p.due && form.mayOmit then none :: r.items else r.items
  separators := r.separators + 1
  messages :=
    if p.due && !form.mayOmit then .error "Unexpected separator" t.span :: r.messages
    else r.messages
  last := r.last
  rest := r.rest
  le := Nat.le_succ_of_le r.le

/-- The list goes on after an item that begins with `t`. -/
def afterItem (p : ListProgress) (t : Token) (item : Option Tree) {s rest : List Token}
    (h : rest.length ≤ s.length) (r : Listed rest) : Listed s where
  items := item :: r.items
  separators := r.separators
  messages :=
    if p.due then r.messages
    else .error "Missing separator between items" t.span :: r.messages
  last := r.last
  rest := r.rest
  le := Nat.le_trans r.le h

end Listed

namespace Tree

/-- The call of the function that an operator stands for. -/
def operatorCall (symbol : String) (symbolSpan : Span) (args : List (Option Tree)) (span : Span) :
    Tree :=
  .call (Node.plain span) (.identifier (Node.plain symbolSpan) symbol) args

/-- Tokens that no rule accepts, with a message. -/
def unrecognizedTokens (tokens : List Token) (span : Span) (text : String) : Tree :=
  .unrecognized ⟨span, [.error text span], ()⟩ tokens

/-- The call of `callee` with a list of arguments. -/
def callOf (callee : Tree) {s : List Token} (list : Listed s) : Tree :=
  .call ⟨callee.span.merge list.last.span, list.messages, ()⟩ callee list.items

/-- The components of a slice: exactly three, those left out being `none` at the bracket. -/
def sliceComponents (bracket : Span) (items : List (Option Tree)) : List (Option Tree) :=
  let three := items.take 3
  (three ++ List.replicate (3 - three.length) none).map fun item =>
    some (Option.getD item (.none (Node.plain bracket)))

/-- The element or the slice of `target` that a list in brackets selects. -/
def accessOf (target : Tree) (bracket : Span) {s : List Token} (list : Listed s) : Tree :=
  let span := target.span.merge list.last.span
  if list.separators = 0 then
    match list.items.findSome? id with
    | some index =>
      (operatorCall "[]" bracket [some target, some index] span).addMessages list.messages
    | none =>
      (operatorCall "[]" bracket [some target] span).addMessages
        (list.messages ++ [.error "Expected expression after '['" bracket])
  else
    let surplus :=
      if list.items.length > 3 then [Message.error "Too many slice components" span] else []
    (operatorCall "[:]" bracket (some target :: sliceComponents bracket list.items)
      span).addMessages (list.messages ++ surplus)

/-- A binary operator with both operands. -/
def binaryOf (left : Tree) (symbol : String) (symbolSpan : Span) (right : Tree) : Tree :=
  operatorCall symbol symbolSpan [some left, some right] (left.span.merge right.span)

/-- A binary operator whose right operand is missing. -/
def halfOf (left : Tree) (symbol : String) (symbolSpan : Span) : Tree :=
  (operatorCall symbol symbolSpan [some left] (left.span.merge symbolSpan)).addMessages
    [.error ("Expected expression after '" ++ symbol ++ "'") symbolSpan]

/-- A minus sign with its operand. -/
def negationOf (minus : Span) (operand : Tree) : Tree :=
  operatorCall "neg" minus [some operand] (minus.merge operand.span)

/-- The expression after a parenthesis that is not closed. -/
def unclosedParenthesis (opening : Token) {s : List Token} (inner : Taken s) :
    Taken (opening :: s) where
  tree :=
    inner.tree.addMessages
      [.error "Missing closing ')'" (opening.span.merge inner.tree.span)]
  last := inner.last
  rest := inner.rest
  shorter := Nat.lt_succ_of_lt inner.shorter

/-- The expression between two parentheses; a missing closing one is reported on it. -/
def closeParenthesis (opening : Token) {s : List Token} (inner : Taken s) : Taken (opening :: s) :=
  match h : inner.rest with
  | t :: rest =>
    if t.kind = .closeParen then
      ⟨inner.tree, t, rest, by have := inner.shorter; simp_all; omega⟩
    else unclosedParenthesis opening inner
  | [] => unclosedParenthesis opening inner

/-- The measure of the rules below falls with every token read. -/
theorem four_mul_lt {a b : Nat} (h : a ≤ b) : 4 * a < 4 * (b + 1) := by omega

mutual

/-- An expression whose operators all bind over `floor`. -/
def expression (floor : Nat) (s : List Token) : Except Unexpected (Taken s) :=
  match operand s with
  | .error e => .error e
  | .ok first =>
    have := first.shorter
    let whole := extend floor first.tree first.last first.rest
    .ok ⟨whole.tree, whole.last, whole.rest, Nat.lt_of_le_of_lt whole.le first.shorter⟩
  termination_by 4 * s.length + 1
  decreasing_by all_goals omega

/-- What operators stand between: a literal, a name, an array, an expression in parentheses or one
after a minus sign. -/
def operand (s : List Token) : Except Unexpected (Taken s) :=
  match s with
  | [] => .error ⟨"expression", none⟩
  | t :: rest =>
    match t.kind with
    | .openParen => parenthesized t rest
    | .openBracket =>
      let list := listItems .elements t .start t rest
      let node : Node Unit := ⟨t.span.merge list.last.span, list.messages, ()⟩
      .ok ⟨.array node (list.items.filterMap id), list.last, list.rest, Nat.lt_succ_of_le list.le⟩
    | .minus =>
      match expression Operator.unaryPrecedence rest with
      | .ok r =>
        .ok ⟨negationOf t.span r.tree, r.last, r.rest, Nat.lt_succ_of_lt r.shorter⟩
      | .error _ =>
        .ok ⟨unrecognizedTokens [t] t.span "Expected expression after '-'", t, rest,
          Nat.lt_succ_self _⟩
    | _ =>
      match ofToken? t with
      | some tree => .ok ⟨tree, t, rest, Nat.lt_succ_self _⟩
      | none => .error ⟨"expression", some t⟩
  termination_by 4 * s.length
  decreasing_by all_goals simp; omega

/-- What follows an opening parenthesis: an expression and the closing one. -/
def parenthesized (opening : Token) (s : List Token) : Except Unexpected (Taken (opening :: s)) :=
  match s with
  | t :: rest =>
    if t.kind = .closeParen then
      .ok ⟨unrecognizedTokens [opening, t] (opening.span.merge t.span) "Empty parentheses", t, rest,
        by simp only [List.length_cons]; omega⟩
    else
      match expression 0 (t :: rest) with
      | .error e => .error e
      | .ok inner => .ok (closeParenthesis opening inner)
  | [] => .error ⟨"expression", none⟩
  termination_by 4 * s.length + 2
  decreasing_by all_goals simp

/-- Every operator after `left` that binds over `floor`, with its operands. -/
def extend (floor : Nat) (left : Tree) (last : Token) (s : List Token) : Extended s :=
  match s with
  | [] => ⟨left, last, [], Nat.le_refl _⟩
  | t :: rest =>
    match Operator.ofKind? t.kind with
    | none => ⟨left, last, t :: rest, Nat.le_refl _⟩
    | some op =>
      if op.bindsOver floor then
        match op.form with
        | .call =>
          let list := listItems .arguments t .start t rest
          (extend floor (callOf left list) list.last list.rest).widen (Nat.le_succ_of_le list.le)
        | .access =>
          let list := listItems .components t .start t rest
          (extend floor (accessOf left t.span list) list.last list.rest).widen
            (Nat.le_succ_of_le list.le)
        | .binary =>
          match expression op.precedence rest with
          | .ok right =>
            (extend floor (binaryOf left op.symbol t.span right.tree) right.last right.rest).widen
              (Nat.le_succ_of_le (Nat.le_of_lt right.shorter))
          | .error _ =>
            (extend floor (halfOf left op.symbol t.span) t rest).widen (Nat.le_succ _)
      else ⟨left, last, t :: rest, Nat.le_refl _⟩
  termination_by 4 * s.length
  decreasing_by
  · simp; omega
  · exact four_mul_lt list.le
  · simp; omega
  · exact four_mul_lt list.le
  · simp; omega
  · exact four_mul_lt (Nat.le_of_lt right.shorter)
  · exact four_mul_lt (Nat.le_refl _)

/-- The items of a list from `s` on; `last` is the last token read. -/
def listItems (form : ListForm) (opening : Token) (p : ListProgress) (last : Token)
    (s : List Token) : Listed s :=
  match s with
  | [] => .unclosed form opening last []
  | t :: rest =>
    if t.kind = form.close then .closed form p t rest
    else if t.kind = form.separator then
      .afterSeparator form p t (listItems form opening (p.afterSeparator t.span) t rest)
    else if form.placeholders && t.kind = .underscore then
      .afterItem p t none (Nat.le_succ _) (listItems form opening p.afterItem t rest)
    else
      match expression 0 (t :: rest) with
      | .error _ => .unclosed form opening last (t :: rest)
      | .ok e =>
        have := e.shorter
        .afterItem p t (some e.tree) (Nat.le_of_lt e.shorter)
          (listItems form opening p.afterItem e.last e.rest)
  termination_by 4 * s.length + 2
  decreasing_by all_goals simp_all

end

/-- Tokens that no expression begins with: the first and all up to the next that may begin one. -/
def unrecognizedRun (t : Token) (rest : List Token) : Tree :=
  let more := rest.takeWhile (!·.kind.startsExpression)
  unrecognizedTokens (t :: more) (t.span.merge (more.getLastD t).span) ("Unexpected " ++ t.describe)

/-- The expressions and the runs of unrecognized tokens that `tokens` consists of. -/
def pieces (tokens : List Token) : List Tree :=
  match tokens with
  | [] => []
  | t :: rest =>
    match expression 0 (t :: rest) with
    | .ok e =>
      have := e.shorter
      e.tree :: pieces e.rest
    | .error _ => unrecognizedRun t rest :: pieces (rest.dropWhile (!·.kind.startsExpression))
  termination_by tokens.length
  decreasing_by
  · simp_all
  · exact Nat.lt_succ_of_le (List.dropWhile_sublist _).length_le

/-- The message about something after the end of the program; unrecognized tokens bring their
own. -/
def surplusMessages (extra : Tree) : List Message :=
  if extra.isUnrecognized then extra.allMessages
  else [.error "Unexpected expression after end of program" extra.span]

/-- The expression that the tokens of a program are. A program is a single expression: whatever
follows it is reported on its root. -/
def ofTokens (tokens : List Token) : Tree :=
  match pieces tokens with
  | [] => unrecognizedTokens [] Span.origin "Empty program"
  | root :: extras => root.addMessages (extras.flatMap surplusMessages)

end Tree

end LazyLang
