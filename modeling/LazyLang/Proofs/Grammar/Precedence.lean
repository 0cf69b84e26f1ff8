import LazyLang.Proofs.Grammar.Completeness

/-!
# Which tree the tokens of a phrase are read as

A phrase may be a phrase in several ways; precedence picks one of them. `Writes floor edge e ls`
says that the lexemes `ls` write the tree `e` the way it is read at the precedence `floor`: an
operator binds over `floor`, does not bind over what its left operand leaves open and is the
precedence that its right operand is read at. What the lexemes leave open themselves is bounded by
`edge`: an operator after them that does not bind over `edge` is not drawn into them.

Tokens with such lexemes are read as `e`, but for the places of its nodes (`Writes.passes`), and as
a program they give `e` without a message (`ofTokens_of_writes`).
-/

namespace LazyLang

/-- What the reading of a token depends on. -/
structure Lexeme where
  kind : TokenKind
  text : String

/-- The token without its place. -/
def Token.lexeme (t : Token) : Lexeme := ⟨t.kind, t.text⟩

/-- The lexeme of a kind that has only one text. -/
def TokenKind.lexeme (kind : TokenKind) : Lexeme := ⟨kind, kind.spelling?.getD ""⟩

/-- The pieces one after the other, with a separator between any two of them. -/
def Lexeme.joined (separator : TokenKind) (pieces : List (List Lexeme)) : List Lexeme :=
  [separator.lexeme].intercalate pieces

/-- The decimal digits of a number denote it. -/
theorem numberOfDigits_toString (n : Nat) : numberOfDigits (toString n).toList = n := by
  rw [Nat.toString_eq_ofList_toDigits, String.toList_ofList, numberOfDigits]
  calc _ = (Nat.toDigits 10 n).foldl (fun m c => 10 * m + (c.toNat - '0'.toNat)) 0 :=
        List.foldl_ext _ _ _ fun m c hc =>
          if_pos (Nat.isDigit_of_mem_toDigits (by decide) (by decide) hc)
    _ = n := by rw [← Nat.ofDigitChars_eq_foldl, Nat.ofDigitChars_ten_toDigits]

namespace Expr

variable {α : Type}

mutual

/-- The expression without what its nodes carry. -/
def bare : Expr α → Tree
  | identifier _ name => .identifier (Node.plain Span.origin) name
  | integer _ value => .integer (Node.plain Span.origin) value
  | float _ value => .float (Node.plain Span.origin) value
  | string _ value => .string (Node.plain Span.origin) value
  | boolean _ value => .boolean (Node.plain Span.origin) value
  | array _ elements => .array (Node.plain Span.origin) (bareElements elements)
  | call _ callee args => .call (Node.plain Span.origin) (bare callee) (bareArgs args)
  | none _ => .none (Node.plain Span.origin)
  | unrecognized _ tokens => .unrecognized (Node.plain Span.origin) tokens

/-- The elements of an array without what their nodes carry. -/
def bareElements : List (Expr α) → List Tree
  | [] => []
  | e :: rest => bare e :: bareElements rest

/-- The arguments of a call without what their nodes carry. -/
def bareArgs : List (Option (Expr α)) → List (Option Tree)
  | [] => []
  | Option.none :: rest => Option.none :: bareArgs rest
  | some e :: rest => some (bare e) :: bareArgs rest

end

@[simp] theorem bare_addMessages (messages : List Message) (e : Expr α) :
    (e.addMessages messages).bare = e.bare := by
  cases e <;> simp [addMessages, withNode, bare]

end Expr

/-- What is held at one precedence is held at every higher one. -/
theorem Held.mono {floor floor' : Nat} {s : List Token} (h : Held floor s) (hle : floor ≤ floor') :
    Held floor' s := by
  cases s with
  | nil => trivial
  | cons t rest =>
      intro op hop
      have hheld := h op hop
      simp only [Operator.bindsOver, Bool.or_eq_false_iff, decide_eq_false_iff_not] at hheld ⊢
      rcases Nat.eq_or_lt_of_le hle with rfl | hlt
      · exact hheld
      · have hne : op.precedence ≠ floor' := by omega
        exact ⟨by omega, by simp [hne]⟩

/-- Only the operator that comes next counts. -/
theorem held_cons {floor : Nat} {t : Token} {op : Operator}
    (hop : Operator.ofKind? t.kind = some op) (h : op.bindsOver floor = false) (rest : List Token) :
    Held floor (t :: rest) := by
  intro op' hop'
  rw [hop] at hop'
  cases hop'
  exact h

theorem Operator.not_bindsOver_of_lt {op : Operator} {floor : Nat} (h : op.precedence < floor) :
    op.bindsOver floor = false := by
  simp [bindsOver, Nat.le_of_lt h, Nat.ne_of_lt h]

/-- Whatever does not bind over the operators that bind tightest does not bind over a minus sign
either. -/
theorem Held.unary {s : List Token} (h : Held 13 s) : Held Operator.unaryPrecedence s := by
  cases s with
  | nil => trivial
  | cons t rest =>
      intro op hop
      have hheld := h op hop
      revert hop hheld
      cases t.kind <;> rintro ⟨⟩ <;> decide

namespace Tree

open LazyLang.Expr

/-- `tree` is what `e` is read as: the same tree, but for the places of its nodes, and without a
message. -/
def Shows (tree e : Tree) : Prop := tree.bare = e.bare ∧ tree.allMessages = []

/-- The operator that arguments follow as. -/
def callOperator : Operator := ⟨"()", 99, false, .call⟩

/-- The operator that an index or a slice follows as. -/
def accessOperator : Operator := ⟨"[]", 13, true, .access⟩

/-- The lexemes write the tree, as reading at the precedence `floor` sees it, and nothing that they
leave open is below `edge`. The trees of a list are written by the pieces at the same places. -/
inductive Writes : Nat → Nat → Tree → List Lexeme → Prop
  | token {floor edge : Nat} {e : Tree} {l : Lexeme}
      (h : ∀ t : Token, t.lexeme = l → SpellsToken e t) : Writes floor edge e [l]
  | grouped {floor edge : Nat} {e : Tree} {ls : List Lexeme} (h : Writes 0 0 e ls) :
      Writes floor edge e
        (TokenKind.openParen.lexeme :: ls ++ [TokenKind.closeParen.lexeme])
  | negation {floor edge : Nat} {e : Tree} {ls : List Lexeme} (node callee : Node Unit)
      (hedge : edge ≤ 13) (h : Writes Operator.unaryPrecedence edge e ls) :
      Writes floor edge (.call node (.identifier callee "neg") [some e])
        (TokenKind.minus.lexeme :: ls)
  | binary {floor edge inner : Nat} {l r : Tree} {kind : TokenKind} {ls rs : List Lexeme}
      {op : Operator} (node callee : Node Unit) (hop : Operator.ofKind? kind = some op)
      (hform : op.form = .binary) (hl : Writes floor inner l ls)
      (hinner : op.bindsOver inner = false) (hfloor : op.bindsOver floor = true)
      (hr : Writes op.precedence edge r rs) (hedge : edge ≤ op.precedence) :
      Writes floor edge (.call node (.identifier callee op.symbol) [some l, some r])
        (ls ++ kind.lexeme :: rs)
  | array {floor edge : Nat} {es : List Tree} {pieces : List (List Lexeme)} (node : Node Unit)
      (hn : es.length = pieces.length) (h : ∀ e ls, (e, ls) ∈ es.zip pieces → Writes 0 0 e ls) :
      Writes floor edge (.array node es) (TokenKind.openBracket.lexeme ::
        Lexeme.joined .comma pieces ++ [TokenKind.closeBracket.lexeme])
  | call {floor edge inner : Nat} {f : Tree} {fs : List Lexeme} {args : List (Option Tree)}
      {pieces : List (List Lexeme)} (node : Node Unit) (hf : Writes floor inner f fs)
      (hinner : callOperator.bindsOver inner = false) (hn : args.length = pieces.length)
      (hp : ∀ ls, (Option.none, ls) ∈ args.zip pieces → ls = [TokenKind.underscore.lexeme])
      (h : ∀ e ls, (some e, ls) ∈ args.zip pieces → Writes 0 0 e ls) :
      Writes floor edge (.call node f args) (fs ++ (TokenKind.openParen.lexeme ::
        Lexeme.joined .comma pieces ++ [TokenKind.closeParen.lexeme]))
  | index {floor edge inner : Nat} {e i : Tree} {ls is : List Lexeme} (node callee : Node Unit)
      (he : Writes floor inner e ls) (hinner : accessOperator.bindsOver inner = false)
      (hi : Writes 0 0 i is) :
      Writes floor edge (.call node (.identifier callee "[]") [some e, some i])
        (ls ++ (TokenKind.openBracket.lexeme :: is ++ [TokenKind.closeBracket.lexeme]))
  | slice {floor edge inner : Nat} {e a b d : Tree} {ls : List Lexeme}
      {pieces : List (List Lexeme)} (node callee : Node Unit) (he : Writes floor inner e ls)
      (hinner : accessOperator.bindsOver inner = false) (hn : pieces.length = 3)
      (hp : ∀ i, (i, []) ∈ [a, b, d].zip pieces → ∃ n, i = .none n)
      (h : ∀ i us, (i, us) ∈ [a, b, d].zip pieces → us ≠ [] → Writes 0 0 i us) :
      Writes floor edge (.call node (.identifier callee "[:]") [some e, some a, some b, some d])
        (ls ++ (TokenKind.openBracket.lexeme :: Lexeme.joined .colon pieces ++
          [TokenKind.closeBracket.lexeme]))

/-- What writes a tree begins like an expression. -/
theorem Writes.exists_cons {floor edge : Nat} {e : Tree} {ls : List Lexeme}
    (h : Writes floor edge e ls) : ∃ l rest, ls = l :: rest ∧ l.kind.startsExpression = true := by
  induction h with
  | @token _ _ _ l h =>
      exact ⟨l, [], rfl, (h ⟨l.kind, l.text, Span.origin⟩ rfl).isAtom.startsExpression⟩
  | grouped | negation | array => exact ⟨_, _, rfl, rfl⟩
  | binary _ _ _ _ _ _ _ _ _ ih | call _ _ _ _ _ _ ih | index _ _ _ _ _ ih
  | slice _ _ _ _ _ _ _ ih =>
      obtain ⟨l, rest, rfl, hl⟩ := ih
      exact ⟨l, _, List.cons_append, hl⟩

theorem Writes.ne_nil {floor edge : Nat} {e : Tree} {ls : List Lexeme}
    (h : Writes floor edge e ls) : ls ≠ [] := by
  obtain ⟨l, rest, rfl, -⟩ := h.exists_cons
  exact List.cons_ne_nil l rest

/-- An argument in writing: a placeholder, or lexemes that write it as a whole expression. -/
def WritesArgument : Option Tree → List Lexeme → Prop
  | Option.none, ls => ls = [TokenKind.underscore.lexeme]
  | some e, ls => Writes 0 0 e ls

theorem Writes.array_of_forall₂ {floor edge : Nat} {es : List Tree} {pieces : List (List Lexeme)}
    (node : Node Unit) (h : es.Forall₂ (Writes 0 0) pieces) :
    Writes floor edge (.array node es) (TokenKind.openBracket.lexeme ::
      Lexeme.joined .comma pieces ++ [TokenKind.closeBracket.lexeme]) := by
  obtain ⟨hn, hes⟩ := List.forall₂_iff_zip.1 h
  exact .array node hn fun e ls hls => hes hls

theorem Writes.call_of_forall₂ {floor edge inner : Nat} {f : Tree} {fs : List Lexeme}
    {args : List (Option Tree)} {pieces : List (List Lexeme)} (node : Node Unit)
    (hf : Writes floor inner f fs) (hinner : callOperator.bindsOver inner = false)
    (h : args.Forall₂ WritesArgument pieces) :
    Writes floor edge (.call node f args) (fs ++ (TokenKind.openParen.lexeme ::
      Lexeme.joined .comma pieces ++ [TokenKind.closeParen.lexeme])) := by
  obtain ⟨hn, hargs⟩ := List.forall₂_iff_zip.1 h
  exact .call node hf hinner hn (fun ls hls => hargs hls) fun e ls hls => hargs hls

/-- Reading `s` comes past the tree `e` and goes on after it with `rest`. -/
def Passes (floor : Nat) (s : List Token) (e : Tree) (rest : List Token) : Prop :=
  ∃ first tree last, operand s = .ok first ∧ Shows tree e ∧
    Agree (extend floor first.tree first.last first.rest) (extend floor tree last rest)

namespace Passes

variable {floor : Nat} {s rest : List Token} {e : Tree}

theorem of_operand {first : Taken s} (h : operand s = .ok first) (hshows : Shows first.tree e)
    (hrest : first.rest = rest) : Passes floor s e rest := by
  subst hrest
  exact ⟨first, first.tree, first.last, h, hshows, rfl, rfl⟩

/-- Reading goes on past a larger tree. -/
theorem extend {e' : Tree} {rest' : List Token} (h : Passes floor s e rest)
    (hext : ∀ tree last, Shows tree e → ∃ tree' last', Shows tree' e' ∧
      Agree (Tree.extend floor tree last rest) (Tree.extend floor tree' last' rest')) :
    Passes floor s e' rest' := by
  obtain ⟨first, tree, last, hfirst, hshows, hagree⟩ := h
  obtain ⟨tree', last', hshows', hagree'⟩ := hext tree last hshows
  exact ⟨first, tree', last', hfirst, hshows', hagree.1.trans hagree'.1,
    hagree.2.trans hagree'.2⟩

/-- Reading ends where nothing binds over the precedence. -/
theorem expression (h : Passes floor s e rest) (hs : Held floor rest) :
    ∃ r, Tree.expression floor s = .ok r ∧ r.rest = rest ∧ Shows r.tree e := by
  obtain ⟨first, tree, last, hfirst, hshows, htree, hrest⟩ := h
  rw [extend_held hs] at htree hrest
  rw [Tree.expression, hfirst]
  exact ⟨_, rfl, hrest, htree ▸ hshows⟩

end Passes

/-- A token is read as the tree that it spells. -/
theorem ofToken?_of_spellsToken {e : Tree} {t : Token} (h : SpellsToken e t) :
    ∃ tree, ofToken? t = some tree ∧ Shows tree e := by
  cases h with
  | @integer _ value node ht hv =>
      have hlt := Int64.toInt_lt value
      have hn : numberOfDigits t.text.toList < 2 ^ 63 := by omega
      have heq : Int64.ofNat (numberOfDigits t.text.toList) = value := by
        rw [← Int64.toInt_inj, Int64.toInt_ofNat_of_lt hn, hv]
      refine ⟨.integer (Node.plain t.span) value, ?_, rfl, rfl⟩
      simp only [ofToken?, ht, ofInteger_of_lt hn, heq]
  | identifier _ ht =>
      exact ⟨.identifier (Node.plain t.span) t.text, by simp only [ofToken?, ht], rfl, rfl⟩
  | float _ ht => exact ⟨ofFloat t, by simp only [ofToken?, ht], rfl, rfl⟩
  | string _ ht =>
      exact ⟨.string (Node.plain t.span) (Text.Quoted.decode t.text),
        by simp only [ofToken?, ht], rfl, rfl⟩
  | trueWord _ ht =>
      exact ⟨.boolean (Node.plain t.span) true, by simp only [ofToken?, ht], rfl, rfl⟩
  | falseWord _ ht =>
      exact ⟨.boolean (Node.plain t.span) false, by simp only [ofToken?, ht], rfl, rfl⟩
  | noneWord _ ht => exact ⟨.none (Node.plain t.span), by simp only [ofToken?, ht], rfl, rfl⟩

theorem operand_of_isAtom {t : Token} {tree : Tree} (ht : t.IsAtom) (h : ofToken? t = some tree)
    (rest : List Token) :
    operand (t :: rest) = .ok ⟨tree, t, rest, Nat.lt_succ_self _⟩ := by
  rw [operand]
  split
  · next hk => simp [Token.IsAtom, hk] at ht
  · next hk => simp [Token.IsAtom, hk] at ht
  · next hk => simp [Token.IsAtom, hk] at ht
  · rw [h]

theorem operand_grouped {o c u : Token} {us stop : List Token}
    {inner : Taken (u :: us ++ c :: stop)} (ho : o.kind = .openParen) (hc : c.kind = .closeParen)
    (hu : u.kind.startsExpression = true)
    (h : expression 0 (u :: us ++ c :: stop) = .ok inner) (hrest : inner.rest = c :: stop) :
    ∃ r, operand (o :: (u :: us ++ c :: stop)) = .ok r ∧ r.tree = inner.tree ∧ r.rest = stop := by
  have hne : u.kind ≠ .closeParen := fun hk => by
    rw [hk] at hu
    cases hu
  refine ⟨closeParenthesis o inner, ?_, ?_⟩
  · rw [operand, ho]
    change parenthesized o (u :: (us ++ c :: stop)) = _
    change expression 0 (u :: (us ++ c :: stop)) = _ at h
    rw [parenthesized, if_neg hne, h]
  · unfold closeParenthesis
    split
    · next t rest hrest' =>
        rw [hrest] at hrest'
        cases hrest'
        rw [if_pos hc]
        exact ⟨rfl, rfl⟩
    · next hrest' =>
        rw [hrest] at hrest'
        cases hrest'

theorem operand_negation {m : Token} {s : List Token} {inner : Taken s} (hm : m.kind = .minus)
    (h : expression Operator.unaryPrecedence s = .ok inner) :
    operand (m :: s) = .ok ⟨negationOf m.span inner.tree, inner.last, inner.rest,
      Nat.lt_succ_of_lt inner.shorter⟩ := by
  rw [operand, hm, h]

section Shows

variable {e f i l r tree : Tree} {s stop : List Token} {list : Listed s}

/-- The item is read as the element of an array. -/
def ShowsElement (e : Tree) (item : Option Tree) : Prop := ∃ tree, item = some tree ∧ Shows tree e

/-- The item is read as the argument of a call. -/
def ShowsArgument (arg item : Option Tree) : Prop := Option.Rel Shows item arg

/-- The item is read as the component of a slice, which is the literal `none` where it is left
out. -/
def ShowsComponent (bracket : Span) (e : Tree) (item : Option Tree) : Prop :=
  Shows (item.getD (.none (Node.plain bracket))) e

theorem shows_elements {es : List Tree} {items : List (Option Tree)}
    (h : es.Forall₂ ShowsElement items) :
    bareElements (items.filterMap id) = bareElements es ∧ argMessages items = [] := by
  induction h with
  | nil => exact ⟨rfl, rfl⟩
  | cons hitem _ ih =>
      obtain ⟨tree, rfl, hbare, hm⟩ := hitem
      rw [List.filterMap_cons_some (f := id) rfl, bareElements, bareElements, argMessages, hbare,
        hm, ih.1, ih.2]
      exact ⟨rfl, rfl⟩

theorem shows_arguments {args items : List (Option Tree)} (h : args.Forall₂ ShowsArgument items) :
    bareArgs items = bareArgs args ∧ argMessages items = [] := by
  induction h with
  | nil => exact ⟨rfl, rfl⟩
  | cons hitem _ ih =>
      cases hitem with
      | none => simp [bareArgs, argMessages, ih]
      | some hshows => simp [bareArgs, argMessages, hshows.1, hshows.2, ih]

/-- A call is read as a call when its parts are, and nothing is said of its own node. -/
theorem shows_call {args items : List (Option Tree)} {n : Node Unit} (hf : Shows tree f)
    (h : args.Forall₂ ShowsArgument items) (hn : n.messages = []) (node : Node Unit) :
    Shows (.call n tree items) (.call node f args) := by
  obtain ⟨hbare, hm⟩ := shows_arguments h
  rw [Shows, bare, bare, hf.1, hbare, allMessages, hf.2, hm, hn]
  exact ⟨rfl, rfl⟩

theorem shows_operatorCall {args items : List (Option Tree)} (h : args.Forall₂ ShowsArgument items)
    (symbol : String) (symbolSpan span : Span) (node callee : Node Unit) :
    Shows (operatorCall symbol symbolSpan items span)
      (.call node (.identifier callee symbol) args) :=
  shows_call ⟨rfl, rfl⟩ h rfl node

theorem shows_negationOf (h : Shows tree e) (minus : Span) (node callee : Node Unit) :
    Shows (negationOf minus tree) (.call node (.identifier callee "neg") [some e]) :=
  shows_operatorCall (.cons (Option.Rel.some h) .nil) ..

theorem shows_binaryOf {left right : Tree} (hl : Shows left l) (hr : Shows right r)
    (symbol : String) (span : Span) (node callee : Node Unit) :
    Shows (binaryOf left symbol span right)
      (.call node (.identifier callee symbol) [some l, some r]) :=
  shows_operatorCall (.cons (Option.Rel.some hl) (.cons (Option.Rel.some hr) .nil)) ..

theorem shows_array {es : List Tree} (h : list.Whole ShowsElement es stop) (span : Span)
    (node : Node Unit) :
    Shows (.array ⟨span, list.messages, ()⟩ (list.items.filterMap id)) (.array node es) := by
  obtain ⟨hbare, hm⟩ := shows_elements h.items
  rw [Shows, bare, bare, hbare, allMessages, elementMessages_filterMap_id, hm, h.messages]
  exact ⟨rfl, rfl⟩

theorem shows_callOf {args : List (Option Tree)} (hf : Shows tree f)
    (h : list.Whole ShowsArgument args stop) (node : Node Unit) :
    Shows (callOf tree list) (.call node f args) :=
  shows_call hf h.items h.messages node

theorem shows_accessOf_index {bracket : Span} (he : Shows tree e)
    (h : list.Whole ShowsElement [i] stop) (node callee : Node Unit) :
    Shows (accessOf tree bracket list)
      (.call node (.identifier callee "[]") [some e, some i]) := by
  obtain ⟨items, separators, messages, last, rest, hle⟩ := list
  obtain ⟨hm, -, hitems, h0⟩ := h
  obtain _ | ⟨⟨index, rfl, hindex⟩, hnil⟩ := hitems
  cases hnil
  simp only [accessOf] at h0 hm ⊢
  have hone : separators = 0 := by simpa using h0
  rw [if_pos hone, hm]
  dsimp only [List.findSome?_cons, id_eq]
  rw [addMessages_nil]
  exact shows_operatorCall (.cons (Option.Rel.some he) (.cons (Option.Rel.some hindex) .nil)) ..

theorem shows_accessOf_slice {bracket : Span} {a b d : Tree} (he : Shows tree e)
    (h : list.Whole (ShowsComponent bracket) [a, b, d] stop) (node callee : Node Unit) :
    Shows (accessOf tree bracket list)
      (.call node (.identifier callee "[:]") [some e, some a, some b, some d]) := by
  obtain ⟨items, separators, messages, last, rest, hle⟩ := list
  obtain ⟨hm, -, hitems, h0⟩ := h
  obtain _ | ⟨ha, hitems⟩ := hitems
  obtain _ | ⟨hb, hitems⟩ := hitems
  obtain _ | ⟨hd, hnil⟩ := hitems
  cases hnil
  simp only [accessOf] at h0 hm ⊢
  have hsep : separators ≠ 0 := by simp [h0]
  rw [if_neg hsep, sliceComponents_three]
  have hthree (x y z : Option Tree) : ¬ [x, y, z].length > 3 := Nat.lt_irrefl 3
  rw [hm, if_neg (hthree _ _ _), List.append_nil, addMessages_nil]
  exact shows_operatorCall (.cons (Option.Rel.some he) (.cons (Option.Rel.some ha)
    (.cons (Option.Rel.some hb) (.cons (Option.Rel.some hd) .nil)))) ..

end Shows

namespace Passes

variable {floor : Nat} {s rest stop : List Token} {e : Tree} {o : Token}

/-- Reading goes on past an operator and its right operand. -/
theorem binary {op : Operator} {right : Taken rest} {r : Tree} (h : Passes floor s e (o :: rest))
    (hop : Operator.ofKind? o.kind = some op) (hform : op.form = .binary)
    (hbind : op.bindsOver floor = true) (hr : Tree.expression op.precedence rest = .ok right)
    (hrest : right.rest = stop) (hshows : Shows right.tree r) (node callee : Node Unit) :
    Passes floor s (.call node (.identifier callee op.symbol) [some e, some r]) stop :=
  h.extend fun tree last htree => by
    have hagree : Agree (Tree.extend floor tree last (o :: rest)) _ :=
      extend_binary hop hform hbind hr
    rw [hrest] at hagree
    exact ⟨_, _, shows_binaryOf htree hshows op.symbol o.span node callee, hagree⟩

/-- Reading goes on past the arguments of a call. -/
theorem call {args : List (Option Tree)} (h : Passes floor s e (o :: rest))
    (ho : o.kind = .openParen) (hfloor : floor ≤ 13)
    (hwhole : (listItems .arguments o .start o rest).Whole ShowsArgument args stop)
    (node : Node Unit) : Passes floor s (.call node e args) stop :=
  h.extend fun tree last htree => by
    have hagree : Agree (Tree.extend floor tree last (o :: rest)) _ :=
      extend_call ho hfloor _ rfl
    rw [hwhole.rest] at hagree
    exact ⟨_, _, shows_callOf htree hwhole node, hagree⟩

/-- Reading goes on past an index. -/
theorem index {i : Tree} (h : Passes floor s e (o :: rest)) (ho : o.kind = .openBracket)
    (hfloor : floor ≤ 13)
    (hwhole : (listItems .components o .start o rest).Whole ShowsElement [i] stop)
    (node callee : Node Unit) :
    Passes floor s (.call node (.identifier callee "[]") [some e, some i]) stop :=
  h.extend fun tree last htree => by
    have hagree : Agree (Tree.extend floor tree last (o :: rest)) _ :=
      extend_access ho hfloor _ rfl
    rw [hwhole.rest] at hagree
    exact ⟨_, _, shows_accessOf_index htree hwhole node callee, hagree⟩

/-- Reading goes on past the components of a slice. -/
theorem slice {a b d : Tree} (h : Passes floor s e (o :: rest)) (ho : o.kind = .openBracket)
    (hfloor : floor ≤ 13)
    (hwhole : (listItems .components o .start o rest).Whole (ShowsComponent o.span) [a, b, d] stop)
    (node callee : Node Unit) :
    Passes floor s (.call node (.identifier callee "[:]") [some e, some a, some b, some d]) stop :=
  h.extend fun tree last htree => by
    have hagree : Agree (Tree.extend floor tree last (o :: rest)) _ :=
      extend_access ho hfloor _ rfl
    rw [hwhole.rest] at hagree
    exact ⟨_, _, shows_accessOf_slice htree hwhole node callee, hagree⟩

end Passes

section Lexemes

variable {ts : List Token} {ls : List Lexeme}

theorem exists_of_map_lexeme_enclosed {o c : TokenKind}
    (h : ts.map Token.lexeme = o.lexeme :: ls ++ [c.lexeme]) :
    ∃ t us u, ts = t :: us ++ [u] ∧ t.kind = o ∧ us.map Token.lexeme = ls ∧ u.kind = c := by
  obtain ⟨fs, us, rfl, hfs, hus⟩ := List.map_eq_append_iff.1 h
  obtain ⟨t, ms, rfl, ht, hms⟩ := List.map_eq_cons_iff.1 hfs
  obtain ⟨u, rfl, hu⟩ := List.map_eq_singleton_iff.1 hus
  exact ⟨t, ms, u, rfl, congrArg Lexeme.kind ht, hms, congrArg Lexeme.kind hu⟩

theorem exists_joined {separator : TokenKind} {pieces : List (List Lexeme)}
    (h : ts.map Token.lexeme = Lexeme.joined separator pieces) :
    ∃ tss, Joined separator tss ts ∧ pieces = tss.map (·.map Token.lexeme) := by
  induction pieces generalizing ts with
  | nil =>
      obtain rfl := List.map_eq_nil_iff.1 h
      exact ⟨[], .nil, rfl⟩
  | cons piece rest ih =>
      cases rest with
      | nil => exact ⟨[ts], .single ts, by simpa [Lexeme.joined] using h.symm⟩
      | cons piece' rest =>
          rw [Lexeme.joined, List.intercalate_cons_cons, List.append_assoc] at h
          obtain ⟨us, vs, rfl, rfl, hvs⟩ := List.map_eq_append_iff.1 h
          obtain ⟨t, ws, rfl, ht, hws⟩ := List.map_eq_cons_iff.1 hvs
          obtain ⟨tss, hjoined, htss⟩ := ih hws
          obtain ⟨ts', tss', rfl, -⟩ := List.map_eq_cons_iff.1 htss.symm
          exact ⟨us :: ts' :: tss', .cons (congrArg Lexeme.kind ht) hjoined, by rw [htss]; rfl⟩

theorem forall₂_of_map_lexeme {β : Type} {P : β → List Token → Prop} {xs : List β}
    {tss : List (List Token)} (hn : xs.length = (tss.map (·.map Token.lexeme)).length)
    (h : ∀ x us, (x, us.map Token.lexeme) ∈ xs.zip (tss.map (·.map Token.lexeme)) → P x us) :
    xs.Forall₂ P tss := by
  refine List.forall₂_iff_zip.2 ⟨by simpa using hn, fun {x us} hmem => h x us ?_⟩
  rw [List.zip_map_right]
  exact List.mem_map_of_mem (f := Prod.map id (List.map Token.lexeme)) hmem

end Lexemes

/-- Tokens that write a tree are an item of any list that it is wanted in. -/
theorem Writes.takes {e : Tree} {ts : List Token} {form : ListForm} {Q : Option Tree → Prop}
    (h : Writes 0 0 e (ts.map Token.lexeme))
    (hread : ∀ stop, Held 0 stop → Passes 0 (ts ++ stop) e stop)
    (hq : ∀ tree, Shows tree e → Q (some tree)) : form.Takes Q ts := by
  obtain ⟨l, rest, heq, hl⟩ := h.exists_cons
  obtain ⟨t, us, rfl, ht, -⟩ := List.map_eq_cons_iff.1 heq
  subst ht
  refine .expression hl fun stop hs => ?_
  obtain ⟨r, hr, hrest, hshows⟩ := (hread stop (hs.held 0)).expression (hs.held 0)
  exact ⟨r, hr, hrest, hq r.tree hshows⟩

/-- Tokens are read as the tree that their lexemes write, whatever comes after them that does not
bind over what they leave open. -/
theorem Writes.passes {floor edge : Nat} {e : Tree} {ls : List Lexeme} (h : Writes floor edge e ls)
    (hfloor : floor ≤ 13) :
    ∀ ts, ts.map Token.lexeme = ls → ∀ stop, Held edge stop → Passes floor (ts ++ stop) e stop := by
  induction h with
  | token h =>
      intro ts hts stop _
      obtain ⟨t, rfl, ht⟩ := List.map_eq_singleton_iff.1 hts
      obtain ⟨tree, htree, hshows⟩ := ofToken?_of_spellsToken (h t ht)
      exact .of_operand (operand_of_isAtom (h t ht).isAtom htree stop) hshows rfl
  | grouped h ih =>
      intro ts hts stop _
      obtain ⟨o, us, c, rfl, ho, rfl, hc⟩ := exists_of_map_lexeme_enclosed hts
      have hstops : Stops (c :: stop) := by
        rw [Stops, hc]
        rfl
      obtain ⟨inner, hinner, hrest, hshows⟩ :=
        (ih (Nat.zero_le _) us rfl _ (hstops.held 0)).expression (hstops.held 0)
      obtain ⟨l, rest, heq, hl⟩ := h.exists_cons
      obtain ⟨u, vs, rfl, rfl, -⟩ := List.map_eq_cons_iff.1 heq
      obtain ⟨r, hr, htree, hrest'⟩ := operand_grouped ho hc hl hinner hrest
      rw [show o :: (u :: vs) ++ [c] ++ stop = o :: (u :: vs ++ c :: stop) by simp]
      exact .of_operand hr (htree ▸ hshows) hrest'
  | negation node callee hedge h ih =>
      intro ts hts stop hs
      obtain ⟨m, us, rfl, hm, hus⟩ := List.map_eq_cons_iff.1 hts
      obtain ⟨r, hr, hrest, hshows⟩ :=
        (ih (by decide) us hus stop hs).expression (hs.mono hedge).unary
      exact .of_operand (operand_negation (congrArg Lexeme.kind hm) hr)
        (shows_negationOf hshows _ node callee) hrest
  | @binary floor edge inner l r kind ls rs op node callee hop hform hl hinner hbind hr hedge ihl
      ihr =>
      intro ts hts stop hs
      obtain ⟨us, vs, rfl, hus, hvs⟩ := List.map_eq_append_iff.1 hts
      obtain ⟨t, ws, rfl, ht, hws⟩ := List.map_eq_cons_iff.1 hvs
      obtain rfl : t.kind = kind := congrArg Lexeme.kind ht
      obtain ⟨right, hright, hrest, hshows⟩ :=
        (ihr (precedence_le hop hform) ws hws stop hs).expression (hs.mono hedge)
      rw [List.append_assoc]
      exact (ihl hfloor us hus _ (held_cons hop hinner _)).binary hop hform hbind hright hrest
        hshows node callee
  | @array floor edge es pieces node hn h ih =>
      intro ts hts stop _
      obtain ⟨o, body, c, rfl, ho, hbody, hc⟩ := exists_of_map_lexeme_enclosed hts
      obtain ⟨tss, hb, rfl⟩ := exists_joined hbody
      have hpieces : es.Forall₂ (fun e us => ListForm.elements.Takes (ShowsElement e) us) tss :=
        forall₂_of_map_lexeme hn fun e us hmem =>
          (h e _ hmem).takes (ih e _ hmem (Nat.zero_le _) us rfl) fun tree ht => ⟨tree, rfl, ht⟩
      have hwhole := listItems_whole .start o o ListForm.elements_delimited hb hpieces hc stop rfl
        (fun _ => rfl) fun hnil => absurd hnil (ListForm.ne_nil_of_takes rfl hpieces)
      rw [show o :: body ++ [c] ++ stop = o :: (body ++ c :: stop) by simp]
      exact .of_operand (by rw [operand, ho]) (shows_array hwhole _ node) hwhole.rest
  | @call floor edge inner f fs args pieces node hf hinner hn hp h ihf ih =>
      intro ts hts stop _
      obtain ⟨us, vs, rfl, hus, hvs⟩ := List.map_eq_append_iff.1 hts
      obtain ⟨o, body, c, rfl, ho, hbody, hc⟩ := exists_of_map_lexeme_enclosed hvs
      obtain ⟨tss, hb, rfl⟩ := exists_joined hbody
      have hpieces :
          args.Forall₂ (fun arg us => ListForm.arguments.Takes (ShowsArgument arg) us) tss :=
        forall₂_of_map_lexeme hn fun arg us hmem => by
          cases arg with
          | none =>
              obtain ⟨t, rfl, ht⟩ := List.map_eq_singleton_iff.1 (hp _ hmem)
              exact .placeholder rfl (congrArg Lexeme.kind ht) .none
          | some e =>
              exact (h e _ hmem).takes (ih e _ hmem (Nat.zero_le _) us rfl) fun tree => .some
      have hwhole := listItems_whole .start o o ListForm.arguments_delimited hb hpieces hc stop rfl
        (fun _ => rfl) fun hnil => absurd hnil (ListForm.ne_nil_of_takes rfl hpieces)
      rw [show us ++ (o :: body ++ [c]) ++ stop = us ++ (o :: (body ++ c :: stop)) by simp]
      exact (ihf hfloor us hus _ (held_cons (by rw [ho]; rfl) hinner _)).call ho hfloor hwhole node
  | @index floor edge inner e i ls is node callee he hinner hi ihe ihi =>
      intro ts hts stop _
      obtain ⟨us, vs, rfl, hus, hvs⟩ := List.map_eq_append_iff.1 hts
      obtain ⟨o, body, c, rfl, ho, rfl, hc⟩ := exists_of_map_lexeme_enclosed hvs
      have hpieces :
          [i].Forall₂ (fun i us => ListForm.components.Takes (ShowsElement i) us) [body] :=
        .cons (hi.takes (ihi (Nat.zero_le _) body rfl) fun tree ht => ⟨tree, rfl, ht⟩) .nil
      have hwhole := listItems_whole .start o o ListForm.components_delimited (.single body) hpieces
        hc stop rfl (fun _ => rfl) fun hnil => by
          obtain rfl := List.singleton_inj.1 hnil
          exact absurd rfl hi.ne_nil
      rw [show us ++ (o :: body ++ [c]) ++ stop = us ++ (o :: (body ++ c :: stop)) by simp]
      exact (ihe hfloor us hus _ (held_cons (by rw [ho]; rfl) hinner _)).index ho hfloor hwhole node
        callee
  | @slice floor edge inner e a b d ls pieces node callee he hinner hn hp h ihe ih =>
      intro ts hts stop _
      obtain ⟨us, vs, rfl, hus, hvs⟩ := List.map_eq_append_iff.1 hts
      obtain ⟨o, body, c, rfl, ho, hbody, hc⟩ := exists_of_map_lexeme_enclosed hvs
      obtain ⟨tss, hb, rfl⟩ := exists_joined hbody
      have hpieces : [a, b, d].Forall₂
          (fun i us => ListForm.components.Takes (ShowsComponent o.span i) us) tss :=
        forall₂_of_map_lexeme hn.symm fun i us hmem => by
          by_cases hnil : us = []
          · subst hnil
            obtain ⟨_, rfl⟩ := hp i hmem
            exact .omitted rfl ⟨rfl, rfl⟩
          · have hne : us.map Token.lexeme ≠ [] := mt List.map_eq_nil_iff.1 hnil
            exact (h i _ hmem hne).takes (ih i _ hmem hne (Nat.zero_le _) us rfl) fun tree => id
      have hwhole := listItems_whole .start o o ListForm.components_delimited hb hpieces hc stop rfl
        (fun _ => rfl) fun hnil => by simp [hnil] at hn
      rw [show us ++ (o :: body ++ [c]) ++ stop = us ++ (o :: (body ++ c :: stop)) by simp]
      exact (ihe hfloor us hus _ (held_cons (by rw [ho]; rfl) hinner _)).slice ho hfloor hwhole node
        callee

/-- Tokens whose lexemes write a tree are, as a program, read as that tree, and without a
message. -/
theorem ofTokens_of_writes {e : Tree} {ts : List Token} (h : Writes 0 0 e (ts.map Token.lexeme)) :
    Shows (ofTokens ts) e := by
  obtain ⟨l, rest, heq, -⟩ := h.exists_cons
  obtain ⟨t, us, rfl, -, -⟩ := List.map_eq_cons_iff.1 heq
  have hread := h.passes (Nat.zero_le _) _ rfl [] trivial
  rw [List.append_nil] at hread
  obtain ⟨r, hr, hrest, hshows⟩ := hread.expression trivial
  have hpieces : pieces (t :: us) = [r.tree] := by
    rw [pieces, hr]
    simp only [hrest, pieces]
  rw [ofTokens, hpieces]
  change Shows (r.tree.addMessages []) e
  rwa [addMessages_nil]

end Tree

end LazyLang
