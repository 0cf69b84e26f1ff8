import LazyLang.Proofs.Grammar.Precedence

/-!
# Where parentheses are needed

`Term` is the syntax of names, non-negative integers, operators, calls and indices. A term is
written with parentheses around a part only where precedence and associativity ask for them
(`Term.lexemes`): around an operand that would otherwise be drawn apart by the operator next to it,
and around whatever is called or indexed unless it is of one piece. Tokens with these lexemes are
read as the tree of the term (`Term.ofTokens_of_lexemes`).
-/

namespace LazyLang

/-- No operator binds as tightly as a minus sign. -/
theorem Operator.precedence_ne_unary {kind : TokenKind} {op : Operator}
    (h : Operator.ofKind? kind = some op) : op.precedence ≠ Operator.unaryPrecedence := by
  cases kind <;> cases h <;> decide

/-- The precedence of an operator decides to which side it associates. -/
theorem Operator.toRight_eq {kind : TokenKind} {op : Operator}
    (h : Operator.ofKind? kind = some op) : op.toRight = decide (op.precedence ∈ [5, 11, 13]) := by
  cases kind <;> cases h <;> rfl

/-- A binary operator with the kind of its token. -/
structure BinaryOperator where
  kind : TokenKind
  operator : Operator
  ofKind : Operator.ofKind? kind = some operator
  form : operator.form = .binary

namespace BinaryOperator

/-- How tightly the operator binds. -/
def precedence (op : BinaryOperator) : Nat := op.operator.precedence

/-- Whether the operator associates to the right. -/
def toRight (op : BinaryOperator) : Bool := op.operator.toRight

theorem precedence_le (op : BinaryOperator) : op.precedence ≤ 13 :=
  Tree.precedence_le op.ofKind op.form

/-- Operators of one precedence associate to the same side. -/
theorem toRight_congr {op other : BinaryOperator} (h : op.precedence = other.precedence) :
    op.toRight = other.toRight := by
  rw [precedence, precedence] at h
  rw [toRight, toRight, Operator.toRight_eq op.ofKind, Operator.toRight_eq other.ofKind, h]

theorem bindsOver_iff {op : BinaryOperator} {floor : Nat} :
    op.operator.bindsOver floor = true ↔
      floor < op.precedence ∨ (op.precedence = floor ∧ op.toRight = true) := by
  simp [Operator.bindsOver, precedence, toRight]

theorem bindsOver_eq_false_iff {op : BinaryOperator} {floor : Nat} :
    op.operator.bindsOver floor = false ↔
      op.precedence ≤ floor ∧ (op.precedence = floor → op.toRight = false) := by
  simp [Operator.bindsOver, precedence, toRight]

theorem bindsOver_of_lt {op : BinaryOperator} {floor : Nat} (h : floor < op.precedence) :
    op.operator.bindsOver floor = true := bindsOver_iff.2 (.inl h)

theorem le_of_bindsOver {op : BinaryOperator} {floor : Nat}
    (h : op.operator.bindsOver floor = true) : floor ≤ op.precedence := by
  rcases bindsOver_iff.1 h with h | ⟨h, -⟩
  · exact Nat.le_of_lt h
  · exact Nat.le_of_eq h.symm

end BinaryOperator

/-- Names, integers, operators, calls and indices. An argument of a call that is `none` is a
placeholder. -/
inductive Term where
  | name (text : String)
  | integer (n : Nat) (h : n < 2 ^ 63)
  | negation (e : Term)
  | binary (op : BinaryOperator) (l r : Term)
  | call (f : Term) (args : List (Option Term))
  | index (e i : Term)

namespace Term

mutual

/-- The tree of a term, without places. -/
def tree : Term → Tree
  | name text => .identifier (Node.plain Span.origin) text
  | integer n _ => .integer (Node.plain Span.origin) (Int64.ofNat n)
  | negation e => Tree.operatorCall "neg" Span.origin [some e.tree] Span.origin
  | binary op l r =>
    Tree.operatorCall op.operator.symbol Span.origin [some l.tree, some r.tree] Span.origin
  | call f args => .call (Node.plain Span.origin) f.tree (argTrees args)
  | index e i => Tree.operatorCall "[]" Span.origin [some e.tree, some i.tree] Span.origin

/-- The trees of the arguments of a call. -/
def argTrees : List (Option Term) → List (Option Tree)
  | [] => []
  | none :: rest => none :: argTrees rest
  | some e :: rest => some e.tree :: argTrees rest

end

/-- Whether parentheses are needed around a left operand of the operator. -/
def leftNeeds (op : BinaryOperator) : Term → Bool
  | binary inner _ _ =>
    inner.precedence < op.precedence || (inner.precedence = op.precedence && op.toRight)
  | negation _ => op.precedence > Operator.unaryPrecedence
  | _ => false

/-- Whether parentheses are needed around a right operand of the operator. -/
def rightNeeds (op : BinaryOperator) : Term → Bool
  | binary inner _ _ =>
    inner.precedence < op.precedence || (inner.precedence = op.precedence && !op.toRight)
  | _ => false

/-- Whether parentheses are needed after a minus sign. -/
def operandNeeds : Term → Bool
  | binary inner _ _ => inner.precedence < Operator.unaryPrecedence
  | _ => false

/-- Whether parentheses are needed around what is called or indexed. -/
def targetNeeds : Term → Bool
  | binary _ _ _ | negation _ => true
  | _ => false

/-- The lexemes with parentheses around them where they are needed. -/
def enclosed (needed : Bool) (ls : List Lexeme) : List Lexeme :=
  if needed then TokenKind.openParen.lexeme :: ls ++ [TokenKind.closeParen.lexeme] else ls

mutual

/-- What a term is written as. -/
def lexemes : Term → List Lexeme
  | name text => [⟨.identifier, text⟩]
  | integer n _ => [⟨.integer, toString n⟩]
  | negation e => TokenKind.minus.lexeme :: enclosed e.operandNeeds e.lexemes
  | binary op l r =>
    enclosed (l.leftNeeds op) l.lexemes ++ op.kind.lexeme :: enclosed (r.rightNeeds op) r.lexemes
  | call f args =>
    enclosed f.targetNeeds f.lexemes ++ (TokenKind.openParen.lexeme ::
      Lexeme.joined .comma (argLexemes args) ++ [TokenKind.closeParen.lexeme])
  | index e i =>
    enclosed e.targetNeeds e.lexemes ++
      (TokenKind.openBracket.lexeme :: i.lexemes ++ [TokenKind.closeBracket.lexeme])

/-- What the arguments of a call are written as. -/
def argLexemes : List (Option Term) → List (List Lexeme)
  | [] => []
  | none :: rest => [TokenKind.underscore.lexeme] :: argLexemes rest
  | some e :: rest => e.lexemes :: argLexemes rest

end

/-- A term that can be read at the precedence `floor` without parentheses and leaves nothing open
below `edge`. -/
def Fits (floor edge : Nat) : Term → Prop
  | negation _ => edge ≤ 13
  | binary op _ _ => op.operator.bindsOver floor = true ∧ edge ≤ op.precedence
  | _ => True

/-- A term is written by its lexemes wherever it needs no parentheses. -/
def IsWritten (e : Term) : Prop :=
  ∀ floor edge, e.Fits floor edge → Tree.Writes floor edge e.tree e.lexemes

theorem fits_zero (e : Term) : e.Fits 0 0 := by
  cases e with
  | negation => exact Nat.zero_le _
  | binary op => exact ⟨bindsOver_zero op.ofKind, Nat.zero_le _⟩
  | name | integer | call | index => trivial

theorem IsWritten.enclosed {e : Term} {floor edge : Nat} {needed : Bool} (h : e.IsWritten)
    (hfits : needed = false → e.Fits floor edge) :
    Tree.Writes floor edge e.tree (enclosed needed e.lexemes) := by
  cases needed with
  | true => exact .grouped (h 0 0 e.fits_zero)
  | false => exact h floor edge (hfits rfl)

/-- A left operand that needs no parentheses is read before the operator. -/
theorem fits_of_left {inner op : BinaryOperator} {l r : Term} {floor : Nat}
    (hfloor : op.operator.bindsOver floor = true)
    (hneeds : (binary inner l r).leftNeeds op = false) :
    op.operator.bindsOver inner.precedence = false ∧
      (binary inner l r).Fits floor inner.precedence := by
  simp only [leftNeeds, Bool.or_eq_false_iff, Bool.and_eq_false_imp, decide_eq_false_iff_not,
    decide_eq_true_eq, Nat.not_lt] at hneeds
  obtain ⟨hle, hleft⟩ := hneeds
  refine ⟨BinaryOperator.bindsOver_eq_false_iff.2 ⟨hle, fun h => hleft h.symm⟩, ?_, Nat.le_refl _⟩
  rcases Nat.eq_or_lt_of_le hle with heq | hlt
  · have hsame := BinaryOperator.toRight_congr heq
    rw [BinaryOperator.bindsOver_iff, heq, hsame] at hfloor
    exact BinaryOperator.bindsOver_iff.2 hfloor
  · exact BinaryOperator.bindsOver_of_lt
      (Nat.lt_of_le_of_lt (BinaryOperator.le_of_bindsOver hfloor) hlt)

/-- An operator does not draw the left operand written before it apart. -/
theorem IsWritten.left {e : Term} {op : BinaryOperator} {floor : Nat} (h : e.IsWritten)
    (hfloor : op.operator.bindsOver floor = true) :
    ∃ inner, op.operator.bindsOver inner = false ∧
      Tree.Writes floor inner e.tree (Term.enclosed (e.leftNeeds op) e.lexemes) := by
  have hhigh : op.operator.bindsOver 14 = false :=
    Operator.not_bindsOver_of_lt (Nat.lt_succ_of_le op.precedence_le)
  by_cases hneeds : e.leftNeeds op = true
  · rw [hneeds]
    exact ⟨14, hhigh, .grouped (h 0 0 e.fits_zero)⟩
  · rw [Bool.not_eq_true] at hneeds
    rw [hneeds]
    cases e with
    | binary inner l r =>
        obtain ⟨hedge, hfits⟩ := fits_of_left hfloor hneeds
        exact ⟨inner.precedence, hedge, h _ _ hfits⟩
    | negation e =>
        have hle : op.precedence ≤ 12 := by simpa [leftNeeds, Operator.unaryPrecedence] using hneeds
        exact ⟨13, Operator.not_bindsOver_of_lt (Nat.lt_succ_of_le hle), h _ _ (Nat.le_refl _)⟩
    | name | integer | call | index => exact ⟨14, hhigh, h _ _ trivial⟩

/-- The right operand of an operator is read at the precedence of the operator. -/
theorem fits_of_right {e : Term} {op : BinaryOperator} {edge : Nat} (hedge : edge ≤ op.precedence)
    (hneeds : e.rightNeeds op = false) : e.Fits op.precedence edge := by
  cases e with
  | binary inner l r =>
      simp only [rightNeeds, Bool.or_eq_false_iff, Bool.and_eq_false_imp, decide_eq_false_iff_not,
        decide_eq_true_eq, Nat.not_lt, Bool.not_eq_false'] at hneeds
      obtain ⟨hle, hright⟩ := hneeds
      refine ⟨BinaryOperator.bindsOver_iff.2 ?_, Nat.le_trans hedge hle⟩
      rcases Nat.eq_or_lt_of_le hle with heq | hlt
      · exact .inr ⟨heq.symm, (BinaryOperator.toRight_congr heq.symm).trans (hright heq.symm)⟩
      · exact .inl hlt
  | negation e => exact Nat.le_trans hedge op.precedence_le
  | name | integer | call | index => trivial

/-- The operand of a minus sign is read at the precedence of the sign. -/
theorem fits_of_operand {e : Term} {edge : Nat} (hedge : edge ≤ 13)
    (hneeds : e.operandNeeds = false) : e.Fits Operator.unaryPrecedence edge := by
  cases e with
  | binary inner l r =>
      simp only [operandNeeds, decide_eq_false_iff_not, Nat.not_lt] at hneeds
      have hlt := Nat.lt_of_le_of_ne hneeds (Operator.precedence_ne_unary inner.ofKind).symm
      exact ⟨BinaryOperator.bindsOver_of_lt hlt, Nat.le_trans hedge hlt⟩
  | negation e => exact hedge
  | name | integer | call | index => trivial

/-- What is called or indexed can be read at every precedence and leaves nothing open. -/
theorem fits_of_target {e : Term} (floor edge : Nat) (hneeds : e.targetNeeds = false) :
    e.Fits floor edge := by
  cases e with
  | binary | negation => cases hneeds
  | name | integer | call | index => trivial

theorem isWritten_integer (n : Nat) (h : n < 2 ^ 63) : (integer n h).IsWritten := by
  intro floor edge _
  refine .token fun t ht => ?_
  obtain ⟨hkind, htext⟩ := Lexeme.mk.inj ht
  refine .integer _ hkind ?_
  rw [htext, numberOfDigits_toString, Int64.toInt_ofNat_of_lt h]

mutual

/-- Every term is written by its lexemes. -/
theorem isWritten : ∀ e : Term, e.IsWritten
  | name text => fun floor edge _ => .token fun t ht => by
      obtain ⟨hkind, rfl⟩ := Lexeme.mk.inj ht
      exact .identifier _ hkind
  | integer n h => isWritten_integer n h
  | negation e => fun floor edge hedge =>
      .negation _ _ hedge ((isWritten e).enclosed (fits_of_operand hedge))
  | binary op l r => fun floor edge ⟨hfloor, hedge⟩ => by
      obtain ⟨inner, hinner, hleft⟩ := (isWritten l).left hfloor
      exact .binary _ _ op.ofKind op.form hleft hinner hfloor
        ((isWritten r).enclosed (fits_of_right hedge)) hedge
  | call f args => fun floor edge _ =>
      .call_of_forall₂ _ ((isWritten f).enclosed (fits_of_target floor 99)) rfl
        (forall₂_writesArgument args)
  | index e i => fun floor edge _ =>
      .index _ _ ((isWritten e).enclosed (fits_of_target floor 99)) rfl
        (isWritten i 0 0 i.fits_zero)

/-- The arguments of a call are written by their lexemes. -/
theorem forall₂_writesArgument :
    ∀ args : List (Option Term), (argTrees args).Forall₂ Tree.WritesArgument (argLexemes args)
  | [] => .nil
  | none :: rest => .cons rfl (forall₂_writesArgument rest)
  | some e :: rest => .cons (isWritten e 0 0 e.fits_zero) (forall₂_writesArgument rest)

end

mutual

theorem bare_tree : ∀ e : Term, e.tree.bare = e.tree
  | name _ | integer _ _ => rfl
  | negation e => by simp [tree, Tree.operatorCall, Expr.bare, Expr.bareArgs, bare_tree e]
  | binary op l r => by
      simp [tree, Tree.operatorCall, Expr.bare, Expr.bareArgs, bare_tree l, bare_tree r]
  | call f args => by simp [tree, Expr.bare, bare_tree f, bareArgs_argTrees args]
  | index e i => by
      simp [tree, Tree.operatorCall, Expr.bare, Expr.bareArgs, bare_tree e, bare_tree i]

theorem bareArgs_argTrees : ∀ args : List (Option Term),
    Expr.bareArgs (argTrees args) = argTrees args
  | [] => rfl
  | none :: rest => by simp [argTrees, Expr.bareArgs, bareArgs_argTrees rest]
  | some e :: rest => by simp [argTrees, Expr.bareArgs, bare_tree e, bareArgs_argTrees rest]

end

/-- Parentheses where precedence and associativity ask for them are enough: tokens with the lexemes
of a term are read as its tree, but for the places, and without a message. -/
theorem ofTokens_of_lexemes (e : Term) (ts : List Token) (h : ts.map Token.lexeme = e.lexemes) :
    (Tree.ofTokens ts).bare = e.tree ∧ (Tree.ofTokens ts).allMessages = [] := by
  have hwrites := e.isWritten 0 0 e.fits_zero
  rw [← h] at hwrites
  obtain ⟨hbare, hm⟩ := Tree.ofTokens_of_writes hwrites
  exact ⟨hbare.trans e.bare_tree, hm⟩

section Sample

/-- A composition of a negated name with the negation of a power: `(-f) . -(g ** 2)`. -/
def sample : Term :=
  .binary ⟨.dot, ⟨".", 13, true, .binary⟩, rfl, rfl⟩ (.negation (.name "f"))
    (.negation (.binary ⟨.doubleStar, ⟨"**", 11, true, .binary⟩, rfl, rfl⟩ (.name "g")
      (.integer 2 (by decide))))

/-- The tokens of the sample, all at one place. -/
def sampleTokens : List Token :=
  [⟨.openParen, "(", Span.origin⟩, ⟨.minus, "-", Span.origin⟩, ⟨.identifier, "f", Span.origin⟩,
    ⟨.closeParen, ")", Span.origin⟩, ⟨.dot, ".", Span.origin⟩, ⟨.minus, "-", Span.origin⟩,
    ⟨.openParen, "(", Span.origin⟩, ⟨.identifier, "g", Span.origin⟩,
    ⟨.doubleStar, "**", Span.origin⟩, ⟨.integer, "2", Span.origin⟩, ⟨.closeParen, ")", Span.origin⟩]

theorem ofTokens_of_lexemes_sample :
    sampleTokens.map Token.lexeme = sample.lexemes ∧
      (Tree.ofTokens sampleTokens).bare = sample.tree ∧
        (Tree.ofTokens sampleTokens).allMessages = [] :=
  ⟨rfl, ofTokens_of_lexemes sample sampleTokens rfl⟩

end Sample

end Term

end LazyLang
