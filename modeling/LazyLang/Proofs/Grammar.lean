import LazyLang.Expr.Parser
import Mathlib.Algebra.Group.Nat.Defs
import Mathlib.Data.List.Forall2

/-!
# The grammar of expressions

`Phrase ts` says that the tokens `ts` are one expression: a name, a literal, an expression in
parentheses, after a minus sign or between binary operators, an array, a call, an element or a
slice. The relation says nothing of precedence, so a phrase may be a phrase in several ways.

`Spells e ts` says which tokens a tree accounts for. Reading the tree in order gives `ts`, where a
component of a slice that is the literal `none` may be spelled by nothing, an omitted third
component by no second colon either, and any part may stand in parentheses. Everything that a tree
spells is a phrase (`Spells.phrase`).
-/

namespace LazyLang

/-- The pieces stand one after the other, with one separator between any two of them. -/
inductive Joined (separator : TokenKind) : List (List Token) → List Token → Prop
  | nil : Joined separator [] []
  | single (ts : List Token) : Joined separator [ts] ts
  | cons {ts us body : List Token} {rest : List (List Token)} {t : Token}
      (ht : t.kind = separator) (h : Joined separator (us :: rest) body) :
      Joined separator (ts :: us :: rest) (ts ++ t :: body)

/-- Each piece stands in the list without a gap. -/
theorem Joined.isInfix {separator : TokenKind} {pieces : List (List Token)} {body ts : List Token}
    (h : Joined separator pieces body) (hts : ts ∈ pieces) : ts <:+: body := by
  induction h with
  | nil => cases hts
  | single us => exact List.mem_singleton.1 hts ▸ List.infix_rfl
  | @cons us vs body rest t _ _ ih =>
      rcases List.mem_cons.1 hts with rfl | hts
      · exact (List.prefix_append _ _).isInfix
      · exact (ih hts).trans ((List.suffix_cons t body).trans (List.suffix_append us _)).isInfix

/-- Binary operators: those that an operand follows. -/
def TokenKind.IsBinary (kind : TokenKind) : Prop :=
  ∃ op, Operator.ofKind? kind = some op ∧ op.form = .binary

/-- A literal of one token or a name. An integer has to fit 64 bits with sign. -/
def Token.IsAtom (t : Token) : Prop :=
  match t.kind with
  | .identifier | .float | .string | .trueWord | .falseWord | .noneWord => True
  | .integer => numberOfDigits t.text.toList < 2 ^ 63
  | _ => False

section Integer

variable {t : Token}

/-- An integer that fits is read as its number. -/
theorem Tree.ofInteger_of_lt (h : numberOfDigits t.text.toList < 2 ^ 63) :
    Tree.ofInteger t =
      .integer (Node.plain t.span) (Int64.ofNat (numberOfDigits t.text.toList)) :=
  if_pos h

/-- One that does not fit is reported. -/
theorem Tree.allMessages_ofInteger_of_not_lt (h : ¬numberOfDigits t.text.toList < 2 ^ 63) :
    (Tree.ofInteger t).allMessages ≠ [] := by
  have heq : Tree.ofInteger t = .integer ⟨t.span,
      [.error ("Integer literal " ++ t.text ++ " is out of range") t.span], ()⟩ 0 := if_neg h
  rw [heq]
  exact List.cons_ne_nil _ _

end Integer

/-- The tokens of a placeholder. -/
def IsPlaceholder (ts : List Token) : Prop := ∃ t : Token, t.kind = .underscore ∧ ts = [t]

/-- The tokens are one expression. -/
inductive Phrase : List Token → Prop
  | atom {t : Token} (ht : t.IsAtom) : Phrase [t]
  | grouped {o c : Token} {ts : List Token} (ho : o.kind = .openParen) (hc : c.kind = .closeParen)
      (h : Phrase ts) : Phrase (o :: ts ++ [c])
  | negation {m : Token} {ts : List Token} (hm : m.kind = .minus) (h : Phrase ts) :
      Phrase (m :: ts)
  | binary {t : Token} {ls rs : List Token} (ht : t.kind.IsBinary) (hl : Phrase ls)
      (hr : Phrase rs) : Phrase (ls ++ t :: rs)
  | array {o c : Token} {pieces : List (List Token)} {body : List Token}
      (ho : o.kind = .openBracket) (hc : c.kind = .closeBracket) (hb : Joined .comma pieces body)
      (h : ∀ ts ∈ pieces, Phrase ts) : Phrase (o :: body ++ [c])
  | call {o c : Token} {fs : List Token} {pieces : List (List Token)} {body : List Token}
      (ho : o.kind = .openParen) (hc : c.kind = .closeParen) (hf : Phrase fs)
      (hb : Joined .comma pieces body) (h : ∀ ts ∈ pieces, ¬IsPlaceholder ts → Phrase ts) :
      Phrase (fs ++ (o :: body ++ [c]))
  | index {o c : Token} {ts is : List Token} (ho : o.kind = .openBracket)
      (hc : c.kind = .closeBracket) (ht : Phrase ts) (hi : Phrase is) :
      Phrase (ts ++ (o :: is ++ [c]))
  | slice {o c : Token} {ts : List Token} {pieces : List (List Token)} {body : List Token}
      (ho : o.kind = .openBracket) (hc : c.kind = .closeBracket) (ht : Phrase ts)
      (hb : Joined .colon pieces body) (hn : pieces.length = 2 ∨ pieces.length = 3)
      (h : ∀ us ∈ pieces, us ≠ [] → Phrase us) : Phrase (ts ++ (o :: body ++ [c]))

namespace Tree

/-- The tree of one token. -/
inductive SpellsToken : Tree → Token → Prop
  | identifier {t : Token} (node : Node Unit) (ht : t.kind = .identifier) :
      SpellsToken (.identifier node t.text) t
  | integer {t : Token} {value : Int64} (node : Node Unit) (ht : t.kind = .integer)
      (hv : value.toInt = numberOfDigits t.text.toList) : SpellsToken (.integer node value) t
  | float {t : Token} (node : Node Unit) (ht : t.kind = .float) :
      SpellsToken (.float node (Decimal.ofDigits (numberOfDigits t.text.toList)
        ((t.text.toList.dropWhile (· ≠ '.')).length - 1))) t
  | string {t : Token} (node : Node Unit) (ht : t.kind = .string) :
      SpellsToken (.string node (Text.Quoted.decode t.text)) t
  | trueWord {t : Token} (node : Node Unit) (ht : t.kind = .trueWord) :
      SpellsToken (.boolean node true) t
  | falseWord {t : Token} (node : Node Unit) (ht : t.kind = .falseWord) :
      SpellsToken (.boolean node false) t
  | noneWord {t : Token} (node : Node Unit) (ht : t.kind = .noneWord) :
      SpellsToken (.none node) t

/-- Reading the tree in order gives the tokens. The trees of a list are spelled by the pieces at the
same places. -/
inductive Spells : Tree → List Token → Prop
  | token {e : Tree} {t : Token} (h : SpellsToken e t) : Spells e [t]
  | grouped {e : Tree} {o c : Token} {ts : List Token} (ho : o.kind = .openParen)
      (hc : c.kind = .closeParen) (h : Spells e ts) : Spells e (o :: ts ++ [c])
  | negation {e : Tree} {m : Token} {ts : List Token} (node callee : Node Unit)
      (hm : m.kind = .minus) (h : Spells e ts) :
      Spells (.call node (.identifier callee "neg") [some e]) (m :: ts)
  | binary {l r : Tree} {t : Token} {ls rs : List Token} {symbol : String} (node callee : Node Unit)
      (ht : t.kind.IsBinary) (hs : t.kind.spelling? = some symbol) (hl : Spells l ls)
      (hr : Spells r rs) :
      Spells (.call node (.identifier callee symbol) [some l, some r]) (ls ++ t :: rs)
  | array {o c : Token} {es : List Tree} {pieces : List (List Token)} {body : List Token}
      (node : Node Unit) (ho : o.kind = .openBracket) (hc : c.kind = .closeBracket)
      (hb : Joined .comma pieces body) (hn : es.length = pieces.length)
      (h : ∀ e ts, (e, ts) ∈ es.zip pieces → Spells e ts) :
      Spells (.array node es) (o :: body ++ [c])
  | call {f : Tree} {o c : Token} {fs : List Token} {args : List (Option Tree)}
      {pieces : List (List Token)} {body : List Token} (node : Node Unit)
      (ho : o.kind = .openParen) (hc : c.kind = .closeParen) (hf : Spells f fs)
      (hb : Joined .comma pieces body) (hn : args.length = pieces.length)
      (hp : ∀ ts, (Option.none, ts) ∈ args.zip pieces → IsPlaceholder ts)
      (h : ∀ e ts, (some e, ts) ∈ args.zip pieces → Spells e ts) :
      Spells (.call node f args) (fs ++ (o :: body ++ [c]))
  | index {e i : Tree} {o c : Token} {ts is : List Token} (node callee : Node Unit)
      (ho : o.kind = .openBracket) (hc : c.kind = .closeBracket) (he : Spells e ts)
      (hi : Spells i is) :
      Spells (.call node (.identifier callee "[]") [some e, some i]) (ts ++ (o :: is ++ [c]))
  | slice {e a b d : Tree} {o c : Token} {ts : List Token} {pieces : List (List Token)}
      {body : List Token} (node callee : Node Unit) (ho : o.kind = .openBracket)
      (hc : c.kind = .closeBracket) (he : Spells e ts) (hb : Joined .colon pieces body)
      (hn : pieces.length = 3 ∨ pieces.length = 2 ∧ ∃ n, d = .none n)
      (hp : ∀ i, (i, []) ∈ [a, b, d].zip pieces → ∃ n, i = .none n)
      (h : ∀ i us, (i, us) ∈ [a, b, d].zip pieces → us ≠ [] → Spells i us) :
      Spells (.call node (.identifier callee "[:]") [some e, some a, some b, some d])
        (ts ++ (o :: body ++ [c]))

/-- The tree of one token is that of an atom. -/
theorem SpellsToken.isAtom {e : Tree} {t : Token} (h : SpellsToken e t) : t.IsAtom := by
  cases h with
  | integer node ht hv =>
      have hlt := Int64.toInt_lt ‹Int64›
      simp only [Token.IsAtom, ht]
      omega
  | _ => simp_all [Token.IsAtom]

/-- What stands at some place of the first of two lists has a partner in the other. -/
theorem exists_zip_of_mem_right {α β : Type*} {as : List α} {bs : List β} {b : β}
    (hn : bs.length ≤ as.length) (hb : b ∈ bs) : ∃ a, (a, b) ∈ as.zip bs := by
  obtain ⟨i, hi, rfl⟩ := List.getElem_of_mem hb
  have hia : i < as.length := Nat.lt_of_lt_of_le hi hn
  refine ⟨as[i], ?_⟩
  have hz : i < (as.zip bs).length := by
    rw [List.length_zip]
    exact Nat.lt_min.mpr ⟨hia, hi⟩
  have := List.getElem_mem hz
  rwa [List.getElem_zip] at this

/-- Whatever a tree spells is a phrase. -/
theorem Spells.phrase {e : Tree} {ts : List Token} (h : Spells e ts) : Phrase ts := by
  induction h with
  | token h => exact .atom h.isAtom
  | grouped ho hc _ ih => exact .grouped ho hc ih
  | negation _ _ hm _ ih => exact .negation hm ih
  | binary _ _ ht _ _ _ ihl ihr => exact .binary ht ihl ihr
  | array _ ho hc hb hn _ ih =>
      refine .array ho hc hb fun ts hts => ?_
      obtain ⟨e, he⟩ := exists_zip_of_mem_right (Nat.le_of_eq hn.symm) hts
      exact ih e ts he
  | call _ ho hc _ hb hn hp _ ihf ih =>
      refine .call ho hc ihf hb fun ts hts hno => ?_
      obtain ⟨arg, harg⟩ := exists_zip_of_mem_right (Nat.le_of_eq hn.symm) hts
      cases arg with
      | none => exact absurd (hp ts harg) hno
      | some e => exact ih e ts harg
  | index _ _ ho hc _ _ ihe ihi => exact .index ho hc ihe ihi
  | @slice e a b d o c ts pieces body _ _ ho hc _ hb hn _ _ ihe ih =>
      refine .slice ho hc ihe hb (hn.symm.imp And.left id) fun us hus hne => ?_
      have hle : pieces.length ≤ [a, b, d].length := by
        rcases hn with hn | ⟨hn, -⟩ <;> simp [hn]
      obtain ⟨i, hi⟩ := exists_zip_of_mem_right hle hus
      exact ih i us hi hne

end Tree

end LazyLang
