import LazyLang.Proofs.Grammar.Exactness
import LazyLang.Proofs.Tokens.Tiling

/-!
# Nodes recover their tokens

The span of a node leads back to the tokens that the node was read from, up to parentheses. These
leave no trace in a tree: an operand in parentheses has the span of what is between them, and lends
it to a node that it is the first or the last part of. So the tokens inside the span of a node are
those it was read from without the parentheses at either end in which an operand stands
(`Tree.exists_reading_ofTokens`), and all of them where there are no such parentheses.
-/

namespace LazyLang

/-- The tokens that an expression is read from. Before `inner` and after it there are the
parentheses in which operands at either end stand, or the expression itself. -/
structure Stretch where
  opening : List Token
  inner : List Token
  closing : List Token
  kind_opening : ∀ t ∈ opening, t.kind = .openParen
  inner_ne_nil : inner ≠ []
  kind_closing : ∀ t ∈ closing, t.kind = .closeParen

namespace Stretch

/-- All tokens of the stretch. -/
def tokens (s : Stretch) : List Token := s.opening ++ s.inner ++ s.closing

/-- From the first to the last token inside the parentheses. -/
def span (s : Stretch) : Span :=
  ⟨(s.inner.head s.inner_ne_nil).span.start, (s.inner.getLast s.inner_ne_nil).span.stop⟩

/-- Some tokens without parentheses at their ends that would have to be left out. -/
def bare (t : Token) (ts : List Token) : Stretch where
  opening := []
  inner := t :: ts
  closing := []
  kind_opening := by simp
  inner_ne_nil := List.cons_ne_nil t ts
  kind_closing := by simp

/-- The stretch in one more pair of parentheses. -/
def grouped (o c : Token) (ho : o.kind = .openParen) (hc : c.kind = .closeParen) (s : Stretch) :
    Stretch where
  opening := o :: s.opening
  inner := s.inner
  closing := s.closing ++ [c]
  kind_opening := List.forall_mem_cons.2 ⟨ho, s.kind_opening⟩
  inner_ne_nil := s.inner_ne_nil
  kind_closing := List.forall_mem_append.2 ⟨s.kind_closing, by simpa using hc⟩

/-- One stretch after the other. The parentheses between them are inside the whole. -/
def append (l r : Stretch) : Stretch where
  opening := l.opening
  inner := l.inner ++ (l.closing ++ r.opening ++ r.inner)
  closing := r.closing
  kind_opening := l.kind_opening
  inner_ne_nil := List.append_ne_nil_of_left_ne_nil l.inner_ne_nil _
  kind_closing := r.kind_closing

instance : Append Stretch := ⟨append⟩

variable {l r s : Stretch}

@[simp] theorem tokens_bare (t : Token) (ts : List Token) : (bare t ts).tokens = t :: ts :=
  List.append_nil _

@[simp] theorem tokens_grouped {o c : Token} (ho : o.kind = .openParen) (hc : c.kind = .closeParen)
    (s : Stretch) : (s.grouped o c ho hc).tokens = o :: s.tokens ++ [c] := by
  simp [tokens, grouped]

@[simp] theorem tokens_append (l r : Stretch) : (l ++ r).tokens = l.tokens ++ r.tokens := by
  change l.opening ++ (l.inner ++ (l.closing ++ r.opening ++ r.inner)) ++ r.closing = _
  simp [tokens]

@[simp] theorem span_bare (t : Token) : (bare t []).span = t.span := rfl

@[simp] theorem span_bare_concat (o c : Token) (body : List Token) :
    (bare o (body ++ [c])).span = ⟨o.span.start, c.span.stop⟩ := by
  simp [span, bare]

@[simp] theorem span_append (l r : Stretch) : (l ++ r).span = ⟨l.span.start, r.span.stop⟩ := by
  have hfirst : (l ++ r).span.start = l.span.start :=
    congrArg (·.span.start) (List.head_append_left l.inner_ne_nil)
  have hlast : (l ++ r).span.stop = r.span.stop := by
    change ((l.inner ++ (l.closing ++ r.opening ++ r.inner)).getLast _).span.stop = _
    rw [List.getLast_append_right (by simp [r.inner_ne_nil]),
      List.getLast_append_right r.inner_ne_nil]
    rfl
  rw [← hfirst, ← hlast]

theorem head_mem_tokens (s : Stretch) : s.inner.head s.inner_ne_nil ∈ s.tokens := by
  simp [tokens]

theorem getLast_mem_tokens (s : Stretch) : s.inner.getLast s.inner_ne_nil ∈ s.tokens := by
  simp [tokens]

/-- Nothing is left out just where there are no parentheses at the ends. -/
theorem inner_eq_tokens_iff : s.inner = s.tokens ↔ s.opening = [] ∧ s.closing = [] := by
  constructor
  · intro h
    have hlength := congrArg List.length h
    simp only [tokens, List.length_append] at hlength
    exact ⟨List.length_eq_zero_iff.1 (by omega), List.length_eq_zero_iff.1 (by omega)⟩
  · rintro ⟨hopening, hclosing⟩
    simp [tokens, hopening, hclosing]

end Stretch

section Order

variable {tokens xs ys : List Token}

theorem Location.Before.not_le {a b : Location} (h : a.Before b) : ¬b.le a = true := by
  rw [Location.le_iff]
  unfold Location.Before at h
  omega

/-- The tokens stand one after the other, as those of a text do. -/
structure InOrder (tokens : List Token) : Prop where
  pairwise : tokens.Pairwise fun a b => a.span.stop.le b.span.start = true
  before : ∀ t ∈ tokens, t.span.start.Before t.span.stop

namespace InOrder

theorem of_tokenize {source : String} (h : Token.tokenize source = .ok tokens) : InOrder tokens :=
  have htiles := Token.tokenize_eq_ok_iff_tiles.1 h
  ⟨htiles.pairwise, fun t ht => (htiles.le_start t ht).2⟩

theorem sublist (h : InOrder ys) (hsub : xs.Sublist ys) : InOrder xs :=
  ⟨h.pairwise.sublist hsub, fun t ht => h.before t (hsub.mem ht)⟩

variable {a b t : Token}

theorem stop_le_start (h : InOrder (xs ++ ys)) (ha : a ∈ xs) (hb : b ∈ ys) :
    a.span.stop.le b.span.start = true := (List.pairwise_append.1 h.pairwise).2.2 a ha b hb

theorem start_le_start (h : InOrder (xs ++ ys)) (ha : a ∈ xs) (hb : b ∈ ys) :
    a.span.start.le b.span.start = true :=
  Location.le_trans (h.before a (List.mem_append_left _ ha)).le (h.stop_le_start ha hb)

theorem stop_le_stop (h : InOrder (xs ++ ys)) (ha : a ∈ xs) (hb : b ∈ ys) :
    a.span.stop.le b.span.stop = true :=
  Location.le_trans (h.stop_le_start ha hb) (h.before b (List.mem_append_right _ hb)).le

theorem head_le (h : InOrder tokens) (hne : tokens ≠ []) (ht : t ∈ tokens) :
    (tokens.head hne).span.start.le t.span.start = true := by
  obtain ⟨first, rest, rfl⟩ := List.exists_cons_of_ne_nil hne
  rcases List.mem_cons.1 ht with rfl | ht
  · exact Location.le_refl _
  · have hcons : InOrder ([first] ++ rest) := h
    exact hcons.start_le_start List.mem_cons_self ht

theorem le_getLast (h : InOrder tokens) (hne : tokens ≠ []) (ht : t ∈ tokens) :
    t.span.stop.le (tokens.getLast hne).span.stop = true := by
  rw [← List.dropLast_append_getLast hne] at h ht
  rcases List.mem_append.1 ht with ht | ht
  · exact h.stop_le_stop ht List.mem_cons_self
  · rw [List.mem_singleton.1 ht]
    exact Location.le_refl _

/-- The span from the first to the last of some successive tokens covers them and no others. -/
theorem filter_covers {before ts after : List Token} (h : InOrder (before ++ ts ++ after))
    (hne : ts ≠ []) :
    (before ++ ts ++ after).filter (fun t =>
      Span.covers ⟨(ts.head hne).span.start, (ts.getLast hne).span.stop⟩ t.span) = ts := by
  have hbefore : ∀ t ∈ before, ¬(ts.head hne).span.start.le t.span.start = true := fun t ht =>
    Location.Before.not_le <| (h.before t (by simp [ht])).trans_le <|
      (h.sublist (List.sublist_append_left _ _)).stop_le_start ht (List.head_mem hne)
  have hafter : ∀ t ∈ after, ¬t.span.stop.le (ts.getLast hne).span.stop = true := fun t ht hle =>
    (h.before t (by simp [ht])).not_le <|
      Location.le_trans hle (h.stop_le_start (by simp) ht)
  have hts : InOrder ts := h.sublist (by simp)
  have hall : ∀ t ∈ ts, (ts.head hne).span.start.le t.span.start = true ∧
      t.span.stop.le (ts.getLast hne).span.stop = true :=
    fun t ht => ⟨hts.head_le hne ht, hts.le_getLast hne ht⟩
  simp only [Span.covers, List.filter_append]
  rw [List.filter_eq_nil_iff.2 fun t ht => by simp [hbefore t ht],
    List.filter_eq_self.2 fun t ht => by simp [hall t ht],
    List.filter_eq_nil_iff.2 fun t ht => by simp [hafter t ht], List.nil_append, List.append_nil]

end InOrder

theorem Span.merge_of_le {a b : Span} (hstart : a.start.le b.start = true)
    (hstop : a.stop.le b.stop = true) : a.merge b = ⟨a.start, b.stop⟩ := by
  simp [merge, Location.earlier, Location.later, hstart, hstop]

/-- The spans of two stretches one of which follows the other. -/
theorem Stretch.merge_span {l r : Stretch} (h : InOrder (l.tokens ++ r.tokens)) :
    l.span.merge r.span = ⟨l.span.start, r.span.stop⟩ :=
  Span.merge_of_le (h.start_le_start l.head_mem_tokens r.head_mem_tokens)
    (h.stop_le_stop l.getLast_mem_tokens r.getLast_mem_tokens)

end Order

namespace Tree

open LazyLang.Expr

/-- The tree is read from the stretch, and at every node, with the stretch that this node is read
from, `P` holds. Parentheses around a node as a whole are not part of the stretch at which `P` is
asked for. The names of operators are no nodes of their own here, nor is a component of a slice that
no token stands for. -/
inductive Reading (P : Tree → Stretch → Prop) : Tree → Stretch → Prop
  | token {e : Tree} {t : Token} (h : SpellsToken e t) (hP : P e (.bare t [])) :
      Reading P e (.bare t [])
  | grouped {e : Tree} {o c : Token} {s : Stretch} (ho : o.kind = .openParen)
      (hc : c.kind = .closeParen) (h : Reading P e s) : Reading P e (s.grouped o c ho hc)
  | negation {e : Tree} {m : Token} {s : Stretch} {node callee : Node Unit} (hm : m.kind = .minus)
      (h : Reading P e s)
      (hP : P (.call node (.identifier callee "neg") [some e]) (.bare m [] ++ s)) :
      Reading P (.call node (.identifier callee "neg") [some e]) (.bare m [] ++ s)
  | binary {l r : Tree} {t : Token} {ls rs : Stretch} {symbol : String} {node callee : Node Unit}
      (ht : t.kind.IsBinary) (hs : t.kind.spelling? = some symbol) (hl : Reading P l ls)
      (hr : Reading P r rs)
      (hP : P (.call node (.identifier callee symbol) [some l, some r]) (ls ++ .bare t [] ++ rs)) :
      Reading P (.call node (.identifier callee symbol) [some l, some r]) (ls ++ .bare t [] ++ rs)
  | array {o c : Token} {es : List Tree} {stretches : List Stretch} {body : List Token}
      {node : Node Unit} (ho : o.kind = .openBracket) (hc : c.kind = .closeBracket)
      (hb : Joined .comma (stretches.map Stretch.tokens) body) (hn : es.length = stretches.length)
      (h : ∀ e s, (e, s) ∈ es.zip stretches → Reading P e s)
      (hP : P (.array node es) (.bare o (body ++ [c]))) :
      Reading P (.array node es) (.bare o (body ++ [c]))
  | call {f : Tree} {o c : Token} {fs : Stretch} {args : List (Option Tree)}
      {stretches : List Stretch} {body : List Token} {node : Node Unit} (ho : o.kind = .openParen)
      (hc : c.kind = .closeParen) (hf : Reading P f fs)
      (hb : Joined .comma (stretches.map Stretch.tokens) body)
      (hn : args.length = stretches.length)
      (hp : ∀ s, (Option.none, s) ∈ args.zip stretches → IsPlaceholder s.tokens)
      (h : ∀ e s, (some e, s) ∈ args.zip stretches → Reading P e s)
      (hP : P (.call node f args) (fs ++ .bare o (body ++ [c]))) :
      Reading P (.call node f args) (fs ++ .bare o (body ++ [c]))
  | index {e i : Tree} {o c : Token} {s is : Stretch} {node callee : Node Unit}
      (ho : o.kind = .openBracket) (hc : c.kind = .closeBracket) (he : Reading P e s)
      (hi : Reading P i is)
      (hP : P (.call node (.identifier callee "[]") [some e, some i])
        (s ++ .bare o (is.tokens ++ [c]))) :
      Reading P (.call node (.identifier callee "[]") [some e, some i])
        (s ++ .bare o (is.tokens ++ [c]))
  | slice {e a b d : Tree} {o c : Token} {s : Stretch} {stretches : List (Option Stretch)}
      {body : List Token} {node callee : Node Unit} (ho : o.kind = .openBracket)
      (hc : c.kind = .closeBracket) (he : Reading P e s)
      (hb : Joined .colon (stretches.map (·.elim [] Stretch.tokens)) body)
      (hn : stretches.length = 3 ∨ stretches.length = 2 ∧ ∃ n, d = .none n)
      (hp : ∀ i, (i, Option.none) ∈ [a, b, d].zip stretches → ∃ n, i = .none n)
      (h : ∀ i is, (i, some is) ∈ [a, b, d].zip stretches → Reading P i is)
      (hP : P (.call node (.identifier callee "[:]") [some e, some a, some b, some d])
        (s ++ .bare o (body ++ [c]))) :
      Reading P (.call node (.identifier callee "[:]") [some e, some a, some b, some d])
        (s ++ .bare o (body ++ [c]))

/-- The span of the tree, out of all `tokens`, leads back to the stretch without the parentheses at
its ends. -/
structure Recovers (tokens : List Token) (e : Tree) (s : Stretch) : Prop where
  isInfix : s.tokens <:+: tokens
  consumed : e.consumedTokens tokens = s.inner
  whole : e.consumedTokens tokens = s.tokens ↔ s.opening = [] ∧ s.closing = []

variable {tokens ts us body : List Token} {e : Tree} {s : Stretch}

theorem consumedTokens_of_span (h : InOrder tokens) (hs : s.tokens <:+: tokens)
    (hspan : e.span = s.span) : e.consumedTokens tokens = s.inner := by
  obtain ⟨before, after, rfl⟩ := hs
  have hsplit : before ++ s.tokens ++ after =
      before ++ s.opening ++ s.inner ++ (s.closing ++ after) := by
    simp [Stretch.tokens]
  rw [consumedTokens, hspan, hsplit]
  exact InOrder.filter_covers (hsplit ▸ h) s.inner_ne_nil

theorem recovers_of_span (h : InOrder tokens) (hs : s.tokens <:+: tokens)
    (hspan : e.span = s.span) : Recovers tokens e s := by
  have hconsumed := consumedTokens_of_span h hs hspan
  exact ⟨hs, hconsumed, hconsumed ▸ Stretch.inner_eq_tokens_iff⟩

/-- The tree is read from a stretch that consists of these tokens and has its span, and every node
of it recovers its own stretch. -/
def ReadBack (tokens : List Token) (e : Tree) (ts : List Token) : Prop :=
  ∃ s : Stretch, s.tokens = ts ∧ e.span = s.span ∧ Reading (Recovers tokens) e s

/-- If a node has the span of its stretch, it is enough to read it given that it recovers it. -/
theorem ReadBack.of_span (h : InOrder tokens) (hts : s.tokens = ts) (hin : ts <:+: tokens)
    (hspan : e.span = s.span) (hread : Recovers tokens e s → Reading (Recovers tokens) e s) :
    ReadBack tokens e ts :=
  ⟨s, hts, hspan, hread (recovers_of_span h (hts ▸ hin) hspan)⟩

/-- If at each place of two lists there is something that `f` takes to the entry of the second, and
that `Q` relates to the entry of the first, these things make a list. -/
theorem exists_map_eq {α β ρ : Type} {f : ρ → β} {Q : α → ρ → Prop} {as : List α} {bs : List β}
    (hn : bs.length ≤ as.length) (h : ∀ a b, (a, b) ∈ as.zip bs → ∃ r, f r = b ∧ Q a r) :
    ∃ rs, rs.map f = bs ∧ ∀ a r, (a, r) ∈ as.zip rs → Q a r := by
  induction bs generalizing as with
  | nil => exact ⟨[], rfl, by simp⟩
  | cons b bs ih =>
      cases as with
      | nil => cases hn
      | cons a as =>
          obtain ⟨r, rfl, hr⟩ := h a b (by simp)
          obtain ⟨rs, rfl, hrs⟩ :=
            ih (Nat.le_of_succ_le_succ hn) fun a b hab => h a b (List.mem_cons_of_mem _ hab)
          refine ⟨r :: rs, rfl, fun a' r' hmem => ?_⟩
          rcases List.mem_cons.1 hmem with heq | hmem
          · cases heq
            exact hr
          · exact hrs a' r' hmem

/-- The same, if the tokens stand among all those of the text. Others need not be in order, so that
nothing could be said of a span merged from theirs. -/
def ReadWithin (tokens : List Token) (e : Tree) (ts : List Token) : Prop :=
  ts ≠ [] ∧ (ts <:+: tokens → ReadBack tokens e ts)

theorem span_of_ofToken? {t : Token} (he : ofToken? t = some e) : e.span = t.span := by
  unfold ofToken? at he
  split at he <;> cases he <;> try rfl
  -- an integer has the span of its token whether it fits or not
  simp only [ofInteger]
  split <;> rfl

variable {o c : Token}

theorem infix_enclosed (before : List Token) (hin : before ++ (o :: body ++ [c]) <:+: tokens) :
    body <:+: tokens :=
  List.IsInfix.trans ⟨before ++ [o], [c], by simp⟩ hin

theorem readWithin_grouped (ho : o.kind = .openParen) (hc : c.kind = .closeParen)
    (h : ReadWithin tokens e ts) : ReadWithin tokens e (o :: ts ++ [c]) := by
  refine ⟨List.cons_ne_nil _ _, fun hin => ?_⟩
  obtain ⟨s, rfl, hspan, hread⟩ := h.2 (infix_enclosed [] hin)
  exact ⟨s.grouped o c ho hc, by simp, hspan, .grouped ho hc hread⟩

section Order

variable (h : InOrder tokens)
include h

theorem readWithin_token {t : Token} (he : ofToken? t = some e) (hm : e.allMessages = []) :
    ReadWithin tokens e [t] :=
  ⟨List.cons_ne_nil _ _, fun hin => .of_span (s := .bare t []) h rfl hin (span_of_ofToken? he)
    (.token (spellsToken_of_ofToken? he hm))⟩

/-- The span from a stretch to another one after it. -/
theorem merge_span_of_sublist {l r : Stretch} (hin : ts <:+: tokens)
    (hsub : (l.tokens ++ r.tokens).Sublist ts) :
    l.span.merge r.span = ⟨l.span.start, r.span.stop⟩ :=
  Stretch.merge_span (h.sublist (hsub.trans hin.sublist))

theorem readWithin_negation {m : Token} (hm : m.kind = .minus) (he : ReadWithin tokens e ts) :
    ReadWithin tokens (negationOf m.span e) (m :: ts) := by
  refine ⟨List.cons_ne_nil _ _, fun hin => ?_⟩
  obtain ⟨s, rfl, hspan, hread⟩ := he.2 ((List.suffix_cons m _).isInfix.trans hin)
  have hmerge := merge_span_of_sublist h (l := .bare m []) (r := s) hin (by simp)
  refine .of_span h (by simp) hin ?_ (.negation hm hread)
  rw [Stretch.span_append, ← hmerge, ← hspan]
  rfl

theorem readWithin_binary {l r : Tree} {t : Token} {ls rs : List Token} {op : Operator}
    (hop : Operator.ofKind? t.kind = some op) (hf : op.form = .binary)
    (hl : ReadWithin tokens l ls) (hr : ReadWithin tokens r rs) :
    ReadWithin tokens (binaryOf l op.symbol t.span r) (ls ++ t :: rs) := by
  refine ⟨List.append_ne_nil_of_left_ne_nil hl.1 _, fun hin => ?_⟩
  obtain ⟨ls, rfl, hlspan, hl⟩ := hl.2 ((List.prefix_append _ _).isInfix.trans hin)
  obtain ⟨rs, rfl, hrspan, hr⟩ :=
    hr.2 (((List.suffix_cons t _).trans (List.suffix_append _ _)).isInfix.trans hin)
  have hmerge := merge_span_of_sublist h (l := ls) (r := rs) hin (by simp)
  refine .of_span h (by simp) hin ?_
    (.binary ⟨op, hop, hf⟩ (spelling?_of_binary hop hf) hl hr)
  rw [Stretch.span_append, Stretch.span_append, ← hmerge, ← hlspan, ← hrspan]
  rfl

/-- The span of a node that an opening and a closing token enclose. -/
theorem merge_span_enclosed (hin : o :: body ++ [c] <:+: tokens) :
    o.span.merge c.span = (Stretch.bare o (body ++ [c])).span := by
  rw [Stretch.span_bare_concat]
  exact merge_span_of_sublist h (l := .bare o []) (r := .bare c []) hin (by simp)

/-- The span of a node that goes on, after an operand, up to a closing token. -/
theorem merge_span_concat {s : Stretch} (hin : s.tokens ++ (o :: body ++ [c]) <:+: tokens) :
    s.span.merge c.span = (s ++ Stretch.bare o (body ++ [c])).span := by
  rw [Stretch.span_append, Stretch.span_bare_concat]
  exact merge_span_of_sublist h (l := s) (r := .bare c []) hin (by simp)

theorem readWithin_array {es : List Tree} {pieces : List (List Token)}
    (ho : o.kind = .openBracket) (hc : c.kind = .closeBracket) (hb : Joined .comma pieces body)
    (hn : es.length = pieces.length)
    (hes : ∀ e ts, (e, ts) ∈ es.zip pieces → ReadWithin tokens e ts) :
    ReadWithin tokens (.array (Node.plain (o.span.merge c.span)) es) (o :: body ++ [c]) := by
  refine ⟨List.cons_ne_nil _ _, fun hin => ?_⟩
  have hread (e : Tree) (ts : List Token) (hmem : (e, ts) ∈ es.zip pieces) :
      ∃ s : Stretch, s.tokens = ts ∧ Reading (Recovers tokens) e s := by
    have hts := (hb.isInfix (List.of_mem_zip hmem).2).trans (infix_enclosed [] hin)
    exact ((hes e ts hmem).2 hts).imp fun s hs => hs.imp_right And.right
  obtain ⟨stretches, rfl, hstretches⟩ := exists_map_eq (Nat.le_of_eq hn.symm) hread
  refine .of_span (s := .bare o (body ++ [c])) h (by simp) hin (merge_span_enclosed h hin) ?_
  exact .array ho hc hb (by simpa using hn) hstretches

theorem readWithin_call {f : Tree} {fs : List Token} {args : List (Option Tree)}
    {pieces : List (List Token)} (ho : o.kind = .openParen) (hc : c.kind = .closeParen)
    (hf : ReadWithin tokens f fs) (hb : Joined .comma pieces body)
    (hn : args.length = pieces.length)
    (hp : ∀ ts, (Option.none, ts) ∈ args.zip pieces → IsPlaceholder ts)
    (hargs : ∀ e ts, (some e, ts) ∈ args.zip pieces → ReadWithin tokens e ts) :
    ReadWithin tokens (.call (Node.plain (f.span.merge c.span)) f args)
      (fs ++ (o :: body ++ [c])) := by
  refine ⟨List.append_ne_nil_of_left_ne_nil hf.1 _, fun hin => ?_⟩
  obtain ⟨fs, rfl, hspan, hf⟩ := hf.2 ((List.prefix_append _ _).isInfix.trans hin)
  have hread (arg : Option Tree) (ts : List Token) (hmem : (arg, ts) ∈ args.zip pieces) :
      ∃ s : Stretch, s.tokens = ts ∧ (arg = Option.none → IsPlaceholder s.tokens) ∧
        ∀ e, arg = some e → Reading (Recovers tokens) e s := by
    cases arg with
    | none =>
        obtain ⟨t, ht, rfl⟩ := hp ts hmem
        exact ⟨.bare t [], rfl, fun _ => ⟨t, ht, rfl⟩, nofun⟩
    | some e =>
        have hts := (hb.isInfix (List.of_mem_zip hmem).2).trans (infix_enclosed fs.tokens hin)
        obtain ⟨s, hs, -, he⟩ := (hargs e ts hmem).2 hts
        exact ⟨s, hs, nofun, fun _ heq => Option.some.inj heq ▸ he⟩
  obtain ⟨stretches, rfl, hstretches⟩ := exists_map_eq (Nat.le_of_eq hn.symm) hread
  refine .of_span h (by simp) hin (hspan ▸ merge_span_concat h hin) ?_
  exact .call ho hc hf hb (by simpa using hn) (fun s hs => (hstretches _ s hs).1 rfl)
    fun e s hs => (hstretches _ s hs).2 e rfl

theorem readWithin_index {i : Tree} {is : List Token} (ho : o.kind = .openBracket)
    (hc : c.kind = .closeBracket) (he : ReadWithin tokens e ts) (hi : ReadWithin tokens i is) :
    ReadWithin tokens (operatorCall "[]" o.span [some e, some i] (e.span.merge c.span))
      (ts ++ (o :: is ++ [c])) := by
  refine ⟨List.append_ne_nil_of_left_ne_nil he.1 _, fun hin => ?_⟩
  obtain ⟨s, rfl, hspan, he⟩ := he.2 ((List.prefix_append _ _).isInfix.trans hin)
  obtain ⟨is, rfl, -, hi⟩ := hi.2 (infix_enclosed s.tokens hin)
  exact .of_span h (by simp) hin (hspan ▸ merge_span_concat h hin) (.index ho hc he hi)

theorem readWithin_slice {a b d : Tree} {pieces : List (List Token)} (ho : o.kind = .openBracket)
    (hc : c.kind = .closeBracket) (he : ReadWithin tokens e ts) (hb : Joined .colon pieces body)
    (hn : pieces.length = 3 ∨ pieces.length = 2 ∧ ∃ n, d = .none n)
    (hp : ∀ i, (i, []) ∈ [a, b, d].zip pieces → ∃ n, i = .none n)
    (hcomponents : ∀ i us, (i, us) ∈ [a, b, d].zip pieces → us ≠ [] → ReadWithin tokens i us) :
    ReadWithin tokens
      (operatorCall "[:]" o.span [some e, some a, some b, some d] (e.span.merge c.span))
      (ts ++ (o :: body ++ [c])) := by
  refine ⟨List.append_ne_nil_of_left_ne_nil he.1 _, fun hin => ?_⟩
  obtain ⟨s, rfl, hspan, he⟩ := he.2 ((List.prefix_append _ _).isInfix.trans hin)
  have hread (i : Tree) (us : List Token) (hmem : (i, us) ∈ [a, b, d].zip pieces) :
      ∃ is : Option Stretch, is.elim [] Stretch.tokens = us ∧
        (is = Option.none → ∃ n, i = .none n) ∧
          ∀ s, is = some s → Reading (Recovers tokens) i s := by
    by_cases hus : us = []
    · subst hus
      exact ⟨Option.none, rfl, fun _ => hp i hmem, nofun⟩
    · have hin' := (hb.isInfix (List.of_mem_zip hmem).2).trans (infix_enclosed s.tokens hin)
      obtain ⟨is, his, -, hi⟩ := (hcomponents i us hmem hus).2 hin'
      exact ⟨some is, his, nofun, fun _ heq => Option.some.inj heq ▸ hi⟩
  have hle : pieces.length ≤ [a, b, d].length := by
    rcases hn with hn | ⟨hn, -⟩ <;> simp [hn]
  obtain ⟨stretches, rfl, hstretches⟩ := exists_map_eq hle hread
  rw [List.length_map] at hn
  refine .of_span h (by simp) hin (hspan ▸ merge_span_concat h hin) ?_
  exact .slice ho hc he hb hn (fun i hi => (hstretches i _ hi).1 rfl)
    fun i is hi => (hstretches i _ hi).2 is rfl

theorem closedUnderRules_readWithin : ClosedUnderRules (ReadWithin tokens) where
  ne_nil := And.left
  token := readWithin_token h
  grouped := readWithin_grouped
  negation := readWithin_negation h
  binary := readWithin_binary h
  array := readWithin_array h
  call := readWithin_call h
  index := readWithin_index h
  slice := readWithin_slice h

end Order

variable {P : Tree → Stretch → Prop}

/-- At the root of a tree `P` holds of the whole stretch, unless a parenthesis ends it. -/
theorem Reading.root (h : Reading P e s) :
    P e s ∨ ∃ ts c, c.kind = .closeParen ∧ s.tokens = ts ++ [c] := by
  cases h with
  | grouped ho hc => exact .inr ⟨_, _, hc, Stretch.tokens_grouped ho hc _⟩
  | token _ hP | negation _ _ hP | binary _ _ _ _ hP | array _ _ _ _ _ hP
  | call _ _ _ _ _ _ _ hP | index _ _ _ _ hP | slice _ _ _ _ _ _ _ hP => exact .inl hP

/-- The tree of a text without messages is read from all its tokens, and every node of it recovers
those that it is read from itself: the tokens inside its span are its stretch up to the parentheses
at the ends in which operands stand. -/
theorem exists_reading_ofTokens {source : String} (htokens : Token.tokenize source = .ok tokens)
    (hm : (ofTokens tokens).allMessages = []) :
    ∃ s : Stretch, s.tokens = tokens ∧ Reading (Recovers tokens) (ofTokens tokens) s := by
  have hclosed := closedUnderRules_readWithin (InOrder.of_tokenize htokens)
  obtain ⟨s, hs, -, hread⟩ := (of_allMessages_ofTokens hclosed hm).2 List.infix_rfl
  exact ⟨s, hs, hread⟩

section Sample

/-- The tokens of `(a) + b`. -/
def sumTokens : List Token :=
  [.ofText .openParen "(" ⟨0, 0⟩, .ofText .identifier "a" ⟨0, 1⟩, .ofText .closeParen ")" ⟨0, 2⟩,
    .ofText .plus "+" ⟨0, 4⟩, .ofText .identifier "b" ⟨0, 6⟩]

theorem tokenize_sum : Token.tokenize "(a) + b" = .ok sumTokens := by
  decide +kernel

theorem allMessages_ofTokens_sum : (ofTokens sumTokens).allMessages = [] :=
  List.isEmpty_iff.1 (by decide +kernel)

theorem exists_reading_ofTokens_sum :
    Token.tokenize "(a) + b" = .ok sumTokens ∧ (ofTokens sumTokens).allMessages = [] ∧
      ∃ s : Stretch, s.tokens = sumTokens ∧
        Reading (Recovers sumTokens) (ofTokens sumTokens) s :=
  ⟨tokenize_sum, allMessages_ofTokens_sum,
    exists_reading_ofTokens tokenize_sum allMessages_ofTokens_sum⟩

/-- The whole sum does not recover the parenthesis that it begins with. -/
theorem not_reading_whole :
    Token.tokenize "(a) + b" = .ok sumTokens ∧ (ofTokens sumTokens).allMessages = [] ∧
      ¬∃ s : Stretch, s.tokens = sumTokens ∧
        Reading (fun e s => e.consumedTokens sumTokens = s.tokens) (ofTokens sumTokens) s := by
  refine ⟨tokenize_sum, allMessages_ofTokens_sum, fun ⟨s, hs, hread⟩ => ?_⟩
  have hless : (ofTokens sumTokens).consumedTokens sumTokens ≠ sumTokens := by decide +kernel
  rcases hread.root with hwhole | ⟨ts, c, hc, hlast⟩
  · exact hless (hwhole.trans hs)
  · have hend : sumTokens.getLast? = some c := by rw [← hs, hlast, List.getLast?_concat]
    cases hend
    cases hc

end Sample

end Tree

end LazyLang
