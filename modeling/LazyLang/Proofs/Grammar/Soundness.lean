import LazyLang.Proofs.Grammar
import LazyLang.Proofs.Grammar.Consumption

/-!
# What is read is spelled

Every rule reads the tokens from the front of the list up to its rest. If the tree it gives has no
message anywhere, then the tree accounts for exactly the tokens read: whatever a rule drops, repeats
or skips over leaves a message behind. This is proved once for every relation between trees and
tokens that the rules keep (`Tree.ClosedUnderRules`, `Tree.expression_reads`). That a tree spells
tokens is one of them.
-/

namespace LazyLang

namespace Expr

variable {α : Type}

@[simp] theorem addMessages_nil (e : Expr α) : e.addMessages [] = e := by
  cases e <;> simp [addMessages, withNode, node]

theorem allMessages_addMessages (messages : List Message) (e : Expr α) :
    (e.addMessages messages).allMessages = e.allMessages ++ messages := by
  cases e <;> simp [addMessages, withNode, node, allMessages]

theorem elementMessages_filterMap_id (items : List (Option (Expr α))) :
    elementMessages (items.filterMap id) = argMessages items := by
  induction items with
  | nil => rfl
  | cons item rest ih =>
      cases item with
      | none => exact ih
      | some e => exact congrArg (e.allMessages ++ ·) ih

theorem argMessages_eq_nil {items : List (Option (Expr α))} :
    argMessages items = [] ↔ ∀ e, some e ∈ items → e.allMessages = [] := by
  induction items with
  | nil => simp [argMessages]
  | cons item rest ih =>
      cases item with
      | none => simpa [argMessages] using ih
      | some e => simp [argMessages, ih]

end Expr

namespace Tree

open LazyLang.Expr

/-- A tree spells at least one token. -/
theorem Spells.ne_nil {e : Tree} {ts : List Token} (h : Spells e ts) : ts ≠ [] := by
  cases h <;> simp

/-- A tree that spells tokens holds no unrecognized ones at its root. -/
theorem Spells.isUnrecognized {e : Tree} {ts : List Token} (h : Spells e ts) :
    e.isUnrecognized = false := by
  induction h with
  | token h => cases h <;> rfl
  | grouped _ _ _ ih => exact ih
  | _ => rfl

/-- An expression of one token spells it, unless it is an integer too large. -/
theorem spellsToken_of_ofToken? {t : Token} {e : Tree} (h : ofToken? t = some e)
    (hm : e.allMessages = []) : SpellsToken e t := by
  unfold ofToken? at h
  split at h <;> cases h
  next ht => exact .string _ ht
  next ht => exact .float _ ht
  next ht =>
    by_cases hlt : numberOfDigits t.text.toList < 2 ^ 63
    · rw [ofInteger_of_lt hlt]
      exact .integer _ ht (Int64.toInt_ofNat_of_lt hlt)
    · exact absurd hm (allMessages_ofInteger_of_not_lt hlt)
  next ht => exact .trueWord _ ht
  next ht => exact .falseWord _ ht
  next ht => exact .noneWord _ ht
  next ht => exact .identifier _ ht

/-- What the rules build without a message, from parts for which `S` holds, `S` holds for too. -/
structure ClosedUnderRules (S : Tree → List Token → Prop) : Prop where
  ne_nil {e : Tree} {ts : List Token} (h : S e ts) : ts ≠ []
  token {e : Tree} {t : Token} (he : ofToken? t = some e) (hm : e.allMessages = []) : S e [t]
  grouped {e : Tree} {o c : Token} {ts : List Token} (ho : o.kind = .openParen)
    (hc : c.kind = .closeParen) (h : S e ts) : S e (o :: ts ++ [c])
  negation {e : Tree} {m : Token} {ts : List Token} (hm : m.kind = .minus) (h : S e ts) :
    S (negationOf m.span e) (m :: ts)
  binary {l r : Tree} {t : Token} {ls rs : List Token} {op : Operator}
    (hop : Operator.ofKind? t.kind = some op) (hf : op.form = .binary) (hl : S l ls) (hr : S r rs) :
    S (binaryOf l op.symbol t.span r) (ls ++ t :: rs)
  array {o c : Token} {es : List Tree} {pieces : List (List Token)} {body : List Token}
    (ho : o.kind = .openBracket) (hc : c.kind = .closeBracket) (hb : Joined .comma pieces body)
    (hn : es.length = pieces.length) (h : ∀ e ts, (e, ts) ∈ es.zip pieces → S e ts) :
    S (.array (Node.plain (o.span.merge c.span)) es) (o :: body ++ [c])
  call {f : Tree} {o c : Token} {fs : List Token} {args : List (Option Tree)}
    {pieces : List (List Token)} {body : List Token} (ho : o.kind = .openParen)
    (hc : c.kind = .closeParen) (hf : S f fs) (hb : Joined .comma pieces body)
    (hn : args.length = pieces.length)
    (hp : ∀ ts, (Option.none, ts) ∈ args.zip pieces → IsPlaceholder ts)
    (h : ∀ e ts, (some e, ts) ∈ args.zip pieces → S e ts) :
    S (.call (Node.plain (f.span.merge c.span)) f args) (fs ++ (o :: body ++ [c]))
  index {e i : Tree} {o c : Token} {ts is : List Token} (ho : o.kind = .openBracket)
    (hc : c.kind = .closeBracket) (he : S e ts) (hi : S i is) :
    S (operatorCall "[]" o.span [some e, some i] (e.span.merge c.span)) (ts ++ (o :: is ++ [c]))
  slice {e a b d : Tree} {o c : Token} {ts : List Token} {pieces : List (List Token)}
    {body : List Token} (ho : o.kind = .openBracket) (hc : c.kind = .closeBracket) (he : S e ts)
    (hb : Joined .colon pieces body)
    (hn : pieces.length = 3 ∨ pieces.length = 2 ∧ ∃ n, d = .none n)
    (hp : ∀ i, (i, []) ∈ [a, b, d].zip pieces → ∃ n, i = .none n)
    (h : ∀ i us, (i, us) ∈ [a, b, d].zip pieces → us ≠ [] → S i us) :
    S (operatorCall "[:]" o.span [some e, some a, some b, some d] (e.span.merge c.span))
      (ts ++ (o :: body ++ [c]))

end Tree

variable {S : Tree → List Token → Prop}

/-- An item of a list is read from `ts`: `S` holds if it has no message, and a missing item is an
omitted one or a placeholder. -/
def ListForm.Reads (S : Tree → List Token → Prop) (form : ListForm) :
    Option Tree → List Token → Prop
  | some e, ts => e.allMessages = [] → S e ts
  | none, ts => (form.mayOmit = true ∧ ts = []) ∨ (form.placeholders = true ∧ IsPlaceholder ts)

/-- What is left of a list without defects: if an item is due the pieces follow, at least one after
a separator; otherwise nothing follows, or a separator and at least one piece. -/
def ListForm.Remaining (S : Tree → List Token → Prop) (form : ListForm) (p : ListProgress)
    (items : List (Option Tree)) (separators : Nat) (body : List Token) : Prop :=
  if p.due then
    ∃ pieces, Joined form.separator pieces body ∧ items.Forall₂ (form.Reads S) pieces ∧
      (p.separated = true → pieces ≠ []) ∧ separators = pieces.length - 1
  else
    items = [] ∧ body = [] ∧ separators = 0 ∨
      ∃ t rest pieces, t.kind = form.separator ∧ body = t :: rest ∧
        Joined form.separator pieces rest ∧ items.Forall₂ (form.Reads S) pieces ∧ pieces ≠ [] ∧
        separators = pieces.length

/-- The last separator is at hand when an item is due after one, where no item may be left out. -/
def ListProgress.Sound (form : ListForm) (p : ListProgress) : Prop :=
  form.mayOmit = false → p.due = true → p.separated = true → p.dangling.isSome = true

theorem ListProgress.sound_start (form : ListForm) : ListProgress.start.Sound form :=
  fun _ _ h => absurd h (by decide)

/-- The list is read from the front of `s`; without a message, up to its closing token. -/
def Listed.Reads (S : Tree → List Token → Prop) (form : ListForm) (p : ListProgress)
    {s : List Token} (list : Listed s) : Prop :=
  ∃ ts, s = ts ++ list.rest ∧
    (p.Sound form → list.messages = [] → ∃ body, ts = body ++ [list.last] ∧
      list.last.kind = form.close ∧ form.Remaining S p list.items list.separators body)

/-- An expression is read from `ts`. -/
def Tree.Reads (S : Tree → List Token → Prop) (e : Tree) (ts : List Token) : Prop :=
  e.allMessages = [] → S e ts

namespace Tree

open LazyLang.Expr

/-- `S` holds between the elements of an array and the pieces of the list. -/
theorem forall₂_filterMap_id {items : List (Option Tree)} {pieces : List (List Token)}
    (h : items.Forall₂ (ListForm.elements.Reads S) pieces) (hm : argMessages items = []) :
    (items.filterMap id).Forall₂ S pieces := by
  induction h with
  | nil => exact .nil
  | @cons item ts items pieces hitem _ ih =>
      cases item with
      | none => simp [ListForm.Reads, ListForm.elements] at hitem
      | some e =>
          simp only [argMessages, List.append_eq_nil_iff] at hm
          exact .cons (hitem hm.1) (ih hm.2)

theorem array_reads (hS : ClosedUnderRules S) {o : Token} {body s : List Token} {list : Listed s}
    (ho : o.kind = .openBracket) (hc : list.last.kind = .closeBracket)
    (h : ListForm.elements.Remaining S .start list.items list.separators body) :
    Tree.Reads S
      (.array ⟨o.span.merge list.last.span, list.messages, ()⟩ (list.items.filterMap id))
      (o :: body ++ [list.last]) := by
  intro hm
  simp only [allMessages, elementMessages_filterMap_id, List.append_eq_nil_iff] at hm
  obtain ⟨pieces, hb, hr, -, -⟩ := h
  obtain ⟨hn, hs⟩ := List.forall₂_iff_zip.1 (forall₂_filterMap_id hr hm.1)
  rw [hm.2]
  exact hS.array ho hc hb hn fun e ts he => hs he

theorem callOf_reads (hS : ClosedUnderRules S) {f : Tree} {o : Token} {fs body s : List Token}
    {list : Listed s} (ho : o.kind = .openParen) (hc : list.last.kind = .closeParen) (hf : S f fs)
    (h : ListForm.arguments.Remaining S .start list.items list.separators body) :
    Tree.Reads S (callOf f list) (fs ++ (o :: body ++ [list.last])) := by
  intro hm
  simp only [callOf, allMessages, List.append_eq_nil_iff] at hm
  obtain ⟨pieces, hb, hr, -, -⟩ := h
  obtain ⟨hn, hs⟩ := List.forall₂_iff_zip.1 hr
  rw [callOf, hm.2]
  refine hS.call ho hc hf hb hn (fun ts hts => ?_) fun e ts he => ?_
  · rcases hs hts with ⟨hno, -⟩ | ⟨-, hp⟩
    · exact absurd hno (by decide)
    · exact hp
  · exact hs he (argMessages_eq_nil.1 hm.1.2 e (List.of_mem_zip he).1)

/-- A component of a slice is the literal `none` where no token stands for it. -/
def ReadsComponent (S : Tree → List Token → Prop) (e : Tree) (ts : List Token) : Prop :=
  (ts = [] → ∃ node, e = .none node) ∧ (ts ≠ [] → S e ts)

theorem readsComponent_getD (hS : ClosedUnderRules S) {bracket : Span} {item : Option Tree}
    {ts : List Token} (h : ListForm.components.Reads S item ts)
    (hm : (item.getD (.none (Node.plain bracket))).allMessages = []) :
    ReadsComponent S (item.getD (.none (Node.plain bracket))) ts := by
  cases item with
  | none =>
      rcases h with ⟨-, rfl⟩ | ⟨hno, -⟩
      · exact ⟨fun _ => ⟨_, rfl⟩, fun hne => absurd rfl hne⟩
      · exact absurd hno (by decide)
  | some e => exact ⟨fun hts => absurd hts (hS.ne_nil (h hm)), fun _ => h hm⟩

/-- Without a separator there is at most one component, the index. -/
theorem index_reads (hS : ClosedUnderRules S) {e : Tree} {o : Token} {ts body s : List Token}
    {list : Listed s} (ho : o.kind = .openBracket) (hc : list.last.kind = .closeBracket)
    (he : S e ts) (h0 : list.separators = 0)
    (h : ListForm.components.Remaining S .start list.items list.separators body) :
    Tree.Reads S (accessOf e o.span list) (ts ++ (o :: body ++ [list.last])) := by
  intro hm
  obtain ⟨items, separators, messages, last, rest, hle⟩ := list
  obtain ⟨pieces, hb, hr, -, hn⟩ := h
  simp only [accessOf] at h0 hn hm ⊢
  rw [if_pos h0] at hm ⊢
  cases hr with
  | nil => simp [allMessages_addMessages] at hm
  | @cons item us items pieces hitem hr =>
      have hlen : pieces = [] := by
        rw [List.length_cons] at hn
        exact List.length_eq_zero_iff.1 (by omega)
      subst hlen
      cases hr
      cases hb
      cases item with
      | none => simp [allMessages_addMessages] at hm
      | some i =>
          simp only [List.findSome?_cons, id_eq, allMessages_addMessages, operatorCall, allMessages,
            argMessages, List.append_eq_nil_iff] at hm ⊢
          rw [hm.2, addMessages_nil]
          exact hS.index ho hc he (hitem hm.1.1.2.2.1)

theorem sliceComponents_two (bracket : Span) (a b : Option Tree) :
    sliceComponents bracket [a, b] =
      [some (a.getD (.none (Node.plain bracket))), some (b.getD (.none (Node.plain bracket))),
        some (.none (Node.plain bracket))] := rfl

theorem sliceComponents_three (bracket : Span) (a b d : Option Tree) :
    sliceComponents bracket [a, b, d] =
      [some (a.getD (.none (Node.plain bracket))), some (b.getD (.none (Node.plain bracket))),
        some (d.getD (.none (Node.plain bracket)))] := rfl

/-- With separators the components are those of a slice, of which there are at most three. -/
theorem slice_reads (hS : ClosedUnderRules S) {e : Tree} {o : Token} {ts body s : List Token}
    {list : Listed s} (ho : o.kind = .openBracket) (hc : list.last.kind = .closeBracket)
    (he : S e ts) (h0 : list.separators ≠ 0)
    (h : ListForm.components.Remaining S .start list.items list.separators body) :
    Tree.Reads S (accessOf e o.span list) (ts ++ (o :: body ++ [list.last])) := by
  intro hm
  obtain ⟨items, separators, messages, last, rest, hle⟩ := list
  obtain ⟨pieces, hb, hr, -, hn⟩ := h
  simp only [accessOf] at h0 hn hm ⊢
  rw [if_neg h0] at hm ⊢
  simp only [allMessages_addMessages, List.append_eq_nil_iff] at hm
  rw [hm.2.1, List.nil_append, hm.2.2, addMessages_nil]
  have hthree : ¬items.length > 3 := fun hgt => by simp [if_pos hgt] at hm
  have hmsg := hm.1
  cases hr with
  | nil => exact absurd hn h0
  | @cons a us _ _ ha hr =>
      cases hr with
      | nil => exact absurd hn h0
      | @cons b vs _ _ hb' hr =>
          cases hr with
          | nil =>
              rw [sliceComponents_two] at hmsg ⊢
              simp only [operatorCall, allMessages, argMessages, List.append_eq_nil_iff] at hmsg
              have hc2 := List.Forall₂.cons (readsComponent_getD hS ha hmsg.1.2.2.1)
                (.cons (readsComponent_getD hS hb' hmsg.1.2.2.2.1) .nil)
              obtain ⟨-, hz⟩ := List.forall₂_iff_zip.1 hc2
              exact hS.slice ho hc he hb (.inr ⟨rfl, _, rfl⟩) (fun i hi => (hz hi).1 rfl)
                fun i us hi => (hz hi).2
          | @cons d ws _ _ hd hr =>
              cases hr with
              | cons _ _ => exact absurd (by simp) hthree
              | nil =>
                  rw [sliceComponents_three] at hmsg ⊢
                  simp only [operatorCall, allMessages, argMessages, List.append_eq_nil_iff] at hmsg
                  have hc3 := List.Forall₂.cons (readsComponent_getD hS ha hmsg.1.2.2.1)
                    (.cons (readsComponent_getD hS hb' hmsg.1.2.2.2.1)
                      (.cons (readsComponent_getD hS hd hmsg.1.2.2.2.2.1) .nil))
                  obtain ⟨-, hz⟩ := List.forall₂_iff_zip.1 hc3
                  exact hS.slice ho hc he hb (.inl rfl) (fun i hi => (hz hi).1 rfl)
                    fun i us hi => (hz hi).2

theorem accessOf_reads (hS : ClosedUnderRules S) {e : Tree} {o : Token} {ts body s : List Token}
    {list : Listed s} (ho : o.kind = .openBracket) (hc : list.last.kind = .closeBracket)
    (he : S e ts) (h : ListForm.components.Remaining S .start list.items list.separators body) :
    Tree.Reads S (accessOf e o.span list) (ts ++ (o :: body ++ [list.last])) := by
  by_cases h0 : list.separators = 0
  · exact index_reads hS ho hc he h0 h
  · exact slice_reads hS ho hc he h0 h

theorem kind_of_form_call {kind : TokenKind} {op : Operator} (h : Operator.ofKind? kind = some op)
    (hf : op.form = .call) : kind = .openParen := by
  cases kind <;> cases h <;> first | rfl | cases hf

theorem kind_of_form_access {kind : TokenKind} {op : Operator}
    (h : Operator.ofKind? kind = some op) (hf : op.form = .access) : kind = .openBracket := by
  cases kind <;> cases h <;> first | rfl | cases hf

/-- The name of a binary operator is its spelling. -/
theorem spelling?_of_binary {kind : TokenKind} {op : Operator}
    (h : Operator.ofKind? kind = some op) (hf : op.form = .binary) :
    kind.spelling? = some op.symbol := by
  cases kind <;> cases h <;> first | rfl | cases hf

theorem binaryOf_reads (hS : ClosedUnderRules S) {l r : Tree} {t : Token} {ls rs : List Token}
    {op : Operator} (hop : Operator.ofKind? t.kind = some op) (hf : op.form = .binary)
    (hl : S l ls) (hr : Tree.Reads S r rs) :
    Tree.Reads S (binaryOf l op.symbol t.span r) (ls ++ t :: rs) := by
  intro hm
  refine hS.binary hop hf hl (hr ?_)
  simp only [binaryOf, operatorCall, allMessages, argMessages, List.append_eq_nil_iff] at hm
  exact hm.1.2.2.1

theorem allMessages_binaryOf_eq_nil {l r : Tree} {symbol : String} {span : Span}
    (hm : (binaryOf l symbol span r).allMessages = []) : l.allMessages = [] := by
  simp only [binaryOf, operatorCall, allMessages, argMessages, List.append_eq_nil_iff] at hm
  exact hm.1.2.1

theorem allMessages_callOf_eq_nil {f : Tree} {s : List Token} {list : Listed s}
    (hm : (callOf f list).allMessages = []) : f.allMessages = [] ∧ list.messages = [] := by
  simp only [callOf, allMessages, List.append_eq_nil_iff] at hm
  exact ⟨hm.1.1, hm.2⟩

theorem allMessages_accessOf_eq_nil {e : Tree} {span : Span} {s : List Token} {list : Listed s}
    (hm : (accessOf e span list).allMessages = []) : e.allMessages = [] ∧ list.messages = [] := by
  unfold accessOf at hm
  split at hm
  · split at hm <;>
      simp only [allMessages_addMessages, operatorCall, allMessages, argMessages,
        List.append_eq_nil_iff] at hm
    · exact ⟨hm.1.1.2.1, hm.2⟩
    · exact ⟨hm.1.1.2.1, hm.2.1⟩
  · simp only [allMessages_addMessages, operatorCall, allMessages, argMessages,
      List.append_eq_nil_iff] at hm
    exact ⟨hm.1.1.2.1, hm.2.1⟩

theorem halfOf_allMessages_ne_nil (l : Tree) (symbol : String) (span : Span) :
    (halfOf l symbol span).allMessages ≠ [] := by
  simp [halfOf, allMessages_addMessages]

end Tree

namespace Listed

variable {form : ListForm} {p : ListProgress}

theorem unclosed_reads (opening last : Token) (s : List Token) :
    (unclosed form opening last s).Reads S form p :=
  ⟨[], rfl, fun _ hm => absurd hm (by simp [unclosed])⟩

theorem closed_reads {t : Token} (ht : t.kind = form.close) (rest : List Token) :
    (closed form p t rest).Reads S form p := by
  refine ⟨[t], rfl, fun hp hm => ⟨[], rfl, ht, ?_⟩⟩
  unfold ListForm.Remaining
  split
  · next hdue =>
      by_cases hsep : p.separated = true
      · cases homit : form.mayOmit with
        | true => exact ⟨[[]], .single [], by simp [closed, hdue, hsep, homit, ListForm.Reads],
            by simp, rfl⟩
        | false =>
            -- the separator before the closing token is one too many, and is reported
            obtain ⟨span, hspan⟩ := Option.isSome_iff_exists.1 (hp homit hdue hsep)
            simp [closed, hdue, hsep, homit, hspan] at hm
      · exact ⟨[], .nil, by simp [closed, hdue, hsep], fun h => absurd h hsep, rfl⟩
  · next hdue => exact .inl ⟨by simp [closed, hdue], rfl, rfl⟩

theorem afterSeparator_reads {t : Token} (ht : t.kind = form.separator) {rest : List Token}
    {r : Listed rest} (h : r.Reads S form (p.afterSeparator t.span)) :
    (afterSeparator form p t r).Reads S form p := by
  obtain ⟨ts, hs, h⟩ := h
  refine ⟨t :: ts, congrArg (t :: ·) hs, fun hp hm => ?_⟩
  cases hdue : p.due with
  | true =>
      cases homit : form.mayOmit with
      | false => simp [afterSeparator, hdue, homit] at hm
      | true =>
          have hr : r.messages = [] := by simpa [afterSeparator, hdue, homit] using hm
          obtain ⟨body, rfl, hc, pieces, hb, hi, hne, hn⟩ :=
            h (by simp [ListProgress.Sound, homit]) hr
          refine ⟨t :: body, rfl, hc, ?_⟩
          rw [ListForm.Remaining, if_pos hdue]
          cases pieces with
          | nil => exact absurd rfl (hne rfl)
          | cons us pieces =>
              refine ⟨[] :: us :: pieces, .cons ht hb, ?_, by simp, ?_⟩
              · simp only [afterSeparator, hdue, homit, Bool.and_self, if_true]
                exact .cons (.inl ⟨homit, rfl⟩) hi
              · simp [afterSeparator, hn]
  | false =>
      have hr : r.messages = [] := by simpa [afterSeparator, hdue] using hm
      obtain ⟨body, rfl, hc, pieces, hb, hi, hne, hn⟩ :=
        h (by simp [ListProgress.Sound, ListProgress.afterSeparator, hdue]) hr
      refine ⟨t :: body, rfl, hc, ?_⟩
      rw [ListForm.Remaining, if_neg (by simp [hdue])]
      refine .inr ⟨t, body, pieces, ht, rfl, hb, by simpa [afterSeparator, hdue] using hi,
        hne rfl, ?_⟩
      have := List.length_pos_iff.2 (hne rfl)
      simp only [afterSeparator, hn]
      omega

theorem afterItem_reads {t : Token} {item : Option Tree} {s ts rest : List Token}
    {hle : rest.length ≤ s.length} {r : Listed rest} (hs : s = ts ++ rest)
    (hitem : form.Reads S item ts) (h : r.Reads S form p.afterItem) :
    (afterItem p t item hle r).Reads S form p := by
  obtain ⟨us, hus, h⟩ := h
  refine ⟨ts ++ us, eq_append_trans hs hus, fun _ hm => ?_⟩
  cases hdue : p.due with
  | false => simp [afterItem, hdue] at hm
  | true =>
      have hr : r.messages = [] := by simpa [afterItem, hdue] using hm
      obtain ⟨body, rfl, hc, hrem⟩ := h (by simp [ListProgress.Sound, ListProgress.afterItem]) hr
      refine ⟨ts ++ body, (List.append_assoc ..).symm, hc, ?_⟩
      rw [ListForm.Remaining, if_pos hdue]
      rcases hrem with ⟨hi, rfl, hn⟩ | ⟨u, vs, pieces, hu, rfl, hb, hi, hne, hn⟩
      · refine ⟨[ts], by simpa using .single ts, ?_, by simp, by simp [afterItem, hn]⟩
        simp only [afterItem, hi]
        exact .cons hitem .nil
      · cases pieces with
        | nil => exact absurd rfl hne
        | cons vs' pieces =>
            refine ⟨ts :: vs' :: pieces, .cons hu hb, .cons hitem hi, by simp, ?_⟩
            simp [afterItem, hn]

end Listed

namespace Tree

open LazyLang.Expr

/-- The tree `e` goes on after `left` with the tokens `ts`, and keeps its messages. -/
def Extends (S : Tree → List Token → Prop) (left e : Tree) (ts : List Token) : Prop :=
  e.allMessages = [] → left.allMessages = [] ∧ ∀ before, S left before → S e (before ++ ts)

theorem Extends.refl (e : Tree) : Extends S e e [] :=
  fun hm => ⟨hm, fun before hb => by rwa [List.append_nil]⟩

theorem Extends.trans {l m e : Tree} {ts us : List Token} (h₁ : Extends S l m ts)
    (h₂ : Extends S m e us) : Extends S l e (ts ++ us) := by
  intro hm
  obtain ⟨hm₂, h₂⟩ := h₂ hm
  obtain ⟨hm₁, h₁⟩ := h₁ hm₂
  refine ⟨hm₁, fun before hb => ?_⟩
  rw [← List.append_assoc]
  exact h₂ _ (h₁ before hb)

theorem extends_callOf (hS : ClosedUnderRules S) (f : Tree) {o : Token} {s ts : List Token}
    {list : Listed s} (ho : o.kind = .openParen)
    (h : list.messages = [] → ∃ body, ts = body ++ [list.last] ∧ list.last.kind = .closeParen ∧
      ListForm.arguments.Remaining S .start list.items list.separators body) :
    Extends S f (callOf f list) (o :: ts) := by
  intro hm
  obtain ⟨hf, hlist⟩ := allMessages_callOf_eq_nil hm
  obtain ⟨body, rfl, hc, hrem⟩ := h hlist
  exact ⟨hf, fun before hb => callOf_reads hS ho hc hb hrem hm⟩

theorem extends_accessOf (hS : ClosedUnderRules S) (e : Tree) {o : Token} {s ts : List Token}
    {list : Listed s} (ho : o.kind = .openBracket)
    (h : list.messages = [] → ∃ body, ts = body ++ [list.last] ∧ list.last.kind = .closeBracket ∧
      ListForm.components.Remaining S .start list.items list.separators body) :
    Extends S e (accessOf e o.span list) (o :: ts) := by
  intro hm
  obtain ⟨he, hlist⟩ := allMessages_accessOf_eq_nil hm
  obtain ⟨body, rfl, hc, hrem⟩ := h hlist
  exact ⟨he, fun before hb => accessOf_reads hS ho hc hb hrem hm⟩

theorem extends_binaryOf (hS : ClosedUnderRules S) (l : Tree) {r : Tree} {t : Token} {op : Operator}
    {ts : List Token} (hop : Operator.ofKind? t.kind = some op) (hf : op.form = .binary)
    (hr : Tree.Reads S r ts) : Extends S l (binaryOf l op.symbol t.span r) (t :: ts) :=
  fun hm => ⟨allMessages_binaryOf_eq_nil hm, fun _ hb => binaryOf_reads hS hop hf hb hr hm⟩

theorem unclosedParenthesis_allMessages_ne_nil (o : Token) {s : List Token} (inner : Taken s) :
    (unclosedParenthesis o inner).tree.allMessages ≠ [] := by
  simp [unclosedParenthesis, allMessages_addMessages]

theorem closeParenthesis_reads (hS : ClosedUnderRules S) {o : Token} {s ts : List Token}
    {inner : Taken s} (ho : o.kind = .openParen) (hs : s = ts ++ inner.rest)
    (h : Tree.Reads S inner.tree ts) :
    ∃ us, o :: s = us ++ (closeParenthesis o inner).rest ∧
      Tree.Reads S (closeParenthesis o inner).tree us := by
  have hopen : ∃ us, o :: s = us ++ (unclosedParenthesis o inner).rest ∧
      Tree.Reads S (unclosedParenthesis o inner).tree us :=
    ⟨o :: ts, congrArg (o :: ·) hs,
      fun hm => absurd hm (unclosedParenthesis_allMessages_ne_nil o inner)⟩
  unfold closeParenthesis
  split
  · next c rest hrest =>
      split
      · next hc =>
          have hread : s = ts ++ [c] ++ rest := eq_append_trans hs hrest
          exact ⟨o :: ts ++ [c], congrArg (o :: ·) hread, fun hm => hS.grouped ho hc (h hm)⟩
      · exact hopen
  · exact hopen

mutual

theorem expression_reads (hS : ClosedUnderRules S) {floor : Nat} {s : List Token} {r : Taken s}
    (h : expression floor s = .ok r) : ∃ ts, s = ts ++ r.rest ∧ Tree.Reads S r.tree ts := by
  rw [expression] at h
  split at h
  · cases h
  · next first hf =>
      simp only [Except.ok.injEq] at h
      subst h
      have hshort := first.shorter
      obtain ⟨ts, hs, hts⟩ := operand_reads hS hf
      obtain ⟨us, hus, hu⟩ := extend_reads hS floor first.tree first.last first.rest
      exact ⟨ts ++ us, eq_append_trans hs hus, fun hm => (hu hm).2 ts (hts (hu hm).1)⟩
  termination_by 4 * s.length + 1

theorem operand_reads (hS : ClosedUnderRules S) {s : List Token} {r : Taken s}
    (h : operand s = .ok r) : ∃ ts, s = ts ++ r.rest ∧ Tree.Reads S r.tree ts := by
  cases s with
  | nil => simp [operand] at h
  | cons t rest =>
      rw [operand] at h
      split at h
      · next ht => exact parenthesized_reads hS ht h
      · next ht =>
          cases h
          obtain ⟨ts, hs, hl⟩ := listItems_reads hS .elements t .start t rest
          refine ⟨t :: ts, congrArg (t :: ·) hs, fun hm => ?_⟩
          have hlist := (List.append_eq_nil_iff.1 hm).2
          obtain ⟨body, rfl, hc, hrem⟩ := hl (ListProgress.sound_start _) hlist
          exact array_reads hS ht hc hrem hm
      · next ht =>
          split at h
          · next r hr =>
              cases h
              obtain ⟨ts, hs, hts⟩ := expression_reads hS hr
              refine ⟨t :: ts, congrArg (t :: ·) hs, fun hm => hS.negation ht (hts ?_)⟩
              simp only [negationOf, operatorCall, allMessages, argMessages,
                List.append_eq_nil_iff] at hm
              exact hm.1.2.1
          · cases h
            exact ⟨[t], rfl, fun hm => absurd hm (by simp [unrecognizedTokens, allMessages])⟩
      · split at h
        · next tree htree =>
            cases h
            exact ⟨[t], rfl, hS.token htree⟩
        · cases h
  termination_by 4 * s.length

theorem parenthesized_reads (hS : ClosedUnderRules S) {o : Token} {s : List Token}
    {r : Taken (o :: s)} (ho : o.kind = .openParen) (h : parenthesized o s = .ok r) :
    ∃ ts, o :: s = ts ++ r.rest ∧ Tree.Reads S r.tree ts := by
  cases s with
  | nil => simp [parenthesized] at h
  | cons t rest =>
      rw [parenthesized] at h
      split at h
      · cases h
        exact ⟨[o, t], rfl, fun hm => absurd hm (by simp [unrecognizedTokens, allMessages])⟩
      · split at h
        · cases h
        · next inner hi =>
            cases h
            obtain ⟨ts, hs, hts⟩ := expression_reads hS hi
            exact closeParenthesis_reads hS ho hs hts
  termination_by 4 * s.length + 2

theorem extend_reads (hS : ClosedUnderRules S) (floor : Nat) (left : Tree) (last : Token)
    (s : List Token) : ∃ ts, s = ts ++ (extend floor left last s).rest ∧
      Extends S left (extend floor left last s).tree ts := by
  cases s with
  | nil =>
      rw [extend]
      exact ⟨[], rfl, .refl left⟩
  | cons t rest =>
      rw [extend]
      split
      · exact ⟨[], rfl, .refl left⟩
      · next op hop =>
          split
          · split
            · next hform =>
                have hle := (listItems .arguments t .start t rest).le
                obtain ⟨ts, hs, hl⟩ := listItems_reads hS .arguments t .start t rest
                obtain ⟨us, hus, hu⟩ := extend_reads hS floor
                  (callOf left (listItems .arguments t .start t rest))
                  (listItems .arguments t .start t rest).last
                  (listItems .arguments t .start t rest).rest
                refine ⟨t :: ts ++ us, congrArg (t :: ·) (eq_append_trans hs hus), ?_⟩
                exact (extends_callOf hS left (kind_of_form_call hop hform)
                  (hl (ListProgress.sound_start _))).trans hu
            · next hform =>
                have hle := (listItems .components t .start t rest).le
                obtain ⟨ts, hs, hl⟩ := listItems_reads hS .components t .start t rest
                obtain ⟨us, hus, hu⟩ := extend_reads hS floor
                  (accessOf left t.span (listItems .components t .start t rest))
                  (listItems .components t .start t rest).last
                  (listItems .components t .start t rest).rest
                refine ⟨t :: ts ++ us, congrArg (t :: ·) (eq_append_trans hs hus), ?_⟩
                exact (extends_accessOf hS left (kind_of_form_access hop hform)
                  (hl (ListProgress.sound_start _))).trans hu
            · next hform =>
                split
                · next right hr =>
                    have hshort := right.shorter
                    obtain ⟨ts, hs, hts⟩ := expression_reads hS hr
                    obtain ⟨us, hus, hu⟩ := extend_reads hS floor
                      (binaryOf left op.symbol t.span right.tree) right.last right.rest
                    refine ⟨t :: ts ++ us, congrArg (t :: ·) (eq_append_trans hs hus), ?_⟩
                    exact (extends_binaryOf hS left hop hform hts).trans hu
                · obtain ⟨us, hus, hu⟩ :=
                    extend_reads hS floor (halfOf left op.symbol t.span) t rest
                  refine ⟨t :: us, congrArg (t :: ·) hus, fun hm => ?_⟩
                  exact absurd (hu hm).1 (halfOf_allMessages_ne_nil left op.symbol t.span)
          · exact ⟨[], rfl, .refl left⟩
  termination_by 4 * s.length

theorem listItems_reads (hS : ClosedUnderRules S) (form : ListForm) (opening : Token)
    (p : ListProgress) (last : Token) (s : List Token) :
    (listItems form opening p last s).Reads S form p := by
  cases s with
  | nil =>
      rw [listItems]
      exact Listed.unclosed_reads opening last []
  | cons t rest =>
      rw [listItems]
      split
      · next hclose => exact Listed.closed_reads hclose rest
      · split
        · next hsep =>
            exact Listed.afterSeparator_reads hsep (listItems_reads hS form opening _ t rest)
        · split
          · next hp =>
              simp only [Bool.and_eq_true, decide_eq_true_eq] at hp
              have hread : t :: rest = [t] ++ rest := rfl
              exact Listed.afterItem_reads hread (.inr ⟨hp.1, t, hp.2, rfl⟩)
                (listItems_reads hS form opening _ t rest)
          · split
            · exact Listed.unclosed_reads opening last (t :: rest)
            · next e he =>
                have hshort : e.rest.length ≤ rest.length := Nat.le_of_lt_succ e.shorter
                obtain ⟨ts, hs, hts⟩ := expression_reads hS he
                exact Listed.afterItem_reads hs hts
                  (listItems_reads hS form opening _ e.last e.rest)
  termination_by 4 * s.length + 2

end

/-- The rules build what spells the tokens read. -/
theorem closedUnderRules_spells : ClosedUnderRules Spells where
  ne_nil := Spells.ne_nil
  token he hm := .token (spellsToken_of_ofToken? he hm)
  grouped := .grouped
  negation := .negation _ _
  binary hop hf := .binary _ _ ⟨_, hop, hf⟩ (spelling?_of_binary hop hf)
  array := .array _
  call := .call _
  index := .index _ _
  slice := .slice _ _

end Tree

end LazyLang
