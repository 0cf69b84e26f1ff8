import LazyLang.Proofs.Grammar.Consumption
import LazyLang.Proofs.Grammar.Recovery
import LazyLang.Proofs.Soundness.Closed

/-!
# Spans nest

Whatever the parser is given, well-formed or not, each node of the tree lies inside the span of the
node that it is a part of, and starts where some token starts and ends where some token ends
(`Tree.nested_ofTokens`). It is enough that of two tokens the later one neither starts nor ends
before the earlier one.

The argument follows the rules that build nodes. A node is merged from its first and its last part,
and every part between them was read from tokens between theirs.
-/

namespace LazyLang

namespace Location

variable {a b c : Location}

theorem le_total (a b : Location) : a.le b = true ∨ b.le a = true := by
  rw [le_iff, le_iff]
  omega

theorem earlier_eq (a b : Location) : a.earlier b = a ∨ a.earlier b = b := by
  unfold earlier
  split
  · exact .inl rfl
  · exact .inr rfl

theorem later_eq (a b : Location) : a.later b = a ∨ a.later b = b := by
  unfold later
  split
  · exact .inr rfl
  · exact .inl rfl

theorem earlier_le_left (a b : Location) : (a.earlier b).le a = true := by
  unfold earlier
  split
  · exact le_refl a
  · next h => exact (le_total a b).resolve_left h

theorem earlier_le_right (a b : Location) : (a.earlier b).le b = true := by
  unfold earlier
  split
  · next h => exact h
  · exact le_refl b

theorem le_later_left (a b : Location) : a.le (a.later b) = true := by
  unfold later
  split
  · next h => exact h
  · exact le_refl a

theorem le_later_right (a b : Location) : b.le (a.later b) = true := by
  unfold later
  split
  · exact le_refl b
  · next h => exact (le_total a b).resolve_left h

end Location

namespace Span

variable {s t u : Span}

theorem covers_iff : s.covers t = true ↔ s.start.le t.start = true ∧ t.stop.le s.stop = true := by
  rw [covers, Bool.and_eq_true]

theorem covers_merge_left (s t : Span) : (s.merge t).covers s = true :=
  covers_iff.2 ⟨Location.earlier_le_left _ _, Location.le_later_left _ _⟩

theorem covers_merge_right (s t : Span) : (s.merge t).covers t = true :=
  covers_iff.2 ⟨Location.earlier_le_right _ _, Location.le_later_right _ _⟩

/-- What starts no earlier than the one stretch and ends no later than the other. -/
theorem covers_merge_of_le (hstart : s.start.le u.start = true) (hstop : u.stop.le t.stop = true) :
    (s.merge t).covers u = true :=
  covers_iff.2 ⟨Location.le_trans (Location.earlier_le_left _ _) hstart,
    Location.le_trans hstop (Location.le_later_right _ _)⟩

end Span

/-- Of two tokens the later one neither starts nor ends before the earlier one. -/
def Ascending (tokens : List Token) : Prop :=
  tokens.Pairwise fun a b => a.span.start.le b.span.start = true ∧ a.span.stop.le b.span.stop = true

theorem InOrder.ascending {tokens : List Token} (h : InOrder tokens) : Ascending tokens :=
  h.pairwise.imp_of_mem fun ha hb hle =>
    ⟨Location.le_trans (h.before _ ha).le hle, Location.le_trans hle (h.before _ hb).le⟩

namespace Ascending

variable {ts us : List Token} {a b t : Token}

theorem sublist (h : Ascending us) (hsub : ts.Sublist us) : Ascending ts :=
  List.Pairwise.sublist hsub h

theorem start_le (h : Ascending (ts ++ us)) (ha : a ∈ ts) (hb : b ∈ us) :
    a.span.start.le b.span.start = true := ((List.pairwise_append.1 h).2.2 a ha b hb).1

theorem stop_le (h : Ascending (ts ++ us)) (ha : a ∈ ts) (hb : b ∈ us) :
    a.span.stop.le b.span.stop = true := ((List.pairwise_append.1 h).2.2 a ha b hb).2

theorem stop_le_getLast (h : Ascending ts) (hlast : ts.getLast? = some b) (ha : a ∈ ts) :
    a.span.stop.le b.span.stop = true := by
  obtain ⟨front, rfl⟩ := List.getLast?_eq_some_iff.1 hlast
  rcases List.mem_append.1 ha with ha | ha
  · exact h.stop_le ha (List.mem_singleton_self b)
  · rw [List.mem_singleton.1 ha]
    exact Location.le_refl _

end Ascending

/-- The stretch starts where one of the tokens starts, and ends where one of them ends. -/
structure Span.Anchored (ts : List Token) (s : Span) : Prop where
  start : ∃ a ∈ ts, s.start = a.span.start
  stop : ∃ b ∈ ts, s.stop = b.span.stop

namespace Span.Anchored

variable {ts us : List Token} {s t : Span}

theorem mono (h : s.Anchored ts) (hsub : ts ⊆ us) : s.Anchored us := by
  obtain ⟨⟨a, ha, hstart⟩, b, hb, hstop⟩ := h
  exact ⟨⟨a, hsub ha, hstart⟩, b, hsub hb, hstop⟩

theorem of_mem {token : Token} (h : token ∈ ts) : token.span.Anchored ts :=
  ⟨⟨token, h, rfl⟩, token, h, rfl⟩

theorem merge (hs : s.Anchored ts) (ht : t.Anchored ts) : (s.merge t).Anchored ts := by
  constructor
  · rcases Location.earlier_eq s.start t.start with heq | heq
    · simpa only [Span.merge, heq] using hs.start
    · simpa only [Span.merge, heq] using ht.start
  · rcases Location.later_eq s.stop t.stop with heq | heq
    · simpa only [Span.merge, heq] using hs.stop
    · simpa only [Span.merge, heq] using ht.stop

end Span.Anchored

namespace Expr

variable {α : Type}

/-- The nodes right below the root. -/
def parts : Expr α → List (Expr α)
  | array _ elements => elements
  | call _ callee args => callee :: args.filterMap id
  | identifier _ _ | integer _ _ | float _ _ | string _ _ | boolean _ _ | none _
  | unrecognized _ _ => []

@[simp] theorem parts_addMessages (messages : List Message) (e : Expr α) :
    (e.addMessages messages).parts = e.parts := by
  cases e <;> rfl

theorem isNode_iff {x e : Expr α} : IsNode x e ↔ x = e ∨ ∃ part ∈ e.parts, IsNode x part := by
  constructor
  · intro h
    cases h with
    | root => exact .inl rfl
    | element he h => exact .inr ⟨_, he, h⟩
    | callee h => exact .inr ⟨_, List.mem_cons_self, h⟩
    | argument he h =>
        exact .inr ⟨_, List.mem_cons_of_mem _ (List.mem_filterMap.2 ⟨_, he, rfl⟩), h⟩
  · rintro (rfl | ⟨part, hpart, h⟩)
    · exact .root
    cases e with
    | array _ elements => exact .element hpart h
    | call _ callee args =>
        rcases List.mem_cons.1 hpart with rfl | hpart
        · exact .callee h
        · obtain ⟨arg, harg, heq⟩ := List.mem_filterMap.1 hpart
          exact .argument (heq ▸ harg) h
    | _ => cases hpart

/-- The node starts and ends with tokens out of `ts` and covers its parts. -/
structure Nested (ts : List Token) (x : Expr α) : Prop where
  anchored : x.span.Anchored ts
  covers : ∀ part ∈ x.parts, x.span.covers part.span = true

/-- Every node of the expression is nested, and its tokens are out of `ts`. -/
def AllNested (ts : List Token) (e : Expr α) : Prop := ∀ x, IsNode x e → Nested ts x

namespace AllNested

variable {ts us : List Token} {e : Expr α}

theorem mono (h : AllNested ts e) (hsub : ts ⊆ us) : AllNested us e :=
  fun x hx => ⟨(h x hx).anchored.mono hsub, (h x hx).covers⟩

theorem span (h : AllNested ts e) : e.span.Anchored ts := (h e .root).anchored

theorem of_parts (hspan : e.span.Anchored ts)
    (hparts : ∀ part ∈ e.parts, e.span.covers part.span = true ∧ AllNested ts part) :
    AllNested ts e := by
  intro x hx
  rcases isNode_iff.1 hx with rfl | ⟨part, hpart, hx⟩
  · exact ⟨hspan, fun part hpart => (hparts part hpart).1⟩
  · exact (hparts part hpart).2 x hx

/-- A node without parts. -/
theorem of_leaf (hspan : e.span.Anchored ts) (hparts : e.parts = []) : AllNested ts e :=
  .of_parts hspan fun part hpart => by rw [hparts] at hpart; cases hpart

theorem addMessages (h : AllNested ts e) (messages : List Message) :
    AllNested ts (e.addMessages messages) := by
  refine .of_parts (by simpa using h.span) fun part hpart => ?_
  rw [parts_addMessages] at hpart
  rw [span_addMessages]
  exact ⟨(h e .root).covers part hpart, fun x hx => h x (isNode_iff.2 (.inr ⟨part, hpart, hx⟩))⟩

end AllNested

end Expr

namespace Tree

open LazyLang.Expr

variable {s ts us ls rs : List Token} {e l r : Tree} {o t : Token} {list : Listed s}

theorem parts_of_ofToken? (h : ofToken? t = some e) : e.parts = [] := by
  unfold ofToken? at h
  split at h <;> cases h
  case h_3 =>
    unfold ofInteger
    dsimp only
    split <;> rfl
  all_goals rfl

/-- The name of an operator stands where its token does. -/
theorem allNested_symbol (h : t ∈ ts) (symbol : String) :
    AllNested ts (.identifier (Node.plain t.span) symbol : Tree) :=
  .of_leaf (.of_mem h) rfl

/-- The spans of the items of a list lie between the token before it and its last one. -/
theorem covers_item (hascending : Ascending (ts ++ o :: us)) {span : Span}
    (hstart : ∃ a ∈ ts ++ [o], span.start = a.span.start)
    (hlast : (o :: us).getLast? = some list.last) {vs : List Token} (hvs : vs <:+: us)
    (he : e.span.Anchored vs) : (span.merge list.last.span).covers e.span = true := by
  obtain ⟨a, ha, hstart⟩ := hstart
  obtain ⟨⟨b, hb, hbstart⟩, c, hc, hcstop⟩ := he
  have hsplit : Ascending (ts ++ [o] ++ us) := by simpa using hascending
  have htail : Ascending (o :: us) := hascending.sublist (List.sublist_append_right ts _)
  refine Span.covers_merge_of_le ?_ ?_
  · rw [hstart, hbstart]
    exact hsplit.start_le ha (hvs.subset hb)
  · rw [hcstop]
    exact htail.stop_le_getLast hlast (List.mem_cons_of_mem o (hvs.subset hc))

/-- Read from ascending tokens, every node is nested. -/
def NestedIn (e : Tree) (ts : List Token) : Prop := Ascending ts → AllNested ts e

theorem last_mem {P : Tree → List Token → Prop} (hlist : list.Covers P o us) (ts : List Token) :
    list.last ∈ ts ++ o :: us :=
  List.mem_append_right ts (List.mem_of_getLast? hlist.last)

/-- An item lies inside the node that its list belongs to, and is nested itself. -/
theorem nested_item (hlist : list.Covers NestedIn o us) (hascending : Ascending (ts ++ o :: us))
    {span : Span} (hstart : ∃ a ∈ ts ++ [o], span.start = a.span.start)
    (he : some e ∈ list.items) :
    (span.merge list.last.span).covers e.span = true ∧ AllNested (ts ++ o :: us) e := by
  obtain ⟨vs, hvs, hnested⟩ := hlist.items e he
  have hsub : vs.Sublist (ts ++ o :: us) :=
    (hvs.sublist.trans (List.sublist_cons_self o us)).trans (List.sublist_append_right ts _)
  have hall := hnested (hascending.sublist hsub)
  exact ⟨covers_item hascending hstart hlist.last hvs hall.span, hall.mono hsub.subset⟩

theorem nestedIn_array (hlist : list.Covers NestedIn o us) :
    NestedIn (.array ⟨o.span.merge list.last.span, list.messages, ()⟩ (list.items.filterMap id))
      (o :: us) := by
  intro hascending
  have hnil : Ascending ([] ++ o :: us) := hascending
  refine .of_parts ((Span.Anchored.of_mem List.mem_cons_self).merge
    (.of_mem (last_mem hlist []))) fun part hpart => ?_
  obtain ⟨item, hitem, heq⟩ := List.mem_filterMap.1 hpart
  exact nested_item hlist hnil ⟨o, List.mem_singleton_self o, rfl⟩ (heq ▸ hitem)

theorem nestedIn_callOf {f : Tree} (hf : NestedIn f ts) (hlist : list.Covers NestedIn o us) :
    NestedIn (callOf f list) (ts ++ o :: us) := by
  intro hascending
  have hcallee : AllNested ts f := hf (hascending.sublist (List.sublist_append_left ts _))
  have hwhole := hcallee.mono (List.subset_append_left ts (o :: us))
  refine .of_parts (hwhole.span.merge (.of_mem (last_mem hlist ts))) fun part hpart => ?_
  rcases List.mem_cons.1 hpart with rfl | hpart
  · exact ⟨Span.covers_merge_left _ _, hwhole⟩
  · obtain ⟨item, hitem, heq⟩ := List.mem_filterMap.1 hpart
    obtain ⟨a, ha, hstart⟩ := hcallee.span.start
    exact nested_item hlist hascending ⟨a, List.mem_append_left _ ha, hstart⟩ (heq ▸ hitem)

theorem span_accessOf (target : Tree) (bracket : Span) (list : Listed s) :
    (accessOf target bracket list).span = target.span.merge list.last.span := by
  unfold accessOf
  dsimp only
  split
  · split <;> exact span_addMessages _ _
  · exact span_addMessages _ _

theorem mem_parts_operatorCall {name : String} {nameSpan span : Span} {args : List (Option Tree)}
    {part : Tree} : part ∈ (operatorCall name nameSpan args span).parts ↔
      part = .identifier (Node.plain nameSpan) name ∨ some part ∈ args := by
  simp [operatorCall, parts]

theorem mem_sliceComponents {bracket : Span} {items : List (Option Tree)} {part : Tree}
    (h : some part ∈ sliceComponents bracket items) :
    part = .none (Node.plain bracket) ∨ some part ∈ items := by
  obtain ⟨component, hcomponent, heq⟩ := List.mem_map.1 h
  obtain rfl := Option.some.inj heq
  cases component with
  | none => exact .inl rfl
  | some component =>
      rcases List.mem_append.1 hcomponent with hmem | hmem
      · exact .inr (List.mem_of_mem_take hmem)
      · exact absurd (List.eq_of_mem_replicate hmem) (by simp)

/-- The parts of an access: its operator, its target, an item of the list or a component that was
left out. -/
theorem mem_parts_accessOf {target part : Tree} {bracket : Span}
    (h : part ∈ (accessOf target bracket list).parts) :
    (∃ symbol, part = .identifier (Node.plain bracket) symbol) ∨ part = target ∨
      part = .none (Node.plain bracket) ∨ some part ∈ list.items := by
  unfold accessOf at h
  dsimp only at h
  split at h
  · split at h
    · next index hindex =>
        obtain ⟨item, hitem, heq⟩ := List.exists_of_findSome?_eq_some hindex
        rw [parts_addMessages, mem_parts_operatorCall] at h
        rcases h with rfl | h
        · exact .inl ⟨_, rfl⟩
        · rcases List.mem_pair.1 h with heq' | heq'
          · exact .inr (.inl (Option.some.inj heq'))
          · exact .inr (.inr (.inr (heq' ▸ heq ▸ hitem)))
    · rw [parts_addMessages, mem_parts_operatorCall] at h
      rcases h with rfl | h
      · exact .inl ⟨_, rfl⟩
      · exact .inr (.inl (Option.some.inj (List.mem_singleton.1 h)))
  · rw [parts_addMessages, mem_parts_operatorCall] at h
    rcases h with rfl | h
    · exact .inl ⟨_, rfl⟩
    rcases List.mem_cons.1 h with heq | h
    · exact .inr (.inl (Option.some.inj heq))
    · exact .inr (.inr (mem_sliceComponents h))

theorem nestedIn_accessOf (he : NestedIn e ts) (hlist : list.Covers NestedIn o us) :
    NestedIn (accessOf e o.span list) (ts ++ o :: us) := by
  intro hascending
  have htarget : AllNested ts e := he (hascending.sublist (List.sublist_append_left ts _))
  have hwhole := htarget.mono (List.subset_append_left ts (o :: us))
  have hmem : o ∈ ts ++ o :: us := List.mem_append_right ts List.mem_cons_self
  obtain ⟨a, ha, hstart⟩ := htarget.span.start
  have hbracket : (e.span.merge list.last.span).covers o.span = true := by
    refine Span.covers_merge_of_le ?_ ?_
    · rw [hstart]
      exact hascending.start_le ha List.mem_cons_self
    · have htail : Ascending (o :: us) := hascending.sublist (List.sublist_append_right ts _)
      exact htail.stop_le_getLast hlist.last List.mem_cons_self
  refine .of_parts ?_ fun part hpart => ?_
  · rw [span_accessOf]
    exact hwhole.span.merge (.of_mem (last_mem hlist ts))
  · rw [span_accessOf]
    rcases mem_parts_accessOf hpart with ⟨symbol, rfl⟩ | rfl | rfl | hitem
    · exact ⟨hbracket, allNested_symbol hmem symbol⟩
    · exact ⟨Span.covers_merge_left _ _, hwhole⟩
    · exact ⟨hbracket, .of_leaf (.of_mem hmem) rfl⟩
    · exact nested_item hlist hascending ⟨a, List.mem_append_left _ ha, hstart⟩ hitem

theorem nestedIn_negationOf (he : NestedIn e ts) (m : Token) :
    NestedIn (negationOf m.span e) (m :: ts) := by
  intro hascending
  have hoperand := (he (hascending.sublist (List.sublist_cons_self m ts))).mono
    (List.subset_cons_self m ts)
  have hmem : m ∈ m :: ts := List.mem_cons_self
  refine .of_parts ((Span.Anchored.of_mem hmem).merge hoperand.span) fun part hpart => ?_
  have hpart : part = .identifier (Node.plain m.span) "neg" ∨ part = e := by
    simpa [negationOf, mem_parts_operatorCall] using hpart
  rcases hpart with rfl | rfl
  · exact ⟨Span.covers_merge_left _ _, allNested_symbol hmem _⟩
  · exact ⟨Span.covers_merge_right _ _, hoperand⟩

theorem nestedIn_binaryOf (hl : NestedIn l ls) (hr : NestedIn r rs) (symbol : String) (t : Token) :
    NestedIn (binaryOf l symbol t.span r) (ls ++ t :: rs) := by
  intro hascending
  have hleft : AllNested ls l := hl (hascending.sublist (List.sublist_append_left ls _))
  have htail : Ascending ([t] ++ rs) := hascending.sublist (List.sublist_append_right ls _)
  have hright : AllNested rs r := hr (htail.sublist (List.sublist_cons_self t rs))
  have hmem : t ∈ ls ++ t :: rs := List.mem_append_right ls List.mem_cons_self
  have hleft' := hleft.mono (List.subset_append_left ls (t :: rs))
  have hright' := hright.mono (fun a ha => List.mem_append_right ls (List.mem_cons_of_mem t ha))
  refine .of_parts (hleft'.span.merge hright'.span) fun part hpart => ?_
  have hpart : part = .identifier (Node.plain t.span) symbol ∨ part = l ∨ part = r := by
    simpa [binaryOf, mem_parts_operatorCall] using hpart
  rcases hpart with rfl | rfl | rfl
  · -- the operator stands after the left operand and before the right one
    obtain ⟨a, ha, hstart⟩ := hleft.span.start
    obtain ⟨b, hb, hstop⟩ := hright.span.stop
    refine ⟨Span.covers_merge_of_le ?_ ?_, allNested_symbol hmem symbol⟩
    · rw [hstart]
      exact hascending.start_le ha List.mem_cons_self
    · rw [hstop]
      exact htail.stop_le (List.mem_singleton_self t) hb
  · exact ⟨Span.covers_merge_left _ _, hleft'⟩
  · exact ⟨Span.covers_merge_right _ _, hright'⟩

theorem nestedIn_halfOf (hl : NestedIn l ls) (symbol : String) (t : Token) :
    NestedIn (halfOf l symbol t.span) (ls ++ [t]) := by
  intro hascending
  have hleft := (hl (hascending.sublist (List.sublist_append_left ls _))).mono
    (List.subset_append_left ls [t])
  have hmem : t ∈ ls ++ [t] := List.mem_append_right ls (List.mem_singleton_self t)
  refine AllNested.addMessages ?_ _
  refine .of_parts (hleft.span.merge (.of_mem hmem)) fun part hpart => ?_
  have hpart : part = .identifier (Node.plain t.span) symbol ∨ part = l := by
    simpa [mem_parts_operatorCall] using hpart
  rcases hpart with rfl | rfl
  · exact ⟨Span.covers_merge_right _ _, allNested_symbol hmem symbol⟩
  · exact ⟨Span.covers_merge_left _ _, hleft⟩

theorem allNested_unrecognizedTokens {span : Span} (h : span.Anchored ts) (tokens : List Token)
    (text : String) : AllNested ts (unrecognizedTokens tokens span text) :=
  .of_leaf h rfl

/-- Every rule of the parser builds nested nodes from nested parts. -/
theorem closedUnderRecovery_nestedIn : ClosedUnderRecovery NestedIn where
  token he _ := .of_leaf (span_of_ofToken? he ▸ .of_mem (List.mem_singleton_self _))
    (parts_of_ofToken? he)
  loneMinus m _ _ := allNested_unrecognizedTokens (.of_mem (List.mem_singleton_self m)) _ _
  emptyParentheses o c _ _ :=
    allNested_unrecognizedTokens ((Span.Anchored.of_mem (by simp)).merge (.of_mem (by simp))) _ _
  addMessages h messages hascending := (h hascending).addMessages messages
  grouped h o c hascending :=
    (h (hascending.sublist (by simp))).mono fun a ha => by simp [ha]
  opened h o hascending :=
    (h (hascending.sublist (List.sublist_cons_self o _))).mono (List.subset_cons_self o _)
  negation := nestedIn_negationOf
  array := nestedIn_array
  call := nestedIn_callOf
  access := nestedIn_accessOf
  binary := nestedIn_binaryOf
  half := nestedIn_halfOf

theorem anchored_unrecognizedRun (t : Token) (rest : List Token) :
    AllNested (t :: rest) (unrecognizedRun t rest) := by
  refine allNested_unrecognizedTokens ((Span.Anchored.of_mem List.mem_cons_self).merge
    (.of_mem ?_)) _ _
  rw [List.getLastD_eq_getLast?]
  cases hlast : (rest.takeWhile (!·.kind.startsExpression)).getLast? with
  | none => exact List.mem_cons_self
  | some last =>
      have hmem := (List.takeWhile_prefix _).subset (List.mem_of_getLast? hlast)
      exact List.mem_cons_of_mem t hmem

/-- In the tree of a token list, well-formed or not, every node lies inside the node above it and
starts and ends with a token. -/
theorem nested_ofTokens {tokens : List Token} (h : Ascending tokens) (hne : tokens ≠ []) :
    ∀ x, IsNode x (ofTokens tokens) → Nested tokens x := by
  obtain ⟨t, rest, rfl⟩ := List.exists_cons_of_ne_nil hne
  change AllNested (t :: rest) _
  rw [ofTokens, pieces]
  split
  · next hp => split at hp <;> cases hp
  · next root extras hp =>
      refine AllNested.addMessages ?_ _
      split at hp
      · next e he =>
          cases hp
          obtain ⟨ts, hs, -, hnested⟩ := consumes_expression closedUnderRecovery_nestedIn he
          have hprefix : ts <+: t :: rest := ⟨e.rest, hs.symm⟩
          exact (hnested (h.sublist hprefix.sublist)).mono hprefix.subset
      · cases hp
        exact anchored_unrecognizedRun t rest

section Sample

/-- The tokens of `f(-) + a[1`. -/
def unclosedTokens : List Token :=
  [.ofText .identifier "f" ⟨0, 0⟩, .ofText .openParen "(" ⟨0, 1⟩, .ofText .minus "-" ⟨0, 2⟩,
    .ofText .closeParen ")" ⟨0, 3⟩, .ofText .plus "+" ⟨0, 5⟩, .ofText .identifier "a" ⟨0, 7⟩,
    .ofText .openBracket "[" ⟨0, 8⟩, .ofText .integer "1" ⟨0, 9⟩]

theorem tokenize_unclosed : Token.tokenize "f(-) + a[1" = .ok unclosedTokens := by
  decide +kernel

/-- The call ends with the first parenthesis, the access with the last token. -/
theorem nested_ofTokens_unclosed :
    Ascending unclosedTokens ∧ unclosedTokens ≠ [] ∧
      ∀ x, IsNode x (ofTokens unclosedTokens) → Nested unclosedTokens x := by
  have hascending := (InOrder.of_tokenize tokenize_unclosed).ascending
  exact ⟨hascending, List.cons_ne_nil _ _, nested_ofTokens hascending (List.cons_ne_nil _ _)⟩

end Sample

end Tree

end LazyLang
