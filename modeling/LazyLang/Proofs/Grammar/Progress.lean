import LazyLang.Proofs.Grammar.Cursor

/-!
# The cursor gets to the end

The rules with a cursor end, whatever the tokens are, and read what the functions on lists read:
rules that call on others do, as far as the others do (`Cursor.Rules.ReadsUpTo.next`), so that fuel
for two calls for each token is enough (`Cursor.readsUpTo_ofFuel`). A rule that gives up leaves the
cursor where it was; one that reads something moves it.
-/

namespace LazyLang

namespace Cursor

variable {α β : Type} {R : Rules} {c c' : Cursor} {s rest : List Token} {t last : Token}

/-- The tokens that are not yet read. -/
def ahead (c : Cursor) : List Token := c.tokens.drop c.index

/-- `n` tokens further. -/
def skip (c : Cursor) (n : Nat) : Cursor := { c with index := c.index + n }

@[simp] theorem skip_skip (c : Cursor) (n k : Nat) : (c.skip n).skip k = c.skip (n + k) := by
  simp [skip, Nat.add_assoc]

theorem ahead_skip (c : Cursor) (n : Nat) : (c.skip n).ahead = c.ahead.drop n := by
  simp [ahead, skip]

theorem getElem?_index (c : Cursor) : c.tokens[c.index]? = c.ahead.head? := by
  rw [ahead, List.head?_drop]

/-- The cursor is right after `last`, and before `s`. -/
structure At (c : Cursor) (last : Token) (s : List Token) : Prop where
  ahead : c.ahead = s
  previous : 0 < c.index ∧ c.tokens[c.index - 1]? = some last

/-- The step ends without moving the cursor. -/
def Stays (m : Moving α) (c : Cursor) (a : α) : Prop := m.run c = some (a, c)

/-- The step ends with the cursor right after `last`, and before `rest`. -/
def Reads (m : Moving α) (c : Cursor) (a : α) (last : Token) (rest : List Token) : Prop :=
  ∃ n, m.run c = some (a, c.skip n) ∧ (c.skip n).At last rest

theorem stays_peek? (c : Cursor) : Stays peek? c c.ahead.head? := by
  rw [← getElem?_index]
  rfl

theorem stays_position (c : Cursor) : Stays position c c.index := rfl

theorem stays_restore (c : Cursor) : Stays (restore c.index) c () := rfl

theorem stays_pure (c : Cursor) (a : α) : Stays (pure a) c a := rfl

theorem At.stays_previous? (h : c.At last s) : Stays previous? c (some last) := by
  have hpos : c.index ≠ 0 := Nat.pos_iff_ne_zero.1 h.previous.1
  simp [Stays, previous?, StateT.run, hpos, h.previous.2]

theorem Stays.run_bind {m : Moving α} {a : α} (h : Stays m c a) (f : α → Moving β) :
    (m >>= f).run c = (f a).run c := by
  rw [StateT.run_bind, h]
  rfl

theorem Stays.bind {m : Moving α} {f : α → Moving β} {a : α} {b : β} (h : Stays m c a)
    (hf : Stays (f a) c b) : Stays (m >>= f) c b := by
  simp only [Stays, StateT.run_bind] at *
  rw [h]
  exact hf

theorem Stays.bind_reads {m : Moving α} {f : α → Moving β} {a : α} {b : β} (h : Stays m c a)
    (hf : Reads (f a) c b last rest) : Reads (m >>= f) c b last rest := by
  obtain ⟨n, hrun, hat⟩ := hf
  refine ⟨n, ?_, hat⟩
  rw [StateT.run_bind, h]
  exact hrun

theorem At.reads_pure (h : c.At last s) (a : α) : Reads (pure a) c a last s := ⟨0, rfl, h⟩

theorem reads_advance (h : c.ahead = t :: s) : Reads advance c (some t) t s := by
  have hhead : c.tokens[c.index]? = some t := by rw [getElem?_index, h]; rfl
  refine ⟨1, ?_, ?_, Nat.succ_pos _, hhead⟩
  · simp [advance, StateT.run, hhead, skip]
  · rw [ahead_skip, h]
    rfl

theorem Reads.bind {m : Moving α} {f : α → Moving β} {a : α} {b : β} {mid : Token}
    {between : List Token} (h : Reads m c a mid between)
    (hf : ∀ c' : Cursor, c'.At mid between → Reads (f a) c' b last rest) :
    Reads (m >>= f) c b last rest := by
  obtain ⟨n, hrun, hat⟩ := h
  obtain ⟨k, hrun', hat'⟩ := hf _ hat
  rw [skip_skip] at hrun' hat'
  exact ⟨n + k, by rw [StateT.run_bind, hrun]; exact hrun', hat'⟩

section Combinators

variable {p q : Moving (Reading α)} {a : α} {e : Unexpected}

theorem Reads.orElse (h : Reads p c (.ok a) last rest) (q : Moving (Reading α)) :
    Reads (orElse p q) c (.ok a) last rest :=
  (stays_position c).bind_reads <| h.bind fun _ hat => hat.reads_pure _

theorem Stays.orElse_reads (h : Stays p c (.error e)) {b : Reading α} (hq : Reads q c b last rest) :
    Reads (orElse p q) c b last rest :=
  (stays_position c).bind_reads <| h.bind_reads <| (stays_restore c).bind_reads hq

theorem Stays.orElse (h : Stays p c (.error e)) {b : Reading α} (hq : Stays q c b) :
    Stays (orElse p q) c b :=
  (stays_position c).bind <| h.bind <| (stays_restore c).bind hq

theorem Reads.label (h : Reads p c (.ok a) last rest) (name : String) :
    Reads (label name p) c (.ok a) last rest :=
  (stays_position c).bind_reads <| h.bind fun _ hat => hat.reads_pure _

theorem Stays.label (h : Stays p c (.error e)) (name : String) :
    Stays (label name p) c (.error ⟨name, c.ahead.head?⟩) :=
  (stays_position c).bind <| h.bind <| (stays_restore c).bind <| (stays_peek? c).bind rfl

theorem Reads.optional (h : Reads p c (.ok a) last rest) :
    Reads (optional p) c (some a) last rest :=
  (stays_position c).bind_reads <| h.bind fun _ hat => hat.reads_pure _

theorem Stays.optional (h : Stays p c (.error e)) : Stays (optional p) c none :=
  (stays_position c).bind <| h.bind <| (stays_restore c).bind rfl

end Combinators

theorem reads_takeIf (h : c.ahead = t :: s) {kind : TokenKind} (hkind : t.kind = kind) :
    Reads (takeIf kind) c (some t) t s := by
  refine (stays_peek? c).bind_reads ?_
  simpa [h, hkind] using reads_advance h

theorem stays_takeIf {kind : TokenKind} (h : ∀ t ∈ c.ahead.head?, t.kind ≠ kind) :
    Stays (takeIf kind) c none := by
  refine (stays_peek? c).bind ?_
  have hany : c.ahead.head?.any (·.kind = kind) = false := by
    cases hhead : c.ahead.head? with
    | none => rfl
    | some t => simpa using h t hhead
  simpa [hany] using stays_pure c none

section Leaves

variable {rule : TokenRule}

theorem reads_expect (h : c.ahead = t :: s) (ht : rule.accepts t.kind = true) :
    Reads (expect rule) c (.ok t) t s := by
  refine (stays_peek? c).bind_reads ?_
  simp only [h, List.head?_cons, Option.filter, ht, if_true]
  exact (reads_advance h).bind fun _ hat => hat.reads_pure _

theorem stays_expect (h : c.ahead.head?.filter (rule.accepts ·.kind) = none) :
    Stays (expect rule) c (.error ⟨rule.expected, c.ahead.head?⟩) := by
  refine (stays_peek? c).bind ?_
  simpa [h] using stays_pure c _

/-- The rule reads the next token, of a kind that `accepts` holds of, as the literal or name that
it is, and gives up on any other. -/
structure ReadsLeaf (p : Moving (Reading Tree)) (accepts : TokenKind → Bool) : Prop where
  reads {c : Cursor} {t : Token} {s : List Token} {tree : Tree} (h : c.ahead = t :: s)
    (ht : accepts t.kind = true) (htree : Tree.ofToken? t = some tree) :
    Reads p c (.ok tree) t s
  stays {c : Cursor} (h : c.ahead.head?.filter (accepts ·.kind) = none) :
    ∃ e, Stays p c (.error e)

theorem readsLeaf_leaf (rule : TokenRule) : ReadsLeaf (leaf rule) rule.accepts where
  reads {c t s tree} h ht htree := by
    refine (stays_peek? c).bind_reads ?_
    simp only [h, List.head?_cons, Option.filter, ht, if_true, Option.bind_some, htree]
    exact (reads_advance h).bind fun _ hat => hat.reads_pure _
  stays {c} h := by
    refine ⟨⟨rule.expected, c.ahead.head?⟩, (stays_peek? c).bind ?_⟩
    simpa [h] using stays_pure c _

theorem ReadsLeaf.orElse {p q : Moving (Reading Tree)} {acceptsLeft acceptsRight : TokenKind → Bool}
    (hp : ReadsLeaf p acceptsLeft) (hq : ReadsLeaf q acceptsRight) :
    ReadsLeaf (orElse p q) fun kind => acceptsLeft kind || acceptsRight kind where
  reads {c t s tree} h ht htree := by
    by_cases hleft : acceptsLeft t.kind = true
    · exact (hp.reads h hleft htree).orElse q
    · obtain ⟨e, he⟩ := hp.stays (c := c) (by simp [h, Option.filter, hleft])
      exact he.orElse_reads (hq.reads h ((Bool.or_eq_true _ _ ▸ ht).resolve_left hleft) htree)
  stays {c} h := by
    rw [Option.filter_eq_none_iff] at h
    obtain ⟨e, he⟩ := hp.stays (c := c) (Option.filter_eq_none_iff.2 fun t ht => by
      have := h t ht; simp_all)
    obtain ⟨e', he'⟩ := hq.stays (c := c) (Option.filter_eq_none_iff.2 fun t ht => by
      have := h t ht; simp_all)
    exact ⟨e', he.orElse he'⟩

end Leaves

/-- What has been read may be given back. -/
theorem Reads.bind_stays {m : Moving α} {f : α → Moving β} {a : α} {b : β} {mid : Token}
    {between : List Token} (h : Reads m c a mid between)
    (hf : ∀ n, (c.skip n).At mid between → (f a).run (c.skip n) = some (b, c)) :
    Stays (m >>= f) c b := by
  obtain ⟨n, hrun, hat⟩ := h
  rw [Stays, StateT.run_bind, hrun]
  exact hf n hat

/-- The rule gives up without having moved the cursor, or reads what the function reads. -/
def Matches (m : Moving (Reading Tree)) (c : Cursor) (s : List Token) :
    Except Unexpected (Taken s) → Prop
  | .ok r => Reads m c (.ok r.tree) r.last r.rest
  | .error e => Stays m c (.error e)

theorem readsLeaf_alternatives : ReadsLeaf
    (orElse (orElse (orElse (orElse (orElse (leaf .string) (leaf .float)) (leaf .integer))
      (leaf .boolean)) (leaf .none)) (leaf .identifier)) TokenRule.literal.accepts := by
  have h := (((((readsLeaf_leaf .string).orElse (readsLeaf_leaf .float)).orElse
    (readsLeaf_leaf .integer)).orElse (readsLeaf_leaf .boolean)).orElse
      (readsLeaf_leaf .none)).orElse (readsLeaf_leaf .identifier)
  have haccepts : TokenRule.literal.accepts = fun kind =>
      ((((TokenRule.string.accepts kind || TokenRule.float.accepts kind) ||
        TokenRule.integer.accepts kind) || TokenRule.boolean.accepts kind) ||
          TokenRule.none.accepts kind) || TokenRule.identifier.accepts kind := by
    funext kind
    cases kind <;> rfl
  rw [haccepts]
  exact h

theorem ofToken?_eq_none_iff :
    Tree.ofToken? t = none ↔ TokenRule.literal.accepts t.kind = false := by
  unfold Tree.ofToken?
  cases t.kind <;> simp [TokenRule.literal]

theorem reads_literal {tree : Tree} (h : c.ahead = t :: s) (htree : Tree.ofToken? t = some tree) :
    Reads literal c (.ok tree) t s := by
  have ht : TokenRule.literal.accepts t.kind = true := by
    cases hkind : TokenRule.literal.accepts t.kind with
    | true => rfl
    | false =>
        rw [ofToken?_eq_none_iff.2 hkind] at htree
        cases htree
  exact (readsLeaf_alternatives.reads h ht htree).label _

theorem stays_literal (h : ∀ t ∈ c.ahead.head?, Tree.ofToken? t = none) :
    Stays literal c (.error ⟨"expression", c.ahead.head?⟩) := by
  obtain ⟨e, he⟩ := readsLeaf_alternatives.stays (c := c) <| Option.filter_eq_none_iff.2
    fun t ht => by simp [ofToken?_eq_none_iff.1 (h t ht)]
  exact he.label _

namespace ListState

variable {form : ListForm} {opening : Token} {p : ListProgress} {st : ListState}

/-- The variables of the loop say what the reading of the list has come to. -/
structure Follows (st : ListState) (p : ListProgress) (last : Token) : Prop where
  expecting : st.expecting = p.due
  separators : decide (0 < st.separators) = p.separated
  dangling : st.dangling = p.dangling
  stop : st.stop = last

/-- What the loop has read, and then the rest of the list. -/
def join (st : ListState) (list : Listed s) : Listed [] :=
  ⟨st.items ++ list.items, st.separators + list.separators, st.messages ++ list.messages,
    list.last, [], nothing_left⟩

theorem follows_start (opening : Token) : (start opening).Follows .start opening :=
  ⟨rfl, rfl, rfl, rfl⟩

theorem Follows.separated (h : st.Follows p last) (form : ListForm) (t : Token) :
    (st.separated form t).Follows (p.afterSeparator t.span) t :=
  ⟨rfl, by simp [ListState.separated, ListProgress.afterSeparator],
    by simp [ListState.separated, ListProgress.afterSeparator, h.expecting], rfl⟩

theorem Follows.followed (h : st.Follows p last) (t stop : Token) (item : Option Tree) :
    (st.followed t item (some stop)).Follows p.afterItem stop :=
  ⟨rfl, h.separators, rfl, rfl⟩

theorem Follows.listed_unclosed (h : st.Follows p last) (form : ListForm) (opening : Token)
    (s : List Token) :
    (st.unclosed form opening).listed = st.join (.unclosed form opening last s) := by
  simp [listed, join, unclosed, Listed.unclosed, h.stop]

theorem Follows.listed_closed (h : st.Follows p last) (form : ListForm) (t : Token)
    (s : List Token) : (st.closed form t).listed = st.join (.closed form p t s) := by
  unfold ListState.closed
  simp only [listed, join, Listed.closed, h.expecting, h.dangling, gt_iff_lt, h.separators]
  cases p.due <;> cases p.separated <;> cases form.mayOmit <;> simp

theorem Follows.join_separated (h : st.Follows p last) (form : ListForm) (t : Token)
    (list : Listed s) :
    (st.separated form t).join list = st.join (list.afterSeparator form p t) := by
  simp only [ListState.separated, join, Listed.afterSeparator, h.expecting]
  cases p.due <;> cases form.mayOmit <;> simp [Nat.add_comm, Nat.add_left_comm]

theorem Follows.join_followed (h : st.Follows p last) (t stop : Token) (item : Option Tree)
    (list : Listed rest) (hle : rest.length ≤ s.length) :
    (st.followed t item (some stop)).join list = st.join (.afterItem p t item hle list) := by
  simp only [ListState.followed, join, Listed.afterItem, h.expecting]
  cases p.due <;> simp

theorem join_start (opening : Token) (list : Listed s) :
    (start opening).join list = ⟨list.items, list.separators, list.messages, list.last, [],
      Nat.le_refl _⟩ := by
  simp [start, join]

end ListState

section Lists

variable {form : ListForm} {opening : Token} {st : ListState}

theorem reads_placeholder? (h : c.ahead = t :: s)
    (ht : (form.placeholders && t.kind = .underscore) = true) :
    Reads (placeholder? form) c (some t) t s := by
  rw [Bool.and_eq_true] at ht
  rw [placeholder?, if_pos ht.1]
  exact (reads_expect h ht.2).optional

theorem stays_placeholder? (h : ∀ t ∈ c.ahead.head?,
    (form.placeholders && t.kind = .underscore) = false) : Stays (placeholder? form) c none := by
  unfold placeholder?
  split
  · next hform =>
      refine (stays_expect (Option.filter_eq_none_iff.2 fun t ht => ?_)).optional
      have := h t ht
      simp_all [TokenRule.underscore]
  · exact stays_pure c none

theorem reads_listItem_placeholder (h : c.ahead = t :: s)
    (ht : (form.placeholders && t.kind = .underscore) = true) :
    Reads (R.listItem form) c (.ok none) t s := by
  rw [Rules.listItem]
  exact (reads_placeholder? h ht).bind fun _ hat => hat.reads_pure _

theorem reads_listItem {tree : Tree} (hnot : Stays (placeholder? form) c none)
    (h : Reads (R.expression 0) c (.ok tree) last rest) :
    Reads (R.listItem form) c (.ok (some tree)) last rest := by
  rw [Rules.listItem]
  exact hnot.bind_reads <| h.bind fun _ hat => hat.reads_pure _

theorem stays_listItem {e : Unexpected} (hnot : Stays (placeholder? form) c none)
    (h : Stays (R.expression 0) c (.error e)) : Stays (R.listItem form) c (.error e) := by
  rw [Rules.listItem]
  exact hnot.bind <| h.bind rfl

theorem stays_listTurn_nil (h : c.ahead = []) :
    Stays (R.listTurn form opening st) c (.done (st.unclosed form opening)) := by
  rw [Rules.listTurn]
  refine (stays_peek? c).bind ?_
  rw [h]
  rfl

theorem reads_listTurn_close (h : c.ahead = t :: s) (ht : t.kind = form.close) :
    Reads (R.listTurn form opening st) c (.done (st.closed form t)) t s := by
  rw [Rules.listTurn]
  refine (stays_peek? c).bind_reads ?_
  simp only [h, List.head?_cons, ht, if_true]
  exact (reads_advance h).bind fun _ hat => hat.reads_pure _

theorem reads_listTurn_separator (h : c.ahead = t :: s) (hclose : t.kind ≠ form.close)
    (ht : t.kind = form.separator) :
    Reads (R.listTurn form opening st) c (.again (st.separated form t)) t s := by
  rw [Rules.listTurn]
  refine (stays_peek? c).bind_reads ?_
  simp only [h, List.head?_cons, if_neg hclose, if_pos ht]
  exact (reads_advance h).bind fun _ hat => hat.reads_pure _

variable (h : c.ahead = t :: s) (hclose : t.kind ≠ form.close)
  (hseparator : t.kind ≠ form.separator)
include h hclose hseparator

theorem reads_listTurn_item {item : Option Tree}
    (hitem : Reads (R.listItem form) c (.ok item) last rest) :
    Reads (R.listTurn form opening st) c (.again (st.followed t item (some last))) last rest := by
  rw [Rules.listTurn]
  refine (stays_peek? c).bind_reads ?_
  simp only [h, List.head?_cons, if_neg hclose, if_neg hseparator]
  exact (stays_position c).bind_reads <| hitem.bind fun _ hat =>
    hat.stays_previous?.bind_reads (hat.reads_pure _)

theorem stays_listTurn {e : Unexpected} (hitem : Stays (R.listItem form) c (.error e)) :
    Stays (R.listTurn form opening st) c (.done (st.unclosed form opening)) := by
  rw [Rules.listTurn]
  refine (stays_peek? c).bind ?_
  simp only [h, List.head?_cons, if_neg hclose, if_neg hseparator]
  exact (stays_position c).bind <| hitem.bind <| (stays_restore c).bind rfl

end Lists

section Lists

variable {form : ListForm} {opening : Token} {st st' : ListState}

theorem reads_listItems_done (h : Reads (R.listTurn form opening st) c (.done st') last rest) :
    Reads (R.next.listItems form opening st) c st'.listed last rest := by
  rw [Rules.next]
  exact h.bind fun _ hat => hat.reads_pure _

theorem At.reads_listItems_done (h : c.At last s)
    (hturn : Stays (R.listTurn form opening st) c (.done st')) :
    Reads (R.next.listItems form opening st) c st'.listed last s := by
  rw [Rules.next]
  exact hturn.bind_reads (h.reads_pure _)

theorem reads_listItems_again {list : Listed []} {mid : Token} {between : List Token}
    (h : Reads (R.listTurn form opening st) c (.again st') mid between)
    (hmore : ∀ c' : Cursor, c'.At mid between →
      Reads (R.listItems form opening st') c' list last rest) :
    Reads (R.next.listItems form opening st) c list last rest := by
  rw [Rules.next]
  exact h.bind hmore

end Lists

section Operators

variable {floor : Nat} {left tree : Tree} {op : Operator}

theorem stays_extend (h : ∀ op, c.ahead.head?.bind (Operator.ofKind? ·.kind) = some op →
    op.bindsOver floor = false) : Stays (R.extend floor left) c (.done left) := by
  rw [Rules.extend]
  refine (stays_peek? c).bind ?_
  split
  · next op hop =>
      rw [h op hop]
      exact stays_pure c _
  · exact stays_pure c _

theorem reads_extend (h : c.ahead = t :: s) (hop : Operator.ofKind? t.kind = some op)
    (hbinds : op.bindsOver floor = true) (hstep : Reads (R.operation left op) c tree last rest) :
    Reads (R.extend floor left) c (.again tree) last rest := by
  rw [Rules.extend]
  refine (stays_peek? c).bind_reads ?_
  simp only [h, List.head?_cons, Option.bind_some, hop, hbinds, if_true]
  exact hstep.bind fun _ hat => hat.reads_pure _

theorem At.reads_operators_done (h : c.At last s)
    (hextend : Stays (R.extend floor left) c (.done left)) :
    Reads (R.next.operators floor left) c left last s := by
  rw [Rules.next]
  exact hextend.bind_reads (h.reads_pure left)

/-- One operator after `left`, and then the rest of them. -/
theorem reads_operators_operation {left' : Tree} {mid : Token} {between : List Token}
    {r : Extended between} (h : c.ahead = t :: s) (hop : Operator.ofKind? t.kind = some op)
    (hbinds : op.bindsOver floor = true) (hstep : Reads (R.operation left op) c left' mid between)
    (hmore : ∀ c' : Cursor, c'.At mid between →
      Reads (R.operators floor left') c' r.tree r.last r.rest)
    (hle : between.length ≤ (t :: s).length) :
    Reads (R.next.operators floor left) c (r.widen hle).tree (r.widen hle).last
      (r.widen hle).rest := by
  rw [Rules.next]
  exact (reads_extend h hop hbinds hstep).bind hmore

theorem operation_of_call (h : op.form = .call) : R.operation left op = R.call left := by
  rw [Rules.operation, h]

theorem operation_of_access (h : op.form = .access) : R.operation left op = R.access left := by
  rw [Rules.operation, h]

theorem operation_of_binary (h : op.form = .binary) : R.operation left op = R.binary left op := by
  rw [Rules.operation, h]

/-- The loop over a list whose opening token has just been read reads what the function reads. -/
def ReadsList (R : Rules) (form : ListForm) (t : Token) (list : Listed s) : Prop :=
  ∀ c : Cursor, c.At t s → Reads (R.listItems form t (.start t)) c ((ListState.start t).join list)
    list.last list.rest

theorem reads_call {list : Listed s} (h : c.ahead = t :: s)
    (hlist : ReadsList R .arguments t list) :
    Reads (R.call left) c (Tree.callOf left list) list.last list.rest := by
  rw [Rules.call]
  refine (reads_advance h).bind fun c' hat => (hlist c' hat).bind fun _ hat => ?_
  rw [ListState.join_start]
  exact hat.reads_pure _

theorem reads_access {list : Listed s} (h : c.ahead = t :: s)
    (hlist : ReadsList R .components t list) :
    Reads (R.access left) c (Tree.accessOf left t.span list) list.last list.rest := by
  rw [Rules.access]
  refine (reads_advance h).bind fun c' hat => (hlist c' hat).bind fun _ hat => ?_
  rw [ListState.join_start]
  exact hat.reads_pure _

theorem reads_binary {r : Taken s} (h : c.ahead = t :: s)
    (hright : ∀ c' : Cursor, c'.At t s →
      Reads (R.expression op.precedence) c' (.ok r.tree) r.last r.rest) :
    Reads (R.binary left op) c (Tree.binaryOf left op.symbol t.span r.tree) r.last r.rest := by
  rw [Rules.binary]
  exact (reads_advance h).bind fun c' hat => (stays_position c').bind_reads <|
    (hright c' hat).bind fun _ hat => hat.reads_pure _

theorem reads_binary_half {e : Unexpected} (h : c.ahead = t :: s)
    (hright : ∀ c' : Cursor, c'.At t s → Stays (R.expression op.precedence) c' (.error e)) :
    Reads (R.binary left op) c (Tree.halfOf left op.symbol t.span) t s := by
  rw [Rules.binary]
  exact (reads_advance h).bind fun c' hat => (stays_position c').bind_reads <|
    (hright c' hat).bind_reads <| (stays_restore c').bind_reads (hat.reads_pure _)

end Operators

theorem run_operand (h : c.ahead = t :: s) : R.operand.run c =
    (match t.kind with
    | .openParen => R.parenthesized
    | .openBracket => R.array
    | .minus => R.negation
    | _ => literal).run c := by
  rw [Rules.operand, (stays_peek? c).run_bind, h]
  rfl

theorem Matches.reads {m : Moving (Reading Tree)} {s : List Token} {x : Except Unexpected (Taken s)}
    {r : Taken s} (h : Matches m c s x) (hx : x = .ok r) :
    Reads m c (.ok r.tree) r.last r.rest := by
  rw [hx] at h
  exact h

theorem Matches.stays {m : Moving (Reading Tree)} {s : List Token} {x : Except Unexpected (Taken s)}
    {e : Unexpected} (h : Matches m c s x) (hx : x = .error e) : Stays m c (.error e) := by
  rw [hx] at h
  exact h

theorem Matches.of_run_eq {m m' : Moving (Reading Tree)} {s : List Token}
    {r : Except Unexpected (Taken s)} (heq : m.run c = m'.run c) (h : Matches m' c s r) :
    Matches m c s r := by
  cases r with
  | ok r =>
      obtain ⟨n, hrun, hat⟩ := h
      exact ⟨n, heq.trans hrun, hat⟩
  | error e => exact heq.trans h

theorem matches_negation {s : List Token} (h : c.ahead = t :: s) (ht : t.kind = .minus)
    (hoperand : ∀ c' : Cursor, c'.At t s →
      Matches (R.expression Operator.unaryPrecedence) c' s
        (Tree.expression Operator.unaryPrecedence s)) :
    Matches R.negation c (t :: s) (Tree.operand (t :: s)) := by
  have hminus : TokenRule.minus.accepts t.kind = true := by simp [TokenRule.minus, ht]
  rw [Tree.operand]
  simp only [ht]
  rw [Rules.negation]
  cases hr : Tree.expression Operator.unaryPrecedence s with
  | ok r =>
      rw [hr] at hoperand
      exact (reads_expect h hminus).bind fun c' hat => (stays_position c').bind_reads <|
        (hoperand c' hat).bind fun _ hat => hat.reads_pure _
  | error e =>
      rw [hr] at hoperand
      exact (reads_expect h hminus).bind fun c' hat => (stays_position c').bind_reads <|
        Stays.bind_reads (hoperand c' hat) <| (stays_restore c').bind_reads (hat.reads_pure _)

theorem reads_array {list : Listed s} (h : c.ahead = t :: s) (ht : t.kind = .openBracket)
    (hlist : ReadsList R .elements t list) :
    Reads R.array c (.ok (.array ⟨t.span.merge list.last.span, list.messages, ()⟩
      (list.items.filterMap id))) list.last list.rest := by
  have hbracket : TokenRule.openBracket.accepts t.kind = true := by
    simp [TokenRule.openBracket, ht]
  rw [Rules.array]
  refine (reads_expect h hbracket).bind fun c' hat => (hlist c' hat).bind fun _ hat => ?_
  rw [ListState.join_start]
  exact hat.reads_pure _

/-- After the expression in parentheses: the closing one, or a message that it is missing. -/
theorem At.reads_closing {inner : Taken s} (h : c.At inner.last inner.rest) (o : Token) :
    Reads (closing o inner.tree) c (Tree.closeParenthesis o inner).tree
      (Tree.closeParenthesis o inner).last (Tree.closeParenthesis o inner).rest := by
  unfold Tree.closeParenthesis
  split
  · next t rest hrest =>
      split
      · next ht => exact (reads_takeIf (h.ahead.trans hrest) ht).bind fun _ hat => hat.reads_pure _
      · next ht =>
          have hstay : Stays (takeIf .closeParen) c none :=
            stays_takeIf (by simpa [h.ahead, hrest] using ht)
          exact hstay.bind_reads (h.reads_pure _)
  · next hrest =>
      have hstay : Stays (takeIf .closeParen) c none := stays_takeIf (by simp [h.ahead, hrest])
      exact hstay.bind_reads (h.reads_pure _)

theorem matches_parenthesized {s : List Token} (h : c.ahead = t :: s) (ht : t.kind = .openParen)
    (hinner : ∀ c' : Cursor, c'.At t s → Matches (R.expression 0) c' s (Tree.expression 0 s)) :
    Matches R.parenthesized c (t :: s) (Tree.parenthesized t s) := by
  have hparen : TokenRule.openParen.accepts t.kind = true := by simp [TokenRule.openParen, ht]
  rw [Rules.parenthesized]
  by_cases hclosed : ∃ u rest, s = u :: rest ∧ u.kind = .closeParen
  · obtain ⟨u, rest, rfl, hu⟩ := hclosed
    rw [Tree.parenthesized, if_pos hu]
    exact (stays_position c).bind_reads <| (reads_expect h hparen).bind fun c' hat =>
      (reads_takeIf hat.ahead hu).bind fun _ hat => hat.reads_pure _
  have hnot : ∀ u ∈ s.head?, u.kind ≠ .closeParen := by
    intro u hu hkind
    obtain ⟨rest, rfl⟩ := List.head?_eq_some_iff.1 hu
    exact hclosed ⟨u, rest, rfl, hkind⟩
  have hstay (c' : Cursor) (hat : c'.At t s) : Stays (takeIf .closeParen) c' none :=
    stays_takeIf (by rwa [hat.ahead])
  have heq : Tree.parenthesized t s =
      (Tree.expression 0 s).map (Tree.closeParenthesis t ·) := by
    cases s with
    | nil => simp [Tree.parenthesized, Tree.expression, Tree.operand, Except.map]
    | cons u rest =>
        rw [Tree.parenthesized, if_neg (hnot u rfl)]
        cases Tree.expression 0 (u :: rest) <;> rfl
  rw [heq]
  cases hr : Tree.expression 0 s with
  | ok inner =>
      rw [hr] at hinner
      exact (stays_position c).bind_reads <| (reads_expect h hparen).bind fun c' hat =>
        (hstay c' hat).bind_reads <| Reads.bind (hinner c' hat) fun _ hat =>
          (hat.reads_closing t).bind fun _ hat => hat.reads_pure _
  | error e =>
      rw [hr] at hinner
      refine (stays_position c).bind <| (reads_expect h hparen).bind_stays fun n hat => ?_
      -- the parenthesis is given back with the position
      rw [(hstay _ hat).run_bind]
      exact Stays.run_bind (hinner _ hat) _

/-- The rules read what the functions on lists read, as far as there are no more tokens left than
`n` calls suffice for, two for each token. -/
structure Rules.ReadsUpTo (R : Rules) (n : Nat) : Prop where
  expression {c : Cursor} {s : List Token} (floor : Nat) (h : c.ahead = s)
    (hn : 2 * s.length + 1 ≤ n) : Matches (R.expression floor) c s (Tree.expression floor s)
  operators {c : Cursor} {s : List Token} {last : Token} (floor : Nat) (left : Tree)
    (h : c.At last s) (hn : 2 * s.length + 1 ≤ n) :
    Reads (R.operators floor left) c (Tree.extend floor left last s).tree
      (Tree.extend floor left last s).last (Tree.extend floor left last s).rest
  listItems {c : Cursor} {s : List Token} {last : Token} (form : ListForm) (opening : Token)
    {p : ListProgress} {st : ListState} (hst : st.Follows p last) (h : c.At last s)
    (hn : 2 * s.length + 2 ≤ n) :
    Reads (R.listItems form opening st) c (st.join (Tree.listItems form opening p last s))
      (Tree.listItems form opening p last s).last (Tree.listItems form opening p last s).rest

section Step

variable {n : Nat} (hR : R.ReadsUpTo n)
include hR

theorem Rules.ReadsUpTo.list (form : ListForm) (t : Token) (hn : 2 * s.length + 2 ≤ n) :
    ReadsList R form t (Tree.listItems form t .start t s) :=
  fun _ hat => hR.listItems form t (ListState.follows_start t) hat hn

theorem matches_operand (h : c.ahead = s) (hn : 2 * s.length ≤ n) :
    Matches R.operand c s (Tree.operand s) := by
  cases s with
  | nil =>
      rw [Rules.operand, Tree.operand]
      refine (stays_peek? c).bind ?_
      have hliteral := stays_literal (c := c) (by simp [h])
      simpa only [h, List.head?_nil] using hliteral
  | cons t rest =>
      rw [List.length_cons] at hn
      refine .of_run_eq (run_operand h) ?_
      split
      · next ht =>
          rw [Tree.operand]
          simp only [ht]
          exact matches_parenthesized h ht fun c' hat => hR.expression 0 hat.ahead (by omega)
      · next ht =>
          rw [Tree.operand]
          simp only [ht]
          exact reads_array h ht (hR.list .elements t (by omega))
      · next ht =>
          exact matches_negation h ht fun c' hat => hR.expression _ hat.ahead (by omega)
      · next hparen hbracket hminus =>
          rw [Tree.operand]
          split
          · contradiction
          · contradiction
          · contradiction
          · split
            · next tree htree => exact reads_literal h htree
            · next htree =>
                have hliteral := stays_literal (c := c) (by simpa [h] using htree)
                rw [h] at hliteral
                exact hliteral

theorem matches_next_expression (floor : Nat) (h : c.ahead = s) (hn : 2 * s.length ≤ n) :
    Matches (R.next.expression floor) c s (Tree.expression floor s) := by
  have hoperand := matches_operand hR h hn
  rw [Rules.next, Tree.expression]
  split
  · next e he =>
      rw [he] at hoperand
      exact (stays_position c).bind <| Stays.bind hoperand <| (stays_restore c).bind rfl
  · next first hfirst =>
      rw [hfirst] at hoperand
      have hshort := first.shorter
      exact (stays_position c).bind_reads <| Reads.bind hoperand fun c' hat =>
        (hR.operators floor first.tree hat (by omega)).bind fun _ hat => hat.reads_pure _

theorem reads_next_operators (floor : Nat) (left : Tree) (h : c.At last s)
    (hn : 2 * s.length ≤ n) :
    Reads (R.next.operators floor left) c (Tree.extend floor left last s).tree
      (Tree.extend floor left last s).last (Tree.extend floor left last s).rest := by
  cases s with
  | nil =>
      rw [Tree.extend]
      exact h.reads_operators_done (stays_extend (by simp [h.ahead]))
  | cons t rest =>
      rw [List.length_cons] at hn
      rw [Tree.extend]
      split
      · next hop => exact h.reads_operators_done (stays_extend (by simp [h.ahead, hop]))
      · next op hop =>
          split
          · next hbinds =>
              split
              · next hform =>
                  have hle := (Tree.listItems .arguments t .start t rest).le
                  have hlist := hR.list (s := rest) .arguments t (by omega)
                  exact reads_operators_operation h.ahead hop hbinds
                    (operation_of_call hform ▸ reads_call h.ahead hlist)
                    (fun c' hat => hR.operators floor _ hat (by omega)) _
              · next hform =>
                  have hle := (Tree.listItems .components t .start t rest).le
                  have hlist := hR.list (s := rest) .components t (by omega)
                  exact reads_operators_operation h.ahead hop hbinds
                    (operation_of_access hform ▸ reads_access h.ahead hlist)
                    (fun c' hat => hR.operators floor _ hat (by omega)) _
              · next hform =>
                  split
                  · next right hright =>
                      have hshort := right.shorter
                      exact reads_operators_operation h.ahead hop hbinds
                        (operation_of_binary hform ▸ reads_binary h.ahead fun c' hat =>
                          (hR.expression op.precedence hat.ahead (by omega)).reads hright)
                        (fun c' hat => hR.operators floor _ hat (by omega)) _
                  · next e hright =>
                      exact reads_operators_operation h.ahead hop hbinds
                        (operation_of_binary hform ▸ reads_binary_half h.ahead fun c' hat =>
                          (hR.expression op.precedence hat.ahead (by omega)).stays hright)
                        (fun c' hat => hR.operators floor _ hat (by omega)) _
          · next hbinds =>
              exact h.reads_operators_done (stays_extend (by simpa [h.ahead, hop] using hbinds))

theorem reads_next_listItems (form : ListForm) (opening : Token) {p : ListProgress}
    {st : ListState} (hst : st.Follows p last) (h : c.At last s) (hn : 2 * s.length + 1 ≤ n) :
    Reads (R.next.listItems form opening st) c (st.join (Tree.listItems form opening p last s))
      (Tree.listItems form opening p last s).last (Tree.listItems form opening p last s).rest := by
  cases s with
  | nil =>
      rw [Tree.listItems, ← hst.listed_unclosed]
      exact h.reads_listItems_done (stays_listTurn_nil h.ahead)
  | cons t rest =>
      have hexpression := hR.expression 0 h.ahead hn
      rw [List.length_cons] at hn
      rw [Tree.listItems]
      split
      · next hclose =>
          rw [← hst.listed_closed]
          exact reads_listItems_done (reads_listTurn_close h.ahead hclose)
      · next hclose =>
          split
          · next hseparator =>
              rw [← hst.join_separated]
              exact reads_listItems_again (reads_listTurn_separator h.ahead hclose hseparator)
                fun c' hat => hR.listItems form opening (hst.separated form t) hat (by omega)
          · next hseparator =>
              split
              · next hplaceholder =>
                  rw [← hst.join_followed t t none]
                  exact reads_listItems_again (reads_listTurn_item h.ahead hclose hseparator
                    (reads_listItem_placeholder h.ahead hplaceholder))
                    fun c' hat => hR.listItems form opening (hst.followed t t none) hat (by omega)
              · next hplaceholder =>
                  have hitem : Stays (placeholder? form) c none :=
                    stays_placeholder? (by simpa [h.ahead] using hplaceholder)
                  split
                  · next e he =>
                      rw [he] at hexpression
                      rw [← hst.listed_unclosed]
                      exact h.reads_listItems_done (stays_listTurn h.ahead hclose hseparator
                        (stays_listItem hitem hexpression))
                  · next e he =>
                      rw [he] at hexpression
                      have hshort := e.shorter
                      rw [List.length_cons] at hshort
                      rw [← hst.join_followed t e.last (some e.tree)]
                      exact reads_listItems_again (reads_listTurn_item h.ahead hclose hseparator
                        (reads_listItem hitem hexpression))
                        fun c' hat =>
                          hR.listItems form opening (hst.followed t e.last _) hat (by omega)

/-- The rules that call on the given ones have one call more. -/
theorem Rules.ReadsUpTo.next : R.next.ReadsUpTo (n + 1) where
  expression floor h hn := matches_next_expression hR floor h (by omega)
  operators floor left h hn := reads_next_operators hR floor left h (by omega)
  listItems form opening _ _ hst h hn := reads_next_listItems hR form opening hst h (by omega)

end Step

theorem readsUpTo_ofFuel (fuel : Nat) : (Rules.ofFuel fuel).ReadsUpTo fuel := by
  induction fuel with
  | zero =>
      exact ⟨fun _ _ hn => absurd hn (by omega), fun _ _ _ hn => absurd hn (by omega),
        fun _ _ _ _ _ _ hn => absurd hn (by omega)⟩
  | succ fuel ih => exact ih.next

theorem stays_advance (h : c.ahead = []) : Stays advance c none := by
  have hhead : c.tokens[c.index]? = none := by rw [getElem?_index, h]; rfl
  simp [Stays, advance, StateT.run, hhead]

/-- At least one token is taken, and more of them up to one that may begin an expression. -/
theorem reads_runTokens {fuel : Nat} (before : List Token) (h : c.ahead = t :: s)
    (hfuel : s.length + 2 ≤ fuel) :
    Reads ((Rules.ofFuel fuel).runTokens before) c
      (before ++ t :: s.takeWhile (!·.kind.startsExpression))
      ((s.takeWhile (!·.kind.startsExpression)).getLastD t)
      (s.dropWhile (!·.kind.startsExpression)) := by
  induction s generalizing c t before fuel with
  | nil =>
      obtain ⟨fuel, rfl⟩ : ∃ k, fuel = k + 2 := ⟨fuel - 2, by simp at hfuel; omega⟩
      refine (reads_advance h).bind fun c' hat => (stays_peek? c').bind_reads ?_
      rw [hat.ahead]
      exact (stays_advance hat.ahead).bind_reads (hat.reads_pure _)
  | cons u s ih =>
      obtain ⟨fuel, rfl⟩ : ∃ k, fuel = k + 1 := ⟨fuel - 1, by simp at hfuel; omega⟩
      refine (reads_advance h).bind fun c' hat => (stays_peek? c').bind_reads ?_
      cases hu : u.kind.startsExpression with
      | true => simpa [hat.ahead, hu] using hat.reads_pure (before ++ [t])
      | false =>
          have hrest := ih (before ++ [t]) hat.ahead (Nat.le_of_succ_le_succ hfuel)
          simpa [hat.ahead, hu, List.getLast?_cons] using hrest

theorem reads_unrecognizedRun {fuel : Nat} (h : c.ahead = t :: s) (hfuel : s.length + 2 ≤ fuel) :
    Reads (Rules.ofFuel fuel).unrecognizedRun c (Tree.unrecognizedRun t s)
      ((s.takeWhile (!·.kind.startsExpression)).getLastD t)
      (s.dropWhile (!·.kind.startsExpression)) :=
  (reads_runTokens [] h hfuel).bind fun _ hat => hat.reads_pure _

theorem At.index_le (h : c.At last s) : c.index ≤ c.tokens.length := by
  obtain ⟨hpos, hlast⟩ := h.previous
  have hlt := (List.getElem?_eq_some_iff.1 hlast).1
  omega

/-- The cursor at the end of its tokens. -/
def atEnd (c : Cursor) : Cursor := { c with index := c.tokens.length }

@[simp] theorem atEnd_skip (c : Cursor) (n : Nat) : (c.skip n).atEnd = c.atEnd := rfl

theorem run_pieces {fuel : Nat} (before : List Tree) (h : c.ahead = s)
    (hle : c.index ≤ c.tokens.length) (hfuel : 2 * s.length + 2 ≤ fuel) :
    ((Rules.ofFuel fuel).pieces before).run c = some (before ++ Tree.pieces s, c.atEnd) := by
  induction s using Tree.pieces.induct generalizing c before fuel with
  | case1 =>
      obtain ⟨fuel, rfl⟩ : ∃ k, fuel = k + 1 := ⟨fuel - 1, by omega⟩
      have hindex : c.index = c.tokens.length := Nat.le_antisymm hle (List.drop_eq_nil_iff.1 h)
      rw [Rules.ofFuel, Rules.next, (stays_peek? c).run_bind, h, Tree.pieces, List.append_nil,
        atEnd, ← hindex]
      rfl
  | case2 t rest r hr _ ih =>
      obtain ⟨fuel, rfl⟩ : ∃ k, fuel = k + 1 := ⟨fuel - 1, by omega⟩
      have hexpression := (readsUpTo_ofFuel fuel).expression 0 h (by omega)
      obtain ⟨n, hrun, hat⟩ := hexpression.reads hr
      have hshort := r.shorter
      rw [Rules.ofFuel, Rules.next, (stays_peek? c).run_bind, h]
      simp only [List.head?_cons]
      rw [(stays_position c).run_bind, StateT.run_bind, hrun, Tree.pieces, hr]
      simpa using ih (before ++ [r.tree]) hat.ahead hat.index_le (by omega)
  | case3 t rest e he ih =>
      obtain ⟨fuel, rfl⟩ : ∃ k, fuel = k + 1 := ⟨fuel - 1, by omega⟩
      have hexpression := (readsUpTo_ofFuel fuel).expression 0 h (by omega)
      have hrest := (List.dropWhile_sublist (l := rest) (!·.kind.startsExpression)).length_le
      rw [List.length_cons] at hfuel
      have hsuffices : rest.length + 2 ≤ fuel := by omega
      obtain ⟨n, hrun, hat⟩ := reads_unrecognizedRun h hsuffices
      rw [Rules.ofFuel, Rules.next, (stays_peek? c).run_bind, h]
      simp only [List.head?_cons]
      rw [(stays_position c).run_bind, (hexpression.stays he).run_bind]
      dsimp only
      rw [(stays_restore c).run_bind, StateT.run_bind, hrun, Tree.pieces, he]
      simpa using ih (before ++ [Tree.unrecognizedRun t rest]) hat.ahead hat.index_le (by omega)

section Ends

variable {m : Rules → Moving α} {a : α}

/-- With enough fuel the step ends with `a`, and leaves the cursor as `c'`. -/
def Ends (m : Rules → Moving α) (c : Cursor) (a : α) (c' : Cursor) : Prop :=
  ∃ enough, ∀ fuel, enough ≤ fuel → (m (.ofFuel fuel)).run c = some (a, c')

/-- The step ends with `a` and the cursor moved on, though not past the end. -/
def Advances (m : Rules → Moving α) (c : Cursor) (a : α) : Prop :=
  ∃ n, 0 < n ∧ c.index + n ≤ c.tokens.length ∧ Ends m c a (c.skip n)

/-- How far a step moves the cursor does not depend on the fuel. -/
theorem advances_of_reads (enough : Nat)
    (h : ∀ fuel, enough ≤ fuel → Reads (m (.ofFuel fuel)) c a last rest)
    (hshort : rest.length < c.ahead.length) : Advances m c a := by
  have hlength : c.ahead.length = c.tokens.length - c.index := List.length_drop
  refine ⟨c.ahead.length - rest.length, by omega, by omega, enough, fun fuel hfuel => ?_⟩
  obtain ⟨n, hrun, hat⟩ := h fuel hfuel
  have hrest : rest.length = c.ahead.length - n := by
    rw [← hat.ahead, ahead_skip, List.length_drop]
  have hindex : c.index + n ≤ c.tokens.length := hat.index_le
  rw [hrun, show c.ahead.length - rest.length = n by omega]

end Ends

/-- Whatever the tokens are, reading a program ends after the last one, with the tree that the
function on lists gives. -/
theorem ends_program (tokens : List Token) :
    Ends Rules.program ⟨tokens, 0⟩ (Tree.ofTokens tokens) ⟨tokens, tokens.length⟩ := by
  refine ⟨2 * tokens.length + 2, fun fuel hfuel => ?_⟩
  have hpieces : ((Rules.ofFuel fuel).pieces []).run ⟨tokens, 0⟩ =
      some (Tree.pieces tokens, ⟨tokens, tokens.length⟩) :=
    run_pieces [] rfl (Nat.zero_le _) hfuel
  rw [Rules.program, StateT.run_bind, hpieces, Tree.ofTokens]
  cases Tree.pieces tokens <;> rfl

theorem expression_advances_or_stays (floor : Nat) (c : Cursor) :
    (∃ tree, Advances (·.expression floor) c (.ok tree)) ∨
      ∃ e, Ends (·.expression floor) c (.error e) c := by
  have hmatches (fuel : Nat) (hfuel : 2 * c.ahead.length + 1 ≤ fuel) :=
    (readsUpTo_ofFuel fuel).expression floor (rfl : c.ahead = c.ahead) hfuel
  cases hr : Tree.expression floor c.ahead with
  | ok r =>
      exact .inl ⟨r.tree, advances_of_reads _ (fun fuel hfuel => (hmatches fuel hfuel).reads hr)
        r.shorter⟩
  | error e => exact .inr ⟨e, _, fun fuel hfuel => (hmatches fuel hfuel).stays hr⟩

theorem expression_eq_error {s : List Token} (floor : Nat)
    (h : ∀ t ∈ s.head?, t.kind.startsExpression = false) :
    Tree.expression floor s = .error ⟨"expression", s.head?⟩ := by
  have hoperand : Tree.operand s = .error ⟨"expression", s.head?⟩ := by
    cases s with
    | nil => rw [Tree.operand]; rfl
    | cons t rest =>
        have ht : t.kind.startsExpression = false := h t rfl
        have hliteral : Tree.ofToken? t = none := by
          rw [ofToken?_eq_none_iff]
          cases hkind : t.kind <;> rw [hkind] at ht <;> first | rfl | cases ht
        rw [Tree.operand]
        split
        · next hkind => rw [hkind] at ht; cases ht
        · next hkind => rw [hkind] at ht; cases ht
        · next hkind => rw [hkind] at ht; cases ht
        · rw [hliteral]
          rfl
  rw [Tree.expression, hoperand]

theorem ends_expression (floor : Nat)
    (h : ∀ t ∈ c.tokens[c.index]?, t.kind.startsExpression = false) :
    Ends (·.expression floor) c (.error ⟨"expression", c.ahead.head?⟩) c := by
  rw [getElem?_index] at h
  exact ⟨2 * c.ahead.length + 1, fun fuel hfuel =>
    ((readsUpTo_ofFuel fuel).expression floor rfl hfuel).stays (expression_eq_error floor h)⟩

/-- A turn of the loop over a list ends; it is the last one, or it moves the cursor. -/
theorem listTurn_done_or_advances (form : ListForm) (opening : Token) (st : ListState)
    (c : Cursor) : (∃ st' c', Ends (·.listTurn form opening st) c (.done st') c') ∨
      ∃ st', Advances (·.listTurn form opening st) c (.again st') := by
  cases h : c.ahead with
  | nil => exact .inl ⟨_, _, 0, fun _ _ => stays_listTurn_nil h⟩
  | cons t rest =>
      by_cases hclose : t.kind = form.close
      · have hturn : Advances (·.listTurn form opening st) c (.done (st.closed form t)) :=
          advances_of_reads 0 (fun _ _ => reads_listTurn_close h hclose) (by simp [h])
        obtain ⟨n, -, -, hends⟩ := hturn
        exact .inl ⟨_, _, hends⟩
      by_cases hseparator : t.kind = form.separator
      · exact .inr ⟨_, advances_of_reads 0
          (fun _ _ => reads_listTurn_separator h hclose hseparator) (by simp [h])⟩
      cases hplaceholder : form.placeholders && t.kind = .underscore with
      | true =>
          exact .inr ⟨_, advances_of_reads 0 (fun _ _ => reads_listTurn_item h hclose
            hseparator (reads_listItem_placeholder h hplaceholder)) (by simp [h])⟩
      | false =>
          have hnot : Stays (placeholder? form) c none :=
            stays_placeholder? (by simpa [h] using hplaceholder)
          have hmatches (fuel : Nat) (hfuel : 2 * (t :: rest).length + 1 ≤ fuel) :=
            (readsUpTo_ofFuel fuel).expression 0 h hfuel
          cases hr : Tree.expression 0 (t :: rest) with
          | ok r =>
              exact .inr ⟨_, advances_of_reads _ (fun fuel hfuel => reads_listTurn_item h hclose
                hseparator (reads_listItem hnot ((hmatches fuel hfuel).reads hr)))
                (by rw [h]; exact r.shorter)⟩
          | error e =>
              exact .inl ⟨_, _, _, fun fuel hfuel => stays_listTurn h hclose hseparator
                (stays_listItem hnot ((hmatches fuel hfuel).stays hr))⟩

/-- Whatever the tokens are, the rules end. A program is read up to the end. An expression is read
over at least one token, or the cursor stays where it is, as it does where no expression begins.
And no turn of the loop over a list leaves the cursor in place, unless it is the last one. -/
theorem ends_and_advances :
    (∀ tokens : List Token,
      Ends Rules.program ⟨tokens, 0⟩ (Tree.ofTokens tokens) ⟨tokens, tokens.length⟩) ∧
    (∀ (c : Cursor) (floor : Nat),
      ((∃ tree, Advances (·.expression floor) c (.ok tree)) ∨
        ∃ e, Ends (·.expression floor) c (.error e) c) ∧
      ((∀ t ∈ c.tokens[c.index]?, t.kind.startsExpression = false) →
        ∃ e, Ends (·.expression floor) c (.error e) c)) ∧
    ∀ (c : Cursor) (form : ListForm) (opening : Token) (st : ListState),
      (∃ st' c', Ends (·.listTurn form opening st) c (.done st') c') ∨
        ∃ st', Advances (·.listTurn form opening st) c (.again st') :=
  ⟨ends_program,
    fun c floor => ⟨expression_advances_or_stays floor c, fun h => ⟨_, ends_expression floor h⟩⟩,
    fun c form opening st => listTurn_done_or_advances form opening st c⟩

end Cursor

end LazyLang
