import LazyLang.Proofs.Grammar.Lists

/-!
# Every phrase is read

A phrase begins with a minus sign or with a primary part: an atom, an array or a phrase in
parentheses. After the primary part comes a tail of arguments, elements, slices and binary operators
(`Phrase.front`). The rules read a phrase this way from the left, and none of them gives a message.
At precedence `floor` they stop at the first operator that does not bind over it, and a tail is left
(`Tree.complete`); at precedence 0 nothing is.
-/

namespace LazyLang

/-- What may follow the primary part of a phrase. After a binary operator comes a phrase again. -/
inductive Tail : List Token → Prop
  | nil : Tail []
  | binary {t : Token} {ts : List Token} (ht : t.kind.IsBinary) (h : Phrase ts) : Tail (t :: ts)
  | call {o c : Token} {pieces : List (List Token)} {body tail : List Token}
      (ho : o.kind = .openParen) (hc : c.kind = .closeParen) (hb : Joined .comma pieces body)
      (h : ∀ ts ∈ pieces, ¬IsPlaceholder ts → Phrase ts) (ht : Tail tail) :
      Tail (o :: body ++ c :: tail)
  | index {o c : Token} {is tail : List Token} (ho : o.kind = .openBracket)
      (hc : c.kind = .closeBracket) (hi : Phrase is) (ht : Tail tail) :
      Tail (o :: is ++ c :: tail)
  | slice {o c : Token} {pieces : List (List Token)} {body tail : List Token}
      (ho : o.kind = .openBracket) (hc : c.kind = .closeBracket) (hb : Joined .colon pieces body)
      (hn : pieces.length = 2 ∨ pieces.length = 3) (h : ∀ us ∈ pieces, us ≠ [] → Phrase us)
      (ht : Tail tail) : Tail (o :: body ++ c :: tail)

/-- A phrase by what it begins with: a minus sign, or a primary part before a tail. -/
inductive Front : List Token → Prop
  | negation {m : Token} {ts : List Token} (hm : m.kind = .minus) (h : Phrase ts) : Front (m :: ts)
  | atom {t : Token} {tail : List Token} (ht : t.IsAtom) (h : Tail tail) : Front (t :: tail)
  | grouped {o c : Token} {ts tail : List Token} (ho : o.kind = .openParen)
      (hc : c.kind = .closeParen) (h : Phrase ts) (ht : Tail tail) : Front (o :: ts ++ c :: tail)
  | array {o c : Token} {pieces : List (List Token)} {body tail : List Token}
      (ho : o.kind = .openBracket) (hc : c.kind = .closeBracket) (hb : Joined .comma pieces body)
      (h : ∀ ts ∈ pieces, Phrase ts) (ht : Tail tail) : Front (o :: body ++ c :: tail)

theorem Phrase.append {ts tail : List Token} (h : Phrase ts) (ht : Tail tail) :
    Phrase (ts ++ tail) := by
  induction ht generalizing ts with
  | nil => rwa [List.append_nil]
  | binary ht hr => exact .binary ht h hr
  | call ho hc hb hp _ ih => simpa using ih (.call ho hc h hb hp)
  | index ho hc hi _ ih => simpa using ih (.index ho hc h hi)
  | slice ho hc hb hn hp _ ih => simpa using ih (.slice ho hc h hb hn hp)

theorem Tail.append {ts tail : List Token} (h : Tail ts) (ht : Tail tail) : Tail (ts ++ tail) := by
  induction h with
  | nil => exact ht
  | binary hk hr => exact .binary hk (hr.append ht)
  | call ho hc hb hp _ ih => simpa using Tail.call ho hc hb hp ih
  | index ho hc hi _ ih => simpa using Tail.index ho hc hi ih
  | slice ho hc hb hn hp _ ih => simpa using Tail.slice ho hc hb hn hp ih

theorem Front.append {ts tail : List Token} (h : Front ts) (ht : Tail tail) :
    Front (ts ++ tail) := by
  cases h with
  | negation hm h => exact .negation hm (h.append ht)
  | atom hk h => exact .atom hk (h.append ht)
  | grouped ho hc h hu => simpa using Front.grouped ho hc h (hu.append ht)
  | array ho hc hb h hu => simpa using Front.array ho hc hb h (hu.append ht)

/-- Every phrase begins in one of these ways, whatever operator it was built with last. -/
theorem Phrase.front {ts : List Token} (h : Phrase ts) : Front ts := by
  induction h with
  | atom ht => exact .atom ht .nil
  | grouped ho hc h _ => exact .grouped ho hc h .nil
  | negation hm h _ => exact .negation hm h
  | binary ht _ hr ihl _ => exact ihl.append (.binary ht hr)
  | array ho hc hb h _ => exact .array ho hc hb h .nil
  | call ho hc _ hb h ihf _ => exact ihf.append (.call ho hc hb h .nil)
  | index ho hc _ hi iht _ => exact iht.append (.index ho hc hi .nil)
  | slice ho hc _ hb hn h iht _ => exact iht.append (.slice ho hc hb hn h .nil)

theorem Token.IsAtom.startsExpression {t : Token} (h : t.IsAtom) :
    t.kind.startsExpression = true := by
  unfold Token.IsAtom at h
  split at h <;> simp_all [TokenKind.startsExpression]

/-- The first token of a phrase is one that an expression may begin with. -/
theorem Phrase.exists_cons {ts : List Token} (h : Phrase ts) :
    ∃ t us, ts = t :: us ∧ t.kind.startsExpression = true := by
  cases h.front with
  | negation hm => exact ⟨_, _, rfl, by rw [hm]; rfl⟩
  | atom ht => exact ⟨_, _, rfl, ht.startsExpression⟩
  | grouped ho => exact ⟨_, _, rfl, by rw [ho]; rfl⟩
  | array ho => exact ⟨_, _, rfl, by rw [ho]; rfl⟩

theorem Phrase.ne_nil {ts : List Token} (h : Phrase ts) : ts ≠ [] := by
  obtain ⟨t, us, rfl, -⟩ := h.exists_cons
  exact List.cons_ne_nil t us

theorem Phrase.not_isPlaceholder {ts : List Token} (h : Phrase ts) : ¬IsPlaceholder ts := by
  rintro ⟨u, hu, rfl⟩
  obtain ⟨t, us, heq, ht⟩ := h.exists_cons
  cases heq
  rw [hu] at ht
  exact absurd ht (by decide)

/-- No piece of a list is longer than the whole. -/
theorem Joined.length_le {separator : TokenKind} {pieces : List (List Token)} {body : List Token}
    (h : Joined separator pieces body) {ts : List Token} (hts : ts ∈ pieces) :
    ts.length ≤ body.length := by
  induction h with
  | nil => cases hts
  | single us => exact Nat.le_of_eq (congrArg _ (List.mem_singleton.1 hts))
  | cons _ _ ih =>
      rw [List.length_append, List.length_cons]
      rcases List.mem_cons.1 hts with rfl | hts
      · exact Nat.le_add_right _ _
      · exact Nat.le_add_left_of_le (Nat.le_succ_of_le (ih hts))

/-- No operator at the front of the tokens binds over `floor`. -/
def Held (floor : Nat) : List Token → Prop
  | [] => True
  | t :: _ => ∀ op, Operator.ofKind? t.kind = some op → op.bindsOver floor = false

theorem Stops.held {ts : List Token} (h : Stops ts) (floor : Nat) : Held floor ts := by
  cases ts with
  | nil => trivial
  | cons t rest =>
      intro op hop
      rw [show Operator.ofKind? t.kind = none from h] at hop
      cases hop

/-- Every operator binds over precedence 0. -/
theorem bindsOver_zero {kind : TokenKind} {op : Operator} (h : Operator.ofKind? kind = some op) :
    op.bindsOver 0 = true := by
  cases kind <;> cases h <;> rfl

theorem Tail.exists_operator {t : Token} {ts : List Token} (h : Tail (t :: ts)) :
    ∃ op, Operator.ofKind? t.kind = some op := by
  cases h with
  | binary ht _ => exact ht.imp fun op hop => hop.1
  | call ho => exact ⟨_, by rw [ho]; rfl⟩
  | index ho => exact ⟨_, by rw [ho]; rfl⟩
  | slice ho => exact ⟨_, by rw [ho]; rfl⟩

/-- Nothing of a tail is left at precedence 0. -/
theorem Tail.eq_nil_of_held {tail : List Token} (h : Tail tail) (hheld : Held 0 tail) :
    tail = [] := by
  cases tail with
  | nil => rfl
  | cons t ts =>
      obtain ⟨op, hop⟩ := h.exists_operator
      exact absurd (bindsOver_zero hop) (by rw [hheld op hop]; decide)

/-- A phrase fills its place in a list, and no item has a message. -/
def Silent (ts : List Token) (item : Option Tree) : Prop :=
  Expr.argMessages [item] = [] ∧ (Phrase ts → item.isSome = true)

theorem silent_omitted : Silent [] none := ⟨rfl, fun h => absurd rfl h.ne_nil⟩

theorem silent_placeholder {ts : List Token} (h : IsPlaceholder ts) : Silent ts none :=
  ⟨rfl, fun hp => absurd h hp.not_isPlaceholder⟩

theorem silent_some {e : Tree} (ts : List Token) (h : e.allMessages = []) : Silent ts (some e) :=
  ⟨by simp [Expr.argMessages, h], fun _ => rfl⟩

theorem argMessages_of_silent {pieces : List (List Token)} {items : List (Option Tree)}
    (h : pieces.Forall₂ Silent items) : Expr.argMessages items = [] := by
  induction h with
  | nil => rfl
  | @cons ts item pieces items hitem _ ih =>
      cases item with
      | none => exact ih
      | some e => simpa [Expr.argMessages, ih] using hitem.1

namespace Tree

open LazyLang.Expr

/-- An expression is read without a message, and the tokens `rest` are left. -/
def Leaves {s : List Token} (result : Except Unexpected (Taken s)) (rest : List Token) : Prop :=
  ∃ r, result = .ok r ∧ r.tree.allMessages = [] ∧ r.rest = rest

/-- Phrases of fewer than `n` tokens are read up to the first operator that does not bind over the
precedence they are read at, and without a message. -/
def Complete (n : Nat) : Prop :=
  ∀ (ts stop : List Token) (floor : Nat), ts.length < n → Phrase ts → Stops stop → floor ≤ 13 →
    ∃ tail, Leaves (expression floor (ts ++ stop)) (tail ++ stop) ∧ Tail tail ∧ Held floor tail

variable {n : Nat}

/-- At precedence 0 phrases are read up to their end. -/
theorem Complete.whole (hc : Complete n) {ts stop : List Token} (hn : ts.length < n)
    (h : Phrase ts) (hs : Stops stop) :
    ∃ tree last hlt, expression 0 (ts ++ stop) = .ok ⟨tree, last, stop, hlt⟩ ∧
      tree.allMessages = [] := by
  obtain ⟨tail, ⟨r, hr, hm, hrest⟩, htail, hheld⟩ := hc ts stop 0 hn h hs (Nat.zero_le _)
  cases htail.eq_nil_of_held hheld
  obtain ⟨tree, last, rest, hlt⟩ := r
  cases hrest
  exact ⟨tree, last, hlt, hr, hm⟩

/-- A phrase is read as an item of any list. -/
theorem Complete.takes (hc : Complete n) (form : ListForm) {ts : List Token} (hn : ts.length < n)
    (h : Phrase ts) : form.Takes (Silent ts) ts := by
  obtain ⟨t, us, rfl, ht⟩ := h.exists_cons
  refine .expression ht fun stop hs => ?_
  obtain ⟨tree, last, hlt, hr, hm⟩ := hc.whole hn h hs
  exact ⟨_, hr, rfl, silent_some _ hm⟩

theorem Complete.takes_argument (hc : Complete n) {ts : List Token} (hn : ts.length < n)
    (h : ¬IsPlaceholder ts → Phrase ts) : ListForm.arguments.Takes (Silent ts) ts := by
  by_cases hp : IsPlaceholder ts
  · obtain ⟨t, ht, rfl⟩ := id hp
    exact .placeholder rfl ht (silent_placeholder hp)
  · exact hc.takes _ hn (h hp)

theorem Complete.takes_component (hc : Complete n) {ts : List Token} (hn : ts.length < n)
    (h : ts ≠ [] → Phrase ts) : ListForm.components.Takes (Silent ts) ts := by
  by_cases hnil : ts = []
  · exact hnil ▸ .omitted rfl silent_omitted
  · exact hc.takes _ hn (h hnil)

theorem ofToken?_of_isAtom {t : Token} (h : t.IsAtom) :
    ∃ e, ofToken? t = some e ∧ e.allMessages = [] := by
  unfold Token.IsAtom at h
  split at h
  case h_7 ht => exact ⟨_, by rw [ofToken?, ht], by
      rw [ofInteger_of_lt h]
      rfl⟩
  case h_8 => exact h.elim
  all_goals
    next ht => exact ⟨_, by rw [ofToken?, ht], rfl⟩

theorem closeParenthesis_leaves {o c : Token} {s rest : List Token} {inner : Taken s}
    (hm : inner.tree.allMessages = []) (hrest : inner.rest = c :: rest)
    (hc : c.kind = .closeParen) : Leaves (.ok (closeParenthesis o inner)) rest := by
  refine ⟨_, rfl, ?_⟩
  unfold closeParenthesis
  split
  · next t rest' hrest' =>
      rw [hrest] at hrest'
      cases hrest'
      rw [if_pos hc]
      exact ⟨hm, rfl⟩
  · next hrest' =>
      rw [hrest] at hrest'
      cases hrest'

section Delimited

variable (o c : Token) (body tail : List Token)

theorem cons_append_cons_append (stop : List Token) :
    o :: body ++ c :: tail ++ stop = o :: (body ++ c :: (tail ++ stop)) := by
  simp

theorem length_delimited :
    (o :: body ++ c :: tail).length = body.length + tail.length + 2 := by
  simp only [List.length_append, List.length_cons]
  exact Nat.add_right_comm body.length 1 (tail.length + 1)

theorem length_body_lt : body.length < (o :: body ++ c :: tail).length := by
  rw [length_delimited]
  exact Nat.lt_succ_of_le (Nat.le_succ_of_le (Nat.le_add_right _ _))

theorem length_tail_lt : tail.length < (o :: body ++ c :: tail).length := by
  rw [length_delimited]
  exact Nat.lt_succ_of_le (Nat.le_succ_of_le (Nat.le_add_left _ _))

end Delimited

/-- What a phrase begins with is read without a message, and a tail of the phrase is left. -/
theorem operand_leaves {ts stop : List Token} (hc : Complete ts.length) (h : Phrase ts)
    (hs : Stops stop) : ∃ tail, Leaves (operand (ts ++ stop)) (tail ++ stop) ∧ Tail tail := by
  cases h.front with
  | @negation m us hm h =>
      obtain ⟨tail, ⟨r, hr, hmsg, hrest⟩, htail, -⟩ :=
        hc us stop Operator.unaryPrecedence (by simp) ‹_› hs (by decide)
      refine ⟨tail, ?_, htail⟩
      rw [List.cons_append, operand, hm, hr]
      refine ⟨_, rfl, ?_, hrest⟩
      simp [negationOf, operatorCall, allMessages, argMessages, hmsg, Node.plain]
  | @atom t tail ht htail =>
      obtain ⟨e, he, hmsg⟩ := ofToken?_of_isAtom ht
      refine ⟨tail, ?_, htail⟩
      rw [List.cons_append, operand]
      split
      · next hk => simp [Token.IsAtom, hk] at ht
      · next hk => simp [Token.IsAtom, hk] at ht
      · next hk => simp [Token.IsAtom, hk] at ht
      · rw [he]
        exact ⟨_, rfl, hmsg, rfl⟩
  | @grouped o c us tail ho hclose h htail =>
      have hstops : Stops (c :: (tail ++ stop)) := by
        rw [Stops, hclose]
        rfl
      have hshort : us.length < (o :: us ++ c :: tail).length := length_body_lt o c us tail
      obtain ⟨tree, last, hlt, hr, hm⟩ := hc.whole hshort ‹_› hstops
      refine ⟨tail, ?_, htail⟩
      obtain ⟨u, vs, rfl, hu⟩ := Phrase.exists_cons ‹Phrase us›
      rw [show o :: (u :: vs) ++ c :: tail ++ stop = o :: u :: (vs ++ c :: (tail ++ stop)) by simp,
        operand, ho]
      change Leaves (parenthesized o (u :: (vs ++ c :: (tail ++ stop)))) _
      change expression 0 (u :: (vs ++ c :: (tail ++ stop))) = _ at hr
      rw [parenthesized, if_neg (fun hk => by rw [hk] at hu; cases hu), hr]
      exact closeParenthesis_leaves hm rfl hclose
  | @array o c pieces body tail ho hclose hb hp htail =>
      have hlen : body.length < (o :: body ++ c :: tail).length := length_body_lt o c body tail
      have hwhole := listItems_whole .start o o ListForm.elements_delimited hb
        (List.forall₂_same.2 fun ts hts =>
          hc.takes _ (Nat.lt_of_le_of_lt (hb.length_le hts) hlen) (hp ts hts)) hclose (tail ++ stop)
        rfl (fun _ => rfl) fun heq =>
          absurd rfl (hp [] (by rw [heq]; exact List.mem_cons_self)).ne_nil
      refine ⟨tail, ?_, htail⟩
      rw [show o :: body ++ c :: tail ++ stop = o :: (body ++ c :: (tail ++ stop)) by simp, operand,
        ho]
      refine ⟨_, rfl, ?_, hwhole.rest⟩
      rw [allMessages, elementMessages_filterMap_id, argMessages_of_silent hwhole.items,
        hwhole.messages]
      rfl

theorem callOf_messages {f : Tree} {s stop : List Token} {list : Listed s}
    {pieces : List (List Token)} (hf : f.allMessages = []) (h : list.Whole Silent pieces stop) :
    (callOf f list).allMessages = [] := by
  rw [callOf, allMessages, hf, argMessages_of_silent h.items, h.messages]
  rfl

theorem accessOf_index_messages {e : Tree} {s stop is : List Token} {bracket : Span}
    {list : Listed s} (he : e.allMessages = []) (hi : Phrase is)
    (h : list.Whole Silent [is] stop) : (accessOf e bracket list).allMessages = [] := by
  obtain ⟨items, separators, messages, last, rest, hle⟩ := list
  obtain ⟨hm, -, hitems, h0⟩ := h
  cases hitems with
  | cons hsilent hnil =>
      cases hnil
      obtain ⟨i, rfl⟩ := Option.isSome_iff_exists.1 (hsilent.2 hi)
      have hi := hsilent.1
      simp only [accessOf] at h0 hm ⊢
      simp only [argMessages, List.append_nil] at hi
      simp [h0, operatorCall, allMessages, argMessages, he, hi, hm, Node.plain]

theorem argMessages_sliceComponents {bracket : Span} {items : List (Option Tree)}
    (h : argMessages items = []) : argMessages (sliceComponents bracket items) = [] := by
  rw [argMessages_eq_nil] at h ⊢
  intro e he
  simp only [sliceComponents, List.mem_map, List.mem_append, List.mem_replicate,
    Option.some.injEq] at he
  obtain ⟨item, hitem, rfl⟩ := he
  cases item with
  | none => rfl
  | some e =>
      rcases hitem with hitem | ⟨-, hno⟩
      · exact h e (List.mem_of_mem_take hitem)
      · cases hno

theorem accessOf_slice_messages {e : Tree} {s stop : List Token} {bracket : Span}
    {list : Listed s} {pieces : List (List Token)} (he : e.allMessages = [])
    (h : list.Whole Silent pieces stop) (hn : pieces.length = 2 ∨ pieces.length = 3) :
    (accessOf e bracket list).allMessages = [] := by
  have h0 : list.separators ≠ 0 := by
    rw [h.separators]
    omega
  have hthree : ¬list.items.length > 3 := by
    rw [← h.items.length_eq]
    omega
  rw [accessOf, if_neg h0, if_neg hthree, h.messages, allMessages_addMessages, operatorCall,
    allMessages, argMessages, he, argMessages_sliceComponents (argMessages_of_silent h.items)]
  rfl

theorem binaryOf_messages {l r : Tree} (symbol : String) (span : Span) (hl : l.allMessages = [])
    (hr : r.allMessages = []) : (binaryOf l symbol span r).allMessages = [] := by
  rw [binaryOf, operatorCall, allMessages, argMessages, argMessages, hl, hr]
  rfl

/-- Reading ends at an operator that does not bind over the precedence. -/
theorem extend_held {floor : Nat} {left : Tree} {last : Token} {s : List Token}
    (hs : Held floor s) : extend floor left last s = ⟨left, last, s, Nat.le_refl _⟩ := by
  cases s with
  | nil => rw [extend]
  | cons t rest =>
      rw [extend]
      cases hop : Operator.ofKind? t.kind with
      | none => rfl
      | some op => simp only [hs op hop, Bool.false_eq_true, if_false]

theorem precedence_le {kind : TokenKind} {op : Operator} (h : Operator.ofKind? kind = some op)
    (hf : op.form = .binary) : op.precedence ≤ 13 := by
  cases kind <;> cases h <;> first | decide | cases hf

/-- Two readings that come to the same tree and leave the same tokens. -/
def Agree {s s' : List Token} (x : Extended s) (y : Extended s') : Prop :=
  x.tree = y.tree ∧ x.rest = y.rest

section Reading

variable {floor : Nat} {left : Tree} {last o : Token} {rest : List Token}

/-- Arguments are read at every precedence, and reading goes on after them. -/
theorem extend_call (ho : o.kind = .openParen) (hfloor : floor ≤ 13) (list : Listed rest)
    (hlist : listItems .arguments o .start o rest = list) :
    Agree (extend floor left last (o :: rest))
      (extend floor (callOf left list) list.last list.rest) := by
  subst hlist
  have hbind : (Operator.mk "()" 99 false .call).bindsOver floor = true := by
    simp [Operator.bindsOver]
    omega
  rw [extend, ho]
  simp only [Operator.ofKind?, hbind, if_true]
  exact ⟨rfl, rfl⟩

/-- An index is read at every precedence of an operand, and reading goes on after it. -/
theorem extend_access (ho : o.kind = .openBracket) (hfloor : floor ≤ 13) (list : Listed rest)
    (hlist : listItems .components o .start o rest = list) :
    Agree (extend floor left last (o :: rest))
      (extend floor (accessOf left o.span list) list.last list.rest) := by
  subst hlist
  have hbind : (Operator.mk "[]" 13 true .access).bindsOver floor = true := by
    simp [Operator.bindsOver]
    omega
  rw [extend, ho]
  simp only [Operator.ofKind?, hbind, if_true]
  exact ⟨rfl, rfl⟩

/-- An operator that binds over the precedence is read with its right operand. -/
theorem extend_binary {op : Operator} {right : Taken rest} (hop : Operator.ofKind? o.kind = some op)
    (hform : op.form = .binary) (hbind : op.bindsOver floor = true)
    (hr : expression op.precedence rest = .ok right) :
    Agree (extend floor left last (o :: rest))
      (extend floor (binaryOf left op.symbol o.span right.tree) right.last right.rest) := by
  rw [extend, hop]
  simp only [hbind, if_true, hform, hr]
  exact ⟨rfl, rfl⟩

end Reading

/-- A part of a tail is read without a message, and the rest of the tail does not bind over
`floor`. -/
def LeavesHeld {s : List Token} (result : Extended s) (floor : Nat) (stop : List Token) : Prop :=
  result.tree.allMessages = [] ∧
    ∃ tail, result.rest = tail ++ stop ∧ Tail tail ∧ Held floor tail

theorem Agree.leavesHeld {s s' stop : List Token} {x : Extended s} {y : Extended s'} {floor : Nat}
    (h : Agree x y) (hy : LeavesHeld y floor stop) : LeavesHeld x floor stop := by
  rwa [LeavesHeld, h.1, h.2]

/-- The tail of a phrase is read up to the first operator that does not bind over `floor`. -/
theorem extend_leaves (hc : Complete n) {floor : Nat} {left : Tree} (last : Token)
    {tail stop : List Token} (h : Tail tail) (hn : tail.length ≤ n) (hs : Stops stop)
    (hfloor : floor ≤ 13) (hleft : left.allMessages = []) :
    LeavesHeld (extend floor left last (tail ++ stop)) floor stop := by
  induction hlen : tail.length using Nat.strongRecOn generalizing tail left last with
  | _ k ih =>
  subst hlen
  cases h with
  | nil =>
      rw [List.nil_append, extend_held (hs.held floor)]
      exact ⟨hleft, [], rfl, .nil, trivial⟩
  | @binary t ts ht h =>
      obtain ⟨op, hop, hform⟩ := ht
      rw [List.cons_append]
      by_cases hbind : op.bindsOver floor = true
      · obtain ⟨rem, ⟨r, hr, hm, hrest⟩, hrem, -⟩ :=
          hc ts stop op.precedence (Nat.lt_of_lt_of_le (Nat.lt_succ_self _) hn) h hs
            (precedence_le hop hform)
        have hshort : rem.length < ts.length := by
          have := r.shorter
          rw [hrest, List.length_append, List.length_append] at this
          exact Nat.lt_of_add_lt_add_right this
        have hle : rem.length ≤ n := Nat.le_trans (Nat.le_succ_of_le (Nat.le_of_lt hshort)) hn
        have hread := ih rem.length (Nat.lt_succ_of_lt hshort) r.last hrem hle
          (binaryOf_messages op.symbol t.span hleft hm) rfl
        rw [← hrest] at hread
        exact (extend_binary hop hform hbind hr).leavesHeld hread
      · have hheld : Held floor (t :: (ts ++ stop)) := fun op' hop' => by
          rw [hop] at hop'
          cases hop'
          simpa using hbind
        rw [extend_held hheld]
        exact ⟨hleft, t :: ts, rfl, .binary ⟨op, hop, hform⟩ h, hheld⟩
  | @call o c pieces body tail ho hclose hb hp htail =>
      have hlen : body.length < n := Nat.lt_of_lt_of_le (length_body_lt o c body tail) hn
      have hrest : tail.length ≤ n := Nat.le_trans (Nat.le_of_lt (length_tail_lt o c body tail)) hn
      have hwhole := listItems_whole .start o o ListForm.arguments_delimited hb
        (List.forall₂_same.2 fun ts hts =>
          hc.takes_argument (Nat.lt_of_le_of_lt (hb.length_le hts) hlen) (hp ts hts)) hclose
        (tail ++ stop) rfl (fun _ => rfl) fun heq => absurd rfl (hp []
          (by rw [heq]; exact List.mem_cons_self) (by rintro ⟨u, -, hno⟩; cases hno)).ne_nil
      rw [cons_append_cons_append]
      refine (extend_call ho hfloor _ rfl).leavesHeld ?_
      rw [hwhole.rest]
      exact ih _ (length_tail_lt o c body tail) _ htail hrest (callOf_messages hleft hwhole) rfl
  | @index o c is tail ho hclose hi htail =>
      have hlen : is.length < n := Nat.lt_of_lt_of_le (length_body_lt o c is tail) hn
      have hrest : tail.length ≤ n := Nat.le_trans (Nat.le_of_lt (length_tail_lt o c is tail)) hn
      have hwhole := listItems_whole .start o o ListForm.components_delimited (.single is)
        (.cons (hc.takes _ hlen hi) .nil) hclose (tail ++ stop) rfl (fun _ => rfl) fun heq =>
          absurd (List.singleton_inj.1 heq) hi.ne_nil
      rw [cons_append_cons_append]
      refine (extend_access ho hfloor _ rfl).leavesHeld ?_
      rw [hwhole.rest]
      exact ih _ (length_tail_lt o c is tail) _ htail hrest
        (accessOf_index_messages hleft hi hwhole) rfl
  | @slice o c pieces body tail ho hclose hb hcount hp htail =>
      have hlen : body.length < n := Nat.lt_of_lt_of_le (length_body_lt o c body tail) hn
      have hrest : tail.length ≤ n := Nat.le_trans (Nat.le_of_lt (length_tail_lt o c body tail)) hn
      have hwhole := listItems_whole .start o o ListForm.components_delimited hb
        (List.forall₂_same.2 fun us hus =>
          hc.takes_component (Nat.lt_of_le_of_lt (hb.length_le hus) hlen) (hp us hus)) hclose
        (tail ++ stop) rfl (fun _ => rfl) fun heq => by simp [heq] at hcount
      rw [cons_append_cons_append]
      refine (extend_access ho hfloor _ rfl).leavesHeld ?_
      rw [hwhole.rest]
      exact ih _ (length_tail_lt o c body tail) _ htail hrest
        (accessOf_slice_messages hleft hwhole hcount) rfl

/-- Phrases of every length are read without a message. -/
theorem complete (n : Nat) : Complete n := by
  induction n with
  | zero => exact fun ts _ _ hn => absurd hn (Nat.not_lt_zero _)
  | succ n ih =>
      intro ts stop floor hn h hs hfloor
      have hc : Complete ts.length := fun us stop floor hus =>
        ih us stop floor (Nat.lt_of_lt_of_le hus (Nat.le_of_lt_succ hn))
      obtain ⟨tail, ⟨first, hfirst, hm, hrest⟩, htail⟩ := operand_leaves hc h hs
      have hshort : tail.length ≤ ts.length := by
        have := first.shorter
        rw [hrest, List.length_append, List.length_append] at this
        exact Nat.le_of_lt (Nat.lt_of_add_lt_add_right this)
      obtain ⟨hmsg, rem, hrem, htail', hheld⟩ :=
        extend_leaves hc first.last htail hshort hs hfloor hm
      refine ⟨rem, ?_, htail', hheld⟩
      rw [expression, hfirst]
      rw [← hrest] at hmsg hrem
      exact ⟨_, rfl, hmsg, hrem⟩

end Tree

end LazyLang
