import LazyLang.Proofs.Grammar.Soundness

/-!
# Lists are read piece by piece

The elements of an array, the arguments of a call and the components of a slice are lists of pieces
between separators. If every piece is left out, is a placeholder or is read as an expression up to
its end (`ListForm.Takes`), then the list is read without a message of its own and has an item for
each piece (`Tree.listItems_whole`). What is known of the items is up to the caller.
-/

namespace LazyLang

/-- No operator begins the tokens. -/
def Stops : List Token → Prop
  | [] => True
  | t :: _ => Operator.ofKind? t.kind = none

/-- The tokens that separate and close a list begin no expression, end every one and are different
from each other and from a placeholder. -/
structure ListForm.Delimited (form : ListForm) : Prop where
  ne : form.separator ≠ form.close
  separator_ne : form.separator ≠ .underscore
  close_ne : form.close ≠ .underscore
  separator_stops : Operator.ofKind? form.separator = none
  close_stops : Operator.ofKind? form.close = none
  separator_starts : form.separator.startsExpression = false
  close_starts : form.close.startsExpression = false

theorem ListForm.elements_delimited : ListForm.elements.Delimited := by
  constructor <;> decide

theorem ListForm.arguments_delimited : ListForm.arguments.Delimited := by
  constructor <;> decide

theorem ListForm.components_delimited : ListForm.components.Delimited := by
  constructor <;> decide

/-- A piece of a list is read as an item of which `Q` holds: it is left out where that is allowed,
or a placeholder, or it begins like an expression and is read as one up to its end. -/
inductive ListForm.Takes (form : ListForm) (Q : Option Tree → Prop) : List Token → Prop
  | omitted (hmay : form.mayOmit = true) (hq : Q none) : Takes form Q []
  | placeholder {t : Token} (hform : form.placeholders = true) (ht : t.kind = .underscore)
      (hq : Q none) : Takes form Q [t]
  | expression {t : Token} {us : List Token} (ht : t.kind.startsExpression = true)
      (h : ∀ stop, Stops stop → ∃ r, Tree.expression 0 (t :: us ++ stop) = .ok r ∧
        r.rest = stop ∧ Q (some r.tree)) : Takes form Q (t :: us)

/-- A list without omissions is not a single omission. -/
theorem ListForm.ne_nil_of_takes {form : ListForm} {β : Type} {Q : β → Option Tree → Prop}
    {xs : List β} {pieces : List (List Token)} (hmay : form.mayOmit = false)
    (h : xs.Forall₂ (fun x ts => form.Takes (Q x) ts) pieces) : pieces ≠ [[]] := by
  rintro rfl
  cases h with
  | cons hpiece _ =>
      cases hpiece with
      | omitted hno _ => exact Bool.noConfusion (hmay.symm.trans hno)

/-- The whole list is read, without a message of its own and with an item for each of `xs`. -/
structure Listed.Whole {β : Type} {s : List Token} (list : Listed s) (Q : β → Option Tree → Prop)
    (xs : List β) (stop : List Token) : Prop where
  messages : list.messages = []
  rest : list.rest = stop
  items : xs.Forall₂ Q list.items
  separators : list.separators = xs.length - 1

namespace Listed

variable {β : Type} {form : ListForm} {Q : β → Option Tree → Prop} {p : ListProgress} {t : Token}
  {s stop : List Token} {x y : β} {xs : List β} {r : Listed s}

theorem closed_whole_nil (hdue : (p.due && p.separated) = false) :
    (closed form p t stop).Whole Q [] stop :=
  ⟨by simp [closed, hdue], rfl, by simp [closed, hdue], rfl⟩

theorem closed_whole_omitted (hdue : p.due = true) (hsep : p.separated = true)
    (hmay : form.mayOmit = true) (hq : Q x none) : (closed form p t stop).Whole Q [x] stop :=
  ⟨by simp [closed, hmay], rfl, by simp [closed, hdue, hsep, hmay, hq], rfl⟩

theorem afterSeparator_whole_omitted (hdue : p.due = true) (hmay : form.mayOmit = true)
    (hq : Q x none) (h : r.Whole Q (y :: xs) stop) :
    (afterSeparator form p t r).Whole Q (x :: y :: xs) stop := by
  refine ⟨by simpa [afterSeparator, hmay] using h.messages, h.rest, ?_,
    by simp [afterSeparator, h.separators]⟩
  simp only [afterSeparator, hdue, hmay, Bool.and_self, if_true]
  exact .cons hq h.items

/-- The last item of a list. -/
theorem afterItem_whole_closed {item : Option Tree} {c : Token} {s' : List Token}
    {hle : (c :: stop).length ≤ s'.length} (hdue : p.due = true) (hq : Q x item) :
    (afterItem p t item hle (closed form p.afterItem c stop)).Whole Q [x] stop :=
  ⟨by simp [afterItem, closed, ListProgress.afterItem, hdue], rfl, .cons hq .nil, rfl⟩

/-- An item with a separator and at least one more piece after it. -/
theorem afterItem_whole_separator {item : Option Tree} {u : Token} {s' : List Token}
    {hle : (u :: s).length ≤ s'.length} (hdue : p.due = true) (hq : Q x item)
    (h : r.Whole Q (y :: xs) stop) :
    (afterItem p t item hle (afterSeparator form p.afterItem u r)).Whole Q (x :: y :: xs) stop := by
  refine ⟨?_, h.rest, .cons hq ?_, by simp [afterItem, afterSeparator, h.separators]⟩
  · simpa [afterItem, afterSeparator, ListProgress.afterItem, hdue] using h.messages
  · simpa [afterSeparator, ListProgress.afterItem] using h.items

end Listed

namespace Tree

variable {form : ListForm}

theorem listItems_close {p : ListProgress} {opening last c : Token} (hc : c.kind = form.close)
    (stop : List Token) :
    listItems form opening p last (c :: stop) = .closed form p c stop := by
  rw [listItems, if_pos hc]

theorem listItems_separator {p : ListProgress} {opening last t : Token} (hf : form.Delimited)
    (ht : t.kind = form.separator) (stop : List Token) :
    listItems form opening p last (t :: stop) =
      .afterSeparator form p t (listItems form opening (p.afterSeparator t.span) t stop) := by
  rw [listItems, if_neg (by rw [ht]; exact hf.ne), if_pos ht]

/-- A piece that is not left out is read as one item. -/
theorem listItems_item {Q : Option Tree → Prop} (p : ListProgress) (opening last : Token)
    (hf : form.Delimited) {t : Token} {us stop : List Token} (h : form.Takes Q (t :: us))
    (hs : Stops stop) :
    ∃ item last' hle, listItems form opening p last (t :: us ++ stop) =
        .afterItem p t item hle (listItems form opening p.afterItem last' stop) ∧ Q item := by
  cases h with
  | placeholder hform ht hq =>
      refine ⟨none, t, Nat.le_succ _, ?_, hq⟩
      change listItems form opening p last (t :: stop) = _
      rw [listItems, if_neg (by rw [ht]; exact hf.close_ne.symm),
        if_neg (by rw [ht]; exact hf.separator_ne.symm), if_pos (by simp [hform, ht])]
  | expression ht h =>
      obtain ⟨⟨tree, last', rest, hlt⟩, hr, hrest, hq⟩ := h stop hs
      dsimp only at hrest
      subst hrest
      have hclose : t.kind ≠ form.close := fun hk => by
        rw [hk, hf.close_starts] at ht
        cases ht
      have hsep : t.kind ≠ form.separator := fun hk => by
        rw [hk, hf.separator_starts] at ht
        cases ht
      have hunder : t.kind ≠ .underscore := fun hk => by
        rw [hk] at ht
        cases ht
      refine ⟨some tree, last', Nat.le_of_lt hlt, ?_, hq⟩
      change expression 0 (t :: (us ++ rest)) = _ at hr
      change listItems form opening p last (t :: (us ++ rest)) = _
      rw [listItems, if_neg hclose, if_neg hsep, if_neg (by simp [hunder]), hr]

/-- A list up to its closing token is read as one item for each of its pieces. -/
theorem listItems_whole {β : Type} {Q : β → Option Tree → Prop} {xs : List β} (p : ListProgress)
    (opening last : Token) (hf : form.Delimited) {pieces : List (List Token)} {body : List Token}
    (hb : Joined form.separator pieces body)
    (hp : xs.Forall₂ (fun x ts => form.Takes (Q x) ts) pieces) {c : Token}
    (hclose : c.kind = form.close) (stop : List Token) (hdue : p.due = true)
    (hnil : pieces = [] → p.separated = false) (homit : pieces = [[]] → p.separated = true) :
    (listItems form opening p last (body ++ c :: stop)).Whole Q xs stop := by
  induction hb generalizing p last xs with
  | nil =>
      cases hp
      rw [List.nil_append, listItems_close hclose]
      exact Listed.closed_whole_nil (by simp [hnil rfl])
  | single ts =>
      obtain _ | @⟨x, _, _, _, hpiece, hp⟩ := hp
      cases hp
      cases ts with
      | nil =>
          rw [List.nil_append, listItems_close hclose]
          cases hpiece with
          | omitted hmay hq => exact Listed.closed_whole_omitted hdue (homit rfl) hmay hq
      | cons t us =>
          have hstops : Stops (c :: stop) := by
            rw [Stops, hclose]
            exact hf.close_stops
          obtain ⟨item, last', hle, hread, hq⟩ := listItems_item p opening last hf hpiece hstops
          rw [hread, listItems_close hclose]
          exact Listed.afterItem_whole_closed hdue hq
  | @cons ts us body pieces t ht hb ih =>
      obtain _ | @⟨x, _, _, _, hpiece, hp⟩ := hp
      obtain ⟨y, ys, hy, hys, rfl⟩ := List.forall₂_cons_right_iff.1 hp
      cases ts with
      | nil =>
          have hwhole := ih (p.afterSeparator t.span) t hp rfl (fun h => absurd h (by simp))
            fun _ => rfl
          change (listItems form opening p last (t :: (body ++ c :: stop))).Whole Q _ stop
          rw [listItems_separator hf ht]
          cases hpiece with
          | omitted hmay hq => exact Listed.afterSeparator_whole_omitted hdue hmay hq hwhole
      | cons u vs =>
          have hwhole := ih (p.afterItem.afterSeparator t.span) t hp rfl
            (fun h => absurd h (by simp)) fun _ => rfl
          have hstops : Stops (t :: (body ++ c :: stop)) := by
            rw [Stops, ht]
            exact hf.separator_stops
          obtain ⟨item, last', hle, hread, hq⟩ := listItems_item p opening last hf hpiece hstops
          rw [show u :: vs ++ t :: body ++ c :: stop = u :: vs ++ t :: (body ++ c :: stop) by simp,
            hread, listItems_separator hf ht]
          exact Listed.afterItem_whole_separator hdue hq hwhole

end Tree

end LazyLang
