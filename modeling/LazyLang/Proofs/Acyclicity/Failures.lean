import LazyLang.Proofs.Evaluation.Places

/-!
# Where the failure of a cycle comes from

A value is untangled if it holds no failure of a value that depends on itself, in an item of an
array, and so is a store of such values. Whatever is run on an untangled store by a runner that
never gives this failure leads to an untangled store and does not give it either: of all that a
program does, only forcing a value that is being forced fails with it.
-/

namespace LazyLang

/-- A result of which `P` holds, or a failure other than that a value depends on itself. -/
def Untangled {α : Type} (P : α → Prop) : Except RuntimeError α → Prop
  | .ok a => P a
  | .error e => e ≠ .cyclicEvaluation

/-- Nothing is known of a result. -/
def Unknown {α : Type} (_ : α) : Prop := True

/-- An element, or another failure than that a value depends on itself. -/
abbrev Item.Untangled : Item → Prop := LazyLang.Untangled Unknown

/-- No item that an array holds ready is a failure of a value that depends on itself. -/
def Sequence.Untangled : Sequence → Prop
  | values _ | literal _ _ | integers _ _ | repeated _ | iterate _ _ => True
  | drop _ s | take _ s | stepped _ s | reverse s | selection _ _ _ s | map _ s | filter _ s =>
    s.Untangled
  | concat s t | zipWith _ s t => s.Untangled ∧ t.Untangled
  | watched _ items => ∀ x ∈ items, x.Untangled

/-- No item that a traversal holds ready is a failure of a value that depends on itself. -/
def Traversal.Untangled : Traversal → Prop
  | literal _ _ | integers _ _ | repeated _ => True
  | iterate _ next => ∀ x ∈ next, x.Untangled
  | drop _ t | take _ t | stepped _ _ t | map _ t | filter _ t => t.Untangled
  | concat t u | zipWith _ t u => t.Untangled ∧ u.Untangled
  | items rest | watched _ _ rest => ∀ x ∈ rest, x.Untangled

/-- The elements of an array are untangled. -/
def Value.Untangled : Value → Prop
  | array s => s.Untangled
  | _ => True

/-- The outcome of the cell, if it is done, is untangled. -/
def Cell.Untangled : Cell → Prop
  | done outcome => LazyLang.Untangled Value.Untangled outcome
  | _ => True

/-- Every cell of the store is untangled. -/
def Store.Untangled (st : Store) : Prop := ∀ c ∈ st.cells, c.Untangled

/-- On an untangled store the computation leads to an untangled one, with a result of which `P`
holds. -/
def Run.Keeps {α : Type} (x : Run α) (P : α → Prop) : Prop :=
  ∀ ⦃st a st'⦄, st.Untangled → x st = some (a, st') → st'.Untangled ∧ P a

/-- The same of a computation that may fail, in other ways than that a value depends on itself. -/
def Eval.Keeps {α : Type} (x : Eval α) (P : α → Prop) : Prop := Run.Keeps x.run (Untangled P)

/-- The next item, if there is one, and the traversal after it are untangled. -/
def Traversal.NextUntangled (next : Option Item × Traversal) : Prop :=
  (∀ x ∈ next.1, x.Untangled) ∧ next.2.Untangled

/-- The runner only does what keeps stores untangled. -/
structure Runner.Untangled (R : Runner) : Prop where
  force : ∀ r, Eval.Keeps (R.force r) Value.Untangled
  next : ∀ t, t.Untangled → Run.Keeps (R.next t) Traversal.NextUntangled
  apply : ∀ f args, Eval.Keeps (R.apply f args) Value.Untangled

variable {α β : Type} {P : α → Prop} {Q : β → Prop} {st : Store} {c : Cell} {r : Ref}

theorem Store.Untangled.cell (h : st.Untangled) (r : Ref) : (st.cell r).Untangled := by
  rw [Store.cell, Array.getD_eq_getD_getElem?]
  cases hcell : st.cells[r.index]? with
  | none => exact RuntimeError.noConfusion
  | some c => exact h c (Array.mem_of_getElem? hcell)

theorem Store.Untangled.add (h : st.Untangled) (hc : c.Untangled) : (st.add c).2.Untangled := by
  intro c' hc'
  rcases Array.mem_push.1 hc' with hc' | rfl
  · exact h c' hc'
  · exact hc

theorem Store.Untangled.set (h : st.Untangled) (r : Ref) (hc : c.Untangled) :
    (st.set r c).Untangled := by
  intro c' hc'
  rcases Array.mem_or_eq_of_mem_setIfInBounds hc' with hc' | rfl
  · exact h c' hc'
  · exact hc

namespace Run.Keeps

theorem ret {a : α} (h : P a) : Run.Keeps (pure a) P := by
  rintro st _ _ hst ⟨⟩
  exact ⟨hst, h⟩

theorem exhausted : Run.Keeps Run.outOfFuel P := by
  rintro _ _ _ _ ⟨⟩

theorem seq {x : Run α} {f : α → Run β} (h : x.Keeps P) (hf : ∀ a, P a → (f a).Keeps Q) :
    (x >>= f).Keeps Q := by
  intro st b st₂ hst hrun
  obtain ⟨a, st₁, hx, hfa⟩ := Run.bind_eq_some.1 hrun
  obtain ⟨hst₁, ha⟩ := h hst hx
  exact hf a ha hst₁ hfa

theorem add (h : c.Untangled) : (Run.add c).Keeps Unknown := by
  rintro st _ _ hst ⟨⟩
  exact ⟨hst.add h, trivial⟩

theorem defer (thunk : Thunk) : (Run.defer thunk).Keeps Unknown := add trivial

theorem note (e : Event) : (Run.note e).Keeps Unknown := by
  rintro st _ _ hst ⟨⟩
  exact ⟨hst, trivial⟩

mutual

/-- Suspending an expression adds untangled cells. -/
theorem suspend (scope : ValueScope) : (e : TypedExpr) →
    (Run.update (e.suspend scope)).Keeps Unknown
  | .identifier _ name => by
      rintro st a st' hst hrun
      rw [Run.update, Expr.suspend] at hrun
      split at hrun
      · cases hrun
        exact ⟨hst, trivial⟩
      · cases hrun
        exact ⟨hst.add RuntimeError.noConfusion, trivial⟩
  | .integer _ _ | .float _ _ | .string _ _ | .boolean _ _ | .none _ | .array _ _ => add trivial
  | .unrecognized _ _ => add RuntimeError.noConfusion
  | .call _ callee args =>
      seq (suspend scope callee) fun _ _ => seq (suspendArgs scope args) fun _ _ => defer _

/-- Suspending the arguments of a call. -/
theorem suspendArgs (scope : ValueScope) : (args : List (Option TypedExpr)) →
    (Run.update (Expr.suspendArgs scope args)).Keeps Unknown
  | [] => ret trivial
  | Option.none :: rest => seq (Q := Unknown) (suspendArgs scope rest) fun _ _ => ret trivial
  | some e :: rest => by
      rw [Expr.update_suspendArgs_some]
      exact seq (suspend scope e) fun _ _ => seq (suspendArgs scope rest) fun _ _ => ret trivial

end

end Run.Keeps

namespace Eval.Keeps

theorem ret {a : α} (h : P a) : Eval.Keeps (pure a) P := Run.Keeps.ret (P := Untangled P) h

theorem fail {e : RuntimeError} (h : e ≠ .cyclicEvaluation) : Eval.Keeps (throw e) P :=
  Run.Keeps.ret (P := Untangled P) h

theorem exhausted : Eval.Keeps (ExceptT.lift Run.outOfFuel) P :=
  fun _ _ _ _ hrun => nomatch hrun

theorem except {o : Except RuntimeError α} (h : Untangled P o) : Eval.Keeps (liftM o) P :=
  Run.Keeps.ret h

theorem seq {x : Eval α} {f : α → Eval β} (h : x.Keeps P) (hf : ∀ a, P a → (f a).Keeps Q) :
    (x >>= f).Keeps Q := by
  refine Run.Keeps.seq h fun o ho => ?_
  cases o with
  | ok a => exact hf a ho
  | error e => exact Run.Keeps.ret (P := Untangled Q) ho

theorem lift {x : Run α} (h : x.Keeps P) : Eval.Keeps (ExceptT.lift x) P :=
  Run.Keeps.seq h fun a ha => Run.Keeps.ret (P := Untangled P) (a := .ok a) ha

end Eval.Keeps

theorem Item.Untangled.of_mem_some {x : Item} (hx : x.Untangled) : ∀ y ∈ some x, y.Untangled :=
  fun _ hy => Option.mem_some.1 hy ▸ hx

namespace Traversal.NextUntangled

variable {x : Item} {t : Traversal}

theorem ended (ht : t.Untangled) : NextUntangled (none, t) :=
  ⟨fun _ hx => absurd hx (Option.not_mem_none _), ht⟩

theorem given (hx : x.Untangled) (ht : t.Untangled) : NextUntangled (some x, t) :=
  ⟨Item.Untangled.of_mem_some hx, ht⟩

end Traversal.NextUntangled

namespace Value

theorem untangled_truthy (operation : String) (v : Value) :
    LazyLang.Untangled Unknown (v.truthy operation) := by
  cases v <;> first | exact trivial | exact RuntimeError.noConfusion

end Value

/-- What a loop has gathered has the property after the step. -/
def Gathers (P : α → Prop) : ForInStep α → Prop
  | .done a | .yield a => P a

namespace Runner.Untangled

variable {R : Runner} (h : R.Untangled)

include h

theorem call (f : Function) (args : List Ref) : (R.call f args).Keeps Value.Untangled :=
  h.apply f _

theorem foldItems {step : α → Item → Eval (ForInStep α)}
    (hstep : ∀ acc x, P acc → x.Untangled → (step acc x).Keeps (Gathers P)) (n : ℕ)
    {t : Traversal} (ht : t.Untangled) {acc : α} (hacc : P acc) :
    (R.foldItems step n t acc).Keeps P := by
  induction n generalizing t acc with
  | zero => exact .exhausted
  | succ n ih =>
      simp only [Runner.foldItems]
      refine .seq (.lift (h.next t ht)) ?_
      rintro ⟨x, t⟩ ⟨hx, ht⟩
      cases x with
      | none => exact .ret hacc
      | some x =>
          refine .seq (hstep acc x hacc (hx x rfl)) fun o ho => ?_
          cases o with
          | done acc => exact .ret ho
          | yield acc => exact ih ht ho

theorem drainReversed {t : Traversal} (ht : t.Untangled) :
    (R.drainReversed t).Keeps Unknown := by
  refine h.foldItems (fun acc x _ hx => .seq (.except hx) fun r _ => ?_) _ ht trivial
  exact .ret (P := Gathers Unknown) trivial

omit h in
theorem items_map_ok (refs : List Ref) : (Traversal.items (refs.map .ok)).Untangled := by
  intro x hx
  obtain ⟨r, -, rfl⟩ := List.mem_map.1 hx
  trivial

omit h in
theorem items_select (refs : List Ref) (start stop : Option Int) (step : Int) :
    (Traversal.items (Sequence.select refs start stop step)).Untangled := by
  intro x hx
  obtain ⟨i, -, hx⟩ := List.mem_filterMap.1 hx
  obtain ⟨r, -, rfl⟩ := Option.map_eq_some_iff.1 hx
  trivial

omit h in
theorem items_error {e : RuntimeError} (he : e ≠ .cyclicEvaluation) :
    (Traversal.items [.error e]).Untangled :=
  List.forall_mem_singleton.2 he

theorem traverse (s : Sequence) (hs : s.Untangled) :
    (s.traverse R).Keeps Traversal.Untangled := by
  induction s with
  | values refs => exact .ret (items_map_ok refs)
  | literal | integers | repeated => exact .ret trivial
  | iterate f r => exact .ret (Item.Untangled.of_mem_some trivial)
  | drop _ s ih | take _ s ih | stepped _ s ih | map _ s ih | filter _ s ih =>
      exact .seq (ih hs) fun t ht => .ret ht
  | reverse s ih =>
      refine .seq (ih hs) fun t ht => .seq (h.drainReversed ht) fun o ho => ?_
      cases o with
      | ok refs => exact .ret (items_map_ok refs)
      | error e => exact .ret (items_error ho)
  | selection start stop step s ih =>
      refine .seq (ih hs) fun t ht => .seq (h.drainReversed ht) fun o ho => ?_
      cases o with
      | ok refs => exact .ret (items_select refs.reverse start stop step)
      | error e => exact .ret (items_error ho)
  | concat s t ihs iht | zipWith _ s t ihs iht =>
      exact .seq (ihs hs.1) fun t ht => .seq (iht hs.2) fun u hu => .ret ⟨ht, hu⟩
  | watched tag items => exact .seq (.note _) fun _ _ => .ret hs

theorem fold {step : α → Item → Eval (ForInStep α)}
    (hstep : ∀ acc x, P acc → x.Untangled → (step acc x).Keeps (Gathers P)) {s : Sequence}
    (hs : s.Untangled) {start : α} (hstart : P start) : (R.fold s start step).Keeps P :=
  .seq (.lift (h.traverse s hs)) fun _ ht => h.foldItems hstep _ ht hstart

theorem toList {s : Sequence} (hs : s.Untangled) : (R.toList s).Keeps Unknown :=
  .seq (.lift (h.traverse s hs)) fun _ ht => .seq (h.drainReversed ht) fun _ _ => .ret trivial

theorem ahead (n : ℕ) {t : Traversal} (ht : t.Untangled) :
    (t.ahead R n).Keeps Traversal.NextUntangled := by
  induction n generalizing t with
  | zero => exact h.next t ht
  | succ n ih =>
      refine .seq (h.next t ht) ?_
      rintro ⟨x, t⟩ ⟨hx, ht⟩
      cases x with
      | none => exact .ret ⟨hx, ht⟩
      | some x => exact ih ht

theorem nextMatch (f : Function) (n : ℕ) {t : Traversal} (ht : t.Untangled) :
    (Traversal.nextMatch R f n t).Keeps Traversal.NextUntangled := by
  induction n generalizing t with
  | zero => exact .exhausted
  | succ n ih =>
      simp only [Traversal.nextMatch]
      refine .seq (h.next t ht) ?_
      rintro ⟨x, t⟩ ⟨hx, ht⟩
      rcases x with _ | _ | r
      · exact .ret ⟨hx, ht⟩
      · exact .ret ⟨hx, ht⟩
      · refine .seq (h.call f [r]) fun o ho => ?_
        cases o with
        | error e => exact .ret (.given ho ht)
        | ok v =>
            have hholds := v.untangled_truthy "filter"
            dsimp only
            generalize v.truthy "filter" = holds at hholds
            rcases holds with e | _ | _
            · exact .ret (.given hholds ht)
            · exact ih ht
            · exact .ret ⟨hx, ht⟩

theorem successor (f : Function) {x : Item} (hx : x.Untangled) :
    (Traversal.successor R f x).Keeps fun next => ∀ x ∈ next, x.Untangled := by
  rcases x with e | r
  · exact .ret nofun
  · refine .seq (h.force r) fun o ho => ?_
    cases o with
    | error e => exact .ret (Item.Untangled.of_mem_some ho)
    | ok v => exact .seq (.defer _) fun s _ => .ret (Item.Untangled.of_mem_some trivial)

omit h in
theorem mapItem (f : Function) {x : Item} (hx : x.Untangled) :
    (Traversal.mapItem f x).Keeps Item.Untangled := by
  rcases x with e | r
  · exact .ret hx
  · exact .seq (.defer _) fun s _ => .ret trivial

omit h in
theorem zipItem (f : Function) {x y : Item} (hx : x.Untangled) (hy : y.Untangled) :
    (Traversal.zipItem f x y).Keeps Item.Untangled := by
  rcases x with e | r
  · exact .ret hx
  · rcases y with e | s
    · exact .ret hy
    · exact .seq (.defer _) fun t _ => .ret trivial

/-- Moving a traversal on. -/
theorem step (t : Traversal) (ht : t.Untangled) :
    (t.step R).Keeps Traversal.NextUntangled := by
  cases t with
  | items rest =>
      cases rest with
      | nil => exact .ret (.ended ht)
      | cons x rest =>
          obtain ⟨hx, hrest⟩ := List.forall_mem_cons.1 ht
          exact .ret (.given hx hrest)
  | watched tag position rest =>
      cases rest with
      | nil => exact .ret (.ended ht)
      | cons x rest =>
          obtain ⟨hx, hrest⟩ := List.forall_mem_cons.1 ht
          exact .seq (.note _) fun _ _ => .ret (.given hx hrest)
  | literal scope rest =>
      cases rest with
      | nil => exact .ret (.ended trivial)
      | cons e rest =>
          exact .seq (.suspend scope e) fun r _ =>
            .ret (.given trivial trivial)
  | integers next stop =>
      simp only [Traversal.step]
      split
      · exact .seq (.add trivial) fun r _ => .ret (.given trivial trivial)
      · exact .ret (.ended trivial)
  | repeated r => exact .ret (.given trivial trivial)
  | iterate f next =>
      cases next with
      | none => exact .ret (.ended ht)
      | some x => exact .seq (h.successor f (ht x rfl)) fun next hnext => .ret ⟨ht, hnext⟩
  | drop count t => exact .seq (h.ahead count ht) fun next hnext => .ret hnext
  | take count t =>
      cases count with
      | zero => exact .ret (.ended ht)
      | succ count => exact .seq (h.next t ht) fun next hnext => .ret hnext
  | stepped fresh step t => exact .seq (h.ahead _ ht) fun next hnext => .ret hnext
  | concat t u =>
      refine .seq (h.next t ht.1) ?_
      rintro ⟨x, t⟩ ⟨hx, ht'⟩
      cases x with
      | none => exact h.next u ht.2
      | some x => exact .ret ⟨hx, ht', ht.2⟩
  | map f t =>
      refine .seq (h.next t ht) ?_
      rintro ⟨x, t⟩ ⟨hx, ht⟩
      cases x with
      | none => exact .ret ⟨hx, ht⟩
      | some x =>
          exact .seq (mapItem f (hx x rfl)) fun y hy => .ret (.given hy ht)
  | filter f t => exact .seq (h.nextMatch f _ ht) fun next hnext => .ret hnext
  | zipWith f t u =>
      refine .seq (h.next t ht.1) ?_
      rintro ⟨x, t⟩ ⟨hx, ht'⟩
      cases x with
      | none => exact .ret ⟨hx, ht', ht.2⟩
      | some x =>
          refine .seq (h.next u ht.2) ?_
          rintro ⟨y, u⟩ ⟨hy, hu⟩
          cases y with
          | none => exact .ret ⟨hy, ht', hu⟩
          | some y =>
              exact .seq (zipItem f (hx x rfl) (hy y rfl)) fun z hz =>
                .ret (.given hz ⟨ht', hu⟩)

end Runner.Untangled

end LazyLang
