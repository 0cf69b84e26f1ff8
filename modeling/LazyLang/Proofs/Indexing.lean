import LazyLang.Proofs.Items

/-!
# Failing items and access by position

An item of an array may be a failure: a filter gives one where its predicate fails, and an array
that cannot be drained has it for its only item. Access by position from the front moves on past the
items before the position, be they failures or not, so it is the item at the position alone that
decides (`Runner.elementAt_of_pulls`). Access from the end has to drain the array, and then the
first failure counts (`Runner.elementAt_of_failure`). An array that fails on its way can thus have
elements behind the failure (`Runner.not_elementAt_failing`).
-/

namespace LazyLang.Runner

section Access

variable {n : Nat} {s : Sequence} {t t' t'' : Traversal} {st st₁ st₂ st₃ : Store}
  {items : List Item}

/-- Access from the front gives the item at the position, whatever came before it. -/
theorem elementAt_of_pulls (htraverse : s.traverse (ofFuel n) st = some (t, st₁))
    (h : t.Pulls (ofFuel n) st₁ items t' st₂) {item : Option Item}
    (hnext : (ofFuel n).next t' st₂ = some ((item, t''), st₃)) :
    ((ofFuel n).elementAt s items.length).run st = ((ofFuel n).elementOrNone item).run st₃ := by
  have hahead : t.ahead (ofFuel n) items.length st₁ = some ((item, t''), st₃) :=
    h.ahead_eq.trans hnext
  rw [elementAt, if_pos (Int.natCast_nonneg _), Int.toNat_natCast]
  exact (Eval.bind_of_eq_ok (Eval.lift_eq_ok.2 htraverse)).trans
    (Eval.bind_of_eq_ok (Eval.lift_eq_ok.2 hahead))

/-- A failing item fails the access to its own position, and every access from the end if it is the
first that does. -/
theorem elementAt_of_failure (htraverse : s.traverse (ofFuel n) st = some (t, st₁))
    (h : t.Pulls (ofFuel n) st₁ items t' st₂) {e : RuntimeError}
    (hnext : (ofFuel n).next t' st₂ = some ((some (.error e), t''), st₃)) :
    ((ofFuel n).elementAt s items.length).run st = some (.error e, st₃) ∧
      ∀ (refs : List Ref) (position : Int), items = refs.map .ok → refs.length < n →
        position < 0 → ((ofFuel n).elementAt s position).run st = some (.error e, st₃) := by
  refine ⟨elementAt_of_pulls htraverse h hnext, ?_⟩
  rintro refs position rfl hfuel hneg
  rw [elementAt, if_neg (Int.not_le.2 hneg)]
  exact Eval.bind_of_eq_error (toList_of_failure htraverse h hnext hfuel)

end Access

section Filtered

/-- An array without elements and an array of one. -/
def emptyAndOne : Store :=
  ⟨#[.done (.ok (.array (.values []))), .done (.ok (.array (.values [⟨2⟩]))),
    .done (.ok (.integer 1))], #[]⟩

/-- The arrays of numbers whose greatest one is not zero. The empty one has no greatest number,
which is a failure. -/
def filtered : Sequence := .filter (.ofBuiltin .max 1) (.values [⟨0⟩, ⟨1⟩])

theorem next_filtered :
    ∃ t st, (ofFuel 9).next (.filter (.ofBuiltin .max 1) (.items [.ok ⟨0⟩, .ok ⟨1⟩])) emptyAndOne =
      some ((some (.error (.emptyArray "max")), t), st) :=
  ⟨_, _, rfl⟩

theorem elementAt_of_failure_filtered :
    (∃ st, ((ofFuel 9).elementAt filtered 0).run emptyAndOne =
        some (.error (.emptyArray "max"), st)) ∧
      ∃ st, ((ofFuel 9).elementAt filtered (-1)).run emptyAndOne =
        some (.error (.emptyArray "max"), st) := by
  have htraverse : filtered.traverse (ofFuel 9) emptyAndOne = some (_, emptyAndOne) := rfl
  obtain ⟨t, st, hnext⟩ := next_filtered
  obtain ⟨hfront, hend⟩ := elementAt_of_failure htraverse (.nil _ _) hnext
  exact ⟨⟨st, hfront⟩, st, hend [] (-1) rfl (by decide) (by decide)⟩

/-- A failure among the items on the way to a position does not always fail the access: behind the
failure of the first array, the filter gives the second. -/
theorem not_elementAt_failing :
    ¬ ∀ (n : Nat) (s : Sequence) (t t' : Traversal) (st st₁ st₂ st' : Store) (items : List Item)
        (e : RuntimeError) (i : Nat) (outcome : Except RuntimeError Value),
      s.traverse (ofFuel n) st = some (t, st₁) → t.Pulls (ofFuel n) st₁ items t' st₂ →
      items.length ≤ i + 1 → .error e ∈ items →
      ((ofFuel n).elementAt s i).run st = some (outcome, st') → ∃ e', outcome = .error e' := by
  intro h
  have htraverse : filtered.traverse (ofFuel 9) emptyAndOne = some (_, emptyAndOne) := rfl
  obtain ⟨t, st, hnext⟩ := next_filtered
  have hrun : ((ofFuel 9).elementAt filtered (1 : Nat)).run emptyAndOne =
      some (.ok (.array (.values [⟨2⟩])), _) := rfl
  obtain ⟨e', he⟩ := h 9 filtered _ _ emptyAndOne _ _ _ _ _ 1 _ htraverse
    (.cons hnext (.nil t st)) (by decide) List.mem_cons_self hrun
  cases he

end Filtered

end LazyLang.Runner
