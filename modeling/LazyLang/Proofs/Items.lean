import LazyLang.Proofs.Evaluation.Worlds

/-!
# The items of a traversal

Moving a traversal on again and again gives its items, and the last move finds that the array has
ended. `Traversal.Pulls` says which items some moves gave and where they led, `Traversal.Lists`
which items there are to the end. Both speak of one store after another, as moving a traversal on
may add to the store. More fuel does not change what is listed.

Going ahead is moving on past some items, whatever they are, and draining an array is moving on
until an item is a failure or there are no more (`Runner.toList_eq_ok`,
`Runner.toList_of_failure`).
-/

namespace LazyLang

open Likeness

namespace Traversal

/-- Moving a traversal on gives the items, one after the other, and leads to another traversal and
store. -/
inductive Pulls (R : Runner) : Traversal → Store → List Item → Traversal → Store → Prop
  | nil (t : Traversal) (st : Store) : Pulls R t st [] t st
  | cons {t t' t'' : Traversal} {st st' st'' : Store} {item : Item} {items : List Item}
      (h : R.next t st = some ((some item, t'), st')) (hrest : Pulls R t' st' items t'' st'') :
      Pulls R t st (item :: items) t'' st''

/-- The items to the end of a traversal. -/
inductive Lists (R : Runner) : Traversal → Store → List Item → Prop
  | nil {t t' : Traversal} {st st' : Store} (h : R.next t st = some ((none, t'), st')) :
      Lists R t st []
  | cons {t t' : Traversal} {st st' : Store} {item : Item} {items : List Item}
      (h : R.next t st = some ((some item, t'), st')) (hrest : Lists R t' st' items) :
      Lists R t st (item :: items)

variable {R : Runner} {t t' : Traversal} {st st' : Store} {items : List Item} {item : Item}

theorem Lists.pulls (h : Lists R t st items) :
    ∃ t' st' t'' st'', Pulls R t st items t' st' ∧ R.next t' st' = some ((none, t''), st'') := by
  induction h with
  | nil h => exact ⟨_, _, _, _, .nil _ _, h⟩
  | cons h _ ih =>
      obtain ⟨t', st', t'', st'', hpulls, hend⟩ := ih
      exact ⟨t', st', t'', st'', .cons h hpulls, hend⟩

section Ahead

theorem ahead_succ_of_some {k : Nat} (h : R.next t st = some ((some item, t'), st')) :
    ahead R (k + 1) t st = ahead R k t' st' := by
  rw [ahead, Run.bind_of_eq_some h]

theorem ahead_succ_of_none {k : Nat} (h : R.next t st = some ((none, t'), st')) :
    ahead R (k + 1) t st = some ((none, t'), st') := by
  rw [ahead, Run.bind_of_eq_some h]
  rfl

/-- Going ahead moves on past the items in between, be they failures or not. -/
theorem Pulls.ahead_eq (h : Pulls R t st items t' st') :
    ahead R items.length t st = R.next t' st' := by
  induction h with
  | nil => rfl
  | cons h _ ih => rw [List.length_cons, ahead_succ_of_some h, ih]

/-- Going ahead finds the item at the place, if there is one. -/
theorem Lists.ahead_eq (h : Lists R t st items) (k : Nat) :
    ∃ t' st', ahead R k t st = some ((items[k]?, t'), st') ∧
      (k < items.length → Lists R t' st' (items.drop (k + 1))) := by
  induction h generalizing k with
  | @nil t t' st st' h =>
      refine ⟨t', st', ?_, fun hk => absurd hk (Nat.not_lt_zero k)⟩
      cases k with
      | zero => exact h
      | succ k => exact ahead_succ_of_none h
  | @cons t t' st st' item items h hrest ih =>
      cases k with
      | zero => exact ⟨t', st', h, fun _ => hrest⟩
      | succ k =>
          obtain ⟨t'', st'', hahead, hlists⟩ := ih k
          refine ⟨t'', st'', (ahead_succ_of_some h).trans hahead, fun hk => ?_⟩
          exact hlists (Nat.lt_of_succ_lt_succ hk)

end Ahead

section Fuel

variable {n m : Nat}

theorem next_ofFuel_of_le (hle : n ≤ m) {next : Option Item × Traversal}
    (h : (Runner.ofFuel n).next t st = some (next, st')) :
    (Runner.ofFuel m).next t st = some (next, st') :=
  have hruns := Runner.evolves_ofFuel hle
  have hlawful := (lawful_item).option.prod Traversal.Alike.lawful
  ((hruns.next ((Traversal.Alike.lawful).refl t)).run_eq hlawful h).1

theorem Lists.of_le (hle : n ≤ m) (h : Lists (.ofFuel n) t st items) :
    Lists (.ofFuel m) t st items := by
  induction h with
  | nil h => exact .nil (next_ofFuel_of_le hle h)
  | cons h _ ih => exact .cons (next_ofFuel_of_le hle h) ih

end Fuel

end Traversal

theorem Sequence.traverse_ofFuel_of_le {n m : Nat} (hle : n ≤ m) {s : Sequence} {t : Traversal}
    {st st' : Store} (h : s.traverse (.ofFuel n) st = some (t, st')) :
    s.traverse (.ofFuel m) st = some (t, st') :=
  have hruns := Runner.evolves_ofFuel hle
  ((hruns.traverse ((Sequence.Alike.lawful).refl s)).run_eq Traversal.Alike.lawful h).1

namespace Runner

section Draining

variable {R : Runner} {t t' : Traversal} {st st' : Store} {refs acc : List Ref} {fuel : Nat}

/-- Draining as `drainReversed` does it, with fuel of its own and some elements gathered already. -/
def gather (R : Runner) (fuel : Nat) (t : Traversal) (acc : List Ref) : Eval (List Ref) :=
  R.foldItems (fun acc item => do return .yield ((← item) :: acc)) fuel t acc

theorem gather_of_outOfFuel (h : R.next t st = none) :
    (R.gather (fuel + 1) t acc).run st = none := by
  rw [gather, foldItems]
  change ((R.next t st).bind _).bind _ = none
  rw [h]
  rfl

theorem gather_of_none (h : R.next t st = some ((none, t'), st')) :
    (R.gather (fuel + 1) t acc).run st = some (.ok acc, st') :=
  Eval.bind_of_eq_ok (Eval.lift_eq_ok.2 h)

theorem gather_of_ok {r : Ref} (h : R.next t st = some ((some (.ok r), t'), st')) :
    (R.gather (fuel + 1) t acc).run st = (R.gather fuel t' (r :: acc)).run st' :=
  Eval.bind_of_eq_ok (Eval.lift_eq_ok.2 h)

theorem gather_of_error {e : RuntimeError}
    (h : R.next t st = some ((some (.error e), t'), st')) :
    (R.gather (fuel + 1) t acc).run st = some (.error e, st') :=
  Eval.bind_of_eq_ok (Eval.lift_eq_ok.2 h)

/-- What has been gathered in the end are all the items there are. -/
theorem lists_of_gather {gathered : List Ref}
    (h : (R.gather fuel t acc).run st = some (.ok gathered, st')) :
    ∃ refs : List Ref, gathered = refs.reverse ++ acc ∧ refs.length < fuel ∧
      t.Lists R st (refs.map .ok) := by
  induction fuel generalizing t st acc with
  | zero => cases h
  | succ fuel ih =>
      cases hnext : R.next t st with
      | none =>
          rw [gather_of_outOfFuel hnext] at h
          cases h
      | some moved =>
          obtain ⟨⟨_ | _ | r, t₁⟩, st₁⟩ := moved
          · rw [gather_of_none hnext] at h
            cases h
            exact ⟨[], rfl, Nat.succ_pos fuel, .nil hnext⟩
          · rw [gather_of_error hnext] at h
            cases h
          · rw [gather_of_ok hnext] at h
            obtain ⟨refs, rfl, hlt, hlists⟩ := ih h
            refine ⟨r :: refs, ?_, Nat.succ_lt_succ hlt, .cons hnext hlists⟩
            rw [List.reverse_cons, List.append_assoc, List.singleton_append]

/-- Elements that are there one after the other are gathered, with fuel for each of them. -/
theorem gather_of_pulls (h : t.Pulls R st (refs.map .ok) t' st') (fuel : Nat) (acc : List Ref) :
    (R.gather (fuel + refs.length) t acc).run st =
      (R.gather fuel t' (refs.reverse ++ acc)).run st' := by
  induction refs generalizing t st acc with
  | nil =>
      cases h
      rfl
  | cons r refs ih =>
      cases h with
      | cons h hrest =>
          rw [List.length_cons, ← Nat.add_assoc, gather_of_ok h, ih hrest, List.reverse_cons,
            List.append_assoc, List.singleton_append]

/-- Enough fuel gathers the items that there are. -/
theorem gather_of_lists (h : t.Lists R st (refs.map .ok)) (hfuel : refs.length < fuel)
    (acc : List Ref) :
    ∃ st', (R.gather fuel t acc).run st = some (.ok (refs.reverse ++ acc), st') := by
  obtain ⟨t', st', t'', st'', hpulls, hnext⟩ := h.pulls
  obtain ⟨more, rfl⟩ := Nat.exists_eq_add_of_lt hfuel
  rw [Nat.add_assoc, Nat.add_comm, gather_of_pulls hpulls]
  exact ⟨st'', gather_of_none hnext⟩

/-- An item that is a failure ends the gathering. -/
theorem gather_of_failure {e : RuntimeError} {t'' : Traversal} {st'' : Store}
    (h : t.Pulls R st (refs.map .ok) t' st')
    (hnext : R.next t' st' = some ((some (.error e), t''), st'')) (hfuel : refs.length < fuel) :
    (R.gather fuel t acc).run st = some (.error e, st'') := by
  obtain ⟨more, rfl⟩ := Nat.exists_eq_add_of_lt hfuel
  rw [Nat.add_assoc, Nat.add_comm, gather_of_pulls h]
  exact gather_of_error hnext

variable {s : Sequence} {t' : Traversal} {st₁ st₂ : Store}

theorem toList_eq_some {o : List Ref} :
    (R.toList s).run st = some (.ok o, st') ↔
      ∃ t st₁, s.traverse R st = some (t, st₁) ∧
        (R.drainReversed t).run st₁ = some (.ok o.reverse, st') := by
  constructor
  · intro h
    obtain ⟨t, st₁, htraverse, h⟩ := Eval.bind_eq_ok.1 h
    obtain ⟨drained, st₂, hdrain, hreverse⟩ := Eval.bind_eq_ok.1 h
    cases hreverse
    exact ⟨t, st₁, Eval.lift_eq_ok.1 htraverse, by rwa [List.reverse_reverse]⟩
  · rintro ⟨t, st₁, htraverse, hdrain⟩
    refine (Eval.bind_of_eq_ok (Eval.lift_eq_ok.2 htraverse)).trans ?_
    refine (Eval.bind_of_eq_ok hdrain).trans ?_
    rw [List.reverse_reverse]
    rfl

/-- Draining an array comes to its elements if there is fuel for all of them and none of its items
is a failure. -/
theorem toList_eq_ok :
    (∃ st', (R.toList s).run st = some (.ok refs, st')) ↔
      ∃ t st₁, s.traverse R st = some (t, st₁) ∧ t.Lists R st₁ (refs.map .ok) ∧
        refs.length < R.fuel := by
  constructor
  · rintro ⟨st', h⟩
    obtain ⟨t, st₁, htraverse, hdrain⟩ := toList_eq_some.1 h
    obtain ⟨items, heq, hfuel, hlists⟩ := lists_of_gather hdrain
    rw [List.append_nil, List.reverse_inj] at heq
    subst heq
    exact ⟨t, st₁, htraverse, hlists, hfuel⟩
  · rintro ⟨t, st₁, htraverse, hlists, hfuel⟩
    obtain ⟨st', hgather⟩ := gather_of_lists hlists hfuel []
    rw [List.append_nil] at hgather
    exact ⟨st', toList_eq_some.2 ⟨t, st₁, htraverse, hgather⟩⟩

/-- Draining an array fails with the first item that is a failure. -/
theorem toList_of_failure {e : RuntimeError} (htraverse : s.traverse R st = some (t, st₁))
    (h : t.Pulls R st₁ (refs.map .ok) t' st₂)
    (hnext : R.next t' st₂ = some ((some (.error e), t''), st')) (hfuel : refs.length < R.fuel) :
    (R.toList s).run st = some (.error e, st') := by
  rw [toList, Eval.bind_of_eq_ok (Eval.lift_eq_ok.2 htraverse)]
  exact Eval.bind_of_eq_error (gather_of_failure h hnext hfuel)

end Draining

end Runner

end LazyLang
