import LazyLang.Proofs.Items
import LazyLang.Proofs.Slices.Positions

/-!
# Lazy slices

A slice with a positive step and no bound below zero is not drained. It skips the items before the
first bound, stops after as many as there are between the bounds, and picks every so many of them on
the way. What it lists are the elements at the positions of the slice, which is what draining the
array and selecting comes to (`Runner.toList_sliceOf`).

Each of the three layers is described by itself, by what it lists if the traversal below it lists
some items (`Traversal.Lists.drop`, `take` and `stepped`). A layer takes one more unit of fuel than
what is below it.
-/

namespace LazyLang

namespace Traversal

variable {n : Nat} {t t' : Traversal} {st st' : Store} {items : List Item}

section Layers

theorem next_drop {k : Nat} {item : Option Item}
    (h : ahead (.ofFuel n) k t st = some ((item, t'), st')) :
    (Runner.ofFuel (n + 1)).next (.drop k t) st = some ((item, .drop 0 t'), st') :=
  Run.bind_of_eq_some h

theorem next_stepped {fresh : Bool} {k skipped : Nat} {item : Option Item}
    (hskipped : (if fresh then 0 else k - 1) = skipped)
    (h : ahead (.ofFuel n) skipped t st = some ((item, t'), st')) :
    (Runner.ofFuel (n + 1)).next (.stepped fresh k t) st =
      some ((item, .stepped false k t'), st') := by
  subst hskipped
  exact Run.bind_of_eq_some h

theorem Lists.drop_zero (h : Lists (.ofFuel n) t st items) :
    Lists (.ofFuel (n + 1)) (.drop 0 t) st items := by
  induction h with
  | nil h => exact .nil (next_drop (k := 0) h)
  | cons h _ ih => exact .cons (next_drop (k := 0) h) ih

/-- Skipping leaves the items after those that are skipped. -/
theorem Lists.drop (h : Lists (.ofFuel n) t st items) (k : Nat) :
    Lists (.ofFuel (n + 1)) (.drop k t) st (items.drop k) := by
  obtain ⟨t', st', hahead, hrest⟩ := h.ahead_eq k
  by_cases hk : k < items.length
  · rw [List.getElem?_eq_getElem hk] at hahead
    rw [List.drop_eq_getElem_cons hk]
    exact .cons (next_drop hahead) (hrest hk).drop_zero
  · rw [List.getElem?_eq_none (Nat.le_of_not_lt hk)] at hahead
    rw [List.drop_eq_nil_of_le (Nat.le_of_not_lt hk)]
    exact .nil (next_drop hahead)

/-- Stopping early leaves the items until then. -/
theorem Lists.take (h : Lists (.ofFuel n) t st items) (k : Nat) :
    Lists (.ofFuel (n + 1)) (.take k t) st (items.take k) := by
  induction h generalizing k with
  | nil h =>
      rw [List.take_nil]
      cases k with
      | zero => exact .nil rfl
      | succ k => exact .nil (Run.bind_of_eq_some h)
  | cons h _ ih =>
      cases k with
      | zero => exact .nil rfl
      | succ k => exact .cons (Run.bind_of_eq_some h) (ih k)

/-- Picking on the way leaves every `k`-th of the items. The first one comes at once, and each later
one after `k - 1` others. -/
theorem Lists.stepped (h : Lists (.ofFuel n) t st items) {fresh : Bool} {k skipped : Nat}
    (hk : 0 < k) (hskipped : (if fresh then 0 else k - 1) = skipped) :
    ∃ picked, Lists (.ofFuel (n + 1)) (.stepped fresh k t) st picked ∧
      ∀ j, picked[j]? = items[skipped + j * k]? := by
  -- The induction is on the number of items, as the next one may be far behind.
  induction hlength : items.length using Nat.strong_induction_on
    generalizing t st items fresh skipped with
  | _ length ih =>
      obtain ⟨t', st', hahead, hrest⟩ := h.ahead_eq skipped
      by_cases hlt : skipped < items.length
      · have hshorter : (items.drop (skipped + 1)).length < length := by
          rw [List.length_drop]
          omega
        have hlater : (if (false : Bool) then 0 else k - 1) = k - 1 := rfl
        obtain ⟨picked, hlists, hpicked⟩ := ih _ hshorter (hrest hlt) hlater rfl
        rw [List.getElem?_eq_getElem hlt] at hahead
        refine ⟨items[skipped] :: picked, .cons (next_stepped hskipped hahead) hlists, ?_⟩
        intro j
        cases j with
        | zero => simp [hlt]
        | succ j =>
            have hplace : skipped + 1 + (k - 1 + j * k) = skipped + (j + 1) * k := by
              rw [Nat.succ_mul]
              omega
            rw [List.getElem?_cons_succ, hpicked, List.getElem?_drop, hplace]
      · rw [List.getElem?_eq_none (Nat.le_of_not_lt hlt)] at hahead
        refine ⟨[], .nil (next_stepped hskipped hahead), fun j => ?_⟩
        rw [List.getElem?_eq_none (l := items) (by omega)]
        rfl

theorem lists_items (n : Nat) (items : List Item) (st : Store) :
    Lists (.ofFuel (n + 1)) (.items items) st items := by
  induction items with
  | nil => exact .nil rfl
  | cons item rest ih => exact .cons rfl ih

end Layers

end Traversal

open SliceBounds

/-- What a slice without negative bounds lists on the way forward. -/
theorem Runner.lists_sliceOf {n : Nat} {source : Sequence} {t : Traversal} {st st' : Store}
    {items : List Item} {start stop : Option Int} {step : Int}
    (htraverse : source.traverse (.ofFuel n) st = some (t, st'))
    (hlists : t.Lists (.ofFuel n) st' items)
    (hstart : ∀ b ∈ start, 0 ≤ b) (hstop : ∀ b ∈ stop, 0 ≤ b) (hstep : 0 < step) :
    ∃ t' picked, (sliceOf source start stop step).traverse (.ofFuel (n + 3)) st = some (t', st') ∧
      t'.Lists (.ofFuel (n + 3)) st' picked ∧
      ∀ j, picked[j]? =
        if (start.getD 0).toNat + j * step.toNat < reach items.length stop then
          items[(start.getD 0).toNat + j * step.toNat]?
        else none := by
  have hforward : (0 < step && start.all (0 ≤ ·) && stop.all (0 ≤ ·)) = true := by
    simpa [hstep, Option.all_eq_true] using ⟨hstart, hstop⟩
  have hmore := Sequence.traverse_ofFuel_of_le (Nat.le_add_right n 3) htraverse
  have hfresh : (if (true : Bool) then 0 else step.toNat - 1) = 0 := rfl
  have hpositive : 0 < step.toNat := by omega
  rw [sliceOf, if_pos hforward]
  -- The layers from the inside out: without a bound to stop at, one of them is missing.
  cases stop with
  | none =>
      obtain ⟨picked, hpicked, hplaces⟩ :=
        (hlists.drop (start.getD 0).toNat).stepped hpositive hfresh
      refine ⟨_, picked, ?_, hpicked.of_le (Nat.le_succ _), fun j => ?_⟩
      · exact Run.bind_of_eq_some (Run.bind_of_eq_some hmore)
      · rw [hplaces, Nat.zero_add, List.getElem?_drop]
        split
        · rfl
        · next hge => exact List.getElem?_eq_none (Nat.le_of_not_lt hge)
  | some stop =>
      obtain ⟨picked, hpicked, hplaces⟩ :=
        ((hlists.drop (start.getD 0).toNat).take (stop.toNat - (start.getD 0).toNat)).stepped
          hpositive hfresh
      refine ⟨_, picked, ?_, hpicked, fun j => ?_⟩
      · exact Run.bind_of_eq_some (Run.bind_of_eq_some (Run.bind_of_eq_some hmore))
      · rw [hplaces, Nat.zero_add, List.getElem?_take, List.getElem?_drop, reach, Option.elim_some]
        split
        · split
          · rfl
          · exact List.getElem?_eq_none (by omega)
        · rw [if_neg (by omega)]

theorem nonneg_toInt {bound : Option Int64} (h : ∀ b ∈ bound, 0 ≤ b) :
    ∀ b ∈ bound.map Int64.toInt, 0 ≤ b := by
  cases bound with
  | none => simp
  | some b => simpa using Int64.le_iff_toInt_le.1 (h b rfl)

section Selecting

variable {refs : List Ref} {positions : List Nat}

/-- Selecting gives the elements at the positions. -/
theorem Sequence.select_eq {start stop : Option Int} {step : Int}
    (h : slicePositions refs.length start stop step = some positions) :
    select refs start stop step = (positions.filterMap fun i => refs[i]?).map .ok := by
  simp [select, h, List.map_filterMap]

theorem map_some_filterMap (hlt : ∀ i ∈ positions, i < refs.length) :
    (positions.filterMap fun i => refs[i]?).map some = positions.map fun i => refs[i]? := by
  induction positions with
  | nil => rfl
  | cons i rest ih =>
      rw [List.forall_mem_cons] at hlt
      simp [List.getElem?_eq_getElem hlt.1, ih hlt.2]

theorem getElem?_filterMap (hlt : ∀ i ∈ positions, i < refs.length) (j : Nat) :
    (positions.filterMap fun i => refs[i]?)[j]? = (positions[j]?).bind fun i => refs[i]? := by
  induction positions generalizing j with
  | nil => rfl
  | cons i rest ih =>
      rw [List.forall_mem_cons] at hlt
      cases j with
      | zero => simp [List.getElem?_eq_getElem hlt.1]
      | succ j => simp [List.getElem?_eq_getElem hlt.1, ih hlt.2]

end Selecting

namespace Runner

variable {n : Nat} {source : Sequence} {st st' : Store} {refs : List Ref}

/-- A selection comes to what is selected of the drained array. -/
theorem toList_selection (hsource : ((ofFuel n).toList source).run st = some (.ok refs, st'))
    {start stop : Option Int} {step : Int} {items : List Ref}
    (hitems : Sequence.select refs start stop step = items.map .ok) (hlength : items.length < n) :
    ∃ st₁, ((ofFuel n).toList (.selection start stop step source)).run st =
      some (.ok items, st₁) := by
  obtain ⟨t, st₁, htraverse, hdrain⟩ := toList_eq_some.1 hsource
  have hselection : (Sequence.selection start stop step source).traverse (ofFuel n) st =
      some (.items (items.map .ok), st') := by
    have hselect : Sequence.select refs.reverse.reverse start stop step = items.map .ok := by
      rw [List.reverse_reverse, hitems]
    refine (Run.bind_of_eq_some htraverse).trans ((Run.bind_of_eq_some hdrain).trans ?_)
    exact congrArg (fun rest => some (Traversal.items rest, st')) hselect
  obtain ⟨m, rfl⟩ := Nat.exists_eq_succ_of_ne_zero (Nat.ne_of_gt (Nat.zero_lt_of_lt hlength))
  exact toList_eq_ok.2 ⟨_, st', hselection, Traversal.lists_items m _ st', hlength⟩

/-- A lazy slice agrees with one that drains the array. Draining an array of which no item is a
failure gives its elements; then the slice on the way, between bounds that are not negative and with
a positive step, gives those of them at the positions of the slice, in that order, and so does
selecting from the drained array. -/
theorem toList_sliceOf (hsource : ((ofFuel n).toList source).run st = some (.ok refs, st'))
    {start stop : Option Int64} (hstart : ∀ b ∈ start, 0 ≤ b) (hstop : ∀ b ∈ stop, 0 ≤ b)
    {step : Int64} (hstep : 0 < step) {positions : List Nat}
    (hpositions : slicePositions refs.length (start.map Int64.toInt) (stop.map Int64.toInt)
      step.toInt = some positions) :
    ∃ items, items.map some = positions.map (refs[·]?) ∧
      (∃ st₁, ((ofFuel (n + 3)).toList (sliceOf source (start.map Int64.toInt)
        (stop.map Int64.toInt) step.toInt)).run st = some (.ok items, st₁)) ∧
      ∃ st₂, ((ofFuel n).toList (.selection (start.map Int64.toInt) (stop.map Int64.toInt)
        step.toInt source)).run st = some (.ok items, st₂) := by
  have hfirst := nonneg_toInt hstart
  have hlast := nonneg_toInt hstop
  have hpositive : 0 < step.toInt := Int64.lt_iff_toInt_lt.1 hstep
  have hplaces := slicePositions_forward hfirst hlast hpositive hpositions
  have hprogression := isProgression_of_slicePositions (Int.ne_of_gt hpositive) hpositions
  have hlt : ∀ i ∈ positions, i < refs.length := fun i hi => hprogression.lt_length hi
  obtain ⟨t, st₁, htraverse, hlists, hfuel⟩ := toList_eq_ok.1 ⟨st', hsource⟩
  have hcount : (positions.filterMap fun i => refs[i]?).length < n :=
    calc (positions.filterMap fun i => refs[i]?).length
      _ ≤ positions.length := List.length_filterMap_le ..
      _ ≤ refs.length := length_le_of_places (reach_le refs.length _) (by omega) hplaces
      _ < n := hfuel
  obtain ⟨t', picked, hslice, hpicked, hgets⟩ :=
    lists_sliceOf htraverse hlists hfirst hlast hpositive
  have heq : picked = (positions.filterMap fun i => refs[i]?).map .ok := by
    refine List.ext_getElem? fun j => ?_
    rw [hgets j, List.length_map, List.getElem?_map, List.getElem?_map, getElem?_filterMap hlt,
      hplaces j]
    split <;> simp
  subst heq
  refine ⟨_, map_some_filterMap hlt, toList_eq_ok.2 ⟨t', st₁, hslice, hpicked, ?_⟩,
    toList_selection hsource (Sequence.select_eq hpositions) hcount⟩
  exact Nat.lt_add_right 3 hcount

/-- Every other element of an array of five, between the second and the last. -/
theorem toList_sliceOf_integers :
    ∃ st₁ st₂,
      ((ofFuel 9).toList (sliceOf (.integers 0 5) (some 1) (some 4) 2)).run .empty =
        some (.ok [⟨1⟩, ⟨3⟩], st₁) ∧
      ((ofFuel 6).toList (.selection (some 1) (some 4) 2 (.integers 0 5))).run .empty =
        some (.ok [⟨1⟩, ⟨3⟩], st₂) := by
  have hsource : ((ofFuel 6).toList (.integers 0 5)).run .empty =
      some (.ok [⟨0⟩, ⟨1⟩, ⟨2⟩, ⟨3⟩, ⟨4⟩], _) := rfl
  have hfirst : ∀ b ∈ some (1 : Int64), 0 ≤ b := by
    rintro b ⟨⟩
    decide
  have hlast : ∀ b ∈ some (4 : Int64), 0 ≤ b := by
    rintro b ⟨⟩
    decide
  have hstep : (0 : Int64) < 2 := by decide
  have hpositions : slicePositions 5 (some 1) (some 4) 2 = some [1, 3] := rfl
  obtain ⟨items, hitems, ⟨st₁, hlazy⟩, st₂, hdrained⟩ :=
    toList_sliceOf hsource hfirst hlast hstep hpositions
  obtain rfl : items = [⟨1⟩, ⟨3⟩] := (Option.some_injective _).list_map hitems
  exact ⟨st₁, st₂, hlazy, hdrained⟩

end Runner

end LazyLang
