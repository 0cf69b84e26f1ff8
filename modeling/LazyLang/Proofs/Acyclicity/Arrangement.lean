import Mathlib.Data.List.Nodup
import LazyLang.Proofs.Evaluation.Worlds

/-!
# Lazy values in a row

All lazy values of a store can be put in a row in which each refers only to those before it. While
one is forced, what runs can come across those before it and those that it adds itself, which are
put right before the value being forced. So it never comes across a value that is being forced: a
force that does has any answer one likes, and no run changes (`Simulation.runs_forceAnswering`).
-/

namespace LazyLang

open Filter Likeness

/-- Forces a cell, but gives another answer where it is being forced already. -/
def Runner.forceAnswering (answer : Eval Value) (R : Runner) (r : Ref) : Eval Value := do
  match (← get).cell r with
  | .forcing => answer
  | _ => R.forceCell r

section Answers

variable {R : Runner} {r : Ref} {st : Store}

theorem Runner.forceAnswering_of_forcing (h : st.cell r = .forcing) (answer : Eval Value) :
    (R.forceAnswering answer r).run st = answer.run st := by
  change ((match st.cell r with
    | .forcing => answer
    | _ => R.forceCell r : Eval Value).run st) = _
  rw [h]

theorem Runner.forceAnswering_of_ne (h : st.cell r ≠ .forcing) (answer : Eval Value) :
    (R.forceAnswering answer r).run st = (R.forceCell r).run st := by
  change ((match st.cell r with
    | .forcing => answer
    | _ => R.forceCell r : Eval Value).run st) = _
  cases hr : st.cell r with
  | forcing => exact absurd hr h
  | _ => rfl

end Answers

/-- Lazy values in a row: first those that what is running can come across, then the others. Some of
the others are being forced. -/
structure Arrangement where
  inner : List Ref
  outer : List Ref
  forced : List Ref

namespace Arrangement

variable {A B : Arrangement} {st : Store} {a r : Ref} {s t : List Ref}

/-- The whole row. -/
def row (A : Arrangement) : List Ref := A.inner ++ A.outer

/-- What is running can come across the lazy value. -/
def Related (A : Arrangement) (a b : Ref) : Prop := a = b ∧ a ∈ A.inner

/-- The lazy value stands before `r`. -/
def Before (A : Arrangement) (r a b : Ref) : Prop := a = b ∧ [a, r].Sublist A.row

/-- The row has every lazy value of the store, and each that is not being forced refers only to
those before it. -/
structure Fits (A : Arrangement) (st : Store) : Prop where
  nodup : A.row.Nodup
  mem : ∀ r, r ∈ A.row ↔ r.index < st.cells.size
  forced : A.forced ⊆ A.outer
  ordered : ∀ r ∈ A.row, r ∉ A.forced → (st.cell r).Alike (A.Before r) (st.cell r)

/-- Later, lazy values may have been added that what is running can come across. -/
instance : Preorder Arrangement where
  le A B := A.inner.Sublist B.inner ∧ A.outer = B.outer ∧ A.forced = B.forced
  le_refl A := ⟨.refl A.inner, rfl, rfl⟩
  le_trans _ _ _ h h' := ⟨h.1.trans h'.1, h.2.1.trans h'.2.1, h.2.2.trans h'.2.2⟩

theorem Fits.empty : (⟨[], [], []⟩ : Arrangement).Fits Store.empty where
  nodup := List.nodup_nil
  mem r := by simp [row, Store.empty]
  forced := List.Subset.refl []
  ordered _ hr := absurd hr List.not_mem_nil

theorem Related.mono {b : Ref} (h : A ≤ B) (hab : A.Related a b) : B.Related a b :=
  ⟨hab.1, h.1.subset hab.2⟩

/-- In a row without repetitions the values before `r` are those in front of it. -/
theorem sublist_iff (h : (s ++ r :: t).Nodup) : [a, r].Sublist (s ++ r :: t) ↔ a ∈ s := by
  have hr : r ∉ s ++ t := (List.nodup_cons.1 (List.nodup_middle.1 h)).1
  rw [List.mem_append, not_or] at hr
  constructor
  · intro hsub
    obtain ⟨first, second, heq, hfirst, hsecond⟩ := List.sublist_append_iff.1 hsub
    rcases List.cons_eq_append_iff.1 heq with ⟨-, rfl⟩ | ⟨first, rfl, hrest⟩
    · exact absurd (List.singleton_sublist.1 hsecond.of_cons_cons) hr.2
    · exact hfirst.subset List.mem_cons_self
  · intro ha
    exact (List.singleton_sublist.2 ha).append (List.singleton_sublist.2 List.mem_cons_self)

theorem Fits.sublist_iff (h : A.Fits st) (hrow : A.row = s ++ r :: t) :
    [a, r].Sublist A.row ↔ a ∈ s := by
  have hnodup := h.nodup
  rw [hrow] at hnodup ⊢
  exact Arrangement.sublist_iff hnodup

theorem Fits.not_forced (h : A.Fits st) (hr : r ∈ A.inner) : r ∉ A.forced := fun hforced =>
  List.disjoint_of_nodup_append h.nodup hr (h.forced hforced)

/-- What is running comes across no value that is being forced. -/
theorem Fits.ne_forcing (h : A.Fits st) (hr : r ∈ A.inner) : st.cell r ≠ .forcing :=
  (h.ordered r (List.mem_append_left _ hr) (h.not_forced hr)).ne_forcing

/-- What is running comes from a value only to others that it can come across. -/
theorem Fits.related (h : A.Fits st) (hr : r ∈ A.inner) {b : Ref} (hab : A.Before r a b) :
    A.Related a b := by
  obtain ⟨s, t, hinner⟩ := List.append_of_mem hr
  have hrow : A.row = s ++ r :: (t ++ A.outer) := by simp [row, hinner]
  have ha : a ∈ s := (h.sublist_iff hrow).1 hab.2
  exact ⟨hab.1, by simp [hinner, ha]⟩

/-- A value that what is running can come across refers only to such values. -/
theorem Fits.cell (h : A.Fits st) (hr : r ∈ A.inner) :
    (st.cell r).Alike A.Related (st.cell r) :=
  (h.ordered r (List.mem_append_left _ hr) (h.not_forced hr)).mono fun _ _ => h.related hr

/-- The arrangement with a new value, put after all those that what is running can come across. -/
def add (A : Arrangement) (r : Ref) : Arrangement := ⟨A.inner ++ [r], A.outer, A.forced⟩

theorem le_add (A : Arrangement) (r : Ref) : A ≤ A.add r :=
  ⟨List.sublist_append_left _ _, rfl, rfl⟩

theorem row_add (A : Arrangement) (r : Ref) : (A.add r).row = A.inner ++ r :: A.outer := by
  simp [row, add]

theorem Fits.add (h : A.Fits st) {c : Cell} (hc : c.Alike A.Related c) :
    (A.add (st.add c).1).Fits (st.add c).2 := by
  have hrow := A.row_add (st.add c).1
  have hnew : (st.add c).1 ∉ A.row := fun hmem => Nat.lt_irrefl _ ((h.mem _).1 hmem)
  have hnodup : (A.add (st.add c).1).row.Nodup := by
    rw [hrow, List.nodup_middle]
    exact List.nodup_cons.2 ⟨hnew, h.nodup⟩
  have hsub : A.row.Sublist (A.add (st.add c).1).row := by
    rw [hrow]
    exact (List.Sublist.refl _).append (List.sublist_cons_self _ _)
  have hmem (r : Ref) : r ∈ (A.add (st.add c).1).row ↔ r = (st.add c).1 ∨ r ∈ A.row := by
    rw [hrow, row, List.mem_append, List.mem_cons, List.mem_append, or_left_comm]
  refine ⟨hnodup, fun r => ?_, h.forced, fun r hr hforced => ?_⟩
  · have hlt : r = (st.add c).1 ∨ r.index < st.cells.size ↔ r.index < st.cells.size + 1 := by
      rw [Nat.lt_succ_iff_lt_or_eq, or_comm]
      refine or_congr Iff.rfl ?_
      cases r
      simp [Store.add]
    rw [hmem, h.mem, Store.size_add, hlt]
  · rcases (hmem r).1 hr with rfl | hr
    · rw [Store.cell_add_self]
      refine hc.mono fun a b hab => ⟨hab.1, ?_⟩
      rw [hrow] at hnodup ⊢
      exact (Arrangement.sublist_iff hnodup).2 hab.2
    · rw [Store.cell_add_of_lt ((h.mem r).1 hr)]
      exact (h.ordered r hr hforced).mono fun a b hab => ⟨hab.1, hab.2.trans hsub⟩

/-- While the value after `s` is forced, what runs can come across the values of `s`. -/
def enter (A : Arrangement) (s : List Ref) (r : Ref) (t : List Ref) : Arrangement :=
  ⟨s, r :: t ++ A.outer, r :: A.forced⟩

theorem row_enter (h : A.inner = s ++ r :: t) : (A.enter s r t).row = A.row := by
  simp [row, enter, h]

theorem Fits.enter (h : A.Fits st) (hinner : A.inner = s ++ r :: t) :
    (A.enter s r t).Fits (st.set r .forcing) := by
  have hrow := row_enter hinner
  refine ⟨hrow ▸ h.nodup, fun x => ?_, ?_, fun x hx hforced => ?_⟩
  · rw [hrow, h.mem, Store.size_set]
  · exact List.cons_subset_cons r fun x hx => List.mem_append_right t (h.forced hx)
  · rw [hrow] at hx
    obtain ⟨hne, hforced⟩ := not_or.1 (mt List.mem_cons.2 hforced)
    rw [Store.cell_set_of_ne (Ne.symm hne)]
    refine (h.ordered x hx hforced).mono fun a b hab => ⟨hab.1, ?_⟩
    rw [hrow]
    exact hab.2

/-- After the value has been forced, it stands after all those that its forcing has added. -/
def leave (A : Arrangement) (s : List Ref) (r : Ref) (t : List Ref) : Arrangement :=
  ⟨s ++ r :: t, A.outer, A.forced⟩

theorem le_leave (hinner : A.inner = s ++ r :: t) (hle : A.enter s r t ≤ B) :
    A ≤ A.leave B.inner r t :=
  ⟨hinner ▸ hle.1.append (.refl _), rfl, rfl⟩

theorem Fits.leave (h : A.Fits st) (hinner : A.inner = s ++ r :: t) (hle : A.enter s r t ≤ B)
    {st' : Store} (h' : B.Fits st') {o : Except RuntimeError Value}
    (ho : outcome Value.Alike B.Related o o) : (A.leave B.inner r t).Fits (st'.set r (.done o)) := by
  obtain ⟨-, houter, hforced⟩ := hle
  have hrow : (A.leave B.inner r t).row = B.row := by
    rw [row, row, ← houter]
    simp [Arrangement.leave, Arrangement.enter]
  have hsplit : B.row = B.inner ++ r :: (t ++ A.outer) := by
    rw [row, ← houter]
    simp [Arrangement.enter]
  have hr : r.index < st'.cells.size := (h'.mem r).1 (by simp [hsplit])
  refine ⟨hrow ▸ h'.nodup, fun x => ?_, h.forced, fun x hx hx' => ?_⟩
  · rw [hrow, h'.mem, Store.size_set]
  · by_cases hxr : x = r
    · subst hxr
      rw [Store.cell_set_self hr]
      refine .done (Value.Alike.lawful.outcome.mono (fun a b hab => ⟨hab.1, ?_⟩) ho)
      rw [hrow]
      exact (h'.sublist_iff hsplit).2 hab.2
    · rw [hrow] at hx
      rw [Store.cell_set_of_ne (Ne.symm hxr)]
      have hno : x ∉ B.forced := by
        rw [← hforced]
        exact fun hmem => (List.mem_cons.1 hmem).elim hxr hx'
      refine (h'.ordered x hx hno).mono fun a b hab => ⟨hab.1, ?_⟩
      rw [hrow]
      exact hab.2

end Arrangement

/-- A run in the values of an arrangement, as a simulation of itself. -/
abbrev Simulation.arranged : Simulation where
  World := Arrangement
  order := inferInstance
  related := Arrangement.Related
  related_mono := Arrangement.Related.mono
  stores A st st' := st = st' ∧ A.Fits st
  add := by
    rintro A st _ c c' ⟨rfl, h⟩ hc
    obtain rfl : c = c' := (hc.mono fun _ _ => And.left).eq
    exact ⟨_, A.le_add _, ⟨rfl, h.add hc⟩, rfl, by simp [Arrangement.add]⟩
  note := by
    rintro A st _ e ⟨rfl, h⟩
    exact ⟨A, le_refl A, rfl, ⟨h.nodup, h.mem, h.forced, h.ordered⟩⟩

/-- What follows a run in the same values comes to the same, and leaves them in a row. -/
theorem Arrangement.Fits.follow {α : Type} {L : Likeness α} (hL : L.Lawful) {A : Arrangement}
    {x y : Run α} (hfollows : Simulation.arranged.Follows A L x fun _ => y) {st st' : Store}
    (h : A.Fits st) {a : α} (hrun : x st = some (a, st')) :
    ∃ B, A ≤ B ∧ B.Fits st' ∧ L B.Related a a ∧ y st = some (a, st') := by
  obtain ⟨B, hle, b, _, hy, ⟨rfl, hfits⟩, hab⟩ := hfollows ⟨rfl, h⟩ hrun
  obtain rfl := hL.eq (hL.mono (fun _ _ => And.left) hab)
  exact ⟨B, hle, hfits, hab, eventually_const.1 hy⟩

/-- It makes no difference what a force answers that comes across a value being forced. -/
theorem Simulation.runs_forceAnswering (answer : Eval Value) (n : ℕ) :
    Simulation.arranged.Runs (.ofFuel n) fun _ => .tied (Runner.forceAnswering answer) n := by
  simp only [Runner.ofFuel_eq_tied]
  refine Simulation.runs_tied_of_le (fun {n k} hR A r r' hr => ?_) (.of_forall fun _ => le_refl n)
  rintro st _ o st₁ ⟨rfl, h⟩ hrun
  obtain ⟨rfl, hr⟩ := hr
  have hne := h.ne_forcing hr
  simp only [Runner.forceAnswering_of_ne hne]
  rw [Runner.forceCell_run] at hrun
  cases hcell : st.cell r with
  | forcing => exact absurd hcell hne
  | done outcome =>
      have halike := h.cell hr
      rw [hcell] at hrun halike
      cases hrun
      cases halike with
      | done ho =>
          refine ⟨A, le_refl A, _, _, .of_forall fun m => ?_, ⟨rfl, h⟩, ho⟩
          rw [Runner.forceCell_run, hcell]
  | pending thunk =>
      have hordered := h.ordered r (List.mem_append_left _ hr) (h.not_forced hr)
      rw [hcell] at hrun hordered
      obtain ⟨⟨o, st'⟩, hthunk, heq⟩ := Option.map_eq_some_iff.1 hrun
      cases heq
      cases hordered with
      | pending hbefore =>
          obtain ⟨s, t, hinner⟩ := List.append_of_mem hr
          have hrow : A.row = s ++ r :: (t ++ A.outer) := by simp [Arrangement.row, hinner]
          have hrelated : thunk.Alike (A.enter s r t).Related thunk :=
            Thunk.Alike.lawful.mono
              (fun _ _ hab => ⟨hab.1, (h.sublist_iff hrow).1 hab.2⟩) hbefore
          obtain ⟨B, hle, o', _, hfollows, ⟨rfl, h'⟩, ho⟩ :=
            hR.runThunk hrelated ⟨rfl, h.enter hinner⟩ hthunk
          obtain rfl := Value.Alike.lawful.outcome.eq
            (Value.Alike.lawful.outcome.mono (fun _ _ => And.left) ho)
          refine ⟨A.leave B.inner r t, Arrangement.le_leave hinner hle, o, _, ?_,
            ⟨rfl, h.leave hinner hle h' ho⟩, ?_⟩
          · refine hfollows.mono fun m hm => ?_
            rw [Runner.forceCell_run, hcell]
            exact Option.map_eq_some_iff.2 ⟨_, hm, rfl⟩
          · exact Value.Alike.lawful.outcome.mono
              (fun _ _ hab => ⟨hab.1, List.mem_append_left _ hab.2⟩) ho

end LazyLang
