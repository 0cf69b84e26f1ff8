import Mathlib.Logic.Relation
import Mathlib.Order.Defs.PartialOrder
import LazyLang.Proofs.Evaluation.Simulation.Fuel

/-!
# Worlds

A world is a store together with the cells that are being forced, the innermost first, each with the
store in which its forcing began. Worlds grow later as a program runs: a cell is added, an event is
noted, the forcing of a pending cell begins, or the innermost one ends with what the computation of
its cell has come to. Every run of a program leads to a later world with the same cells being
forced, and more fuel does not change what a run comes to.

What is done stays done. A pending cell is still pending in a later world, or it is being forced, or
it is done with the outcome that its computation had in some world in between.
-/

namespace LazyLang

/-- The store grew by new cells, none of which is being forced, and by events. -/
inductive Store.Grown : Store → Store → Prop
  | refl (st : Store) : Grown st st
  | add {st st' : Store} (h : Grown st st') (c : Cell) (hc : c ≠ .forcing) : Grown st (st'.add c).2
  | note {st st' : Store} (h : Grown st st') (e : Event) : Grown st (st'.note e)

theorem Store.Grown.trans {st st' st'' : Store} (h : Grown st st') (h' : Grown st' st'') :
    Grown st st'' := by
  induction h' with
  | refl => exact h
  | add _ c hc ih => exact ih.add c hc
  | note _ e ih => exact ih.note e

mutual

/-- Suspending an expression only adds cells. -/
theorem Expr.suspend_grown (scope : ValueScope) :
    (e : TypedExpr) → (st : Store) → Store.Grown st (e.suspend scope st).2
  | .identifier _ name, st => by
      rw [Expr.suspend]
      cases scope.get? name with
      | none => exact (Store.Grown.refl st).add _ fun h => Cell.noConfusion h
      | some r => exact .refl st
  | .integer _ _, st | .float _ _, st | .string _ _, st | .boolean _ _, st | .none _, st
  | .array _ _, st | .unrecognized _ _, st => by
      rw [Expr.suspend]
      exact (Store.Grown.refl st).add _ fun h => Cell.noConfusion h
  | .call _ callee args, st => by
      rw [Expr.suspend]
      exact ((callee.suspend_grown scope st).trans (Expr.suspendArgs_grown scope args _)).add _
        fun h => Cell.noConfusion h

theorem Expr.suspendArgs_grown (scope : ValueScope) :
    (args : List (Option TypedExpr)) → (st : Store) →
      Store.Grown st (Expr.suspendArgs scope args st).2
  | [], st => .refl st
  | Option.none :: rest, st => by
      rw [Expr.suspendArgs]
      exact Expr.suspendArgs_grown scope rest st
  | some e :: rest, st => by
      rw [Expr.suspendArgs]
      exact (e.suspend_grown scope st).trans (Expr.suspendArgs_grown scope rest _)

end

/-- What forcing a cell does. -/
theorem Runner.forceCell_run (R : Runner) (r : Ref) (st : Store) :
    (R.forceCell r).run st =
      match st.cell r with
      | .done outcome => some (outcome, st)
      | .forcing => some (.error .cyclicEvaluation, st)
      | .pending thunk =>
        ((thunk.run R).run (st.set r .forcing)).map fun (outcome, st') =>
          (outcome, st'.set r (.done outcome)) := by
  change ((match st.cell r with
      | .done outcome => (liftM outcome : Eval Value)
      | .forcing => throw .cyclicEvaluation
      | .pending thunk => do
        ExceptT.lift (Run.set r .forcing)
        let outcome ← ExceptT.lift (thunk.run R).run
        ExceptT.lift (Run.set r (.done outcome))
        liftM outcome : Eval Value).run st) = _
  cases st.cell r with
  | done outcome => rfl
  | forcing => rfl
  | pending thunk =>
      dsimp only
      generalize (thunk.run R).run = x
      change Option.bind
        (Option.bind (x (st.set r .forcing)) fun p => some (Except.ok p.1, p.2)) _ =
          (x (st.set r .forcing)).map _
      cases x (st.set r .forcing) with
      | none => rfl
      | some p => rfl

/-- A store and the cells that are being forced, each with the store in which that began. -/
structure World where
  store : Store
  frames : List (Ref × Store)

namespace World

/-- What can happen next to the store while a program runs. -/
inductive Step : World → World → Prop
  | add (st : Store) (fs : List (Ref × Store)) (c : Cell) (hc : c ≠ .forcing) :
      Step ⟨st, fs⟩ ⟨(st.add c).2, fs⟩
  | note (st : Store) (fs : List (Ref × Store)) (e : Event) : Step ⟨st, fs⟩ ⟨st.note e, fs⟩
  | enter {st : Store} {r : Ref} {thunk : Thunk} (fs : List (Ref × Store))
      (h : st.cell r = .pending thunk) : Step ⟨st, fs⟩ ⟨st.set r .forcing, (r, st) :: fs⟩
  | leave {start st : Store} {r : Ref} {thunk : Thunk} {fuel : Nat}
      {outcome : Except RuntimeError Value} (fs : List (Ref × Store))
      (h : start.cell r = .pending thunk)
      (hrun : (thunk.run (.ofFuel fuel)).run (start.set r .forcing) = some (outcome, st))
      (hr : st.cell r = .forcing) : Step ⟨st, (r, start) :: fs⟩ ⟨st.set r (.done outcome), fs⟩

/-- One world is later than another if some steps lead there. -/
instance : Preorder World where
  le := Relation.ReflTransGen Step
  le_refl _ := .refl
  le_trans _ _ _ := .trans

theorem Step.le {w w' : World} (h : Step w w') : w ≤ w' := .single h

theorem le_of_grown {st st' : Store} (h : Store.Grown st st') (fs : List (Ref × Store)) :
    (⟨st, fs⟩ : World) ≤ ⟨st', fs⟩ := by
  induction h with
  | refl => exact le_refl _
  | add _ c hc ih => exact ih.trans (Step.add _ fs c hc).le
  | note _ e ih => exact ih.trans (Step.note _ fs e).le

end World

theorem Store.cell_of_size_le {st : Store} {r : Ref} (h : st.cells.size ≤ r.index) :
    st.cell r = .done (.error .unrecognized) := by
  rw [Store.cell, Array.getD_eq_getD_getElem?, Array.getElem?_eq_none h]
  rfl

theorem Store.lt_size_of_cell {st : Store} {r : Ref}
    (h : ∀ outcome, st.cell r ≠ .done outcome) : r.index < st.cells.size :=
  Nat.lt_of_not_le fun hr => h (.error .unrecognized) (Store.cell_of_size_le hr)

theorem Store.lt_size_of_value {st : Store} {r : Ref} {v : Value}
    (h : st.cell r = .done (.ok v)) : r.index < st.cells.size := by
  refine Nat.lt_of_not_le fun hr => ?_
  cases h.symm.trans (Store.cell_of_size_le hr)

theorem Store.size_add (st : Store) (c : Cell) :
    (st.add c).2.cells.size = st.cells.size + 1 := by
  simp only [Store.add, Array.size_push]

theorem Store.size_set (st : Store) (r : Ref) (c : Cell) :
    (st.set r c).cells.size = st.cells.size := by
  simp only [Store.set, Array.size_setIfInBounds]

theorem Store.forcing_of_grown {st st' : Store} (h : Store.Grown st st') {r : Ref}
    (hr : st.cell r = .forcing) : st'.cell r = .forcing := by
  induction h with
  | refl => exact hr
  | add _ c _ ih =>
      have hlt := Store.lt_size_of_cell fun o h => Cell.noConfusion (ih.symm.trans h)
      rw [Store.cell_add_of_lt hlt, ih]
  | note _ e ih => exact ih

/-- Stores in the order in which a run leads from one to another: to a later world, while the cells
that are being forced stay as they are. -/
abbrev Store.evolution : Preorder Store where
  le st st' := (∀ fs, (⟨st, fs⟩ : World) ≤ ⟨st', fs⟩) ∧
    ∀ r, st.cell r = .forcing → st'.cell r = .forcing
  le_refl _ := ⟨fun _ => le_refl _, fun _ => id⟩
  le_trans _ _ _ h h' := ⟨fun fs => (h.1 fs).trans (h'.1 fs), fun r hr => h'.2 r (h.2 r hr)⟩

/-- The cells that are being forced stay as they are when a pending one is forced. -/
theorem Store.evolution_forced {st st' : Store} {r : Ref} {thunk : Thunk} {fuel : ℕ}
    {o : Except RuntimeError Value} (hr : st.cell r = .pending thunk)
    (hrun : (thunk.run (.ofFuel fuel)).run (st.set r .forcing) = some (o, st'))
    (h : Store.evolution.le (st.set r .forcing) st') :
    Store.evolution.le st (st'.set r (.done o)) := by
  have hlt := Store.lt_size_of_cell fun o h => Cell.noConfusion (hr.symm.trans h)
  have hforcing : st'.cell r = .forcing := h.2 r (Store.cell_set_self hlt .forcing)
  refine ⟨fun fs => ?_, fun s hs => ?_⟩
  · calc (⟨st, fs⟩ : World)
      _ ≤ ⟨st.set r .forcing, (r, st) :: fs⟩ := (World.Step.enter fs hr).le
      _ ≤ ⟨st', (r, st) :: fs⟩ := h.1 _
      _ ≤ ⟨st'.set r (.done o), fs⟩ := (World.Step.leave fs hr hrun hforcing).le
  · have hne : r ≠ s := fun h => Cell.noConfusion (hr.symm.trans (h ▸ hs))
    rw [Store.cell_set_of_ne hne]
    apply h.2
    rw [Store.cell_set_of_ne hne, hs]

/-- A run as a simulation of itself. -/
abbrev Simulation.evolution : Simulation :=
  .diagonal Store.evolution
    (fun st c hc =>
      have hgrown := (Store.Grown.refl st).add c hc
      ⟨World.le_of_grown hgrown, fun _ => Store.forcing_of_grown hgrown⟩)
    (fun st e =>
      have hgrown := (Store.Grown.refl st).note e
      ⟨World.le_of_grown hgrown, fun _ => Store.forcing_of_grown hgrown⟩)

/-- A run comes to the same with more fuel, and leads to a later world. -/
theorem Runner.evolves_ofFuel {n m : ℕ} (h : n ≤ m) :
    Simulation.evolution.Runs (.ofFuel n) fun _ => .ofFuel m := by
  simp only [Runner.ofFuel_eq_tied]
  refine Simulation.runs_tied_of_le (fun {n k} hR w r s hr => ?_) (.of_forall fun _ => h)
  rintro _ st o st₁ ⟨rfl, rfl⟩ hrun
  cases hr
  cases hcell : st.cell r with
  | pending thunk =>
      rw [Runner.forceCell_run, hcell] at hrun
      obtain ⟨⟨o, st'⟩, hthunk, heq⟩ := Option.map_eq_some_iff.1 hrun
      cases heq
      obtain ⟨_, hw, o', st₁, hfollows, ⟨rfl, rfl⟩, ho⟩ :=
        hR.runThunk (w := st.set r .forcing) (Thunk.Alike.lawful.refl thunk) ⟨rfl, rfl⟩ hthunk
      rw [← Runner.ofFuel_eq_tied] at hthunk
      refine ⟨_, Store.evolution_forced hcell hthunk hw, o', _, ?_, ⟨rfl, rfl⟩, ho⟩
      refine hfollows.mono fun m hm => (Runner.forceCell_run _ _ _).trans ?_
      rw [hcell]
      exact Option.map_eq_some_iff.2 ⟨_, hm, by rw [Value.Alike.lawful.outcome.eq ho]⟩

  | _ =>
      rw [Runner.forceCell_run, hcell] at hrun
      cases hrun
      exact ⟨st, Store.evolution.le_refl st, _, st,
        .of_forall fun m => (Runner.forceCell_run _ _ _).trans (by rw [hcell]), ⟨rfl, rfl⟩,
        Value.Alike.lawful.outcome.refl _⟩

theorem Thunk.run_evolves {thunk : Thunk} {fuel : ℕ} {st st' : Store}
    {o : Except RuntimeError Value} (hrun : (thunk.run (.ofFuel fuel)).run st = some (o, st')) :
    Store.evolution.le st st' := by
  have hruns := Runner.evolves_ofFuel (le_refl fuel)
  have hfollows := hruns.runThunk (w := st) (Thunk.Alike.lawful.refl thunk)
  exact (hfollows.run_eq Value.Alike.lawful hrun).2

namespace World

theorem lt_size_of_le {w w' : World} (h : w ≤ w') {r : Ref}
    (hlt : r.index < w.store.cells.size) : r.index < w'.store.cells.size := by
  induction h with
  | refl => exact hlt
  | tail _ hstep ih =>
      cases hstep with
      | add st fs c hc =>
          rw [Store.size_add]
          exact Nat.lt_succ_of_lt ih
      | note => exact ih
      | enter fs hs => rwa [Store.size_set]
      | leave fs hs hrun hforcing => rwa [Store.size_set]

/-- What is done stays done. -/
theorem done_of_le {w w' : World} (h : w ≤ w') {r : Ref} {outcome : Except RuntimeError Value}
    (hlt : r.index < w.store.cells.size) (hr : w.store.cell r = .done outcome) :
    w'.store.cell r = .done outcome := by
  induction h with
  | refl => exact hr
  | tail hle hstep ih =>
      have hlt := lt_size_of_le hle hlt
      cases hstep with
      | add st fs c hc => exact (Store.cell_add_of_lt hlt c).trans ih
      | note => exact ih
      | @enter st s thunk fs hs =>
          have hne : s ≠ r := by
            rintro rfl
            exact Cell.noConfusion (hs.symm.trans ih)
          rwa [Store.cell_set_of_ne hne]
      | @leave start st s thunk fuel o fs hs hrun hforcing =>
          have hne : s ≠ r := by
            rintro rfl
            exact Cell.noConfusion (hforcing.symm.trans ih)
          rwa [Store.cell_set_of_ne hne]

/-- What has become of a cell that was pending in the world `w`: it still is, or its forcing began
in a later world and is going on, or it is done with the outcome that its computation had. -/
inductive Fate (w : World) (r : Ref) (thunk : Thunk) (w' : World) : Prop
  | pending (h : w'.store.cell r = .pending thunk)
  | forcing (start : Store) (above below : List (Ref × Store))
      (hr : w'.store.cell r = .forcing) (hframes : w'.frames = above ++ (r, start) :: below)
      (habove : ∀ frame ∈ above, frame.1 ≠ r) (hpending : start.cell r = .pending thunk)
      (hstart : w ≤ ⟨start, below⟩)
  | done (start st : Store) (below : List (Ref × Store)) (fuel : Nat)
      (outcome : Except RuntimeError Value) (hr : w'.store.cell r = .done outcome)
      (hpending : start.cell r = .pending thunk) (hstart : w ≤ ⟨start, below⟩)
      (hrun : (thunk.run (.ofFuel fuel)).run (start.set r .forcing) = some (outcome, st))
      (hend : (⟨st.set r (.done outcome), below⟩ : World) ≤ w')

theorem Fate.step {w w₁ w₂ : World} {r : Ref} {thunk : Thunk} (h : Fate w r thunk w₁)
    (hle : w ≤ w₁) (hstep : Step w₁ w₂) (hlt : r.index < w₁.store.cells.size) :
    Fate w r thunk w₂ := by
  cases h with
  | pending hr =>
      cases hstep with
      | add st fs c hc => exact .pending ((Store.cell_add_of_lt hlt c).trans hr)
      | note => exact .pending hr
      | @enter st s thunk' fs hs =>
          by_cases hsr : s = r
          · subst hsr
            have hlt : s.index < st.cells.size := hlt
            exact .forcing st [] fs (Store.cell_set_self hlt _) rfl (by simp) hr hle
          · exact .pending ((Store.cell_set_of_ne hsr _ _).trans hr)
      | @leave start st s thunk' fuel o fs hs hrun hforcing =>
          have hne : s ≠ r := by
            rintro rfl
            exact Cell.noConfusion (hforcing.symm.trans hr)
          exact .pending ((Store.cell_set_of_ne hne _ _).trans hr)
  | forcing start above below hr hframes habove hpending hstart =>
      cases hstep with
      | add st fs c hc =>
          exact .forcing start above below ((Store.cell_add_of_lt hlt c).trans hr) hframes habove
            hpending hstart
      | note => exact .forcing start above below hr hframes habove hpending hstart
      | @enter st s thunk' fs hs =>
          have hne : s ≠ r := by
            rintro rfl
            exact Cell.noConfusion (hs.symm.trans hr)
          refine .forcing start ((s, st) :: above) below ((Store.cell_set_of_ne hne _ _).trans hr)
            (congrArg _ hframes) ?_ hpending hstart
          intro frame hframe
          rcases List.mem_cons.mp hframe with rfl | hframe
          · exact hne
          · exact habove frame hframe
      | @leave start' st s thunk' fuel o fs hs hrun hforcing =>
          cases above with
          | nil =>
              obtain ⟨heq, rfl⟩ := List.cons.inj hframes
              cases heq
              have hlt : r.index < st.cells.size := hlt
              have hthunk : thunk' = thunk := Cell.pending.inj (hs.symm.trans hpending)
              subst hthunk
              exact .done start st fs fuel o (Store.cell_set_self hlt _) hpending hstart hrun
                (le_refl _)
          | cons frame above =>
              obtain ⟨heq, hrest⟩ := List.cons.inj hframes
              have hne : s ≠ r := by
                have := habove frame (List.mem_cons_self ..)
                rwa [← heq] at this
              exact .forcing start above below ((Store.cell_set_of_ne hne _ _).trans hr) hrest
                (fun f hf => habove f (List.mem_cons_of_mem _ hf)) hpending hstart
  | done start st below fuel outcome hr hpending hstart hrun hend =>
      exact .done start st below fuel outcome (done_of_le hstep.le hlt hr) hpending hstart hrun
        (hend.trans hstep.le)

/-- What becomes of a pending cell. -/
theorem fate_of_le {w w' : World} (h : w ≤ w') {r : Ref} {thunk : Thunk}
    (hr : w.store.cell r = .pending thunk) : Fate w r thunk w' := by
  have hlt := Store.lt_size_of_cell fun o h => Cell.noConfusion (hr.symm.trans h)
  induction h with
  | refl => exact .pending hr
  | tail hle hstep ih => exact ih.step hle hstep (lt_size_of_le hle hlt)

end World

end LazyLang
