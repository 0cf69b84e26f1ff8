import LazyLang.Proofs.Evaluation.Worlds
import LazyLang.Proofs.Memoization.History

/-!
# Evaluation with memoization agrees with evaluation by name

Where a history explains a store, what evaluation comes to in it is what a run by name comes to in
its own store, and the other way around. So it does not matter which of the cells are done already.
-/

namespace LazyLang

open Filter Likeness

namespace Simulation

variable {H : History} {st names : Store} {r s : Ref}

/-- Evaluation with memoization next to a run by name. -/
abbrev named : Simulation where
  World := History
  order := inferInstance
  related := History.Related
  related_mono hw h := h.mono hw
  stores := History.Explains
  add := fun {H _ _ c c'} h hc => ⟨H.add c c', H.le_add c c', (h.add hc).1, (h.add hc).2⟩
  note := fun {H _ names} e h =>
    ⟨H.rename (names.note e), H.le_rename (h.names ▸ .note names e), h.rename rfl (.note names e)⟩

/-- The same simulation the other way around. -/
abbrev flip (S : Simulation) : Simulation where
  World := S.World
  order := S.order
  related w r s := S.related w s r
  related_mono hw h := S.related_mono hw h
  stores w st st' := S.stores w st' st
  add h hc := S.add h (hc.flip fun _ _ h => h)
  note e h := S.note e h

/-- A run by name follows the forcing of a cell with memoization. -/
theorem Runs.forceCell_named {n : ℕ} {k : ℕ → ℕ} (hk : Tendsto k atTop atTop)
    (h : named.Runs (.tied Runner.forceCell n) fun m => .byName (k m)) (hr : H.Related r s) :
    named.FollowsEval H Value.Alike ((Runner.tied Runner.forceCell n).forceCell r) fun m =>
      (Runner.byName (k m)).rerun s := by
  intro st names o st₁ hst hrun
  rw [Runner.forceCell_run] at hrun
  cases hcell : st.cell r with
  | pending thunk =>
      rw [hcell] at hrun
      obtain ⟨⟨o, st₁⟩, hthunk, heq⟩ := Option.map_eq_some_iff.1 hrun
      cases heq
      obtain ⟨thunk', hs, halike⟩ := hst.thunk hr hcell
      have hentered : thunk.Alike (named.related (H.enter r)) thunk' := halike
      obtain ⟨H', hH', o', names', hfollows, hst', ho⟩ :=
        h.runThunk hentered (hst.enter hr) hthunk
      have hforce : ∀ᶠ m in atTop, ((Runner.byName (k m)).rerun s).run names = some (o', names') :=
        hfollows.mono fun m hm => (Runner.rerun_of_pending _ hs).trans hm
      -- one of these runs by name is what the history keeps for the outcome
      obtain ⟨m, hm⟩ := hforce.exists
      rw [← Runner.byName_succ_force] at hm
      obtain ⟨hleave, ho⟩ := hst.leave hr hH' hst' ho hm
      exact ⟨H'.leave H, History.le_leave hr hH', o', names', hforce, hleave, ho⟩
  | forcing => exact absurd hcell (hst.ne_forcing hr)
  | done outcome =>
      rw [hcell] at hrun
      cases hrun
      obtain ⟨o', names', hforce, hH', hst', ho⟩ := hst.done hr hcell
      exact ⟨_, hH', o', names', hk.eventually hforce, hst', ho⟩

/-- Forcing a cell with memoization follows a run by name. -/
theorem Runs.rerun_named {n : ℕ} {k : ℕ → ℕ}
    (h : named.flip.Runs (.byName n) fun m => .tied Runner.forceCell (k m))
    (hr : H.Related r s) :
    named.flip.FollowsEval H Value.Alike ((Runner.byName n).rerun s) fun m =>
      (Runner.tied Runner.forceCell (k m)).forceCell r := by
  intro names st o' names₁ hst hrun
  cases hcell : st.cell r with
  | pending thunk =>
      obtain ⟨thunk', hs, halike⟩ := hst.thunk hr hcell
      have hthunk := (Runner.rerun_of_pending _ hs).symm.trans hrun
      rw [← Runner.byName_succ_force] at hrun
      have hentered : thunk'.Alike (named.flip.related (H.enter r)) thunk :=
        Thunk.Alike.lawful.flip (fun _ _ h => h) halike
      obtain ⟨H', hH', o, st', hfollows, hst', ho⟩ :=
        h.runThunk hentered (hst.enter hr) hthunk
      have ho := Value.Alike.lawful.outcome.flip (fun _ _ h => h) ho
      obtain ⟨hleave, ho⟩ := hst.leave hr hH' hst' ho hrun
      refine ⟨H'.leave H, History.le_leave hr hH', o, st'.set r (.done o), ?_, hleave,
        Value.Alike.lawful.outcome.flip (fun _ _ h => h) ho⟩
      refine hfollows.mono fun m hm => (Runner.forceCell_run _ _ _).trans ?_
      rw [hcell]
      exact Option.map_eq_some_iff.2 ⟨_, hm, rfl⟩
  | forcing => exact absurd hcell (hst.ne_forcing hr)
  | done o =>
      -- the run by name at hand and those that the history knows of come to the same
      obtain ⟨o₂, names₂, hforce, hH', hst', ho⟩ := hst.done hr hcell
      obtain ⟨m, hm, hnm⟩ := (hforce.and (eventually_ge_atTop n)).exists
      rw [← Runner.byName_succ_force] at hrun hm
      have hrun := Runner.byName_force_mono (Nat.succ_le_succ hnm) hrun
      obtain ⟨rfl, rfl⟩ := Prod.mk.inj (Option.some.inj (hrun.symm.trans hm))
      refine ⟨_, hH', o, st, .of_forall fun m => ?_, hst',
        Value.Alike.lawful.outcome.flip (fun _ _ h => h) ho⟩
      exact (Runner.forceCell_run _ _ _).trans (by rw [hcell])

/-- Runs by name follow evaluation. -/
theorem runs_named (n : ℕ) : named.Runs (.ofFuel n) Runner.byName := by
  rw [Runner.ofFuel_eq_tied]
  refine runs_tied (K := fun _ k => Tendsto k atTop atTop) (fun hk => hk.eventually_ge_atTop _)
    ?_ (fun hk h _ _ _ hr => Runs.forceCell_named hk h hr) tendsto_id
  exact fun hk => (tendsto_sub_atTop_nat 1).comp hk

/-- Evaluation follows runs by name. -/
theorem runs_named_flip (n : ℕ) : named.flip.Runs (.byName n) Runner.ofFuel := by
  rw [show Runner.ofFuel = Runner.tied Runner.forceCell from funext Runner.ofFuel_eq_tied]
  exact runs_tied_of_le (fun h _ _ _ hr => Runs.rerun_named h hr) (eventually_ge_atTop n)

end Simulation

/-- Forcing and stripping the lazy value ends in the outcome, for some amount of fuel. -/
def Store.StripsTo (st : Store) (limit : Option ℕ) (r : Ref)
    (outcome : Except RuntimeError (Option Plain)) : Prop :=
  ∃ fuel st', ((Runner.ofFuel fuel).stripRef limit r).run st = some (outcome, st')

/-- The same for a run by name. -/
def Store.StripsByName (st : Store) (limit : Option ℕ) (r : Ref)
    (outcome : Except RuntimeError (Option Plain)) : Prop :=
  ∃ fuel st', ((Runner.byName fuel).stripRef limit r).run st = some (outcome, st')

variable {limit : Option ℕ} {outcome : Except RuntimeError (Option Plain)}

/-- Stripping a lazy value with memoization and by name end alike. -/
theorem History.Explains.stripsTo_iff {H : History} {st names : Store} {r s : Ref}
    (h : H.Explains st names) (hr : H.Related r s) :
    st.StripsTo limit r outcome ↔ names.StripsByName limit s outcome :=
  ⟨fun ⟨n, _, hrun⟩ => ((Simulation.runs_named n).stripRef limit hr).ends h hrun,
    fun ⟨n, _, hrun⟩ => ((Simulation.runs_named_flip n).stripRef limit hr).ends h hrun⟩

/-- Stripping bisimilar lazy values by name ends alike. -/
theorem Bisimilar.stripsByName {st st' : Store} {r s : Ref}
    (h : Bisimilar Ref.Unordered st st' r s) (hst : st.StripsByName limit r outcome) :
    st'.StripsByName limit s outcome := by
  obtain ⟨n, _, hrun⟩ := hst
  have hruns := Simulation.runs_byName_bisimilar (k := id) (eventually_ge_atTop n)
  exact (hruns.stripRef (w := (st, st')) limit h).ends ⟨rfl, rfl⟩ hrun

/-- Stripping counterparts of the same cell by name ends alike. -/
theorem Past.Named.stripsByName_iff {P : Past} {names names' : Store} {r s s' : Ref}
    (h : P.Named names r s) (h' : P.Named names' r s') :
    names.StripsByName limit s outcome ↔ names'.StripsByName limit s' outcome :=
  ⟨(h.flip.trans h').stripsByName, (h'.flip.trans h).stripsByName⟩

/-- A store strips a lazy value to one outcome at most. -/
theorem Store.StripsTo.unique {st : Store} {r : Ref} {outcome' : Except RuntimeError (Option Plain)}
    (h : st.StripsTo limit r outcome) (h' : st.StripsTo limit r outcome') : outcome = outcome' := by
  obtain ⟨n, st₁, hrun⟩ := h
  obtain ⟨n', st₁', hrun'⟩ := h'
  have hmore := ((Runner.evolves_ofFuel (le_max_left n n')).stripRef (w := st) limit rfl).run_eq
    lawful_plain hrun
  have hmore' := ((Runner.evolves_ofFuel (le_max_right n n')).stripRef (w := st) limit rfl).run_eq
    lawful_plain hrun'
  exact (Prod.mk.inj (Option.some.inj (hmore.1.symm.trans hmore'.1))).1

end LazyLang
