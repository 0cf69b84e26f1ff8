import LazyLang.Proofs.Evaluation.Simulation.Fuel

/-!
# Evaluation by name

A runner by name computes the outcome of a lazy value anew each time it is forced, so that its
stores only ever grow. Two references are bisimilar if what their cells hold is alike, with
bisimilar references in turn; what a runner by name makes of the one it also makes of the other.
-/

namespace LazyLang

open Filter Likeness

namespace Runner

/-- Forces a lazy value without keeping its outcome. -/
def rerun (R : Runner) (r : Ref) : Eval Value := do
  match (← get).cell r with
  | .done outcome => outcome
  | .forcing => throw .cyclicEvaluation
  | .pending thunk => thunk.run R

/-- The runner by name with the given fuel. -/
abbrev byName : ℕ → Runner := tied rerun

theorem byName_succ_force (fuel : ℕ) : (byName (fuel + 1)).force = (byName fuel).rerun := rfl

variable (R : Runner) {r : Ref} {st : Store}

theorem rerun_of_pending {thunk : Thunk} (h : st.cell r = .pending thunk) :
    (R.rerun r).run st = (thunk.run R).run st := by
  change ((match st.cell r with
      | .done outcome => (liftM outcome : Eval Value)
      | .forcing => throw .cyclicEvaluation
      | .pending thunk => thunk.run R : Eval Value).run st) = _
  rw [h]

theorem rerun_of_done {o : Except RuntimeError Value} (h : st.cell r = .done o) :
    (R.rerun r).run st = some (o, st) := by
  change ((match st.cell r with
      | .done outcome => (liftM outcome : Eval Value)
      | .forcing => throw .cyclicEvaluation
      | .pending thunk => thunk.run R : Eval Value).run st) = _
  rw [h]
  rfl

theorem rerun_of_forcing (h : st.cell r = .forcing) :
    (R.rerun r).run st = some (.error .cyclicEvaluation, st) := by
  change ((match st.cell r with
      | .done outcome => (liftM outcome : Eval Value)
      | .forcing => throw .cyclicEvaluation
      | .pending thunk => thunk.run R : Eval Value).run st) = _
  rw [h]
  rfl

end Runner

namespace Store

/-- The first store with further cells. -/
def Extends (st st' : Store) : Prop :=
  st.cells.size ≤ st'.cells.size ∧ ∀ r : Ref, r.index < st.cells.size → st'.cell r = st.cell r

namespace Extends

variable {st st' st'' : Store}

theorem refl (st : Store) : Extends st st := ⟨le_refl _, fun _ _ => rfl⟩

theorem trans (h : Extends st st') (h' : Extends st' st'') : Extends st st'' :=
  ⟨h.1.trans h'.1, fun r hr => (h'.2 r (hr.trans_le h.1)).trans (h.2 r hr)⟩

theorem add (st : Store) (c : Cell) : Extends st (st.add c).2 :=
  ⟨by simp only [Store.add, Array.size_push, Nat.le_succ], fun _ hr => cell_add_of_lt hr c⟩

theorem note (st : Store) (e : Event) : Extends st (st.note e) := refl st

theorem lt_size (h : Extends st st') {r : Ref} (hr : r.index < st.cells.size) :
    r.index < st'.cells.size := hr.trans_le h.1

end Extends

/-- Stores in the order in which cells are added to them. -/
abbrev extension : Preorder Store where
  le := Extends
  le_refl := .refl
  le_trans _ _ _ := .trans

end Store

/-- A relation between the references of two stores under which what their cells hold is alike. The
references in the cell of `r` in the first store are below `r`. -/
structure Bisimulation (below : Ref → Ref → Prop) (st st' : Store) (ρ : Ref → Ref → Prop) :
    Prop where
  lt_left : ∀ ⦃r s⦄, ρ r s → r.index < st.cells.size
  lt_right : ∀ ⦃r s⦄, ρ r s → s.index < st'.cells.size
  cell : ∀ ⦃r s⦄, ρ r s → (st.cell r).Alike (fun a b => ρ a b ∧ below a r) (st'.cell s)

/-- Two references are bisimilar if some bisimulation relates them. -/
def Bisimilar (below : Ref → Ref → Prop) (st st' : Store) (r s : Ref) : Prop :=
  ∃ ρ, Bisimulation below st st' ρ ∧ ρ r s

/-- No reference is required to be below another. -/
abbrev Ref.Unordered : Ref → Ref → Prop := fun _ _ => True

namespace Bisimilar

variable {below below' : Ref → Ref → Prop} {st st' st₁ st₁' st'' : Store} {r s t : Ref}

/-- Bisimilarity is itself a bisimulation. -/
theorem bisimulation (below : Ref → Ref → Prop) (st st' : Store) :
    Bisimulation below st st' (Bisimilar below st st') where
  lt_left _ _ := fun ⟨_, hρ, hr⟩ => hρ.lt_left hr
  lt_right _ _ := fun ⟨_, hρ, hr⟩ => hρ.lt_right hr
  cell _ _ := fun ⟨ρ, hρ, hr⟩ => (hρ.cell hr).mono fun _ _ h => ⟨⟨ρ, hρ, h.1⟩, h.2⟩

theorem lt_left (h : Bisimilar below st st' r s) : r.index < st.cells.size :=
  (bisimulation below st st').lt_left h

theorem lt_right (h : Bisimilar below st st' r s) : s.index < st'.cells.size :=
  (bisimulation below st st').lt_right h

theorem cell (h : Bisimilar below st st' r s) :
    (st.cell r).Alike (fun a b => Bisimilar below st st' a b ∧ below a r) (st'.cell s) :=
  (bisimulation below st st').cell h

/-- References are bisimilar if what their cells hold is alike. -/
theorem of_cell (hr : r.index < st.cells.size) (hs : s.index < st'.cells.size)
    (h : (st.cell r).Alike (fun a b => Bisimilar below st st' a b ∧ below a r) (st'.cell s)) :
    Bisimilar below st st' r s := by
  -- the largest bisimulation together with the one new pair
  refine ⟨fun a b => Bisimilar below st st' a b ∨ a = r ∧ b = s, ⟨?_, ?_, ?_⟩, .inr ⟨rfl, rfl⟩⟩
  · rintro a b (hab | ⟨rfl, rfl⟩)
    · exact hab.lt_left
    · exact hr
  · rintro a b (hab | ⟨rfl, rfl⟩)
    · exact hab.lt_right
    · exact hs
  · rintro a b (hab | ⟨rfl, rfl⟩)
    · exact hab.cell.mono fun _ _ h => ⟨.inl h.1, h.2⟩
    · exact h.mono fun _ _ h => ⟨.inl h.1, h.2⟩

/-- Bisimilar references stay so in stores with further cells. -/
theorem mono (h : Bisimilar below st st' r s) (hst : st.Extends st₁) (hst' : st'.Extends st₁')
    (hbelow : ∀ ⦃a b : Ref⦄, a.index < st.cells.size → b.index < st.cells.size → below a b →
      below' a b) :
    Bisimilar below' st₁ st₁' r s := by
  refine ⟨Bisimilar below st st', ⟨?_, ?_, ?_⟩, h⟩
  · exact fun _ _ h => hst.lt_size h.lt_left
  · exact fun _ _ h => hst'.lt_size h.lt_right
  · intro a b hab
    rw [hst.2 a hab.lt_left, hst'.2 b hab.lt_right]
    exact hab.cell.mono fun _ _ h => ⟨h.1, hbelow h.1.lt_left hab.lt_left h.2⟩

theorem flip (h : Bisimilar below st st' r s) : Bisimilar Ref.Unordered st' st s r :=
  ⟨fun b a => Bisimilar below st st' a b, ⟨fun _ _ h => h.lt_right, fun _ _ h => h.lt_left,
    fun _ _ h => h.cell.flip fun _ _ h => ⟨h.1, trivial⟩⟩, h⟩

theorem trans (h : Bisimilar below st st' r s) (h' : Bisimilar below' st' st'' s t) :
    Bisimilar below st st'' r t := by
  refine ⟨fun a c => ∃ b, Bisimilar below st st' a b ∧ Bisimilar below' st' st'' b c,
    ⟨?_, ?_, ?_⟩, s, h, h'⟩
  · exact fun _ _ ⟨_, h, _⟩ => h.lt_left
  · exact fun _ _ ⟨_, _, h'⟩ => h'.lt_right
  · rintro a c ⟨b, hab, hbc⟩
    exact hab.cell.trans (fun _ _ _ h h' => ⟨⟨_, h.1, h'.1⟩, h.2⟩) hbc.cell

/-- New cells with alike contents are bisimilar. -/
theorem add {c c' : Cell}
    (h : c.Alike (fun a b => Bisimilar below (st.add c).2 (st'.add c').2 a b ∧
      below a (st.add c).1) c') :
    Bisimilar below (st.add c).2 (st'.add c').2 (st.add c).1 (st'.add c').1 := by
  refine of_cell ?_ ?_ (by rwa [Store.cell_add_self, Store.cell_add_self])
  · simp only [Store.add, Array.size_push, Nat.lt_succ_self]
  · simp only [Store.add, Array.size_push, Nat.lt_succ_self]

end Bisimilar

namespace Simulation

variable {S : Simulation} {R : Runner} {R' : ℕ → Runner} {w : S.World} {r s : Ref}

/-- Forcing without keeping the outcome is followed by the same on a cell that is alike. -/
theorem Runs.rerun (h : S.Runs R R')
    (hcells : ∀ {st st'}, S.stores w st st' → (st.cell r).Alike (S.related w) (st'.cell s) ∨
      st.cell r = .forcing ∧ st'.cell s = .forcing) :
    S.FollowsEval w Value.Alike (R.rerun r) fun m => (R' m).rerun s := by
  intro st st' o st₁ hst hrun
  rcases hcells hst with hcell | ⟨hr, hs⟩
  · generalize hr : st.cell r = c, hs : st'.cell s = c' at hcell
    cases hcell with
    | pending hthunk =>
        have hrun := (R.rerun_of_pending hr).symm.trans hrun
        obtain ⟨w', hw', o', st₁', hy, hrest⟩ := h.runThunk hthunk hst hrun
        exact ⟨w', hw', o', st₁', hy.mono fun m hm => ((R' m).rerun_of_pending hs).trans hm, hrest⟩
    | done ho =>
        cases (R.rerun_of_done hr).symm.trans hrun
        exact ⟨w, le_refl w, _, st', .of_forall fun m => (R' m).rerun_of_done hs, hst, ho⟩
  · cases (R.rerun_of_forcing hr).symm.trans hrun
    exact ⟨w, le_refl w, _, st', .of_forall fun m => (R' m).rerun_of_forcing hs, hst, .error _⟩

/-- Runs by name from bisimilar references in stores that only grow. -/
abbrev bisimilar : Simulation where
  World := Store × Store
  order :=
    { le := fun w w' => w.1.Extends w'.1 ∧ w.2.Extends w'.2
      le_refl := fun w => ⟨.refl w.1, .refl w.2⟩
      le_trans := fun _ _ _ h h' => ⟨h.1.trans h'.1, h.2.trans h'.2⟩ }
  related w := Bisimilar Ref.Unordered w.1 w.2
  related_mono hw h := h.mono hw.1 hw.2 fun _ _ _ _ _ => trivial
  stores w st st' := st = w.1 ∧ st' = w.2
  add := by
    rintro w _ _ c c' ⟨rfl, rfl⟩ hc
    have hgrown : w.1.Extends (w.1.add c).2 ∧ w.2.Extends (w.2.add c').2 :=
      ⟨.add w.1 c, .add w.2 c'⟩
    refine ⟨((w.1.add c).2, (w.2.add c').2), hgrown, ⟨rfl, rfl⟩, .add (hc.mono fun a b h => ?_)⟩
    exact ⟨h.mono hgrown.1 hgrown.2 fun _ _ _ _ _ => trivial, trivial⟩
  note := by
    rintro w _ _ e ⟨rfl, rfl⟩
    exact ⟨(w.1.note e, w.2.note e), ⟨.note w.1 e, .note w.2 e⟩, rfl, rfl⟩

/-- Runners by name follow each other from bisimilar references. -/
theorem runs_byName_bisimilar {n : ℕ} {k : ℕ → ℕ} (hk : ∀ᶠ m in atTop, n ≤ k m) :
    bisimilar.Runs (.byName n) fun m => .byName (k m) := by
  refine runs_tied_of_le (fun h w r s hr => h.rerun ?_) hk
  rintro _ _ ⟨rfl, rfl⟩
  exact .inl (hr.cell.mono fun _ _ h => h.1)

end Simulation

/-- A run by name comes to the same with more fuel, in a store with further cells. -/
theorem Simulation.runs_byName_of_le {n m : ℕ} (h : n ≤ m) :
    (diagonal Store.extension (fun st c _ => .add st c) .note).Runs (.byName n)
      fun _ => .byName m := by
  refine runs_tied_of_le (fun hR w r s hr => hR.rerun ?_) (.of_forall fun _ => h)
  rintro _ st ⟨rfl, rfl⟩
  cases hr
  exact (Cell.alike_self_or_forcing (st.cell r)).imp_right fun h => ⟨h, h⟩

theorem Runner.byName_force_mono {n m : ℕ} (h : n ≤ m) {r : Ref} {st st' : Store}
    {o : Except RuntimeError Value} (hrun : ((byName n).force r).run st = some (o, st')) :
    ((byName m).force r).run st = some (o, st') :=
  (((Simulation.runs_byName_of_le h).force rfl).run_eq Value.Alike.lawful hrun).1

end LazyLang
