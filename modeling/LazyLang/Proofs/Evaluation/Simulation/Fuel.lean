import LazyLang.Proofs.Evaluation.Simulation.Builtins

/-!
# Runners tied together by fuel

How cells are forced is all in which the evaluation of a program can be changed: the rest is tied
together in the same way, each step handing one unit of fuel less to the runner below it. If one way
of forcing a cell is followed by another on top of runners that follow each other, then the runners
that are tied together with the two ways follow each other.
-/

namespace LazyLang

open Filter Likeness

namespace Runner

/-- The runners that force cells in the given way, by fuel. -/
def tied (force : Runner → Ref → Eval Value) : ℕ → Runner
  | 0 => ⟨0, fun _ => ExceptT.lift Run.outOfFuel, fun _ => Run.outOfFuel,
      fun _ _ => ExceptT.lift Run.outOfFuel⟩
  | fuel + 1 => ⟨fuel + 1, force (tied force fuel), Traversal.step (tied force fuel),
      (tied force fuel).applyFunction⟩

theorem tied_fuel (force : Runner → Ref → Eval Value) (fuel : ℕ) :
    (tied force fuel).fuel = fuel := by cases fuel <;> rfl

/-- Evaluation ties the runners together that keep the outcome of a cell. -/
theorem ofFuel_eq_tied (fuel : ℕ) : ofFuel fuel = tied forceCell fuel := by
  induction fuel with
  | zero => rfl
  | succ fuel ih => rw [tied, ← ih]; rfl

end Runner

namespace Simulation

variable {S : Simulation} {f g : Runner → Ref → Eval Value}

/-- Runners with less fuel than almost all of a family follow them, if their ways of forcing a cell
do. What else is asked of the fuel of the family may not depend on a unit more or less. -/
theorem runs_tied {K : ℕ → (ℕ → ℕ) → Prop}
    (hle : ∀ {n k}, K n k → ∀ᶠ m in atTop, n ≤ k m)
    (hpred : ∀ {n k}, K (n + 1) k → K n fun m => k m - 1)
    (hforce : ∀ {n k}, K n k → S.Runs (.tied f n) (fun m => .tied g (k m)) →
      ∀ {w r s}, S.related w r s → S.FollowsEval w Value.Alike (f (.tied f n) r) fun m =>
        g (.tied g (k m)) s)
    {n : ℕ} {k : ℕ → ℕ} (hk : K n k) : S.Runs (.tied f n) fun m => .tied g (k m) := by
  induction n generalizing k with
  | zero =>
      exact ⟨.of_forall fun _ => Nat.zero_le _, fun _ => .exhausted _, fun _ => .exhausted _,
        fun _ _ => .exhausted _⟩
  | succ n ih =>
      -- almost all of the family have fuel left, so that they are unfolded once like the runner
      have h := ih (hpred hk)
      have hsucc : ∀ᶠ m in atTop, k m = k m - 1 + 1 := (hle hk).mono fun m hm => by omega
      refine ⟨(hle hk).mono fun m hm => ?_, fun hr => ?_, fun ht => ?_, fun hf hargs => ?_⟩
      · rwa [Runner.tied_fuel, Runner.tied_fuel]
      · exact (hforce (hpred hk) h hr).congr (hsucc.mono fun m hm => by rw [hm]; rfl)
      · exact (h.step ht).congr (hsucc.mono fun m hm => by rw [hm]; rfl)
      · exact (h.applyFunction hf hargs).congr (hsucc.mono fun m hm => by rw [hm]; rfl)

/-- Runners follow those with at least as much fuel, if their ways of forcing a cell do. -/
theorem runs_tied_of_le
    (hforce : ∀ {n : ℕ} {k : ℕ → ℕ}, S.Runs (.tied f n) (fun m => .tied g (k m)) →
      ∀ {w r s}, S.related w r s →
        S.FollowsEval w Value.Alike (f (.tied f n) r) fun m => g (.tied g (k m)) s)
    {n : ℕ} {k : ℕ → ℕ} (hk : ∀ᶠ m in atTop, n ≤ k m) :
    S.Runs (.tied f n) fun m => .tied g (k m) :=
  runs_tied (K := fun n k => ∀ᶠ m in atTop, n ≤ k m) id
    (fun h => h.mono fun _ => Nat.le_sub_one_of_lt) (fun _ h => hforce h) hk

/-- The simulation of a run by itself. Its worlds are the stores that the run goes through, in any
order in which adding cells and noting events leads on. -/
def diagonal (order : Preorder Store) (hadd : ∀ st c, c ≠ .forcing → order.le st (st.add c).2)
    (hnote : ∀ st e, order.le st (st.note e)) : Simulation where
  World := Store
  order := order
  related _ := Eq
  related_mono _ h := h
  stores w st st' := st = w ∧ st' = w
  add := by
    rintro _ _ st c c' ⟨rfl, rfl⟩ hc
    have heq : c = c' := hc.eq
    subst heq
    exact ⟨_, hadd st c hc.ne_forcing, ⟨rfl, rfl⟩, rfl⟩
  note := by
    rintro _ _ st e ⟨rfl, rfl⟩
    exact ⟨_, hnote st e, rfl, rfl⟩

section Diagonal

variable {order : Preorder Store} {hadd : ∀ st c, c ≠ .forcing → order.le st (st.add c).2}
  {hnote : ∀ st e, order.le st (st.note e)} {α : Type} {L : Likeness α} {st st' : Store}

/-- What follows a run in the same store comes to the same, in a later store. -/
theorem Follows.run_eq (hL : L.Lawful) {x y : Run α} {a : α}
    (h : (diagonal order hadd hnote).Follows st L x fun _ => y) (hrun : x st = some (a, st')) :
    y st = some (a, st') ∧ order.le st st' := by
  obtain ⟨w, hw, b, _, hy, ⟨rfl, rfl⟩, hab⟩ := h ⟨rfl, rfl⟩ hrun
  rw [hL.eq hab]
  exact ⟨eventually_const.1 hy, hw⟩

theorem FollowsEval.run_eq (hL : L.Lawful) {x y : Eval α} {o : Except RuntimeError α}
    (h : (diagonal order hadd hnote).FollowsEval st L x fun _ => y)
    (hrun : x.run st = some (o, st')) : y.run st = some (o, st') ∧ order.le st st' :=
  Follows.run_eq hL.outcome h hrun

end Diagonal

end Simulation

end LazyLang
