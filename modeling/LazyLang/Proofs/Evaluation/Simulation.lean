import Mathlib.Order.Filter.AtTopBot.Basic
import LazyLang.Evaluation
import LazyLang.Proofs.Evaluation.Congruence

/-!
# Simulations

A simulation relates the stores of two runs of the same program. Its worlds say which references of
the one correspond to which of the other, and may only come to relate more of them. What every
function of the language does on top of its runner is followed by the same function on the other
side, on alike data: whatever the one comes to, the other comes to something alike, in stores that
are still related. The other side is a family of computations, one for each amount of fuel, and what
it comes to is what all of them from some amount on come to.
-/

namespace LazyLang

open Filter Likeness

/-- A relation between the stores of two runs. Cells that are added on both sides with alike
contents become related in a later world. -/
structure Simulation where
  World : Type
  order : Preorder World
  related : World → Ref → Ref → Prop
  related_mono : ∀ {w w' r s}, w ≤ w' → related w r s → related w' r s
  stores : World → Store → Store → Prop
  add : ∀ {w st st' c c'}, stores w st st' → c.Alike (related w) c' →
    ∃ w', w ≤ w' ∧ stores w' (st.add c).2 (st'.add c').2 ∧
      related w' (st.add c).1 (st'.add c').1
  note : ∀ {w st st'} (e : Event), stores w st st' →
    ∃ w', w ≤ w' ∧ stores w' (st.note e) (st'.note e)

namespace Simulation

variable (S : Simulation)

instance : Preorder S.World := S.order

variable {S} {α β : Type} {L : Likeness α} {M : Likeness β} {w w' : S.World}

/-- What is alike in a world is alike in the later ones. -/
theorem later (h : L.Lawful) (hw : w ≤ w') {a b : α} (hab : L (S.related w) a b) :
    L (S.related w') a b :=
  h.mono (fun _ _ => S.related_mono hw) hab

variable (S) in
/-- Whatever `x` comes to in a store, almost all `y` come to something like it in a related
store. -/
def Follows (w : S.World) (L : Likeness α) (x : Run α) (y : ℕ → Run α) : Prop :=
  ∀ ⦃st st' a st₁⦄, S.stores w st st' → x st = some (a, st₁) →
    ∃ w', w ≤ w' ∧ ∃ b st₁', (∀ᶠ m in atTop, y m st' = some (b, st₁')) ∧
      S.stores w' st₁ st₁' ∧ L (S.related w') a b

variable (S) in
/-- The same for computations that may fail: they then fail alike. -/
def FollowsEval (w : S.World) (L : Likeness α) (x : Eval α) (y : ℕ → Eval α) : Prop :=
  S.Follows w L.outcome x.run fun m => (y m).run

namespace Follows

theorem ret {a b : α} (h : L (S.related w) a b) : S.Follows w L (pure a) fun _ => pure b := by
  intro st st' a' st₁ hst hrun
  cases hrun
  exact ⟨w, le_refl w, b, st', .of_forall fun _ => rfl, hst, h⟩

theorem exhausted (y : ℕ → Run α) : S.Follows w L Run.outOfFuel y := by
  intro st st' a st₁ _ hrun
  cases hrun

theorem seq {x : Run α} {y : ℕ → Run α} {f : α → Run β} {g : ℕ → α → Run β}
    (h : S.Follows w L x y)
    (hf : ∀ ⦃w'⦄, w ≤ w' → ∀ ⦃a b⦄, L (S.related w') a b →
      S.Follows w' M (f a) fun m => g m b) :
    S.Follows w M (x >>= f) fun m => y m >>= g m := by
  intro st st' c st₂ hst hrun
  obtain ⟨a, st₁, hx, hfa⟩ := Run.bind_eq_some.1 hrun
  obtain ⟨w₁, hw₁, b, st₁', hy, hst₁, hab⟩ := h hst hx
  obtain ⟨w₂, hw₂, d, st₂', hg, hst₂, hcd⟩ := hf hw₁ hab hst₁ hfa
  refine ⟨w₂, hw₁.trans hw₂, d, st₂', ?_, hst₂, hcd⟩
  filter_upwards [hy, hg] with m hy hg
  exact Run.bind_eq_some.2 ⟨b, st₁', hy, hg⟩

/-- Only almost all computations of the family matter. -/
theorem congr {x : Run α} {y z : ℕ → Run α} (h : S.Follows w L x y)
    (heq : ∀ᶠ m in atTop, z m = y m) : S.Follows w L x z := by
  intro st st' a st₁ hst hx
  obtain ⟨w₁, hw₁, b, st₁', hy, hrest⟩ := h hst hx
  refine ⟨w₁, hw₁, b, st₁', ?_, hrest⟩
  filter_upwards [hy, heq] with m hy heq
  rw [heq, hy]

theorem add {c c' : Cell} (h : c.Alike (S.related w) c') :
    S.Follows w ref (Run.add c) fun _ => Run.add c' := by
  intro st st' r st₁ hst hrun
  cases hrun
  obtain ⟨w₁, hw₁, hst₁, hr⟩ := S.add hst h
  exact ⟨w₁, hw₁, _, _, .of_forall fun _ => rfl, hst₁, hr⟩

theorem defer {thunk thunk' : Thunk} (h : thunk.Alike (S.related w) thunk') :
    S.Follows w ref (Run.defer thunk) fun _ => Run.defer thunk' :=
  add (.pending h)

theorem note (e : Event) : S.Follows w plain (Run.note e) fun _ => Run.note e := by
  intro st st' _ st₁ hst hrun
  cases hrun
  obtain ⟨w₁, hw₁, hst₁⟩ := S.note e hst
  exact ⟨w₁, hw₁, _, _, .of_forall fun _ => rfl, hst₁, rfl⟩

mutual

/-- Suspending an expression adds alike cells. -/
theorem suspend : (e : TypedExpr) → {w : S.World} → {scope scope' : ValueScope} →
    Likeness.scope (S.related w) scope scope' →
      S.Follows w ref (Run.update (e.suspend scope)) fun _ => Run.update (e.suspend scope')
  | .identifier i name, w, scope, scope', h => by
      have hname := Layers.get?_alike name h
      have hrun : ∀ scope : ValueScope, Run.update ((Expr.identifier i name).suspend scope) =
          match scope.get? name with
          | some r => pure r
          | Option.none => Run.add (.done (.error (.unboundIdentifier name))) := by
        intro scope
        funext st
        rw [Run.update, Expr.suspend]
        cases scope.get? name <;> rfl
      rw [hrun scope, hrun scope']
      generalize scope.get? name = x, scope'.get? name = y at hname
      cases hname with
      | some hr => exact ret hr
      | none => exact add (.done (.error _))
  | .integer _ i, _, _, _, _ => add (.done (.ok (.integer i)))
  | .float _ x, _, _, _, _ => add (.done (.ok (.float x)))
  | .string _ s, _, _, _, _ => add (.done (.ok (.string s)))
  | .boolean _ b, _, _, _, _ => add (.done (.ok (.boolean b)))
  | .none _, _, _, _, _ => add (.done (.ok .none))
  | .array _ elements, _, _, _, h => add (.done (.ok (.array (.literal h elements))))
  | .unrecognized _ _, _, _, _, _ => add (.done (.error .unrecognized))
  | .call _ callee args, _, _, _, h =>
      seq (suspend callee h) fun _ hw _ _ hf =>
        seq (suspendArgs args (later lawful_scope hw h)) fun _ hw' _ _ hargs =>
          defer (.apply (S.related_mono hw' hf) hargs)

/-- Suspending the arguments of a call. -/
theorem suspendArgs : (args : List (Option TypedExpr)) → {w : S.World} →
    {scope scope' : ValueScope} → Likeness.scope (S.related w) scope scope' →
      S.Follows w slots (Run.update (Expr.suspendArgs scope args)) fun _ =>
        Run.update (Expr.suspendArgs scope' args)
  | [], _, _, _, _ => ret .nil
  | Option.none :: rest, _, _, _, h => by
      have hrun : ∀ scope, Run.update (Expr.suspendArgs scope (Option.none :: rest)) = (do
          let refs ← Run.update (Expr.suspendArgs scope rest)
          pure (Option.none :: refs)) := fun _ => rfl
      rw [hrun, hrun]
      exact seq (suspendArgs rest h) fun _ _ _ _ hrest => ret (.cons .none hrest)
  | some e :: rest, _, _, _, h => by
      have hrun : ∀ scope, Run.update (Expr.suspendArgs scope (some e :: rest)) = (do
          let r ← Run.update (e.suspend scope)
          let refs ← Run.update (Expr.suspendArgs scope rest)
          pure (some r :: refs)) := fun _ => rfl
      rw [hrun, hrun]
      refine seq (suspend e h) fun _ hw _ _ hr => ?_
      refine seq (suspendArgs rest (later lawful_scope hw h)) fun _ hw' _ _ hrest => ?_
      exact ret (.cons (.some (S.related_mono hw' hr)) hrest)

end

end Follows

namespace FollowsEval

theorem ret {a b : α} (h : L (S.related w) a b) :
    S.FollowsEval w L (pure a) fun _ => pure b :=
  Follows.ret (L := L.outcome) (.ok h)

theorem fail (e : RuntimeError) : S.FollowsEval w L (throw e) fun _ => throw e :=
  Follows.ret (L := L.outcome) (.error e)

theorem except {x y : Except RuntimeError α} (h : L.outcome (S.related w) x y) :
    S.FollowsEval w L (liftM x) fun _ => liftM y :=
  Follows.ret h

/-- What holds no references is the same on both sides. -/
theorem same {x y : Except RuntimeError α} (h : x = y) :
    S.FollowsEval w plain (liftM x) fun _ => liftM y := by
  subst h
  cases x with
  | ok a => exact except (.ok rfl)
  | error e => exact except (.error e)

theorem seq {x : Eval α} {y : ℕ → Eval α} {f : α → Eval β} {g : ℕ → α → Eval β}
    (h : S.FollowsEval w L x y)
    (hf : ∀ ⦃w'⦄, w ≤ w' → ∀ ⦃a b⦄, L (S.related w') a b →
      S.FollowsEval w' M (f a) fun m => g m b) :
    S.FollowsEval w M (x >>= f) fun m => y m >>= g m := by
  refine Follows.seq h fun w' hw o o' ho => ?_
  cases ho with
  | ok hab => exact hf hw hab
  | error e => exact Follows.ret (.error e)

theorem lift {x : Run α} {y : ℕ → Run α} (h : S.Follows w L x y) :
    S.FollowsEval w L (ExceptT.lift x) fun m => ExceptT.lift (y m) :=
  Follows.seq h fun _ _ _ _ hab => Follows.ret (.ok hab)

theorem exhausted (y : ℕ → Eval α) : S.FollowsEval w L (ExceptT.lift Run.outOfFuel) y :=
  Follows.exhausted _

theorem congr {x : Eval α} {y z : ℕ → Eval α} (h : S.FollowsEval w L x y)
    (heq : ∀ᶠ m in atTop, z m = y m) : S.FollowsEval w L x z :=
  Follows.congr h (heq.mono fun _ hm => congrArg ExceptT.run hm)

/-- What ends without references on one side ends in the same way on the other. -/
theorem ends {x : Eval α} {y : ℕ → Eval α} (h : S.FollowsEval w plain x y) {st st' st₁ : Store}
    (hst : S.stores w st st') {o : Except RuntimeError α} (hrun : x.run st = some (o, st₁)) :
    ∃ m st₁', (y m).run st' = some (o, st₁') := by
  obtain ⟨_, _, o', st₁', hfollows, _, ho⟩ := h hst hrun
  obtain ⟨m, hm⟩ := hfollows.exists
  rw [lawful_plain.outcome.eq ho]
  exact ⟨m, st₁', hm⟩

end FollowsEval

variable (S) in
/-- The runners of the family follow what `R` does on alike data, almost all with at least as much
fuel. -/
structure Runs (R : Runner) (R' : ℕ → Runner) : Prop where
  fuel : ∀ᶠ m in atTop, R.fuel ≤ (R' m).fuel
  force : ∀ {w : S.World} {r s}, S.related w r s →
    S.FollowsEval w Value.Alike (R.force r) fun m => (R' m).force s
  next : ∀ {w : S.World} {t t'}, t.Alike (S.related w) t' →
    S.Follows w Likeness.next (R.next t) fun m => (R' m).next t'
  apply : ∀ {w : S.World} {f g xs ys}, f.Alike (S.related w) g → slots (S.related w) xs ys →
    S.FollowsEval w Value.Alike (R.apply f xs) fun m => (R' m).apply g ys

/-- Fuel that is almost always above `n` is almost always one more than fuel that is not below
`n`. -/
theorem exists_pred {n : ℕ} {k : ℕ → ℕ} (h : ∀ᶠ m in atTop, n + 1 ≤ k m) :
    ∃ k' : ℕ → ℕ, (∀ᶠ m in atTop, n ≤ k' m) ∧ ∀ᶠ m in atTop, k m = k' m + 1 :=
  ⟨fun m => k m - 1, h.mono fun _ hm => Nat.le_sub_one_of_lt hm,
    h.mono fun _ hm => (Nat.sub_add_cancel (Nat.one_le_of_lt hm)).symm⟩

end Simulation

end LazyLang
