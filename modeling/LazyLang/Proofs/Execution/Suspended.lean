import LazyLang.Proofs.Execution

/-!
# Expressions suspended over the library

Suspended over the library in any two stores, an expression gives bisimilar lazy values, so a run by
name makes the same of both. Where a computation on the one store follows one on the other, what is
stripped there is stripped here. A call is suspended after its function, and holds the lazy values
of its arguments (`Tree.exists_calls`).
-/

namespace LazyLang

open Filter Likeness

theorem Store.Grown.extends {st st' : Store} (h : Store.Grown st st') : st.Extends st' := by
  induction h with
  | refl => exact .refl _
  | add _ c _ ih => exact ih.trans (.add _ c)
  | note _ e ih => exact ih.trans (.note _ e)

section Library

/-- Entries whose values hold no references are bound to values that are bisimilar to themselves. -/
theorem Scope.bindEntries_bisimilar {entries : List Entry}
    (h : ∀ entry ∈ entries, ∀ ρ, entry.value.Alike ρ entry.value) (st : Store) :
    bindings (Bisimilar Ref.Unordered (bindEntries entries st).2 (bindEntries entries st).2)
      (bindEntries entries st).1 (bindEntries entries st).1 := by
  have hfollows : Simulation.bisimilar.Follows (st, st) bindings
      (Run.update (bindEntries entries)) fun _ => Run.update (bindEntries entries) :=
    .bindEntries h
  have hrun : Run.update (bindEntries entries) st = some (bindEntries entries st) := rfl
  generalize bindEntries entries st = p at hrun ⊢
  obtain ⟨w, -, b, st', heventually, ⟨hleft, rfl⟩, hb⟩ := hfollows ⟨rfl, rfl⟩ hrun
  obtain ⟨_, hagain⟩ := heventually.exists
  obtain rfl : p = (b, w.2) := Option.some.inj (hrun.symm.trans hagain)
  have hw : w = (w.2, w.2) := Prod.ext hleft.symm rfl
  rw [hw] at hb
  exact hb

variable {st st' : Store} (h : Store.loaded.Extends st) (h' : Store.loaded.Extends st')

include h h'

/-- The names of the library are bound alike in any two stores that hold it. -/
theorem Scope.alike_loaded :
    Likeness.scope (Bisimilar Ref.Unordered st st') Scope.loaded.values Scope.loaded.values :=
  lawful_scope.mono (fun _ _ hr => Bisimilar.mono hr h h' fun _ _ _ _ _ => trivial)
    (bindings_values (Scope.bindEntries_bisimilar (fun _ => Library.value_alike) .empty))

/-- Suspended in two stores that hold the library, an expression gives bisimilar lazy values. -/
theorem Expr.suspend_bisimilar (e : TypedExpr) :
    Bisimilar Ref.Unordered (e.suspend Scope.loaded.values st).2
      (e.suspend Scope.loaded.values st').2 (e.suspend Scope.loaded.values st).1
      (e.suspend Scope.loaded.values st').1 := by
  have hfollows := Simulation.Follows.suspend (S := Simulation.bisimilar) (w := (st, st')) e
    (Scope.alike_loaded h h')
  have hrun : Run.update (e.suspend Scope.loaded.values) st =
      some (e.suspend Scope.loaded.values st) := rfl
  obtain ⟨w, -, s, _, heventually, ⟨hleft, rfl⟩, hr⟩ := hfollows ⟨rfl, rfl⟩ hrun
  obtain ⟨_, hagain⟩ := heventually.exists
  obtain ⟨rfl, hright⟩ := Prod.mk.inj (Option.some.inj hagain)
  rw [hleft, hright]
  exact hr

end Library

theorem Eval.run_bind_congr {α β : Type} {x y : Eval α} {f : α → Eval β} {st : Store}
    (h : x.run st = y.run st) : (x >>= f).run st = (y >>= f).run st := by
  change (x.run st).bind _ = (y.run st).bind _
  rw [h]

/-- What is done with the result of a computation matters for its results only. -/
theorem Eval.run_bind_congr_right {α β : Type} {x : Eval α} {f g : α → Eval β} {st : Store}
    (h : ∀ a st', x.run st = some (.ok a, st') → (f a).run st' = (g a).run st') :
    (x >>= f).run st = (x >>= g).run st := by
  refine Option.ext fun ⟨o, st'⟩ => ?_
  rw [Eval.bind_eq_some, Eval.bind_eq_some]
  refine or_congr_right ?_
  constructor
  · rintro ⟨a, st₁, hx, hf⟩
    exact ⟨a, st₁, hx, h a st₁ hx ▸ hf⟩
  · rintro ⟨a, st₁, hx, hg⟩
    exact ⟨a, st₁, hx, (h a st₁ hx).symm ▸ hg⟩

/-- Only what the computations do in the two stores matters. -/
theorem Simulation.FollowsEval.congr_run {α : Type} {L : Likeness α} {w : bisimilar.World}
    {x y : Eval α} {x' y' : ℕ → Eval α} (h : bisimilar.FollowsEval w L y y')
    (hx : x.run w.1 = y.run w.1) (hx' : ∀ m, (x' m).run w.2 = (y' m).run w.2) :
    bisimilar.FollowsEval w L x x' := by
  rintro _ _ o st ⟨rfl, rfl⟩ hrun
  obtain ⟨w', hw', o', st', hfollows, hrest⟩ := h ⟨rfl, rfl⟩ (hx.symm.trans hrun)
  exact ⟨w', hw', o', st', hfollows.mono fun m hm => (hx' m).trans hm, hrest⟩

namespace Store

variable {st st' : Store} {r s : Ref} {limit : Option ℕ} {o : Except RuntimeError (Option Plain)}

theorem StripsByName.exists_le (h : st.StripsByName limit r o) (n : ℕ) :
    ∃ m st', n ≤ m ∧ ((Runner.byName m).stripRef limit r).run st = some (o, st') := by
  obtain ⟨k, st', hrun⟩ := h
  have hruns := Simulation.runs_byName_of_le (le_max_left k n)
  have hmore := hruns.stripRef (w := st) (r := r) limit rfl
  exact ⟨max k n, st', le_max_right k n, (hmore.run_eq lawful_plain hrun).1⟩

/-- A run by name strips a lazy value to one outcome at most. -/
theorem StripsByName.unique {o' : Except RuntimeError (Option Plain)}
    (h : st.StripsByName limit r o) (h' : st.StripsByName limit r o') : o = o' := by
  obtain ⟨n, st₁, hrun⟩ := h
  obtain ⟨m, st₁', hm, hrun'⟩ := h'.exists_le n
  have hruns := Simulation.runs_byName_of_le hm
  have hmore := (hruns.stripRef (w := st) (r := r) limit rfl).run_eq lawful_plain hrun
  exact (Prod.mk.inj (Option.some.inj (hmore.1.symm.trans hrun'))).1

/-- If, with enough fuel, the forcing of a lazy value is followed by that of another, then both are
stripped to the same. -/
theorem StripsByName.of_follows {d : ℕ}
    (h : ∀ n, Simulation.bisimilar.FollowsEval (st, st') Value.Alike
      ((Runner.byName (n + d)).force r) fun m => (Runner.byName (m + d)).force s)
    (hr : st.StripsByName limit r o) : st'.StripsByName limit s o := by
  obtain ⟨m, st₁, hm, hrun⟩ := hr.exists_le d
  obtain ⟨n, rfl⟩ := Nat.exists_eq_add_of_le' hm
  have hruns : Simulation.bisimilar.Runs (.byName (n + d)) fun m => .byName (m + d) :=
    Simulation.runs_byName_bisimilar
      ((eventually_ge_atTop n).mono fun m hm => Nat.add_le_add_right hm d)
  have hfollows : Simulation.bisimilar.FollowsEval (st, st') plain
      ((Runner.byName (n + d)).stripRef limit r)
      fun m => (Runner.byName (m + d)).stripRef limit s :=
    .seq (h n) fun _ _ _ _ hv => hruns.stripValue limit hruns.fuel hv
  obtain ⟨m, st₂, hm⟩ := hfollows.ends ⟨rfl, rfl⟩ hrun
  exact ⟨m + d, st₂, hm⟩

theorem forceFunction_mono {n m : ℕ} (hm : n ≤ m) {o : Except RuntimeError Function}
    (h : ((Runner.byName n).forceFunction r).run st = some (o, st')) :
    ((Runner.byName m).forceFunction r).run st = some (o, st') := by
  have hruns := Simulation.runs_byName_of_le hm
  exact ((hruns.forceFunction (w := st) (r := r) rfl).run_eq Function.Alike.lawful h).1

theorem extends_of_forceFunction {n : ℕ} {o : Except RuntimeError Function}
    (h : ((Runner.byName n).forceFunction r).run st = some (o, st')) : st.Extends st' := by
  have hruns := Simulation.runs_byName_of_le (le_refl n)
  exact ((hruns.forceFunction (w := st) (r := r) rfl).run_eq Function.Alike.lawful h).2

/-- By name, the lazy value is forced to a function. -/
def FunctionAt (st : Store) (r : Ref) : Prop :=
  ∃ n f st', ((Runner.byName n).forceFunction r).run st = some (.ok f, st')

/-- Then it is so with any more fuel. -/
theorem FunctionAt.exists_ge (h : st.FunctionAt r) :
    ∃ n f st', st.Extends st' ∧
      ∀ m, n ≤ m → ((Runner.byName m).forceFunction r).run st = some (.ok f, st') := by
  obtain ⟨n, f, st', hrun⟩ := h
  exact ⟨n, f, st', extends_of_forceFunction hrun, fun m hm => forceFunction_mono hm hrun⟩

/-- Then no run by name finds anything else. -/
theorem FunctionAt.ok_of_run (h : st.FunctionAt r) {n : ℕ} {o : Except RuntimeError Function}
    (hrun : ((Runner.byName n).forceFunction r).run st = some (o, st')) : ∃ f, o = .ok f := by
  obtain ⟨m, f, st₁, -, hge⟩ := h.exists_ge
  have hmore := forceFunction_mono (le_max_left n m) hrun
  have heq := hmore.symm.trans (hge (max n m) (le_max_right n m))
  exact ⟨f, (Prod.mk.inj (Option.some.inj heq)).1⟩

theorem FunctionAt.bisimilar (h : st.FunctionAt r) (hr : Bisimilar Ref.Unordered st st' r s) :
    st'.FunctionAt s := by
  obtain ⟨n, f, st₁, hrun⟩ := h
  have hruns := Simulation.runs_byName_bisimilar (k := id) (eventually_ge_atTop n)
  obtain ⟨_, _, o, st₁', heventually, _, ho⟩ :=
    hruns.forceFunction (w := (st, st')) hr ⟨rfl, rfl⟩ hrun
  cases ho
  obtain ⟨m, hm⟩ := heventually.exists
  exact ⟨m, _, st₁', hm⟩

end Store

/-- The lazy value is like that of the tree. -/
def Store.Holds (st : Store) (r : Ref) (e : Tree) : Prop :=
  Bisimilar Ref.Unordered e.loaded.2 st e.loaded.1 r

namespace Store.Holds

variable {st st' : Store} {r s : Ref} {e : Tree}

theorem mono (h : st.Holds r e) (hst : st.Extends st') : st'.Holds r e :=
  Bisimilar.mono h (.refl _) hst fun _ _ _ _ _ => trivial

theorem bisimilar (h : st.Holds r e) (h' : st'.Holds s e) : Bisimilar Ref.Unordered st st' r s :=
  (Bisimilar.flip h).trans h'

theorem of_suspend (h : Store.loaded.Extends st) (e : Tree) :
    (e.blank.suspend Scope.loaded.values st).2.Holds (e.blank.suspend Scope.loaded.values st).1 e :=
  e.blank.suspend_bisimilar (.refl _) h

end Store.Holds

/-- The lazy value `r` is the call of `a` with the arguments. -/
def Store.Calls (st : Store) (r a : Ref) (args : List Ref) : Prop :=
  st.cell r = .pending (.apply a (args.map some))

theorem Store.Calls.mono {st st' : Store} {r a : Ref} {args : List Ref} (h : st.Calls r a args)
    (hst : st.Extends st') : st'.Calls r a args := by
  refine (hst.2 r (lt_size_of_cell fun o ho => ?_)).trans h
  cases h.symm.trans ho

namespace Tree

/-- A name of the library is the lazy value that is bound to it. -/
theorem loaded_named {name : String} {r : Ref} (h : Scope.loaded.values.get? name = some r) :
    (named name).loaded = (r, Store.loaded) := by
  change Expr.suspend Scope.loaded.values (blank (named name)) Store.loaded = _
  rw [named, blank, Expr.suspend, h]

/-- The arguments of a call without placeholders are suspended one by one. -/
theorem exists_suspendArgs (args : List Tree) {st : Store} (h : Store.loaded.Extends st) :
    ∃ (refs : List Ref) (st' : Store),
      Expr.suspendArgs Scope.loaded.values (blankArgs (args.map some)) st =
        (refs.map some, st') ∧ st.Extends st' ∧ refs.Forall₂ st'.Holds args := by
  induction args generalizing st with
  | nil => exact ⟨[], st, rfl, .refl st, .nil⟩
  | cons e rest ih =>
      have hgrown := (e.blank.suspend_grown Scope.loaded.values st).extends
      have hholds := Store.Holds.of_suspend h e
      obtain ⟨refs, st', hargs, hext, hrefs⟩ := ih (h.trans hgrown)
      refine ⟨(e.blank.suspend Scope.loaded.values st).1 :: refs, st', ?_, hgrown.trans hext,
        .cons (hholds.mono hext) hrefs⟩
      rw [List.map_cons, blankArgs, Expr.suspendArgs]
      dsimp only
      rw [hargs]
      rfl

/-- The lazy value of a call without placeholders calls that of its function, which is suspended
first. -/
theorem exists_calls (f : Tree) (args : List Tree) :
    ∃ refs, (calling f args).loaded.2.Calls (calling f args).loaded.1 f.loaded.1 refs ∧
      f.loaded.2.Extends (calling f args).loaded.2 ∧
        refs.Forall₂ (calling f args).loaded.2.Holds args := by
  have hgrown : Store.loaded.Extends f.loaded.2 :=
    (f.blank.suspend_grown Scope.loaded.values Store.loaded).extends
  obtain ⟨refs, st', hargs, hext, hrefs⟩ := exists_suspendArgs args hgrown
  have hlast : st'.Extends (st'.add (.pending (.apply f.loaded.1 (refs.map some)))).2 := .add _ _
  have hloaded : (calling f args).loaded =
      st'.add (.pending (.apply f.loaded.1 (refs.map some))) := by
    change Expr.suspend Scope.loaded.values (blank (calling f args)) Store.loaded = _
    have hf : f.blank.suspend Scope.loaded.values Store.loaded = f.loaded := rfl
    rw [calling, blank, Expr.suspend, hf]
    dsimp only
    rw [hargs]
  rw [hloaded]
  exact ⟨refs, Store.cell_add_self _ _, hext.trans hlast, hrefs.imp fun _ _ h => h.mono hlast⟩

end Tree

/-- The tree is evaluated to a function. -/
def Tree.IsFunction (e : Tree) : Prop :=
  ∃ fuel f st', ((Runner.ofFuel fuel).forceFunction e.loaded.1).run e.loaded.2 = some (.ok f, st')

theorem Tree.IsFunction.functionAt {e : Tree} (h : e.IsFunction) :
    e.loaded.2.FunctionAt e.loaded.1 := by
  obtain ⟨n, f, st', hrun⟩ := h
  obtain ⟨H, hst, hr, -⟩ := e.blank.exists_explains_loaded
  obtain ⟨_, _, o, st₁, heventually, _, ho⟩ :=
    (Simulation.runs_named n).forceFunction hr hst hrun
  cases ho
  obtain ⟨m, hm⟩ := heventually.exists
  exact ⟨m, _, st₁, hm⟩

end LazyLang
