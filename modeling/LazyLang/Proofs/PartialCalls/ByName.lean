import LazyLang.Proofs.Currying
import LazyLang.Proofs.Execution.Suspended
import LazyLang.Proofs.PartialCalls.Typing

/-!
# Partial calls by name

A call in two portions forces the function as the call of all arguments does. If the function has a
slot for each argument, it waits after the first portion, and does with the second one what it does
with both at once.
-/

namespace LazyLang

open Filter Likeness

namespace Function

theorem joinArgs_map_some (refs : List Ref) (later : List (Option Ref)) :
    joinArgs (refs.map some) later = refs.map some ++ later := by
  induction refs with
  | nil => rfl
  | cons r refs ih => rw [List.map_cons, joinArgs, ih, List.cons_append]

theorem countP_isSome_map_some (refs : List Ref) :
    (refs.map some).countP Option.isSome = refs.length := by
  rw [List.countP_map]
  exact List.countP_eq_length.2 fun _ _ => rfl

end Function

namespace Runner

open LazyLang.Function

variable {f : Function} {first second : List Ref}

variable (h : first.length + second.length ≤ f.openSlots)

include h

/-- The first portion finds a slot for each argument, and leaves one for each of the second. -/
theorem openCount_portions :
    (first.map some).length ≤ openCount f.slots ∧
      second.length ≤ openCount (fillSlots f.slots (first.map some)) := by
  have hfew : (first.map some).length ≤ openCount f.slots := by
    rw [List.length_map]
    exact (Nat.le_add_right _ _).trans h
  have hfilled := openCount_fillSlots_add hfew
  rw [countP_isSome_map_some] at hfilled
  change _ ≤ openCount f.slots at h
  exact ⟨hfew, by omega⟩

/-- If the second portion is not empty, the function waits after the first one. -/
theorem applyFunction_first (R : Runner) (hsecond : second ≠ []) :
    R.applyFunction f (first.map some) =
      pure (.function (f.withSlots (fillSlots f.slots (first.map some)))) := by
  obtain ⟨hfew, hleft⟩ := openCount_portions h
  unfold applyFunction
  rw [supply_awaiting hfew ((List.length_pos_iff.2 hsecond).trans_le hleft)]

/-- Then it does with the second portion what it does with both at once. -/
theorem applyFunction_second (R : Runner) :
    R.applyFunction (f.withSlots (fillSlots f.slots (first.map some))) (second.map some) =
      R.applyFunction f ((first ++ second).map some) := by
  obtain ⟨hfew, hleft⟩ := openCount_portions h
  rw [R.applyFunction_joinArgs hfew ((List.length_map _).trans_le hleft), joinArgs_map_some,
    List.map_append]

end Runner

namespace Store

/-- By name, what function the lazy value is forced to, if to any, has at least `n` open slots. -/
def Takes (st : Store) (r : Ref) (n : ℕ) : Prop :=
  ∀ fuel f st', ((Runner.byName fuel).forceFunction r).run st = some (.ok f, st') → n ≤ f.openSlots

theorem Takes.bisimilar {st st' : Store} {r s : Ref} {n : ℕ} (h : st.Takes r n)
    (hr : Bisimilar Ref.Unordered st st' r s) : st'.Takes s n := by
  intro k g st₁ hrun
  have hruns := Simulation.runs_byName_bisimilar (k := id) (eventually_ge_atTop k)
  obtain ⟨_, _, _, st₁', heventually, _, ho⟩ :=
    hruns.forceFunction (w := (st', st)) hr.flip ⟨rfl, rfl⟩ hrun
  cases ho with
  | ok halike =>
      obtain ⟨m, hm⟩ := heventually.exists
      rw [halike.openSlots_eq]
      exact h m _ st₁' hm

end Store

namespace Runner

variable {st : Store} {r c a : Ref} {refs first second : List Ref}

/-- A call forces its function and applies it. -/
theorem force_calls (h : st.Calls r a refs) (n : ℕ) :
    ((byName (n + 1)).force r).run st =
      ((byName n).forceFunction a >>= fun f => (byName n).apply f (refs.map some)).run st :=
  calc ((byName (n + 1)).force r).run st
    _ = ((byName n).force a >>= fun v => (byName n).applyValue v (refs.map some)).run st :=
        rerun_of_pending _ h
    _ = _ := by
        simp only [applyValue, forceFunction, bind_assoc]

/-- A call in two portions comes to one of all arguments, if the function has a slot for each. -/
theorem force_calls_twice (h : st.Calls r c second) (hfirst : st.Calls c a first)
    (hsecond : second ≠ []) (htakes : st.Takes a (first.length + second.length)) (n : ℕ) :
    ((byName (n + 3)).force r).run st =
      ((byName (n + 1)).forceFunction a >>= fun f =>
        (byName (n + 2)).apply f ((first ++ second).map some)).run st :=
  calc ((byName (n + 3)).force r).run st
    _ = ((byName (n + 2)).force c >>= fun v =>
          (byName (n + 2)).applyValue v (second.map some)).run st := rerun_of_pending _ h
    _ = (((byName (n + 1)).forceFunction a >>= fun f =>
            (byName (n + 1)).apply f (first.map some)) >>= fun v =>
          (byName (n + 2)).applyValue v (second.map some)).run st :=
        Eval.run_bind_congr (force_calls hfirst (n + 1))
    _ = ((byName (n + 1)).forceFunction a >>= fun f => (byName (n + 1)).apply f (first.map some) >>=
          fun v => (byName (n + 2)).applyValue v (second.map some)).run st := by rw [bind_assoc]
    _ = _ := Eval.run_bind_congr_right fun f st₁ hf => by
        have hslots := htakes (n + 1) f st₁ hf
        change ((byName n).applyFunction f (first.map some) >>= _).run st₁ =
          ((byName (n + 1)).applyFunction f ((first ++ second).map some)).run st₁
        rw [applyFunction_first hslots _ hsecond, ← applyFunction_second hslots]
        rfl

end Runner

namespace Simulation

variable {a a' : Ref}

/-- Forcing a function and applying it are followed by the same with more fuel. -/
theorem follows_call {w : bisimilar.World} {n k : ℕ} {n' k' : ℕ → ℕ} (hn : ∀ᶠ m in atTop, n ≤ n' m)
    (hk : ∀ᶠ m in atTop, k ≤ k' m) (ha : bisimilar.related w a a') {args args' : List Ref}
    (hargs : args.Forall₂ (bisimilar.related w) args') :
    bisimilar.FollowsEval w Value.Alike
      ((Runner.byName n).forceFunction a >>= fun f => (Runner.byName k).apply f (args.map some))
      fun m => (Runner.byName (n' m)).forceFunction a' >>= fun f =>
        (Runner.byName (k' m)).apply f (args'.map some) := by
  have hslots : slots (bisimilar.related w) (args.map some) (args'.map some) := by
    refine (List.forall₂_map_left_iff.2 (List.forall₂_map_right_iff.2 ?_))
    exact hargs.imp fun _ _ h => .some h
  exact .seq ((runs_byName_bisimilar hn).forceFunction ha) fun _ hw _ _ hf =>
    (runs_byName_bisimilar hk).apply hf (later lawful_slots hw hslots)

variable {st st' : Store} {r r' c : Ref} {refs first second : List Ref} (h : st.Calls r a refs)
  (h' : st'.Calls r' c second) (hfirst : st'.Calls c a' first) (hsecond : second ≠ [])
  (htakes : st'.Takes a' (first.length + second.length))

include h h' hfirst hsecond htakes

/-- The forcing of a call in two portions follows that of the call with all arguments. -/
theorem follows_portions (ha : Bisimilar Ref.Unordered st st' a a')
    (hargs : refs.Forall₂ (Bisimilar Ref.Unordered st st') (first ++ second)) (n : ℕ) :
    bisimilar.FollowsEval (st, st') Value.Alike ((Runner.byName (n + 3)).force r) fun m =>
      (Runner.byName (m + 3)).force r' := by
  have hfollows := follows_call (w := (st, st')) (n := n + 2) (k := n + 2)
    (tendsto_add_atTop_nat 1 |>.eventually_ge_atTop _)
    (tendsto_add_atTop_nat 2 |>.eventually_ge_atTop _) ha hargs
  exact hfollows.congr_run (Runner.force_calls h (n + 2))
    (Runner.force_calls_twice h' hfirst hsecond htakes)

/-- The forcing of a call with all arguments follows that of the call in two portions. -/
theorem follows_whole (ha : Bisimilar Ref.Unordered st' st a' a)
    (hargs : (first ++ second).Forall₂ (Bisimilar Ref.Unordered st' st) refs) (n : ℕ) :
    bisimilar.FollowsEval (st', st) Value.Alike ((Runner.byName (n + 3)).force r') fun m =>
      (Runner.byName (m + 3)).force r := by
  have hfollows := follows_call (w := (st', st)) (n := n + 1) (k := n + 2)
    (tendsto_add_atTop_nat 2 |>.eventually_ge_atTop _)
    (tendsto_add_atTop_nat 2 |>.eventually_ge_atTop _) ha hargs
  exact hfollows.congr_run (Runner.force_calls_twice h' hfirst hsecond htakes n) fun m =>
    Runner.force_calls h (m + 2)

end Simulation

namespace Tree

/-- The function that the tree is evaluated to, if to any, has at least `n` open slots. -/
def Takes (e : Tree) (n : ℕ) : Prop :=
  ∀ fuel f st', ((Runner.ofFuel fuel).forceFunction e.loaded.1).run e.loaded.2 = some (.ok f, st') →
    n ≤ f.openSlots

theorem Takes.by_name {e : Tree} {n : ℕ} (h : e.Takes n) : e.loaded.2.Takes e.loaded.1 n := by
  intro k f st' hrun
  obtain ⟨H, hst, hr, -⟩ := e.blank.exists_explains_loaded
  obtain ⟨_, _, _, st₁, heventually, _, ho⟩ :=
    (Simulation.runs_named_flip k).forceFunction hr hst hrun
  cases ho with
  | ok halike =>
      obtain ⟨m, hm⟩ := heventually.exists
      rw [halike.openSlots_eq]
      exact h m _ st₁ hm

/-- A name of the library for a function stands for one with the slots that it has there. -/
theorem takes_named {name : String} {r : Ref} {f : Function}
    (hname : Scope.loaded.values.get? name = some r)
    (hcell : Store.loaded.cell r = .done (.ok (.function f))) : (named name).Takes f.openSlots := by
  intro fuel g st' hrun
  rw [loaded_named hname] at hrun
  cases fuel with
  | zero => cases hrun
  | succ n =>
      have hforce : ((Runner.ofFuel (n + 1)).force r).run Store.loaded =
          some (.ok (.function f), Store.loaded) := by
        change ((Runner.ofFuel n).forceCell r).run Store.loaded = _
        rw [Runner.forceCell_run, hcell]
      rcases Eval.bind_eq_some.1 hrun with ⟨e, herror, -⟩ | ⟨v, st₁, hv, hg⟩
      · cases hforce.symm.trans herror
      · cases hforce.symm.trans hv
        cases hg
        exact Nat.le_refl _

/-- A call in two portions is stripped to what the call with all arguments is stripped to. -/
theorem stripsTo_portions {f : Tree} {xs ys : List Tree} {limit : Option ℕ}
    {o : Except RuntimeError (Option Plain)} (hys : ys ≠ [])
    (htakes : f.Takes (xs.length + ys.length)) :
    (calling f (xs ++ ys)).StripsTo limit o ↔ (calling (calling f xs) ys).StripsTo limit o := by
  obtain ⟨refs, h, hext, hrefs⟩ := exists_calls f (xs ++ ys)
  obtain ⟨second, h', hext', hsecond⟩ := exists_calls (calling f xs) ys
  obtain ⟨first, hcall, hfirst, hxs⟩ := exists_calls f xs
  have hall : (first ++ second).Forall₂ (calling (calling f xs) ys).loaded.2.Holds (xs ++ ys) :=
    List.rel_append (hxs.imp fun _ _ h => h.mono hext') hsecond
  have hself := Store.Holds.of_suspend (.refl _) f
  have hf := hself.mono hext
  have hf' := hself.mono (hfirst.trans hext')
  have hslots : (calling (calling f xs) ys).loaded.2.Takes f.loaded.1
      (first.length + second.length) := by
    rw [hxs.length_eq, hsecond.length_eq]
    exact htakes.by_name.bisimilar hf'
  have hmore : second ≠ [] := by
    rintro rfl
    exact hys (List.forall₂_nil_left_iff.1 hsecond)
  constructor
  · refine Store.StripsByName.of_follows (d := 3) (Simulation.follows_portions h h'
      (hcall.mono hext') hmore hslots (hf.bisimilar hf') ?_)
    exact Ty.forall₂_trans_of_mem hrefs hall.flip fun _ _ _ _ h h' => h.bisimilar h'
  · refine Store.StripsByName.of_follows (d := 3) (Simulation.follows_whole h h'
      (hcall.mono hext') hmore hslots (hf'.bisimilar hf) ?_)
    exact Ty.forall₂_trans_of_mem hall hrefs.flip fun _ _ _ _ h h' => h.bisimilar h'

end Tree

end LazyLang
