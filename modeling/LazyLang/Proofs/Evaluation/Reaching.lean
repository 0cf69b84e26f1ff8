import LazyLang.Proofs.Items

/-!
# Where computations get to

More fuel does not change what a computation comes to (`Runner.Steady`). So from every store it gets
to one outcome with enough fuel, or to none with any (`Runner.Reaches`), and of one computation
after another it can be said where both get to without speaking of fuel (`Runner.Reaches.bind`).

Whoever goes through an array may stop, start over and do other things in between, and a move may
never come to an end. A `Traversal.Tour` is any sequence of moves of one traversal, each in a store
of its own.
-/

namespace LazyLang

namespace Runner

open Likeness

variable {α β : Type}

/-- What the computation comes to it also comes to with more fuel. -/
def Steady (x : Runner → Run α) : Prop :=
  ∀ ⦃n m st p⦄, n ≤ m → x (ofFuel n) st = some p → x (ofFuel m) st = some p

/-- From a store, the computation gets to an outcome and another store with enough fuel, or to
nothing whatever the fuel. -/
def Reaches (x : Runner → Run α) (st : Store) : Option (α × Store) → Prop
  | some p => ∃ n, x (ofFuel n) st = some p
  | none => ∀ n, x (ofFuel n) st = none

section Steady

theorem Steady.const (x : Run α) : Steady fun _ => x := fun _ _ _ _ _ h => h

theorem Steady.bind {x : Runner → Run α} {f : Runner → α → Run β} (hx : Steady x)
    (hf : ∀ a, Steady (f · a)) : Steady fun R => x R >>= f R := by
  rintro n m st ⟨b, st'⟩ hle h
  obtain ⟨a, st₁, hfirst, hsecond⟩ := Run.bind_eq_some.1 h
  exact Run.bind_eq_some.2 ⟨a, st₁, hx hle hfirst, hf a hle hsecond⟩

theorem steady_next (t : Traversal) : Steady (·.next t) :=
  fun _ _ _ _ hle h => Traversal.next_ofFuel_of_le hle h

theorem steady_traverse (s : Sequence) : Steady s.traverse :=
  fun _ _ _ _ hle h => Sequence.traverse_ofFuel_of_le hle h

theorem steady_force (r : Ref) : Steady fun R => (R.force r).run :=
  fun _ _ _ _ hle h => ((evolves_ofFuel hle).force rfl |>.run_eq Value.Alike.lawful h).1

theorem steady_ahead (k : Nat) (t : Traversal) : Steady (t.ahead · k) := by
  have hlawful := (lawful_item).option.prod Traversal.Alike.lawful
  intro _ _ _ _ hle h
  exact (((evolves_ofFuel hle).ahead k (Traversal.Alike.lawful.refl t)).run_eq hlawful h).1

theorem steady_elementAt (s : Sequence) (position : Int) :
    Steady fun R => (R.elementAt s position).run := by
  intro _ _ _ _ hle h
  have hs := Sequence.Alike.lawful.refl s
  exact (((evolves_ofFuel hle).elementAt hs position).run_eq Value.Alike.lawful h).1

theorem steady_equal (v w : Value) : Steady fun R => (R.equal v w).run := by
  intro _ _ _ _ hle h
  have hv := Value.Alike.lawful.refl v
  exact (((evolves_ofFuel hle).equal hv (Value.Alike.lawful.refl w)).run_eq lawful_plain h).1

theorem steady_runBuiltin (b : Builtin) (args : List Ref) :
    Steady fun R => (R.runBuiltin b args).run := by
  intro _ _ _ _ hle h
  have hargs := lawful_ref.list.refl args
  exact (((evolves_ofFuel hle).runBuiltin b hargs).run_eq Value.Alike.lawful h).1

theorem steady_elementOrNone (item : Option Item) :
    Steady fun R => (R.elementOrNone item).run := by
  obtain _ | _ | r := item
  · exact .const _
  · exact .const _
  · exact steady_force r

end Steady

section Reaches

variable {x : Runner → Run α} {st : Store}

theorem exists_reaches (x : Runner → Run α) (st : Store) : ∃ o, Reaches x st o := by
  by_cases h : ∃ n p, x (ofFuel n) st = some p
  · obtain ⟨n, p, h⟩ := h
    exact ⟨some p, n, h⟩
  · simp only [not_exists, ← Option.eq_none_iff_forall_ne_some] at h
    exact ⟨none, h⟩

theorem Reaches.of_eq {n : Nat} {p : α × Store} (h : x (ofFuel n) st = some p) :
    Reaches x st (some p) :=
  ⟨n, h⟩

theorem Reaches.unique {o o' : Option (α × Store)} (hx : Steady x) (h : Reaches x st o)
    (h' : Reaches x st o') : o = o' := by
  rcases o with - | p <;> rcases o' with - | q
  · rfl
  · obtain ⟨n, hn⟩ := h'
    cases (h n).symm.trans hn
  · obtain ⟨n, hn⟩ := h
    cases (h' n).symm.trans hn
  · obtain ⟨n, hn⟩ := h
    obtain ⟨m, hm⟩ := h'
    exact (hx (Nat.le_max_left n m) hn).symm.trans (hx (Nat.le_max_right n m) hm)

/-- Computations get to the same if they agree with enough fuel. -/
theorem Reaches.congr {y : Runner → Run α} {st' : Store} {o : Option (α × Store)} {n : Nat}
    (hx : Steady x) (hy : Steady y) (heq : ∀ m, n ≤ m → x (ofFuel m) st = y (ofFuel m) st')
    (h : Reaches x st o) : Reaches y st' o := by
  obtain ⟨o', hrest⟩ := exists_reaches y st'
  suffices hsame : Reaches x st o' from hsame.unique hx h ▸ hrest
  cases o' with
  | none =>
      intro m
      refine Option.eq_none_iff_forall_ne_some.2 fun p hm => ?_
      have hmore := hx (Nat.le_max_right n m) hm
      rw [heq _ (Nat.le_max_left n m), hrest] at hmore
      cases hmore
  | some p =>
      obtain ⟨m, hm⟩ := hrest
      refine ⟨max n m, ?_⟩
      rw [heq _ (Nat.le_max_left n m)]
      exact hy (Nat.le_max_right n m) hm

theorem Reaches.seq {f : Runner → α → Run β} {a : α} {st₁ : Store} {o : Option (β × Store)}
    (hx : Steady x) (hf : Steady (f · a)) (h : Reaches x st (some (a, st₁)))
    (hrest : Reaches (f · a) st₁ o) : Reaches (fun R => x R >>= f R) st o := by
  obtain ⟨n, hn⟩ := h
  cases o with
  | none =>
      intro m
      refine Option.eq_none_iff_forall_ne_some.2 fun ⟨b, st'⟩ hm => ?_
      obtain ⟨a', st₁', hm, hrun⟩ := Run.bind_eq_some.1 hm
      have heq := (hx (Nat.le_max_left m n) hm).symm.trans (hx (Nat.le_max_right m n) hn)
      cases heq
      cases (hrest m).symm.trans hrun
  | some p =>
      obtain ⟨m, hm⟩ := hrest
      refine ⟨max n m, ?_⟩
      exact (Run.bind_of_eq_some (hx (Nat.le_max_left n m) hn)).trans (hf (Nat.le_max_right n m) hm)

/-- One computation after another gets to where the second gets from where the first has got. -/
theorem Reaches.bind {f : Runner → α → Run β} {o : Option (β × Store)} (hx : Steady x)
    (hf : ∀ a, Steady (f · a)) (h : Reaches (fun R => x R >>= f R) st o) :
    ∃ o₁, Reaches x st o₁ ∧
      match o₁ with
      | some (a, st₁) => Reaches (f · a) st₁ o
      | none => o = none := by
  obtain ⟨_ | ⟨a, st₁⟩, hfirst⟩ := exists_reaches x st
  · refine ⟨none, hfirst, h.unique (hx.bind hf) fun n => ?_⟩
    exact Option.bind_eq_none_iff.2 fun p hp => nomatch (hfirst n).symm.trans hp
  · obtain ⟨o', hsecond⟩ := exists_reaches (f · a) st₁
    obtain rfl := h.unique (hx.bind hf) (.seq hx (hf a) hfirst hsecond)
    exact ⟨_, hfirst, hsecond⟩

theorem Reaches.eq_of_forall {o c : Option (α × Store)} (heq : ∀ R, x R st = c)
    (h : Reaches x st o) : o = c := by
  cases o with
  | none => exact (h 0).symm.trans (heq _)
  | some p =>
      obtain ⟨n, hn⟩ := h
      exact hn.symm.trans (heq _)

theorem Reaches.eq_of_const {x : Run α} {o : Option (α × Store)} (h : Reaches (fun _ => x) st o) :
    o = x st :=
  h.eq_of_forall fun _ => rfl

theorem Reaches.map {g : α → β} {o : Option (β × Store)}
    (h : Reaches (fun R => x R >>= fun a => pure (g a)) st o) (hx : Steady x) :
    ∃ o₁, Reaches x st o₁ ∧ o = o₁.map (Prod.map g id) := by
  obtain ⟨_ | ⟨a, st₁⟩, hfirst, hrest⟩ := h.bind hx fun a => .const (pure (g a))
  · exact ⟨none, hfirst, hrest⟩
  · exact ⟨_, hfirst, hrest.eq_of_const⟩

/-- A computation that takes one more unit of fuel gets to the same. -/
theorem Reaches.of_succ {y : Runner → Run α} {o : Option (α × Store)}
    (hzero : x (ofFuel 0) st = none) (hsucc : ∀ n, x (ofFuel (n + 1)) st = y (ofFuel n) st)
    (h : Reaches x st o) : Reaches y st o := by
  cases o with
  | none => exact fun n => (hsucc n).symm.trans (h (n + 1))
  | some p =>
      obtain ⟨_ | n, hn⟩ := h
      · cases hzero.symm.trans hn
      · exact ⟨n, (hsucc n).symm.trans hn⟩

/-- Moving a traversal on is one step of it. -/
theorem Reaches.step {t : Traversal} {o : Option ((Option Item × Traversal) × Store)}
    (h : Reaches (·.next t) st o) : Reaches t.step st o :=
  h.of_succ rfl fun _ => rfl

theorem Reaches.forceCell {r : Ref} {o : Option (Except RuntimeError Value × Store)}
    (h : Reaches (fun R => (R.force r).run) st o) :
    Reaches (fun R => (R.forceCell r).run) st o :=
  h.of_succ rfl fun _ => rfl

end Reaches

end Runner

namespace Traversal

open Runner

/-- A move of a traversal: the store in which it began, and the item that it gave with the store
that it led to. There is no result if the move never came to an end. -/
structure Move where
  before : Store
  result : Option (Option Item × Store)

namespace Move

/-- The store that a move led to. -/
def after (m : Move) : Option Store := m.result.map Prod.snd

/-- The item that a move gave, if it gave one. -/
def item (m : Move) : Option Item := m.result.bind Prod.fst

end Move

/-- Moves of a traversal, each from where the one before it got to. Anything may have happened to
the store in between. -/
inductive Tour : Traversal → List Move → Prop
  | nil (t : Traversal) : Tour t []
  | stuck {t : Traversal} {st : Store} (h : Reaches (·.next t) st none) : Tour t [⟨st, none⟩]
  | cons {t t' : Traversal} {st st' : Store} {item : Option Item} {ms : List Move}
      (h : Reaches (·.next t) st (some ((item, t'), st'))) (hrest : Tour t' ms) :
      Tour t (⟨st, some (item, st')⟩ :: ms)

end Traversal

end LazyLang
