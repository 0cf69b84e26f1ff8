import LazyLang.Proofs.Acyclicity
import LazyLang.Proofs.Evaluation.Reaching

/-!
# Iterating a function

An iteration gives the seed, then what the function makes of it, then what it makes of that, and so
on. Each item is a lazy value that stands for the call on the one before it, and an item is forced
before it is given, when the next call is deferred. So the items are always done, one by one and not
all at once at the end, and a traversal calls the function once for each item but the first
(`Traversal.Unfolds`). The first item that fails is followed by its failure, and then by nothing.

Between the moves of a traversal other computations may run. They lead to later stores, in which a
call that the traversal has deferred is still pending, or done if one of them has forced it. Only
the seed is an item that the traversal has not deferred itself. It could be in the middle of being
forced, but not where the values stand in a row, as they do in whatever a program leads to.
-/

namespace LazyLang

open Runner

namespace Runner

/-- What forcing a lazy value does: the computation that it starts, if it is pending, and what it
gets to. -/
inductive Settles (st : Store) (r : Ref) :
    Option Thunk → Option (Except RuntimeError Value × Store) → Prop
  | done {o : Except RuntimeError Value} (h : st.cell r = .done o) :
      Settles st r none (some (o, st))
  | forcing (h : st.cell r = .forcing) :
      Settles st r none (some (.error .cyclicEvaluation, st))
  | pending {thunk : Thunk} {reached : Option (Except RuntimeError Value × Store)}
      (h : st.cell r = .pending thunk)
      (hrun : Reaches (fun R => (thunk.run R).run) (st.set r .forcing) reached) :
      Settles st r (some thunk) (reached.map fun p => (p.1, p.2.set r (.done p.1)))

section Settles

variable {st st' : Store} {r : Ref} {started : Option Thunk} {o : Except RuntimeError Value}
  {reached : Option (Except RuntimeError Value × Store)}

/-- A lazy value that was forced has its outcome, unless that is what forcing it is in the middle
of. -/
theorem Settles.cell (h : Settles st r started (some (o, st'))) :
    st'.cell r = .done o ∨ st.cell r = .forcing ∧ o = .error .cyclicEvaluation := by
  generalize hend : some (o, st') = reached at h
  cases h with
  | done h =>
      cases hend
      exact .inl h
  | forcing h =>
      cases hend
      exact .inr ⟨h, rfl⟩
  | @pending thunk reached h hrun =>
      obtain ⟨⟨o, st₁⟩, rfl, hst⟩ := Option.map_eq_some_iff.1 hend.symm
      obtain ⟨rfl, rfl⟩ := Prod.mk.inj hst
      obtain ⟨n, hn⟩ := hrun
      have hlt := Store.lt_size_of_cell fun o' h' => Cell.noConfusion (h.symm.trans h')
      have hforcing := (Thunk.run_evolves hn).2 r (Store.cell_set_self hlt .forcing)
      have hlt' := Store.lt_size_of_cell fun o' h' => Cell.noConfusion (hforcing.symm.trans h')
      exact .inl (Store.cell_set_self hlt' _)

theorem Settles.cell_of_ok {v : Value} (h : Settles st r started (some (.ok v, st'))) :
    st'.cell r = .done (.ok v) :=
  h.cell.resolve_right fun hforcing => nomatch hforcing.2

theorem not_forcing_of_later {thunk : Thunk} (hle : Store.evolution.le st st')
    (h : st.cell r = .pending thunk) : st'.cell r ≠ .forcing := by
  intro hforcing
  cases World.fate_of_le (hle.1 []) h with
  | pending hr => cases hr.symm.trans hforcing
  | forcing _ above below _ hframes => simp at hframes
  | done _ _ _ _ _ hr => cases hr.symm.trans hforcing

theorem cell_of_later {v : Value} (hle : Store.evolution.le st st')
    (h : st.cell r = .done (.ok v)) : st'.cell r = .done (.ok v) :=
  World.done_of_le (hle.1 []) (Store.lt_size_of_value h) h

/-- A deferred call on something that is done: if it is forced later, then forcing it runs the call,
or some computation in between has run it. -/
theorem Settles.of_deferred {f : Function} {x : Ref} {v : Value} {before : Store}
    (hle : Store.evolution.le st before) (hr : st.cell r = .pending (.call f [x]))
    (hx : st.cell x = .done (.ok v)) (h : Settles before r started reached) :
    (started = none ∨ started = some (.call f [x])) ∧ ∀ p ∈ reached, ∃ s s',
      s.cell x = .done (.ok v) ∧
        Reaches (fun R => (R.call f [x]).run) s (some (p.1, s')) := by
  have hne : r ≠ x := by
    rintro rfl
    cases hr.symm.trans hx
  cases World.fate_of_le (hle.1 []) hr with
  | pending hpending =>
      cases h with
      | done h => cases h.symm.trans hpending
      | forcing h => cases h.symm.trans hpending
      | pending h hrun =>
          cases h.symm.trans hpending
          refine ⟨.inr rfl, fun p hp => ?_⟩
          obtain ⟨⟨o, s'⟩, rfl, rfl⟩ := Option.map_eq_some_iff.1 (Option.mem_def.1 hp)
          refine ⟨before.set r .forcing, s', ?_, hrun⟩
          rw [Store.cell_set_of_ne hne, cell_of_later hle hx]
  | forcing start above below _ hframes => simp at hframes
  | done start s' below fuel o hdone hpending hstart hrun _ =>
      cases h with
      | done h =>
          cases h.symm.trans hdone
          refine ⟨.inl rfl, ?_⟩
          rintro _ ⟨⟩
          refine ⟨start.set r .forcing, s', ?_, fuel, hrun⟩
          rw [Store.cell_set_of_ne hne]
          exact World.done_of_le hstart (Store.lt_size_of_value hx) hx
      | forcing h => cases h.symm.trans hdone
      | pending h => cases h.symm.trans hdone

end Settles

end Runner

namespace Traversal

/-- What an iteration has next once an item has come to an outcome, and the store then: the failure,
or the deferred call on the item. -/
def following (f : Function) (r : Ref) : Except RuntimeError Value × Store → Option Item × Store
  | (.error e, st) => (some (.error e), st)
  | (.ok _, st) =>
    (some (.ok (st.add (.pending (.call f [r]))).1), (st.add (.pending (.call f [r]))).2)

/-- Some moves of a traversal unfold the function from the seed. The item `r k` is the deferred call
on the one before it and comes to `o k`, and `started k` is the computation that the move to it
starts, if any. -/
structure Unfolds (f : Function) (seed : Ref) (ms : List Move) (r : Nat → Ref)
    (o : Nat → Except RuntimeError Value) (started : Nat → Option Thunk) : Prop where
  /-- The first item is the seed. -/
  start : r 0 = seed
  /-- While the items succeed, a move forces the next one, which comes to its outcome if it comes to
  an end, and then gives it. -/
  item : ∀ {k m}, ms[k]? = some m → (∀ i < k, ∃ v, o i = .ok v) → ∃ reached,
    Settles m.before (r k) (started k) reached ∧ (∀ p ∈ reached, p.1 = o k) ∧
      m.result = reached.map fun p => (some (.ok (r k)), (following f (r k) p).2)
  /-- The item is done when it is given, but for a seed that is being forced at the time. -/
  forced : ∀ {k m st}, ms[k]? = some m → (∀ i < k, ∃ v, o i = .ok v) → st ∈ m.after →
    st.cell (r k) = .done (o k) ∨ k = 0 ∧ m.before.cell seed = .forcing
  /-- An item comes to what the function does with the one before it. -/
  called : ∀ {k m}, ms[k + 1]? = some m → (∀ i ≤ k, ∃ v, o i = .ok v) → m.result.isSome →
    ∃ st st', st.cell (r k) = .done (o k) ∧
      Reaches (fun R => (R.call f [r k]).run) st (some (o (k + 1), st'))
  /-- No move starts anything but the call on the item before it. -/
  calls : ∀ {k}, k + 1 < ms.length →
    started (k + 1) = none ∨ started (k + 1) = some (.call f [r k])
  /-- The first failure is given once more, as an item of its own, and then there are no more. -/
  failed : ∀ {j e}, (∀ i < j, ∃ v, o i = .ok v) → o j = .error e → ∀ {k m}, j < k →
    ms[k]? = some m → started k = none ∧
      m.result = some (if k = j + 1 then some (.error e) else none, m.before)

section Iterate

variable {f : Function} {r : Ref} {st : Store} {ms : List Move}
  {o : Option ((Option Item × Traversal) × Store)}

/-- A sequence after a first member. -/
def prepend {α : Type} (first : α) (rest : Nat → α) : Nat → α
  | 0 => first
  | k + 1 => rest k

variable {seed : Ref} {st₁ : Store} {started₀ : Option Thunk} {e : RuntimeError} {v : Value}
  {rest : Nat → Ref} {o₁ : Nat → Except RuntimeError Value} {started : Nat → Option Thunk}

theorem Unfolds.nil (f : Function) (seed : Ref) :
    Unfolds f seed [] (fun _ => seed) (fun _ => .error .unrecognized) fun _ => none where
  start := rfl
  item := nofun
  forced := nofun
  called := nofun
  calls := nofun
  failed := fun _ _ _ _ _ h => nomatch h

theorem Unfolds.stuck (h : Settles st seed started₀ none) :
    Unfolds f seed [⟨st, none⟩] (fun _ => seed) (fun _ => .error .unrecognized)
      fun _ => started₀ where
  start := rfl
  item {k m} hm _ := by
    obtain ⟨-, rfl⟩ : k = 0 ∧ _ = m := by simpa [List.getElem?_singleton] using hm
    exact ⟨none, h, nofun, rfl⟩
  forced {k m _} hm _ hst := by
    obtain ⟨-, rfl⟩ : k = 0 ∧ _ = m := by simpa [List.getElem?_singleton] using hm
    cases hst
  called := nofun
  calls h := by simp at h
  failed _ _ k m hk hm := by
    obtain ⟨rfl, -⟩ : k = 0 ∧ _ = m := by simpa [List.getElem?_singleton] using hm
    cases hk

/-- The seed comes to a value, and the call on it is deferred. -/
theorem Unfolds.cons (h : Settles st seed started₀ (some (.ok v, st₁)))
    (hrest : Unfolds f (st₁.add (.pending (.call f [seed]))).1 ms rest o₁ started)
    (hlater : ∀ m, ms[0]? = some m →
      Store.evolution.le (st₁.add (.pending (.call f [seed]))).2 m.before) :
    Unfolds f seed
      (⟨st, some (some (.ok seed), (st₁.add (.pending (.call f [seed]))).2)⟩ :: ms)
      (prepend seed rest) (prepend (.ok v) o₁) (prepend started₀ started) := by
  have hv := h.cell_of_ok
  have hseed := (Store.cell_add_of_lt (Store.lt_size_of_value hv) (.pending (.call f [seed]))).trans
    hv
  have hpending := Store.cell_add_self (.pending (.call f [seed])) st₁
  generalize (st₁.add (.pending (.call f [seed]))).1 = r₁,
    hst₂ : (st₁.add (.pending (.call f [seed]))).2 = st₂ at *
  have hshift {k : Nat} (hok : ∀ i < k + 1, ∃ w, prepend (.ok v) o₁ i = .ok w) :
      ∀ i < k, ∃ w, o₁ i = .ok w := fun i hi => hok (i + 1) (Nat.succ_lt_succ hi)
  -- The first move of the rest forces the call that was deferred, if that was not done in between.
  have hfirst {m : Move} (hm : ms[0]? = some m) :
      ∃ reached : Option (Except RuntimeError Value × Store),
      (started 0 = none ∨ started 0 = some (.call f [seed])) ∧
        m.result = reached.map (fun p => (some (.ok (rest 0)), (following f (rest 0) p).2)) ∧
        ∀ p ∈ reached, p.1 = o₁ 0 ∧ ∃ s s', s.cell seed = .done (.ok v) ∧
          Reaches (fun R => (R.call f [seed]).run) s (some (p.1, s')) := by
    obtain ⟨reached, hsettles, hreached, hresult⟩ := hrest.item hm nofun
    rw [hrest.start] at hsettles
    obtain ⟨hstarted, hcalled⟩ := hsettles.of_deferred (hlater m hm) hpending hseed
    exact ⟨reached, hstarted, hresult, fun p hp => ⟨hreached p hp, hcalled p hp⟩⟩
  exact {
    start := rfl
    item := fun {k m} hm hok => by
      cases k with
      | zero =>
          cases hm
          refine ⟨_, h, ?_, by rw [← hst₂]; rfl⟩
          rintro _ ⟨⟩
          rfl
      | succ k => exact hrest.item hm (hshift hok)
    forced := fun {k m st'} hm hok hst => by
      cases k with
      | zero =>
          cases hm
          cases hst
          exact .inl hseed
      | succ k =>
          refine .inl ((hrest.forced hm (hshift hok) hst).resolve_right ?_)
          rintro ⟨rfl, hforcing⟩
          exact not_forcing_of_later (hlater m hm) hpending hforcing
    called := fun {k m} hm hok hsome => by
      cases k with
      | zero =>
          obtain ⟨reached, -, hresult, hcalled⟩ := hfirst hm
          rw [hresult, Option.isSome_map] at hsome
          obtain ⟨p, hp⟩ := Option.isSome_iff_exists.1 hsome
          obtain ⟨ho, hcall⟩ := hcalled p hp
          rwa [ho] at hcall
      | succ k => exact hrest.called hm (fun i hi => hok (i + 1) (Nat.succ_le_succ hi)) hsome
    calls := fun {k} hk => by
      cases k with
      | zero =>
          have hlt : 0 < ms.length := Nat.lt_of_succ_lt_succ hk
          obtain ⟨_, hstarted, -⟩ := hfirst (List.getElem?_eq_getElem hlt)
          exact hstarted
      | succ k => exact hrest.calls (Nat.lt_of_succ_lt_succ hk)
    failed := fun {j e} hok he {k m} hk hm => by
      cases j with
      | zero => cases he
      | succ j =>
          cases k with
          | zero => cases hk
          | succ k =>
              obtain ⟨hstarted, hresult⟩ := hrest.failed (hshift hok) he (Nat.lt_of_succ_lt_succ hk)
                hm
              refine ⟨hstarted, hresult.trans ?_⟩
              simp only [Nat.succ_inj] }

end Iterate

end Traversal

open Traversal

end LazyLang
