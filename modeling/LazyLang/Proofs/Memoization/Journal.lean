import Mathlib.Data.List.Basic
import LazyLang.Proofs.Evaluation.Worlds

/-!
# The life of a lazy value

A journal tells in order what a run does with lazy values: a value is added, its computation starts
and finishes, its outcome is replayed, or it is found to be needed by itself. Whatever computations
the values hold, and however their forcing is nested, the moves of a journal that concern one value
make up a life of it: it is added, it is pending until its computation starts, from then on it is
being forced and every force of it fails as cyclic, and once the computation has finished every
force replays the outcome. So no computation starts twice.

The computations are those of a tower of runners, of which each forces cells on top of the one below
it and does anything else in any way that leads along journals. Evaluation with fuel is such a
tower.
-/

namespace LazyLang

/-- What a run does with a lazy value. -/
inductive Move where
  | add (r : Ref) (c : Cell)
  | start (r : Ref)
  | finish (r : Ref) (outcome : Except RuntimeError Value)
  | replay (r : Ref) (outcome : Except RuntimeError Value)
  | cycle (r : Ref)

namespace Move

/-- The lazy value that a move is about. -/
def subject : Move → Ref
  | add r _ | start r | finish r _ | replay r _ | cycle r => r

/-- Whether a move starts the computation of the lazy value. -/
def starts (r : Ref) : Move → Bool
  | start s => s = r
  | _ => false

/-- Which lazy value a move answers a force of, and how. -/
def answer? : Move → Option (Ref × Except RuntimeError Value)
  | finish r outcome | replay r outcome => some (r, outcome)
  | cycle r => some (r, .error .cyclicEvaluation)
  | add _ _ | start _ => none

/-- The answers that moves give. -/
def answers (ms : List Move) : List (Ref × Except RuntimeError Value) := ms.filterMap answer?

theorem answers_append (ms ms' : List Move) : answers (ms ++ ms') = answers ms ++ answers ms' :=
  List.filterMap_append

theorem answers_singleton {m : Move} {answer : Ref × Except RuntimeError Value}
    (h : m.answer? = some answer) : answers [m] = [answer] := by
  rw [answers, List.filterMap_cons_some h, List.filterMap_nil]

theorem subject_of_starts {r : Ref} {m : Move} (h : m.starts r = true) : m.subject = r := by
  cases m with
  | start s => exact of_decide_eq_true h
  | _ => cases h

end Move

/-- The moves that lead from one store to another, where computations are run by some runners of a
family. -/
inductive Journal (runners : ℕ → Runner) : Store → List Move → Store → Prop
  | nil (st : Store) : Journal runners st [] st
  | append {st st' st'' : Store} {ms ms' : List Move} (h : Journal runners st ms st')
      (h' : Journal runners st' ms' st'') : Journal runners st (ms ++ ms') st''
  | add (st : Store) {c : Cell} (hc : c ≠ .forcing) :
      Journal runners st [.add (st.add c).1 c] (st.add c).2
  | note (st : Store) (e : Event) : Journal runners st [] (st.note e)
  | replay {st : Store} {r : Ref} {outcome : Except RuntimeError Value}
      (hr : r.index < st.cells.size) (h : st.cell r = .done outcome) :
      Journal runners st [.replay r outcome] st
  | cycle {st : Store} {r : Ref} (h : st.cell r = .forcing) : Journal runners st [.cycle r] st
  | run {st st' : Store} {r : Ref} {thunk : Thunk} {n : ℕ} {outcome : Except RuntimeError Value}
      {ms : List Move} (h : st.cell r = .pending thunk)
      (hrun : (thunk.run (runners n)).run (st.set r .forcing) = some (outcome, st'))
      (hms : Journal runners (st.set r .forcing) ms st') :
      Journal runners st (.start r :: ms ++ [.finish r outcome]) (st'.set r (.done outcome))

/-- The contents of a lazy value, if there is one at the address. -/
def Store.cell? (st : Store) (r : Ref) : Option Cell := st.cells[r.index]?

/-- The lives of a lazy value: moves that are about it, from what it is at first to what it is in
the end. -/
inductive Life (r : Ref) : Option Cell → List Move → Option Cell → Prop
  | rest (c : Option Cell) : Life r c [] c
  | add {c : Cell} {ms : List Move} {c' : Option Cell} (h : Life r (some c) ms c') :
      Life r none (.add r c :: ms) c'
  | start {thunk : Thunk} {ms : List Move} {c : Option Cell} (h : Life r (some .forcing) ms c) :
      Life r (some (.pending thunk)) (.start r :: ms) c
  | cycle {ms : List Move} {c : Option Cell} (h : Life r (some .forcing) ms c) :
      Life r (some .forcing) (.cycle r :: ms) c
  | finish {outcome : Except RuntimeError Value} {ms : List Move} {c : Option Cell}
      (h : Life r (some (.done outcome)) ms c) :
      Life r (some .forcing) (.finish r outcome :: ms) c
  | replay {outcome : Except RuntimeError Value} {ms : List Move} {c : Option Cell}
      (h : Life r (some (.done outcome)) ms c) :
      Life r (some (.done outcome)) (.replay r outcome :: ms) c

namespace Life

variable {r : Ref} {c c' c'' : Option Cell} {ms ms' : List Move}

theorem trans (h : Life r c ms c') (h' : Life r c' ms' c'') : Life r c (ms ++ ms') c'' := by
  induction h with
  | rest => exact h'
  | add _ ih => exact .add (ih h')
  | start _ ih => exact .start (ih h')
  | cycle _ ih => exact .cycle (ih h')
  | finish _ ih => exact .finish (ih h')
  | replay _ ih => exact .replay (ih h')

/-- A computation starts at most once, and not at all after that. -/
theorem countP_starts_le (h : Life r c ms c') :
    ms.countP (·.starts r) ≤
      match c with
      | some .forcing | some (.done _) => 0
      | some (.pending _) | none => 1 := by
  induction h with
  | rest => exact Nat.zero_le _
  | add _ ih =>
      rw [List.countP_cons_of_neg (by simp [Move.starts])]
      exact ih.trans (by split <;> omega)
  | start _ ih =>
      rw [List.countP_cons_of_pos (by simp [Move.starts])]
      exact Nat.succ_le_succ ih
  | cycle _ ih | finish _ ih | replay _ ih =>
      rwa [List.countP_cons_of_neg (by simp [Move.starts])]

theorem countP_starts_le_one (h : Life r c ms c') : ms.countP (·.starts r) ≤ 1 :=
  h.countP_starts_le.trans (by split <;> omega)

/-- What is done stays done. -/
theorem done {o : Except RuntimeError Value} (h : Life r (some (.done o)) ms c) :
    c = some (.done o) := by
  generalize hc : some (Cell.done o) = c₀ at h
  induction h with
  | rest => rfl
  | replay _ ih => exact ih hc
  | _ => cases hc

end Life

namespace Store

variable {st : Store} {r s : Ref}

theorem cell?_eq_some (h : r.index < st.cells.size) : st.cell? r = some (st.cell r) := by
  simp [cell?, cell, h]

theorem lt_size_of_cell?_eq_some {c : Cell} (h : st.cell? r = some c) :
    r.index < st.cells.size :=
  (Array.getElem?_eq_some_iff.1 h).1

theorem cell_of_cell?_eq_some {c : Cell} (h : st.cell? r = some c) : st.cell r = c :=
  Option.some.inj ((cell?_eq_some (lt_size_of_cell?_eq_some h)).symm.trans h)

theorem cell?_add_self (st : Store) (c : Cell) : (st.add c).2.cell? (st.add c).1 = some c := by
  simp [cell?, add]

theorem cell?_fresh (st : Store) (c : Cell) : st.cell? (st.add c).1 = none := by
  simp [cell?, add]

theorem cell?_add_of_ne {c : Cell} (h : (st.add c).1 ≠ r) : (st.add c).2.cell? r = st.cell? r := by
  have hne : st.cells.size ≠ r.index := fun heq => h (by rw [add, heq])
  simp [cell?, add, Array.getElem?_push, hne.symm]

theorem cell?_set_self (h : r.index < st.cells.size) (c : Cell) :
    (st.set r c).cell? r = some c := by
  simp [cell?, set, h]

theorem cell?_set_of_ne (h : r ≠ s) (c : Cell) : (st.set r c).cell? s = st.cell? s := by
  have hne : r.index ≠ s.index := fun heq => h (by cases r; cases s; exact congrArg Ref.mk heq)
  simp [cell?, set, Array.getElem?_setIfInBounds_ne hne]

end Store

namespace Journal

variable {runners : ℕ → Runner} {st st' : Store} {ms : List Move} {r : Ref}

/-- What is being forced is still being forced when a run that began in between ends. -/
theorem cell_forcing (h : Journal runners st ms st') (hr : st.cell r = .forcing) :
    st'.cell r = .forcing := by
  induction h with
  | nil | note | replay | cycle => exact hr
  | append _ _ ih ih' => exact ih' (ih hr)
  | @add st c hc =>
      have hlt := Store.lt_size_of_cell fun o ho => Cell.noConfusion (hr.symm.trans ho)
      rw [Store.cell_add_of_lt hlt, hr]
  | @run st st' s thunk n outcome ms hs _ _ ih =>
      have hne : s ≠ r := fun heq => Cell.noConfusion (hs.symm.trans (heq ▸ hr))
      rw [Store.cell_set_of_ne hne] at ih ⊢
      exact ih hr

/-- The moves that concern a lazy value make up a life of it. -/
theorem life (h : Journal runners st ms st') (r : Ref) :
    Life r (st.cell? r) (ms.filter (·.subject = r)) (st'.cell? r) := by
  induction h with
  | nil | note => exact .rest _
  | append _ _ ih ih' =>
      rw [List.filter_append]
      exact ih.trans ih'
  | @add st c hc =>
      by_cases hr : (st.add c).1 = r
      · subst hr
        rw [List.filter_cons_of_pos (by simp [Move.subject]), Store.cell?_fresh,
          Store.cell?_add_self]
        exact .add (.rest _)
      · rw [List.filter_cons_of_neg (by simp [Move.subject, hr]), Store.cell?_add_of_ne hr]
        exact .rest _
  | @replay st s outcome hs h =>
      by_cases hr : s = r
      · subst hr
        rw [List.filter_cons_of_pos (by simp [Move.subject]), Store.cell?_eq_some hs, h]
        exact .replay (.rest _)
      · rw [List.filter_cons_of_neg (by simp [Move.subject, hr])]
        exact .rest _
  | @cycle st s h =>
      by_cases hr : s = r
      · subst hr
        have hs := Store.lt_size_of_cell fun o ho => Cell.noConfusion (h.symm.trans ho)
        rw [List.filter_cons_of_pos (by simp [Move.subject]), Store.cell?_eq_some hs, h]
        exact .cycle (.rest _)
      · rw [List.filter_cons_of_neg (by simp [Move.subject, hr])]
        exact .rest _
  | @run st st' s thunk n outcome ms h _ hms ih =>
      have hs := Store.lt_size_of_cell fun o ho => Cell.noConfusion (h.symm.trans ho)
      rw [List.filter_append]
      by_cases hr : s = r
      · subst hr
        have hforcing := hms.cell_forcing (Store.cell_set_self hs .forcing)
        have hs' := Store.lt_size_of_cell fun o ho => Cell.noConfusion (hforcing.symm.trans ho)
        rw [Store.cell?_set_self hs, Store.cell?_eq_some hs', hforcing] at ih
        rw [List.filter_cons_of_pos (by simp [Move.subject]),
          List.filter_cons_of_pos (by simp [Move.subject]), Store.cell?_set_self hs',
          Store.cell?_eq_some hs, h]
        exact .start (ih.trans (.finish (.rest _)))
      · rw [Store.cell?_set_of_ne hr] at ih
        rw [List.filter_cons_of_neg (by simp [Move.subject, hr]),
          List.filter_cons_of_neg (by simp [Move.subject, hr]), Store.cell?_set_of_ne hr,
          List.filter_nil, List.append_nil]
        exact ih

/-- The computation of a lazy value is started at most once. -/
theorem countP_starts_le_one (h : Journal runners st ms st') (r : Ref) :
    ms.countP (·.starts r) ≤ 1 := by
  have hstarts : ms.countP (·.starts r) = (ms.filter (·.subject = r)).countP (·.starts r) := by
    rw [List.countP_filter]
    refine List.countP_congr fun m _ => ⟨fun hm => ?_, fun hm => (Bool.and_eq_true_iff.1 hm).1⟩
    exact Bool.and_eq_true_iff.2 ⟨hm, decide_eq_true (Move.subject_of_starts hm)⟩
  rw [hstarts]
  exact (h.life r).countP_starts_le_one

/-- What is done stays done. -/
theorem cell?_done (h : Journal runners st ms st') {o : Except RuntimeError Value}
    (hr : st.cell? r = some (.done o)) : st'.cell? r = some (.done o) :=
  (hr ▸ h.life r).done

end Journal

/-- A run as a simulation of itself, in which stores are ordered by the journals that lead from one
to another. -/
abbrev Simulation.journaled (runners : ℕ → Runner) : Simulation :=
  .diagonal
    { le := fun st st' => ∃ ms, Journal runners st ms st'
      le_refl := fun st => ⟨[], .nil st⟩
      le_trans := fun _ _ _ ⟨ms, h⟩ ⟨ms', h'⟩ => ⟨ms ++ ms', h.append h'⟩ }
    (fun st _ hc => ⟨_, .add st hc⟩) (fun st e => ⟨[], .note st e⟩)

/-- Whatever the computation comes to, a journal leads to the store that it leaves. -/
def Run.Journaled (runners : ℕ → Runner) {α : Type} (x : Run α) : Prop :=
  ∀ ⦃st a st'⦄, x st = some (a, st') → ∃ ms, Journal runners st ms st'

/-- All that the runner does leads along journals. -/
structure Runner.Journaled (runners : ℕ → Runner) (R : Runner) : Prop where
  force : ∀ r, (R.force r).run.Journaled runners
  next : ∀ t, (R.next t).Journaled runners
  apply : ∀ f args, (R.apply f args).run.Journaled runners

/-- A tower of runners. Each forces a lazy value on top of the one below it. What moving a traversal
on and applying a function do is left open, and so is what the lowest runner does, except that it
leads along journals if what the runners below do does. The lowest runner may answer in any way, so
that a run which does not end can be cut off anywhere. -/
structure Tower where
  runner : ℕ → Runner
  lowest : (runner 0).Journaled runner
  force_succ : ∀ n, (runner (n + 1)).force = (runner n).forceCell
  next_succ : ∀ n, (runner n).Journaled runner → ∀ t, ((runner (n + 1)).next t).Journaled runner
  apply_succ : ∀ n, (runner n).Journaled runner →
    ∀ f args, ((runner (n + 1)).apply f args).run.Journaled runner

section

variable {runners : ℕ → Runner} {R : Runner} {α : Type} {L : Likeness α}

theorem Simulation.Follows.journaled {x : Run α} {y : ℕ → Run α}
    (h : ∀ w, (Simulation.journaled runners).Follows w L x y) : x.Journaled runners := by
  intro st a st' hrun
  obtain ⟨_, hle, _, _, _, ⟨rfl, rfl⟩, _⟩ := h st ⟨rfl, rfl⟩ hrun
  exact hle

theorem Run.Journaled.follows {x : Run α} (h : x.Journaled runners) (w : Store)
    (hL : ∀ a, L Eq a a) : (Simulation.journaled runners).Follows w L x fun _ => x := by
  rintro _ _ a st' ⟨rfl, rfl⟩ hrun
  exact ⟨st', h hrun, a, st', .of_forall fun _ => hrun, ⟨rfl, rfl⟩, hL a⟩

/-- What leads along journals follows itself along them. -/
theorem Runner.Journaled.runs (h : R.Journaled runners) :
    (Simulation.journaled runners).Runs R fun _ => R where
  fuel := .of_forall fun _ => le_refl _
  force := by
    rintro w r _ rfl
    exact (h.force r).follows w Value.Alike.lawful.outcome.refl
  next := by
    intro w t t' ht
    rw [← Traversal.Alike.lawful.eq ht]
    exact (h.next t).follows w (Likeness.lawful_item.option.prod Traversal.Alike.lawful).refl
  apply := by
    intro w f g xs ys hf hargs
    rw [← Function.Alike.lawful.eq hf, ← Likeness.lawful_slots.eq hargs]
    exact (h.apply f xs).follows w Value.Alike.lawful.outcome.refl

/-- The computation of a lazy value leads along a journal if all that its runner does does. -/
theorem Thunk.run_journaled (h : R.Journaled runners) (thunk : Thunk) :
    (thunk.run R).run.Journaled runners :=
  Simulation.Follows.journaled fun _ => h.runs.runThunk (Thunk.Alike.lawful.refl thunk)

/-- Forcing a lazy value leads along a journal, the last move of which gives the answer. -/
theorem Runner.exists_journal_forceCell {n : ℕ} (h : (runners n).Journaled runners) {r : Ref}
    {st st' : Store} {o : Except RuntimeError Value} (hr : r.index < st.cells.size)
    (hrun : ((runners n).forceCell r).run st = some (o, st')) :
    ∃ ms m, Journal runners st (ms ++ [m]) st' ∧ m.answer? = some (r, o) := by
  rw [Runner.forceCell_run] at hrun
  cases hcell : st.cell r with
  | done outcome =>
      rw [hcell] at hrun
      cases hrun
      exact ⟨[], .replay r o, .replay hr hcell, rfl⟩
  | forcing =>
      rw [hcell] at hrun
      cases hrun
      exact ⟨[], .cycle r, .cycle hcell, rfl⟩
  | pending thunk =>
      rw [hcell] at hrun
      obtain ⟨⟨o, st'⟩, hthunk, heq⟩ := Option.map_eq_some_iff.1 hrun
      cases heq
      obtain ⟨ms, hms⟩ := thunk.run_journaled h hthunk
      exact ⟨.start r :: ms, .finish r o, .run hcell hthunk hms, rfl⟩

end

namespace Tower

variable (T : Tower)

/-- All that the runners of a tower do leads along journals. -/
theorem journaled (n : ℕ) : (T.runner n).Journaled T.runner := by
  induction n with
  | zero => exact T.lowest
  | succ n ih =>
      refine ⟨fun r st o st' hrun => ?_, T.next_succ n ih, T.apply_succ n ih⟩
      rw [T.force_succ] at hrun
      by_cases hr : r.index < st.cells.size
      · obtain ⟨ms, m, hms, _⟩ := Runner.exists_journal_forceCell ih hr hrun
        exact ⟨ms ++ [m], hms⟩
      · rw [Runner.forceCell_run, Store.cell_of_size_le (Nat.le_of_not_lt hr)] at hrun
        cases hrun
        exact ⟨[], .nil st⟩

/-- Evaluation with fuel. -/
def evaluation : Tower where
  runner := .ofFuel
  lowest := ⟨fun _ _ _ _ h => (nomatch h), fun _ _ _ _ h => (nomatch h),
    fun _ _ _ _ _ h => (nomatch h)⟩
  force_succ := Runner.ofFuel_succ_force
  next_succ _ h t := Simulation.Follows.journaled fun _ =>
    h.runs.step (Traversal.Alike.lawful.refl t)
  apply_succ _ h f args := Simulation.Follows.journaled fun _ =>
    h.runs.applyFunction (Function.Alike.lawful.refl f) (Likeness.lawful_slots.refl args)

end Tower

/-- What a host does with lazy values from one store to another, and what it is answered when it
forces them. It adds values, moves traversals on, applies functions and forces values, in any order
and by any runners. A force of a pending value may be entered, so that the answers are there too
that are given while its computation runs. -/
inductive Session (T : Tower) : Store → List (Ref × Except RuntimeError Value) → Store → Prop
  | start (st : Store) : Session T st [] st
  | add {st s : Store} {answers : List (Ref × Except RuntimeError Value)} {c : Cell}
      (h : Session T st answers s) (hc : c ≠ .forcing) : Session T st answers (s.add c).2
  | note {st s : Store} {answers : List (Ref × Except RuntimeError Value)} (e : Event)
      (h : Session T st answers s) : Session T st answers (s.note e)
  | next {st s s' : Store} {answers : List (Ref × Except RuntimeError Value)} {n : ℕ}
      {t : Traversal} {x : Option Item × Traversal} (h : Session T st answers s)
      (hrun : (T.runner n).next t s = some (x, s')) : Session T st answers s'
  | apply {st s s' : Store} {answers : List (Ref × Except RuntimeError Value)} {n : ℕ}
      {f : Function} {args : List (Option Ref)} {o : Except RuntimeError Value}
      (h : Session T st answers s) (hrun : ((T.runner n).apply f args).run s = some (o, s')) :
      Session T st answers s'
  | force {st s s' : Store} {answers : List (Ref × Except RuntimeError Value)} {n : ℕ} {r : Ref}
      {o : Except RuntimeError Value} (h : Session T st answers s) (hr : r.index < s.cells.size)
      (hrun : ((T.runner (n + 1)).force r).run s = some (o, s')) :
      Session T st (answers ++ [(r, o)]) s'
  | enter {st s s' : Store} {answers inner : List (Ref × Except RuntimeError Value)} {n : ℕ}
      {r : Ref} {thunk : Thunk} {o : Except RuntimeError Value} (h : Session T st answers s)
      (hr : s.cell r = .pending thunk) (hinner : Session T (s.set r .forcing) inner s')
      (hrun : (thunk.run (T.runner n)).run (s.set r .forcing) = some (o, s')) :
      Session T st (answers ++ (inner ++ [(r, o)])) (s'.set r (.done o))

namespace Session

variable {T : Tower} {st st' : Store} {answers : List (Ref × Except RuntimeError Value)}

theorem extend {s : Store} {xs : List (Ref × Except RuntimeError Value)} {ms' : List Move}
    (h : ∃ ms, Journal T.runner st ms s ∧ answers.Sublist (Move.answers ms))
    (hms' : Journal T.runner s ms' st') (hxs : xs.Sublist (Move.answers ms')) :
    ∃ ms, Journal T.runner st ms st' ∧ (answers ++ xs).Sublist (Move.answers ms) := by
  obtain ⟨ms, hms, hanswers⟩ := h
  refine ⟨ms ++ ms', hms.append hms', ?_⟩
  rw [Move.answers_append]
  exact hanswers.append hxs

/-- The answers that a session gives are those of some moves of a journal, in the same order. -/
theorem exists_journal (h : Session T st answers st') :
    ∃ ms, Journal T.runner st ms st' ∧ answers.Sublist (Move.answers ms) := by
  induction h with
  | start st => exact ⟨[], .nil st, .slnil⟩
  | add _ hc ih => simpa using extend ih (.add _ hc) (List.nil_sublist _)
  | note e _ ih => simpa using extend ih (.note _ e) (List.nil_sublist _)
  | @next _ _ _ _ n t _ _ hrun ih =>
      obtain ⟨ms, hms⟩ := (T.journaled n).next t hrun
      simpa using extend ih hms (List.nil_sublist _)
  | @apply _ _ _ _ n f args _ _ hrun ih =>
      obtain ⟨ms, hms⟩ := (T.journaled n).apply f args hrun
      simpa using extend ih hms (List.nil_sublist _)
  | @force _ _ _ _ n r o _ hr hrun ih =>
      rw [T.force_succ] at hrun
      obtain ⟨ms, m, hms, hm⟩ := Runner.exists_journal_forceCell (T.journaled n) hr hrun
      refine extend ih hms ?_
      rw [Move.answers_append, Move.answers_singleton hm]
      exact List.sublist_append_right _ _
  | @enter _ s _ _ inner _ r _ o _ hr _ hrun ih ihinner =>
      obtain ⟨ms, hms, hsub⟩ := ihinner
      refine extend ih (.run hr hrun hms) ?_
      have hanswers :
          Move.answers (.start r :: ms ++ [.finish r o]) = Move.answers ms ++ [(r, o)] :=
        Move.answers_append (.start r :: ms) [.finish r o]
      rw [hanswers]
      exact hsub.append (.refl _)

/-- Whatever computations lazy values hold and however a host forces them, nested and by whatever
runners, there is a journal that leads along and gives the host its answers, in which the moves that
concern any one value make up a life of it, and its computation starts at most once. A value that
was being forced before the session is found to need itself after it, and one that was done then
has the same outcome, replayed without any change to the store. -/
theorem exists_lives (h : Session T st answers st') :
    ∃ ms, Journal T.runner st ms st' ∧ answers.Sublist (Move.answers ms) ∧ ∀ r,
      Life r (st.cell? r) (ms.filter (·.subject = r)) (st'.cell? r) ∧
        ms.countP (·.starts r) ≤ 1 ∧
        (st.cell? r = some .forcing →
          ∀ n, ((T.runner (n + 1)).force r).run st' = some (.error .cyclicEvaluation, st')) ∧
        ∀ o, st.cell? r = some (.done o) →
          ∀ n, ((T.runner (n + 1)).force r).run st' = some (o, st') := by
  obtain ⟨ms, hms, hanswers⟩ := h.exists_journal
  refine ⟨ms, hms, hanswers, fun r => ⟨hms.life r, hms.countP_starts_le_one r, ?_, ?_⟩⟩
  · intro hr n
    have hforcing := hms.cell_forcing (Store.cell_of_cell?_eq_some hr)
    rw [T.force_succ, Runner.forceCell_run, hforcing]
  · intro o hr n
    have hdone := Store.cell_of_cell?_eq_some (hms.cell?_done hr)
    rw [T.force_succ, Runner.forceCell_run, hdone]

/-- Forcing twice a value that stands for a number, and entering one that stands for itself. -/
theorem exists_lives_sample :
    let st : Store := ⟨#[.done (.ok (.integer 7)), .pending (.forward none ⟨0⟩),
      .pending (.forward none ⟨2⟩)], #[]⟩
    let answers : List (Ref × Except RuntimeError Value) := [(⟨1⟩, .ok (.integer 7)),
      (⟨1⟩, .ok (.integer 7)), (⟨2⟩, .error .cyclicEvaluation), (⟨2⟩, .error .cyclicEvaluation)]
    ∃ st', Session .evaluation st answers st' ∧
      ∃ ms, Journal Tower.evaluation.runner st ms st' ∧ answers.Sublist (Move.answers ms) ∧ ∀ r,
        Life r (st.cell? r) (ms.filter (·.subject = r)) (st'.cell? r) ∧
          ms.countP (·.starts r) ≤ 1 ∧
          (st.cell? r = some .forcing → ∀ n, ((Tower.evaluation.runner (n + 1)).force r).run st' =
            some (.error .cyclicEvaluation, st')) ∧
          ∀ o, st.cell? r = some (.done o) →
            ∀ n, ((Tower.evaluation.runner (n + 1)).force r).run st' = some (o, st') := by
  intro st answers
  have hfirst : Session .evaluation st [(⟨1⟩, .ok (.integer 7))] _ :=
    .force (n := 1) (.start st) (by decide) rfl
  have hsecond : Session .evaluation st [(⟨1⟩, .ok (.integer 7)), (⟨1⟩, .ok (.integer 7))] _ :=
    .force (n := 0) hfirst (by decide) rfl
  have hall : Session .evaluation st answers _ :=
    .enter (n := 1) hsecond rfl (.force (n := 0) (.start _) (by decide) rfl) rfl
  exact ⟨_, hall, hall.exists_lives⟩

end Session

end LazyLang
