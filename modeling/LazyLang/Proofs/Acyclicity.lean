import LazyLang.Proofs.Acyclicity.Operations
import LazyLang.Proofs.Memoization.Visits

/-!
# No value depends on itself

A host that has the lazy value of a program may force and strip any values and traverse any arrays
that it comes across, in any order and as often as it likes. It never meets the failure of a value
that depends on itself, and no value is ever found to be forced already when it is to be forced
(`Visit.acyclic`).
-/

namespace LazyLang

open Filter Likeness Relation

/-- The failure that an outcome is, if it is one. -/
def failure? {α : Type} : Except RuntimeError α → Option RuntimeError
  | .ok _ => none
  | .error e => some e

theorem Untangled.failure?_ne {α : Type} {P : α → Prop} {o : Except RuntimeError α}
    (h : LazyLang.Untangled P o) : failure? o ≠ some .cyclicEvaluation := by
  cases o with
  | ok a => nofun
  | error e => exact fun heq => h (Option.some.inj heq)

theorem Library.value_untangled {entry : Entry} (h : entry ∈ Library.standard) :
    entry.value.Untangled := by
  rcases List.mem_append.1 h with h | h
  · obtain ⟨b, -, rfl⟩ := List.mem_map.1 h
    exact trivial
  · rcases List.mem_cons.1 h with rfl | h
    · exact trivial
    · cases List.mem_singleton.1 h
      exact trivial

namespace Run.Keeps

/-- Putting values into the store that hold no failures. -/
theorem bindEntries {entries : List Entry} (h : ∀ entry ∈ entries, entry.value.Untangled) :
    (Run.update (Scope.bindEntries entries)).Keeps Unknown := by
  induction entries with
  | nil => exact ret trivial
  | cons entry rest ih =>
      have hrun : Run.update (Scope.bindEntries (entry :: rest)) = (do
          let r ← Run.add (.done (.ok entry.value))
          let bindings ← Run.update (Scope.bindEntries rest)
          pure ((entry.name, ⟨entry.type, r⟩) :: bindings)) := rfl
      obtain ⟨hentry, hrest⟩ := List.forall_mem_cons.1 h
      rw [hrun]
      exact seq (add hentry) fun r _ => seq (ih hrest) fun bindings _ => ret trivial

theorem load (e : TypedExpr) : e.load.Keeps Unknown :=
  seq (bindEntries fun _ => Library.value_untangled) fun _ _ => suspend _ e

end Run.Keeps

namespace Visit

/-- What a host can do with the given runners, and the failure that it meets, if it meets one: force
a lazy value, force and strip it, start a traversal of the array that it is known to be, or move a
traversal on. -/
inductive Act (runners : ℕ → Runner) : Visit → Option RuntimeError → Visit → Prop
  | force {st st' : Store} {r : Ref} {fuel : ℕ} {outcome : Except RuntimeError Value}
      (held : List Traversal) (hr : r.index < st.cells.size)
      (hrun : ((runners fuel).force r).run st = some (outcome, st')) :
      Act runners ⟨st, held⟩ (failure? outcome) ⟨st', held⟩
  | strip {st st' : Store} {r : Ref} {fuel : ℕ} {outcome : Except RuntimeError (Option Plain)}
      (limit : Option ℕ) (held : List Traversal) (hr : r.index < st.cells.size)
      (hrun : ((runners fuel).stripRef limit r).run st = some (outcome, st')) :
      Act runners ⟨st, held⟩ (failure? outcome) ⟨st', held⟩
  | traverse {st st' : Store} {r : Ref} {s : Sequence} {t : Traversal} {fuel : ℕ}
      (held : List Traversal) (hr : st.cell r = .done (.ok (.array s)))
      (hrun : s.traverse (runners fuel) st = some (t, st')) :
      Act runners ⟨st, held⟩ none ⟨st', t :: held⟩
  | next {st st' : Store} {t t' : Traversal} {item : Option Item} {fuel : ℕ}
      {held : List Traversal} (ht : t ∈ held)
      (hrun : (runners fuel).next t st = some ((item, t'), st')) :
      Act runners ⟨st, held⟩ (item.bind failure?) ⟨st', t' :: held⟩

/-- One thing more that a host does. -/
def Moves (v v' : Visit) : Prop := ∃ failure, Act .ofFuel v failure v'

theorem Step.moves {v v' : Visit} (h : v.Step v') : v.Moves v' := by
  cases h with
  | force held hr hrun => exact ⟨_, .force held hr hrun⟩
  | traverse held hr hrun => exact ⟨_, .traverse held hr hrun⟩
  | next ht hrun => exact ⟨_, .next ht hrun⟩

variable {A : Arrangement} {v v' : Visit} {failure : Option RuntimeError} {answer : Eval Value}

/-- The lazy values are in a row, none of them is being forced, and the traversals give no others. -/
structure Orderly (A : Arrangement) (v : Visit) : Prop where
  fits : A.Fits v.store
  outer : A.outer = []
  held : ∀ t ∈ v.held, t.Alike A.Related t

/-- No outcome and no item held ready is the failure of a value that depends on itself. -/
structure Untangled (v : Visit) : Prop where
  store : v.store.Untangled
  held : ∀ t ∈ v.held, t.Untangled

theorem Orderly.related (h : v.Orderly A) {r : Ref} (hr : r.index < v.store.cells.size) :
    A.Related r r := by
  have hmem := (h.fits.mem r).2 hr
  rw [Arrangement.row, h.outer, List.append_nil] at hmem
  exact ⟨rfl, hmem⟩

theorem Orderly.later (h : v.Orderly A) {B : Arrangement} (hle : A ≤ B) {st : Store}
    (hst : B.Fits st) {held : List Traversal}
    (hheld : ∀ t ∈ held, t ∈ v.held ∨ t.Alike B.Related t) : Orderly B ⟨st, held⟩ where
  fits := hst
  outer := hle.2.1 ▸ h.outer
  held t ht := (hheld t ht).elim
    (fun ht => Traversal.Alike.lawful.mono (fun _ _ => Arrangement.Related.mono hle) (h.held t ht))
    id

/-- Whatever a host does comes to the same if a force that meets a value being forced answers
anything else, and leaves the values in a row. -/
theorem Orderly.act (h : v.Orderly A) (hact : Act .ofFuel v failure v') (answer : Eval Value) :
    (∃ B, v'.Orderly B) ∧ Act (.tied (Runner.forceAnswering answer)) v failure v' := by
  cases hact with
  | @force _ _ _ fuel _ held hr hrun =>
      have hfollows := (Simulation.runs_forceAnswering answer fuel).force (h.related hr)
      obtain ⟨B, hle, hst, -, hrun⟩ := h.fits.follow Value.Alike.lawful.outcome hfollows hrun
      exact ⟨⟨B, h.later hle hst fun _ => .inl⟩, .force held hr hrun⟩
  | @strip _ _ _ fuel _ limit held hr hrun =>
      have hfollows := (Simulation.runs_forceAnswering answer fuel).stripRef limit (h.related hr)
      obtain ⟨B, hle, hst, -, hrun⟩ := h.fits.follow lawful_plain.outcome hfollows hrun
      exact ⟨⟨B, h.later hle hst fun _ => .inl⟩, .strip limit held hr hrun⟩
  | @traverse _ _ _ s _ fuel held hr hrun =>
      have hs : s.Alike A.Related s := by
        have hcell := h.fits.cell (h.related (Store.lt_size_of_value hr)).2
        rw [hr] at hcell
        cases hcell with
        | done ho => cases ho with
            | ok hv => cases hv with
                | array hs => exact hs
      have hfollows := (Simulation.runs_forceAnswering answer fuel).traverse hs
      obtain ⟨B, hle, hst, ht, hrun⟩ := h.fits.follow Traversal.Alike.lawful hfollows hrun
      refine ⟨⟨B, h.later hle hst fun x hx => ?_⟩, .traverse held hr hrun⟩
      rcases List.mem_cons.1 hx with rfl | hx
      · exact .inr ht
      · exact .inl hx
  | @next _ _ t _ _ fuel held ht hrun =>
      have hfollows := (Simulation.runs_forceAnswering answer fuel).next (h.held t ht)
      obtain ⟨B, hle, hst, hnext, hrun⟩ :=
        h.fits.follow (lawful_item.option.prod Traversal.Alike.lawful) hfollows hrun
      refine ⟨⟨B, h.later hle hst fun x hx => ?_⟩, .next ht hrun⟩
      rcases List.mem_cons.1 hx with rfl | hx
      · exact .inr hnext.2
      · exact .inl hx

/-- Where a force that meets a value being forced answers with something else, a host does not meet
the failure of a value that depends on itself. -/
theorem Untangled.act (h : v.Untangled) (hanswer : answer.Keeps Value.Untangled)
    (hact : Act (.tied (Runner.forceAnswering answer)) v failure v') :
    v'.Untangled ∧ failure ≠ some .cyclicEvaluation := by
  have hR := Runner.untangled_tied hanswer
  cases hact with
  | @force _ _ r fuel outcome held _ hrun =>
      obtain ⟨hst, houtcome⟩ := (hR fuel).force r h.store hrun
      exact ⟨⟨hst, h.held⟩, houtcome.failure?_ne⟩
  | @strip _ _ r fuel outcome limit held _ hrun =>
      obtain ⟨hst, houtcome⟩ := (hR fuel).stripRef limit r h.store hrun
      exact ⟨⟨hst, h.held⟩, houtcome.failure?_ne⟩
  | @traverse _ _ r s t fuel held hr hrun =>
      have hs : s.Untangled := by
        have hcell := h.store.cell r
        rwa [hr] at hcell
      obtain ⟨hst, ht⟩ := (hR fuel).traverse s hs h.store hrun
      exact ⟨⟨hst, List.forall_mem_cons.2 ⟨ht, h.held⟩⟩, nofun⟩
  | @next _ _ t _ item fuel held ht hrun =>
      obtain ⟨hst, hitem, ht'⟩ := (hR fuel).next t (h.held t ht) h.store hrun
      refine ⟨⟨hst, List.forall_mem_cons.2 ⟨ht', h.held⟩⟩, ?_⟩
      cases item with
      | none => nofun
      | some item => exact (hitem item rfl).failure?_ne

theorem exists_orderly_start (e : TypedExpr) : ∃ A, (start e).Orderly A := by
  obtain ⟨B, hle, hst, -, -⟩ :=
    Arrangement.Fits.empty.follow lawful_ref (Simulation.Follows.load e) e.load_empty
  exact ⟨B, hst, hle.2.1.symm, fun t ht => absurd ht List.not_mem_nil⟩

theorem untangled_start (e : TypedExpr) : (start e).Untangled := by
  have hempty : Store.empty.Untangled := fun c hc => absurd hc (Array.not_mem_empty c)
  exact ⟨(Run.Keeps.load e hempty e.load_empty).1, fun t ht => absurd ht List.not_mem_nil⟩

/-- After whatever a host has done with the lazy value of an expression over the standard library,
the values are in a row and untangled. -/
theorem reached {e : TypedExpr} (hv : ReflTransGen Moves (.start e) v) :
    (∃ A, v.Orderly A) ∧ v.Untangled := by
  induction hv with
  | refl => exact ⟨exists_orderly_start e, untangled_start e⟩
  | tail _ hmove ih =>
      obtain ⟨⟨A, horderly⟩, huntangled⟩ := ih
      obtain ⟨failure, hact⟩ := hmove
      -- a run that never ends never fails, so that may be the answer
      obtain ⟨horderly', hact'⟩ := horderly.act hact (ExceptT.lift Run.outOfFuel)
      exact ⟨horderly', (huntangled.act .exhausted hact').1⟩

/-- Whatever a host does with the lazy value of an expression over the standard library, forcing,
stripping and traversing what it comes across in any order and as often as it likes, it never meets
the failure of a value that depends on itself, nor does it leave a value that has this outcome. A
force that comes across a value being forced could as well have any other answer, because there is
none. -/
theorem acyclic (e : TypedExpr) (hv : ReflTransGen Moves (.start e) v)
    (hact : Act .ofFuel v failure v') :
    failure ≠ some .cyclicEvaluation ∧
      (∀ r, v'.store.cell r ≠ .done (.error .cyclicEvaluation)) ∧
      ∀ answer, Act (.tied (Runner.forceAnswering answer)) v failure v' := by
  obtain ⟨⟨A, horderly⟩, huntangled⟩ := reached hv
  have hacts (answer) := (horderly.act hact answer).2
  obtain ⟨hv', hfailure⟩ := huntangled.act .exhausted (hacts (ExceptT.lift Run.outOfFuel))
  refine ⟨hfailure, fun r hr => ?_, hacts⟩
  have hcell := hv'.store.cell r
  rw [hr] at hcell
  exact hcell rfl

/-- A visit of the array that `take(2, iterate(neg, 1))` is, whose second element refers to the
first: the array is forced, its first element is taken, and then the whole of it is stripped. -/
theorem acyclic_sample :
    ∃ e v v' failure, (compile "take(2, iterate(neg, 1))"
        (Scope.standard Store.empty).1.types).expression = some e ∧
      ReflTransGen Moves (.start e) v ∧ Act .ofFuel v failure v' ∧
      failure ≠ some .cyclicEvaluation ∧
      (∀ r, v'.store.cell r ≠ .done (.error .cyclicEvaluation)) ∧
      ∀ answer, Act (.tied (Runner.forceAnswering answer)) v failure v' := by
  have hvisit : (compile "take(2, iterate(neg, 1))"
      (Scope.standard Store.empty).1.types).expression.any (fun e =>
        (takeFirst? 12 e.loaded.1 e.loaded.2).any fun v =>
          e.loaded.1.index < v.store.cells.size &&
            (((Runner.ofFuel 12).stripRef none e.loaded.1).run v.store).isSome) = true := by
    rw [compile, Token.tokenize_eq]
    decide +kernel
  obtain ⟨e, he, hvisit⟩ := (Option.any_eq_true _ _).1 hvisit
  obtain ⟨v, hfirst, hvisit⟩ := (Option.any_eq_true _ _).1 hvisit
  obtain ⟨hlt, hstrip⟩ := Bool.and_eq_true_iff.1 hvisit
  obtain ⟨⟨outcome, st'⟩, hrun⟩ := Option.isSome_iff_exists.1 hstrip
  have hstart : e.loaded.1.index < e.loaded.2.cells.size := by
    obtain ⟨H, h, hr⟩ := exists_accounts_start e
    exact hr.trans_eq h.explains.size.symm
  have hv : ReflTransGen Moves (.start e) v :=
    ReflTransGen.mono (fun _ _ => Step.moves) _ _ (reaches_of_takeFirst? hstart hfirst)
  have hact : Act .ofFuel v (failure? outcome) ⟨st', v.held⟩ :=
    .strip none v.held (of_decide_eq_true hlt) hrun
  exact ⟨e, v, ⟨st', v.held⟩, failure? outcome, he, hv, hact, acyclic e hv hact⟩

end Visit

end LazyLang
