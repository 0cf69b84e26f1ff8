import LazyLang.Proofs.Evaluation.Places.Builtins
import LazyLang.Proofs.Memoization.Visits
import LazyLang.Proofs.Soundness.Standard
import LazyLang.Proofs.Verdict

/-!
# What executing a program comes to

A program over the standard library that the checker lets through is run as the tree that it is read
as: places, messages and types have no part in it, and neither has memoization. So two programs come
to the same, but for the places of the messages, if evaluation by name strips the lazy values of
their trees to the same outcomes.
-/

namespace LazyLang

open Filter Likeness

namespace Tree

mutual

theorem blank_bare : (e : Tree) → e.bare.blank = e.blank
  | .identifier _ _ | .integer _ _ | .float _ _ | .string _ _ | .boolean _ _ | .none _
  | .unrecognized _ _ => rfl
  | .array _ elements => by rw [Expr.bare, blank, blank, blankElements_bare elements]
  | .call _ callee args => by
      rw [Expr.bare, blank, blank, blank_bare callee, blankArgs_bare args]

theorem blankElements_bare : (elements : List Tree) →
    blankElements (Expr.bareElements elements) = blankElements elements
  | [] => rfl
  | e :: rest => by
      rw [Expr.bareElements, blankElements, blankElements, blank_bare e, blankElements_bare rest]

theorem blankArgs_bare : (args : List (Option Tree)) →
    blankArgs (Expr.bareArgs args) = blankArgs args
  | [] => rfl
  | none :: rest => by rw [Expr.bareArgs, blankArgs, blankArgs, blankArgs_bare rest]
  | some e :: rest => by
      rw [Expr.bareArgs, blankArgs, blankArgs, blank_bare e, blankArgs_bare rest]

end

/-- The lazy value of a tree over the standard library, and the store that holds both. -/
def loaded (e : Tree) : Ref × Store := e.blank.loaded

end Tree

section Library

theorem Library.value_unplaced {entry : Entry} (h : entry ∈ Library.standard) :
    entry.value.unplaced = entry.value := by
  rcases List.mem_append.1 h with h | h
  · obtain ⟨b, -, rfl⟩ := List.mem_map.1 h
    rfl
  · rcases List.mem_cons.1 h with rfl | h
    · rfl
    · cases List.mem_singleton.1 h
      rfl

theorem Scope.bindEntries_unplaced {entries : List Entry}
    (h : ∀ entry ∈ entries, entry.value.unplaced = entry.value) (st : Store) :
    bindEntries entries st.unplaced =
      ((bindEntries entries st).1, (bindEntries entries st).2.unplaced) := by
  induction entries generalizing st with
  | nil => rfl
  | cons entry rest ih =>
      have hadd := st.add_unplaced (.done (.ok entry.value))
      have hcell : (Cell.done (.ok entry.value)).unplaced = .done (.ok entry.value) :=
        congrArg (fun v => Cell.done (.ok v)) (h entry List.mem_cons_self)
      rw [hcell] at hadd
      rw [bindEntries, bindEntries, Store.addValue, Store.addValue, hadd]
      dsimp only
      rw [ih fun other hother => h other (List.mem_cons_of_mem _ hother)]

/-- The values of the library hold no expressions. -/
theorem Store.loaded_unplaced : Store.loaded.unplaced = Store.loaded := by
  have h := Scope.bindEntries_unplaced (fun _ => Library.value_unplaced) .empty
  rw [show Store.empty.unplaced = Store.empty by simp [Store.unplaced, Store.empty]] at h
  exact (congrArg Prod.snd h).symm

/-- An expression without what its nodes carry is suspended at the same place. -/
theorem Expr.loaded_unplaced (e : TypedExpr) :
    e.unplaced.loaded = (e.loaded.1, e.loaded.2.unplaced) := by
  have h := e.suspend_blind Scope.loaded.values Store.loaded
  rw [Store.loaded_unplaced] at h
  exact Option.some.inj h

end Library

variable {limit : Option ℕ} {o : Except RuntimeError (Option Plain)}

theorem Store.stripsTo_unplaced (st : Store) (r : Ref) :
    st.unplaced.StripsTo limit r o ↔ st.StripsTo limit r o := by
  have hrun : ∀ n, ((Runner.ofFuel n).stripRef limit r).run st.unplaced =
      (((Runner.ofFuel n).stripRef limit r).run st).map fun p => (p.1, p.2.unplaced) := by
    intro n
    refine ((Runner.blind_ofFuel n).stripRef limit r st).trans ?_
    cases ((Runner.ofFuel n).stripRef limit r).run st with
    | none => rfl
    | some p => cases h : p.1 <;> simp [h, Except.map]
  constructor
  · rintro ⟨n, st', hst'⟩
    rw [hrun] at hst'
    obtain ⟨p, hp, heq⟩ := Option.map_eq_some_iff.1 hst'
    cases heq
    exact ⟨n, p.2, hp⟩
  · rintro ⟨n, st', hst'⟩
    exact ⟨n, st'.unplaced, (hrun n).trans (by rw [hst']; rfl)⟩

/-- Whether the lazy value of a tree is stripped to the outcome, by a run by name. -/
def Tree.StripsTo (e : Tree) (limit : Option ℕ) (o : Except RuntimeError (Option Plain)) : Prop :=
  e.loaded.2.StripsByName limit e.loaded.1 o

/-- Neither memoization nor what the nodes carry has a part in what an expression is stripped to. -/
theorem Expr.stripsTo_loaded_iff (e : TypedExpr) :
    e.loaded.2.StripsTo limit e.loaded.1 o ↔ e.bare.StripsTo limit o := by
  obtain ⟨H, hst, hr, -⟩ := e.unplaced.exists_explains_loaded
  have hnamed :
      e.unplaced.loaded.2.StripsTo limit e.unplaced.loaded.1 o ↔ e.bare.StripsTo limit o :=
    hst.stripsTo_iff hr
  rw [← hnamed, e.loaded_unplaced, Store.stripsTo_unplaced]

theorem Tree.stripsTo_bare (e : Tree) : e.bare.StripsTo limit o ↔ e.StripsTo limit o := by
  rw [StripsTo, loaded, e.blank_bare]
  rfl

namespace Execution

/-- The outcome of stripping as the execution of a program that compiles without messages reports
it, with the message at the given place. -/
def report (span : Span) : Except RuntimeError (Option Plain) → Execution
  | .ok (some plain) => ⟨[], some plain, true, true⟩
  | .ok none =>
    ⟨[.error "Function values have no plain representation" span], none, true, false⟩
  | .error failure => ⟨[.error ("Internal error: " ++ failure.message) span], none, true, false⟩

/-- The execution without the places of its messages. -/
def unplaced (x : Execution) : Execution :=
  { x with messages := x.messages.map fun m => { m with span := Span.origin } }

theorem unplaced_report (span : Span) (o : Except RuntimeError (Option Plain)) :
    (report span o).unplaced = report Span.origin o := by
  rcases o with _ | _ | _ <;> rfl

end Execution

/-- Executing the source text over the standard library ends as `x`, but for the places of its
messages. -/
def EndsAs (source : String) (limit : Option ℕ) (x : Execution) : Prop :=
  ∃ fuel y st',
    (Runner.ofFuel fuel).execute source Scope.loaded limit Store.loaded = some (y, st') ∧
      y.unplaced = x

/-- The execution of a program that compiles without messages reports what its value is stripped
to. -/
theorem Runner.execute_of_compiled (R : Runner) {source : String} {tokens : List Token}
    {e : TypedExpr} (h : compile source Scope.loaded.types = ⟨[], tokens, some e, true⟩) :
    R.execute source Scope.loaded limit Store.loaded =
      ((R.stripRef limit e.loaded.1).run e.loaded.2).map fun p => (.report e.span p.1, p.2) := by
  rw [execute, h]
  change Option.bind (Option.bind ((R.stripRef limit e.loaded.1).run e.loaded.2) _) _ = _
  cases (R.stripRef limit e.loaded.1).run e.loaded.2 with
  | none => rfl
  | some p =>
      obtain ⟨o, st⟩ := p
      rcases o with _ | _ | _ <;> rfl

/-- Executing a program that is read as a tree without an error ends as its tree is stripped. -/
theorem Tree.ReadFrom.endsAs_iff {e : Tree} {source : String} {a : Ty} {x : Execution}
    (h : e.ReadFrom source) (hverdict : e.verdict Scope.loaded.types = some a) :
    EndsAs source limit x ↔ ∃ o, e.StripsTo limit o ∧ .report Span.origin o = x := by
  have hcompile := compile_of_readFrom h Scope.loaded.types
  rw [hverdict] at hcompile
  obtain ⟨tokens, typed, hbare, -, hcompile⟩ := hcompile
  have hrun : ∀ n, (Runner.ofFuel n).execute source Scope.loaded limit Store.loaded = _ :=
    fun n => (Runner.ofFuel n).execute_of_compiled hcompile
  have hiff : ∀ o, typed.loaded.2.StripsTo limit typed.loaded.1 o ↔ e.StripsTo limit o := by
    intro o
    rw [typed.stripsTo_loaded_iff, hbare, e.stripsTo_bare]
  constructor
  · rintro ⟨n, y, st', hy, rfl⟩
    rw [hrun] at hy
    obtain ⟨p, hp, heq⟩ := Option.map_eq_some_iff.1 hy
    cases heq
    exact ⟨p.1, (hiff p.1).1 ⟨n, p.2, hp⟩, (Execution.unplaced_report _ _).symm⟩
  · rintro ⟨o, ho, rfl⟩
    obtain ⟨n, st', hst'⟩ := (hiff o).2 ho
    exact ⟨n, _, st', (hrun n).trans (by rw [hst']; rfl), Execution.unplaced_report _ _⟩

end LazyLang
