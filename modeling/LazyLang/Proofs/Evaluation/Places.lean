import LazyLang.Evaluation
import LazyLang.Proofs.Evaluation.Worlds
import LazyLang.Proofs.Grammar.Precedence

/-!
# Evaluation does not look at places

The elements of an array literal stay expressions until the array is traversed, with all that their
nodes carry: places, messages and types. Nothing of it is ever looked at. What a computation comes
to in a store without places is what it comes to in the store as it is, without places.
-/

namespace LazyLang

namespace Tree

mutual

/-- The tree as an annotated expression that has no annotation. -/
def blank : Tree → TypedExpr
  | .identifier _ name => .identifier ⟨Span.origin, [], Option.none⟩ name
  | .integer _ value => .integer ⟨Span.origin, [], Option.none⟩ value
  | .float _ value => .float ⟨Span.origin, [], Option.none⟩ value
  | .string _ value => .string ⟨Span.origin, [], Option.none⟩ value
  | .boolean _ value => .boolean ⟨Span.origin, [], Option.none⟩ value
  | .array _ elements => .array ⟨Span.origin, [], Option.none⟩ (blankElements elements)
  | .call _ callee args => .call ⟨Span.origin, [], Option.none⟩ (blank callee) (blankArgs args)
  | .none _ => .none ⟨Span.origin, [], Option.none⟩
  | .unrecognized _ tokens => .unrecognized ⟨Span.origin, [], Option.none⟩ tokens

/-- The elements of an array without annotations. -/
def blankElements : List Tree → List TypedExpr
  | [] => []
  | e :: rest => blank e :: blankElements rest

/-- The arguments of a call without annotations. -/
def blankArgs : List (Option Tree) → List (Option TypedExpr)
  | [] => []
  | none :: rest => none :: blankArgs rest
  | some e :: rest => some (blank e) :: blankArgs rest

end

end Tree

/-- The expression without what its nodes carry. -/
def Expr.unplaced (e : TypedExpr) : TypedExpr := e.bare.blank

/-- The elements of an array without what their nodes carry. -/
def Expr.unplacedElements (elements : List TypedExpr) : List TypedExpr :=
  Tree.blankElements (Expr.bareElements elements)

/-- The recipe without what the nodes of its literals carry. -/
def Sequence.unplaced : Sequence → Sequence
  | values items => values items
  | literal scope elements => literal scope (Expr.unplacedElements elements)
  | integers first stop => integers first stop
  | repeated item => repeated item
  | iterate step seed => iterate step seed
  | drop count source => drop count source.unplaced
  | take count source => take count source.unplaced
  | stepped step source => stepped step source.unplaced
  | reverse source => reverse source.unplaced
  | selection start stop step source => selection start stop step source.unplaced
  | concat first second => concat first.unplaced second.unplaced
  | map f source => map f source.unplaced
  | filter predicate source => filter predicate source.unplaced
  | zipWith f left right => zipWith f left.unplaced right.unplaced
  | watched tag items => watched tag items

/-- The traversal without what the nodes of literals carry. -/
def Traversal.unplaced : Traversal → Traversal
  | items rest => items rest
  | literal scope rest => literal scope (Expr.unplacedElements rest)
  | integers next stop => integers next stop
  | repeated item => repeated item
  | iterate step next => iterate step next
  | drop count source => drop count source.unplaced
  | take count source => take count source.unplaced
  | stepped fresh step source => stepped fresh step source.unplaced
  | concat first second => concat first.unplaced second.unplaced
  | map f source => map f source.unplaced
  | filter predicate source => filter predicate source.unplaced
  | zipWith f left right => zipWith f left.unplaced right.unplaced
  | watched tag index rest => watched tag index rest

/-- The value without what the nodes of literals carry. -/
def Value.unplaced : Value → Value
  | array items => array items.unplaced
  | other => other

/-- The cell without what the nodes of literals carry. -/
def Cell.unplaced : Cell → Cell
  | done outcome => done (outcome.map Value.unplaced)
  | other => other

/-- The store without what the nodes of literals carry. -/
def Store.unplaced (st : Store) : Store := ⟨st.cells.map Cell.unplaced, st.events⟩

namespace Store

variable (st : Store)

theorem cell_unplaced (r : Ref) : st.unplaced.cell r = (st.cell r).unplaced := by
  by_cases hr : r.index < st.cells.size <;> simp [cell, unplaced, hr, Cell.unplaced, Except.map]

theorem add_unplaced (c : Cell) :
    st.unplaced.add c.unplaced = ((st.add c).1, (st.add c).2.unplaced) := by
  simp [add, unplaced]

theorem set_unplaced (r : Ref) (c : Cell) :
    st.unplaced.set r c.unplaced = (st.set r c).unplaced := by
  simp [set, unplaced]

end Store

namespace Value

variable (v w : Value) (operation : String)

theorem truthy_unplaced : v.unplaced.truthy operation = v.truthy operation := by cases v <;> rfl

theorem toFloat_unplaced : v.unplaced.toFloat operation = v.toFloat operation := by cases v <;> rfl

theorem toInteger_unplaced : v.unplaced.toInteger operation = v.toInteger operation := by
  cases v <;> rfl

theorem toText_unplaced : v.unplaced.toText operation = v.toText operation := by cases v <;> rfl

theorem toFunction_unplaced : v.unplaced.toFunction = v.toFunction := by cases v <;> rfl

theorem toSequence_unplaced :
    v.unplaced.toSequence operation = (v.toSequence operation).map Sequence.unplaced := by
  cases v <;> rfl

theorem compareNumbers_unplaced :
    compareNumbers operation v.unplaced w.unplaced = compareNumbers operation v w := by
  cases v <;> cases w <;> rfl

/-- An outcome that holds no expression. -/
def Placeless (o : Except RuntimeError Value) : Prop := o.map unplaced = o

end Value

/-- In a store without places, `y` comes to what `x` comes to in the store as it is, as seen through
`φ`. -/
def Run.Blind {α β : Type} (φ : α → β) (x : Run α) (y : Run β) : Prop :=
  ∀ st, y st.unplaced = (x st).map fun p => (φ p.1, p.2.unplaced)

/-- The same for computations that may fail: they fail alike. -/
def Eval.Blind {α β : Type} (φ : α → β) (x : Eval α) (y : Eval β) : Prop :=
  Run.Blind (Except.map φ) x.run y.run

namespace Run.Blind

variable {α β α' β' : Type} {φ : α → β} {ψ : α' → β'}

theorem ret {a : α} {b : β} (h : φ a = b) : Blind φ (pure a) (pure b) := fun _ => by subst h; rfl

theorem exhausted : Blind φ outOfFuel outOfFuel := fun _ => rfl

theorem seq {x : Run α} {y : Run β} {f : α → Run α'} {g : β → Run β'} (h : Blind φ x y)
    (hf : ∀ a, Blind ψ (f a) (g (φ a))) : Blind ψ (x >>= f) (y >>= g) := by
  intro st
  change (y st.unplaced).bind _ = ((x st).bind _).map _
  rw [h st]
  cases x st with
  | none => rfl
  | some p => exact hf p.1 p.2

theorem add {c c' : Cell} (h : c.unplaced = c') : Blind id (Run.add c) (Run.add c') := by
  intro st
  subst h
  exact congrArg some (st.add_unplaced c)

theorem note (e : Event) : Blind id (Run.note e) (Run.note e) := fun _ => rfl

theorem defer (thunk : Thunk) : Blind id (Run.defer thunk) (Run.defer thunk) := add rfl

end Run.Blind

namespace Eval.Blind

variable {α β α' β' : Type} {φ : α → β} {ψ : α' → β'}

theorem ret {a : α} {b : β} (h : φ a = b) : Blind φ (pure a) (pure b) :=
  Run.Blind.ret (congrArg Except.ok h)

theorem fail (e : RuntimeError) : Blind φ (throw e) (throw e) := Run.Blind.ret rfl

theorem exhausted : Blind φ (ExceptT.lift Run.outOfFuel) (ExceptT.lift Run.outOfFuel) :=
  fun _ => rfl

theorem except {o : Except RuntimeError α} {o' : Except RuntimeError β} (h : o.map φ = o') :
    Blind φ (liftM o) (liftM o') := Run.Blind.ret h

/-- What holds no expression is the same without places. -/
theorem same (o : Except RuntimeError α) : Blind id (liftM o) (liftM o) :=
  except (by cases o <;> rfl)

theorem seq {x : Eval α} {y : Eval β} {f : α → Eval α'} {g : β → Eval β'} (h : Blind φ x y)
    (hf : ∀ a, Blind ψ (f a) (g (φ a))) : Blind ψ (x >>= f) (y >>= g) := by
  refine Run.Blind.seq h fun o => ?_
  cases o with
  | ok a => exact hf a
  | error e => exact Run.Blind.ret rfl

theorem lift {x : Run α} {y : Run β} (h : Run.Blind φ x y) :
    Blind φ (ExceptT.lift x) (ExceptT.lift y) :=
  Run.Blind.seq (f := fun a => pure (Except.ok a)) (g := fun b => pure (Except.ok b)) h fun _ =>
    Run.Blind.ret rfl

end Eval.Blind

namespace Expr

variable (scope : ValueScope)

theorem update_suspend_call (node : Node (Option Ty)) (callee : TypedExpr)
    (args : List (Option TypedExpr)) :
    Run.update ((call node callee args).suspend scope) = (do
      let f ← Run.update (callee.suspend scope)
      let refs ← Run.update (suspendArgs scope args)
      Run.defer (.apply f refs)) := rfl

theorem update_suspendArgs_none (rest : List (Option TypedExpr)) :
    Run.update (suspendArgs scope (Option.none :: rest)) = (do
      let refs ← Run.update (suspendArgs scope rest)
      pure (Option.none :: refs)) := rfl

theorem update_suspendArgs_some (e : TypedExpr) (rest : List (Option TypedExpr)) :
    Run.update (suspendArgs scope (some e :: rest)) = (do
      let r ← Run.update (e.suspend scope)
      let refs ← Run.update (suspendArgs scope rest)
      pure (some r :: refs)) := rfl

mutual

/-- Suspending an expression does not look at its nodes. -/
theorem suspend_blind : (e : TypedExpr) →
    Run.Blind id (Run.update (e.suspend scope)) (Run.update (e.unplaced.suspend scope))
  | .identifier _ name => by
      intro st
      simp only [Run.update, unplaced, bare, Tree.blank, suspend]
      cases scope.get? name with
      | some r => rfl
      | none => exact congrArg some (st.add_unplaced (.done (.error _)))
  | .integer _ _ | .float _ _ | .string _ _ | .boolean _ _ | .none _ | .array _ _
  | .unrecognized _ _ => Run.Blind.add rfl
  | .call _ callee args => by
      rw [unplaced, bare, Tree.blank, update_suspend_call, update_suspend_call]
      exact .seq (suspend_blind callee) fun f => .seq (suspendArgs_blind args) fun refs =>
        .defer (.apply f refs)

/-- Suspending the arguments of a call does not look at their nodes. -/
theorem suspendArgs_blind : (args : List (Option TypedExpr)) →
    Run.Blind id (Run.update (suspendArgs scope args))
      (Run.update (suspendArgs scope (Tree.blankArgs (bareArgs args))))
  | [] => fun _ => rfl
  | Option.none :: rest => by
      rw [bareArgs, Tree.blankArgs, update_suspendArgs_none, update_suspendArgs_none]
      exact .seq (suspendArgs_blind rest) fun _ => .ret rfl
  | some e :: rest => by
      rw [bareArgs, Tree.blankArgs, update_suspendArgs_some, update_suspendArgs_some]
      exact .seq (suspend_blind e) fun _ => .seq (suspendArgs_blind rest) fun _ => .ret rfl

end

end Expr

/-- The next item of a traversal and the traversal after it, without what the nodes of literals
carry. -/
abbrev Traversal.nextUnplaced (p : Option Item × Traversal) : Option Item × Traversal :=
  (p.1, p.2.unplaced)

/-- What `φ` makes of the step of a loop. -/
def strideMap {α β : Type} (φ : α → β) : ForInStep α → ForInStep β
  | .done a => .done (φ a)
  | .yield a => .yield (φ a)

/-- A runner that does not look at places. -/
structure Runner.Blind (R : Runner) : Prop where
  force : ∀ r, Eval.Blind Value.unplaced (R.force r) (R.force r)
  next : ∀ t, Run.Blind Traversal.nextUnplaced (R.next t) (R.next t.unplaced)
  apply : ∀ f args, Eval.Blind Value.unplaced (R.apply f args) (R.apply f args)

namespace Runner.Blind

variable {R : Runner} {β γ : Type} {φ : β → γ}

section

variable (h : R.Blind)

include h

theorem foldItems {step : β → Item → Eval (ForInStep β)} {step' : γ → Item → Eval (ForInStep γ)}
    (hstep : ∀ acc item, Eval.Blind (strideMap φ) (step acc item) (step' (φ acc) item)) (n : ℕ)
    (t : Traversal) (acc : β) :
    Eval.Blind φ (R.foldItems step n t acc) (R.foldItems step' n t.unplaced (φ acc)) := by
  induction n generalizing t acc with
  | zero => exact .exhausted
  | succ n ih =>
      simp only [Runner.foldItems]
      refine .seq (.lift (h.next t)) ?_
      rintro ⟨item, t⟩
      cases item with
      | none => exact .ret rfl
      | some item =>
          refine .seq (hstep acc item) fun o => ?_
          cases o with
          | done acc => exact .ret rfl
          | yield acc => exact ih t acc

theorem drainReversed (t : Traversal) :
    Eval.Blind id (R.drainReversed t) (R.drainReversed t.unplaced) := by
  refine h.foldItems (φ := id) (fun acc item => ?_) R.fuel t []
  exact .seq (.same item) fun _ => .ret rfl

theorem traverse (s : Sequence) :
    Run.Blind Traversal.unplaced (s.traverse R) (s.unplaced.traverse R) := by
  induction s with
  | values | literal | integers | repeated | iterate => exact .ret rfl
  | drop _ _ ih | take _ _ ih | stepped _ _ ih | map _ _ ih | filter _ _ ih =>
      exact .seq ih fun _ => .ret rfl
  | concat _ _ ih ih' | zipWith _ _ _ ih ih' =>
      exact .seq ih fun _ => .seq ih' fun _ => .ret rfl
  | reverse _ ih | selection _ _ _ _ ih =>
      refine .seq ih fun t => .seq (h.drainReversed t) fun o => ?_
      cases o <;> exact .ret rfl
  | watched tag items => exact .seq (.note _) fun _ => .ret rfl

theorem fold {step : β → Item → Eval (ForInStep β)} {step' : γ → Item → Eval (ForInStep γ)}
    (hstep : ∀ acc item, Eval.Blind (strideMap φ) (step acc item) (step' (φ acc) item))
    (s : Sequence) (start : β) :
    Eval.Blind φ (R.fold s start step) (R.fold s.unplaced (φ start) step') :=
  .seq (.lift (h.traverse s)) fun t => h.foldItems hstep R.fuel t start

theorem toList (s : Sequence) : Eval.Blind id (R.toList s) (R.toList s.unplaced) :=
  .seq (.lift (h.traverse s)) fun t => .seq (h.drainReversed t) fun _ => .ret rfl

theorem ahead (n : ℕ) (t : Traversal) :
    Run.Blind Traversal.nextUnplaced (t.ahead R n) (t.unplaced.ahead R n) := by
  induction n generalizing t with
  | zero => exact h.next t
  | succ n ih =>
      refine .seq (h.next t) ?_
      rintro ⟨item, t⟩
      cases item with
      | none => exact .ret rfl
      | some item => exact ih t

theorem nextMatch (predicate : Function) (n : ℕ) (t : Traversal) :
    Run.Blind Traversal.nextUnplaced (Traversal.nextMatch R predicate n t)
      (Traversal.nextMatch R predicate n t.unplaced) := by
  induction n generalizing t with
  | zero => exact .exhausted
  | succ n ih =>
      simp only [Traversal.nextMatch]
      refine .seq (h.next t) ?_
      rintro ⟨item, t⟩
      cases item with
      | none => exact .ret rfl
      | some item =>
          cases item with
          | error e => exact .ret rfl
          | ok r =>
              refine .seq (h.apply predicate _) fun o => ?_
              cases o with
              | error e => exact .ret rfl
              | ok v =>
                  simp only [Except.map, v.truthy_unplaced]
                  cases v.truthy "filter" with
                  | error e => exact .ret rfl
                  | ok holds =>
                      cases holds with
                      | true => exact .ret rfl
                      | false => exact ih t

theorem successor (step : Function) (item : Item) :
    Run.Blind id (Traversal.successor R step item) (Traversal.successor R step item) := by
  cases item with
  | error e => exact .ret rfl
  | ok r =>
      refine .seq (h.force r) fun o => ?_
      cases o with
      | error e => exact .ret rfl
      | ok _ => exact .seq (.defer _) fun _ => .ret rfl

omit h in
theorem mapItem (f : Function) (item : Item) :
    Run.Blind id (Traversal.mapItem f item) (Traversal.mapItem f item) := by
  cases item with
  | error e => exact .ret rfl
  | ok r => exact .seq (.defer _) fun _ => .ret rfl

omit h in
theorem zipItem (f : Function) (item item' : Item) :
    Run.Blind id (Traversal.zipItem f item item') (Traversal.zipItem f item item') := by
  cases item with
  | error e => exact .ret rfl
  | ok r =>
      cases item' with
      | error e => exact .ret rfl
      | ok s => exact .seq (.defer _) fun _ => .ret rfl

/-- Moving a traversal on. -/
theorem step (t : Traversal) :
    Run.Blind Traversal.nextUnplaced (t.step R) (t.unplaced.step R) := by
  cases t with
  | items rest => cases rest <;> exact .ret rfl
  | literal scope rest =>
      cases rest with
      | nil => exact .ret rfl
      | cons e rest => exact .seq (Expr.suspend_blind scope e) fun _ => .ret rfl
  | integers next stop =>
      simp only [Traversal.step, Traversal.unplaced]
      split
      · exact .seq (.add rfl) fun _ => .ret rfl
      · exact .ret rfl
  | repeated item => exact .ret rfl
  | iterate f next =>
      cases next with
      | none => exact .ret rfl
      | some item => exact .seq (h.successor f item) fun _ => .ret rfl
  | drop count source => exact .seq (h.ahead count source) fun _ => .ret rfl
  | take count source =>
      cases count with
      | zero => exact .ret rfl
      | succ count => exact .seq (h.next source) fun _ => .ret rfl
  | stepped fresh step source => exact .seq (h.ahead _ source) fun _ => .ret rfl
  | concat first second =>
      refine .seq (h.next first) ?_
      rintro ⟨item, t⟩
      cases item with
      | none => exact h.next second
      | some item => exact .ret rfl
  | map f source =>
      refine .seq (h.next source) ?_
      rintro ⟨item, t⟩
      cases item with
      | none => exact .ret rfl
      | some item => exact .seq (mapItem f item) fun _ => .ret rfl
  | filter predicate source =>
      exact .seq (h.nextMatch predicate R.fuel source) fun _ => .ret rfl
  | zipWith f left right =>
      refine .seq (h.next left) ?_
      rintro ⟨item, left⟩
      cases item with
      | none => exact .ret rfl
      | some item =>
          refine .seq (h.next right) ?_
          rintro ⟨item', right⟩
          cases item' with
          | none => exact .ret rfl
          | some item' => exact .seq (zipItem f item item') fun _ => .ret rfl
  | watched tag index rest =>
      cases rest with
      | nil => exact .ret rfl
      | cons item rest => exact .seq (.note _) fun _ => .ret rfl

end

end Runner.Blind

end LazyLang
