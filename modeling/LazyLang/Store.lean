import LazyLang.Value

/-!
# The store of lazy values

A lazy value is a cell that holds a deferred computation until it is first forced, and its outcome
from then on. While the computation runs the cell is marked, so that a value which needs itself is
noticed. The store also keeps the events that a host asked to be told of.

`Run` is a computation on a store that may run out of fuel; `Eval` may also fail like a program.
-/

namespace LazyLang

/-- A deferred computation: a call whose function is itself lazy, a call of a known function, or
another lazy value, noted under a tag if there is one. -/
inductive Thunk where
  | apply (callee : Ref) (args : List (Option Ref))
  | call (f : Function) (args : List Ref)
  | forward (tag : Option String) (target : Ref)

/-- A lazy value: not yet forced, being forced, or done. -/
inductive Cell where
  | pending (thunk : Thunk)
  | forcing
  | done (outcome : Except RuntimeError Value)

/-- Something that a host asked to be told of. -/
inductive Event where
  | traversed (tag : String)
  | pulled (tag : String) (index : Nat)
  | forced (tag : String)
  | called (name : String)
  deriving DecidableEq

/-- The event in words. -/
def Event.render : Event → String
  | traversed tag => "iter " ++ tag
  | pulled tag index => "pull " ++ tag ++ "[" ++ toString index ++ "]"
  | forced tag => "force " ++ tag
  | called name => "call " ++ name

/-- Lazy values by their addresses, and the events so far. -/
structure Store where
  cells : Array Cell
  events : Array Event

namespace Store

/-- The store without lazy values. -/
def empty : Store := ⟨#[], #[]⟩

/-- The cell at an address. Addresses come from `add`, so there always is one; elsewhere nothing can
be recognized. -/
def cell (st : Store) (r : Ref) : Cell :=
  st.cells.getD r.index (.done (.error .unrecognized))

/-- Puts a new cell into the store and gives its address. -/
def add (c : Cell) (st : Store) : Ref × Store :=
  (⟨st.cells.size⟩, { st with cells := st.cells.push c })

/-- Replaces the cell at an address. -/
def set (r : Ref) (c : Cell) (st : Store) : Store :=
  { st with cells := st.cells.setIfInBounds r.index c }

/-- Notes an event. -/
def note (e : Event) (st : Store) : Store := { st with events := st.events.push e }

/-- Adds a value that is known already. -/
def addValue (v : Value) (st : Store) : Ref × Store := st.add (.done (.ok v))

/-- Adds a value whose evaluation has failed already. -/
def addFailure (e : RuntimeError) (st : Store) : Ref × Store := st.add (.done (.error e))

/-- Whether the lazy value has its outcome. -/
def isForced (st : Store) (r : Ref) : Bool :=
  match st.cell r with
  | .done _ => true
  | _ => false

@[simp] theorem cell_add_self (c : Cell) (st : Store) :
    (st.add c).2.cell (st.add c).1 = c := by
  simp [add, cell]

/-- A new cell leaves those before it as they are. -/
theorem cell_add_of_lt {r : Ref} {st : Store} (h : r.index < st.cells.size) (c : Cell) :
    (st.add c).2.cell r = st.cell r := by
  simp [add, cell, Array.getElem?_push_lt h, h]

theorem cell_set_self {r : Ref} {st : Store} (h : r.index < st.cells.size) (c : Cell) :
    (st.set r c).cell r = c := by
  simp [set, cell, h]

theorem cell_set_of_ne {r s : Ref} (h : r ≠ s) (c : Cell) (st : Store) :
    (st.set r c).cell s = st.cell s := by
  have hne : r.index ≠ s.index := fun e => h (by cases r; cases s; simp_all)
  simp [set, cell, Array.getElem?_setIfInBounds_ne hne]

@[simp] theorem cell_note (e : Event) (st : Store) (r : Ref) : (st.note e).cell r = st.cell r := rfl

/-- A lazy value in short: its outcome, if it is known. -/
def describe (st : Store) (r : Ref) : String :=
  match st.cell r with
  | .done (.ok v) => "Lazy(" ++ v.describe ++ ")"
  | .done (.error e) => "Lazy(error: " ++ e.message ++ ")"
  | _ => "Lazy(..)"

end Store

/-- A computation on a store; `none` when it runs out of fuel. -/
abbrev Run := StateT Store Option

/-- A computation on a store that may fail like a program. -/
abbrev Eval := ExceptT RuntimeError Run

namespace Run

/-- The computation that has no fuel left. -/
def outOfFuel {α : Type} : Run α := fun _ => none

/-- A change of the store. -/
def update {α : Type} (f : Store → α × Store) : Run α := fun st => some (f st)

/-- Puts a new cell into the store. -/
def add (c : Cell) : Run Ref := update (Store.add c)

/-- Defers a computation. -/
def defer (thunk : Thunk) : Run Ref := add (.pending thunk)

/-- Replaces a cell. -/
def set (r : Ref) (c : Cell) : Run Unit := update fun st => ((), st.set r c)

/-- Notes an event. -/
def note (e : Event) : Run Unit := update fun st => ((), st.note e)

theorem bind_eq_some {α β : Type} {x : Run α} {f : α → Run β} {st st'' : Store} {b : β} :
    (x >>= f) st = some (b, st'') ↔
      ∃ a st', x st = some (a, st') ∧ f a st' = some (b, st'') := by
  change (x st).bind (fun p => f p.1 p.2) = some (b, st'') ↔ _
  rw [Option.bind_eq_some_iff]
  constructor
  · rintro ⟨⟨a, st'⟩, hx, hf⟩
    exact ⟨a, st', hx, hf⟩
  · rintro ⟨a, st', hx, hf⟩
    exact ⟨(a, st'), hx, hf⟩

theorem bind_of_eq_some {α β : Type} {x : Run α} {f : α → Run β} {st st' : Store} {a : α}
    (h : x st = some (a, st')) : (x >>= f) st = f a st' := by
  change (x st).bind _ = _
  rw [h]
  rfl

end Run

namespace Eval

variable {α β : Type} {x : Eval α} {f : α → Eval β} {st st' : Store}

theorem bind_eq_some {o : Except RuntimeError β} :
    (x >>= f).run st = some (o, st') ↔
      (∃ e, x.run st = some (.error e, st') ∧ o = .error e) ∨
        ∃ a st₁, x.run st = some (.ok a, st₁) ∧ (f a).run st₁ = some (o, st') := by
  change (x.run >>= _ : Run (Except RuntimeError β)) st = some (o, st') ↔ _
  rw [Run.bind_eq_some]
  constructor
  · rintro ⟨_ | a, st₁, hx, hf⟩
    · cases hf
      exact .inl ⟨_, hx, rfl⟩
    · exact .inr ⟨a, st₁, hx, hf⟩
  · rintro (⟨e, hx, rfl⟩ | ⟨a, st₁, hx, hf⟩)
    · exact ⟨.error e, st', hx, rfl⟩
    · exact ⟨.ok a, st₁, hx, hf⟩

theorem bind_of_eq_ok {a : α} (h : x.run st = some (.ok a, st')) :
    (x >>= f).run st = (f a).run st' :=
  Run.bind_of_eq_some h

theorem bind_of_eq_error {e : RuntimeError} (h : x.run st = some (.error e, st')) :
    (x >>= f).run st = some (.error e, st') :=
  Run.bind_of_eq_some h

theorem bind_eq_ok {b : β} :
    (x >>= f).run st = some (.ok b, st') ↔
      ∃ a st₁, x.run st = some (.ok a, st₁) ∧ (f a).run st₁ = some (.ok b, st') := by
  rw [bind_eq_some]
  refine ⟨fun h => ?_, .inr⟩
  obtain ⟨e, -, he⟩ | h := h
  · cases he
  · exact h

theorem lift_eq_ok {x : Run α} {a : α} :
    (ExceptT.lift x : Eval α).run st = some (.ok a, st') ↔ x st = some (a, st') := by
  change (x st).bind (fun p => some (Except.ok p.1, p.2)) = some (Except.ok a, st') ↔ _
  cases x st <;> simp [Prod.ext_iff]

end Eval

namespace Expr

mutual

/-- The lazy value of an expression. A literal is done at once, a name is the value it is bound to,
and a call is deferred, with its function and its arguments as further lazy values. -/
def suspend (scope : ValueScope) : TypedExpr → Store → Ref × Store
  | identifier _ name, st =>
    match scope.get? name with
    | some r => (r, st)
    | Option.none => st.addFailure (.unboundIdentifier name)
  | integer _ value, st => st.addValue (.integer value)
  | float _ value, st => st.addValue (.float value)
  | string _ value, st => st.addValue (.string value)
  | boolean _ value, st => st.addValue (.boolean value)
  | none _, st => st.addValue .none
  | array _ elements, st => st.addValue (.array (.literal scope elements))
  | unrecognized _ _, st => st.addFailure .unrecognized
  | call _ callee args, st =>
    let (f, st) := suspend scope callee st
    let (refs, st) := suspendArgs scope args st
    st.add (.pending (.apply f refs))

/-- The lazy values of the arguments of a call. -/
def suspendArgs (scope : ValueScope) :
    List (Option TypedExpr) → Store → List (Option Ref) × Store
  | [], st => ([], st)
  | Option.none :: rest, st =>
    let (refs, st) := suspendArgs scope rest st
    (Option.none :: refs, st)
  | some e :: rest, st =>
    let (r, st) := suspend scope e st
    let (refs, st) := suspendArgs scope rest st
    (some r :: refs, st)

end

end Expr

end LazyLang
