/-!
# Layered bindings

A scope binds names in layers, the innermost first. A name means what the innermost layer that binds
it says, and within a layer what it was bound to last. Extending a scope puts a layer on top and
leaves the scope below as it is.
-/

namespace LazyLang

/-- Names bound to `α`, in layers. -/
abbrev Layers (α : Type) := List (List (String × α))

namespace Layers

variable {α β : Type}

/-- What a layer binds the name to: the last binding counts. -/
def lookupLast (name : String) : List (String × α) → Option α
  | [] => none
  | (other, value) :: rest =>
    match lookupLast name rest with
    | some later => some later
    | none => if other = name then some value else none

/-- What the name is bound to. -/
def get? : Layers α → String → Option α
  | [], _ => none
  | layer :: outer, name =>
    match lookupLast name layer with
    | some value => some value
    | none => get? outer name

/-- The scope with a further layer on top. -/
def extend (scope : Layers α) (bindings : List (String × α)) : Layers α := bindings :: scope

/-- The scope with every binding replaced by its image. -/
def project (f : α → β) (scope : Layers α) : Layers β :=
  scope.map fun layer => layer.map fun binding => (binding.1, f binding.2)

/-- The names that the innermost layer binds, in order and each once. -/
def localNames (scope : Layers α) : List String :=
  match scope with
  | [] => []
  | layer :: _ => ((layer.map (·.1)).mergeSort (· ≤ ·)).eraseDups

@[simp] theorem get?_nil (name : String) : get? ([] : Layers α) name = none := rfl

theorem lookupLast_map (f : α → β) (name : String) (layer : List (String × α)) :
    lookupLast name (layer.map fun binding => (binding.1, f binding.2)) =
      (lookupLast name layer).map f := by
  induction layer with
  | nil => rfl
  | cons head rest ih =>
    simp only [List.map_cons, lookupLast, ih]
    cases lookupLast name rest with
    | some _ => rfl
    | none => by_cases h : head.1 = name <;> simp [h]

/-- Looking up in a projection is projecting what is looked up. -/
theorem get?_project (f : α → β) (scope : Layers α) (name : String) :
    (scope.project f).get? name = (scope.get? name).map f := by
  induction scope with
  | nil => rfl
  | cons layer outer ih =>
    simp only [project, List.map_cons, get?, lookupLast_map]
    cases lookupLast name layer with
    | some _ => rfl
    | none => simpa [project] using ih

end Layers

end LazyLang
