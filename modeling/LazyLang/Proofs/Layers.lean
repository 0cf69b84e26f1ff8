import LazyLang.Layers
import Mathlib.Data.List.Forall2
import Mathlib.Data.List.Nodup

/-!
# What a name is bound to

A name is bound by the innermost layer that binds it, and in that layer by its last binding
(`Layers.Binds`). The order of the others does not count, so a projection of a scope may list what a
layer binds in any order (`Layers.ProjectsTo`), and still a name means in it what it means in the
scope.
-/

namespace LazyLang

namespace Layers

variable {α β : Type} {name : String}

/-- The name is bound to the value: by the innermost layer that binds it at all, and there by the
last binding of it. -/
inductive Binds (name : String) (value : α) : Layers α → Prop
  | here {earlier later : List (String × α)} {outer : Layers α}
      (h : ∀ binding ∈ later, binding.1 ≠ name) :
      Binds name value ((earlier ++ (name, value) :: later) :: outer)
  | outer {layer : List (String × α)} {outer : Layers α} (h : ∀ binding ∈ layer, binding.1 ≠ name)
      (hb : Binds name value outer) : Binds name value (layer :: outer)

theorem lookupLast_eq_none_iff {layer : List (String × α)} :
    lookupLast name layer = none ↔ ∀ binding ∈ layer, binding.1 ≠ name := by
  induction layer with
  | nil => simp [lookupLast]
  | cons head rest ih =>
      obtain ⟨other, value⟩ := head
      rw [lookupLast, List.forall_mem_cons, ← ih]
      cases lookupLast name rest with
      | some later => simp
      | none => simp

/-- The bindings before the last one of a name do not count. -/
theorem lookupLast_append_cons {earlier later : List (String × α)} (value : α)
    (h : ∀ binding ∈ later, binding.1 ≠ name) :
    lookupLast name (earlier ++ (name, value) :: later) = some value := by
  induction earlier with
  | nil => rw [List.nil_append, lookupLast, lookupLast_eq_none_iff.2 h, if_pos rfl]
  | cons head rest ih => rw [List.cons_append, lookupLast, ih]

theorem exists_of_lookupLast {layer : List (String × α)} {value : α}
    (h : lookupLast name layer = some value) :
    ∃ earlier later, layer = earlier ++ (name, value) :: later ∧
      ∀ binding ∈ later, binding.1 ≠ name := by
  induction layer with
  | nil => cases h
  | cons head rest ih =>
      obtain ⟨other, own⟩ := head
      rw [lookupLast] at h
      cases hrest : lookupLast name rest with
      | some later =>
          rw [hrest] at h
          obtain ⟨before, after, rfl, hafter⟩ := ih (hrest.trans h)
          exact ⟨(other, own) :: before, after, rfl, hafter⟩
      | none =>
          rw [hrest] at h
          dsimp only at h
          split at h
          · next heq =>
              cases h
              exact ⟨[], rest, by rw [heq, List.nil_append], lookupLast_eq_none_iff.1 hrest⟩
          · cases h

/-- The innermost and last binding of a name is the one that is found. -/
theorem get?_eq_some_iff {scope : Layers α} {value : α} :
    scope.get? name = some value ↔ scope.Binds name value := by
  constructor
  · intro h
    induction scope with
    | nil => cases h
    | cons layer outer ih =>
        rw [get?] at h
        cases hlayer : lookupLast name layer with
        | some own =>
            rw [hlayer] at h
            cases h
            obtain ⟨earlier, later, rfl, hlater⟩ := exists_of_lookupLast hlayer
            exact .here hlater
        | none =>
            rw [hlayer] at h
            exact .outer (lookupLast_eq_none_iff.1 hlayer) (ih h)
  · intro h
    induction h with
    | here h => rw [get?, lookupLast_append_cons value h]
    | outer h _ ih => rw [get?, lookupLast_eq_none_iff.2 h, ih]

/-- What a name is bound to stands in some layer. -/
theorem Binds.exists_mem {scope : Layers α} {value : α} (h : scope.Binds name value) :
    ∃ layer ∈ scope, (name, value) ∈ layer := by
  induction h with
  | here _ => exact ⟨_, List.mem_cons_self, List.mem_append_right _ List.mem_cons_self⟩
  | outer _ _ ih =>
      obtain ⟨layer, hlayer, hmem⟩ := ih
      exact ⟨layer, List.mem_cons_of_mem _ hlayer, hmem⟩

theorem exists_mem_of_get? {scope : Layers α} {value : α} (h : scope.get? name = some value) :
    ∃ layer ∈ scope, (name, value) ∈ layer :=
  (get?_eq_some_iff.1 h).exists_mem

/-- The list has what the layer binds, each name once and in any order, with its image. -/
structure Lists (f : α → β) (layer : List (String × α)) (list : List (String × β)) : Prop where
  once : (list.map (·.1)).Nodup
  mem_iff : ∀ name b, (name, b) ∈ list ↔ (lookupLast name layer).map f = some b

/-- The other scope has a layer for each layer of the scope, which lists the images of what that
layer binds. -/
def ProjectsTo (f : α → β) (scope : Layers α) (other : Layers β) : Prop :=
  scope.Forall₂ (Lists f) other

theorem lookupLast_of_mem {list : List (String × α)} {value : α} (h : (list.map (·.1)).Nodup)
    (hmem : (name, value) ∈ list) : lookupLast name list = some value := by
  obtain ⟨earlier, later, rfl⟩ := List.append_of_mem hmem
  rw [List.map_append, List.map_cons, List.nodup_append, List.nodup_cons] at h
  obtain ⟨-, ⟨hlater, -⟩, -⟩ := h
  refine lookupLast_append_cons value fun binding hbinding heq => hlater ?_
  exact List.mem_map.2 ⟨binding, hbinding, heq⟩

theorem Lists.lookupLast {f : α → β} {layer : List (String × α)} {list : List (String × β)}
    (h : Lists f layer list) (name : String) :
    lookupLast name list = (Layers.lookupLast name layer).map f := by
  cases hlayer : (Layers.lookupLast name layer).map f with
  | some b => exact lookupLast_of_mem h.once ((h.mem_iff name b).2 hlayer)
  | none =>
      refine lookupLast_eq_none_iff.2 fun binding hbinding heq => ?_
      have hsome := (h.mem_iff binding.1 binding.2).1 hbinding
      rw [heq, hlayer] at hsome
      cases hsome

/-- The order in which the layers of a projection list their bindings makes no difference. -/
theorem ProjectsTo.get? {f : α → β} {scope : Layers α} {other : Layers β}
    (h : scope.ProjectsTo f other) (name : String) :
    other.get? name = (Layers.get? scope name).map f := by
  induction h with
  | nil => rfl
  | cons hlayer _ ih =>
      rw [Layers.get?, Layers.get?, hlayer.lookupLast, ih]
      cases Layers.lookupLast name _ <;> rfl

end Layers

end LazyLang
