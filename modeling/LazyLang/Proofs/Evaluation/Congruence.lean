import Mathlib.Data.List.Forall2
import LazyLang.Evaluation.Builtins
import LazyLang.Proofs.Evaluation.Alike

/-!
# Operations on alike data

Whatever the language does to data without forcing anything gives alike results on alike data. A
number, a text or a failure that comes out is the same, since it holds no reference.
-/

namespace LazyLang

open Likeness

variable {ρ : Ref → Ref → Prop}

namespace Layers

theorem lookupLast_alike (name : String) {xs ys : List (String × Ref)}
    (h : (plain.prod ref).list ρ xs ys) :
    ref.option ρ (lookupLast name xs) (lookupLast name ys) := by
  induction h with
  | nil => exact .none
  | @cons x y xs ys h _ ih =>
      obtain ⟨name', r⟩ := x
      obtain ⟨_, s⟩ := y
      obtain ⟨rfl, hr⟩ := h
      rw [lookupLast, lookupLast]
      generalize lookupLast name xs = later, lookupLast name ys = later' at ih
      cases ih with
      | some h => exact .some h
      | none =>
          dsimp only
          split
          · exact .some hr
          · exact .none

theorem get?_alike (name : String) {xs ys : ValueScope} (h : Likeness.scope ρ xs ys) :
    ref.option ρ (xs.get? name) (ys.get? name) := by
  induction h with
  | nil => exact .none
  | @cons x y xs ys h _ ih =>
      have hlayer := lookupLast_alike name h
      rw [get?, get?]
      generalize lookupLast name x = found, lookupLast name y = found' at hlayer
      cases hlayer with
      | some h => exact .some h
      | none => exact ih

end Layers

namespace Function.Alike

variable {f g : Function}

theorem name_eq (h : f.Alike ρ g) : f.name = g.name := by cases h <;> rfl

theorem slots (h : f.Alike ρ g) : Likeness.slots ρ f.slots g.slots := by cases h <;> assumption

theorem withSlots (h : f.Alike ρ g) {xs ys : List (Option Ref)} (hs : Likeness.slots ρ xs ys) :
    (f.withSlots xs).Alike ρ (g.withSlots ys) := by
  cases h with
  | builtin b _ => exact .builtin b hs
  | pipeline name hf hg _ => exact .pipeline name hf hg hs
  | flipped hf _ => exact .flipped hf hs
  | host name haction _ => exact .host name haction hs

theorem openSlots_eq (h : f.Alike ρ g) : f.openSlots = g.openSlots := by
  have hslots := h.slots
  rw [Function.openSlots, Function.openSlots]
  generalize f.slots = xs, g.slots = ys at hslots
  induction hslots with
  | nil => rfl
  | cons hx _ ih =>
      rw [List.countP_cons, List.countP_cons, ih]
      cases hx <;> rfl

end Function.Alike

namespace Function

theorem fillSlots_alike {xs ys as bs : List (Option Ref)} (h : Likeness.slots ρ xs ys)
    (hargs : Likeness.slots ρ as bs) :
    Likeness.slots ρ (fillSlots xs as) (fillSlots ys bs) := by
  induction h generalizing as bs with
  | nil => cases hargs <;> exact .nil
  | cons hx hrest ih =>
      cases hargs with
      | nil => cases hx <;> exact .cons (by constructor <;> assumption) hrest
      | cons ha hargs =>
          cases hx with
          | some hr => exact .cons (.some hr) (ih (.cons ha hargs))
          | none => exact .cons ha (ih hargs)

theorem allFilled_alike {xs ys : List (Option Ref)} (h : Likeness.slots ρ xs ys) :
    ref.list.option ρ (allFilled xs) (allFilled ys) := by
  induction h with
  | nil => exact .some .nil
  | @cons x y xs ys hx _ ih =>
      cases hx with
      | none => exact .none
      | some hr =>
          rw [allFilled, allFilled]
          generalize allFilled xs = rest, allFilled ys = rest' at ih
          cases ih with
          | some h => exact .some (.cons hr h)
          | none => exact .none

/-- Both are functions of the slots that are still open, or both are complete argument lists. -/
inductive Supplied.Alike (ρ : Ref → Ref → Prop) : Supplied → Supplied → Prop
  | awaiting {f g : Function} (h : f.Alike ρ g) : Alike ρ (.awaiting f) (.awaiting g)
  | complete {xs ys : List Ref} (h : ref.list ρ xs ys) : Alike ρ (.complete xs) (.complete ys)

theorem supply_alike {f g : Function} (h : f.Alike ρ g) {as bs : List (Option Ref)}
    (hargs : Likeness.slots ρ as bs) :
    outcome Supplied.Alike ρ (f.supply as) (g.supply bs) := by
  have hslots := fillSlots_alike h.slots hargs
  have hfilled := allFilled_alike hslots
  rw [supply, supply, h.name_eq, h.openSlots_eq, hargs.length_eq]
  split
  · exact .error _
  · dsimp only
    generalize allFilled (fillSlots f.slots as) = refs, allFilled (fillSlots g.slots bs) = refs'
      at hfilled
    cases hfilled with
    | some h => exact .ok (.complete h)
    | none => exact .ok (.awaiting (h.withSlots hslots))

end Function

namespace Value.Alike

variable {v w v' w' : Value}

theorem truthy_eq (h : v.Alike ρ w) (operation : String) :
    v.truthy operation = w.truthy operation := by cases h <;> rfl

theorem toFloat_eq (h : v.Alike ρ w) (operation : String) :
    v.toFloat operation = w.toFloat operation := by cases h <;> rfl

theorem toInteger_eq (h : v.Alike ρ w) (operation : String) :
    v.toInteger operation = w.toInteger operation := by cases h <;> rfl

theorem toText_eq (h : v.Alike ρ w) (operation : String) :
    v.toText operation = w.toText operation := by cases h <;> rfl

theorem toSequence (h : v.Alike ρ w) (operation : String) :
    outcome Sequence.Alike ρ (v.toSequence operation) (w.toSequence operation) := by
  cases h with
  | array h => exact .ok h
  | _ => exact .error _

theorem toFunction (h : v.Alike ρ w) : outcome Function.Alike ρ v.toFunction w.toFunction := by
  cases h with
  | function h => exact .ok h
  | _ => exact .error _

theorem compareNumbers_eq (h : v.Alike ρ w) (h' : v'.Alike ρ w') (operation : String) :
    compareNumbers operation v v' = compareNumbers operation w w' := by
  cases h <;> cases h' <;> rfl

end Value.Alike

namespace Value

/-- An outcome without references: it is like itself under every relation. -/
def Closed (o : Except RuntimeError Value) : Prop := ∀ ρ, outcome Value.Alike ρ o o

/-- An operation on a value that gives alike outcomes on alike values. -/
def Respectful (op : Value → Except RuntimeError Value) : Prop :=
  ∀ ⦃ρ v w⦄, Value.Alike ρ v w → outcome Value.Alike ρ (op v) (op w)

/-- An operation on two values that gives alike outcomes on alike values. -/
def Respectful₂ (op : Value → Value → Except RuntimeError Value) : Prop :=
  ∀ ⦃ρ v w v' w'⦄, Value.Alike ρ v w → Value.Alike ρ v' w' →
    outcome Value.Alike ρ (op v v') (op w w')

theorem closed_error (e : RuntimeError) : Closed (.error e) := fun _ => .error e

theorem closed_float (x : Float) : Closed (.ok (.float x)) := fun _ => .ok (.float x)

theorem closed_map_float (o : Except RuntimeError Float) (f : Float → Float) :
    Closed (o.map fun x => .float (f x)) := by
  cases o with
  | error e => exact closed_error e
  | ok x => exact closed_float (f x)

theorem closed_fitInteger (operation : String) (n : Int) : Closed (fitInteger operation n) := by
  intro ρ
  rw [fitInteger]
  split
  · exact .ok (.integer _)
  · exact .error _

theorem closed_integerPower (x : Int) (n : Nat) : Closed (integerPower x n) := by
  rw [integerPower]
  split
  · exact closed_fitInteger _ _
  · split
    · exact closed_fitInteger _ _
    · exact closed_error _

/-- An operation on numbers only looks at numbers, and gives a number or fails. -/
theorem respectful_numeric (operation : String) {onIntegers : Int → Int → Except RuntimeError Value}
    (h : ∀ x y, Closed (onIntegers x y)) (onFloats : Float → Float → Float) :
    Respectful₂ (numeric operation onIntegers onFloats) := by
  intro ρ v w v' w' hv hv'
  have heq : numeric operation onIntegers onFloats v v' =
      numeric operation onIntegers onFloats w w' := by cases hv <;> cases hv' <;> rfl
  rw [heq]
  unfold numeric
  split
  · exact h _ _ ρ
  · split
    · exact .error _
    · split
      · exact .error _
      · exact .ok (.float _)

theorem respectful_add : Respectful₂ add :=
  respectful_numeric _ (fun _ _ => closed_fitInteger _ _) _

theorem respectful_subtract : Respectful₂ subtract :=
  respectful_numeric _ (fun _ _ => closed_fitInteger _ _) _

theorem respectful_multiply : Respectful₂ multiply :=
  respectful_numeric _ (fun _ _ => closed_fitInteger _ _) _

theorem respectful_divide : Respectful₂ divide := by
  refine respectful_numeric _ (fun x y => ?_) _
  split
  · exact closed_error _
  · exact closed_fitInteger _ _

theorem respectful_remainder : Respectful₂ remainder := by
  refine respectful_numeric _ (fun x y => ?_) _
  split
  · exact closed_error _
  · split
    · exact closed_error _
    · exact closed_fitInteger _ _

theorem respectful_power : Respectful₂ power := by
  refine respectful_numeric _ (fun x y => ?_) _
  split
  · exact closed_integerPower _ _
  · exact closed_error _

theorem respectful_negate : Respectful negate := by
  intro ρ v w hv
  cases hv with
  | integer i => exact closed_fitInteger _ _ ρ
  | float x => exact closed_float _ ρ
  | _ => exact .error _

theorem respectful_absolute : Respectful absolute := by
  intro ρ v w hv
  cases hv with
  | integer i => exact closed_fitInteger _ _ ρ
  | float x => exact closed_float _ ρ
  | _ => exact .error _

theorem respectful_roundedTo (operation : String) (round : Float → Float) :
    Respectful (roundedTo operation round) := by
  intro ρ v w hv
  rw [roundedTo, roundedTo, hv.toFloat_eq]
  split
  · exact .error _
  · dsimp only
    split
    · exact .error _
    · split
      · exact .error _
      · exact .ok (.integer _)

theorem respectful_onFloat (operation : String) (f : Float → Float) :
    Respectful (onFloat operation f) := by
  intro ρ v w hv
  rw [onFloat, onFloat, hv.toFloat_eq]
  exact closed_map_float _ f ρ

end Value

/-- Alike references make alike items. -/
theorem items_alike {xs ys : List Ref} (h : ref.list ρ xs ys) :
    item.list ρ (xs.map .ok) (ys.map .ok) := by
  induction h with
  | nil => exact .nil
  | cons hr _ ih => exact .cons (.ok hr) ih

/-- Alike lists have alike elements at each position. -/
theorem getElem?_alike {α : Type} {L : Likeness α} {xs ys : List α} (h : L.list ρ xs ys) (i : Nat) :
    L.option ρ xs[i]? ys[i]? := by
  induction h generalizing i with
  | nil => exact .none
  | cons h _ ih =>
      cases i with
      | zero => exact .some h
      | succ i => exact ih i

theorem getLastD_alike {xs ys : List Ref} (h : ref.list ρ xs ys) {r s : Ref} (hr : ρ r s) :
    ρ (xs.getLastD r) (ys.getLastD s) := by
  induction h generalizing r s with
  | nil => exact hr
  | cons h _ ih =>
      rw [List.getLastD_cons, List.getLastD_cons]
      exact ih h

namespace Sequence.Alike

theorem select {xs ys : List Ref} (h : ref.list ρ xs ys) (start stop : Option Int) (step : Int) :
    item.list ρ (Sequence.select xs start stop step) (Sequence.select ys start stop step) := by
  rw [Sequence.select, Sequence.select, List.size_toArray, List.size_toArray, h.length_eq]
  refine List.rel_filterMap (R := Eq) ?_ (lawful_plain.list.refl _)
  rintro i _ rfl
  have hitem := getElem?_alike h i
  dsimp only
  rw [List.getElem?_toArray, List.getElem?_toArray]
  generalize xs[i]? = x, ys[i]? = y at hitem
  cases hitem with
  | none => exact .none
  | some h => exact .some (.ok h)

theorem sliceOf {s t : Sequence} (h : s.Alike ρ t) (start stop : Option Int) (step : Int) :
    (Runner.sliceOf s start stop step).Alike ρ (Runner.sliceOf t start stop step) := by
  rw [Runner.sliceOf, Runner.sliceOf]
  split
  · cases stop with
    | none => exact .stepped _ (.drop _ h)
    | some stop => exact .stepped _ (.take _ (.drop _ h))
  · exact .selection _ _ _ h

end Sequence.Alike

end LazyLang
