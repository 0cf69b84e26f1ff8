import Mathlib.Data.List.Forall2
import Mathlib.Data.Option.Defs
import LazyLang.Evaluation.Traversal

/-!
# Alike up to references

The same program run in two stores gives values at different addresses. Two data are alike under a
relation between references if they are the same except for the references in them, and if these are
related place by place. A likeness that is given for all relations between references is lawful:
data are like themselves under equality, they are equal if they are, and two data that are like a
third are like each other under what the relations come to together.
-/

namespace LazyLang

/-- When two data of a type are the same except for their references, and these are related. -/
abbrev Likeness (α : Type) := (Ref → Ref → Prop) → α → α → Prop

/-- Both outcomes are results that are related, or both are the same failure. -/
inductive Outcomes {α : Type} (related : α → α → Prop) :
    Except RuntimeError α → Except RuntimeError α → Prop
  | ok {a b : α} (h : related a b) : Outcomes related (.ok a) (.ok b)
  | error (e : RuntimeError) : Outcomes related (.error e) (.error e)

/-- Both steps of a loop are the last one or neither is, with results that are related. -/
inductive Strides {α : Type} (related : α → α → Prop) : ForInStep α → ForInStep α → Prop
  | done {a b : α} (h : related a b) : Strides related (.done a) (.done b)
  | yield {a b : α} (h : related a b) : Strides related (.yield a) (.yield b)

namespace Likeness

/-- What makes a likeness one that only looks at references. -/
structure Lawful {α : Type} (L : Likeness α) : Prop where
  refl : ∀ a, L Eq a a
  eq : ∀ ⦃a b⦄, L Eq a b → a = b
  span : ∀ ⦃ρ σ τ : Ref → Ref → Prop⦄, (∀ ⦃r s t⦄, ρ r s → σ r t → τ s t) →
    ∀ ⦃a b c⦄, L ρ a b → L σ a c → L τ b c

namespace Lawful

variable {α : Type} {L : Likeness α} {ρ σ τ : Ref → Ref → Prop} {a b c : α}

theorem mono (h : L.Lawful) (hρ : ∀ ⦃r s⦄, ρ r s → σ r s) (hab : L ρ a b) : L σ a b :=
  h.span (fun _ _ _ heq hr => heq ▸ hρ hr) (h.refl a) hab

theorem flip (h : L.Lawful) (hρ : ∀ ⦃r s⦄, ρ r s → σ s r) (hab : L ρ a b) : L σ b a :=
  h.span (fun _ _ _ hr heq => heq ▸ hρ hr) hab (h.refl a)

theorem trans (h : L.Lawful) (hτ : ∀ ⦃r s t⦄, ρ r s → σ s t → τ r t) (hab : L ρ a b)
    (hbc : L σ b c) : L τ a c := by
  have hba : L (fun s r => ρ r s) b a := h.flip (fun _ _ hr => hr) hab
  exact h.span (σ := σ) (τ := τ) (fun _ _ _ hr hs => hτ hr hs) hba hbc

end Lawful

/-- Data without references are alike if they are equal. -/
def plain {α : Type} : Likeness α := fun _ a b => a = b

/-- References are alike if they are related. -/
def ref : Likeness Ref := fun ρ => ρ

/-- The likeness of pairs, part by part. -/
def prod {α β : Type} (L : Likeness α) (M : Likeness β) : Likeness (α × β) :=
  fun ρ a b => L ρ a.1 b.1 ∧ M ρ a.2 b.2

/-- The likeness of options. -/
def option {α : Type} (L : Likeness α) : Likeness (Option α) := fun ρ => Option.Rel (L ρ)

/-- The likeness of lists, element by element. -/
def list {α : Type} (L : Likeness α) : Likeness (List α) := fun ρ => List.Forall₂ (L ρ)

/-- The likeness of outcomes. -/
def outcome {α : Type} (L : Likeness α) : Likeness (Except RuntimeError α) :=
  fun ρ => Outcomes (L ρ)

/-- The likeness of the steps of a loop. -/
def stride {α : Type} (L : Likeness α) : Likeness (ForInStep α) := fun ρ => Strides (L ρ)

/-- The likeness of the arguments of a function, of which some may be missing. -/
abbrev slots : Likeness (List (Option Ref)) := list (option ref)

/-- The likeness of what a traversal meets. -/
abbrev item : Likeness Item := outcome ref

/-- The likeness of scopes: the same names in the same layers. -/
abbrev scope : Likeness ValueScope := list (list (prod plain ref))

variable {α β : Type} {L : Likeness α} {M : Likeness β}

theorem lawful_plain : (plain : Likeness α).Lawful where
  refl _ := rfl
  eq _ _ h := h
  span _ _ _ _ _ _ _ h h' := h.symm.trans h'

theorem lawful_ref : ref.Lawful where
  refl _ := rfl
  eq _ _ h := h
  span _ _ _ hτ _ _ _ h h' := hτ h h'

theorem Lawful.prod (hL : L.Lawful) (hM : M.Lawful) : (L.prod M).Lawful where
  refl a := ⟨hL.refl a.1, hM.refl a.2⟩
  eq _ _ h := Prod.ext (hL.eq h.1) (hM.eq h.2)
  span _ _ _ hτ _ _ _ h h' := ⟨hL.span hτ h.1 h'.1, hM.span hτ h.2 h'.2⟩

theorem Lawful.option (hL : L.Lawful) : L.option.Lawful where
  refl a := by
    cases a with
    | none => exact .none
    | some a => exact .some (hL.refl a)
  eq _ _ h := by
    cases h with
    | none => rfl
    | some h => exact congrArg some (hL.eq h)
  span _ _ _ hτ _ _ _ h h' := by
    cases h with
    | none => cases h'; exact .none
    | some h =>
        cases h' with
        | some h' => exact .some (hL.span hτ h h')

theorem Lawful.list (hL : L.Lawful) : L.list.Lawful where
  refl as := List.forall₂_same.2 fun a _ => hL.refl a
  eq _ _ h := by
    induction h with
    | nil => rfl
    | cons h _ ih => rw [hL.eq h, ih]
  span _ _ _ hτ as bs cs h h' := by
    induction h generalizing cs with
    | nil => cases h'; exact .nil
    | cons h _ ih =>
        cases h' with
        | cons h' hrest => exact .cons (hL.span hτ h h') (ih _ hrest)

theorem Lawful.outcome (hL : L.Lawful) : L.outcome.Lawful where
  refl a := by
    cases a with
    | ok a => exact .ok (hL.refl a)
    | error e => exact .error e
  eq _ _ h := by
    cases h with
    | ok h => exact congrArg Except.ok (hL.eq h)
    | error e => rfl
  span _ _ _ hτ _ _ _ h h' := by
    cases h with
    | ok h =>
        cases h' with
        | ok h' => exact .ok (hL.span hτ h h')
    | error e => cases h'; exact .error e

-- Lemmas stand in parentheses before a dot: without them the whole name would be looked up inside
-- the lemma, which waits for its proof.

theorem lawful_slots : slots.Lawful := (lawful_ref).option.list

theorem lawful_item : item.Lawful := (lawful_ref).outcome

theorem lawful_scope : scope.Lawful := ((lawful_plain).prod lawful_ref).list.list

end Likeness

open Likeness

/-- What the host does is the same, with related constants. -/
inductive HostAction.Alike (ρ : Ref → Ref → Prop) : HostAction → HostAction → Prop
  | first : Alike ρ .first .first
  | last : Alike ρ .last .last
  | list : Alike ρ .list .list
  | sum : Alike ρ .sum .sum
  | truthy : Alike ρ .truthy .truthy
  | constant {r s : Ref} (h : ρ r s) : Alike ρ (.constant r) (.constant s)
  | fail : Alike ρ .fail .fail

/-- The same function, with related arguments so far. -/
inductive Function.Alike (ρ : Ref → Ref → Prop) : Function → Function → Prop
  | builtin (b : Builtin) {xs ys : List (Option Ref)} (h : Likeness.slots ρ xs ys) :
      Alike ρ (.builtin b xs) (.builtin b ys)
  | pipeline (name : String) {f g f' g' : Function} {xs ys : List (Option Ref)}
      (hf : Alike ρ f f') (hg : Alike ρ g g') (h : Likeness.slots ρ xs ys) :
      Alike ρ (.pipeline name f g xs) (.pipeline name f' g' ys)
  | flipped {f f' : Function} {xs ys : List (Option Ref)} (hf : Alike ρ f f')
      (h : Likeness.slots ρ xs ys) : Alike ρ (.flipped f xs) (.flipped f' ys)
  | host (name : String) {action action' : HostAction} {xs ys : List (Option Ref)}
      (haction : HostAction.Alike ρ action action') (h : Likeness.slots ρ xs ys) :
      Alike ρ (.host name action xs) (.host name action' ys)

/-- The same recipe, of related elements. -/
inductive Sequence.Alike (ρ : Ref → Ref → Prop) : Sequence → Sequence → Prop
  | values {xs ys : List Ref} (h : Likeness.list ref ρ xs ys) : Alike ρ (.values xs) (.values ys)
  | literal {scope scope' : ValueScope} (h : Likeness.scope ρ scope scope')
      (elements : List TypedExpr) : Alike ρ (.literal scope elements) (.literal scope' elements)
  | integers (first stop : Int) : Alike ρ (.integers first stop) (.integers first stop)
  | repeated {r s : Ref} (h : ρ r s) : Alike ρ (.repeated r) (.repeated s)
  | iterate {f g : Function} {r s : Ref} (hf : f.Alike ρ g) (h : ρ r s) :
      Alike ρ (.iterate f r) (.iterate g s)
  | drop (count : Nat) {s t : Sequence} (h : Alike ρ s t) : Alike ρ (.drop count s) (.drop count t)
  | take (count : Nat) {s t : Sequence} (h : Alike ρ s t) : Alike ρ (.take count s) (.take count t)
  | stepped (step : Nat) {s t : Sequence} (h : Alike ρ s t) :
      Alike ρ (.stepped step s) (.stepped step t)
  | reverse {s t : Sequence} (h : Alike ρ s t) : Alike ρ (.reverse s) (.reverse t)
  | selection (start stop : Option Int) (step : Int) {s t : Sequence} (h : Alike ρ s t) :
      Alike ρ (.selection start stop step s) (.selection start stop step t)
  | concat {s t s' t' : Sequence} (h : Alike ρ s s') (h' : Alike ρ t t') :
      Alike ρ (.concat s t) (.concat s' t')
  | map {f g : Function} {s t : Sequence} (hf : f.Alike ρ g) (h : Alike ρ s t) :
      Alike ρ (.map f s) (.map g t)
  | filter {f g : Function} {s t : Sequence} (hf : f.Alike ρ g) (h : Alike ρ s t) :
      Alike ρ (.filter f s) (.filter g t)
  | zipWith {f g : Function} {s t s' t' : Sequence} (hf : f.Alike ρ g) (h : Alike ρ s s')
      (h' : Alike ρ t t') : Alike ρ (.zipWith f s t) (.zipWith g s' t')
  | watched (tag : String) {xs ys : List Item} (h : Likeness.list item ρ xs ys) :
      Alike ρ (.watched tag xs) (.watched tag ys)

/-- The same place in the same array, of related elements. -/
inductive Traversal.Alike (ρ : Ref → Ref → Prop) : Traversal → Traversal → Prop
  | items {xs ys : List Item} (h : Likeness.list item ρ xs ys) : Alike ρ (.items xs) (.items ys)
  | literal {scope scope' : ValueScope} (h : Likeness.scope ρ scope scope')
      (rest : List TypedExpr) : Alike ρ (.literal scope rest) (.literal scope' rest)
  | integers (next stop : Int) : Alike ρ (.integers next stop) (.integers next stop)
  | repeated {r s : Ref} (h : ρ r s) : Alike ρ (.repeated r) (.repeated s)
  | iterate {f g : Function} {x y : Option Item} (hf : f.Alike ρ g) (h : option item ρ x y) :
      Alike ρ (.iterate f x) (.iterate g y)
  | drop (count : Nat) {s t : Traversal} (h : Alike ρ s t) : Alike ρ (.drop count s) (.drop count t)
  | take (count : Nat) {s t : Traversal} (h : Alike ρ s t) : Alike ρ (.take count s) (.take count t)
  | stepped (fresh : Bool) (step : Nat) {s t : Traversal} (h : Alike ρ s t) :
      Alike ρ (.stepped fresh step s) (.stepped fresh step t)
  | concat {s t s' t' : Traversal} (h : Alike ρ s s') (h' : Alike ρ t t') :
      Alike ρ (.concat s t) (.concat s' t')
  | map {f g : Function} {s t : Traversal} (hf : f.Alike ρ g) (h : Alike ρ s t) :
      Alike ρ (.map f s) (.map g t)
  | filter {f g : Function} {s t : Traversal} (hf : f.Alike ρ g) (h : Alike ρ s t) :
      Alike ρ (.filter f s) (.filter g t)
  | zipWith {f g : Function} {s t s' t' : Traversal} (hf : f.Alike ρ g) (h : Alike ρ s s')
      (h' : Alike ρ t t') : Alike ρ (.zipWith f s t) (.zipWith g s' t')
  | watched (tag : String) (index : Nat) {xs ys : List Item} (h : Likeness.list item ρ xs ys) :
      Alike ρ (.watched tag index xs) (.watched tag index ys)

/-- The likeness of an item, if there is one, with the traversal after it. -/
abbrev Likeness.next : Likeness (Option Item × Traversal) := item.option.prod Traversal.Alike

/-- The same value, with related references in functions and arrays. -/
inductive Value.Alike (ρ : Ref → Ref → Prop) : Value → Value → Prop
  | string (s : String) : Alike ρ (.string s) (.string s)
  | integer (i : Int64) : Alike ρ (.integer i) (.integer i)
  | float (x : Float) : Alike ρ (.float x) (.float x)
  | boolean (b : Bool) : Alike ρ (.boolean b) (.boolean b)
  | none : Alike ρ .none .none
  | array {s t : Sequence} (h : s.Alike ρ t) : Alike ρ (.array s) (.array t)
  | function {f g : Function} (h : f.Alike ρ g) : Alike ρ (.function f) (.function g)

/-- The same computation, on related references. -/
inductive Thunk.Alike (ρ : Ref → Ref → Prop) : Thunk → Thunk → Prop
  | apply {r s : Ref} {xs ys : List (Option Ref)} (h : ρ r s) (hargs : Likeness.slots ρ xs ys) :
      Alike ρ (.apply r xs) (.apply s ys)
  | call {f g : Function} {xs ys : List Ref} (hf : f.Alike ρ g)
      (hargs : Likeness.list ref ρ xs ys) : Alike ρ (.call f xs) (.call g ys)
  | forward (tag : Option String) {r s : Ref} (h : ρ r s) :
      Alike ρ (.forward tag r) (.forward tag s)

/-- Both cells are pending with the same computation, or both are done with the same outcome. A cell
that is being forced is like no other. -/
inductive Cell.Alike (ρ : Ref → Ref → Prop) : Cell → Cell → Prop
  | pending {thunk thunk' : Thunk} (h : thunk.Alike ρ thunk') :
      Alike ρ (.pending thunk) (.pending thunk')
  | done {o o' : Except RuntimeError Value} (h : outcome Value.Alike ρ o o') :
      Alike ρ (.done o) (.done o')

theorem HostAction.Alike.lawful : Likeness.Lawful HostAction.Alike where
  refl a := by cases a <;> constructor; rfl
  eq a b h := by
    cases h with
    | constant h => rw [h]
    | _ => rfl
  span ρ σ τ hτ a b c h h' := by
    cases h with
    | constant h => cases h' with
        | constant h' => exact .constant (hτ h h')
    | _ => cases h'; constructor

theorem Function.Alike.lawful : Likeness.Lawful Function.Alike where
  refl f := by
    induction f with
    | builtin b xs => exact .builtin b ((lawful_slots).refl xs)
    | pipeline name f g xs ihf ihg => exact .pipeline name ihf ihg ((lawful_slots).refl xs)
    | flipped f xs ih => exact .flipped ih ((lawful_slots).refl xs)
    | host name action xs =>
        exact .host name ((HostAction.Alike.lawful).refl action) ((lawful_slots).refl xs)
  eq f g h := by
    induction h with
    | builtin b h => rw [(lawful_slots).eq h]
    | pipeline name _ _ h ihf ihg => rw [ihf, ihg, (lawful_slots).eq h]
    | flipped _ h ih => rw [ih, (lawful_slots).eq h]
    | host name haction h => rw [(HostAction.Alike.lawful).eq haction, (lawful_slots).eq h]
  span ρ σ τ hτ f g g' h h' := by
    induction h generalizing g' with
    | builtin b h => cases h' with
        | builtin _ h' => exact .builtin b ((lawful_slots).span hτ h h')
    | pipeline name _ _ h ihf ihg => cases h' with
        | pipeline _ hf' hg' h' =>
            exact .pipeline name (ihf _ hf') (ihg _ hg') ((lawful_slots).span hτ h h')
    | flipped _ h ih => cases h' with
        | flipped hf' h' => exact .flipped (ih _ hf') ((lawful_slots).span hτ h h')
    | host name ha h => cases h' with
        | host _ ha' h' =>
            exact .host name ((HostAction.Alike.lawful).span hτ ha ha')
              ((lawful_slots).span hτ h h')

theorem Sequence.Alike.lawful : Likeness.Lawful Sequence.Alike where
  refl s := by
    induction s with
    | values xs => exact .values ((lawful_ref).list.refl xs)
    | literal scope elements => exact .literal ((lawful_scope).refl scope) elements
    | integers first stop => exact .integers first stop
    | repeated r => exact .repeated rfl
    | iterate f r => exact .iterate ((Function.Alike.lawful).refl f) rfl
    | drop count _ ih => exact .drop count ih
    | take count _ ih => exact .take count ih
    | stepped step _ ih => exact .stepped step ih
    | reverse _ ih => exact .reverse ih
    | selection start stop step _ ih => exact .selection start stop step ih
    | concat _ _ ih ih' => exact .concat ih ih'
    | map f _ ih => exact .map ((Function.Alike.lawful).refl f) ih
    | filter f _ ih => exact .filter ((Function.Alike.lawful).refl f) ih
    | zipWith f _ _ ih ih' => exact .zipWith ((Function.Alike.lawful).refl f) ih ih'
    | watched tag xs => exact .watched tag ((lawful_item).list.refl xs)
  eq s t h := by
    induction h with
    | values h => rw [(lawful_ref).list.eq h]
    | literal h _ => rw [(lawful_scope).eq h]
    | integers => rfl
    | repeated h => rw [h]
    | iterate hf h => rw [(Function.Alike.lawful).eq hf, h]
    | drop _ _ ih | take _ _ ih | stepped _ _ ih | reverse _ ih | selection _ _ _ _ ih => rw [ih]
    | concat _ _ ih ih' => rw [ih, ih']
    | map hf _ ih | filter hf _ ih => rw [(Function.Alike.lawful).eq hf, ih]
    | zipWith hf _ _ ih ih' => rw [(Function.Alike.lawful).eq hf, ih, ih']
    | watched _ h => rw [(lawful_item).list.eq h]
  span ρ σ τ hτ s t t' h h' := by
    induction h generalizing t' with
    | values h => cases h' with
        | values h' => exact .values ((lawful_ref).list.span hτ h h')
    | literal h elements => cases h' with
        | literal h' => exact .literal ((lawful_scope).span hτ h h') elements
    | integers first stop => cases h'; exact .integers first stop
    | repeated h => cases h' with
        | repeated h' => exact .repeated (hτ h h')
    | iterate hf h => cases h' with
        | iterate hf' h' => exact .iterate ((Function.Alike.lawful).span hτ hf hf') (hτ h h')
    | drop count _ ih => cases h' with
        | drop _ h' => exact .drop count (ih _ h')
    | take count _ ih => cases h' with
        | take _ h' => exact .take count (ih _ h')
    | stepped step _ ih => cases h' with
        | stepped _ h' => exact .stepped step (ih _ h')
    | reverse _ ih => cases h' with
        | reverse h' => exact .reverse (ih _ h')
    | selection start stop step _ ih => cases h' with
        | selection _ _ _ h' => exact .selection start stop step (ih _ h')
    | concat _ _ ih ih' => cases h' with
        | concat h₁ h₂ => exact .concat (ih _ h₁) (ih' _ h₂)
    | map hf _ ih => cases h' with
        | map hf' h' => exact .map ((Function.Alike.lawful).span hτ hf hf') (ih _ h')
    | filter hf _ ih => cases h' with
        | filter hf' h' => exact .filter ((Function.Alike.lawful).span hτ hf hf') (ih _ h')
    | zipWith hf _ _ ih ih' => cases h' with
        | zipWith hf' h₁ h₂ =>
            exact .zipWith ((Function.Alike.lawful).span hτ hf hf') (ih _ h₁) (ih' _ h₂)
    | watched tag h => cases h' with
        | watched _ h' => exact .watched tag ((lawful_item).list.span hτ h h')

theorem Traversal.Alike.lawful : Likeness.Lawful Traversal.Alike where
  refl t := by
    induction t with
    | items xs => exact .items ((lawful_item).list.refl xs)
    | literal scope rest => exact .literal ((lawful_scope).refl scope) rest
    | integers next stop => exact .integers next stop
    | repeated r => exact .repeated rfl
    | iterate f x => exact .iterate ((Function.Alike.lawful).refl f) ((lawful_item).option.refl x)
    | drop count _ ih => exact .drop count ih
    | take count _ ih => exact .take count ih
    | stepped fresh step _ ih => exact .stepped fresh step ih
    | concat _ _ ih ih' => exact .concat ih ih'
    | map f _ ih => exact .map ((Function.Alike.lawful).refl f) ih
    | filter f _ ih => exact .filter ((Function.Alike.lawful).refl f) ih
    | zipWith f _ _ ih ih' => exact .zipWith ((Function.Alike.lawful).refl f) ih ih'
    | watched tag index xs => exact .watched tag index ((lawful_item).list.refl xs)
  eq s t h := by
    induction h with
    | items h => rw [(lawful_item).list.eq h]
    | literal h _ => rw [(lawful_scope).eq h]
    | integers => rfl
    | repeated h => rw [h]
    | iterate hf h => rw [(Function.Alike.lawful).eq hf, (lawful_item).option.eq h]
    | drop _ _ ih | take _ _ ih | stepped _ _ _ ih => rw [ih]
    | concat _ _ ih ih' => rw [ih, ih']
    | map hf _ ih | filter hf _ ih => rw [(Function.Alike.lawful).eq hf, ih]
    | zipWith hf _ _ ih ih' => rw [(Function.Alike.lawful).eq hf, ih, ih']
    | watched _ _ h => rw [(lawful_item).list.eq h]
  span ρ σ τ hτ s t t' h h' := by
    induction h generalizing t' with
    | items h => cases h' with
        | items h' => exact .items ((lawful_item).list.span hτ h h')
    | literal h rest => cases h' with
        | literal h' => exact .literal ((lawful_scope).span hτ h h') rest
    | integers next stop => cases h'; exact .integers next stop
    | repeated h => cases h' with
        | repeated h' => exact .repeated (hτ h h')
    | iterate hf h => cases h' with
        | iterate hf' h' =>
            exact .iterate ((Function.Alike.lawful).span hτ hf hf')
              ((lawful_item).option.span hτ h h')
    | drop count _ ih => cases h' with
        | drop _ h' => exact .drop count (ih _ h')
    | take count _ ih => cases h' with
        | take _ h' => exact .take count (ih _ h')
    | stepped fresh step _ ih => cases h' with
        | stepped _ _ h' => exact .stepped fresh step (ih _ h')
    | concat _ _ ih ih' => cases h' with
        | concat h₁ h₂ => exact .concat (ih _ h₁) (ih' _ h₂)
    | map hf _ ih => cases h' with
        | map hf' h' => exact .map ((Function.Alike.lawful).span hτ hf hf') (ih _ h')
    | filter hf _ ih => cases h' with
        | filter hf' h' => exact .filter ((Function.Alike.lawful).span hτ hf hf') (ih _ h')
    | zipWith hf _ _ ih ih' => cases h' with
        | zipWith hf' h₁ h₂ =>
            exact .zipWith ((Function.Alike.lawful).span hτ hf hf') (ih _ h₁) (ih' _ h₂)
    | watched tag index h => cases h' with
        | watched _ _ h' => exact .watched tag index ((lawful_item).list.span hτ h h')

theorem Value.Alike.lawful : Likeness.Lawful Value.Alike where
  refl v := by
    cases v with
    | array s => exact .array ((Sequence.Alike.lawful).refl s)
    | function f => exact .function ((Function.Alike.lawful).refl f)
    | _ => constructor
  eq v w h := by
    cases h with
    | array h => rw [(Sequence.Alike.lawful).eq h]
    | function h => rw [(Function.Alike.lawful).eq h]
    | _ => rfl
  span ρ σ τ hτ v w w' h h' := by
    cases h with
    | array h => cases h' with
        | array h' => exact .array ((Sequence.Alike.lawful).span hτ h h')
    | function h => cases h' with
        | function h' => exact .function ((Function.Alike.lawful).span hτ h h')
    | _ => cases h'; constructor

theorem Thunk.Alike.lawful : Likeness.Lawful Thunk.Alike where
  refl thunk := by
    cases thunk with
    | apply r xs => exact .apply rfl ((lawful_slots).refl xs)
    | call f xs => exact .call ((Function.Alike.lawful).refl f) ((lawful_ref).list.refl xs)
    | forward tag r => exact .forward tag rfl
  eq thunk thunk' h := by
    cases h with
    | apply h hargs => rw [h, (lawful_slots).eq hargs]
    | call hf hargs => rw [(Function.Alike.lawful).eq hf, (lawful_ref).list.eq hargs]
    | forward tag h => rw [h]
  span ρ σ τ hτ thunk _ _ h h' := by
    cases h with
    | apply h hargs => cases h' with
        | apply h' hargs' => exact .apply (hτ h h') ((lawful_slots).span hτ hargs hargs')
    | call hf hargs => cases h' with
        | call hf' hargs' =>
            exact .call ((Function.Alike.lawful).span hτ hf hf')
              ((lawful_ref).list.span hτ hargs hargs')
    | forward tag h => cases h' with
        | forward _ h' => exact .forward tag (hτ h h')

theorem Cell.alike_self_or_forcing (c : Cell) : c.Alike Eq c ∨ c = .forcing := by
  cases c with
  | pending thunk => exact .inl (.pending ((Thunk.Alike.lawful).refl thunk))
  | forcing => exact .inr rfl
  | done o => exact .inl (.done ((Value.Alike.lawful).outcome.refl o))

namespace Cell.Alike

variable {ρ σ τ : Ref → Ref → Prop} {c c' c'' : Cell}

theorem mono (hρ : ∀ ⦃r s⦄, ρ r s → σ r s) (h : c.Alike ρ c') : c.Alike σ c' := by
  cases h with
  | pending h => exact .pending ((Thunk.Alike.lawful).mono hρ h)
  | done h => exact .done ((Value.Alike.lawful).outcome.mono hρ h)

theorem eq (h : c.Alike Eq c') : c = c' := by
  cases h with
  | pending h => rw [(Thunk.Alike.lawful).eq h]
  | done h => rw [(Value.Alike.lawful).outcome.eq h]

theorem ne_forcing (h : c.Alike ρ c') : c ≠ .forcing := by
  cases h <;> exact fun h => Cell.noConfusion h

theorem flip (hρ : ∀ ⦃r s⦄, ρ r s → σ s r) (h : c.Alike ρ c') : c'.Alike σ c := by
  cases h with
  | pending h => exact .pending ((Thunk.Alike.lawful).flip hρ h)
  | done h => exact .done ((Value.Alike.lawful).outcome.flip hρ h)

theorem trans (hτ : ∀ ⦃r s t⦄, ρ r s → σ s t → τ r t) (h : c.Alike ρ c') (h' : c'.Alike σ c'') :
    c.Alike τ c'' := by
  cases h with
  | pending h => cases h' with
      | pending h' => exact .pending ((Thunk.Alike.lawful).trans hτ h h')
  | done h => cases h' with
      | done h' => exact .done ((Value.Alike.lawful).outcome.trans hτ h h')

end Cell.Alike

end LazyLang
