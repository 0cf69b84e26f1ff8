import LazyLang.Evaluation.Plain
import LazyLang.Proofs.Soundness.Inclusion
import LazyLang.Proofs.Soundness.Operations

/-!
# Going through whole values

Equality, the text of a value and its plain form force every element of an array, and the elements
of these. Which types the values have does not matter, as long as they have some: a value of a type
that is an array holds values of a type in turn.
-/

namespace LazyLang

variable {w w' : World}

/-- A value of some type. -/
def Typed (w : World) (v : Value) : Prop := ∃ a : Ty, (a.kind false).holds w v

theorem Typed.mono {v : Value} (h : Typed w v) (hle : w ≤ w') : Typed w' v := by
  obtain ⟨a, ha⟩ := h
  exact ⟨a, (a.kind false).mono hle ha⟩

/-- An array of some type holds values of a type. -/
theorem Typed.exists_holds {s : Sequence} (h : Typed w (.array s)) :
    ∃ a : Ty, Holds false (a.kind false) w s := by
  obtain ⟨a, ha⟩ := h
  induction a with
  | integer | string =>
      obtain ⟨_, h⟩ := ha
      cases h
  | float => rcases ha with ⟨_, h⟩ | ⟨_, h⟩ <;> cases h
  | boolean => rcases ha with ⟨_, h⟩ | ⟨_, h⟩ | ⟨_, h⟩ <;> cases h
  | none => cases ha
  | emptyArray =>
      obtain ⟨s', heq, hs⟩ := Kind.array_of_emptyArray (S := Ty.integer.kind false) ha
      cases heq
      exact ⟨.integer, hs⟩
  | array element =>
      obtain ⟨s', heq, hs⟩ := ha
      cases heq
      exact ⟨element, hs⟩
  | function =>
      obtain ⟨_, h, -⟩ := ha
      cases h
  | union members ih =>
      obtain ⟨m, hm, hv⟩ := Ty.kind_union_iff.1 ha
      exact ih m hm hv
  | generic | constrained | record => cases ha

namespace Returns

open Value (Anything)

/-- Equality, of values and of what is left of two arrays. -/
theorem equalValues_equalItems (n : Nat) :
    (∀ w a b, Typed w a → Typed w b →
      Returns false w (fun R => R.equalValues n a b) Anything) ∧
    ∀ w s t (a b : Ty), Gives false (a.kind false) w s → Gives false (b.kind false) w t →
      Returns false w (fun R => R.equalItems n s t) Anything := by
  induction n with
  | zero => exact ⟨fun _ _ _ _ _ => returns_outOfFuel, fun _ _ _ _ _ _ _ => returns_outOfFuel⟩
  | succ n ih =>
      constructor
      · intro w a b ha hb
        cases a <;> cases b <;> first
          | exact Returns.pure trivial
          | exact Returns.throw rfl
          | skip
        obtain ⟨e, hs⟩ := ha.exists_holds
        obtain ⟨e', ht⟩ := hb.exists_holds
        refine Returns.bind (Returns.lift hs.traverse) fun w₁ s h₁ hs => ?_
        refine Returns.bind (Returns.lift (ht.mono h₁).traverse) fun w₂ t h₂ ht => ?_
        exact ih.2 w₂ s t e e' (hs.mono h₂) ht
      · intro w s t a b hs ht
        refine Returns.bind (Returns.lift hs.next) fun w₁ left h₁ hleft => ?_
        refine Returns.bind (Returns.lift (ht.mono h₁).next) fun w₂ right h₂ hright => ?_
        obtain ⟨x, left⟩ := left
        obtain ⟨y, right⟩ := right
        cases x <;> cases y <;> first
          | exact Returns.pure trivial
          | skip
        obtain ⟨hx, hleft⟩ := hleft _ rfl
        obtain ⟨hy, hright⟩ := hright _ rfl
        refine Returns.bind (Returns.except (hx.mono h₂)) fun w₃ r h₃ hr => ?_
        refine Returns.bind hr.force fun w₄ u h₄ hu => ?_
        refine Returns.bind (Returns.except (hy.mono (h₃.trans h₄))) fun w₅ r' h₅ hr' => ?_
        refine Returns.bind hr'.force fun w₆ v h₆ hv => ?_
        have htyped : Typed w₆ u := Typed.mono ⟨a, hu⟩ (h₅.trans h₆)
        refine Returns.bind (ih.1 w₆ u v htyped ⟨b, hv⟩) fun w₇ same h₇ _ => ?_
        have hlater := (((h₃.trans h₄).trans h₅).trans h₆).trans h₇
        cases same with
        | true => exact ih.2 w₇ left right a b (hleft.mono (h₂.trans hlater)) (hright.mono hlater)
        | false => exact Returns.pure trivial

theorem equal {a b : Value} (ha : Typed w a) (hb : Typed w b) :
    Returns false w (fun R => R.equal a b) Anything :=
  Returns.of_fuel (x := fun n R => R.equalValues n a b) fun n =>
    (equalValues_equalItems n).1 w a b ha hb

theorem renderValue (n : Nat) (nested : Bool) {v : Value} (hv : Typed w v) :
    Returns false w (fun R => R.renderValue n nested v) Anything := by
  induction n generalizing w nested v with
  | zero => exact returns_outOfFuel
  | succ n ih =>
      cases v with
      | array s =>
          obtain ⟨a, hs⟩ := hv.exists_holds
          refine Returns.bind (hs.fold Anything (fun _ _ _ _ h => h)
            (fun w₁ texts item _ _ hitem => ?_) trivial) fun _ _ _ _ => Returns.pure trivial
          refine Returns.bind (Returns.except hitem) fun w₂ r _ hr => ?_
          refine Returns.bind hr.force fun w₃ u _ hu => ?_
          exact Returns.bind (ih true ⟨a, hu⟩) fun _ _ _ _ => Returns.pure trivial
      | _ => exact Returns.pure trivial

theorem render {v : Value} (hv : Typed w v) : Returns false w (fun R => R.render v) Anything :=
  Returns.of_fuel (x := fun n R => R.renderValue n false v) fun n => renderValue n false hv

theorem checkLimit (limit : Option Nat) (count : Nat) :
    Returns false w (fun _ => Runner.checkLimit limit count) Anything := by
  unfold Runner.checkLimit
  cases limit with
  | none => exact Returns.pure trivial
  | some limit =>
      dsimp only
      split
      · exact Returns.throw rfl
      · exact Returns.pure trivial

/-- Turning a value into its plain form. -/
theorem stripValue (limit : Option Nat) (n : Nat) {v : Value} (hv : Typed w v) :
    Returns false w (fun R => R.stripValue limit n v) Anything := by
  induction n generalizing w v with
  | zero => exact returns_outOfFuel
  | succ n ih =>
      cases v with
      | array s =>
          obtain ⟨a, hs⟩ := hv.exists_holds
          refine Returns.bind (hs.fold Anything (fun _ _ _ _ h => h)
            (fun w₁ acc item _ _ hitem => ?_) trivial) fun _ _ _ _ => Returns.pure trivial
          refine Returns.bind (checkLimit limit acc.1) fun w₂ _ h₂ _ => ?_
          refine Returns.bind (Returns.except (hitem.mono h₂)) fun w₃ r _ hr => ?_
          refine Returns.bind hr.force fun w₄ u _ hu => ?_
          refine Returns.bind (ih ⟨a, hu⟩) fun w₅ plain _ _ => ?_
          cases plain <;> exact Returns.pure trivial
      | _ => exact Returns.pure trivial

theorem strip (limit : Option Nat) {v : Value} (hv : Typed w v) :
    Returns false w (fun R => R.strip limit v) Anything :=
  Returns.of_fuel (x := fun n R => R.stripValue limit n v) fun n => stripValue limit n hv

theorem contains {S : Kind} {a : Ty} {needle r : Ref} (hn : Lazy false S w needle)
    (hS : ∀ w v, S.holds w v → Typed w v) (hr : Lazy false (.array false (a.kind false)) w r) :
    Returns false w (fun R => R.contains needle r) (Ty.boolean.kind false).holds := by
  refine Returns.bind hn.force fun w₁ v h₁ hv => ?_
  refine Returns.bind ((hr.mono h₁).forceSequence _) fun w₂ s h₂ hs => ?_
  refine Returns.bind (hs.fold Anything (fun _ _ _ _ h => h) (fun w₃ found item h₃ _ hitem => ?_)
    trivial) fun _ _ _ _ => Returns.pure (.inl ⟨_, rfl⟩)
  refine Returns.bind (Returns.except hitem) fun w₄ r h₄ hr => ?_
  refine Returns.bind hr.force fun w₅ u h₅ hu => ?_
  have htyped := (hS w₁ v hv).mono (((h₂.trans h₃).trans h₄).trans h₅)
  refine Returns.bind (equal htyped ⟨a, hu⟩) fun w₆ same _ _ => ?_
  cases same <;> exact Returns.pure trivial

end Returns

end LazyLang
