import LazyLang.Proofs.Evaluation.Outcomes
import LazyLang.Proofs.Subtyping.Union

/-!
# The values of a type

Every type stands for a kind of values. A float may be an integer and a boolean any number. An array
gives elements that are lazy values of its element type, or failures that types leave open in their
place, whenever and as far as it is traversed. A function has as many open slots as its type has
parameters, and returns a value of its result type for all arguments of its parameter types.

There are no records, and a generic variable has no values of its own. A type that accepts another
has all its values, if neither has generic variables.
-/

namespace LazyLang

variable (total : Bool)

/-- An element of a kind, or a failure in its place. -/
def Elem (S : Kind) (w : World) (item : Item) : Prop := Outcome (Lazy total S) w item

/-- What the next step of a traversal finds: the end, or an item that is as it should be and more
of the traversal. -/
def Finds (S : Kind) (more : World → Traversal → Prop) (w : World)
    (next : Option Item × Traversal) : Prop :=
  ∀ item, next.1 = some item → Elem total S w item ∧ more w next.2

/-- A traversal that gives elements of a kind, however late and however far it is moved on. -/
def Gives (S : Kind) (w : World) (t : Traversal) : Prop :=
  ∃ I : World → Traversal → Prop, I w t ∧
    ∀ w t, I w t → ∀ w', w ≤ w' → Yields total w' (fun R => R.next t) (Finds total S I)

/-- A traversal that is at its end. -/
def AtEnd (w : World) (t : Traversal) : Prop :=
  ∀ w', w ≤ w' → Yields total w' (fun R => R.next t) fun _ next => next.1 = none

/-- An array whose traversals give elements of a kind. -/
def Holds (S : Kind) (w : World) (s : Sequence) : Prop :=
  ∀ w', w ≤ w' → Yields total w' (fun R => s.traverse R) (Gives total S)

/-- A function with as many open slots as there are parameters, which returns a value of a kind for
all arguments of the kinds of its parameters. -/
def Maps (params : List Kind) (result : Kind) (w : World) (f : Function) : Prop :=
  f.openSlots = params.length ∧
    ∀ w', w ≤ w' → ∀ args, List.Forall₂ (fun S r => Lazy total S w' r) params args →
      Returns total w' (fun R => R.call f args) result.holds

namespace Kind

/-- The values with a property that has nothing to do with the store. -/
def of (p : Value → Prop) : Kind := ⟨fun _ v => p v, fun _ h => h⟩

def array (S : Kind) : Kind where
  holds w v := ∃ s, v = .array s ∧ Holds total S w s
  mono hle := fun ⟨s, hv, h⟩ => ⟨s, hv, fun w' hle' => h w' (hle.trans hle')⟩

def emptyArray : Kind where
  holds w v := ∃ s, v = .array s ∧
    ∀ w', w ≤ w' → Yields total w' (fun R => s.traverse R) (AtEnd total)
  mono hle := fun ⟨s, hv, h⟩ => ⟨s, hv, fun w' hle' => h w' (hle.trans hle')⟩

def function (params : List Kind) (result : Kind) : Kind where
  holds w v := ∃ f, v = .function f ∧ Maps total params result w f
  mono hle := fun ⟨f, hv, hslots, h⟩ => ⟨f, hv, hslots, fun w' hle' => h w' (hle.trans hle')⟩

def union (members : List Kind) : Kind where
  holds w v := ∃ S ∈ members, S.holds w v
  mono hle := fun ⟨S, hS, h⟩ => ⟨S, hS, S.mono hle h⟩

end Kind

namespace Ty

mutual

/-- The values of a type. -/
def kind : Ty → Kind
  | integer => .of fun v => ∃ i, v = .integer i
  | float => .of fun v => (∃ i, v = .integer i) ∨ ∃ x, v = .float x
  | string => .of fun v => ∃ s, v = .string s
  | boolean => .of fun v => (∃ b, v = .boolean b) ∨ (∃ i, v = .integer i) ∨ ∃ x, v = .float x
  | none => .of fun v => v = .none
  | emptyArray => .emptyArray total
  | array element => .array total (kind element)
  | function params result => .function total (kinds params) (kind result)
  | union members => .union (kinds members)
  | generic _ | constrained _ _ | record _ => .of fun _ => False

/-- The values of each of the types. -/
def kinds : List Ty → List Kind
  | [] => []
  | a :: rest => kind a :: kinds rest

end

theorem kinds_eq_map (types : List Ty) : kinds total types = types.map (kind total) := by
  induction types with
  | nil => rfl
  | cons a rest ih => rw [kinds, ih, List.map_cons]

end Ty

variable {total} {S T : Kind} {w w' : World}

theorem Gives.mono {t : Traversal} (h : Gives total S w t) (hle : w ≤ w') : Gives total S w' t := by
  obtain ⟨I, hI, hstep⟩ := h
  refine ⟨fun w' t => ∃ w, w ≤ w' ∧ I w t, ⟨w, hle, hI⟩, ?_⟩
  rintro w₁ t ⟨w₀, hle₁, hI⟩ w₂ hle₂
  refine (hstep w₀ t hI w₂ (hle₁.trans hle₂)).imp fun w₃ next _ h item hitem => ?_
  exact ⟨(h item hitem).1, w₃, le_refl w₃, (h item hitem).2⟩

theorem Gives.next {t : Traversal} (h : Gives total S w t) :
    Yields total w (fun R => R.next t) (Finds total S (Gives total S)) := by
  obtain ⟨I, hI, hstep⟩ := h
  refine (hstep w t hI w (le_refl w)).imp fun w' next _ h item hitem => ?_
  exact ⟨(h item hitem).1, I, (h item hitem).2, hstep⟩

theorem Elem.imp {item : Item} (h : Elem total S w item)
    (hST : ∀ w' v, w ≤ w' → S.holds w' v → T.holds w' v) : Elem total T w item :=
  match item, h with
  | .ok _, h => Lazy.imp h hST
  | .error _, h => h

/-- A traversal gives elements of every kind that has those of its own. -/
theorem Gives.imp {t : Traversal} (h : Gives total S w t)
    (hST : ∀ w' v, w ≤ w' → S.holds w' v → T.holds w' v) : Gives total T w t := by
  refine ⟨fun w' t => w ≤ w' ∧ Gives total S w' t, ⟨le_refl w, h⟩, ?_⟩
  rintro w₁ t ⟨hle₁, ht⟩ w₂ hle₂
  refine (ht.mono hle₂).next.imp fun w₃ next hle₃ h item hitem => ?_
  have hle := (hle₁.trans hle₂).trans hle₃
  exact ⟨(h item hitem).1.imp fun w' v hle' => hST w' v (hle.trans hle'), hle, (h item hitem).2⟩

/-- A traversal that is at its end gives elements of any kind. -/
theorem AtEnd.gives {t : Traversal} (h : AtEnd total w t) : Gives total S w t := by
  refine ⟨AtEnd total, h, fun w₁ t ht w₂ hle => (ht w₂ hle).imp fun _ next _ hnone item hitem => ?_⟩
  exact absurd (hnone.symm.trans hitem) (by simp)

/-- An array holds elements of every kind that has those of its own. -/
theorem Kind.array_imp {v : Value} (h : (Kind.array total S).holds w v)
    (hST : ∀ w' v, w ≤ w' → S.holds w' v → T.holds w' v) : (Kind.array total T).holds w v := by
  obtain ⟨s, hv, hs⟩ := h
  refine ⟨s, hv, fun w' hle => (hs w' hle).imp fun w'' t hle' ht => ht.imp fun w₃ v hle₃ => ?_⟩
  exact hST w₃ v ((hle.trans hle').trans hle₃)

theorem Kind.array_of_emptyArray {v : Value} (h : (Kind.emptyArray total).holds w v) :
    (Kind.array total S).holds w v := by
  obtain ⟨s, hv, hs⟩ := h
  exact ⟨s, hv, fun w' hle => (hs w' hle).imp fun _ _ _ ht => ht.gives⟩

/-- A function takes what has the kinds of its parameters, and gives what its result is of. -/
theorem Kind.function_imp {params params' : List Kind} {result result' : Kind} {v : Value}
    (h : (Kind.function total params result).holds w v)
    (hparams : List.Forall₂ (fun S' S => ∀ w v, Kind.holds S' w v → Kind.holds S w v)
      params' params)
    (hresult : ∀ w v, result.holds w v → result'.holds w v) :
    (Kind.function total params' result').holds w v := by
  obtain ⟨f, hv, hslots, hf⟩ := h
  refine ⟨f, hv, hslots.trans hparams.length_eq.symm, fun w' hle args hargs => ?_⟩
  have hargs' : List.Forall₂ (fun S r => Lazy total S w' r) params args := by
    clear hslots hf
    induction hargs generalizing params with
    | nil =>
        cases hparams
        exact .nil
    | cons hr _ ih =>
        cases hparams with
        | cons hS hrest => exact .cons (hr.imp fun w v _ => hS w v) (ih hrest)
  exact (hf w' hle args hargs').imp fun w' v _ => hresult w' v

end LazyLang
