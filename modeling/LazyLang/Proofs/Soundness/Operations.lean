import LazyLang.Proofs.Soundness.Application
import LazyLang.Proofs.Soundness.Arrays

/-!
# What the built-in operations return

Forcing an argument of some kind and taking it for what it is needed for fails only in ways that
types leave open. Operations on numbers give numbers, integers among integers. Functions on arrays
give arrays of the elements that they move around, and whatever is fed to a function is of the kind
that it takes.
-/

namespace LazyLang

variable {w : World} {S T U : Kind} {r : Ref}

theorem allowed_mismatch (operation expected : String) (found : Value) :
    (Value.mismatch operation expected found).allowed = true := rfl

namespace Value

variable {α : Type} {P : World → α → Prop}

/-- Nothing is known of a result, but its failure is one that types leave open. -/
def Anything (_ : World) (_ : α) : Prop := True

theorem outcome_toInteger (operation : String) (v : Value) :
    Outcome Anything w (v.toInteger operation) := by
  cases v <;> first | exact trivial | exact allowed_mismatch ..

theorem outcome_toText (operation : String) (v : Value) :
    Outcome Anything w (v.toText operation) := by
  cases v <;> first | exact trivial | exact allowed_mismatch ..

theorem outcome_toFloat (operation : String) (v : Value) :
    Outcome Anything w (v.toFloat operation) := by
  cases v <;> first | exact trivial | exact allowed_mismatch ..

theorem outcome_truthy (operation : String) (v : Value) :
    Outcome Anything w (v.truthy operation) := by
  cases v <;> first | exact trivial | exact allowed_mismatch ..

end Value

open Value (Anything)

namespace Lazy

theorem forceInteger (h : Lazy false S w r) (operation : String) :
    Returns false w (fun R => R.forceInteger operation r) Anything :=
  Returns.bind h.force fun _ v _ _ =>
    Returns.bind (Returns.except (v.outcome_toInteger operation)) fun _ _ _ _ =>
      Returns.pure trivial

theorem forceText (h : Lazy false S w r) (operation : String) :
    Returns false w (fun R => R.forceText operation r) Anything :=
  Returns.bind h.force fun _ v _ _ => Returns.except (v.outcome_toText operation)

theorem forceTruth (h : Lazy false S w r) (operation : String) :
    Returns false w (fun R => R.forceTruth operation r) Anything :=
  Returns.bind h.force fun _ v _ _ => Returns.except (v.outcome_truthy operation)

theorem forceCount (h : Lazy false S w r) (operation : String) :
    Returns false w (fun R => R.forceCount operation r) Anything :=
  Returns.bind (h.forceInteger operation) fun _ _ _ _ => Returns.pure trivial

theorem forceBound (h : Lazy false S w r) (operation : String) :
    Returns false w (fun R => R.forceBound operation r) Anything := by
  refine Returns.bind h.force fun _ v _ _ => ?_
  cases v <;> first
    | exact Returns.pure trivial
    | exact Returns.bind (Returns.except (Value.outcome_toInteger operation _)) fun _ _ _ _ =>
        Returns.pure trivial

theorem forceSequence (h : Lazy false (.array false S) w r) (operation : String) :
    Returns false w (fun R => R.forceSequence operation r) (Holds false S) := by
  refine Returns.bind h.force fun w' v _ hv => ?_
  obtain ⟨s, rfl, hs⟩ := hv
  exact Returns.pure hs

theorem forceFunction {params : List Kind} (h : Lazy false (.function false params T) w r) :
    Returns false w (fun R => R.forceFunction r) (Maps false params T) := by
  refine Returns.bind h.force fun w' v _ hv => ?_
  obtain ⟨f, rfl, hf⟩ := hv
  exact Returns.pure hf

end Lazy

section Numbers

/-- Numbers that operations stay among: integers alone, or integers and floats. -/
structure Numeric (S : Kind) : Prop where
  isNumber : ∀ {w v}, S.holds w v → (∃ i, v = .integer i) ∨ ∃ x, v = .float x
  integer : ∀ w i, S.holds w (.integer i)
  float : ∀ {w x}, S.holds w (.float x) → ∀ y, S.holds w (.float y)

theorem numeric_integer : Numeric (Ty.integer.kind false) where
  isNumber h := .inl h
  integer _ i := ⟨i, rfl⟩
  float h := by
    obtain ⟨i, hi⟩ := h
    cases hi

theorem numeric_float : Numeric (Ty.float.kind false) where
  isNumber h := h
  integer _ i := .inl ⟨i, rfl⟩
  float _ y := .inr ⟨y, rfl⟩

namespace Numeric

variable (hS : Numeric S)

include hS

theorem outcome_fitInteger (operation : String) (n : Int) :
    Outcome S.holds w (Value.fitInteger operation n) := by
  unfold Value.fitInteger
  split
  · exact hS.integer w _
  · rfl

/-- An operation on two numbers, whose integer form stays among the numbers. -/
theorem outcome_numeric {operation : String} {onIntegers : Int → Int → Except RuntimeError Value}
    {onFloats : Float → Float → Float}
    (h : ∀ w x y, Outcome S.holds w (onIntegers x y)) {a b : Value} (ha : S.holds w a)
    (hb : S.holds w b) :
    Outcome S.holds w (Value.numeric operation onIntegers onFloats a b) := by
  rcases hS.isNumber ha with ⟨i, rfl⟩ | ⟨x, rfl⟩
  · rcases hS.isNumber hb with ⟨j, rfl⟩ | ⟨y, rfl⟩
    · exact h w _ _
    · exact hS.float hb _
  · rcases hS.isNumber hb with ⟨j, rfl⟩ | ⟨y, rfl⟩ <;> exact hS.float ha _

theorem outcome_add {a b : Value} (ha : S.holds w a) (hb : S.holds w b) :
    Outcome S.holds w (Value.add a b) :=
  hS.outcome_numeric (fun _ _ _ => hS.outcome_fitInteger _ _) ha hb

theorem outcome_subtract {a b : Value} (ha : S.holds w a) (hb : S.holds w b) :
    Outcome S.holds w (Value.subtract a b) :=
  hS.outcome_numeric (fun _ _ _ => hS.outcome_fitInteger _ _) ha hb

theorem outcome_multiply {a b : Value} (ha : S.holds w a) (hb : S.holds w b) :
    Outcome S.holds w (Value.multiply a b) :=
  hS.outcome_numeric (fun _ _ _ => hS.outcome_fitInteger _ _) ha hb

theorem outcome_divide {a b : Value} (ha : S.holds w a) (hb : S.holds w b) :
    Outcome S.holds w (Value.divide a b) := by
  refine hS.outcome_numeric (fun w x y => ?_) ha hb
  split
  · rfl
  · exact hS.outcome_fitInteger _ _

theorem outcome_remainder {a b : Value} (ha : S.holds w a) (hb : S.holds w b) :
    Outcome S.holds w (Value.remainder a b) := by
  refine hS.outcome_numeric (fun w x y => ?_) ha hb
  split
  · rfl
  · split
    · rfl
    · exact hS.outcome_fitInteger _ _

theorem outcome_power {a b : Value} (ha : S.holds w a) (hb : S.holds w b) :
    Outcome S.holds w (Value.power a b) := by
  refine hS.outcome_numeric (fun w x y => ?_) ha hb
  split
  · unfold Value.integerPower
    split
    · exact hS.outcome_fitInteger _ _
    · split
      · exact hS.outcome_fitInteger _ _
      · rfl
  · rfl

theorem outcome_negate {v : Value} (hv : S.holds w v) : Outcome S.holds w (Value.negate v) := by
  rcases hS.isNumber hv with ⟨i, rfl⟩ | ⟨x, rfl⟩
  · dsimp only [Value.negate]
    exact hS.outcome_fitInteger "neg" _
  · exact hS.float hv _

theorem outcome_absolute {v : Value} (hv : S.holds w v) :
    Outcome S.holds w (Value.absolute v) := by
  rcases hS.isNumber hv with ⟨i, rfl⟩ | ⟨x, rfl⟩
  · dsimp only [Value.absolute]
    -- left as it is, unification would unfold the coercion down to the bound
    generalize (i.toInt.natAbs : Int) = n
    exact hS.outcome_fitInteger "abs" n
  · exact hS.float hv _

end Numeric

theorem outcome_compareNumbers (operation : String) (a b : Value) :
    Outcome Anything w (Value.compareNumbers operation a b) := by
  cases a <;> cases b <;> first | exact trivial | exact allowed_mismatch ..

theorem outcome_roundedTo (operation : String) (round : Float → Float) (v : Value) :
    Outcome (Ty.integer.kind false).holds w (Value.roundedTo operation round v) := by
  have hfloat := v.outcome_toFloat (w := w) operation
  unfold Value.roundedTo
  cases hx : v.toFloat operation with
  | error e =>
      rw [hx] at hfloat
      exact hfloat
  | ok x =>
      dsimp only
      split
      · rfl
      · split
        · rfl
        · exact ⟨_, rfl⟩

theorem outcome_onFloat (operation : String) (f : Float → Float) (v : Value) :
    Outcome (Ty.float.kind false).holds w (Value.onFloat operation f v) := by
  have hfloat := v.outcome_toFloat (w := w) operation
  unfold Value.onFloat
  cases hx : v.toFloat operation with
  | error e =>
      rw [hx] at hfloat
      exact hfloat
  | ok x => exact .inr ⟨_, rfl⟩

end Numbers

namespace Returns

variable {a b c d : Ref}

theorem unary {op : Value → Except RuntimeError Value} (ha : Lazy false S w a)
    (hop : ∀ w v, S.holds w v → Outcome T.holds w (op v)) :
    Returns false w (fun R => R.unary op a) T.holds :=
  Returns.bind ha.force fun w' v _ hv => Returns.except (hop w' v hv)

theorem binary {op : Value → Value → Except RuntimeError Value} (ha : Lazy false S w a)
    (hb : Lazy false S w b)
    (hop : ∀ {w u v}, S.holds w u → S.holds w v → Outcome T.holds w (op u v)) :
    Returns false w (fun R => R.binary op a b) T.holds :=
  Returns.bind ha.force fun _ _ hle hu => Returns.bind (hb.mono hle).force fun _ _ hle' hv =>
    Returns.except (hop (S.mono hle' hu) hv)

theorem comparison (operation : String) (accept : Ordering → Bool) (ha : Lazy false S w a)
    (hb : Lazy false T w b) :
    Returns false w (fun R => R.comparison operation accept a b) (Ty.boolean.kind false).holds :=
  Returns.bind ha.force fun _ u hle _ => Returns.bind (hb.mono hle).force fun _ v _ _ =>
    Returns.bind (Returns.except (outcome_compareNumbers operation u v)) fun _ _ _ _ =>
      Returns.pure (.inl ⟨_, rfl⟩)

/-- An element, or nothing where the array has ended. -/
theorem elementOrNone {item : Option Item} (h : ∀ i, item = some i → Elem false S w i) :
    Returns false w (fun R => R.elementOrNone item) fun w v => v = .none ∨ S.holds w v := by
  cases item with
  | none => exact Returns.pure (.inl rfl)
  | some item =>
      refine Returns.bind (Returns.except (h item rfl)) fun w' r _ hr => ?_
      exact hr.force.imp fun _ _ _ hv => .inr hv

theorem elementAt {s : Sequence} (hs : Holds false S w s) (position : Int) :
    Returns false w (fun R => R.elementAt s position) fun w v => v = .none ∨ S.holds w v := by
  by_cases hpos : 0 ≤ position
  · simp only [Runner.elementAt, if_pos hpos]
    refine Returns.bind (Returns.lift hs.traverse) fun w' t _ ht => ?_
    refine Returns.bind (Returns.lift (ht.ahead position.toNat)) fun w'' next _ hnext => ?_
    exact elementOrNone fun item hitem => (hnext item hitem).1
  · simp only [Runner.elementAt, if_neg hpos]
    refine Returns.bind hs.toList fun w' refs _ hrefs => ?_
    split
    · refine elementOrNone fun item hitem => ?_
      obtain ⟨r, hr, rfl⟩ := Option.map_eq_some_iff.1 hitem
      exact hrefs r (List.mem_toArray.1 (Array.mem_of_getElem? hr))
    · exact Returns.pure (.inl rfl)

theorem slice {i j k : Ref} (ha : Lazy false (.array false S) w a) (hi : Lazy false T w i)
    (hj : Lazy false T w j) (hk : Lazy false T w k) :
    Returns false w (fun R => R.slice a i j k) (Kind.array false S).holds := by
  refine Returns.bind (ha.forceSequence _) fun w₁ s h₁ hs => ?_
  refine Returns.bind ((hi.mono h₁).forceBound _) fun w₂ start h₂ _ => ?_
  refine Returns.bind ((hj.mono (h₁.trans h₂)).forceBound _) fun w₃ stop h₃ _ => ?_
  refine Returns.bind ((hk.mono ((h₁.trans h₂).trans h₃)).forceBound _) fun w₄ step h₄ _ => ?_
  dsimp only
  split
  · exact Returns.throw rfl
  · exact Returns.pure ⟨_, rfl, (hs.mono ((h₂.trans h₃).trans h₄)).sliceOf start stop _⟩

/-- Combining the elements of an array with an operation that stays among them. -/
theorem reduce {operation : String} {start : Value}
    {op : Value → Value → Except RuntimeError Value} (ha : Lazy false (.array false S) w a)
    (hstart : ∀ w, S.holds w start)
    (hop : ∀ {w u v}, S.holds w u → S.holds w v → Outcome S.holds w (op u v)) :
    Returns false w (fun R => R.reduce operation start op a) S.holds := by
  refine Returns.bind (ha.forceSequence operation) fun w' s _ hs => ?_
  refine hs.fold S.holds (fun w w' v hle hv => S.mono hle hv) (fun w'' acc item _ hacc hitem => ?_)
    (hstart w')
  refine Returns.bind (Returns.except hitem) fun w₁ r h₁ hr => ?_
  refine Returns.bind hr.force fun w₂ v h₂ hv => ?_
  refine Returns.bind (Returns.except (hop (S.mono (h₁.trans h₂) hacc) hv)) fun w₃ v' _ hv' => ?_
  exact Returns.pure hv'

/-- The best element so far is an element. -/
theorem extremum (operation : String) (wanted : Ordering) (ha : Lazy false (.array false S) w a) :
    Returns false w (fun R => R.extremum operation wanted a) S.holds := by
  refine Returns.bind (ha.forceSequence operation) fun w' s _ hs => ?_
  refine Returns.bind (hs.fold (fun w best => ∀ v, best = some v → S.holds w v)
    (fun w w' best hle h v hv => S.mono hle (h v hv)) (fun w'' best item _ hbest hitem => ?_)
    fun v hv => nomatch hv) fun w'' best _ hbest => ?_
  · refine Returns.bind (Returns.except hitem) fun w₁ r h₁ hr => ?_
    refine Returns.bind hr.force fun w₂ v h₂ hv => ?_
    cases best with
    | none =>
        refine Returns.pure fun u hu => ?_
        cases hu
        exact hv
    | some current =>
        refine Returns.bind (Returns.except (outcome_compareNumbers operation v current))
          fun w₃ order h₃ _ => ?_
        split
        · refine Returns.pure fun u hu => ?_
          cases hu
          exact S.mono h₃ hv
        · refine Returns.pure fun u hu => ?_
          cases hu
          exact S.mono ((h₁.trans h₂).trans h₃) (hbest current rfl)
  · cases best with
    | none => exact Returns.throw rfl
    | some v => exact Returns.pure (hbest v rfl)

theorem length (ha : Lazy false (.array false S) w a) :
    Returns false w (fun R => R.length a) (Ty.integer.kind false).holds := by
  refine Returns.bind (ha.forceSequence _) fun w' s _ hs => ?_
  refine Returns.bind (hs.fold Anything (fun _ _ _ _ h => h) (fun w'' count item _ _ hitem => ?_)
    trivial) fun _ _ _ _ => Returns.pure ⟨_, rfl⟩
  exact Returns.bind (Returns.except hitem) fun _ _ _ _ => Returns.pure trivial

/-- The accumulator is fed back to the function. -/
theorem foldLeft (ha : Lazy false (.function false [T, S] T) w a) (hb : Lazy false T w b)
    (hc : Lazy false (.array false S) w c) :
    Returns false w (fun R => R.foldLeft a b c) T.holds := by
  refine Returns.bind ha.forceFunction fun w₁ f h₁ hf => ?_
  refine Returns.bind ((hc.mono h₁).forceSequence _) fun w₂ s h₂ hs => ?_
  refine Returns.bind (hs.fold (Lazy false T) (fun w w' r hle hr => hr.mono hle)
    (fun w₃ acc item h₃ hacc hitem => ?_) (hb.mono (h₁.trans h₂))) fun _ _ _ hr => hr.force
  refine Returns.bind (Returns.except hitem) fun w₄ r h₄ hr => ?_
  have hle := (h₂.trans h₃).trans h₄
  refine Returns.bind (hf.2 w₄ hle _ (.cons (hacc.mono h₄) (.cons hr .nil))) fun w₅ v h₅ hv => ?_
  have hkept : Yields false w₅ (fun _ => Run.update (Store.addValue v))
      fun w r => Lazy false T w r :=
    Yields.update (fun st => (Store.Grown.refl st).add _ fun h => Cell.noConfusion h) fun _ =>
      Lazy.of_addValue w₅.store w₅.frames fun w' hle => T.mono hle hv
  exact Returns.bind (Returns.lift hkept) fun w₆ r' _ hr' => Returns.pure hr'

theorem joinTexts (ha : Lazy false T w a) (hb : Lazy false (.array false S) w b) :
    Returns false w (fun R => R.joinTexts a b) (Ty.string.kind false).holds := by
  refine Returns.bind (ha.forceText _) fun w₁ _ h₁ _ => ?_
  refine Returns.bind ((hb.mono h₁).forceSequence _) fun w₂ s _ hs => ?_
  refine Returns.bind (hs.fold Anything (fun _ _ _ _ h => h) (fun w₃ texts item _ _ hitem => ?_)
    trivial) fun _ _ _ _ => Returns.pure ⟨_, rfl⟩
  refine Returns.bind (Returns.except hitem) fun w₄ r _ hr => ?_
  exact Returns.bind (hr.forceText _) fun _ _ _ _ => Returns.pure trivial

theorem integersBetween (operation : String) (inclusive : Bool) (ha : Lazy false S w a)
    (hb : Lazy false T w b) :
    Returns false w (fun R => R.integersBetween operation inclusive a b)
      (Kind.array false (Ty.integer.kind false)).holds :=
  Returns.bind (ha.forceInteger operation) fun _ _ hle _ =>
    Returns.bind ((hb.mono hle).forceInteger operation) fun _ _ _ _ =>
      Returns.pure ⟨_, rfl, Holds.integers (S := Ty.integer.kind false) (fun _ i => ⟨i, rfl⟩) _ _⟩

/-- One function after another. -/
theorem maps_pipeline {name : String} {inner outer : Function} (hinner : Maps false [S] T w inner)
    (houter : Maps false [T] U w outer) :
    Maps false [S] U w (.pipeline name inner outer [none]) := by
  refine .of_body rfl fun w' hle args hargs => ?_
  refine Returns.bind (Returns.lift (yields_defer (hinner.mono hle) hargs)) fun w'' r hle' hr => ?_
  exact houter.2 w'' (hle.trans hle') [r] (.cons hr .nil)

theorem pipeline_swapped {name : String} (ha : Lazy false (.function false [T] U) w a)
    (hb : Lazy false (.function false [S] T) w b) :
    Returns false w (fun R => R.pipeline name true a b)
      (Kind.function false [S] U).holds := by
  refine Returns.bind ha.forceFunction fun w₁ f h₁ hf => ?_
  refine Returns.bind (hb.mono h₁).forceFunction fun w₂ g h₂ hg => ?_
  exact Returns.pure ⟨_, rfl, maps_pipeline hg (hf.mono h₂)⟩

theorem pipeline {name : String} (ha : Lazy false (.function false [S] T) w a)
    (hb : Lazy false (.function false [T] U) w b) :
    Returns false w (fun R => R.pipeline name false a b)
      (Kind.function false [S] U).holds := by
  refine Returns.bind ha.forceFunction fun w₁ f h₁ hf => ?_
  refine Returns.bind (hb.mono h₁).forceFunction fun w₂ g h₂ hg => ?_
  exact Returns.pure ⟨_, rfl, maps_pipeline (hf.mono h₂) hg⟩

theorem maps_flipped {f : Function} (hf : Maps false [S, T] U w f) :
    Maps false [T, S] U w (.flipped f [none, none]) := by
  refine .of_body rfl fun w' hle args hargs => ?_
  cases hargs with
  | cons ht hargs =>
      cases hargs with
      | cons hs hargs =>
          cases hargs
          exact hf.2 w' hle _ (.cons hs (.cons ht .nil))

theorem both (ha : Lazy false S w a) (hb : Lazy false T w b) :
    Returns false w (fun R => R.both a b) (Ty.boolean.kind false).holds := by
  refine Returns.bind (ha.forceTruth _) fun w' first hle _ => ?_
  cases first with
  | true =>
      exact Returns.bind ((hb.mono hle).forceTruth _) fun _ _ _ _ => Returns.pure (.inl ⟨_, rfl⟩)
  | false => exact Returns.pure (.inl ⟨_, rfl⟩)

theorem either (ha : Lazy false S w a) (hb : Lazy false T w b) :
    Returns false w (fun R => R.either a b) (Ty.boolean.kind false).holds := by
  refine Returns.bind (ha.forceTruth _) fun w' first hle _ => ?_
  cases first with
  | true => exact Returns.pure (.inl ⟨_, rfl⟩)
  | false =>
      exact Returns.bind ((hb.mono hle).forceTruth _) fun _ _ _ _ => Returns.pure (.inl ⟨_, rfl⟩)

end Returns

end LazyLang
