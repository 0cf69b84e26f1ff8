import LazyLang.Library
import LazyLang.Proofs.Soundness.Deep

/-!
# The built-in functions have their types

An instance of a type has some type in the place of every variable, where there is a bound a plain
one that the bound accepts. Each function of the library returns values of every instance of its
result type for arguments of the same instance of its parameter types.
-/

namespace LazyLang

namespace Ty

mutual

/-- The type with every variable replaced. -/
def instantiate (θ : String → Ty) : Ty → Ty
  | generic name | constrained name _ => θ name
  | array element => array (instantiate θ element)
  | function params result => function (instantiateEach θ params) (instantiate θ result)
  | union members => union (instantiateEach θ members)
  | record fields => record (instantiateFields θ fields)
  | integer => integer
  | float => float
  | string => string
  | boolean => boolean
  | none => none
  | emptyArray => emptyArray

/-- Each of the types with every variable replaced. -/
def instantiateEach (θ : String → Ty) : List Ty → List Ty
  | [] => []
  | a :: rest => instantiate θ a :: instantiateEach θ rest

/-- Each of the fields with every variable replaced. -/
def instantiateFields (θ : String → Ty) : List (String × Ty) → List (String × Ty)
  | [] => []
  | (name, a) :: rest => (name, instantiate θ a) :: instantiateFields θ rest

end

mutual

/-- The variables with bounds in a type, each with its bound. -/
def bounds : Ty → List (String × Ty)
  | constrained name bound => [(name, bound)]
  | array element => bounds element
  | function params result => boundsEach params ++ bounds result
  | union members => boundsEach members
  | record fields => boundsFields fields
  | generic _ | integer | float | string | boolean | none | emptyArray => []

/-- The variables with bounds in the types. -/
def boundsEach : List Ty → List (String × Ty)
  | [] => []
  | a :: rest => bounds a ++ boundsEach rest

/-- The variables with bounds in the fields. -/
def boundsFields : List (String × Ty) → List (String × Ty)
  | [] => []
  | (_, a) :: rest => bounds a ++ boundsFields rest

end

/-- The types that stand for the variables with bounds of a type are plain ones within the
bounds. -/
def Suits (θ : String → Ty) (a : Ty) : Prop :=
  ∀ name bound, (name, bound) ∈ a.bounds →
    (θ name).isPlain = true ∧ bound.isSubtype (θ name) = true

variable {θ : String → Ty}

/-- A bound in one of the types is one in all of them. -/
theorem mem_boundsEach {a : Ty} {types : List Ty} {bound : String × Ty} (ha : a ∈ types)
    (h : bound ∈ a.bounds) : bound ∈ boundsEach types := by
  induction types with
  | nil => cases ha
  | cons head rest ih =>
      rw [boundsEach, List.mem_append]
      rcases List.mem_cons.1 ha with rfl | ha
      · exact .inl h
      · exact .inr (ih ha)

theorem instantiateEach_eq_map (types : List Ty) :
    instantiateEach θ types = types.map (instantiate θ) := by
  induction types with
  | nil => rfl
  | cons a rest ih => rw [instantiateEach, ih, List.map_cons]

theorem instantiateFields_eq_map (fields : List (String × Ty)) :
    instantiateFields θ fields = fields.map fun field => (field.1, instantiate θ field.2) := by
  induction fields with
  | nil => rfl
  | cons head rest ih => rw [instantiateFields, ih, List.map_cons]

/-- A type without variables is its own instance. -/
theorem instantiate_of_ground {a : Ty} (h : a.hasGenerics = false) : instantiate θ a = a := by
  induction a with
  | integer | float | string | boolean | none | emptyArray => rfl
  | array element ih => rw [instantiate, ih h]
  | function params result ihparams ihresult =>
      rw [hasGenerics, Bool.or_eq_false_iff] at h
      rw [instantiate, instantiateEach_eq_map, ihresult h.2]
      congr 1
      exact (List.map_congr_left fun p hp => ihparams p hp (hasGenerics_of_mem h.1 hp)).trans
        (List.map_id params)
  | union members ih =>
      rw [instantiate, instantiateEach_eq_map]
      congr 1
      exact (List.map_congr_left fun m hm => ih m hm (hasGenerics_of_mem h hm)).trans
        (List.map_id members)
  | generic | constrained => cases h
  | record fields ih =>
      rw [instantiate, instantiateFields_eq_map]
      congr 1
      refine (List.map_congr_left fun field hf => ?_).trans (List.map_id fields)
      rw [ih field hf (hasGenerics_of_mem_fields h hf)]
      rfl

/-- What covers a member has the values of its instances. -/
theorem includes_instantiate_of_covers {k m : Ty} (h : Covers k m) :
    Includes false (instantiate θ k) (instantiate θ m) := by
  rcases h with rfl | ⟨hk, hm, h⟩
  · exact fun _ _ hv => hv
  · rw [instantiate_of_ground hk, instantiate_of_ground hm]
    exact includes_of_accepts hk hm h

/-- An instance of a union in normal form has the values of the instances of its members. -/
theorem includes_instantiate_unionOf {m : Ty} {types : List Ty} (hm : m ∈ flattenAll types) :
    Includes false (instantiate θ (unionOf types)) (instantiate θ m) := by
  obtain ⟨k, hk, hcovers⟩ := exists_covers_of_mem hm
  have hkm : Includes false (instantiate θ k) (instantiate θ m) :=
    includes_instantiate_of_covers hcovers
  rcases unionOf_cases types with ⟨only, honly, heq⟩ | heq
  · rw [honly] at hk
    cases List.mem_singleton.1 hk
    rw [heq]
    exact hkm
  · rw [heq, instantiate, instantiateEach_eq_map]
    exact fun w v hv => kind_union_iff.2
      ⟨_, List.mem_map_of_mem (mem_sortMembers.2 hk), hkm w v hv⟩

end Ty

variable {w : World} {S T U V : Kind} {P : World → Value → Prop}

namespace Returns

section Arguments

variable {args : List Ref}

theorem on1 {body : Runner → Ref → Eval Value}
    (hargs : List.Forall₂ (fun S r => Lazy false S w r) [S] args)
    (h : ∀ a, Lazy false S w a → Returns false w (fun R => body R a) P) :
    Returns false w (fun R => Runner.on1 (body R) args) P := by
  cases hargs with
  | cons ha hargs =>
      cases hargs
      exact h _ ha

theorem on2 {body : Runner → Ref → Ref → Eval Value}
    (hargs : List.Forall₂ (fun S r => Lazy false S w r) [S, T] args)
    (h : ∀ a b, Lazy false S w a → Lazy false T w b → Returns false w (fun R => body R a b) P) :
    Returns false w (fun R => Runner.on2 (body R) args) P := by
  cases hargs with
  | cons ha hargs =>
      cases hargs with
      | cons hb hargs =>
          cases hargs
          exact h _ _ ha hb

theorem on3 {body : Runner → Ref → Ref → Ref → Eval Value}
    (hargs : List.Forall₂ (fun S r => Lazy false S w r) [S, T, U] args)
    (h : ∀ a b c, Lazy false S w a → Lazy false T w b → Lazy false U w c →
      Returns false w (fun R => body R a b c) P) :
    Returns false w (fun R => Runner.on3 (body R) args) P := by
  cases hargs with
  | cons ha hargs =>
      cases hargs with
      | cons hb hargs =>
          cases hargs with
          | cons hc hargs =>
              cases hargs
              exact h _ _ _ ha hb hc

theorem on4 {body : Runner → Ref → Ref → Ref → Ref → Eval Value}
    (hargs : List.Forall₂ (fun S r => Lazy false S w r) [S, T, U, V] args)
    (h : ∀ a b c d, Lazy false S w a → Lazy false T w b → Lazy false U w c → Lazy false V w d →
      Returns false w (fun R => body R a b c d) P) :
    Returns false w (fun R => Runner.on4 (body R) args) P := by
  cases hargs with
  | cons ha hargs =>
      cases hargs with
      | cons hb hargs =>
          cases hargs with
          | cons hc hargs =>
              cases hargs with
              | cons hd hargs =>
                  cases hargs
                  exact h _ _ _ _ ha hb hc hd

end Arguments

section Recipes

variable {a b c : Ref} {operation : String}

/-- An array made of another. -/
theorem remade (recipe : Sequence → Sequence) (ha : Lazy false (.array false S) w a)
    (h : ∀ w s, Holds false S w s → Holds false T w (recipe s)) :
    Returns false w (fun R => do return .array (recipe (← R.forceSequence operation a)))
      (Kind.array false T).holds :=
  Returns.bind (ha.forceSequence operation) fun w' s _ hs => Returns.pure ⟨_, rfl, h w' s hs⟩

/-- An array made of another with a number. -/
theorem counted (recipe : Nat → Sequence → Sequence) (ha : Lazy false S w a)
    (hb : Lazy false (.array false T) w b)
    (h : ∀ w n s, Holds false T w s → Holds false T w (recipe n s)) :
    Returns false w (fun R => do
      let n ← R.forceCount operation a
      return .array (recipe n (← R.forceSequence operation b))) (Kind.array false T).holds :=
  Returns.bind (ha.forceCount operation) fun _ n hle _ =>
    remade (recipe n) (hb.mono hle) fun w s => h w n s

/-- An array made of another with a function. -/
theorem transformed (recipe : Function → Sequence → Sequence)
    (ha : Lazy false (.function false [S] T) w a) (hb : Lazy false (.array false S) w b)
    (h : ∀ w f s, Maps false [S] T w f → Holds false S w s → Holds false U w (recipe f s)) :
    Returns false w (fun R => do
      let f ← R.forceFunction a
      return .array (recipe f (← R.forceSequence operation b))) (Kind.array false U).holds := by
  refine Returns.bind ha.forceFunction fun w₁ f h₁ hf => ?_
  refine Returns.bind ((hb.mono h₁).forceSequence operation) fun w₂ s h₂ hs => ?_
  exact Returns.pure ⟨_, rfl, h w₂ f s (hf.mono h₂) hs⟩

theorem zipped (ha : Lazy false (.function false [S, T] U) w a)
    (hb : Lazy false (.array false S) w b) (hc : Lazy false (.array false T) w c) :
    Returns false w (fun R => do
      let f ← R.forceFunction a
      let left ← R.forceSequence operation b
      return .array (.zipWith f left (← R.forceSequence operation c)))
      (Kind.array false U).holds := by
  refine Returns.bind ha.forceFunction fun w₁ f h₁ hf => ?_
  refine Returns.bind ((hb.mono h₁).forceSequence operation) fun w₂ s h₂ hs => ?_
  refine Returns.bind ((hc.mono (h₁.trans h₂)).forceSequence operation) fun w₃ t h₃ ht => ?_
  exact Returns.pure ⟨_, rfl, Holds.zipWith (hf.mono (h₂.trans h₃)) (hs.mono h₃) ht⟩

theorem concatenated (ha : Lazy false (.array false S) w a) (hb : Lazy false (.array false S) w b) :
    Returns false w (fun R => do
      let first ← R.forceSequence operation a
      return .array (.concat first (← R.forceSequence operation b)))
      (Kind.array false S).holds := by
  refine Returns.bind (ha.forceSequence operation) fun w₁ s h₁ hs => ?_
  refine Returns.bind ((hb.mono h₁).forceSequence operation) fun w₂ t h₂ ht => ?_
  exact Returns.pure ⟨_, rfl, (hs.mono h₂).concat ht⟩

theorem first (ha : Lazy false (.array false S) w a) :
    Returns false w (fun R => do
      let s ← R.forceSequence operation a
      let (item, _) ← ExceptT.lift (do R.next (← s.traverse R))
      R.elementOrNone item) fun w v => v = .none ∨ S.holds w v := by
  refine Returns.bind (ha.forceSequence operation) fun w₁ s h₁ hs => ?_
  refine Returns.bind (P := Finds false S (Gives false S)) (Returns.lift ?_) fun w₂ next h₂ hnext =>
    elementOrNone fun item hitem => (hnext item hitem).1
  exact Yields.bind hs.traverse fun w' t _ ht => ht.next

/-- A choice forces the truth value and then one of the two. -/
theorem chosen (ha : Lazy false S w a) (hb : Lazy false T w b) (hc : Lazy false T w c) :
    Returns false w (fun R => do if ← R.forceTruth operation a then R.force b else R.force c)
      T.holds := by
  refine Returns.bind (ha.forceTruth operation) fun w' truth hle _ => ?_
  cases truth with
  | true => exact (hb.mono hle).force
  | false => exact (hc.mono hle).force

/-- Whether two values are equal. -/
theorem equality {f : Bool → Bool} (ha : Lazy false S w a) (hb : Lazy false S w b)
    (hS : ∀ w v, S.holds w v → Typed w v) :
    Returns false w (fun R => do return .boolean (f (← R.equal (← R.force a) (← R.force b))))
      (Ty.boolean.kind false).holds := by
  refine Returns.bind ha.force fun w₁ u h₁ hu => ?_
  refine Returns.bind (hb.mono h₁).force fun w₂ v h₂ hv => ?_
  refine Returns.bind (equal ((hS w₁ u hu).mono h₂) (hS w₂ v hv)) fun _ _ _ _ => ?_
  exact Returns.pure (.inl ⟨_, rfl⟩)

theorem rendered (ha : Lazy false S w a) (hS : ∀ w v, S.holds w v → Typed w v) :
    Returns false w (fun R => do return .string (← R.render (← R.force a)))
      (Ty.string.kind false).holds := by
  refine Returns.bind ha.force fun w₁ v _ hv => ?_
  exact Returns.bind (render (hS w₁ v hv)) fun _ _ _ _ => Returns.pure ⟨_, rfl⟩

/-- A value made of a text. -/
theorem ofText {f : String → Value} (ha : Lazy false S w a) (h : ∀ w s, T.holds w (f s)) :
    Returns false w (fun R => do return f (← R.forceText operation a)) T.holds :=
  Returns.bind (ha.forceText operation) fun w' s _ _ => Returns.pure (h w' s)

end Recipes

end Returns

open Ty (Suits instantiate instantiateEach kinds)

variable {θ : String → Ty}

/-- A variable that stands for a number stands for the integers or the floats. -/
theorem numeric_of_suits {b : Builtin} (hθ : Suits θ b.type)
    (h : Builtin.numeric ∈ b.params ∨ Ty.array Builtin.numeric ∈ b.params) :
    Numeric ((θ "T").kind false) := by
  have hmem : ("T", Ty.float) ∈ b.type.bounds := by
    have hparams : ("T", Ty.float) ∈ Ty.boundsEach b.params := by
      rcases h with h | h
      · exact Ty.mem_boundsEach h List.mem_cons_self
      · exact Ty.mem_boundsEach h List.mem_cons_self
    exact List.mem_append_left _ hparams
  obtain ⟨hplain, hbound⟩ := hθ "T" .float hmem
  rcases (Ty.accepts_float_iff hplain).1 hbound with heq | heq <;> rw [heq]
  · exact numeric_float
  · exact numeric_integer

theorem elementOrNone_holds {v : Value} (h : v = .none ∨ ((θ "T").kind false).holds w v) :
    ((instantiate θ (Ty.unionOf [Builtin.anyT, .none])).kind false).holds w v := by
  rcases h with rfl | h
  · exact Ty.includes_instantiate_unionOf (m := .none) (by simp [Ty.flattenAll, Ty.flatten]) w _ rfl
  · exact Ty.includes_instantiate_unionOf (m := Builtin.anyT)
      (by simp [Ty.flattenAll, Ty.flatten, Builtin.anyT]) w v h

/-- A built-in function on arguments of its parameter types returns a value of its result type. -/
theorem returns_runBuiltin (b : Builtin) (hθ : Suits θ b.type) {args : List Ref}
    (hargs : List.Forall₂ (fun S r => Lazy false S w r)
      (kinds false (instantiateEach θ b.params)) args) :
    Returns false w (fun R => R.runBuiltin b args) ((instantiate θ b.result).kind false).holds := by
  have typed : ∀ w v, ((θ "T").kind false).holds w v → Typed w v := fun _ _ h => ⟨_, h⟩
  cases b with
  | add =>
      have hT := numeric_of_suits hθ (.inl List.mem_cons_self)
      exact Returns.on2 hargs fun a b ha hb => Returns.binary ha hb hT.outcome_add
  | subtract =>
      have hT := numeric_of_suits hθ (.inl List.mem_cons_self)
      exact Returns.on2 hargs fun a b ha hb => Returns.binary ha hb hT.outcome_subtract
  | multiply =>
      have hT := numeric_of_suits hθ (.inl List.mem_cons_self)
      exact Returns.on2 hargs fun a b ha hb => Returns.binary ha hb hT.outcome_multiply
  | divide =>
      have hT := numeric_of_suits hθ (.inl List.mem_cons_self)
      exact Returns.on2 hargs fun a b ha hb => Returns.binary ha hb hT.outcome_divide
  | remainder =>
      have hT := numeric_of_suits hθ (.inl List.mem_cons_self)
      exact Returns.on2 hargs fun a b ha hb => Returns.binary ha hb hT.outcome_remainder
  | power =>
      have hT := numeric_of_suits hθ (.inl List.mem_cons_self)
      exact Returns.on2 hargs fun a b ha hb => Returns.binary ha hb hT.outcome_power
  | negate =>
      have hT := numeric_of_suits hθ (.inl List.mem_cons_self)
      exact Returns.on1 hargs fun a ha => Returns.unary ha fun _ _ => hT.outcome_negate
  | abs =>
      have hT := numeric_of_suits hθ (.inl List.mem_cons_self)
      exact Returns.on1 hargs fun a ha => Returns.unary ha fun _ _ => hT.outcome_absolute
  | sum =>
      have hT := numeric_of_suits hθ (.inr List.mem_cons_self)
      exact Returns.on1 hargs fun a ha =>
        Returns.reduce ha (fun w => hT.integer w 0) hT.outcome_add
  | product =>
      have hT := numeric_of_suits hθ (.inr List.mem_cons_self)
      exact Returns.on1 hargs fun a ha =>
        Returns.reduce ha (fun w => hT.integer w 1) hT.outcome_multiply
  | min => exact Returns.on1 hargs fun a ha => Returns.extremum "min" .lt ha
  | max => exact Returns.on1 hargs fun a ha => Returns.extremum "max" .gt ha
  | less => exact Returns.on2 hargs fun a b ha hb => Returns.comparison _ _ ha hb
  | lessOrEqual => exact Returns.on2 hargs fun a b ha hb => Returns.comparison _ _ ha hb
  | greater => exact Returns.on2 hargs fun a b ha hb => Returns.comparison _ _ ha hb
  | greaterOrEqual => exact Returns.on2 hargs fun a b ha hb => Returns.comparison _ _ ha hb
  | equal => exact Returns.on2 hargs fun a b ha hb => Returns.equality (f := id) ha hb typed
  | notEqual => exact Returns.on2 hargs fun a b ha hb => Returns.equality (f := not) ha hb typed
  | choose => exact Returns.on3 hargs fun c a b hc ha hb => Returns.chosen hc ha hb
  | not =>
      exact Returns.on1 hargs fun a ha =>
        Returns.bind (ha.forceTruth "not") fun _ _ _ _ => Returns.pure (.inl ⟨_, rfl⟩)
  | and => exact Returns.on2 hargs fun a b ha hb => Returns.both ha hb
  | or => exact Returns.on2 hargs fun a b ha hb => Returns.either ha hb
  | inclusiveRange => exact Returns.on2 hargs fun a b ha hb => Returns.integersBetween _ _ ha hb
  | range => exact Returns.on2 hargs fun a b ha hb => Returns.integersBetween _ _ ha hb
  | count =>
      exact Returns.on1 hargs fun a ha =>
        Returns.bind (ha.forceInteger "count") fun _ i _ _ => Returns.pure
          ⟨_, rfl, Holds.integers (S := Ty.integer.kind false) (fun _ i => ⟨i, rfl⟩) _ _⟩
  | repeated => exact Returns.on1 hargs fun a ha => Returns.pure ⟨_, rfl, Holds.repeated ha⟩
  | iterate =>
      refine Returns.on2 hargs fun f seed hf hseed => ?_
      refine Returns.bind hf.forceFunction fun w' f hle hf => ?_
      exact Returns.pure ⟨_, rfl, Holds.iterate hf (hseed.mono hle)⟩
  | contains => exact Returns.on2 hargs fun a b ha hb => Returns.contains ha typed hb
  | index =>
      refine Returns.on2 hargs fun xs i hxs hi => ?_
      refine Returns.bind (hxs.forceSequence "[]") fun w₁ s h₁ hs => ?_
      refine Returns.bind ((hi.mono h₁).forceInteger "[]") fun w₂ i h₂ _ => ?_
      exact (Returns.elementAt (hs.mono h₂) _).imp fun _ _ _ => elementOrNone_holds
  | slice => exact Returns.on4 hargs fun xs i j k hxs hi hj hk => Returns.slice hxs hi hj hk
  | length => exact Returns.on1 hargs fun xs hxs => Returns.length hxs
  | head =>
      exact Returns.on1 hargs fun xs hxs =>
        (Returns.first hxs).imp fun _ _ _ => elementOrNone_holds
  | tail =>
      exact Returns.on1 hargs fun xs hxs =>
        Returns.remade (.drop 1) hxs fun w s hs => hs.drop 1
  | reverse =>
      exact Returns.on1 hargs fun xs hxs =>
        Returns.remade .reverse hxs fun w s hs => hs.reverse
  | take =>
      exact Returns.on2 hargs fun n xs hn hxs =>
        Returns.counted .take hn hxs fun w n s hs => hs.take n
  | drop =>
      exact Returns.on2 hargs fun n xs hn hxs =>
        Returns.counted .drop hn hxs fun w n s hs => hs.drop n
  | concat => exact Returns.on2 hargs fun xs ys hxs hys => Returns.concatenated hxs hys
  | map =>
      exact Returns.on2 hargs fun f xs hf hxs =>
        Returns.transformed .map hf hxs fun w f s hf hs => hs.map hf
  | filter =>
      exact Returns.on2 hargs fun f xs hf hxs =>
        Returns.transformed .filter hf hxs fun w f s hf hs => hs.filter hf
  | fold => exact Returns.on3 hargs fun f start xs hf hstart hxs => Returns.foldLeft hf hstart hxs
  | zipWith => exact Returns.on3 hargs fun f xs ys hf hxs hys => Returns.zipped hf hxs hys
  | compose => exact Returns.on2 hargs fun f g hf hg => Returns.pipeline_swapped hf hg
  | pipe => exact Returns.on2 hargs fun f g hf hg => Returns.pipeline hf hg
  | identity => exact Returns.on1 hargs fun a ha => ha.force
  | const => exact Returns.on2 hargs fun a b ha hb => ha.force
  | flip =>
      exact Returns.on1 hargs fun f hf => Returns.bind hf.forceFunction fun w' f _ hf =>
        Returns.pure ⟨_, rfl, Returns.maps_flipped hf⟩
  | sin | cos | tan | sqrt | exp | ln =>
      exact Returns.on1 hargs fun a ha =>
        Returns.unary (T := Ty.float.kind false) ha fun _ v _ => outcome_onFloat _ _ v
  | floor | ceil | round =>
      exact Returns.on1 hargs fun a ha =>
        Returns.unary (T := Ty.integer.kind false) ha fun _ v _ => outcome_roundedTo _ _ v
  | join => exact Returns.on2 hargs fun a b ha hb => Returns.joinTexts ha hb
  | upper =>
      exact Returns.on1 hargs fun a ha => Returns.ofText (T := Ty.string.kind false)
        (f := fun s => .string (Text.upper s)) ha fun _ _ => ⟨_, rfl⟩
  | lower =>
      exact Returns.on1 hargs fun a ha => Returns.ofText (T := Ty.string.kind false)
        (f := fun s => .string (Text.lower s)) ha fun _ _ => ⟨_, rfl⟩
  | lengthOf =>
      exact Returns.on1 hargs fun a ha => Returns.ofText (T := Ty.integer.kind false)
        (f := fun s => .integer (Int64.ofNat s.length)) ha fun _ _ => ⟨_, rfl⟩
  | string => exact Returns.on1 hargs fun a ha => Returns.rendered ha typed

end LazyLang
