import LazyLang.Ty

/-!
# Subtyping

`base.accepts other` says whether a value of type `other` may be used where `base` is expected.
Floats take integers, parameters are contravariant and results covariant; a union is accepted when
each of its members is, and accepts what one of its members accepts. A generic variable is judged by
its bound, and one without a bound accepts everything and is accepted by everything.

Where numbers count as truth values a boolean takes them too. `isSubtype` allows that and
`isStrictSubtype` does not.
-/

namespace LazyLang.Ty

/-- Whether numbers are taken for truth values. -/
inductive Coercion where
  | truthiness
  | strict
  deriving DecidableEq

theorem sizeOf_lt_of_lookup {name : String} {field : Ty} {fields : List (String × Ty)}
    (h : fields.lookup name = some field) : sizeOf field < sizeOf fields := by
  induction fields with
  | nil => simp at h
  | cons head rest ih =>
    obtain ⟨other, a⟩ := head
    simp only [List.lookup_cons] at h
    split at h
    · cases h; simp; omega
    · have := ih h; simp; omega

mutual

/-- Whether a value of type `other` may stand where `base` is expected. -/
def accepts (coercion : Coercion) (base other : Ty) : Bool :=
  base == other ||
    match base, other with
    | generic _, _ => true
    | constrained _ _, generic _ => true
    | constrained _ bound, constrained _ own => accepts coercion bound own
    | constrained _ bound, other => accepts coercion bound other
    | _, generic _ => true
    | base, constrained _ own => accepts coercion base own
    | base, union members => acceptsEach coercion base members
    | union members, other => someAccepts coercion members other
    | float, integer => true
    | boolean, integer | boolean, float => coercion = .truthiness
    | array _, emptyArray => true
    | array element, array own => accepts coercion element own
    | function params result, function own ownResult =>
      acceptsParams coercion params own && accepts coercion result ownResult
    | record fields, record own => acceptsFields coercion fields own
    | _, _ => false
  termination_by sizeOf base + sizeOf other
  decreasing_by all_goals simp <;> omega

/-- Whether `base` accepts each of the types. -/
def acceptsEach (coercion : Coercion) (base : Ty) (others : List Ty) : Bool :=
  match others with
  | [] => true
  | other :: rest => accepts coercion base other && acceptsEach coercion base rest
  termination_by sizeOf base + sizeOf others
  decreasing_by all_goals simp <;> omega

/-- Whether one of the types accepts `other`. -/
def someAccepts (coercion : Coercion) (bases : List Ty) (other : Ty) : Bool :=
  match bases with
  | [] => false
  | base :: rest => accepts coercion base other || someAccepts coercion rest other
  termination_by sizeOf bases + sizeOf other
  decreasing_by all_goals simp <;> omega

/-- Whether there are as many parameters on both sides and each of `own` accepts its counterpart. -/
def acceptsParams (coercion : Coercion) (params own : List Ty) : Bool :=
  match params, own with
  | [], [] => true
  | param :: params, mine :: own =>
    accepts coercion mine param && acceptsParams coercion params own
  | _, _ => false
  termination_by sizeOf params + sizeOf own
  decreasing_by all_goals simp; omega

/-- Whether each field has a counterpart of its name in `own` that it accepts. -/
def acceptsFields (coercion : Coercion) (fields own : List (String × Ty)) : Bool :=
  match fields with
  | [] => true
  | (name, field) :: rest =>
    (match h : own.lookup name with
      | some mine =>
        have := sizeOf_lt_of_lookup h
        accepts coercion field mine
      | Option.none => false) && acceptsFields coercion rest own
  termination_by sizeOf fields + sizeOf own
  decreasing_by all_goals simp <;> omega

end

/-- Subtyping with numbers as truth values. -/
def isSubtype (base other : Ty) : Bool := accepts .truthiness base other

/-- Subtyping without numbers as truth values. -/
def isStrictSubtype (base other : Ty) : Bool := accepts .strict base other

end LazyLang.Ty
