import LazyLang.Ty.Union

/-!
# Evidence for generic variables

The arguments of a call tell what its generic variables stand for. `collect` walks a parameter type
and an argument type in step and notes which type each variable meets; of several the union counts.
`substitute` puts the types found into another type and normalizes its unions anew.
-/

namespace LazyLang

/-- What the generic variables are known to stand for, in the order of their names. -/
abbrev Evidence := List (String × Ty)

namespace Evidence

/-- The type known for a variable. -/
def get? (e : Evidence) (name : String) : Option Ty := e.lookup name

/-- Notes one more type for a variable. -/
def insert (name : String) (type : Ty) : Evidence → Evidence
  | [] => [(name, type)]
  | (other, known) :: rest =>
    if name < other then (name, type) :: (other, known) :: rest
    else if name = other then (name, Ty.unionOf [known, type]) :: rest
    else (other, known) :: insert name type rest

theorem insert_cons (name : String) (type : Ty) (other : String) (known : Ty) (rest : Evidence) :
    insert name type ((other, known) :: rest) =
      if name < other then (name, type) :: (other, known) :: rest
      else if name = other then (name, Ty.unionOf [known, type]) :: rest
      else (other, known) :: insert name type rest := rfl

/-- Adds all that another collection knows. -/
def merge (e other : Evidence) : Evidence :=
  other.foldl (fun e entry => e.insert entry.1 entry.2) e

/-- The evidence that a list of entries gives. -/
def ofList (entries : List (String × Ty)) : Evidence := merge [] entries

mutual

/-- Notes in `e` what the variables of `generic` meet in `concrete`. A member of a union is no
evidence when an alternative without variables already takes it. -/
def collect (generic concrete : Ty) (e : Evidence) : Evidence :=
  match generic with
  | .generic name | .constrained name _ =>
    if concrete.hasGenerics then e else e.insert name concrete
  | .array element =>
    match concrete with
    | .array own => collect element own e
    | _ => e
  | .function params result =>
    match concrete with
    | .function own ownResult =>
      collect result ownResult
        (if params.length = own.length then collectParams params own e else e)
    | _ => e
  | .union members =>
    let fixed := members.filter (!·.hasGenerics)
    let found :=
      match concrete with
      | .union own => own
      | other => [other]
    found.foldl
      (fun e member =>
        if fixed.any (·.isSubtype member) then e else collectMembers members member e) e
  | .record fields =>
    match concrete with
    | .record own => collectFields fields own e
    | _ => e
  | .integer | .float | .string | .boolean | .none | .emptyArray => e

/-- Notes what the variables of the parameters meet, one by one. -/
def collectParams : List Ty → List Ty → Evidence → Evidence
  | param :: params, mine :: own, e => collectParams params own (collect param mine e)
  | _, _, e => e

/-- Notes what the variables of the members that have some meet in `concrete`. -/
def collectMembers : List Ty → Ty → Evidence → Evidence
  | [], _, e => e
  | member :: rest, concrete, e =>
    collectMembers rest concrete (if member.hasGenerics then collect member concrete e else e)

/-- Notes what the variables of the fields meet in the fields of the same names. -/
def collectFields : List (String × Ty) → List (String × Ty) → Evidence → Evidence
  | [], _, e => e
  | (name, field) :: rest, own, e =>
    collectFields rest own
      (match own.lookup name with
        | some mine => collect field mine e
        | none => e)

end

/-- The evidence that an argument of type `concrete` gives for the variables of `generic`. -/
def ofArgument (generic concrete : Ty) : Evidence := collect generic concrete []

mutual

/-- The type with every variable that `e` knows replaced, and its unions in normal form. -/
def substitute (e : Evidence) : Ty → Ty
  | .generic name => (e.get? name).getD (.generic name)
  | .constrained name bound => (e.get? name).getD (.constrained name bound)
  | .array element => .array (substitute e element)
  | .function params result => .function (substituteEach e params) (substitute e result)
  | .union members => Ty.unionOf (substituteEach e members)
  | .record fields => .record (substituteFields e fields)
  | .integer => .integer
  | .float => .float
  | .string => .string
  | .boolean => .boolean
  | .none => .none
  | .emptyArray => .emptyArray

/-- Substitution in each of the types. -/
def substituteEach (e : Evidence) : List Ty → List Ty
  | [] => []
  | a :: rest => substitute e a :: substituteEach e rest

/-- Substitution in each of the fields. -/
def substituteFields (e : Evidence) : List (String × Ty) → List (String × Ty)
  | [] => []
  | (name, a) :: rest => (name, substitute e a) :: substituteFields e rest

end

end Evidence

end LazyLang
