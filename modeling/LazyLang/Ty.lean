/-!
# Types

Types are structural. A generic variable stands for the type that a call gives it, and may be bound
to what another type accepts. `pretty` writes a type the way messages show it, and union members are
ordered by that text.
-/

namespace LazyLang

/-- A type. `emptyArray` is the type of the array without elements, whose element type is unknown.
The fields of a record are in the order of their names, each name once. -/
inductive Ty where
  | integer
  | float
  | string
  | boolean
  | none
  | emptyArray
  | array (element : Ty)
  | function (params : List Ty) (result : Ty)
  | union (members : List Ty)
  | generic (name : String)
  | constrained (name : String) (bound : Ty)
  | record (fields : List (String × Ty))

namespace Ty

mutual

/-- Structural equality. -/
def beq : Ty → Ty → Bool
  | integer, integer | float, float | string, string | boolean, boolean | none, none
  | emptyArray, emptyArray => true
  | array a, array b => beq a b
  | function ps r, function qs s => beqList ps qs && beq r s
  | union ms, union ns => beqList ms ns
  | generic x, generic y => x == y
  | constrained x a, constrained y b => x == y && beq a b
  | record fs, record gs => beqFields fs gs
  | _, _ => false

/-- Structural equality of lists of types. -/
def beqList : List Ty → List Ty → Bool
  | [], [] => true
  | a :: as, b :: bs => beq a b && beqList as bs
  | _, _ => false

/-- Structural equality of fields. -/
def beqFields : List (String × Ty) → List (String × Ty) → Bool
  | [], [] => true
  | (x, a) :: as, (y, b) :: bs => x == y && (beq a b && beqFields as bs)
  | _, _ => false

end

instance : BEq Ty := ⟨beq⟩

mutual

theorem beq_self : (a : Ty) → beq a a = true
  | integer | float | string | boolean | none | emptyArray => rfl
  | generic _ => by simp [beq]
  | array a => by simp [beq, beq_self a]
  | function ps r => by simp [beq, beqList_self ps, beq_self r]
  | union ms => by simp [beq, beqList_self ms]
  | constrained _ a => by simp [beq, beq_self a]
  | record fs => by simp [beq, beqFields_self fs]

theorem beqList_self : (as : List Ty) → beqList as as = true
  | [] => rfl
  | a :: as => by simp [beqList, beq_self a, beqList_self as]

theorem beqFields_self : (fs : List (String × Ty)) → beqFields fs fs = true
  | [] => rfl
  | (_, a) :: fs => by simp [beqFields, beq_self a, beqFields_self fs]

end

mutual

theorem eq_of_beq : (a b : Ty) → beq a b = true → a = b
  | array a, b, h => by
    cases b <;> simp only [beq, Bool.false_eq_true] at h
    rw [eq_of_beq a _ h]
  | function ps r, b, h => by
    cases b <;> simp only [beq, Bool.and_eq_true, Bool.false_eq_true] at h
    rw [eq_of_beqList ps _ h.1, eq_of_beq r _ h.2]
  | union ms, b, h => by
    cases b <;> simp only [beq, Bool.false_eq_true] at h
    rw [eq_of_beqList ms _ h]
  | generic x, b, h => by
    cases b <;> simp_all [beq]
  | constrained x a, b, h => by
    cases b <;> simp only [beq, Bool.and_eq_true, beq_iff_eq, Bool.false_eq_true] at h
    rw [h.1, eq_of_beq a _ h.2]
  | record fs, b, h => by
    cases b <;> simp only [beq, Bool.false_eq_true] at h
    rw [eq_of_beqFields fs _ h]
  | integer, b, h | float, b, h | string, b, h | boolean, b, h | none, b, h | emptyArray, b, h => by
    cases b <;> simp_all [beq]

theorem eq_of_beqList : (as bs : List Ty) → beqList as bs = true → as = bs
  | [], bs, h => by cases bs <;> simp_all [beqList]
  | a :: as, [], h => by simp [beqList] at h
  | a :: as, b :: bs, h => by
    simp only [beqList, Bool.and_eq_true] at h
    rw [eq_of_beq a b h.1, eq_of_beqList as bs h.2]

theorem eq_of_beqFields : (fs gs : List (String × Ty)) → beqFields fs gs = true → fs = gs
  | [], gs, h => by cases gs <;> simp_all [beqFields]
  | (x, a) :: fs, [], h => by simp [beqFields] at h
  | (x, a) :: fs, (y, b) :: gs, h => by
    simp only [beqFields, Bool.and_eq_true, beq_iff_eq] at h
    rw [h.1, eq_of_beq a b h.2.1, eq_of_beqFields fs gs h.2.2]

end

instance : LawfulBEq Ty where
  rfl := beq_self _
  eq_of_beq := eq_of_beq _ _

instance : DecidableEq Ty := instDecidableEqOfLawfulBEq

/-- Whether the type is a function type. -/
def isFunction : Ty → Bool
  | function _ _ => true
  | _ => false

mutual

/-- Whether a generic variable occurs anywhere in the type. -/
def hasGenerics : Ty → Bool
  | integer | float | string | boolean | none | emptyArray => false
  | array element => hasGenerics element
  | function params result => anyGenerics params || hasGenerics result
  | union members => anyGenerics members
  | generic _ | constrained _ _ => true
  | record fields => anyFieldGenerics fields

/-- Whether a generic variable occurs in one of the types. -/
def anyGenerics : List Ty → Bool
  | [] => false
  | a :: rest => hasGenerics a || anyGenerics rest

/-- Whether a generic variable occurs in one of the fields. -/
def anyFieldGenerics : List (String × Ty) → Bool
  | [] => false
  | (_, a) :: rest => hasGenerics a || anyFieldGenerics rest

end

/-- Function types stand in parentheses as members of a union. -/
def memberText (member : Ty) (text : String) : String :=
  if member.isFunction then "(" ++ text ++ ")" else text

mutual

/-- A type as messages show it. -/
def pretty : Ty → String
  | integer => "Integer"
  | float => "Float"
  | string => "String"
  | boolean => "Boolean"
  | none => "None"
  | emptyArray => "[]"
  | array element => "[" ++ pretty element ++ "]"
  | function params result =>
    "(" ++ ", ".intercalate (prettyParams params) ++ ") -> " ++ pretty result
  | union members => " | ".intercalate (prettyMembers members)
  | generic name => name
  | constrained name bound => name ++ ": " ++ pretty bound
  | record fields => "\x7b" ++ ", ".intercalate (prettyFields fields) ++ "\x7d"

/-- The parameters of a function, one by one. -/
def prettyParams : List Ty → List String
  | [] => []
  | a :: rest => pretty a :: prettyParams rest

/-- The members of a union, one by one. -/
def prettyMembers : List Ty → List String
  | [] => []
  | a :: rest => memberText a (pretty a) :: prettyMembers rest

/-- The fields of a record, one by one. -/
def prettyFields : List (String × Ty) → List String
  | [] => []
  | (name, a) :: rest => (name ++ ": " ++ pretty a) :: prettyFields rest

end

/-- Puts a field in its place by name; a field of the same name is replaced. -/
def insertField (name : String) (field : Ty) : List (String × Ty) → List (String × Ty)
  | [] => [(name, field)]
  | (other, a) :: rest =>
    if name < other then (name, field) :: (other, a) :: rest
    else if name = other then (name, field) :: rest
    else (other, a) :: insertField name field rest

/-- The record with the given fields in any order; of two fields of one name the later counts. -/
def recordOf (fields : List (String × Ty)) : Ty :=
  record (fields.foldl (fun sorted field => insertField field.1 field.2 sorted) [])

end Ty

end LazyLang
