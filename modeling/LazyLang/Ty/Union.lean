import LazyLang.Ty.Subtype

/-!
# Unions

`unionOf` builds the union of some types in a normal form: nested unions are taken apart, a member
that another one covers is dropped, and the rest is put in the order of its text. A single remaining
member stands for itself.
-/

namespace LazyLang.Ty

mutual

/-- The members of a type, which is its only one unless it is a union. -/
def flatten : Ty → List Ty
  | union members => flattenAll members
  | other => [other]

/-- The members of all the types. -/
def flattenAll : List Ty → List Ty
  | [] => []
  | a :: rest => flatten a ++ flattenAll rest

end

/-- Whether `other` adds nothing to a union with `kept`. Types with generic variables are kept apart
until the variables are known. -/
def subsumes (kept other : Ty) : Bool :=
  if kept.hasGenerics || other.hasGenerics then kept == other else isStrictSubtype kept other

/-- Adds a member unless it is covered, and drops the members that it covers. -/
def addMember (kept : List Ty) (member : Ty) : List Ty :=
  if kept.any (·.subsumes member) then kept
  else kept.filter (fun other => !member.subsumes other) ++ [member]

/-- The members that remain of a list. -/
def retained (members : List Ty) : List Ty := members.foldl addMember []

/-- The members in the order of their texts. -/
def sortMembers (members : List Ty) : List Ty :=
  members.mergeSort fun a b => a.pretty ≤ b.pretty

/-- The union of the types, in normal form. -/
def unionOf (types : List Ty) : Ty :=
  match retained (flattenAll types) with
  | [single] => single
  | members => union (sortMembers members)

end LazyLang.Ty
