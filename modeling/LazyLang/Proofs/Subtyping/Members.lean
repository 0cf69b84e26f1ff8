import LazyLang.Proofs.Subtyping.Canonical

/-!
# The members of a union

What is left of some types when they are put together are members: the union has them in the order
of their texts, and a single one stands for itself. Whatever types came in, with variables or
without, none of the members covers another, and each type that was put in has a member that covers
it (`unionOf_members`).

A member may have been driven out by a later one after it had kept other types out. What it covered
is then covered by the later one, since covering is transitive: it is equality as soon as one of the
types has variables, and subtyping of types without variables otherwise.
-/

namespace LazyLang.Ty

/-- The members of a union, or else the type itself. -/
def members : Ty → List Ty
  | union members => members
  | other => [other]

theorem members_of_not_isUnion {a : Ty} (h : a.isUnion = false) : a.members = [a] := by
  cases a <;> first | rfl | cases h

theorem subsumes_of_covers {kept other : Ty} (h : Covers kept other) :
    kept.subsumes other = true := by
  unfold subsumes
  rcases h with rfl | ⟨hkept, hother, h⟩
  · split
    · exact beq_self_eq_true kept
    · exact accepts_self .strict kept
  · rw [hkept, hother]
    exact h

/-- The members of a union are those that remain, in the order of their texts. -/
theorem members_unionOf (types : List Ty) :
    (unionOf types).members = sortMembers (retained (flattenAll types)) := by
  rcases unionOf_cases types with ⟨k, hk, heq⟩ | heq
  · have hunion : k.isUnion = false := isUnion_of_mem_retained (hk ▸ List.mem_singleton_self k)
    rw [heq, hk, members_of_not_isUnion hunion, sortMembers, List.mergeSort_singleton]
  · rw [heq, members]

/-- A union has no single member. -/
theorem unionOf_ne_union_singleton (types : List Ty) (m : Ty) : unionOf types ≠ union [m] := by
  intro h
  have hsorted : sortMembers (retained (flattenAll types)) = [m] := by
    rw [← members_unionOf, h, members]
  have hretained : retained (flattenAll types) = [m] :=
    List.perm_singleton.1 (hsorted ▸ (List.mergeSort_perm _ _).symm)
  have hm : m.isUnion = false := isUnion_of_mem_retained (hretained ▸ List.mem_singleton_self m)
  have hsingle : unionOf types = m := by rw [unionOf, hretained]
  rw [← hsingle, h] at hm
  cases hm

/-- The union of some types is in normal form: its members, of which there is not just one, are no
unions and come from the types, none of them stands for another, they are in the order of their
texts, and each type that was put in is covered by one of them. -/
theorem unionOf_members (types : List Ty) :
    (∀ m ∈ (unionOf types).members, m.isUnion = false ∧ m ∈ flattenAll types) ∧
      (unionOf types).members.Pairwise Apart ∧
      (∀ t ∈ flattenAll types, ∃ m ∈ (unionOf types).members, m.subsumes t = true) ∧
      ((unionOf types).members.Pairwise fun a b => a.pretty ≤ b.pretty) ∧
      ∀ m, unionOf types ≠ union [m] := by
  rw [members_unionOf]
  refine ⟨fun m hm => ?_, pairwise_apart_sortMembers _, fun t ht => ?_, pairwise_sortMembers _,
    unionOf_ne_union_singleton types⟩
  · have hretained := mem_sortMembers.1 hm
    exact ⟨isUnion_of_mem_retained hretained, mem_of_mem_retained hretained⟩
  · obtain ⟨m, hm, hcovers⟩ := exists_covers_of_mem ht
    exact ⟨m, mem_sortMembers.2 hm, subsumes_of_covers hcovers⟩

end LazyLang.Ty
