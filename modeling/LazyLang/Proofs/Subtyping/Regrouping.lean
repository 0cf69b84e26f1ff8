import LazyLang.Proofs.Subtyping.Canonical

/-!
# Unions of unions

The union of some types in normal form depends on nothing but what accepts all of them
(`unionOf_eq_of_bounds`). Neither the order in which the types come nor a union of some of them in
their place changes that, so the result stays the same over any number of such steps
(`unionOf_canonical`).
-/

namespace LazyLang.Ty

/-- What becomes of a row of members: a single one stands for itself. -/
def ofRow : List Ty → Ty
  | [single] => single
  | members => union members

theorem unionOf_eq_ofRow (types : List Ty) :
    unionOf types = ofRow (sortMembers (retained (flattenAll types))) := by
  unfold unionOf
  split
  · next single heq => rw [heq, sortMembers, List.mergeSort_singleton, ofRow]
  · next hmany =>
      unfold ofRow
      split
      · next single heq =>
          have hperm := List.mergeSort_perm (retained (flattenAll types))
            fun a b => a.pretty ≤ b.pretty
          rw [← sortMembers, heq] at hperm
          exact absurd (List.singleton_perm.1 hperm).symm (hmany single)
      · rfl

section Bounds

variable {types others : List Ty}

/-- Where what accepts all of `others` accepts all of `types`, each member of the union of `types`
is covered by one of the union of `others`. -/
theorem exists_accepts_of_bounds (ht : ∀ m ∈ flattenAll types, m.hasGenerics = false)
    (h : ∀ x, (∀ a ∈ others, accepts .strict x a = true) → ∀ a ∈ types, accepts .strict x a = true)
    {m : Ty} (hm : m ∈ sortMembers (retained (flattenAll types))) :
    ∃ n ∈ sortMembers (retained (flattenAll others)), accepts .strict n m = true := by
  have hplain : m.isPlain = true := (isRow_sortMembers ht).isPlain hm
  have hbound : accepts .strict (unionOf others) (unionOf types) = true :=
    accepts_of_unionOf_iff.2 (h _ (accepts_of_unionOf_iff.1 (accepts_self _ _)))
  have hpart : m ∈ parts (unionOf types) := by
    refine mem_parts_unionOf.2 ⟨m, mem_sortMembers.1 hm, ?_⟩
    rw [parts_of_isPlain hplain]
    exact List.mem_singleton_self m
  obtain ⟨n, hn, hnm⟩ :=
    (accepts_unionOf_iff_retained hplain others).1 (accepts_iff_parts.1 hbound m hpart)
  exact ⟨n, mem_sortMembers.2 hn, hnm⟩

/-- Two unions of types in normal form are the same, if what accepts all the types of one accepts
those of the other. -/
theorem unionOf_eq_of_bounds (ht : ∀ m ∈ flattenAll types, IsCanonical m)
    (ho : ∀ m ∈ flattenAll others, IsCanonical m)
    (h : ∀ x, (∀ a ∈ types, accepts .strict x a = true) ↔
      ∀ a ∈ others, accepts .strict x a = true) : unionOf types = unionOf others := by
  have hrow := isRow_sortMembers fun m hm => (ht m hm).ground
  have hrow' := isRow_sortMembers fun m hm => (ho m hm).ground
  have hcanonical (m : Ty) (hm : m ∈ sortMembers (retained (flattenAll types))) :
      IsCanonical m := ht m (mem_of_mem_retained (mem_sortMembers.1 hm))
  have hcanonical' (n : Ty) (hn : n ∈ sortMembers (retained (flattenAll others))) :
      IsCanonical n := ho n (mem_of_mem_retained (mem_sortMembers.1 hn))
  rw [unionOf_eq_ofRow, unionOf_eq_ofRow]
  refine congrArg ofRow (hrow.eq_of_covered hrow' (fun m hm => (hcanonical m hm).legible)
    (fun n hn => (hcanonical' n hn).legible)
    (fun m hm n hn => (hcanonical m hm).eq_of_accepts (hcanonical' n hn)) (fun m hm => ?_)
    fun n hn => ?_)
  · exact exists_accepts_of_bounds (fun m hm => (ht m hm).ground) (fun x => (h x).2) hm
  · exact exists_accepts_of_bounds (fun n hn => (ho n hn).ground) (fun x => (h x).1) hn

end Bounds

/-- One step from a list of types to another with the same union: the types come in another order,
or a part of the list is replaced by its own union. -/
inductive Regroups : List Ty → List Ty → Prop where
  | reorder {types others : List Ty} (h : types.Perm others) : Regroups types others
  | group (before part after : List Ty) :
    Regroups (before ++ (part ++ after)) (before ++ unionOf part :: after)

/-- The members of a union are members of its types. -/
theorem mem_flattenAll_of_mem_flatten_unionOf {part : List Ty} {m : Ty}
    (h : m ∈ flatten (unionOf part)) : m ∈ flattenAll part := by
  rcases unionOf_cases part with ⟨k, hk, heq⟩ | heq
  · have hmem : k ∈ retained (flattenAll part) := hk ▸ List.mem_singleton_self k
    rw [heq, flatten_of_not_isUnion (isUnion_of_mem_retained hmem), List.mem_singleton] at h
    exact h ▸ mem_of_mem_retained hmem
  · rw [heq, flatten] at h
    obtain ⟨k, hk, hmk⟩ := mem_flattenAll.1 h
    have hmem := mem_sortMembers.1 hk
    rw [flatten_of_not_isUnion (isUnion_of_mem_retained hmem), List.mem_singleton] at hmk
    exact hmk ▸ mem_of_mem_retained hmem

namespace Regroups

variable {types others : List Ty}

/-- A step brings in no members. -/
theorem mem_flattenAll (h : Regroups types others) {m : Ty} (hm : m ∈ flattenAll others) :
    m ∈ flattenAll types := by
  rw [Ty.mem_flattenAll] at hm ⊢
  obtain ⟨a, ha, hma⟩ := hm
  cases h with
  | reorder h => exact ⟨a, h.mem_iff.2 ha, hma⟩
  | group before part after =>
      rcases List.mem_append.1 ha with ha | ha
      · exact ⟨a, List.mem_append_left _ ha, hma⟩
      · rcases List.mem_cons.1 ha with rfl | ha
        · obtain ⟨b, hb, hmb⟩ := Ty.mem_flattenAll.1 (mem_flattenAll_of_mem_flatten_unionOf hma)
          exact ⟨b, List.mem_append_right _ (List.mem_append_left _ hb), hmb⟩
        · exact ⟨a, List.mem_append_right _ (List.mem_append_right _ ha), hma⟩

/-- A step leaves what accepts all the types. -/
theorem bounds_iff (h : Regroups types others) (x : Ty) :
    (∀ a ∈ types, accepts .strict x a = true) ↔ ∀ a ∈ others, accepts .strict x a = true := by
  cases h with
  | reorder h => exact forall_congr' fun a => by rw [h.mem_iff]
  | group before part after =>
      rw [List.forall_mem_append, List.forall_mem_append, List.forall_mem_append,
        List.forall_mem_cons, accepts_of_unionOf_iff]

/-- Nor does any number of steps bring in members or change what accepts all the types. -/
theorem run (hsteps : Relation.ReflTransGen Regroups types others) :
    (∀ m ∈ flattenAll others, m ∈ flattenAll types) ∧
      ∀ x, (∀ a ∈ others, accepts .strict x a = true) ↔
        ∀ a ∈ types, accepts .strict x a = true := by
  induction hsteps with
  | refl => exact ⟨fun m hm => hm, fun x => Iff.rfl⟩
  | tail _ hstep ih =>
      exact ⟨fun m hm => ih.1 m (hstep.mem_flattenAll hm),
        fun x => (hstep.bounds_iff x).symm.trans (ih.2 x)⟩

/-- The union of types in normal form stays the same all along. -/
theorem unionOf_eq (h : ∀ a ∈ types, IsCanonical a)
    (hsteps : Relation.ReflTransGen Regroups types others) : unionOf others = unionOf types := by
  have hcanonical : ∀ m ∈ flattenAll types, IsCanonical m := by
    intro m hm
    obtain ⟨a, ha, hma⟩ := Ty.mem_flattenAll.1 hm
    exact (h a ha).of_mem_flatten hma
  -- The last list may hold the empty union, of no types, so only its members are in normal form.
  obtain ⟨hmembers, hbounds⟩ := run hsteps
  exact unionOf_eq_of_bounds (fun m hm => hcanonical m (hmembers m hm)) hcanonical hbounds

end Regroups

/-- A union of types in normal form is the same for every order of them and every way of building
unions of some of them first. -/
theorem unionOf_canonical {types others : List Ty} (h : ∀ a ∈ types, IsCanonical a)
    (hsteps : Relation.ReflTransGen Regroups types others) : unionOf others = unionOf types :=
  Regroups.unionOf_eq h hsteps

/-- The integers go with the floats whether their union is built first or not. -/
theorem unionOf_canonical_sample :
    let texts := union [none, string]
    let arrays := array texts
    let types := [integer, texts, arrays, float]
    let others := [unionOf [float, integer], arrays, texts]
    (∀ a ∈ types, IsCanonical a) ∧ Relation.ReflTransGen Regroups types others ∧
      unionOf others = unionOf types := by
  intro texts arrays types others
  have hnormal : unionOf [none, string] = texts := by
    have hretained : retained (flattenAll [none, string]) = [none, string] := by decide +kernel
    have hsorted : sortMembers [none, string] = [none, string] :=
      List.mergeSort_of_pairwise (by decide +kernel)
    simp only [unionOf, hretained, hsorted, texts]
  have htexts : IsCanonical texts := ⟨rfl, ⟨by decide, hnormal⟩, trivial, trivial, trivial⟩
  have hcanonical : ∀ a ∈ types, IsCanonical a := by
    simp only [types, List.forall_mem_cons]
    exact ⟨⟨rfl, trivial⟩, htexts, ⟨rfl, trivial, htexts.canonical⟩, ⟨rfl, trivial⟩,
      fun a ha => absurd ha List.not_mem_nil⟩
  have hperm : types.Perm [float, integer, arrays, texts] := by decide +kernel
  have hsteps : Relation.ReflTransGen Regroups types others :=
    .tail (.single (.reorder hperm)) (.group [] [float, integer] [arrays, texts])
  exact ⟨hcanonical, hsteps, unionOf_canonical hcanonical hsteps⟩

end LazyLang.Ty
