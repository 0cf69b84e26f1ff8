import LazyLang.Proofs.Subtyping.Regrouping

/-!
# Normalizing twice

The union of some types in normal form is again a union in normal form (`normal_unionOf`), also
where members have variables. None of the members that remain stands for another one, so all of them
remain when the union is normalized once more, and they are in the order of their texts already.
-/

namespace LazyLang.Ty

/-- Whether the type itself, apart from the types inside it, is in normal form: a union is, if
normalizing its members gives it back. So the union without members is, and one with a single member
is not. -/
def Normal : Ty → Prop
  | union members => unionOf members = union members
  | _ => True

theorem normal_of_not_isUnion {a : Ty} (h : a.isUnion = false) : Normal a := by
  cases a <;> trivial

theorem Canonical.normal {a : Ty} (h : Canonical a) : Normal a := by
  cases a with
  | union members => exact h.2
  | _ => trivial

theorem foldl_addMember_of_apart {kept members : List Ty} (h : (kept ++ members).Pairwise Apart) :
    members.foldl addMember kept = kept ++ members := by
  induction members generalizing kept with
  | nil => rw [List.foldl_nil, List.append_nil]
  | cons m rest ih =>
      obtain ⟨-, -, hkept⟩ := List.pairwise_append.1 h
      have hnone : kept.any (·.subsumes m) = false :=
        List.any_eq_false.2 fun k hk => Bool.eq_false_iff.1 (hkept k hk m List.mem_cons_self).1
      have hall : kept.filter (fun k => !m.subsumes k) = kept :=
        List.filter_eq_self.2 fun k hk => by rw [(hkept k hk m List.mem_cons_self).2]; rfl
      have hadd : addMember kept m = kept ++ [m] := by
        rw [addMember, hnone, hall, if_neg Bool.false_ne_true]
      rw [List.append_cons] at h
      rw [List.foldl_cons, hadd, ih h, ← List.append_cons]

/-- Members that do not stand for one another all remain. -/
theorem retained_of_apart {members : List Ty} (h : members.Pairwise Apart) :
    retained members = members :=
  foldl_addMember_of_apart h

theorem flattenAll_of_flat {members : List Ty} (h : ∀ m ∈ members, m.isUnion = false) :
    flattenAll members = members := by
  induction members with
  | nil => rfl
  | cons m rest ih =>
      rw [List.forall_mem_cons] at h
      rw [flattenAll, flatten_of_not_isUnion h.1, ih h.2, List.singleton_append]

/-- Members that no union step would change are put together as they are. -/
theorem unionOf_eq_ofRow_of_apart {members : List Ty} (hflat : ∀ m ∈ members, m.isUnion = false)
    (hapart : members.Pairwise Apart)
    (hsorted : members.Pairwise fun a b => a.pretty ≤ b.pretty) :
    unionOf members = ofRow members := by
  have hsame : sortMembers members = members :=
    List.mergeSort_of_pairwise (hsorted.imp fun h => decide_eq_true h)
  rw [unionOf_eq_ofRow, flattenAll_of_flat hflat, retained_of_apart hapart, hsame]

/-- A union in normal form stays as it is when it is normalized once more. -/
theorem normal_unionOf (types : List Ty) : Normal (unionOf types) := by
  let row := sortMembers (retained (flattenAll types))
  have hapart : row.Pairwise Apart :=
    (pairwise_retained _).perm (List.mergeSort_perm _ _).symm fun h => ⟨h.2, h.1⟩
  have hagain : unionOf row = ofRow row :=
    unionOf_eq_ofRow_of_apart (fun m hm => isUnion_of_mem_retained (mem_sortMembers.1 hm)) hapart
      (pairwise_sortMembers _)
  rcases unionOf_cases types with ⟨k, hk, heq⟩ | heq
  · rw [heq]
    exact normal_of_not_isUnion (isUnion_of_mem_retained (hk ▸ List.mem_singleton_self k))
  · rw [heq, Normal, hagain, ← unionOf_eq_ofRow, heq]

theorem unionOf_singleton {a : Ty} (h : Normal a) : unionOf [a] = a := by
  cases a with
  | union members =>
      have hflat : flattenAll [union members] = flattenAll members := by
        rw [flattenAll, flatten, flattenAll, List.append_nil]
      rw [unionOf, hflat]
      exact h
  | _ => rfl

theorem Everywhere.of_mem_flatten {p : Ty → Prop} {a m : Ty} (h : a.Everywhere p)
    (hm : m ∈ flatten a) : m.Everywhere p := by
  induction a with
  | union members ih =>
      obtain ⟨b, hb, hmb⟩ := mem_flattenAll.1 hm
      exact ih b hb (everywhereEach_iff.1 h.2 b hb) hmb
  | _ =>
      rw [List.mem_singleton.1 hm]
      exact h

/-- The members of a union come from its types. -/
theorem Everywhere.unionOf {p : Ty → Prop} {types : List Ty}
    (hp : ∀ members, Ty.unionOf types = union members → p (union members))
    (h : ∀ a ∈ types, a.Everywhere p) : (Ty.unionOf types).Everywhere p := by
  have hk : ∀ k ∈ retained (flattenAll types), k.Everywhere p := by
    intro k hk
    obtain ⟨a, ha, hka⟩ := mem_flattenAll.1 (mem_of_mem_retained hk)
    exact (h a ha).of_mem_flatten hka
  rcases unionOf_cases types with ⟨k, hone, heq⟩ | heq
  · rw [heq]
    exact hk k (hone ▸ List.mem_singleton_self k)
  · rw [heq]
    exact ⟨hp _ heq, everywhereEach_iff.2 fun m hm => hk m (mem_sortMembers.1 hm)⟩

end LazyLang.Ty
