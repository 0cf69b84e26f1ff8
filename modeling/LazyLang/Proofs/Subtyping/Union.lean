import LazyLang.Ty.Union
import LazyLang.Proofs.Subtyping.Transitivity

/-!
# What a union accepts

The normal form of a union drops the members that another one covers and forgets the order. Neither
changes what it accepts (`accepts_unionOf_iff`) nor what accepts it (`accepts_of_unionOf_iff`): each
type of the list has a member that covers it, and each member stems from a type of the list.
-/

namespace LazyLang.Ty

theorem mem_flattenAll {t : Ty} {types : List Ty} :
    t ∈ flattenAll types ↔ ∃ a ∈ types, t ∈ flatten a := by
  induction types with
  | nil => simp [flattenAll]
  | cons head rest ih => simp [flattenAll, ih]

/-- Taking a type apart into members keeps its parts. -/
theorem mem_parts_iff_flatten {t a : Ty} : t ∈ parts a ↔ ∃ m ∈ flatten a, t ∈ parts m := by
  induction a with
  | union members ih =>
      constructor
      · intro h
        obtain ⟨a, ha, ht⟩ := mem_partsAll.1 h
        obtain ⟨m, hm, htm⟩ := (ih a ha).1 ht
        exact ⟨m, mem_flattenAll.2 ⟨a, ha, hm⟩, htm⟩
      · rintro ⟨m, hm, ht⟩
        obtain ⟨a, ha, hma⟩ := mem_flattenAll.1 hm
        exact mem_partsAll.2 ⟨a, ha, (ih a ha).2 ⟨m, hma, ht⟩⟩
  | _ => simp [flatten]

/-- A type accepts what one of its members does. -/
theorem accepts_iff_flatten {c : Coercion} {a t : Ty} (ht : t.isPlain = true) :
    accepts c a t = true ↔ ∃ m ∈ flatten a, accepts c m t = true := by
  induction a with
  | union members ih =>
      rw [accepts_union_iff ht]
      constructor
      · rintro ⟨a, ha, h⟩
        obtain ⟨m, hm, hmt⟩ := (ih a ha).1 h
        exact ⟨m, mem_flattenAll.2 ⟨a, ha, hm⟩, hmt⟩
      · rintro ⟨m, hm, h⟩
        obtain ⟨a, ha, hma⟩ := mem_flattenAll.1 hm
        exact ⟨a, ha, (ih a ha).2 ⟨m, hma, h⟩⟩
  | _ => simp [flatten]

/-- Whether `kept` may stand for `other` in a union: it is the same type, or a strict supertype of
it where no variables are left. -/
def Covers (kept other : Ty) : Prop :=
  kept = other ∨
    kept.hasGenerics = false ∧ other.hasGenerics = false ∧ accepts .strict kept other = true

theorem Covers.refl (a : Ty) : Covers a a := .inl rfl

theorem Covers.trans {a b d : Ty} (hab : Covers a b) (hbd : Covers b d) : Covers a d := by
  rcases hab with rfl | ⟨ha, hb, hab⟩
  · exact hbd
  · rcases hbd with rfl | ⟨-, hd, hbd⟩
    · exact .inr ⟨ha, hb, hab⟩
    · exact .inr ⟨ha, hd, accepts_trans hb hab hbd⟩

/-- A type that accepts `kept` accepts all that it covers. -/
theorem Covers.accepts_right {c : Coercion} {a kept other : Ty} (h : Covers kept other)
    (ha : Ty.accepts c a kept = true) : Ty.accepts c a other = true := by
  rcases h with rfl | ⟨hk, -, h⟩
  · exact ha
  · exact accepts_trans hk ha (accepts_of_strict h)

/-- What `kept` covers accepts no more than it does. -/
theorem Covers.accepts_left {c : Coercion} {kept other t : Ty} (h : Covers kept other)
    (ht : Ty.accepts c other t = true) : Ty.accepts c kept t = true := by
  rcases h with rfl | ⟨-, ho, h⟩
  · exact ht
  · exact accepts_trans ho (accepts_of_strict h) ht

theorem covers_of_subsumes {kept other : Ty} (h : kept.subsumes other = true) :
    Covers kept other := by
  unfold subsumes at h
  split at h
  · exact .inl (beq_iff_eq.1 h)
  · next hno =>
      rw [Bool.or_eq_true, not_or, Bool.not_eq_true, Bool.not_eq_true] at hno
      exact .inr ⟨hno.1, hno.2, h⟩

theorem mem_of_mem_addMember {kept : List Ty} {member m : Ty} (h : m ∈ addMember kept member) :
    m ∈ kept ∨ m = member := by
  unfold addMember at h
  split at h
  · exact .inl h
  · rcases List.mem_append.1 h with h | h
    · exact .inl (List.mem_of_mem_filter h)
    · exact .inr (List.mem_singleton.1 h)

/-- Nothing that was covered loses its cover when a member is added. -/
theorem exists_covers_addMember {kept : List Ty} {member t : Ty}
    (h : t = member ∨ ∃ k ∈ kept, Covers k t) : ∃ k ∈ addMember kept member, Covers k t := by
  unfold addMember
  split
  · next hany =>
      rcases h with rfl | h
      · obtain ⟨k, hk, hsub⟩ := List.any_eq_true.1 hany
        exact ⟨k, hk, covers_of_subsumes hsub⟩
      · exact h
  · rcases h with rfl | ⟨k, hk, hkt⟩
    · exact ⟨t, by simp, .refl t⟩
    · by_cases hsub : member.subsumes k = true
      · exact ⟨member, by simp, (covers_of_subsumes hsub).trans hkt⟩
      · exact ⟨k, by simp [hk, hsub], hkt⟩

theorem foldl_addMember (members kept : List Ty) :
    (∀ m ∈ members.foldl addMember kept, m ∈ kept ∨ m ∈ members) ∧
      ∀ t, (t ∈ members ∨ ∃ k ∈ kept, Covers k t) →
        ∃ k ∈ members.foldl addMember kept, Covers k t := by
  induction members generalizing kept with
  | nil => exact ⟨fun m hm => .inl hm, fun t ht => ht.resolve_left List.not_mem_nil⟩
  | cons head rest ih =>
      obtain ⟨hsub, hcover⟩ := ih (addMember kept head)
      constructor
      · intro m hm
        rcases hsub m hm with hm | hm
        · rcases mem_of_mem_addMember hm with hm | rfl
          · exact .inl hm
          · exact .inr List.mem_cons_self
        · exact .inr (List.mem_cons_of_mem _ hm)
      · intro t ht
        refine hcover t ?_
        rcases ht with ht | ht
        · rcases List.mem_cons.1 ht with rfl | ht
          · exact .inr (exists_covers_addMember (.inl rfl))
          · exact .inl ht
        · exact .inr (exists_covers_addMember (.inr ht))

theorem mem_of_mem_retained {m : Ty} {members : List Ty} (h : m ∈ retained members) :
    m ∈ members :=
  ((foldl_addMember members []).1 m h).resolve_left List.not_mem_nil

/-- Each member is covered by one that remains. -/
theorem exists_covers_of_mem {t : Ty} {members : List Ty} (h : t ∈ members) :
    ∃ k ∈ retained members, Covers k t :=
  (foldl_addMember members []).2 t (.inl h)

theorem mem_sortMembers {t : Ty} {members : List Ty} : t ∈ sortMembers members ↔ t ∈ members :=
  List.mem_mergeSort

/-- A union in normal form is a single member or a union of the remaining ones. -/
theorem unionOf_cases (types : List Ty) :
    (∃ k, retained (flattenAll types) = [k] ∧ unionOf types = k) ∨
      unionOf types = union (sortMembers (retained (flattenAll types))) := by
  unfold unionOf
  split
  · next k hk => exact .inl ⟨k, hk, rfl⟩
  · exact .inr rfl

theorem accepts_unionOf_iff_retained {c : Coercion} {t : Ty} (ht : t.isPlain = true)
    (types : List Ty) :
    accepts c (unionOf types) t = true ↔
      ∃ k ∈ retained (flattenAll types), accepts c k t = true := by
  rcases unionOf_cases types with ⟨k, hk, heq⟩ | heq
  · rw [heq, hk]
    simp
  · rw [heq, accepts_union_iff ht]
    simp only [mem_sortMembers]

theorem mem_parts_unionOf {t : Ty} {types : List Ty} :
    t ∈ parts (unionOf types) ↔ ∃ k ∈ retained (flattenAll types), t ∈ parts k := by
  rcases unionOf_cases types with ⟨k, hk, heq⟩ | heq
  · rw [heq, hk]
    simp
  · rw [heq, parts, mem_partsAll]
    simp only [mem_sortMembers]

/-- A union accepts what one of the types does. -/
theorem accepts_unionOf_iff {c : Coercion} {t : Ty} (ht : t.isPlain = true) {types : List Ty} :
    accepts c (unionOf types) t = true ↔ ∃ a ∈ types, accepts c a t = true := by
  rw [accepts_unionOf_iff_retained ht]
  constructor
  · rintro ⟨k, hk, hkt⟩
    obtain ⟨a, ha, hka⟩ := mem_flattenAll.1 (mem_of_mem_retained hk)
    exact ⟨a, ha, (accepts_iff_flatten ht).2 ⟨k, hka, hkt⟩⟩
  · rintro ⟨a, ha, hat⟩
    obtain ⟨m, hm, hmt⟩ := (accepts_iff_flatten ht).1 hat
    obtain ⟨k, hk, hcover⟩ := exists_covers_of_mem (mem_flattenAll.2 ⟨a, ha, hm⟩)
    exact ⟨k, hk, hcover.accepts_left hmt⟩

/-- A union is accepted by what accepts all of the types. -/
theorem accepts_of_unionOf_iff {c : Coercion} {f : Ty} {types : List Ty} :
    accepts c f (unionOf types) = true ↔ ∀ a ∈ types, accepts c f a = true := by
  rw [accepts_iff_parts]
  constructor
  · intro h a ha
    rw [accepts_iff_parts]
    intro t ht
    obtain ⟨m, hm, htm⟩ := mem_parts_iff_flatten.1 ht
    obtain ⟨k, hk, hcover⟩ := exists_covers_of_mem (mem_flattenAll.2 ⟨a, ha, hm⟩)
    have hfk : accepts c f k = true :=
      accepts_iff_parts.2 fun u hu => h u (mem_parts_unionOf.2 ⟨k, hk, hu⟩)
    exact accepts_iff_parts.1 (hcover.accepts_right hfk) t htm
  · intro h t ht
    obtain ⟨k, hk, htk⟩ := mem_parts_unionOf.1 ht
    obtain ⟨a, ha, hka⟩ := mem_flattenAll.1 (mem_of_mem_retained hk)
    exact accepts_iff_parts.1 (h a ha) t (mem_parts_iff_flatten.2 ⟨k, hka, htk⟩)

theorem anyGenerics_eq_false_iff {types : List Ty} :
    anyGenerics types = false ↔ ∀ a ∈ types, a.hasGenerics = false := by
  induction types with
  | nil => simp [anyGenerics]
  | cons head rest ih => simp [anyGenerics, ih]

theorem anyFieldGenerics_eq_false_iff {fields : List (String × Ty)} :
    anyFieldGenerics fields = false ↔ ∀ field ∈ fields, field.2.hasGenerics = false := by
  induction fields with
  | nil => simp [anyFieldGenerics]
  | cons head rest ih => simp [anyFieldGenerics, ih]

theorem hasGenerics_of_mem_flatten {a m : Ty} (h : a.hasGenerics = false) (hm : m ∈ flatten a) :
    m.hasGenerics = false := by
  induction a with
  | union members ih =>
      obtain ⟨b, hb, hmb⟩ := mem_flattenAll.1 hm
      exact ih b hb (hasGenerics_of_mem h hb) hmb
  | _ =>
      rw [List.mem_singleton.1 hm]
      exact h

/-- A union of types without variables has none. -/
theorem hasGenerics_unionOf {types : List Ty} (h : ∀ a ∈ types, a.hasGenerics = false) :
    (unionOf types).hasGenerics = false := by
  have hk : ∀ k ∈ retained (flattenAll types), k.hasGenerics = false := by
    intro k hk
    obtain ⟨a, ha, hka⟩ := mem_flattenAll.1 (mem_of_mem_retained hk)
    exact hasGenerics_of_mem_flatten (h a ha) hka
  rcases unionOf_cases types with ⟨k, hone, heq⟩ | heq
  · rw [heq]
    exact hk k (by rw [hone]; exact List.mem_singleton_self k)
  · rw [heq, hasGenerics, anyGenerics_eq_false_iff]
    exact fun a ha => hk a (mem_sortMembers.1 ha)

/-- The union of types is their least upper bound, for both kinds of subtyping: it is accepted by
what accepts all of them. It is no wider than they are: a type that is neither a union nor a
variable is accepted by it only if one of them accepts it. -/
theorem unionOf_least (types : List Ty) (x : Ty) :
    ((isSubtype x (unionOf types) = true ↔ ∀ a ∈ types, isSubtype x a = true) ∧
      (isStrictSubtype x (unionOf types) = true ↔ ∀ a ∈ types, isStrictSubtype x a = true)) ∧
    (x.isPlain = true →
      (isSubtype (unionOf types) x = true ↔ ∃ a ∈ types, isSubtype a x = true) ∧
      (isStrictSubtype (unionOf types) x = true ↔ ∃ a ∈ types, isStrictSubtype a x = true)) :=
  ⟨⟨accepts_of_unionOf_iff, accepts_of_unionOf_iff⟩,
    fun hx => ⟨accepts_unionOf_iff hx, accepts_unionOf_iff hx⟩⟩

/-- Only the wider of the two function types remains, and the union still accepts what the narrower
one does, as long as numbers count as truth values. -/
theorem unionOf_least_sample :
    let types := [function [float] integer, union [string, union [function [integer] float]], none]
    let x := function [boolean] integer
    x.isPlain = true ∧ isSubtype (unionOf types) x = true ∧
      isStrictSubtype (unionOf types) x = false := by
  intro types x
  have hx : x.isPlain = true := rfl
  obtain ⟨-, hplain⟩ := unionOf_least types x
  obtain ⟨hloose, hstrict⟩ := hplain hx
  refine ⟨hx, hloose.2 ⟨function [float] integer, by simp [types], by decide +kernel⟩, ?_⟩
  rw [Bool.eq_false_iff, Ne, hstrict]
  simp [types, x, isStrictSubtype, accepts, acceptsParams, someAccepts]

end LazyLang.Ty
