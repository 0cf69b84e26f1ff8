import LazyLang.Proofs.Subtyping

/-!
# Transitivity of subtyping

Two steps of subtyping are one as long as every variable in the type in the middle has a bound
(`subtype_trans`): a bound variable is judged by its bound, on both sides. A variable without a
bound in the middle would connect any two types, since it accepts everything and everything accepts
it. Nothing is asked of the types at the ends, nor of the order and the nesting of unions.
-/

namespace LazyLang.Ty

mutual

/-- Whether every variable that occurs in the type, also inside bounds, has a bound. -/
def allBound : Ty → Bool
  | integer | float | string | boolean | none | emptyArray => true
  | array element => allBound element
  | function params result => allBoundEach params && allBound result
  | union members => allBoundEach members
  | generic _ => false
  | constrained _ bound => allBound bound
  | record fields => allBoundFields fields

/-- Whether every variable in each of the types has a bound. -/
def allBoundEach : List Ty → Bool
  | [] => true
  | a :: rest => allBound a && allBoundEach rest

/-- Whether every variable in each of the fields has a bound. -/
def allBoundFields : List (String × Ty) → Bool
  | [] => true
  | (_, a) :: rest => allBound a && allBoundFields rest

end

theorem allBoundEach_iff {types : List Ty} :
    allBoundEach types = true ↔ ∀ a ∈ types, a.allBound = true := by
  induction types with
  | nil => simp [allBoundEach]
  | cons head rest ih => simp [allBoundEach, ih]

theorem allBoundFields_iff {fields : List (String × Ty)} :
    allBoundFields fields = true ↔ ∀ field ∈ fields, field.2.allBound = true := by
  induction fields with
  | nil => simp [allBoundFields]
  | cons head rest ih =>
      obtain ⟨name, a⟩ := head
      rw [allBoundFields, Bool.and_eq_true, ih, List.forall_mem_cons]

/-- A type without variables has none without a bound. -/
theorem allBound_of_hasGenerics {a : Ty} (h : a.hasGenerics = false) : a.allBound = true := by
  induction a with
  | array element ih => exact ih h
  | function params result ihparams ihresult =>
      rw [hasGenerics, Bool.or_eq_false_iff] at h
      rw [allBound, Bool.and_eq_true, allBoundEach_iff]
      exact ⟨fun p hp => ihparams p hp (hasGenerics_of_mem h.1 hp), ihresult h.2⟩
  | union members ih => exact allBoundEach_iff.2 fun m hm => ih m hm (hasGenerics_of_mem h hm)
  | record fields ih =>
      exact allBoundFields_iff.2 fun field hf => ih field hf (hasGenerics_of_mem_fields h hf)
  | generic name => cases h
  | constrained name bound ih => cases h
  | _ => rfl

/-- Two steps of subtyping to a plain type are one, where every variable in the middle has a
bound. -/
theorem accepts_trans_of_isPlain {c : Coercion} {a m t : Ty} (hm : m.allBound = true)
    (ht : t.isPlain = true) (ham : accepts c a m = true) (hmt : accepts c m t = true) :
    accepts c a t = true := by
  -- The middle type is the one that gets smaller: the ends swap sides in the parameters of
  -- functions.
  induction m generalizing a t with
  | union members ih =>
      obtain ⟨m, hmem, hmt⟩ := (accepts_union_iff ht).1 hmt
      exact ih m hmem (allBoundEach_iff.1 hm m hmem) ht (accepts_of_mem_union ham hmem) hmt
  | generic name => cases hm
  | constrained name bound ih =>
      rw [accepts_constrained name bound ht] at hmt
      exact ih hm ht (accepts_bound_iff.1 ham) hmt
  | integer | string | none | emptyArray =>
      rw [(accepts_scalar_iff rfl ht).1 hmt]
      exact ham
  | float =>
      rcases (accepts_float_iff ht).1 hmt with rfl | rfl
      · exact ham
      · exact accepts_of_isPlain rfl rfl (fun b hb h => accepts_integer_of_float hb h) a ham
  | boolean =>
      refine accepts_of_isPlain rfl ht (fun b hb h => ?_) a ham
      rw [eq_boolean_of_accepts hb h]
      exact hmt
  | array element ih =>
      refine accepts_of_isPlain rfl ht (fun b hb h => ?_) a ham
      obtain ⟨own, rfl, hown⟩ := exists_of_accepts_array hb h
      rcases (accepts_array_iff ht).1 hmt with rfl | ⟨other, rfl, hother⟩
      · exact (accepts_array_iff rfl).2 (.inl rfl)
      · rw [accepts_array_array]
        exact accepts_of_parts (fun u hu h => ih hm hu hown h) hother
  | function params result ihparams ihresult =>
      rw [allBound, Bool.and_eq_true] at hm
      refine accepts_of_isPlain rfl ht (fun b hb h => ?_) a ham
      obtain ⟨own, ownResult, rfl, hown, hownResult⟩ := exists_of_accepts_function hb h
      obtain ⟨other, otherResult, rfl, hother, hotherResult⟩ := (accepts_function_iff ht).1 hmt
      refine accepts_function_function.2 ⟨?_, ?_⟩
      · refine forall₂_trans_of_mem hown hother fun mine param hparam theirs hmine htheirs => ?_
        have hbound := allBoundEach_iff.1 hm.1 param hparam
        exact accepts_of_parts (fun u hu h => ihparams param hparam hbound hu htheirs h) hmine
      · exact accepts_of_parts (fun u hu h => ihresult hm.2 hu hownResult h) hotherResult
  | record fields ih =>
      refine accepts_of_isPlain rfl ht (fun b hb h => ?_) a ham
      obtain ⟨own, rfl, hown⟩ := exists_of_accepts_record hb h
      obtain ⟨other, rfl, hother⟩ := (accepts_record_iff ht).1 hmt
      rcases hown with rfl | hown
      · exact hmt
      · rcases hother with rfl | hother
        · exact h
        · refine accepts_record_record.2 (.inr fun field hfield => ?_)
          obtain ⟨mine, hmine, hfm⟩ := hown field hfield
          have hmem := mem_of_lookup hmine
          obtain ⟨theirs, htheirs, hmt⟩ := hother _ hmem
          refine ⟨theirs, htheirs, ?_⟩
          exact accepts_of_parts
            (fun u hu h => ih _ hmem (allBoundFields_iff.1 hm _ hmem) hu hfm h) hmt

/-- Two steps of subtyping are one, where every variable in the middle has a bound. -/
theorem accepts_trans_of_allBound {c : Coercion} {a m b : Ty} (hm : m.allBound = true)
    (ham : accepts c a m = true) (hmb : accepts c m b = true) : accepts c a b = true :=
  accepts_of_parts (fun _ ht h => accepts_trans_of_isPlain hm ht ham h) hmb

/-- Two steps of subtyping are one, where the type in the middle has no variables. -/
theorem accepts_trans {c : Coercion} {a m b : Ty} (hm : m.hasGenerics = false)
    (ham : accepts c a m = true) (hmb : accepts c m b = true) : accepts c a b = true :=
  accepts_trans_of_allBound (allBound_of_hasGenerics hm) ham hmb

/-- Both kinds of subtyping are transitive over types whose variables all have bounds. -/
theorem subtype_trans (a m b : Ty) (hm : m.allBound = true) :
    (isSubtype a m = true → isSubtype m b = true → isSubtype a b = true) ∧
      (isStrictSubtype a m = true → isStrictSubtype m b = true → isStrictSubtype a b = true) :=
  ⟨accepts_trans_of_allBound hm, accepts_trans_of_allBound hm⟩

/-- A nested and unsorted union with a bound variable stands between a function of numbers and one
of truth values. -/
theorem subtype_trans_sample :
    let base := function [integer] (union [string, union [none, float]])
    let middle := function [constrained "T" float] (union [union [string], constrained "U" float])
    let other := function [boolean] (constrained "V" integer)
    middle.allBound = true ∧ isSubtype base middle = true ∧ isSubtype middle other = true ∧
      isSubtype base other = true := by
  have hm : (function [constrained "T" float]
      (union [union [string], constrained "U" float])).allBound = true := by decide
  refine ⟨hm, ?_, ?_, (subtype_trans _ _ _ hm).1 ?_ ?_⟩ <;>
    simp [isSubtype, accepts, acceptsParams, acceptsEach, someAccepts]

/-- The bound is needed: an unbound variable connects types that have nothing in common. -/
example : accepts .strict integer (generic "T") = true ∧
    accepts .strict (generic "T") string = true ∧ accepts .strict integer string = false := by
  simp [accepts]

end LazyLang.Ty
