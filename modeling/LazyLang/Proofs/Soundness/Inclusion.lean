import LazyLang.Proofs.Soundness.Kinds
import LazyLang.Proofs.Subtyping.Variance

/-!
# Subtypes have fewer values

A type accepts another only if it has all its values, as long as neither has generic variables. The
induction is on both types at once, since parameters swap their sides. The normal form of a type
without variables has the same values.
-/

namespace LazyLang.Ty

variable {total : Bool} {c : Coercion} {w : World} {v : Value}

/-- Every value of the second type is one of the first. -/
def Includes (total : Bool) (a b : Ty) : Prop :=
  ∀ w v, (b.kind total).holds w v → (a.kind total).holds w v

theorem kind_union_iff {members : List Ty} :
    ((union members).kind total).holds w v ↔ ∃ m ∈ members, (m.kind total).holds w v := by
  rw [kind, kinds_eq_map]
  constructor
  · rintro ⟨S, hS, h⟩
    obtain ⟨m, hm, rfl⟩ := List.mem_map.1 hS
    exact ⟨m, hm, h⟩
  · rintro ⟨m, hm, h⟩
    exact ⟨m.kind total, List.mem_map_of_mem hm, h⟩

theorem includes_array {element own : Ty} (h : Includes total element own) :
    Includes total (array element) (array own) :=
  fun _ _ hv => Kind.array_imp hv fun w v _ => h w v

theorem includes_function {params own : List Ty} {result ownResult : Ty}
    (hparams : List.Forall₂ (fun p mine => Includes total mine p) params own)
    (hresult : Includes total result ownResult) :
    Includes total (function params result) (function own ownResult) := by
  intro w v hv
  refine Kind.function_imp hv ?_ hresult
  rw [kinds_eq_map, kinds_eq_map, List.forall₂_map_left_iff, List.forall₂_map_right_iff]
  exact hparams

/-- Two plain types, given what holds of smaller ones. -/
theorem includes_of_isPlain {a b : Ty} (ha : a.isPlain = true) (hb : b.isPlain = true)
    (hga : a.hasGenerics = false) (hgb : b.hasGenerics = false) (h : accepts c a b = true)
    (ih : ∀ a' b' : Ty, sizeOf a' + sizeOf b' < sizeOf a + sizeOf b → a'.hasGenerics = false →
      b'.hasGenerics = false → accepts c a' b' = true → Includes total a' b') :
    Includes total a b := by
  cases a with
  | integer | string | none | emptyArray =>
      rw [(accepts_scalar_iff rfl hb).1 h]
      exact fun _ _ hv => hv
  | float =>
      rcases (accepts_float_iff hb).1 h with rfl | rfl
      · exact fun _ _ hv => hv
      · exact fun _ _ hv => .inl hv
  | boolean =>
      rcases (accepts_boolean_iff hb).1 h with rfl | ⟨-, rfl | rfl⟩
      · exact fun _ _ hv => hv
      · exact fun _ _ hv => .inr (.inl hv)
      · exact fun _ _ hv => .inr hv
  | array element =>
      rcases (accepts_array_iff hb).1 h with rfl | ⟨own, rfl, hown⟩
      · exact fun _ _ hv => Kind.array_of_emptyArray hv
      · exact includes_array (ih element own (by simp; omega) hga hgb hown)
  | function params result =>
      obtain ⟨own, ownResult, rfl, hparams, hresult⟩ := (accepts_function_iff hb).1 h
      rw [hasGenerics, Bool.or_eq_false_iff] at hga hgb
      refine includes_function ?_ (ih result ownResult (by simp; omega) hga.2 hgb.2 hresult)
      refine forall₂_imp_of_mem hparams fun p hp mine hmine hle => ?_
      have hsmall : sizeOf p < sizeOf params := List.sizeOf_lt_of_mem hp
      have hsmall' : sizeOf mine < sizeOf own := List.sizeOf_lt_of_mem hmine
      exact ih mine p (by simp; omega) (hasGenerics_of_mem hgb.1 hmine)
        (hasGenerics_of_mem hga.1 hp) hle
  | record fields =>
      obtain ⟨own, rfl, -⟩ := (accepts_record_iff hb).1 h
      exact fun _ _ hv => hv
  | union | generic | constrained => cases ha

/-- A type that accepts another has all its values. -/
theorem includes_of_accepts {a b : Ty} (hga : a.hasGenerics = false) (hgb : b.hasGenerics = false)
    (h : accepts c a b = true) : Includes total a b := by
  induction hn : sizeOf a + sizeOf b using Nat.strongRecOn generalizing a b with
  | _ n ih =>
      subst hn
      by_cases hb : b.isPlain = true
      · by_cases ha : a.isPlain = true
        · exact includes_of_isPlain ha hb hga hgb h fun a' b' hlt hga' hgb' h' =>
            ih _ hlt hga' hgb' h' rfl
        · cases a with
          | union members =>
              obtain ⟨m, hm, hmb⟩ := (accepts_union_iff hb).1 h
              have hsmall : sizeOf m < sizeOf members := List.sizeOf_lt_of_mem hm
              have hmv := ih _ (by simp; omega) (hasGenerics_of_mem hga hm) hgb hmb rfl
              exact fun w v hv => kind_union_iff.2 ⟨m, hm, hmv w v hv⟩
          | generic | constrained => cases hga
          | _ => exact absurd rfl ha
      · cases b with
        | union members =>
            intro w v hv
            obtain ⟨m, hm, hmv⟩ := kind_union_iff.1 hv
            have hsmall : sizeOf m < sizeOf members := List.sizeOf_lt_of_mem hm
            exact ih _ (by simp; omega) hga (hasGenerics_of_mem hgb hm)
              (accepts_of_mem_union h hm) rfl w v hmv
        | generic | constrained => cases hgb
        | _ => exact absurd rfl hb

theorem accepts_unionOf_of_mem {a : Ty} {types : List Ty} (ha : a ∈ types) :
    accepts c (unionOf types) a = true := by
  rw [accepts_iff_parts]
  intro t ht
  exact (accepts_unionOf_iff (isPlain_of_mem_parts ht)).2 ⟨a, ha, accepts_part ht⟩

theorem accepts_union_of_unionOf (types : List Ty) :
    accepts c (union types) (unionOf types) = true := by
  rw [accepts_of_unionOf_iff]
  intro a ha
  rw [accepts_iff_parts]
  intro t ht
  exact (accepts_union_iff (isPlain_of_mem_parts ht)).2 ⟨a, ha, accepts_part ht⟩

/-- The normal form of a union has the values of its members. -/
theorem kind_unionOf_iff {types : List Ty} (h : ∀ a ∈ types, a.hasGenerics = false) :
    ((unionOf types).kind total).holds w v ↔ ∃ a ∈ types, (a.kind total).holds w v := by
  have hg := hasGenerics_unionOf h
  have hu : (union types).hasGenerics = false := anyGenerics_eq_false_iff.2 h
  constructor
  · intro hv
    exact kind_union_iff.1
      (includes_of_accepts hu hg (accepts_union_of_unionOf (c := .strict) types) w v hv)
  · rintro ⟨a, ha, hv⟩
    exact includes_of_accepts hg (h a ha) (accepts_unionOf_of_mem (c := .strict) ha) w v hv

end LazyLang.Ty

namespace LazyLang.Evidence

open LazyLang.Ty

variable {total : Bool}

/-- Substitution leaves the values of a type without variables as they are. -/
theorem includes_substitute (e : Evidence) {a : Ty} (h : a.hasGenerics = false) :
    Includes total (e.substitute a) a ∧ Includes total a (e.substitute a) := by
  induction a with
  | integer | float | string | boolean | none | emptyArray =>
      exact ⟨fun _ _ hv => hv, fun _ _ hv => hv⟩
  | array element ih => exact ⟨includes_array (ih h).1, includes_array (ih h).2⟩
  | function params result ihparams ihresult =>
      rw [hasGenerics, Bool.or_eq_false_iff] at h
      rw [substitute, substituteEach_eq_map]
      refine ⟨includes_function ?_ (ihresult h.2).1, includes_function ?_ (ihresult h.2).2⟩
      · rw [List.forall₂_map_left_iff, List.forall₂_same]
        exact fun p hp => (ihparams p hp (hasGenerics_of_mem h.1 hp)).2
      · rw [List.forall₂_map_right_iff, List.forall₂_same]
        exact fun p hp => (ihparams p hp (hasGenerics_of_mem h.1 hp)).1
  | union members ih =>
      have hm : ∀ a ∈ members.map e.substitute, a.hasGenerics = false :=
        List.forall_mem_map.2 fun m hm => hasGenerics_substitute e (hasGenerics_of_mem h hm)
      rw [substitute, substituteEach_eq_map]
      constructor
      · intro w v hv
        obtain ⟨m, hmem, hv⟩ := kind_union_iff.1 hv
        refine (kind_unionOf_iff hm).2 ⟨_, List.mem_map_of_mem hmem, ?_⟩
        exact (ih m hmem (hasGenerics_of_mem h hmem)).1 w v hv
      · intro w v hv
        obtain ⟨a, ha, hv⟩ := (kind_unionOf_iff hm).1 hv
        obtain ⟨m, hmem, rfl⟩ := List.mem_map.1 ha
        exact kind_union_iff.2 ⟨m, hmem, (ih m hmem (hasGenerics_of_mem h hmem)).2 w v hv⟩
  | generic | constrained => cases h
  | record fields => exact ⟨fun _ _ hv => hv, fun _ _ hv => hv⟩

end LazyLang.Evidence
