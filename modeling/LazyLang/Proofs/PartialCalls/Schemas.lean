import LazyLang.Proofs.Evidence.Stability

/-!
# Schemas

A call that leaves some parameters open puts what it has learnt into them. What it learnt has no
variables, and the types of the library are schemas: each variable in a parameter stands on its own,
so that whether the parameter accepts a type is decided place by place (`IsSchema.takes`). So the
variables that stay open learn the same from an argument, whether or not the others have been
replaced before (`Evidence.get?_collect_schema`).
-/

namespace LazyLang

namespace Ty

/-- A variable, or a type without variables. -/
def IsLeaf (a : Ty) : Prop := a.isVariable = true ∨ a.hasGenerics = false

/-- A type made of leaves by arrays and functions, the parameters of which are leaves. -/
inductive IsSchema : Ty → Prop
  | leaf {a : Ty} (h : a.IsLeaf) : IsSchema a
  | array {element : Ty} (h : IsSchema element) : IsSchema (.array element)
  | function {params : List Ty} {result : Ty} (hparams : ∀ p ∈ params, p.IsLeaf)
      (hresult : IsSchema result) : IsSchema (.function params result)

/-- Whether the type itself, apart from the types inside it, is a function of schemas, a record that
names each of its fields once, or anything else. -/
def Regular : Ty → Prop
  | function params _ => ∀ p ∈ params, p.IsSchema
  | record fields => (fields.map (·.1)).Nodup
  | _ => True

end Ty

namespace Evidence

open Ty

/-- A type without variables accepts no less and is accepted by no less after a substitution. -/
theorem substitute_ground {a : Ty} (hr : a.Everywhere Regular) (h : a.hasGenerics = false)
    (e : Evidence) : TakesMore a (e.substitute a) ∧ TakenMore a (e.substitute a) := by
  induction a with
  | generic | constrained => cases h
  | array element ih =>
      obtain ⟨htakes, htaken⟩ := ih hr.2 h
      exact ⟨htakes.array, htaken.array⟩
  | function params result ihparams ihresult =>
      rw [hasGenerics, Bool.or_eq_false_iff] at h
      obtain ⟨-, hparams, hresult⟩ := hr
      have hall := fun p hp =>
        ihparams p hp (everywhereEach_iff.1 hparams p hp) (hasGenerics_of_mem h.1 hp)
      obtain ⟨htakes, htaken⟩ := ihresult hresult h.2
      rw [substitute, substituteEach_eq_map]
      constructor
      · refine .function ?_ htakes
        rw [List.forall₂_map_right_iff, List.forall₂_same]
        exact fun p hp => (hall p hp).2
      · refine .function ?_ htaken
        rw [List.forall₂_map_right_iff, List.forall₂_same]
        exact fun p hp => (hall p hp).1
  | union members ih =>
      have hall := fun m hm => ih m hm (everywhereEach_iff.1 hr.2 m hm) (hasGenerics_of_mem h hm)
      rw [substitute, substituteEach_eq_map]
      constructor
      · refine takesMore_of_isPlain fun t ht hat => (accepts_unionOf_iff ht).2 ?_
        obtain ⟨m, hm, hmt⟩ := (accepts_union_iff ht).1 hat
        exact ⟨_, List.mem_map_of_mem hm, (hall m hm).1 t hmt⟩
      · intro f hf
        refine accepts_of_unionOf_iff.2 ?_
        rw [List.forall_mem_map]
        exact fun m hm => (hall m hm).2 f (accepts_of_mem_union hf hm)
  | record fields ih =>
      have hall := fun f hf =>
        ih f hf (everywhereFields_iff.1 hr.2 f hf) (hasGenerics_of_mem_fields h hf)
      have hid : fields.map (fun f => (f.1, id f.2)) = fields := List.map_id' fields
      rw [substitute, substituteFields_eq_map]
      constructor
      · have htakes := takesMore_record (f := id) hr.1 fun f hf => (hall f hf).1
        rwa [hid] at htakes
      · have htaken := takenMore_record (f := id) hr.1 fun f hf => (hall f hf).2
        rwa [hid] at htaken
  | _ => exact ⟨.refl _, .refl _⟩

end Evidence

namespace Ty

open Evidence

theorem IsLeaf.substitute {σ : Evidence} (hσ : σ.WellFormed) {q : Ty} (hq : q.IsLeaf) :
    (σ.substitute q).IsLeaf := by
  rcases hq with hvariable | hground
  · cases q with
    | generic name | constrained name bound =>
        rw [Evidence.substitute]
        cases hname : σ.get? name with
        | none => exact .inl rfl
        | some a => exact .inr (hσ.ground_of_get? hname)
    | _ => cases hvariable
  · exact .inr (hasGenerics_substitute σ hground)

theorem IsSchema.substitute {σ : Evidence} (hσ : σ.WellFormed) {q : Ty} (hq : q.IsSchema) :
    (σ.substitute q).IsSchema := by
  induction hq with
  | leaf hq => exact .leaf (hq.substitute hσ)
  | array _ ih => exact .array ih
  | function hparams _ ih =>
      rw [Evidence.substitute, substituteEach_eq_map]
      refine .function ?_ ih
      rw [List.forall_mem_map]
      exact fun p hp => (hparams p hp).substitute hσ

end Ty

namespace Evidence

open Ty

/-- What is known is without variables, and regular at any depth. -/
structure Regular (e : Evidence) : Prop where
  wellFormed : e.WellFormed
  regular : ∀ entry ∈ e, entry.2.Everywhere Ty.Regular

theorem Regular.throughout {e : Evidence} (h : e.Regular) : e.Throughout Ty.Regular :=
  ⟨h.wellFormed, h.regular⟩

theorem Regular.substitute {σ : Evidence} (hσ : σ.Regular) {a : Ty}
    (ha : a.Everywhere Ty.Regular) : (σ.substitute a).Everywhere Ty.Regular := by
  refine hσ.throughout.substitute (fun _ _ _ => trivial) (fun b hvariable hflat hb => ?_) ha
  cases b with
  | generic | constrained => cases hvariable
  | union => cases hflat
  | function params result =>
      rw [Evidence.substitute, substituteEach_eq_map]
      exact List.forall_mem_map.2 fun p hp => (hb p hp).substitute hσ.wellFormed
  | record fields =>
      rw [Evidence.substitute, substituteFields_eq_map, Ty.Regular, List.map_map]
      exact hb
  | _ => trivial

/-- Of the variables that `σ` does not know, `d` knows what `e` knows. -/
def Continues (σ d e : Evidence) : Prop := ∀ x, σ.get? x = Option.none → d.get? x = e.get? x

end Evidence

namespace Ty

open Evidence

theorem forall₂_of_both {α β : Type*} {R S T : α → β → Prop} {as : List α} {bs : List β}
    (hR : as.Forall₂ R bs) (hS : as.Forall₂ S bs) (h : ∀ a ∈ as, ∀ b, R a b → S a b → T a b) :
    as.Forall₂ T bs := by
  induction hR with
  | nil => exact .nil
  | cons hab _ ih =>
      cases hS with
      | cons hab' hS =>
          exact .cons (h _ List.mem_cons_self _ hab hab')
            (ih hS fun a ha => h a (List.mem_cons_of_mem _ ha))

section Frozen

/-! The evidence `σ` has been put into a type, and `d` is what is learnt after that. -/

variable {σ d e : Evidence} {q u : Ty} (hσ : σ.Regular) (h : Continues σ d e)

include hσ h

/-- A leaf has lost its variable, or it is a variable that means in `d` what it means in `e`. -/
theorem IsLeaf.frozen (hq : q.IsLeaf) :
    (σ.substitute q).hasGenerics = false ∨ d.substitute (σ.substitute q) = e.substitute q := by
  rcases hq with hvariable | hground
  · cases q with
    | generic name | constrained name bound =>
        rw [Evidence.substitute]
        cases hname : σ.get? name with
        | none =>
            right
            rw [Option.getD_none, Evidence.substitute, Evidence.substitute, h name hname]
        | some a => exact .inl (hσ.wellFormed.ground_of_get? hname)
    | _ => cases hvariable
  · exact .inl (hasGenerics_substitute σ hground)

/-- What accepts a leaf with either evidence accepts it with the one after the other. -/
theorem IsLeaf.taken (hq : q.IsLeaf) (hr : q.Everywhere Regular)
    (hfrozen : u.isSubtype (σ.substitute q) = true) (hknown : u.isSubtype (e.substitute q) = true) :
    u.isSubtype (d.substitute (σ.substitute q)) = true := by
  rcases hq.frozen hσ h with hground | heq
  · exact (substitute_ground (hσ.substitute hr) hground d).2 u hfrozen
  · rwa [heq]

/-- What a schema accepts with either evidence it accepts with the one after the other. -/
theorem IsSchema.takes (hq : q.IsSchema) (hr : q.Everywhere Regular)
    (hfrozen : (σ.substitute q).isSubtype u = true) (hknown : (e.substitute q).isSubtype u = true) :
    (d.substitute (σ.substitute q)).isSubtype u = true := by
  induction hq generalizing u with
  | leaf hq =>
      rcases hq.frozen hσ h with hground | heq
      · exact (substitute_ground (hσ.substitute hr) hground d).1 u hfrozen
      · rwa [heq]
  | array _ ih =>
      refine accepts_iff_parts.2 fun t ht => ?_
      have hplain := isPlain_of_mem_parts ht
      rcases (accepts_array_iff hplain).1 (accepts_iff_parts.1 hfrozen t ht) with
        rfl | ⟨own, rfl, hown⟩
      · exact (accepts_array_iff hplain).2 (.inl rfl)
      · have hknown := accepts_iff_parts.1 hknown _ ht
        rw [Evidence.substitute, accepts_array_array] at hknown
        exact (accepts_array_array).trans (ih hr.2 hown hknown)
  | @function params result hparams _ ih =>
      obtain ⟨-, hregular, hresult⟩ := hr
      rw [everywhereEach_iff] at hregular
      simp only [Evidence.substitute, substituteEach_eq_map, List.map_map] at hfrozen hknown ⊢
      refine accepts_iff_parts.2 fun t ht => ?_
      obtain ⟨own, ownResult, rfl, hown, hownResult⟩ :=
        (accepts_function_iff (isPlain_of_mem_parts ht)).1 (accepts_iff_parts.1 hfrozen t ht)
      obtain ⟨hown', hownResult'⟩ := accepts_function_function.1 (accepts_iff_parts.1 hknown _ ht)
      refine accepts_function_function.2 ⟨?_, ih hresult hownResult hownResult'⟩
      rw [List.forall₂_map_left_iff] at hown hown' ⊢
      exact forall₂_of_both hown hown' fun p hp mine hfrozen hknown =>
        (hparams p hp).taken hσ h (hregular p hp) hfrozen hknown

end Frozen

end Ty

end LazyLang
