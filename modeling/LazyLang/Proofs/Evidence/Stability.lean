import LazyLang.Proofs.Evidence.Merging

/-!
# Substituting twice

What evidence knows has no variables, so a substitution leaves none of the variables that the
evidence knows (`get?_of_occurs_substitute`), and it puts every union that it changes into normal
form again (`Throughout.substitute`). A type in normal form without known variables stays as it is
(`substitute_eq_self`), so substituting once more changes nothing (`substitute_stable`).
-/

namespace LazyLang

namespace Ty

/-- Whether the variable stands somewhere in the type; the bounds of variables do not count. -/
def Occurs (x : String) (a : Ty) : Prop := ∃ covariant, x ∈ a.variablesAt covariant

section Occurs

variable {x name : String} {a bound element result : Ty} {params members types : List Ty}
  {fields : List (String × Ty)}

@[simp] theorem occurs_generic : Occurs x (generic name) ↔ x = name := by
  simp [Occurs, variablesAt]

@[simp] theorem occurs_constrained : Occurs x (constrained name bound) ↔ x = name := by
  simp [Occurs, variablesAt]

@[simp] theorem occurs_array : Occurs x (array element) ↔ Occurs x element := Iff.rfl

@[simp] theorem occurs_function :
    Occurs x (function params result) ↔ (∃ p ∈ params, Occurs x p) ∨ Occurs x result := by
  simp only [Occurs, variablesAt, List.mem_append, mem_variablesEach]
  constructor
  · rintro ⟨covariant, ⟨p, hp, hx⟩ | hx⟩
    · exact .inl ⟨p, hp, !covariant, hx⟩
    · exact .inr ⟨covariant, hx⟩
  · rintro (⟨p, hp, covariant, hx⟩ | ⟨covariant, hx⟩)
    · refine ⟨!covariant, .inl ⟨p, hp, ?_⟩⟩
      rwa [Bool.not_not]
    · exact ⟨covariant, .inr hx⟩

@[simp] theorem occurs_union : Occurs x (union members) ↔ ∃ m ∈ members, Occurs x m := by
  simp only [Occurs, variablesAt, mem_variablesEach]
  constructor
  · rintro ⟨covariant, m, hm, hx⟩
    exact ⟨m, hm, covariant, hx⟩
  · rintro ⟨m, hm, covariant, hx⟩
    exact ⟨covariant, m, hm, hx⟩

@[simp] theorem occurs_record : Occurs x (record fields) ↔ ∃ field ∈ fields, Occurs x field.2 := by
  simp only [Occurs, variablesAt, mem_variablesFields]
  constructor
  · rintro ⟨covariant, f, hf, hx⟩
    exact ⟨f, hf, covariant, hx⟩
  · rintro ⟨f, hf, covariant, hx⟩
    exact ⟨covariant, f, hf, hx⟩

theorem not_occurs_of_ground (h : a.hasGenerics = false) : ¬ Occurs x a := by
  induction a with
  | generic | constrained => cases h
  | array element ih => exact ih h
  | function params result ihparams ihresult =>
      rw [hasGenerics, Bool.or_eq_false_iff] at h
      rw [occurs_function]
      rintro (⟨p, hp, hxp⟩ | hx)
      · exact ihparams p hp (hasGenerics_of_mem h.1 hp) hxp
      · exact ihresult h.2 hx
  | union members ih =>
      rw [occurs_union]
      rintro ⟨m, hm, hxm⟩
      exact ih m hm (hasGenerics_of_mem h hm) hxm
  | record fields ih =>
      rw [occurs_record]
      rintro ⟨field, hf, hxf⟩
      exact ih field hf (hasGenerics_of_mem_fields h hf) hxf
  | _ => simp [Occurs, variablesAt]

theorem occurs_of_mem_flatten {m : Ty} (hm : m ∈ flatten a) (hx : Occurs x m) : Occurs x a := by
  induction a with
  | union members ih =>
      obtain ⟨b, hb, hmb⟩ := mem_flattenAll.1 hm
      exact occurs_union.2 ⟨b, hb, ih b hb hmb⟩
  | _ => rwa [List.mem_singleton.1 hm] at hx

/-- The variables of a union are variables of its types. -/
theorem exists_of_occurs_unionOf (hx : Occurs x (unionOf types)) : ∃ a ∈ types, Occurs x a := by
  have hmember {k : Ty} (hk : k ∈ retained (flattenAll types)) (hxk : Occurs x k) :
      ∃ a ∈ types, Occurs x a := by
    obtain ⟨a, ha, hka⟩ := mem_flattenAll.1 (mem_of_mem_retained hk)
    exact ⟨a, ha, occurs_of_mem_flatten hka hxk⟩
  rcases unionOf_cases types with ⟨k, hone, heq⟩ | heq
  · rw [heq] at hx
    exact hmember (hone ▸ List.mem_singleton_self k) hx
  · rw [heq, occurs_union] at hx
    obtain ⟨m, hm, hxm⟩ := hx
    exact hmember (mem_sortMembers.1 hm) hxm

end Occurs

end Ty

namespace Evidence

open Ty

variable {e : Evidence} {a : Ty} {x : String}

/-- What stands for a variable has variables only if nothing is known of it. -/
theorem WellFormed.get?_of_occurs_getD (h : e.WellFormed) {name : String} {b : Ty}
    (hx : Occurs x ((e.get? name).getD b)) : e.get? name = Option.none ∧ Occurs x b := by
  cases hname : e.get? name with
  | none =>
      rw [hname] at hx
      exact ⟨rfl, hx⟩
  | some known =>
      rw [hname] at hx
      exact absurd hx (not_occurs_of_ground (h.ground_of_get? hname))

/-- The variables that a substitution leaves are those of the type that nothing is known of. -/
theorem get?_of_occurs_substitute (h : e.WellFormed) (hx : Occurs x (e.substitute a)) :
    e.get? x = Option.none ∧ Occurs x a := by
  induction a with
  | generic name =>
      obtain ⟨hname, hoccurs⟩ := h.get?_of_occurs_getD hx
      exact ⟨occurs_generic.1 hoccurs ▸ hname, hoccurs⟩
  | constrained name bound =>
      obtain ⟨hname, hoccurs⟩ := h.get?_of_occurs_getD hx
      exact ⟨occurs_constrained.1 hoccurs ▸ hname, hoccurs⟩
  | array element ih => exact ih hx
  | function params result ihparams ihresult =>
      rw [substitute, occurs_function, substituteEach_eq_map] at hx
      rw [occurs_function]
      rcases hx with ⟨q, hq, hxq⟩ | hx
      · obtain ⟨p, hp, rfl⟩ := List.mem_map.1 hq
        exact (ihparams p hp hxq).imp_right fun hxp => .inl ⟨p, hp, hxp⟩
      · exact (ihresult hx).imp_right .inr
  | union members ih =>
      rw [substitute, substituteEach_eq_map] at hx
      obtain ⟨b, hb, hxb⟩ := exists_of_occurs_unionOf hx
      obtain ⟨m, hm, rfl⟩ := List.mem_map.1 hb
      exact (ih m hm hxb).imp_right fun hxm => occurs_union.2 ⟨m, hm, hxm⟩
  | record fields ih =>
      rw [substitute, occurs_record, substituteFields_eq_map] at hx
      obtain ⟨entry, hentry, hxe⟩ := hx
      obtain ⟨field, hf, rfl⟩ := List.mem_map.1 hentry
      exact (ih field hf hxe).imp_right fun hxf => occurs_record.2 ⟨field, hf, hxf⟩
  | integer | float | string | boolean | none | emptyArray =>
      exact absurd hx (not_occurs_of_ground rfl)

theorem substituteEach_eq_self {types : List Ty} (h : ∀ a ∈ types, e.substitute a = a) :
    e.substituteEach types = types := by
  rw [substituteEach_eq_map, List.map_congr_left h, List.map_id']

/-- A type in normal form stays as it is when nothing is known of its variables. -/
theorem substitute_eq_self (ha : a.Everywhere Normal)
    (h : ∀ x, Occurs x a → e.get? x = Option.none) : e.substitute a = a := by
  induction a with
  | generic name => rw [substitute, h name (occurs_generic.2 rfl), Option.getD_none]
  | constrained name bound => rw [substitute, h name (occurs_constrained.2 rfl), Option.getD_none]
  | array element ih => rw [substitute, ih ha.2 h]
  | function params result ihparams ihresult =>
      obtain ⟨-, hparams, hresult⟩ := ha
      have heach (p : Ty) (hp : p ∈ params) : e.substitute p = p :=
        ihparams p hp (everywhereEach_iff.1 hparams p hp)
          fun x hx => h x (occurs_function.2 (.inl ⟨p, hp, hx⟩))
      rw [substitute, substituteEach_eq_self heach,
        ihresult hresult fun x hx => h x (occurs_function.2 (.inr hx))]
  | union members ih =>
      have heach (m : Ty) (hm : m ∈ members) : e.substitute m = m :=
        ih m hm (everywhereEach_iff.1 ha.2 m hm) fun x hx => h x (occurs_union.2 ⟨m, hm, hx⟩)
      rw [substitute, substituteEach_eq_self heach]
      exact ha.here
  | record fields ih =>
      have heach (f : String × Ty) (hf : f ∈ fields) : (f.1, e.substitute f.2) = f := by
        rw [ih f hf (everywhereFields_iff.1 ha.2 f hf)
          fun x hx => h x (occurs_record.2 ⟨f, hf, hx⟩)]
      rw [substitute, substituteFields_eq_map, List.map_congr_left heach, List.map_id']
  | integer | float | string | boolean | none | emptyArray => rfl

section Throughout

variable {p : Ty → Prop}

/-- What holds of the types that are known and of a type, at any depth, holds of the type after the
substitution, if unions have it and substitution keeps it in types of other kinds. -/
theorem Throughout.substitute (h : e.Throughout p)
    (hunion : ∀ types members, unionOf types = .union members → p (.union members))
    (hkeep : ∀ b : Ty, b.isVariable = false → b.isUnion = false → p b → p (e.substitute b))
    (ha : a.Everywhere p) : (e.substitute a).Everywhere p := by
  have hgetD (name : String) {b : Ty} (hb : b.Everywhere p) :
      ((e.get? name).getD b).Everywhere p := by
    cases hname : e.get? name with
    | none => exact hb
    | some known => exact h.of_get? hname
  induction a with
  | generic name => exact hgetD name ha
  | constrained name bound => exact hgetD name ha
  | array element ih => exact ⟨hkeep _ rfl rfl ha.here, ih ha.2⟩
  | function params result ihparams ihresult =>
      obtain ⟨hhere, hparams, hresult⟩ := ha
      refine ⟨hkeep _ rfl rfl hhere, everywhereEach_iff.2 ?_, ihresult hresult⟩
      rw [substituteEach_eq_map, List.forall_mem_map]
      exact fun q hq => ihparams q hq (everywhereEach_iff.1 hparams q hq)
  | union members ih =>
      rw [Evidence.substitute, substituteEach_eq_map]
      refine .unionOf (hunion _) (List.forall_mem_map.2 fun m hm => ?_)
      exact ih m hm (everywhereEach_iff.1 ha.2 m hm)
  | record fields ih =>
      refine ⟨hkeep _ rfl rfl ha.here, everywhereFields_iff.2 ?_⟩
      rw [substituteFields_eq_map, List.forall_mem_map]
      exact fun f hf => ih f hf (everywhereFields_iff.1 ha.2 f hf)
  | _ => exact ha

end Throughout

/-- The evidence that parameters and arguments give, pair by pair. -/
def gathered (pairs : List (Ty × Ty)) : Evidence :=
  pairs.foldl (fun e pair => e.merge (ofArgument pair.1 pair.2)) []

theorem throughout_gathered {p : Ty → Prop} {pairs : List (Ty × Ty)}
    (hunion : ∀ types members, unionOf types = .union members → p (.union members))
    (h : ∀ pair ∈ pairs, pair.2.Everywhere p) : (gathered pairs).Throughout p := by
  unfold gathered
  refine List.foldlRecOn _ _ .nil fun e he pair hpair => ?_
  exact he.merge hunion (.ofArgument hunion pair.1 (h pair hpair))

/-- With all unions in normal form, what is known is without variables and in normal form, so is a
type after the substitution as far as its variables are known, and a second substitution changes
nothing. -/
theorem substitute_stable {pairs : List (Ty × Ty)}
    (hpairs : ∀ pair ∈ pairs, pair.2.Everywhere Normal) (ha : a.Everywhere Normal) :
    (∀ x b, (gathered pairs).get? x = some b → b.hasGenerics = false ∧ b.Everywhere Normal) ∧
      ((gathered pairs).substitute a).Everywhere Normal ∧
      (∀ x, Occurs x ((gathered pairs).substitute a) → (gathered pairs).get? x = Option.none) ∧
      (gathered pairs).substitute ((gathered pairs).substitute a) =
        (gathered pairs).substitute a := by
  have hunion (types members : List Ty) (heq : unionOf types = .union members) :
      Normal (.union members) := heq ▸ normal_unionOf types
  have hknown : (gathered pairs).Throughout Normal := throughout_gathered hunion hpairs
  have hresult : ((gathered pairs).substitute a).Everywhere Normal := by
    refine hknown.substitute hunion (fun b hvariable hflat _ => normal_of_not_isUnion ?_) ha
    cases b with
    | generic | constrained => cases hvariable
    | union => cases hflat
    | _ => rfl
  have hopen (x : String) (hx : Occurs x ((gathered pairs).substitute a)) :
      (gathered pairs).get? x = Option.none := (get?_of_occurs_substitute hknown.wellFormed hx).1
  refine ⟨fun x b hb => ?_, hresult, hopen, substitute_eq_self hresult hopen⟩
  exact ⟨hknown.wellFormed.ground_of_get? hb, hknown.of_get? hb⟩

/-- The integers of one argument go with the floats of another, and a variable that neither tells
anything of stays. -/
theorem substitute_stable_sample :
    let pairs := [(array (generic "T"), array integer), (generic "T", float)]
    let a := union [generic "U", array (generic "T")]
    let b := union [generic "U", array float]
    (∀ pair ∈ pairs, pair.2.Everywhere Normal) ∧ a.Everywhere Normal ∧
      (gathered pairs).substitute a = b ∧ (gathered pairs).substitute b = b := by
  intro pairs a b
  have hnormal (element : Ty) (h : [generic "U", array element].Pairwise Apart)
      (hsorted : [generic "U", array element].Pairwise fun c d => c.pretty ≤ d.pretty) :
      unionOf [generic "U", array element] = union [generic "U", array element] :=
    unionOf_eq_ofRow_of_apart (by simp [isUnion]) h hsorted
  have hpairs : ∀ pair ∈ pairs, pair.2.Everywhere Normal := by
    rw [List.forall_mem_cons, List.forall_mem_singleton]
    exact ⟨⟨trivial, trivial⟩, trivial⟩
  have ha : a.Everywhere Normal :=
    ⟨hnormal _ (by decide +kernel) (by decide +kernel), trivial, ⟨trivial, trivial⟩, trivial⟩
  have hgathered : gathered pairs = [("T", float)] := by decide +kernel
  have hb : (gathered pairs).substitute a = b := by
    rw [hgathered]
    exact hnormal _ (by decide +kernel) (by decide +kernel)
  obtain ⟨-, -, -, hagain⟩ := substitute_stable hpairs ha
  rw [hb] at hagain
  exact ⟨hpairs, ha, hb, hagain⟩

end Evidence

end LazyLang
