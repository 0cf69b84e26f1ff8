import LazyLang.Ty.Evidence
import LazyLang.Proofs.Subtyping.Union

/-!
# Variance

A type may change in two ways that do no harm: it takes more candidates, or more bases take it.
Every way of building types passes the two on, and the parameters of a function exchange them. So
when the evidence for a variable widens, what becomes of a type depends on where the variable stands
in it: `variablesAt true` are those in covariant places and `variablesAt false` those in
contravariant ones.
-/

namespace LazyLang.Ty

/-- Every candidate that `a` accepts is accepted by `b`. -/
def TakesMore (a b : Ty) : Prop := ∀ f : Ty, a.isSubtype f = true → b.isSubtype f = true

/-- Every base that accepts `a` accepts `b`. -/
def TakenMore (a b : Ty) : Prop := ∀ f : Ty, f.isSubtype a = true → f.isSubtype b = true

theorem TakesMore.refl (a : Ty) : TakesMore a a := fun _ h => h

theorem TakenMore.refl (a : Ty) : TakenMore a a := fun _ h => h

theorem takesMore_of_isPlain {a b : Ty}
    (h : ∀ t : Ty, t.isPlain = true → a.isSubtype t = true → b.isSubtype t = true) :
    TakesMore a b :=
  fun _ => accepts_of_parts h

theorem takenMore_of_isPlain {a b : Ty} (ha : a.isPlain = true) (hb : b.isPlain = true)
    (h : ∀ f : Ty, f.isPlain = true → f.isSubtype a = true → f.isSubtype b = true) :
    TakenMore a b :=
  fun f => accepts_of_isPlain ha hb h f

/-- A supertype takes more, as long as nothing slips through a variable of the smaller type. -/
theorem takesMore_of_isSubtype {a b : Ty} (ha : a.hasGenerics = false) (h : b.isSubtype a = true) :
    TakesMore a b :=
  fun _ => accepts_trans ha h

theorem TakesMore.array {a b : Ty} (h : TakesMore a b) : TakesMore (.array a) (.array b) := by
  refine takesMore_of_isPlain fun t ht hat => (accepts_array_iff ht).2 ?_
  refine ((accepts_array_iff ht).1 hat).imp_right ?_
  rintro ⟨own, rfl, hown⟩
  exact ⟨own, rfl, h own hown⟩

theorem TakenMore.array {a b : Ty} (h : TakenMore a b) : TakenMore (.array a) (.array b) := by
  refine takenMore_of_isPlain rfl rfl fun f hf hfa => ?_
  obtain ⟨own, rfl, hown⟩ := exists_of_accepts_array hf hfa
  exact (accepts_array_array).trans (h own hown)

theorem TakesMore.function {ps qs : List Ty} {r s : Ty} (hps : ps.Forall₂ TakenMore qs)
    (hr : TakesMore r s) : TakesMore (.function ps r) (.function qs s) := by
  refine takesMore_of_isPlain fun t ht hat => (accepts_function_iff ht).2 ?_
  obtain ⟨own, ownResult, rfl, hown, hownResult⟩ := (accepts_function_iff ht).1 hat
  refine ⟨own, ownResult, rfl, ?_, hr _ hownResult⟩
  exact forall₂_trans_of_mem hps.flip hown fun q p _ mine hpq hmine => hpq mine hmine

theorem TakenMore.function {ps qs : List Ty} {r s : Ty} (hps : ps.Forall₂ TakesMore qs)
    (hr : TakenMore r s) : TakenMore (.function ps r) (.function qs s) := by
  refine takenMore_of_isPlain rfl rfl fun f hf hfa => ?_
  obtain ⟨own, ownResult, rfl, hown, hownResult⟩ := exists_of_accepts_function hf hfa
  refine accepts_function_function.2 ⟨?_, hr _ hownResult⟩
  exact forall₂_trans_of_mem hown hps fun mine p _ q hmine hpq => hpq mine hmine

theorem TakesMore.unionOf {as bs : List Ty} (h : as.Forall₂ TakesMore bs) :
    TakesMore (Ty.unionOf as) (Ty.unionOf bs) := by
  refine takesMore_of_isPlain fun t ht hat => (accepts_unionOf_iff ht).2 ?_
  obtain ⟨a, ha, hat⟩ := (accepts_unionOf_iff ht).1 hat
  obtain ⟨b, hb, hab⟩ := exists_of_forall₂ h ha
  exact ⟨b, hb, hab t hat⟩

theorem TakenMore.unionOf {as bs : List Ty} (h : as.Forall₂ TakenMore bs) :
    TakenMore (Ty.unionOf as) (Ty.unionOf bs) := by
  intro f hf
  refine accepts_of_unionOf_iff.2 fun b hb => ?_
  obtain ⟨a, ha, hab⟩ := exists_of_forall₂ h.flip hb
  exact hab f (accepts_of_unionOf_iff.1 hf a ha)

mutual

/-- The variables that stand in covariant places of a type, or in contravariant ones. A bound is no
place of its own: it goes with its variable. -/
def variablesAt (covariant : Bool) : Ty → List String
  | generic name | constrained name _ => if covariant then [name] else []
  | array element => variablesAt covariant element
  | function params result => variablesEach (!covariant) params ++ variablesAt covariant result
  | union members => variablesEach covariant members
  | record fields => variablesFields covariant fields
  | integer | float | string | boolean | none | emptyArray => []

/-- The variables in such places of one of the types. -/
def variablesEach (covariant : Bool) : List Ty → List String
  | [] => []
  | a :: rest => variablesAt covariant a ++ variablesEach covariant rest

/-- The variables in such places of one of the fields. -/
def variablesFields (covariant : Bool) : List (String × Ty) → List String
  | [] => []
  | (_, a) :: rest => variablesAt covariant a ++ variablesFields covariant rest

end

theorem mem_variablesEach {covariant : Bool} {x : String} {types : List Ty} :
    x ∈ variablesEach covariant types ↔ ∃ a ∈ types, x ∈ a.variablesAt covariant := by
  induction types with
  | nil => simp [variablesEach]
  | cons head rest ih => simp [variablesEach, ih]

theorem mem_variablesFields {covariant : Bool} {x : String} {fields : List (String × Ty)} :
    x ∈ variablesFields covariant fields ↔ ∃ field ∈ fields, x ∈ field.2.variablesAt covariant := by
  induction fields with
  | nil => simp [variablesFields]
  | cons head rest ih => simp [variablesFields, ih]

theorem variablesAt_subset_each {covariant : Bool} {a : Ty} {types : List Ty} (ha : a ∈ types) :
    variablesAt covariant a ⊆ variablesEach covariant types :=
  fun _ hx => mem_variablesEach.2 ⟨a, ha, hx⟩

theorem variablesAt_subset_fields {covariant : Bool} {field : String × Ty}
    {fields : List (String × Ty)} (hf : field ∈ fields) :
    variablesAt covariant field.2 ⊆ variablesFields covariant fields :=
  fun _ hx => mem_variablesFields.2 ⟨field, hf, hx⟩

mutual

/-- Whether every record in the type names each of its fields once. -/
def FieldsDistinct : Ty → Prop
  | array element => FieldsDistinct element
  | function params result => FieldsDistinctEach params ∧ FieldsDistinct result
  | union members => FieldsDistinctEach members
  | constrained _ bound => FieldsDistinct bound
  | record fields => (fields.map (·.1)).Nodup ∧ FieldsDistinctAll fields
  | integer | float | string | boolean | none | emptyArray | generic _ => True

/-- Whether this is so for each of the types. -/
def FieldsDistinctEach : List Ty → Prop
  | [] => True
  | a :: rest => FieldsDistinct a ∧ FieldsDistinctEach rest

/-- Whether this is so for each of the fields. -/
def FieldsDistinctAll : List (String × Ty) → Prop
  | [] => True
  | (_, a) :: rest => FieldsDistinct a ∧ FieldsDistinctAll rest

end

theorem fieldsDistinctEach_iff {types : List Ty} :
    FieldsDistinctEach types ↔ ∀ a ∈ types, FieldsDistinct a := by
  induction types with
  | nil => simp [FieldsDistinctEach]
  | cons head rest ih => simp [FieldsDistinctEach, ih]

theorem fieldsDistinctAll_iff {fields : List (String × Ty)} :
    FieldsDistinctAll fields ↔ ∀ field ∈ fields, FieldsDistinct field.2 := by
  induction fields with
  | nil => simp [FieldsDistinctAll]
  | cons head rest ih => simp [FieldsDistinctAll, ih]

end LazyLang.Ty

namespace LazyLang.Evidence

open Ty

theorem substituteEach_eq_map (e : Evidence) (types : List Ty) :
    e.substituteEach types = types.map e.substitute := by
  induction types with
  | nil => rfl
  | cons head rest ih => rw [substituteEach, ih, List.map_cons]

theorem substituteFields_eq_map (e : Evidence) (fields : List (String × Ty)) :
    e.substituteFields fields = fields.map fun field => (field.1, e.substitute field.2) := by
  induction fields with
  | nil => rfl
  | cons head rest ih => rw [substituteFields, ih, List.map_cons]

/-- Substitution in a type without variables, which puts its unions in normal form, leaves none. -/
theorem hasGenerics_substitute (e : Evidence) {a : Ty} (h : a.hasGenerics = false) :
    (e.substitute a).hasGenerics = false := by
  induction a with
  | integer | float | string | boolean | none | emptyArray => rfl
  | array element ih => exact ih h
  | function params result ihparams ihresult =>
      rw [hasGenerics, Bool.or_eq_false_iff] at h
      rw [substitute, hasGenerics, Bool.or_eq_false_iff, substituteEach_eq_map,
        anyGenerics_eq_false_iff, List.forall_mem_map]
      exact ⟨fun p hp => ihparams p hp (hasGenerics_of_mem h.1 hp), ihresult h.2⟩
  | union members ih =>
      rw [substitute, substituteEach_eq_map]
      refine hasGenerics_unionOf (List.forall_mem_map.2 fun m hm => ?_)
      exact ih m hm (hasGenerics_of_mem h hm)
  | generic | constrained => cases h
  | record fields ih =>
      rw [substitute, substituteFields_eq_map, hasGenerics, anyFieldGenerics_eq_false_iff,
        List.forall_mem_map]
      exact fun field hf => ih field hf (hasGenerics_of_mem_fields h hf)

/-- A variable that has the same meaning in `n` as in `m`, or a wider one. -/
def Widened (m n : Evidence) (name : String) : Prop :=
  m.get? name = n.get? name ∨
    ∃ a b, m.get? name = some a ∧ n.get? name = some b ∧ a.hasGenerics = false ∧
      b.isSubtype a = true

theorem lookup_map_snd {name : String} {f : Ty → Ty} {fields : List (String × Ty)} :
    (fields.map fun field => (field.1, f field.2)).lookup name = (fields.lookup name).map f := by
  induction fields with
  | nil => rfl
  | cons head rest ih =>
      rw [List.map_cons, List.lookup_cons, List.lookup_cons, ih]
      cases name == head.1 <;> rfl

section Record

variable {f g : Ty → Ty} {fields : List (String × Ty)}

theorem takesMore_record (hn : (fields.map (·.1)).Nodup)
    (h : ∀ field ∈ fields, TakesMore (f field.2) (g field.2)) :
    TakesMore (.record (fields.map fun field => (field.1, f field.2)))
      (.record (fields.map fun field => (field.1, g field.2))) := by
  refine takesMore_of_isPlain fun t ht hft => (accepts_record_iff ht).2 ?_
  obtain ⟨own, rfl, hown⟩ := (accepts_record_iff ht).1 hft
  refine ⟨own, rfl, .inr fun field hfield => ?_⟩
  obtain ⟨entry, hentry, rfl⟩ := List.mem_map.1 hfield
  rcases hown with rfl | hown
  · refine ⟨f entry.2, ?_, h entry hentry _ (accepts_self _ _)⟩
    rw [lookup_map_snd, lookup_of_mem hn hentry]
    rfl
  · obtain ⟨mine, hmine, hacc⟩ := hown _ (List.mem_map_of_mem hentry)
    exact ⟨mine, hmine, h entry hentry mine hacc⟩

theorem takenMore_record (hn : (fields.map (·.1)).Nodup)
    (h : ∀ field ∈ fields, TakenMore (f field.2) (g field.2)) :
    TakenMore (.record (fields.map fun field => (field.1, f field.2)))
      (.record (fields.map fun field => (field.1, g field.2))) := by
  refine takenMore_of_isPlain rfl rfl fun b hb hbf => ?_
  obtain ⟨own, rfl, hown⟩ := exists_of_accepts_record hb hbf
  refine accepts_record_record.2 (.inr fun field hfield => ?_)
  rw [lookup_map_snd]
  rcases hown with rfl | hown
  · obtain ⟨entry, hentry, rfl⟩ := List.mem_map.1 hfield
    refine ⟨g entry.2, ?_, h entry hentry _ (accepts_self _ _)⟩
    rw [lookup_of_mem hn hentry]
    rfl
  · obtain ⟨mine, hmine, hacc⟩ := hown field hfield
    rw [lookup_map_snd, Option.map_eq_some_iff] at hmine
    obtain ⟨a, ha, rfl⟩ := hmine
    refine ⟨g a, ?_, h _ (mem_of_lookup ha) _ hacc⟩
    rw [ha]
    rfl

end Record

theorem Widened.takesMore {m n : Evidence} {name : String} (h : Widened m n name) (a : Ty) :
    TakesMore ((m.get? name).getD a) ((n.get? name).getD a) := by
  rcases h with heq | ⟨b, d, hb, hd, hgen, hsub⟩
  · rw [heq]
    exact .refl _
  · rw [hb, hd]
    exact takesMore_of_isSubtype hgen hsub

/-- Substituting wider evidence makes a type take more when the variables in its contravariant
places keep their meaning, and makes it taken by more when those in its covariant places do. -/
theorem substitute_variance {m n : Evidence} {a : Ty} (hd : a.FieldsDistinct) :
    ((∀ x ∈ a.variablesAt true, Widened m n x) →
      (∀ x ∈ a.variablesAt false, m.get? x = n.get? x) →
        TakesMore (m.substitute a) (n.substitute a)) ∧
    ((∀ x ∈ a.variablesAt false, Widened m n x) →
      (∀ x ∈ a.variablesAt true, m.get? x = n.get? x) →
        TakenMore (m.substitute a) (n.substitute a)) := by
  induction a with
  | integer | float | string | boolean | none | emptyArray =>
      exact ⟨fun _ _ => .refl _, fun _ _ => .refl _⟩
  | generic name =>
      constructor
      · exact fun hw _ => (hw name (List.mem_singleton_self name)).takesMore (.generic name)
      · intro _ hs
        rw [substitute, substitute, hs name (List.mem_singleton_self name)]
        exact .refl _
  | constrained name bound _ =>
      constructor
      · intro hw _
        exact (hw name (List.mem_singleton_self name)).takesMore (.constrained name bound)
      · intro _ hs
        rw [substitute, substitute, hs name (List.mem_singleton_self name)]
        exact .refl _
  | array element ih =>
      exact ⟨fun hw hs => ((ih hd).1 hw hs).array, fun hw hs => ((ih hd).2 hw hs).array⟩
  | function params result ihparams ihresult =>
      obtain ⟨hdp, hdr⟩ := hd
      rw [fieldsDistinctEach_iff] at hdp
      simp only [variablesAt, List.mem_append, Bool.not_true, Bool.not_false, substitute,
        substituteEach_eq_map]
      constructor
      · intro hw hs
        refine .function ?_
          ((ihresult hdr).1 (fun x hx => hw x (.inr hx)) fun x hx => hs x (.inr hx))
        rw [List.forall₂_map_left_iff, List.forall₂_map_right_iff, List.forall₂_same]
        intro p hp
        exact (ihparams p hp (hdp p hp)).2
          (fun x hx => hw x (.inl (variablesAt_subset_each hp hx)))
          fun x hx => hs x (.inl (variablesAt_subset_each hp hx))
      · intro hw hs
        refine .function ?_
          ((ihresult hdr).2 (fun x hx => hw x (.inr hx)) fun x hx => hs x (.inr hx))
        rw [List.forall₂_map_left_iff, List.forall₂_map_right_iff, List.forall₂_same]
        intro p hp
        exact (ihparams p hp (hdp p hp)).1
          (fun x hx => hw x (.inl (variablesAt_subset_each hp hx)))
          fun x hx => hs x (.inl (variablesAt_subset_each hp hx))
  | union members ih =>
      rw [FieldsDistinct, fieldsDistinctEach_iff] at hd
      simp only [variablesAt, substitute, substituteEach_eq_map]
      constructor
      · intro hw hs
        refine .unionOf ?_
        rw [List.forall₂_map_left_iff, List.forall₂_map_right_iff, List.forall₂_same]
        intro a ha
        exact (ih a ha (hd a ha)).1 (fun x hx => hw x (variablesAt_subset_each ha hx))
          fun x hx => hs x (variablesAt_subset_each ha hx)
      · intro hw hs
        refine .unionOf ?_
        rw [List.forall₂_map_left_iff, List.forall₂_map_right_iff, List.forall₂_same]
        intro a ha
        exact (ih a ha (hd a ha)).2 (fun x hx => hw x (variablesAt_subset_each ha hx))
          fun x hx => hs x (variablesAt_subset_each ha hx)
  | record fields ih =>
      obtain ⟨hnodup, hd⟩ := hd
      rw [fieldsDistinctAll_iff] at hd
      simp only [variablesAt, substitute, substituteFields_eq_map]
      constructor
      · intro hw hs
        refine takesMore_record hnodup fun field hf => ?_
        exact (ih field hf (hd field hf)).1 (fun x hx => hw x (variablesAt_subset_fields hf hx))
          fun x hx => hs x (variablesAt_subset_fields hf hx)
      · intro hw hs
        refine takenMore_record hnodup fun field hf => ?_
        exact (ih field hf (hd field hf)).2 (fun x hx => hw x (variablesAt_subset_fields hf hx))
          fun x hx => hs x (variablesAt_subset_fields hf hx)

end LazyLang.Evidence
