import LazyLang.Ty.Subtype
import Mathlib.Data.List.Forall2

/-!
# Subtyping by parts

Unions and variables are taken apart on both sides before two types meet. `parts` are the plain
types that a candidate consists of: the members of a union, the bound of a variable that has one,
and nothing for a variable without. A type accepts another just when it accepts each of its parts
(`accepts_iff_parts`), and what a plain candidate needs of a base is read off the base: nothing for
an unbound variable, its bound for a bound one, and some member for a union.
-/

namespace LazyLang.Ty

/-- Induction on types, with a hypothesis for every type of a list. -/
@[elab_as_elim, induction_eliminator]
theorem ind {motive : Ty → Prop} (integer : motive integer) (float : motive float)
    (string : motive string) (boolean : motive boolean) (none : motive none)
    (emptyArray : motive emptyArray) (array : ∀ element, motive element → motive (array element))
    (function : ∀ params result, (∀ p ∈ params, motive p) → motive result →
      motive (function params result))
    (union : ∀ members, (∀ m ∈ members, motive m) → motive (union members))
    (generic : ∀ name, motive (generic name))
    (constrained : ∀ name bound, motive bound → motive (constrained name bound))
    (record : ∀ fields, (∀ field ∈ fields, motive field.2) → motive (record fields)) (a : Ty) :
    motive a := by
  refine @Ty.rec motive (fun as => ∀ a ∈ as, motive a)
    (fun fields => ∀ field ∈ fields, motive field.2) (fun field => motive field.2)
    integer float string boolean none emptyArray array function union generic constrained record
    ?_ ?_ ?_ ?_ ?_ a
  · exact fun a ha => absurd ha List.not_mem_nil
  · exact fun head rest hhead hrest => List.forall_mem_cons.2 ⟨hhead, hrest⟩
  · exact fun field hfield => absurd hfield List.not_mem_nil
  · exact fun head rest hhead hrest => List.forall_mem_cons.2 ⟨hhead, hrest⟩
  · exact fun name field hfield => hfield

mutual

/-- The plain types that a candidate consists of. -/
def parts : Ty → List Ty
  | union members => partsAll members
  | constrained _ bound => parts bound
  | generic _ => []
  | other => [other]

/-- The parts of all the types. -/
def partsAll : List Ty → List Ty
  | [] => []
  | a :: rest => parts a ++ partsAll rest

end

theorem mem_partsAll {t : Ty} {types : List Ty} :
    t ∈ partsAll types ↔ ∃ a ∈ types, t ∈ parts a := by
  induction types with
  | nil => simp [partsAll]
  | cons head rest ih => simp [partsAll, ih]

/-- Whether the type is neither a union nor a variable. -/
def isPlain : Ty → Bool
  | union _ | constrained _ _ | generic _ => false
  | _ => true

theorem isPlain_of_mem_parts {t a : Ty} (h : t ∈ parts a) : t.isPlain = true := by
  induction a with
  | union members ih =>
      obtain ⟨m, hm, ht⟩ := mem_partsAll.1 h
      exact ih m hm ht
  | constrained name bound ih => exact ih h
  | generic name => cases h
  | _ =>
      cases List.mem_singleton.1 h
      rfl

theorem acceptsEach_iff {c : Coercion} {base : Ty} {others : List Ty} :
    acceptsEach c base others = true ↔ ∀ other ∈ others, accepts c base other = true := by
  induction others with
  | nil => simp [acceptsEach]
  | cons head rest ih => simp [acceptsEach, ih]

theorem someAccepts_iff {c : Coercion} {bases : List Ty} {other : Ty} :
    someAccepts c bases other = true ↔ ∃ base ∈ bases, accepts c base other = true := by
  induction bases with
  | nil => simp [someAccepts]
  | cons head rest ih => simp [someAccepts, ih]

theorem acceptsParams_iff {c : Coercion} {params own : List Ty} :
    acceptsParams c params own = true ↔
      params.Forall₂ (fun param mine => accepts c mine param = true) own := by
  induction params generalizing own with
  | nil => cases own <;> simp [acceptsParams]
  | cons head rest ih => cases own <;> simp [acceptsParams, ih]

theorem acceptsFields_iff {c : Coercion} {fields own : List (String × Ty)} :
    acceptsFields c fields own = true ↔
      ∀ field ∈ fields, ∃ mine, own.lookup field.1 = some mine ∧ accepts c field.2 mine = true := by
  induction fields with
  | nil => simp [acceptsFields]
  | cons head rest ih =>
      obtain ⟨name, field⟩ := head
      rw [acceptsFields, Bool.and_eq_true, ih, List.forall_mem_cons]
      refine and_congr_left fun _ => ?_
      split
      · next mine hmine => simp [hmine]
      · next hnone => simp [hnone]

@[simp] theorem accepts_self (c : Coercion) (a : Ty) : accepts c a a = true := by
  rw [accepts.eq_def]
  simp

@[simp] theorem accepts_generic (c : Coercion) (name : String) (t : Ty) :
    accepts c (generic name) t = true := by
  rw [accepts.eq_def]
  simp

/-- A candidate that is an unbound variable is accepted by everything. -/
@[simp] theorem accepts_of_generic (c : Coercion) (a : Ty) (name : String) :
    accepts c a (generic name) = true := by
  rw [accepts.eq_def]
  cases a <;> simp

section Plain

variable {c : Coercion} {t : Ty}

theorem accepts_constrained (name : String) (bound : Ty) (ht : t.isPlain = true) :
    accepts c (constrained name bound) t = accepts c bound t := by
  rw [accepts.eq_def]
  cases t <;> first | rfl | cases ht

theorem accepts_union (members : List Ty) (ht : t.isPlain = true) :
    accepts c (union members) t = someAccepts c members t := by
  rw [accepts.eq_def]
  cases t <;> first | rfl | cases ht

theorem accepts_union_iff {members : List Ty} (ht : t.isPlain = true) :
    accepts c (union members) t = true ↔ ∃ m ∈ members, accepts c m t = true := by
  rw [accepts_union members ht, someAccepts_iff]

end Plain

theorem accepts_part {c : Coercion} {a t : Ty} (h : t ∈ parts a) : accepts c a t = true := by
  induction a with
  | union members ih =>
      obtain ⟨m, hm, ht⟩ := mem_partsAll.1 h
      exact (accepts_union_iff (isPlain_of_mem_parts ht)).2 ⟨m, hm, ih m hm ht⟩
  | constrained name bound ih =>
      rw [accepts_constrained name bound (isPlain_of_mem_parts (a := bound) h)]
      exact ih h
  | generic name => cases h
  | _ =>
      cases List.mem_singleton.1 h
      exact accepts_self c _

/-- Whether a base is judged by its own shape rather than by that of its bound. -/
def isVariable : Ty → Bool
  | generic _ | constrained _ _ => true
  | _ => false

section Candidate

variable {c : Coercion}

theorem accepts_constrained_union (name : String) (bound : Ty) (members : List Ty) :
    accepts c (constrained name bound) (union members) = accepts c bound (union members) := by
  rw [accepts.eq_def]
  rfl

theorem accepts_union_candidate {a : Ty} (ha : a.isVariable = false) (members : List Ty) :
    accepts c a (union members) = (a == union members || acceptsEach c a members) := by
  rw [accepts.eq_def]
  cases a <;> first | rfl | cases ha

theorem accepts_constrained_constrained (x y : String) (bound own : Ty) :
    accepts c (constrained x bound) (constrained y own) =
      (constrained x bound == constrained y own || accepts c bound own) := by
  rw [accepts.eq_def]

theorem accepts_constrained_candidate {a : Ty} (ha : a.isVariable = false) (name : String)
    (own : Ty) : accepts c a (constrained name own) = accepts c a own := by
  rw [accepts.eq_def]
  cases a <;> first | rfl | cases ha

end Candidate

/-- A candidate is accepted when each of its parts is. -/
theorem accepts_iff_parts {c : Coercion} {a b : Ty} :
    accepts c a b = true ↔ ∀ t ∈ parts b, accepts c a t = true := by
  induction b generalizing a with
  | union members ih =>
      induction a with
      | generic name => simp
      | constrained name bound ihbound =>
          rw [accepts_constrained_union, ihbound]
          refine forall₂_congr fun t ht => ?_
          rw [accepts_constrained name bound (isPlain_of_mem_parts ht)]
      | _ =>
          rw [accepts_union_candidate rfl, Bool.or_eq_true, beq_iff_eq, acceptsEach_iff]
          constructor
          · rintro (heq | heach) t ht
            · exact accepts_part (heq ▸ ht)
            · obtain ⟨m, hm, htm⟩ := mem_partsAll.1 ht
              exact (ih m hm).1 (heach m hm) t htm
          · intro h
            exact .inr fun m hm => (ih m hm).2 fun t ht => h t (mem_partsAll.2 ⟨m, hm, ht⟩)
  | constrained name own ih =>
      cases a with
      | generic name => simp
      | constrained x bound =>
          rw [accepts_constrained_constrained, Bool.or_eq_true, beq_iff_eq, ih]
          constructor
          · rintro (heq | h) t ht
            · exact accepts_part (heq ▸ ht)
            · rw [accepts_constrained x bound (isPlain_of_mem_parts ht)]
              exact h t ht
          · intro h
            refine .inr fun t ht => ?_
            rw [← accepts_constrained x bound (isPlain_of_mem_parts ht)]
            exact h t ht
      | _ =>
          rw [accepts_constrained_candidate rfl, ih]
          rfl
  | generic name => simp [parts]
  | _ => simp [parts]

/-- A variable with a bound is accepted where its bound is. -/
theorem accepts_bound_iff {c : Coercion} {a own : Ty} {name : String} :
    accepts c a (constrained name own) = true ↔ accepts c a own = true := by
  rw [accepts_iff_parts, accepts_iff_parts (b := own)]
  rfl

/-- What holds of plain bases holds of all, since every other base comes down to plain ones. -/
theorem accepts_of_isPlain {c d : Coercion} {t u : Ty} (ht : t.isPlain = true)
    (hu : u.isPlain = true)
    (h : ∀ b : Ty, b.isPlain = true → accepts c b t = true → accepts d b u = true) (a : Ty)
    (ha : accepts c a t = true) : accepts d a u = true := by
  induction a with
  | union members ih =>
      obtain ⟨m, hm, hmt⟩ := (accepts_union_iff ht).1 ha
      exact (accepts_union_iff hu).2 ⟨m, hm, ih m hm hmt⟩
  | generic name => exact accepts_generic d name u
  | constrained name bound ih =>
      rw [accepts_constrained name bound ht] at ha
      rw [accepts_constrained name bound hu]
      exact ih ha
  | _ => exact h _ rfl ha

section Shapes

variable {c : Coercion} {t : Ty}

/-- Scalar types whose values are of no other type. -/
def isScalar : Ty → Bool
  | integer | string | none | emptyArray => true
  | _ => false

theorem accepts_scalar_iff {a : Ty} (ha : a.isScalar = true) (ht : t.isPlain = true) :
    accepts c a t = true ↔ t = a := by
  rw [accepts.eq_def]
  cases a <;> simp [isScalar] at ha <;> cases t <;> simp [isPlain] at ht ⊢

theorem accepts_float_iff (ht : t.isPlain = true) :
    accepts c float t = true ↔ t = float ∨ t = integer := by
  rw [accepts.eq_def]
  cases t <;> simp [isPlain] at ht ⊢

theorem accepts_boolean_iff (ht : t.isPlain = true) :
    accepts c boolean t = true ↔
      t = boolean ∨ c = .truthiness ∧ (t = integer ∨ t = float) := by
  rw [accepts.eq_def]
  cases t <;> simp [isPlain] at ht ⊢

theorem accepts_array_array {element own : Ty} :
    accepts c (array element) (array own) = accepts c element own := by
  rw [accepts.eq_def]
  by_cases h : element = own
  · simp [h]
  · simp [h]

theorem accepts_array_iff {element : Ty} (ht : t.isPlain = true) :
    accepts c (array element) t = true ↔
      t = emptyArray ∨ ∃ own, t = array own ∧ accepts c element own = true := by
  cases t with
  | array own => simp [accepts_array_array]
  | emptyArray =>
      rw [accepts.eq_def]
      simp
  | _ =>
      rw [accepts.eq_def]
      simp [isPlain] at ht ⊢

theorem acceptsParams_self (params : List Ty) : acceptsParams c params params = true := by
  rw [acceptsParams_iff]
  exact List.forall₂_same.2 fun p _ => accepts_self c p

theorem accepts_function_function {params own : List Ty} {result ownResult : Ty} :
    accepts c (function params result) (function own ownResult) = true ↔
      params.Forall₂ (fun param mine => accepts c mine param = true) own ∧
        accepts c result ownResult = true := by
  rw [accepts.eq_def, ← acceptsParams_iff]
  by_cases h : function params result = function own ownResult
  · cases h
    simp [acceptsParams_self]
  · simp [h]

theorem accepts_function_iff {params : List Ty} {result : Ty} (ht : t.isPlain = true) :
    accepts c (function params result) t = true ↔
      ∃ own ownResult, t = function own ownResult ∧
        params.Forall₂ (fun param mine => accepts c mine param = true) own ∧
          accepts c result ownResult = true := by
  cases t with
  | function own ownResult => simp [accepts_function_function]
  | _ =>
      rw [accepts.eq_def]
      simp [isPlain] at ht ⊢

theorem accepts_record_record {fields own : List (String × Ty)} :
    accepts c (record fields) (record own) = true ↔
      fields = own ∨ ∀ field ∈ fields,
        ∃ mine, own.lookup field.1 = some mine ∧ accepts c field.2 mine = true := by
  rw [accepts.eq_def, ← acceptsFields_iff]
  simp

theorem accepts_record_iff {fields : List (String × Ty)} (ht : t.isPlain = true) :
    accepts c (record fields) t = true ↔
      ∃ own, t = record own ∧ (fields = own ∨ ∀ field ∈ fields,
        ∃ mine, own.lookup field.1 = some mine ∧ accepts c field.2 mine = true) := by
  cases t with
  | record own => simp [accepts_record_record]
  | _ =>
      rw [accepts.eq_def]
      simp [isPlain] at ht ⊢

end Shapes

section Bases

variable {c : Coercion} {b : Ty}

/-- A plain type that accepts arrays is an array type, and so on for the other shapes. -/
theorem exists_of_accepts_array {element : Ty} (hb : b.isPlain = true)
    (h : accepts c b (array element) = true) :
    ∃ own, b = array own ∧ accepts c own element = true := by
  rw [accepts.eq_def] at h
  cases b <;> simp [isPlain] at hb h
  next own =>
    refine ⟨own, rfl, ?_⟩
    rcases h with rfl | h
    · exact accepts_self c own
    · exact h

theorem exists_of_accepts_function {params : List Ty} {result : Ty} (hb : b.isPlain = true)
    (h : accepts c b (function params result) = true) :
    ∃ own ownResult, b = function own ownResult ∧
      own.Forall₂ (fun mine param => accepts c param mine = true) params ∧
        accepts c ownResult result = true := by
  cases b with
  | function own ownResult => exact ⟨own, ownResult, rfl, accepts_function_function.1 h⟩
  | _ =>
      rw [accepts.eq_def] at h
      simp [isPlain] at hb h

theorem exists_of_accepts_record {fields : List (String × Ty)} (hb : b.isPlain = true)
    (h : accepts c b (record fields) = true) :
    ∃ own, b = record own ∧ (own = fields ∨ ∀ field ∈ own,
      ∃ mine, fields.lookup field.1 = some mine ∧ accepts c field.2 mine = true) := by
  cases b with
  | record own => exact ⟨own, rfl, accepts_record_record.1 h⟩
  | _ =>
      rw [accepts.eq_def] at h
      simp [isPlain] at hb h

theorem accepts_integer_of_float (hb : b.isPlain = true) (h : accepts c b float = true) :
    accepts c b integer = true := by
  rw [accepts.eq_def] at h ⊢
  cases b <;> simp [isPlain] at hb h ⊢
  exact h

theorem eq_boolean_of_accepts (hb : b.isPlain = true) (h : accepts c b boolean = true) :
    b = boolean := by
  rw [accepts.eq_def] at h
  cases b <;> simp [isPlain] at hb h ⊢

end Bases

theorem accepts_of_mem_union {c : Coercion} {a m : Ty} {members : List Ty}
    (h : accepts c a (union members) = true) (hm : m ∈ members) : accepts c a m = true := by
  rw [accepts_iff_parts] at h ⊢
  exact fun t ht => h t (mem_partsAll.2 ⟨m, hm, ht⟩)

theorem hasGenerics_of_mem {a : Ty} {types : List Ty} (h : anyGenerics types = false)
    (ha : a ∈ types) : a.hasGenerics = false := by
  induction types with
  | nil => cases ha
  | cons head rest ih =>
      rw [anyGenerics, Bool.or_eq_false_iff] at h
      rcases List.mem_cons.1 ha with rfl | ha
      · exact h.1
      · exact ih h.2 ha

theorem hasGenerics_of_mem_fields {field : String × Ty} {fields : List (String × Ty)}
    (h : anyFieldGenerics fields = false) (hf : field ∈ fields) : field.2.hasGenerics = false := by
  induction fields with
  | nil => cases hf
  | cons head rest ih =>
      rw [anyFieldGenerics, Bool.or_eq_false_iff] at h
      rcases List.mem_cons.1 hf with rfl | hf
      · exact h.1
      · exact ih h.2 hf

theorem mem_of_lookup {α : Type*} {name : String} {value : α} {entries : List (String × α)}
    (h : entries.lookup name = some value) : (name, value) ∈ entries := by
  induction entries with
  | nil => simp at h
  | cons head rest ih =>
      obtain ⟨other, own⟩ := head
      rw [List.lookup_cons] at h
      split at h
      · next heq =>
          cases h
          rw [beq_iff_eq.1 heq]
          exact List.mem_cons_self
      · exact List.mem_cons_of_mem _ (ih h)

theorem lookup_of_mem {α : Type*} {entry : String × α} {entries : List (String × α)}
    (hn : (entries.map (·.1)).Nodup) (he : entry ∈ entries) :
    entries.lookup entry.1 = some entry.2 := by
  induction entries with
  | nil => cases he
  | cons head rest ih =>
      rw [List.map_cons, List.nodup_cons] at hn
      rw [List.lookup_cons]
      rcases List.mem_cons.1 he with rfl | he
      · simp
      · have hne : (entry.1 == head.1) = false := by
          rw [beq_eq_false_iff_ne]
          exact fun heq => hn.1 (heq ▸ List.mem_map_of_mem he)
        rw [hne]
        exact ih hn.2 he

/-- What holds of plain candidates holds of all, since every other candidate comes down to them. -/
theorem accepts_of_parts {c d : Coercion} {a b : Ty}
    (h : ∀ t : Ty, t.isPlain = true → accepts c a t = true → accepts d b t = true) {f : Ty}
    (hf : accepts c a f = true) : accepts d b f = true := by
  rw [accepts_iff_parts] at hf ⊢
  exact fun t ht => h t (isPlain_of_mem_parts ht) (hf t ht)

theorem forall₂_trans_of_mem {α β γ : Type*} {R : α → β → Prop} {S : β → γ → Prop}
    {T : α → γ → Prop} {as : List α} {bs : List β} {cs : List γ} (hR : as.Forall₂ R bs)
    (hS : bs.Forall₂ S cs) (h : ∀ a, ∀ b ∈ bs, ∀ c, R a b → S b c → T a c) : as.Forall₂ T cs := by
  induction hR generalizing cs with
  | nil =>
      cases hS
      exact .nil
  | cons hab _ ih =>
      cases hS with
      | cons hbc hS =>
          exact .cons (h _ _ List.mem_cons_self _ hab hbc)
            (ih hS fun a b hb => h a b (List.mem_cons_of_mem _ hb))

theorem exists_of_forall₂ {α β : Type*} {R : α → β → Prop} {as : List α} {bs : List β} {a : α}
    (h : as.Forall₂ R bs) (ha : a ∈ as) : ∃ b ∈ bs, R a b := by
  induction h with
  | nil => cases ha
  | cons hab _ ih =>
      rcases List.mem_cons.1 ha with rfl | ha
      · exact ⟨_, List.mem_cons_self, hab⟩
      · obtain ⟨b, hb, hab⟩ := ih ha
        exact ⟨b, List.mem_cons_of_mem _ hb, hab⟩

theorem forall₂_imp_of_mem {α β : Type*} {R S : α → β → Prop} {as : List α} {bs : List β}
    (h : as.Forall₂ R bs) (himp : ∀ a ∈ as, ∀ b ∈ bs, R a b → S a b) : as.Forall₂ S bs := by
  induction h with
  | nil => exact .nil
  | cons hab _ ih =>
      refine .cons (himp _ List.mem_cons_self _ List.mem_cons_self hab) (ih fun a ha b hb => ?_)
      exact himp a (List.mem_cons_of_mem _ ha) b (List.mem_cons_of_mem _ hb)

/-- The shapes that a strict base does not tell from others accept without truth values as well. -/
theorem accepts_truthiness_of_isPlain {b t : Ty} (hb : b.isPlain = true)
    (ht : t.isScalar = true ∨ t = float ∨ t = boolean) (h : accepts .strict b t = true) :
    accepts .truthiness b t = true := by
  rw [accepts.eq_def] at h ⊢
  rcases ht with ht | rfl | rfl <;> cases b <;> simp [isPlain] at hb h ⊢
  all_goals cases t <;> simp [isScalar] at ht h ⊢

/-- What is accepted strictly is accepted with numbers as truth values too. Both sides are needed
for the induction, since parameters swap them. -/
theorem accepts_of_strict_aux (a : Ty) :
    (∀ b, accepts .strict a b = true → accepts .truthiness a b = true) ∧
      ∀ b, accepts .strict b a = true → accepts .truthiness b a = true := by
  induction a with
  | union members ih =>
      constructor
      · refine fun b => accepts_of_parts fun t ht h => ?_
        obtain ⟨m, hm, hmt⟩ := (accepts_union_iff ht).1 h
        exact (accepts_union_iff ht).2 ⟨m, hm, (ih m hm).1 t hmt⟩
      · intro b h
        rw [accepts_iff_parts]
        intro t ht
        obtain ⟨m, hm, htm⟩ := mem_partsAll.1 ht
        exact accepts_iff_parts.1 ((ih m hm).2 b (accepts_of_mem_union h hm)) t htm
  | generic name =>
      exact ⟨fun b _ => accepts_generic _ name b, fun b _ => accepts_of_generic _ b name⟩
  | constrained name bound ih =>
      constructor
      · refine fun b => accepts_of_parts fun t ht h => ?_
        rw [accepts_constrained name bound ht] at h ⊢
        exact ih.1 t h
      · intro b h
        rw [accepts_bound_iff] at h ⊢
        exact ih.2 b h
  | integer | string | none | emptyArray =>
      constructor
      · refine fun b => accepts_of_parts fun t ht h => ?_
        rw [accepts_scalar_iff rfl ht] at h ⊢
        exact h
      · exact fun b => accepts_of_isPlain rfl rfl
          (fun b hb h => accepts_truthiness_of_isPlain hb (.inl rfl) h) b
  | float =>
      constructor
      · refine fun b => accepts_of_parts fun t ht h => ?_
        rw [accepts_float_iff ht] at h ⊢
        exact h
      · exact fun b => accepts_of_isPlain rfl rfl
          (fun b hb h => accepts_truthiness_of_isPlain hb (.inr (.inl rfl)) h) b
  | boolean =>
      constructor
      · refine fun b => accepts_of_parts fun t ht h => ?_
        rw [accepts_boolean_iff ht] at h ⊢
        rcases h with rfl | ⟨hc, -⟩
        · exact .inl rfl
        · cases hc
      · exact fun b => accepts_of_isPlain rfl rfl
          (fun b hb h => accepts_truthiness_of_isPlain hb (.inr (.inr rfl)) h) b
  | array element ih =>
      constructor
      · refine fun b => accepts_of_parts fun t ht h => ?_
        rw [accepts_array_iff ht] at h ⊢
        exact h.imp_right fun ⟨own, heq, hown⟩ => ⟨own, heq, ih.1 own hown⟩
      · refine fun b => accepts_of_isPlain rfl rfl (fun b hb h => ?_) b
        obtain ⟨own, rfl, hown⟩ := exists_of_accepts_array hb h
        rw [accepts_array_array]
        exact ih.2 own hown
  | function params result ihparams ihresult =>
      constructor
      · refine fun b => accepts_of_parts fun t ht h => ?_
        rw [accepts_function_iff ht] at h ⊢
        obtain ⟨own, ownResult, rfl, hparams, hresult⟩ := h
        refine ⟨own, ownResult, rfl, ?_, ihresult.1 _ hresult⟩
        exact forall₂_imp_of_mem hparams fun p hp mine _ h => (ihparams p hp).2 mine h
      · refine fun b => accepts_of_isPlain rfl rfl (fun b hb h => ?_) b
        obtain ⟨own, ownResult, rfl, hparams, hresult⟩ := exists_of_accepts_function hb h
        refine accepts_function_function.2 ⟨?_, ihresult.2 _ hresult⟩
        exact (forall₂_imp_of_mem hparams.flip fun p hp mine _ h => (ihparams p hp).1 mine h).flip
  | record fields ih =>
      constructor
      · refine fun b => accepts_of_parts fun t ht h => ?_
        rw [accepts_record_iff ht] at h ⊢
        obtain ⟨own, rfl, h⟩ := h
        refine ⟨own, rfl, h.imp_right fun h field hfield => ?_⟩
        obtain ⟨mine, hmine, hm⟩ := h field hfield
        exact ⟨mine, hmine, (ih field hfield).1 mine hm⟩
      · refine fun b => accepts_of_isPlain rfl rfl (fun b hb h => ?_) b
        obtain ⟨own, rfl, hown⟩ := exists_of_accepts_record hb h
        refine accepts_record_record.2 (hown.imp_right fun h field hfield => ?_)
        obtain ⟨mine, hmine, hm⟩ := h field hfield
        exact ⟨mine, hmine, (ih _ (mem_of_lookup hmine)).2 field.2 hm⟩

/-- Strict subtypes are subtypes. -/
theorem accepts_of_strict {c : Coercion} {a b : Ty} (h : accepts .strict a b = true) :
    accepts c a b = true := by
  cases c with
  | truthiness => exact (accepts_of_strict_aux a).1 b h
  | strict => exact h

end LazyLang.Ty
