import LazyLang.Proofs.Calls
import LazyLang.Proofs.Evidence.Stability

/-!
# Which variables an accepted argument resolves

Whether a parameter accepts an argument and what the argument tells of the variables are two walks
over the same two types. They part in two places. Acceptance takes a union apart, and the other walk
does not follow it into the members. And where the roles of the two types are exchanged, in the
parameters of functions, a record may lack fields of the other one. A variable is `Hidden` if it
stands in such places only, and the argument resolves all others (`get?_ofArgument_eq_none_iff`), so
they do not stand in the type of a call (`resolved_of_isSubtype`).
-/

namespace LazyLang.Evidence

open Ty

/-- Whether every place of the variable in the first type is out of reach of the second one: it is
inside a type that meets a union, or, in contravariant places, inside a field that the other record
lacks. -/
inductive Hidden (x : String) : Bool → Ty → Ty → Prop
  | absent {covariant : Bool} {a b : Ty} (h : ¬ Occurs x a) : Hidden x covariant a b
  | union {covariant : Bool} {a : Ty} {members : List Ty} (h : a.isVariable = false) :
    Hidden x covariant a (.union members)
  | array {covariant : Bool} {element own : Ty} (h : Hidden x covariant element own) :
    Hidden x covariant (.array element) (.array own)
  | function {covariant : Bool} {params own : List Ty} {result ownResult : Ty}
    (hparams : ∀ pair ∈ params.zip own, Hidden x (!covariant) pair.1 pair.2)
    (hresult : Hidden x covariant result ownResult) :
    Hidden x covariant (.function params result) (.function own ownResult)
  | record {covariant : Bool} {fields own : List (String × Ty)}
    (hmet : ∀ field ∈ fields, ∀ mine, own.lookup field.1 = some mine →
      Hidden x covariant field.2 mine)
    (hlacking : ∀ field ∈ fields, own.lookup field.1 = Option.none → covariant = true →
      ¬ Occurs x field.2) :
    Hidden x covariant (.record fields) (.record own)

section Meets

/-- The first type accepts the second one, or in contravariant places the second one the first. -/
def Meets (covariant : Bool) (a b : Ty) : Prop :=
  if covariant then a.isSubtype b = true else b.isSubtype a = true

variable {covariant : Bool} {element result b : Ty} {params : List Ty}
  {fields : List (String × Ty)}

theorem Meets.array (h : Meets covariant (.array element) b) (hb : b.isPlain = true) :
    b = .emptyArray ∨ ∃ own, b = .array own ∧ Meets covariant element own := by
  cases covariant with
  | false => exact .inr (exists_of_accepts_array hb h)
  | true => exact (accepts_array_iff hb).1 h

theorem Meets.function (h : Meets covariant (.function params result) b) (hb : b.isPlain = true) :
    ∃ own ownResult, b = .function own ownResult ∧ params.Forall₂ (Meets (!covariant)) own ∧
      Meets covariant result ownResult := by
  cases covariant with
  | false =>
      obtain ⟨own, ownResult, rfl, hown, hresult⟩ := exists_of_accepts_function hb h
      exact ⟨own, ownResult, rfl, hown.flip, hresult⟩
  | true => exact (accepts_function_iff hb).1 h

/-- Only a record in a contravariant place may lack fields. -/
theorem Meets.record (hn : (fields.map (·.1)).Nodup) (h : Meets covariant (.record fields) b)
    (hb : b.isPlain = true) :
    ∃ own, b = .record own ∧ ∀ field ∈ fields,
      (∀ mine, own.lookup field.1 = some mine → Meets covariant field.2 mine) ∧
        (own.lookup field.1 = Option.none → covariant = false) := by
  have hsame (field : String × Ty) (hf : field ∈ fields) :
      (∀ mine, fields.lookup field.1 = some mine → Meets covariant field.2 mine) ∧
        (fields.lookup field.1 = Option.none → covariant = false) := by
    rw [lookup_of_mem hn hf]
    refine ⟨fun mine hmine => ?_, fun hnone => by cases hnone⟩
    cases hmine
    cases covariant <;> exact accepts_self _ _
  cases covariant with
  | false =>
      obtain ⟨own, rfl, hown⟩ := exists_of_accepts_record hb h
      refine ⟨own, rfl, ?_⟩
      rcases hown with rfl | hown
      · exact hsame
      · refine fun field hf => ⟨fun mine hmine => ?_, fun _ => rfl⟩
        obtain ⟨back, hback, hacc⟩ := hown _ (mem_of_lookup hmine)
        rw [lookup_of_mem hn hf] at hback
        cases hback
        exact hacc
  | true =>
      obtain ⟨own, rfl, hown⟩ := (accepts_record_iff hb).1 h
      refine ⟨own, rfl, ?_⟩
      rcases hown with rfl | hown
      · exact hsame
      · intro field hf
        obtain ⟨mine, hmine, hacc⟩ := hown field hf
        rw [hmine]
        exact ⟨fun own hown => by cases hown; exact hacc, fun hnone => by cases hnone⟩

end Meets

section Known

variable {x : String} {e : Evidence}

/-- Something is known of the variable. -/
structure Known (x : String) (e : Evidence) : Prop where
  wellFormed : e.WellFormed
  known : e.get? x ≠ Option.none

theorem Known.grows {e' : Evidence} (h : Known x e) (h' : e'.WellFormed) (hgrows : e.Grows e') :
    Known x e' := by
  obtain ⟨a, ha⟩ := Option.ne_none_iff_exists'.1 h.known
  obtain ⟨b, hb, -⟩ := hgrows x a ha
  exact ⟨h', Option.ne_none_iff_exists'.2 ⟨b, hb⟩⟩

theorem Known.insert (h : Known x e) (name : String) {a : Ty} (ha : a.hasGenerics = false) :
    Known x (e.insert name a) :=
  h.grows (h.wellFormed.insert name ha) (grows_insert h.wellFormed name a)

theorem Known.collect (h : Known x e) (a b : Ty) : Known x (collect a b e) :=
  collect_preserves .true (fun _ name _ ha _ he => he.insert name ha) a trivial e h

theorem Known.collectParams (h : Known x e) (params own : List Ty) :
    Known x (collectParams params own e) :=
  collectParams_preserves (R := fun _ => True) (fun p _ mine _ _ he => he.collect p mine)
    (fun _ _ => trivial) e h

theorem Known.collectFields (h : Known x e) (fields own : List (String × Ty)) :
    Known x (collectFields fields own e) :=
  collectFields_preserves (R := fun _ => True) (fun f _ mine _ _ he => he.collect f.2 mine)
    (fun _ _ => trivial) e h

end Known

section Reached

variable {x : String} {covariant : Bool}

/-- Of the parameters, one tells something of the variable, or it is hidden in all of them. -/
theorem known_or_hidden_params {params own : List Ty}
    (h : params.Forall₂ (fun p mine => ∀ e : Evidence, e.WellFormed →
      Known x (collect p mine e) ∨ Hidden x covariant p mine) own) (e : Evidence)
    (he : e.WellFormed) :
    Known x (collectParams params own e) ∨
      ∀ pair ∈ params.zip own, Hidden x covariant pair.1 pair.2 := by
  induction h generalizing e with
  | nil => exact .inr fun _ hpair => absurd hpair List.not_mem_nil
  | @cons p mine params own hhead _ ih =>
      rw [collectParams]
      rcases hhead e he with hknown | hhidden
      · exact .inl (hknown.collectParams params own)
      · refine (ih _ (he.collect p mine)).imp_right fun hrest => ?_
        exact List.forall_mem_cons.2 ⟨hhidden, hrest⟩

/-- Of the fields that meet one, one tells something of the variable, or it is hidden in all of
them. -/
theorem known_or_hidden_fields {fields own : List (String × Ty)}
    (h : ∀ field ∈ fields, ∀ mine, own.lookup field.1 = some mine → ∀ e : Evidence, e.WellFormed →
      Known x (collect field.2 mine e) ∨ Hidden x covariant field.2 mine) (e : Evidence)
    (he : e.WellFormed) :
    Known x (collectFields fields own e) ∨
      ∀ field ∈ fields, ∀ mine, own.lookup field.1 = some mine →
        Hidden x covariant field.2 mine := by
  induction fields generalizing e with
  | nil => exact .inr fun _ hfield => absurd hfield List.not_mem_nil
  | cons field rest ih =>
      rw [List.forall_mem_cons] at h ⊢
      rw [collectFields]
      cases hmine : own.lookup field.1 with
      | none =>
          refine (ih h.2 e he).imp_right fun hrest => ⟨?_, hrest⟩
          rintro _ ⟨⟩
      | some mine =>
          rcases h.1 mine hmine e he with hknown | hhidden
          · exact .inl (hknown.collectFields rest own)
          · refine (ih h.2 _ (he.collect field.2 mine)).imp_right fun hrest => ⟨?_, hrest⟩
            rintro _ ⟨⟩
            exact hhidden

/-- Whether the type is without variables and, at any depth, without the type of empty arrays. -/
def Filled (b : Ty) : Prop := b.hasGenerics = false ∧ b.Everywhere (· ≠ .emptyArray)

theorem inherited_filled : Inherited Filled where
  element h := ⟨h.1, (inherited_everywhere _).element h.2⟩
  param h p hp :=
    ⟨hasGenerics_of_mem (Bool.or_eq_false_iff.1 h.1).1 hp, (inherited_everywhere _).param h.2 p hp⟩
  result h := ⟨(Bool.or_eq_false_iff.1 h.1).2, (inherited_everywhere _).result h.2⟩
  member h m hm := ⟨hasGenerics_of_mem h.1 hm, (inherited_everywhere _).member h.2 m hm⟩
  field h f hf := ⟨hasGenerics_of_mem_fields h.1 hf, (inherited_everywhere _).field h.2 f hf⟩

theorem isPlain_or_eq_union {b : Ty} (h : b.hasGenerics = false) :
    b.isPlain = true ∨ ∃ members, b = .union members := by
  cases b with
  | generic | constrained => cases h
  | union members => exact .inr ⟨members, rfl⟩
  | _ => exact .inl rfl

theorem known_noted {e : Evidence} (he : e.WellFormed) (x : String) {b : Ty}
    (hb : b.hasGenerics = false) : Known x (noted x b e) :=
  ⟨he.noted x b, by rw [get?_noted_self he x hb]; exact Option.some_ne_none _⟩

/-- Where one type accepts the other, something is known of a variable afterwards, or it is
hidden. -/
theorem known_or_hidden {a b : Ty} (ha : a.Everywhere (·.isUnion = false)) (hd : a.FieldsDistinct)
    (hb : Filled b) (h : Meets covariant a b) {e : Evidence} (he : e.WellFormed) :
    Known x (collect a b e) ∨ Hidden x covariant a b := by
  induction a generalizing covariant b e with
  | integer | float | string | boolean | none | emptyArray =>
      exact .inr (.absent (not_occurs_of_ground rfl))
  | generic name =>
      by_cases hx : x = name
      · rw [hx, collect_generic]
        exact .inl (known_noted he name hb.1)
      · exact .inr (.absent fun hoccurs => hx (occurs_generic.1 hoccurs))
  | constrained name bound _ =>
      by_cases hx : x = name
      · rw [hx, collect_constrained]
        exact .inl (known_noted he name hb.1)
      · exact .inr (.absent fun hoccurs => hx (occurs_constrained.1 hoccurs))
  | array element ih =>
      rcases isPlain_or_eq_union hb.1 with hplain | ⟨members, rfl⟩
      · obtain rfl | ⟨own, rfl, hown⟩ := h.array hplain
        · exact absurd rfl hb.2.here
        · rw [collect]
          exact (ih ha.2 hd (inherited_filled.element hb) hown he).imp_right .array
      · exact .inr (.union rfl)
  | function params result ihparams ihresult =>
      rcases isPlain_or_eq_union hb.1 with hplain | ⟨members, rfl⟩
      · obtain ⟨own, ownResult, rfl, hparams, hresult⟩ := h.function hplain
        obtain ⟨-, haparams, haresult⟩ := ha
        obtain ⟨hdparams, hdresult⟩ := hd
        rw [collect, if_pos hparams.length_eq]
        have heach := forall₂_imp_of_mem hparams fun p hp mine hmine hmeets (e : Evidence) he =>
          ihparams p hp (everywhereEach_iff.1 haparams p hp) (fieldsDistinctEach_iff.1 hdparams p hp)
            (inherited_filled.param hb mine hmine) hmeets (e := e) he
        rcases known_or_hidden_params heach e he with hknown | hhidden
        · exact .inl (hknown.collect result ownResult)
        · exact (ihresult haresult hdresult (inherited_filled.result hb) hresult
            (he.collectParams params own)).imp_right (.function hhidden)
      · exact .inr (.union rfl)
  | union members ih => cases ha.here
  | record fields ih =>
      rcases isPlain_or_eq_union hb.1 with hplain | ⟨members, rfl⟩
      · obtain ⟨hnodup, hdfields⟩ := hd
        obtain ⟨own, rfl, hown⟩ := h.record hnodup hplain
        rw [collect]
        refine (known_or_hidden_fields (fun f hf mine hmine e he => ?_) e he).imp_right fun hmet =>
          .record hmet fun f hf hnone hcovariant => ?_
        · exact ih f hf (everywhereFields_iff.1 ha.2 f hf) (fieldsDistinctAll_iff.1 hdfields f hf)
            (inherited_filled.field hb _ (mem_of_lookup hmine)) ((hown f hf).1 mine hmine) he
        · cases hcovariant.symm.trans ((hown f hf).2 hnone)
      · exact .inr (.union rfl)

end Reached

section OutOfReach

variable {x : String} {covariant : Bool} {e : Evidence}

/-- A variable itself always meets something. -/
theorem Hidden.not_occurs {a b : Ty} (h : Hidden x covariant a b) (ha : a.isVariable = true) :
    ¬ Occurs x a := by
  cases h with
  | absent h => exact h
  | union h => exact absurd ha (Bool.eq_false_iff.1 h)
  | _ => cases ha

theorem Hidden.of_array {element own : Ty} (h : Hidden x covariant (.array element) (.array own)) :
    Hidden x covariant element own := by
  cases h with
  | absent h => exact .absent h
  | array h => exact h

theorem Hidden.of_function {params own : List Ty} {result ownResult : Ty}
    (h : Hidden x covariant (.function params result) (.function own ownResult)) :
    (∀ pair ∈ params.zip own, Hidden x (!covariant) pair.1 pair.2) ∧
      Hidden x covariant result ownResult := by
  cases h with
  | absent h =>
      rw [occurs_function, not_or] at h
      refine ⟨fun pair hpair => .absent fun hx => h.1 ⟨_, (List.of_mem_zip hpair).1, hx⟩, ?_⟩
      exact .absent h.2
  | function hparams hresult => exact ⟨hparams, hresult⟩

theorem Hidden.of_record {fields own : List (String × Ty)}
    (h : Hidden x covariant (.record fields) (.record own)) {field : String × Ty}
    (hf : field ∈ fields) {mine : Ty} (hmine : own.lookup field.1 = some mine) :
    Hidden x covariant field.2 mine := by
  cases h with
  | absent h => exact .absent fun hx => h (occurs_record.2 ⟨field, hf, hx⟩)
  | record hmet _ => exact hmet field hf mine hmine

theorem get?_collectParams_of_hidden {params own : List Ty}
    (h : ∀ pair ∈ params.zip own, ∀ e : Evidence, e.WellFormed →
      (collect pair.1 pair.2 e).get? x = e.get? x) (he : e.WellFormed) :
    (collectParams params own e).get? x = e.get? x := by
  induction params generalizing own e with
  | nil => rw [collectParams.eq_def]
  | cons p params ih =>
      cases own with
      | nil => rw [collectParams.eq_def]
      | cons mine own =>
          rw [List.zip_cons_cons, List.forall_mem_cons] at h
          rw [collectParams, ih h.2 (he.collect p mine)]
          exact h.1 e he

theorem get?_collectFields_of_hidden {fields own : List (String × Ty)}
    (h : ∀ field ∈ fields, ∀ mine, own.lookup field.1 = some mine → ∀ e : Evidence, e.WellFormed →
      (collect field.2 mine e).get? x = e.get? x) (he : e.WellFormed) :
    (collectFields fields own e).get? x = e.get? x := by
  induction fields generalizing e with
  | nil => rw [collectFields]
  | cons field rest ih =>
      rw [List.forall_mem_cons] at h
      rw [collectFields]
      cases hmine : own.lookup field.1 with
      | none => exact ih h.2 he
      | some mine => exact (ih h.2 (he.collect field.2 mine)).trans (h.1 mine hmine e he)

/-- Nothing is learnt of a hidden variable. -/
theorem Hidden.get?_collect {a b : Ty} (h : Hidden x covariant a b)
    (ha : a.Everywhere (·.isUnion = false)) (he : e.WellFormed) :
    (collect a b e).get? x = e.get? x := by
  induction a generalizing covariant b e with
  | integer | float | string | boolean | none | emptyArray => rw [collect]
  | generic name =>
      have hx : x ≠ name := fun heq => h.not_occurs rfl (occurs_generic.2 heq)
      rw [collect_generic, get?_noted_of_ne he hx]
  | constrained name bound _ =>
      have hx : x ≠ name := fun heq => h.not_occurs rfl (occurs_constrained.2 heq)
      rw [collect_constrained, get?_noted_of_ne he hx]
  | array element ih =>
      cases b with
      | array own =>
          rw [collect]
          exact ih h.of_array ha.2 he
      | _ => rw [collect.eq_def]
  | function params result ihparams ihresult =>
      cases b with
      | function own ownResult =>
          obtain ⟨hparams, hresult⟩ := h.of_function
          obtain ⟨-, haparams, haresult⟩ := ha
          have heach (pair : Ty × Ty) (hpair : pair ∈ params.zip own) (e : Evidence)
              (he : e.WellFormed) : (collect pair.1 pair.2 e).get? x = e.get? x :=
            have hp := (List.of_mem_zip hpair).1
            ihparams _ hp (hparams pair hpair) (everywhereEach_iff.1 haparams _ hp) he
          rw [collect]
          split
          · rw [ihresult hresult haresult (he.collectParams params own)]
            exact get?_collectParams_of_hidden heach he
          · exact ihresult hresult haresult he
      | _ => rw [collect.eq_def]
  | union members ih => cases ha.here
  | record fields ih =>
      cases b with
      | record own =>
          rw [collect]
          exact get?_collectFields_of_hidden (fun f hf mine hmine e he =>
            ih f hf (h.of_record hf hmine) (everywhereFields_iff.1 ha.2 f hf) he) he
      | _ => rw [collect.eq_def]

end OutOfReach

/-- An accepted argument tells nothing of exactly those variables that are hidden. -/
theorem get?_ofArgument_eq_none_iff {a b : Ty} (ha : a.Everywhere (·.isUnion = false))
    (hd : a.FieldsDistinct) (hb : Filled b) (h : a.isSubtype b = true) (x : String) :
    (ofArgument a b).get? x = Option.none ↔ Hidden x true a b := by
  have hmeets : Meets true a b := h
  refine ⟨fun hnone => ?_, fun hhidden => hhidden.get?_collect ha wellFormed_nil⟩
  rcases known_or_hidden (x := x) ha hd hb hmeets wellFormed_nil with hknown | hhidden
  · exact absurd hnone hknown.known
  · exact hhidden

/-- The members of a union are not looked at. -/
example :
    let either := union [array integer, array string]
    (array (generic "T")).isSubtype either = true ∧ ofArgument (array (generic "T")) either = [] := by
  decide +kernel

section Calls

variable {x : String} {e other : Evidence}

theorem Known.merge (h : Known x other) (he : e.WellFormed) : Known x (e.merge other) := by
  refine ⟨he.merge h.wellFormed, ?_⟩
  obtain ⟨a, ha⟩ := Option.ne_none_iff_exists'.1 h.known
  rw [get?_merge he h.wellFormed, ha]
  dsimp only
  rw [get?_insert he, if_pos rfl]
  exact Option.some_ne_none _

/-- What one argument tells something of is known after the call. -/
theorem Known.fit {params : List Ty} {args : List (Option TypedExpr)} {i : Nat} {arg : TypedExpr}
    {param found : Ty} (hparam : params[i]? = some param) (harg : args[i]? = some (some arg))
    (hinfo : arg.info = some found) (haccepts : param.isSubtype found = true)
    (h : Known x (ofArgument param found)) (he : e.WellFormed) :
    Known x (Fitted.fit params args e).evidence := by
  induction params generalizing args i e with
  | nil => simp at hparam
  | cons first params ih =>
      cases args with
      | nil => simp at harg
      | cons head args =>
          cases i with
          | zero =>
              cases hparam
              cases harg
              have hvisit : Fitted.afterVisit param arg e = e.merge (ofArgument param found) := by
                rw [Fitted.afterVisit, hinfo]
                exact if_pos haccepts
              have hknown := h.merge he
              rw [Fitted.fit_cons_some, hvisit]
              obtain ⟨hwf, hgrows⟩ := Fitted.fit_evidence params args hknown.wellFormed
              exact hknown.grows hwf hgrows
          | succ i =>
              cases head with
              | none =>
                  rw [Fitted.fit]
                  exact ih hparam harg he
              | some head =>
                  rw [Fitted.fit_cons_some]
                  exact ih hparam harg (Fitted.wellFormed_afterVisit he first head)

theorem Known.not_occurs_substitute (h : Known x e) (a : Ty) : ¬ Occurs x (e.substitute a) :=
  fun hx => h.known (get?_of_occurs_substitute h.wellFormed hx).1

/-- The type of a call speaks of no variable that is known at its end. -/
theorem Known.not_occurs_resultType {f : Fitted} (h : Known x f.evidence) (result : Ty) :
    ¬ Occurs x (f.resultType result) := by
  unfold Fitted.resultType
  split
  · exact h.not_occurs_substitute result
  · rw [substituteEach_eq_map, occurs_function, not_or]
    refine ⟨?_, h.not_occurs_substitute result⟩
    rintro ⟨p, hp, hx⟩
    obtain ⟨q, -, rfl⟩ := List.mem_map.1 hp
    exact h.not_occurs_substitute q hx

end Calls

/-- An accepted argument resolves every variable of a parameter without unions that is not hidden,
and then the variable does not stand in the type of a call with the argument. -/
theorem resolved_of_isSubtype {param found : Ty} (hparam : param.Everywhere (·.isUnion = false))
    (hd : param.FieldsDistinct) (hground : found.hasGenerics = false)
    (hfilled : found.Everywhere (· ≠ .emptyArray)) (haccepts : param.isSubtype found = true)
    {x : String} (hx : ¬ Hidden x true param found) :
    (ofArgument param found).get? x ≠ Option.none ∧
      ∀ (node : Node Unit) (callee : TypedExpr) (params : List Ty) (result : Ty)
        (args : List (Option TypedExpr)) (i : Nat) (arg : TypedExpr),
        callee.info = some (.function params result) → params[i]? = some param →
          args[i]? = some (some arg) → arg.info = some found →
            ∃ type, (Expr.typedCall node callee args).info = some type ∧ ¬ Occurs x type := by
  have hmeets : Meets true param found := haccepts
  have hknown : Known x (ofArgument param found) :=
    (known_or_hidden hparam hd ⟨hground, hfilled⟩ hmeets wellFormed_nil).resolve_right hx
  refine ⟨hknown.known, fun node callee params result args i arg hcallee hi harg hinfo => ?_⟩
  refine ⟨(Fitted.fit params args []).resultType result, ?_, ?_⟩
  · rw [Expr.typedCall, hcallee]
    rfl
  · exact (hknown.fit hi harg hinfo haccepts wellFormed_nil).not_occurs_resultType result

/-- A function of records tells what its result is, and the type of the call speaks of it. -/
theorem resolved_of_isSubtype_sample :
    let param := function [record [("a", generic "T")]] (array (generic "U"))
    let found := function [record [("a", integer)]] (array string)
    let callee := Fitted.named "f" (function [param] (generic "U"))
    param.isSubtype found = true ∧ ¬ Hidden "U" true param found ∧
      (ofArgument param found).get? "U" ≠ Option.none ∧
      ∀ node, ∃ type,
        (Expr.typedCall node callee [some (Fitted.named "g" found)]).info = some type ∧
          ¬ Occurs "U" type := by
  intro param found callee
  have hparam : param.Everywhere (·.isUnion = false) := by
    simp [param, Everywhere, EverywhereEach, EverywhereFields, isUnion]
  have hd : param.FieldsDistinct := by
    simp [param, FieldsDistinct, FieldsDistinctEach, FieldsDistinctAll]
  have hfilled : found.Everywhere (· ≠ .emptyArray) := by
    simp [found, Everywhere, EverywhereEach, EverywhereFields]
  have haccepts : param.isSubtype found = true := by decide +kernel
  have hreached : ¬ Hidden "U" true param found := fun h =>
    h.of_function.2.of_array.not_occurs rfl (occurs_generic.2 rfl)
  obtain ⟨hknown, hcalls⟩ := resolved_of_isSubtype hparam hd rfl hfilled haccepts hreached
  refine ⟨haccepts, hreached, hknown, fun node => ?_⟩
  exact hcalls node callee [param] (generic "U") [some (Fitted.named "g" found)] 0
    (Fitted.named "g" found) rfl rfl rfl rfl

/-- A function that asks for less than the parameter promises it tells nothing of the rest. -/
theorem not_resolved_of_isSubtype :
    ¬ ∀ (param found : Ty) (x : String), param.Everywhere (·.isUnion = false) →
        param.FieldsDistinct → found.hasGenerics = false → found.Everywhere (· ≠ .emptyArray) →
          param.isSubtype found = true → Occurs x param →
            (ofArgument param found).get? x ≠ Option.none := by
  intro hall
  let param := function [record [("a", generic "T"), ("b", generic "U")]] integer
  let found := function [record [("a", integer)]] integer
  refine hall param found "U" ?_ ?_ rfl ?_ (by decide +kernel) ?_ (by decide +kernel)
  · simp [param, Everywhere, EverywhereEach, EverywhereFields, isUnion]
  · simp [param, FieldsDistinct, FieldsDistinctEach, FieldsDistinctAll]
  · simp [found, Everywhere, EverywhereEach, EverywhereFields]
  · simp [param]

end LazyLang.Evidence
