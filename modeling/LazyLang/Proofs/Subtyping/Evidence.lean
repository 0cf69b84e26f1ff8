import LazyLang.Proofs.Subtyping.Variance
import LazyLang.Typing
import Mathlib.Data.String.Basic

/-!
# What evidence becomes

Evidence is sorted by name, so each variable has one entry, and it speaks of types without variables
only: an argument whose type has some is no evidence. Noting more keeps both, and it makes what is
known of a variable wider, never narrower (`Grows`).
-/

namespace LazyLang.Evidence

open Ty

/-- The entries are in the order of their names, each name once, and none has a type with
variables. -/
structure WellFormed (e : Evidence) : Prop where
  sorted : e.Pairwise fun a b => a.1 < b.1
  ground : ∀ entry ∈ e, entry.2.hasGenerics = false

theorem wellFormed_nil : WellFormed [] := ⟨.nil, fun _ h => absurd h List.not_mem_nil⟩

/-- Every variable that `m` knows has the same meaning in `n`, or a wider one. -/
def Grows (m n : Evidence) : Prop :=
  ∀ x a, m.get? x = some a → ∃ b, n.get? x = some b ∧ b.isSubtype a = true

theorem Grows.refl (e : Evidence) : Grows e e := fun _ a h => ⟨a, h, accepts_self _ a⟩

theorem WellFormed.ground_of_get? {e : Evidence} (h : WellFormed e) {x : String} {a : Ty}
    (ha : e.get? x = some a) : a.hasGenerics = false :=
  h.ground _ (mem_of_lookup ha)

theorem Grows.trans {l m n : Evidence} (hm : WellFormed m) (hlm : Grows l m) (hmn : Grows m n) :
    Grows l n := by
  intro x a ha
  obtain ⟨b, hb, hba⟩ := hlm x a ha
  obtain ⟨d, hd, hdb⟩ := hmn x b hb
  exact ⟨d, hd, accepts_trans (hm.ground_of_get? hb) hdb hba⟩

theorem mem_insert {name : String} {type : Ty} {e : Evidence} {entry : String × Ty}
    (h : entry ∈ e.insert name type) :
    entry ∈ e ∨ entry = (name, type) ∨
      ∃ known, (name, known) ∈ e ∧ entry = (name, Ty.unionOf [known, type]) := by
  induction e with
  | nil => exact .inr (.inl (List.mem_singleton.1 h))
  | cons head rest ih =>
      obtain ⟨other, known⟩ := head
      rw [insert_cons] at h
      split at h
      · rcases List.mem_cons.1 h with rfl | h
        · exact .inr (.inl rfl)
        · exact .inl h
      · split at h
        · next heq =>
            subst heq
            rcases List.mem_cons.1 h with rfl | h
            · exact .inr (.inr ⟨known, List.mem_cons_self, rfl⟩)
            · exact .inl (List.mem_cons_of_mem _ h)
        · rcases List.mem_cons.1 h with rfl | h
          · exact .inl List.mem_cons_self
          · rcases ih h with h | h | ⟨k, hk, h⟩
            · exact .inl (List.mem_cons_of_mem _ h)
            · exact .inr (.inl h)
            · exact .inr (.inr ⟨k, List.mem_cons_of_mem _ hk, h⟩)

theorem WellFormed.insert {e : Evidence} (h : WellFormed e) (name : String) {type : Ty}
    (ht : type.hasGenerics = false) : WellFormed (e.insert name type) := by
  constructor
  · obtain ⟨hsorted, -⟩ := h
    induction e with
    | nil => exact List.pairwise_singleton _ _
    | cons head rest ih =>
        obtain ⟨other, known⟩ := head
        rw [List.pairwise_cons] at hsorted
        rw [insert_cons]
        split
        · next hlt =>
            refine List.pairwise_cons.2 ⟨fun entry hentry => ?_, List.pairwise_cons.2 hsorted⟩
            rcases List.mem_cons.1 hentry with rfl | hentry
            · exact hlt
            · exact String.lt_trans hlt (hsorted.1 entry hentry)
        · split
          · next heq =>
              subst heq
              exact List.pairwise_cons.2 hsorted
          · next hnlt hne =>
              have hlt : other < name := lt_of_le_of_ne (not_lt.1 hnlt) (Ne.symm hne)
              refine List.pairwise_cons.2 ⟨fun entry hentry => ?_, ih hsorted.2⟩
              rcases mem_insert hentry with hentry | rfl | ⟨k, hk, rfl⟩
              · exact hsorted.1 entry hentry
              · exact hlt
              · exact hlt
  · intro entry hentry
    rcases mem_insert hentry with hentry | rfl | ⟨k, hk, rfl⟩
    · exact h.ground entry hentry
    · exact ht
    · refine hasGenerics_unionOf fun a ha => ?_
      rcases List.mem_cons.1 ha with rfl | ha
      · exact h.ground _ hk
      · rw [List.mem_singleton.1 ha]
        exact ht

theorem get?_cons (other : String) (known : Ty) (rest : Evidence) (x : String) :
    get? ((other, known) :: rest) x = if x = other then some known else rest.get? x := by
  rw [get?, List.lookup_cons]
  by_cases hx : x = other
  · simp [hx]
  · rw [if_neg hx, beq_eq_false_iff_ne.2 hx]
    rfl

/-- A name that comes before all others is not known. -/
theorem get?_eq_none_of_lt {e : Evidence} {name : String} (h : ∀ entry ∈ e, name < entry.1) :
    e.get? name = Option.none := by
  cases hget : e.get? name with
  | none => rfl
  | some a => exact absurd (h _ (mem_of_lookup hget)) (lt_irrefl name)

/-- What a variable means after one more type was noted. -/
theorem get?_insert {e : Evidence} (h : WellFormed e) (name : String) (type : Ty) (x : String) :
    (e.insert name type).get? x =
      if x = name then
        some (match e.get? name with
          | some known => Ty.unionOf [known, type]
          | Option.none => type)
      else e.get? x := by
  obtain ⟨hsorted, -⟩ := h
  induction e with
  | nil => exact get?_cons name type [] x
  | cons head rest ih =>
      obtain ⟨other, known⟩ := head
      rw [List.pairwise_cons] at hsorted
      rw [insert_cons]
      split
      · next hlt =>
          have hnone : get? ((other, known) :: rest) name = Option.none := by
            refine get?_eq_none_of_lt fun entry hentry => ?_
            rcases List.mem_cons.1 hentry with rfl | hentry
            · exact hlt
            · exact String.lt_trans hlt (hsorted.1 entry hentry)
          rw [hnone, get?_cons]
      · split
        · next heq =>
            subst heq
            rw [get?_cons, get?_cons, get?_cons, if_pos rfl]
            split <;> rfl
        · next hnlt hne =>
            rw [get?_cons, get?_cons, get?_cons, if_neg hne, ih hsorted.2]
            by_cases hx : x = other
            · subst hx
              rw [if_pos rfl, if_pos rfl, if_neg (Ne.symm hne)]
            · rw [if_neg hx, if_neg hx]

theorem grows_insert {e : Evidence} (h : WellFormed e) (name : String) (type : Ty) :
    Grows e (e.insert name type) := by
  intro x a ha
  rw [get?_insert h]
  split
  · next heq =>
      subst heq
      rw [ha]
      exact ⟨_, rfl, accepts_of_unionOf_iff.1 (accepts_self _ _) a List.mem_cons_self⟩
  · exact ⟨a, ha, accepts_self _ a⟩

/-- A property of types that the types inside a type have, if the type itself has it. -/
structure Inherited (R : Ty → Prop) : Prop where
  element : ∀ {element}, R (.array element) → R element
  param : ∀ {params result}, R (.function params result) → ∀ p ∈ params, R p
  result : ∀ {params result}, R (.function params result) → R result
  member : ∀ {members}, R (.union members) → ∀ m ∈ members, R m
  field : ∀ {fields}, R (.record fields) → ∀ field ∈ fields, R field.2

theorem Inherited.true : Inherited fun _ => True :=
  ⟨id, fun _ _ _ => trivial, id, fun _ _ _ => trivial, fun _ _ _ => trivial⟩

section Preserved

variable {P : Evidence → Prop} {R : Ty → Prop}

theorem collectParams_preserves {params : List Ty}
    (h : ∀ p ∈ params, ∀ concrete, R concrete → ∀ e, P e → P (collect p concrete e))
    {own : List Ty} (hown : ∀ mine ∈ own, R mine) (e : Evidence) (he : P e) :
    P (collectParams params own e) := by
  induction params generalizing own e with
  | nil =>
      rw [collectParams.eq_def]
      exact he
  | cons head rest ih =>
      rw [collectParams.eq_def]
      cases own with
      | nil => exact he
      | cons mine own =>
          rw [List.forall_mem_cons] at hown
          exact ih (fun p hp => h p (List.mem_cons_of_mem _ hp)) hown.2 _
            (h head List.mem_cons_self mine hown.1 e he)

theorem collectMembers_preserves {members : List Ty}
    (h : ∀ m ∈ members, ∀ concrete, R concrete → ∀ e, P e → P (collect m concrete e))
    {concrete : Ty} (hc : R concrete) (e : Evidence) (he : P e) :
    P (collectMembers members concrete e) := by
  induction members generalizing e with
  | nil =>
      rw [collectMembers]
      exact he
  | cons head rest ih =>
      rw [collectMembers]
      refine ih (fun m hm => h m (List.mem_cons_of_mem _ hm)) _ ?_
      split
      · exact h head List.mem_cons_self concrete hc e he
      · exact he

theorem collectFields_preserves {fields : List (String × Ty)}
    (h : ∀ field ∈ fields, ∀ concrete, R concrete → ∀ e, P e → P (collect field.2 concrete e))
    {own : List (String × Ty)} (hown : ∀ field ∈ own, R field.2) (e : Evidence) (he : P e) :
    P (collectFields fields own e) := by
  induction fields generalizing e with
  | nil =>
      rw [collectFields]
      exact he
  | cons head rest ih =>
      rw [collectFields]
      refine ih (fun field hf => h field (List.mem_cons_of_mem _ hf)) _ ?_
      split
      · next mine hmine =>
          exact h head List.mem_cons_self mine (hown _ (mem_of_lookup hmine)) e he
      · exact he

/-- What `insert` keeps for types without variables, `collect` keeps, also where the types are
known to have a property besides. -/
theorem collect_preserves (hR : Inherited R)
    (hinsert : ∀ e name type, type.hasGenerics = false → R type → P e → P (insert name type e))
    (generic : Ty) {concrete : Ty} (hc : R concrete) (e : Evidence) (he : P e) :
    P (collect generic concrete e) := by
  have hvar : ∀ name concrete, R concrete → ∀ e, P e →
      P (if concrete.hasGenerics = true then e else insert name concrete e) := by
    intro name concrete hc e he
    split
    · exact he
    · next hno => exact hinsert e name concrete (Bool.eq_false_iff.2 hno) hc he
  induction generic generalizing concrete e with
  | integer | float | string | boolean | none | emptyArray =>
      rw [collect]
      exact he
  | generic name =>
      rw [collect]
      exact hvar name concrete hc e he
  | constrained name bound _ =>
      rw [collect]
      exact hvar name concrete hc e he
  | array element ih =>
      rw [collect.eq_def]
      cases concrete with
      | array own => exact ih (hR.element hc) e he
      | _ => exact he
  | function params result ihparams ihresult =>
      rw [collect.eq_def]
      cases concrete with
      | function own ownResult =>
          refine ihresult (hR.result hc) _ ?_
          split
          · exact collectParams_preserves (fun p hp _ => ihparams p hp) (hR.param hc) e he
          · exact he
      | _ => exact he
  | union members ih =>
      rw [collect.eq_def]
      refine List.foldlRecOn _ _ he fun e he m hm => ?_
      have hfound : R m := by
        cases concrete with
        | union own => exact hR.member hc m hm
        | _ => exact List.forall_mem_singleton.2 hc m hm
      split
      · exact he
      · exact collectMembers_preserves (fun m hm _ => ih m hm) hfound e he
  | record fields ih =>
      rw [collect.eq_def]
      cases concrete with
      | record own => exact collectFields_preserves (fun f hf _ => ih f hf) (hR.field hc) e he
      | _ => exact he

end Preserved

theorem WellFormed.collect {e : Evidence} (h : WellFormed e) (generic concrete : Ty) :
    WellFormed (collect generic concrete e) :=
  collect_preserves .true (fun _ name _ ht _ he => he.insert name ht) generic trivial e h

theorem WellFormed.collectParams {e : Evidence} (h : WellFormed e) (params own : List Ty) :
    WellFormed (collectParams params own e) :=
  collectParams_preserves (R := fun _ => True) (fun p _ mine _ _ he => he.collect p mine)
    (fun _ _ => trivial) e h

/-- What `insert` keeps for types with a property, merging keeps for entries whose types have it. -/
theorem merge_preserves {P : Evidence → Prop} {R : Ty → Prop}
    (hinsert : ∀ e name type, type.hasGenerics = false → R type → P e → P (insert name type e))
    {other : Evidence} (hground : ∀ entry ∈ other, entry.2.hasGenerics = false)
    (hR : ∀ entry ∈ other, R entry.2) (e : Evidence) (he : P e) : P (e.merge other) := by
  unfold merge
  refine List.foldlRecOn _ _ he fun e he entry hentry => ?_
  exact hinsert e entry.1 entry.2 (hground entry hentry) (hR entry hentry) he

/-- What `insert` keeps for types without variables, learning from an argument keeps. -/
theorem learn_preserves {P : Evidence → Prop}
    (hinsert : ∀ e name type, type.hasGenerics = false → P e → P (insert name type e))
    (param found : Ty) (e : Evidence) (he : P e) : P (Fitted.learn param found e) := by
  unfold Fitted.learn
  split
  · exact merge_preserves (R := fun _ => True) (fun e name type ht _ => hinsert e name type ht)
      (wellFormed_nil.collect param found).ground (fun _ _ => trivial) e he
  · exact he

theorem WellFormed.learn {e : Evidence} (h : WellFormed e) (param found : Ty) :
    WellFormed (Fitted.learn param found e) :=
  learn_preserves (fun _ name _ ht he => he.insert name ht) param found e h

theorem grows_learn {e : Evidence} (h : WellFormed e) (param found : Ty) :
    Grows e (Fitted.learn param found e) := by
  have hboth : WellFormed (Fitted.learn param found e) ∧ Grows e (Fitted.learn param found e) :=
    learn_preserves (P := fun n => WellFormed n ∧ Grows e n)
      (fun n name type ht hn =>
        ⟨hn.1.insert name ht, hn.2.trans hn.1 (grows_insert hn.1 name type)⟩)
      param found e ⟨h, .refl e⟩
  exact hboth.2

section Noted

/-- Notes the type for the variable unless it has variables itself. -/
def noted (name : String) (a : Ty) (e : Evidence) : Evidence :=
  if a.hasGenerics then e else e.insert name a

theorem collect_generic (name : String) (a : Ty) (e : Evidence) :
    collect (.generic name) a e = noted name a e := by
  rw [collect, noted]

theorem collect_constrained (name : String) (bound a : Ty) (e : Evidence) :
    collect (.constrained name bound) a e = noted name a e := by
  rw [collect, noted]

variable {e : Evidence}

theorem WellFormed.noted (h : WellFormed e) (name : String) (a : Ty) :
    WellFormed (noted name a e) := by
  unfold Evidence.noted
  split
  · exact h
  · next ha => exact h.insert name (Bool.eq_false_iff.2 ha)

/-- Noting a type for another variable changes nothing. -/
theorem get?_noted_of_ne (h : WellFormed e) {name x : String} (hx : x ≠ name) (a : Ty) :
    (noted name a e).get? x = e.get? x := by
  unfold noted
  split
  · rfl
  · rw [get?_insert h, if_neg hx]

theorem noted_of_hasGenerics {a : Ty} (ha : a.hasGenerics = true) (name : String) :
    noted name a e = e := if_pos ha

/-- After noting a type without variables, the variable accepts it. -/
theorem get?_noted_self (h : WellFormed e) (name : String) {a : Ty} (ha : a.hasGenerics = false) :
    (noted name a e).get? name = some (match e.get? name with
      | some known => Ty.unionOf [known, a]
      | Option.none => a) := by
  rw [noted, ha, if_neg Bool.false_ne_true]
  exact (get?_insert h name a name).trans (if_pos rfl)

theorem get?_noted_of_unknown (h : WellFormed e) {name : String} (hname : e.get? name = Option.none)
    (a : Ty) : (noted name a e).get? name = if a.hasGenerics then Option.none else some a := by
  by_cases ha : a.hasGenerics = true
  · rw [noted_of_hasGenerics ha, if_pos ha, hname]
  · rw [if_neg ha, get?_noted_self h name (Bool.eq_false_iff.2 ha), hname]

/-- Noting a type for two collections that agree on a variable leaves them so. -/
theorem get?_noted_congr {e' : Evidence} (h : WellFormed e) (h' : WellFormed e') {x : String}
    (heq : e.get? x = e'.get? x) (name : String) (a : Ty) :
    (noted name a e).get? x = (noted name a e').get? x := by
  unfold noted
  split
  · exact heq
  · rw [get?_insert h, get?_insert h']
    split
    · next hx => rw [← hx, heq]
    · exact heq

end Noted

end LazyLang.Evidence
