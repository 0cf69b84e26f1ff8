import LazyLang.Proofs.Subtyping.Rendering
import LazyLang.Proofs.Subtyping.Union
import Mathlib.Data.List.Nodup
import Mathlib.Data.List.Pairwise
import Mathlib.Logic.Relation

/-!
# The normal form of a union is canonical

A union in normal form is a row of members: none of them stands for another, and their texts give
the order. Two rows that cover each other are the same (`IsRow.eq_of_covered`), since strict
subtyping is antisymmetric for types in normal form (`IsCanonical.eq_of_accepts`) and such types
have different texts.

So the union of some types depends on nothing but what accepts all of them
(`unionOf_eq_of_bounds`), and neither the order in which the types come nor unions of some of them
on the way make a difference (`unionOf_canonical`).
-/

namespace LazyLang.Ty

/-- Whether the type itself, apart from the types inside it, is in normal form: a union of at least
two members is, if normalizing its members gives it back, and a record, if its fields are in the
order of their names, which are identifiers. -/
def Canonical : Ty → Prop
  | union members => 2 ≤ members.length ∧ unionOf members = union members
  | record fields =>
    (∀ field ∈ fields, isIdentifier field.1 = true) ∧ fields.Pairwise fun f g => f.1 < g.1
  | _ => True

/-- A type without variables whose unions and records are in normal form at any depth. -/
structure IsCanonical (a : Ty) : Prop where
  ground : a.hasGenerics = false
  canonical : a.Everywhere Canonical

namespace IsCanonical

variable {a element result m : Ty} {params members : List Ty} {fields : List (String × Ty)}

theorem of_array (h : IsCanonical (array element)) : IsCanonical element :=
  ⟨h.ground, h.canonical.2⟩

theorem of_param (h : IsCanonical (function params result)) (hm : m ∈ params) : IsCanonical m := by
  obtain ⟨hground, -, hparams, -⟩ := h
  rw [hasGenerics, Bool.or_eq_false_iff] at hground
  exact ⟨hasGenerics_of_mem hground.1 hm, everywhereEach_iff.1 hparams m hm⟩

theorem of_result (h : IsCanonical (function params result)) : IsCanonical result := by
  obtain ⟨hground, -, -, hresult⟩ := h
  rw [hasGenerics, Bool.or_eq_false_iff] at hground
  exact ⟨hground.2, hresult⟩

theorem of_member (h : IsCanonical (union members)) (hm : m ∈ members) : IsCanonical m :=
  ⟨hasGenerics_of_mem h.ground hm, everywhereEach_iff.1 h.canonical.2 m hm⟩

theorem of_field (h : IsCanonical (record fields)) {f : String × Ty} (hf : f ∈ fields) :
    IsCanonical f.2 :=
  ⟨hasGenerics_of_mem_fields h.ground hf, everywhereFields_iff.1 h.canonical.2 f hf⟩

theorem of_mem_flatten (h : IsCanonical a) (hm : m ∈ flatten a) : IsCanonical m := by
  induction a with
  | union members ih =>
      obtain ⟨b, hb, hmb⟩ := mem_flattenAll.1 hm
      exact ih b hb (h.of_member hb) hmb
  | _ =>
      rw [List.mem_singleton.1 hm]
      exact h

end IsCanonical

theorem isPlain_of_ground {a : Ty} (hg : a.hasGenerics = false) (hu : a.isUnion = false) :
    a.isPlain = true := by
  cases a <;> first | rfl | cases hg | cases hu

theorem isUnion_of_mem_flatten {a m : Ty} (h : m ∈ flatten a) : m.isUnion = false := by
  induction a with
  | union members ih =>
      obtain ⟨b, hb, hm⟩ := mem_flattenAll.1 h
      exact ih b hb hm
  | _ =>
      rw [List.mem_singleton.1 h]
      rfl

theorem isUnion_of_mem_retained {types : List Ty} {m : Ty}
    (h : m ∈ retained (flattenAll types)) : m.isUnion = false := by
  obtain ⟨a, -, hm⟩ := mem_flattenAll.1 (mem_of_mem_retained h)
  exact isUnion_of_mem_flatten hm

theorem flatten_of_not_isUnion {a : Ty} (h : a.isUnion = false) : flatten a = [a] := by
  cases a <;> first | rfl | cases h

theorem parts_of_isPlain {a : Ty} (h : a.isPlain = true) : parts a = [a] := by
  cases a <;> first | rfl | cases h

section Retained

/-- Neither of the two types stands for the other in a union. -/
def Apart (a b : Ty) : Prop := a.subsumes b = false ∧ b.subsumes a = false

instance : DecidableRel Apart := fun _ _ => inferInstanceAs (Decidable (_ ∧ _))

theorem pairwise_addMember {kept : List Ty} (h : kept.Pairwise Apart) (member : Ty) :
    (addMember kept member).Pairwise Apart := by
  unfold addMember
  split
  · exact h
  · next hnone =>
      rw [Bool.not_eq_true, List.any_eq_false] at hnone
      rw [List.pairwise_append]
      refine ⟨h.filter _, List.pairwise_singleton _ _, fun a ha b hb => ?_⟩
      obtain ⟨hkept, hcovered⟩ := List.mem_filter.1 ha
      rw [List.mem_singleton.1 hb]
      exact ⟨Bool.eq_false_iff.2 (hnone a hkept), Bool.not_eq_true' _ ▸ hcovered⟩

/-- No member that remains stands for another. -/
theorem pairwise_retained (members : List Ty) : (retained members).Pairwise Apart := by
  have hfold : ∀ kept : List Ty, kept.Pairwise Apart →
      (members.foldl addMember kept).Pairwise Apart := by
    induction members with
    | nil => exact fun kept h => h
    | cons head rest ih => exact fun kept h => ih _ (pairwise_addMember h head)
  exact hfold [] List.Pairwise.nil

theorem pairwise_sortMembers (members : List Ty) :
    (sortMembers members).Pairwise fun a b => a.pretty ≤ b.pretty := by
  have hsorted := @List.pairwise_mergeSort Ty (fun a b => decide (a.pretty ≤ b.pretty))
    (fun a b c hab hbc => by
      simp only [decide_eq_true_eq] at hab hbc ⊢
      exact String.le_trans hab hbc)
    (fun a b => by
      simp only [Bool.or_eq_true, decide_eq_true_eq]
      exact String.le_total _ _) members
  exact hsorted.imp fun h => of_decide_eq_true h

theorem pairwise_apart_sortMembers (members : List Ty) :
    (sortMembers (retained members)).Pairwise Apart :=
  (pairwise_retained members).perm (List.mergeSort_perm _ _).symm fun h => ⟨h.2, h.1⟩

end Retained

/-- The members of a union in normal form: types without variables that are no unions themselves,
none of which stands for another, in the order of their texts. -/
structure IsRow (members : List Ty) : Prop where
  ground : ∀ m ∈ members, m.hasGenerics = false
  flat : ∀ m ∈ members, m.isUnion = false
  apart : members.Pairwise Apart
  sorted : members.Pairwise fun a b => a.pretty ≤ b.pretty

/-- Normalizing makes a row of the members. -/
theorem isRow_sortMembers {types : List Ty}
    (h : ∀ m ∈ flattenAll types, m.hasGenerics = false) :
    IsRow (sortMembers (retained (flattenAll types))) where
  ground m hm := h m (mem_of_mem_retained (mem_sortMembers.1 hm))
  flat _ hm := isUnion_of_mem_retained (mem_sortMembers.1 hm)
  apart := pairwise_apart_sortMembers _
  sorted := pairwise_sortMembers _

/-- A union in normal form has a row of members. -/
theorem IsCanonical.isRow {members : List Ty} (h : IsCanonical (union members)) :
    IsRow members := by
  have hflat : ∀ m ∈ flattenAll members, m.hasGenerics = false :=
    fun m hm => hasGenerics_of_mem_flatten (a := union members) h.ground hm
  have hnormal : unionOf members = union members := h.canonical.here.2
  rcases unionOf_cases members with ⟨k, hk, heq⟩ | heq
  · have hunion : k.isUnion = false :=
      isUnion_of_mem_retained (hk ▸ List.mem_singleton_self k)
    rw [← heq, hnormal] at hunion
    cases hunion
  · rw [hnormal] at heq
    rw [union.inj heq]
    exact isRow_sortMembers hflat

theorem IsCanonical.legible {a : Ty} (h : IsCanonical a) : a.Everywhere Legible := by
  induction a with
  | array element ih => exact ⟨trivial, ih h.of_array⟩
  | function params result ihparams ihresult =>
      refine ⟨trivial, everywhereEach_iff.2 fun p hp => ihparams p hp (h.of_param hp), ?_⟩
      exact ihresult h.of_result
  | union members ih =>
      refine ⟨⟨h.canonical.here.1, h.isRow.flat⟩, everywhereEach_iff.2 fun m hm => ?_⟩
      exact ih m hm (h.of_member hm)
  | record fields ih =>
      refine ⟨h.canonical.here.1, everywhereFields_iff.2 fun f hf => ih f hf (h.of_field hf)⟩
  | generic name => cases h.ground
  | constrained name bound => cases h.ground
  | _ => trivial

namespace IsRow

variable {members others : List Ty} {m n : Ty}

theorem isPlain (h : IsRow members) (hm : m ∈ members) : m.isPlain = true :=
  isPlain_of_ground (h.ground m hm) (h.flat m hm)

theorem eq_of_accepts (h : IsRow members) (hm : m ∈ members) (hn : n ∈ members)
    (hmn : accepts .strict m n = true) : m = n := by
  by_contra hne
  have hsymm : Std.Symm Apart := ⟨fun _ _ hab => ⟨hab.2, hab.1⟩⟩
  have hapart : Apart m n := h.apart.forall hm hn hne
  have hsubsumes : m.subsumes n = true := by
    simpa [subsumes, isStrictSubtype, h.ground m hm, h.ground n hn] using hmn
  rw [hapart.1] at hsubsumes
  cases hsubsumes

theorem nodup (h : IsRow members) : members.Nodup := by
  refine h.apart.imp fun {a b} hab heq => ?_
  rw [heq] at hab
  simp [Apart, subsumes, isStrictSubtype] at hab

/-- Two rows that cover each other are the same, where types that accept each other are. -/
theorem eq_of_covered (hm : IsRow members) (hn : IsRow others)
    (hmtext : ∀ m ∈ members, m.Everywhere Legible) (hntext : ∀ n ∈ others, n.Everywhere Legible)
    (hanti : ∀ m ∈ members, ∀ n ∈ others, accepts .strict m n = true →
      accepts .strict n m = true → m = n)
    (hmn : ∀ m ∈ members, ∃ n ∈ others, accepts .strict n m = true)
    (hnm : ∀ n ∈ others, ∃ m ∈ members, accepts .strict m n = true) : members = others := by
  have hmem (t : Ty) : t ∈ members ↔ t ∈ others := by
    constructor
    · intro ht
      obtain ⟨n, hno, hnt⟩ := hmn t ht
      obtain ⟨m, hmo, hmn⟩ := hnm n hno
      obtain rfl := hm.eq_of_accepts hmo ht (accepts_trans (hn.ground n hno) hmn hnt)
      rwa [hanti m ht n hno hmn hnt]
    · intro ht
      obtain ⟨m, hmo, hmt⟩ := hnm t ht
      obtain ⟨n, hno, hnm⟩ := hmn m hmo
      obtain rfl := hn.eq_of_accepts hno ht (accepts_trans (hm.ground m hmo) hnm hmt)
      rwa [← hanti m hmo n ht hmt hnm]
  refine List.Perm.eq_of_pairwise (fun m n hmo hno hmn hnm => ?_) hm.sorted hn.sorted
    ((List.perm_ext_iff_of_nodup hm.nodup hn.nodup).2 hmem)
  have htext : chars m ++ [] = chars n ++ [] := by
    rw [chars, chars, String.le_antisymm hmn hnm]
  exact (chars_append_inj (hmtext m hmo) (hntext n hno) ends_nil ends_nil htext).1

end IsRow

section Antisymmetry

/-- A plain type and a union in normal form do not accept each other: the member that accepts the
plain type would accept all the others. -/
theorem IsCanonical.not_accepts {a : Ty} {members : List Ty} (ha : a.hasGenerics = false)
    (hplain : a.isPlain = true) (h : IsCanonical (union members))
    (hbase : accepts .strict (union members) a = true) :
    accepts .strict a (union members) = false := by
  rw [Bool.eq_false_iff]
  intro hcandidate
  obtain ⟨m, hm, hma⟩ := (accepts_union_iff hplain).1 hbase
  have hsame (n : Ty) (hn : n ∈ members) : m = n :=
    h.isRow.eq_of_accepts hm hn (accepts_trans ha hma (accepts_of_mem_union hcandidate hn))
  have hnodup := h.isRow.nodup
  match members, h.canonical.here.1 with
  | first :: second :: rest, _ =>
      have heq : first = second :=
        (hsame first List.mem_cons_self).symm.trans
          (hsame second (List.mem_cons_of_mem _ List.mem_cons_self))
      rw [heq] at hnodup
      exact (List.nodup_cons.1 hnodup).1 List.mem_cons_self

/-- What accepts a plain type and is accepted by it is plain. -/
theorem IsCanonical.isPlain_of_accepts {a b : Ty} (ha : IsCanonical a) (hb : IsCanonical b)
    (hplain : a.isPlain = true) (hab : accepts .strict a b = true)
    (hba : accepts .strict b a = true) : b.isPlain = true := by
  cases b with
  | union members =>
      rw [hb.not_accepts ha.ground hplain hba] at hab
      cases hab
  | generic name => cases hb.ground
  | constrained name bound => cases hb.ground
  | _ => rfl

theorem eq_of_forall₂ {params own : List Ty}
    (h : params.Forall₂ (fun param mine => accepts .strict mine param = true) own)
    (h' : own.Forall₂ (fun mine param => accepts .strict param mine = true) params)
    (hanti : ∀ p ∈ params, ∀ q ∈ own, accepts .strict p q = true → accepts .strict q p = true →
      p = q) : params = own := by
  induction h with
  | nil => rfl
  | cons hhead _ ih =>
      cases h' with
      | cons hhead' htail' =>
          rw [hanti _ List.mem_cons_self _ List.mem_cons_self hhead' hhead]
          rw [ih htail' fun p hp q hq =>
            hanti p (List.mem_cons_of_mem _ hp) q (List.mem_cons_of_mem _ hq)]

theorem nodup_of_sorted {fields : List (String × Ty)}
    (h : fields.Pairwise fun f g => f.1 < g.1) : (fields.map (·.1)).Nodup := by
  refine List.pairwise_map.2 (h.imp fun {f g} hlt heq => ?_)
  rw [heq] at hlt
  exact String.lt_irrefl g.1 hlt

/-- Records with the fields in order are the same if their fields are. -/
theorem eq_of_fields {fields own : List (String × Ty)}
    (hs : fields.Pairwise fun f g => f.1 < g.1) (hs' : own.Pairwise fun f g => f.1 < g.1)
    (h : ∀ field ∈ fields,
      ∃ mine, own.lookup field.1 = some mine ∧ accepts .strict field.2 mine = true)
    (h' : ∀ field ∈ own,
      ∃ mine, fields.lookup field.1 = some mine ∧ accepts .strict field.2 mine = true)
    (hanti : ∀ f ∈ fields, ∀ g ∈ own, accepts .strict f.2 g.2 = true →
      accepts .strict g.2 f.2 = true → f.2 = g.2) : fields = own := by
  have hn := nodup_of_sorted hs
  have hn' := nodup_of_sorted hs'
  have hmem (f : String × Ty) : f ∈ fields ↔ f ∈ own := by
    constructor
    · intro hf
      obtain ⟨mine, hmine, hfm⟩ := h f hf
      have hown := mem_of_lookup hmine
      obtain ⟨back, hback, hmb⟩ := h' _ hown
      rw [lookup_of_mem hn hf, Option.some_inj] at hback
      rw [← hback] at hmb
      have heq : f.2 = mine := hanti f hf _ hown hfm hmb
      rwa [← heq] at hown
    · intro hf
      obtain ⟨mine, hmine, hfm⟩ := h' f hf
      have hown := mem_of_lookup hmine
      obtain ⟨back, hback, hmb⟩ := h _ hown
      rw [lookup_of_mem hn' hf, Option.some_inj] at hback
      rw [← hback] at hmb
      have heq : mine = f.2 := hanti _ hown f hf hmb hfm
      rwa [heq] at hown
  exact List.Perm.eq_of_pairwise (fun f g _ _ hlt hgt => absurd hgt (String.lt_asymm hlt)) hs hs'
    ((List.perm_ext_iff_of_nodup (List.Nodup.of_map _ hn) (List.Nodup.of_map _ hn')).2 hmem)

/-- Strict subtyping is antisymmetric for types in normal form. -/
theorem IsCanonical.eq_of_accepts {a b : Ty} (ha : IsCanonical a) (hb : IsCanonical b)
    (hab : accepts .strict a b = true) (hba : accepts .strict b a = true) : a = b := by
  induction a generalizing b with
  | union members ih =>
      cases b with
      | union others =>
          have hrow := ha.isRow
          have hrow' := hb.isRow
          refine congrArg union (hrow.eq_of_covered hrow' (fun m hm => (ha.of_member hm).legible)
            (fun n hn => (hb.of_member hn).legible)
            (fun m hm n hn => ih m hm (ha.of_member hm) (hb.of_member hn)) (fun m hm => ?_)
            fun n hn => ?_)
          · exact (accepts_union_iff (hrow.isPlain hm)).1 (accepts_of_mem_union hba hm)
          · exact (accepts_union_iff (hrow'.isPlain hn)).1 (accepts_of_mem_union hab hn)
      | generic name => cases hb.ground
      | constrained name bound => cases hb.ground
      | _ => cases hb.isPlain_of_accepts ha rfl hba hab
  | generic name => cases ha.ground
  | constrained name bound => cases ha.ground
  | integer | string | none | emptyArray =>
      have hplain := ha.isPlain_of_accepts hb rfl hab hba
      exact ((accepts_scalar_iff rfl hplain).1 hab).symm
  | float =>
      have hplain := ha.isPlain_of_accepts hb rfl hab hba
      rcases (accepts_float_iff hplain).1 hab with rfl | rfl
      · rfl
      · cases (accepts_scalar_iff rfl rfl).1 hba
  | boolean =>
      have hplain := ha.isPlain_of_accepts hb rfl hab hba
      rcases (accepts_boolean_iff hplain).1 hab with rfl | ⟨hc, -⟩
      · rfl
      · cases hc
  | array element ih =>
      have hplain := ha.isPlain_of_accepts hb rfl hab hba
      rcases (accepts_array_iff hplain).1 hab with rfl | ⟨own, rfl, hown⟩
      · cases (accepts_scalar_iff rfl rfl).1 hba
      · rw [accepts_array_array] at hba
        rw [ih ha.of_array hb.of_array hown hba]
  | function params result ihparams ihresult =>
      have hplain := ha.isPlain_of_accepts hb rfl hab hba
      obtain ⟨own, ownResult, rfl, hparams, hresult⟩ := (accepts_function_iff hplain).1 hab
      obtain ⟨hparams', hresult'⟩ := accepts_function_function.1 hba
      have heq : params = own := eq_of_forall₂ hparams hparams' fun p hp q hq =>
        ihparams p hp (ha.of_param hp) (hb.of_param hq)
      rw [heq, ihresult ha.of_result hb.of_result hresult hresult']
  | record fields ih =>
      have hplain := ha.isPlain_of_accepts hb rfl hab hba
      obtain ⟨own, rfl, hfields⟩ := (accepts_record_iff hplain).1 hab
      rcases hfields with rfl | hfields
      · rfl
      · rcases accepts_record_record.1 hba with rfl | hown
        · rfl
        · rw [eq_of_fields ha.canonical.here.2 hb.canonical.here.2 hfields hown fun f hf g hg =>
            ih f hf (ha.of_field hf) (hb.of_field hg)]

end Antisymmetry

end LazyLang.Ty
