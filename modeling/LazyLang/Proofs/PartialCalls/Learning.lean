import LazyLang.Proofs.PartialCalls.Schemas
import LazyLang.Proofs.Verdict

/-!
# Learning after a partial call

The arguments that come in a second call meet parameters into which the evidence of the first call
has been put. The variables that are still open learn from them what they learn in one call, so an
argument that fits its parameter in one call fits it in the second one, if the parameter as it
stands accepts it (`Fitted.fits?_frozen`).
-/

namespace LazyLang

namespace Evidence

open Ty

theorem collectMembers_ground {members : List Ty} (h : ∀ m ∈ members, m.hasGenerics = false)
    (u : Ty) (e : Evidence) : collectMembers members u e = e := by
  induction members with
  | nil => rw [collectMembers]
  | cons m rest ih =>
      rw [List.forall_mem_cons] at h
      rw [collectMembers, if_neg (by simp [h.1]), ih h.2]

theorem collectParams_ground {params : List Ty} (h : ∀ p ∈ params, ∀ u e, collect p u e = e)
    (own : List Ty) (e : Evidence) : collectParams params own e = e := by
  induction params generalizing own e with
  | nil => rw [collectParams.eq_def]
  | cons p rest ih =>
      rw [List.forall_mem_cons] at h
      cases own with
      | nil => rw [collectParams.eq_def]
      | cons mine own => rw [collectParams, h.1, ih h.2]

theorem collectFields_ground {fields : List (String × Ty)}
    (h : ∀ f ∈ fields, ∀ u e, collect f.2 u e = e) (own : List (String × Ty)) (e : Evidence) :
    collectFields fields own e = e := by
  induction fields with
  | nil => rw [collectFields]
  | cons f rest ih =>
      rw [List.forall_mem_cons] at h
      rw [collectFields]
      split
      · rw [h.1, ih h.2]
      · exact ih h.2

/-- There is no evidence in a type without variables. -/
theorem collect_ground {a : Ty} (h : a.hasGenerics = false) (u : Ty) (e : Evidence) :
    collect a u e = e := by
  induction a generalizing u e with
  | generic | constrained => cases h
  | array element ih =>
      rw [collect.eq_def]
      cases u with
      | array own => exact ih h own e
      | _ => rfl
  | function params result ihparams ihresult =>
      rw [hasGenerics, Bool.or_eq_false_iff] at h
      have hparams := fun p hp => ihparams p hp (hasGenerics_of_mem h.1 hp)
      rw [collect.eq_def]
      cases u with
      | function own ownResult =>
          dsimp only
          rw [collectParams_ground hparams, ite_self, ihresult h.2]
      | _ => rfl
  | union members ih =>
      rw [collect.eq_def]
      refine List.foldlRecOn (motive := fun e' => e' = e) _ _ rfl fun e' he' m _ => ?_
      rw [collectMembers_ground (fun m hm => hasGenerics_of_mem h hm), ite_self, he']
  | record fields ih =>
      have hfields := fun f hf => ih f hf (hasGenerics_of_mem_fields h hf)
      rw [collect.eq_def]
      cases u with
      | record own => exact collectFields_ground hfields own e
      | _ => rfl
  | _ => rw [collect]

section Frozen

variable {σ d e : Evidence} {q u : Ty} {x : String} (hσ : σ.WellFormed)

include hσ

/-- A variable that `σ` does not know learns the same from a leaf before and after `σ` is put in. -/
theorem get?_collect_leaf (hx : σ.get? x = Option.none) (hq : q.IsLeaf) (hd : d.WellFormed)
    (he : e.WellFormed) (h : d.get? x = e.get? x) (u : Ty) :
    (collect (σ.substitute q) u d).get? x = (collect q u e).get? x := by
  have hvar : ∀ name, (noted name u d).get? x = (noted name u e).get? x := fun name =>
    get?_noted_congr hd he h name u
  have hother : ∀ name a, σ.get? name = some a →
      (collect a u d).get? x = (noted name u e).get? x := by
    intro name a hname
    have hne : x ≠ name := fun heq => by
      rw [heq, hname] at hx
      cases hx
    rw [collect_ground (hσ.ground_of_get? hname), get?_noted_of_ne he hne, h]
  rcases hq with hvariable | hground
  · cases q with
    | generic name =>
        rw [collect_generic, substitute]
        cases hname : σ.get? name with
        | none => exact (congrArg (get? · x) (collect_generic name u d)).trans (hvar name)
        | some a => exact hother name a hname
    | constrained name bound =>
        rw [collect_constrained, substitute]
        cases hname : σ.get? name with
        | none => exact (congrArg (get? · x) (collect_constrained name bound u d)).trans (hvar name)
        | some a => exact hother name a hname
    | _ => cases hvariable
  · rw [collect_ground hground, collect_ground (hasGenerics_substitute σ hground), h]

theorem get?_collectParams_leaves (hx : σ.get? x = Option.none) {params : List Ty}
    (hparams : ∀ p ∈ params, p.IsLeaf) (hd : d.WellFormed) (he : e.WellFormed)
    (h : d.get? x = e.get? x) (own : List Ty) :
    (collectParams (σ.substituteEach params) own d).get? x = (collectParams params own e).get? x ∧
      (collectParams (σ.substituteEach params) own d).WellFormed ∧
        (collectParams params own e).WellFormed := by
  induction params generalizing own d e with
  | nil =>
      rw [substituteEach, collectParams.eq_def, collectParams.eq_def]
      exact ⟨h, hd, he⟩
  | cons p rest ih =>
      rw [List.forall_mem_cons] at hparams
      cases own with
      | nil =>
          rw [collectParams.eq_def, collectParams.eq_def]
          exact ⟨h, hd, he⟩
      | cons mine own =>
          rw [substituteEach, collectParams, collectParams]
          exact ih hparams.2 (hd.collect _ mine) (he.collect _ mine)
            (get?_collect_leaf hσ hx hparams.1 hd he h mine) own

end Frozen

/-- A variable that `σ` does not know learns the same from a schema before and after `σ` is put
in. -/
theorem get?_collect_schema {σ d e : Evidence} {q : Ty} {x : String} (hσ : σ.WellFormed)
    (hx : σ.get? x = Option.none) (hq : q.IsSchema) (hd : d.WellFormed) (he : e.WellFormed)
    (h : d.get? x = e.get? x) (u : Ty) :
    (collect (σ.substitute q) u d).get? x = (collect q u e).get? x := by
  induction hq generalizing u d e with
  | leaf hq => exact get?_collect_leaf hσ hx hq hd he h u
  | array _ ih =>
      rw [substitute, collect.eq_def, collect.eq_def (.array _)]
      cases u with
      | array own => exact ih hd he h own
      | _ => exact h
  | @function params result hparams _ ih =>
      rw [substitute, collect.eq_def, collect.eq_def (.function _ _)]
      cases u with
      | function own ownResult =>
          obtain ⟨hsame, hd', he'⟩ := get?_collectParams_leaves hσ hx hparams hd he h own
          dsimp only
          rw [substituteEach_eq_map] at hsame hd' ⊢
          rw [List.length_map]
          split
          · exact ih hd' he' hsame ownResult
          · exact ih hd he h ownResult
      | _ => exact h

/-- After an argument that fits in both calls, the open variables still mean the same in both. -/
theorem Continues.learn {σ d e : Evidence} {q u : Ty} (h : Continues σ d e) (hσ : σ.WellFormed)
    (hd : d.WellFormed) (he : e.WellFormed) (hschema : q.IsSchema) (hq : q.isSubtype u = true)
    (hfrozen : (σ.substitute q).isSubtype u = true) :
    Continues σ (Fitted.learn (σ.substitute q) u d) (Fitted.learn q u e) := by
  intro x hx
  rw [Fitted.learn, Fitted.learn, if_pos hq, if_pos hfrozen]
  exact get?_merge_congr hd he (wellFormed_nil.collect _ u) (wellFormed_nil.collect _ u) (h x hx)
    (get?_collect_schema hσ hx hschema wellFormed_nil wellFormed_nil rfl u)

namespace Regular

variable {e : Evidence}

theorem nil : Regular [] := ⟨wellFormed_nil, fun _ h => absurd h List.not_mem_nil⟩

theorem learn (h : e.Regular) (param : Ty) {found : Ty} (hfound : found.Everywhere Ty.Regular) :
    (Fitted.learn param found e).Regular := by
  have hlearn := h.throughout.learn (fun _ _ _ => trivial) param hfound
  exact ⟨hlearn.wellFormed, hlearn.everywhere⟩

end Regular

end Evidence

namespace Fitted

open Evidence Ty

variable {params rest : List Ty} {found : List Ty} {e known : Evidence}

theorem regular_fits? {found : List (Option Ty)} (he : e.Regular)
    (hfound : ∀ a, some a ∈ found → a.Everywhere Ty.Regular)
    (h : fits? params found e = some (rest, known)) : rest ⊆ params ∧ known.Regular := by
  induction found generalizing params rest e with
  | nil =>
      rw [fits?] at h
      cases h
      exact ⟨List.Subset.refl _, he⟩
  | cons a found ih =>
      have hrest : ∀ b, some b ∈ found → b.Everywhere Ty.Regular := fun b hb =>
        hfound b (List.mem_cons_of_mem _ hb)
      cases params with
      | nil => cases h
      | cons param params =>
          cases a with
          | none =>
              rw [fits?] at h
              obtain ⟨⟨rest, known⟩, hfits, heq⟩ := Option.map_eq_some_iff.1 h
              cases heq
              obtain ⟨hsub, hknown⟩ := ih he hrest hfits
              exact ⟨List.cons_subset_cons _ hsub, hknown⟩
          | some a =>
              rw [fits?] at h
              split at h
              · obtain ⟨hsub, hknown⟩ :=
                  ih (he.learn param (hfound a List.mem_cons_self)) hrest h
                exact ⟨List.subset_cons_of_subset _ hsub, hknown⟩
              · cases h

/-- Without placeholders the arguments take the parameters in turn. -/
theorem fits?_append (found : List Ty) (others : List (Option Ty)) :
    fits? params (found.map some ++ others) e =
      (fits? params (found.map some) e).bind fun (rest, known) => fits? rest others known := by
  induction found generalizing params e with
  | nil => rw [List.map_nil, List.nil_append, fits?]; rfl
  | cons a found ih =>
      rw [List.map_cons, List.cons_append]
      cases params with
      | nil => rfl
      | cons param params =>
          rw [fits?, fits?, ih]
          split <;> rfl

theorem length_fits? (h : fits? params (found.map some) e = some (rest, known)) :
    params.length = found.length + rest.length := by
  induction found generalizing params e with
  | nil =>
      rw [List.map_nil, fits?] at h
      cases h
      exact (Nat.zero_add _).symm
  | cons a found ih =>
      cases params with
      | nil => cases h
      | cons param params =>
          rw [List.map_cons, fits?] at h
          split at h
          · rw [List.length_cons, List.length_cons, ih h, Nat.succ_add]
          · cases h

/-- Arguments that fit the parameters in one call fit them in a second call, after the evidence of
the first one has been put in, if and only if each parameter as it stands accepts its argument. -/
theorem fits?_frozen {σ d : Evidence} (hσ : σ.Regular) (hd : d.Regular) (he : e.Regular)
    (hcontinues : Continues σ d e) (hparams : ∀ q ∈ params, q.IsSchema)
    (hregular : ∀ q ∈ params, q.Everywhere Ty.Regular)
    (hfound : ∀ u ∈ found, u.Everywhere Ty.Regular)
    (h : fits? params (found.map some) e = some ([], known)) :
    (∃ known', fits? (σ.substituteEach params) (found.map some) d = some ([], known')) ↔
      (σ.substituteEach params).Forall₂ (fun q u => q.isSubtype u = true) found := by
  induction found generalizing params d e with
  | nil =>
      rw [List.map_nil, fits?] at h
      cases h
      exact ⟨fun _ => .nil, fun _ => ⟨d, rfl⟩⟩
  | cons u found ih =>
      cases params with
      | nil => cases h
      | cons q params =>
          rw [List.forall_mem_cons] at hparams hregular hfound
          rw [List.map_cons, fits?] at h
          split at h
          · next hfits =>
              obtain ⟨hq, hknown⟩ := Bool.and_eq_true_iff.1 hfits
              rw [substituteEach, List.forall₂_cons, List.map_cons, fits?]
              by_cases hfrozen : (σ.substitute q).isSubtype u = true
              · have hnext :=
                  hcontinues.learn hσ.wellFormed hd.wellFormed he.wellFormed hparams.1 hq hfrozen
                have htakes := hparams.1.takes hσ hnext hregular.1 hfrozen hknown
                rw [if_pos (Bool.and_eq_true_iff.2 ⟨hfrozen, htakes⟩), and_iff_right hfrozen]
                exact ih (hd.learn _ hfound.1) (he.learn _ hfound.1) hnext hparams.2 hregular.2
                  hfound.2 h
              · rw [if_neg fun hboth => hfrozen (Bool.and_eq_true_iff.1 hboth).1]
                refine iff_of_false ?_ fun hboth => hfrozen hboth.1
                rintro ⟨_, hnone⟩
                cases hnone
          · cases h

/-- Arguments that fit the parameters at once fit them in two portions, if and only if each of the
second portion passes for the parameter that the first one leaves for it. -/
theorem fits?_portions {first second : List Ty}
    (hparams : ∀ q ∈ params, q.IsSchema ∧ q.Everywhere Ty.Regular)
    (hfirst : ∀ u ∈ first, u.Everywhere Ty.Regular)
    (hsecond : ∀ u ∈ second, u.Everywhere Ty.Regular)
    (h : fits? params ((first ++ second).map some) [] = some ([], known)) :
    ∃ rest σ, fits? params (first.map some) [] = some (rest, σ) ∧ rest.length = second.length ∧
      ((∃ known', fits? (σ.substituteEach rest) (second.map some) [] = some ([], known')) ↔
        (σ.substituteEach rest).Forall₂ (fun q u => q.isSubtype u = true) second) := by
  rw [List.map_append, fits?_append] at h
  obtain ⟨⟨rest, σ⟩, hfits, hrest⟩ := Option.bind_eq_some_iff.1 h
  have hfound : ∀ a, some a ∈ first.map some → a.Everywhere Ty.Regular := fun a ha =>
    hfirst a (List.mem_map_of_injective (Option.some_injective Ty) |>.1 ha)
  obtain ⟨hsub, hσ⟩ := regular_fits? .nil hfound hfits
  exact ⟨rest, σ, hfits, length_fits? hrest, fits?_frozen hσ .nil hσ (fun _ hx => hx.symm)
    (fun q hq => (hparams q (hsub hq)).1) (fun q hq => (hparams q (hsub hq)).2) hsecond hrest⟩

end Fitted

end LazyLang
