import LazyLang.Library
import LazyLang.Proofs.PartialCalls.Learning
import LazyLang.Proofs.Soundness.Monomorphic

/-!
# How partial calls are typed

The types of the library are regular, and so are those of all programs over it. So a call that is
made in two portions is let through if and only if each argument of the second portion passes for
the parameter that the first call has left for it (`Tree.verdict_portions`).
-/

namespace LazyLang

section Library

open Ty

theorem everywhere_union_pair {p : Ty → Prop} (hp : ∀ members, p (.union members)) {a b : Ty}
    (ha : a.Everywhere p) (hb : b.Everywhere p) : (unionOf [a, b]).Everywhere p := by
  refine .unionOf (fun members _ => hp members) ?_
  rw [List.forall_mem_cons, List.forall_mem_singleton]
  exact ⟨ha, hb⟩

theorem Builtin.regular_type (b : Builtin) : b.type.Everywhere Ty.Regular := by
  have hleaf : ∀ a : Ty, a.isVariable = true ∨ a.hasGenerics = false → a.IsSchema :=
    fun _ h => .leaf h
  have hvariable : ∀ x, IsLeaf (.generic x) := fun _ => .inl rfl
  have hunary : ∀ x (r : Ty), r.isVariable = true ∨ r.hasGenerics = false →
      (Ty.function [.generic x] r).IsSchema := fun x _ hr =>
    .function (List.forall_mem_singleton.2 (hvariable x)) (.leaf hr)
  have hbinary : ∀ x y z, (Ty.function [.generic x, .generic y] (.generic z)).IsSchema :=
    fun x y z => .function (List.forall_mem_cons.2
      ⟨hvariable x, List.forall_mem_singleton.2 (hvariable y)⟩) (.leaf (hvariable z))
  have hbound : IsSchema (unionOf [.integer, .none]) :=
    .leaf (.inr (hasGenerics_unionOf (by simp [hasGenerics])))
  have hindex : (unionOf [.integer, .none]).Everywhere Ty.Regular :=
    everywhere_union_pair (fun _ => trivial) trivial trivial
  have hitem : (unionOf [.generic "T", .none]).Everywhere Ty.Regular :=
    everywhere_union_pair (fun _ => trivial) trivial trivial
  cases b <;> simp [type, params, result, anyT, anyU, anyV, numeric, Everywhere, EverywhereEach,
    Ty.Regular, hleaf, hunary, hbinary, IsSchema.array, isVariable, hasGenerics, hbound, hindex,
    hitem]

theorem Library.regular_of_mem {entry : Entry} (h : entry ∈ Library.standard) :
    entry.type.Everywhere Ty.Regular := by
  rcases List.mem_append.1 h with h | h
  · obtain ⟨b, -, rfl⟩ := List.mem_map.1 h
    exact b.regular_type
  · rcases List.mem_cons.1 h with rfl | h
    · exact trivial
    · cases List.mem_singleton.1 h
      exact trivial

end Library

/-- The types of the names are regular. -/
def TypeScope.Regular (scope : TypeScope) : Prop :=
  ∀ name a, scope.get? name = some a → a.Everywhere Ty.Regular

theorem Scope.type_mem_of_bindEntries {entries : List Entry} {st : Store} {name : String}
    {binding : Binding} (h : (name, binding) ∈ (bindEntries entries st).1) :
    ∃ entry ∈ entries, binding.type = entry.type := by
  induction entries generalizing st with
  | nil => cases h
  | cons entry rest ih =>
      rcases List.mem_cons.1 h with heq | h
      · cases heq
        exact ⟨entry, List.mem_cons_self, rfl⟩
      · obtain ⟨other, hother, heq⟩ := ih h
        exact ⟨other, List.mem_cons_of_mem _ hother, heq⟩

theorem Scope.regular_standard (st : Store) : (Scope.standard st).1.types.Regular := by
  intro name a ha
  obtain ⟨b, hb, -, rfl⟩ := exists_binding_of_types ha
  obtain ⟨layer, hlayer, hmem⟩ := Layers.exists_mem_of_get? hb
  have hlayer : layer = (bindEntries Library.standard st).1 := List.mem_singleton.1 hlayer
  rw [hlayer] at hmem
  obtain ⟨entry, hentry, heq⟩ := type_mem_of_bindEntries hmem
  rw [heq]
  exact Library.regular_of_mem hentry

namespace Tree

open Evidence Fitted Ty

variable {scope : TypeScope}

section Regular

theorem everywhere_awaiting {p : Ty → Prop} {rest : List Ty} {result : Ty}
    (hp : p (.function rest result)) (hrest : ∀ a ∈ rest, a.Everywhere p)
    (hresult : result.Everywhere p) : (awaiting rest result).Everywhere p := by
  cases rest with
  | nil => exact hresult
  | cons a rest => exact ⟨hp, everywhereEach_iff.2 hrest, hresult⟩

mutual

/-- In a scope of regular types all programs are of regular types. -/
theorem verdict_regular (hscope : scope.Regular) :
    (e : Tree) → ∀ a, e.verdict scope = some a → a.Everywhere Ty.Regular
  | .identifier _ name, a, h => hscope name a h
  | .integer _ _, _, h | .float _ _, _, h | .string _ _, _, h | .boolean _ _, _, h
  | .none _, _, h => by
      cases h
      exact trivial
  | .unrecognized _ _, _, h => by cases h
  | .array _ elements, a, h => by
      rw [verdict] at h
      obtain ⟨types, htypes, rfl⟩ := Option.map_eq_some_iff.1 h
      have hall := verdicts_regular hscope elements types htypes
      cases types with
      | nil => exact trivial
      | cons => exact ⟨trivial, .unionOf (fun _ _ => trivial) hall⟩
  | .call _ callee args, a, h => by
      rw [verdict] at h
      split at h
      · next params result found hcallee hfound =>
          obtain ⟨⟨rest, known⟩, hfits, rfl⟩ := Option.map_eq_some_iff.1 h
          obtain ⟨hschemas, hparams, hresult⟩ := verdict_regular hscope callee _ hcallee
          rw [everywhereEach_iff] at hparams
          have hargs := argVerdicts_regular hscope args found hfound
          obtain ⟨hrest, hknown⟩ := regular_fits? .nil hargs hfits
          exact hknown.substitute (everywhere_awaiting (fun p hp => hschemas p (hrest hp))
            (fun p hp => hparams p (hrest hp)) hresult)
      · cases h

theorem verdicts_regular (hscope : scope.Regular) : (elements : List Tree) → ∀ types,
    verdicts scope elements = some types → ∀ a ∈ types, a.Everywhere Ty.Regular
  | [], types, h => by
      cases h
      exact fun a ha => absurd ha List.not_mem_nil
  | e :: rest, types, h => by
      rw [verdicts] at h
      split at h
      · next a found ha hfound =>
          cases h
          exact List.forall_mem_cons.2 ⟨verdict_regular hscope e a ha,
            verdicts_regular hscope rest found hfound⟩
      · cases h

theorem argVerdicts_regular (hscope : scope.Regular) : (args : List (Option Tree)) → ∀ found,
    argVerdicts scope args = some found → ∀ a, some a ∈ found → a.Everywhere Ty.Regular
  | [], found, h => by
      cases h
      exact fun a ha => absurd ha List.not_mem_nil
  | Option.none :: rest, found, h => by
      rw [argVerdicts] at h
      obtain ⟨found, hfound, rfl⟩ := Option.map_eq_some_iff.1 h
      intro a ha
      rcases List.mem_cons.1 ha with heq | ha
      · cases heq
      · exact argVerdicts_regular hscope rest found hfound a ha
  | some e :: rest, found, h => by
      rw [argVerdicts] at h
      split at h
      · next b found hb hfound =>
          cases h
          intro a ha
          rcases List.mem_cons.1 ha with heq | ha
          · cases heq
            exact verdict_regular hscope e _ hb
          · exact argVerdicts_regular hscope rest found hfound a ha
      · cases h

end

end Regular

theorem argVerdicts_map_some (scope : TypeScope) (args : List Tree) :
    argVerdicts scope (args.map some) = (verdicts scope args).map (·.map some) := by
  induction args with
  | nil => rfl
  | cons e rest ih =>
      rw [List.map_cons, argVerdicts, verdicts, ih]
      cases e.verdict scope <;> cases verdicts scope rest <;> rfl

theorem verdicts_eq_some_iff {args : List Tree} {types : List Ty} :
    verdicts scope args = some types ↔
      args.Forall₂ (fun e a => e.verdict scope = some a) types := by
  induction args generalizing types with
  | nil => cases types <;> simp [verdicts]
  | cons e rest ih =>
      rw [verdicts]
      cases types with
      | nil => cases e.verdict scope <;> cases verdicts scope rest <;> simp
      | cons a types =>
          rw [List.forall₂_cons, ← ih]
          cases e.verdict scope <;> cases verdicts scope rest <;> simp

/-- The type of a call without placeholders. -/
theorem verdict_calling {f : Tree} {args : List Tree} {params : List Ty} {result : Ty}
    {types : List Ty} (hf : f.verdict scope = some (.function params result))
    (hargs : verdicts scope args = some types) :
    (calling f args).verdict scope = (fits? params (types.map some) []).map fun (rest, known) =>
      known.substitute (awaiting rest result) := by
  rw [calling, verdict, hf, argVerdicts_map_some, hargs]
  rfl

theorem exists_verdicts_of_calling {f : Tree} {args : List Tree} {a : Ty}
    (h : (calling f args).verdict scope = some a) : ∃ types, verdicts scope args = some types := by
  rw [calling, verdict, argVerdicts_map_some] at h
  cases hargs : verdicts scope args with
  | some types => exact ⟨types, rfl⟩
  | none =>
      rw [hargs] at h
      split at h
      · next heq => cases heq
      · cases h

theorem exists_of_verdicts_append {xs ys : List Tree} {types : List Ty}
    (h : verdicts scope (xs ++ ys) = some types) :
    ∃ ts us, verdicts scope xs = some ts ∧ verdicts scope ys = some us ∧ types = ts ++ us := by
  induction xs generalizing types with
  | nil => exact ⟨[], types, rfl, h, rfl⟩
  | cons e rest ih =>
      rw [List.cons_append, verdicts] at h
      split at h
      · next a found ha hfound =>
          cases h
          obtain ⟨ts, us, hts, hus, rfl⟩ := ih hfound
          exact ⟨a :: ts, us, by rw [verdicts, ha, hts], hus, rfl⟩
      · cases h

/-- The tree is of a type that passes for the parameter. -/
def PassesFor (scope : TypeScope) (p : Ty) (e : Tree) : Prop :=
  ∃ a, e.verdict scope = some a ∧ p.isSubtype a = true

theorem forall₂_passesFor_iff {params types : List Ty} {args : List Tree}
    (h : verdicts scope args = some types) :
    params.Forall₂ (PassesFor scope) args ↔
      params.Forall₂ (fun p a => p.isSubtype a = true) types := by
  rw [verdicts_eq_some_iff] at h
  induction h generalizing params with
  | nil => rw [List.forall₂_nil_right_iff, List.forall₂_nil_right_iff]
  | @cons e a _ _ ha _ ih =>
      cases params with
      | nil => exact iff_of_false (fun h => nomatch h) fun h => nomatch h
      | cons p params =>
          rw [List.forall₂_cons, List.forall₂_cons, ih, PassesFor, ha]
          simp

/-- A call that fills all parameters is let through if its arguments fit them. -/
theorem exists_verdict_calling_iff {f : Tree} {args : List Tree} {params types : List Ty}
    {result : Ty} (hf : f.verdict scope = some (.function params result))
    (hargs : verdicts scope args = some types) (hlen : params.length = args.length) :
    (∃ a, (calling f args).verdict scope = some a) ↔
      ∃ known, fits? params (types.map some) [] = some ([], known) := by
  rw [verdict_calling hf hargs]
  constructor
  · rintro ⟨a, ha⟩
    obtain ⟨⟨rest, known⟩, hfits, -⟩ := Option.map_eq_some_iff.1 ha
    have htypes := (verdicts_eq_some_iff.1 hargs).length_eq
    have hfilled := length_fits? hfits
    obtain rfl : rest = [] := List.eq_nil_of_length_eq_zero (by omega)
    exact ⟨known, hfits⟩
  · rintro ⟨known, hfits⟩
    exact ⟨_, Option.map_eq_some_iff.2 ⟨_, hfits, rfl⟩⟩

/-- A call that is let through with all arguments at once is let through in two portions if and only
if each argument of the second portion passes for the parameter that the first portion leaves. -/
theorem verdict_portions (hscope : scope.Regular) {f : Tree} {xs ys : List Tree} {params : List Ty}
    {result a : Ty} (hys : ys ≠ []) (hf : f.verdict scope = some (.function params result))
    (hlen : params.length = xs.length + ys.length)
    (h : (calling f (xs ++ ys)).verdict scope = some a) :
    ∃ rest given, (calling f xs).verdict scope = some (.function rest given) ∧
      rest.length = ys.length ∧
        ((∃ b, (calling (calling f xs) ys).verdict scope = some b) ↔
          rest.Forall₂ (PassesFor scope) ys) := by
  obtain ⟨types, htypes⟩ := exists_verdicts_of_calling h
  obtain ⟨ts, us, hts, hus, rfl⟩ := exists_of_verdicts_append htypes
  have hlen' : params.length = (xs ++ ys).length := hlen.trans List.length_append.symm
  obtain ⟨known, hfits⟩ := (exists_verdict_calling_iff hf htypes hlen').1 ⟨a, h⟩
  obtain ⟨hschemas, hregular, -⟩ := verdict_regular hscope f _ hf
  obtain ⟨rest, σ, hfirst, hrest, hportions⟩ := fits?_portions
    (fun q hq => ⟨hschemas q hq, everywhereEach_iff.1 hregular q hq⟩)
    (verdicts_regular hscope xs ts hts) (verdicts_regular hscope ys us hus) hfits
  rw [← (verdicts_eq_some_iff.1 hus).length_eq] at hrest
  have hleft : (σ.substituteEach rest).length = ys.length := by
    rw [substituteEach_eq_map, List.length_map, hrest]
  have hcall : (calling f xs).verdict scope =
      some (.function (σ.substituteEach rest) (σ.substitute result)) := by
    rw [verdict_calling hf hts, hfirst]
    cases rest with
    | nil => exact absurd (List.eq_nil_of_length_eq_zero hrest.symm) hys
    | cons => rfl
  refine ⟨_, _, hcall, hleft, ?_⟩
  rw [exists_verdict_calling_iff hcall hus hleft, forall₂_passesFor_iff hus]
  exact hportions

end Tree

end LazyLang
