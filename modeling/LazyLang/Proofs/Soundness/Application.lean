import LazyLang.Proofs.Currying
import LazyLang.Proofs.Soundness.Kinds

/-!
# Applying functions in part

If a function returns a value of a kind for all arguments of its parameters, it also does so when
they come in portions, with placeholders for those to come.
-/

namespace LazyLang

namespace Function

/-- All arguments, where `later` are those that `args` left open and those after it: two portions
that leave no slot open. -/
def mergeArgs : List (Option Ref) → List Ref → List Ref
  | [], later => later
  | some r :: args, later => r :: mergeArgs args later
  | none :: args, r :: later => r :: mergeArgs args later
  | none :: _, [] => []

theorem map_mergeArgs {args : List (Option Ref)} {later : List Ref}
    (h : openCount args ≤ later.length) :
    (mergeArgs args later).map some = joinArgs args (later.map some) := by
  induction args generalizing later with
  | nil => rfl
  | cons arg args ih =>
      cases arg with
      | some r => rw [mergeArgs, List.map_cons, joinArgs, ih (by simpa using h)]
      | none =>
          cases later with
          | nil => simp at h
          | cons r later =>
              rw [mergeArgs, List.map_cons, List.map_cons, joinArgs, ih (by simpa using h)]

end Function

open LazyLang.Function

variable {total : Bool} {w w' : World}

/-- Arguments for the parameters from left to right, and the parameters that stay open: those of the
placeholders and those after the last argument. -/
inductive Supplies (total : Bool) (w : World) : List Kind → List (Option Ref) → List Kind → Prop
  | nil (params : List Kind) : Supplies total w params [] params
  | arg {S : Kind} {r : Ref} {params rest : List Kind} {args : List (Option Ref)}
      (hr : Lazy total S w r) (h : Supplies total w params args rest) :
      Supplies total w (S :: params) (some r :: args) rest
  | placeholder {S : Kind} {params rest : List Kind} {args : List (Option Ref)}
      (h : Supplies total w params args rest) :
      Supplies total w (S :: params) (none :: args) (S :: rest)

namespace Supplies

variable {params rest : List Kind} {args : List (Option Ref)}

theorem mono (h : Supplies total w params args rest) (hle : w ≤ w') :
    Supplies total w' params args rest := by
  induction h with
  | nil params => exact .nil params
  | arg hr _ ih => exact .arg (hr.mono hle) ih
  | placeholder _ ih => exact .placeholder ih

theorem length_le (h : Supplies total w params args rest) : args.length ≤ params.length := by
  induction h with
  | nil => exact Nat.zero_le _
  | arg _ _ ih => exact Nat.succ_le_succ ih
  | placeholder _ ih => exact Nat.succ_le_succ ih

theorem length_rest (h : Supplies total w params args rest) :
    rest.length + args.length = params.length + openCount args := by
  induction h with
  | nil => rfl
  | arg _ _ ih =>
      simp only [List.length_cons, openCount_some]
      omega
  | placeholder _ ih =>
      simp only [List.length_cons, openCount_none]
      omega

/-- With arguments for the parameters that stayed open there are arguments for all. -/
theorem merge (h : Supplies total w params args rest) (hle : w ≤ w') {later : List Ref}
    (hlater : List.Forall₂ (fun S r => Lazy total S w' r) rest later) :
    List.Forall₂ (fun S r => Lazy total S w' r) params (mergeArgs args later) := by
  induction h generalizing later with
  | nil => exact hlater
  | arg hr _ ih => exact .cons (hr.mono hle) (ih hlater)
  | placeholder _ ih =>
      cases hlater with
      | cons hr hlater => exact .cons hr (ih hlater)

/-- Without open parameters there is an argument for each. -/
theorem exists_refs (h : Supplies total w params args []) :
    ∃ refs, args = refs.map some ∧ List.Forall₂ (fun S r => Lazy total S w r) params refs := by
  generalize hrest : ([] : List Kind) = rest at h
  induction h with
  | nil =>
      subst hrest
      exact ⟨[], rfl, .nil⟩
  | @arg S r params rest args hr _ ih =>
      obtain ⟨refs, rfl, hrefs⟩ := ih hrest
      exact ⟨r :: refs, rfl, .cons hr hrefs⟩
  | placeholder => cases hrest

end Supplies

/-- What a function gives that is still open in some parameters: what it gives with none, and a
function of them otherwise. -/
def Kind.awaiting (total : Bool) (rest : List Kind) (result : Kind) : Kind :=
  match rest with
  | [] => result
  | rest => .function total rest result

/-- A function without arguments is as good as its body. -/
theorem Maps.of_body {params : List Kind} {result : Kind} {f : Function}
    (hf : f.slots = List.replicate params.length none)
    (h : ∀ w', w ≤ w' → ∀ args, List.Forall₂ (fun S r => Lazy total S w' r) params args →
      Returns total w' (fun R => R.runBody f args) result.holds) :
    Maps total params result w f := by
  constructor
  · change openCount f.slots = params.length
    rw [hf, openCount_replicate]
  · intro w' hle args hargs
    refine Returns.apply (Yields.congr (h w' hle args hargs) fun n => ?_)
    unfold Runner.applyFunction
    rw [supply_map_some (hargs.length_eq ▸ hf)]

/-- A function that waits for the rest of its arguments. -/
theorem Maps.withSlots {params rest : List Kind} {result : Kind} {f : Function}
    {args : List (Option Ref)} (hf : Maps total params result w f)
    (h : Supplies total w params args rest) :
    Maps total rest result w (f.withSlots (fillSlots f.slots args)) := by
  have hopen : openCount f.slots = params.length := hf.1
  have hle := h.length_le
  have hrest := h.length_rest
  rw [← hopen] at hle hrest
  have hcount := openCount_fillSlots hle
  constructor
  · change openCount (f.withSlots (fillSlots f.slots args)).slots = rest.length
    rw [slots_withSlots]
    omega
  · intro w' hw later hlater
    have hall := h.merge hw hlater
    refine Yields.congr (hf.2 w' hw _ hall) fun n => ?_
    cases n with
    | zero => rfl
    | succ n =>
        have hlen := hlater.length_eq
        have hmerged : (mergeArgs args later).map some = joinArgs args (later.map some) :=
          map_mergeArgs (by omega)
        have hfew : (later.map some).length ≤ openCount (fillSlots f.slots args) := by
          rw [List.length_map]
          omega
        have happly := (Runner.ofFuel n).applyFunction_joinArgs hle hfew
        rw [← hmerged] at happly
        exact congrArg ExceptT.run happly

/-- A function of some kind applied to arguments of its parameters. -/
theorem Maps.apply {params rest : List Kind} {result : Kind} {f : Function}
    {args : List (Option Ref)} (hf : Maps total params result w f)
    (h : Supplies total w params args rest) :
    Returns total w (fun R => R.apply f args) (Kind.awaiting total rest result).holds := by
  cases rest with
  | nil =>
      obtain ⟨refs, rfl, hrefs⟩ := h.exists_refs
      exact hf.2 w (le_refl w) refs hrefs
  | cons S rest =>
      have hopen : openCount f.slots = params.length := hf.1
      have hle := h.length_le
      have hrest := h.length_rest
      rw [← hopen] at hle hrest
      have hcount := openCount_fillSlots hle
      rw [List.length_cons] at hrest
      have hwaits : Returns total w
          (fun _ => pure (Value.function (f.withSlots (fillSlots f.slots args))))
          (Kind.awaiting total (S :: rest) result).holds :=
        Returns.pure ⟨_, rfl, hf.withSlots h⟩
      refine Returns.apply (Yields.congr hwaits fun n => ?_)
      unfold Runner.applyFunction
      rw [supply_awaiting hle (by omega)]

end LazyLang
