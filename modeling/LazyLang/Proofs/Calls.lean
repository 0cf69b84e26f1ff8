import LazyLang.Library
import LazyLang.Proofs.Subtyping.Evidence

/-!
# What a call without messages promises

Each argument of a call is checked when it is visited, against the evidence gathered up to it. Later
arguments may still widen what a variable stands for, and the result type speaks of the final
evidence. An argument that passed the check fits its parameter under the final evidence too, unless
a variable of the parameter was unknown at the visit, or stands in a contravariant place and was
widened since.
-/

namespace LazyLang

namespace Fitted

/-- No argument gives a message, and there are not too many of them. -/
def Silent (params : List Ty) (args : List (Option TypedExpr)) : Prop :=
  args.length ≤ params.length ∧ (fit params args []).args = args

/-- The evidence at the visit of the argument at `i`, its own included. -/
def visited (params : List Ty) (args : List (Option TypedExpr)) (i : Nat) : Evidence :=
  (fit params (args.take (i + 1)) []).evidence

/-- The evidence of the whole call, which the result type speaks of. -/
def final (params : List Ty) (args : List (Option TypedExpr)) : Evidence :=
  (fit params args []).evidence

/-- The variables of a parameter mean the same late as they meant early, but for those in covariant
places, which may have widened. -/
structure Settled (param : Ty) (early late : Evidence) : Prop where
  known : ∀ x ∈ param.variablesAt true, late.get? x ≠ none → early.get? x ≠ none
  kept : ∀ x ∈ param.variablesAt false, late.get? x = early.get? x

/-- What is known after the visit of an argument. -/
def afterVisit (param : Ty) (arg : TypedExpr) (e : Evidence) : Evidence :=
  match arg.info with
  | none => e
  | some found => learn param found e

theorem fit_cons_some (param : Ty) (params : List Ty) (arg : TypedExpr)
    (args : List (Option TypedExpr)) (e : Evidence) :
    (fit (param :: params) (some arg :: args) e).evidence =
      (fit params args (afterVisit param arg e)).evidence := by
  rw [afterVisit]
  cases hinfo : arg.info with
  | none => rw [fit_untyped hinfo]
  | some found => rw [fit_typed hinfo]

theorem wellFormed_afterVisit {e : Evidence} (he : e.WellFormed) (param : Ty) (arg : TypedExpr) :
    (afterVisit param arg e).WellFormed := by
  unfold afterVisit
  split
  · exact he
  · exact he.learn param _

theorem grows_afterVisit {e : Evidence} (he : e.WellFormed) (param : Ty) (arg : TypedExpr) :
    e.Grows (afterVisit param arg e) := by
  unfold afterVisit
  split
  · exact .refl e
  · exact Evidence.grows_learn he param _

/-- From the first argument to the last, the evidence stays well-formed and grows. -/
theorem fit_evidence (params : List Ty) (args : List (Option TypedExpr)) {e : Evidence}
    (he : e.WellFormed) :
    (fit params args e).evidence.WellFormed ∧ e.Grows (fit params args e).evidence := by
  induction args generalizing params e with
  | nil =>
      rw [fit_nil]
      exact ⟨he, .refl e⟩
  | cons arg rest ih =>
      cases params with
      | nil => exact ⟨he, .refl e⟩
      | cons param params =>
          cases arg with
          | none => exact ih params he
          | some arg =>
              have hvisit := wellFormed_afterVisit he param arg
              rw [fit_cons_some]
              exact ⟨(ih params hvisit).1,
                (grows_afterVisit he param arg).trans hvisit (ih params hvisit).2⟩

theorem addMessages_ne_self {α : Type} (e : Expr α) (m : Message) : e.addMessages [m] ≠ e := by
  intro h
  have hm := congrArg Expr.messages h
  rw [Expr.messages_addMessages] at hm
  simp at hm

/-- An argument that is left without a message fits its parameter, as declared and as known with
it. -/
theorem isSubtype_of_checkArgument {param found : Ty} {e : Evidence} {arg : TypedExpr}
    (h : checkArgument param found e arg = arg) :
    param.isSubtype found = true ∧ (e.substitute param).isSubtype found = true := by
  by_cases hfits : (param.isSubtype found && (e.substitute param).isSubtype found) = true
  · exact Bool.and_eq_true_iff.1 hfits
  · rw [checkArgument, if_neg hfits] at h
    exact absurd h (addMessages_ne_self arg _)

theorem checkArgument_of_fit_args {param found : Ty} {params : List Ty} {arg : TypedExpr}
    {args : List (Option TypedExpr)} {e : Evidence} (hfound : arg.info = some found)
    (hs : (fit (param :: params) (some arg :: args) e).args = some arg :: args) :
    checkArgument param found (afterVisit param arg e) arg = arg := by
  rw [fit_typed hfound] at hs
  rw [afterVisit, hfound]
  exact Option.some_inj.1 (List.cons_eq_cons.1 hs).1

theorem fit_args_of_cons {param : Ty} {params : List Ty} {arg : TypedExpr}
    {args : List (Option TypedExpr)} {e : Evidence}
    (hs : (fit (param :: params) (some arg :: args) e).args = some arg :: args) :
    (fit params args (afterVisit param arg e)).args = args := by
  rw [afterVisit]
  cases hinfo : arg.info with
  | none =>
      rw [fit_untyped hinfo] at hs
      exact (List.cons_eq_cons.1 hs).2
  | some found =>
      rw [fit_typed hinfo] at hs
      exact (List.cons_eq_cons.1 hs).2

/-- An argument without a message fits its parameter under the evidence at its visit, and from then
on the evidence only grows. -/
theorem fit_accepts {params : List Ty} {args : List (Option TypedExpr)} {e : Evidence}
    (he : e.WellFormed) (hs : (fit params args e).args = args) {i : Nat} {param found : Ty}
    {arg : TypedExpr} (hparam : params[i]? = some param) (harg : args[i]? = some (some arg))
    (hfound : arg.info = some found) :
    param.isSubtype found = true ∧
      (((fit params (args.take (i + 1)) e).evidence).substitute param).isSubtype found = true ∧
        (fit params (args.take (i + 1)) e).evidence.Grows (fit params args e).evidence := by
  induction i generalizing params args e with
  | zero =>
      cases params with
      | nil => cases hparam
      | cons head params =>
          cases args with
          | nil => cases harg
          | cons head' args =>
              cases hparam
              cases harg
              have hvisit := wellFormed_afterVisit he param arg
              obtain ⟨hdeclared, hknown⟩ :=
                isSubtype_of_checkArgument (checkArgument_of_fit_args hfound hs)
              rw [List.take_succ_cons, List.take_zero, fit_cons_some, fit_cons_some, fit_nil]
              exact ⟨hdeclared, hknown, (fit_evidence params args hvisit).2⟩
  | succ i ih =>
      cases params with
      | nil => cases hparam
      | cons head params =>
          cases args with
          | nil => cases harg
          | cons head' args =>
              rw [List.getElem?_cons_succ] at hparam harg
              rw [List.take_succ_cons]
              cases head' with
              | none => exact ih he (List.cons_eq_cons.1 hs).2 hparam harg
              | some arg' =>
                  rw [fit_cons_some, fit_cons_some]
                  exact ih (wellFormed_afterVisit he head arg') (fit_args_of_cons hs) hparam harg

theorem checkArgument_eq_self {param found : Ty} {e : Evidence} (arg : TypedExpr)
    (hdeclared : param.isSubtype found = true)
    (hknown : (e.substitute param).isSubtype found = true) :
    checkArgument param found e arg = arg := by
  rw [checkArgument, if_pos (by rw [hdeclared, hknown]; rfl)]

/-- A name of a known type. -/
def named (name : String) (type : Ty) : TypedExpr := .identifier ⟨.origin, [], some type⟩ name

/-- Two arguments bring no message when each fits its parameter as declared and as known with it. -/
theorem silent_pair {p q found other : Ty} {x y : String} (hp : p.isSubtype found = true)
    (hknown : ((learn p found []).substitute p).isSubtype found = true)
    (hq : q.isSubtype other = true)
    (hlater : ((learn q other (learn p found [])).substitute q).isSubtype other = true) :
    Silent [p, q] [some (named x found), some (named y other)] := by
  refine ⟨Nat.le_refl 2, ?_⟩
  change [some (checkArgument p found (learn p found []) (named x found)),
    some (checkArgument q other (learn q other (learn p found [])) (named y other))] = _
  rw [checkArgument_eq_self _ hp hknown, checkArgument_eq_self _ hq hlater]

/-- In a call without messages every argument fits its parameter as declared and under the evidence
at its visit. It fits under the final evidence too, if the variables of the parameter are
settled. -/
theorem silent_accepts {params : List Ty} {args : List (Option TypedExpr)}
    (hd : ∀ p ∈ params, p.FieldsDistinct) (hs : Silent params args) {i : Nat} {param found : Ty}
    {arg : TypedExpr} (hparam : params[i]? = some param) (harg : args[i]? = some (some arg))
    (hfound : arg.info = some found) :
    param.isSubtype found = true ∧
      ((visited params args i).substitute param).isSubtype found = true ∧
        (Settled param (visited params args i) (final params args) →
          ((final params args).substitute param).isSubtype found = true) := by
  obtain ⟨hdeclared, hknown, hgrows⟩ :=
    fit_accepts Evidence.wellFormed_nil hs.2 hparam harg hfound
  refine ⟨hdeclared, hknown, fun hsettled => ?_⟩
  have hground := (fit_evidence params (args.take (i + 1)) Evidence.wellFormed_nil).1
  have hwidened : ∀ x ∈ param.variablesAt true,
      Evidence.Widened (visited params args i) (final params args) x := by
    intro x hx
    by_cases hlate : (final params args).get? x = none
    · left
      rw [hlate]
      by_contra hearly
      obtain ⟨a, ha⟩ := Option.ne_none_iff_exists'.1 hearly
      obtain ⟨b, hb, -⟩ := hgrows x a ha
      exact absurd (hb.symm.trans hlate) (Option.some_ne_none b)
    · obtain ⟨a, ha⟩ := Option.ne_none_iff_exists'.1 (hsettled.known x hx hlate)
      obtain ⟨b, hb, hba⟩ := hgrows x a ha
      exact .inr ⟨a, b, ha, hb, hground.ground_of_get? ha, hba⟩
  have hmore := (Evidence.substitute_variance (hd param (List.mem_of_getElem? hparam))).1 hwidened
    fun x hx => (hsettled.kept x hx).symm
  exact hmore found hknown

/-- In a sum of an integer and a float, the integer fits the variable that has become a float. -/
theorem silent_accepts_sum :
    Builtin.numeric.isSubtype .integer = true ∧
      ((visited Builtin.add.params [some (named "n" .integer), some (named "x" .float)]
        0).substitute Builtin.numeric).isSubtype .integer = true ∧
        ((final Builtin.add.params [some (named "n" .integer),
          some (named "x" .float)]).substitute Builtin.numeric).isSubtype .integer = true := by
  have hsilent : Silent Builtin.add.params [some (named "n" .integer), some (named "x" .float)] :=
    silent_pair (by decide +kernel) (by decide +kernel) (by decide +kernel) (by decide +kernel)
  have hdistinct : ∀ p ∈ Builtin.add.params, p.FieldsDistinct := by
    intro p hp
    rcases List.mem_cons.1 hp with rfl | hp
    · trivial
    · rw [List.mem_singleton.1 hp]
      trivial
  have hsettled : Settled Builtin.numeric
      (visited Builtin.add.params [some (named "n" .integer), some (named "x" .float)] 0)
      (final Builtin.add.params [some (named "n" .integer), some (named "x" .float)]) := by
    constructor
    · intro x hx _
      cases List.mem_singleton.1 hx
      decide +kernel
    · intro x hx
      cases hx
  obtain ⟨hdeclared, hknown, hfinal⟩ := silent_accepts hdistinct hsilent (i := 0) rfl rfl rfl
  exact ⟨hdeclared, hknown, hfinal hsettled⟩

/-- Without that condition it need not: `f` is fit for integers when it is visited, and then floats
are to be mapped by it. -/
theorem not_silent_accepts_final :
    ¬∀ (params : List Ty) (args : List (Option TypedExpr)), Silent params args →
      ∀ (i : Nat) (param found : Ty) (arg : TypedExpr), params[i]? = some param →
        args[i]? = some (some arg) → arg.info = some found →
          ((final params args).substitute param).isSubtype found = true := by
  intro h
  have hsilent : Silent Builtin.map.params
      [some (named "f" (.function [.integer] (.array .integer))),
        some (named "xs" (.array .float))] :=
    silent_pair (by decide +kernel) (by decide +kernel) (by decide +kernel) (by decide +kernel)
  have hfits := h _ _ hsilent 0 _ _ _ rfl rfl rfl
  exact absurd hfits (by decide +kernel)

end Fitted

end LazyLang
