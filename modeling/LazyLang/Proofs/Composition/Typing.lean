import LazyLang.Library
import LazyLang.Proofs.Subtyping.Evidence
import LazyLang.Proofs.Verdict

/-!
# How compositions are typed

The signatures of the two operators of composition list the same two function types in opposite
orders. The type between the functions is a variable of both, and the second one is checked with
what the first one has told of it. So `.` notices that the functions do not meet only if it learns
the type from the outer one, and `&` only if it learns it from the inner one. What input and output
of the composition are, each learns from one function alone.
-/

namespace LazyLang

namespace Ty

/-- What a function type of one parameter tells of the variable that it meets there. -/
def input : Ty → Option Ty
  | function [a] _ => if a.hasGenerics then Option.none else some a
  | _ => Option.none

/-- What a function type of one parameter tells of the variable that its result meets. -/
def output : Ty → Option Ty
  | function [_] r => if r.hasGenerics then Option.none else some r
  | _ => Option.none

theorem exists_of_output {found s : Ty} (h : found.output = some s) :
    ∃ b, found = function [b] s ∧ s.hasGenerics = false := by
  unfold output at h
  split at h
  · next b r =>
      split at h
      · cases h
      · next hr =>
          cases h
          exact ⟨b, rfl, Bool.eq_false_iff.2 hr⟩
  · cases h

theorem exists_of_input {found a : Ty} (h : found.input = some a) :
    ∃ r, found = function [a] r ∧ a.hasGenerics = false := by
  unfold input at h
  split at h
  · next b r =>
      split at h
      · cases h
      · next hb =>
          cases h
          exact ⟨r, rfl, Bool.eq_false_iff.2 hb⟩
  · cases h

/-- Whether the outer function takes what the inner one gives: the inner one passes for a function
to what the outer one takes, as far as that is known, and the outer one for a function from what the
inner one gives. -/
def Meets (outer inner : Ty) : Prop :=
  (function [.generic "T"] (outer.input.getD (.generic "U"))).isSubtype inner = true ∧
    (function [inner.output.getD (.generic "U")] (.generic "V")).isSubtype outer = true

end Ty

namespace Fitted

open Evidence Ty

variable {x y : String} {e : Evidence}

/-- Of what a function type from one variable to another accepts, a function of one parameter tells
of both variables, and anything else tells of none. -/
theorem learn_function (hxy : x < y) {found : Ty}
    (h : (Ty.function [.generic x] (.generic y)).isSubtype found = true) :
    (∃ a r, found = .function [a] r ∧
      learn (.function [.generic x] (.generic y)) found e = noted y r (noted x a e)) ∨
      (∀ a r, found ≠ .function [a] r) ∧
        learn (.function [.generic x] (.generic y)) found e = e := by
  rw [learn, if_pos h, ofArgument, collect.eq_def]
  cases found with
  | function own r =>
      obtain ⟨hown, -⟩ := accepts_function_function.1 h
      obtain ⟨a, rfl⟩ := List.length_eq_one_iff.1 hown.length_eq.symm
      refine .inl ⟨a, r, rfl, ?_⟩
      have hparams : collectParams [.generic x] [a] [] = noted x a [] := by
        rw [collectParams, collect_generic, collectParams.eq_def]
      simp only [List.length_singleton, if_true, hparams, collect_generic]
      have hne : ¬ y < x := lt_asymm hxy
      unfold noted
      split <;> split <;> simp [merge, Evidence.insert, hne, hxy.ne']
  | _ => exact .inr ⟨fun _ _ h => Ty.noConfusion h, rfl⟩

/-- A variable without a bound passes for everything. -/
theorem isSubtype_generic (a : Ty) (name : String) : a.isSubtype (.generic name) = true :=
  accepts_iff_parts.2 fun _ ht => nomatch ht

theorem isSubtype_function_one {a b r s : Ty} :
    (Ty.function [a] r).isSubtype (.function [b] s) = true ↔
      b.isSubtype a = true ∧ r.isSubtype s = true := by
  refine accepts_function_function.trans (and_congr_left' ?_)
  rw [List.forall₂_cons]
  exact and_iff_left .nil

section Learned

variable (hxy : x < y) (he : e.WellFormed)

include hxy he

theorem learned_input {found : Ty}
    (h : (Ty.function [.generic x] (.generic y)).isSubtype found = true)
    (hx : e.get? x = Option.none) :
    (learn (.function [.generic x] (.generic y)) found e).get? x = found.input := by
  rcases learn_function (e := e) hxy h with ⟨a, r, rfl, hlearn⟩ | ⟨hfound, hlearn⟩
  · rw [hlearn, get?_noted_of_ne (he.noted x a) hxy.ne, get?_noted_of_unknown he hx, input]
  · rw [hlearn, hx, input]
    exact fun a r heq => hfound a r heq

theorem learned_output {found : Ty}
    (h : (Ty.function [.generic x] (.generic y)).isSubtype found = true)
    (hy : e.get? y = Option.none) :
    (learn (.function [.generic x] (.generic y)) found e).get? y = found.output := by
  rcases learn_function (e := e) hxy h with ⟨a, r, rfl, hlearn⟩ | ⟨hfound, hlearn⟩
  · have hnone : (noted x a e).get? y = Option.none := by
      rw [get?_noted_of_ne he hxy.ne', hy]
    rw [hlearn, get?_noted_of_unknown (he.noted x a) hnone, output]
  · rw [hlearn, hy, output]
    exact fun a r heq => hfound a r heq

theorem learned_of_ne {found : Ty}
    (h : (Ty.function [.generic x] (.generic y)).isSubtype found = true) {z : String} (hx : z ≠ x)
    (hy : z ≠ y) : (learn (.function [.generic x] (.generic y)) found e).get? z = e.get? z := by
  rcases learn_function (e := e) hxy h with ⟨a, r, rfl, hlearn⟩ | ⟨hfound, hlearn⟩
  · rw [hlearn, get?_noted_of_ne (he.noted x a) hy, get?_noted_of_ne he hx]
  · rw [hlearn]

/-- A function of one parameter fits, with what it tells itself, if it takes what is known of its
input and its result has no variables or passes for what is known of it. -/
theorem fits_function {a r : Ty} :
    ((learn (.function [.generic x] (.generic y)) (.function [a] r) e).substitute
        (.function [.generic x] (.generic y))).isSubtype (.function [a] r) = true ↔
      a.isSubtype ((e.get? x).getD (.generic x)) = true ∧
        (r.hasGenerics = false ∨ ((e.get? y).getD (.generic y)).isSubtype r = true) := by
  have h : (Ty.function [.generic x] (.generic y)).isSubtype (.function [a] r) = true :=
    isSubtype_function_one.2 ⟨isSubtype_generic a x, accepts_generic _ y r⟩
  rcases learn_function (e := e) hxy h with ⟨_, _, heq, hlearn⟩ | ⟨hfound, -⟩
  · cases heq
    rw [hlearn]
    refine isSubtype_function_one.trans (and_congr ?_ ?_)
    · rw [substitute, get?_noted_of_ne (he.noted x a) hxy.ne]
      by_cases ha : a.hasGenerics = true
      · rw [noted_of_hasGenerics ha]
      · rw [get?_noted_self he x (Bool.eq_false_iff.2 ha)]
        cases e.get? x with
        | none => exact iff_of_true (accepts_self _ a) (isSubtype_generic a x)
        | some known =>
            refine accepts_of_unionOf_iff.trans ⟨fun h => h known List.mem_cons_self, fun h => ?_⟩
            exact List.forall_mem_cons.2 ⟨h, List.forall_mem_singleton.2 (accepts_self _ a)⟩
    · rw [substitute]
      by_cases hr : r.hasGenerics = true
      · rw [noted_of_hasGenerics hr, get?_noted_of_ne he hxy.ne']
        exact (or_iff_right (by rw [hr]; exact Bool.true_eq_false.mp)).symm
      · have hr := Bool.eq_false_iff.2 hr
        rw [get?_noted_self (he.noted x a) y hr]
        refine iff_of_true ?_ (.inl hr)
        cases (noted x a e).get? y with
        | none => exact accepts_self _ r
        | some known =>
            have hself := accepts_self .truthiness (unionOf [known, r])
            exact accepts_of_unionOf_iff.1 hself r (List.mem_cons_of_mem _ List.mem_cons_self)
  · exact absurd rfl (hfound a r)

end Learned

/-- Both operators make a function from what the inner function takes to what the outer one
gives. -/
def pipelineType (outer inner : Ty) : Ty :=
  .function [inner.input.getD (.generic "T")] (outer.output.getD (.generic "V"))

section Composition

variable {outer inner : Ty}

theorem fits_first {found : Ty} (hxy : x < y)
    (h : (Ty.function [.generic x] (.generic y)).isSubtype found = true) :
    ((learn (.function [.generic x] (.generic y)) found []).substitute
      (.function [.generic x] (.generic y))).isSubtype found = true := by
  rcases learn_function (e := []) hxy h with ⟨a, r, rfl, -⟩ | ⟨-, hlearn⟩
  · exact (fits_function hxy wellFormed_nil).2 ⟨isSubtype_generic a x, .inr (accepts_generic _ y r)⟩
  · rw [hlearn]
    exact h

/-- The inner function, as the second argument, fits if its output is learnt from it or it passes
for a function to what the outer one takes. -/
theorem fits_inner {e : Evidence} (he : e.WellFormed) (hT : e.get? "T" = Option.none)
    (hU : e.get? "U" = outer.input)
    (h : (Ty.function [.generic "T"] (.generic "U")).isSubtype inner = true) :
    ((learn (.function [.generic "T"] (.generic "U")) inner e).substitute
        (.function [.generic "T"] (.generic "U"))).isSubtype inner = true ↔
      inner.output.isSome = true ∨
        (Ty.function [.generic "T"] (outer.input.getD (.generic "U"))).isSubtype inner = true := by
  have hTU : "T" < "U" := by decide
  rcases learn_function (e := e) hTU h with ⟨b, s, rfl, -⟩ | ⟨hinner, hlearn⟩
  · rw [fits_function hTU he, isSubtype_function_one, hT, hU, output]
    simp only [Option.getD_none, isSubtype_generic, true_and]
    cases s.hasGenerics <;> simp
  · have hnone : inner.output = Option.none := by
      rw [output]
      exact fun b s heq => hinner b s heq
    rw [hlearn, hnone, substitute, substituteEach, substituteEach, substitute, substitute, hT, hU]
    simp

/-- The outer function, as the second argument, fits if it passes for a function from what the inner
one gives. -/
theorem fits_outer {e : Evidence} (he : e.WellFormed) (hV : e.get? "V" = Option.none)
    (hU : e.get? "U" = inner.output)
    (h : (Ty.function [.generic "U"] (.generic "V")).isSubtype outer = true) :
    ((learn (.function [.generic "U"] (.generic "V")) outer e).substitute
        (.function [.generic "U"] (.generic "V"))).isSubtype outer = true ↔
      (Ty.function [inner.output.getD (.generic "U")] (.generic "V")).isSubtype outer = true := by
  have hUV : "U" < "V" := by decide
  rcases learn_function (e := e) hUV h with ⟨a, r, rfl, -⟩ | ⟨-, hlearn⟩
  · rw [fits_function hUV he, isSubtype_function_one, hV, hU]
    have hr : (Ty.generic "V").isSubtype r = true := accepts_generic _ _ _
    simp only [Option.getD_none, hr, or_true, and_true]
  · rw [hlearn, substitute, substituteEach, substituteEach, substitute, substitute, hV, hU]
    rfl

/-- Whether both types pass for functions of one parameter. -/
def Composable (outer inner : Ty) : Prop :=
  (Ty.function [.generic "U"] (.generic "V")).isSubtype outer = true ∧
    (Ty.function [.generic "T"] (.generic "U")).isSubtype inner = true

/-- The type of the call of a built-in function, if the arguments of the types fit. -/
def made (op : Builtin) (found : List (Option Ty)) : Option Ty :=
  (fits? op.params found []).map fun (rest, known) =>
    known.substitute (Ty.awaiting rest op.result)

theorem made_two_iff {op : Builtin} {p q a b t : Ty} (hop : op.params = [p, q]) :
    made op [some a, some b] = some t ↔
      (p.isSubtype a = true ∧ ((learn p a []).substitute p).isSubtype a = true) ∧
        (q.isSubtype b = true ∧ ((learn q b (learn p a [])).substitute q).isSubtype b = true) ∧
          (learn q b (learn p a [])).substitute op.result = t := by
  rw [made, hop, fits?, fits?, fits?, ← Bool.and_eq_true, ← Bool.and_eq_true]
  split
  · split
    · simp_all [Ty.awaiting]
    · simp_all
  · simp_all

/-- What `.` makes of two functions: nothing if the outer one tells its input, the inner one does
not tell its output, and the two do not go together. -/
theorem made_compose_iff {t : Ty} :
    made .compose [some outer, some inner] = some t ↔
      Composable outer inner ∧ (inner.output.isSome = true ∨
        (Ty.function [.generic "T"] (outer.input.getD (.generic "U"))).isSubtype inner = true) ∧
          pipelineType outer inner = t := by
  have hUV : "U" < "V" := by decide
  have hTU : "T" < "U" := by decide
  rw [made_two_iff (p := .function [.generic "U"] (.generic "V"))
    (q := .function [.generic "T"] (.generic "U")) rfl, Composable, and_assoc, and_assoc, and_assoc]
  refine and_congr_right fun houter => ?_
  rw [iff_true_intro (fits_first hUV houter), true_and]
  refine and_congr_right fun hinner => ?_
  have hknown := wellFormed_nil.learn (.function [.generic "U"] (.generic "V")) outer
  have hT := learned_of_ne (z := "T") hUV wellFormed_nil houter (by decide) (by decide)
  have hU := learned_input hUV wellFormed_nil houter rfl
  have hV := learned_output hUV wellFormed_nil houter rfl
  refine and_congr (fits_inner hknown hT hU hinner) ?_
  have hinput := learned_input hTU hknown hinner hT
  have houtput := learned_of_ne (z := "V") hTU hknown hinner (by decide) (by decide)
  simp only [Builtin.result, Builtin.anyT, Builtin.anyV, substitute, substituteEach, hinput,
    houtput, hV, pipelineType]

/-- What `&` makes of two functions: nothing if the outer one does not take what the inner one tells
of its output. -/
theorem made_pipe_iff {t : Ty} :
    made .pipe [some inner, some outer] = some t ↔
      Composable outer inner ∧
        (Ty.function [inner.output.getD (.generic "U")] (.generic "V")).isSubtype outer = true ∧
          pipelineType outer inner = t := by
  have hUV : "U" < "V" := by decide
  have hTU : "T" < "U" := by decide
  have hcomm := and_comm (a := (Ty.function [.generic "U"] (.generic "V")).isSubtype outer = true)
    (b := (Ty.function [.generic "T"] (.generic "U")).isSubtype inner = true)
  rw [made_two_iff (p := .function [.generic "T"] (.generic "U"))
    (q := .function [.generic "U"] (.generic "V")) rfl, Composable, hcomm, and_assoc,
    and_assoc, and_assoc]
  refine and_congr_right fun hinner => ?_
  rw [iff_true_intro (fits_first hTU hinner), true_and]
  refine and_congr_right fun houter => ?_
  have hknown := wellFormed_nil.learn (.function [.generic "T"] (.generic "U")) inner
  have hV := learned_of_ne (z := "V") hTU wellFormed_nil hinner (by decide) (by decide)
  have hU := learned_output hTU wellFormed_nil hinner rfl
  have hT := learned_input hTU wellFormed_nil hinner rfl
  refine and_congr (fits_outer hknown hV hU houter) ?_
  have houtput := learned_output hUV hknown houter hV
  have hinput := learned_of_ne (z := "T") hUV hknown houter (by decide) (by decide)
  simp only [Builtin.result, Builtin.anyT, Builtin.anyV, substitute, substituteEach, hinput,
    houtput, hT, pipelineType]

/-- The functions meet if and only if both operators make something of them. -/
theorem meets_iff :
    Meets outer inner ↔
      (inner.output.isSome = true ∨
        (Ty.function [.generic "T"] (outer.input.getD (.generic "U"))).isSubtype inner = true) ∧
        (Ty.function [inner.output.getD (.generic "U")] (.generic "V")).isSubtype outer = true := by
  refine and_congr_left fun houter => ⟨.inr, ?_⟩
  rintro (hsome | h)
  · obtain ⟨s, hs⟩ := Option.isSome_iff_exists.1 hsome
    obtain ⟨b, rfl, -⟩ := exists_of_output hs
    refine isSubtype_function_one.2 ⟨isSubtype_generic b "T", ?_⟩
    cases ha : outer.input with
    | none => exact accepts_generic _ "U" s
    | some a =>
        -- what the outer function takes accepts what the inner one gives
        obtain ⟨r, rfl, -⟩ := exists_of_input ha
        rw [hs] at houter
        exact (isSubtype_function_one.1 houter).1
  · exact h

end Composition

end Fitted

end LazyLang
