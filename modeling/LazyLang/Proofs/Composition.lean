import LazyLang.Proofs.Composition.ByName
import LazyLang.Proofs.Composition.Typing

/-!
# The two operators of composition are mirror images

`(f . g)(x)` and `(g & f)(x)` are programs of the same type that come to the same, if they are both
let through. The checker goes through the arguments from left to right with the evidence gathered so
far, so that one of them may slip through when the functions do not meet.
-/

namespace LazyLang

namespace Tree

variable {scope : TypeScope} {f g x : Tree}

/-- The types of the functions meet, if they have any. -/
def Meet (scope : TypeScope) (f g : Tree) : Prop :=
  ∀ outer inner, f.verdict scope = some outer → g.verdict scope = some inner →
    outer.Meets inner

/-- The type of what a built-in operator makes of two trees. -/
theorem verdict_operator {op : Builtin} (hop : scope.get? op.name = some op.type) (a b : Tree) :
    verdict scope (.call (Node.plain Span.origin) (.identifier (Node.plain Span.origin) op.name)
        [some a, some b]) =
      (a.verdict scope).bind fun t => (b.verdict scope).bind fun u =>
        Fitted.made op [some t, some u] := by
  rw [verdict, verdict, hop, argVerdicts, argVerdicts, argVerdicts]
  cases a.verdict scope <;> cases b.verdict scope <;> rfl

theorem verdict_call_congr {callee callee' : Tree}
    (h : callee.verdict scope = callee'.verdict scope) (node : Node Unit)
    (args : List (Option Tree)) :
    verdict scope (.call node callee args) = verdict scope (.call node callee' args) := by
  rw [verdict, verdict, h]

theorem exists_verdict_of_call {callee : Tree} {node : Node Unit} {args : List (Option Tree)}
    {t : Ty} (h : verdict scope (.call node callee args) = some t) :
    ∃ u, callee.verdict scope = some u := by
  rw [verdict] at h
  cases hcallee : callee.verdict scope with
  | none => rw [hcallee] at h; cases h
  | some u => exact ⟨u, rfl⟩

section Standard

variable (hcompose : scope.get? Builtin.compose.name = some Builtin.compose.type)
  (hpipe : scope.get? Builtin.pipe.name = some Builtin.pipe.type)

include hcompose hpipe

/-- Functions that meet are composed by both operators or by none. -/
theorem verdict_composed_of_meet (h : Meet scope f g) :
    (composed .compose f g x).verdict scope = (composed .pipe g f x).verdict scope := by
  refine verdict_call_congr ?_ _ _
  rw [verdict_operator hcompose, verdict_operator hpipe]
  cases hf : f.verdict scope with
  | none => cases g.verdict scope <;> rfl
  | some outer =>
      cases hg : g.verdict scope with
      | none => rfl
      | some inner =>
          have hmeets := Fitted.meets_iff.1 (h outer inner hf hg)
          refine Option.ext fun t => ?_
          change Fitted.made .compose _ = some t ↔ Fitted.made .pipe _ = some t
          rw [Fitted.made_compose_iff, Fitted.made_pipe_iff, iff_true_intro hmeets.1,
            iff_true_intro hmeets.2]

/-- Functions that both operators compose meet. -/
theorem meet_of_verdict_composed {t u : Ty}
    (ht : (composed .compose f g x).verdict scope = some t)
    (hu : (composed .pipe g f x).verdict scope = some u) : Meet scope f g := by
  intro outer inner hf hg
  obtain ⟨t, ht⟩ := exists_verdict_of_call ht
  obtain ⟨u, hu⟩ := exists_verdict_of_call hu
  rw [verdict_operator hcompose, hf, hg] at ht
  rw [verdict_operator hpipe, hf, hg] at hu
  exact Fitted.meets_iff.2
    ⟨(Fitted.made_compose_iff.1 ht).2.1, (Fitted.made_pipe_iff.1 hu).2.1⟩

end Standard

end Tree

theorem get?_loaded_compose :
    Scope.loaded.types.get? Builtin.compose.name = some Builtin.compose.type :=
  rfl

theorem get?_loaded_pipe :
    Scope.loaded.types.get? Builtin.pipe.name = some Builtin.pipe.type :=
  rfl

/-- The two operators of composition are mirror images of each other where the functions meet: then
both programs compile or none does, and otherwise at most one does. If both compile, they are of the
same type and come to the same result if they both come to an end. If one of the functions is found,
so that the order in which they are forced is not seen, one ends if the other does, and in the same
way but for the places of its messages. -/
theorem composed_mirrored {f g x : Tree} {source mirrored : String}
    (h : (Tree.composed .compose f g x).ReadFrom source)
    (h' : (Tree.composed .pipe g f x).ReadFrom mirrored) :
    (Tree.Meet Scope.loaded.types f g →
      (compile source Scope.loaded.types).compiled =
        (compile mirrored Scope.loaded.types).compiled) ∧
    (¬ Tree.Meet Scope.loaded.types f g →
      ¬ ((compile source Scope.loaded.types).compiled = true ∧
        (compile mirrored Scope.loaded.types).compiled = true)) ∧
    ((compile source Scope.loaded.types).compiled = true →
      (compile mirrored Scope.loaded.types).compiled = true →
        (compile source Scope.loaded.types).rootType =
          (compile mirrored Scope.loaded.types).rootType ∧
        ∀ limit,
          (∀ a b, EndsAs source limit a → EndsAs mirrored limit b →
            a.result = b.result ∧ a.evaluated = b.evaluated) ∧
          (f.IsFunction ∨ g.IsFunction →
            ∀ a, EndsAs source limit a ↔ EndsAs mirrored limit a)) := by
  refine ⟨fun hmeet => ?_, fun hmeet hboth => hmeet ?_, fun hc hc' => ?_⟩
  · rw [Bool.eq_iff_iff, h.compiled_iff, h'.compiled_iff,
      Tree.verdict_composed_of_meet get?_loaded_compose get?_loaded_pipe hmeet]
  · obtain ⟨t, ht⟩ := h.compiled_iff.1 hboth.1
    obtain ⟨u, hu⟩ := h'.compiled_iff.1 hboth.2
    exact Tree.meet_of_verdict_composed get?_loaded_compose get?_loaded_pipe ht hu
  · obtain ⟨t, ht⟩ := h.compiled_iff.1 hc
    obtain ⟨u, hu⟩ := h'.compiled_iff.1 hc'
    have hmeet := Tree.meet_of_verdict_composed get?_loaded_compose get?_loaded_pipe ht hu
    have hverdict :=
      Tree.verdict_composed_of_meet (x := x) get?_loaded_compose get?_loaded_pipe hmeet
    refine ⟨?_, fun limit => ⟨fun a b ha hb => ?_, fun hfun a => ?_⟩⟩
    · rw [h.rootType_eq ht, h'.rootType_eq hu, ← ht, ← hu, hverdict]
    · obtain ⟨o, ho, rfl⟩ := (h.endsAs_iff ht).1 ha
      obtain ⟨o', ho', rfl⟩ := (h'.endsAs_iff hu).1 hb
      rcases Tree.eq_of_stripsTo_composed ho ho' with rfl | ⟨⟨e, rfl⟩, e', rfl⟩
      · exact ⟨rfl, rfl⟩
      · exact ⟨rfl, rfl⟩
    · rw [h.endsAs_iff ht, h'.endsAs_iff hu]
      simp only [Tree.stripsTo_composed_iff hfun]

section Samples

theorem isFunction_floor : (Tree.named "floor").IsFunction := by
  have hrun : (((Runner.ofFuel 1).forceFunction (Tree.named "floor").loaded.1).run
      (Tree.named "floor").loaded.2).any (fun p => p.1.toBool) = true := rfl
  obtain ⟨⟨o, st⟩, hst, ho⟩ := (Option.any_eq_true _ _).1 hrun
  cases o with
  | error => cases ho
  | ok f => exact ⟨1, f, st, hst⟩

/-- `floor` takes the float that `sqrt` gives. -/
theorem composed_mirrored_sample :
    (Tree.composed .compose (.named "floor") (.named "sqrt") (.number 4)).ReadFrom
        "(floor . sqrt)(4)" ∧
      (Tree.composed .pipe (.named "sqrt") (.named "floor") (.number 4)).ReadFrom
        "(sqrt & floor)(4)" ∧
      Tree.Meet Scope.loaded.types (.named "floor") (.named "sqrt") ∧
      (compile "(sqrt & floor)(4)" Scope.loaded.types).compiled = true ∧
      (compile "(sqrt & floor)(4)" Scope.loaded.types).rootType = some .integer ∧
      ∀ limit a, EndsAs "(floor . sqrt)(4)" limit a ↔ EndsAs "(sqrt & floor)(4)" limit a := by
  have h : (Tree.composed .compose (.named "floor") (.named "sqrt") (.number 4)).ReadFrom
      "(floor . sqrt)(4)" := by
    refine Tree.readFrom_of_readsAs ?_
    rw [Tree.readsAs, Token.tokenize_eq]
    decide +kernel
  have h' : (Tree.composed .pipe (.named "sqrt") (.named "floor") (.number 4)).ReadFrom
      "(sqrt & floor)(4)" := by
    refine Tree.readFrom_of_readsAs ?_
    rw [Tree.readsAs, Token.tokenize_eq]
    decide +kernel
  have hmeet : Tree.Meet Scope.loaded.types (.named "floor") (.named "sqrt") := by
    intro outer inner houter hinner
    have hfloor : (Tree.named "floor").verdict Scope.loaded.types =
        some (.function [.float] .integer) := by decide +kernel
    have hsqrt : (Tree.named "sqrt").verdict Scope.loaded.types =
        some (.function [.float] .float) := by decide +kernel
    cases hfloor.symm.trans houter
    cases hsqrt.symm.trans hinner
    exact ⟨by decide +kernel, by decide +kernel⟩
  obtain ⟨hcompiled, -, hsame⟩ := composed_mirrored h h'
  have hinteger : (Tree.composed .compose (.named "floor") (.named "sqrt") (.number 4)).verdict
      Scope.loaded.types = some .integer := by decide +kernel
  have hc := h.compiled_iff.2 ⟨_, hinteger⟩
  have hc' := (hcompiled hmeet).symm.trans hc
  obtain ⟨hroot, hends⟩ := hsame hc hc'
  exact ⟨h, h', hmeet, hc', hroot.symm.trans (h.rootType_eq hinteger), fun limit =>
    (hends limit).2 (.inl isFunction_floor)⟩

/-- `.` learns from `count` that an integer goes in between and then from `sqrt` that a float does,
which together is a float; `&` learns it the other way around, and `count` takes no float. And if
neither function is found, the failure that is seen is the one of the function forced first. -/
theorem not_composed_mirrored :
    ((Tree.composed .compose (.named "count") (.named "sqrt") (.number 4)).ReadFrom
        "(count . sqrt)(4)" ∧
      (Tree.composed .pipe (.named "sqrt") (.named "count") (.number 4)).ReadFrom
        "(sqrt & count)(4)") ∧
      (compile "(count . sqrt)(4)" Scope.loaded.types).compiled = true ∧
      (compile "(sqrt & count)(4)" Scope.loaded.types).compiled = false ∧
      ((Runner.ofFuel 9).execute
          "(if(1 / 0, sin, cos) . if(9223372036854775807 + 1, sin, cos))(4)" Scope.loaded none
          Store.loaded).map (fun p => p.1.messages.map (·.text)) =
        some ["Internal error: division by zero"] ∧
      ((Runner.ofFuel 9).execute
          "(if(9223372036854775807 + 1, sin, cos) & if(1 / 0, sin, cos))(4)" Scope.loaded none
          Store.loaded).map (fun p => p.1.messages.map (·.text)) =
        some ["Internal error: integer overflow in '+'"] := by
  refine ⟨⟨Tree.readFrom_of_readsAs ?_, Tree.readFrom_of_readsAs ?_⟩, ?_, ?_, ?_, ?_⟩
  · rw [Tree.readsAs, Token.tokenize_eq]
    decide +kernel
  · rw [Tree.readsAs, Token.tokenize_eq]
    decide +kernel
  · rw [compile, Token.tokenize_eq]
    decide +kernel
  · rw [compile, Token.tokenize_eq]
    decide +kernel
  · rw [Runner.execute, compile, Token.tokenize_eq]
    decide +kernel
  · rw [Runner.execute, compile, Token.tokenize_eq]
    decide +kernel

end Samples

end LazyLang
