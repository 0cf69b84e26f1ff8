import LazyLang.Proofs.Grammar.Precedence
import LazyLang.Proofs.Soundness.Closed

/-!
# The verdict of the checker

The checker annotates a tree and puts messages on it. Whether a program compiles, and with which
type, only depends on its verdict: the type of the tree if no error is found in it. The verdict of a
call is found from the verdicts of its parts, so it can be computed without annotating anything, and
it does not look at the places and the messages of the nodes.
-/

namespace LazyLang

namespace Fitted

/-- What fitting arguments of the given types leaves of the parameters, and what is known of the
variables then, if every argument fits its parameter. A placeholder has no type. -/
def fits? : List Ty → List (Option Ty) → Evidence → Option (List Ty × Evidence)
  | params, [], e => some (params, e)
  | [], _ :: _, _ => none
  | param :: params, none :: found, e =>
    (fits? params found e).map fun (rest, known) => (param :: rest, known)
  | param :: params, some a :: found, e =>
    if param.isSubtype a && ((learn param a e).substitute param).isSubtype a then
      fits? params found (learn param a e)
    else none

end Fitted

namespace Tree

mutual

/-- The type of a tree in which the checker finds no error. -/
def verdict (scope : TypeScope) : Tree → Option Ty
  | .identifier _ name => scope.get? name
  | .integer _ _ => some .integer
  | .float _ _ => some .float
  | .string _ _ => some .string
  | .boolean _ _ => some .boolean
  | .none _ => some .none
  | .unrecognized _ _ => none
  | .array _ elements =>
    (verdicts scope elements).map fun
      | [] => .emptyArray
      | types => .array (Ty.unionOf types)
  | .call _ callee args =>
    match verdict scope callee, argVerdicts scope args with
    | some (.function params result), some found =>
      (Fitted.fits? params found []).map fun (rest, known) =>
        known.substitute (Ty.awaiting rest result)
    | _, _ => none

/-- The types of the elements of an array, if there is no error in any of them. -/
def verdicts (scope : TypeScope) : List Tree → Option (List Ty)
  | [] => some []
  | e :: rest =>
    match verdict scope e, verdicts scope rest with
    | some a, some types => some (a :: types)
    | _, _ => none

/-- The types of the arguments of a call, if there is no error in any of them. -/
def argVerdicts (scope : TypeScope) : List (Option Tree) → Option (List (Option Ty))
  | [] => some []
  | none :: rest => (argVerdicts scope rest).map (none :: ·)
  | some e :: rest =>
    match verdict scope e, argVerdicts scope rest with
    | some a, some found => some (some a :: found)
    | _, _ => none

end

mutual

/-- The verdict does not look at what the nodes carry. -/
theorem verdict_bare (scope : TypeScope) : (e : Tree) → e.bare.verdict scope = e.verdict scope
  | .identifier _ _ | .integer _ _ | .float _ _ | .string _ _ | .boolean _ _ | .none _
  | .unrecognized _ _ => rfl
  | .array _ elements => by
      rw [Expr.bare, verdict, verdict, verdicts_bare scope elements]
  | .call _ callee args => by
      rw [Expr.bare, verdict, verdict, verdict_bare scope callee, argVerdicts_bare scope args]

theorem verdicts_bare (scope : TypeScope) : (elements : List Tree) →
    verdicts scope (Expr.bareElements elements) = verdicts scope elements
  | [] => rfl
  | e :: rest => by
      rw [Expr.bareElements, verdicts, verdicts, verdict_bare scope e, verdicts_bare scope rest]

theorem argVerdicts_bare (scope : TypeScope) : (args : List (Option Tree)) →
    argVerdicts scope (Expr.bareArgs args) = argVerdicts scope args
  | [] => rfl
  | none :: rest => by
      rw [Expr.bareArgs, argVerdicts, argVerdicts, argVerdicts_bare scope rest]
  | some e :: rest => by
      rw [Expr.bareArgs, argVerdicts, argVerdicts, verdict_bare scope e,
        argVerdicts_bare scope rest]

end

/-- Trees that differ only in what their nodes carry get the same verdict. -/
theorem verdict_congr (scope : TypeScope) {e e' : Tree} (h : e.bare = e'.bare) :
    e.verdict scope = e'.verdict scope := by
  rw [← verdict_bare, h, verdict_bare]

end Tree

namespace Expr

open Message

/-- The annotated expression is as a verdict says: of its type and without a message, or with an
error. -/
def Judged (e : TypedExpr) : Option Ty → Prop
  | some a => e.info = some a ∧ e.allMessages = []
  | Option.none => hasErrors e.allMessages = true

end Expr

namespace Fitted

open Message

/-- Arguments without a message, of these types. -/
inductive Given : List (Option TypedExpr) → List (Option Ty) → Prop
  | nil : Given [] []
  | skip {args : List (Option TypedExpr)} {found : List (Option Ty)} (h : Given args found) :
      Given (none :: args) (none :: found)
  | fill {arg : TypedExpr} {a : Ty} {args : List (Option TypedExpr)} {found : List (Option Ty)}
      (harg : arg.Judged (some a)) (h : Given args found) :
      Given (some arg :: args) (some a :: found)

variable {args : List (Option TypedExpr)} {found : List (Option Ty)} {params rest : List Ty}
  {e known : Evidence}

theorem Given.messages (h : Given args found) : Expr.argMessages args = [] := by
  induction h with
  | nil => rfl
  | skip _ ih => exact ih
  | fill harg _ ih => exact List.append_eq_nil_iff.2 ⟨harg.2, ih⟩

/-- Arguments that fit are left as they are. -/
theorem Given.fit_eq (h : Given args found) (hfits : fits? params found e = some (rest, known)) :
    args.length ≤ params.length ∧ fit params args e = ⟨args, rest, known⟩ := by
  induction h generalizing params rest e with
  | nil =>
      rw [fits?] at hfits
      cases hfits
      exact ⟨Nat.zero_le _, fit_nil params _⟩
  | skip _ ih =>
      cases params with
      | nil => cases hfits
      | cons param params =>
          obtain ⟨⟨rest, known⟩, hrest, heq⟩ := Option.map_eq_some_iff.1 hfits
          cases heq
          obtain ⟨hlen, heq⟩ := ih hrest
          exact ⟨Nat.succ_le_succ hlen, by rw [fit, heq]⟩
  | @fill arg a args found harg _ ih =>
      cases params with
      | nil => cases hfits
      | cons param params =>
          rw [fits?] at hfits
          split at hfits
          · next hfit =>
              obtain ⟨hlen, heq⟩ := ih hfits
              obtain ⟨hdeclared, hknown⟩ := Bool.and_eq_true_iff.1 hfit
              refine ⟨Nat.succ_le_succ hlen, ?_⟩
              rw [fit_typed harg.1, heq, checkArgument_eq_self arg hdeclared hknown]
          · cases hfits

/-- Among arguments that do not fit there is one with an error, or there are too many. -/
theorem Given.fit_error (h : Given args found) (hfits : fits? params found e = none) :
    Message.hasErrors (Expr.argMessages (fit params args e).args) = true ∨
      params.length < args.length := by
  induction h generalizing params e with
  | nil =>
      rw [fits?] at hfits
      cases hfits
  | skip _ ih =>
      cases params with
      | nil => exact .inr (Nat.succ_pos _)
      | cons param params =>
          rw [fits?, Option.map_eq_none_iff] at hfits
          rw [fit]
          exact (ih hfits).imp_right Nat.succ_lt_succ
  | @fill arg a args found harg _ ih =>
      cases params with
      | nil => exact .inr (Nat.succ_pos _)
      | cons param params =>
          rw [fits?] at hfits
          rw [fit_typed harg.1]
          split at hfits
          · exact (ih hfits).imp hasErrors_append_right Nat.succ_lt_succ
          · next hfit =>
              refine .inl (hasErrors_append_left ?_)
              rw [checkArgument, if_neg hfit, Expr.allMessages_addMessages]
              exact hasErrors_append_right rfl

/-- An error on an argument stays there. -/
theorem hasErrors_fit {arg : TypedExpr} (harg : some arg ∈ args)
    (herror : Message.hasErrors arg.allMessages = true) :
    Message.hasErrors (Expr.argMessages (fit params args e).args) = true := by
  by_contra hnone
  have hself := (fit_of_no_errors (Bool.eq_false_of_not_eq_true hnone)).1
  rw [hself, Bool.not_eq_true] at hnone
  exact Bool.noConfusion (herror.symm.trans (Expr.hasErrors_argMessages hnone arg harg))

end Fitted

namespace Tree

open Message LazyLang.Expr Fitted

variable {scope : TypeScope}

theorem messages_of_elementMessages {elements : List Tree} (h : elementMessages elements = []) :
    ∀ e ∈ elements, e.allMessages = [] := by
  induction elements with
  | nil => exact fun e he => absurd he List.not_mem_nil
  | cons head rest ih =>
      rw [elementMessages, List.append_eq_nil_iff] at h
      exact List.forall_mem_cons.2 ⟨h.1, ih h.2⟩

/-- The elements of an array are judged together. -/
theorem judged_elements {elements : List Tree}
    (h : ∀ e ∈ elements, (e.typed scope).Judged (e.verdict scope)) :
    match verdicts scope elements with
    | some types => (typedElements scope elements).filterMap (·.info) = types ∧
        elementMessages (typedElements scope elements) = []
    | Option.none => hasErrors (elementMessages (typedElements scope elements)) = true := by
  induction elements with
  | nil => exact ⟨rfl, rfl⟩
  | cons e rest ih =>
      have he := h e List.mem_cons_self
      have hrest := ih fun e he => h e (List.mem_cons_of_mem _ he)
      rw [verdicts, typedElements, elementMessages]
      cases hverdict : e.verdict scope with
      | none =>
          rw [hverdict] at he
          exact hasErrors_append_left he
      | some a =>
          rw [hverdict] at he
          cases hverdicts : verdicts scope rest with
          | none =>
              rw [hverdicts] at hrest
              exact hasErrors_append_right hrest
          | some types =>
              rw [hverdicts] at hrest
              refine ⟨?_, List.append_eq_nil_iff.2 ⟨he.2, hrest.2⟩⟩
              rw [List.filterMap_cons_some he.1, hrest.1]

/-- The arguments of a call are judged together. -/
theorem judged_args {args : List (Option Tree)}
    (h : ∀ e, some e ∈ args → (e.typed scope).Judged (e.verdict scope)) :
    match argVerdicts scope args with
    | some found => Given (typedArgs scope args) found
    | Option.none => ∃ e, some e ∈ typedArgs scope args ∧ hasErrors e.allMessages = true := by
  induction args with
  | nil => exact .nil
  | cons arg rest ih =>
      have hrest := ih fun e he => h e (List.mem_cons_of_mem _ he)
      cases arg with
      | none =>
          rw [argVerdicts, typedArgs]
          cases hverdicts : argVerdicts scope rest with
          | none =>
              rw [hverdicts] at hrest
              obtain ⟨e, he, herror⟩ := hrest
              exact ⟨e, List.mem_cons_of_mem _ he, herror⟩
          | some found =>
              rw [hverdicts] at hrest
              exact .skip hrest
      | some e =>
          have he := h e List.mem_cons_self
          rw [argVerdicts, typedArgs]
          cases hverdict : e.verdict scope with
          | none =>
              rw [hverdict] at he
              exact ⟨_, List.mem_cons_self, he⟩
          | some a =>
              rw [hverdict] at he
              cases hverdicts : argVerdicts scope rest with
              | none =>
                  rw [hverdicts] at hrest
                  obtain ⟨e, he, herror⟩ := hrest
                  exact ⟨e, List.mem_cons_of_mem _ he, herror⟩
              | some found =>
                  rw [hverdicts] at hrest
                  exact .fill he hrest

/-- A call is judged by its parts. -/
theorem judged_call {node : Node Unit} (hnode : node.messages = []) {callee : Tree}
    {args : List (Option Tree)} (hcallee : (callee.typed scope).Judged (callee.verdict scope))
    (hargs : ∀ e, some e ∈ args → (e.typed scope).Judged (e.verdict scope)) :
    (typed scope (.call node callee args)).Judged (verdict scope (.call node callee args)) := by
  have hgiven := judged_args hargs
  rw [typed, verdict]
  cases hverdict : callee.verdict scope with
  | none =>
      rw [hverdict] at hcallee
      by_contra hnone
      have herror := Expr.hasErrors_callee (Bool.eq_false_of_not_eq_true hnone)
      exact Bool.noConfusion (hcallee.symm.trans herror)
  | some a =>
      rw [hverdict] at hcallee
      rw [typedCall, hcallee.1]
      cases a with
      | function params result =>
          cases hverdicts : argVerdicts scope args with
          | none =>
              rw [hverdicts] at hgiven
              obtain ⟨e, he, herror⟩ := hgiven
              exact hasErrors_append_left (hasErrors_append_right (hasErrors_fit he herror))
          | some found =>
              rw [hverdicts] at hgiven
              dsimp only
              cases hfits : fits? params found [] with
              | none =>
                  rcases hgiven.fit_error hfits with herror | hmany
                  · exact hasErrors_append_left (hasErrors_append_right herror)
                  · refine hasErrors_append_right (hasErrors_append_right ?_)
                    rw [if_pos hmany]
                    rfl
              | some p =>
                  obtain ⟨rest, known⟩ := p
                  obtain ⟨hlen, hfit⟩ := hgiven.fit_eq hfits
                  rw [hfit, if_neg (Nat.not_lt.2 hlen), List.append_nil]
                  refine ⟨congrArg some (resultType_eq _ result), ?_⟩
                  exact List.append_eq_nil_iff.2
                    ⟨List.append_eq_nil_iff.2 ⟨hcallee.2, hgiven.messages⟩, hnode⟩
      | _ => exact hasErrors_append_right (hasErrors_append_right rfl)

/-- The annotations of a tree without messages of its own are as its verdict says. -/
theorem judged_typed {e : Tree} (he : Reported e) (h : e.allMessages = []) :
    (e.typed scope).Judged (e.verdict scope) := by
  induction he with
  | identifier node name =>
      rw [typed, typedIdentifier, verdict]
      cases scope.get? name with
      | some a => exact ⟨rfl, h⟩
      | none => exact hasErrors_append_right rfl
  | integer | float | string | boolean | none => exact ⟨rfl, h⟩
  | unrecognized hreported => exact hreported
  | @array node elements _ ih =>
      rw [allMessages, List.append_eq_nil_iff] at h
      have helements := judged_elements fun e he => ih e he (messages_of_elementMessages h.1 e he)
      rw [typed, verdict]
      cases hverdicts : verdicts scope elements with
      | none =>
          rw [hverdicts] at helements
          exact hasErrors_append_left helements
      | some types =>
          rw [hverdicts] at helements
          refine ⟨?_, List.append_eq_nil_iff.2 ⟨helements.2, h.2⟩⟩
          change some (arrayType _) = _
          cases types <;> rw [arrayType, helements.1]
  | call node _ _ ihcallee ihargs =>
      rw [allMessages, List.append_eq_nil_iff, List.append_eq_nil_iff] at h
      exact judged_call h.2 (ihcallee h.1.1) fun e he =>
        ihargs e he (argMessages_eq_nil.1 h.1.2 e he)

end Tree

namespace Expr

theorem bareArgs_fit (params : List Ty) (args : List (Option TypedExpr)) (e : Evidence) :
    bareArgs (Fitted.fit params args e).args = bareArgs args := by
  induction args generalizing params e with
  | nil => cases params <;> rfl
  | cons arg args ih =>
      cases params with
      | nil => rfl
      | cons param params =>
          cases arg with
          | none =>
              rw [Fitted.fit, bareArgs, bareArgs, ih]
          | some arg =>
              rw [Fitted.fit]
              cases arg.info with
              | none => exact congrArg (some arg.bare :: ·) (ih params e)
              | some found =>
                  dsimp only
                  rw [bareArgs, bareArgs, ih]
                  rcases Fitted.checkArgument_cases param found (Fitted.learn param found e) arg
                    with heq | ⟨m, -, heq⟩
                  · rw [heq]
                  · rw [heq, bare_addMessages]

theorem bare_typedCall (node : Node Unit) (callee : TypedExpr) (args : List (Option TypedExpr)) :
    (typedCall node callee args).bare =
      .call (Node.plain Span.origin) callee.bare (bareArgs args) := by
  unfold typedCall
  split
  · rfl
  · exact congrArg (Expr.call _ _) (bareArgs_fit _ args [])
  · rfl

mutual

/-- Annotating a tree changes nothing but what its nodes carry. -/
theorem bare_typed (scope : TypeScope) : (e : Tree) → (e.typed scope).bare = e.bare
  | .identifier node name => by
      rw [typed, typedIdentifier]
      cases scope.get? name <;> rfl
  | .integer _ _ | .float _ _ | .string _ _ | .boolean _ _ | .none _ | .unrecognized _ _ => rfl
  | .array _ elements => by
      rw [typed, bare, bare, bareElements_typed scope elements]
  | .call _ callee args => by
      rw [typed, bare_typedCall, bare, bare_typed scope callee, bareArgs_typed scope args]

theorem bareElements_typed (scope : TypeScope) : (elements : List Tree) →
    bareElements (typedElements scope elements) = bareElements elements
  | [] => rfl
  | e :: rest => by
      rw [typedElements, bareElements, bareElements, bare_typed scope e,
        bareElements_typed scope rest]

theorem bareArgs_typed (scope : TypeScope) : (args : List (Option Tree)) →
    bareArgs (typedArgs scope args) = bareArgs args
  | [] => rfl
  | Option.none :: rest => by
      rw [typedArgs, bareArgs, bareArgs, bareArgs_typed scope rest]
  | some e :: rest => by
      rw [typedArgs, bareArgs, bareArgs, bare_typed scope e, bareArgs_typed scope rest]

end

end Expr

/-- The source text is read as the tree, but for the places of its nodes, and without a message. -/
def Tree.ReadFrom (e : Tree) (source : String) : Prop :=
  ∃ tokens, Token.tokenize source = .ok tokens ∧ Tree.Shows (Tree.ofTokens tokens) e

/-- A program that is read as a tree compiles if and only if the checker finds no error in the tree,
and then without a message, as an expression that differs from the tree in annotations only and is
of the type that the tree is judged to be of. -/
theorem compile_of_readFrom {e : Tree} {source : String} (h : e.ReadFrom source)
    (scope : TypeScope) :
    match e.verdict scope with
    | some a => ∃ tokens typed, typed.bare = e.bare ∧ typed.info = some a ∧
        compile source scope = ⟨[], tokens, some typed, true⟩
    | none => (compile source scope).compiled = false := by
  obtain ⟨tokens, htokens, hbare, hm⟩ := h
  have hjudged : ((Tree.ofTokens tokens).typed scope).Judged _ :=
    Tree.judged_typed (Tree.reported_ofTokens tokens) hm
  rw [Tree.verdict_congr scope hbare] at hjudged
  rw [compile, htokens]
  cases hverdict : e.verdict scope with
  | none =>
      rw [hverdict] at hjudged
      change (!Message.hasErrors _ && _) = false
      rw [show Message.hasErrors _ = true from hjudged]
      rfl
  | some a =>
      rw [hverdict] at hjudged
      obtain ⟨hinfo, hnone⟩ := hjudged
      refine ⟨tokens, (Tree.ofTokens tokens).typed scope, ?_, hinfo, ?_⟩
      · rw [Expr.bare_typed, hbare]
      · simp only [hnone, hinfo]
        rfl

/-- The type of the root of a program, if it is known. -/
def Compilation.rootType (c : Compilation) : Option Ty := c.expression.bind (·.info)

namespace Tree.ReadFrom

variable {e : Tree} {source : String} {scope : TypeScope}

theorem compiled_iff (h : e.ReadFrom source) :
    (compile source scope).compiled = true ↔ ∃ a, e.verdict scope = some a := by
  have hcompile := compile_of_readFrom h scope
  cases hverdict : e.verdict scope with
  | none =>
      rw [hverdict] at hcompile
      exact iff_of_false (by rw [hcompile]; exact Bool.false_ne_true) fun ⟨_, h⟩ => by cases h
  | some a =>
      rw [hverdict] at hcompile
      obtain ⟨tokens, typed, -, -, hcompile⟩ := hcompile
      rw [hcompile]
      exact iff_of_true rfl ⟨a, rfl⟩

theorem rootType_eq (h : e.ReadFrom source) {a : Ty} (ha : e.verdict scope = some a) :
    (compile source scope).rootType = some a := by
  have hcompile := compile_of_readFrom h scope
  rw [ha] at hcompile
  obtain ⟨tokens, typed, -, hinfo, hcompile⟩ := hcompile
  rw [hcompile]
  exact hinfo

end Tree.ReadFrom

namespace Tree

mutual

/-- Whether the trees are the same but for what their nodes carry. Floats are not compared. -/
def agrees : Tree → Tree → Bool
  | .identifier _ name, .identifier _ other => name = other
  | .integer _ value, .integer _ other => value = other
  | .string _ value, .string _ other => value = other
  | .boolean _ value, .boolean _ other => value = other
  | .none _, .none _ => true
  | .array _ elements, .array _ others => agreeElements elements others
  | .call _ callee args, .call _ other others => agrees callee other && agreeArgs args others
  | _, _ => false

/-- Whether the elements of two arrays are the same, one by one. -/
def agreeElements : List Tree → List Tree → Bool
  | [], [] => true
  | e :: rest, other :: others => agrees e other && agreeElements rest others
  | _, _ => false

/-- Whether the arguments of two calls are the same, one by one. -/
def agreeArgs : List (Option Tree) → List (Option Tree) → Bool
  | [], [] => true
  | none :: rest, none :: others => agreeArgs rest others
  | some e :: rest, some other :: others => agrees e other && agreeArgs rest others
  | _, _ => false

end

mutual

theorem bare_of_agrees : (e other : Tree) → e.agrees other = true → e.bare = other.bare
  | .identifier _ _, other, h | .integer _ _, other, h | .string _ _, other, h
  | .boolean _ _, other, h | .none _, other, h | .float _ _, other, h
  | .unrecognized _ _, other, h => by
      cases other <;> simp_all [agrees, Expr.bare]
  | .array _ elements, other, h => by
      cases other with
      | array _ others => rw [Expr.bare, Expr.bare, bare_of_agreeElements elements others h]
      | _ => cases h
  | .call _ callee args, other, h => by
      cases other with
      | call _ callee' others =>
          obtain ⟨hcallee, hargs⟩ := Bool.and_eq_true_iff.1 h
          rw [Expr.bare, Expr.bare, bare_of_agrees callee callee' hcallee,
            bare_of_agreeArgs args others hargs]
      | _ => cases h

theorem bare_of_agreeElements : (elements others : List Tree) →
    agreeElements elements others = true → Expr.bareElements elements = Expr.bareElements others
  | [], [], _ => rfl
  | [], _ :: _, h | _ :: _, [], h => by cases h
  | e :: rest, other :: others, h => by
      obtain ⟨he, hrest⟩ := Bool.and_eq_true_iff.1 h
      rw [Expr.bareElements, Expr.bareElements, bare_of_agrees e other he,
        bare_of_agreeElements rest others hrest]

theorem bare_of_agreeArgs : (args others : List (Option Tree)) →
    agreeArgs args others = true → Expr.bareArgs args = Expr.bareArgs others
  | [], [], _ => rfl
  | none :: rest, none :: others, h => by
      rw [Expr.bareArgs, Expr.bareArgs, bare_of_agreeArgs rest others h]
  | some e :: rest, some other :: others, h => by
      obtain ⟨he, hrest⟩ := Bool.and_eq_true_iff.1 h
      rw [Expr.bareArgs, Expr.bareArgs, bare_of_agrees e other he,
        bare_of_agreeArgs rest others hrest]
  | [], none :: _, h | [], some _ :: _, h | none :: _, [], h | some _ :: _, [], h
  | none :: _, some _ :: _, h | some _ :: _, none :: _, h => by cases h

end

/-- Whether the source text is read as the tree without a message. -/
def readsAs (source : String) (e : Tree) : Bool :=
  match Token.tokenize source with
  | .error _ => false
  | .ok tokens => (ofTokens tokens).agrees e && (ofTokens tokens).allMessages.isEmpty

theorem readFrom_of_readsAs {source : String} {e : Tree} (h : readsAs source e = true) :
    e.ReadFrom source := by
  unfold readsAs at h
  split at h
  · cases h
  · next tokens htokens =>
      obtain ⟨hagrees, hm⟩ := Bool.and_eq_true_iff.1 h
      exact ⟨tokens, htokens, bare_of_agrees _ _ hagrees, List.isEmpty_iff.1 hm⟩

section Written

/-! Trees as programs write them, without regard to places. -/

/-- A name. -/
def named (name : String) : Tree := .identifier (Node.plain Span.origin) name

/-- An integer. -/
def number (value : Int64) : Tree := .integer (Node.plain Span.origin) value

/-- A call with these arguments and no placeholders. -/
def calling (f : Tree) (args : List Tree) : Tree :=
  .call (Node.plain Span.origin) f (args.map some)

end Written

end Tree

end LazyLang
