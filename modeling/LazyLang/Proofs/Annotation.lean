import LazyLang.Expr.Printer
import LazyLang.Program
import Mathlib.Data.List.Forall2

/-!
# Checking only annotates

The checker gives every node a type and leaves everything else as it was read: `e.AnnotatedAs t`
says that the typed expression `t` has the shape of the tree `e`, with the same names, values,
places and placeholders, and at each node the messages of the tree, after which only the checker's
own may follow. So both are written as the same source text (`AnnotatedAs.render_eq`), no message
of the parser is lost (`AnnotatedAs.sublist`), and a program that was not read without an error does
not compile.
-/

namespace LazyLang

open LazyLang.Expr

/-- The node keeps its place and its messages, which may be followed by errors of the checker. -/
def Node.AnnotatedAs (n : Node Unit) (m : Node (Option Ty)) : Prop :=
  m.span = n.span ∧ ∃ errors : List (TypeError × Span),
    m.messages = n.messages ++ errors.map fun error => error.1.message error.2

namespace Node.AnnotatedAs

variable {n : Node Unit} {m : Node (Option Ty)}

theorem of_messages_eq (n : Node Unit) (info : Option Ty) :
    n.AnnotatedAs ⟨n.span, n.messages, info⟩ :=
  ⟨rfl, [], (List.append_nil _).symm⟩

theorem of_error (n : Node Unit) (error : TypeError) (span : Span) (info : Option Ty) :
    n.AnnotatedAs ⟨n.span, n.messages ++ [error.message span], info⟩ :=
  ⟨rfl, [(error, span)], rfl⟩

theorem addError (h : n.AnnotatedAs m) (error : TypeError) (span : Span) :
    n.AnnotatedAs { m with messages := m.messages ++ [error.message span] } := by
  obtain ⟨hspan, errors, hmessages⟩ := h
  refine ⟨hspan, errors ++ [(error, span)], ?_⟩
  change m.messages ++ [error.message span] = _
  rw [hmessages, List.map_append, List.append_assoc]
  rfl

theorem sublist (h : n.AnnotatedAs m) : n.messages.Sublist m.messages := by
  obtain ⟨-, errors, hmessages⟩ := h
  exact hmessages ▸ List.sublist_append_left _ _

end Node.AnnotatedAs

namespace Tree

mutual

/-- The typed expression is the tree, node by node, with annotations and errors of the checker. -/
def AnnotatedAs : Tree → TypedExpr → Prop
  | .identifier n name, .identifier m name' => n.AnnotatedAs m ∧ name' = name
  | .integer n value, .integer m value' => n.AnnotatedAs m ∧ value' = value
  | .float n value, .float m value' => n.AnnotatedAs m ∧ value' = value
  | .string n value, .string m value' => n.AnnotatedAs m ∧ value' = value
  | .boolean n value, .boolean m value' => n.AnnotatedAs m ∧ value' = value
  | .array n elements, .array m elements' =>
    n.AnnotatedAs m ∧ ElementsAnnotatedAs elements elements'
  | .call n callee args, .call m callee' args' =>
    n.AnnotatedAs m ∧ AnnotatedAs callee callee' ∧ ArgsAnnotatedAs args args'
  | .none n, .none m => n.AnnotatedAs m
  | .unrecognized n tokens, .unrecognized m tokens' => n.AnnotatedAs m ∧ tokens' = tokens
  | _, _ => False

/-- The elements of an array, one by one. -/
def ElementsAnnotatedAs : List Tree → List TypedExpr → Prop
  | [], [] => True
  | e :: rest, t :: rest' => AnnotatedAs e t ∧ ElementsAnnotatedAs rest rest'
  | _, _ => False

/-- The arguments of a call, one by one. A placeholder stays one. -/
def ArgsAnnotatedAs : List (Option Tree) → List (Option TypedExpr) → Prop
  | [], [] => True
  | Option.none :: rest, Option.none :: rest' => ArgsAnnotatedAs rest rest'
  | some e :: rest, some t :: rest' => AnnotatedAs e t ∧ ArgsAnnotatedAs rest rest'
  | _, _ => False

end

/-- The cases of an annotated tree: the expression is of the same kind, and where they hold a name,
a value or tokens they hold the same ones. -/
theorem AnnotatedAs.byKind {motive : Tree → TypedExpr → Prop} {e : Tree} {t : TypedExpr}
    (h : e.AnnotatedAs t)
    (identifier : ∀ n m name, n.AnnotatedAs m → motive (.identifier n name) (.identifier m name))
    (integer : ∀ n m value, n.AnnotatedAs m → motive (.integer n value) (.integer m value))
    (float : ∀ n m value, n.AnnotatedAs m → motive (.float n value) (.float m value))
    (string : ∀ n m value, n.AnnotatedAs m → motive (.string n value) (.string m value))
    (boolean : ∀ n m value, n.AnnotatedAs m → motive (.boolean n value) (.boolean m value))
    (array : ∀ n m elements typed, n.AnnotatedAs m → ElementsAnnotatedAs elements typed →
      motive (.array n elements) (.array m typed))
    (call : ∀ n m callee callee' args args', n.AnnotatedAs m → AnnotatedAs callee callee' →
      ArgsAnnotatedAs args args' → motive (.call n callee args) (.call m callee' args'))
    (none : ∀ n m, n.AnnotatedAs m → motive (.none n) (.none m))
    (unrecognized : ∀ n m tokens, n.AnnotatedAs m →
      motive (.unrecognized n tokens) (.unrecognized m tokens)) : motive e t := by
  cases e <;> cases t <;> simp only [AnnotatedAs] at h
  case array.array => exact array _ _ _ _ h.1 h.2
  case call.call => exact call _ _ _ _ _ _ h.1 h.2.1 h.2.2
  case none.none => exact none _ _ h
  all_goals obtain ⟨hnode, rfl⟩ := h
  exacts [identifier _ _ _ hnode, integer _ _ _ hnode, float _ _ _ hnode, string _ _ _ hnode,
    boolean _ _ _ hnode, unrecognized _ _ _ hnode]

/-- An error of the checker at the root changes nothing else. -/
theorem AnnotatedAs.addError {e : Tree} {t : TypedExpr} (h : e.AnnotatedAs t) (error : TypeError)
    (span : Span) : e.AnnotatedAs (t.addMessages [error.message span]) := by
  apply h.byKind
  case array => exact fun _ _ _ _ hnode helements => ⟨hnode.addError error span, helements⟩
  case call =>
    exact fun _ _ _ _ _ _ hnode hcallee hargs => ⟨hnode.addError error span, hcallee, hargs⟩
  case none => exact fun _ _ hnode => hnode.addError error span
  all_goals exact fun _ _ _ hnode => ⟨hnode.addError error span, rfl⟩

theorem AnnotatedAs.checkArgument {e : Tree} {t : TypedExpr} (h : e.AnnotatedAs t)
    (param found : Ty) (known : Evidence) :
    e.AnnotatedAs (Fitted.checkArgument param found known t) := by
  unfold Fitted.checkArgument
  dsimp only
  split
  · exact h
  · exact h.addError _ _

/-- Fitting arguments to parameters puts errors on them and does nothing else to them. -/
theorem ArgsAnnotatedAs.fit {args : List (Option Tree)} {typed : List (Option TypedExpr)}
    (h : ArgsAnnotatedAs args typed) (params : List Ty) (known : Evidence) :
    ArgsAnnotatedAs args (Fitted.fit params typed known).args := by
  induction typed generalizing args params known with
  | nil => cases params <;> exact h
  | cons head rest ih =>
      cases params with
      | nil => exact h
      | cons param params =>
          cases args with
          | nil => cases head <;> exact h.elim
          | cons arg args =>
              cases arg <;> cases head <;> simp only [ArgsAnnotatedAs] at h
              case none.none => exact ih h params known
              case some.some e t =>
                rw [Fitted.fit]
                split
                · exact ⟨h.1, ih h.2 params known⟩
                · exact ⟨h.1.checkArgument param _ _, ih h.2 params _⟩

theorem annotatedAs_typedIdentifier (scope : TypeScope) (node : Node Unit) (name : String) :
    AnnotatedAs (.identifier node name) (typedIdentifier scope node name) := by
  unfold typedIdentifier
  split
  · exact ⟨.of_messages_eq node _, rfl⟩
  · exact ⟨.of_error node _ _ _, rfl⟩

theorem annotatedAs_typedCall (node : Node Unit) {callee : Tree} {callee' : TypedExpr}
    {args : List (Option Tree)} {args' : List (Option TypedExpr)}
    (hcallee : callee.AnnotatedAs callee') (hargs : ArgsAnnotatedAs args args') :
    AnnotatedAs (.call node callee args) (typedCall node callee' args') := by
  rw [typedCall.eq_def]
  split
  · exact ⟨.of_messages_eq node _, hcallee, hargs⟩
  · next params result _ =>
      refine ⟨?_, hcallee, hargs.fit params []⟩
      split
      · exact .of_error node _ _ _
      · exact ⟨rfl, [], rfl⟩
  · exact ⟨.of_error node _ _ _, hcallee, hargs⟩

mutual

theorem annotatedAs_typed (scope : TypeScope) : (e : Tree) → e.AnnotatedAs (e.typed scope)
  | .identifier node name => annotatedAs_typedIdentifier scope node name
  | .integer node _ | .float node _ | .string node _ | .boolean node _ | .unrecognized node _ =>
    ⟨.of_messages_eq node _, rfl⟩
  | .none node => .of_messages_eq node _
  | .array node elements => ⟨.of_messages_eq node _, elementsAnnotatedAs_typed scope elements⟩
  | .call node callee args => by
      rw [typed]
      exact annotatedAs_typedCall node (annotatedAs_typed scope callee)
        (argsAnnotatedAs_typed scope args)

theorem elementsAnnotatedAs_typed (scope : TypeScope) :
    (elements : List Tree) → ElementsAnnotatedAs elements (typedElements scope elements)
  | [] => trivial
  | e :: rest => ⟨annotatedAs_typed scope e, elementsAnnotatedAs_typed scope rest⟩

theorem argsAnnotatedAs_typed (scope : TypeScope) :
    (args : List (Option Tree)) → ArgsAnnotatedAs args (typedArgs scope args)
  | [] => trivial
  | Option.none :: rest => argsAnnotatedAs_typed scope rest
  | some e :: rest => ⟨annotatedAs_typed scope e, argsAnnotatedAs_typed scope rest⟩

end

theorem AnnotatedAs.name?_eq {e : Tree} {t : TypedExpr} (h : e.AnnotatedAs t) :
    t.name? = e.name? := by
  apply h.byKind <;> intros <;> rfl

/-- Only the literal `none` is written differently as a bound, and it stays what it is. -/
theorem AnnotatedAs.ofText_eq {e : Tree} {t : TypedExpr} (h : e.AnnotatedAs t) (text : String) :
    ArgText.ofText t text = ArgText.ofText e text := by
  apply h.byKind <;> intros <;> rfl

mutual

/-- An annotated expression is written as the tree is. -/
theorem AnnotatedAs.render_eq : {e : Tree} → {t : TypedExpr} → e.AnnotatedAs t → t.render = e.render
  | .identifier _ _, t, h | .integer _ _, t, h | .float _ _, t, h | .string _ _, t, h
  | .boolean _ _, t, h | .none _, t, h | .unrecognized _ _, t, h => by
      cases t <;> simp only [AnnotatedAs] at h
      all_goals simp only [render, h]
  | .array _ elements, t, h => by
      cases t <;> simp only [AnnotatedAs] at h
      rw [render, render, ElementsAnnotatedAs.render_eq h.2]
  | .call _ callee args, t, h => by
      cases t <;> simp only [AnnotatedAs] at h
      rw [render, render, h.2.1.name?_eq, AnnotatedAs.render_eq h.2.1,
        ArgsAnnotatedAs.render_eq h.2.2]

theorem ElementsAnnotatedAs.render_eq : {elements : List Tree} → {typed : List TypedExpr} →
    ElementsAnnotatedAs elements typed → renderElements typed = renderElements elements
  | [], [], _ => rfl
  | _ :: _, [], h | [], _ :: _, h => h.elim
  | e :: rest, t :: rest', h => by
      rw [renderElements, renderElements, AnnotatedAs.render_eq h.1,
        ElementsAnnotatedAs.render_eq h.2]

theorem ArgsAnnotatedAs.render_eq : {args : List (Option Tree)} →
    {typed : List (Option TypedExpr)} → ArgsAnnotatedAs args typed →
      renderArgs typed = renderArgs args
  | [], [], _ => rfl
  | _ :: _, [], h => by simp [ArgsAnnotatedAs] at h
  | [], _ :: _, h => h.elim
  | Option.none :: rest, arg :: rest', h => by
      cases arg <;> simp only [ArgsAnnotatedAs] at h
      rw [renderArgs, renderArgs, ArgsAnnotatedAs.render_eq h]
  | some e :: rest, arg :: rest', h => by
      cases arg <;> simp only [ArgsAnnotatedAs] at h
      rw [renderArgs, renderArgs, AnnotatedAs.render_eq h.1, h.1.ofText_eq,
        ArgsAnnotatedAs.render_eq h.2]

end

mutual

/-- The messages of the tree are found in the annotated expression, in the same order. -/
theorem AnnotatedAs.sublist : {e : Tree} → {t : TypedExpr} → e.AnnotatedAs t →
    e.allMessages.Sublist t.allMessages
  | .identifier _ _, t, h | .integer _ _, t, h | .float _ _, t, h | .string _ _, t, h
  | .boolean _ _, t, h | .unrecognized _ _, t, h => by
      cases t <;> simp only [AnnotatedAs] at h
      exact h.1.sublist
  | .none _, t, h => by
      cases t <;> simp only [AnnotatedAs] at h
      exact h.sublist
  | .array _ elements, t, h => by
      cases t <;> simp only [AnnotatedAs] at h
      exact (ElementsAnnotatedAs.sublist h.2).append h.1.sublist
  | .call _ callee args, t, h => by
      cases t <;> simp only [AnnotatedAs] at h
      exact ((AnnotatedAs.sublist h.2.1).append (ArgsAnnotatedAs.sublist h.2.2)).append h.1.sublist

theorem ElementsAnnotatedAs.sublist : {elements : List Tree} → {typed : List TypedExpr} →
    ElementsAnnotatedAs elements typed →
      (elementMessages elements).Sublist (elementMessages typed)
  | [], [], _ => List.nil_sublist _
  | _ :: _, [], h | [], _ :: _, h => h.elim
  | _ :: _, _ :: _, h => (AnnotatedAs.sublist h.1).append (ElementsAnnotatedAs.sublist h.2)

theorem ArgsAnnotatedAs.sublist : {args : List (Option Tree)} →
    {typed : List (Option TypedExpr)} → ArgsAnnotatedAs args typed →
      (argMessages args).Sublist (argMessages typed)
  | [], [], _ => List.nil_sublist _
  | _ :: _, [], h => by simp [ArgsAnnotatedAs] at h
  | [], _ :: _, h => h.elim
  | Option.none :: rest, arg :: rest', h => by
      cases arg <;> simp only [ArgsAnnotatedAs] at h
      rw [argMessages, argMessages]
      exact ArgsAnnotatedAs.sublist h
  | some e :: rest, arg :: rest', h => by
      cases arg <;> simp only [ArgsAnnotatedAs] at h
      exact (AnnotatedAs.sublist h.1).append (ArgsAnnotatedAs.sublist h.2)

end

end Tree

/-- Checking a tree only annotates it, with the same source text and all messages kept. A program
that is read with an error does not compile. -/
theorem typed_annotates (scope : TypeScope) :
    (∀ e : Tree, e.AnnotatedAs (e.typed scope) ∧ (e.typed scope).render = e.render ∧
      e.allMessages.Sublist (e.typed scope).allMessages) ∧
    ∀ source tokens, Token.tokenize source = .ok tokens →
      Message.hasErrors (Tree.ofTokens tokens).allMessages = true →
        (compile source scope).compiled = false := by
  refine ⟨fun e => ?_, fun source tokens htokens herror => ?_⟩
  · have h := Tree.annotatedAs_typed scope e
    exact ⟨h, h.render_eq, h.sublist⟩
  · obtain ⟨m, hm, hmerror⟩ := List.any_eq_true.1 herror
    have hkept := (Tree.annotatedAs_typed scope (Tree.ofTokens tokens)).sublist.subset hm
    have htyped : Message.hasErrors ((Tree.ofTokens tokens).typed scope).allMessages = true :=
      List.any_eq_true.2 ⟨m, hkept, hmerror⟩
    simp only [compile, htokens, htyped, Bool.not_true, Bool.false_and]

section Sample

/-- The tokens of `f(_, 1`, a call that is not closed. -/
def unclosedTokens : List Token :=
  [.ofText .identifier "f" ⟨0, 0⟩, .ofText .openParen "(" ⟨0, 1⟩, .ofText .underscore "_" ⟨0, 2⟩,
    .ofText .comma "," ⟨0, 3⟩, .ofText .integer "1" ⟨0, 5⟩]

theorem tokenize_unclosed : Token.tokenize "f(_, 1" = .ok unclosedTokens := by
  decide +kernel

theorem hasErrors_unclosed :
    Message.hasErrors (Tree.ofTokens unclosedTokens).allMessages = true := by
  decide +kernel

/-- What the checker says of the name comes after what the parser said of the call. -/
theorem typed_annotates_unclosed :
    (Token.tokenize "f(_, 1" = .ok unclosedTokens ∧
      Message.hasErrors (Tree.ofTokens unclosedTokens).allMessages = true ∧
        (compile "f(_, 1" []).compiled = false) ∧
    (Tree.ofTokens unclosedTokens).allMessages.Sublist
      ((Tree.ofTokens unclosedTokens).typed []).allMessages :=
  ⟨⟨tokenize_unclosed, hasErrors_unclosed,
    (typed_annotates []).2 _ unclosedTokens tokenize_unclosed hasErrors_unclosed⟩,
    ((typed_annotates []).1 _).2.2⟩

end Sample

end LazyLang
