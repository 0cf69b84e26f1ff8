import LazyLang.Proofs.Soundness.Monomorphic

/-!
# Programs that compile are closed and fully typed

Whatever keeps a node of a program from being evaluated is an error at or below that node. Tokens
that no rule accepts are reported by the parser. The checker reports names that are not in scope,
calls of what is no function and arguments for which there are no parameters; it leaves a call
without a type, and without a message of its own, only when what is called has none either.

So a program that compiles has a type for every node and a meaning for every name (`Expr.Settled`),
and where a type is missing there is an error below.
-/

namespace LazyLang

namespace Message

theorem hasErrors_append (ms ns : List Message) :
    hasErrors (ms ++ ns) = (hasErrors ms || hasErrors ns) :=
  List.any_append

theorem hasErrors_append_left {ms ns : List Message} (h : hasErrors ms = true) :
    hasErrors (ms ++ ns) = true := by
  rw [hasErrors_append, h, Bool.true_or]

theorem hasErrors_append_right {ms ns : List Message} (h : hasErrors ns = true) :
    hasErrors (ms ++ ns) = true := by
  rw [hasErrors_append, h, Bool.or_true]

end Message

namespace Expr

open Message

/-- `x` is a node of an expression, with all that is below it. -/
inductive IsNode {α : Type} (x : Expr α) : Expr α → Prop
  | root : IsNode x x
  | element {node : Node α} {elements : List (Expr α)} {e : Expr α} (he : e ∈ elements)
      (h : IsNode x e) : IsNode x (.array node elements)
  | callee {node : Node α} {f : Expr α} {args : List (Option (Expr α))} (h : IsNode x f) :
      IsNode x (.call node f args)
  | argument {node : Node α} {f : Expr α} {args : List (Option (Expr α))} {e : Expr α}
      (he : some e ∈ args) (h : IsNode x e) : IsNode x (.call node f args)

/-- An expression without errors has none at any node. -/
theorem IsNode.hasErrors_eq_false {α : Type} {x e : Expr α} (h : IsNode x e)
    (he : hasErrors e.allMessages = false) : hasErrors x.allMessages = false := by
  induction h with
  | root => exact he
  | element hmem _ ih =>
      rw [allMessages, hasErrors_append_eq_false] at he
      exact ih (hasErrors_elementMessages he.1 _ hmem)
  | callee _ ih =>
      rw [allMessages, hasErrors_append_eq_false, hasErrors_append_eq_false] at he
      exact ih he.1.1
  | argument hmem _ ih =>
      rw [allMessages, hasErrors_append_eq_false, hasErrors_append_eq_false] at he
      exact ih (hasErrors_argMessages he.1.2 _ hmem)

/-- A message about the root leaves the nodes below it as they are. -/
theorem IsNode.of_addMessages {α : Type} {x e : Expr α} {messages : List Message}
    (h : IsNode x (e.addMessages messages)) : x = e.addMessages messages ∨ IsNode x e := by
  cases e with
  | array node elements =>
      cases h with
      | root => exact .inl rfl
      | element he h => exact .inr (.element he h)
  | call node f args =>
      cases h with
      | root => exact .inl rfl
      | callee h => exact .inr (.callee h)
      | argument he h => exact .inr (.argument he h)
  | _ =>
      cases h
      exact .inl rfl

/-- A node that can be evaluated: it has a type and was read as an expression, a name at it is in
scope, and what it calls is of a function type with a parameter for each argument. -/
structure Settled (scope : ValueScope) (x : TypedExpr) : Prop where
  typed : x.info.isSome = true
  recognized : x.isUnrecognized = false
  bound : ∀ node name, x = .identifier node name → (scope.get? name).isSome = true
  callable : ∀ node callee args, x = .call node callee args →
    ∃ params result, callee.info = some (.function params result) ∧ args.length ≤ params.length

/-- A node that can be evaluated, or that has an error at it or below it. -/
def Accounted (scope : ValueScope) (x : TypedExpr) : Prop :=
  Settled scope x ∨ hasErrors x.allMessages = true

end Expr

namespace Fitted

open Message

theorem length_fit_args (params : List Ty) (args : List (Option TypedExpr)) (e : Evidence) :
    (fit params args e).args.length = args.length := by
  induction args generalizing params e with
  | nil => cases params <;> rfl
  | cons head args ih =>
      cases params with
      | nil => rfl
      | cons param params =>
          cases head with
          | none =>
              rw [fit]
              exact congrArg (· + 1) (ih params e)
          | some arg =>
              rw [fit]
              split
              · exact congrArg (· + 1) (ih params e)
              · exact congrArg (· + 1) (ih params _)

theorem checkArgument_cases (param found : Ty) (e : Evidence) (arg : TypedExpr) :
    checkArgument param found e arg = arg ∨
      ∃ m : Message, m.isError = true ∧ checkArgument param found e arg = arg.addMessages [m] := by
  unfold checkArgument
  dsimp only
  split
  · exact .inl rfl
  · exact .inr ⟨_, rfl, rfl⟩

/-- Fitting an argument leaves it as it is or puts an error on it. -/
theorem mem_fit_args {params : List Ty} {args : List (Option TypedExpr)} {e : Evidence}
    {x : TypedExpr} (h : some x ∈ (fit params args e).args) :
    ∃ arg, some arg ∈ args ∧
      (x = arg ∨ ∃ m : Message, m.isError = true ∧ x = arg.addMessages [m]) := by
  induction args generalizing params e with
  | nil => cases params <;> cases h
  | cons head args ih =>
      have hlater {params : List Ty} {e : Evidence} (h : some x ∈ (fit params args e).args) :
          ∃ arg, some arg ∈ head :: args ∧
            (x = arg ∨ ∃ m : Message, m.isError = true ∧ x = arg.addMessages [m]) := by
        obtain ⟨arg, harg, hx⟩ := ih h
        exact ⟨arg, List.mem_cons_of_mem _ harg, hx⟩
      cases params with
      | nil => exact ⟨x, h, .inl rfl⟩
      | cons param params =>
          cases head with
          | none =>
              rw [fit] at h
              rcases List.mem_cons.1 h with heq | h
              · cases heq
              · exact hlater h
          | some arg =>
              rw [fit] at h
              split at h
              · rcases List.mem_cons.1 h with heq | h
                · exact ⟨x, heq ▸ List.mem_cons_self, .inl rfl⟩
                · exact hlater h
              · next found _ =>
                  rcases List.mem_cons.1 h with heq | h
                  · refine ⟨arg, List.mem_cons_self, ?_⟩
                    rw [Option.some.inj heq]
                    exact checkArgument_cases param found _ arg
                  · exact hlater h

end Fitted

namespace Expr

open Message

theorem settled_of_leaf {scope : ValueScope} {x : TypedExpr} (htyped : x.info.isSome = true)
    (hx : ∀ node callee args, x ≠ .call node callee args)
    (hname : ∀ node name, x ≠ .identifier node name) (hrecognized : x.isUnrecognized = false) :
    Settled scope x :=
  ⟨htyped, hrecognized, fun node name h => absurd h (hname node name),
    fun node callee args h => absurd h (hx node callee args)⟩

theorem accounted_identifier (scope : Scope) (node : Node Unit) (name : String) :
    Accounted scope.values (typedIdentifier scope.types node name) := by
  unfold typedIdentifier
  split
  · next a ha =>
      obtain ⟨b, -, hvalue, -⟩ := exists_binding_of_types ha
      refine .inl ⟨rfl, rfl, fun _ _ h => ?_, fun _ _ _ h => absurd h (by simp)⟩
      cases h
      rw [hvalue]
      rfl
  · exact .inr (hasErrors_append_right rfl)

/-- A call accounts for what it adds to its parts. -/
theorem accounted_call {scope : ValueScope} (node : Node Unit) {callee : TypedExpr}
    {args : List (Option TypedExpr)} (hcallee : ∀ x, IsNode x callee → Accounted scope x)
    (hargs : ∀ e, some e ∈ args → ∀ x, IsNode x e → Accounted scope x) {x : TypedExpr}
    (hx : IsNode x (typedCall node callee args)) : Accounted scope x := by
  rw [typedCall.eq_def] at hx
  split at hx
  · next hnone =>
      cases hx with
      | root =>
          -- what is called has no type, so its own error is below
          rcases hcallee callee .root with hsettled | herror
          · have htyped := hsettled.typed
            rw [hnone] at htyped
            cases htyped
          · exact .inr (hasErrors_append_left (hasErrors_append_left herror))
      | callee h => exact hcallee x h
      | argument he h => exact hargs _ he x h
  · next params result hfunction =>
      cases hx with
      | root =>
          by_cases hmany : args.length > params.length
          · refine .inr (hasErrors_append_right (hasErrors_append_right ?_))
            rw [if_pos hmany]
            rfl
          · refine .inl ⟨rfl, rfl, fun _ _ h => absurd h (by simp), fun _ _ _ h => ?_⟩
            cases h
            refine ⟨params, result, hfunction, ?_⟩
            rw [Fitted.length_fit_args]
            exact Nat.le_of_not_lt hmany
      | callee h => exact hcallee x h
      | argument he h =>
          obtain ⟨arg, harg, rfl | ⟨m, hm, rfl⟩⟩ := Fitted.mem_fit_args he
          · exact hargs _ harg x h
          · rcases h.of_addMessages with rfl | h
            · refine .inr ?_
              rw [allMessages_addMessages]
              exact hasErrors_append_right (by rw [hasErrors, List.any_cons, hm, Bool.true_or])
            · exact hargs _ harg x h
  · cases hx with
    | root => exact .inr (hasErrors_append_right (hasErrors_append_right rfl))
    | callee h => exact hcallee x h
    | argument he h => exact hargs _ he x h

/-- In a tree whose unrecognized tokens are reported, every node can be evaluated or has an error at
it or below it once the types are known. -/
theorem accounted_typed {scope : Scope} {e : Tree} (he : Tree.Reported e) {x : TypedExpr}
    (hx : IsNode x (e.typed scope.types)) : Accounted scope.values x := by
  induction he generalizing x with
  | identifier node name =>
      have hroot : x = typedIdentifier scope.types node name := by
        rw [typed, typedIdentifier.eq_def] at hx
        rw [typedIdentifier.eq_def]
        split at hx <;> cases hx <;> rfl
      rw [hroot]
      exact accounted_identifier scope node name
  | integer | float | string | boolean | none =>
      cases hx
      exact .inl (settled_of_leaf rfl (by simp [typed]) (by simp [typed]) rfl)
  | unrecognized hreported =>
      cases hx
      exact .inr hreported
  | array node _ ih =>
      rw [typed, typedElements_eq_map] at hx
      cases hx with
      | root => exact .inl (settled_of_leaf rfl (by simp) (by simp) rfl)
      | element hmem h =>
          obtain ⟨e, he, rfl⟩ := List.mem_map.1 hmem
          exact ih e he h
  | call node _ _ ihcallee ihargs =>
      rw [typed, typedArgs_eq_map] at hx
      refine accounted_call node (fun _ h => ihcallee h) (fun e he y h => ?_) hx
      obtain ⟨arg, harg, heq⟩ := List.mem_map.1 he
      obtain ⟨e, rfl, rfl⟩ := Option.map_eq_some_iff.1 heq
      exact ihargs e harg h

end Expr

theorem accounted_of_compile {source : String} {scope : Scope} {e : TypedExpr}
    (h : (compile source scope.types).expression = some e) {x : TypedExpr} (hx : Expr.IsNode x e) :
    Expr.Accounted scope.values x := by
  unfold compile at h
  split at h
  · cases h
  · cases h
    exact Expr.accounted_typed (Tree.reported_ofTokens _) hx

/-- A program that compiles has an expression, and without errors. -/
theorem exists_expression_of_compiled {source : String} {scope : TypeScope}
    (h : (compile source scope).compiled = true) :
    ∃ e, (compile source scope).expression = some e ∧
      Message.hasErrors e.allMessages = false := by
  unfold compile at h ⊢
  split at h
  · cases h
  · rw [Bool.and_eq_true, Bool.not_eq_true'] at h
    exact ⟨_, rfl, h.1⟩

/-- In a program that compiles every node has a type and can be evaluated. In any program, a node
without a type has an error at it or below it. -/
theorem closed_of_compiled (source : String) (scope : Scope) :
    ((compile source scope.types).compiled = true →
      ∃ e, (compile source scope.types).expression = some e ∧
        ∀ x, Expr.IsNode x e → Expr.Settled scope.values x) ∧
    ∀ e, (compile source scope.types).expression = some e →
      ∀ x, Expr.IsNode x e → x.info = none → Message.hasErrors x.allMessages = true := by
  constructor
  · intro h
    obtain ⟨e, he, hnone⟩ := exists_expression_of_compiled h
    refine ⟨e, he, fun x hx => (accounted_of_compile he hx).resolve_right fun herror => ?_⟩
    exact absurd herror (by rw [hx.hasErrors_eq_false hnone]; exact Bool.false_ne_true)
  · intro e he x hx hinfo
    refine (accounted_of_compile he hx).resolve_left fun hsettled => ?_
    have htyped := hsettled.typed
    rw [hinfo] at htyped
    cases htyped

/-- A program with a placeholder compiles in a scope of two names. In one with an unknown name the
call of it has no type, and the error stands below the call. -/
theorem closed_of_compiled_sample :
    ((compile "[f(n), f(_)(n)]" sampleScope.types).compiled = true ∧
      ∃ e, (compile "[f(n), f(_)(n)]" sampleScope.types).expression = some e ∧
        ∀ x, Expr.IsNode x e → Expr.Settled sampleScope.values x) ∧
    ∃ e, (compile "m(n)" sampleScope.types).expression = some e ∧ Expr.IsNode e e ∧ e.info = none ∧
      e.messages = [] ∧ Message.hasErrors e.allMessages = true := by
  have hcompiled : (compile "[f(n), f(_)(n)]" sampleScope.types).compiled = true := by
    decide +kernel
  refine ⟨⟨hcompiled, (closed_of_compiled _ sampleScope).1 hcompiled⟩, ?_⟩
  have hroot : (compile "m(n)" sampleScope.types).expression.map (fun e => (e.info, e.messages)) =
      some (none, []) := by
    decide +kernel
  obtain ⟨e, he, heq⟩ := Option.map_eq_some_iff.1 hroot
  obtain ⟨hinfo, hmessages⟩ := Prod.mk.inj heq
  exact ⟨e, he, .root, hinfo, hmessages,
    (closed_of_compiled _ sampleScope).2 e he e .root hinfo⟩

end LazyLang
