import LazyLang.Program
import LazyLang.Proofs.Calls
import LazyLang.Proofs.Grammar.Reported
import LazyLang.Proofs.Grammar.Soundness
import LazyLang.Proofs.Soundness.Derivations

/-!
# What the checker accepts has a derivation

In a scope without generic variables an expression that is annotated without an error has a typing
derivation for the type of its root. Nothing is learned from the arguments of a call then, and
substitution only puts unions in normal form, which leaves the values of a type as they are.
-/

namespace LazyLang

theorem Message.hasErrors_append_eq_false {ms ns : List Message} :
    Message.hasErrors (ms ++ ns) = false ↔
      Message.hasErrors ms = false ∧ Message.hasErrors ns = false := by
  rw [Message.hasErrors, List.any_append, Bool.or_eq_false_iff]
  rfl

theorem Expr.hasErrors_elementMessages {α : Type} {elements : List (Expr α)}
    (h : Message.hasErrors (elementMessages elements) = false) :
    ∀ e ∈ elements, Message.hasErrors e.allMessages = false := by
  induction elements with
  | nil => simp
  | cons head rest ih =>
      rw [elementMessages, Message.hasErrors_append_eq_false] at h
      exact List.forall_mem_cons.2 ⟨h.1, ih h.2⟩

theorem Expr.hasErrors_argMessages {α : Type} {args : List (Option (Expr α))}
    (h : Message.hasErrors (argMessages args) = false) :
    ∀ e, some e ∈ args → Message.hasErrors e.allMessages = false := by
  induction args with
  | nil => simp
  | cons head rest ih =>
      intro e he
      cases head with
      | none => exact ih h e (by simpa using he)
      | some head =>
          rw [argMessages, Message.hasErrors_append_eq_false] at h
          rcases List.mem_cons.1 he with heq | he
          · cases heq
            exact h.1
          · exact ih h.2 e he

theorem Expr.hasErrors_callee {node : Node Unit} {callee : TypedExpr}
    {args : List (Option TypedExpr)}
    (h : Message.hasErrors (typedCall node callee args).allMessages = false) :
    Message.hasErrors callee.allMessages = false := by
  rw [typedCall.eq_def] at h
  split at h <;>
    exact (Message.hasErrors_append_eq_false.1 (Message.hasErrors_append_eq_false.1 h).1).1

theorem Expr.typedElements_eq_map (scope : TypeScope) (elements : List Tree) :
    typedElements scope elements = elements.map (typed scope) := by
  induction elements with
  | nil => rfl
  | cons e rest ih => rw [typedElements, ih, List.map_cons]

theorem Expr.typedArgs_eq_map (scope : TypeScope) (args : List (Option Tree)) :
    typedArgs scope args = args.map (Option.map (typed scope)) := by
  induction args with
  | nil => rfl
  | cons arg rest ih => cases arg <;> rw [typedArgs, ih, List.map_cons] <;> rfl

namespace Fitted

theorem hasErrors_checkArgument {param found : Ty} {e : Evidence} {arg : TypedExpr}
    (h : Message.hasErrors (checkArgument param found e arg).allMessages = false) :
    checkArgument param found e arg = arg := by
  by_cases hfits : (param.isSubtype found && (e.substitute param).isSubtype found) = true
  · rw [checkArgument, if_pos hfits]
  · rw [checkArgument, if_neg hfits, Expr.allMessages_addMessages,
      Message.hasErrors_append_eq_false] at h
    cases h.2

/-- A call whose arguments bring no error leaves them as they are, and each that has a type fits its
parameter. -/
theorem fit_of_no_errors {params : List Ty} {args : List (Option TypedExpr)} {e : Evidence}
    (h : Message.hasErrors (Expr.argMessages (fit params args e).args) = false) :
    (fit params args e).args = args ∧ (fit params args e).remaining = Ty.leftOpen params args ∧
      ∀ p arg found, (p, some arg) ∈ params.zip args → arg.info = some found →
        p.isSubtype found = true := by
  induction args generalizing params e with
  | nil =>
      rw [fit.eq_def, Ty.leftOpen.eq_def]
      cases params <;> simp
  | cons head args ih =>
      cases params with
      | nil => simp [fit, Ty.leftOpen]
      | cons param params =>
          cases head with
          | none =>
              rw [fit] at h ⊢
              obtain ⟨hargs, hremaining, hfits⟩ := ih h
              refine ⟨congrArg _ hargs, congrArg _ hremaining, fun p arg found hp => ?_⟩
              rcases List.mem_cons.1 hp with heq | hp
              · cases heq
              · exact hfits p arg found hp
          | some arg =>
              rw [fit] at h ⊢
              cases hinfo : arg.info with
              | none =>
                  simp only [hinfo, Expr.argMessages, Message.hasErrors_append_eq_false] at h ⊢
                  obtain ⟨hargs, hremaining, hfits⟩ := ih h.2
                  refine ⟨congrArg _ hargs, hremaining, fun p arg' found hp hfound => ?_⟩
                  rcases List.mem_cons.1 hp with heq | hp
                  · cases heq
                    cases hinfo.symm.trans hfound
                  · exact hfits p arg' found hp hfound
              | some found =>
                  simp only [hinfo, Expr.argMessages, Message.hasErrors_append_eq_false] at h ⊢
                  obtain ⟨hargs, hremaining, hfits⟩ := ih h.2
                  have hself := hasErrors_checkArgument h.1
                  refine ⟨?_, hremaining, fun p arg' found' hp hfound => ?_⟩
                  · rw [hself, hargs]
                  · rcases List.mem_cons.1 hp with heq | hp
                    · cases heq
                      cases hinfo.symm.trans hfound
                      exact (isSubtype_of_checkArgument hself).1
                    · exact hfits p arg' found' hp hfound

/-- The type of a call is the normal form of what its function leaves. -/
theorem resultType_eq (f : Fitted) (result : Ty) :
    f.resultType result = f.evidence.substitute (Ty.awaiting f.remaining result) := by
  rw [resultType, Evidence.substituteEach_eq_map]
  cases f.remaining with
  | nil => rfl
  | cons p rest =>
      change Ty.function _ _ = Ty.function _ _
      rw [Evidence.substituteEach_eq_map]

end Fitted

theorem Ty.hasGenerics_of_mem_leftOpen {α : Type} {p : Ty} {params : List Ty}
    {args : List (Option α)} (h : Ty.anyGenerics params = false)
    (hp : p ∈ Ty.leftOpen params args) : p.hasGenerics = false := by
  induction args generalizing params with
  | nil =>
      rw [Ty.leftOpen.eq_def] at hp
      cases params <;> exact Ty.hasGenerics_of_mem h hp
  | cons arg args ih =>
      cases params with
      | nil => cases hp
      | cons param params =>
          rw [Ty.anyGenerics, Bool.or_eq_false_iff] at h
          cases arg with
          | none =>
              rcases List.mem_cons.1 hp with rfl | hp
              · exact h.1
              · exact ih h.2 hp
          | some arg => exact ih h.2 hp

theorem Ty.hasGenerics_awaiting {rest : List Ty} {result : Ty}
    (hrest : ∀ p ∈ rest, p.hasGenerics = false) (hresult : result.hasGenerics = false) :
    (Ty.awaiting rest result).hasGenerics = false := by
  cases rest with
  | nil => exact hresult
  | cons p rest =>
      rw [Ty.awaiting, Ty.hasGenerics, Bool.or_eq_false_iff]
      · exact ⟨Ty.anyGenerics_eq_false_iff.2 hrest, hresult⟩
      · simp

/-- An annotated expression has its type, which is one without variables. -/
def Derived (uses : String → Ty → Prop) (e : TypedExpr) : Prop :=
  ∃ a, e.info = some a ∧ a.hasGenerics = false ∧ HasType uses e a

variable {uses : String → Ty → Prop}

theorem derived_array (node : Node Unit) {elements : List TypedExpr}
    (h : ∀ e ∈ elements, Derived uses e) :
    Derived uses (.array ⟨node.span, node.messages, some (Expr.arrayType elements)⟩ elements) := by
  refine ⟨Expr.arrayType elements, rfl, ?_⟩
  cases elements with
  | nil => exact ⟨rfl, .emptyArray _⟩
  | cons head rest =>
      obtain ⟨a, ha, -, -⟩ := h head List.mem_cons_self
      have hknown : ∀ b ∈ (head :: rest).filterMap (·.info), b.hasGenerics = false := by
        intro b hb
        obtain ⟨e, he, heq⟩ := List.mem_filterMap.1 hb
        obtain ⟨b', hb', hg, -⟩ := h e he
        cases heq.symm.trans hb'
        exact hg
      have hg := Ty.hasGenerics_unionOf hknown
      have htype : Expr.arrayType (head :: rest) =
          .array (Ty.unionOf ((head :: rest).filterMap (·.info))) := by
        rw [Expr.arrayType, List.filterMap_cons_some ha]
      rw [htype]
      refine ⟨hg, .array fun e he => ?_⟩
      obtain ⟨b, hb, hgb, hderived⟩ := h e he
      exact .accepted hderived hgb hg
        (Ty.accepts_unionOf_of_mem (List.mem_filterMap.2 ⟨e, he, hb⟩))

theorem derived_call (node : Node Unit) {callee : TypedExpr} {args : List (Option TypedExpr)}
    (hcallee : Derived uses callee)
    (hargs : ∀ e, some e ∈ args → Message.hasErrors e.allMessages = false → Derived uses e)
    (h : Message.hasErrors (Expr.typedCall node callee args).allMessages = false) :
    Derived uses (Expr.typedCall node callee args) := by
  obtain ⟨a, ha, hg, hderived⟩ := hcallee
  rw [Expr.typedCall, ha] at h ⊢
  cases a with
  | function params result =>
      simp only [Expr.allMessages, Message.hasErrors_append_eq_false] at h ⊢
      obtain ⟨⟨-, hfit⟩, -, hsurplus⟩ := h
      obtain ⟨hself, hremaining, hfits⟩ := Fitted.fit_of_no_errors hfit
      have hlen : args.length ≤ params.length := by
        by_contra hmany
        rw [if_pos (Nat.lt_of_not_le hmany)] at hsurplus
        cases hsurplus
      rw [hself] at hfit ⊢
      rw [Ty.hasGenerics, Bool.or_eq_false_iff] at hg
      have hrest : ∀ p ∈ Ty.leftOpen params args, p.hasGenerics = false :=
        fun p hp => Ty.hasGenerics_of_mem_leftOpen hg.1 hp
      have hopen := Ty.hasGenerics_awaiting hrest hg.2
      have harg : ∀ p e, (p, some e) ∈ params.zip args → HasType uses e p := by
        intro p e hp
        obtain ⟨hparam, hmem⟩ := List.of_mem_zip hp
        obtain ⟨found, hfound, hgfound, hhas⟩ :=
          hargs e hmem (Expr.hasErrors_argMessages hfit e hmem)
        exact .accepted hhas hgfound (Ty.hasGenerics_of_mem hg.1 hparam) (hfits p e found hp hfound)
      refine ⟨_, rfl, ?_⟩
      rw [Fitted.resultType_eq, hremaining]
      exact ⟨Evidence.hasGenerics_substitute _ hopen, .normal (.call hderived hlen harg) hopen _⟩
  | _ => cases (Message.hasErrors_append_eq_false.1 (Message.hasErrors_append_eq_false.1 h).2).2

/-- In a scope without generic variables, an expression that is annotated without an error has a
derivation for its type. -/
theorem derived_typed {scope : TypeScope} {uses : String → Ty → Prop}
    (hscope : ∀ name a, scope.get? name = some a → a.hasGenerics = false ∧ uses name a) {e : Tree}
    (he : Tree.Reported e) (h : Message.hasErrors (e.typed scope).allMessages = false) :
    Derived uses (e.typed scope) := by
  induction he with
  | identifier node name =>
      rw [Expr.typed, Expr.typedIdentifier] at h ⊢
      cases hname : scope.get? name with
      | none =>
          rw [hname] at h
          cases (Message.hasErrors_append_eq_false.1 h).2
      | some a => exact ⟨a, rfl, (hscope name a hname).1, .identifier (hscope name a hname).2⟩
  | integer node value => exact ⟨_, rfl, rfl, .integer _ _⟩
  | float node value => exact ⟨_, rfl, rfl, .float _ _⟩
  | string node value => exact ⟨_, rfl, rfl, .string _ _⟩
  | boolean node value => exact ⟨_, rfl, rfl, .boolean _ _⟩
  | none node => exact ⟨_, rfl, rfl, .none _⟩
  | unrecognized hreported => cases hreported.symm.trans h
  | array node helements ih =>
      rw [Expr.typed, Expr.typedElements_eq_map] at h ⊢
      refine derived_array node fun e he => ?_
      obtain ⟨e, hmem, rfl⟩ := List.mem_map.1 he
      have hnone := Expr.hasErrors_elementMessages (Message.hasErrors_append_eq_false.1 h).1
      exact ih e hmem (hnone _ he)
  | call node hcallee hargs ihcallee ihargs =>
      rw [Expr.typed, Expr.typedArgs_eq_map] at h ⊢
      refine derived_call node (ihcallee (Expr.hasErrors_callee h)) (fun e he hnone => ?_) h
      obtain ⟨arg, harg, heq⟩ := List.mem_map.1 he
      obtain ⟨e, rfl, rfl⟩ := Option.map_eq_some_iff.1 heq
      exact ihargs e harg hnone

end LazyLang
