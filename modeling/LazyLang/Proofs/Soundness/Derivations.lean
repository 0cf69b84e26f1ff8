import LazyLang.Proofs.Soundness.Application
import LazyLang.Proofs.Soundness.Inclusion

/-!
# Typing derivations

`HasType uses e a` says that the expression `e` has the type `a` where `uses` tells at which types a
name may be used. There are no generic variables in it: a name that is bound to a generic function
may be used at some types without them. Arguments and elements are of the types that are expected of
them, and an expression of a type is also of every type that accepts it, and of its type with unions
in normal form.

An expression with a type, evaluated where every name gives values of the types at which it may be
used, is a lazy value of its type. The proof follows the derivation.
-/

namespace LazyLang

namespace Ty

/-- The parameters that no argument is given for: those of the placeholders and those after the last
argument. -/
def leftOpen {α : Type} : List Ty → List (Option α) → List Ty
  | params, [] => params
  | [], _ => []
  | param :: params, Option.none :: args => param :: leftOpen params args
  | _ :: params, some _ :: args => leftOpen params args

/-- The result of a call that leaves some parameters open. -/
def awaiting (rest : List Ty) (result : Ty) : Ty :=
  match rest with
  | [] => result
  | rest => .function rest result

theorem kind_awaiting (total : Bool) (rest : List Ty) (result : Ty) :
    (awaiting rest result).kind total = .awaiting total (kinds total rest) (result.kind total) := by
  cases rest <;> rfl

end Ty

/-- Typing derivations. -/
inductive HasType (uses : String → Ty → Prop) : TypedExpr → Ty → Prop
  | identifier {node : Node (Option Ty)} {name : String} {a : Ty} (h : uses name a) :
      HasType uses (.identifier node name) a
  | integer (node : Node (Option Ty)) (value : Int64) : HasType uses (.integer node value) .integer
  | float (node : Node (Option Ty)) (value : Float) : HasType uses (.float node value) .float
  | string (node : Node (Option Ty)) (value : String) : HasType uses (.string node value) .string
  | boolean (node : Node (Option Ty)) (value : Bool) : HasType uses (.boolean node value) .boolean
  | none (node : Node (Option Ty)) : HasType uses (.none node) .none
  | emptyArray (node : Node (Option Ty)) : HasType uses (.array node []) .emptyArray
  | array {node : Node (Option Ty)} {elements : List TypedExpr} {element : Ty}
      (h : ∀ e ∈ elements, HasType uses e element) :
      HasType uses (.array node elements) (.array element)
  | call {node : Node (Option Ty)} {callee : TypedExpr} {args : List (Option TypedExpr)}
      {params : List Ty} {result : Ty} (hcallee : HasType uses callee (.function params result))
      (hlen : args.length ≤ params.length)
      (hargs : ∀ p e, (p, some e) ∈ params.zip args → HasType uses e p) :
      HasType uses (.call node callee args) (Ty.awaiting (Ty.leftOpen params args) result)
  | accepted {e : TypedExpr} {a b : Ty} (h : HasType uses e a) (ha : a.hasGenerics = false)
      (hb : b.hasGenerics = false) (hab : b.isSubtype a = true) : HasType uses e b
  | normal {e : TypedExpr} {a : Ty} (h : HasType uses e a) (ha : a.hasGenerics = false)
      (known : Evidence) : HasType uses e (known.substitute a)

namespace Expr

variable {α β : Type}

mutual

/-- Whether two expressions are the same but for what their nodes carry and which literals of a type
they hold. -/
def resembles : Expr α → Expr β → Bool
  | identifier _ name, identifier _ other => name = other
  | integer _ _, integer _ _ | float _ _, float _ _ | string _ _, string _ _ => true
  | boolean _ _, boolean _ _ | none _, none _ => true
  | array _ elements, array _ others => resembleElements elements others
  | call _ callee args, call _ other others => resembles callee other && resembleArgs args others
  | _, _ => false

/-- Whether the expressions resemble the others, one by one. -/
def resembleElements : List (Expr α) → List (Expr β) → Bool
  | [], [] => true
  | e :: rest, other :: others => resembles e other && resembleElements rest others
  | _, _ => false

/-- Whether the arguments resemble the others, one by one. -/
def resembleArgs : List (Option (Expr α)) → List (Option (Expr β)) → Bool
  | [], [] => true
  | Option.none :: rest, Option.none :: others => resembleArgs rest others
  | some e :: rest, some other :: others => resembles e other && resembleArgs rest others
  | _, _ => false

end

theorem exists_resembling_of_mem {elements : List (Expr α)} {others : List (Expr β)}
    (h : resembleElements elements others = true) :
    ∀ other ∈ others, ∃ e ∈ elements, resembles e other = true := by
  induction elements generalizing others with
  | nil =>
      cases others with
      | nil => simp
      | cons => cases h
  | cons e rest ih =>
      cases others with
      | nil => cases h
      | cons other others =>
          rw [resembleElements, Bool.and_eq_true] at h
          intro other' hother
          rcases List.mem_cons.1 hother with rfl | hother
          · exact ⟨e, List.mem_cons_self, h.1⟩
          · obtain ⟨e', he', hlike⟩ := ih h.2 other' hother
            exact ⟨e', List.mem_cons_of_mem _ he', hlike⟩

/-- Arguments that resemble others are given for the same parameters. -/
theorem resembleArgs_spec {args : List (Option (Expr α))} {others : List (Option (Expr β))}
    (h : resembleArgs args others = true) (params : List Ty) :
    others.length = args.length ∧ Ty.leftOpen params others = Ty.leftOpen params args ∧
      ∀ p other, (p, some other) ∈ params.zip others →
        ∃ e, (p, some e) ∈ params.zip args ∧ resembles e other = true := by
  induction args generalizing others params with
  | nil =>
      cases others with
      | nil =>
          refine ⟨rfl, ?_, fun p other hother => by simp at hother⟩
          cases params <;> rfl
      | cons => cases h
  | cons arg rest ih =>
      cases others with
      | nil => cases arg <;> cases h
      | cons other others =>
          cases params with
          | nil =>
              have hrest : resembleArgs rest others = true := by
                cases arg <;> cases other <;> simp_all [resembleArgs]
              exact ⟨congrArg Nat.succ (ih hrest []).1, rfl, fun p e he => by simp at he⟩
          | cons param params =>
              cases arg with
              | none =>
                  cases other with
                  | some => cases h
                  | none =>
                      rw [resembleArgs] at h
                      obtain ⟨hlen, hopen, hzip⟩ := ih h params
                      refine ⟨congrArg Nat.succ hlen, congrArg _ hopen, fun p e he => ?_⟩
                      rcases List.mem_cons.1 he with heq | he
                      · cases heq
                      · obtain ⟨e', he', hlike⟩ := hzip p e he
                        exact ⟨e', List.mem_cons_of_mem _ he', hlike⟩
              | some e =>
                  cases other with
                  | none => cases h
                  | some other =>
                      rw [resembleArgs, Bool.and_eq_true] at h
                      obtain ⟨hlen, hopen, hzip⟩ := ih h.2 params
                      refine ⟨congrArg Nat.succ hlen, hopen, fun p e' he => ?_⟩
                      rcases List.mem_cons.1 he with heq | he
                      · cases heq
                        exact ⟨e, List.mem_cons_self, h.1⟩
                      · obtain ⟨e'', he'', hlike⟩ := hzip p e' he
                        exact ⟨e'', List.mem_cons_of_mem _ he'', hlike⟩

end Expr

/-- A derivation looks neither at what the nodes carry nor at which literals there are. -/
theorem HasType.of_resembles {uses : String → Ty → Prop} {e other : TypedExpr} {a : Ty}
    (h : HasType uses e a) (hlike : e.resembles other = true) : HasType uses other a := by
  induction h generalizing other with
  | identifier h =>
      cases other with
      | identifier node name =>
          cases of_decide_eq_true hlike
          exact .identifier h
      | _ => cases hlike
  | integer | float | string | boolean | none =>
      cases other <;> cases hlike
      constructor
  | emptyArray =>
      cases other with
      | array node others =>
          cases others with
          | nil => exact .emptyArray _
          | cons => cases hlike
      | _ => cases hlike
  | array _ ih =>
      cases other with
      | array node others =>
          refine .array fun e he => ?_
          obtain ⟨e', he', hlike⟩ := Expr.exists_resembling_of_mem hlike e he
          exact ih e' he' hlike
      | _ => cases hlike
  | @call node callee args params result _ hlen _ ihcallee ihargs =>
      cases other with
      | call node other others =>
          rw [Expr.resembles, Bool.and_eq_true] at hlike
          obtain ⟨hlength, hopen, hzip⟩ := Expr.resembleArgs_spec hlike.2 params
          rw [← hopen]
          have hfew : others.length ≤ params.length := Nat.le_trans (Nat.le_of_eq hlength) hlen
          refine .call (ihcallee hlike.1) hfew fun p e he => ?_
          obtain ⟨e', he', hlike⟩ := hzip p e he
          exact ihargs p e' he' hlike
      | _ => cases hlike
  | accepted _ ha hb hab ih => exact .accepted (ih hlike) ha hb hab
  | normal _ ha known ih => exact .normal (ih hlike) ha known

/-- Every name gives values of the types at which it may be used. -/
def Provides (total : Bool) (uses : String → Ty → Prop) (scope : ValueScope) (w : World) : Prop :=
  ∀ name a, uses name a → ∃ r, scope.get? name = some r ∧ Lazy total (a.kind total) w r

/-- The lazy value of an expression is of a kind, wherever it is suspended. -/
def Suspends (total : Bool) (uses : String → Ty → Prop) (scope : ValueScope) (e : TypedExpr)
    (S : Kind) : Prop :=
  ∀ w, Provides total uses scope w →
    Lazy total S ⟨(e.suspend scope w.store).2, w.frames⟩ (e.suspend scope w.store).1

variable {total : Bool} {uses : String → Ty → Prop} {scope : ValueScope}

theorem Provides.mono {w w' : World} (h : Provides total uses scope w) (hle : w ≤ w') :
    Provides total uses scope w' := by
  intro name a ha
  obtain ⟨r, hr, hlazy⟩ := h name a ha
  exact ⟨r, hr, hlazy.mono hle⟩

theorem World.le_suspend (e : TypedExpr) (scope : ValueScope) (w : World) :
    w ≤ ⟨(e.suspend scope w.store).2, w.frames⟩ :=
  World.le_of_grown (e.suspend_grown scope w.store) w.frames

theorem World.le_suspendArgs (args : List (Option TypedExpr)) (scope : ValueScope) (w : World) :
    w ≤ ⟨(Expr.suspendArgs scope args w.store).2, w.frames⟩ :=
  World.le_of_grown (Expr.suspendArgs_grown scope args w.store) w.frames

/-- The elements of an array literal are suspended as the traversal comes to them. -/
theorem Gives.literal {S : Kind} {elements : List TypedExpr} {w : World}
    (h : ∀ e ∈ elements, Suspends total uses scope e S) (hscope : Provides total uses scope w) :
    Gives total S w (.literal scope elements) := by
  refine ⟨fun w t => ∃ rest, t = .literal scope rest ∧ (∀ e ∈ rest, Suspends total uses scope e S) ∧
    Provides total uses scope w, ⟨elements, rfl, h, hscope⟩, ?_⟩
  rintro w t ⟨rest, rfl, h, hscope⟩ w' hle
  have hscope := hscope.mono hle
  apply Yields.next
  cases rest with
  | nil =>
      refine Yields.pure (a := (none, Traversal.literal scope [])) fun item hitem => ?_
      cases hitem
  | cons e rest =>
      refine Yields.bind (P := fun w r => Lazy total S w r ∧ Provides total uses scope w)
        (Yields.update (e.suspend_grown scope) fun hlater => ?_) fun w'' r _ hr => ?_
      · exact ⟨h e List.mem_cons_self w' hscope, hscope.mono hlater⟩
      · refine Yields.pure fun item hitem => ?_
        cases hitem
        exact ⟨hr.1, rest, rfl, fun e he => h e (List.mem_cons_of_mem _ he), hr.2⟩

theorem suspends_value {S : Kind} {e : TypedExpr} {v : Value}
    (he : ∀ st, e.suspend scope st = st.addValue v)
    (hv : ∀ w, Provides total uses scope w → S.holds w v) : Suspends total uses scope e S := by
  intro w hscope
  rw [he]
  exact Lazy.of_addValue w.store w.frames fun w' hle => hv w' (hscope.mono hle)

/-- The suspended arguments of a call are supplied to the parameters. -/
theorem supplies_suspendArgs {params : List Ty} {args : List (Option TypedExpr)}
    (hlen : args.length ≤ params.length)
    (hargs : ∀ p e, (p, some e) ∈ params.zip args → Suspends total uses scope e (p.kind total))
    {w : World} (hscope : Provides total uses scope w) :
    Supplies total ⟨(Expr.suspendArgs scope args w.store).2, w.frames⟩ (Ty.kinds total params)
      (Expr.suspendArgs scope args w.store).1 (Ty.kinds total (Ty.leftOpen params args)) := by
  induction args generalizing params w with
  | nil =>
      rw [Ty.leftOpen.eq_def]
      cases params <;> exact .nil _
  | cons arg args ih =>
      cases params with
      | nil => cases hlen
      | cons p params =>
          have hfew : args.length ≤ params.length := Nat.le_of_succ_le_succ hlen
          have hrest : ∀ q e, (q, some e) ∈ params.zip args →
              Suspends total uses scope e (q.kind total) :=
            fun q e he => hargs q e (List.mem_cons_of_mem _ he)
          cases arg with
          | none => exact .placeholder (ih hfew hrest hscope)
          | some e =>
              have hafter := World.le_suspend e scope w
              have hlazy := hargs p e List.mem_cons_self w hscope
              have hlater := World.le_suspendArgs args scope ⟨(e.suspend scope w.store).2, w.frames⟩
              exact .arg (hlazy.mono hlater) (ih hfew hrest (hscope.mono hafter))

/-- A call of a lazy function. -/
theorem returns_apply {params rest : List Kind} {result : Kind} {callee : Ref}
    {args : List (Option Ref)} {w : World}
    (hcallee : Lazy total (.function total params result) w callee)
    (hargs : Supplies total w params args rest) :
    Returns total w (fun R => (Thunk.apply callee args).run R)
      (Kind.awaiting total rest result).holds := by
  refine Returns.bind hcallee.force fun w' v hle hv => ?_
  obtain ⟨f, rfl, hf⟩ := hv
  exact hf.apply (hargs.mono hle)

/-- An expression with a type is a lazy value of its type. -/
theorem HasType.suspends {e : TypedExpr} {a : Ty} (h : HasType uses e a) :
    Suspends total uses scope e (a.kind total) := by
  induction h with
  | identifier h =>
      intro w hscope
      obtain ⟨r, hr, hlazy⟩ := hscope _ _ h
      simpa only [Expr.suspend, hr] using hlazy
  | integer node value => exact suspends_value (fun _ => rfl) fun _ _ => ⟨value, rfl⟩
  | float node value => exact suspends_value (fun _ => rfl) fun _ _ => .inr ⟨value, rfl⟩
  | string node value => exact suspends_value (fun _ => rfl) fun _ _ => ⟨value, rfl⟩
  | boolean node value => exact suspends_value (fun _ => rfl) fun _ _ => .inl ⟨value, rfl⟩
  | none node => exact suspends_value (fun _ => rfl) fun _ _ => rfl
  | emptyArray node =>
      refine suspends_value (fun _ => rfl) fun w hscope => ⟨_, rfl, fun w' hle => ?_⟩
      refine Yields.pure fun w'' _ => Yields.next ?_
      exact Yields.pure (a := (Option.none, Traversal.literal scope [])) rfl
  | array h ih =>
      refine suspends_value (fun _ => rfl) fun w hscope => ⟨_, rfl, fun w' hle => ?_⟩
      exact Yields.pure (Gives.literal ih (hscope.mono hle))
  | @call node callee args params result hcallee hlen hargs ihcallee ihargs =>
      intro w hscope
      have hafter := World.le_suspend callee scope w
      have hlater := World.le_suspendArgs args scope ⟨(callee.suspend scope w.store).2, w.frames⟩
      have hfunction := (ihcallee w hscope).mono hlater
      have hsupplies := supplies_suspendArgs hlen ihargs (hscope.mono hafter)
      rw [Ty.kind_awaiting]
      exact Lazy.of_defer _ w.frames fun w' hle =>
        returns_apply (hfunction.mono hle) (hsupplies.mono hle)
  | accepted _ ha hb hab ih =>
      exact fun w hscope => (ih w hscope).imp fun w' v _ => Ty.includes_of_accepts hb ha hab w' v
  | normal _ ha known ih =>
      exact fun w hscope => (ih w hscope).imp fun w' v _ =>
        (Evidence.includes_substitute known ha).1 w' v

end LazyLang
