import LazyLang.Program
import LazyLang.Proofs.Soundness.Builtins
import LazyLang.Proofs.Soundness.Monomorphic

/-!
# Programs over the standard library

The checker lets an argument pass whose type still has variables, and one whose parameter is widened
by an argument after it. A program that gets through this way can call what is not a function. It
cannot if it has a typing derivation: if each use of a name is at an instance of its type and each
argument is of a type that its parameter accepts at this instance.
-/

namespace LazyLang

open Ty (Suits instantiate)

/-- The types at which a name may be used are the instances of the one that the scope gives it. -/
def TypeScope.instances (scope : TypeScope) (name : String) (a : Ty) : Prop :=
  ∃ b, scope.get? name = some b ∧ ∃ θ, Suits θ b ∧ a = instantiate θ b

/-- A value that is of every instance of a type. -/
def Generalizes (b : Ty) (v : Value) : Prop :=
  ∀ θ, Suits θ b → ∀ w, ((instantiate θ b).kind false).holds w v

/-- The built-in functions are of all instances of their types. -/
theorem Builtin.generalizes_value (b : Builtin) : Generalizes b.type b.value := by
  intro θ hθ w
  refine ⟨_, rfl, .of_body ?_ fun w' _ args hargs => returns_runBuiltin b hθ hargs⟩
  have hlen : (Ty.kinds false (Ty.instantiateEach θ b.params)).length = b.params.length := by
    rw [Ty.kinds_eq_map, Ty.instantiateEach_eq_map, List.length_map, List.length_map]
  rw [hlen]
  rfl

theorem Library.generalizes_of_mem {entry : Entry} (h : entry ∈ Library.standard) :
    Generalizes entry.type entry.value := by
  rcases List.mem_append.1 h with h | h
  · obtain ⟨b, -, rfl⟩ := List.mem_map.1 h
    exact b.generalizes_value
  · rcases List.mem_cons.1 h with rfl | h
    · exact fun _ _ _ => .inr ⟨_, rfl⟩
    · cases List.mem_singleton.1 h
      exact fun _ _ _ => .inr ⟨_, rfl⟩

namespace Scope

/-- A scope in which every name gives values of all instances of its type. -/
def Polymorphic (scope : Scope) (w : World) : Prop :=
  ∀ name b, scope.get? name = some b → ∀ θ, Suits θ b.type →
    Lazy false ((instantiate θ b.type).kind false) w b.value

theorem Polymorphic.provides {scope : Scope} {w : World} (h : scope.Polymorphic w) :
    Provides false (TypeScope.instances scope.types) scope.values w := by
  rintro name a ⟨b, hb, θ, hθ, rfl⟩
  obtain ⟨binding, hbinding, hvalue, rfl⟩ := exists_binding_of_types hb
  exact ⟨binding.value, hvalue, h name binding hbinding θ hθ⟩

/-- Putting entries into the store only adds to it, and each name is bound to a value of its
type. -/
theorem bindEntries_spec {entries : List Entry}
    (h : ∀ entry ∈ entries, Generalizes entry.type entry.value) (st : Store)
    (frames : List (Ref × Store)) :
    (⟨st, frames⟩ : World) ≤ ⟨(bindEntries entries st).2, frames⟩ ∧
      ∀ named ∈ (bindEntries entries st).1, ∀ θ, Suits θ named.2.type →
        Lazy false ((instantiate θ named.2.type).kind false)
          ⟨(bindEntries entries st).2, frames⟩ named.2.value := by
  induction entries generalizing st with
  | nil => exact ⟨le_refl _, fun named hnamed => nomatch hnamed⟩
  | cons entry rest ih =>
      obtain ⟨hle, hrest⟩ :=
        ih (fun other hother => h other (List.mem_cons_of_mem _ hother)) (st.addValue entry.value).2
      have hadded : (⟨st, frames⟩ : World) ≤ ⟨(st.addValue entry.value).2, frames⟩ :=
        (World.Step.add st frames _ fun h => Cell.noConfusion h).le
      refine ⟨hadded.trans hle, fun named hnamed θ hθ => ?_⟩
      rcases List.mem_cons.1 hnamed with rfl | hnamed
      · exact (Lazy.of_addValue st frames fun w _ => h entry List.mem_cons_self θ hθ w).mono hle
      · exact hrest named hnamed θ hθ

/-- The scope of the standard library. -/
theorem polymorphic_standard (st : Store) (frames : List (Ref × Store)) :
    (Scope.standard st).1.Polymorphic ⟨(Scope.standard st).2, frames⟩ := by
  intro name b hb θ hθ
  obtain ⟨layer, hlayer, hmem⟩ := Layers.exists_mem_of_get? hb
  cases List.mem_singleton.1 hlayer
  exact (bindEntries_spec (fun _ => Library.generalizes_of_mem) st frames).2 _ hmem θ hθ

end Scope

/-- A failure that comes of calling something that is not a function, or that has enough arguments
already. -/
def RuntimeError.isMisapplied : RuntimeError → Bool
  | notAFunction _ | tooManyArguments _ _ _ => true
  | _ => false

theorem RuntimeError.isMisapplied_of_allowed {e : RuntimeError} (h : e.allowed = true) :
    e.isMisapplied = false := by
  cases e <;> first | rfl | cases h

/-- Whatever the limit on arrays, forcing and stripping the value of a program calls nothing but
functions, and with no more arguments than they take. -/
def CallsFit (scope : Scope) (st : Store) (source : String) : Prop :=
  ∀ e, (compile source scope.types).expression = some e → ∀ limit fuel failure st',
    ((Runner.ofFuel fuel).stripRef limit (e.suspend scope.values st).1).run
      (e.suspend scope.values st).2 = some (.error failure, st') → failure.isMisapplied = false

/-- A program that has a typing derivation with each use of a name at an instance of its type. -/
def Typable (scope : TypeScope) (source : String) : Prop :=
  ∃ e a, (compile source scope).expression = some e ∧ HasType scope.instances e a

/-- A program that reads like an expression with a derivation has one. -/
theorem typable_of_resembles {scope : TypeScope} {source : String} {e : TypedExpr} {a : Ty}
    (h : HasType scope.instances e a)
    (hlike : (compile source scope).expression.any (e.resembles ·) = true) :
    Typable scope source := by
  obtain ⟨e', he', hlike⟩ := (Option.any_eq_true _ _).1 hlike
  exact ⟨e', a, he', h.of_resembles hlike⟩

/-- Forcing and stripping a value of a type fails only in ways that types leave open. -/
theorem Lazy.stripRef {a : Ty} {w : World} {r : Ref} (h : Lazy false (a.kind false) w r)
    (limit : Option Nat) :
    Returns false w (fun R => R.stripRef limit r) Value.Anything :=
  Returns.bind h.force fun _ _ _ hv => Returns.strip limit ⟨a, hv⟩

/-- A program over the standard library that has a typing derivation never calls what is not a
function, nor a function with too many arguments. -/
theorem callsFit_of_typable (st : Store) {source : String}
    (h : Typable (Scope.standard st).1.types source) :
    CallsFit (Scope.standard st).1 (Scope.standard st).2 source := by
  obtain ⟨e, a, he, hderived⟩ := h
  intro e' he' limit fuel failure st' hrun
  cases he.symm.trans he'
  have hprovides := (Scope.polymorphic_standard st []).provides
  have hlazy := hderived.suspends ⟨_, []⟩ hprovides
  exact RuntimeError.isMisapplied_of_allowed ((hlazy.stripRef limit).holds fuel _ st' hrun).2

section Samples

/-- The scope of the standard library in a store with nothing else. -/
def Scope.loaded : Scope := (Scope.standard Store.empty).1

/-- The store with nothing but the standard library. -/
def Store.loaded : Store := (Scope.standard Store.empty).2

def sampleNode : Node (Option Ty) := ⟨⟨⟨0, 0⟩, ⟨0, 0⟩⟩, [], none⟩

/-- An array of a number through the function that changes nothing. -/
def sampleExpr : TypedExpr :=
  .call sampleNode (.identifier sampleNode "map") [some (.identifier sampleNode "identity"),
    some (.array sampleNode [.integer sampleNode 1])]

theorem typable_sample : Typable Scope.loaded.types "map(identity, [1])" := by
  have hmap : HasType Scope.loaded.types.instances (.identifier sampleNode "map")
      (.function [.function [.integer] .integer, .array .integer] (.array .integer)) :=
    .identifier ⟨Builtin.map.type, by decide +kernel, fun _ => .integer,
      fun _ _ h => absurd h List.not_mem_nil, rfl⟩
  have hidentity : HasType Scope.loaded.types.instances (.identifier sampleNode "identity")
      (.function [.integer] .integer) :=
    .identifier ⟨Builtin.identity.type, by decide +kernel, fun _ => .integer,
      fun _ _ h => absurd h List.not_mem_nil, rfl⟩
  have hcall : HasType Scope.loaded.types.instances sampleExpr (.array .integer) := by
    refine .call hmap (Nat.le_refl 2) fun p e hp => ?_
    rcases List.mem_cons.1 hp with heq | hp
    · cases heq
      exact hidentity
    · cases List.mem_singleton.1 hp
      refine .array fun e he => ?_
      cases List.mem_singleton.1 he
      exact .integer _ _
  exact typable_of_resembles hcall (by decide +kernel)

theorem callsFit_of_typable_sample :
    Typable Scope.loaded.types "map(identity, [1])" ∧
      CallsFit Scope.loaded Store.loaded "map(identity, [1])" :=
  ⟨typable_sample, callsFit_of_typable Store.empty typable_sample⟩

/-- The checker takes `identity` for a function to predicates and leaves open what it is given, so
that the composition takes an integer for a predicate. -/
theorem not_callsFit_of_compiled :
    (compile "(filter(_, [1]) . identity)(5)" Scope.loaded.types).compiled = true ∧
      ¬ CallsFit Scope.loaded Store.loaded "(filter(_, [1]) . identity)(5)" := by
  have hcompiled : (compile "(filter(_, [1]) . identity)(5)" Scope.loaded.types).compiled = true := by
    rw [compile, Token.tokenize_eq]
    decide +kernel
  refine ⟨hcompiled, fun h => ?_⟩
  have hrun : (compile "(filter(_, [1]) . identity)(5)" Scope.loaded.types).expression.any
      (fun e =>
        (((Runner.ofFuel 12).stripRef none (e.suspend Scope.loaded.values Store.loaded).1).run
          (e.suspend Scope.loaded.values Store.loaded).2).any fun run =>
            match run.1 with
            | .error failure => failure.isMisapplied
            | .ok _ => false) = true := by
    rw [compile, Token.tokenize_eq]
    decide +kernel
  obtain ⟨e, he, hrun⟩ := (Option.any_eq_true _ _).1 hrun
  obtain ⟨⟨outcome, st⟩, hst, hfailed⟩ := (Option.any_eq_true _ _).1 hrun
  cases outcome with
  | ok => cases hfailed
  | error failure =>
      have hfits := h e he none 12 failure st hst
      exact absurd (hfits.symm.trans hfailed) Bool.false_ne_true

end Samples

end LazyLang
