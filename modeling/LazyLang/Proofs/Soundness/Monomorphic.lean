import LazyLang.Proofs.Layers
import LazyLang.Proofs.Soundness.Checking

/-!
# Programs in scopes without generic variables

If no binding of a scope has generic variables in its type and each gives values of its type, then
so does every program that compiles in it: forced at once or at any later time, the value of the
program is of the type of its root, or the failure is one that types leave open. If all the
functions in scope end then so does the program.
-/

namespace LazyLang

/-- A scope in which no type has generic variables and every name gives values of its type. -/
def Scope.Monomorphic (total : Bool) (scope : Scope) (w : World) : Prop :=
  ∀ name b, scope.get? name = some b →
    b.type.hasGenerics = false ∧ Lazy total (b.type.kind total) w b.value

/-- The types at which a name may be used are the one that the scope gives it. -/
def TypeScope.uses (scope : TypeScope) (name : String) (a : Ty) : Prop := scope.get? name = some a

/-- A name with a type is bound to a value too. -/
theorem exists_binding_of_types {scope : Scope} {name : String} {a : Ty}
    (h : scope.types.get? name = some a) :
    ∃ b, scope.get? name = some b ∧ scope.values.get? name = some b.value ∧ b.type = a := by
  rw [Scope.types, Layers.get?_project] at h
  obtain ⟨b, hb, htype⟩ := Option.map_eq_some_iff.1 h
  refine ⟨b, hb, ?_, htype⟩
  rw [Scope.values, Layers.get?_project, hb]
  rfl

theorem Scope.Monomorphic.provides {total : Bool} {scope : Scope} {w : World}
    (h : scope.Monomorphic total w) :
    Provides total (TypeScope.uses scope.types) scope.values w := by
  intro name a ha
  obtain ⟨b, hb, hvalue, rfl⟩ := exists_binding_of_types ha
  exact ⟨b.value, hvalue, (h name b hb).2⟩

/-- What compiles in a scope without generic variables has a derivation for the type of its root. -/
theorem exists_derived_of_compiled {scope : TypeScope} {source : String}
    (hscope : ∀ name a, scope.get? name = some a → a.hasGenerics = false)
    (h : (compile source scope).compiled = true) :
    ∃ e, (compile source scope).expression = some e ∧ Derived (TypeScope.uses scope) e := by
  unfold compile at h ⊢
  cases hts : Token.tokenize source with
  | error message =>
      rw [hts] at h
      cases h
  | ok tokens =>
      rw [hts] at h
      refine ⟨_, rfl, ?_⟩
      rw [Bool.and_eq_true, Bool.not_eq_true'] at h
      exact derived_typed (fun name a ha => ⟨hscope name a ha, ha⟩) (Tree.reported_ofTokens tokens)
        h.1

/-- The value of a program that compiles is of the type of its root. -/
theorem lazy_of_compiled (total : Bool) {scope : Scope} {w : World}
    (hscope : scope.Monomorphic total w) {source : String}
    (h : (compile source scope.types).compiled = true) :
    ∃ e a, (compile source scope.types).expression = some e ∧ e.info = some a ∧
      Lazy total (a.kind total) ⟨(e.suspend scope.values w.store).2, w.frames⟩
        (e.suspend scope.values w.store).1 := by
  have hground : ∀ name a, scope.types.get? name = some a → a.hasGenerics = false := by
    intro name a ha
    obtain ⟨b, hb, -, rfl⟩ := exists_binding_of_types ha
    exact (hscope name b hb).1
  obtain ⟨e, he, a, ha, -, hderived⟩ := exists_derived_of_compiled hground h
  exact ⟨e, a, he, ha, hderived.suspends w hscope.provides⟩

/-- A function of the host that gives its argument takes and gives values of any kind. -/
theorem maps_first (total : Bool) (S : Kind) (w : World) (name : String) :
    Maps total [S] S w (.ofHost name 1 .first) := by
  refine .of_body rfl fun w' hle args hargs => ?_
  obtain ⟨r, rfl, hr⟩ : ∃ r, args = [r] ∧ Lazy total S w' r := by
    cases hargs with
    | cons hr hrest =>
        cases hrest
        exact ⟨_, rfl, hr⟩
  refine Returns.bind (P := fun w'' _ => w' ≤ w'') (Returns.lift (Yields.update ?_ id))
    fun w'' _ _ h => ?_
  · exact fun st => (Store.Grown.refl st).note _
  · exact (hr.mono h).force

/-- A store with the number 3 and a function that gives its argument. -/
def sampleStore : Store :=
  ⟨#[.done (.ok (.integer 3)), .done (.ok (.function (.ofHost "f" 1 .first)))], #[]⟩

/-- The names of the two values, with their types. -/
def sampleScope : Scope :=
  [[("n", ⟨.integer, ⟨0⟩⟩), ("f", ⟨.function [.integer] .integer, ⟨1⟩⟩)]]

theorem monomorphic_sample : sampleScope.Monomorphic true ⟨sampleStore, []⟩ := by
  intro name b hb
  obtain ⟨layer, hlayer, hmem⟩ := Layers.exists_mem_of_get? hb
  cases List.mem_singleton.1 hlayer
  rcases List.mem_cons.1 hmem with heq | hmem
  · cases heq
    exact ⟨rfl, .of_done (by decide) rfl ⟨3, rfl⟩⟩
  · cases List.mem_singleton.1 hmem
    refine ⟨rfl, .of_done (by decide) rfl ⟨_, rfl, ?_⟩⟩
    exact maps_first true _ _ "f"

theorem lazy_of_compiled_sample :
    sampleScope.Monomorphic true ⟨sampleStore, []⟩ ∧
      (compile "f(n)" sampleScope.types).compiled = true ∧
      ∃ e a, (compile "f(n)" sampleScope.types).expression = some e ∧ e.info = some a ∧
        Lazy true (a.kind true) ⟨(e.suspend sampleScope.values sampleStore).2, []⟩
          (e.suspend sampleScope.values sampleStore).1 :=
  ⟨monomorphic_sample, by decide +kernel,
    lazy_of_compiled true monomorphic_sample (by decide +kernel)⟩

end LazyLang
