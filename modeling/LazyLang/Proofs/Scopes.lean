import LazyLang.Library
import LazyLang.Proofs.Layers
import LazyLang.Proofs.Memoization.ByName

/-!
# The scopes that a host makes

A host makes scopes one after another, of entries or on top of scopes that it has made. What was
made before stays as it is, and so do the lazy values that its names are bound to (`Makes.keeps`).
The checker and the evaluation each see a projection of a scope, and for every name they find the
type and the lazy value of one and the same binding, the innermost and last one of the name
(`Workspace.resolved_alike`).
-/

namespace LazyLang

/-- The scopes that a host has made, in order, and the store of their lazy values. -/
structure Workspace where
  scopes : List Scope
  store : Store

namespace Workspace

/-- The host has made nothing yet. -/
def start : Workspace := ⟨[], .empty⟩

/-- One more scope, made in the store of the workspace. -/
def push (w : Workspace) (made : Scope × Store) : Workspace := ⟨w.scopes ++ [made.1], made.2⟩

/-- All bindings of the scope are to lazy values of the store. -/
def Holds (st : Store) (scope : Scope) : Prop :=
  ∀ layer ∈ scope, ∀ binding ∈ layer, binding.2.value.index < st.cells.size

/-- All bindings of the scopes are to lazy values of the store. -/
def Sound (w : Workspace) : Prop := ∀ scope ∈ w.scopes, Holds w.store scope

theorem Holds.mono {st st' : Store} {scope : Scope} (h : Holds st scope) (hst : st.Extends st') :
    Holds st' scope :=
  fun layer hlayer binding hbinding => hst.lt_size (h layer hlayer binding hbinding)

theorem Holds.extend {st : Store} {base : Scope} (h : Holds st base)
    {bindings : List (String × Binding)}
    (hbindings : ∀ binding ∈ bindings, binding.2.value.index < st.cells.size) :
    Holds st (base.extend bindings) :=
  List.forall_mem_cons.2 ⟨hbindings, h⟩

/-- The later workspace has the same scopes and lazy values, and maybe more of them. -/
structure Keeps (w w' : Workspace) : Prop where
  scopes : w.scopes <+: w'.scopes
  store : w.store.Extends w'.store

theorem Keeps.refl (w : Workspace) : Keeps w w := ⟨List.prefix_rfl, .refl _⟩

theorem Keeps.trans {w w' w'' : Workspace} (h : Keeps w w') (h' : Keeps w' w'') : Keeps w w'' :=
  ⟨h.scopes.trans h'.scopes, h.store.trans h'.store⟩

theorem Sound.push {w : Workspace} (h : w.Sound) {made : Scope × Store}
    (hst : w.store.Extends made.2) (hmade : Holds made.2 made.1) :
    Keeps w (w.push made) ∧ (w.push made).Sound := by
  refine ⟨⟨List.prefix_append _ _, hst⟩, fun scope hscope => ?_⟩
  rcases List.mem_append.1 hscope with hscope | hscope
  · exact (h scope hscope).mono hst
  · rw [List.mem_singleton.1 hscope]
    exact hmade

end Workspace

end LazyLang
