import LazyLang.Proofs.Memoization.Agreement

/-!
# What forcing and traversing leave unobserved

A host that has the lazy value of a program may force any values and traverse any arrays that it
comes across, in any order and as far as it likes. Whatever it has done, forcing and stripping the
value of the program ends in the same outcome as it does at first.
-/

namespace LazyLang

open Likeness Relation

/-- The store that a host looks around in, and the traversals that it has started. -/
structure Visit where
  store : Store
  held : List Traversal

namespace Visit

/-- What a host can do: force a lazy value, start a traversal of the array that a lazy value is
known to be, or move a traversal on. -/
inductive Step : Visit → Visit → Prop
  | force {st st' : Store} {r : Ref} {fuel : ℕ} {outcome : Except RuntimeError Value}
      (held : List Traversal) (hr : r.index < st.cells.size)
      (hrun : ((Runner.ofFuel fuel).force r).run st = some (outcome, st')) :
      Step ⟨st, held⟩ ⟨st', held⟩
  | traverse {st st' : Store} {r : Ref} {s : Sequence} {t : Traversal} {fuel : ℕ}
      (held : List Traversal) (hr : st.cell r = .done (.ok (.array s)))
      (hrun : s.traverse (.ofFuel fuel) st = some (t, st')) :
      Step ⟨st, held⟩ ⟨st', t :: held⟩
  | next {st st' : Store} {t t' : Traversal} {item : Option Item} {fuel : ℕ}
      {held : List Traversal} (ht : t ∈ held)
      (hrun : (Runner.ofFuel fuel).next t st = some ((item, t'), st')) :
      Step ⟨st, held⟩ ⟨st', t' :: held⟩

/-- A visit of the array that a lazy value is: it is forced, and its first element is taken. -/
def takeFirst? (fuel : ℕ) (r : Ref) (st : Store) : Option Visit :=
  (((Runner.ofFuel fuel).force r).run st).bind fun forced =>
    match forced.2.cell r with
    | .done (.ok (.array s)) =>
      (s.traverse (.ofFuel fuel) forced.2).bind fun started =>
        ((Runner.ofFuel fuel).next started.1 started.2).map fun moved =>
          ⟨moved.2, [moved.1.2, started.1]⟩
    | _ => none

theorem reaches_of_takeFirst? {fuel : ℕ} {r : Ref} {st : Store} {v : Visit}
    (hr : r.index < st.cells.size) (h : takeFirst? fuel r st = some v) :
    ReflTransGen Step ⟨st, []⟩ v := by
  obtain ⟨⟨outcome, st₁⟩, hforce, h⟩ := Option.bind_eq_some_iff.1 h
  dsimp only at h
  split at h
  next s hs =>
    obtain ⟨⟨t, st₂⟩, htraverse, h⟩ := Option.bind_eq_some_iff.1 h
    obtain ⟨⟨⟨item, t'⟩, st₃⟩, hnext, rfl⟩ := Option.map_eq_some_iff.1 h
    exact ((ReflTransGen.single (.force [] hr hforce)).tail (.traverse [] hs htraverse)).tail
      (.next List.mem_cons_self hnext)
  next => cases h

end Visit

/-- The history of the empty store. -/
def History.initial : History where
  origin := Store.empty
  rank _ := 1
  floor _ := 0
  floor_lt_rank _ := one_pos
  names := Store.empty
  forced _ := False
  low := 0
  high := 1
  low_lt_high := one_pos

theorem History.explains_initial : History.initial.Explains Store.empty Store.empty where
  names := rfl
  size := rfl
  forced _ h := h.elim
  cells _ h := absurd h (Nat.not_lt_zero _)
  named _ h := absurd h (Nat.not_lt_zero _)

/-- A history that explains the store of a visit in which no program is running: it may refer to
every cell. -/
structure History.Accounts (H : History) (v : Visit) : Prop where
  explains : H.Explains v.store H.names
  reach : ∀ r, H.Has r → H.rank r < H.low
  held : ∀ t ∈ v.held, ∃ t', t.Alike H.Related t'

namespace History

variable {H H' : History} {v v' : Visit}

theorem reach_mono (hle : H ≤ H') (h : ∀ r, H.Has r → H.rank r < H.low) :
    ∀ r, H'.Has r → H'.rank r < H'.low := by
  intro r hr
  by_cases hold : H.Has r
  · rw [hle.past.rank r hold]
    exact (h r hold).trans_le hle.low
  · exact hle.added r hr hold

/-- Going on to a later history, in which more traversals are held. -/
theorem Accounts.later (h : H.Accounts v) (hle : H ≤ H') {st names : Store}
    (hst : H'.Explains st names) {held : List Traversal}
    (hheld : ∀ t ∈ held, t ∈ v.held ∨ ∃ t', t.Alike H'.Related t') : H'.Accounts ⟨st, held⟩ where
  explains := hst.names ▸ hst
  reach := reach_mono hle h.reach
  held t ht := by
    rcases hheld t ht with ht | ht
    · obtain ⟨t', hold⟩ := h.held t ht
      exact ⟨t', Traversal.Alike.lawful.mono (fun _ _ hr => hr.mono hle) hold⟩
    · exact ht

/-- Whatever a host does next is explained by a later history. -/
theorem Accounts.step (h : H.Accounts v) (hstep : v.Step v') : ∃ H', H ≤ H' ∧ H'.Accounts v' := by
  cases hstep with
  | @force st st' r fuel outcome held hr hrun =>
      have hhas : H.Has r := hr.trans_eq h.explains.size
      obtain ⟨s, hs⟩ := h.explains.named r hhas
      have hrelated : Simulation.named.related H r s := ⟨hs, h.reach r hhas⟩
      obtain ⟨H', hle, _, names', _, hst', _⟩ :=
        (Simulation.runs_named fuel).force hrelated h.explains hrun
      exact ⟨H', hle, h.later hle hst' fun t ht => .inl ht⟩
  | @traverse st st' r s t fuel held hr hrun =>
      have hhas : H.Has r := (Store.lt_size_of_value hr).trans_eq h.explains.size
      obtain ⟨u, hu⟩ := h.explains.named r hhas
      obtain ⟨o, names, _, hle, hst, ho⟩ := h.explains.done ⟨hu, h.reach r hhas⟩ hr
      cases ho with
      | ok hv => cases hv with
          | @array _ s' hs =>
              have halike : s.Alike (Simulation.named.related (H.rename names)) s' := hs
              obtain ⟨H', hle', t', names', _, hst', ht⟩ :=
                (Simulation.runs_named fuel).traverse halike hst hrun
              refine ⟨H', hle.trans hle', h.later (hle.trans hle') hst' fun x hx => ?_⟩
              rcases List.mem_cons.1 hx with rfl | hx
              · exact .inr ⟨t', ht⟩
              · exact .inl hx
  | @next st st' t t' item fuel held ht hrun =>
      obtain ⟨u, hu⟩ := h.held t ht
      have halike : t.Alike (Simulation.named.related H) u := hu
      obtain ⟨H', hle, next', names', _, hst', hnext'⟩ :=
        (Simulation.runs_named fuel).next halike h.explains hrun
      refine ⟨H', hle, h.later hle hst' fun x hx => ?_⟩
      rcases List.mem_cons.1 hx with rfl | hx
      · exact .inr ⟨next'.2, hnext'.2⟩
      · exact .inl hx

/-- Whatever a host does is explained by a later history. -/
theorem Accounts.visit (h : H.Accounts v) (hv : ReflTransGen Visit.Step v v') :
    ∃ H', H ≤ H' ∧ H'.Accounts v' := by
  induction hv with
  | refl => exact ⟨H, le_refl H, h⟩
  | tail _ hstep ih =>
      obtain ⟨H₁, hle, h₁⟩ := ih
      obtain ⟨H₂, hle', h₂⟩ := h₁.step hstep
      exact ⟨H₂, hle.trans hle', h₂⟩

/-- A visit does not change what a lazy value is stripped to. -/
theorem Accounts.stripsTo_iff (h : H.Accounts v) (hv : ReflTransGen Visit.Step v v') {r : Ref}
    (hr : H.Has r) (limit : Option ℕ) (outcome : Except RuntimeError (Option Plain)) :
    v'.store.StripsTo limit r outcome ↔ v.store.StripsTo limit r outcome := by
  obtain ⟨H', hle, h'⟩ := h.visit hv
  obtain ⟨s, hs⟩ := h.explains.named r hr
  have hrelated : H.Related r s := ⟨hs, h.reach r hr⟩
  have hrelated' : H'.Related r s := hrelated.mono hle
  calc v'.store.StripsTo limit r outcome
    _ ↔ H'.names.StripsByName limit s outcome := h'.explains.stripsTo_iff hrelated'
    _ ↔ H.names.StripsByName limit s outcome :=
      hrelated'.1.stripsByName_iff (hs.mono hle.past (.refl _))
    _ ↔ v.store.StripsTo limit r outcome := (h.explains.stripsTo_iff hrelated).symm

end History

section Library

variable {S : Simulation} {w : S.World} {ρ : Ref → Ref → Prop}

/-- Bindings are alike if the same names are bound to related lazy values. -/
abbrev Likeness.bindings : Likeness (List (String × Binding)) :=
  list (plain.prod fun ρ a b => ρ a.value b.value)

theorem Likeness.bindings_values {xs ys : List (String × Binding)} (h : bindings ρ xs ys) :
    Likeness.scope ρ (Scope.values [xs]) (Scope.values [ys]) := by
  refine .cons ?_ .nil
  induction h with
  | nil => exact .nil
  | cons h _ ih => exact .cons h ih

/-- Putting entries into both stores whose values hold no references. -/
theorem Simulation.Follows.bindEntries {entries : List Entry}
    (h : ∀ entry ∈ entries, ∀ ρ, entry.value.Alike ρ entry.value) :
    S.Follows w bindings (Run.update (Scope.bindEntries entries)) fun _ =>
      Run.update (Scope.bindEntries entries) := by
  induction entries generalizing w with
  | nil => exact .ret .nil
  | cons entry rest ih =>
      have hrun : Run.update (Scope.bindEntries (entry :: rest)) = (do
          let r ← Run.add (.done (.ok entry.value))
          let bindings ← Run.update (Scope.bindEntries rest)
          pure ((entry.name, ⟨entry.type, r⟩) :: bindings)) := rfl
      rw [hrun]
      refine .seq (.add (.done (.ok (h entry List.mem_cons_self _)))) fun _ _ _ _ hr => ?_
      refine .seq (ih fun other hother => h other (List.mem_cons_of_mem _ hother))
        fun _ hw _ _ hrest => ?_
      exact .ret (.cons ⟨rfl, S.related_mono hw hr⟩ hrest)

theorem Builtin.value_alike (b : Builtin) (ρ : Ref → Ref → Prop) : b.value.Alike ρ b.value := by
  refine .function (.builtin b (List.forall₂_same.2 fun slot hslot => ?_))
  rw [List.eq_of_mem_replicate hslot]
  exact .none

theorem Library.value_alike {entry : Entry} (h : entry ∈ Library.standard) (ρ : Ref → Ref → Prop) :
    entry.value.Alike ρ entry.value := by
  rcases List.mem_append.1 h with h | h
  · obtain ⟨b, -, rfl⟩ := List.mem_map.1 h
    exact b.value_alike ρ
  · rcases List.mem_cons.1 h with rfl | h
    · exact .float _
    · cases List.mem_singleton.1 h
      exact .float _

/-- The lazy value of an expression over the standard library, and the store that holds both. -/
def Expr.loaded (e : TypedExpr) : Ref × Store :=
  e.suspend (Scope.standard Store.empty).1.values (Scope.standard Store.empty).2

/-- The visit of a host that has done nothing yet. -/
def Visit.start (e : TypedExpr) : Visit := ⟨e.loaded.2, []⟩

/-- The run that puts the library and the lazy value of an expression over it into a store. -/
def Expr.load (e : TypedExpr) : Run Ref := do
  let bindings ← Run.update (Scope.bindEntries Library.standard)
  Run.update (e.suspend (Scope.values [bindings]))

theorem Expr.load_empty (e : TypedExpr) : e.load Store.empty = some e.loaded := rfl

theorem Simulation.Follows.load (e : TypedExpr) : S.Follows w ref e.load fun _ => e.load :=
  .seq (.bindEntries fun _ => Library.value_alike) fun _ _ _ _ h =>
    .suspend e (Likeness.bindings_values h)

end Library

/-- A history explains the store that holds the lazy value and the library next to itself. -/
theorem Expr.exists_explains_loaded (e : TypedExpr) :
    ∃ H : History, H.Explains e.loaded.2 e.loaded.2 ∧ H.Related e.loaded.1 e.loaded.1 ∧
      ∀ r, H.Has r → H.rank r < H.low := by
  have hfollows : Simulation.named.Follows History.initial ref e.load fun _ => e.load := .load e
  obtain ⟨H, hle, s, names, heventually, hst, hr⟩ :=
    hfollows History.explains_initial e.load_empty
  -- the run by name loads the same, from the same empty store
  obtain ⟨_, hagain⟩ := heventually.exists
  have heq : (s, names) = e.loaded := Option.some.inj (hagain.symm.trans e.load_empty)
  obtain ⟨rfl, rfl⟩ := Prod.mk.inj heq
  exact ⟨H, hst, hr, History.reach_mono hle fun _ h => absurd h (Nat.not_lt_zero _)⟩

theorem Visit.exists_accounts_start (e : TypedExpr) :
    ∃ H : History, H.Accounts (start e) ∧ H.Has e.loaded.1 := by
  obtain ⟨H, hst, hr, hreach⟩ := e.exists_explains_loaded
  exact ⟨H, ⟨hst.names ▸ hst, hreach, fun t ht => nomatch ht⟩, hr.1.lt_left⟩

/-- Whatever values a host forces and whatever arrays it traverses, in any order and as far as it
likes, the lazy value of an expression over the standard library is then stripped to the same
plain result or failure as at first, and to none if it was to none. -/
theorem stripsTo_iff_of_visited (e : TypedExpr) {v : Visit}
    (hv : ReflTransGen Visit.Step (.start e) v) (limit : Option ℕ)
    (outcome : Except RuntimeError (Option Plain)) :
    v.store.StripsTo limit e.loaded.1 outcome ↔ e.loaded.2.StripsTo limit e.loaded.1 outcome := by
  obtain ⟨H, h, hr⟩ := Visit.exists_accounts_start e
  exact h.stripsTo_iff hv hr limit outcome

/-- A visit of the array that `map(identity, [1, 2])` is: it is forced, and the first of its
elements is taken. -/
theorem stripsTo_iff_of_visited_sample :
    ∃ e v, (compile "map(identity, [1, 2])"
        (Scope.standard Store.empty).1.types).expression = some e ∧
      ReflTransGen Visit.Step (.start e) v ∧ e.loaded.2.isForced e.loaded.1 = false ∧
      v.store.isForced e.loaded.1 = true ∧
      ∀ limit outcome, v.store.StripsTo limit e.loaded.1 outcome ↔
        e.loaded.2.StripsTo limit e.loaded.1 outcome := by
  have hvisit : (compile "map(identity, [1, 2])"
      (Scope.standard Store.empty).1.types).expression.any (fun e =>
        !e.loaded.2.isForced e.loaded.1 &&
          (Visit.takeFirst? 8 e.loaded.1 e.loaded.2).any fun v =>
            v.store.isForced e.loaded.1) = true := by
    rw [compile, Token.tokenize_eq]
    decide +kernel
  obtain ⟨e, he, hvisit⟩ := (Option.any_eq_true _ _).1 hvisit
  obtain ⟨hfresh, hvisit⟩ := Bool.and_eq_true_iff.1 hvisit
  obtain ⟨v, hfirst, hforced⟩ := (Option.any_eq_true _ _).1 hvisit
  have hlt : e.loaded.1.index < e.loaded.2.cells.size := by
    obtain ⟨H, h, hr⟩ := Visit.exists_accounts_start e
    exact hr.trans_eq h.explains.size.symm
  have hv : ReflTransGen Visit.Step (.start e) v := Visit.reaches_of_takeFirst? hlt hfirst
  exact ⟨e, v, he, hv, by simpa using hfresh, hforced, stripsTo_iff_of_visited e hv⟩

end LazyLang
