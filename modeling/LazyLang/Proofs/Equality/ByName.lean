import LazyLang.Proofs.Memoization.ByName

/-!
# Data and its equality by name

A value that can be drained and forced to the end without failure, and that holds no numbers but
integers and no functions, is a finite tree of data (`Runner.Drains`). Draining it adds to the store
and forces cells on the way, and so does comparing it with another such value, though not in the
same order. For runs by name this makes no difference, as their stores only grow: a value that shows
some data keeps showing it in stores with further cells (`Value.Shows`). So by name, values that
show data are equal just when the data is (`Runner.exists_equalValues`).
-/

namespace LazyLang

open Filter Likeness

/-- Data without parts. -/
inductive Atom where
  | integer (value : Int64)
  | string (value : String)
  | boolean (value : Bool)
  | none
  deriving DecidableEq

/-- A finite tree of data. -/
inductive Datum where
  | atom (value : Atom)
  | array (items : List Datum)

namespace Atom

/-- The value that holds the data. -/
def toValue : Atom → Value
  | integer i => .integer i
  | string s => .string s
  | boolean b => .boolean b
  | none => .none

theorem toValue_alike {ρ : Ref → Ref → Prop} {a : Atom} {v : Value} (h : a.toValue.Alike ρ v) :
    v = a.toValue := by
  cases a <;> cases h <;> rfl

end Atom

namespace Datum

mutual

/-- Whether trees are equal. -/
def decEq : (d e : Datum) → Decidable (d = e)
  | atom a, atom b => decidable_of_iff (a = b) (by simp)
  | array ds, array es =>
    match decEqItems ds es with
    | isTrue h => isTrue (congrArg array h)
    | isFalse h => isFalse fun heq => h (Datum.array.inj heq)
  | atom _, array _ | array _, atom _ => isFalse nofun

/-- Whether lists of trees are equal. -/
def decEqItems : (ds es : List Datum) → Decidable (ds = es)
  | [], [] => isTrue rfl
  | d :: ds, e :: es =>
    match decEq d e, decEqItems ds es with
    | isTrue h, isTrue h' => isTrue (by rw [h, h'])
    | isFalse h, _ => isFalse fun heq => h (List.cons.inj heq).1
    | _, isFalse h => isFalse fun heq => h (List.cons.inj heq).2
  | [], _ :: _ | _ :: _, [] => isFalse nofun

end

instance : DecidableEq Datum := decEq

end Datum

namespace Runner

mutual

/-- Draining and forcing all of the value comes to the data. -/
inductive Drains (R : Runner) : Value → Store → Datum → Store → Prop
  | atom (a : Atom) (st : Store) : Drains R a.toValue st (.atom a) st
  | array {s : Sequence} {t : Traversal} {st st₁ st' : Store} {ds : List Datum}
      (htraverse : s.traverse R st = some (t, st₁)) (h : DrainsItems R t st₁ ds st') :
      Drains R (.array s) st (.array ds) st'

/-- Draining and forcing all that is left of an array comes to the data. -/
inductive DrainsItems (R : Runner) : Traversal → Store → List Datum → Store → Prop
  | nil {t t' : Traversal} {st st' : Store} (h : R.next t st = some ((none, t'), st')) :
      DrainsItems R t st [] st'
  | cons {t t' : Traversal} {st st₁ st₂ st₃ st' : Store} {r : Ref} {v : Value} {d : Datum}
      {ds : List Datum} (hnext : R.next t st = some ((some (.ok r), t'), st₁))
      (hforce : (R.force r).run st₁ = some (.ok v, st₂)) (hv : Drains R v st₂ d st₃)
      (hrest : DrainsItems R t' st₃ ds st') : DrainsItems R t st (d :: ds) st'

end

section Follows

variable {S : Simulation} {R : Runner} {R' : ℕ → Runner}

mutual

/-- What follows a run drains what is alike to the same data. -/
theorem Drains.follow (hruns : S.Runs R R') : {d : Datum} → {w : S.World} → {v v' : Value} →
    {st st' st₁ : Store} → R.Drains v st d st₁ → v.Alike (S.related w) v' → S.stores w st st' →
      ∃ w', w ≤ w' ∧ ∃ st₁', (∀ᶠ m in atTop, (R' m).Drains v' st' d st₁') ∧
        S.stores w' st₁ st₁'
  | .atom a, w, _, _, _, st', _, .atom _ _, hv, hst => by
      obtain rfl := Atom.toValue_alike hv
      exact ⟨w, le_refl w, st', .of_forall fun m => .atom a st', hst⟩
  | .array ds, w, _, _, _, _, _, .array htraverse h, .array hs, hst => by
      obtain ⟨w₁, hw₁, t', st₁', htraverse', hst₁, ht⟩ := hruns.traverse hs hst htraverse
      obtain ⟨w₂, hw₂, st₂', hitems, hst₂⟩ := DrainsItems.follow hruns h ht hst₁
      refine ⟨w₂, hw₁.trans hw₂, st₂', ?_, hst₂⟩
      filter_upwards [htraverse', hitems] with m htraverse hitems
      exact .array htraverse hitems

theorem DrainsItems.follow (hruns : S.Runs R R') : {ds : List Datum} → {w : S.World} →
    {t t' : Traversal} → {st st' st₁ : Store} → R.DrainsItems t st ds st₁ →
    t.Alike (S.related w) t' → S.stores w st st' →
      ∃ w', w ≤ w' ∧ ∃ st₁', (∀ᶠ m in atTop, (R' m).DrainsItems t' st' ds st₁') ∧
        S.stores w' st₁ st₁'
  | [], w, _, _, _, _, _, .nil h, ht, hst => by
      obtain ⟨w₁, hw₁, ⟨_, t''⟩, st₁', hnext, hst₁, hitem, -⟩ := hruns.next ht hst h
      cases hitem
      exact ⟨w₁, hw₁, st₁', hnext.mono fun m hm => .nil hm, hst₁⟩
  | d :: ds, w, _, _, _, _, _, .cons hnext hforce hv hrest, ht, hst => by
      obtain ⟨w₁, hw₁, ⟨_, t''⟩, st₁', hnext', hst₁, hitem, ht⟩ := hruns.next ht hst hnext
      cases hitem with
      | some hitem => cases hitem with
          | ok hr =>
              obtain ⟨w₂, hw₂, _, st₂', hforce', hst₂, ho⟩ := hruns.force hr hst₁ hforce
              cases ho with
              | ok halike =>
                  obtain ⟨w₃, hw₃, st₃', hv', hst₃⟩ := Drains.follow hruns hv halike hst₂
                  obtain ⟨w₄, hw₄, st₄', hrest', hst₄⟩ := DrainsItems.follow hruns hrest
                    (Simulation.later Traversal.Alike.lawful (hw₂.trans hw₃) ht) hst₃
                  refine ⟨w₄, ((hw₁.trans hw₂).trans hw₃).trans hw₄, st₄', ?_, hst₄⟩
                  filter_upwards [hnext', hforce', hv', hrest'] with m hnext hforce hv hrest
                  exact .cons hnext hforce hv hrest

end

end Follows

theorem extends_of_force {n : ℕ} {r : Ref} {st st' : Store} {o : Except RuntimeError Value}
    (h : ((byName n).force r).run st = some (o, st')) : st.Extends st' :=
  (((Simulation.runs_byName_of_le (le_refl n)).force rfl).run_eq Value.Alike.lawful h).2

/-- Draining by name only adds to the store. -/
theorem Drains.extends {n : ℕ} {v : Value} {st st' : Store} {d : Datum}
    (h : (byName n).Drains v st d st') : st.Extends st' := by
  obtain ⟨w, hw, _, -, rfl, -⟩ := h.follow (w := st) (Simulation.runs_byName_of_le (le_refl n))
    (Value.Alike.lawful.refl v) ⟨rfl, rfl⟩
  exact hw

end Runner

open Runner

/-- A value shows data in a store if draining it by name comes to the data, be it in another store
in which it is alike. -/
def Value.Shows (st : Store) (v : Value) (d : Datum) : Prop :=
  ∃ st₀ v₀ n st₁, v₀.Alike (Bisimilar Ref.Unordered st₀ st) v ∧ (byName n).Drains v₀ st₀ d st₁

/-- What is left of an array shows data. -/
def Traversal.Shows (st : Store) (t : Traversal) (ds : List Datum) : Prop :=
  ∃ st₀ t₀ n st₁, t₀.Alike (Bisimilar Ref.Unordered st₀ st) t ∧
    (byName n).DrainsItems t₀ st₀ ds st₁

/-- A lazy value shows the data that its value shows. -/
def Ref.Shows (st : Store) (r : Ref) (d : Datum) : Prop :=
  ∃ st₀ r₀ n v₀ st₁ st₂, Bisimilar Ref.Unordered st₀ st r₀ r ∧
    ((byName n).force r₀).run st₀ = some (.ok v₀, st₁) ∧ (byName n).Drains v₀ st₁ d st₂

/-- All runs by name with enough fuel come to the outcome, in a store with further cells. -/
def Store.Comes {α : Type} (st : Store) (x : ℕ → Run α) (a : α) (st' : Store) : Prop :=
  (∀ᶠ m in atTop, x m st = some (a, st')) ∧ st.Extends st'

section Shows

variable {st st' : Store} {v : Value} {t : Traversal} {r : Ref} {d : Datum} {ds : List Datum}

theorem Bisimilar.later {st₀ : Store} {r₀ : Ref} (h : Bisimilar Ref.Unordered st₀ st r₀ r)
    (hst : st.Extends st') : Bisimilar Ref.Unordered st₀ st' r₀ r :=
  h.mono (.refl st₀) hst fun _ _ _ _ _ => trivial

theorem Value.Shows.mono (h : v.Shows st d) (hst : st.Extends st') : v.Shows st' d := by
  obtain ⟨st₀, v₀, n, st₁, hv, hdrains⟩ := h
  exact ⟨st₀, v₀, n, st₁, Value.Alike.lawful.mono (fun _ _ h => h.later hst) hv, hdrains⟩

theorem Traversal.Shows.mono (h : t.Shows st ds) (hst : st.Extends st') : t.Shows st' ds := by
  obtain ⟨st₀, t₀, n, st₁, ht, hdrains⟩ := h
  exact ⟨st₀, t₀, n, st₁, Traversal.Alike.lawful.mono (fun _ _ h => h.later hst) ht, hdrains⟩

theorem Ref.Shows.mono (h : r.Shows st d) (hst : st.Extends st') : r.Shows st' d := by
  obtain ⟨st₀, r₀, n, v₀, st₁, st₂, hr, hdrains⟩ := h
  exact ⟨st₀, r₀, n, v₀, st₁, st₂, hr.later hst, hdrains⟩

theorem Value.Shows.atom {a : Atom} (h : v.Shows st (.atom a)) : v = a.toValue := by
  obtain ⟨st₀, v₀, n, st₁, hv, hdrains⟩ := h
  cases hdrains
  exact Atom.toValue_alike hv

theorem Value.Shows.array (h : v.Shows st (.array ds)) : ∃ s t st', v = .array s ∧
    st.Comes (fun m => s.traverse (byName m)) t st' ∧ t.Shows st' ds := by
  obtain ⟨st₀, v₀, n, st₁, hv, hdrains⟩ := h
  cases hdrains with
  | array htraverse hitems => cases hv with
      | array hs =>
          obtain ⟨w, hw, t, st', htraverse', ⟨rfl, rfl⟩, ht⟩ :=
            (Simulation.runs_byName_bisimilar (k := id) (eventually_ge_atTop n)).traverse
              (w := (st₀, st)) hs ⟨rfl, rfl⟩ htraverse
          exact ⟨_, t, w.2, rfl, ⟨htraverse', hw.2⟩, w.1, _, n, st₁, ht, hitems⟩

theorem Traversal.Shows.nil (h : t.Shows st []) :
    ∃ t' st', st.Comes (fun m => (byName m).next t) (none, t') st' := by
  obtain ⟨st₀, t₀, n, st₁, ht, hdrains⟩ := h
  cases hdrains with
  | nil h =>
      obtain ⟨w, hw, ⟨_, t'⟩, st', hnext, ⟨rfl, rfl⟩, hitem, -⟩ :=
        (Simulation.runs_byName_bisimilar (k := id) (eventually_ge_atTop n)).next
          (w := (st₀, st)) ht ⟨rfl, rfl⟩ h
      cases hitem
      exact ⟨t', w.2, hnext, hw.2⟩

theorem Traversal.Shows.cons (h : t.Shows st (d :: ds)) : ∃ r t' st',
    st.Comes (fun m => (byName m).next t) (some (.ok r), t') st' ∧ r.Shows st' d ∧
      t'.Shows st' ds := by
  obtain ⟨st₀, t₀, n, st₁, ht, hdrains⟩ := h
  cases hdrains with
  | cons hnext hforce hv hrest =>
      obtain ⟨w, hw, ⟨_, t'⟩, st', hnext', ⟨rfl, rfl⟩, hitem, ht'⟩ :=
        (Simulation.runs_byName_bisimilar (k := id) (eventually_ge_atTop n)).next
          (w := (st₀, st)) ht ⟨rfl, rfl⟩ hnext
      cases hitem with
      | some hitem => cases hitem with
          | ok hr =>
              refine ⟨_, t', w.2, ⟨hnext', hw.2⟩, ⟨w.1, _, n, _, _, _, hr, hforce, hv⟩, ?_⟩
              -- the rest was drained in a store with what the element has added
              have hlater := (extends_of_force hforce).trans hv.extends
              refine ⟨_, _, n, st₁, Traversal.Alike.lawful.mono (fun a b hab => ?_) ht', hrest⟩
              exact hab.mono hlater (.refl _) fun _ _ _ _ _ => trivial

theorem Ref.Shows.force (h : r.Shows st d) : ∃ v st',
    st.Comes (fun m => ((byName m).force r).run) (.ok v) st' ∧ v.Shows st' d := by
  obtain ⟨st₀, r₀, n, v₀, st₁, st₂, hr, hforce, hdrains⟩ := h
  obtain ⟨w, hw, _, st', hforce', ⟨rfl, rfl⟩, ho⟩ :=
    (Simulation.runs_byName_bisimilar (k := id) (eventually_ge_atTop n)).force
      (w := (st₀, st)) hr ⟨rfl, rfl⟩ hforce
  cases ho with
  | ok hv => exact ⟨_, w.2, ⟨hforce', hw.2⟩, w.1, _, n, st₂, hv, hdrains⟩

end Shows

namespace Runner

section Equal

variable {R : Runner} {k : ℕ} {st st₁ st₂ st₃ st₄ st₅ : Store} {t t' u u' : Traversal}
  {r s : Ref} {v w : Value} {a b : Atom}

theorem equalValues_atoms (R : Runner) (k : ℕ) (st : Store) (a b : Atom) :
    (R.equalValues (k + 1) a.toValue b.toValue).run st = some (.ok (decide (a = b)), st) := by
  cases a <;> cases b <;> simp [Atom.toValue, equalValues] <;> rfl

theorem equalValues_atom_array (R : Runner) (k : ℕ) (st : Store) (a : Atom) (s : Sequence) :
    (R.equalValues (k + 1) a.toValue (.array s)).run st = some (.ok false, st) := by
  cases a <;> rfl

theorem equalValues_array_atom (R : Runner) (k : ℕ) (st : Store) (s : Sequence) (b : Atom) :
    (R.equalValues (k + 1) (.array s) b.toValue).run st = some (.ok false, st) := by
  cases b <;> rfl

theorem equalValues_arrays {xs ys : Sequence} (hxs : xs.traverse R st = some (t, st₁))
    (hys : ys.traverse R st₁ = some (u, st₂)) :
    (R.equalValues (k + 1) (.array xs) (.array ys)).run st = (R.equalItems k t u).run st₂ := by
  rw [equalValues]
  exact (Eval.bind_of_eq_ok (Eval.lift_eq_ok.2 hxs)).trans
    (Eval.bind_of_eq_ok (Eval.lift_eq_ok.2 hys))

theorem equalItems_of_none (ht : R.next t st = some ((none, t'), st₁))
    (hu : R.next u st₁ = some ((none, u'), st₂)) :
    (R.equalItems (k + 1) t u).run st = some (.ok true, st₂) := by
  rw [equalItems]
  refine (Eval.bind_of_eq_ok (Eval.lift_eq_ok.2 ht)).trans ?_
  exact Eval.bind_of_eq_ok (Eval.lift_eq_ok.2 hu)

theorem equalItems_of_longer {x : Item} (ht : R.next t st = some ((some x, t'), st₁))
    (hu : R.next u st₁ = some ((none, u'), st₂)) :
    (R.equalItems (k + 1) t u).run st = some (.ok false, st₂) := by
  rw [equalItems]
  refine (Eval.bind_of_eq_ok (Eval.lift_eq_ok.2 ht)).trans ?_
  exact Eval.bind_of_eq_ok (Eval.lift_eq_ok.2 hu)

theorem equalItems_of_shorter {y : Item} (ht : R.next t st = some ((none, t'), st₁))
    (hu : R.next u st₁ = some ((some y, u'), st₂)) :
    (R.equalItems (k + 1) t u).run st = some (.ok false, st₂) := by
  rw [equalItems]
  refine (Eval.bind_of_eq_ok (Eval.lift_eq_ok.2 ht)).trans ?_
  exact Eval.bind_of_eq_ok (Eval.lift_eq_ok.2 hu)

theorem equalItems_of_some {c : Bool} (ht : R.next t st = some ((some (.ok r), t'), st₁))
    (hu : R.next u st₁ = some ((some (.ok s), u'), st₂))
    (hr : (R.force r).run st₂ = some (.ok v, st₃)) (hs : (R.force s).run st₃ = some (.ok w, st₄))
    (heq : (R.equalValues k v w).run st₄ = some (.ok c, st₅)) :
    (R.equalItems (k + 1) t u).run st =
      if c then (R.equalItems k t' u').run st₅ else some (.ok false, st₅) := by
  rw [equalItems]
  refine (Eval.bind_of_eq_ok (Eval.lift_eq_ok.2 ht)).trans ?_
  refine (Eval.bind_of_eq_ok (Eval.lift_eq_ok.2 hu)).trans ?_
  refine (Eval.bind_of_eq_ok hr).trans ((Eval.bind_of_eq_ok hs).trans ?_)
  refine (Eval.bind_of_eq_ok heq).trans ?_
  cases c <;> rfl

end Equal

section Shows

variable {st : Store} {v w : Value} {t u : Traversal} {e : Datum} {es : List Datum}

mutual

/-- By name, values that show data are equal just when the data is. -/
theorem exists_equalValues : (d : Datum) → {st : Store} → {v w : Value} → {e : Datum} →
    v.Shows st d → w.Shows st e → ∃ k st', st.Extends st' ∧ ∀ᶠ m in atTop, ∀ k', k ≤ k' →
      ((byName m).equalValues k' v w).run st = some (.ok (decide (d = e)), st')
  | .atom a, st, _, w, .atom b, hv, hw => by
      obtain rfl := hv.atom
      obtain rfl := hw.atom
      refine ⟨1, st, .refl st, .of_forall fun m k' hk => ?_⟩
      obtain ⟨k, rfl⟩ := Nat.exists_eq_add_of_le' hk
      simp only [equalValues_atoms, Datum.atom.injEq]
  | .atom a, st, _, w, .array es, hv, hw => by
      obtain rfl := hv.atom
      obtain ⟨s, -, -, rfl, -⟩ := hw.array
      refine ⟨1, st, .refl st, .of_forall fun m k' hk => ?_⟩
      obtain ⟨k, rfl⟩ := Nat.exists_eq_add_of_le' hk
      exact equalValues_atom_array _ _ _ _ _
  | .array ds, st, _, w, .atom b, hv, hw => by
      obtain ⟨s, -, -, rfl, -⟩ := hv.array
      obtain rfl := hw.atom
      refine ⟨1, st, .refl st, .of_forall fun m k' hk => ?_⟩
      obtain ⟨k, rfl⟩ := Nat.exists_eq_add_of_le' hk
      exact equalValues_array_atom _ _ _ _ _
  | .array ds, st, v, w, .array es, hv, hw => by
      obtain ⟨xs, t, st₁, rfl, hxs, ht⟩ := hv.array
      obtain ⟨ys, u, st₂, rfl, hys, hu⟩ := (hw.mono hxs.2).array
      obtain ⟨k, st₃, hst₃, hitems⟩ := exists_equalItems ds (ht.mono hys.2) hu
      refine ⟨k + 1, st₃, (hxs.2.trans hys.2).trans hst₃, ?_⟩
      filter_upwards [hxs.1, hys.1, hitems] with m hxs hys hitems k' hk
      obtain ⟨k', rfl⟩ := Nat.exists_eq_add_of_le' (Nat.le_of_add_left_le hk)
      rw [equalValues_arrays hxs hys, hitems k' (Nat.le_of_succ_le_succ hk)]
      simp only [Datum.array.injEq]

/-- The same for what is left of two arrays. -/
theorem exists_equalItems : (ds : List Datum) → {st : Store} → {t u : Traversal} →
    {es : List Datum} → t.Shows st ds → u.Shows st es → ∃ k st', st.Extends st' ∧
      ∀ᶠ m in atTop, ∀ k', k ≤ k' →
        ((byName m).equalItems k' t u).run st = some (.ok (decide (ds = es)), st')
  | [], st, t, u, [], ht, hu => by
      obtain ⟨t', st₁, hnext⟩ := ht.nil
      obtain ⟨u', st₂, hnext'⟩ := (hu.mono hnext.2).nil
      refine ⟨1, st₂, hnext.2.trans hnext'.2, ?_⟩
      filter_upwards [hnext.1, hnext'.1] with m hnext hnext' k' hk
      obtain ⟨k, rfl⟩ := Nat.exists_eq_add_of_le' hk
      exact equalItems_of_none hnext hnext'
  | [], st, t, u, e :: es, ht, hu => by
      obtain ⟨t', st₁, hnext⟩ := ht.nil
      obtain ⟨s, u', st₂, hnext', -, -⟩ := (hu.mono hnext.2).cons
      refine ⟨1, st₂, hnext.2.trans hnext'.2, ?_⟩
      filter_upwards [hnext.1, hnext'.1] with m hnext hnext' k' hk
      obtain ⟨k, rfl⟩ := Nat.exists_eq_add_of_le' hk
      exact equalItems_of_shorter hnext hnext'
  | d :: ds, st, t, u, [], ht, hu => by
      obtain ⟨r, t', st₁, hnext, -, -⟩ := ht.cons
      obtain ⟨u', st₂, hnext'⟩ := (hu.mono hnext.2).nil
      refine ⟨1, st₂, hnext.2.trans hnext'.2, ?_⟩
      filter_upwards [hnext.1, hnext'.1] with m hnext hnext' k' hk
      obtain ⟨k, rfl⟩ := Nat.exists_eq_add_of_le' hk
      exact equalItems_of_longer hnext hnext'
  | d :: ds, st, t, u, e :: es, ht, hu => by
      obtain ⟨r, t', st₁, hnext, hr, ht'⟩ := ht.cons
      obtain ⟨s, u', st₂, hnext', hs, hu'⟩ := (hu.mono hnext.2).cons
      obtain ⟨v, st₃, hforce, hv⟩ := (hr.mono hnext'.2).force
      obtain ⟨w, st₄, hforce', hw⟩ := (hs.mono hforce.2).force
      obtain ⟨k, st₅, hst₅, hequal⟩ := exists_equalValues d (hv.mono hforce'.2) hw
      have hlater := (hforce.2.trans hforce'.2).trans hst₅
      have hbefore := hnext.2.trans (hnext'.2.trans hlater)
      by_cases hde : d = e
      · -- the elements are equal, and the rest decides
        obtain ⟨k₁, st₆, hst₆, hitems⟩ :=
          exists_equalItems ds (ht'.mono (hnext'.2.trans hlater)) (hu'.mono hlater)
        refine ⟨max k k₁ + 1, st₆, hbefore.trans hst₆, ?_⟩
        filter_upwards [hnext.1, hnext'.1, hforce.1, hforce'.1, hequal, hitems] with
          m hnext hnext' hforce hforce' hequal hitems k' hk
        obtain ⟨k', rfl⟩ := Nat.exists_eq_add_of_le' (Nat.le_of_add_left_le hk)
        have hle := max_le_iff.1 (Nat.le_of_succ_le_succ hk)
        rw [equalItems_of_some hnext hnext' hforce hforce' (hequal k' hle.1), hitems k' hle.2]
        simp [hde]
      · refine ⟨k + 1, st₅, hbefore, ?_⟩
        filter_upwards [hnext.1, hnext'.1, hforce.1, hforce'.1, hequal] with
          m hnext hnext' hforce hforce' hequal k' hk
        obtain ⟨k', rfl⟩ := Nat.exists_eq_add_of_le' (Nat.le_of_add_left_le hk)
        have hle := Nat.le_of_succ_le_succ hk
        rw [equalItems_of_some hnext hnext' hforce hforce' (hequal k' hle)]
        simp [hde]

end

variable {d : Datum} {ds : List Datum} {r s : Ref}

/-- The same with the fuel of the runner. -/
theorem exists_equal (hv : v.Shows st d) (hw : w.Shows st e) : ∃ st',
    st.Comes (fun m => ((byName m).equal v w).run) (.ok (decide (d = e))) st' := by
  obtain ⟨k, st', hst', hequal⟩ := exists_equalValues d hv hw
  refine ⟨st', ?_, hst'⟩
  filter_upwards [hequal, eventually_ge_atTop k] with m hequal hk
  rw [equal, tied_fuel]
  exact hequal m hk

/-- Looking for a value among the elements that are left, by name. -/
def lookFor (R : Runner) (v : Value) (fuel : ℕ) (t : Traversal) : Eval Bool :=
  R.foldItems (fun _ item => do
    if ← R.equal v (← R.force (← item)) then return .done true else return .yield false)
    fuel t false

section LookFor

variable {R : Runner} {k : ℕ} {t' : Traversal} {st₁ st₂ st₃ : Store}

theorem lookFor_of_none (ht : R.next t st = some ((none, t'), st₁)) :
    (R.lookFor v (k + 1) t).run st = some (.ok false, st₁) :=
  Eval.bind_of_eq_ok (Eval.lift_eq_ok.2 ht)

theorem lookFor_of_some {c : Bool} (ht : R.next t st = some ((some (.ok r), t'), st₁))
    (hr : (R.force r).run st₁ = some (.ok w, st₂))
    (heq : (R.equal v w).run st₂ = some (.ok c, st₃)) : (R.lookFor v (k + 1) t).run st =
      if c then some (.ok true, st₃) else (R.lookFor v k t').run st₃ := by
  refine (Eval.bind_of_eq_ok (Eval.lift_eq_ok.2 ht)).trans ?_
  have hstep : (do
      if ← R.equal v (← R.force (← (liftM (.ok r : Item) : Eval Ref))) then
        return .done true
      else return .yield false : Eval (ForInStep Bool)).run st₁ =
      some (.ok (if c then .done true else .yield false), st₃) := by
    refine (Eval.bind_of_eq_ok hr).trans ((Eval.bind_of_eq_ok heq).trans ?_)
    cases c <;> rfl
  refine (Eval.bind_of_eq_ok hstep).trans ?_
  cases c <;> rfl

end LookFor

/-- By name, a value is found among the elements just when its data is. -/
theorem exists_lookFor (hv : v.Shows st d) (ht : t.Shows st ds) : ∃ k st', st.Extends st' ∧
    ∀ᶠ m in atTop, ∀ k', k ≤ k' →
      ((byName m).lookFor v k' t).run st = some (.ok (decide (d ∈ ds)), st') := by
  induction ds generalizing st t with
  | nil =>
      obtain ⟨t', st₁, hnext⟩ := ht.nil
      refine ⟨1, st₁, hnext.2, ?_⟩
      filter_upwards [hnext.1] with m hnext k' hk
      obtain ⟨k, rfl⟩ := Nat.exists_eq_add_of_le' hk
      exact lookFor_of_none hnext
  | cons e ds ih =>
      obtain ⟨r, t', st₁, hnext, hr, ht'⟩ := ht.cons
      obtain ⟨w, st₂, hforce, hw⟩ := hr.force
      have hv₂ := (hv.mono hnext.2).mono hforce.2
      obtain ⟨st₃, hequal⟩ := exists_equal hv₂ hw
      have hbefore := (hnext.2.trans hforce.2).trans hequal.2
      by_cases hde : d = e
      · refine ⟨1, st₃, hbefore, ?_⟩
        filter_upwards [hnext.1, hforce.1, hequal.1] with m hnext hforce hequal k' hk
        obtain ⟨k, rfl⟩ := Nat.exists_eq_add_of_le' hk
        rw [lookFor_of_some hnext hforce hequal]
        simp [hde]
      · obtain ⟨k, st₄, hst₄, hrest⟩ :=
          ih (hv₂.mono hequal.2) (ht'.mono (hforce.2.trans hequal.2))
        refine ⟨k + 1, st₄, hbefore.trans hst₄, ?_⟩
        filter_upwards [hnext.1, hforce.1, hequal.1, hrest] with m hnext hforce hequal hrest k' hk
        obtain ⟨k', rfl⟩ := Nat.exists_eq_add_of_le' (Nat.le_of_add_left_le hk)
        rw [lookFor_of_some hnext hforce hequal, hrest k' (Nat.le_of_succ_le_succ hk)]
        simp [hde]

/-- Forcing two lazy values that show data, and comparing them. -/
theorem exists_compared (hr : r.Shows st d) (hs : s.Shows st e) (answer : Bool → Value) :
    ∃ m st', (do return answer (← (byName m).equal (← (byName m).force r) (← (byName m).force s)) :
      Eval Value).run st = some (.ok (answer (decide (d = e))), st') := by
  obtain ⟨v, st₁, hforce, hv⟩ := hr.force
  obtain ⟨w, st₂, hforce', hw⟩ := (hs.mono hforce.2).force
  obtain ⟨st₃, hequal⟩ := exists_equal (hv.mono hforce'.2) hw
  obtain ⟨m, hm, hm', hm''⟩ := (hforce.1.and (hforce'.1.and hequal.1)).exists
  refine ⟨m, st₃, ?_⟩
  exact (Eval.bind_of_eq_ok hm).trans ((Eval.bind_of_eq_ok hm').trans (Eval.bind_of_eq_ok hm''))

/-- Forcing two lazy values, of which the second shows an array, and looking for the first in it. -/
theorem exists_contains (hr : r.Shows st d) (hs : s.Shows st (.array ds)) : ∃ m st',
    ((byName m).contains r s).run st =
      some (.ok (.boolean (decide (d ∈ ds))), st') := by
  obtain ⟨v, st₁, hforce, hv⟩ := hr.force
  obtain ⟨_, st₂, hforce', hw⟩ := (hs.mono hforce.2).force
  obtain ⟨xs, t, st₃, rfl, htraverse, ht⟩ := hw.array
  obtain ⟨k, st₄, -, hfound⟩ := exists_lookFor (hv.mono (hforce'.2.trans htraverse.2)) ht
  obtain ⟨m, hm, hm', htraverse, hfound, hk⟩ := (hforce.1.and (hforce'.1.and
    (htraverse.1.and (hfound.and (eventually_ge_atTop k))))).exists
  refine ⟨m, st₄, ?_⟩
  have hfuel : (byName m).fuel = m := tied_fuel _ _
  have hfold := hfound (byName m).fuel (hfuel.symm ▸ hk)
  refine (Eval.bind_of_eq_ok hm).trans ?_
  refine (Eval.bind_of_eq_ok (Eval.bind_of_eq_ok hm')).trans ?_
  refine Eval.bind_of_eq_ok (a := decide (d ∈ ds)) ?_
  exact (Eval.bind_of_eq_ok (Eval.lift_eq_ok.2 htraverse)).trans hfold

end Shows

end Runner

end LazyLang
