import LazyLang.Proofs.Acyclicity
import LazyLang.Proofs.Equality.ByName
import LazyLang.Proofs.Evaluation.Reaching
import LazyLang.Proofs.Memoization.Arranged

/-!
# Deep equality

Values that come to finite trees of data are equal just when the trees are, and the comparison never
fails (`Arrangement.Fits.answers_equal`). Each value is drained by itself, but they are compared
element by element, so that the cells of one are forced between those of the other, some of them
perhaps shared. In a store whose values stand in a row, evaluation agrees with evaluation by name,
and so the order does not matter.
-/

namespace LazyLang

open Filter Likeness Runner

/-- Draining and forcing all of the value comes to the data, with enough fuel. -/
def Value.DrainsTo (st : Store) (v : Value) (d : Datum) : Prop :=
  ∃ n st', (ofFuel n).Drains v st d st'

/-- Forcing the lazy value and draining what it is comes to the data, with enough fuel. -/
def Ref.DrainsTo (st : Store) (r : Ref) (d : Datum) : Prop :=
  ∃ n v st₁ st₂, ((ofFuel n).force r).run st = some (.ok v, st₁) ∧ (ofFuel n).Drains v st₁ d st₂

/-- The computation comes to this result with enough fuel, and to nothing else with any. -/
def Runner.Answers {α : Type} (x : Runner → Eval α) (st : Store) (a : α) : Prop :=
  ∃ st', ∀ o, Reaches (fun R => (x R).run) st o ↔ o = some (.ok a, st')

theorem Runner.Answers.of_run {α : Type} {x : Runner → Eval α} {st st' : Store} {a : α} {n : ℕ}
    (hx : Steady fun R => (x R).run) (h : (x (ofFuel n)).run st = some (.ok a, st')) :
    Answers x st a := by
  refine ⟨st', fun o => ⟨fun ho => ho.unique hx ⟨n, h⟩, ?_⟩⟩
  rintro rfl
  exact ⟨n, h⟩

theorem Runner.Answers.unique {α : Type} {x : Runner → Eval α} {st : Store} {a b : α}
    (h : Answers x st a) (h' : Answers x st b) : a = b := by
  obtain ⟨st₁, h⟩ := h
  obtain ⟨st₂, h'⟩ := h'
  cases (h' _).1 ((h _).2 rfl)
  rfl

section Histories

variable {H : History} {st names : Store} {v v' w w' : Value} {r r' s s' : Ref} {d e : Datum}
  {ds : List Datum}

theorem History.Related.bisimilar (h : H.Related r r') (h' : H.Related r s) :
    Bisimilar Ref.Unordered H.names H.names r' s :=
  h.1.flip.trans h'.1

/-- What is drained in a store shows the same by name. -/
theorem Value.DrainsTo.shows (h : v.DrainsTo st d) (hst : H.Explains st names)
    (hv : v.Alike H.Related v') : v'.Shows names d := by
  obtain ⟨n, st', hdrains⟩ := h
  obtain ⟨H', -, names', heventually, -⟩ := hdrains.follow (Simulation.runs_named n) hv hst
  obtain ⟨m, hm⟩ := heventually.exists
  obtain rfl := hst.names
  have hback : v'.Alike (fun a b => H.Related b a) v :=
    Value.Alike.lawful.flip (fun _ _ h => h) hv
  exact ⟨_, v', m, names', Value.Alike.lawful.trans (fun _ _ _ h h' => h.bisimilar h') hback hv, hm⟩

theorem Ref.DrainsTo.shows (h : r.DrainsTo st d) (hst : H.Explains st names)
    (hr : H.Related r r') : r'.Shows names d := by
  obtain ⟨n, v, st₁, st₂, hforce, hdrains⟩ := h
  obtain ⟨H₁, -, _, names₁, hforce', hst₁, ho⟩ := (Simulation.runs_named n).force hr hst hforce
  cases ho with
  | ok hv =>
      obtain ⟨H₂, -, names₂, hdrains', -⟩ := hdrains.follow (Simulation.runs_named n) hv hst₁
      obtain ⟨m, hm, hm'⟩ := (hforce'.and hdrains').exists
      obtain rfl := hst.names
      exact ⟨_, r', m, _, _, _, hr.bisimilar hr, hm, hm'⟩

end Histories

namespace Arrangement

variable {A : Arrangement} {st : Store} {a b : Value} {r s : Ref} {d e : Datum} {ds : List Datum}

/-- What a run by name answers, evaluation answers as well. -/
theorem Fits.answers (h : A.Fits st) (hforced : ∀ r ∈ A.forced, st.cell r = .forcing)
    {α : Type} {L : Likeness α} {x : Runner → Eval α} (hx : Steady fun R => (x R).run)
    (hfollows : ∀ m, Simulation.named.flip.FollowsEval (A.history st) L (x (byName m))
      fun n => x (ofFuel n))
    {c : α} (hc : ∀ ρ c', L ρ c c' → c' = c)
    (hrun : ∃ m st', (x (byName m)).run st.settled = some (.ok c, st')) : Answers x st c := by
  obtain ⟨m, names', hrun⟩ := hrun
  obtain ⟨H', -, o, st', hy, -, ho⟩ := hfollows m (h.explains hforced) hrun
  obtain ⟨n, hn⟩ := hy.exists
  cases ho with
  | ok halike =>
      obtain rfl := hc _ _ halike
      exact .of_run hx hn

theorem boolean_alike (c : Bool) (ρ : Ref → Ref → Prop) (v : Value)
    (h : (Value.boolean c).Alike ρ v) : v = .boolean c := by
  cases h
  rfl

section Fits

variable (h : A.Fits st) (hforced : ∀ r ∈ A.forced, st.cell r = .forcing)

include h hforced

theorem Fits.value_shows (ha : a.Alike A.Related a) (hd : a.DrainsTo st d) :
    a.Shows st.settled d :=
  hd.shows (h.explains hforced)
    (Value.Alike.lawful.mono (fun _ _ hab => h.related_history hforced hab) ha)

theorem Fits.ref_shows (hr : r ∈ A.inner) (hd : r.DrainsTo st d) : r.Shows st.settled d :=
  hd.shows (h.explains hforced) (h.related_history hforced ⟨rfl, hr⟩)

/-- Comparing two values answers whether they come to the same data. -/
theorem Fits.answers_equal (ha : a.Alike A.Related a) (hb : b.Alike A.Related b)
    (hd : a.DrainsTo st d) (he : b.DrainsTo st e) :
    Answers (fun R => R.equal a b) st (decide (d = e)) := by
  have hflip {v : Value} (hv : v.Alike A.Related v) :
      v.Alike (Simulation.named.flip.related (A.history st)) v :=
    Value.Alike.lawful.flip (fun _ _ hab => h.related_history hforced hab) hv
  refine h.answers hforced (steady_equal a b)
    (fun m => (Simulation.runs_named_flip m).equal (hflip ha) (hflip hb))
    (fun _ _ => Eq.symm) ?_
  obtain ⟨st', hequal, -⟩ :=
    exists_equal (h.value_shows hforced ha hd) (h.value_shows hforced hb he)
  obtain ⟨m, hm⟩ := hequal.exists
  exact ⟨m, st', hm⟩

/-- A built-in function of two lazy values answers what it answers by name. -/
theorem Fits.answers_runBuiltin (hr : r ∈ A.inner) (hs : s ∈ A.inner) (body : Builtin) {c : Bool}
    (hrun : ∃ m st', ((byName m).runBuiltin body [r, s]).run st.settled =
      some (.ok (.boolean c), st')) :
    Answers (fun R => R.runBuiltin body [r, s]) st (.boolean c) := by
  have hrelated {r : Ref} (hr : r ∈ A.inner) :
      Simulation.named.flip.related (A.history st) r r := h.related_history hforced ⟨rfl, hr⟩
  have hargs : ref.list (Simulation.named.flip.related (A.history st)) [r, s] [r, s] :=
    .cons (hrelated hr) (.cons (hrelated hs) .nil)
  exact h.answers hforced (steady_runBuiltin body _)
    (fun m => (Simulation.runs_named_flip m).runBuiltin body hargs) (boolean_alike c) hrun

theorem Fits.answers_runBuiltin_equal (hr : r ∈ A.inner) (hs : s ∈ A.inner)
    (hd : r.DrainsTo st d) (he : s.DrainsTo st e) :
    Answers (fun R => R.runBuiltin .equal [r, s]) st (.boolean (decide (d = e))) ∧
      Answers (fun R => R.runBuiltin .notEqual [r, s]) st (.boolean (!decide (d = e))) := by
  have hcompared := exists_compared (h.ref_shows hforced hr hd) (h.ref_shows hforced hs he)
  exact ⟨h.answers_runBuiltin hforced hr hs .equal (hcompared .boolean),
    h.answers_runBuiltin hforced hr hs .notEqual (hcompared fun c => .boolean !c)⟩

theorem Fits.answers_runBuiltin_contains (hr : r ∈ A.inner) (hs : s ∈ A.inner)
    (hd : r.DrainsTo st d) (he : s.DrainsTo st (.array ds)) :
    Answers (fun R => R.runBuiltin .contains [r, s]) st (.boolean (decide (d ∈ ds))) :=
  h.answers_runBuiltin hforced hr hs .contains
    (exists_contains (h.ref_shows hforced hr hd) (h.ref_shows hforced hs he))

theorem Fits.equivalence :
    Equivalence fun r s : {r : Ref // r ∈ A.inner ∧ ∃ d, r.DrainsTo st d} =>
      Answers (fun R => R.runBuiltin .equal [r.1, s.1]) st (.boolean true) := by
  have hiff (r s : {r : Ref // r ∈ A.inner ∧ ∃ d, r.DrainsTo st d}) :
      Answers (fun R => R.runBuiltin .equal [r.1, s.1]) st (.boolean true) ↔
        r.2.2.choose = s.2.2.choose := by
    have hanswers := (h.answers_runBuiltin_equal hforced r.2.1 s.2.1 r.2.2.choose_spec
      s.2.2.choose_spec).1
    constructor
    · exact fun htrue => of_decide_eq_true (Value.boolean.inj (hanswers.unique htrue))
    · intro heq
      rwa [decide_eq_true heq] at hanswers
  simp only [hiff]
  exact ⟨fun _ => rfl, Eq.symm, Eq.trans⟩

end Fits

/-- Deep equality is equality of data. Of values in a row that come to data, those and only those
are equal that come to the same data, and no comparison fails. So the operator for equality answers,
and the one for inequality answers the contrary; being equal is an equivalence; and an array is
found to contain what some element of it comes to. Whatever a host does with a program, all values
stand in such a row. -/
theorem equality_of_data :
    (∀ {e : TypedExpr} {v : Visit}, Relation.ReflTransGen Visit.Moves (.start e) v →
      ∃ A : Arrangement, A.Fits v.store ∧ A.outer = [] ∧ A.forced = []) ∧
    ∀ {A : Arrangement} {st : Store}, A.Fits st → (∀ r ∈ A.forced, st.cell r = .forcing) →
      (∀ {a b : Value} {d e : Datum}, a.Alike A.Related a → b.Alike A.Related b →
        a.DrainsTo st d → b.DrainsTo st e → Answers (fun R => R.equal a b) st (decide (d = e))) ∧
      (∀ {r s : Ref} {d e : Datum}, r ∈ A.inner → s ∈ A.inner → r.DrainsTo st d →
        s.DrainsTo st e →
        Answers (fun R => R.runBuiltin .equal [r, s]) st (.boolean (decide (d = e))) ∧
        Answers (fun R => R.runBuiltin .notEqual [r, s]) st (.boolean (!decide (d = e)))) ∧
      (Equivalence fun r s : {r : Ref // r ∈ A.inner ∧ ∃ d, r.DrainsTo st d} =>
        Answers (fun R => R.runBuiltin .equal [r.1, s.1]) st (.boolean true)) ∧
      ∀ {r s : Ref} {d : Datum} {ds : List Datum}, r ∈ A.inner → s ∈ A.inner →
        r.DrainsTo st d → s.DrainsTo st (.array ds) →
        Answers (fun R => R.runBuiltin .contains [r, s]) st (.boolean (decide (d ∈ ds))) := by
  refine ⟨fun hv => ?_, fun h hforced => ?_⟩
  · obtain ⟨⟨A, horderly⟩, -⟩ := Visit.reached hv
    have hforced := horderly.fits.forced
    rw [horderly.outer] at hforced
    exact ⟨A, horderly.fits, horderly.outer, List.subset_nil.1 hforced⟩
  · exact ⟨h.answers_equal hforced, h.answers_runBuiltin_equal hforced, h.equivalence hforced,
      h.answers_runBuiltin_contains hforced⟩

/-- A number, the same by a deferred call, and two arrays of these. -/
def sharing : Store :=
  ⟨#[.done (.ok (.integer 1)), .pending (.call (.ofBuiltin .identity 1) [⟨0⟩]),
    .done (.ok (.array (.values [⟨0⟩, ⟨1⟩]))),
    .done (.ok (.array (.take 2 (.repeated ⟨1⟩))))], #[]⟩

theorem fits_sharing : Fits ⟨[⟨0⟩, ⟨1⟩, ⟨2⟩, ⟨3⟩], [], []⟩ sharing where
  nodup := by decide
  mem r := by
    obtain ⟨i⟩ := r
    simp [row, sharing]
    omega
  forced := List.Subset.refl []
  ordered r hr _ := by
    have hbefore {a : Ref} (ha : [a, r].Sublist [⟨0⟩, ⟨1⟩, ⟨2⟩, ⟨3⟩]) :
        Before ⟨[⟨0⟩, ⟨1⟩, ⟨2⟩, ⟨3⟩], [], []⟩ r a a := ⟨rfl, ha⟩
    simp only [row, List.append_nil, List.mem_cons, List.not_mem_nil, or_false] at hr
    rcases hr with rfl | rfl | rfl | rfl
    · exact .done (.ok (.integer 1))
    · exact .pending (.call (.builtin .identity (.cons .none .nil))
        (.cons (hbefore (by decide)) .nil))
    · exact .done (.ok (.array (.values (.cons (hbefore (by decide))
        (.cons (hbefore (by decide)) .nil)))))
    · exact .done (.ok (.array (.take 2 (.repeated (hbefore (by decide))))))

/-- The array of both numbers equals the one that repeats the second, and contains the first. -/
theorem equality_of_data_sharing :
    Answers (fun R => R.equal (.array (.values [⟨0⟩, ⟨1⟩])) (.array (.take 2 (.repeated ⟨1⟩))))
        sharing true ∧
      Answers (fun R => R.runBuiltin .equal [⟨2⟩, ⟨3⟩]) sharing (.boolean true) ∧
      Answers (fun R => R.runBuiltin .notEqual [⟨2⟩, ⟨3⟩]) sharing (.boolean false) ∧
      Answers (fun R => R.runBuiltin .contains [⟨0⟩, ⟨3⟩]) sharing (.boolean true) := by
  have hone (st : Store) : (ofFuel 9).Drains (.integer 1) st (.atom (.integer 1)) st :=
    .atom (.integer 1) st
  have hfirst : (Ref.mk 0).DrainsTo sharing (.atom (.integer 1)) :=
    ⟨9, _, _, _, rfl, hone sharing⟩
  have hleft : (Value.array (.values [⟨0⟩, ⟨1⟩])).DrainsTo sharing
      (.array [.atom (.integer 1), .atom (.integer 1)]) :=
    ⟨9, _, .array rfl (.cons rfl rfl (hone _) (.cons rfl rfl (hone _) (.nil rfl)))⟩
  have hright : (Value.array (.take 2 (.repeated ⟨1⟩))).DrainsTo sharing
      (.array [.atom (.integer 1), .atom (.integer 1)]) :=
    ⟨9, _, .array rfl (.cons rfl rfl (hone _) (.cons rfl rfl (hone _) (.nil rfl)))⟩
  have hrelated {r : Ref} (hr : r ∈ [⟨0⟩, ⟨1⟩, ⟨2⟩, ⟨3⟩]) :
      Related ⟨[⟨0⟩, ⟨1⟩, ⟨2⟩, ⟨3⟩], [], []⟩ r r := ⟨rfl, hr⟩
  have hleft' : (Ref.mk 2).DrainsTo sharing (.array [.atom (.integer 1), .atom (.integer 1)]) :=
    ⟨9, _, _, _, rfl, .array rfl (.cons rfl rfl (hone _) (.cons rfl rfl (hone _) (.nil rfl)))⟩
  have hright' : (Ref.mk 3).DrainsTo sharing (.array [.atom (.integer 1), .atom (.integer 1)]) :=
    ⟨9, _, _, _, rfl, .array rfl (.cons rfl rfl (hone _) (.cons rfl rfl (hone _) (.nil rfl)))⟩
  obtain ⟨hequal, hoperators, -, hcontains⟩ := equality_of_data.2 fits_sharing nofun
  obtain ⟨htrue, hfalse⟩ := hoperators (by decide) (by decide) hleft' hright'
  have hvalues := hrelated (by decide : Ref.mk 0 ∈ _)
  have hrepeated := hrelated (by decide : Ref.mk 1 ∈ _)
  exact ⟨hequal (.array (.values (.cons hvalues (.cons hrepeated .nil))))
    (.array (.take 2 (.repeated hrepeated))) hleft hright, htrue, hfalse,
    hcontains (by decide) (by decide) hfirst hright'⟩

end Arrangement

end LazyLang
