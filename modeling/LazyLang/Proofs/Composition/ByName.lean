import LazyLang.Proofs.Execution.Suspended

/-!
# Compositions by name

Both operators of composition force their two functions, the left one first, and make the same
pipeline of them, so that they differ in the order of forcing only. By name the order makes no
difference unless both fail, for then the first failure is the one that is seen.
-/

namespace LazyLang

open Filter Likeness

namespace Simulation

variable {w : bisimilar.World} {a b a' b' : Ref}

/-- The order in which two functions are forced makes no difference by name, unless both fail. -/
theorem follows_swapped {n : ℕ} {k : Function → Function → Eval Value}
    {k' : ℕ → Function → Function → Eval Value} (ha : bisimilar.related w a a')
    (hb : bisimilar.related w b b')
    (hk : ∀ ⦃w' : bisimilar.World⦄, bisimilar.order.le w w' → ∀ ⦃f f' g g' : Function⦄,
      f.Alike (bisimilar.related w') f' → g.Alike (bisimilar.related w') g' →
        bisimilar.FollowsEval w' Value.Alike (k f g) fun m => k' m f' g')
    (hfun : w.1.FunctionAt a ∨ w.2.FunctionAt b') :
    bisimilar.FollowsEval w Value.Alike
      (do
        let f ← (Runner.byName n).forceFunction a
        let g ← (Runner.byName n).forceFunction b
        k f g)
      (fun m => do
        let g ← (Runner.byName m).forceFunction b'
        let f ← (Runner.byName m).forceFunction a'
        k' m f g) := by
  have hruns : bisimilar.Runs (.byName n) Runner.byName :=
    runs_byName_bisimilar (eventually_ge_atTop n)
  have htrans := bisimilar.order.le_trans
  rintro _ _ o st ⟨rfl, rfl⟩ hrun
  rcases Eval.bind_eq_some.1 hrun with ⟨e, hf, rfl⟩ | ⟨f, st₁, hf, hrun⟩
  · -- the first function fails, so the second one is found on the other side
    have hfun : w.2.FunctionAt b' := hfun.resolve_left fun h => by
      obtain ⟨f, heq⟩ := h.ok_of_run hf
      cases heq
    obtain ⟨m₀, g', st₁', hext, hg'⟩ := hfun.exists_ge
    have hw : bisimilar.order.le w (w.1, st₁') := ⟨.refl _, hext⟩
    obtain ⟨w₁, hw₁, _, st₂', hf', ⟨rfl, rfl⟩, ho⟩ :=
      hruns.forceFunction (bisimilar.related_mono hw ha) ⟨rfl, rfl⟩ hf
    cases ho
    refine ⟨w₁, htrans _ _ _ hw hw₁, .error e, w₁.2, ?_, ⟨rfl, rfl⟩, .error e⟩
    filter_upwards [eventually_ge_atTop m₀, hf'] with m hm hf'
    exact Eval.bind_eq_some.2 (.inr ⟨g', st₁', hg' m hm,
      Eval.bind_eq_some.2 (.inl ⟨e, hf', rfl⟩)⟩)
  · have hleft : bisimilar.order.le w (st₁, w.2) :=
      ⟨Store.extends_of_forceFunction hf, .refl _⟩
    rcases Eval.bind_eq_some.1 hrun with ⟨e, hg, rfl⟩ | ⟨g, st₂, hg, hrest⟩
    · obtain ⟨w₁, hw₁, _, st₁', hg', ⟨rfl, rfl⟩, ho⟩ :=
        hruns.forceFunction (w := (st₁, w.2)) (bisimilar.related_mono hleft hb) ⟨rfl, rfl⟩ hg
      cases ho
      refine ⟨w₁, htrans _ _ _ hleft hw₁, .error e, w₁.2, ?_, ⟨rfl, rfl⟩, .error e⟩
      exact hg'.mono fun m hg' => Eval.bind_eq_some.2 (.inl ⟨e, hg', rfl⟩)
    · obtain ⟨w₁, hw₁, _, st₁', hg', ⟨rfl, rfl⟩, ho⟩ :=
        hruns.forceFunction (w := (st₁, w.2)) (bisimilar.related_mono hleft hb) ⟨rfl, rfl⟩ hg
      cases ho with
      | @ok _ g' halike =>
          have hright : bisimilar.order.le w (w.1, w₁.2) := ⟨.refl _, hw₁.2⟩
          obtain ⟨w₂, hw₂, _, st₂', hf', ⟨rfl, rfl⟩, ho⟩ :=
            hruns.forceFunction (bisimilar.related_mono hright ha) ⟨rfl, rfl⟩ hf
          cases ho with
          | @ok _ f' halike' =>
              have hw₁' : bisimilar.order.le w₁ (w₁.1, w₂.2) := ⟨.refl _, hw₂.2⟩
              have hw₂' : bisimilar.order.le w₂ (w₁.1, w₂.2) := ⟨hw₁.1, .refl _⟩
              have hw : bisimilar.order.le w (w₁.1, w₂.2) :=
                htrans _ _ _ hleft (htrans _ _ _ hw₁ hw₁')
              obtain ⟨w₃, hw₃, o', st₃', ho', hst, ho⟩ :=
                hk hw (later Function.Alike.lawful hw₂' halike')
                  (later Function.Alike.lawful hw₁' halike) ⟨rfl, rfl⟩ hrest
              refine ⟨w₃, htrans _ _ _ hw hw₃, o', st₃', ?_, hst, ho⟩
              filter_upwards [hg', hf', ho'] with m hg' hf' ho'
              exact Eval.bind_eq_some.2 (.inr ⟨g', _, hg',
                Eval.bind_eq_some.2 (.inr ⟨f', _, hf', ho'⟩)⟩)

end Simulation

/-- The lazy value `r` is the call, with the argument `x`, of what the operator makes of `a` and
`b`. -/
def Store.Composes (st : Store) (op : Builtin) (r a b x : Ref) : Prop :=
  ∃ callee operator, st.cell r = .pending (.apply callee [some x]) ∧
    st.cell callee = .pending (.apply operator [some a, some b]) ∧
      st.cell operator = .done (.ok op.value)

namespace Runner

/-- Gives what the inner function makes of the argument to the outer one. -/
def feed (R : Runner) (x : Ref) (outer inner : Function) : Eval Value := do
  let between ← ExceptT.lift (Run.defer (.call inner [x]))
  R.call outer [between]

theorem force_composed {st : Store} {op : Builtin} {r a b x : Ref}
    (hop : op.params.length = 2) (h : st.Composes op r a b x) (n : ℕ) :
    ((byName (n + 3)).force r).run st =
      ((byName n).runBuiltin op [a, b] >>= fun v => (byName (n + 2)).applyValue v [some x]).run
        st := by
  obtain ⟨callee, operator, hr, hcallee, hoperator⟩ := h
  have hslots : Function.ofBuiltin op op.params.length = .builtin op [none, none] := by
    rw [hop]
    rfl
  calc ((byName (n + 3)).force r).run st
    _ = ((byName (n + 2)).force callee >>= fun v =>
          (byName (n + 2)).applyValue v [some x]).run st := rerun_of_pending _ hr
    _ = _ := Eval.run_bind_congr ?_
  calc ((byName (n + 2)).force callee).run st
    _ = ((byName (n + 1)).force operator >>= fun v =>
          (byName (n + 1)).applyValue v [some a, some b]).run st := rerun_of_pending _ hcallee
    _ = ((pure op.value : Eval Value) >>= fun v =>
          (byName (n + 1)).applyValue v [some a, some b]).run st :=
        Eval.run_bind_congr (rerun_of_done (byName n) hoperator)
    _ = ((byName (n + 1)).applyValue op.value [some a, some b]).run st := rfl
    _ = ((byName n).runBuiltin op [a, b]).run st := by
        rw [Builtin.value, hslots]
        rfl

/-- What becomes of a composition by `.`, whose left function is the outer one. -/
theorem force_compose {st : Store} {r f g x : Ref} (h : st.Composes .compose r f g x) (n : ℕ) :
    ((byName (n + 3)).force r).run st = (do
      let f ← (byName n).forceFunction f
      let g ← (byName n).forceFunction g
      (byName (n + 1)).feed x f g : Eval Value).run st := by
  rw [force_composed rfl h]
  change ((do
      let f ← (byName n).forceFunction f
      let g ← (byName n).forceFunction g
      pure (.function (.pipeline "." g f [none])) : Eval Value) >>= _ : Eval Value).run st = _
  simp only [bind_assoc]
  rfl

/-- What becomes of a composition by `&`, whose left function is the inner one. -/
theorem force_pipe {st : Store} {r f g x : Ref} (h : st.Composes .pipe r g f x) (n : ℕ) :
    ((byName (n + 3)).force r).run st = (do
      let g ← (byName n).forceFunction g
      let f ← (byName n).forceFunction f
      (byName (n + 1)).feed x f g : Eval Value).run st := by
  rw [force_composed rfl h]
  change ((do
      let g ← (byName n).forceFunction g
      let f ← (byName n).forceFunction f
      pure (.function (.pipeline "&" g f [none])) : Eval Value) >>= _ : Eval Value).run st = _
  simp only [bind_assoc]
  rfl

end Runner

namespace Simulation

theorem Runs.feed {S : Simulation} {R : Runner} {R' : ℕ → Runner} {w : S.World} (h : S.Runs R R')
    {f f' g g' : Function} {x x' : Ref} (hf : f.Alike (S.related w) f')
    (hg : g.Alike (S.related w) g') (hx : S.related w x x') :
    S.FollowsEval w Value.Alike (R.feed x f g) fun m => (R' m).feed x' f' g' :=
  .seq (.lift (.defer (.call hg (.cons hx .nil)))) fun _ hw _ _ hbetween =>
    h.call (later Function.Alike.lawful hw hf) (.cons hbetween .nil)

variable {st st' : Store} {r r' f f' g g' x x' : Ref}
  (hf : Bisimilar Ref.Unordered st st' f f') (hg : Bisimilar Ref.Unordered st st' g g')
  (hx : Bisimilar Ref.Unordered st st' x x')

include hf hg hx

/-- The forcing of a composition by `&` follows that of its mirror image. -/
theorem follows_compose (h : st.Composes .compose r f g x) (h' : st'.Composes .pipe r' g' f' x')
    (hfun : st.FunctionAt f ∨ st'.FunctionAt g') (n : ℕ) :
    bisimilar.FollowsEval (st, st') Value.Alike ((Runner.byName (n + 3)).force r) fun m =>
      (Runner.byName (m + 3)).force r' := by
  have hruns : bisimilar.Runs (.byName (n + 1)) fun m => .byName (m + 1) :=
    runs_byName_bisimilar ((eventually_ge_atTop n).mono fun _ => Nat.succ_le_succ)
  have hswapped := follows_swapped (w := (st, st')) (n := n) hf hg
    (fun _ hw _ _ _ _ hf hg => hruns.feed hf hg (bisimilar.related_mono hw hx)) hfun
  refine hswapped.congr_run (Runner.force_compose h n) fun m => Runner.force_pipe h' m

/-- The forcing of a composition by `.` follows that of its mirror image. -/
theorem follows_pipe (h : st.Composes .pipe r g f x) (h' : st'.Composes .compose r' f' g' x')
    (hfun : st.FunctionAt g ∨ st'.FunctionAt f') (n : ℕ) :
    bisimilar.FollowsEval (st, st') Value.Alike ((Runner.byName (n + 3)).force r) fun m =>
      (Runner.byName (m + 3)).force r' := by
  have hruns : bisimilar.Runs (.byName (n + 1)) fun m => .byName (m + 1) :=
    runs_byName_bisimilar ((eventually_ge_atTop n).mono fun _ => Nat.succ_le_succ)
  have hswapped := follows_swapped (w := (st, st')) (n := n) hg hf
    (fun _ hw _ _ _ _ hg hf => hruns.feed hf hg (bisimilar.related_mono hw hx)) hfun
  refine hswapped.congr_run (Runner.force_pipe h n) fun m => Runner.force_compose h' m

end Simulation

namespace Tree

/-- The call, with the argument `x`, of what the operator makes of `a` and `b`. -/
def composed (op : Builtin) (a b x : Tree) : Tree :=
  .call (Node.plain Span.origin)
    (.call (Node.plain Span.origin) (.identifier (Node.plain Span.origin) op.name)
      [some a, some b]) [some x]

/-- The lazy value of a composition over the library. -/
theorem exists_composes {op : Builtin} (hop : op = .compose ∨ op = .pipe) (a b x : Tree) :
    ∃ ra rb rx, (composed op a b x).loaded.2.Composes op (composed op a b x).loaded.1 ra rb rx ∧
      (composed op a b x).loaded.2.Holds ra a ∧ (composed op a b x).loaded.2.Holds rb b ∧
        (composed op a b x).loaded.2.Holds rx x := by
  obtain ⟨operator, hlookup, hcell⟩ : ∃ r, Scope.loaded.values.get? op.name = some r ∧
      Store.loaded.cell r = .done (.ok op.value) := by
    rcases hop with rfl | rfl
    · exact ⟨⟨40⟩, rfl, rfl⟩
    · exact ⟨⟨41⟩, rfl, rfl⟩
  have hcomposed : composed op a b x = calling (calling (named op.name) [a, b]) [x] := rfl
  rw [hcomposed]
  obtain ⟨_, hcall, hext, hrefs⟩ := exists_calls (calling (named op.name) [a, b]) [x]
  obtain ⟨_, hinner, hext', hrefs'⟩ := exists_calls (named op.name) [a, b]
  rw [loaded_named hlookup] at hinner hext'
  obtain _ | ⟨hx, _ | _⟩ := hrefs
  obtain _ | ⟨ha, _ | ⟨hb, _ | _⟩⟩ := hrefs'
  have hoperator := (hext'.trans hext).2 operator (Store.lt_size_of_value hcell)
  exact ⟨_, _, _, ⟨_, operator, hcall, hinner.mono hext, hoperator.trans hcell⟩, ha.mono hext,
    hb.mono hext, hx⟩

variable {f g x : Tree} {limit : Option ℕ} {o o' : Except RuntimeError (Option Plain)}

/-- If one of the two functions is found, a composition and its mirror image are stripped to the
same. -/
theorem stripsTo_composed_iff (hfun : f.IsFunction ∨ g.IsFunction) :
    (composed .compose f g x).StripsTo limit o ↔ (composed .pipe g f x).StripsTo limit o := by
  obtain ⟨rf, rg, rx, h, hf, hg, hx⟩ := exists_composes (.inl rfl) f g x
  obtain ⟨rg', rf', rx', h', hg', hf', hx'⟩ := exists_composes (.inr rfl) g f x
  have hfun := hfun.imp Tree.IsFunction.functionAt Tree.IsFunction.functionAt
  constructor
  · refine Store.StripsByName.of_follows (d := 3) (Simulation.follows_compose (hf.bisimilar hf')
      (hg.bisimilar hg') (hx.bisimilar hx') h h' ?_)
    exact hfun.imp (·.bisimilar hf) (·.bisimilar hg')
  · refine Store.StripsByName.of_follows (d := 3) (Simulation.follows_pipe (hf'.bisimilar hf)
      (hg'.bisimilar hg) (hx'.bisimilar hx) h' h ?_)
    exact hfun.symm.imp (·.bisimilar hg') (·.bisimilar hf)

end Tree

/-- A composition fails if the function that is forced first is not found. -/
theorem Store.StripsByName.exists_error {st : Store} {r a : Ref} {limit : Option ℕ}
    {o : Except RuntimeError (Option Plain)} {k : ℕ → Function → Eval Value}
    (hforce : ∀ n, ((Runner.byName (n + 3)).force r).run st = (do
      let f ← (Runner.byName n).forceFunction a
      k n f : Eval Value).run st)
    (ha : ¬ st.FunctionAt a) (h : st.StripsByName limit r o) : ∃ e, o = .error e := by
  obtain ⟨m, st', hm, hrun⟩ := h.exists_le 3
  obtain ⟨n, rfl⟩ := Nat.exists_eq_add_of_le' hm
  rcases Eval.bind_eq_some.1 hrun with ⟨e, -, rfl⟩ | ⟨v, st₁, hv, -⟩
  · exact ⟨e, rfl⟩
  · rw [hforce] at hv
    rcases Eval.bind_eq_some.1 hv with ⟨e, -, heq⟩ | ⟨f, st₂, hf, -⟩
    · cases heq
    · exact absurd ⟨n, f, st₂, hf⟩ ha

/-- If a composition and its mirror image are both stripped to something, then to the same, or both
to failures. -/
theorem Tree.eq_of_stripsTo_composed {f g x : Tree} {limit : Option ℕ}
    {o o' : Except RuntimeError (Option Plain)} (ho : (composed .compose f g x).StripsTo limit o)
    (ho' : (composed .pipe g f x).StripsTo limit o') :
    o = o' ∨ (∃ e, o = .error e) ∧ ∃ e, o' = .error e := by
  obtain ⟨rf, rg, rx, h, hf, hg, hx⟩ := exists_composes (.inl rfl) f g x
  obtain ⟨rg', rf', rx', h', hg', hf', hx'⟩ := exists_composes (.inr rfl) g f x
  by_cases hfun : (composed .compose f g x).loaded.2.FunctionAt rf ∨
      (composed .pipe g f x).loaded.2.FunctionAt rg'
  · have hsame := Store.StripsByName.of_follows (d := 3) (Simulation.follows_compose
      (hf.bisimilar hf') (hg.bisimilar hg') (hx.bisimilar hx') h h' hfun) ho
    exact .inl (hsame.unique ho')
  · rw [not_or] at hfun
    exact .inr ⟨Store.StripsByName.exists_error (Runner.force_compose h) hfun.1 ho,
      Store.StripsByName.exists_error (Runner.force_pipe h') hfun.2 ho'⟩

end LazyLang
