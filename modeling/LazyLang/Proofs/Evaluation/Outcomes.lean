import LazyLang.Proofs.Evaluation.Worlds

/-!
# What computations come to

`Yields total w x post` says of a computation in the world `w` that it leads to a later world, with
the same cells being forced, in which `post` holds of its result. With `total` it also says that the
computation ends when it has enough fuel; without it nothing is said of a computation that does not
end. `Returns` says the same of a computation that may fail, but only in ways that the types of a
program do not exclude.

`Lazy` says of a cell that forcing it returns a value of a kind, now and in all later worlds. For a
pending cell that is so if its computation does.
-/

namespace LazyLang

/-- Whether the types of a program leave the failure open. The others arise where a value is used
outside its type. -/
def RuntimeError.allowed : RuntimeError → Bool
  | notAFunction _ | tooManyArguments _ _ _ | unboundIdentifier _ | unrecognized => false
  | divisionByZero | overflow _ | emptyArray _ | invalidArgument _ _ | cyclicEvaluation
  | limitExceeded _ => true

/-- What a computation comes to in a world. -/
structure Yields {α : Type} (total : Bool) (w : World) (x : Runner → Run α)
    (post : World → α → Prop) : Prop where
  ends : total → ∃ fuel res, ∀ n, fuel ≤ n → x (.ofFuel n) w.store = some res
  holds : ∀ n a st, x (.ofFuel n) w.store = some (a, st) →
    w ≤ ⟨st, w.frames⟩ ∧ post ⟨st, w.frames⟩ a

/-- A result of which `post` holds, or a failure that types leave open. -/
def Outcome {α : Type} (post : World → α → Prop) (w : World) : Except RuntimeError α → Prop
  | .ok a => post w a
  | .error e => e.allowed

/-- What a computation that may fail comes to in a world. -/
def Returns {α : Type} (total : Bool) (w : World) (x : Runner → Eval α)
    (post : World → α → Prop) : Prop :=
  Yields total w (fun R => (x R).run) (Outcome post)

variable {total : Bool} {w : World} {α β : Type}

namespace Yields

variable {P : World → α → Prop} {Q : World → β → Prop}

theorem imp {x : Runner → Run α} {P' : World → α → Prop} (h : Yields total w x P)
    (hP : ∀ w' a, w ≤ w' → P w' a → P' w' a) : Yields total w x P' where
  ends := h.ends
  holds n a st hx := by
    obtain ⟨hle, ha⟩ := h.holds n a st hx
    exact ⟨hle, hP _ a hle ha⟩

theorem pure {a : α} (h : P w a) : Yields total w (fun _ => Pure.pure a) P where
  ends _ := ⟨0, (a, w.store), fun _ _ => rfl⟩
  holds n b st hx := by
    cases hx
    exact ⟨le_refl w, h⟩

theorem bind {x : Runner → Run α} {k : α → Runner → Run β} (hx : Yields total w x P)
    (hk : ∀ w' a, w ≤ w' → P w' a → Yields total w' (k a) Q) :
    Yields total w (fun R => x R >>= fun a => k a R) Q where
  ends ht := by
    obtain ⟨n, ⟨a, st⟩, ha⟩ := hx.ends ht
    obtain ⟨hle, hP⟩ := hx.holds n a st (ha n (Nat.le_refl n))
    obtain ⟨m, ⟨b, st'⟩, hb⟩ := (hk _ a hle hP).ends ht
    refine ⟨max n m, (b, st'), fun l hl => ?_⟩
    have hn : n ≤ l := Nat.le_trans (Nat.le_max_left n m) hl
    have hm : m ≤ l := Nat.le_trans (Nat.le_max_right n m) hl
    exact Run.bind_eq_some.mpr ⟨a, st, ha l hn, hb l hm⟩
  holds n b st' h := by
    obtain ⟨a, st, ha, hb⟩ := Run.bind_eq_some.mp h
    obtain ⟨hle, hP⟩ := hx.holds n a st ha
    obtain ⟨hle', hQ⟩ := (hk _ a hle hP).holds n b st' hb
    exact ⟨hle.trans hle', hQ⟩

theorem update {f : Store → α × Store} (hf : ∀ st, Store.Grown st (f st).2)
    (h : w ≤ ⟨(f w.store).2, w.frames⟩ → P ⟨(f w.store).2, w.frames⟩ (f w.store).1) :
    Yields total w (fun _ => Run.update f) P where
  ends _ := ⟨0, f w.store, fun _ _ => rfl⟩
  holds n a st hx := by
    have heq : f w.store = (a, st) := Option.some.inj hx
    have hle := World.le_of_grown (hf w.store) w.frames
    have hP := h hle
    rw [heq] at hle hP
    exact ⟨hle, hP⟩

theorem congr {x y : Runner → Run α} (h : Yields total w x P)
    (hxy : ∀ n, y (.ofFuel n) = x (.ofFuel n)) : Yields total w y P where
  ends ht := by
    obtain ⟨n, res, hn⟩ := h.ends ht
    exact ⟨n, res, fun m hm => by rw [hxy, hn m hm]⟩
  holds n a st hx := h.holds n a st (by rw [← hxy, hx])

/-- A call on the runner is a step of what it runs. -/
theorem of_succ {x y : Runner → Run α} (h : Yields total w y P)
    (hzero : x (.ofFuel 0) = Run.outOfFuel)
    (hsucc : ∀ n, x (.ofFuel (n + 1)) = y (.ofFuel n)) : Yields total w x P where
  ends ht := by
    obtain ⟨n, res, hn⟩ := h.ends ht
    refine ⟨n + 1, res, fun m hm => ?_⟩
    obtain ⟨m, rfl⟩ : ∃ k, m = k + 1 := ⟨m - 1, by omega⟩
    rw [hsucc, hn m (Nat.le_of_succ_le_succ hm)]
  holds n a st hx := by
    cases n with
    | zero =>
        rw [hzero] at hx
        cases hx
    | succ n => exact h.holds n a st (by rw [← hsucc, hx])

/-- Moving a traversal on. -/
theorem next {t : Traversal} {P : World → Option Item × Traversal → Prop}
    (h : Yields total w (fun R => t.step R) P) : Yields total w (fun R => R.next t) P :=
  h.of_succ rfl fun _ => rfl

end Yields

namespace Returns

variable {P : World → α → Prop} {Q : World → β → Prop}

theorem imp {x : Runner → Eval α} {P' : World → α → Prop} (h : Returns total w x P)
    (hP : ∀ w' a, w ≤ w' → P w' a → P' w' a) : Returns total w x P' :=
  Yields.imp h fun w' o hle ho =>
    match o, ho with
    | .ok a, ho => hP w' a hle ho
    | .error _, ho => ho

theorem pure {a : α} (h : P w a) : Returns total w (fun _ => Pure.pure a) P :=
  Yields.pure (a := Except.ok a) h

theorem throw {e : RuntimeError} (h : e.allowed) :
    Returns total w (fun _ => MonadExcept.throw e) P :=
  Yields.pure (a := Except.error e) h

theorem bind {x : Runner → Eval α} {k : α → Runner → Eval β} (hx : Returns total w x P)
    (hk : ∀ w' a, w ≤ w' → P w' a → Returns total w' (k a) Q) :
    Returns total w (fun R => x R >>= fun a => k a R) Q := by
  refine Yields.bind (k := fun o R => ExceptT.bindCont (fun a => k a R) o) hx
    fun w' o hle ho => ?_
  cases o with
  | ok a => exact hk w' a hle ho
  | error e => exact Yields.pure (a := Except.error e) ho

theorem lift {x : Runner → Run α} (hx : Yields total w x P) :
    Returns total w (fun R => ExceptT.lift (x R)) P :=
  Yields.bind (k := fun a _ => Pure.pure (Except.ok a)) hx fun _ _ _ h => Yields.pure h

/-- Applying a function. -/
theorem apply {f : Function} {args : List (Option Ref)} {P : World → Value → Prop}
    (h : Returns total w (fun R => R.applyFunction f args) P) :
    Returns total w (fun R => R.apply f args) P :=
  Yields.of_succ h rfl fun _ => rfl

theorem except {x : Except RuntimeError α} (h : Outcome P w x) :
    Returns total w (fun _ => liftM x) P :=
  Yields.pure (a := x) h

end Returns

/-- A kind of values, which later worlds only add to. -/
structure Kind where
  holds : World → Value → Prop
  mono : ∀ {w w' : World} {v : Value}, w ≤ w' → holds w v → holds w' v

theorem Outcome.mono {S : Kind} {w w' : World} (h : w ≤ w') {o : Except RuntimeError Value}
    (ho : Outcome S.holds w o) : Outcome S.holds w' o := by
  cases o with
  | ok v => exact S.mono h ho
  | error e => exact ho

/-- A cell that gives a value of a kind whenever it is forced. -/
def Lazy (total : Bool) (S : Kind) (w : World) (r : Ref) : Prop :=
  ∀ w', w ≤ w' → Returns total w' (fun R => R.force r) S.holds

namespace Lazy

variable {S T : Kind} {r : Ref}

theorem mono {w w' : World} (h : Lazy total S w r) (hle : w ≤ w') : Lazy total S w' r :=
  fun w'' hle' => h w'' (hle.trans hle')

theorem force (h : Lazy total S w r) : Returns total w (fun R => R.force r) S.holds :=
  h w (le_refl w)

theorem imp (h : Lazy total S w r) (hST : ∀ w' v, w ≤ w' → S.holds w' v → T.holds w' v) :
    Lazy total T w r :=
  fun w' hle => (h w' hle).imp fun w'' v hle' => hST w'' v (hle.trans hle')

/-- Forcing in a world in which what forcing gives is known without a computation. -/
theorem returns_of_forceCell {o : Except RuntimeError Value}
    (h : ∀ R : Runner, (R.forceCell r).run w.store = some (o, w.store))
    (ho : Outcome S.holds w o) : Returns total w (fun R => R.force r) S.holds where
  ends _ := by
    refine ⟨1, (o, w.store), fun n hn => ?_⟩
    obtain ⟨n, rfl⟩ : ∃ m, n = m + 1 := ⟨n - 1, by omega⟩
    exact h (.ofFuel n)
  holds n a st hx := by
    cases n with
    | zero => cases hx
    | succ n =>
        have heq := (h (.ofFuel n)).symm.trans hx
        cases heq
        exact ⟨le_refl w, ho⟩

/-- A cell that is done. -/
theorem of_done {o : Except RuntimeError Value} (hlt : r.index < w.store.cells.size)
    (hr : w.store.cell r = .done o) (ho : Outcome S.holds w o) : Lazy total S w r := by
  intro w' hle
  refine returns_of_forceCell (o := o) (fun R => ?_) (ho.mono hle)
  rw [Runner.forceCell_run, World.done_of_le hle hlt hr]

/-- A cell that was just added with a value. -/
theorem of_addValue {v : Value} (st : Store) (fs : List (Ref × Store))
    (hv : ∀ w', (⟨st, fs⟩ : World) ≤ w' → S.holds w' v) :
    Lazy total S ⟨(st.addValue v).2, fs⟩ (st.addValue v).1 :=
  of_done (by simp only [Store.addValue, Store.add, Array.size_push]; omega)
    (Store.cell_add_self _ _) (hv _ (World.Step.add st fs _ fun h => Cell.noConfusion h).le)

/-- The end of a computation for a cell does not take anything away from its outcome. -/
theorem outcome_leave {start st : Store} (below : List (Ref × Store)) {thunk : Thunk} {fuel : Nat}
    {o : Except RuntimeError Value} (hr : start.cell r = .pending thunk)
    (hrun : (thunk.run (.ofFuel fuel)).run (start.set r .forcing) = some (o, st)) :
    (⟨st, (r, start) :: below⟩ : World) ≤ ⟨st.set r (.done o), below⟩ := by
  have hlt := Store.lt_size_of_cell fun o h => Cell.noConfusion (hr.symm.trans h)
  have hforced := (Thunk.run_evolves hrun).2 r (Store.cell_set_self hlt .forcing)
  exact (World.Step.leave below hr hrun hforced).le

/-- A pending cell is as good as its computation. -/
theorem of_pending {thunk : Thunk} (hr : w.store.cell r = .pending thunk)
    (h : ∀ w', w ≤ w' → Returns total w' (fun R => thunk.run R) S.holds) : Lazy total S w r := by
  intro w' hle
  cases World.fate_of_le hle hr with
  | forcing start above below hr' hframes habove hpending hstart =>
      refine returns_of_forceCell (o := .error .cyclicEvaluation) (fun R => ?_) rfl
      rw [Runner.forceCell_run, hr']
  | done start st below fuel o hr' hpending hstart hrun hend =>
      refine returns_of_forceCell (o := o) (fun R => ?_) ?_
      · rw [Runner.forceCell_run, hr']
      · have hentered := hstart.trans (World.Step.enter below hpending).le
        have ho := ((h _ hentered).holds fuel o st hrun).2
        exact ho.mono ((outcome_leave below hpending hrun).trans hend)
  | pending hr' =>
      have hentered : w' ≤ ⟨w'.store.set r .forcing, (r, w'.store) :: w'.frames⟩ :=
        (World.Step.enter w'.frames hr').le
      have hthunk := h _ (hle.trans hentered)
      refine ⟨fun ht => ?_, fun n a st hx => ?_⟩
      · obtain ⟨n, ⟨o, st⟩, hn⟩ := hthunk.ends ht
        refine ⟨n + 1, (o, st.set r (.done o)), fun m hm => ?_⟩
        obtain ⟨m, rfl⟩ : ∃ k, m = k + 1 := ⟨m - 1, by omega⟩
        change ((Runner.ofFuel m).forceCell r).run w'.store = _
        rw [Runner.forceCell_run, hr']
        exact Option.map_eq_some_iff.mpr ⟨(o, st), hn m (by omega), rfl⟩
      · cases n with
        | zero => cases hx
        | succ n =>
            change ((Runner.ofFuel n).forceCell r).run w'.store = _ at hx
            rw [Runner.forceCell_run, hr'] at hx
            obtain ⟨⟨o, st'⟩, hrun, heq⟩ := Option.map_eq_some_iff.mp hx
            cases heq
            obtain ⟨hafter, ho⟩ := hthunk.holds n a st' hrun
            have hleave := outcome_leave w'.frames hr' hrun
            exact ⟨hentered.trans (hafter.trans hleave), ho.mono hleave⟩

/-- A cell that was just added with a computation. -/
theorem of_defer {thunk : Thunk} (st : Store) (fs : List (Ref × Store))
    (h : ∀ w', (⟨st, fs⟩ : World) ≤ w' → Returns total w' (fun R => thunk.run R) S.holds) :
    Lazy total S ⟨(st.add (.pending thunk)).2, fs⟩ (st.add (.pending thunk)).1 :=
  of_pending (Store.cell_add_self _ _) fun w' hle =>
    h w' ((World.Step.add st fs _ fun h => Cell.noConfusion h).le.trans hle)

end Lazy

end LazyLang
