import LazyLang.Proofs.Evaluation.Reaching

/-!
# How much of an array is pulled

The layers of an array only move on what is below them: in any tour, each of their moves consists
of some moves of the traversal below, which lead from the one store to the other. So nothing else
has happened meanwhile, and no value was forced (`Traversal.MadeOf`).

So taking a number of elements, or a slice, pulls no more items than it has to go past
(`Sequence.DrawsAtMost`), however far the array goes on and whatever comes later in it, and access
by position forces the one element that it gives (`Sequence.Selects`). Both are shown of what the
functions of the language do (`Runner.bounded_access`).
-/

namespace LazyLang

open Runner

namespace Traversal

/-- Moves of a traversal directly after each other, and the traversal and the store that they lead
to if all of them end. -/
inductive Moves : Traversal → Store → List Move → Option (Traversal × Store) → Prop
  | nil (t : Traversal) (st : Store) : Moves t st [] (some (t, st))
  | stuck {t : Traversal} {st : Store} (h : Reaches (·.next t) st none) :
      Moves t st [⟨st, none⟩] none
  | cons {t t' : Traversal} {st st' : Store} {item : Option Item} {ms : List Move}
      {reached : Option (Traversal × Store)} (h : Reaches (·.next t) st (some ((item, t'), st')))
      (hrest : Moves t' st' ms reached) : Moves t st (⟨st, some (item, st')⟩ :: ms) reached

/-- Each move begins in the store that the one before it led to. -/
inductive Leads : Store → List Move → Option Store → Prop
  | nil (st : Store) : Leads st [] (some st)
  | stuck (st : Store) : Leads st [⟨st, none⟩] none
  | cons {st st' : Store} {item : Option Item} {ms : List Move} {reached : Option Store}
      (hrest : Leads st' ms reached) : Leads st (⟨st, some (item, st')⟩ :: ms) reached

/-- The item that the last of the moves gave. -/
def lastItem (ms : List Move) : Option Item := ms.getLast?.bind Move.item

/-- Each of some moves consists of a part of others, that is of nothing else than these one after
the other, and the item that it gives is the one that they end with. -/
inductive MadeOf : List Move → List Move → Prop
  | nil : MadeOf [] []
  | cons {m : Move} {ms part drawn : List Move} (hleads : Leads m.before part m.after)
      (hitem : ∀ item, m.item = some item → lastItem part = some item) (hrest : MadeOf ms drawn) :
      MadeOf (m :: ms) (part ++ drawn)

section Moves

variable {m : Move} {ms part rest drawn : List Move} {st st' : Store} {reached : Option Store}

theorem lastItem_append (h : rest ≠ []) : lastItem (part ++ rest) = lastItem rest := by
  rw [lastItem, lastItem, List.getLast?_append_of_ne_nil _ h]

theorem Leads.append (h : Leads st part (some st')) (hrest : Leads st' rest reached) :
    Leads st (part ++ rest) reached := by
  generalize hmid : some st' = mid at h
  induction h with
  | nil =>
      cases hmid
      exact hrest
  | stuck => cases hmid
  | cons _ ih => exact .cons (ih hmid)

theorem MadeOf.split (h : MadeOf (part ++ rest) drawn) :
    ∃ first second, drawn = first ++ second ∧ MadeOf part first ∧ MadeOf rest second := by
  induction part generalizing drawn with
  | nil => exact ⟨[], drawn, rfl, .nil, h⟩
  | cons m part ih =>
      cases h with
      | cons hleads hitem h =>
          obtain ⟨first, second, rfl, hfirst, hsecond⟩ := ih h
          exact ⟨_, second, (List.append_assoc ..).symm, .cons hleads hitem hfirst, hsecond⟩

theorem MadeOf.leads (h : MadeOf part drawn) (hleads : Leads st part reached) :
    Leads st drawn reached := by
  induction hleads generalizing drawn with
  | nil st =>
      cases h
      exact .nil st
  | stuck st => cases h with
      | cons hleads _ hrest =>
          cases hrest
          rwa [List.append_nil]
  | cons _ ih => cases h with
      | cons hleads _ hrest => exact Leads.append hleads (ih hrest)

theorem MadeOf.lastItem {item : Item} (h : MadeOf part drawn)
    (hitem : lastItem part = some item) : Traversal.lastItem drawn = some item := by
  induction h with
  | nil => cases hitem
  | @cons m ms part drawn _ hlast hrest ih =>
      cases ms with
      | nil =>
          cases hrest
          rw [List.append_nil]
          exact hlast item hitem
      | cons m' ms =>
          have hdrawn := ih hitem
          rwa [lastItem_append]
          rintro rfl
          cases hdrawn

/-- What consists of the parts of some moves consists of what these consist of. -/
theorem MadeOf.trans (h : MadeOf ms part) (hpart : MadeOf part drawn) : MadeOf ms drawn := by
  induction h generalizing drawn with
  | nil =>
      cases hpart
      exact .nil
  | cons hleads hitem _ ih =>
      obtain ⟨first, second, rfl, hfirst, hsecond⟩ := hpart.split
      exact .cons (hfirst.leads hleads) (fun item h => hfirst.lastItem (hitem item h)) (ih hsecond)

end Moves

section Layers

variable {t t' u : Traversal} {st st' : Store} {ms part rest : List Move}
  {o : Option ((Option Item × Traversal) × Store)} {reached : Option (Traversal × Store)}

theorem Moves.leads (h : t.Moves st part reached) : Leads st part (reached.map Prod.snd) := by
  induction h with
  | nil _ st => exact .nil st
  | stuck => exact .stuck _
  | cons _ _ ih => exact .cons ih

theorem Moves.tour (h : t.Moves st part (some (t', st'))) (hrest : t'.Tour rest) :
    t.Tour (part ++ rest) := by
  generalize hend : some (t', st') = reached at h
  induction h with
  | nil =>
      cases hend
      exact hrest
  | stuck => cases hend
  | cons h _ ih => exact .cons h (ih hend)

theorem Moves.tour_stuck (h : t.Moves st part none) : t.Tour part := by
  generalize hend : none = reached at h
  induction h with
  | nil => cases hend
  | stuck h => exact .stuck h
  | cons h _ ih => exact .cons h (ih hend)

theorem exists_moves_next (h : Reaches (·.next t) st o) :
    ∃ m, t.Moves st [m] (o.map fun p => (p.1.2, p.2)) ∧ lastItem [m] = o.bind (·.1.1) := by
  obtain _ | ⟨⟨item, t'⟩, st'⟩ := o
  · exact ⟨_, .stuck h, rfl⟩
  · exact ⟨_, .cons h (.nil t' st'), rfl⟩

/-- Going ahead is at least one move, and at most so many and one more. -/
theorem exists_moves_ahead {k : Nat} (h : Reaches (t.ahead · k) st o) :
    ∃ m part, part.length ≤ k ∧ t.Moves st (m :: part) (o.map fun p => (p.1.2, p.2)) ∧
      lastItem (m :: part) = o.bind (·.1.1) := by
  induction k generalizing t st with
  | zero =>
      obtain ⟨m, hm⟩ := exists_moves_next h
      exact ⟨m, [], le_refl _, hm⟩
  | succ k ih =>
      obtain ⟨_ | ⟨⟨_ | item, t'⟩, st'⟩, hnext, hrest⟩ := h.bind (steady_next t) <| by
        rintro ⟨_ | item, t'⟩
        · exact .const _
        · exact steady_ahead k t'
      · subst hrest
        exact ⟨_, [], Nat.zero_le _, .stuck hnext, rfl⟩
      · obtain rfl := Reaches.eq_of_const hrest
        exact ⟨_, [], Nat.zero_le _, .cons hnext (.nil t' st'), rfl⟩
      · obtain ⟨m, part, hlength, hmoves, hlast⟩ := ih hrest
        refine ⟨_, m :: part, Nat.succ_le_succ hlength, .cons hnext hmoves, ?_⟩
        change lastItem ([_] ++ m :: part) = _
        rwa [lastItem_append (List.cons_ne_nil m part)]

/-- A layer moves on the traversal below it only, from the one store to the other, and gives the
last item that it gets. In the state `s` it may make `spare s` more moves than `each` for every move
of its own. -/
def IsLayer {σ : Type} (layer : σ → Traversal → Traversal) (spare : σ → Nat) (each : Nat) : Prop :=
  ∀ ⦃s t st o⦄, Reaches (·.next (layer s t)) st o → ∃ part reached s',
    t.Moves st part reached ∧ lastItem part = o.bind (·.1.1) ∧
      o.map (fun p => (p.1.2, p.2)) = reached.map (fun p => (layer s' p.1, p.2)) ∧
      part.length + spare s' ≤ spare s + each

/-- The moves of a layer are made of moves of the traversal below it. -/
theorem IsLayer.exists_tour {σ : Type} {layer : σ → Traversal → Traversal} {spare : σ → Nat}
    {each : Nat} (hlayer : IsLayer layer spare each) {s : σ} (h : (layer s t).Tour ms) :
    ∃ drawn, t.Tour drawn ∧ MadeOf ms drawn ∧ drawn.length ≤ spare s + each * ms.length := by
  generalize hu : layer s t = u at h
  induction h generalizing s t with
  | nil => exact ⟨[], .nil t, .nil, Nat.zero_le _⟩
  | stuck h =>
      subst hu
      obtain ⟨part, reached, s', hmoves, -, hreached, hlength⟩ := hlayer h
      obtain rfl : reached = none := Option.map_eq_none_iff.1 hreached.symm
      refine ⟨part ++ [], ?_, .cons hmoves.leads (fun _ => nofun) .nil, ?_⟩
      · rw [List.append_nil]
        exact hmoves.tour_stuck
      · simp only [List.append_nil, List.length_singleton]
        omega
  | cons h _ ih =>
      subst hu
      obtain ⟨part, reached, s', hmoves, hlast, hreached, hlength⟩ := hlayer h
      obtain ⟨⟨t', _⟩, rfl, heq⟩ := Option.map_eq_some_iff.1 hreached.symm
      obtain ⟨hu', rfl⟩ := Prod.mk.inj heq
      obtain ⟨drawn, htour, hmade, hbound⟩ := ih hu'
      refine ⟨part ++ drawn, hmoves.tour htour, .cons hmoves.leads ?_ hmade, ?_⟩
      · exact fun item hitem => hlast.trans hitem
      · rw [List.length_append, List.length_cons, Nat.mul_succ]
        omega

/-- Stopping early moves on no more than so often. -/
theorem isLayer_take : IsLayer take id 0 := by
  intro n t st o h
  cases n with
  | zero =>
      obtain rfl := Reaches.eq_of_const h.step
      exact ⟨[], _, 0, .nil t st, rfl, rfl, le_refl _⟩
  | succ n =>
      obtain ⟨o, hnext, rfl⟩ := h.step.map (steady_next t)
      obtain ⟨m, hmoves, hlast⟩ := exists_moves_next hnext
      refine ⟨[m], _, n, hmoves, ?_, ?_, Nat.le_of_eq (Nat.add_comm 1 n)⟩
      · rw [hlast]
        cases o <;> rfl
      · cases o <;> rfl

/-- Skipping moves on so often at once, and later as often as it is moved on itself. -/
theorem isLayer_drop : IsLayer drop id 1 := by
  intro k t st o h
  obtain ⟨o, hnext, rfl⟩ := h.step.map (steady_ahead k t)
  obtain ⟨m, part, hlength, hmoves, hlast⟩ := exists_moves_ahead hnext
  refine ⟨m :: part, _, 0, hmoves, ?_, ?_, Nat.succ_le_succ hlength⟩
  · rw [hlast]
    cases o <;> rfl
  · cases o <;> rfl

theorem isLayer_stepped (k : Nat) : IsLayer (stepped · k) (fun _ => 0) (k + 1) := by
  intro fresh t st o h
  obtain ⟨o, hnext, rfl⟩ := h.step.map (steady_ahead _ t)
  obtain ⟨m, part, hlength, hmoves, hlast⟩ := exists_moves_ahead hnext
  have hskipped : (if fresh then 0 else k - 1) ≤ k := by
    split <;> omega
  refine ⟨m :: part, _, false, hmoves, ?_, ?_, ?_⟩
  · rw [hlast]
    cases o <;> rfl
  · cases o <;> rfl
  · rw [Nat.zero_add]
    exact Nat.succ_le_succ (hlength.trans hskipped)

theorem Tour.slice {fresh : Bool} {first count k : Nat}
    (h : (stepped fresh k (.take count (.drop first t))).Tour ms) :
    ∃ drawn, t.Tour drawn ∧ MadeOf ms drawn ∧
      drawn.length ≤ if count = 0 then 0 else first + count := by
  obtain ⟨picked, hpicked, hmade, -⟩ := (isLayer_stepped k).exists_tour h
  obtain ⟨taken, htaken, hmade', hcount⟩ := isLayer_take.exists_tour hpicked
  obtain ⟨drawn, htour, hmade'', hlength⟩ := isLayer_drop.exists_tour htaken
  refine ⟨drawn, htour, (hmade.trans hmade').trans hmade'', ?_⟩
  simp only [id, Nat.zero_mul, Nat.add_zero, Nat.one_mul] at hcount hlength
  split
  · next hzero =>
      rw [hzero, Nat.le_zero, List.length_eq_zero_iff] at hcount
      subst hcount
      cases hmade''
      exact Nat.zero_le _
  · omega

end Layers

end Traversal

namespace Sequence

open Traversal

/-- A traversal of the array only moves on a traversal of the source, and that at most `bound`
times. -/
def DrawsAtMost (bound : Nat) (s source : Sequence) : Prop :=
  ∀ ⦃st o⦄, Reaches s.traverse st o → ∃ o', Reaches source.traverse st o' ∧
    Option.Rel (fun p q => p.2 = q.2 ∧ ∀ ms, p.1.Tour ms →
      ∃ drawn, q.1.Tour drawn ∧ MadeOf ms drawn ∧ drawn.length ≤ bound) o o'

/-- A computation starts a traversal of the array and moves it on at most `bound` times. What it
then gets to is decided by the last item alone: it is forced if it is an element. -/
inductive Selects (bound : Nat) (s : Sequence) (st : Store) :
    Option (Except RuntimeError Value × Store) → Prop
  | unstarted (h : Reaches s.traverse st none) : Selects bound s st none
  | stuck {t : Traversal} {st₁ : Store} {drawn : List Move}
      (hstart : Reaches s.traverse st (some (t, st₁))) (hmoves : t.Moves st₁ drawn none)
      (hbound : drawn.length ≤ bound) : Selects bound s st none
  | item {t t' : Traversal} {st₁ st₂ : Store} {drawn : List Move}
      {o : Option (Except RuntimeError Value × Store)}
      (hstart : Reaches s.traverse st (some (t, st₁)))
      (hmoves : t.Moves st₁ drawn (some (t', st₂))) (hbound : drawn.length ≤ bound)
      (h : Reaches (fun R => (R.elementOrNone (lastItem drawn)).run) st₂ o) : Selects bound s st o

theorem drawsAtMost_take (n : Nat) (s : Sequence) : DrawsAtMost n (.take n s) s := by
  intro st o h
  obtain ⟨_ | ⟨t, st'⟩, hstart, rfl⟩ := h.map (steady_traverse s)
  · exact ⟨none, hstart, .none⟩
  · refine ⟨_, hstart, .some ⟨rfl, fun ms hms => ?_⟩⟩
    obtain ⟨drawn, htour, hmade, hlength⟩ := isLayer_take.exists_tour hms
    exact ⟨drawn, htour, hmade, by simpa using hlength⟩

theorem drawsAtMost_sliceOf (s : Sequence) {start : Option Int} {stop step : Int}
    (hstart : ∀ b ∈ start, 0 ≤ b) (hstop : 0 ≤ stop) (hstep : 0 < step) :
    DrawsAtMost (if stop ≤ start.getD 0 then 0 else stop.toNat)
      (sliceOf s start (some stop) step) s := by
  have hforward : (0 < step && start.all (0 ≤ ·) && (some stop).all (0 ≤ ·)) = true := by
    simpa [hstep, hstop, Option.all_eq_true] using hstart
  have hfirst : 0 ≤ start.getD 0 := by
    cases start with
    | none => exact le_refl _
    | some b => exact hstart b rfl
  rw [sliceOf, if_pos hforward]
  generalize start.getD 0 = first at hfirst
  intro st o h
  have hdrop := (steady_traverse s).bind fun t => .const (pure (Traversal.drop first.toNat t))
  obtain ⟨o₁, h₁, rfl⟩ := h.map (hdrop.bind fun t =>
    .const (pure (Traversal.take (stop.toNat - first.toNat) t)))
  obtain ⟨o₂, h₂, rfl⟩ := h₁.map hdrop
  obtain ⟨_ | ⟨t, st'⟩, hsource, rfl⟩ := h₂.map (steady_traverse s)
  · exact ⟨none, hsource, .none⟩
  · refine ⟨_, hsource, .some ⟨rfl, fun ms hms => ?_⟩⟩
    obtain ⟨drawn, htour, hmade, hlength⟩ := Tour.slice hms
    refine ⟨drawn, htour, hmade, hlength.trans ?_⟩
    split <;> split <;> omega

theorem selects_elementAt (s : Sequence) {position : Int} (hposition : 0 ≤ position) {st : Store}
    {o : Option (Except RuntimeError Value × Store)}
    (h : Reaches (fun R => (R.elementAt s position).run) st o) :
    Selects (position.toNat + 1) s st o := by
  have hrun (R : Runner) : (R.elementAt s position).run = s.traverse R >>= fun t =>
      t.ahead R position.toNat >>= fun p => (R.elementOrNone p.1).run := by
    rw [elementAt, if_pos hposition, ExceptT.run_bind_lift]
    simp only [ExceptT.run_bind_lift]
  simp only [hrun] at h
  have hitem (p : Option Item × Traversal) := steady_elementOrNone p.1
  obtain ⟨_ | ⟨t, st₁⟩, hstart, h⟩ := h.bind (steady_traverse s) fun t =>
    (steady_ahead _ t).bind hitem
  · subst h
    exact .unstarted hstart
  · obtain ⟨_ | ⟨⟨item, t'⟩, st₂⟩, hahead, h⟩ := Reaches.bind (steady_ahead _ t) hitem h
    all_goals obtain ⟨m, part, hlength, hmoves, hlast⟩ := exists_moves_ahead hahead
    · subst h
      exact .stuck hstart hmoves (Nat.succ_le_succ hlength)
    · refine .item hstart hmoves (Nat.succ_le_succ hlength) ?_
      rwa [hlast]

end Sequence

namespace Runner

/-- Forcing the lazy values one after the other gives these values. -/
inductive Forces (R : Runner) : Store → List Ref → List Value → Store → Prop
  | nil (st : Store) : Forces R st [] [] st
  | cons {st st₁ st₂ : Store} {r : Ref} {refs : List Ref} {v : Value} {vs : List Value}
      (h : (R.force r).run st = some (.ok v, st₁)) (hrest : Forces R st₁ refs vs st₂) :
      Forces R st (r :: refs) (v :: vs) st₂

section Arguments

variable {R : Runner} {n m : Nat} {st st₁ st₂ : Store} {r : Ref} {refs : List Ref}
  {vs : List Value} {α : Type}

theorem Forces.of_le (hle : n ≤ m) (h : (ofFuel n).Forces st refs vs st₁) :
    (ofFuel m).Forces st refs vs st₁ := by
  induction h with
  | nil st => exact .nil st
  | cons h _ ih => exact .cons (steady_force _ hle h) ih

/-- What a computation gets to is what it gets to after its arguments have been forced. -/
theorem Forces.reaches {x y : Runner → Run α} {o : Option (α × Store)}
    (hforces : (ofFuel n).Forces st refs vs st₁) (hx : Steady x) (hy : Steady y)
    (heq : ∀ R : Runner, R.Forces st refs vs st₁ → x R st = y R st₁) (h : Reaches x st o) :
    Reaches y st₁ o :=
  h.congr hx hy fun _ hle => heq _ (hforces.of_le hle)

theorem forceSequence_of_array {s : Sequence} (operation : String)
    (h : (R.force r).run st = some (.ok (.array s), st₁)) :
    (R.forceSequence operation r).run st = some (.ok s, st₁) :=
  Eval.bind_of_eq_ok h

theorem forceInteger_of_integer {i : Int64} (operation : String)
    (h : (R.force r).run st = some (.ok (.integer i), st₁)) :
    (R.forceInteger operation r).run st = some (.ok i.toInt, st₁) :=
  Eval.bind_of_eq_ok h

theorem forceCount_of_integer {i : Int64} (operation : String)
    (h : (R.force r).run st = some (.ok (.integer i), st₁)) :
    (R.forceCount operation r).run st = some (.ok i.toInt.toNat, st₁) :=
  Eval.bind_of_eq_ok (forceInteger_of_integer operation h)

theorem forceBound_of_elim (bound : Option Int64) (operation : String)
    (h : (R.force r).run st = some (.ok (bound.elim .none .integer), st₁)) :
    (R.forceBound operation r).run st = some (.ok (bound.map Int64.toInt), st₁) := by
  refine (Eval.bind_of_eq_ok h).trans ?_
  cases bound <;> rfl

end Arguments

section Access

variable {n : Nat} {st st₁ : Store} {s : Sequence} {o : Option (Except RuntimeError Value × Store)}

theorem drawsAtMost_of_take {count xs : Ref} {k : Int64}
    (hforces : (ofFuel n).Forces st [count, xs] [.integer k, .array s] st₁)
    (h : Reaches (fun R => (R.runBuiltin .take [count, xs]).run) st o) :
    ∃ taken, o = some (.ok (.array taken), st₁) ∧ taken.DrawsAtMost (max k.toInt 0).toNat s := by
  have hrun : Reaches (fun _ => pure (.ok (.array (.take k.toInt.toNat s)))) st₁ o := by
    refine hforces.reaches (steady_runBuiltin _ _) (.const _) (fun R hR => ?_) h
    obtain _ | ⟨hcount, _ | ⟨hxs, ⟨⟩⟩⟩ := hR
    exact (Eval.bind_of_eq_ok (forceCount_of_integer _ hcount)).trans
      (Eval.bind_of_eq_ok (forceSequence_of_array _ hxs))
  have hmax : (max k.toInt 0).toNat = k.toInt.toNat := by omega
  refine ⟨_, hrun.eq_of_const, ?_⟩
  rw [hmax]
  exact Sequence.drawsAtMost_take _ s

theorem drawsAtMost_of_slice {xs a b c : Ref} {start step : Option Int64} {stop : Int64}
    (hforces : (ofFuel n).Forces st [xs, a, b, c] [.array s, start.elim .none .integer,
      .integer stop, step.elim .none .integer] st₁)
    (hstart : ∀ i ∈ start, 0 ≤ i) (hstop : 0 ≤ stop) (hstep : ∀ i ∈ step, 0 < i)
    (h : Reaches (fun R => (R.runBuiltin .slice [xs, a, b, c]).run) st o) :
    ∃ sliced, o = some (.ok (.array sliced), st₁) ∧
      sliced.DrawsAtMost (if stop ≤ start.getD 0 then 0 else stop.toInt.toNat) s := by
  have hpositive : 0 < (step.map Int64.toInt).getD 1 := by
    cases step with
    | none => exact Int.one_pos
    | some i => exact Int64.lt_iff_toInt_lt.1 (hstep i rfl)
  have hfirst : (start.map Int64.toInt).getD 0 = (start.getD 0).toInt := by
    cases start <;> rfl
  have hrun : Reaches (fun _ => pure (.ok (.array (sliceOf s (start.map Int64.toInt)
      (some stop.toInt) ((step.map Int64.toInt).getD 1))))) st₁ o := by
    refine hforces.reaches (steady_runBuiltin _ _) (.const _) (fun R hR => ?_) h
    obtain _ | ⟨hxs, _ | ⟨ha, _ | ⟨hb, _ | ⟨hc, ⟨⟩⟩⟩⟩⟩ := hR
    refine (Eval.bind_of_eq_ok (forceSequence_of_array _ hxs)).trans ?_
    refine (Eval.bind_of_eq_ok (forceBound_of_elim start _ ha)).trans ?_
    refine (Eval.bind_of_eq_ok (forceBound_of_elim (some stop) _ hb)).trans ?_
    refine (Eval.bind_of_eq_ok (forceBound_of_elim step _ hc)).trans ?_
    rw [if_neg (Int.ne_of_gt hpositive)]
    rfl
  refine ⟨_, hrun.eq_of_const, ?_⟩
  simp only [Int64.le_iff_toInt_le, ← hfirst]
  refine Sequence.drawsAtMost_sliceOf s ?_ (Int64.le_iff_toInt_le.1 hstop) hpositive
  simpa [Int64.le_iff_toInt_le] using hstart

theorem selects_of_index {xs i : Ref} {position : Int64}
    (hforces : (ofFuel n).Forces st [xs, i] [.array s, .integer position] st₁)
    (hposition : 0 ≤ position)
    (h : Reaches (fun R => (R.runBuiltin .index [xs, i]).run) st o) :
    s.Selects (position.toInt.toNat + 1) st₁ o := by
  refine s.selects_elementAt (Int64.le_iff_toInt_le.1 hposition) ?_
  refine hforces.reaches (steady_runBuiltin _ _) (steady_elementAt s _) (fun R hR => ?_) h
  obtain _ | ⟨hxs, _ | ⟨hi, ⟨⟩⟩⟩ := hR
  exact (Eval.bind_of_eq_ok (forceSequence_of_array _ hxs)).trans
    (Eval.bind_of_eq_ok (forceInteger_of_integer _ hi))

/-- The first element is the one at position zero. -/
theorem selects_of_head {xs : Ref} (hforces : (ofFuel n).Forces st [xs] [.array s] st₁)
    (h : Reaches (fun R => (R.runBuiltin .head [xs]).run) st o) : s.Selects 1 st₁ o := by
  refine s.selects_elementAt (le_refl 0) ?_
  refine hforces.reaches (steady_runBuiltin _ _) (steady_elementAt s 0) (fun R hR => ?_) h
  obtain _ | ⟨hxs, ⟨⟩⟩ := hR
  refine (Eval.bind_of_eq_ok (forceSequence_of_array _ hxs)).trans ?_
  rw [elementAt, if_pos (le_refl 0), ExceptT.run_bind_lift, ExceptT.run_bind_lift, bind_assoc]
  simp only [ExceptT.run_bind_lift]
  rfl

/-- Access to an array is bounded, however far it goes on. Taking some elements of it, or a slice
with a positive step and no bound below zero, gives an array of which a traversal moves a traversal
of the source on at most so often, does nothing else and forces none of the items. An element by its
position, or the first one, is found in as many moves as its place says, and of the items only that
one is forced. -/
theorem bounded_access :
    (∀ {count xs : Ref} {k : Int64},
      (ofFuel n).Forces st [count, xs] [.integer k, .array s] st₁ →
      Reaches (fun R => (R.runBuiltin .take [count, xs]).run) st o →
      ∃ taken, o = some (.ok (.array taken), st₁) ∧ taken.DrawsAtMost (max k.toInt 0).toNat s) ∧
    (∀ {xs a b c : Ref} {start step : Option Int64} {stop : Int64},
      (ofFuel n).Forces st [xs, a, b, c] [.array s, start.elim .none .integer, .integer stop,
        step.elim .none .integer] st₁ →
      (∀ i ∈ start, 0 ≤ i) → 0 ≤ stop → (∀ i ∈ step, 0 < i) →
      Reaches (fun R => (R.runBuiltin .slice [xs, a, b, c]).run) st o →
      ∃ sliced, o = some (.ok (.array sliced), st₁) ∧
        sliced.DrawsAtMost (if stop ≤ start.getD 0 then 0 else stop.toInt.toNat) s) ∧
    (∀ {xs i : Ref} {position : Int64},
      (ofFuel n).Forces st [xs, i] [.array s, .integer position] st₁ → 0 ≤ position →
      Reaches (fun R => (R.runBuiltin .index [xs, i]).run) st o →
      s.Selects (position.toInt.toNat + 1) st₁ o) ∧
    ∀ {xs : Ref}, (ofFuel n).Forces st [xs] [.array s] st₁ →
      Reaches (fun R => (R.runBuiltin .head [xs]).run) st o → s.Selects 1 st₁ o :=
  ⟨drawsAtMost_of_take, drawsAtMost_of_slice, selects_of_index, selects_of_head⟩

end Access

/-- Two numbers, no bound, and the array of all numbers from the first one on. -/
def counting : Store :=
  ⟨#[.done (.ok (.integer 0)), .done (.ok (.integer 2)), .done (.ok .none),
    .done (.ok (.array (.integers 0 (Nat.pow 2 63))))], #[]⟩

/-- Of all numbers, two are pulled for the first two and for every other one before two, three for
the one at position two, and one for the first. -/
theorem bounded_access_counting :
    Sequence.DrawsAtMost 2 (.take 2 (.integers 0 (Nat.pow 2 63))) (.integers 0 (Nat.pow 2 63)) ∧
      Sequence.DrawsAtMost 2 (sliceOf (.integers 0 (Nat.pow 2 63)) none (some 2) 2)
        (.integers 0 (Nat.pow 2 63)) ∧
      (∃ st, Sequence.Selects 3 (.integers 0 (Nat.pow 2 63)) counting
        (some (.ok (.integer 2), st))) ∧
      ∃ st, Sequence.Selects 1 (.integers 0 (Nat.pow 2 63)) counting
        (some (.ok (.integer 0), st)) := by
  have htwo : ((ofFuel 1).force ⟨1⟩).run counting = some (.ok (.integer 2), counting) := rfl
  have hnone : ((ofFuel 1).force ⟨2⟩).run counting = some (.ok .none, counting) := rfl
  have hxs : ((ofFuel 1).force ⟨3⟩).run counting =
      some (.ok (.array (.integers 0 (Nat.pow 2 63))), counting) := rfl
  have hbounds : (ofFuel 1).Forces counting [⟨3⟩, ⟨2⟩, ⟨1⟩, ⟨1⟩]
      [.array (.integers 0 (Nat.pow 2 63)), (none : Option Int64).elim .none .integer, .integer 2,
        (some (2 : Int64)).elim .none .integer] counting :=
    .cons hxs (.cons hnone (.cons htwo (.cons htwo (.nil _))))
  obtain ⟨_, ⟨⟩, htake⟩ :=
    bounded_access.1 (.cons htwo (.cons hxs (.nil _))) (.of_eq (n := 1) rfl)
  obtain ⟨_, ⟨⟩, hslice⟩ := bounded_access.2.1 hbounds nofun (by decide) (by simp)
    (.of_eq (n := 1) rfl)
  exact ⟨htake, hslice,
    ⟨_, bounded_access.2.2.1 (.cons hxs (.cons htwo (.nil _))) (by decide) (.of_eq (n := 3) rfl)⟩,
    ⟨_, bounded_access.2.2.2 (.cons hxs (.nil _)) (.of_eq (n := 2) rfl)⟩⟩

end Runner

end LazyLang
