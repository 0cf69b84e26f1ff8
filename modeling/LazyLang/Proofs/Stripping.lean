import LazyLang.Evaluation.Plain

/-!
# Stripping within a limit

A limit on the elements that are taken from any one array changes nothing as long as no array has
more of them, and otherwise makes stripping fail (`Runner.strip_limit`). To say so, the runs of
`stripValue` are described with the arrays that they go through (`Runner.Strips`): of each array it
is kept how many items were pulled and how many of these forced. With a limit, one item more than it
is pulled at most, and that one is not forced.
-/

namespace LazyLang

/-- The plain form of a value that is no array. -/
def Value.single : Value → Option Plain
  | integer i => some (.integer i)
  | float x => some (if x.isFinite then .float x else .null)
  | string s => some (.string s)
  | boolean b => some (.boolean b)
  | none => some .null
  | function _ | array _ => Option.none

/-- What was taken from an array: the number of items pulled and of elements forced. -/
structure ArrayVisit where
  pulled : Nat
  forced : Nat

namespace ArrayVisit

/-- Nothing was taken yet. -/
def start : ArrayVisit := ⟨0, 0⟩

/-- An item was pulled that was not forced. -/
def glance : ArrayVisit := ⟨1, 0⟩

/-- One more element was pulled and forced. -/
def andOne (a : ArrayVisit) : ArrayVisit := ⟨a.pulled + 1, a.forced + 1⟩

theorem add_pulled_andOne (count : Nat) (a : ArrayVisit) :
    count + a.andOne.pulled = count + 1 + a.pulled := by
  change count + (a.pulled + 1) = _
  omega

theorem add_forced_andOne (count : Nat) (a : ArrayVisit) :
    count + a.andOne.forced = count + 1 + a.forced := by
  change count + (a.forced + 1) = _
  omega

end ArrayVisit

namespace Runner

/-- The limit, if there is one, allows an item after `count` others. -/
def Allows (limit : Option Nat) (count : Nat) : Prop := ∀ most ∈ limit, count < most

theorem allows_none (count : Nat) : Allows none count := fun _ hno => nomatch hno

theorem allows_some {count most : Nat} (h : count < most) : Allows (some most) count :=
  fun _ heq => Option.mem_some.1 heq ▸ h

mutual

/-- Stripping `v` with some fuel comes to the outcome. The visits are those of the arrays gone
through, an array before those inside it. -/
inductive Strips (R : Runner) (limit : Option Nat) :
    Nat → Value → Store → Except RuntimeError (Option Plain) → List ArrayVisit → Store → Prop
  | single {fuel : Nat} {v : Value} (st : Store) (hv : ∀ s, v ≠ .array s) :
      Strips R limit (fuel + 1) v st (.ok v.single) [] st
  | array {fuel : Nat} {s : Sequence} {t : Traversal} {st st₁ st' : Store}
      {outcome : Except RuntimeError (List Plain)} {visit : ArrayVisit} {visits : List ArrayVisit}
      (htraverse : s.traverse R st = some (t, st₁))
      (h : StripsItems R limit fuel R.fuel 0 t st₁ outcome visit visits st') :
      Strips R limit (fuel + 1) (.array s) st (outcome.map fun items => some (.array items))
        (visit :: visits) st'

/-- Stripping what is left of an array after `count` items, with fuel for the elements and for the
items, comes to the outcome. The first visit is that of the array, the others are those of the
arrays inside it. -/
inductive StripsItems (R : Runner) (limit : Option Nat) :
    Nat → Nat → Nat → Traversal → Store → Except RuntimeError (List Plain) → ArrayVisit →
      List ArrayVisit → Store → Prop
  | ended {fuel n count : Nat} {t t' : Traversal} {st st' : Store}
      (hnext : R.next t st = some ((none, t'), st')) :
      StripsItems R limit fuel (n + 1) count t st (.ok []) .start [] st'
  | beyond {fuel n count most : Nat} {t t' : Traversal} {st st' : Store} {item : Item}
      (hnext : R.next t st = some ((some item, t'), st')) (hlimit : limit = some most)
      (hcount : most ≤ count) :
      StripsItems R limit fuel (n + 1) count t st (.error (.limitExceeded most)) .glance [] st'
  | missing {fuel n count : Nat} {t t' : Traversal} {st st' : Store} {e : RuntimeError}
      (hnext : R.next t st = some ((some (.error e), t'), st')) (hallows : Allows limit count) :
      StripsItems R limit fuel (n + 1) count t st (.error e) .glance [] st'
  | failed {fuel n count : Nat} {t t' : Traversal} {st st₁ st' : Store} {r : Ref}
      {e : RuntimeError} (hnext : R.next t st = some ((some (.ok r), t'), st₁))
      (hallows : Allows limit count) (hforce : (R.force r).run st₁ = some (.error e, st')) :
      StripsItems R limit fuel (n + 1) count t st (.error e) ArrayVisit.start.andOne [] st'
  | failedInside {fuel n count : Nat} {t t' : Traversal} {st st₁ st₂ st' : Store} {r : Ref}
      {v : Value} {e : RuntimeError} {visits : List ArrayVisit}
      (hnext : R.next t st = some ((some (.ok r), t'), st₁)) (hallows : Allows limit count)
      (hforce : (R.force r).run st₁ = some (.ok v, st₂))
      (helement : Strips R limit fuel v st₂ (.error e) visits st') :
      StripsItems R limit fuel (n + 1) count t st (.error e) ArrayVisit.start.andOne visits st'
  | element {fuel n count : Nat} {t t' : Traversal} {st st₁ st₂ st₃ st' : Store} {r : Ref}
      {v : Value} {plain : Option Plain} {outcome : Except RuntimeError (List Plain)}
      {visit : ArrayVisit} {visits later : List ArrayVisit}
      (hnext : R.next t st = some ((some (.ok r), t'), st₁)) (hallows : Allows limit count)
      (hforce : (R.force r).run st₁ = some (.ok v, st₂))
      (helement : Strips R limit fuel v st₂ (.ok plain) visits st₃)
      (hrest : StripsItems R limit fuel n (count + 1) t' st₃ outcome visit later st') :
      StripsItems R limit fuel (n + 1) count t st (outcome.map (plain.toList ++ ·)) visit.andOne
        (visits ++ later) st'

end

variable {R : Runner} {limit : Option Nat} {fuel n count most : Nat} {v : Value} {t t' : Traversal}
  {st st₁ st' : Store} {items : List Plain}

section Running

theorem checkLimit_of_allows (h : Allows limit count) : checkLimit limit count = pure () := by
  cases limit with
  | none => rfl
  | some most => exact if_neg (Nat.not_le_of_lt (h most rfl))

theorem checkLimit_of_le (h : most ≤ count) :
    checkLimit (some most) count = throw (.limitExceeded most) := if_pos h

theorem stripValue_single (hv : ∀ s, v ≠ .array s) :
    R.stripValue limit (fuel + 1) v = pure v.single := by
  cases v with
  | array s => exact absurd rfl (hv s)
  | _ => rfl

/-- Stripping what is left of an array as `stripValue` does it, after `count` items. -/
def stripFrom (R : Runner) (limit : Option Nat) (fuel n : Nat) (t : Traversal) (count : Nat)
    (items : List Plain) : Eval (Nat × List Plain) :=
  R.foldItems (fun (count, items) item => do
    checkLimit limit count
    match ← R.stripValue limit fuel (← R.force (← item)) with
    | some plain => return .yield (count + 1, plain :: items)
    | none => return .yield (count + 1, items)) n t (count, items)

theorem stripValue_array (s : Sequence) :
    R.stripValue limit (fuel + 1) (.array s) = do
      let t ← ExceptT.lift (s.traverse R)
      let (_, items) ← R.stripFrom limit fuel R.fuel t 0 []
      return some (.array items.reverse) := by
  rw [stripValue, fold, bind_assoc]
  rfl

theorem stripValue_array_eq_some {s : Sequence} {outcome : Except RuntimeError (Option Plain)} :
    (R.stripValue limit (fuel + 1) (.array s)).run st = some (outcome, st') ↔
      ∃ t st₁ o, s.traverse R st = some (t, st₁) ∧
        (R.stripFrom limit fuel R.fuel t 0 []).run st₁ = some (o, st') ∧
          outcome = o.map fun gathered => some (.array gathered.2.reverse) := by
  rw [stripValue_array]
  constructor
  · intro h
    cases htraverse : s.traverse R st with
    | none =>
        change ((s.traverse R st).bind _).bind _ = _ at h
        rw [htraverse] at h
        cases h
    | some started =>
        rw [Eval.bind_of_eq_ok (Eval.lift_eq_ok.2 htraverse)] at h
        obtain ⟨e, hitems, rfl⟩ | ⟨gathered, st₂, hitems, h⟩ := Eval.bind_eq_some.1 h
        · exact ⟨_, _, _, rfl, hitems, rfl⟩
        · cases h
          exact ⟨_, _, _, rfl, hitems, rfl⟩
  · rintro ⟨t, st₁, o, htraverse, hitems, rfl⟩
    rw [Eval.bind_of_eq_ok (Eval.lift_eq_ok.2 htraverse)]
    cases o with
    | error e => exact Eval.bind_of_eq_error hitems
    | ok gathered => exact Eval.bind_of_eq_ok hitems

theorem stripFrom_of_none (hnext : R.next t st = some ((none, t'), st')) :
    (R.stripFrom limit fuel (n + 1) t count items).run st = some (.ok (count, items), st') :=
  Eval.bind_of_eq_ok (Eval.lift_eq_ok.2 hnext)

/-- An item beyond the limit is not looked at. -/
theorem stripFrom_of_le {item : Item} (hnext : R.next t st = some ((some item, t'), st'))
    (h : most ≤ count) :
    (R.stripFrom (some most) fuel (n + 1) t count items).run st =
      some (.error (.limitExceeded most), st') := by
  refine (Eval.bind_of_eq_ok (Eval.lift_eq_ok.2 hnext)).trans (Eval.bind_of_eq_error ?_)
  simp only [checkLimit_of_le h]
  rfl

theorem stripFrom_of_error {e : RuntimeError}
    (hnext : R.next t st = some ((some (.error e), t'), st')) (h : Allows limit count) :
    (R.stripFrom limit fuel (n + 1) t count items).run st = some (.error e, st') := by
  refine (Eval.bind_of_eq_ok (Eval.lift_eq_ok.2 hnext)).trans (Eval.bind_of_eq_error ?_)
  simp only [checkLimit_of_allows h]
  rfl

theorem stripFrom_of_ok {r : Ref} (hnext : R.next t st = some ((some (.ok r), t'), st₁))
    (h : Allows limit count) :
    (R.stripFrom limit fuel (n + 1) t count items).run st = (do
      let plain ← R.stripValue limit fuel (← R.force r)
      R.stripFrom limit fuel n t' (count + 1) (plain.toList ++ items) : Eval _).run st₁ := by
  refine (Eval.bind_of_eq_ok (Eval.lift_eq_ok.2 hnext)).trans ?_
  have hitem : (liftM (Except.ok r : Item) : Eval Ref) = pure r := rfl
  simp only [checkLimit_of_allows h, hitem, pure_bind, bind_assoc]
  refine congrArg (fun x : Eval _ => x.run st₁) ?_
  refine bind_congr fun v => bind_congr fun plain => ?_
  cases plain <;> rfl

theorem stripFrom_of_outOfFuel (hnext : R.next t st = none) :
    (R.stripFrom limit fuel (n + 1) t count items).run st = none := by
  rw [stripFrom, foldItems]
  change ((R.next t st).bind _).bind _ = none
  rw [hnext]
  rfl

theorem allows_or (limit : Option Nat) (count : Nat) :
    Allows limit count ∨ ∃ most, limit = some most ∧ most ≤ count := by
  cases limit with
  | none => exact .inl (allows_none count)
  | some most =>
      rcases Nat.lt_or_ge count most with hlt | hle
      · exact .inl (allows_some hlt)
      · exact .inr ⟨most, rfl, hle⟩

/-- What is gathered in reverse order, one plain form or none at a time. -/
theorem reverse_toList_append (plain : Option Plain) (plains items : List Plain) :
    (plain.toList ++ plains).reverse ++ items = plains.reverse ++ (plain.toList ++ items) := by
  cases plain <;> simp

end Running

section Description

variable {o : Except RuntimeError (Nat × List Plain)} {outcome : Except RuntimeError (Option Plain)}
  {stripped : Except RuntimeError (List Plain)} {visit : ArrayVisit} {visits : List ArrayVisit}

-- An array inside another one is stripped with less fuel, while the items of one array are gone
-- through with the fuel of the runner. So each result about `StripsItems` is an induction on that
-- fuel and takes the result for the elements as a hypothesis, which the induction on the other fuel
-- then gives.

/-- Every run over the items of an array is described, if those over the elements are. -/
theorem exists_stripsItems
    (helement : ∀ {v outcome st st'},
      (R.stripValue limit fuel v).run st = some (outcome, st') →
        ∃ visits, R.Strips limit fuel v st outcome visits st')
    (h : (R.stripFrom limit fuel n t count items).run st = some (o, st')) :
    ∃ stripped visit visits, R.StripsItems limit fuel n count t st stripped visit visits st' ∧
      o.map Prod.snd = stripped.map (·.reverse ++ items) := by
  induction n generalizing t st count items with
  | zero => cases h
  | succ n ih =>
      cases hnext : R.next t st with
      | none =>
          rw [stripFrom_of_outOfFuel hnext] at h
          cases h
      | some moved =>
          obtain ⟨⟨_ | item, t₁⟩, st₁⟩ := moved
          · rw [stripFrom_of_none hnext] at h
            cases h
            exact ⟨_, _, _, .ended hnext, rfl⟩
          · rcases allows_or limit count with hallows | ⟨most, rfl, hle⟩
            · cases item with
              | error e =>
                  rw [stripFrom_of_error hnext hallows] at h
                  cases h
                  exact ⟨_, _, _, .missing hnext hallows, rfl⟩
              | ok r =>
                  rw [stripFrom_of_ok hnext hallows] at h
                  obtain ⟨e, hforce, rfl⟩ | ⟨v, st₂, hforce, h⟩ := Eval.bind_eq_some.1 h
                  · exact ⟨_, _, _, .failed hnext hallows hforce, rfl⟩
                  obtain ⟨e, hv, rfl⟩ | ⟨plain, st₃, hv, h⟩ := Eval.bind_eq_some.1 h
                  · obtain ⟨visits, hv⟩ := helement hv
                    exact ⟨_, _, _, .failedInside hnext hallows hforce hv, rfl⟩
                  · obtain ⟨visits, hv⟩ := helement hv
                    obtain ⟨stripped, visit, later, hrest, heq⟩ := ih h
                    refine ⟨_, _, _, .element hnext hallows hforce hv hrest, heq.trans ?_⟩
                    cases stripped with
                    | error e => rfl
                    | ok plains => exact congrArg Except.ok (reverse_toList_append ..).symm
            · rw [stripFrom_of_le hnext hle] at h
              cases h
              exact ⟨_, _, _, .beyond hnext rfl hle, rfl⟩

/-- Every run of `stripValue` is described. -/
theorem exists_strips (h : (R.stripValue limit fuel v).run st = some (outcome, st')) :
    ∃ visits, R.Strips limit fuel v st outcome visits st' := by
  induction fuel generalizing v outcome st st' with
  | zero => cases h
  | succ fuel ih =>
      cases v with
      | array s =>
          obtain ⟨t, st₁, o, htraverse, hitems, rfl⟩ := stripValue_array_eq_some.1 h
          obtain ⟨stripped, visit, visits, hstrips, heq⟩ := exists_stripsItems ih hitems
          have houtcome : o.map (fun gathered => some (Plain.array gathered.2.reverse)) =
              stripped.map fun plains => some (.array plains) := by
            cases o <;> cases stripped <;> simp_all [Except.map]
          rw [houtcome]
          exact ⟨_, .array htraverse hstrips⟩
      | _ =>
          cases h
          exact ⟨[], .single st nofun⟩

theorem StripsItems.run_eq
    (helement : ∀ {v outcome visits st st'}, R.Strips limit fuel v st outcome visits st' →
        (R.stripValue limit fuel v).run st = some (outcome, st'))
    (h : R.StripsItems limit fuel n count t st stripped visit visits st') (items : List Plain) :
    (R.stripFrom limit fuel n t count items).run st =
      some (stripped.map fun plains => (count + visit.pulled, plains.reverse ++ items), st') := by
  induction n generalizing count t st stripped visit visits items with
  | zero => cases h
  | succ n ih =>
      cases h with
      | ended hnext => exact stripFrom_of_none hnext
      | beyond hnext hlimit hcount =>
          subst hlimit
          exact stripFrom_of_le hnext hcount
      | missing hnext hallows => exact stripFrom_of_error hnext hallows
      | failed hnext hallows hforce =>
          exact (stripFrom_of_ok hnext hallows).trans (Eval.bind_of_eq_error hforce)
      | failedInside hnext hallows hforce hv =>
          refine (stripFrom_of_ok hnext hallows).trans ((Eval.bind_of_eq_ok hforce).trans ?_)
          exact Eval.bind_of_eq_error (helement hv)
      | @element _ _ _ _ _ _ _ _ _ _ _ _ plain outcome _ _ _ hnext hallows hforce hv hrest =>
          refine (stripFrom_of_ok hnext hallows).trans ((Eval.bind_of_eq_ok hforce).trans ?_)
          refine (Eval.bind_of_eq_ok (helement hv)).trans ((ih hrest _).trans ?_)
          cases outcome with
          | error e => rfl
          | ok plains =>
              simp only [Except.map, ArrayVisit.add_pulled_andOne, reverse_toList_append]

/-- What is described is a run. -/
theorem Strips.run_eq (h : R.Strips limit fuel v st outcome visits st') :
    (R.stripValue limit fuel v).run st = some (outcome, st') := by
  induction fuel generalizing v st outcome visits st' with
  | zero => cases h
  | succ fuel ih =>
      cases h with
      | single _ hv =>
          rw [stripValue_single hv]
          rfl
      | @array _ _ _ _ _ _ stripped _ _ htraverse h =>
          refine stripValue_array_eq_some.2 ⟨_, _, _, htraverse, h.run_eq ih [], ?_⟩
          cases stripped <;> simp [Except.map]

end Description

section Limit

variable {outcome : Except RuntimeError (Option Plain)}
  {stripped : Except RuntimeError (List Plain)} {visit : ArrayVisit} {visits : List ArrayVisit}

theorem StripsItems.bounded
    (helement : ∀ {v outcome visits st st'}, R.Strips (some most) fuel v st outcome visits st' →
        ∀ a ∈ visits, a.pulled ≤ most + 1 ∧ a.forced ≤ most)
    (h : R.StripsItems (some most) fuel n count t st stripped visit visits st')
    (hcount : count ≤ most) :
    (count + visit.pulled ≤ most + 1 ∧ count + visit.forced ≤ most) ∧
      ∀ a ∈ visits, a.pulled ≤ most + 1 ∧ a.forced ≤ most := by
  induction n generalizing count t st stripped visit visits with
  | zero => cases h
  | succ n ih =>
      cases h with
      | ended => exact ⟨⟨Nat.le_succ_of_le hcount, hcount⟩, nofun⟩
      | beyond => exact ⟨⟨Nat.succ_le_succ hcount, hcount⟩, nofun⟩
      | missing => exact ⟨⟨Nat.succ_le_succ hcount, hcount⟩, nofun⟩
      | failed _ hallows => exact ⟨⟨Nat.succ_le_succ hcount, hallows most rfl⟩, nofun⟩
      | failedInside _ hallows _ hv =>
          exact ⟨⟨Nat.succ_le_succ hcount, hallows most rfl⟩, helement hv⟩
      | @element _ _ _ _ _ _ _ _ _ _ _ _ _ _ visit _ _ _ hallows _ hv hrest =>
          obtain ⟨⟨hpulled, hforced⟩, hlater⟩ := ih hrest (hallows most rfl)
          refine ⟨⟨?_, ?_⟩, List.forall_mem_append.2 ⟨helement hv, hlater⟩⟩
          · rwa [ArrayVisit.add_pulled_andOne]
          · rwa [ArrayVisit.add_forced_andOne]

/-- Of no array is more pulled than the limit and one item, nor more forced than the limit. -/
theorem Strips.bounded (h : R.Strips (some most) fuel v st outcome visits st') :
    ∀ a ∈ visits, a.pulled ≤ most + 1 ∧ a.forced ≤ most := by
  induction fuel generalizing v st outcome visits st' with
  | zero => cases h
  | succ fuel ih =>
      cases h with
      | single => nofun
      | array _ h =>
          obtain ⟨hvisit, hinside⟩ := h.bounded ih (Nat.zero_le most)
          rw [Nat.zero_add, Nat.zero_add] at hvisit
          exact List.forall_mem_cons.2 ⟨hvisit, hinside⟩

theorem StripsItems.of_le
    (helement : ∀ {v outcome visits st st'}, R.Strips none fuel v st outcome visits st' →
        (∀ a ∈ visits, a.pulled ≤ most) → R.Strips (some most) fuel v st outcome visits st')
    (h : R.StripsItems none fuel n count t st stripped visit visits st')
    (hvisit : count + visit.pulled ≤ most) (hvisits : ∀ a ∈ visits, a.pulled ≤ most) :
    R.StripsItems (some most) fuel n count t st stripped visit visits st' := by
  induction n generalizing count t st stripped visit visits with
  | zero => cases h
  | succ n ih =>
      cases h with
      | ended hnext => exact .ended hnext
      | beyond _ hlimit => cases hlimit
      | missing hnext => exact .missing hnext (allows_some hvisit)
      | failed hnext _ hforce => exact .failed hnext (allows_some hvisit) hforce
      | failedInside hnext _ hforce hv =>
          exact .failedInside hnext (allows_some hvisit) hforce (helement hv hvisits)
      | @element _ _ _ _ _ _ _ _ _ _ _ _ _ _ visit _ _ hnext _ hforce hv hrest =>
          obtain ⟨hinside, hlater⟩ := List.forall_mem_append.1 hvisits
          rw [ArrayVisit.add_pulled_andOne] at hvisit
          exact .element hnext (allows_some (by omega)) hforce (helement hv hinside)
            (ih hrest hvisit hlater)

/-- A run in which no array has more items than the limit is a run within the limit. -/
theorem Strips.of_le (h : R.Strips none fuel v st outcome visits st')
    (hvisits : ∀ a ∈ visits, a.pulled ≤ most) :
    R.Strips (some most) fuel v st outcome visits st' := by
  induction fuel generalizing v st outcome visits st' with
  | zero => cases h
  | succ fuel ih =>
      cases h with
      | single _ hv => exact .single st hv
      | array htraverse h =>
          obtain ⟨hvisit, hinside⟩ := List.forall_mem_cons.1 hvisits
          exact .array htraverse (h.of_le ih (by rwa [Nat.zero_add]) hinside)

/-- Either the array has ended, or there is an item. -/
theorem StripsItems.exists_item
    (h : R.StripsItems limit fuel (n + 1) count t st stripped visit visits st') :
    visit = .start ∧ visits = [] ∨
      ∃ item t' st₁, R.next t st = some ((some item, t'), st₁) := by
  cases h with
  | ended => exact .inl ⟨rfl, rfl⟩
  | beyond hnext | missing hnext | failed hnext | failedInside hnext | element hnext =>
      exact .inr ⟨_, _, _, hnext⟩

theorem StripsItems.of_lt
    (helement : ∀ {v outcome visits st st'}, R.Strips none fuel v st outcome visits st' →
        (∃ a ∈ visits, most < a.pulled) → ∃ visits' st'',
          R.Strips (some most) fuel v st (.error (.limitExceeded most)) visits' st'')
    (h : R.StripsItems none fuel n count t st stripped visit visits st') (hcount : count ≤ most)
    (hvisit : most < count + visit.pulled ∨ ∃ a ∈ visits, most < a.pulled) :
    ∃ visit' visits' st'', R.StripsItems (some most) fuel n count t st
      (.error (.limitExceeded most)) visit' visits' st'' := by
  induction n generalizing count t st stripped visit visits with
  | zero => cases h
  | succ n ih =>
      obtain ⟨rfl, rfl⟩ | ⟨item, t₁, st₁, hitem⟩ := h.exists_item
      · rcases hvisit with hlt | ⟨_, hno, -⟩
        · exact absurd hlt (Nat.not_lt_of_le hcount)
        · cases hno
      by_cases hle : most ≤ count
      · exact ⟨_, _, _, .beyond hitem rfl hle⟩
      have hlt := Nat.lt_of_not_le hle
      have hallows : Allows (some most) count := allows_some hlt
      cases h with
      | ended hnext => cases hitem.symm.trans hnext
      | beyond _ hlimit => cases hlimit
      | missing | failed =>
          rcases hvisit with hone | ⟨_, hno, -⟩
          · exact absurd hone (Nat.not_lt_of_le hlt)
          · cases hno
      | failedInside hnext _ hforce hv =>
          rcases hvisit with hone | hinside
          · exact absurd hone (Nat.not_lt_of_le hlt)
          · obtain ⟨visits', st'', hv'⟩ := helement hv hinside
            exact ⟨_, _, _, .failedInside hnext hallows hforce hv'⟩
      | @element _ _ _ _ _ _ _ _ _ _ _ _ _ _ visit visits later hnext _ hforce hv hrest =>
          by_cases hinside : ∃ a ∈ visits, most < a.pulled
          · obtain ⟨visits', st'', hv'⟩ := helement hv hinside
            exact ⟨_, _, _, .failedInside hnext hallows hforce hv'⟩
          -- the element is within the limit, so it is a later one that is not
          have hwithin : ∀ a ∈ visits, a.pulled ≤ most :=
            fun a ha => Nat.le_of_not_lt fun hlt => hinside ⟨a, ha, hlt⟩
          have hlater : most < count + 1 + visit.pulled ∨ ∃ a ∈ later, most < a.pulled := by
            refine hvisit.imp (fun hmany => ?_) fun ⟨a, ha, hmany⟩ => ?_
            · rwa [ArrayVisit.add_pulled_andOne] at hmany
            · rcases List.mem_append.1 ha with hin | hin
              · exact absurd hmany (Nat.not_lt_of_le (hwithin a hin))
              · exact ⟨a, hin, hmany⟩
          obtain ⟨visit', visits', st'', hrest'⟩ := ih hrest hlt hlater
          exact ⟨_, _, _, .element hnext hallows hforce (hv.of_le hwithin) hrest'⟩

/-- Where an array has more items than the limit, the run within the limit fails at the first one
too many. -/
theorem Strips.of_lt (h : R.Strips none fuel v st outcome visits st')
    (hvisits : ∃ a ∈ visits, most < a.pulled) : ∃ visits' st'',
      R.Strips (some most) fuel v st (.error (.limitExceeded most)) visits' st'' := by
  induction fuel generalizing v st outcome visits st' with
  | zero => cases h
  | succ fuel ih =>
      cases h with
      | single =>
          obtain ⟨_, hno, -⟩ := hvisits
          cases hno
      | array htraverse h =>
          obtain ⟨a, ha, hmany⟩ := hvisits
          obtain ⟨visit', visits', st'', h'⟩ := h.of_lt ih (Nat.zero_le most) <|
            (List.mem_cons.1 ha).imp (fun heq => by rwa [Nat.zero_add, ← heq])
              fun hinside => ⟨a, hinside, hmany⟩
          exact ⟨_, _, .array htraverse h'⟩

theorem strip_eq_some_iff :
    (R.strip limit v).run st = some (outcome, st') ↔
      ∃ visits, R.Strips limit R.fuel v st outcome visits st' :=
  ⟨exists_strips, fun ⟨_, h⟩ => h.run_eq⟩

/-- A limit only ever makes stripping fail. Every run that ends goes through some arrays. Within a
limit, no more than one item over it is pulled from any of them, and no more than the limit forced.
If without a limit none of them has more items than `most`, functions counted, this limit changes
nothing, neither the outcome nor the store; otherwise the limit is what stripping fails with. -/
theorem strip_limit (R : Runner) (v : Value) (st : Store) (most : Nat) :
    (∀ limit outcome st', (R.strip limit v).run st = some (outcome, st') ↔
        ∃ visits, R.Strips limit R.fuel v st outcome visits st') ∧
      (∀ outcome visits st', R.Strips (some most) R.fuel v st outcome visits st' →
        ∀ a ∈ visits, a.pulled ≤ most + 1 ∧ a.forced ≤ most) ∧
      ∀ outcome visits st', R.Strips none R.fuel v st outcome visits st' →
        ((∀ a ∈ visits, a.pulled ≤ most) →
          (R.strip (some most) v).run st = some (outcome, st')) ∧
        ((∃ a ∈ visits, most < a.pulled) → ∃ st'',
          (R.strip (some most) v).run st = some (.error (.limitExceeded most), st'')) := by
  refine ⟨fun _ _ _ => strip_eq_some_iff, fun _ _ _ h => h.bounded, fun _ _ _ h => ⟨?_, ?_⟩⟩
  · exact fun hvisits => (h.of_le hvisits).run_eq
  · intro hvisits
    obtain ⟨visits', st'', h'⟩ := h.of_lt hvisits
    exact ⟨st'', h'.run_eq⟩

/-- An integer, an array that holds it twice, and a function. -/
def mixed : Store :=
  ⟨#[.done (.ok (.integer 1)), .done (.ok (.array (.values [⟨0⟩, ⟨0⟩]))),
    .done (.ok (.function (.ofBuiltin .identity 1)))], #[]⟩

/-- The array of all three has three items, of which one is left out. -/
theorem strip_limit_mixed :
    ((ofFuel 9).strip (some 3) (.array (.values [⟨0⟩, ⟨1⟩, ⟨2⟩]))).run mixed =
        some (.ok (some (.array [.integer 1, .array [.integer 1, .integer 1]])), mixed) ∧
      ∃ st, ((ofFuel 9).strip (some 2) (.array (.values [⟨0⟩, ⟨1⟩, ⟨2⟩]))).run mixed =
        some (.error (.limitExceeded 2), st) := by
  have hone (fuel : Nat) : (ofFuel 9).Strips none (fuel + 1) (.integer 1) mixed
      (.ok (some (.integer 1))) [] mixed := .single mixed nofun
  have hfunction : (ofFuel 9).Strips none 8 (.function (.ofBuiltin .identity 1)) mixed
      (.ok none) [] mixed := .single mixed nofun
  have hpair : (ofFuel 9).Strips none 8 (.array (.values [⟨0⟩, ⟨0⟩])) mixed
      (.ok (some (.array [.integer 1, .integer 1]))) [⟨2, 2⟩] mixed :=
    .array rfl <| .element rfl (allows_none 0) rfl (hone 6) <|
      .element rfl (allows_none 1) rfl (hone 6) <| .ended rfl
  have hall : (ofFuel 9).Strips none 9 (.array (.values [⟨0⟩, ⟨1⟩, ⟨2⟩])) mixed
      (.ok (some (.array [.integer 1, .array [.integer 1, .integer 1]]))) [⟨3, 3⟩, ⟨2, 2⟩] mixed :=
    .array rfl <| .element rfl (allows_none 0) rfl (hone 7) <|
      .element rfl (allows_none 1) rfl hpair <|
        .element rfl (allows_none 2) rfl hfunction <| .ended rfl
  exact ⟨((strip_limit (ofFuel 9) _ mixed 3).2.2 _ _ _ hall).1 (by decide),
    ((strip_limit (ofFuel 9) _ mixed 2).2.2 _ _ _ hall).2 ⟨_, .head _, by decide⟩⟩

end Limit

end Runner

end LazyLang
