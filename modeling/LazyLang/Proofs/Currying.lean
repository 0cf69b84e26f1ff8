import LazyLang.Evaluation.Builtins

/-!
# Arguments in portions

A function that is given some of its arguments, and placeholders for others, waits for the rest.
What it does then is what it does when it is given all of them at once, each where the first portion
left a slot open or after it (`joinArgs`). So it does not matter in how many portions a function
gets its arguments, and which slots they held before.
-/

namespace LazyLang

namespace Function

/-- The number of open slots among some slots or arguments. -/
def openCount (slots : List (Option Ref)) : Nat := slots.countP Option.isNone

@[simp] theorem openCount_nil : openCount [] = 0 := rfl

@[simp] theorem openCount_some (x : Ref) (slots : List (Option Ref)) :
    openCount (some x :: slots) = openCount slots := by
  simp [openCount]

@[simp] theorem openCount_none (slots : List (Option Ref)) :
    openCount (none :: slots) = openCount slots + 1 := by
  simp [openCount]

@[simp] theorem fillSlots_nil (slots : List (Option Ref)) : fillSlots slots [] = slots := by
  cases slots <;> rfl

@[simp] theorem fillSlots_of_nil (args : List (Option Ref)) : fillSlots [] args = [] := by
  cases args <;> rfl

@[simp] theorem fillSlots_some (x : Ref) (slots args : List (Option Ref)) :
    fillSlots (some x :: slots) args = some x :: fillSlots slots args := by
  cases args with
  | nil => simp
  | cons arg args => rfl

@[simp] theorem fillSlots_none (arg : Option Ref) (slots args : List (Option Ref)) :
    fillSlots (none :: slots) (arg :: args) = arg :: fillSlots slots args := rfl

/-- Each argument fills a slot, and each placeholder leaves one open. -/
theorem openCount_fillSlots {slots args : List (Option Ref)} (h : args.length ≤ openCount slots) :
    openCount (fillSlots slots args) + args.length = openCount slots + openCount args := by
  induction slots generalizing args with
  | nil =>
      have hargs : args = [] := List.eq_nil_of_length_eq_zero (Nat.le_zero.1 h)
      rw [hargs]
      rfl
  | cons slot slots ih =>
      cases slot with
      | some x => simpa using ih (by simpa using h)
      | none =>
          cases args with
          | nil => simp
          | cons arg args =>
              have ih : openCount (fillSlots slots args) + args.length =
                  openCount slots + openCount args := ih (by simpa using h)
              cases arg with
              | none =>
                  simp only [fillSlots_none, openCount_none, List.length_cons]
                  omega
              | some x =>
                  simp only [fillSlots_none, openCount_none, openCount_some, List.length_cons]
                  omega

/-- A placeholder leaves a slot open, and every other argument fills one. -/
theorem openCount_fillSlots_add {slots args : List (Option Ref)}
    (h : args.length ≤ openCount slots) :
    openCount (fillSlots slots args) + args.countP Option.isSome = openCount slots := by
  have hfilled := openCount_fillSlots h
  have hcount := List.length_eq_countP_add_countP Option.isSome (l := args)
  have hopen : args.countP (fun a => decide ¬a.isSome = true) = openCount args :=
    List.countP_congr fun a _ => by cases a <;> simp
  omega

/-- Two portions of arguments as one: those of `later` stand where `args` has placeholders, from
left to right, and after `args`. -/
def joinArgs : List (Option Ref) → List (Option Ref) → List (Option Ref)
  | [], later => later
  | some r :: args, later => some r :: joinArgs args later
  | none :: args, [] => none :: joinArgs args []
  | none :: args, arg :: later => arg :: joinArgs args later

theorem length_joinArgs (args later : List (Option Ref)) :
    (joinArgs args later).length = args.length + (later.length - openCount args) := by
  induction args generalizing later with
  | nil => simp [joinArgs]
  | cons arg args ih =>
      cases arg with
      | some r =>
          rw [joinArgs, openCount_some, List.length_cons, ih, List.length_cons]
          omega
      | none =>
          cases later with
          | nil =>
              rw [joinArgs, openCount_none, List.length_cons, ih, List.length_cons]
              simp
          | cons r later =>
              rw [joinArgs, openCount_none, List.length_cons, ih, List.length_cons,
                List.length_cons]
              omega

/-- Arguments in two portions fill the slots like all at once. -/
theorem fillSlots_joinArgs (slots args later : List (Option Ref)) :
    fillSlots (fillSlots slots args) later = fillSlots slots (joinArgs args later) := by
  induction slots generalizing args later with
  | nil => rw [fillSlots_of_nil, fillSlots_of_nil, fillSlots_of_nil]
  | cons slot slots ih =>
      cases slot with
      | some x => rw [fillSlots_some, fillSlots_some, fillSlots_some, ih]
      | none =>
          cases args with
          | nil => rfl
          | cons arg args =>
              cases arg with
              | some r => rw [fillSlots_none, fillSlots_some, joinArgs, fillSlots_none, ih]
              | none =>
                  cases later with
                  | nil =>
                      rw [fillSlots_none, fillSlots_nil, joinArgs, fillSlots_none, ← ih,
                        fillSlots_nil]
                  | cons r later =>
                      rw [fillSlots_none, fillSlots_none, joinArgs, fillSlots_none, ih]

theorem allFilled_eq_none {slots : List (Option Ref)} (h : 0 < openCount slots) :
    allFilled slots = none := by
  induction slots with
  | nil => cases h
  | cons slot slots ih =>
      cases slot with
      | none => rfl
      | some x =>
          rw [openCount_some] at h
          rw [allFilled, ih h]
          rfl

@[simp] theorem slots_withSlots (f : Function) (slots : List (Option Ref)) :
    (f.withSlots slots).slots = slots := by
  cases f <;> rfl

@[simp] theorem withSlots_withSlots (f : Function) (slots slots' : List (Option Ref)) :
    (f.withSlots slots).withSlots slots' = f.withSlots slots' := by
  cases f <;> rfl

@[simp] theorem name_withSlots (f : Function) (slots : List (Option Ref)) :
    (f.withSlots slots).name = f.name := by
  cases f <;> rfl

theorem supply_awaiting {f : Function} {args : List (Option Ref)}
    (h : args.length ≤ openCount f.slots) (hopen : 0 < openCount (fillSlots f.slots args)) :
    f.supply args = .ok (.awaiting (f.withSlots (fillSlots f.slots args))) := by
  have hfew : ¬args.length > f.openSlots := Nat.not_lt.2 h
  unfold supply
  rw [if_neg hfew]
  dsimp only
  rw [allFilled_eq_none hopen]

theorem supply_complete {f : Function} {args : List (Option Ref)} {refs : List Ref}
    (h : args.length ≤ openCount f.slots)
    (hrefs : allFilled (fillSlots f.slots args) = some refs) :
    f.supply args = .ok (.complete refs) := by
  have hfew : ¬args.length > f.openSlots := Nat.not_lt.2 h
  unfold supply
  rw [if_neg hfew]
  dsimp only
  rw [hrefs]

/-- Further arguments supplied to a function that waits for them are supplied together with those
that it has. -/
theorem supply_withSlots {f : Function} {args later : List (Option Ref)}
    (h : args.length ≤ openCount f.slots)
    (hlater : later.length ≤ openCount (fillSlots f.slots args)) :
    (f.withSlots (fillSlots f.slots args)).supply later = f.supply (joinArgs args later) := by
  have hfilled := openCount_fillSlots h
  have hjoined := length_joinArgs args later
  have hfew : ¬(joinArgs args later).length > f.openSlots := by
    change ¬(joinArgs args later).length > openCount f.slots
    omega
  have hfewer : ¬later.length > (f.withSlots (fillSlots f.slots args)).openSlots := by
    change ¬later.length > openCount (f.withSlots _).slots
    rw [slots_withSlots]
    omega
  unfold supply
  rw [if_neg hfew, if_neg hfewer]
  simp only [slots_withSlots, fillSlots_joinArgs, withSlots_withSlots]

theorem supply_tooMany {f : Function} {args : List (Option Ref)} (h : f.openSlots < args.length) :
    f.supply args = .error (.tooManyArguments f.name f.openSlots args.length) := by
  unfold supply
  rw [if_pos h]

theorem openCount_replicate (n : Nat) : openCount (List.replicate n none) = n := by
  induction n with
  | zero => rfl
  | succ n ih => rw [List.replicate_succ, openCount_none, ih]

theorem fillSlots_replicate (args : List (Option Ref)) :
    fillSlots (List.replicate args.length none) args = args := by
  induction args with
  | nil => rfl
  | cons arg args ih => rw [List.length_cons, List.replicate_succ, fillSlots_none, ih]

theorem allFilled_map_some (refs : List Ref) : allFilled (refs.map some) = some refs := by
  induction refs with
  | nil => rfl
  | cons r refs ih =>
      rw [List.map_cons, allFilled, ih]
      rfl

/-- A function without arguments that is given all of them runs on them. -/
theorem supply_map_some {f : Function} {refs : List Ref}
    (hf : f.slots = List.replicate refs.length none) :
    f.supply (refs.map some) = .ok (.complete refs) := by
  apply supply_complete
  · refine Nat.le_of_eq ?_
    rw [hf, openCount_replicate, List.length_map]
  · have hfill := fillSlots_replicate (refs.map some)
    rw [List.length_map] at hfill
    rw [hf, hfill, allFilled_map_some]

end Function

open LazyLang.Function

theorem Runner.runBody_withSlots (R : Runner) (f : Function) (slots : List (Option Ref)) :
    R.runBody (f.withSlots slots) = R.runBody f := by
  cases f <;> rfl

/-- A function that waits for the rest of its arguments does with them what it does with all. -/
theorem Runner.applyFunction_joinArgs (R : Runner) {f : Function} {args later : List (Option Ref)}
    (h : args.length ≤ openCount f.slots)
    (hlater : later.length ≤ openCount (fillSlots f.slots args)) :
    R.applyFunction (f.withSlots (fillSlots f.slots args)) later =
      R.applyFunction f (joinArgs args later) := by
  unfold Runner.applyFunction
  rw [supply_withSlots h hlater, R.runBody_withSlots]

/-- As long as arguments leave a slot open, a function waits without running anything. Then it does
with further arguments what it does with all of them at once, and refuses more than it has open
slots. -/
theorem Runner.applyFunction_in_portions {f : Function} {xs : List (Option Ref)}
    (hlength : xs.length ≤ f.openSlots) (hopen : xs.countP Option.isSome < f.openSlots) :
    ∃ g : Function, g.openSlots = f.openSlots - xs.countP Option.isSome ∧ ∀ R : Runner,
      R.applyFunction f xs = pure (.function g) ∧ ∀ ys : List (Option Ref),
        (ys.length ≤ g.openSlots → R.applyFunction g ys = R.applyFunction f (joinArgs xs ys)) ∧
          (g.openSlots < ys.length →
            R.applyFunction g ys = throw (.tooManyArguments f.name g.openSlots ys.length)) := by
  have hadd := openCount_fillSlots_add hlength
  have hslots : (f.withSlots (fillSlots f.slots xs)).openSlots = openCount (fillSlots f.slots xs) :=
    congrArg openCount (slots_withSlots f _)
  have hwaits : 0 < openCount (fillSlots f.slots xs) := by
    change xs.countP Option.isSome < openCount f.slots at hopen
    omega
  refine ⟨f.withSlots (fillSlots f.slots xs), ?_,
    fun R => ⟨?_, fun ys => ⟨fun hys => ?_, fun hys => ?_⟩⟩⟩
  · rw [hslots]
    change _ = openCount f.slots - _
    omega
  · unfold Runner.applyFunction
    rw [supply_awaiting hlength hwaits]
  · exact R.applyFunction_joinArgs hlength (hslots ▸ hys)
  · unfold Runner.applyFunction
    rw [supply_tooMany hys, name_withSlots]

/-- Of four slots one is held from before and one filled now, past a placeholder; then an argument
for the first slot and a placeholder for the last come together with them. -/
theorem Runner.applyFunction_in_portions_sample :
    let f := Function.host "f" .list [none, some ⟨0⟩, none, none]
    let xs := [none, some ⟨1⟩]
    let ys := [some ⟨2⟩, none]
    xs.length ≤ f.openSlots ∧ xs.countP Option.isSome < f.openSlots ∧
      ∃ g : Function, g.openSlots = 2 ∧ ys.length ≤ g.openSlots ∧ ∀ R : Runner,
        R.applyFunction f xs = pure (.function g) ∧
          R.applyFunction g ys = R.applyFunction f [some ⟨2⟩, some ⟨1⟩, none] ∧
            R.applyFunction g [none, none, none] = throw (.tooManyArguments "f" 2 3) := by
  intro f xs ys
  have hlength : xs.length ≤ f.openSlots := by decide
  have hopen : xs.countP Option.isSome < f.openSlots := by decide
  obtain ⟨g, hg, happly⟩ := Runner.applyFunction_in_portions hlength hopen
  have htwo : g.openSlots = 2 := hg
  refine ⟨hlength, hopen, g, htwo, htwo ▸ Nat.le_refl 2, fun R => ⟨(happly R).1, ?_, ?_⟩⟩
  · exact ((happly R).2 ys).1 (htwo ▸ Nat.le_refl 2)
  · have hmany := ((happly R).2 [none, none, none]).2 (htwo ▸ Nat.lt_succ_self 2)
    rwa [htwo] at hmany

end LazyLang
