import LazyLang.Evaluation.Traversal
import Mathlib.Tactic.Ring

/-!
# The positions of a slice

A slice of an array of known length goes from one bound to the other, and each bound is resolved on
its own: a negative one counts from the end, one outside the array is moved to its edge, and an
absent one is the edge itself. Going backward the edge in front of the array is `-1`.

All of this happens in 64-bit integers. Resolving the bounds cannot leave them, since a bound is
only counted from the end when it is negative. A step can, and then it has passed the other bound as
well, so nothing is lost by ending there (`SliceBounds.walk?_spec`). What comes out is the
arithmetic progression from the first bound as far as it lies before the second
(`slicePositions_progression`). Between bounds that are not negative it starts at the first bound
itself, unless that is beyond the end, where there is nothing (`slicePositions_forward`).
-/

namespace LazyLang

namespace SliceBounds

/-- An integer that fits 64 bits. -/
def Fits (n : Int) : Prop := -2 ^ 63 ≤ n ∧ n < 2 ^ 63

theorem fits_toInt (n : Int64) : Fits n.toInt := ⟨n.le_toInt, n.toInt_lt⟩

theorem fit?_of_fits {n : Int} (h : Fits n) : fit? n = some n :=
  if_pos (by simpa [Fits] using h)

theorem fit?_of_not_fits {n : Int} (h : ¬ Fits n) : fit? n = none :=
  if_neg (by simpa [Fits] using h)

/-- Where a bound of a slice lies in an array of the given length: at the given edge if it is
absent, else counted from the end if it is negative, and kept within `low` and `high`. -/
def resolved (length low high edge : Int) : Option Int → Int
  | none => edge
  | some bound => max low (min (if bound < 0 then bound + length else bound) high)

/-- Where a slice of an array of the given length starts and stops. -/
def within (length : Int) (start stop : Option Int) (step : Int) : SliceBounds :=
  if 0 < step then
    ⟨resolved length 0 length 0 start, resolved length 0 length length stop⟩
  else
    ⟨resolved length (-1) (length - 1) (length - 1) start,
      resolved length (-1) (length - 1) (-1) stop⟩

section Resolution

variable {length low high edge : Int}

theorem resolve?_eq {bound : Int} (hlength : 0 ≤ length) (hsize : Fits length)
    (hbound : Fits bound) (h : low ≤ high) :
    resolve? length low high bound = some (resolved length low high edge (some bound)) := by
  by_cases hneg : bound < 0
  · have hsum : Fits (bound + length) := by
      unfold Fits at *
      omega
    simp [resolve?, resolved, hneg, fit?_of_fits hsum, h]
  · simp [resolve?, resolved, hneg, h]

theorem elim_resolve? (bound : Option Int64) (hlength : 0 ≤ length) (hsize : Fits length)
    (h : low ≤ high) :
    (bound.map Int64.toInt).elim (some edge) (resolve? length low high) =
      some (resolved length low high edge (bound.map Int64.toInt)) := by
  cases bound with
  | none => rfl
  | some bound => exact resolve?_eq hlength hsize (fits_toInt bound) h

/-- Bounds in 64-bit integers can be resolved without leaving them. -/
theorem of?_eq_within (start stop : Option Int64) (step : Int) (hlength : 0 ≤ length)
    (hsize : Fits length) :
    of? length (start.map Int64.toInt) (stop.map Int64.toInt) step =
      some (within length (start.map Int64.toInt) (stop.map Int64.toInt) step) := by
  unfold of? within
  split
  · rw [elim_resolve? start hlength hsize hlength, elim_resolve? stop hlength hsize hlength]
    rfl
  · have hlast : Fits (length - 1) := by
      unfold Fits at *
      omega
    have hedges : -1 ≤ length - 1 := by omega
    rw [fit?_of_fits hlast, Option.bind_eq_bind, Option.bind_some,
      elim_resolve? start hlength hsize hedges, elim_resolve? stop hlength hsize hedges]
    rfl

theorem resolved_mem {bound : Option Int} (h : low ≤ high) (hedge : low ≤ edge ∧ edge ≤ high) :
    low ≤ resolved length low high edge bound ∧ resolved length low high edge bound ≤ high := by
  cases bound with
  | none => exact hedge
  | some bound => exact ⟨Int.le_max_left .., Int.max_le.2 ⟨h, Int.min_le_right ..⟩⟩

end Resolution

section Walking

variable {step start stop : Int}

/-- The positions are those of an arithmetic progression, as far as it lies before `stop` in the
direction of the step. -/
def IsProgression (step start stop : Int) (positions : List Nat) : Prop :=
  ∀ (k i : Nat), positions[k]? = some i ↔
    (i : Int) = start + k * step ∧ isBefore step (start + k * step) stop = true

/-- How far it is to `stop` in the direction of the step. -/
def distance (step start stop : Int) : Nat :=
  (if 0 < step then stop - start else start - stop).toNat

theorem isBefore_iff : isBefore step start stop = true ↔ 0 < distance step start stop := by
  unfold isBefore distance
  split <;> simp

theorem distance_add_lt (hstep : step ≠ 0) (h : isBefore step start stop = true) :
    distance step (start + step) stop < distance step start stop := by
  rw [isBefore_iff] at h
  unfold distance at *
  split at h <;> simp_all; omega

/-- What has passed `stop` stays beyond it. -/
theorem not_isBefore_add (k : Nat) (h : isBefore step start stop = false) :
    isBefore step (start + k * step) stop = false := by
  unfold isBefore at *
  split at h
  · next hpos =>
      have hadd : 0 ≤ k * step := Int.mul_nonneg (Int.natCast_nonneg k) (Int.le_of_lt hpos)
      simp only [hpos, if_true, decide_eq_false_iff_not] at h ⊢
      omega
  · next hneg =>
      have hadd : k * step ≤ 0 :=
        Int.mul_nonpos_of_nonneg_of_nonpos (Int.natCast_nonneg k) (Int.not_lt.1 hneg)
      simp only [hneg, if_false, decide_eq_false_iff_not] at h ⊢
      omega

/-- A next position that leaves the 64-bit integers has passed `stop`. -/
theorem not_isBefore_of_not_fits (hstart : Fits start) (hstop : Fits stop)
    (h : ¬ Fits (start + step)) : isBefore step (start + step) stop = false := by
  unfold isBefore Fits at *
  split <;> simp <;> omega

theorem isProgression_nil (h : isBefore step start stop = false) :
    IsProgression step start stop [] := by
  intro k i
  simp [not_isBefore_add k h]

theorem isProgression_cons {rest : List Nat} (hnonneg : 0 ≤ start)
    (h : isBefore step start stop = true)
    (hrest : IsProgression step (start + step) stop rest) :
    IsProgression step start stop (start.toNat :: rest) := by
  intro k i
  cases k with
  | zero =>
      simp only [List.getElem?_cons_zero, Option.some_inj, Nat.cast_zero, Int.zero_mul,
        Int.add_zero, h, and_true]
      omega
  | succ k =>
      have hnext : start + (k + 1 : Nat) * step = start + step + k * step := by
        push_cast
        ring
      rw [List.getElem?_cons_succ, hnext]
      exact hrest k i

/-- The walk ends within the distance to `stop`, with all positions of the progression. They are
not negative since a walk forward starts at `0` or after it, and one backward stops at `-1`. -/
theorem walk?_spec (hstep : step ≠ 0) (hstop : Fits stop) (hlow : -1 ≤ stop) {fuel : Nat}
    (hstart : Fits start) (hfirst : 0 < step → 0 ≤ start)
    (hfuel : distance step start stop < fuel) :
    ∃ positions, walk? step stop fuel start = some positions ∧
      IsProgression step start stop positions := by
  -- The induction is on the fuel, which stays above the distance as the walk goes on.
  induction fuel generalizing start with
  | zero => cases hfuel
  | succ fuel ih =>
      rw [walk?]
      cases hbefore : isBefore step start stop with
      | false => exact ⟨[], rfl, isProgression_nil hbefore⟩
      | true =>
          have hnonneg : 0 ≤ start := by
            by_cases hpos : 0 < step
            · exact hfirst hpos
            · simp only [isBefore, hpos, if_false, decide_eq_true_eq] at hbefore
              omega
          by_cases hnext : Fits (start + step)
          · obtain ⟨rest, hwalk, hrest⟩ := ih hnext (fun hpos => by omega)
              (Nat.lt_of_lt_of_le (distance_add_lt hstep hbefore) (Nat.le_of_lt_succ hfuel))
            rw [fit?_of_fits hnext, if_pos rfl]
            exact ⟨start.toNat :: rest, congrArg (Option.map (start.toNat :: ·)) hwalk,
              isProgression_cons hnonneg hbefore hrest⟩
          · have hpassed := not_isBefore_of_not_fits hstart hstop hnext
            rw [fit?_of_not_fits hnext]
            exact ⟨[start.toNat], rfl,
              isProgression_cons hnonneg hbefore (isProgression_nil hpassed)⟩

end Walking

section Within

/-- The lowest bound of a slice, which going backward is the place in front of the array. -/
def lowest (step : Int) : Int := if 0 < step then 0 else -1

/-- Both bounds are at the lowest place or after it, by no more than there are elements. -/
theorem mem_within (length : Nat) (start stop : Option Int) (step : Int) :
    let bounds := within length start stop step
    (lowest step ≤ bounds.start ∧ bounds.start ≤ lowest step + length) ∧
      lowest step ≤ bounds.stop ∧ bounds.stop ≤ lowest step + length := by
  unfold within lowest
  split
  · rw [Int.zero_add]
    exact ⟨resolved_mem (by omega) (by omega), resolved_mem (by omega) (by omega)⟩
  · have hlast : (-1 : Int) + length = length - 1 := by omega
    rw [hlast]
    exact ⟨resolved_mem (by omega) (by omega), resolved_mem (by omega) (by omega)⟩

theorem distance_within (length : Nat) (start stop : Option Int) (step : Int) :
    distance step (within length start stop step).start (within length start stop step).stop ≤
      length := by
  obtain ⟨hstart, hstop⟩ := mem_within length start stop step
  unfold distance
  omega

end Within

end SliceBounds

open SliceBounds

/-- A slice of an array whose length fits 64 bits has positions, and they are those of the
progression between the resolved bounds. -/
theorem slicePositions_isProgression {length : Nat} (hlength : (length : Int) < 2 ^ 63)
    (start stop : Option Int64) {step : Int} (hstep : step ≠ 0) :
    let bounds := within length (start.map Int64.toInt) (stop.map Int64.toInt) step
    ∃ positions,
      slicePositions length (start.map Int64.toInt) (stop.map Int64.toInt) step =
        some positions ∧
      IsProgression step bounds.start bounds.stop positions := by
  intro bounds
  have hsize : Fits length := ⟨by omega, hlength⟩
  obtain ⟨⟨hstart, hstart'⟩, hstop, hstop'⟩ :
      (lowest step ≤ bounds.start ∧ bounds.start ≤ lowest step + length) ∧
        lowest step ≤ bounds.stop ∧ bounds.stop ≤ lowest step + length := mem_within ..
  unfold lowest at *
  have hfits : Fits bounds.start ∧ Fits bounds.stop := by
    unfold Fits at *
    omega
  have hlow : -1 ≤ bounds.stop := by omega
  have hfirst : 0 < step → 0 ≤ bounds.start := fun hpos => by rwa [if_pos hpos] at hstart
  obtain ⟨positions, hwalk, hpositions⟩ := walk?_spec hstep hfits.2 hlow hfits.1 hfirst
    (Nat.lt_succ_of_le (distance_within ..))
  refine ⟨positions, ?_, hpositions⟩
  unfold slicePositions
  rw [fit?_of_fits hsize, Option.bind_eq_bind, Option.bind_some,
    of?_eq_within start stop step (Int.natCast_nonneg length) hsize]
  exact hwalk

/-- Only an array whose length fits 64 bits has positions. -/
theorem isProgression_of_slicePositions {length : Nat} {start stop : Option Int64} {step : Int}
    {positions : List Nat} (hstep : step ≠ 0)
    (h : slicePositions length (start.map Int64.toInt) (stop.map Int64.toInt) step =
      some positions) :
    let bounds := within length (start.map Int64.toInt) (stop.map Int64.toInt) step
    IsProgression step bounds.start bounds.stop positions := by
  have hsize : Fits length := by
    by_contra hsize
    rw [slicePositions, fit?_of_not_fits hsize] at h
    cases h
  obtain ⟨others, hothers, hprogression⟩ :=
    slicePositions_isProgression hsize.2 start stop hstep
  obtain rfl := Option.some_inj.1 (h.symm.trans hothers)
  exact hprogression

/-- A position before `stop` lies in the array. -/
theorem SliceBounds.IsProgression.lt_length {length : Nat} {start stop : Option Int} {step : Int}
    {positions : List Nat}
    (h : IsProgression step (within length start stop step).start
      (within length start stop step).stop positions) {i : Nat} (hi : i ∈ positions) :
    i < length := by
  obtain ⟨hstart, hstop⟩ := mem_within length start stop step
  obtain ⟨k, hk⟩ := List.mem_iff_getElem?.1 hi
  obtain ⟨heq, hbefore⟩ := (h k i).1 hk
  unfold isBefore at hbefore
  unfold lowest at hstart hstop
  by_cases hpos : 0 < step
  · simp only [hpos, if_true, decide_eq_true_eq] at hbefore hstop
    omega
  · have hadd : k * step ≤ 0 :=
      Int.mul_nonpos_of_nonneg_of_nonpos (Int.natCast_nonneg k) (Int.not_lt.1 hpos)
    simp only [hpos, if_false] at hstart
    omega

/-- The positions of a slice of an array whose length fits 64 bits. There always are some: no sum on
the way leaves the 64-bit integers, the edges are in order, and the walk ends. None lies outside the
array, and they are the places some steps away from the first bound, one after the other, as far as
these lie before the second bound. -/
theorem slicePositions_progression {length : Nat} (hlength : (length : Int) < 2 ^ 63)
    (start stop : Option Int64) {step : Int64} (hstep : step ≠ 0) :
    let bounds := within length (start.map Int64.toInt) (stop.map Int64.toInt) step.toInt
    ∃ positions,
      slicePositions length (start.map Int64.toInt) (stop.map Int64.toInt) step.toInt =
        some positions ∧
      (∀ i ∈ positions, i < length) ∧
      ∀ (k i : Nat), positions[k]? = some i ↔
        (i : Int) = bounds.start + k * step.toInt ∧
          if 0 < step.toInt then bounds.start + k * step.toInt < bounds.stop
          else bounds.stop < bounds.start + k * step.toInt := by
  intro bounds
  have hne : step.toInt ≠ 0 := fun h => hstep (Int64.toInt_inj.1 h)
  obtain ⟨positions, hpositions, hprogression⟩ :=
    slicePositions_isProgression hlength start stop hne
  refine ⟨positions, hpositions, fun i hi => hprogression.lt_length hi, fun k i => ?_⟩
  rw [hprogression k i, isBefore]
  split <;> simp [bounds]

/-- A step of the greatest integer ends the slice after its first position, since the sum would not
fit. -/
theorem slicePositions_progression_maxValue :
    ∃ positions,
      slicePositions 3 (some (-1)) none Int64.maxValue.toInt = some positions ∧
      positions = [2] ∧ ∀ i ∈ positions, i < 3 := by
  have hlength : ((3 : Nat) : Int) < 2 ^ 63 := by decide
  have hstep : Int64.maxValue ≠ 0 := by decide
  obtain ⟨positions, hpositions, hlt, -⟩ :=
    slicePositions_progression hlength (some (-1)) none hstep
  have hrun : slicePositions 3 (some (-1)) none Int64.maxValue.toInt = some [2] := rfl
  exact ⟨positions, hpositions, Option.some_inj.1 (hpositions.symm.trans hrun), hlt⟩

example : slicePositions 5 (some 3) (some (-5)) (-2) = some [3, 1] := rfl

section Forward

variable {length : Nat} {positions : List Nat} {step : Int}

/-- How many elements there are before the place where a slice without negative bounds stops. -/
def SliceBounds.reach (length : Nat) (stop : Option Int) : Nat :=
  stop.elim length fun bound => min bound.toNat length

theorem SliceBounds.reach_le (length : Nat) (stop : Option Int) : reach length stop ≤ length := by
  cases stop <;> simp [reach]

theorem SliceBounds.within_forward {start stop : Option Int} (hstep : 0 < step)
    (hstart : ∀ b ∈ start, 0 ≤ b) (hstop : ∀ b ∈ stop, 0 ≤ b) :
    within length start stop step =
      ⟨(min (start.getD 0).toNat length : Nat), (reach length stop : Nat)⟩ := by
  rw [within, if_pos hstep]
  congr 1
  · cases start with
    | none => simp [resolved]
    | some b =>
        have hb := hstart b rfl
        simp only [resolved, Option.getD_some]
        omega
  · cases stop with
    | none => simp [resolved, reach]
    | some b =>
        have hb := hstop b rfl
        simp only [resolved, reach, Option.elim_some]
        omega

/-- Going forward from the first bound, or from the end if it is beyond that. -/
theorem SliceBounds.IsProgression.getElem?_forward {first limit : Nat} (hlimit : limit ≤ length)
    (hstep : 0 < step) (h : IsProgression step (min first length : Nat) limit positions)
    (j : Nat) :
    positions[j]? = if first + j * step.toNat < limit then some (first + j * step.toNat)
      else none := by
  have hbefore (p : Int) : isBefore step p limit = true ↔ p < limit := by
    simp [isBefore, hstep]
  obtain ⟨k, rfl⟩ := Int.eq_ofNat_of_zero_le (Int.le_of_lt hstep)
  rw [Int.toNat_natCast]
  split
  · next hlt =>
      refine (h j _).2 ⟨?_, (hbefore _).2 ?_⟩
      · rw [Nat.min_eq_left (by omega)]
        push_cast
        rfl
      · omega
  · next hge =>
      rw [Option.eq_none_iff_forall_ne_some]
      intro i hi
      have hlt := (hbefore _).1 ((h j i).1 hi).2
      omega

/-- The positions of a slice that goes forward between bounds that are not negative. -/
theorem slicePositions_forward {start stop : Option Int64}
    (hstart : ∀ b ∈ start.map Int64.toInt, 0 ≤ b) (hstop : ∀ b ∈ stop.map Int64.toInt, 0 ≤ b)
    (hstep : 0 < step)
    (h : slicePositions length (start.map Int64.toInt) (stop.map Int64.toInt) step =
      some positions) (j : Nat) :
    positions[j]? =
      if ((start.map Int64.toInt).getD 0).toNat + j * step.toNat <
          reach length (stop.map Int64.toInt) then
        some (((start.map Int64.toInt).getD 0).toNat + j * step.toNat)
      else none := by
  have hprogression := isProgression_of_slicePositions (Int.ne_of_gt hstep) h
  rw [within_forward hstep hstart hstop] at hprogression
  exact hprogression.getElem?_forward (reach_le length _) hstep j

theorem length_le_of_places {first k limit : Nat} (hlimit : limit ≤ length) (hk : 0 < k)
    (h : ∀ j, positions[j]? = if first + j * k < limit then some (first + j * k) else none) :
    positions.length ≤ length := by
  have hmul : length ≤ length * k := Nat.le_mul_of_pos_right length hk
  have hnone : positions[length]? = none := by
    rw [h, if_neg (by omega)]
  exact List.getElem?_eq_none_iff.1 hnone

end Forward

end LazyLang
