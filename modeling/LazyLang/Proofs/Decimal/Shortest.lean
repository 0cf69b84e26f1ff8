import LazyLang.Decimal.Shortest
import LazyLang.Proofs.Decimal.Rounding
import Mathlib.Tactic.NormNum

/-!
# The shortest decimal rounds to the float

The search for the shortest digits finds some on a grid of at most seventeen digits, since on that
grid the spacing is finer than the distance of neighbouring floats; and the decimal that it finds
rounds to the float (`shortest_roundsTo`). The decimal has the float's power of ten, or is the next
power of ten (`shortest_bounds`).
-/

namespace LazyLang.Decimal

/-- The number that the digits denote. -/
def Digits.value (d : Digits) : ℚ := d.number * 10 ^ d.power

variable {m n : ℕ} {e k : ℤ}

/-- A power is the quotient of those with the positive and the negative part of its exponent. -/
theorem pow_toNat_div {b : ℚ} (hb : b ≠ 0) (z : ℤ) : b ^ z.toNat / b ^ (-z).toNat = b ^ z := by
  rw [← zpow_natCast, ← zpow_natCast, ← zpow_sub₀ hb]
  congr 1
  omega

section DigitCount

theorem digitCount_pos (n : ℕ) : 0 < digitCount n :=
  List.length_pos_iff.2 Nat.toDigits_ne_nil

theorem lt_pow_digitCount (n : ℕ) : n < 10 ^ digitCount n :=
  (Nat.length_toDigits_le_iff (by decide) (digitCount_pos n)).1 le_rfl

theorem pow_digitCount_le (hn : 0 < n) : 10 ^ (digitCount n - 1) ≤ n := by
  rcases Nat.eq_zero_or_pos (digitCount n - 1) with hone | hmore
  · rw [hone]
    exact hn
  · by_contra hlt
    have hle := (Nat.length_toDigits_le_iff (by decide) hmore).2 (not_le.1 hlt)
    change digitCount n ≤ digitCount n - 1 at hle
    omega

end DigitCount

namespace Interval

theorem unit_pos (m : ℕ) (e : ℤ) : 0 < (of m e).unit := Nat.pow_pos Nat.two_pos

theorem factor_div (e : ℤ) :
    ((Nat.pow 2 (e - 2).toNat : ℕ) : ℚ) / (Nat.pow 2 (2 - e).toNat : ℕ) = 2 ^ e / 4 := by
  rw [Nat.pow_eq, Nat.pow_eq, ← neg_sub e 2, Nat.cast_pow, Nat.cast_pow]
  push_cast
  rw [pow_toNat_div two_ne_zero, zpow_sub₀ two_ne_zero]
  norm_num

theorem value_div (m : ℕ) (e : ℤ) :
    ((of m e).value : ℚ) / (of m e).unit = magnitudeOf m e := by
  unfold of magnitudeOf
  dsimp only
  rw [Nat.cast_mul, mul_div_assoc, factor_div]
  push_cast
  ring

theorem high_div (m : ℕ) (e : ℤ) :
    ((of m e).high : ℚ) / (of m e).unit = magnitudeOf m e + 2 ^ e / 2 := by
  unfold of magnitudeOf
  dsimp only
  rw [Nat.cast_mul, mul_div_assoc, factor_div]
  push_cast
  ring

theorem low_div (hm : 0 < m) (e : ℤ) :
    ((of m e).low : ℚ) / (of m e).unit = magnitudeOf m e - gapBelow m e := by
  unfold of magnitudeOf gapBelow
  dsimp only
  rw [Nat.cast_mul, mul_div_assoc, factor_div, Nat.cast_sub (by split <;> omega)]
  simp only [Bool.and_eq_true, decide_eq_true_eq, Nat.pow_eq, gt_iff_lt]
  split <;>
    · push_cast
      ring

theorem closed_iff : (of m e).closed = true ↔ m % 2 = 0 := by
  simp [of]

/-- A bound of the interval compares with a grid point as the numbers do. -/
theorem bound_le_iff (i : Interval) (hi : 0 < i.unit) (a : ℕ) :
    a * 10 ^ (-k).toNat ≤ n * (i.unit * 10 ^ k.toNat) ↔ (a : ℚ) / i.unit ≤ n * 10 ^ k := by
  have hunit : (0 : ℚ) < i.unit := by exact_mod_cast hi
  have hten : (0 : ℚ) < 10 ^ (-k).toNat := by positivity
  rw [← pow_toNat_div (by norm_num : (10 : ℚ) ≠ 0), mul_div_assoc', div_le_div_iff₀ hunit hten]
  rw [← Nat.cast_le (α := ℚ)]
  push_cast
  constructor <;> intro h <;> linarith

theorem le_bound_iff (i : Interval) (hi : 0 < i.unit) (a : ℕ) :
    n * (i.unit * 10 ^ k.toNat) ≤ a * 10 ^ (-k).toNat ↔ (n : ℚ) * 10 ^ k ≤ a / i.unit := by
  have hunit : (0 : ℚ) < i.unit := by exact_mod_cast hi
  have hten : (0 : ℚ) < 10 ^ (-k).toNat := by positivity
  rw [← pow_toNat_div (by norm_num : (10 : ℚ) ≠ 0), mul_div_assoc', div_le_div_iff₀ hten hunit]
  rw [← Nat.cast_le (α := ℚ)]
  push_cast
  constructor <;> intro h <;> linarith

/-- The grid points that the interval holds are the decimals that round to the float. -/
theorem holds_onGrid_iff (hm : 0 < m) :
    ((of m e).onGrid k).holds n = true ↔ RoundsTo (n * 10 ^ k) m e := by
  have hunit := unit_pos m e
  have hlow := bound_le_iff (k := k) (n := n) (of m e) hunit (of m e).low
  have hhigh := le_bound_iff (k := k) (n := n) (of m e) hunit (of m e).high
  have hlow' := le_bound_iff (k := k) (n := n) (of m e) hunit (of m e).low
  have hhigh' := bound_le_iff (k := k) (n := n) (of m e) hunit (of m e).high
  rw [low_div hm] at hlow hlow'
  rw [high_div] at hhigh hhigh'
  unfold holds onGrid
  simp only [Nat.pow_eq]
  split
  · next hclosed =>
      have heven := closed_iff.1 hclosed
      rw [Bool.and_eq_true, decide_eq_true_eq, decide_eq_true_eq, hlow, hhigh]
      exact ⟨fun h => ⟨h.1, h.2, fun hodd => by omega⟩, fun h => ⟨h.low, h.high⟩⟩
  · next hopen =>
      have hodd : m % 2 = 1 := by
        have := mt closed_iff.2 hopen
        omega
      rw [Bool.and_eq_true, decide_eq_true_eq, decide_eq_true_eq, ← not_le, ← not_le, hlow', hhigh',
        not_le, not_le]
      exact ⟨fun h => ⟨h.1.le, h.2.le, fun _ => h⟩, fun h => h.strict hodd⟩

/-- The number of a power of ten that the value begins with. -/
theorem magnitude_bounds (hm : 0 < m) (e : ℤ) :
    (10 : ℚ) ^ (of m e).magnitude ≤ magnitudeOf m e ∧
      magnitudeOf m e < 10 ^ ((of m e).magnitude + 1) := by
  have hunit := unit_pos m e
  have hvalue : 0 < (of m e).value := by
    unfold of
    exact Nat.mul_pos (by omega) (Nat.pow_pos Nat.two_pos)
  rw [← value_div]
  generalize of m e = i at *
  have hunit' : (0 : ℚ) < i.unit := by exact_mod_cast hunit
  rw [le_div_iff₀ hunit', div_lt_iff₀ hunit']
  unfold magnitude
  split
  · next hle =>
      have hwhole : 0 < i.value / i.unit := Nat.div_pos hle hunit
      have hlow := (Nat.le_div_iff_mul_le hunit).1 (pow_digitCount_le hwhole)
      have hhigh := (Nat.div_lt_iff_lt_mul hunit).1 (lt_pow_digitCount (i.value / i.unit))
      have hpos := digitCount_pos (i.value / i.unit)
      obtain ⟨d, hd⟩ : ∃ d, digitCount (i.value / i.unit) = d + 1 := Nat.exists_eq_add_one.2 hpos
      rw [hd] at hlow hhigh ⊢
      rw [Nat.add_sub_cancel] at hlow
      rw [Nat.cast_succ, add_sub_cancel_right, ← Nat.cast_succ, zpow_natCast, zpow_natCast]
      exact ⟨by exact_mod_cast hlow, by exact_mod_cast hhigh⟩
  · next hlt =>
      -- the powers of ten that bound the inverse
      have hhigh := (Nat.div_lt_iff_lt_mul hvalue).1 (lt_pow_digitCount ((i.unit - 1) / i.value))
      have hlow : 10 ^ (digitCount ((i.unit - 1) / i.value) - 1) * i.value < i.unit := by
        rcases Nat.eq_zero_or_pos ((i.unit - 1) / i.value) with hzero | hwhole
        · have hone : digitCount 0 = 1 := rfl
          rw [hzero, hone]
          omega
        · have := (Nat.le_div_iff_mul_le hvalue).1 (pow_digitCount_le hwhole)
          omega
      have hpos := digitCount_pos ((i.unit - 1) / i.value)
      obtain ⟨d, hd⟩ : ∃ d, digitCount ((i.unit - 1) / i.value) = d + 1 :=
        Nat.exists_eq_add_one.2 hpos
      rw [hd] at hlow hhigh ⊢
      rw [Nat.add_sub_cancel] at hlow
      have hlow' : (10 ^ d * i.value : ℚ) < i.unit := by exact_mod_cast hlow
      have hhigh' : (i.unit : ℚ) ≤ 10 ^ (d + 1) * i.value := by
        exact_mod_cast (show i.unit ≤ 10 ^ (d + 1) * i.value by omega)
      have hten : (0 : ℚ) < 10 ^ d := by positivity
      constructor
      · rw [zpow_neg, zpow_natCast, inv_mul_le_iff₀ (by positivity)]
        exact hhigh'
      · rw [Nat.cast_succ, neg_add, neg_add_cancel_right, zpow_neg, zpow_natCast,
          lt_inv_mul_iff₀ hten]
        exact hlow'

variable {i : Interval}

/-- The grid point found is one of the two neighbours of the value, and the interval holds it. -/
theorem of_nearest? (h : i.nearest? = some n) :
    i.holds n = true ∧ (n = i.value / i.unit ∨ n = i.value / i.unit + 1) := by
  unfold nearest? at h
  dsimp only at h
  split at h
  · next hdown hup =>
      split at h
      · cases h
        exact ⟨hdown, .inl rfl⟩
      · cases h
        exact ⟨hup, .inr rfl⟩
  · next hdown _ =>
      cases h
      exact ⟨hdown, .inl rfl⟩
  · next _ hup =>
      cases h
      exact ⟨hup, .inr rfl⟩
  · cases h

theorem of_nearest?_eq_none (h : i.nearest? = none) :
    i.holds (i.value / i.unit) = false ∧ i.holds (i.value / i.unit + 1) = false := by
  unfold nearest? at h
  dsimp only at h
  split at h
  · split at h <;> cases h
  · cases h
  · cases h
  · next hdown hup => exact ⟨hdown, hup⟩

/-- The search stops at a grid that has a point in the interval, if there is one among those it
tries. -/
theorem exists_search {power : ℤ} {fuel count : ℕ}
    (h : ∃ c, count ≤ c ∧ c < count + fuel ∧ (i.onGrid (power - c + 1)).nearest? ≠ none) :
    ∃ c n, count ≤ c ∧ (i.onGrid (power - c + 1)).nearest? = some n ∧
      i.search power fuel count = ⟨n, power - c + 1⟩ := by
  induction fuel generalizing count with
  | zero =>
      obtain ⟨c, hle, hlt, -⟩ := h
      omega
  | succ fuel ih =>
      rw [search]
      cases hfound : (i.onGrid (power - count + 1)).nearest? with
      | some n => exact ⟨count, n, le_rfl, hfound, rfl⟩
      | none =>
          obtain ⟨c, hle, hlt, hc⟩ := h
          have hne : c ≠ count := by
            rintro rfl
            exact hc hfound
          have hmore : ∃ c, count + 1 ≤ c ∧ c < count + 1 + fuel ∧
              (i.onGrid (power - c + 1)).nearest? ≠ none := ⟨c, by omega, by omega, hc⟩
          obtain ⟨d, n, hd, hn, hsearch⟩ := ih hmore
          exact ⟨d, n, by omega, hn, hsearch⟩

/-- The neighbours of a value on a grid, as numbers. -/
theorem down_bounds (m : ℕ) (e k : ℤ) :
    (((of m e).onGrid k).value / ((of m e).onGrid k).unit : ℕ) * (10 : ℚ) ^ k ≤ magnitudeOf m e ∧
      magnitudeOf m e <
        ((((of m e).onGrid k).value / ((of m e).onGrid k).unit : ℕ) + 1) * (10 : ℚ) ^ k := by
  have hunit := unit_pos m e
  have hpos : 0 < (of m e).unit * 10 ^ k.toNat := Nat.mul_pos hunit (Nat.pow_pos (by decide))
  unfold onGrid
  simp only [Nat.pow_eq]
  constructor
  · rw [← value_div, ← le_bound_iff (of m e) hunit]
    exact Nat.div_mul_le_self _ _
  · rw [← not_le, ← value_div, ← Nat.cast_succ, ← le_bound_iff (of m e) hunit, not_le]
    exact (Nat.div_lt_iff_lt_mul hpos).1 (Nat.lt_succ_self _)

/-- Seventeen digits tell any two floats apart: a grid that is so fine has a point that rounds to
the float. -/
theorem nearest?_ne_none (h : Canonical m e) (hm : 0 < m) :
    ((of m e).onGrid ((of m e).magnitude - 16)).nearest? ≠ none := by
  intro hnone
  obtain ⟨hdown, hup⟩ := of_nearest?_eq_none hnone
  obtain ⟨hlow, hhigh⟩ := down_bounds m e ((of m e).magnitude - 16)
  have hpower := (magnitude_bounds hm e).1
  have hspacing : (10 : ℚ) ^ (of m e).magnitude = 10 ^ ((of m e).magnitude - 16) * 10 ^ 16 := by
    rw [← zpow_natCast, ← zpow_add₀ (by norm_num)]
    norm_num
  rw [hspacing] at hpower
  generalize (of m e).magnitude - 16 = k at *
  rw [← Bool.not_eq_true, holds_onGrid_iff hm] at hdown hup
  generalize ((of m e).onGrid k).value / ((of m e).onGrid k).unit = q at *
  push_cast at hup
  have hulp : (0 : ℚ) < 2 ^ e := by positivity
  -- neither neighbour rounds to the float, so their distance is at least that of the middles
  have hbelow : (q : ℚ) * 10 ^ k ≤ magnitudeOf m e - gapBelow m e := by
    by_contra hlt
    have hgap := gapBelow_pos m e
    refine hdown ⟨by linarith, by linarith, fun _ => ⟨by linarith, by linarith⟩⟩
  have habove : magnitudeOf m e + 2 ^ e / 2 ≤ (q + 1) * (10 : ℚ) ^ k := by
    by_contra hlt
    have hgap := gapBelow_pos m e
    refine hup ⟨by linarith, by linarith, fun _ => ⟨by linarith, by linarith⟩⟩
  have hwide : gapBelow m e + 2 ^ e / 2 ≤ (10 : ℚ) ^ k := by linarith
  unfold magnitudeOf at hpower
  unfold gapBelow at hwide
  split at hwide
  · next hcase =>
      rw [hcase.1] at hpower
      push_cast at hpower
      nlinarith
  · have hle : (m : ℚ) ≤ 2 ^ 53 := by exact_mod_cast h.lt.le
    nlinarith

end Interval

namespace Digits

theorem value_trim (fuel : ℕ) (d : Digits) : (trim fuel d).value = d.value := by
  induction fuel generalizing d with
  | zero => rfl
  | succ fuel ih =>
      rw [trim]
      split
      · next hzero =>
          rw [ih]
          simp only [Bool.and_eq_true, decide_eq_true_eq] at hzero
          have hten : d.number = 10 * (d.number / 10) := by omega
          have hcast : (d.number : ℚ) = 10 * (d.number / 10 : ℕ) := by exact_mod_cast hten
          rw [value, value, hcast, zpow_add_one₀ (by norm_num)]
          ring
      · rfl

end Digits

/-- The digits found are those of a grid point next to the value that rounds to the float. -/
theorem exists_shortest (h : Canonical m e) (hm : 0 < m) :
    ∃ (c n : ℕ), 1 ≤ c ∧
      ((Interval.of m e).onGrid ((Interval.of m e).magnitude - c + 1)).nearest? = some n ∧
      shortest m e = Digits.trim 20 ⟨n, (Interval.of m e).magnitude - c + 1⟩ := by
  have hgrid : ∃ c : ℕ, 1 ≤ c ∧ c < 1 + 17 ∧
      ((Interval.of m e).onGrid ((Interval.of m e).magnitude - c + 1)).nearest? ≠ none := by
    refine ⟨17, by decide, by decide, ?_⟩
    have hsixteen : (Interval.of m e).magnitude - (17 : ℕ) + 1 =
        (Interval.of m e).magnitude - 16 := by
      push_cast
      ring
    rw [hsixteen]
    exact Interval.nearest?_ne_none h hm
  obtain ⟨c, n, hc, hn, hsearch⟩ := Interval.exists_search hgrid
  exact ⟨c, n, hc, hn, by rw [shortest, hsearch]⟩

/-- The shortest digits of a float round to it. -/
theorem shortest_roundsTo (h : Canonical m e) (hm : 0 < m) :
    RoundsTo (shortest m e).value m e := by
  obtain ⟨c, n, -, hn, hshortest⟩ := exists_shortest h hm
  rw [hshortest, Digits.value_trim]
  exact (Interval.holds_onGrid_iff hm).1 (Interval.of_nearest? hn).1

/-- The shortest digits lie between the power of ten that the float begins with and the next one. -/
theorem shortest_bounds (h : Canonical m e) (hm : 0 < m) :
    (10 : ℚ) ^ (Interval.of m e).magnitude ≤ (shortest m e).value ∧
      (shortest m e).value ≤ 10 ^ ((Interval.of m e).magnitude + 1) := by
  obtain ⟨c, n, hc, hn, hshortest⟩ := exists_shortest h hm
  obtain ⟨hlow, hhigh⟩ := Interval.magnitude_bounds hm e
  rw [hshortest, Digits.value_trim, Digits.value]
  dsimp only
  have hneighbour := (Interval.of_nearest? hn).2
  obtain ⟨hdown, hup⟩ := Interval.down_bounds m e ((Interval.of m e).magnitude - c + 1)
  obtain ⟨d, rfl⟩ : ∃ d, c = d + 1 := ⟨c - 1, by omega⟩
  -- the bounds are grid points themselves
  have hfirst : (10 : ℚ) ^ (Interval.of m e).magnitude =
      10 ^ d * 10 ^ ((Interval.of m e).magnitude - (d + 1 : ℕ) + 1) := by
    rw [← zpow_natCast, ← zpow_add₀ (by norm_num)]
    congr 1
    push_cast
    ring
  have hlast : (10 : ℚ) ^ ((Interval.of m e).magnitude + 1) =
      10 ^ (d + 1) * 10 ^ ((Interval.of m e).magnitude - (d + 1 : ℕ) + 1) := by
    rw [zpow_add_one₀ (by norm_num), hfirst, pow_succ]
    ring
  rw [hfirst] at hlow ⊢
  rw [hlast] at hhigh ⊢
  generalize (Interval.of m e).magnitude - (d + 1 : ℕ) + 1 = k at *
  generalize ((Interval.of m e).onGrid k).value / ((Interval.of m e).onGrid k).unit = q at *
  have hspacing : (0 : ℚ) < 10 ^ k := by positivity
  have hqLow : 10 ^ d < q + 1 := by
    exact_mod_cast lt_of_mul_lt_mul_right (hlow.trans_lt hup) hspacing.le
  have hqHigh : q < 10 ^ (d + 1) := by
    exact_mod_cast lt_of_mul_lt_mul_right (hdown.trans_lt hhigh) hspacing.le
  have hnLow : (10 ^ d : ℚ) ≤ n := by exact_mod_cast (show 10 ^ d ≤ n by omega)
  have hnHigh : (n : ℚ) ≤ 10 ^ (d + 1) := by exact_mod_cast (show n ≤ 10 ^ (d + 1) by omega)
  exact ⟨by gcongr, by gcongr⟩

theorem shortest_number_pos (h : Canonical m e) (hm : 0 < m) : 0 < (shortest m e).number := by
  refine Nat.pos_of_ne_zero fun hzero => ?_
  have hpos := (shortest_roundsTo h hm).pos hm
  simp [Digits.value, hzero] at hpos

end LazyLang.Decimal
