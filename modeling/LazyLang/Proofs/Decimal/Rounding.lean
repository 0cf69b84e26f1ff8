import LazyLang.Decimal.Binary
import Mathlib.Algebra.Order.Field.Power
import Mathlib.Data.Rat.Cast.Order
import Mathlib.Tactic.FieldSimp
import Mathlib.Tactic.Linarith
import Mathlib.Tactic.Positivity
import Mathlib.Tactic.Ring

/-!
# Rounding to the nearest float

The positive finite floats are the numbers `m · 2 ^ e` with `Canonical m e`, and `bitsOf` numbers
them in their order. `RoundsTo r m e` says that `r` lies between the middles to the two neighbours
of `m · 2 ^ e`, which belong to the float whose mantissa is even. `nearestBits` finds the float that
a quotient rounds to in this sense (`nearestBits_eq`).
-/

namespace LazyLang.Decimal

/-- The mantissas and exponents of floats: 53 bits with the first one set, or the least exponent. -/
structure Canonical (m : ℕ) (e : ℤ) : Prop where
  lt : m < 2 ^ 53
  normal : e = -1074 ∨ 2 ^ 52 ≤ m
  le : -1074 ≤ e

/-- The number with mantissa `m` and exponent `e`. -/
def magnitudeOf (m : ℕ) (e : ℤ) : ℚ := m * 2 ^ e

/-- The bits of the infinite float without a sign. -/
def infiniteBits : ℕ := 2047 * 2 ^ 52

/-- The bits of a float without a sign. -/
def bitsOf (m : ℕ) (e : ℤ) : ℕ := (e + 1074).toNat * 2 ^ 52 + m

/-- The distance to the middle between a float and the one below it. Below a power of two the floats
lie twice as dense. -/
def gapBelow (m : ℕ) (e : ℤ) : ℚ := if m = 2 ^ 52 ∧ -1074 < e then 2 ^ e / 4 else 2 ^ e / 2

/-- The number `r` rounds to the float: it is no farther away than the middles to its neighbours,
and nearer than they are if the mantissa is odd. -/
structure RoundsTo (r : ℚ) (m : ℕ) (e : ℤ) : Prop where
  low : magnitudeOf m e - gapBelow m e ≤ r
  high : r ≤ magnitudeOf m e + 2 ^ e / 2
  strict : m % 2 = 1 → magnitudeOf m e - gapBelow m e < r ∧ r < magnitudeOf m e + 2 ^ e / 2

variable {m k num den : ℕ} {e : ℤ} {r : ℚ}

theorem gapBelow_pos (m : ℕ) (e : ℤ) : 0 < gapBelow m e := by
  unfold gapBelow
  split <;> positivity

theorem gapBelow_le (m : ℕ) (e : ℤ) : gapBelow m e ≤ 2 ^ e / 2 := by
  have hpos : (0 : ℚ) < 2 ^ e := by positivity
  unfold gapBelow
  split <;> linarith

/-- A quotient rounds to the number that it is within a half of, and to an even one from a half
away. -/
theorem roundHalfEven_eq (hden : 0 < den) (hlow : (k : ℚ) - 1 / 2 ≤ num / den)
    (hhigh : (num : ℚ) / den ≤ k + 1 / 2)
    (hstrict : k % 2 = 1 → (k : ℚ) - 1 / 2 < num / den ∧ (num : ℚ) / den < k + 1 / 2) :
    roundHalfEven num den = k := by
  have hpos : (0 : ℚ) < den := by exact_mod_cast hden
  rw [le_div_iff₀ hpos, sub_mul] at hlow
  rw [div_le_iff₀ hpos, add_mul] at hhigh
  rw [lt_div_iff₀ hpos, div_lt_iff₀ hpos, sub_mul, add_mul] at hstrict
  -- the bounds as equations between natural numbers
  have hlow' : 2 * (den * k) ≤ 2 * num + den := by
    have : (2 * (den * k) : ℚ) ≤ 2 * num + den := by linarith
    exact_mod_cast this
  have hhigh' : 2 * num ≤ 2 * (den * k) + den := by
    have : (2 * num : ℚ) ≤ 2 * (den * k) + den := by linarith
    exact_mod_cast this
  have hstrict' : k % 2 = 1 → 2 * (den * k) < 2 * num + den ∧ 2 * num < 2 * (den * k) + den := by
    intro hodd
    obtain ⟨hleft, hright⟩ := hstrict hodd
    have h1 : (2 * (den * k) : ℚ) < 2 * num + den := by linarith
    have h2 : (2 * num : ℚ) < 2 * (den * k) + den := by linarith
    exact ⟨by exact_mod_cast h1, by exact_mod_cast h2⟩
  have hnum : den * (num / den) + num % den = num := Nat.div_add_mod num den
  have hmod : num % den < den := Nat.mod_lt num hden
  unfold roundHalfEven
  dsimp only
  generalize num / den = q at *
  generalize num % den = r at *
  have hle : k ≤ q + 1 := by
    by_contra hlt
    have := Nat.mul_le_mul_left den (show q + 2 ≤ k by omega)
    rw [Nat.mul_add] at this
    omega
  have hge : q ≤ k := by
    by_contra hlt
    have := Nat.mul_le_mul_left den (show k + 1 ≤ q by omega)
    rw [Nat.mul_add] at this
    omega
  obtain rfl | rfl : k = q ∨ k = q + 1 := by omega
  · split_ifs <;> omega
  · rw [Nat.mul_add] at hlow' hhigh' hstrict'
    split_ifs <;> omega

/-- Scaling divides a quotient by a power of two. -/
theorem scaleBy_div (num den : ℕ) (e : ℤ) :
    ((scaleBy num den e).1 : ℚ) / (scaleBy num den e).2 = num / den / 2 ^ e := by
  unfold scaleBy
  split
  · next he =>
      obtain ⟨n, rfl⟩ := Int.eq_ofNat_of_zero_le he
      simp [div_div]
  · next he =>
      obtain ⟨n, hn⟩ := Int.eq_ofNat_of_zero_le (show 0 ≤ -e by omega)
      obtain rfl : e = -(n : ℤ) := by omega
      simp [zpow_neg, mul_div_right_comm]

theorem scaleBy_pos (hden : 0 < den) (num : ℕ) (e : ℤ) : 0 < (scaleBy num den e).2 := by
  unfold scaleBy
  split
  · exact Nat.mul_pos hden (Nat.pow_pos Nat.two_pos)
  · exact hden

/-- What is asked of the exponent that a quotient is written with. -/
structure Fitting (num den : ℕ) (e : ℤ) : Prop where
  lt : (num : ℚ) / den < 2 ^ (e + 53)
  le : e = -1074 ∨ (2 : ℚ) ^ (e + 52) ≤ num / den
  least : -1074 ≤ e

theorem log2_bounds {n : ℕ} (hn : 0 < n) :
    (2 : ℚ) ^ (n.log2 : ℤ) ≤ n ∧ (n : ℚ) < 2 ^ ((n.log2 : ℤ) + 1) := by
  have hle : 2 ^ n.log2 ≤ n := Nat.log2_self_le (Nat.pos_iff_ne_zero.1 hn)
  have hlt : n < 2 ^ (n.log2 + 1) := Nat.lt_log2_self
  constructor
  · rw [zpow_natCast]
    exact_mod_cast hle
  · rw [← Nat.cast_succ, zpow_natCast]
    exact_mod_cast hlt

theorem quotient_bounds (hnum : 0 < num) (hden : 0 < den) :
    (2 : ℚ) ^ ((num.log2 : ℤ) - den.log2 - 52 + 51) ≤ num / den ∧
      (num : ℚ) / den < 2 ^ ((num.log2 : ℤ) - den.log2 - 52 + 53) := by
  obtain ⟨hnumLow, hnumHigh⟩ := log2_bounds hnum
  obtain ⟨hdenLow, hdenHigh⟩ := log2_bounds hden
  have hpos : (0 : ℚ) < den := by exact_mod_cast hden
  constructor
  · rw [le_div_iff₀ hpos]
    calc (2 : ℚ) ^ ((num.log2 : ℤ) - den.log2 - 52 + 51) * den
        ≤ 2 ^ ((num.log2 : ℤ) - den.log2 - 52 + 51) * 2 ^ ((den.log2 : ℤ) + 1) := by gcongr
      _ = 2 ^ (num.log2 : ℤ) := by
        rw [← zpow_add₀ two_ne_zero]
        congr 1
        ring
      _ ≤ num := hnumLow
  · rw [div_lt_iff₀ hpos]
    calc (num : ℚ) < 2 ^ ((num.log2 : ℤ) + 1) := hnumHigh
      _ = 2 ^ ((num.log2 : ℤ) - den.log2 - 52 + 53) * 2 ^ (den.log2 : ℤ) := by
        rw [← zpow_add₀ two_ne_zero]
        congr 1
        ring
      _ ≤ 2 ^ ((num.log2 : ℤ) - den.log2 - 52 + 53) * den := by gcongr

/-- A rounded down quotient compares with a number as the quotient does. -/
theorem div_lt_cast_iff (hden : 0 < den) (n : ℕ) : num / den < n ↔ (num : ℚ) / den < n := by
  have hpos : (0 : ℚ) < den := by exact_mod_cast hden
  rw [Nat.div_lt_iff_lt_mul hden, div_lt_iff₀ hpos]
  norm_cast

theorem fitting_mantissaExponent (hnum : 0 < num) (hden : 0 < den) :
    Fitting num den (mantissaExponent num den) := by
  obtain ⟨hlow, hhigh⟩ := quotient_bounds hnum hden
  unfold mantissaExponent
  dsimp only
  generalize (num.log2 : ℤ) - den.log2 - 52 = guess at *
  have hscaled : (scaleBy num den guess).1 / (scaleBy num den guess).2 < Nat.pow 2 52 ↔
      (num : ℚ) / den < 2 ^ (guess + 52) := by
    rw [div_lt_cast_iff (scaleBy_pos hden num guess), scaleBy_div, div_lt_iff₀ (by positivity),
      add_comm guess, zpow_add₀ two_ne_zero]
    norm_num
  -- the exponent before it is cut off at the least one
  have hfit : ∀ exponent : ℤ, (num : ℚ) / den < 2 ^ (exponent + 53) →
      (2 : ℚ) ^ (exponent + 52) ≤ num / den → Fitting num den (max exponent (-1074)) := by
    intro exponent hlt hle
    refine ⟨hlt.trans_le (zpow_le_zpow_right₀ one_le_two (by omega)), ?_, le_max_right _ _⟩
    rcases le_total exponent (-1074) with hcut | hcut
    · exact .inl (max_eq_right hcut)
    · exact .inr (by rwa [max_eq_left hcut])
  split
  · next hlt =>
      refine hfit _ ?_ ?_
      · rw [show guess - 1 + 53 = guess + 52 by ring]
        exact hscaled.1 hlt
      · rw [show guess - 1 + 52 = guess + 51 by ring]
        exact hlow
  · next hge => exact hfit _ hhigh (not_lt.1 (mt hscaled.2 hge))

namespace RoundsTo

theorem half_low (h : RoundsTo r m e) : (m - 1 / 2) * 2 ^ e ≤ r := by
  have hgap := gapBelow_le m e
  have hlow := h.low
  unfold magnitudeOf at hlow
  linarith

theorem half_high (h : RoundsTo r m e) : r ≤ (m + 1 / 2) * 2 ^ e := by
  have hhigh := h.high
  unfold magnitudeOf at hhigh
  linarith

theorem half_strict (h : RoundsTo r m e) (hodd : m % 2 = 1) :
    (m - 1 / 2) * 2 ^ e < r ∧ r < (m + 1 / 2) * 2 ^ e := by
  have hgap := gapBelow_le m e
  obtain ⟨hlow, hhigh⟩ := h.strict hodd
  unfold magnitudeOf at hlow hhigh
  exact ⟨by linarith, by linarith⟩

end RoundsTo

namespace Canonical

variable (h : Canonical m e) {exponent : ℤ} (hr : RoundsTo (num / den) m e) (hden : 0 < den)
  (hfit : Fitting num den exponent)

include hr hden in
theorem rounded_eq : roundHalfEven (scaleBy num den e).1 (scaleBy num den e).2 = m := by
  have hpos : (0 : ℚ) < 2 ^ e := by positivity
  refine roundHalfEven_eq (scaleBy_pos hden num e) ?_ ?_ fun hodd => ?_
  · rw [scaleBy_div, le_div_iff₀ hpos]
    exact hr.half_low
  · rw [scaleBy_div, div_le_iff₀ hpos]
    exact hr.half_high
  · rw [scaleBy_div, lt_div_iff₀ hpos, div_lt_iff₀ hpos]
    exact hr.half_strict hodd

include h hr hfit in
/-- What rounds to a float is written with its exponent, or lies right below a power of two. -/
theorem exponent_eq_or : exponent = e ∨
    m = 2 ^ 52 ∧ exponent + 1 = e ∧ (2 ^ 53 - 1 / 2 : ℚ) * 2 ^ exponent ≤ num / den ∧
      (num : ℚ) / den < 2 ^ 53 * 2 ^ exponent := by
  have hpos : (0 : ℚ) < 2 ^ e := by positivity
  have hle53 : (m : ℚ) + 1 ≤ 2 ^ 53 := by exact_mod_cast h.lt
  rcases lt_trichotomy exponent e with hlt | heq | hgt
  · right
    have hnormal : 2 ^ 52 ≤ m := h.normal.resolve_left (by have := hfit.least; omega)
    have hbelow : (num : ℚ) / den < 2 ^ 52 * 2 ^ e := by
      calc (num : ℚ) / den < 2 ^ (exponent + 53) := hfit.lt
        _ ≤ 2 ^ (52 + e) := zpow_le_zpow_right₀ one_le_two (by omega)
        _ = 2 ^ 52 * 2 ^ e := by rw [zpow_add₀ two_ne_zero]; norm_cast
    have hm : m = 2 ^ 52 := by
      by_contra hne
      have hnext : (2 : ℚ) ^ 52 + 1 ≤ m := by
        exact_mod_cast (show 2 ^ 52 + 1 ≤ m by omega)
      have hlow := hr.half_low
      nlinarith
    have hlow : (2 ^ 52 - 1 / 4 : ℚ) * 2 ^ e ≤ num / den := by
      have hlow := hr.low
      rw [gapBelow, if_pos ⟨hm, by have := hfit.least; omega⟩, magnitudeOf, hm] at hlow
      push_cast at hlow
      linarith
    have hexponent : exponent + 1 = e := by
      by_contra hne
      have hsmall : (num : ℚ) / den < 2 ^ 51 * 2 ^ e := by
        calc (num : ℚ) / den < 2 ^ (exponent + 53) := hfit.lt
          _ ≤ 2 ^ (51 + e) := zpow_le_zpow_right₀ one_le_two (by omega)
          _ = 2 ^ 51 * 2 ^ e := by rw [zpow_add₀ two_ne_zero]; norm_cast
      nlinarith
    subst hexponent
    rw [zpow_add_one₀ two_ne_zero] at hlow hbelow
    exact ⟨hm, rfl, by linarith, by linarith⟩
  · exact .inl heq
  · have habove : (2 : ℚ) ^ 53 * 2 ^ e ≤ num / den := by
      calc (2 : ℚ) ^ 53 * 2 ^ e = 2 ^ (53 + e) := by rw [zpow_add₀ two_ne_zero]; norm_cast
        _ ≤ 2 ^ (exponent + 52) := zpow_le_zpow_right₀ one_le_two (by omega)
        _ ≤ num / den := hfit.le.resolve_left (by have := h.le; omega)
    have hhigh := hr.half_high
    nlinarith

include h hr hden hfit in
/-- Rounding finds the float that a quotient rounds to, with whichever exponent it is written. -/
theorem bitsOf_eq : (exponent + 1074).toNat * 2 ^ 52 +
    roundHalfEven (scaleBy num den exponent).1 (scaleBy num den exponent).2 = bitsOf m e := by
  rcases h.exponent_eq_or hr hfit with rfl | ⟨rfl, rfl, hlow, hhigh⟩
  · rw [rounded_eq hr hden, bitsOf]
  · -- the mantissa is rounded up to one bit more, which carries into the exponent
    have hpos : (0 : ℚ) < 2 ^ exponent := by positivity
    have hround : roundHalfEven (scaleBy num den exponent).1 (scaleBy num den exponent).2 =
        2 ^ 53 := by
      refine roundHalfEven_eq (scaleBy_pos hden num exponent) ?_ ?_ fun hodd => by norm_num at hodd
      · rw [scaleBy_div, le_div_iff₀ hpos]
        push_cast
        exact hlow
      · rw [scaleBy_div, div_le_iff₀ hpos]
        push_cast
        linarith
    have hleast := hfit.least
    rw [hround, bitsOf]
    omega

end Canonical

theorem RoundsTo.pos (h : RoundsTo r m e) (hm : 0 < m) : 0 < r := by
  have hone : (1 : ℚ) ≤ m := by exact_mod_cast hm
  have hpos : (0 : ℚ) < 2 ^ e := by positivity
  have hlow := h.half_low
  nlinarith

theorem roundsTo_zero (e : ℤ) : RoundsTo 0 0 e := by
  have hgap := gapBelow_pos 0 e
  have hpos : (0 : ℚ) < 2 ^ e := by positivity
  refine ⟨?_, ?_, fun hodd => by cases hodd⟩
  · rw [magnitudeOf, Nat.cast_zero, zero_mul]
    linarith
  · rw [magnitudeOf, Nat.cast_zero, zero_mul]
    linarith

/-- The float nearest to a quotient is the one that the quotient rounds to. -/
theorem nearestBits_eq (h : Canonical m e) (hbits : bitsOf m e ≤ infiniteBits) (hden : 0 < den)
    (hr : RoundsTo (num / den) m e) : nearestBits num den = bitsOf m e := by
  unfold nearestBits
  split
  · next hnum =>
      -- only zero is read as zero
      have hzero : m = 0 := by
        by_contra hm
        have hpos := hr.pos (Nat.pos_of_ne_zero hm)
        simp [hnum] at hpos
      obtain rfl : e = -1074 := h.normal.resolve_right (by omega)
      rw [hzero]
      rfl
  · next hnum =>
      dsimp only
      rw [Nat.pow_eq, h.bitsOf_eq hr hden (fitting_mantissaExponent (Nat.pos_of_ne_zero hnum) hden)]
      exact min_eq_left hbits

end LazyLang.Decimal
