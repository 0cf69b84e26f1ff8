import LazyLang.Value.Arithmetic
import Mathlib.Algebra.Ring.Int.Parity

/-!
# Exact arithmetic on integers

An operation on integers is exact when it gives the mathematical result, or fails with an overflow
where no integer of 64 bits is that result (`Value.IsExact`). The quotient, which is cut toward
zero, is exact for every divisor but zero, and a power for every exponent of at most 32 bits
(`Value.integerPower_eq`): the powers that are not computed as such are those of 0, 1 and -1 and
those that are too large for any base.

Two corners are not exact. The remainder of the least integer by -1 fails like the quotient,
although it is zero. An exponent of more than 32 bits is refused as if it were negative, although
the powers of 0, 1 and -1 fit.
-/

namespace LazyLang.Value

/-- The outcome is the integer `n`, or an overflow of the operation if `n` does not fit 64 bits. -/
def IsExact (operation : String) (n : ℤ) (outcome : Except RuntimeError Value) : Prop :=
  (∃ z : Int64, z.toInt = n ∧ outcome = .ok (.integer z)) ∨
    (∀ z : Int64, z.toInt ≠ n) ∧ outcome = .error (.overflow operation)

section Fitting

variable {operation : String}

theorem fitInteger_isExact (operation : String) (n : ℤ) :
    IsExact operation n (fitInteger operation n) := by
  unfold fitInteger
  split
  · next h =>
      simp only [Bool.and_eq_true, decide_eq_true_eq] at h
      exact .inl ⟨Int64.ofInt n, Int64.toInt_ofInt_of_le h.1 h.2, rfl⟩
  · next h =>
      refine .inr ⟨fun z hz => h ?_, rfl⟩
      subst hz
      simp only [Bool.and_eq_true, decide_eq_true_eq]
      exact ⟨Int64.le_toInt z, Int64.toInt_lt z⟩

/-- An integer of 64 bits fits. -/
theorem fitInteger_toInt (z : Int64) : fitInteger operation z.toInt = .ok (.integer z) := by
  obtain ⟨w, hw, hfit⟩ | ⟨hno, -⟩ := fitInteger_isExact operation z.toInt
  · rwa [Int64.toInt_inj.1 hw] at hfit
  · exact absurd rfl (hno z)

/-- Nothing but an overflow keeps an exact operation from its result. -/
theorem IsExact.error_eq {n : ℤ} {e : RuntimeError} (h : IsExact operation n (.error e)) :
    e = .overflow operation := by
  obtain ⟨w, -, heq⟩ | ⟨-, heq⟩ := h
  · cases heq
  · cases heq
    rfl

end Fitting

section Power

/-- The powers of 0, 1 and -1 depend on the exponent only by its parity, and whether it is zero. -/
theorem pow_eq_of_natAbs_le_one {x : ℤ} (hx : x.natAbs ≤ 1) (n : ℕ) :
    x ^ (if n = 0 then 0 else 2 - n % 2) = x ^ n := by
  by_cases hn : n = 0
  · rw [if_pos hn, hn]
  · rw [if_neg hn]
    obtain rfl | rfl | rfl : x = 0 ∨ x = 1 ∨ x = -1 := by omega
    · rw [zero_pow hn, zero_pow (by omega)]
    · rw [one_pow, one_pow]
    · rcases Nat.even_or_odd n with heven | hodd
      · rw [heven.neg_one_pow, Nat.even_iff.1 heven]
        rfl
      · rw [hodd.neg_one_pow, Nat.odd_iff.1 hodd]
        rfl

/-- From the 64th on, the powers of any other integer do not fit. -/
theorem toInt_ne_pow {x : ℤ} (hx : ¬x.natAbs ≤ 1) {n : ℕ} (hn : ¬n < 64) (z : Int64) :
    z.toInt ≠ x ^ n := by
  intro heq
  have hlarge : 2 ^ 64 ≤ z.toInt.natAbs :=
    calc 2 ^ 64
      _ ≤ 2 ^ n := Nat.pow_le_pow_right (by decide) (Nat.le_of_not_lt hn)
      _ ≤ x.natAbs ^ n := Nat.pow_le_pow_left (by omega) n
      _ = z.toInt.natAbs := by rw [heq, Int.natAbs_pow]
  have hlow := Int64.le_toInt z
  have hhigh := Int64.toInt_lt z
  omega

/-- The power is computed exactly, whichever way it is computed. -/
theorem integerPower_eq (x : ℤ) (n : ℕ) : integerPower x n = fitInteger "**" (x ^ n) := by
  unfold integerPower
  split
  · next hx => exact congrArg (fitInteger "**") (pow_eq_of_natAbs_le_one hx n)
  · next hx =>
      split
      · rfl
      · next hn =>
          obtain ⟨z, hz, -⟩ | ⟨-, hfit⟩ := fitInteger_isExact "**" (x ^ n)
          · exact absurd hz (toInt_ne_pow hx hn z)
          · exact hfit.symm

/-- Powers are exact for exponents of at most 32 bits. Every other exponent is refused with the same
words, be it negative or too large. -/
theorem power_isExact (x y : Int64) :
    (0 ≤ y → y.toInt < 2 ^ 32 →
        IsExact "**" (x.toInt ^ y.toInt.toNat) (power (.integer x) (.integer y))) ∧
      (power (.integer x) (.integer y) =
        .error (.invalidArgument "**" "negative integer exponent") ↔ y < 0 ∨ 2 ^ 32 ≤ y.toInt) := by
  have hpower : power (.integer x) (.integer y) =
      if 0 ≤ y.toInt && y.toInt < 2 ^ 32 then fitInteger "**" (x.toInt ^ y.toInt.toNat)
      else .error (.invalidArgument "**" "negative integer exponent") := by
    rw [← integerPower_eq]
    rfl
  rw [hpower, Int64.le_iff_toInt_le, Int64.lt_iff_toInt_lt, Int64.toInt_zero]
  have hexact := fitInteger_isExact "**" (x.toInt ^ y.toInt.toNat)
  split
  · next h =>
      simp only [Bool.and_eq_true, decide_eq_true_eq] at h
      refine ⟨fun _ _ => hexact, fun hrefused => ?_, fun hy => by omega⟩
      rw [hrefused] at hexact
      cases hexact.error_eq
  · next h =>
      simp only [Bool.and_eq_true, decide_eq_true_eq] at h
      exact ⟨fun hy hlt => absurd ⟨hy, hlt⟩ h, fun _ => by omega, fun _ => rfl⟩

/-- The greatest power of 3 that fits, and the next one. -/
theorem power_isExact_three :
    IsExact "**" (3 ^ 39) (power (.integer 3) (.integer 39)) ∧
      IsExact "**" (3 ^ 40) (power (.integer 3) (.integer 40)) :=
  ⟨(power_isExact 3 39).1 (by decide) (by decide), (power_isExact 3 40).1 (by decide) (by decide)⟩

/-- A large exponent is taken for a negative one, even that of 1. -/
theorem not_power_isExact :
    ¬∀ x y : Int64,
      (0 ≤ y → IsExact "**" (x.toInt ^ y.toInt.toNat) (power (.integer x) (.integer y))) ∧
        (power (.integer x) (.integer y) =
          .error (.invalidArgument "**" "negative integer exponent") ↔ y < 0) := by
  intro h
  have hrefused : power (.integer 1) (.integer 4294967296) =
      .error (.invalidArgument "**" "negative integer exponent") := rfl
  exact absurd ((h 1 4294967296).2.1 hrefused) (by decide)

end Power

section Division

variable {x y : Int64}

theorem toInt_eq_zero : y.toInt = 0 ↔ y = 0 := by
  rw [← Int64.toInt_zero, Int64.toInt_inj]

theorem divide_zero (hy : y = 0) :
    divide (.integer x) (.integer y) = .error .divisionByZero := if_pos (toInt_eq_zero.2 hy)

theorem divide_eq (hy : y ≠ 0) :
    divide (.integer x) (.integer y) = fitInteger "/" (x.toInt.tdiv y.toInt) :=
  if_neg (mt toInt_eq_zero.1 hy)

theorem remainder_zero (hy : y = 0) :
    remainder (.integer x) (.integer y) = .error .divisionByZero := if_pos (toInt_eq_zero.2 hy)

/-- The absolute value of a remainder is at most that of the dividend, and its sign the same. -/
theorem tmod_bounds (a b : ℤ) : 0 ≤ a ∧ 0 ≤ a.tmod b ∧ a.tmod b ≤ a ∨
    a ≤ 0 ∧ a ≤ a.tmod b ∧ a.tmod b ≤ 0 := by
  have habs : (a.tmod b).natAbs ≤ a.natAbs := Int.natAbs_tmod a b ▸ Nat.mod_le _ _
  rcases Int.le_total 0 a with ha | ha
  · have := Int.tmod_nonneg b ha
    omega
  · have := Int.tmod_nonneg b (Int.neg_nonneg_of_nonpos ha)
    rw [Int.neg_tmod] at this
    omega

/-- An integer between another one and zero fits. -/
theorem exists_toInt_eq {n : ℤ} (h : 0 ≤ x.toInt ∧ 0 ≤ n ∧ n ≤ x.toInt ∨
    x.toInt ≤ 0 ∧ x.toInt ≤ n ∧ n ≤ 0) : ∃ z : Int64, z.toInt = n := by
  have hlow := Int64.le_toInt x
  have hhigh := Int64.toInt_lt x
  exact ⟨Int64.ofInt n, Int64.toInt_ofInt_of_le (by omega) (by omega)⟩

theorem remainder_eq (hy : y ≠ 0) (hcorner : ¬(x = Int64.minValue ∧ y = -1)) :
    ∃ r : Int64, r.toInt = x.toInt.tmod y.toInt ∧
      remainder (.integer x) (.integer y) = .ok (.integer r) := by
  have hremainder : remainder (.integer x) (.integer y) =
      fitInteger "%" (x.toInt.tmod y.toInt) := by
    refine (if_neg (mt toInt_eq_zero.1 hy)).trans (if_neg fun hmin => hcorner ?_)
    simp only [Bool.and_eq_true, decide_eq_true_eq] at hmin
    exact hmin.imp (fun h => Int64.toInt_inj.1 h) fun h => Int64.toInt_inj.1 h
  obtain ⟨r, hr⟩ := exists_toInt_eq (tmod_bounds x.toInt y.toInt)
  rw [hremainder, ← hr, fitInteger_toInt]
  exact ⟨r, rfl, rfl⟩

/-- Where there is a quotient, its product with the divisor and the sum with the remainder are there
too, and the sum is the dividend. -/
theorem add_multiply_divide {q : Value} (hq : divide (.integer x) (.integer y) = .ok q) :
    ∃ r m, remainder (.integer x) (.integer y) = .ok r ∧ multiply q (.integer y) = .ok m ∧
      add m r = .ok (.integer x) := by
  have hy : y ≠ 0 := by
    intro hzero
    rw [divide_zero hzero] at hq
    cases hq
  have hexact := fitInteger_isExact "/" (x.toInt.tdiv y.toInt)
  rw [← divide_eq hy, hq] at hexact
  obtain ⟨z, hz, hvalue⟩ | ⟨-, hfail⟩ := hexact
  swap
  · cases hfail
  cases hvalue
  -- the quotient in the corner does not fit
  have hcorner : ¬(x = Int64.minValue ∧ y = -1) := by
    rintro ⟨rfl, rfl⟩
    cases hq
  obtain ⟨r, hr, hremainder⟩ := remainder_eq hy hcorner
  have hsum := Int.tdiv_mul_add_tmod x.toInt y.toInt
  obtain ⟨m, hm⟩ : ∃ m : Int64, m.toInt = x.toInt.tdiv y.toInt * y.toInt := by
    have hbounds := tmod_bounds x.toInt y.toInt
    exact exists_toInt_eq (x := x) (by omega)
  refine ⟨.integer r, .integer m, hremainder, ?_, ?_⟩
  · change fitInteger "*" (z.toInt * y.toInt) = _
    rw [hz, ← hm, fitInteger_toInt]
  · change fitInteger "+" (m.toInt + r.toInt) = _
    rw [hm, hr, hsum, fitInteger_toInt]

/-- Quotient and remainder of integers fail for the divisor zero and for no other with this failure.
The quotient is exact, the remainder is there and exact but for the least integer by -1, which
overflows with the quotient; and the two make up the dividend. -/
theorem divide_remainder_isExact (x y : Int64) :
    (divide (.integer x) (.integer y) = .error .divisionByZero ↔ y = 0) ∧
      (remainder (.integer x) (.integer y) = .error .divisionByZero ↔ y = 0) ∧
      (y ≠ 0 → IsExact "/" (x.toInt.tdiv y.toInt) (divide (.integer x) (.integer y))) ∧
      (y ≠ 0 → ¬(x = Int64.minValue ∧ y = -1) → ∃ r : Int64, r.toInt = x.toInt.tmod y.toInt ∧
        remainder (.integer x) (.integer y) = .ok (.integer r)) ∧
      (x = Int64.minValue ∧ y = -1 →
        remainder (.integer x) (.integer y) = .error (.overflow "%")) ∧
      ∀ q, divide (.integer x) (.integer y) = .ok q →
        ∃ r m, remainder (.integer x) (.integer y) = .ok r ∧
          multiply q (.integer y) = .ok m ∧ add m r = .ok (.integer x) := by
  have hoverflow : x = Int64.minValue ∧ y = -1 →
      remainder (.integer x) (.integer y) = .error (.overflow "%") := by
    rintro ⟨rfl, rfl⟩
    rfl
  have hquotient (hy : y ≠ 0) :
      IsExact "/" (x.toInt.tdiv y.toInt) (divide (.integer x) (.integer y)) := by
    rw [divide_eq hy]
    exact fitInteger_isExact "/" _
  refine ⟨⟨fun h => ?_, divide_zero⟩, ⟨fun h => ?_, remainder_zero⟩, hquotient,
    remainder_eq, hoverflow, fun q hq => add_multiply_divide hq⟩
  · by_contra hy
    cases (h ▸ hquotient hy).error_eq
  · by_contra hy
    by_cases hcorner : x = Int64.minValue ∧ y = -1
    · cases (hoverflow hcorner).symm.trans h
    · obtain ⟨r, -, hr⟩ := remainder_eq hy hcorner
      cases hr.symm.trans h

/-- The least integer by 10. -/
theorem divide_remainder_isExact_minValue :
    IsExact "/" (-922337203685477580) (divide (.integer Int64.minValue) (.integer 10)) ∧
      (∃ r : Int64, r.toInt = -8 ∧
        remainder (.integer Int64.minValue) (.integer 10) = .ok (.integer r)) ∧
      ∃ r m, remainder (.integer Int64.minValue) (.integer 10) = .ok r ∧
        multiply (.integer (-922337203685477580)) (.integer 10) = .ok m ∧
          add m r = .ok (.integer Int64.minValue) := by
  obtain ⟨-, -, hquotient, hremainder, -, hsum⟩ := divide_remainder_isExact Int64.minValue 10
  exact ⟨hquotient (by decide), hremainder (by decide) (by decide), hsum _ rfl⟩

/-- The remainder of the least integer by -1 is zero, but it overflows. -/
theorem not_remainder_isExact :
    ¬∀ x y : Int64, y ≠ 0 → ∃ r : Int64, r.toInt = x.toInt.tmod y.toInt ∧
      remainder (.integer x) (.integer y) = .ok (.integer r) := by
  intro h
  obtain ⟨r, -, hr⟩ := h Int64.minValue (-1) (by decide)
  cases hr

end Division

end LazyLang.Value
