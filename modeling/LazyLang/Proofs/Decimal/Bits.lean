import LazyLang.Proofs.Decimal.Rounding
import Mathlib

/-!
# The bits of a float read from a decimal

Bits that stand for no NaN are those of a float (`toBits_ofBits`), so the float nearest to a number
has the bits that `nearestBits` finds: it is infinite, or it has the mantissa and the exponent that
number these bits (`ofFloat_nearest_cases`).
-/

namespace LazyLang.Decimal

variable {bits m n num den : ℕ} {e k : ℤ}

/-- Bits that stand for no NaN are those of their float. -/
theorem toBits_ofBits {b : UInt64} (h : b.toNat ≤ infiniteBits) : (Float.ofBits b).toBits = b := by
  refine UInt64.toBitVec_inj.mp (Float.Model.UnpackedFloat.pack_unpack_of_valid ⟨fun he hm => ?_⟩)
  have hexponent := congrArg BitVec.toNat he
  have hmantissa := mt BitVec.toNat_inj.mp hm
  rw [Float.Model.UnpackedFloat.unpackExponent_def, BitVec.extractLsb'_toNat] at hexponent
  rw [Float.Model.UnpackedFloat.unpackMantissa_def, BitVec.extractLsb'_toNat] at hmantissa
  -- an exponent of ones and a mantissa other than zero make more than the infinite bits
  change b.toNat >>> 52 % 2 ^ 11 = 2047 at hexponent
  change ¬b.toNat >>> 0 % 2 ^ 52 = 0 at hmantissa
  rw [Nat.shiftRight_eq_div_pow] at hexponent hmantissa
  unfold infiniteBits at h
  omega

/-- The bits of a number that is too large are those of the infinite float. -/
theorem nearestBits_le (num den : ℕ) : nearestBits num den ≤ infiniteBits := by
  unfold nearestBits
  split
  · exact Nat.zero_le _
  · exact min_le_right _ _

theorem ofFloat_nearest (num den : ℕ) :
    Binary.ofFloat (nearest false num den) = Binary.ofBits (nearestBits num den) := by
  have hle := nearestBits_le num den
  have hnat : (UInt64.ofNat (nearestBits num den)).toNat = nearestBits num den :=
    UInt64.toNat_ofNat_of_lt' (hle.trans_lt (by decide))
  rw [Binary.ofFloat, nearest, if_neg Bool.false_ne_true, Nat.zero_add,
    toBits_ofBits (hnat.trans_le hle), hnat]

/-- Bits below those of the infinite float number a mantissa and an exponent. -/
theorem exists_bitsOf (h : bits < infiniteBits) :
    ∃ m e, Canonical m e ∧ bitsOf m e = bits ∧ Binary.ofBits bits = .finite false m e := by
  have hfraction : bits % 2 ^ 52 < 2 ^ 52 := Nat.mod_lt _ (by decide)
  have hparts : bits / 2 ^ 52 * 2 ^ 52 + bits % 2 ^ 52 = bits := Nat.div_add_mod' bits (2 ^ 52)
  have hsign : bits / 2 ^ 63 % 2 = 0 := by
    unfold infiniteBits at h
    omega
  have hbiased : bits / 2 ^ 52 < 2047 := by
    unfold infiniteBits at h
    omega
  have hwhole : bits / 2 ^ 52 % 2 ^ 11 = bits / 2 ^ 52 := Nat.mod_eq_of_lt (by omega)
  unfold Binary.ofBits
  simp only [Nat.pow_eq, hsign, hwhole, if_neg (Nat.ne_of_lt hbiased)]
  generalize bits / 2 ^ 52 = biased at *
  generalize bits % 2 ^ 52 = fraction at *
  split
  · next hzero =>
      have hnumber : bitsOf fraction (-1074) = bits := by rw [← hparts, hzero]; rfl
      have hcanonical : Canonical fraction (-1074) := ⟨by omega, .inl rfl, le_refl _⟩
      exact ⟨fraction, -1074, hcanonical, hnumber, rfl⟩
  · next hne =>
      obtain ⟨exponent, rfl⟩ := Nat.exists_eq_succ_of_ne_zero hne
      have hnumber : bitsOf (2 ^ 52 + fraction) ((exponent.succ : ℕ) - 1075) = bits := by
        have hexponent : (((exponent.succ : ℕ) : ℤ) - 1075 + 1074).toNat = exponent := by omega
        rw [bitsOf, hexponent, ← hparts, Nat.succ_mul, Nat.add_assoc]
      have hcanonical : Canonical (2 ^ 52 + fraction) ((exponent.succ : ℕ) - 1075) :=
        ⟨by omega, .inr (Nat.le_add_right _ _), by omega⟩
      exact ⟨2 ^ 52 + fraction, (exponent.succ : ℕ) - 1075, hcanonical, hnumber, rfl⟩

theorem ofBits_infiniteBits : Binary.ofBits infiniteBits = .infinite false := by
  decide

/-- The float nearest to a number is infinite, or it has the mantissa and the exponent that number
the bits found. -/
theorem ofFloat_nearest_cases (num den : ℕ) :
    Binary.ofFloat (nearest false num den) = .infinite false ∨
      ∃ m e, Canonical m e ∧ bitsOf m e < infiniteBits ∧ nearestBits num den = bitsOf m e ∧
        Binary.ofFloat (nearest false num den) = .finite false m e := by
  rw [ofFloat_nearest]
  rcases Nat.lt_or_eq_of_le (nearestBits_le num den) with hlt | heq
  · obtain ⟨m, e, hcanonical, hbits, hparts⟩ := exists_bitsOf hlt
    exact .inr ⟨m, e, hcanonical, hbits ▸ hlt, hbits.symm, hparts⟩
  · rw [heq]
    exact .inl ofBits_infiniteBits

/-- A number that rounds to the float that was read is read as the same float. -/
theorem nearest_eq_of_roundsTo {num' den' : ℕ} (h : Canonical m e)
    (hbits : bitsOf m e < infiniteBits) (hread : nearestBits num den = bitsOf m e) (hden : 0 < den')
    (hr : RoundsTo (num' / den') m e) : nearest false num' den' = nearest false num den := by
  rw [nearest, nearest, hread, nearestBits_eq h hbits.le hden hr]

end LazyLang.Decimal
