import LazyLang.Decimal.Text
import LazyLang.Proofs.Decimal.Shortest
import LazyLang.Proofs.Tokens.Patterns

/-!
# The text of a float literal

The digits of a float are written with a point when the float is zero or lies from `0.0001` up to
below `1e16` (`positional_shortest_iff`), and such a text denotes a number that rounds to the float
(`exists_denotes_unsignedText`). Any other text has an `e` among its characters, with nothing before
it but digits and a point (`exists_exponent_unsignedText`).
-/

namespace LazyLang.Decimal

/-- The text consists of digits, a point and digits, and as a decimal it denotes `r`. -/
def Denotes (cs : List Char) (r : ℚ) : Prop :=
  ∃ a ∈ digits, ∃ b ∈ digits, cs = a ++ '.' :: b ∧ (numberOfDigits (a ++ b) : ℚ) / 10 ^ b.length = r

variable {m : ℕ} {e k t : ℤ} {d : Digits}

section Magnitude

/-- The power of ten of the first digit. -/
def Digits.magnitude (d : Digits) : ℤ := d.power + digitCount d.number - 1

theorem Digits.magnitude_bounds (h : 0 < d.number) :
    (10 : ℚ) ^ d.magnitude ≤ d.value ∧ d.value < 10 ^ (d.magnitude + 1) := by
  have hlow : ((10 ^ (digitCount d.number - 1) : ℕ) : ℚ) ≤ d.number := by
    exact_mod_cast pow_digitCount_le h
  have hhigh : (d.number : ℚ) < (10 ^ digitCount d.number : ℕ) := by
    exact_mod_cast lt_pow_digitCount d.number
  obtain ⟨count, hcount⟩ : ∃ count, digitCount d.number = count + 1 :=
    Nat.exists_eq_add_one.2 (digitCount_pos d.number)
  rw [hcount, Nat.add_sub_cancel] at hlow
  rw [hcount] at hhigh
  have hfirst : (10 : ℚ) ^ d.magnitude = (10 ^ count : ℕ) * 10 ^ d.power := by
    rw [Nat.cast_pow, ← zpow_natCast, Nat.cast_ofNat, ← zpow_add₀ (by norm_num), magnitude, hcount]
    congr 1
    push_cast
    ring
  have hnext : (10 : ℚ) ^ (d.magnitude + 1) = (10 ^ (count + 1) : ℕ) * 10 ^ d.power := by
    rw [zpow_add_one₀ (by norm_num), hfirst]
    push_cast
    ring
  rw [hfirst, hnext, value]
  exact ⟨by gcongr, by gcongr⟩

theorem Digits.positional_iff (h : 0 < d.number) :
    Style.literal.positional d.magnitude = true ↔
      (10 : ℚ) ^ (-4 : ℤ) ≤ d.value ∧ d.value < 10 ^ (16 : ℤ) := by
  obtain ⟨hlow, hhigh⟩ := magnitude_bounds h
  have hten : (1 : ℚ) < 10 := by norm_num
  simp only [Style.literal, Bool.and_eq_true, decide_eq_true_eq]
  constructor
  · rintro ⟨hsmall, hlarge⟩
    exact ⟨(zpow_le_zpow_right₀ hten.le (by omega)).trans hlow,
      hhigh.trans_le (zpow_le_zpow_right₀ hten.le (by omega))⟩
  · rintro ⟨hsmall, hlarge⟩
    have hleft := (zpow_lt_zpow_iff_right₀ hten).1 (hsmall.trans_lt hhigh)
    have hright := (zpow_lt_zpow_iff_right₀ hten).1 (hlow.trans_lt hlarge)
    omega

end Magnitude

section Thresholds

/-- A float that lies below a bound of one power of two, with the middle above it above the bound of
the power before, has the exponent of these powers. -/
theorem Canonical.exponent_eq (h : Canonical m e) (hk : -1074 < k)
    (hbelow : magnitudeOf m e < 2 ^ (53 + k)) (habove : (2 : ℚ) ^ (52 + k) < (m + 1 / 2) * 2 ^ e) :
    e = k := by
  have hpos : (0 : ℚ) < 2 ^ e := by positivity
  rcases lt_trichotomy e k with hlt | heq | hgt
  · have hm : (m : ℚ) + 1 ≤ 2 ^ (53 : ℤ) := by exact_mod_cast h.lt
    have hle : (2 : ℚ) ^ (53 + e) ≤ 2 ^ (52 + k) := zpow_le_zpow_right₀ one_le_two (by omega)
    rw [zpow_add₀ two_ne_zero] at hle
    nlinarith
  · exact heq
  · have hm : (2 : ℚ) ^ (52 : ℤ) ≤ m := by
      exact_mod_cast h.normal.resolve_left (by omega)
    have hle : (2 : ℚ) ^ (53 + k) ≤ 2 ^ (52 + e) := zpow_le_zpow_right₀ one_le_two (by omega)
    rw [zpow_add₀ two_ne_zero 52] at hle
    unfold magnitudeOf at hbelow
    nlinarith

/-- A float that `1e16` rounds to is no smaller. -/
theorem not_lt_of_roundsTo_large (h : Canonical m e) (hr : RoundsTo (10 ^ (16 : ℤ)) m e) :
    (10 : ℚ) ^ (16 : ℤ) ≤ magnitudeOf m e := by
  by_contra hlt
  rw [not_le] at hlt
  have hhigh := hr.half_high
  obtain rfl : e = 1 :=
    h.exponent_eq (by decide) (hlt.trans (by norm_num)) (lt_of_lt_of_le (by norm_num) hhigh)
  have hm : 5000000000000000 ≤ m := by
    have hcast : (5000000000000000 : ℚ) < m + 1 := by norm_num at hhigh; linarith
    have hnat : 5000000000000000 < m + 1 := by exact_mod_cast hcast
    omega
  have hcast : (5000000000000000 : ℚ) ≤ m := by exact_mod_cast hm
  norm_num [magnitudeOf] at hlt
  linarith

/-- A float that `0.0001` rounds to is no smaller. -/
theorem not_lt_of_roundsTo_small (h : Canonical m e) (hr : RoundsTo (10 ^ (-4 : ℤ)) m e) :
    (10 : ℚ) ^ (-4 : ℤ) ≤ magnitudeOf m e := by
  by_contra hlt
  rw [not_le] at hlt
  have hhigh := hr.half_high
  obtain rfl : e = -66 :=
    h.exponent_eq (by decide) (hlt.trans (by norm_num)) (lt_of_lt_of_le (by norm_num) hhigh)
  have hm : 7378697629483821 ≤ m := by
    have hcast : (7378697629483820 : ℚ) < m := by norm_num at hhigh; linarith
    have hnat : 7378697629483820 < m := by exact_mod_cast hcast
    omega
  have hcast : (7378697629483821 : ℚ) ≤ m := by exact_mod_cast hm
  norm_num [magnitudeOf] at hlt
  linarith

/-- The shortest digits lie on the same side of a power of ten as the float, if no smaller float is
written as that power. -/
theorem pow_le_shortest_iff (h : Canonical m e) (hm : 0 < m)
    (ht : RoundsTo (10 ^ t) m e → (10 : ℚ) ^ t ≤ magnitudeOf m e) :
    (10 : ℚ) ^ t ≤ (shortest m e).value ↔ (10 : ℚ) ^ t ≤ magnitudeOf m e := by
  obtain ⟨hlow, hhigh⟩ := shortest_bounds h hm
  obtain ⟨hmlow, hmhigh⟩ := Interval.magnitude_bounds hm e
  have hten : (1 : ℚ) < 10 := by norm_num
  constructor
  · intro hle
    by_contra hlt
    -- the digits are the power of ten itself, which rounds to the float
    have hpower := (zpow_lt_zpow_iff_right₀ hten).1 (hmlow.trans_lt (not_le.1 hlt))
    have hvalue : (shortest m e).value = 10 ^ t :=
      le_antisymm (hhigh.trans (zpow_le_zpow_right₀ hten.le (by omega))) hle
    exact hlt (ht (hvalue ▸ shortest_roundsTo h hm))
  · intro hle
    have hpower := (zpow_lt_zpow_iff_right₀ hten).1 (hle.trans_lt hmhigh)
    exact (zpow_le_zpow_right₀ hten.le (by omega)).trans hlow

/-- A positive float is written without an exponent if and only if it lies from `0.0001` up to below
`1e16`. -/
theorem positional_shortest_iff (h : Canonical m e) (hm : 0 < m) :
    Style.literal.positional (shortest m e).magnitude = true ↔
      (10 : ℚ) ^ (-4 : ℤ) ≤ magnitudeOf m e ∧ magnitudeOf m e < 10 ^ (16 : ℤ) := by
  rw [Digits.positional_iff (shortest_number_pos h hm), ← not_le (a := (10 : ℚ) ^ (16 : ℤ)),
    ← not_le (a := (10 : ℚ) ^ (16 : ℤ)), pow_le_shortest_iff h hm (not_lt_of_roundsTo_small h),
    pow_le_shortest_iff h hm (not_lt_of_roundsTo_large h)]

end Thresholds

section Positional

variable {cs : List Char}

theorem isDigit_of_mem_toDigits {n : ℕ} {c : Char} (h : c ∈ Nat.toDigits 10 n) :
    c.isDigit = true :=
  Nat.isDigit_of_mem_toDigits (by decide) (by decide) h

theorem isDigit_of_mem_replicate {n : ℕ} {c : Char} (h : c ∈ List.replicate n '0') :
    c.isDigit = true := by
  rw [List.eq_of_mem_replicate h]
  rfl

theorem numberOfDigits_eq (h : ∀ c ∈ cs, c.isDigit = true) :
    numberOfDigits cs = Nat.ofDigitChars 10 cs 0 := by
  rw [Nat.ofDigitChars_eq_foldl, numberOfDigits]
  exact List.foldl_ext _ _ _ fun n c hc => if_pos (h c hc)

/-- Digits with zeros before or after them. -/
theorem numberOfDigits_padded (before n after : ℕ) :
    numberOfDigits (List.replicate before '0' ++ Nat.toDigits 10 n ++ List.replicate after '0') =
      n * 10 ^ after := by
  rw [numberOfDigits_eq, Nat.ofDigitChars_append, Nat.ofDigitChars_append,
    Nat.ofDigitChars_replicate_zero, Nat.ofDigitChars_replicate_zero, Nat.mul_zero,
    Nat.ofDigitChars_ten_toDigits, Nat.mul_comm]
  rw [List.forall_mem_append, List.forall_mem_append]
  exact ⟨⟨fun c => isDigit_of_mem_replicate, fun c => isDigit_of_mem_toDigits⟩,
    fun c => isDigit_of_mem_replicate⟩

/-- A whole number is written with zeros up to the point and one behind it. -/
theorem denotes_whole (n zeros : ℕ) :
    Denotes (Nat.toDigits 10 n ++ List.replicate zeros '0' ++ ['.', '0']) (n * 10 ^ zeros) := by
  refine ⟨Nat.toDigits 10 n ++ List.replicate zeros '0', ?_, ['0'], ?_, rfl, ?_⟩
  · refine mem_digits.2 ⟨by simp [Nat.toDigits_ne_nil], List.forall_mem_append.2 ⟨?_, ?_⟩⟩
    · exact fun c => isDigit_of_mem_toDigits
    · exact fun c => isDigit_of_mem_replicate
  · exact mem_digits.2 ⟨List.cons_ne_nil _ _, List.forall_mem_singleton.2 rfl⟩
  · have hnumber := numberOfDigits_padded 0 n (zeros + 1)
    rw [List.replicate_zero, List.nil_append, List.replicate_succ', ← List.append_assoc] at hnumber
    rw [hnumber, List.length_singleton]
    push_cast
    ring

/-- A point before the last `places` digits divides the number by as many tens. -/
theorem denotes_split {places : ℕ} (hcs : ∀ c ∈ cs, c.isDigit = true) (hpos : 0 < places)
    (hlt : places < cs.length) :
    Denotes (cs.take (cs.length - places) ++ '.' :: cs.drop (cs.length - places))
      (numberOfDigits cs / 10 ^ places) := by
  refine ⟨_, mem_digits.2 ⟨?_, fun c hc => hcs c (List.mem_of_mem_take hc)⟩, _,
    mem_digits.2 ⟨?_, fun c hc => hcs c (List.mem_of_mem_drop hc)⟩, rfl, ?_⟩
  · refine List.length_pos_iff.1 ?_
    rw [List.length_take]
    omega
  · refine List.length_pos_iff.1 ?_
    rw [List.length_drop]
    omega
  · rw [List.take_append_drop, List.length_drop, Nat.sub_sub_self hlt.le]

/-- Digits with a point among them denote their value. -/
theorem denotes_positionalText (d : Digits) :
    Denotes (positionalText .literal d).toList d.value := by
  unfold positionalText
  dsimp only
  split
  · next hpower =>
      have hwhole := denotes_whole d.number (if d.number = 0 then 0 else d.power.toNat)
      have hvalue :
          (d.number : ℚ) * 10 ^ (if d.number = 0 then 0 else d.power.toNat) = d.value := by
        rw [Digits.value]
        split
        · next hzero => simp [hzero]
        · rw [← zpow_natCast, Int.toNat_of_nonneg hpower]
      rw [hvalue] at hwhole
      simpa [digitsOf, zeros, Style.literal] using hwhole
  · next hpower =>
      obtain ⟨places, hplaces⟩ := Int.eq_ofNat_of_zero_le (show 0 ≤ -d.power by omega)
      rw [hplaces, Int.toNat_natCast]
      generalize hw : List.replicate (places + 1 - (Nat.toDigits 10 d.number).length) '0' ++
        Nat.toDigits 10 d.number = cs
      have hnumber : numberOfDigits cs = d.number := by
        have hpadded := numberOfDigits_padded
          (places + 1 - (Nat.toDigits 10 d.number).length) d.number 0
        rwa [List.replicate_zero, List.append_nil, hw, pow_zero, Nat.mul_one] at hpadded
      have hcs : ∀ c ∈ cs, c.isDigit = true := by
        rw [← hw]
        refine List.forall_mem_append.2 ⟨fun c => isDigit_of_mem_replicate, fun c => ?_⟩
        exact isDigit_of_mem_toDigits
      have hlength : places < cs.length := by
        rw [← hw, List.length_append, List.length_replicate]
        omega
      have hsplit := denotes_split hcs (by omega) hlength
      have hvalue : (d.number : ℚ) / 10 ^ places = d.value := by
        rw [Digits.value, show d.power = -(places : ℤ) by omega, zpow_neg, zpow_natCast,
          div_eq_mul_inv]
      rw [hnumber, hvalue] at hsplit
      simpa using hsplit

/-- A text that denotes a number is read as a quotient that equals it. -/
theorem Denotes.numberOfDigits_div {r : ℚ} (h : Denotes cs r) :
    (numberOfDigits cs : ℚ) / (Nat.pow 10 ((cs.dropWhile (· ≠ '.')).length - 1) : ℕ) = r := by
  obtain ⟨a, ha, b, hb, rfl, rfl⟩ := h
  have hpoint : ∀ c ∈ a, decide (c ≠ '.') = true := by
    intro c hc
    have hdigit := (mem_digits.1 ha).2 c hc
    refine decide_eq_true ?_
    rintro rfl
    cases hdigit
  have hnumber : numberOfDigits (a ++ '.' :: b) = numberOfDigits (a ++ b) := by
    rw [numberOfDigits, numberOfDigits, List.foldl_append, List.foldl_append, List.foldl_cons]
    rfl
  rw [hnumber, List.dropWhile_append_of_pos hpoint, List.dropWhile_cons_of_neg (by decide),
    List.length_cons, Nat.add_sub_cancel, Nat.pow_eq]
  push_cast
  rfl

end Positional

section Unsigned

/-- Whether a float is written without an exponent: it is zero, or it lies from `0.0001` up to below
`1e16`. -/
def IsPositional (m : ℕ) (e : ℤ) : Prop :=
  m = 0 ∨ (10 : ℚ) ^ (-4 : ℤ) ≤ magnitudeOf m e ∧ magnitudeOf m e < 10 ^ (16 : ℤ)

theorem unsignedText_of_pos (hm : 0 < m) (style : Style) (e : ℤ) :
    unsignedText style m e =
      if style.positional (shortest m e).magnitude then positionalText style (shortest m e)
      else exponentText (shortest m e) (shortest m e).magnitude :=
  if_neg hm.ne'

/-- A text without an exponent denotes a number that rounds to the float. -/
theorem exists_denotes_unsignedText (h : Canonical m e) (hp : IsPositional m e) :
    ∃ r, Denotes (unsignedText .literal m e).toList r ∧ RoundsTo r m e := by
  rcases Nat.eq_zero_or_pos m with rfl | hm
  · refine ⟨0, ?_, roundsTo_zero e⟩
    have hzero := denotes_positionalText ⟨0, 0⟩
    rwa [Digits.value, Nat.cast_zero, zero_mul] at hzero
  · refine ⟨(shortest m e).value, ?_, shortest_roundsTo h hm⟩
    have hstyle := (positional_shortest_iff h hm).2 (hp.resolve_left hm.ne')
    rw [unsignedText_of_pos hm, if_pos hstyle]
    exact denotes_positionalText (shortest m e)

/-- A text with an exponent has an `e` with nothing before it but digits and a point. -/
theorem exists_exponentText (d : Digits) (magnitude : ℤ) :
    ∃ before after, (exponentText d magnitude).toList = before ++ 'e' :: after ∧
      ∀ c ∈ before, c.isDigit = true ∨ c = '.' := by
  have hall : ∀ c ∈ Nat.toDigits 10 d.number, c.isDigit = true :=
    fun c hc => isDigit_of_mem_toDigits hc
  unfold exponentText
  split
  · next hnil => exact absurd hnil Nat.toDigits_ne_nil
  · next c hdigits =>
      rw [hdigits] at hall
      refine ⟨[c], (toString magnitude).toList, by simp, ?_⟩
      simpa using Or.inl (hall c List.mem_cons_self)
  · next c rest _ hdigits =>
      rw [hdigits] at hall
      obtain ⟨hc, hrest⟩ := List.forall_mem_cons.1 hall
      refine ⟨c :: '.' :: rest, (toString magnitude).toList, by simp, ?_⟩
      refine List.forall_mem_cons.2 ⟨.inl hc, List.forall_mem_cons.2 ⟨.inr rfl, ?_⟩⟩
      exact fun x hx => .inl (hrest x hx)

theorem exists_exponent_unsignedText (h : Canonical m e) (hp : ¬IsPositional m e) :
    ∃ before after, (unsignedText .literal m e).toList = before ++ 'e' :: after ∧
      ∀ c ∈ before, c.isDigit = true ∨ c = '.' := by
  rw [IsPositional, not_or] at hp
  have hm : 0 < m := Nat.pos_of_ne_zero hp.1
  have hstyle := mt (positional_shortest_iff h hm).1 hp.2
  rw [unsignedText_of_pos hm, if_neg hstyle]
  exact exists_exponentText _ _

theorem text_of_infinite {x : Float} (h : Binary.ofFloat x = .infinite false) (style : Style) :
    text style x = "inf" := by
  rw [text, h]
  rfl

theorem text_of_finite {x : Float} (h : Binary.ofFloat x = .finite false m e) (style : Style) :
    text style x = unsignedText style m e := by
  rw [text, h]
  exact String.empty_append

end Unsigned

end LazyLang.Decimal
