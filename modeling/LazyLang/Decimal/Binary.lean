/-!
# Binary floating point numbers as exact values

A finite `Float` is `± mantissa · 2 ^ exponent`. `Binary.ofFloat` takes a number apart, and
`nearest` goes back: it finds the float nearest to an exact quotient of natural numbers, of two
equally near ones the one with the even mantissa. Reading decimals and the exact remainder both
end in `nearest`, so that each is rounded once.
-/

namespace LazyLang.Decimal

/-- A floating point number by its parts. -/
inductive Binary where
  | nan
  | infinite (negative : Bool)
  | finite (negative : Bool) (mantissa : Nat) (exponent : Int)
  deriving DecidableEq

/-- The parts of a number given by its 64 bits: a sign, eleven bits of exponent, 52 of fraction. -/
def Binary.ofBits (bits : Nat) : Binary :=
  let negative : Bool := bits / Nat.pow 2 63 % 2 == 1
  let biased : Nat := bits / Nat.pow 2 52 % Nat.pow 2 11
  let fraction : Nat := bits % Nat.pow 2 52
  if biased = 2047 then
    if fraction = 0 then .infinite negative else .nan
  else if biased = 0 then .finite negative fraction (-1074)
  else .finite negative (Nat.pow 2 52 + fraction) ((biased : Int) - 1075)

/-- The parts of a float. -/
def Binary.ofFloat (x : Float) : Binary :=
  Binary.ofBits x.toBits.toNat

/-- The natural number nearest to `num / den`; a half goes to the even neighbour. -/
def roundHalfEven (num den : Nat) : Nat :=
  let quotient := num / den
  let twice := 2 * (num % den)
  if twice < den then quotient
  else if twice = den then quotient + quotient % 2
  else quotient + 1

/-- The quotient `num / den` in units of `2 ^ exponent`, as a quotient again. -/
def scaleBy (num den : Nat) (exponent : Int) : Nat × Nat :=
  if 0 ≤ exponent then (num, den * Nat.pow 2 exponent.toNat)
  else (num * Nat.pow 2 (-exponent).toNat, den)

/-- The exponent at which `num / den` has a mantissa of 53 bits, or the least exponent there is. -/
def mantissaExponent (num den : Nat) : Int :=
  let guess : Int := (num.log2 : Int) - den.log2 - 52
  let scaled := scaleBy num den guess
  let exponent := if scaled.1 / scaled.2 < Nat.pow 2 52 then guess - 1 else guess
  max exponent (-1074)

/-- The bits, without the sign, of the float nearest to `num / den`. A mantissa that rounds up to 53
bits and a half carries into the exponent, and what is too large carries into infinity. -/
def nearestBits (num den : Nat) : Nat :=
  if num = 0 then 0
  else
    let exponent := mantissaExponent num den
    let scaled := scaleBy num den exponent
    let mantissa := roundHalfEven scaled.1 scaled.2
    min ((exponent + 1074).toNat * Nat.pow 2 52 + mantissa) (2047 * Nat.pow 2 52)

/-- The float nearest to `± num / den`. -/
def nearest (negative : Bool) (num den : Nat) : Float :=
  Float.ofBits (UInt64.ofNat ((if negative then Nat.pow 2 63 else 0) + nearestBits num den))

/-- The float nearest to the decimal `digits / 10 ^ places`. -/
def ofDigits (digits places : Nat) : Float :=
  nearest false digits (Nat.pow 10 places)

/-- The exact remainder of the division that cuts the quotient toward zero; it has the sign of the
dividend. There is none for an infinite dividend or a zero divisor. -/
def remainder (x y : Float) : Float :=
  match Binary.ofFloat x, Binary.ofFloat y with
  | .nan, _ | _, .nan | .infinite _, _ => Float.ofBits 0x7ff8000000000000
  | .finite .., .infinite _ => x
  | .finite negative m p, .finite _ n q =>
    if n = 0 then Float.ofBits 0x7ff8000000000000
    else
      let low := min p q
      let rest := (m * Nat.pow 2 (p - low).toNat) % (n * Nat.pow 2 (q - low).toNat)
      nearest negative (rest * Nat.pow 2 low.toNat) (Nat.pow 2 (-low).toNat)

end LazyLang.Decimal
