import LazyLang.Decimal.Binary

/-!
# The shortest decimal that reads back

A float stands for every real number that rounds to it, which is an interval around its value. Of
the decimals in that interval `shortest` picks one with the fewest digits, and of those the nearest
to the value; of two equally near ones the larger. Grids of one, two, … digits are tried in turn,
and on each grid only the two neighbours of the value can be nearest.
-/

namespace LazyLang.Decimal

/-- The interval of reals that round to one float, and the float's own value, all in units of
`1 / unit`. The ends belong to it when the mantissa is even. -/
structure Interval where
  low : Nat
  value : Nat
  high : Nat
  unit : Nat
  closed : Bool

/-- The interval of `mantissa · 2 ^ exponent`. Below a power of two the floats lie twice as
dense. -/
def Interval.of (mantissa : Nat) (exponent : Int) : Interval :=
  let factor := Nat.pow 2 (exponent - 2).toNat
  let below := if mantissa = Nat.pow 2 52 && exponent > -1074 then 1 else 2
  { low := (4 * mantissa - below) * factor
    value := 4 * mantissa * factor
    high := (4 * mantissa + 2) * factor
    unit := Nat.pow 2 (2 - exponent).toNat
    closed := mantissa % 2 == 0 }

/-- The interval measured on the grid of spacing `10 ^ k`. -/
def Interval.onGrid (i : Interval) (k : Int) : Interval :=
  let stretch := Nat.pow 10 (-k).toNat
  { low := i.low * stretch
    value := i.value * stretch
    high := i.high * stretch
    unit := i.unit * Nat.pow 10 k.toNat
    closed := i.closed }

/-- Whether the grid point `n` lies in the interval. -/
def Interval.holds (i : Interval) (n : Nat) : Bool :=
  if i.closed then i.low ≤ n * i.unit && n * i.unit ≤ i.high
  else i.low < n * i.unit && n * i.unit < i.high

/-- The grid point in the interval that is nearest to the value, if there is one. -/
def Interval.nearest? (i : Interval) : Option Nat :=
  let down := i.value / i.unit
  let up := down + 1
  match i.holds down, i.holds up with
  | true, true => if 2 * (i.value % i.unit) < i.unit then some down else some up
  | true, false => some down
  | false, true => some up
  | false, false => none

/-- The number of decimal digits of `n`. -/
def digitCount (n : Nat) : Nat :=
  (Nat.toDigits 10 n).length

/-- The power of ten of the first digit of the interval's value. -/
def Interval.magnitude (i : Interval) : Int :=
  if i.unit ≤ i.value then (digitCount (i.value / i.unit) : Int) - 1
  else -(digitCount ((i.unit - 1) / i.value) : Int)

/-- Digits as a number, and the power of ten of the last of them. -/
structure Digits where
  number : Nat
  power : Int
  deriving DecidableEq

/-- Moves the zeros at the end of the number, at most `fuel` of them, into the power. -/
def Digits.trim : Nat → Digits → Digits
  | 0, d => d
  | fuel + 1, d =>
    if d.number ≠ 0 && d.number % 10 = 0 then Digits.trim fuel ⟨d.number / 10, d.power + 1⟩ else d

/-- Tries the grids of `count` digits and more, `fuel` grids in all; seventeen digits tell any two
floats apart. -/
def Interval.search (i : Interval) (magnitude : Int) : Nat → Nat → Digits
  | 0, count => ⟨(i.onGrid (magnitude - count + 1)).value, magnitude - count + 1⟩
  | fuel + 1, count =>
    match (i.onGrid (magnitude - count + 1)).nearest? with
    | some n => ⟨n, magnitude - count + 1⟩
    | none => i.search magnitude fuel (count + 1)

/-- The shortest digits of the positive number `mantissa · 2 ^ exponent`. -/
def shortest (mantissa : Nat) (exponent : Int) : Digits :=
  let i := Interval.of mantissa exponent
  (i.search i.magnitude 17 1).trim 20

end LazyLang.Decimal
