import LazyLang.Value

/-!
# Arithmetic on values

Integers stay integers as long as both operands are: the result is the exact one, and fails when it
does not fit 64 bits. As soon as one operand is a float the operation is that of floats.
-/

namespace LazyLang.Value

/-- The integer, if it fits 64 bits. -/
def fitInteger (operation : String) (n : Int) : Except RuntimeError Value :=
  if -Int.pow 2 63 ≤ n && n < Int.pow 2 63 then .ok (.integer (Int64.ofInt n))
  else .error (.overflow operation)

/-- An operation on numbers by its integer and its float form. -/
def numeric (operation : String) (onIntegers : Int → Int → Except RuntimeError Value)
    (onFloats : Float → Float → Float) (a b : Value) : Except RuntimeError Value :=
  match a, b with
  | integer x, integer y => onIntegers x.toInt y.toInt
  | _, _ =>
    match a.toFloat operation with
    | .error e => .error e
    | .ok x =>
      match b.toFloat operation with
      | .error e => .error e
      | .ok y => .ok (.float (onFloats x y))

/-- The sum. -/
def add : Value → Value → Except RuntimeError Value :=
  numeric "+" (fun x y => fitInteger "+" (x + y)) (· + ·)

/-- The difference. -/
def subtract : Value → Value → Except RuntimeError Value :=
  numeric "-" (fun x y => fitInteger "-" (x - y)) (· - ·)

/-- The product. -/
def multiply : Value → Value → Except RuntimeError Value :=
  numeric "*" (fun x y => fitInteger "*" (x * y)) (· * ·)

/-- The quotient; that of integers is cut toward zero. -/
def divide : Value → Value → Except RuntimeError Value :=
  numeric "/"
    (fun x y => if y = 0 then .error .divisionByZero else fitInteger "/" (x.tdiv y)) (· / ·)

/-- The remainder of the quotient that is cut toward zero. The remainder of the least integer by -1
fails like the quotient. -/
def remainder : Value → Value → Except RuntimeError Value :=
  numeric "%"
    (fun x y =>
      if y = 0 then .error .divisionByZero
      else if x = -Int.pow 2 63 && y = -1 then .error (.overflow "%")
      else fitInteger "%" (x.tmod y))
    Decimal.remainder

/-- The exact power of an integer, if it fits 64 bits. The powers of 0, 1 and -1 depend on the
exponent only by its parity, and the 64th power of anything else never fits. -/
def integerPower (x : Int) (n : Nat) : Except RuntimeError Value :=
  if x.natAbs ≤ 1 then fitInteger "**" (x.pow (if n = 0 then 0 else 2 - n % 2))
  else if n < 64 then fitInteger "**" (x.pow n)
  else .error (.overflow "**")

/-- The power. The exponent of an integer may not be negative, nor need more than 32 bits. -/
def power : Value → Value → Except RuntimeError Value :=
  numeric "**"
    (fun x y =>
      if 0 ≤ y && y < Int.pow 2 32 then integerPower x y.toNat
      else .error (.invalidArgument "**" "negative integer exponent"))
    Float.pow

/-- The number with the other sign. -/
def negate (v : Value) : Except RuntimeError Value :=
  match v with
  | integer i => fitInteger "neg" (-i.toInt)
  | other => (other.toFloat "neg").map fun x => .float (-x)

/-- The number without its sign. -/
def absolute (v : Value) : Except RuntimeError Value :=
  match v with
  | integer i => fitInteger "abs" i.toInt.natAbs
  | other => (other.toFloat "abs").map fun x => .float x.abs

/-- The order of two floats; there is none when one is not a number. -/
def compareFloats (x y : Float) : Option Ordering :=
  if x < y then some .lt else if x == y then some .eq else if y < x then some .gt else Option.none

/-- The order of two numbers: integers compare exactly, all others as floats. -/
def compareNumbers (operation : String) (a b : Value) : Except RuntimeError (Option Ordering) :=
  match a, b with
  | integer x, integer y => .ok (some (compare x.toInt y.toInt))
  | _, _ =>
    match a.toFloat operation with
    | .error e => .error e
    | .ok x => (b.toFloat operation).map (compareFloats x)

/-- A float turned into an integer after rounding. -/
def roundedTo (operation : String) (round : Float → Float) (v : Value) :
    Except RuntimeError Value :=
  match v.toFloat operation with
  | .error e => .error e
  | .ok x =>
    let rounded := round x
    if rounded.isNaN then .error (.invalidArgument operation "not a number")
    else if rounded < -9223372036854775808.0 || rounded ≥ 9223372036854775808.0 then
      .error (.overflow operation)
    else .ok (.integer rounded.toInt64)

/-- A function of floats. -/
def onFloat (operation : String) (f : Float → Float) (v : Value) : Except RuntimeError Value :=
  (v.toFloat operation).map fun x => .float (f x)

end LazyLang.Value
