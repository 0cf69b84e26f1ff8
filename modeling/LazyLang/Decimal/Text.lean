import LazyLang.Decimal.Shortest

/-!
# The text of a floating point number

Every text is built from the shortest digits. A `Style` says when a number is written with an
exponent and whether a whole number keeps a fractional zero.
-/

namespace LazyLang.Decimal

/-- How the digits of a number are laid out. A number whose first digit stands at a power of ten
for which `positional` does not hold is written with an exponent. -/
structure Style where
  positional : Int → Bool
  fractionalZero : Bool

/-- The form of a literal: `0.0001` up to below `1e16` is positional, and a whole number keeps its
fractional zero. -/
def Style.literal : Style where
  positional magnitude := -5 < magnitude && magnitude < 16
  fractionalZero := true

/-- The plain form: never an exponent and no fractional zero. -/
def Style.plain : Style where
  positional _ := true
  fractionalZero := false

/-- The decimal digits of a natural number. -/
def digitsOf (n : Nat) : String :=
  String.ofList (Nat.toDigits 10 n)

/-- `count` zeros. -/
def zeros (count : Nat) : String :=
  String.ofList (List.replicate count '0')

/-- The digits with a decimal point where it belongs. -/
def positionalText (style : Style) (d : Digits) : String :=
  let digits := digitsOf d.number
  let ending := if style.fractionalZero then ".0" else ""
  if 0 ≤ d.power then
    digits ++ zeros (if d.number = 0 then 0 else d.power.toNat) ++ ending
  else
    let places := (-d.power).toNat
    let padded := Nat.toDigits 10 d.number
    let padded := List.replicate (places + 1 - padded.length) '0' ++ padded
    String.ofList (padded.take (padded.length - places)) ++ "." ++
      String.ofList (padded.drop (padded.length - places))

/-- The digits with a point after the first, and the exponent of ten. -/
def exponentText (d : Digits) (magnitude : Int) : String :=
  match Nat.toDigits 10 d.number with
  | [] => ""
  | [c] => String.ofList [c] ++ "e" ++ toString magnitude
  | c :: rest => String.ofList (c :: '.' :: rest) ++ "e" ++ toString magnitude

/-- The text of a number without its sign. -/
def unsignedText (style : Style) (mantissa : Nat) (exponent : Int) : String :=
  if mantissa = 0 then positionalText style ⟨0, 0⟩
  else
    let d := shortest mantissa exponent
    let magnitude := d.power + digitCount d.number - 1
    if style.positional magnitude then positionalText style d else exponentText d magnitude

/-- The text of a number. -/
def text (style : Style) (x : Float) : String :=
  match Binary.ofFloat x with
  | .nan => "NaN"
  | .infinite negative => if negative then "-inf" else "inf"
  | .finite negative m e => (if negative then "-" else "") ++ unsignedText style m e

end LazyLang.Decimal
