/-!
# Sets of code points

A set of code points is listed as closed ranges in increasing order. The search stops at the first
range that lies above the code point, so characters low in the order are found quickly.
-/

namespace LazyLang.Text

/-- A set of code points as closed ranges in increasing order. -/
abbrev Ranges := List (Nat × Nat)

/-- Whether the code point lies in one of the ranges. -/
def Ranges.holds : Ranges → Nat → Bool
  | [], _ => false
  | (low, high) :: rest, code =>
    if code < low then false else code ≤ high || Ranges.holds rest code

@[simp] theorem Ranges.holds_nil (code : Nat) : Ranges.holds [] code = false := rfl

theorem Ranges.holds_cons_of_lt {low high code : Nat} {rest : Ranges} (h : code < low) :
    Ranges.holds ((low, high) :: rest) code = false := by
  simp [Ranges.holds, h]

end LazyLang.Text
