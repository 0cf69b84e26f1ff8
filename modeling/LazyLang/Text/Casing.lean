import LazyLang.Text.CaseProperties
import LazyLang.Text.CaseTables

/-!
# Upper and lower case

`upper` and `lower` map every character by the full case mapping, in which one character may become
several. The one mapping that depends on its surroundings is the Greek capital sigma: `lower` gives
it the final form `ς` where it ends a word, and `σ` elsewhere.
-/

namespace LazyLang.Text

/-- The code point that a run gives for `code`, when it covers it. -/
def CaseRun.image? (run : CaseRun) (code : Nat) : Option Nat :=
  if run.first ≤ code && code ≤ run.last && (code - run.first) % run.stride == 0 then
    some (Int.toNat (code + run.shift))
  else
    none

/-- The characters that `c` becomes: its expansion, else its single counterpart, else itself. -/
def mapCase (runs : List CaseRun) (expansions : List (Nat × List Nat)) (c : Char) : List Char :=
  match expansions.lookup c.toNat with
  | some codes => codes.map Char.ofNat
  | none =>
    match runs.findSome? (·.image? c.toNat) with
    | some code => [Char.ofNat code]
    | none => [c]

/-- The text in upper case. -/
def upper (text : String) : String :=
  String.ofList (text.toList.flatMap (mapCase upperRuns upperExpansions))

/-- Whether the first character that is not passed over is cased. -/
def startsCased (cs : List Char) : Bool :=
  match cs.dropWhile (caseIgnorable.holds ·.toNat) with
  | [] => false
  | c :: _ => cased.holds c.toNat

/-- A sigma ends a word when a cased letter comes before it and none after it. -/
def sigmaIsFinal (before after : List Char) : Bool :=
  startsCased before && !startsCased after

/-- Lower case of the characters; `before` holds those already passed, nearest first. -/
def lowerChars (before : List Char) : List Char → List Char
  | [] => []
  | c :: rest =>
    let mapped :=
      if c = 'Σ' then [if sigmaIsFinal before rest then 'ς' else 'σ']
      else mapCase lowerRuns lowerExpansions c
    mapped ++ lowerChars (c :: before) rest

/-- The text in lower case. -/
def lower (text : String) : String :=
  String.ofList (lowerChars [] text.toList)

end LazyLang.Text
