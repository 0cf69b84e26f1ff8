import LazyLang.Text.Layout
import LazyLang.Token

/-!
# Cutting a text into tokens

Blanks are skipped; then the kind that matches most of the remaining text wins, and of several the
one declared first. A blank line end starts a new line, while a line end inside a string literal
does not: a token only moves the column on, by its length in bytes. `tokenize` either cuts the whole
text or fails at the first place where no kind matches.
-/

namespace LazyLang

namespace TokenKind

/-- Whether `c` may begin an identifier. -/
def isIdentifierStart (c : Char) : Bool := c.isAlpha || c = '_'

/-- Whether `c` may follow in an identifier. -/
def isIdentifierRest (c : Char) : Bool := c.isAlphanum || c = '_'

/-- The number of digits that the text begins with. -/
def leadingDigits (cs : List Char) : Nat := (cs.takeWhile Char.isDigit).length

/-- The length of an identifier at the beginning of the text. -/
def identifierLength? : List Char → Option Nat
  | [] => none
  | c :: rest =>
    if isIdentifierStart c then some (1 + (rest.takeWhile isIdentifierRest).length) else none

/-- The length of an integer at the beginning of the text. -/
def integerLength? (cs : List Char) : Option Nat :=
  if leadingDigits cs = 0 then none else some (leadingDigits cs)

/-- The length of a float at the beginning of the text: digits on both sides of a point. -/
def floatLength? (cs : List Char) : Option Nat :=
  match integerLength? cs with
  | none => none
  | some whole =>
    match cs.drop whole with
    | '.' :: rest => (integerLength? rest).map (whole + 1 + ·)
    | _ => none

/-- The length of a string literal at the beginning of the text. -/
def stringLength? : List Char → Option Nat
  | '"' :: rest => (Text.Quoted.closing? true rest).map (· + 1)
  | _ => none

/-- How many characters at the beginning of the text are a token of this kind, if any. -/
def matchLength? (kind : TokenKind) (cs : List Char) : Option Nat :=
  match kind with
  | identifier => identifierLength? cs
  | float => floatLength? cs
  | integer => integerLength? cs
  | string => stringLength? cs
  | other =>
    match other.spelling? with
    | none => none
    | some word => if word.toList.isPrefixOf cs then some word.length else none

/-- The longest match among `kinds`; of equally long ones the first. -/
def longestAmong (cs : List Char) : List TokenKind → Option (TokenKind × Nat)
  | [] => none
  | kind :: rest =>
    match kind.matchLength? cs, longestAmong cs rest with
    | none, best => best
    | some n, none => some (kind, n)
    | some n, some (other, m) => if m ≤ n then some (kind, n) else some (other, m)

/-- The kind and the length of the token that the text begins with. -/
def longest? (cs : List Char) : Option (TokenKind × Nat) := longestAmong cs all

end TokenKind

namespace Token

/-- Whether `c` is skipped between tokens. -/
def isBlank (c : Char) : Bool :=
  c = ' ' || c = '\t' || c = '\n' || c = '\r' || c = '\x0c'

/-- The place after a blank. -/
def afterBlank (c : Char) (place : Location) : Location :=
  if c = '\n' then ⟨place.line + 1, 0⟩ else ⟨place.line, place.column + 1⟩

/-- The token of the given kind and text at a place. -/
def ofText (kind : TokenKind) (text : String) (place : Location) : Token :=
  ⟨kind, text, ⟨place, ⟨place.line, place.column + text.utf8ByteSize⟩⟩⟩

/-- Cuts `cs`, which stands at `place`, into tokens. On failure the answer is the text that no token
begins. -/
def scan (place : Location) : List Char → Except (List Char) (List Token)
  | [] => .ok []
  | c :: rest =>
    if isBlank c then scan (afterBlank c place) rest
    else
      match TokenKind.longest? (c :: rest) with
      | none => .error (c :: rest)
      | some (kind, n) =>
        let token := ofText kind (String.ofList (c :: rest.take (n - 1))) place
        match scan token.span.stop (rest.drop (n - 1)) with
        | .error remaining => .error remaining
        | .ok tokens => .ok (token :: tokens)
  termination_by cs => cs.length
  decreasing_by all_goals simp only [List.length_cons, List.length_drop]; omega

/-- The message about a text that cannot be cut, of which `remaining` is left over. -/
def scanFailure (prepared : String) (remaining : List Char) : Message :=
  let rest := String.ofList remaining
  .error ("Unrecognized input: Failed to lex '" ++ prepared ++ "' at position " ++
    toString (prepared.utf8ByteSize - rest.utf8ByteSize) ++ "; remaining '" ++ rest ++ "'")
    Span.origin

/-- The tokens of a source text. -/
def tokenize (source : String) : Except Message (List Token) :=
  let prepared := Text.prepare source
  match scan ⟨0, 0⟩ prepared.toList with
  | .ok tokens => .ok tokens
  | .error remaining => .error (scanFailure prepared remaining)

/-- The text is prepared and cut character by character, without a string in between. -/
theorem tokenize_eq (source : String) :
    tokenize source =
      match scan ⟨0, 0⟩ (Text.blankChars (Text.normalizeChars source.toList)) with
      | .ok tokens => .ok tokens
      | .error remaining => .error (scanFailure (Text.prepare source) remaining) := by
  rw [← Text.toList_prepare]
  rfl

end Token

end LazyLang
