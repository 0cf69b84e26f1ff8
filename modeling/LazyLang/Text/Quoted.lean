import LazyLang.Text.ExtendingMarks
import LazyLang.Text.Unprintable

/-!
# Quoted text

A string literal stands between double quotes, and a backslash inside it protects the character
after it. `closing?` finds the end of a literal, `decode` reads its value and `encode` writes a
value as a literal: the quote, the backslash, the usual control characters and whatever has no
printed form of its own are escaped.
-/

namespace LazyLang.Text.Quoted

/-- The number of characters up to and with the quote that closes a literal, counted after the
opening quote. A backslash takes the next character with it, which may not be a line end; a line end
elsewhere is allowed only when `multiline` is set. -/
def closing? (multiline : Bool) : List Char → Option Nat
  | [] => none
  | '\\' :: [] => none
  | '\\' :: c :: rest =>
    if c = '\n' then none else (closing? multiline rest).map (· + 2)
  | c :: rest =>
    if c = '"' then some 1
    else if c = '\n' && !multiline then none
    else (closing? multiline rest).map (· + 1)

/-- The character that a backslash before `c` stands for. -/
def unescape (c : Char) : Char :=
  match c with
  | 'n' => '\n'
  | 't' => '\t'
  | 'r' => '\r'
  | '0' => '\x00'
  | other => other

/-- The characters that the inside of a literal denotes. -/
def decodeChars : List Char → List Char
  | [] => []
  | '\\' :: [] => ['\\']
  | '\\' :: c :: rest => unescape c :: decodeChars rest
  | c :: rest => c :: decodeChars rest

/-- The inside of a literal; text that is not between quotes is its own inside. -/
def inner (cs : List Char) : List Char :=
  match cs with
  | '"' :: rest => if rest.getLast? = some '"' then rest.dropLast else cs
  | _ => cs

/-- The value of a literal. -/
def decode (literal : String) : String :=
  String.ofList (decodeChars (inner literal.toList))

/-- A character by its code point, in lower case hexadecimal. -/
def escapeCode (c : Char) : List Char :=
  ['\\', 'u', '\x7b'] ++ Nat.toDigits 16 c.toNat ++ ['\x7d']

/-- How a character is written between quotes. -/
def escape (c : Char) : List Char :=
  match c with
  | '\x00' => ['\\', '0']
  | '\t' => ['\\', 't']
  | '\r' => ['\\', 'r']
  | '\n' => ['\\', 'n']
  | '"' => ['\\', '"']
  | '\\' => ['\\', '\\']
  | c =>
    if extendingMarks.holds c.toNat || unprintable.holds c.toNat then escapeCode c else [c]

/-- A text as a literal. -/
def encode (text : String) : String :=
  String.ofList ('"' :: text.toList.flatMap escape ++ ['"'])

theorem decodeChars_cons {c : Char} (h : c ≠ '\\') (rest : List Char) :
    decodeChars (c :: rest) = c :: decodeChars rest := by
  simp [decodeChars, h]

end LazyLang.Text.Quoted
