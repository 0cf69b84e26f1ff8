import LazyLang.Text.Quoted

/-!
# Preparing a source text

Before it is cut into tokens a source text gets uniform line ends, and its comments are blanked out
with spaces, so that every token keeps its place. A comment runs from `--` to the end of the line;
the same marker inside a string literal is text.
-/

namespace LazyLang.Text

/-- The line ends `\r\n` and `\r` become `\n`. -/
def normalizeChars : List Char → List Char
  | [] => []
  | '\r' :: '\n' :: rest => '\n' :: normalizeChars rest
  | '\r' :: rest => '\n' :: normalizeChars rest
  | c :: rest => c :: normalizeChars rest

/-- Each comment becomes as many spaces as it has characters. A literal that does not end on its
line is no literal here: only its quote is passed over. -/
def blankChars : List Char → List Char
  | [] => []
  | c :: rest =>
    if c = '"' then
      match Quoted.closing? false rest with
      | some n => c :: rest.take n ++ blankChars (rest.drop n)
      | none => c :: blankChars rest
    else if c = '-' && rest.head? = some '-' then
      ' ' :: List.replicate (rest.takeWhile (· ≠ '\n')).length ' ' ++
        blankChars (rest.drop (rest.takeWhile (· ≠ '\n')).length)
    else c :: blankChars rest
  termination_by cs => cs.length
  decreasing_by all_goals simp only [List.length_cons, List.length_drop]; omega

/-- The text with uniform line ends. -/
def normalizeNewlines (source : String) : String :=
  String.ofList (normalizeChars source.toList)

/-- The text with its comments blanked out. -/
def blankComments (source : String) : String :=
  String.ofList (blankChars source.toList)

/-- The text that is cut into tokens. -/
def prepare (source : String) : String :=
  blankComments (normalizeNewlines source)

theorem toList_prepare (source : String) :
    (prepare source).toList = blankChars (normalizeChars source.toList) := by
  rw [prepare, blankComments, normalizeNewlines, String.toList_ofList, String.toList_ofList]

end LazyLang.Text
