/-!
# Diagnostics

Places in a source text and the messages about them. Lines and columns count from 0, columns count
bytes. Only messages of level `error` keep a program from compiling.
-/

namespace LazyLang

/-- A place in a source text. -/
structure Location where
  line : Nat
  column : Nat
  deriving DecidableEq, Inhabited

namespace Location

/-- Reading order: by line, then by column. -/
def le (a b : Location) : Bool :=
  a.line < b.line || (a.line = b.line && a.column ≤ b.column)

/-- The earlier of two places. -/
def earlier (a b : Location) : Location := if a.le b then a else b

/-- The later of two places. -/
def later (a b : Location) : Location := if a.le b then b else a

/-- A place as people count it, from 1. -/
def render (a : Location) : String :=
  toString (a.line + 1) ++ ":" ++ toString (a.column + 1)

end Location

/-- A stretch of source text from `start` up to but without `stop`. -/
structure Span where
  start : Location
  stop : Location
  deriving DecidableEq, Inhabited

namespace Span

/-- The empty stretch at the very beginning. -/
def origin : Span := ⟨⟨0, 0⟩, ⟨0, 0⟩⟩

/-- The least stretch that covers both: from the earlier start to the later end. -/
def merge (a b : Span) : Span :=
  ⟨a.start.earlier b.start, a.stop.later b.stop⟩

/-- Whether `b` lies inside `a`. -/
def covers (a b : Span) : Bool :=
  a.start.le b.start && b.stop.le a.stop

/-- Order by start, then by end. -/
def le (a b : Span) : Bool :=
  if a.start = b.start then a.stop.le b.stop else a.start.le b.start

/-- A stretch as people count it. -/
def render (a : Span) : String :=
  a.start.render ++ "-" ++ a.stop.render

end Span

/-- How serious a message is. -/
inductive Level where
  | info
  | warning
  | error
  deriving DecidableEq

namespace Level

/-- The level in words. -/
def render : Level → String
  | info => "info"
  | warning => "warning"
  | error => "error"

/-- The levels by weight. -/
def weight : Level → Nat
  | info => 0
  | warning => 1
  | error => 2

/-- The graver of two levels. -/
def max (a b : Level) : Level := if a.weight ≤ b.weight then b else a

end Level

/-- A message about a stretch of source text. -/
structure Message where
  level : Level
  text : String
  span : Span
  deriving DecidableEq

namespace Message

/-- A message that keeps the program from compiling. -/
def error (text : String) (span : Span) : Message := ⟨.error, text, span⟩

/-- Whether the message keeps the program from compiling. -/
def isError (m : Message) : Bool := m.level = .error

/-- The message on one line. -/
def render (m : Message) : String :=
  m.level.render ++ " at " ++ m.span.render ++ ": " ++ m.text

/-- Whether some message keeps the program from compiling. -/
def hasErrors (messages : List Message) : Bool := messages.any isError

/-- The gravest level among the messages. -/
def maxLevel? : List Message → Option Level
  | [] => none
  | m :: rest => some (rest.foldl (fun level other => level.max other.level) m.level)

/-- The first stretch, in order, that some message is about. -/
def firstSpan? : List Message → Option Span
  | [] => none
  | m :: rest =>
    some (rest.foldl (fun first other => if first.le other.span then first else other.span) m.span)

end Message

end LazyLang
