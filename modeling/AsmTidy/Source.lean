import AsmTidy.Syntax.Read
import AsmTidy.Layout

/-!
# Tidying a source text

A source text is a sequence of lines, each ended by a line break. Blanks may follow the last
line break, but nothing else: a text whose last line has no line break cannot be read.

**Line by line.** No lexeme spans a line break, so each line is read on its own and printed on
its own. The tidy text is the printed lines, each followed by a line break.

**Errors.** The first line that cannot be read decides the error. It is reported at the
line's frontier, the furthest point any attempt to read it reached. If that point is the end
of the text, the text ended too early; otherwise the character there is unexpected, and its
line and column (both counted from 1) are reported.

**Line breaks.** A carriage return, alone or before a line feed, ends a line as a line feed
does. Reading a file or the standard input turns both into line feeds first
(`normalizeNewlines`).
-/

namespace AsmTidy

open Text

/-- Why a source text could not be read. -/
inductive ParseError where
  /-- The character `c`, at the given line and column, cannot continue any reading. -/
  | unexpectedCharacter (line column : Nat) (c : Char)
  /-- The text ended before its last line was complete. -/
  | unexpectedEnd
deriving DecidableEq, Repr

/-- Turn each carriage return, alone or before a line feed, into a line feed. -/
def normalizeNewlines : List Char → List Char
  | '\r' :: '\n' :: rest => '\n' :: normalizeNewlines rest
  | '\r' :: rest => '\n' :: normalizeNewlines rest
  | c :: rest => c :: normalizeNewlines rest
  | [] => []

namespace ParseError

/-- The error for a line, numbered `n`, whose reading got no further than `left` characters
from the end of the line. -/
def atFrontier (n : Nat) (line : List Char) (left : Nat) : ParseError :=
  match line.drop (line.length - left) with
  | c :: _ => unexpectedCharacter n (line.length - left + 1) c
  | [] => unexpectedEnd

/-- The same error, found `k` lines further down the text. An early end has no line. -/
def shift (k : Nat) : ParseError → ParseError
  | unexpectedCharacter line column c => unexpectedCharacter (line + k) column c
  | unexpectedEnd => unexpectedEnd

theorem atFrontier_add (n k : Nat) (line : List Char) (left : Nat) :
    atFrontier (n + k) line left = (atFrontier n line left).shift k := by
  unfold atFrontier
  split <;> rfl

end ParseError

namespace Source

/-- Tidy the lines `lines`, the first of which is numbered `n`. All but the last are followed
by a line break in the text; the last is what follows the final line break. -/
def formatLines (d : Dialect) (n : Nat) : List (List Char) → Except ParseError (List Char)
  | [] => .ok []
  | [last] =>
    if last.all isBlank then .ok []
    else .error (ParseError.atFrontier n last (Line.read d last).frontier)
  | text :: more =>
    let line := text ++ ['\n']
    let reading := Line.read d line
    match reading.best? with
    | some l => (formatLines d (n + 1) more).map fun rest => Layout.tidy.line l ++ '\n' :: rest
    | none => .error (ParseError.atFrontier n line reading.frontier)

/-- Tidy a source text whose line breaks are line feeds. -/
def format (d : Dialect) (text : List Char) : Except ParseError (List Char) :=
  formatLines d 1 (text.splitOn '\n')

end Source

end AsmTidy
