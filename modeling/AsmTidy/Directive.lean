import AsmTidy.Text.Space

/-!
# The ignore directive

A file can ask to be left as it is, by a comment such as `; nice65: ignore`.

**Directive.** A directive starts at the beginning of a line with optional blanks and a
semicolon. White space may follow, even across line breaks. Then comes the word `nice65:`,
and after it the *options*: the rest of that line, which must not be empty. Only the first
directive of a file counts.

**Options.** Commas count as spaces, the options are split at spaces, and each word is
trimmed. The file is left alone when one of the words is `ignore`, in any case.

Standard input is never checked for a directive.
-/

namespace AsmTidy.Directive

open Text

/-- The word that introduces a directive's options. -/
def keyword : List Char := "nice65:".toList

/-- The options of a directive that starts at the front of the text, if one does. -/
def optionsAt (cs : List Char) : Option (List Char) :=
  match cs.dropWhile isBlank with
  | ';' :: rest =>
    let after := rest.dropWhile isSpace
    if keyword.isPrefixOf after then
      match (after.drop keyword.length).takeWhile (· != '\n') with
      | [] => none
      | options => some options
    else none
  | _ => none

/-- The options of the first directive of a text. -/
def firstOptions (cs : List Char) : Option (List Char) :=
  match optionsAt cs with
  | some options => some options
  | none =>
    match _h : cs.dropWhile (· != '\n') with
    | _ :: rest => firstOptions rest
    | [] => none
termination_by cs.length
decreasing_by
  have := length_dropWhile_le (· != '\n') cs
  rw [_h, List.length_cons] at this
  omega

/-- The words of a directive's options: split at commas and spaces, trimmed, and without
empty ones. -/
def words (options : List Char) : List (List Char) :=
  ((options.map fun c => if c == ',' then ' ' else c).splitOn ' ').map trim |>.filter (· ≠ [])

/-- Whether a word is `ignore` in any case. Lower-casing maps no character other than the
ASCII capitals onto the letters of `ignore`, so ASCII lower-casing decides it. -/
def isIgnore (word : List Char) : Bool := word.map Char.toLower == "ignore".toList

/-- Whether a file's content asks to be left alone. -/
def ignores (content : List Char) : Bool :=
  match firstOptions content with
  | some options => (words options).any isIgnore
  | none => false

end AsmTidy.Directive
