import AsmTidy.Syntax
import AsmTidy.Text.Space
import AsmTidy.Mnemonic

/-!
# The tidy layout

How a line is printed. The layout is column-based.

**Labels** start at column 0, except local labels (`@name`) and unnamed labels (a lone
colon), which are indented by 4. A label is always printed with its colon.

**Statements** start at column 8. If the label in front reaches column 8, the statement moves
to a line of its own, indented by 8. Directives that organise the file (`.segment`, `.code`,
`.include`, …, as written in lower case) and macro lines are not indented and follow the
label directly. Mnemonics of known instructions are printed in capitals, and command names in
lower case.

**Operands** are separated by `, `. Inside an expression, a comma operator is printed as
`, ` and any other operator with a space on each side. Registers are printed in capitals.

**Comments** after code start at column 24, or right after the code if it is longer. A
comment alone on its line starts at column 8 if it was indented by spaces, and at column 0
otherwise. A comment is printed as `; ` and its text trimmed.

Every line is printed without trailing white space.

The numbers are the fields of `Layout.tidy`.
-/

namespace AsmTidy

open Text

/-- The decisions of a column layout. -/
structure Layout where
  /-- The column of statements. -/
  codeColumn : Nat
  /-- The column of comments that follow code. -/
  commentColumn : Nat
  /-- The indent of local and unnamed labels. -/
  localLabelIndent : Nat
  /-- The width that the `.macro` keyword is padded to. -/
  macroKeywordWidth : Nat
  /-- Directives that are never indented, as written. -/
  unindentedDirectives : List (List Char)

/-- The layout the tidier prints. -/
def Layout.tidy : Layout where
  codeColumn := 8
  commentColumn := 24
  localLabelIndent := 4
  macroKeywordWidth := 8
  unindentedDirectives := ["segment", "zeropage", "data", "code", "bss", "include", "import",
    "importzp", "export", "exportzp"].map String.toList

/-- Pad a text with spaces on the right to at least `n` characters. -/
def padRight (n : Nat) (cs : List Char) : List Char := cs ++ spaces (n - cs.length)

/-- The width of the last line of a text. -/
def lastLineWidth (cs : List Char) : Nat := (cs.reverse.takeWhile (· != '\n')).length

namespace Expr

/-- How an operator is printed: a comma as `, `, any other operator between spaces. -/
def showOperator (op : List Char) : List Char :=
  if op = [','] then [',', ' '] else ' ' :: op ++ [' ']

/-- Print an expression. -/
def render : Expr → List Char
  | atom lit => lit
  | chain lit op right => lit ++ showOperator op ++ right.render
  | group inner => '(' :: inner.render ++ [')']

end Expr

/-- Print an operand, with a register in capitals. -/
def Operand.render : Operand → List Char
  | .register name => name.map Char.toUpper
  | .value immediate selector e =>
    (if immediate then ['#'] else []) ++ selector.getD [] ++ e.render

namespace Layout

variable (L : Layout)

/-- Print a label definition. -/
def label : Label → List Char
  | .named name _ =>
    (if name.head? = some '@' then spaces L.localLabelIndent else []) ++ name ++ [':']
  | .unnamed => spaces L.localLabelIndent ++ [':']

/-- What brings a statement to its column after the text `before` on the same line: spaces
up to the column, or a line break and a full indent once the column is taken. -/
def toCodeColumn (before : List Char) : List Char :=
  if before.length < L.codeColumn then spaces (L.codeColumn - before.length)
  else '\n' :: spaces L.codeColumn

/-- Print a statement that follows the text `before` on its line. -/
def statement (before : List Char) : Statement → List Char
  | .instruction m ops =>
    L.toCodeColumn before ++ Mnemonic.display m ++
      (if ops = [] then [] else ' ' :: ", ".toList.intercalate (ops.map Operand.render))
  | .macroStart name params =>
    padRight L.macroKeywordWidth ".macro ".toList ++ name ++ ' ' ::
      ", ".toList.intercalate params
  | .macroEnd => ".endmacro".toList
  | .command c =>
    (if c.name ∈ L.unindentedDirectives then [] else L.toCodeColumn before) ++
      '.' :: c.name.map Char.toLower ++ ' ' :: c.args.getD []

/-- Print a line's head. -/
def head : Head → List Char
  | .statement none s => L.statement [] s
  | .statement (some l) s => L.label l ++ L.statement (L.label l) s
  | .label l => L.label l
  | .numeric name c =>
    padRight L.codeColumn name ++ '.' :: " ".toList.intercalate (c.name :: (c.args.map trim).toList)
  | .constant name assign value => name ++ ' ' :: assign ++ ' ' :: trim value

/-- Add a comment to the printed code `code` of its line. -/
def comment (code : List Char) (c : Comment) : List Char :=
  let text := trim (c.text.getD [])
  if code = [] then
    (if c.indented then spaces L.codeColumn else []) ++ ';' :: ' ' :: text
  else
    code ++ spaces (L.commentColumn - lastLineWidth code) ++
      (if text = [] then [';'] else ';' :: ' ' :: text)

/-- Print a line, without its line break. -/
def line (l : Line) : List Char :=
  let code := (l.head.map L.head).getD []
  trimRight (match l.comment with
    | some c => L.comment code c
    | none => code)

end Layout

end AsmTidy
