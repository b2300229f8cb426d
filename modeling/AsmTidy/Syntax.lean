/-!
# The syntax of a source line

A line of assembly source holds, in this order: an optional *head* and an optional comment.
The head is one of these:

- a statement, optionally preceded by a label definition;
- a label definition alone;
- a numeric variable, that is, a name followed by a control command, as in `four .set 9`;
- a constant definition, `name = value` or `name := value`.

**Statements.** An instruction is a mnemonic with up to two operands. The other statements
are the start of a macro definition (`.macro name a, b`), its end (`.endmacro`), and a
control command (`.byte 1, 2`).

**Operands.** An operand is a register (`a`, `x` or `y`), or an expression with an optional
`#` (immediate) and an optional `<` or `>` (low or high byte). An expression is a literal, a
literal followed by an operator and an expression, or a parenthesised expression. So an
operator chain nests to the right, and a parenthesised expression ends its chain.

Every leaf keeps its lexeme exactly as written, so that the tree, printed back, loses
nothing but spacing and case.
-/

namespace AsmTidy

/-- An operand expression. -/
inductive Expr where
  /-- A literal. -/
  | atom (literal : List Char)
  /-- A literal, a binary operator, and the expression on its right. -/
  | chain (literal : List Char) (op : List Char) (right : Expr)
  /-- A parenthesised expression. -/
  | group (inner : Expr)
deriving DecidableEq, Repr

/-- An operand of an instruction. -/
inductive Operand where
  /-- The register `a`, `x` or `y`, as written. -/
  | register (name : List Char)
  /-- An expression, with `#` if it is immediate and the byte selector `<` or `>` if any. -/
  | value (immediate : Bool) (selector : Option (List Char)) (e : Expr)
deriving DecidableEq, Repr

/-- A control command: a dot, a name, and the rest of the line as its arguments. -/
structure Command where
  name : List Char
  args : Option (List Char)
deriving DecidableEq, Repr

/-- A statement. -/
inductive Statement where
  /-- A mnemonic and its operands (at most two). -/
  | instruction (mnemonic : List Char) (operands : List Operand)
  /-- The start of a macro definition: its name and parameters. -/
  | macroStart (name : List Char) (params : List (List Char))
  /-- The end of a macro definition. -/
  | macroEnd
  | command (c : Command)
deriving DecidableEq, Repr

/-- A label definition. -/
inductive Label where
  /-- A named label; `colon` tells whether its colon was written. -/
  | named (name : List Char) (colon : Bool)
  /-- A lone colon: an unnamed label, referred to as `:+` or `:-`. -/
  | unnamed
deriving DecidableEq, Repr

/-- What a line holds before its comment. -/
inductive Head where
  /-- A statement, with the label defined in front of it, if any. -/
  | statement (label : Option Label) (s : Statement)
  | label (l : Label)
  /-- A name followed by a control command that sets it. -/
  | numeric (name : List Char) (c : Command)
  /-- `name = value` or `name := value`. -/
  | constant (name : List Char) (assign : List Char) (value : List Char)
deriving DecidableEq, Repr

/-- A comment. -/
structure Comment where
  /-- Whether the comment is indented by a run of spaces right before its semicolon. -/
  indented : Bool
  /-- The text after the semicolon, if any. -/
  text : Option (List Char)
deriving DecidableEq, Repr

/-- A line of source. -/
structure Line where
  head : Option Head
  comment : Option Comment
deriving DecidableEq, Repr

end AsmTidy
