import AsmTidy.Lexeme
import AsmTidy.Syntax

/-!
# Reading a line

Each syntactic category has a reader that finds *every* way to read it from the front of a
text, in order of preference (see `AsmTidy.Reading`). The line reader keeps the first
reading of the whole line. Where a line can be read in more than one way, the choice
follows these rules.

- **Line forms.** A line is tried in this order: label and statement, statement, label,
  numeric variable, constant definition, nothing; each first with a comment and then
  without. So `.code ; note` is a command followed by a comment, and not a command whose
  argument is `; note`. In colonless source, `tax txa` is the label `tax` followed by the
  instruction `txa`.
- **Statements.** An instruction comes first, then the start and the end of a macro
  definition, then a control command. So `.macro m a` starts a macro, rather than being a
  command named `macro`.
- **Operands.** Two operands are preferred to one, and one to none. Where an operand list
  can be split at more than one comma, it is split at the last comma that leaves an operand
  on each side: `lda x, b, c` has the operands `x, b` and `c`. A lone `a`, `x` or `y` is a
  register rather than a label.
- **Comments.** A comment indented by spaces keeps its indent.

A reader tries, at each position, every lexeme the grammar allows there. So the frontier of
the line's reading is the furthest point that any prefix of a valid line reaches.
-/

namespace AsmTidy

open Reading (found)

namespace Expr

/-- Every reading of an expression: operator chains first, then the literal alone, then a
parenthesised expression. -/
def read (d : Dialect) (cs : List Char) : Reading Expr :=
  let chained := (Terminal.attempt d .literal cs).bindMem fun lit r _h₁ =>
    ((Terminal.attempt d .operator r).bindMem fun op r' _h₂ =>
        (read d r').map (chain lit op)) ++
      found (atom lit) r
  let grouped := (Terminal.attempt d .openParen cs).bindMem fun _ r _h₃ =>
    (read d r).andThen fun e r' => (Terminal.attempt d .closeParen r').map fun _ => group e
  chained ++ grouped
termination_by cs.length
decreasing_by
  · have := Terminal.length_lt_of_mem_attempt _h₁
    have := Terminal.length_lt_of_mem_attempt _h₂
    omega
  · exact Terminal.length_lt_of_mem_attempt _h₃

end Expr

namespace Operand

/-- Every reading of an operand: a register first, then an expression with `#` and a byte
selector, with `#` only, with a selector only, and bare. -/
def read (d : Dialect) (cs : List Char) : Reading Operand :=
  let hashes := Terminal.attempt d .hash cs
  (Terminal.attempt d .register cs).map register ++
    (hashes.andThen fun _ r => (Terminal.attempt d .selector r).andThen fun s r' =>
      (Expr.read d r').map (value true (some s))) ++
    (hashes.andThen fun _ r => (Expr.read d r).map (value true none)) ++
    ((Terminal.attempt d .selector cs).andThen fun s r =>
      (Expr.read d r).map (value false (some s))) ++
    (Expr.read d cs).map (value false none)

end Operand

namespace Command

/-- Every reading of a control command: with its arguments first, then without. The
arguments are the rest of the line after a run of blanks. -/
def read (d : Dialect) (cs : List Char) : Reading Command :=
  (Terminal.attempt d .dot cs).andThen fun _ r =>
    (Terminal.attempt d .identifier r).andThen fun name r₁ =>
      ((Terminal.attempt d .blanks r₁).andThen fun _ r₂ =>
          (Terminal.attempt d .text r₂).map fun args => ⟨name, some args⟩) ++
        found ⟨name, none⟩ r₁

end Command

namespace Statement

/-- Every reading of an instruction: with two operands, with one, with none. The readings
with two operands come ordered by where the first operand ends, latest first. -/
def readInstruction (d : Dialect) (cs : List Char) : Reading Statement :=
  (Terminal.attempt d .mnemonic cs).andThen fun m r =>
    let first := (Terminal.attempt d .blanks r).andThen fun _ r' => Operand.read d r'
    let pairs := first.andThen fun o₁ r₁ =>
      (Terminal.attempt d .comma r₁).andThen fun _ r₂ =>
        (Operand.read d r₂).map fun o₂ => (r₁.length, o₁, o₂)
    (pairs.preferring Prod.fst).map (fun p => instruction m [p.2.1, p.2.2]) ++
      first.map (fun o => instruction m [o]) ++
      found (instruction m []) r

/-- Every reading of a comma-separated tail of macro parameters, longest first. -/
def readParams (d : Dialect) (cs : List Char) : Reading (List (List Char)) :=
  (Terminal.attempt d .comma cs).bindMem fun _ r _h₁ =>
    (Terminal.attempt d .identifier r).bindMem fun p r' _h₂ =>
      (readParams d r').map (p :: ·) ++ found [p] r'
termination_by cs.length
decreasing_by
  have := Terminal.length_lt_of_mem_attempt _h₁
  have := Terminal.length_lt_of_mem_attempt _h₂
  omega

/-- Every reading of the start of a macro definition: `.macro`, its name, and its
parameters; more parameters first. -/
def readMacroStart (d : Dialect) (cs : List Char) : Reading Statement :=
  (Terminal.attempt d .macroKeyword cs).andThen fun _ r =>
    (Terminal.attempt d .identifier r).andThen fun name r₁ =>
      ((Terminal.attempt d .identifier r₁).andThen fun p r₂ =>
          (readParams d r₂).map (fun ps => macroStart name (p :: ps)) ++
            found (macroStart name [p]) r₂) ++
        found (macroStart name []) r₁

/-- Every reading of a statement. -/
def read (d : Dialect) (cs : List Char) : Reading Statement :=
  readInstruction d cs ++ readMacroStart d cs ++
    (Terminal.attempt d .endmacroKeyword cs).map (fun _ => macroEnd) ++
    (Command.read d cs).map command

end Statement

namespace Label

/-- Every reading of a label definition: a name with its colon, then (in colonless source)
a name alone, then a lone colon. -/
def read (d : Dialect) (cs : List Char) : Reading Label :=
  let names := Terminal.attempt d .label cs
  names.andThen (fun n r => (Terminal.attempt d .colon r).map fun _ => named n true) ++
    (match d with
      | .colonless => names.map (named · false)
      | .standard => Reading.stuck cs.length) ++
    (Terminal.attempt d .colon cs).map fun _ => unnamed

end Label

namespace Comment

/-- Every reading of a comment from its semicolon on: with text first, then without. -/
def readFrom (d : Dialect) (indented : Bool) (cs : List Char) : Reading Comment :=
  (Terminal.attempt d .semicolon cs).andThen fun _ r =>
    (Terminal.attempt d .text r).map (fun t => ⟨indented, some t⟩) ++
      found ⟨indented, none⟩ r

/-- Every reading of a comment: indented first. A run of spaces is read whole, so at most
one indent comes before the semicolon. -/
def read (d : Dialect) (cs : List Char) : Reading Comment :=
  ((Terminal.attempt d .indent cs).andThen fun _ r => readFrom d true r) ++ readFrom d false cs

end Comment

namespace Head

/-- Every reading of a numeric variable: a name, then a control command. -/
def readVariable (d : Dialect) (cs : List Char) : Reading Head :=
  (Terminal.attempt d .identifier cs).andThen fun n r => (Command.read d r).map (numeric n)

/-- Every reading of a constant definition: a name, `=` or `:=`, and the rest of the line. -/
def readConstant (d : Dialect) (cs : List Char) : Reading Head :=
  (Terminal.attempt d .label cs).andThen fun n r =>
    (Terminal.attempt d .assign r).andThen fun a r' =>
      (Terminal.attempt d .text r').map (constant n a)

/-- Every reading of a head, grouped by form in order of preference: label and statement,
statement, label, numeric variable, constant definition. -/
def readForms (d : Dialect) (cs : List Char) : List (Reading Head) :=
  let labels := Label.read d cs
  [labels.andThen fun l r => (Statement.read d r).map (statement (some l)),
   (Statement.read d cs).map (statement none),
   labels.map label,
   readVariable d cs,
   readConstant d cs]

end Head

namespace Line

/-- Every reading of a line that starts with a head of the given form (`none`: no head),
first with a comment and then without, each ended by the line break. -/
def readEnding (d : Dialect) (heads : Reading (Option Head)) : Reading Line :=
  (heads.andThen fun h r => (Comment.read d r).andThen fun c r' =>
      (Terminal.attempt d .newline r').map fun _ => ⟨h, some c⟩) ++
    heads.andThen fun h r => (Terminal.attempt d .newline r).map fun _ => ⟨h, none⟩

/-- Every reading of a line, in order of preference. -/
def read (d : Dialect) (cs : List Char) : Reading Line :=
  let forms := (Head.readForms d cs).map (Reading.map some) ++ [found none cs]
  forms.foldr (fun heads rest => readEnding d heads ++ rest) (Reading.stuck cs.length)

end Line

end AsmTidy
