import AsmTidy.Syntax.Read

/-!
# The grammar of assembly source

A declarative statement of which texts are assembly source, and with which syntax trees. It
has two layers, as a grammar with a dynamic lexer has.

**Lexing** (`Lexes`). A text is cut into lexemes one after another. A lexeme of class `t` is
exactly what `t`'s pattern matches at the lexeme's start, and never a shorter match. Before
any lexeme, the whole run of blanks standing there may be skipped; a run of blanks is never
split. Which classes follow one another is not decided here but by the rules below.

**Rules** (`Yields`). Each syntactic category says which sequences of lexemes make up a
tree of it. The rules are those of the source language:

* a line is an optional head, an optional comment and a line break;
* a head is a label definition and a statement, a statement, a label definition, a numeric
  variable or a constant definition;
* a label definition is a name with a colon, a lone colon, and in colonless source also a
  name alone;
* a statement is an instruction (a mnemonic, then one or more runs of blanks and one or two
  operands separated by a comma), the start or the end of a macro definition, or a control
  command (a dot, a name and optionally one or more runs of blanks and the rest of the line);
* a comment is any number of indents, a semicolon, and optionally the rest of the line;
* an operand is a register, or an expression with an optional `#` and byte selector;
* an expression is a literal, optionally followed by an operator and an expression, or a
  parenthesised expression.

**Texts** (`Derives`). A text is derived as a sequence of lines, after which only blanks may
remain. The tree of each line carries every lexeme of the line except its blanks and indents.
-/

namespace AsmTidy

open Text

/-- A lexeme together with its class. -/
abbrev Token := Terminal × List Char

namespace Terminal

/-- The class `t` matches `w` at the front of `cs` and leaves `rest`: its pattern matches
`w` where the text stands, or after the whole run of blanks there. -/
inductive Matches (d : Dialect) (t : Terminal) (cs w rest : List Char) : Prop
  | here : t.lex d cs = some (w, rest) → Matches d t cs w rest
  | afterBlanks : t.lex d (cs.dropWhile isBlank) = some (w, rest) → Matches d t cs w rest

end Terminal

/-- `cs` begins with the lexemes `toks`, each matched by its class right after the previous
one, and `rest` is left. -/
inductive Lexes (d : Dialect) : List Char → List Token → List Char → Prop
  | nil (cs : List Char) : Lexes d cs [] cs
  | cons {cs w r toks rest} (t : Terminal) :
      t.Matches d cs w r → Lexes d r toks rest → Lexes d cs ((t, w) :: toks) rest

/-- A run of lexemes of one class: `_WS+` when non-empty and of blanks, `INDENT*` for
indents. -/
def OfClass (t : Terminal) (toks : List Token) : Prop := ∀ p ∈ toks, p.1 = t

/-! ## The rules -/

namespace Expr

/-- The lexemes of an expression. -/
def tokens : Expr → List Token
  | atom lit => [(.literal, lit)]
  | chain lit op right => (.literal, lit) :: (.operator, op) :: right.tokens
  | group inner => (.openParen, ['(']) :: inner.tokens ++ [(.closeParen, [')'])]

end Expr

namespace Operand

/-- The lexemes of an operand. -/
def tokens : Operand → List Token
  | register name => [(.register, name)]
  | value immediate selector e =>
    (if immediate then [(.hash, ['#'])] else []) ++ (selector.map (.selector, ·)).toList ++
      e.tokens

end Operand

namespace Command

/-- The lexemes of a control command: a dot and a name, then, when it has arguments, one or
more runs of blanks and the rest of the line. -/
inductive Yields : Command → List Token → Prop
  | bare (name : List Char) : Yields ⟨name, none⟩ [(.dot, ['.']), (.identifier, name)]
  | withArgs (name args : List Char) (ws : List Token) : ws ≠ [] → OfClass .blanks ws →
      Yields ⟨name, some args⟩ ([(.dot, ['.']), (.identifier, name)] ++ ws ++ [(.text, args)])

end Command

namespace Statement

/-- The lexemes of the parameters of a macro: the first, then each further one after a
comma. -/
def paramTokens : List (List Char) → List Token
  | [] => []
  | p :: ps => (.identifier, p) :: ps.flatMap fun q => [(.comma, [',']), (.identifier, q)]

/-- The lexemes of a statement. -/
inductive Yields : Statement → List Token → Prop
  | bare (m : List Char) : Yields (instruction m []) [(.mnemonic, m)]
  | unary (m : List Char) (o : Operand) (ws : List Token) : ws ≠ [] → OfClass .blanks ws →
      Yields (instruction m [o]) ((.mnemonic, m) :: ws ++ o.tokens)
  | binary (m : List Char) (o₁ o₂ : Operand) (ws : List Token) : ws ≠ [] → OfClass .blanks ws →
      Yields (instruction m [o₁, o₂]) ((.mnemonic, m) :: ws ++ o₁.tokens ++ (.comma, [',']) :: o₂.tokens)
  | macroStart (name : List Char) (params : List (List Char)) :
      Yields (macroStart name params)
        ((.macroKeyword, ".macro".toList) :: (.identifier, name) :: paramTokens params)
  | macroEnd : Yields macroEnd [(.endmacroKeyword, ".endmacro".toList)]
  | command (c : Command) (toks : List Token) : c.Yields toks → Yields (command c) toks

end Statement

namespace Label

/-- The lexemes of a label definition; a name without its colon only in colonless source. -/
inductive Yields : Dialect → Label → List Token → Prop
  | named (d : Dialect) (name : List Char) :
      Yields d (named name true) [(.label, name), (.colon, [':'])]
  | colonless (name : List Char) : Yields .colonless (named name false) [(.label, name)]
  | unnamed (d : Dialect) : Yields d unnamed [(.colon, [':'])]

end Label

namespace Comment

/-- The lexemes of a comment: indents (at least one exactly when it is indented), the
semicolon and its text. -/
inductive Yields : Comment → List Token → Prop
  | flush (text : Option (List Char)) :
      Yields ⟨false, text⟩ ((.semicolon, [';']) :: (text.map (.text, ·)).toList)
  | indented (ind : List Token) (text : Option (List Char)) : ind ≠ [] → OfClass .indent ind →
      Yields ⟨true, text⟩ (ind ++ (.semicolon, [';']) :: (text.map (.text, ·)).toList)

end Comment

namespace Head

/-- The lexemes of a line's head. -/
inductive Yields (d : Dialect) : Head → List Token → Prop
  | labelled (l : Label) (s : Statement) (lt st : List Token) : l.Yields d lt → s.Yields st →
      Yields d (statement (some l) s) (lt ++ st)
  | statement (s : Statement) (st : List Token) : s.Yields st → Yields d (statement none s) st
  | label (l : Label) (lt : List Token) : l.Yields d lt → Yields d (label l) lt
  | numeric (name : List Char) (c : Command) (ct : List Token) : c.Yields ct →
      Yields d (numeric name c) ((.identifier, name) :: ct)
  | constant (name assign value : List Char) :
      Yields d (constant name assign value) [(.label, name), (.assign, assign), (.text, value)]

end Head

namespace Line

/-- The lexemes of a line: its head's, its comment's, and the line break. -/
inductive Yields (d : Dialect) : Line → List Token → Prop
  | mk (h : Option Head) (c : Option Comment) (ht ct : List Token) :
      (h.elim (ht = []) fun h => h.Yields d ht) → (c.elim (ct = []) fun c => c.Yields ct) →
      Yields d ⟨h, c⟩ (ht ++ ct ++ [(.newline, ['\n'])])

/-- The lexemes of a sequence of lines. -/
inductive YieldsAll (d : Dialect) : List Line → List Token → Prop
  | nil : YieldsAll d [] []
  | cons (l : Line) (ls : List Line) (lt rt : List Token) : l.Yields d lt → YieldsAll d ls rt →
      YieldsAll d (l :: ls) (lt ++ rt)

end Line

/-- The text `t` is the lines `ls`, followed by nothing but blanks. -/
def Derives (d : Dialect) (t : List Char) (ls : List Line) : Prop :=
  ∃ toks rest, Line.YieldsAll d ls toks ∧ Lexes d t toks rest ∧ rest.all isBlank

/-! ## Lexing one sequence after another -/

namespace Lexes

variable {d : Dialect}

theorem cons_iff {cs rest : List Char} {t : Terminal} {w : List Char} {toks : List Token} :
    Lexes d cs ((t, w) :: toks) rest ↔ ∃ r, t.Matches d cs w r ∧ Lexes d r toks rest := by
  constructor
  · intro h
    cases h with
    | cons _ hm hl => exact ⟨_, hm, hl⟩
  · rintro ⟨r, hm, hl⟩
    exact .cons t hm hl

@[simp] theorem nil_iff {cs rest : List Char} : Lexes d cs [] rest ↔ rest = cs := by
  constructor
  · intro h
    cases h
    rfl
  · rintro rfl
    exact .nil _

theorem singleton_iff {cs rest : List Char} {t : Terminal} {w : List Char} :
    Lexes d cs [(t, w)] rest ↔ t.Matches d cs w rest := by
  rw [cons_iff]
  constructor
  · rintro ⟨r, hm, hl⟩
    rwa [nil_iff.mp hl]
  · intro hm
    exact ⟨rest, hm, .nil _⟩

theorem append {cs mid rest : List Char} {ts us : List Token}
    (h₁ : Lexes d cs ts mid) (h₂ : Lexes d mid us rest) : Lexes d cs (ts ++ us) rest := by
  induction h₁ with
  | nil => exact h₂
  | cons t hm _ ih => exact .cons t hm (ih h₂)

theorem append_iff {cs rest : List Char} {ts us : List Token} :
    Lexes d cs (ts ++ us) rest ↔ ∃ mid, Lexes d cs ts mid ∧ Lexes d mid us rest := by
  constructor
  · intro h
    induction ts generalizing cs with
    | nil => exact ⟨_, .nil _, h⟩
    | cons p ts ih =>
      obtain ⟨t, w⟩ := p
      obtain ⟨r, hm, hl⟩ := cons_iff.mp h
      obtain ⟨mid, h₁, h₂⟩ := ih hl
      exact ⟨mid, .cons t hm h₁, h₂⟩
  · rintro ⟨mid, h₁, h₂⟩
    exact h₁.append h₂

end Lexes

end AsmTidy
