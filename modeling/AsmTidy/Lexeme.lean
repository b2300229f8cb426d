import AsmTidy.Text.Space
import AsmTidy.Mnemonic
import AsmTidy.Reading

/-!
# Lexemes

The lexical classes of assembly source, and how a lexeme of each class is read.

**Greedy matching.** A class is matched at a position by its pattern, taking the longest text
the pattern allows at that position and never a shorter one. A number takes its exponent
when one follows, a label all of its identifier characters, and so on. So each class has at
most one lexeme at a given position.

**Skipped blanks.** Before any lexeme, a run of blanks may be skipped, and it is skipped whole.
Classes that cannot begin with a blank are therefore read after the blanks. The three that
can begin with one — a run of blanks, an indent, and the rest of a line — are read where
they stand. (Reading the rest of a line after skipping its leading blanks ends at the same
place, and the blanks are trimmed when it is printed.)

No class spans a line break except the line break itself, so lines can be read one at a
time.
-/

namespace AsmTidy

open Text

/-- Which label style the source is written in. -/
inductive Dialect where
  /-- Labels end in a colon, and any identifier may stand as a mnemonic (a macro call). -/
  | standard
  /-- Labels may omit their colon, and only known instructions stand as mnemonics. -/
  | colonless
deriving DecidableEq, Repr

/-- The lexical classes of assembly source. -/
inductive Terminal where
  /-- The end of a line. -/
  | newline
  | colon
  | comma
  | semicolon
  /-- The dot that begins a control command. -/
  | dot
  /-- The `#` of an immediate operand. -/
  | hash
  /-- `<` or `>`: the low or high byte of an operand. -/
  | selector
  | openParen
  | closeParen
  /-- `.macro`, which opens a macro definition. -/
  | macroKeyword
  /-- `.endmacro`, which closes one. -/
  | endmacroKeyword
  /-- `=` or `:=` in a constant definition. -/
  | assign
  /-- A binary operator of an expression: `+ - * / | ^ &` or `,`. -/
  | operator
  /-- One of the registers `a`, `x`, `y`, in either case. -/
  | register
  | identifier
  /-- An identifier, or `@` followed by identifier characters (a local label). -/
  | label
  /-- A number, `$` hex digits, `%` binary digits, a label, an unnamed-label reference such
  as `:+` or `:--`, a quoted character, or `*` (the location counter). -/
  | literal
  /-- An instruction or macro name. -/
  | mnemonic
  /-- A run of blanks that must separate two lexemes. -/
  | blanks
  /-- A run of spaces that indents a comment. -/
  | indent
  /-- The rest of the line. -/
  | text
deriving DecidableEq, Repr

namespace Lexeme

/-- A lexer reads a lexeme from the very front of a text and returns it with the text after
it, or fails. -/
abbrev Lexer := List Char → Option (List Char × List Char)

/-- A single character with property `p`. -/
def single (p : Char → Bool) : Lexer
  | c :: rest => if p c then some ([c], rest) else none
  | [] => none

/-- The character `c`. -/
def char (c : Char) : Lexer := single (· == c)

/-- The longest non-empty run of characters with property `p`. -/
def run (p : Char → Bool) : Lexer
  | c :: rest => if p c then some (c :: rest.takeWhile p, rest.dropWhile p) else none
  | [] => none

/-- The longest run, possibly empty, of characters with property `p`. -/
def many (p : Char → Bool) : Lexer := fun cs => some (cs.takeWhile p, cs.dropWhile p)

/-- The fixed word `w`. -/
def word (w : List Char) : Lexer := fun cs =>
  if w.isPrefixOf cs then some (w, cs.drop w.length) else none

/-- `f`, then `g` after it. -/
def seq (f g : Lexer) : Lexer := fun cs =>
  (f cs).bind fun p => (g p.2).map fun q => (p.1 ++ q.1, q.2)

/-- `f` if it matches here, and otherwise the empty lexeme. -/
def opt (f : Lexer) : Lexer := fun cs => (f cs).or (some ([], cs))

/-- `f` if it matches here, and otherwise `g`. -/
def first (f g : Lexer) : Lexer := fun cs => (f cs).or (g cs)

/-- Letters of the ASCII alphabet and the underscore. -/
def isIdentStart (c : Char) : Bool := c.isAlpha || c == '_'

/-- ASCII letters, digits and the underscore. -/
def isIdentChar (c : Char) : Bool := c.isAlphanum || c == '_'

def isHexDigit (c : Char) : Bool :=
  c.isDigit || ('a' ≤ c && c ≤ 'f') || ('A' ≤ c && c ≤ 'F')

def isSign (c : Char) : Bool := c == '+' || c == '-'

/-- An identifier: a letter or underscore, then letters, digits and underscores. -/
def identifier : Lexer := seq (single isIdentStart) (many isIdentChar)

/-- A label: an identifier, or `@` followed by at least one identifier character. -/
def label : Lexer := first (seq (char '@') (run isIdentChar)) identifier

def digits : Lexer := run Char.isDigit

/-- An exponent: `e` or `E`, an optional sign, and digits. -/
def exponent : Lexer :=
  seq (single fun c => c == 'e' || c == 'E') (seq (opt (single isSign)) digits)

/-- A number, as the first of these forms that fits: digits with an exponent; digits, a
point, optional digits and an optional exponent; a point, digits and an optional exponent;
plain digits. -/
def number : Lexer :=
  first (seq digits exponent) <|
  first (seq digits (seq (char '.') (seq (opt digits) (opt exponent)))) <|
  first (seq (char '.') (seq digits (opt exponent))) digits

/-- A character between single quotes; the line break cannot be quoted. -/
def quoted : Lexer := seq (char '\'') (seq (single (· != '\n')) (char '\''))

/-- A literal operand: a number, `$` and hex digits, `%` and binary digits, a label, `:`
followed by `+` or `-` signs (an unnamed label nearby), a quoted character, or `*` (the
location counter). -/
def literal : Lexer :=
  first number <| first (seq (char '$') (run isHexDigit)) <|
  first (seq (char '%') (run fun c => c == '0' || c == '1')) <| first label <|
  first (seq (char ':') (run isSign)) <| first quoted (char '*')

/-- `=` or `:=`. -/
def assign : Lexer := first (char '=') (seq (char ':') (char '='))

/-! ## Every lexeme is a front of the text -/

/-- `f` reads a front of the text and leaves the rest. -/
def Splits (f : Lexer) : Prop := ∀ cs w rest, f cs = some (w, rest) → w ++ rest = cs

/-- `f` reads a non-empty front of the text and leaves the rest. -/
def Reads (f : Lexer) : Prop := ∀ cs w rest, f cs = some (w, rest) → w ≠ [] ∧ w ++ rest = cs

theorem Reads.splits {f : Lexer} (h : Reads f) : Splits f := fun cs w rest e => (h cs w rest e).2

theorem reads_single (p : Char → Bool) : Reads (single p) := by
  intro cs w rest h
  cases cs with
  | nil => simp [single] at h
  | cons c cs =>
    by_cases hc : p c = true
    · simp only [single, hc, if_true, Option.some.injEq, Prod.mk.injEq] at h
      obtain ⟨rfl, rfl⟩ := h
      simp
    · simp [single, hc] at h

theorem reads_char (c : Char) : Reads (char c) := reads_single _

theorem reads_run (p : Char → Bool) : Reads (run p) := by
  intro cs w rest h
  cases cs with
  | nil => simp [run] at h
  | cons c cs =>
    by_cases hc : p c = true
    · simp only [run, hc, if_true, Option.some.injEq, Prod.mk.injEq] at h
      obtain ⟨rfl, rfl⟩ := h
      simp
    · simp [run, hc] at h

theorem splits_many (p : Char → Bool) : Splits (many p) := by
  intro cs w rest h
  simp only [many, Option.some.injEq, Prod.mk.injEq] at h
  obtain ⟨rfl, rfl⟩ := h
  exact List.takeWhile_append_dropWhile

theorem reads_word {w : List Char} (hw : w ≠ []) : Reads (word w) := by
  intro cs v rest h
  by_cases hp : w.isPrefixOf cs = true
  · simp only [word, hp, if_true, Option.some.injEq, Prod.mk.injEq] at h
    obtain ⟨rfl, rfl⟩ := h
    refine ⟨hw, ?_⟩
    obtain ⟨t, rfl⟩ := List.isPrefixOf_iff_prefix.mp hp
    simp
  · simp [word, hp] at h

theorem seq_eq_some {f g : Lexer} {cs w rest : List Char} (h : seq f g cs = some (w, rest)) :
    ∃ a r b, f cs = some (a, r) ∧ g r = some (b, rest) ∧ w = a ++ b := by
  simp only [seq, Option.bind_eq_some_iff, Option.map_eq_some_iff] at h
  obtain ⟨⟨a, r⟩, hf, ⟨b, r'⟩, hg, he⟩ := h
  simp only [Prod.mk.injEq] at he
  obtain ⟨rfl, rfl⟩ := he
  exact ⟨a, r, b, hf, hg, rfl⟩

theorem splits_seq {f g : Lexer} (hf : Splits f) (hg : Splits g) : Splits (seq f g) := by
  intro cs w rest h
  obtain ⟨a, r, b, h1, h2, rfl⟩ := seq_eq_some h
  rw [List.append_assoc, hg _ _ _ h2, hf _ _ _ h1]

theorem reads_seq {f g : Lexer} (hf : Reads f) (hg : Splits g) : Reads (seq f g) := by
  intro cs w rest h
  refine ⟨?_, splits_seq hf.splits hg cs w rest h⟩
  obtain ⟨a, r, b, h1, _, rfl⟩ := seq_eq_some h
  simp [(hf _ _ _ h1).1]

theorem splits_opt {f : Lexer} (hf : Splits f) : Splits (opt f) := by
  intro cs w rest h
  cases hc : f cs with
  | none =>
    simp only [opt, hc, Option.none_or, Option.some.injEq, Prod.mk.injEq] at h
    obtain ⟨rfl, rfl⟩ := h
    rfl
  | some p =>
    simp only [opt, hc, Option.some_or] at h
    exact hf _ _ _ (hc.trans h)

theorem reads_first {f g : Lexer} (hf : Reads f) (hg : Reads g) : Reads (first f g) := by
  intro cs w rest h
  cases hc : f cs with
  | none =>
    simp only [first, hc, Option.none_or] at h
    exact hg _ _ _ h
  | some p =>
    simp only [first, hc, Option.some_or] at h
    exact hf _ _ _ (hc.trans h)

theorem reads_identifier : Reads identifier := reads_seq (reads_single _) (splits_many _)

/-- `c` followed by a non-empty run. -/
theorem reads_char_run (c : Char) (p : Char → Bool) : Reads (seq (char c) (run p)) :=
  reads_seq (reads_char c) (reads_run p).splits

theorem reads_label : Reads label := reads_first (reads_char_run _ _) reads_identifier

theorem reads_digits : Reads digits := reads_run _

theorem reads_exponent : Reads exponent :=
  reads_seq (reads_single _) (splits_seq (splits_opt (reads_single _).splits) reads_digits.splits)

theorem reads_number : Reads number := by
  refine reads_first (reads_seq reads_digits reads_exponent.splits) ?_
  refine reads_first (reads_seq reads_digits ?_) ?_
  · exact splits_seq (reads_char _).splits
      (splits_seq (splits_opt reads_digits.splits) (splits_opt reads_exponent.splits))
  · exact reads_first (reads_seq (reads_char _)
      (splits_seq reads_digits.splits (splits_opt reads_exponent.splits))) reads_digits

theorem reads_quoted : Reads quoted :=
  reads_seq (reads_char _) (splits_seq (reads_single _).splits (reads_char _).splits)

theorem reads_literal : Reads literal :=
  reads_first reads_number <| reads_first (reads_char_run _ _) <|
  reads_first (reads_char_run _ _) <| reads_first reads_label <|
  reads_first (reads_char_run _ _) <| reads_first reads_quoted (reads_char _)

theorem reads_assign : Reads assign :=
  reads_first (reads_char _) (reads_seq (reads_char _) (reads_char _).splits)

end Lexeme

namespace Terminal

open Lexeme

/-- The lexeme of class `t` at the very front of the text, with the text after it. -/
def lex (d : Dialect) : Terminal → List Char → Option (List Char × List Char)
  | newline => char '\n'
  | colon => char ':'
  | comma => char ','
  | semicolon => char ';'
  | dot => char '.'
  | hash => char '#'
  | selector => single fun c => c == '<' || c == '>'
  | openParen => char '('
  | closeParen => char ')'
  | macroKeyword => word ".macro".toList
  | endmacroKeyword => word ".endmacro".toList
  | assign => Lexeme.assign
  | operator => single (· ∈ "+-*/|^&,".toList)
  | register => single (· ∈ "aAxXyY".toList)
  | identifier => Lexeme.identifier
  | label => Lexeme.label
  | literal => Lexeme.literal
  | mnemonic => match d with
    | .standard => Lexeme.identifier
    | .colonless => Mnemonic.lexCaseless
  | blanks => run isBlank
  | indent => run (· == ' ')
  | text => run (· != '\n')

/-- The classes whose lexemes may begin with a blank; they are read where they stand. -/
def readsBlanks : Terminal → Bool
  | blanks | indent | text => true
  | _ => false

/-- Read a lexeme of class `t`: where the text stands if the class may begin with a blank,
and otherwise after skipping a run of blanks. -/
def read (d : Dialect) (t : Terminal) (cs : List Char) : Option (List Char × List Char) :=
  if t.readsBlanks then t.lex d cs else t.lex d (cs.dropWhile isBlank)

/-- Attempt a lexeme of class `t`. The attempt reaches past any blanks in front, and past
the lexeme if there is one. -/
def attempt (d : Dialect) (t : Terminal) (cs : List Char) : Reading (List Char) :=
  let reached := (cs.dropWhile isBlank).length
  match t.read d cs with
  | some (w, rest) => ⟨[(w, rest)], min reached rest.length⟩
  | none => Reading.stuck reached

/-- Every class reads a non-empty front of the text. -/
theorem reads_lex (d : Dialect) (t : Terminal) : Reads (t.lex d) := by
  cases t with
  | macroKeyword => exact reads_word (by decide)
  | endmacroKeyword => exact reads_word (by decide)
  | assign => exact reads_assign
  | identifier => exact reads_identifier
  | label => exact reads_label
  | literal => exact reads_literal
  | mnemonic =>
    cases d with
    | standard => exact reads_identifier
    | colonless => exact fun _ _ _ h => Mnemonic.lexCaseless_spec h
  | blanks | indent | text => exact reads_run _
  | _ => exact reads_single _

/-- What a read leaves is shorter than the text it read from. -/
theorem length_lt_of_read {d : Dialect} {t : Terminal} {cs w rest : List Char}
    (h : t.read d cs = some (w, rest)) : rest.length < cs.length := by
  unfold read at h
  split at h
  · obtain ⟨hne, rfl⟩ := reads_lex d t _ _ _ h
    simp only [List.length_append]
    have := List.length_pos_iff.mpr hne
    omega
  · obtain ⟨hne, he⟩ := reads_lex d t _ _ _ h
    have h1 := length_dropWhile_le isBlank cs
    rw [← he] at h1
    simp only [List.length_append] at h1
    have := List.length_pos_iff.mpr hne
    omega

theorem mem_attempt {d : Dialect} {t : Terminal} {cs w rest : List Char}
    (h : (w, rest) ∈ (t.attempt d cs).results) : t.read d cs = some (w, rest) := by
  unfold attempt at h
  split at h
  · rename_i w' rest' hr
    simp only [List.mem_singleton, Prod.mk.injEq] at h
    obtain ⟨rfl, rfl⟩ := h
    exact hr
  · simp [Reading.stuck] at h

/-- A successful attempt leaves less text than it started from. -/
theorem length_lt_of_mem_attempt {d : Dialect} {t : Terminal} {cs w rest : List Char}
    (h : (w, rest) ∈ (t.attempt d cs).results) : rest.length < cs.length :=
  length_lt_of_read (mem_attempt h)

end Terminal

end AsmTidy
