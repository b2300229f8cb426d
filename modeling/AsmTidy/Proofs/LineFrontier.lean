import Mathlib
import AsmTidy.Proofs.Frontier

/-!
# The frontier of a line

Every reader of `AsmTidy.Syntax.Read` follows the language of its category
(`AsmTidy.Follows`): it reads exactly the words of the category that the text begins with,
and its frontier is the least number of characters that a partial parse of a word of the
category leaves.

**Languages.** The words of a category are the lexeme sequences of its trees
(`Expr.words`, …, `Line.words`). Each is written once as the combination of languages its
reader is built from (`Expr.words_eq`, …), by the rules of the grammar; the reader then
follows it by the lemmas of `AsmTidy.Follows`, one per combinator.

Main results:

* `Line.follows_read`: the reading of a line follows the language of lines.
* `Line.isLeast_frontier_read`: the frontier of a line's reading is the least number of
  characters that a partial parse of a line of the grammar leaves.
-/

namespace AsmTidy

open Text Terminal

variable {d : Dialect}

theorem nil_mem_add_one (Y : Language Token) : [] ∈ Y + 1 :=
  (Language.mem_add _ _ _).mpr (Or.inr ((Language.mem_one _).mpr rfl))

/-! ## Expressions and operands -/

namespace Expr

/-- The lexeme sequences of expressions. -/
def words : Language Token := {ts | ∃ e : Expr, e.tokens = ts}

/-- An expression is a literal, alone or followed by an operator and an expression, or an
expression in parentheses. -/
theorem words_eq : words =
    literal.lexemes * (operator.lexemes * words + 1) +
      {[(openParen, ['('])]} * (words * {[(closeParen, [')'])]}) := by
  ext ts
  simp only [words, Language.mem_add, Language.mem_mul, lexemes]
  constructor
  · rintro ⟨e, rfl⟩
    cases e with
    | atom lit => exact Or.inl ⟨_, ⟨lit, rfl⟩, [], Or.inr rfl, rfl⟩
    | chain lit op right =>
      exact Or.inl ⟨_, ⟨lit, rfl⟩, _, Or.inl ⟨_, ⟨op, rfl⟩, _, ⟨right, rfl⟩, rfl⟩, rfl⟩
    | group inner => exact Or.inr ⟨_, rfl, _, ⟨_, ⟨inner, rfl⟩, _, rfl, rfl⟩, rfl⟩
  · rintro (⟨_, ⟨lit, rfl⟩, _, (⟨_, ⟨op, rfl⟩, _, ⟨right, rfl⟩, rfl⟩ | rfl), rfl⟩ |
      ⟨_, rfl, _, ⟨_, ⟨inner, rfl⟩, _, rfl, rfl⟩, rfl⟩)
    · exact ⟨chain lit op right, rfl⟩
    · exact ⟨atom lit, rfl⟩
    · exact ⟨group inner, by simp [tokens]⟩

theorem atom_mem_words (lit : List Char) : [(literal, lit)] ∈ words := ⟨atom lit, rfl⟩

theorem follows_read (d : Dialect) (cs : List Char) : Follows d words cs (read d cs) := by
  -- induction on the length of the text: a nested expression is read from a shorter text
  induction hn : cs.length using Nat.strong_induction_on generalizing cs with
  | _ n ih =>
  have hread : ∀ r : List Char, r.length < cs.length → Follows d words r (read d r) :=
    fun r hr => ih r.length (hn ▸ hr) r rfl
  rw [read_eq, words_eq]
  refine Follows.append ?_ ?_
  · refine (follows_attempt d literal cs).bindMem (fun lit r hr => ?_)
      (nil_mem_add_one _)
    refine Follows.append ?_ (Follows.found _ r)
    refine (follows_attempt d operator r).bindMem (fun op r' hr' => ?_) (atom_mem_words [])
    have := length_lt_of_mem_attempt hr
    have := length_lt_of_mem_attempt hr'
    exact (hread r' (by omega)).map _
  · refine (follows_attempt_spelled rfl d cs).bindMem (fun _ r hr => ?_)
      (Language.append_mem_mul (atom_mem_words []) rfl)
    refine (hread r (length_lt_of_mem_attempt hr)).andThen (fun e r' _ => ?_) rfl
    exact (follows_attempt_spelled rfl d r').map _

end Expr

namespace Operand

/-- The lexeme sequences of operands. -/
def words : Language Token := {ts | ∃ o : Operand, o.tokens = ts}

/-- An operand is a register, or an expression after `#` and a selector, after `#`, after a
selector, or alone. -/
theorem words_eq : words =
    Terminal.register.lexemes + {[(Terminal.hash, ['#'])]} * (selector.lexemes * Expr.words) +
      {[(Terminal.hash, ['#'])]} * Expr.words + selector.lexemes * Expr.words + Expr.words := by
  ext ts
  simp only [words, lexemes, Expr.words]
  constructor
  · rintro ⟨o, rfl⟩
    cases o with
    | register name => exact Or.inl (Or.inl (Or.inl (Or.inl ⟨name, rfl⟩)))
    | value imm sel e =>
      cases imm with
      | false =>
        cases sel with
        | none => exact Or.inr ⟨e, by simp [tokens]⟩
        | some s => exact Or.inl (Or.inr ⟨[(selector, s)], ⟨s, rfl⟩, e.tokens, ⟨e, rfl⟩,
            by simp [tokens]⟩)
      | true =>
        cases sel with
        | none => exact Or.inl (Or.inl (Or.inr ⟨[(Terminal.hash, ['#'])], rfl, e.tokens,
            ⟨e, rfl⟩, by simp [tokens]⟩))
        | some s =>
          exact Or.inl (Or.inl (Or.inl (Or.inr ⟨[(Terminal.hash, ['#'])], rfl,
            [(selector, s)] ++ e.tokens, ⟨_, ⟨s, rfl⟩, _, ⟨e, rfl⟩, rfl⟩, by simp [tokens]⟩)))
  · rintro ((((⟨name, rfl⟩ | ⟨_, rfl, _, ⟨_, ⟨s, rfl⟩, _, ⟨e, rfl⟩, rfl⟩, rfl⟩) |
      ⟨_, rfl, _, ⟨e, rfl⟩, rfl⟩) | ⟨_, ⟨s, rfl⟩, _, ⟨e, rfl⟩, rfl⟩) | ⟨e, rfl⟩)
    · exact ⟨register name, rfl⟩
    · exact ⟨value true (some s) e, by simp [tokens]⟩
    · exact ⟨value true none e, by simp [tokens]⟩
    · exact ⟨value false (some s) e, by simp [tokens]⟩
    · exact ⟨value false none e, by simp [tokens]⟩

theorem register_mem_words : [(Terminal.register, [])] ∈ words := ⟨register [], rfl⟩

theorem follows_read (d : Dialect) (cs : List Char) : Follows d words cs (read d cs) := by
  have hexpr := Expr.follows_read d
  have hatom := Expr.atom_mem_words []
  rw [words_eq]
  unfold read
  dsimp only
  -- one alternative per form of operand, in the reader's order
  refine (((Follows.append ?register ?hashSelector).append ?hash).append ?selector).append ?bare
  case register => exact (follows_attempt d Terminal.register cs).map _
  case hashSelector =>
    exact (follows_attempt_spelled (t := Terminal.hash) rfl d cs).andThen (fun _ r _ =>
      (follows_attempt d selector r).andThen (fun _ r' _ => (hexpr r').map _) hatom)
      (Language.append_mem_mul ⟨[], rfl⟩ hatom)
  case hash =>
    exact (follows_attempt_spelled (t := Terminal.hash) rfl d cs).andThen
      (fun _ r _ => (hexpr r).map _) hatom
  case selector =>
    exact (follows_attempt d selector cs).andThen (fun _ r _ => (hexpr r).map _) hatom
  case bare => exact (hexpr cs).map _

end Operand

/-! ## Commands, statements and labels -/

namespace Command

/-- The lexeme sequences of control commands. -/
def words : Language Token := {ts | ∃ c : Command, c.Yields ts}

/-- A command is a dot and a name, then optionally blanks and the rest of the line. -/
theorem words_eq : words =
    {[(dot, ['.'])]} * (identifier.lexemes * (blanks.runs * text.lexemes + 1)) := by
  ext ts
  simp only [words, Language.mem_mul, lexemes]
  constructor
  · rintro ⟨c, hy⟩
    cases hy with
    | bare name => exact ⟨_, rfl, _, ⟨_, ⟨name, rfl⟩, [], Or.inr rfl, rfl⟩, rfl⟩
    | withArgs name args ws hne hws =>
      exact ⟨_, rfl, _, ⟨_, ⟨name, rfl⟩, _, Or.inl ⟨ws, ⟨hne, hws⟩, _, ⟨args, rfl⟩, rfl⟩, rfl⟩,
        by simp⟩
  · rintro ⟨_, rfl, _, ⟨_, ⟨name, rfl⟩, _, (⟨ws, ⟨hne, hws⟩, _, ⟨args, rfl⟩, rfl⟩ | rfl), rfl⟩,
      rfl⟩
    · exact ⟨_, by simpa using Yields.withArgs name args ws hne hws⟩
    · exact ⟨_, Yields.bare name⟩

theorem bare_mem_words : [(dot, ['.']), (identifier, [])] ∈ words := ⟨_, Yields.bare []⟩

theorem follows_read (d : Dialect) (cs : List Char) : Follows d words cs (read d cs) := by
  rw [words_eq]
  exact (follows_attempt_spelled (t := dot) rfl d cs).andThen (fun _ r _ =>
    (follows_attempt d identifier r).andThen (fun _ r₁ _ =>
      ((follows_attempt_run (Or.inl rfl) d r₁).andThen
        (fun _ r₂ _ => (follows_attempt d text r₂).map _) ⟨[], rfl⟩).append (Follows.found _ r₁))
      (nil_mem_add_one _))
    (Language.append_mem_mul ⟨[], rfl⟩ (nil_mem_add_one _))

end Command

namespace Statement

/-- The lexeme sequences of statements. -/
def words : Language Token := {ts | ∃ s : Statement, s.Yields ts}

/-- The lexemes of one or more further macro parameters, each after its comma. -/
def paramWords : Language Token :=
  {ts | ∃ ps : List (List Char), ps ≠ [] ∧
    ts = ps.flatMap fun q => [(comma, [',']), (identifier, q)]}

/-- An instruction: a mnemonic, then blanks and one operand or two separated by a comma, or
nothing. -/
def instructionWords : Language Token :=
  mnemonic.lexemes * ((blanks.runs * Operand.words) * ({[(comma, [','])]} * Operand.words) +
    blanks.runs * Operand.words + 1)

/-- The start of a macro definition: the keyword and a name, then optionally a first parameter
and further ones after commas. -/
def macroWords : Language Token :=
  {[(macroKeyword, ".macro".toList)]} *
    (identifier.lexemes * (identifier.lexemes * (paramWords + 1) + 1))

/-- Further parameters are a comma and a name, then more of them or nothing. -/
theorem paramWords_eq :
    paramWords = {[(comma, [','])]} * (identifier.lexemes * (paramWords + 1)) := by
  ext ts
  simp only [paramWords, Language.mem_mul, lexemes]
  constructor
  · rintro ⟨ps, hne, rfl⟩
    obtain ⟨p, ps, rfl⟩ := List.exists_cons_of_ne_nil hne
    refine ⟨_, rfl, _, ⟨_, ⟨p, rfl⟩,
      ps.flatMap fun q => [(comma, [',']), (identifier, q)], ?_, rfl⟩, by simp⟩
    by_cases hps : ps = []
    · subst hps
      exact Or.inr rfl
    · exact Or.inl ⟨ps, hps, rfl⟩
  · rintro ⟨_, rfl, _, ⟨_, ⟨p, rfl⟩, _, (⟨ps, hps, rfl⟩ | rfl), rfl⟩, rfl⟩
    · exact ⟨p :: ps, List.cons_ne_nil _ _, by simp⟩
    · exact ⟨[p], List.cons_ne_nil _ _, by simp⟩

/-- The parameters a statement reads after the first, by induction on the text: the tail after
a parameter is read from a shorter text. -/
theorem follows_readParams (d : Dialect) (cs : List Char) :
    Follows d paramWords cs (readParams d cs) := by
  induction hn : cs.length using Nat.strong_induction_on generalizing cs with
  | _ n ih =>
  rw [readParams, paramWords_eq]
  refine (follows_attempt_spelled (t := comma) rfl d cs).bindMem (fun _ r hr => ?_)
    (Language.append_mem_mul ⟨[], rfl⟩ (nil_mem_add_one _))
  refine (follows_attempt d identifier r).bindMem (fun p r' hr' => ?_) (nil_mem_add_one _)
  have := length_lt_of_mem_attempt hr
  have := length_lt_of_mem_attempt hr'
  exact ((ih r'.length (by omega) r' rfl).map _).append (Follows.found _ r')

theorem follows_readInstruction (d : Dialect) (cs : List Char) :
    Follows d instructionWords cs (readInstruction d cs) := by
  unfold readInstruction instructionWords
  refine (follows_attempt d mnemonic cs).andThen (fun m r _ => ?_) (nil_mem_add_one _)
  dsimp only
  have hfirst : Follows d (blanks.runs * Operand.words) r
      ((attempt d blanks r).andThen fun _ r' => Operand.read d r') :=
    (follows_attempt_run (Or.inl rfl) d r).andThen (fun _ r' _ => Operand.follows_read d r')
      Operand.register_mem_words
  -- two operands, in whatever order they are preferred; one operand; none
  refine (((Follows.preferring ?two _).map _).append (hfirst.map _)).append (Follows.found _ r)
  exact hfirst.andThen (fun _ r₁ _ => (follows_attempt_spelled (t := comma) rfl d r₁).andThen
      (fun _ r₂ _ => (Operand.follows_read d r₂).map _) Operand.register_mem_words)
    (Language.append_mem_mul rfl Operand.register_mem_words)

theorem follows_readMacroStart (d : Dialect) (cs : List Char) :
    Follows d macroWords cs (readMacroStart d cs) := by
  unfold readMacroStart macroWords
  exact (follows_attempt_spelled (t := macroKeyword) rfl d cs).andThen (fun _ r _ =>
    (follows_attempt d identifier r).andThen (fun _ r₁ _ =>
      ((follows_attempt d identifier r₁).andThen (fun _ r₂ _ =>
        ((follows_readParams d r₂).map _).append (Follows.found _ r₂)) (nil_mem_add_one _)).append
        (Follows.found _ r₁)) (nil_mem_add_one _))
    (Language.append_mem_mul ⟨[], rfl⟩ (nil_mem_add_one _))

/-- A statement is an instruction, the start or the end of a macro definition, or a control
command. -/
theorem words_eq : words = instructionWords + macroWords +
    {[(endmacroKeyword, ".endmacro".toList)]} + Command.words := by
  ext ts
  simp only [words, instructionWords, macroWords, Language.mem_add, Language.mem_mul, lexemes]
  constructor
  · rintro ⟨s, hy⟩
    cases hy with
    | bare m => exact Or.inl (Or.inl (Or.inl ⟨_, ⟨m, rfl⟩, [], Or.inr rfl, rfl⟩))
    | unary m o ws hne hws =>
      exact Or.inl (Or.inl (Or.inl
        ⟨_, ⟨m, rfl⟩, _, Or.inl (Or.inr ⟨ws, ⟨hne, hws⟩, _, ⟨o, rfl⟩, rfl⟩), rfl⟩))
    | binary m o₁ o₂ ws hne hws =>
      exact Or.inl (Or.inl (Or.inl ⟨_, ⟨m, rfl⟩, _, Or.inl (Or.inl
        ⟨_, ⟨ws, ⟨hne, hws⟩, _, ⟨o₁, rfl⟩, rfl⟩, _, ⟨_, rfl, _, ⟨o₂, rfl⟩, rfl⟩, rfl⟩), rfl⟩))
    | macroStart name params =>
      refine Or.inl (Or.inl (Or.inr
        ⟨_, rfl, _, ⟨_, ⟨name, rfl⟩, paramTokens params, ?_, rfl⟩, rfl⟩))
      cases params with
      | nil => exact Or.inr rfl
      | cons p ps =>
        refine Or.inl ⟨_, ⟨p, rfl⟩, ps.flatMap fun q => [(comma, [',']), (identifier, q)], ?_, rfl⟩
        by_cases hps : ps = []
        · subst hps
          exact Or.inr rfl
        · exact Or.inl ⟨ps, hps, rfl⟩
    | macroEnd => exact Or.inl (Or.inr rfl)
    | command c toks hc => exact Or.inr ⟨c, hc⟩
  · rintro (((⟨_, ⟨m, rfl⟩, _, ((⟨_, ⟨ws, ⟨hne, hws⟩, _, ⟨o₁, rfl⟩, rfl⟩, _,
        ⟨_, rfl, _, ⟨o₂, rfl⟩, rfl⟩, rfl⟩ | ⟨ws, ⟨hne, hws⟩, _, ⟨o, rfl⟩, rfl⟩) | rfl), rfl⟩ |
      ⟨_, rfl, _, ⟨_, ⟨name, rfl⟩, _,
        (⟨_, ⟨p, rfl⟩, _, (⟨ps, hps, rfl⟩ | rfl), rfl⟩ | rfl), rfl⟩, rfl⟩) | rfl) | ⟨c, hc⟩)
    · exact ⟨_, .binary m o₁ o₂ ws hne hws⟩
    · exact ⟨_, .unary m o ws hne hws⟩
    · exact ⟨_, .bare m⟩
    · exact ⟨_, .macroStart name (p :: ps)⟩
    · exact ⟨_, .macroStart name [p]⟩
    · exact ⟨_, .macroStart name []⟩
    · exact ⟨_, .macroEnd⟩
    · exact ⟨_, .command c _ hc⟩

theorem bare_mem_words (m : List Char) : [(mnemonic, m)] ∈ words := ⟨_, .bare m⟩

theorem follows_read (d : Dialect) (cs : List Char) : Follows d words cs (read d cs) := by
  rw [words_eq]
  exact (((follows_readInstruction d cs).append (follows_readMacroStart d cs)).append
    ((follows_attempt_spelled (t := endmacroKeyword) rfl d cs).map _)).append
    ((Command.follows_read d cs).map _)

end Statement

/-! ## Labels, comments and heads -/

namespace Label

/-- The lexeme sequences of label definitions in dialect `d`. -/
def words (d : Dialect) : Language Token := {ts | ∃ l : Label, l.Yields d ts}

theorem words_standard :
    words .standard = label.lexemes * {[(colon, [':'])]} + {[(colon, [':'])]} := by
  ext ts
  simp only [words, Language.mem_add, lexemes]
  constructor
  · rintro ⟨l, hy⟩
    cases hy with
    | named _ name => exact Or.inl ⟨_, ⟨name, rfl⟩, _, rfl, rfl⟩
    | unnamed _ => exact Or.inr rfl
  · rintro (⟨_, ⟨name, rfl⟩, _, rfl, rfl⟩ | rfl)
    · exact ⟨_, .named _ name⟩
    · exact ⟨_, .unnamed _⟩

/-- In colonless source a name alone is a label definition as well. -/
theorem words_colonless : words .colonless =
    label.lexemes * {[(colon, [':'])]} + label.lexemes + {[(colon, [':'])]} := by
  ext ts
  simp only [words, Language.mem_add, lexemes]
  constructor
  · rintro ⟨l, hy⟩
    cases hy with
    | named _ name => exact Or.inl (Or.inl ⟨_, ⟨name, rfl⟩, _, rfl, rfl⟩)
    | colonless name => exact Or.inl (Or.inr ⟨name, rfl⟩)
    | unnamed _ => exact Or.inr rfl
  · rintro ((⟨_, ⟨name, rfl⟩, _, rfl, rfl⟩ | ⟨name, rfl⟩) | rfl)
    · exact ⟨_, .named _ name⟩
    · exact ⟨_, .colonless name⟩
    · exact ⟨_, .unnamed _⟩

theorem follows_read (d : Dialect) (cs : List Char) : Follows d (words d) cs (read d cs) := by
  have hnamed : Follows d (label.lexemes * {[(colon, [':'])]}) cs
      ((attempt d label cs).andThen fun n r => (attempt d colon r).map fun _ => named n true) :=
    (follows_attempt d label cs).andThen (fun _ r _ => (follows_attempt_spelled rfl d r).map _) rfl
  have hunnamed : Follows d {[(colon, [':'])]} cs ((attempt d colon cs).map fun _ => unnamed) :=
    (follows_attempt_spelled rfl d cs).map _
  -- standard source has no third reading: it is stuck, no further than the named one gets
  cases d with
  | standard =>
    rw [words_standard]
    exact (hnamed.append_stuck (hnamed.frontier_le_length
      (Language.append_mem_mul ⟨[], rfl⟩ rfl))).append hunnamed
  | colonless =>
    rw [words_colonless]
    exact (hnamed.append ((follows_attempt .colonless label cs).map _)).append hunnamed

end Label

namespace Comment

/-- The lexeme sequences of comments. -/
def words : Language Token := {ts | ∃ c : Comment, c.Yields ts}

/-- A comment from its semicolon on: the semicolon, then the rest of the line or nothing. -/
def tailWords : Language Token := {[(semicolon, [';'])]} * (Terminal.text.lexemes + 1)

/-- A comment is a comment's tail, after a run of indents or not. -/
theorem words_eq : words = indent.runs * tailWords + tailWords := by
  ext ts
  simp only [words, tailWords, Language.mem_add, Language.mem_mul, lexemes]
  constructor
  · rintro ⟨c, hy⟩
    cases hy with
    | flush t =>
      cases t with
      | none => exact Or.inr ⟨_, rfl, [], Or.inr rfl, rfl⟩
      | some t => exact Or.inr ⟨_, rfl, _, Or.inl ⟨t, rfl⟩, rfl⟩
    | indented ind t hne hind =>
      cases t with
      | none => exact Or.inl ⟨ind, ⟨hne, hind⟩, _, ⟨_, rfl, [], Or.inr rfl, rfl⟩, rfl⟩
      | some t => exact Or.inl ⟨ind, ⟨hne, hind⟩, _, ⟨_, rfl, _, Or.inl ⟨t, rfl⟩, rfl⟩, rfl⟩
  · rintro (⟨ind, ⟨hne, hind⟩, _, ⟨_, rfl, _, (⟨t, rfl⟩ | rfl), rfl⟩, rfl⟩ |
      ⟨_, rfl, _, (⟨t, rfl⟩ | rfl), rfl⟩)
    · exact ⟨_, .indented ind (some t) hne hind⟩
    · exact ⟨_, .indented ind none hne hind⟩
    · exact ⟨_, .flush (some t)⟩
    · exact ⟨_, .flush none⟩

theorem semicolon_mem_words : [(semicolon, [';'])] ∈ words := ⟨_, .flush none⟩

theorem follows_readFrom (d : Dialect) (indented : Bool) (cs : List Char) :
    Follows d tailWords cs (readFrom d indented cs) :=
  (follows_attempt_spelled rfl d cs).andThen
    (fun _ r _ => ((follows_attempt d .text r).map _).append (Follows.found _ r))
    (nil_mem_add_one _)

theorem follows_read (d : Dialect) (cs : List Char) : Follows d words cs (read d cs) := by
  rw [words_eq]
  exact ((follows_attempt_run (Or.inr rfl) d cs).andThen (fun _ r _ => follows_readFrom d true r)
    (Language.append_mem_mul rfl (nil_mem_add_one _))).append (follows_readFrom d false cs)

end Comment

namespace Head

/-- The lexeme sequences of heads in dialect `d`. -/
def words (d : Dialect) : Language Token := {ts | ∃ h : Head, h.Yields d ts}

/-- A head is a label definition and a statement, a statement, a label definition, a numeric
variable or a constant definition. -/
theorem words_eq : words d = Label.words d * Statement.words + Statement.words + Label.words d +
    identifier.lexemes * Command.words +
      Terminal.label.lexemes * (assign.lexemes * Terminal.text.lexemes) := by
  ext ts
  simp only [words, Language.mem_add, Language.mem_mul, lexemes]
  constructor
  · rintro ⟨h, hy⟩
    cases hy with
    | labelled l s lt st hl hs => exact Or.inl (Or.inl (Or.inl (Or.inl ⟨lt, ⟨l, hl⟩, st, ⟨s, hs⟩, rfl⟩)))
    | statement s st hs => exact Or.inl (Or.inl (Or.inl (Or.inr ⟨s, hs⟩)))
    | label l lt hl => exact Or.inl (Or.inl (Or.inr ⟨l, hl⟩))
    | numeric name c ct hc => exact Or.inl (Or.inr ⟨_, ⟨name, rfl⟩, ct, ⟨c, hc⟩, rfl⟩)
    | constant name a v => exact Or.inr ⟨_, ⟨name, rfl⟩, _, ⟨_, ⟨a, rfl⟩, _, ⟨v, rfl⟩, rfl⟩, rfl⟩
  · rintro ((((⟨lt, ⟨l, hl⟩, st, ⟨s, hs⟩, rfl⟩ | ⟨s, hs⟩) | ⟨l, hl⟩) |
      ⟨_, ⟨name, rfl⟩, ct, ⟨c, hc⟩, rfl⟩) | ⟨_, ⟨name, rfl⟩, _, ⟨_, ⟨a, rfl⟩, _, ⟨v, rfl⟩, rfl⟩, rfl⟩)
    · exact ⟨_, .labelled l s lt st hl hs⟩
    · exact ⟨_, .statement s _ hs⟩
    · exact ⟨_, .label l _ hl⟩
    · exact ⟨_, .numeric name c ct hc⟩
    · exact ⟨_, .constant name a v⟩

theorem follows_readVariable (d : Dialect) (cs : List Char) :
    Follows d (identifier.lexemes * Command.words) cs (readVariable d cs) :=
  (follows_attempt d identifier cs).andThen (fun _ r _ => (Command.follows_read d r).map _)
    Command.bare_mem_words

theorem follows_readConstant (d : Dialect) (cs : List Char) :
    Follows d (Terminal.label.lexemes * (assign.lexemes * Terminal.text.lexemes)) cs
      (readConstant d cs) :=
  (follows_attempt d .label cs).andThen (fun _ r _ =>
    (follows_attempt d assign r).andThen (fun _ r' _ => (follows_attempt d .text r').map _)
      ⟨[], rfl⟩) (Language.append_mem_mul ⟨[], rfl⟩ ⟨[], rfl⟩)

end Head

/-! ## Lines -/

namespace Line

/-- The lexeme sequences of lines in dialect `d`. -/
def words (d : Dialect) : Language Token := {ts | ∃ l : Line, l.Yields d ts}

/-- How a line ends: a comment and the line break, or the line break alone. -/
def endWords : Language Token :=
  Comment.words * {[(newline, ['\n'])]} + {[(newline, ['\n'])]}

theorem newline_mem_endWords : [(newline, ['\n'])] ∈ endWords :=
  (Language.mem_add _ _ _).mpr (Or.inr rfl)

/-- A line is an optional head and its ending. -/
theorem words_eq : words d = (Head.words d + 1) * endWords := by
  ext ts
  simp only [words, endWords, Language.mem_add, Language.mem_mul]
  constructor
  · rintro ⟨l, hy⟩
    cases hy with
    | mk h c ht ct hh hc =>
      refine ⟨ht, ?_, ct ++ [(newline, ['\n'])], ?_, (List.append_assoc _ _ _).symm⟩
      · cases h with
        | none => exact Or.inr hh
        | some h => exact Or.inl ⟨h, hh⟩
      · cases c with
        | none =>
          have hc : ct = [] := hc
          subst hc
          exact Or.inr rfl
        | some c => exact Or.inl ⟨ct, ⟨c, hc⟩, _, rfl, rfl⟩
  · rintro ⟨ht, hh, et, he, rfl⟩
    obtain ⟨ct, c, hc, rfl⟩ : ∃ ct, ∃ c : Option Comment,
        (c.elim (ct = []) fun c => c.Yields ct) ∧ et = ct ++ [(newline, ['\n'])] := by
      rcases he with ⟨ct, ⟨c, hc⟩, _, rfl, rfl⟩ | rfl
      · exact ⟨ct, some c, hc, rfl⟩
      · exact ⟨[], none, rfl, rfl⟩
    obtain ⟨h, hh⟩ : ∃ h : Option Head, h.elim (ht = []) fun h => h.Yields d ht := by
      rcases hh with ⟨h, hh⟩ | rfl
      · exact ⟨some h, hh⟩
      · exact ⟨none, rfl⟩
    refine ⟨⟨h, c⟩, ?_⟩
    rw [← List.append_assoc]
    exact .mk h c ht ct hh hc

theorem follows_readEnding {H : Language Token} {cs : List Char} {heads : Reading (Option Head)}
    (hh : Follows d H cs heads) : Follows d (H * endWords) cs (readEnding d heads) := by
  rw [endWords, mul_add]
  exact (hh.andThen (fun _ r _ => (Comment.follows_read d r).andThen
      (fun _ r' _ => (follows_attempt_spelled rfl d r').map _) rfl)
      (Language.append_mem_mul Comment.semicolon_mem_words rfl)).append
    (hh.andThen (fun _ r _ => (follows_attempt_spelled rfl d r).map _) rfl)

/-- The reading of a line follows the language of lines: its results are the lines the text
begins with, and its frontier is the least number of characters a partial parse of a line
leaves. -/
theorem follows_read (d : Dialect) (cs : List Char) : Follows d (words d) cs (read d cs) := by
  have hlabelled : Follows d (Label.words d * Statement.words) cs
      ((Label.read d cs).andThen fun l r => (Statement.read d r).map (Head.statement (some l))) :=
    (Label.follows_read d cs).andThen (fun _ r _ => (Statement.follows_read d r).map _)
      (Statement.bare_mem_words [])
  have hbare : Follows d (1 * endWords) cs (readEnding d (Reading.found none cs)) :=
    follows_readEnding (Follows.found _ cs)
  -- each form of head in turn, then the line without a head; after it the reading is stuck
  rw [words_eq, Head.words_eq]
  simp only [read, Head.readForms, List.map_cons, List.map_nil, List.cons_append,
    List.nil_append, List.foldr_cons, List.foldr_nil, add_mul, add_assoc]
  refine (follows_readEnding (hlabelled.map some)).append <|
    (follows_readEnding ?statement).append <| (follows_readEnding ?label).append <|
    (follows_readEnding ((Head.follows_readVariable d cs).map some)).append <|
    (follows_readEnding ((Head.follows_readConstant d cs).map some)).append <|
    hbare.append_stuck (hbare.frontier_le_length
      (Language.append_mem_mul ((Language.mem_one _).mpr rfl) newline_mem_endWords))
  case statement => exact ((Statement.follows_read d cs).map _).map some
  case label => exact ((Label.follows_read d cs).map _).map some

/-- The frontier of a line's reading is the least number of characters that a partial parse
of a line leaves. -/
theorem isLeast_frontier_read (d : Dialect) (cs : List Char) :
    IsLeast {n | Reaches d (words d) cs n} (read d cs).frontier :=
  (follows_read d cs).isLeast_frontier

end Line

end AsmTidy
