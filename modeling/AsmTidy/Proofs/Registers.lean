import Mathlib
import AsmTidy.Proofs.Preference
import AsmTidy.Proofs.Colonless
import AsmTidy.Proofs.Content

/-!
# Registers and the comma between two operands

An instruction has up to two operands, separated by a comma. Two readings of its operand text
compete wherever a lone `a`, `x` or `y` stands as an operand, and wherever a comma stands
outside parentheses.

**Registers.** A lone `a`, `x` or `y` is a register, or a label of that name. The operand
reader lists the register first, and both leave the same text, so the label is never the
reading the tidier prints (`Operand.covered_read`). A register is printed in capitals; every
other operand is printed as written, apart from spacing, so a letter inside parentheses or
after `#`, `<`, `>` or an operator keeps its case.

**The comma.** A comma outside parentheses is either the separator of two operands or the
comma operator inside one. Readings with two operands come before readings with one, and an
operand with a comma operator outside parentheses can always be cut there into two operands
that leave the same text (`Expr.tokens_split`). So where the operand text has exactly one
comma outside parentheses, it separates the two operands, and the instruction is printed as
its mnemonic, a space, the first operand, `, ` and the second.

Commas are counted on the operands as written (`commasOutside`): a comma inside a quoted
character, such as `','`, is part of a literal and separates nothing.

Main result: `format_prints_registers`, for every instruction of every accepted text.
-/

namespace AsmTidy

open Text Lexeme

/-! ## The characters of a literal -/

namespace Lexeme

/-- The characters of a literal that is not a quoted character: identifier characters, hex
digits and `$ % @ : + - . *`. -/
def isLiteralChar (c : Char) : Bool :=
  isIdentChar c || isHexDigit c || c ∈ "$%@:+-.*".toList

theorem within_literalChar_char {c : Char} (hc : isLiteralChar c = true) :
    Within (fun a => isLiteralChar a = true) (char c) :=
  within_single fun a ha => by
    obtain rfl : a = c := by simpa using ha
    exact hc

theorem within_literalChar_signs : Within (fun a => isLiteralChar a = true) (run isSign) :=
  within_run fun a ha => by
    simp only [isSign, Bool.or_eq_true, beq_iff_eq] at ha
    rcases ha with rfl | rfl <;> decide

theorem within_literalChar_digits : Within (fun a => isLiteralChar a = true) digits :=
  within_run fun a ha => by simp [isLiteralChar, isIdentChar, Char.isAlphanum, ha]

theorem within_literalChar_number : Within (fun a => isLiteralChar a = true) number := by
  have he : Within (fun a => isLiteralChar a = true) exponent := by
    refine within_seq (within_single fun a ha => ?_)
      (within_seq (within_opt (within_single fun a ha => ?_)) within_literalChar_digits)
    · simp only [Bool.or_eq_true, beq_iff_eq] at ha
      rcases ha with rfl | rfl <;> decide
    · simp only [isSign, Bool.or_eq_true, beq_iff_eq] at ha
      rcases ha with rfl | rfl <;> decide
  have hp := within_literalChar_char (c := '.') (by decide)
  have hd := within_literalChar_digits
  exact within_first (within_seq hd he) (within_first
    (within_seq hd (within_seq hp (within_seq (within_opt hd) (within_opt he))))
    (within_first (within_seq hp (within_seq hd (within_opt he))) hd))

theorem within_literalChar_label : Within (fun a => isLiteralChar a = true) label := by
  have hi : Within (fun a => isLiteralChar a = true) (run isIdentChar) :=
    within_run fun a ha => by simp [isLiteralChar, ha]
  refine within_first (within_seq (within_literalChar_char (by decide)) hi) ?_
  exact within_seq (within_single fun a ha => by simp [isLiteralChar, isIdentChar_of_isIdentStart ha])
    (within_many fun a ha => by simp [isLiteralChar, ha])

/-- A literal is a quoted character, or made of literal characters. -/
theorem literal_cases {cs w r : List Char} (h : literal cs = some (w, r)) :
    (∃ c, w = ['\'', c, '\'']) ∨ ∀ a ∈ w, isLiteralChar a = true := by
  unfold literal at h
  rcases first_eq_some h with h | h
  · exact Or.inr (within_literalChar_number _ _ _ h)
  rcases first_eq_some h with h | h
  · exact Or.inr (within_seq (within_literalChar_char (by decide))
      (within_run fun a ha => by simp [isLiteralChar, ha]) _ _ _ h)
  rcases first_eq_some h with h | h
  · refine Or.inr (within_seq (within_literalChar_char (by decide))
      (within_run fun a ha => ?_) _ _ _ h)
    simp only [Bool.or_eq_true, beq_iff_eq] at ha
    rcases ha with rfl | rfl <;> decide
  rcases first_eq_some h with h | h
  · exact Or.inr (within_literalChar_label _ _ _ h)
  rcases first_eq_some h with h | h
  · exact Or.inr (within_seq (within_literalChar_char (by decide)) within_literalChar_signs _ _ _ h)
  rcases first_eq_some h with h | h
  · -- a quoted character
    obtain ⟨w₁, r₁, w₂, h₁, h₂, rfl⟩ := seq_eq_some h
    obtain ⟨w₃, r₃, w₄, h₃, h₄, rfl⟩ := seq_eq_some h₂
    obtain rfl := char_eq_some h₁
    obtain rfl := char_eq_some h₄
    obtain ⟨b, rfl⟩ := single_eq_some h₃
    exact Or.inl ⟨b, rfl⟩
  · exact Or.inr (within_literalChar_char (by decide) _ _ _ h)

end Lexeme

/-! ## Counting commas outside parentheses -/

/-- The commas of a text outside parentheses and quoted characters, where `depth` parentheses
are open at its start. -/
def commasOutside : Nat → List Char → Nat
  | _, [] => 0
  | depth, '\'' :: _ :: '\'' :: rest => commasOutside depth rest
  | depth, '(' :: rest => commasOutside (depth + 1) rest
  | depth, ')' :: rest => commasOutside (depth - 1) rest
  | depth, ',' :: rest => (if depth = 0 then 1 else 0) + commasOutside depth rest
  | depth, _ :: rest => commasOutside depth rest

/-- A character that is no quote, parenthesis or comma is passed over. -/
theorem commasOutside_cons_of_not_mem {c : Char} (hc : c ∉ ['\'', '(', ')', ','])
    (depth : Nat) (t : List Char) : commasOutside depth (c :: t) = commasOutside depth t := by
  simp only [List.mem_cons, List.not_mem_nil, or_false, not_or] at hc
  obtain ⟨h₁, h₂, h₃, h₄⟩ := hc
  rw [commasOutside.eq_def]
  split <;> simp_all

theorem not_mem_of_isLiteralChar {c : Char} (h : isLiteralChar c = true) :
    c ∉ ['\'', '(', ')', ','] := by
  intro hc
  simp only [List.mem_cons, List.not_mem_nil, or_false] at hc
  rcases hc with rfl | rfl | rfl | rfl <;> exact absurd h (by decide)

theorem commasOutside_append_of_isLiteralChar {w : List Char}
    (hw : ∀ a ∈ w, isLiteralChar a = true) (depth : Nat) (t : List Char) :
    commasOutside depth (w ++ t) = commasOutside depth t := by
  induction w with
  | nil => rfl
  | cons a w ih =>
    rw [List.cons_append, commasOutside_cons_of_not_mem (not_mem_of_isLiteralChar (hw a (by simp))),
      ih fun b hb => hw b (List.mem_cons_of_mem a hb)]

/-- A literal is passed over as a whole: a quoted character hides what it quotes. -/
theorem commasOutside_literal {cs w r : List Char} (h : literal cs = some (w, r)) (depth : Nat)
    (t : List Char) : commasOutside depth (w ++ t) = commasOutside depth t := by
  rcases literal_cases h with ⟨c, rfl⟩ | hw
  · simp [commasOutside]
  · exact commasOutside_append_of_isLiteralChar hw depth t

/-! ## Commas in the trees of operands -/

/-- The lexemes `toks` are lexed one after another from some text. -/
def Lexed (d : Dialect) (toks : List Token) : Prop := ∃ cs rest, Lexes d cs toks rest

namespace Lexed

variable {d : Dialect} {ts us : List Token}

theorem append_left (h : Lexed d (ts ++ us)) : Lexed d ts := by
  obtain ⟨cs, rest, h⟩ := h
  obtain ⟨mid, h₁, -⟩ := Lexes.append_iff.mp h
  exact ⟨cs, mid, h₁⟩

theorem append_right (h : Lexed d (ts ++ us)) : Lexed d us := by
  obtain ⟨cs, rest, h⟩ := h
  obtain ⟨mid, -, h₂⟩ := Lexes.append_iff.mp h
  exact ⟨mid, rest, h₂⟩

/-- The first lexeme is what its class's pattern matches somewhere. -/
theorem cons {t : Terminal} {w : List Char} (h : Lexed d ((t, w) :: ts)) :
    (∃ x y, t.lex d x = some (w, y)) ∧ Lexed d ts := by
  obtain ⟨cs, rest, h⟩ := h
  obtain ⟨r, hm, hl⟩ := Lexes.cons_iff.mp h
  obtain ⟨x, hx⟩ := hm.exists_lex
  exact ⟨⟨x, r, hx⟩, r, rest, hl⟩

end Lexed

theorem Lexeme.single_eq_some_mem {p : Char → Bool} {cs w r : List Char}
    (h : single p cs = some (w, r)) : ∃ c, w = [c] ∧ p c = true := by
  cases cs with
  | nil => simp [single] at h
  | cons c cs =>
    by_cases hc : p c = true
    · simp only [single, hc, if_true, Option.some.injEq, Prod.mk.injEq] at h
      exact ⟨c, h.1.symm, hc⟩
    · simp [single, hc] at h

/-- An operator is a comma, or a character that the count passes over. -/
theorem operator_char_cases {c : Char} (hc : c ∈ "+-*/|^&,".toList) :
    c = ',' ∨ c ∉ ['\'', '(', ')', ','] := by
  rw [show "+-*/|^&,".toList = ['+', '-', '*', '/', '|', '^', '&', ','] from rfl] at hc
  simp only [List.mem_cons, List.not_mem_nil, or_false] at hc
  rcases hc with rfl | rfl | rfl | rfl | rfl | rfl | rfl | rfl <;> decide

theorem register_char_not_mem {c : Char} (hc : c ∈ "aAxXyY".toList) :
    c ∉ ['\'', '(', ')', ','] := by
  rw [show "aAxXyY".toList = ['a', 'A', 'x', 'X', 'y', 'Y'] from rfl] at hc
  simp only [List.mem_cons, List.not_mem_nil, or_false] at hc
  rcases hc with rfl | rfl | rfl | rfl | rfl | rfl <;> decide

namespace Expr

/-- The comma operators of an expression's chain, which are its commas outside parentheses. -/
def topCommas : Expr → Nat
  | atom _ => 0
  | chain _ op right => (if op = [','] then 1 else 0) + right.topCommas
  | group _ => 0

/-- Counting the commas of a lexed expression's text counts its comma operators, at the top
and nowhere inside parentheses. -/
theorem commasOutside_spell {d : Dialect} {e : Expr} (h : Lexed d e.tokens) (depth : Nat)
    (t : List Char) :
    commasOutside depth (e.spell ++ t) = (if depth = 0 then e.topCommas else 0) +
      commasOutside depth t := by
  induction e generalizing depth t with
  | atom lit =>
    obtain ⟨⟨x, y, hx⟩, -⟩ := Lexed.cons h
    simp [spell, topCommas, commasOutside_literal hx]
  | chain lit op right ih =>
    obtain ⟨⟨x, y, hx⟩, h₁⟩ := Lexed.cons h
    obtain ⟨⟨x', y', hop⟩, h₂⟩ := Lexed.cons h₁
    obtain ⟨c, rfl, hc⟩ := single_eq_some_mem hop
    simp only [spell, topCommas, List.append_assoc, commasOutside_literal hx, List.cons_append,
      List.nil_append]
    rcases operator_char_cases (by simpa using hc) with rfl | hplain
    · simp [commasOutside, ih h₂]
      split <;> omega
    · rw [commasOutside_cons_of_not_mem hplain, ih h₂]
      have : [c] ≠ [','] := by
        rintro ⟨⟩
        simp at hplain
      simp [this]
  | group inner ih =>
    obtain ⟨-, h₁⟩ := Lexed.cons h
    simp only [spell, topCommas, List.cons_append, List.append_assoc, List.nil_append]
    rw [show commasOutside depth ('(' :: (inner.spell ++ ')' :: t)) =
      commasOutside (depth + 1) (inner.spell ++ ')' :: t) by simp [commasOutside],
      ih (Lexed.append_left h₁)]
    simp [commasOutside]

end Expr

namespace Operand

/-- The commas outside parentheses of an operand: none in a register. -/
def topCommas : Operand → Nat
  | register _ => 0
  | value _ _ e => e.topCommas

theorem commasOutside_spell {d : Dialect} {o : Operand} (h : Lexed d o.tokens) (depth : Nat)
    (t : List Char) :
    commasOutside depth (o.spell .asWritten ++ t) = (if depth = 0 then o.topCommas else 0) +
      commasOutside depth t := by
  cases o with
  | register name =>
    obtain ⟨⟨x, y, hx⟩, -⟩ := Lexed.cons h
    obtain ⟨c, rfl, hc⟩ := single_eq_some_mem hx
    simp [spell, Spelling.asWritten, topCommas,
      commasOutside_cons_of_not_mem (register_char_not_mem (by simpa using hc))]
  | value imm sel e =>
    -- the `#` and the byte selector are passed over, then the expression is counted
    have hsel (w : List Char) (hw : Lexed d ((Terminal.selector, w) :: e.tokens)) (t' : List Char) :
        commasOutside depth (w ++ t') = commasOutside depth t' := by
      obtain ⟨⟨x, y, hx⟩, -⟩ := Lexed.cons hw
      obtain ⟨c, rfl, hc⟩ := single_eq_some_mem hx
      have : c ∉ ['\'', '(', ')', ','] := by
        simp only [Bool.or_eq_true, beq_iff_eq] at hc
        rcases hc with rfl | rfl <;> decide
      exact commasOutside_cons_of_not_mem this depth t'
    have hhash (t' : List Char) : commasOutside depth ('#' :: t') = commasOutside depth t' :=
      commasOutside_cons_of_not_mem (by decide) depth t'
    have he := e.commasOutside_spell (d := d)
    cases imm <;> cases sel <;>
      simp only [tokens, spell, Option.map_none, Option.map_some, Option.toList_none,
        Option.toList_some, Option.getD_none, Option.getD_some, List.nil_append, List.cons_append,
        List.append_assoc, Bool.false_eq_true, if_false, if_true,
        topCommas] at h ⊢
    · exact he h depth t
    · rw [hsel _ h, he (Lexed.cons h).2 depth t]
    · rw [hhash, he (Lexed.cons h).2 depth t]
    · rw [hhash, hsel _ (Lexed.cons h).2, he (Lexed.cons (Lexed.cons h).2).2 depth t]

end Operand

/-- The operands of an instruction as written, without blanks, separated by commas. -/
def operandText (ops : List Operand) : List Char :=
  [','].intercalate (ops.map (Operand.spell .asWritten))

example : commasOutside 0 (operandText [.value false none (.atom "','".toList)]) = 0 := by decide

section OperandText

variable {d : Dialect}

theorem commasOutside_operandText_single {o : Operand} (h : Lexed d o.tokens) :
    commasOutside 0 (operandText [o]) = o.topCommas := by
  simpa [operandText, commasOutside] using o.commasOutside_spell h 0 []

theorem commasOutside_operandText_pair {o₁ o₂ : Operand} (h₁ : Lexed d o₁.tokens)
    (h₂ : Lexed d o₂.tokens) :
    commasOutside 0 (operandText [o₁, o₂]) = o₁.topCommas + 1 + o₂.topCommas := by
  have hc₁ := o₁.commasOutside_spell h₁ 0 (',' :: o₂.spell .asWritten)
  have hc₂ := o₂.commasOutside_spell h₂ 0 []
  simp only [if_true, List.append_nil, commasOutside] at hc₁ hc₂
  simp only [operandText, List.map_cons, List.map_nil, List.intercalate_cons_cons,
    List.intercalate_singleton, List.append_assoc, List.singleton_append, hc₁, hc₂]
  omega

end OperandText

/-! ## The lexemes of a derived instruction -/

theorem Statement.Yields.operands {d : Dialect} {m : List Char} {ops : List Operand}
    {st : List Token} (hy : (Statement.instruction m ops).Yields st) (h : Lexed d st) :
    ops.length ≤ 2 ∧ ∀ o ∈ ops, Lexed d o.tokens := by
  cases hy with
  | bare => simp
  | unary _ o ws =>
    refine ⟨by simp, fun o' ho' => ?_⟩
    obtain rfl : o' = o := by simpa using ho'
    exact (show Lexed d (ws ++ o'.tokens) from (Lexed.cons h).2).append_right
  | binary _ o₁ o₂ ws =>
    have h' : Lexed d (ws ++ o₁.tokens ++ (.comma, [',']) :: o₂.tokens) := (Lexed.cons h).2
    rw [List.append_assoc] at h'
    refine ⟨by simp, fun o' ho' => ?_⟩
    simp only [List.mem_cons, List.not_mem_nil, or_false] at ho'
    rcases ho' with rfl | rfl
    · exact h'.append_right.append_left
    · exact (Lexed.cons h'.append_right.append_right).2

/-- The instruction of a derived line has at most two operands, each lexed. -/
theorem DerivesLine.operands {d : Dialect} {s : List Char} {l : Line} (h : DerivesLine d s l)
    {lb : Option Label} {m : List Char} {ops : List Operand}
    (hh : l.head = some (.statement lb (.instruction m ops))) :
    ops.length ≤ 2 ∧ ∀ o ∈ ops, Lexed d o.tokens := by
  obtain ⟨toks, hy, hl⟩ := h
  cases hy with
  | mk oh c ht ct hoh hc =>
  obtain rfl : oh = some (.statement lb (.instruction m ops)) := hh
  have hht : Lexed d ht := (Lexed.append_left (Lexed.append_left ⟨_, _, hl⟩))
  cases hoh with
  | labelled l _ lt st _ hsy => exact hsy.operands hht.append_right
  | statement _ st hsy => exact hsy.operands hht

/-! ## A lone register letter is a register -/

/-- Where a lone register letter is matched as a literal, it is matched as a register too. -/
theorem Terminal.Matches.register_of_literal {d : Dialect} {cs r : List Char} {c : Char}
    (h : Terminal.literal.Matches d cs [c] r) (hc : c ∈ "aAxXyY".toList) :
    Terminal.register.Matches d cs [c] r := by
  have hlex {x : List Char} (hx : Terminal.literal.lex d x = some ([c], r)) :
      Terminal.register.lex d x = some ([c], r) := by
    obtain rfl : [c] ++ r = x := (Terminal.reads_lex d _).splits _ _ _ hx
    show single (· ∈ "aAxXyY".toList) (c :: r) = some ([c], r)
    simp only [single, decide_eq_true hc, if_true]
  cases h with
  | here h => exact .here (hlex h)
  | afterBlanks h => exact .afterBlanks (hlex h)

namespace Operand

/-- An operand read as a label whose name is a lone register letter. -/
def isLoneLabel : Operand → Bool
  | value false none (.atom [c]) => c ∈ "aAxXyY".toList
  | _ => false

theorem eq_of_isLoneLabel {o : Operand} (h : o.isLoneLabel = true) :
    ∃ c ∈ "aAxXyY".toList, o = value false none (.atom [c]) := by
  unfold isLoneLabel at h
  split at h
  · exact ⟨_, by simpa using h, rfl⟩
  · cases h

/-- The operand reader reads a register before the label of the same name, and both leave the
same text. So every lone register letter read as a label comes after the register. -/
theorem covered_read (d : Dialect) (cs : List Char) :
    Covered (fun p : Operand × List Char => p.1.isLoneLabel = false) (fun y x => y.2 = x.2) []
      (read d cs).results := by
  simp only [read, Reading.results_append]
  refine Covered.append (Covered.of_forall fun p hp => ?_)
    (Covered.of_forall_before fun p hx hlone => ?_)
  · -- a register, or an operand with `#` or a byte selector
    obtain ⟨o, rest⟩ := p
    simp only [List.mem_append, Reading.mem_map, Reading.mem_andThen] at hp
    rcases hp with ((⟨n, -, rfl⟩ | ⟨-, -, -, -, s, -, e, -, rfl⟩) | ⟨-, -, -, e, -, rfl⟩) |
      ⟨-, s, -, e, -, rfl⟩ <;> rfl
  · obtain ⟨o, rest⟩ := p
    obtain ⟨c, hc, rfl⟩ := eq_of_isLoneLabel (by simpa using hlone)
    obtain ⟨e, he, ⟨⟩⟩ := Reading.mem_map.mp hx
    have hm : Terminal.literal.Matches d cs [c] rest :=
      Lexes.singleton_iff.mp (Expr.mem_read_iff.mp he)
    refine ⟨(register [c], rest), List.mem_append_right _ ?_, rfl, rfl⟩
    refine List.mem_append_left _ (List.mem_append_left _ (List.mem_append_left _
      (Reading.mem_map.mpr ⟨[c], ?_, rfl⟩)))
    exact (Terminal.mem_attempt_iff_matches (by decide)).mpr (hm.register_of_literal hc)

end Operand

/-! ## A comma outside parentheses separates two operands -/

/-- An expression with a comma operator in its chain is two expressions around that comma. -/
theorem Expr.tokens_split {e : Expr} (h : 0 < e.topCommas) :
    ∃ e₁ e₂ : Expr, e.tokens = e₁.tokens ++ (.operator, [',']) :: e₂.tokens := by
  induction e with
  | atom => simp [topCommas] at h
  | chain lit op right ih =>
    by_cases hop : op = [',']
    · subst hop
      exact ⟨.atom lit, right, rfl⟩
    · obtain ⟨e₁, e₂, he⟩ := ih (by simpa [topCommas, hop] using h)
      exact ⟨.chain lit op e₁, e₂, by simp [tokens, he]⟩
  | group => simp [topCommas] at h

/-- The comma operator is matched where the separator of two operands is. -/
theorem Terminal.Matches.comma_of_operator {d : Dialect} {cs r : List Char}
    (h : Terminal.operator.Matches d cs [','] r) : Terminal.comma.Matches d cs [','] r := by
  have hlex {x : List Char} (hx : Terminal.operator.lex d x = some ([','], r)) :
      Terminal.comma.lex d x = some ([','], r) := by
    obtain rfl : [','] ++ r = x := (Terminal.reads_lex d _).splits _ _ _ hx
    rfl
  cases h with
  | here h => exact .here (hlex h)
  | afterBlanks h => exact .afterBlanks (hlex h)

namespace Statement

/-- The first operand of an instruction, after the blanks that follow its mnemonic. -/
def firstOperands (d : Dialect) (r : List Char) : Reading Operand :=
  (Terminal.attempt d .blanks r).andThen fun _ r' => Operand.read d r'

/-- Two operands separated by a comma, each pair with the length of the text after its first
operand. -/
def operandPairs (d : Dialect) (r : List Char) : Reading (Nat × Operand × Operand) :=
  (firstOperands d r).andThen fun o₁ r₁ =>
    (Terminal.attempt d .comma r₁).andThen fun _ r₂ =>
      (Operand.read d r₂).map fun o₂ => (r₁.length, o₁, o₂)

theorem readOperands_eq (d : Dialect) (m r : List Char) :
    readOperands d m r =
      ((operandPairs d r).preferring Prod.fst).map (fun p => instruction m [p.2.1, p.2.2]) ++
        (firstOperands d r).map (fun o => instruction m [o]) ++
        Reading.found (instruction m []) r :=
  rfl

variable {d : Dialect}

/-- A first operand with a comma operator outside parentheses is also read as two operands
around that comma, which leave the same text. -/
theorem exists_pair_of_topCommas {r rest : List Char} {o : Operand}
    (hm : (o, rest) ∈ (firstOperands d r).results) (ho : 0 < o.topCommas) :
    ∃ p, (p, rest) ∈ (operandPairs d r).results := by
  obtain ⟨r', w, hw, hm⟩ := Reading.mem_andThen.mp hm
  cases o with
  | register => simp [Operand.topCommas] at ho
  | value imm sel e =>
    obtain ⟨e₁, e₂, he⟩ := Expr.tokens_split ho
    have hl := Operand.mem_read_iff.mp hm
    simp only [Operand.tokens, he, ← List.append_assoc] at hl
    obtain ⟨r₁, h₁, h₂⟩ := Lexes.append_iff.mp hl
    obtain ⟨r₂, hc, h₃⟩ := Lexes.cons_iff.mp h₂
    have ho₁ : (Operand.value imm sel e₁, r₁) ∈ (firstOperands d r).results :=
      Reading.mem_andThen.mpr ⟨r', w, hw, Operand.mem_read_iff.mpr (by simpa [Operand.tokens] using h₁)⟩
    have ho₂ : (Operand.value false none e₂, rest) ∈ (Operand.read d r₂).results :=
      Operand.mem_read_iff.mpr (by simpa [Operand.tokens] using h₃)
    exact ⟨_, Reading.mem_andThen.mpr ⟨r₁, _, ho₁, Reading.mem_andThen.mpr ⟨r₂, [','],
      (Terminal.mem_attempt_eq_spelling rfl).mpr ⟨rfl, hc.comma_of_operator⟩,
      Reading.mem_map.mpr ⟨_, ho₂, rfl⟩⟩⟩⟩

/-- An instruction read the preferred way: no lone register letter is read as a label, and a
single operand has no comma operator outside parentheses. Other statements need nothing. -/
def Preferred : Statement → Prop
  | instruction _ ops => (∀ o ∈ ops, o.isLoneLabel = false) ∧ ∀ o, ops = [o] → o.topCommas = 0
  | _ => True

theorem covered_firstOperands (d : Dialect) (r : List Char) :
    Covered (fun p : Operand × List Char => p.1.isLoneLabel = false) (fun y x => y.2 = x.2) []
      (firstOperands d r).results := by
  rw [firstOperands, Reading.results_andThen]
  exact Covered.flatMap_of_forall fun a _ => Operand.covered_read d a.2

/-- A pair of operands with a lone register letter read as a label comes after the pair read
with the register, which splits the text at the same place. -/
theorem covered_operandPairs (d : Dialect) (r : List Char) :
    Covered (fun p : (Nat × Operand × Operand) × List Char =>
        p.1.2.1.isLoneLabel = false ∧ p.1.2.2.isLoneLabel = false)
      (fun y x => y.2 = x.2 ∧ y.1.1 ≤ x.1.1) [] (operandPairs d r).results := by
  rw [operandPairs, Reading.results_andThen]
  refine Covered.flatMap (T := fun y x : (Nat × Operand × Operand) × List Char =>
      y.2 = x.2 ∧ y.1.1 ≤ x.1.1) (fun _ => ⟨rfl, le_rfl⟩)
    (fun _ _ _ h₁ h₂ => ⟨h₁.1.trans h₂.1, h₁.2.trans h₂.2⟩) (covered_firstOperands d r)
    (fun a ha => ?_) ?_
  · -- the second operands after a first operand that is no lone label
    rw [Reading.results_andThen]
    refine Covered.flatMap_of_forall fun b _ => ?_
    rw [Reading.results_map]
    refine Covered.map_nil (Covered.mono (Covered.imp (Operand.covered_read d b.2)
      fun x hx => ?_) (by simp) fun y x h => ?_)
    · exact ⟨ha, hx⟩
    · exact ⟨h, le_rfl⟩
  · -- a first operand and its twin leave the same text, so the same second operands follow
    rintro ⟨o₁', r₁'⟩ ⟨o₁, r₁⟩ (rfl : r₁' = r₁) - - ⟨p, rest⟩ hz
    obtain ⟨r₂, u, hu, q, hq, rfl⟩ := by simpa only [Reading.mem_andThen, Reading.mem_map] using hz
    exact ⟨((r₁'.length, o₁', q), rest),
      Reading.mem_andThen.mpr ⟨r₂, u, hu, Reading.mem_map.mpr ⟨q, hq, rfl⟩⟩, rfl, le_rfl⟩

/-- Every reading of an instruction's operands that is not preferred comes after a preferred
one that leaves the same text: pairs come first, sorted by where the first operand ends, and a
single operand with a comma outside parentheses is also read as a pair. -/
theorem covered_readOperands (d : Dialect) (m r : List Char) :
    Covered (fun p : Statement × List Char => p.1.Preferred) (fun y x => y.2 = x.2) []
      (readOperands d m r).results := by
  rw [readOperands_eq]
  simp only [Reading.results_append, Reading.results_map, Reading.results_found]
  -- the pairs, in their stable order by key
  have hpairs : Covered (fun p : Statement × List Char => p.1.Preferred) (fun y x => y.2 = x.2) []
      (((operandPairs d r).preferring Prod.fst).results.map fun p =>
        (instruction m [p.1.2.1, p.1.2.2], p.2)) := by
    refine Covered.map_nil (Covered.mono (Covered.imp ((covered_operandPairs d r).mergeSort
      (fun p => p.1.1) fun y x h => h.2) fun x hx => ?_) (by simp) fun y x h => h.1)
    simp [Preferred, hx.1, hx.2]
  -- a single operand with a comma outside parentheses has a pair before it
  have hpair {o : Operand} {rest : List Char} (hm : (o, rest) ∈ (firstOperands d r).results)
      (ho : 0 < o.topCommas) :
      ∃ y ∈ ((operandPairs d r).preferring Prod.fst).results.map (fun p =>
        (instruction m [p.1.2.1, p.1.2.2], p.2)), y.2 = rest := by
    obtain ⟨p, hp⟩ := exists_pair_of_topCommas hm ho
    exact ⟨_, List.mem_map.mpr ⟨(p, rest), Reading.mem_preferring.mpr hp, rfl⟩, rfl⟩
  -- single operands that are no lone labels come first among the single operands
  have hsingle : Covered (fun q : Statement × List Char =>
      ∃ o, q.1 = instruction m [o] ∧ o.isLoneLabel = false) (fun y x => y.2 = x.2) []
      ((firstOperands d r).results.map fun p => (instruction m [p.1], p.2)) :=
    Covered.map_nil (Covered.imp (covered_firstOperands d r) fun a ha => ⟨a.1, rfl, ha⟩)
  refine Covered.append (Covered.append hpairs ?_) (Covered.of_forall fun x hx => ?_)
  · refine Covered.of_twins (fun _ => rfl) (fun _ _ _ h₁ h₂ => h₁.trans h₂) hpairs
      fun L₁ x L₂ hL hx => ?_
    have hxB : x ∈ L₁ ++ x :: L₂ := List.mem_append_right _ List.mem_cons_self
    rw [← hL] at hxB
    obtain ⟨⟨o, rest⟩, hm, rfl⟩ := List.mem_map.mp hxB
    dsimp only at hx hL ⊢
    by_cases hc : 0 < o.topCommas
    · exact Or.inr (hpair hm hc)
    · -- not preferred and no comma outside parentheses: a lone register letter read as a label
      have hlone : o.isLoneLabel = true := by
        by_contra hl
        refine hx ⟨by simpa using hl, fun o' ho' => ?_⟩
        obtain rfl : o = o' := by simpa using ho'
        exact Nat.eq_zero_of_not_pos hc
      obtain ⟨y, hy, ⟨o', hy₁, ho'⟩, hT⟩ := hsingle L₁ _ L₂ hL (by simp [hlone])
      have hyB : y ∈ L₁ ++ (instruction m [o], rest) :: L₂ :=
        List.mem_append_left _ (by simpa using hy)
      rw [← hL] at hyB
      obtain ⟨⟨o'', r''⟩, hm', hy'⟩ := List.mem_map.mp hyB
      obtain rfl : o'' = o' := by
        have := congrArg Prod.fst hy'
        simp only [hy₁, instruction.injEq, List.cons.injEq, and_true, true_and] at this
        exact this
      by_cases hc' : 0 < o''.topCommas
      · obtain ⟨z, hz, hzT⟩ := hpair hm' hc'
        have hr : r'' = rest := by
          rw [← hy'] at hT
          exact hT
        exact Or.inr ⟨z, hz, hzT.trans hr⟩
      · refine Or.inl ⟨y, by simpa using hy, ?_, hT⟩
        rw [hy₁]
        refine ⟨by simpa using ho', fun o₁ ho₁ => ?_⟩
        obtain rfl : o'' = o₁ := by simpa using ho₁
        exact Nat.eq_zero_of_not_pos hc'
  · obtain rfl : x = (instruction m [], r) := by simpa using hx
    simp [Preferred]

/-- The start of a macro definition is all that its reader reads. -/
theorem exists_macroStart_of_mem {cs : List Char} {s : Statement} {rest : List Char}
    (h : (s, rest) ∈ (readMacroStart d cs).results) : ∃ name params, s = macroStart name params := by
  simp only [readMacroStart, Reading.results_append, List.mem_append, Reading.mem_andThen,
    Reading.mem_map, Reading.results_found, List.mem_singleton, Prod.mk.injEq] at h
  rcases h with ⟨_, _, -, _, _, -, ⟨_, _, -, ⟨_, -, rfl⟩ | ⟨rfl, -⟩⟩ | ⟨rfl, -⟩⟩ <;> exact ⟨_, _, rfl⟩

theorem preferred_of_mem_readMacroStart {cs : List Char} {s : Statement} {rest : List Char}
    (h : (s, rest) ∈ (readMacroStart d cs).results) : s.Preferred := by
  obtain ⟨_, _, rfl⟩ := exists_macroStart_of_mem h
  trivial

/-- Every reading of a statement that is not preferred comes after a preferred one that leaves
the same text. -/
theorem covered_read (d : Dialect) (cs : List Char) :
    Covered (fun p : Statement × List Char => p.1.Preferred) (fun y x => y.2 = x.2) []
      (read d cs).results := by
  simp only [read, Reading.results_append, Reading.results_map]
  refine Covered.append (Covered.append (Covered.append ?_ ?_) ?_) ?_
  · rw [readInstruction_eq, Reading.results_andThen]
    exact Covered.flatMap_of_forall fun a _ => covered_readOperands d a.1 a.2
  · exact Covered.of_forall fun p hp => preferred_of_mem_readMacroStart hp
  · refine Covered.of_forall fun p hp => ?_
    obtain ⟨_, -, rfl⟩ := List.mem_map.mp hp
    trivial
  · refine Covered.of_forall fun p hp => ?_
    obtain ⟨_, -, rfl⟩ := List.mem_map.mp hp
    trivial

end Statement

namespace Head

/-- A head whose statement, if it has one, is read the preferred way. -/
def Preferred : Option Head → Prop
  | some (.statement _ s) => s.Preferred
  | _ => True

/-- A head whose statement, if it has one, has the property `P`. -/
def Holds (P : Statement → Prop) : Option Head → Prop
  | some (.statement _ s) => P s
  | _ => True

theorem preferred_iff_holds (h : Option Head) : Preferred h ↔ Holds Statement.Preferred h := by
  cases h with
  | none => exact Iff.rfl
  | some h => cases h <;> exact Iff.rfl

variable {d : Dialect}

/-- In each form of head, a statement that fails `P` comes after one that satisfies it and
leaves the same text, where the statements read from any text are so. -/
theorem covered_readForms_of {P : Statement → Prop}
    (hP : ∀ cs, Covered (fun p : Statement × List Char => P p.1) (fun y x => y.2 = x.2) []
      (Statement.read d cs).results)
    {cs : List Char} {heads : Reading Head} (hf : heads ∈ readForms d cs) :
    Covered (fun p : Option Head × List Char => Holds P p.1) (fun y x => y.2 = x.2) []
      (heads.map some).results := by
  simp only [readForms, List.mem_cons, List.not_mem_nil, or_false] at hf
  rcases hf with rfl | rfl | rfl | rfl | rfl
  · -- a label and a statement, for every label read
    simp only [Reading.results_map, Reading.results_andThen, List.map_flatMap, List.map_map]
    exact Covered.flatMap_of_forall fun a _ =>
      Covered.map_nil (Covered.imp (hP a.2) fun _ h => h)
  · simp only [Reading.results_map, List.map_map]
    exact Covered.map_nil (Covered.imp (hP cs) fun _ h => h)
  · refine Covered.of_forall fun p hp => ?_
    obtain ⟨oh, rest⟩ := p
    obtain ⟨h, hh, rfl⟩ := Reading.mem_map.mp hp
    obtain ⟨_, -, rfl⟩ := Reading.mem_map.mp hh
    trivial
  · refine Covered.of_forall fun p hp => ?_
    obtain ⟨h, rest⟩ := p
    obtain ⟨h, hh, rfl⟩ := Reading.mem_map.mp hp
    obtain ⟨_, _, -, hh⟩ := Reading.mem_andThen.mp (show (h, rest) ∈ (readVariable d cs).results from hh)
    obtain ⟨_, -, rfl⟩ := Reading.mem_map.mp hh
    trivial
  · refine Covered.of_forall fun p hp => ?_
    obtain ⟨h, rest⟩ := p
    obtain ⟨h, hh, rfl⟩ := Reading.mem_map.mp hp
    obtain ⟨_, _, -, hh⟩ := Reading.mem_andThen.mp (show (h, rest) ∈ (readConstant d cs).results from hh)
    obtain ⟨_, _, -, hh⟩ := Reading.mem_andThen.mp hh
    obtain ⟨_, -, rfl⟩ := Reading.mem_map.mp hh
    trivial

end Head

/-! ## How operands are printed -/

theorem register_char_ne {c : Char} (hc : c ∈ "aAxXyY".toList) :
    c ≠ '#' ∧ c ≠ '<' ∧ c ≠ '>' ∧ c ≠ '(' := by
  rw [show "aAxXyY".toList = ['a', 'A', 'x', 'X', 'y', 'Y'] from rfl] at hc
  simp only [List.mem_cons, List.not_mem_nil, or_false] at hc
  rcases hc with rfl | rfl | rfl | rfl | rfl | rfl <;> decide

namespace Operand

variable {d : Dialect}

/-- The byte selector of a lexed operand is `<` or `>`. -/
theorem selector_of_lexed {e : Expr} {w : List Char}
    (h : Lexed d ((Terminal.selector, w) :: e.tokens)) : w = ['<'] ∨ w = ['>'] := by
  obtain ⟨⟨x, y, hx⟩, -⟩ := Lexed.cons h
  obtain ⟨c, rfl, hc⟩ := single_eq_some_mem hx
  simp only [Bool.or_eq_true, beq_iff_eq] at hc
  rcases hc with rfl | rfl
  · exact Or.inl rfl
  · exact Or.inr rfl

/-- A lexed operand written as one register letter, and not read as a label, is that register,
printed in capitals. -/
theorem render_of_spell_eq_register {o : Operand} (h : Lexed d o.tokens)
    (hl : o.isLoneLabel = false) {c : Char} (hc : c ∈ "aAxXyY".toList)
    (hs : o.spell .asWritten = [c]) : o.render = [c.toUpper] := by
  obtain ⟨hhash, hlt, hgt, hparen⟩ := register_char_ne hc
  cases o with
  | register n =>
    obtain rfl : n = [c] := hs
    rfl
  | value imm sel e =>
    cases imm with
    | true => exact absurd (List.cons.inj hs).1.symm hhash
    | false =>
      cases sel with
      | some w =>
        rcases selector_of_lexed h with rfl | rfl
        · exact absurd (List.cons.inj hs).1.symm hlt
        · exact absurd (List.cons.inj hs).1.symm hgt
      | none =>
        -- a literal alone would be a lone label; a chain or a group is longer or begins with `(`
        cases e with
        | atom lit =>
          obtain rfl : lit = [c] := hs
          exact absurd hc (by simpa only [isLoneLabel, decide_eq_false_iff_not] using hl)
        | chain lit op right =>
          obtain ⟨⟨x, y, hx⟩, h₁⟩ := Lexed.cons h
          obtain ⟨⟨x', y', hop⟩, -⟩ := Lexed.cons h₁
          have hlit := ((Terminal.reads_lex d _) _ _ _ hx).1
          have hop' := ((Terminal.reads_lex d _) _ _ _ hop).1
          have hlen := congrArg List.length hs
          simp only [spell, Expr.spell, Option.getD_none, List.length_append,
            List.length_singleton] at hlen
          have := List.length_pos_iff.mpr hlit
          have := List.length_pos_iff.mpr hop'
          omega
        | group inner => exact absurd (List.cons.inj hs).1.symm hparen

/-- A lexed operand that is not written as one register letter is printed as written, apart
from spacing. -/
theorem dropSpace_render_of_not_register {o : Operand} (h : Lexed d o.tokens)
    (hs : ∀ c ∈ "aAxXyY".toList, o.spell .asWritten ≠ [c]) :
    dropSpace o.render = dropSpace (o.spell .asWritten) := by
  cases o with
  | register n =>
    obtain ⟨⟨x, y, hx⟩, -⟩ := Lexed.cons h
    obtain ⟨c, rfl, hc⟩ := single_eq_some_mem hx
    exact absurd rfl (hs c (by simpa using hc))
  | value imm sel e =>
    rw [dropSpace_render]
    cases imm <;> rfl

end Operand

theorem Layout.head_instruction_pair (lb : Option Label) (m : List Char) (o₁ o₂ : Operand) :
    ∃ pre, Layout.tidy.head (.statement lb (.instruction m [o₁, o₂])) =
      pre ++ Mnemonic.display m ++ ' ' :: o₁.render ++ ", ".toList ++ o₂.render := by
  cases lb with
  | none => exact ⟨Layout.tidy.toCodeColumn [], by simp [Layout.head]⟩
  | some l =>
    exact ⟨Layout.tidy.label l ++ Layout.tidy.toCodeColumn (Layout.tidy.label l),
      by simp [Layout.head]⟩

/-- How the operands `ops` of the instruction `m` stand in its printed head `printed`. An
operand written as a lone `a`, `x` or `y` is printed in capitals; every other operand is
printed as written, apart from spacing. Where the operands as written have one comma outside
parentheses and quoted characters, it separates two operands, neither of which has another, and
the head ends with the mnemonic, a space, the first operand, `, ` and the second. -/
def OperandsPrinted (m : List Char) (ops : List Operand) (printed : List Char) : Prop :=
  (∀ o ∈ ops, ∀ c ∈ "aAxXyY".toList, o.spell .asWritten = [c] → o.render = [c.toUpper]) ∧
  (∀ o ∈ ops, (∀ c ∈ "aAxXyY".toList, o.spell .asWritten ≠ [c]) →
    dropSpace o.render = dropSpace (o.spell .asWritten)) ∧
  (commasOutside 0 (operandText ops) = 1 → ∃ o₁ o₂ pre, ops = [o₁, o₂] ∧
    commasOutside 0 (o₁.spell .asWritten) = 0 ∧ commasOutside 0 (o₂.spell .asWritten) = 0 ∧
    printed = pre ++ Mnemonic.display m ++ ' ' :: o₁.render ++ ", ".toList ++ o₂.render)

/-- The statement of the first reading of a line, if it has one, has the property `P`, where
the statements read from any text are covered by it. -/
theorem Line.holds_of_best? {d : Dialect} {P : Statement → Prop}
    (hP : ∀ cs, Covered (fun p : Statement × List Char => P p.1) (fun y x => y.2 = x.2) []
      (Statement.read d cs).results)
    {cs : List Char} {l : Line} (hb : (read d cs).best? = some l) : Head.Holds P l.head := by
  refine Reading.best?_of_covered (P := fun l : Line => Head.Holds P l.head)
    (T := fun _ _ => True) (Line.covered_read fun heads hf => ?_) hb
  simp only [List.mem_append, List.mem_map, List.mem_singleton] at hf
  rcases hf with ⟨heads, hf, rfl⟩ | rfl
  · exact covered_readEnding (Head.covered_readForms_of hP hf)
  · refine covered_readEnding (Covered.of_forall fun p hp => ?_)
    obtain rfl : p = (none, cs) := by simpa using hp
    trivial

/-- The first reading of a line reads its statement, if it has one, the preferred way. -/
theorem Line.preferred_of_best? {d : Dialect} {cs : List Char} {l : Line}
    (hb : (read d cs).best? = some l) : Head.Preferred l.head :=
  (Head.preferred_iff_holds _).mpr (holds_of_best? (Statement.covered_read d) hb)

/-- The operands of the instruction of a line are printed as `OperandsPrinted` says. -/
theorem Line.operandsPrinted_of_best? {d : Dialect} {s : List Char} {l : Line} (hs : '\n' ∉ s)
    (hb : (read d (s ++ ['\n'])).best? = some l) {lb : Option Label} {m : List Char}
    {ops : List Operand} (hh : l.head = some (.statement lb (.instruction m ops))) :
    OperandsPrinted m ops (Layout.tidy.head (.statement lb (.instruction m ops))) := by
  obtain ⟨hlen, hlex⟩ := (derivesLine_of_best? hs hb).operands hh
  have hpref := preferred_of_best? hb
  rw [hh] at hpref
  obtain ⟨hlone, hsingle⟩ := hpref
  refine ⟨fun o ho c hc hsp => Operand.render_of_spell_eq_register (hlex o ho) (hlone o ho) hc hsp,
    fun o ho hsp => Operand.dropSpace_render_of_not_register (hlex o ho) hsp, fun h1 => ?_⟩
  -- one comma outside parentheses: two operands, since a single one has none
  match ops, hlen, hlex, hsingle, h1 with
  | [], _, _, _, h1 => simp [operandText, commasOutside] at h1
  | [o], _, hlex, hsingle, h1 =>
    rw [commasOutside_operandText_single (hlex o (by simp)), hsingle o rfl] at h1
    cases h1
  | [o₁, o₂], _, hlex, _, h1 =>
    have hc₁ := o₁.commasOutside_spell (hlex o₁ (by simp)) 0 []
    have hc₂ := o₂.commasOutside_spell (hlex o₂ (by simp)) 0 []
    rw [commasOutside_operandText_pair (hlex o₁ (by simp)) (hlex o₂ (by simp))] at h1
    simp only [List.append_nil, if_true, commasOutside] at hc₁ hc₂
    obtain ⟨pre, hpre⟩ := Layout.head_instruction_pair lb m o₁ o₂
    exact ⟨o₁, o₂, pre, rfl, by omega, by omega, hpre⟩
  | _ :: _ :: _ :: _, hlen, _, _, _ => simp at hlen

/-- Registers are printed in capitals, and other operands as written. In every instruction
of a text that the tidier accepts, an operand written as a lone `a`, `x` or `y`, in either
case, is printed in capitals, and every other operand is printed as written apart from
spacing, so a letter inside parentheses or after `#`, `<`, `>` or an operator keeps its case.
Where the operands as written have exactly one comma outside parentheses and quoted
characters, that comma separates the two operands, and the instruction is printed as its
mnemonic, a space, the first operand, `, ` and the second. -/
theorem format_prints_registers (d : Dialect) {t out : List Char}
    (h : Source.format d t = .ok out) :
    ∃ (lines : List (List Char × Line)) (tail : List Char),
      t = lines.flatMap (fun p => p.1 ++ ['\n']) ++ tail ∧ tail.all isBlank ∧
      out = lines.flatMap (fun p => Layout.tidy.line p.2 ++ ['\n']) ∧
      ∀ p ∈ lines, '\n' ∉ p.1 ∧ (Line.read d (p.1 ++ ['\n'])).best? = some p.2 ∧
        ∀ lb m ops, p.2.head = some (.statement lb (.instruction m ops)) →
          OperandsPrinted m ops (Layout.tidy.head (.statement lb (.instruction m ops))) := by
  obtain ⟨lines, tail, ht, hb, hout, hall⟩ := Source.exists_lines_of_format_eq_ok h
  refine ⟨lines, tail, ht, hb, hout, fun p hp => ?_⟩
  obtain ⟨hs, hbest⟩ := hall p hp
  exact ⟨hs, hbest, fun lb m ops hh => Line.operandsPrinted_of_best? hs hbest hh⟩

theorem format_prints_accumulator_and_pair :
    ∃ (lines : List (List Char × Line)) (tail : List Char),
      "foo: asl a\nsta (ptr),1\n".toList = lines.flatMap (fun p => p.1 ++ ['\n']) ++ tail ∧
      tail.all isBlank ∧
      "foo:    ASL A\n        STA (ptr), 1\n".toList =
        lines.flatMap (fun p => Layout.tidy.line p.2 ++ ['\n']) ∧
      ∀ p ∈ lines, '\n' ∉ p.1 ∧ (Line.read .standard (p.1 ++ ['\n'])).best? = some p.2 ∧
        ∀ lb m ops, p.2.head = some (.statement lb (.instruction m ops)) →
          OperandsPrinted m ops (Layout.tidy.head (.statement lb (.instruction m ops))) :=
  format_prints_registers .standard (Source.format_eq_ok_of_toOption (by decide +kernel))

/-- A comma inside a quoted character separates no operands: `lda ','` has one operand,
printed as written. -/
theorem format_keeps_quoted_comma :
    Source.format .standard "lda ','\n".toList = .ok "        LDA ','\n".toList :=
  Source.format_eq_ok_of_toOption (by decide +kernel)

end AsmTidy
