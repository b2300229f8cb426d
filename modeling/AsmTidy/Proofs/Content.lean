import Mathlib
import AsmTidy.Proofs.Acceptance

/-!
# What the tidier keeps

The tidier changes the white space of a line and, apart from a few changes of case and the
colons of labels, nothing else. This module states that and proves it for every line of every
text the tidier accepts.

**Spellings** (`Spelling`). A line's tree is spelled by writing its lexemes one after another,
with nothing between them. How a mnemonic, a register, the name of a control command and the
end of a label's name are written is up to the spelling. `Spelling.asWritten` writes them as
the source does; `Spelling.tidy` writes known mnemonics and registers in capitals, the names
of control commands that stand as statements in lower case, and every label with a colon.

**The source side.** Lexing skips only blanks, and the lexemes that are not part of any tree
(runs of blanks, indents, the line break) are white space too. So a derived line, with its
white space deleted, is its tree spelled as written (`DerivesLine.dropSpace_eq`).

**The printed side.** Printing puts only spaces and line breaks between the lexemes, and
trims white space. So a printed line, with its white space deleted, is its tree spelled the
tidy way (`Layout.dropSpace_line`). A line break is added only where a label moves above its
statement.

Main result: `format_keeps_content`.
-/

namespace AsmTidy

open Text

/-! ## Deleting white space -/

namespace Text

/-- The text with every white-space character deleted. -/
def dropSpace (cs : List Char) : List Char := cs.filter fun c => !isSpace c

@[simp] theorem dropSpace_nil : dropSpace [] = [] := rfl

@[simp] theorem dropSpace_append (xs ys : List Char) :
    dropSpace (xs ++ ys) = dropSpace xs ++ dropSpace ys :=
  List.filter_append ..

theorem dropSpace_cons (c : Char) (cs : List Char) :
    dropSpace (c :: cs) = if isSpace c then dropSpace cs else c :: dropSpace cs := by
  cases h : isSpace c <;> simp [dropSpace, h]

@[simp] theorem dropSpace_cons_space (cs : List Char) : dropSpace (' ' :: cs) = dropSpace cs := by
  simp [dropSpace_cons, isSpace]

@[simp] theorem dropSpace_cons_newline (cs : List Char) :
    dropSpace ('\n' :: cs) = dropSpace cs := by
  simp [dropSpace_cons, isSpace]

/-- The punctuation that the printer writes is not white space. -/
@[simp] theorem dropSpace_cons_punct {c : Char} (hc : c ∈ [',', ';', ':', '.', '#', '(', ')'])
    (cs : List Char) : dropSpace (c :: cs) = c :: dropSpace cs := by
  have : isSpace c = false := by
    simp only [List.mem_cons, List.not_mem_nil, or_false] at hc
    rcases hc with rfl | rfl | rfl | rfl | rfl | rfl | rfl <;> rfl
  simp [dropSpace_cons, this]

theorem dropSpace_eq_nil {cs : List Char} (h : ∀ c ∈ cs, isSpace c = true) : dropSpace cs = [] := by
  simpa [dropSpace] using h

@[simp] theorem dropSpace_spaces (n : Nat) : dropSpace (spaces n) = [] :=
  dropSpace_eq_nil fun c hc => by
    obtain rfl := List.eq_of_mem_replicate hc
    rfl

theorem dropSpace_dropWhile_isSpace (cs : List Char) :
    dropSpace (cs.dropWhile isSpace) = dropSpace cs := by
  induction cs with
  | nil => rfl
  | cons c cs ih => cases h : isSpace c <;> simp [h, ih, dropSpace_cons]

@[simp] theorem dropSpace_reverse (cs : List Char) :
    dropSpace cs.reverse = (dropSpace cs).reverse :=
  List.filter_reverse ..

@[simp] theorem dropSpace_trimRight (cs : List Char) : dropSpace (trimRight cs) = dropSpace cs := by
  rw [trimRight, dropSpace_reverse, dropSpace_dropWhile_isSpace, dropSpace_reverse,
    List.reverse_reverse]

@[simp] theorem dropSpace_trim (cs : List Char) : dropSpace (trim cs) = dropSpace cs := by
  rw [trim, dropSpace_trimRight, dropSpace_dropWhile_isSpace]

theorem dropSpace_intercalate (sep : List Char) :
    ∀ xs : List (List Char), dropSpace (sep.intercalate xs) =
      (dropSpace sep).intercalate (xs.map dropSpace)
  | [] => rfl
  | [x] => by simp
  | x :: y :: xs => by
    rw [List.intercalate_cons_cons, dropSpace_append, dropSpace_append,
      dropSpace_intercalate sep (y :: xs), List.map_cons, List.map_cons, List.map_cons,
      List.intercalate_cons_cons]

end Text

/-! ## Spelling a line -/

/-- How the lexemes that the tidier may change are written. -/
structure Spelling where
  /-- A mnemonic. -/
  mnemonic : List Char → List Char
  /-- A register operand. -/
  register : List Char → List Char
  /-- The name of a control command that stands as a statement. -/
  commandName : List Char → List Char
  /-- What follows a label's name, given whether the source wrote a colon there. -/
  colon : Bool → List Char

namespace Spelling

/-- The lexemes as the source writes them. -/
def asWritten : Spelling where
  mnemonic := id
  register := id
  commandName := id
  colon c := if c then [':'] else []

/-- The lexemes as the tidier writes them: known mnemonics and registers in capitals, command
names in lower case, and a colon after every label's name. -/
def tidy : Spelling where
  mnemonic m := if Mnemonic.isKnown m then m.map Char.toUpper else m
  register r := r.map Char.toUpper
  commandName n := n.map Char.toLower
  colon _ := [':']

end Spelling

variable (σ : Spelling)

/-- An expression's lexemes, one after another. -/
def Expr.spell : Expr → List Char
  | atom lit => lit
  | chain lit op right => lit ++ op ++ right.spell
  | group inner => '(' :: inner.spell ++ [')']

/-- An operand's lexemes, one after another. -/
def Operand.spell : Operand → List Char
  | register name => σ.register name
  | value immediate selector e => (if immediate then ['#'] else []) ++ selector.getD [] ++ e.spell

/-- A statement's lexemes, one after another. -/
def Statement.spell : Statement → List Char
  | instruction m ops => σ.mnemonic m ++ [','].intercalate (ops.map (Operand.spell σ))
  | macroStart name params => ".macro".toList ++ name ++ [','].intercalate params
  | macroEnd => ".endmacro".toList
  | command c => '.' :: σ.commandName c.name ++ c.args.getD []

-- The keywords are string literals, for which Lean cannot derive the equations of
-- `Statement.spell` in time; they are stated here and hold by definition.
@[simp] theorem Statement.spell_instruction (m : List Char) (ops : List Operand) :
    (Statement.instruction m ops).spell σ =
      σ.mnemonic m ++ [','].intercalate (ops.map (Operand.spell σ)) := rfl

@[simp] theorem Statement.spell_macroStart (name : List Char) (params : List (List Char)) :
    (Statement.macroStart name params).spell σ =
      ".macro".toList ++ name ++ [','].intercalate params := rfl

@[simp] theorem Statement.spell_macroEnd : Statement.macroEnd.spell σ = ".endmacro".toList := rfl

@[simp] theorem Statement.spell_command (c : Command) :
    (Statement.command c).spell σ = '.' :: σ.commandName c.name ++ c.args.getD [] := rfl

/-- A label definition's lexemes, one after another. -/
def Label.spell : Label → List Char
  | named name colon => name ++ σ.colon colon
  | unnamed => [':']

/-- A head's lexemes, one after another. The command of a numeric variable keeps the name as
written. -/
def Head.spell : Head → List Char
  | statement l s => (l.map (Label.spell σ)).getD [] ++ s.spell σ
  | label l => l.spell σ
  | numeric name c => name ++ '.' :: c.name ++ c.args.getD []
  | constant name assign value => name ++ assign ++ value

/-- A comment's lexemes, one after another. -/
def Comment.spell (c : Comment) : List Char := ';' :: c.text.getD []

/-- A line's lexemes, one after another. -/
def Line.spell (l : Line) : List Char :=
  (l.head.map (Head.spell σ)).getD [] ++ (l.comment.map Comment.spell).getD []

/-! ## The source side -/

namespace Terminal

/-- The classes whose lexemes are white space and belong to no tree: runs of blanks, indents
and the line break. -/
def isLayout : Terminal → Bool
  | blanks | indent | newline => true
  | _ => false

end Terminal

/-- The lexemes of a token list that belong to a tree, one after another. -/
def spellTokens (toks : List Token) : List Char :=
  (toks.filter fun p => !p.1.isLayout).flatMap Prod.snd

@[simp] theorem spellTokens_nil : spellTokens [] = [] := rfl

@[simp] theorem spellTokens_append (ts us : List Token) :
    spellTokens (ts ++ us) = spellTokens ts ++ spellTokens us := by
  simp [spellTokens]

@[simp] theorem spellTokens_cons (t : Terminal) (w : List Char) (toks : List Token) :
    spellTokens ((t, w) :: toks) = (if t.isLayout then [] else w) ++ spellTokens toks := by
  cases h : t.isLayout <;> simp [spellTokens, h]

theorem OfClass.spellTokens_eq_nil {t : Terminal} {ws : List Token} (h : OfClass t ws)
    (ht : t.isLayout = true) : spellTokens ws = [] := by
  have hnil : ws.filter (fun p => !p.1.isLayout) = [] :=
    List.filter_eq_nil_iff.mpr fun p hp => by simp [h p hp, ht]
  simp [spellTokens, hnil]

theorem Expr.spellTokens_tokens (e : Expr) : spellTokens e.tokens = e.spell := by
  induction e with
  | atom => simp [tokens, spell, Terminal.isLayout]
  | chain _ _ _ ih => simp [tokens, spell, Terminal.isLayout, ih]
  | group _ ih => simp [tokens, spell, Terminal.isLayout, ih]

theorem Operand.spellTokens_tokens (o : Operand) : spellTokens o.tokens = o.spell .asWritten := by
  cases o with
  | register => simp [tokens, spell, Spelling.asWritten, Terminal.isLayout]
  | value imm sel e =>
    cases imm <;> cases sel <;> simp [tokens, spell, Terminal.isLayout, e.spellTokens_tokens]

theorem Command.Yields.spellTokens_eq {c : Command} {toks : List Token} (h : c.Yields toks) :
    spellTokens toks = '.' :: c.name ++ c.args.getD [] := by
  cases h with
  | bare => simp [Terminal.isLayout]
  | withArgs _ _ _ _ hws => simp [Terminal.isLayout, hws.spellTokens_eq_nil rfl]

theorem intercalate_comma_cons (p : List Char) (ps : List (List Char)) :
    [','].intercalate (p :: ps) = p ++ ps.flatMap (',' :: ·) := by
  induction ps generalizing p with
  | nil => simp
  | cons q ps ih => rw [List.intercalate_cons_cons, ih]; simp

theorem Statement.spellTokens_paramTokens (ps : List (List Char)) :
    spellTokens (paramTokens ps) = [','].intercalate ps := by
  cases ps with
  | nil => rfl
  | cons p ps =>
    rw [intercalate_comma_cons]
    simp only [paramTokens, spellTokens_cons, Terminal.isLayout, Bool.false_eq_true, if_false]
    congr 1
    induction ps with
    | nil => rfl
    | cons q ps ih => simp [Terminal.isLayout, ih]

theorem Statement.Yields.spellTokens_eq {s : Statement} {toks : List Token} (h : s.Yields toks) :
    spellTokens toks = s.spell .asWritten := by
  cases h with
  | bare => simp [Terminal.isLayout, Spelling.asWritten]
  | unary _ o _ _ hws =>
    simp [Terminal.isLayout, Spelling.asWritten, hws.spellTokens_eq_nil rfl, o.spellTokens_tokens]
  | binary _ o₁ o₂ _ _ hws =>
    simp [Terminal.isLayout, Spelling.asWritten, hws.spellTokens_eq_nil rfl,
      o₁.spellTokens_tokens, o₂.spellTokens_tokens]
  | macroStart _ params => simp [Terminal.isLayout, spellTokens_paramTokens]
  | macroEnd => simp [Terminal.isLayout]
  | command c _ hc => simp [hc.spellTokens_eq, Spelling.asWritten]

theorem Label.Yields.spellTokens_eq {d : Dialect} {l : Label} {toks : List Token}
    (h : l.Yields d toks) : spellTokens toks = l.spell .asWritten := by
  cases h <;> simp [Terminal.isLayout, spell, Spelling.asWritten]

theorem Comment.Yields.spellTokens_eq {c : Comment} {toks : List Token} (h : c.Yields toks) :
    spellTokens toks = c.spell := by
  cases h with
  | flush text => cases text <;> simp [Terminal.isLayout, spell]
  | indented _ text _ hind =>
    cases text <;> simp [Terminal.isLayout, spell, hind.spellTokens_eq_nil rfl]

theorem Head.Yields.spellTokens_eq {d : Dialect} {h : Head} {toks : List Token}
    (hy : h.Yields d toks) : spellTokens toks = h.spell .asWritten := by
  cases hy with
  | labelled _ _ _ _ hl hs => simp [hl.spellTokens_eq, hs.spellTokens_eq, spell]
  | statement _ _ hs => simp [hs.spellTokens_eq, spell]
  | label _ _ hl => simp [hl.spellTokens_eq, spell]
  | numeric _ _ _ hc => simp [Terminal.isLayout, hc.spellTokens_eq, spell]
  | constant => simp [Terminal.isLayout, spell]

theorem Line.Yields.spellTokens_eq {d : Dialect} {l : Line} {toks : List Token}
    (hy : l.Yields d toks) : spellTokens toks = l.spell .asWritten := by
  cases hy with
  | mk oh c ht ct hh hc =>
    have hh' : spellTokens ht = (oh.map (Head.spell .asWritten)).getD [] := by
      cases oh with
      | none =>
        obtain rfl : ht = [] := hh
        rfl
      | some h => exact Head.Yields.spellTokens_eq hh
    have hc' : spellTokens ct = (c.map Comment.spell).getD [] := by
      cases c with
      | none =>
        obtain rfl : ct = [] := hc
        rfl
      | some c => exact Comment.Yields.spellTokens_eq hc
    simp [spell, hh', hc', Terminal.isLayout]

namespace Terminal

variable {d : Dialect}

/-- A lexeme of a layout class is white space. -/
theorem Matches.dropSpace_layout {t : Terminal} (ht : t.isLayout = true) {cs w r : List Char}
    (h : t.Matches d cs w r) : dropSpace w = [] := by
  cases t with
  | blanks =>
    obtain ⟨-, rfl, -⟩ := run_eq_some_iff.mp ((matches_run (Or.inl ⟨rfl, rfl⟩)).mp h)
    exact dropSpace_eq_nil fun c hc =>
      isSpace_of_isBlank (List.all_eq_true.mp List.all_takeWhile c hc)
  | indent =>
    obtain ⟨-, rfl, -⟩ := run_eq_some_iff.mp ((matches_run (Or.inr ⟨rfl, rfl⟩)).mp h)
    refine dropSpace_eq_nil fun c hc => ?_
    have hsp : (c == ' ') = true := List.all_eq_true.mp List.all_takeWhile c hc
    rw [beq_iff_eq.mp hsp]
    rfl
  | newline =>
    rw [h.eq_spelling rfl]
    rfl
  | _ => simp [isLayout] at ht

/-- A match skips nothing but blanks in front of its lexeme. -/
theorem Matches.exists_blanks {t : Terminal} {cs w r : List Char} (h : t.Matches d cs w r) :
    ∃ b, cs = b ++ w ++ r ∧ dropSpace b = [] := by
  obtain ⟨b, hb, he⟩ := h.eq_blanks_append
  exact ⟨b, he, dropSpace_eq_nil fun c hc => isSpace_of_isBlank (List.all_eq_true.mp hb c hc)⟩

end Terminal

/-- What lexing takes from a text is, with white space deleted, the lexemes that belong to a
tree. -/
theorem Lexes.dropSpace_eq {d : Dialect} {cs rest : List Char} {toks : List Token}
    (h : Lexes d cs toks rest) :
    ∃ u, cs = u ++ rest ∧ dropSpace u = dropSpace (spellTokens toks) := by
  induction h with
  | nil => exact ⟨[], rfl, rfl⟩
  | @cons cs w r toks rest t hm _ ih =>
    obtain ⟨b, rfl, hb⟩ := hm.exists_blanks
    obtain ⟨u, rfl, hu⟩ := ih
    refine ⟨b ++ w ++ u, by simp, ?_⟩
    cases ht : t.isLayout
    · simp [hb, hu, ht]
    · simp [hb, hu, ht, hm.dropSpace_layout ht]

/-- A derived line, with its white space deleted, is its tree spelled as written. -/
theorem DerivesLine.dropSpace_eq {d : Dialect} {s : List Char} {l : Line}
    (h : DerivesLine d s l) : dropSpace s = dropSpace (l.spell .asWritten) := by
  obtain ⟨toks, hy, hl⟩ := h
  obtain ⟨u, hu, hd⟩ := hl.dropSpace_eq
  rw [List.append_nil] at hu
  subst hu
  rw [hy.spellTokens_eq] at hd
  simpa using hd

/-! ## The printed side -/

namespace Expr

theorem dropSpace_showOperator (op : List Char) : dropSpace (showOperator op) = dropSpace op := by
  unfold showOperator
  split
  · next h => simp [h]
  · simp

theorem dropSpace_render (e : Expr) : dropSpace e.render = dropSpace e.spell := by
  induction e with
  | atom => rfl
  | chain _ _ _ ih => simp [render, spell, dropSpace_showOperator, ih]
  | group _ ih => simp [render, spell, ih]

end Expr

theorem Operand.dropSpace_render (o : Operand) :
    dropSpace o.render = dropSpace (o.spell .tidy) := by
  cases o with
  | register => rfl
  | value imm sel e => cases imm <;> simp [render, spell, e.dropSpace_render]

namespace Layout

variable (L : Layout)

-- As for `Statement.spell`, the equations of `Layout.statement` are stated by hand.
@[simp] theorem statement_instruction (before m : List Char) (ops : List Operand) :
    L.statement before (.instruction m ops) =
      L.toCodeColumn before ++ Mnemonic.display m ++
        (if ops = [] then [] else ' ' :: ", ".toList.intercalate (ops.map Operand.render)) := rfl

@[simp] theorem statement_macroStart (before name : List Char) (params : List (List Char)) :
    L.statement before (.macroStart name params) =
      padRight L.macroKeywordWidth ".macro ".toList ++ name ++ ' ' ::
        ", ".toList.intercalate params :=
  rfl

@[simp] theorem statement_macroEnd (before : List Char) :
    L.statement before .macroEnd = ".endmacro".toList := rfl

@[simp] theorem statement_command (before : List Char) (c : Command) :
    L.statement before (.command c) =
      (if c.name ∈ L.unindentedDirectives then [] else L.toCodeColumn before) ++
        '.' :: c.name.map Char.toLower ++ ' ' :: c.args.getD [] := rfl

@[simp] theorem dropSpace_toCodeColumn (before : List Char) :
    dropSpace (L.toCodeColumn before) = [] := by
  unfold toCodeColumn
  split <;> simp

@[simp] theorem dropSpace_padRight (n : Nat) (cs : List Char) :
    dropSpace (padRight n cs) = dropSpace cs := by
  simp [padRight]

/-- Operands printed with `, ` between them are, without white space, their tidy spellings
separated by commas. -/
theorem dropSpace_operands (ops : List Operand) :
    dropSpace ([',', ' '].intercalate (ops.map Operand.render)) =
      dropSpace ([','].intercalate (ops.map (Operand.spell .tidy))) := by
  rw [dropSpace_intercalate, dropSpace_intercalate, List.map_map, List.map_map]
  congr 1
  exact List.map_congr_left fun o _ => o.dropSpace_render

theorem dropSpace_statement (before : List Char) (s : Statement) :
    dropSpace (L.statement before s) = dropSpace (s.spell .tidy) := by
  cases s with
  | instruction m ops =>
    by_cases hops : ops = []
    · simp [hops, Mnemonic.display, Spelling.tidy]
    · simp [hops, Mnemonic.display, Spelling.tidy, dropSpace_operands]
  | macroStart name params => simp [dropSpace_intercalate, dropSpace_cons, isSpace]
  | macroEnd => simp
  | command c =>
    simp only [statement_command]
    split <;> simp [Spelling.tidy]

theorem dropSpace_label (l : Label) : dropSpace (L.label l) = dropSpace (l.spell .tidy) := by
  cases l with
  | named name _ =>
    simp only [label]
    split <;> simp [Label.spell, Spelling.tidy]
  | unnamed => simp [label, Label.spell]

theorem dropSpace_head (h : Head) : dropSpace (L.head h) = dropSpace (h.spell .tidy) := by
  cases h with
  | statement l s =>
    cases l with
    | none => simp [head, Head.spell, dropSpace_statement]
    | some l => simp [head, Head.spell, dropSpace_statement, dropSpace_label]
  | label l => simp [head, Head.spell, dropSpace_label]
  | numeric name c =>
    cases c with
    | mk cname args => cases args <;> simp [head, Head.spell]
  | constant => simp [head, Head.spell]

theorem dropSpace_comment (code : List Char) (c : Comment) :
    dropSpace (L.comment code c) = dropSpace code ++ dropSpace c.spell := by
  unfold comment
  by_cases hcode : code = []
  · cases c.indented <;> simp [hcode, Comment.spell]
  · by_cases htext : trim (c.text.getD []) = []
    · have : dropSpace (c.text.getD []) = [] := by rw [← dropSpace_trim, htext, dropSpace_nil]
      simp [hcode, htext, Comment.spell, this]
    · simp [hcode, htext, Comment.spell]

/-- A printed line, with its white space deleted, is its tree spelled the tidy way. -/
theorem dropSpace_line (l : Line) : dropSpace (L.line l) = dropSpace (l.spell .tidy) := by
  obtain ⟨h, c⟩ := l
  cases h <;> cases c <;> simp [line, Line.spell, dropSpace_head, dropSpace_comment]

end Layout

/-! ## Line breaks in a printed line -/

theorem Char.toUpper_eq_newline_iff {c : Char} : c.toUpper = '\n' ↔ c = '\n' := by
  refine ⟨fun h => ?_, fun h => by rw [h]; rfl⟩
  unfold Char.toUpper at h
  split at h
  · next hr =>
    -- a lower-case letter goes to an upper-case one, which is no line break
    have hv := congrArg (fun x => x.val.toNat) h
    simp only [UInt32.toNat_add] at hv
    have h₁ := UInt32.le_iff_toNat_le.mp hr.1
    have h₂ := UInt32.le_iff_toNat_le.mp hr.2
    have ha : 'a'.val.toNat = 97 := rfl
    have hz : 'z'.val.toNat = 122 := rfl
    have hA : ('A'.val - 'a'.val).toNat = 2 ^ 32 - 32 := rfl
    have hn : '\n'.val.toNat = 10 := rfl
    omega
  · exact h

theorem Char.toLower_eq_newline_iff {c : Char} : c.toLower = '\n' ↔ c = '\n' := by
  refine ⟨fun h => ?_, fun h => by rw [h]; rfl⟩
  unfold Char.toLower at h
  split at h
  · next hr =>
    have hv := congrArg (fun x => x.val.toNat) h
    simp only [UInt32.toNat_add] at hv
    have h₁ := UInt32.le_iff_toNat_le.mp hr.1
    have h₂ := UInt32.le_iff_toNat_le.mp hr.2
    have hA : 'A'.val.toNat = 65 := rfl
    have hZ : 'Z'.val.toNat = 90 := rfl
    have ha : ('a'.val - 'A'.val).toNat = 32 := rfl
    have hn : '\n'.val.toNat = 10 := rfl
    omega
  · exact h

namespace Text

/-- The number of line breaks in a text. -/
def breaks (cs : List Char) : Nat := cs.count '\n'

@[simp] theorem breaks_nil : breaks [] = 0 := rfl

@[simp] theorem breaks_append (xs ys : List Char) : breaks (xs ++ ys) = breaks xs + breaks ys :=
  List.count_append ..

@[simp] theorem breaks_cons (c : Char) (cs : List Char) :
    breaks (c :: cs) = breaks cs + if c = '\n' then 1 else 0 := by
  simp [breaks, List.count_cons]

theorem breaks_eq_zero {cs : List Char} : breaks cs = 0 ↔ '\n' ∉ cs :=
  List.count_eq_zero

theorem breaks_map {f : Char → Char} (hf : ∀ c, f c = '\n' ↔ c = '\n') (cs : List Char) :
    breaks (cs.map f) = breaks cs := by
  induction cs with
  | nil => rfl
  | cons c cs ih => simp [hf, ih]

@[simp] theorem breaks_map_toUpper (cs : List Char) : breaks (cs.map Char.toUpper) = breaks cs :=
  breaks_map (fun _ => Char.toUpper_eq_newline_iff) cs

@[simp] theorem breaks_map_toLower (cs : List Char) : breaks (cs.map Char.toLower) = breaks cs :=
  breaks_map (fun _ => Char.toLower_eq_newline_iff) cs

@[simp] theorem breaks_spaces (n : Nat) : breaks (spaces n) = 0 := by
  simp [breaks, spaces, List.count_replicate]

theorem breaks_trimRight_le (cs : List Char) : breaks (trimRight cs) ≤ breaks cs := by
  have hp : trimRight cs <+: cs := by
    rw [trimRight, ← List.reverse_suffix, List.reverse_reverse]
    exact List.dropWhile_suffix _
  exact hp.sublist.count_le _

theorem breaks_trim_le (cs : List Char) : breaks (trim cs) ≤ breaks cs :=
  Nat.le_trans (breaks_trimRight_le _) ((List.dropWhile_suffix _).sublist.count_le _)

theorem breaks_intercalate (sep : List Char) (hsep : breaks sep = 0) :
    ∀ xs : List (List Char), breaks (sep.intercalate xs) = (xs.map breaks).sum
  | [] => rfl
  | [x] => by simp
  | x :: y :: xs => by
    rw [List.intercalate_cons_cons, breaks_append, breaks_append, hsep,
      breaks_intercalate sep hsep (y :: xs), Nat.add_zero]
    simp only [List.map_cons, List.sum_cons]

end Text

theorem Expr.breaks_render (e : Expr) : breaks e.render = breaks e.spell := by
  induction e with
  | atom => rfl
  | chain _ op _ ih =>
    unfold render spell showOperator
    split <;> simp_all
  | group _ ih => simp [render, spell, ih]

theorem Operand.breaks_render (o : Operand) : breaks o.render = breaks (o.spell .asWritten) := by
  cases o with
  | register => simp [render, spell, Spelling.asWritten]
  | value imm sel e => cases imm <;> simp [render, spell, e.breaks_render]

/-- Whether a head is a statement with a label, which the printer may put on a line of its
own. -/
@[simp] def Head.isLabelledStatement : Head → Bool
  | statement (some _) _ => true
  | _ => false

namespace Layout

variable (L : Layout)

theorem breaks_toCodeColumn (before : List Char) :
    breaks (L.toCodeColumn before) = if before.length < L.codeColumn then 0 else 1 := by
  unfold toCodeColumn
  split <;> simp

/-- A printed statement has the line breaks of its lexemes, and one more at most: where the
text before it reaches its column. -/
theorem breaks_statement_le (before : List Char) (s : Statement) :
    breaks (L.statement before s) ≤
      breaks (L.toCodeColumn before) + breaks (s.spell .asWritten) := by
  cases s with
  | instruction m ops =>
    have hm : breaks (Mnemonic.display m) = breaks m := by
      unfold Mnemonic.display
      split <;> simp
    have hops : breaks ([',', ' '].intercalate (ops.map Operand.render)) =
        breaks ([','].intercalate (ops.map (Operand.spell .asWritten))) := by
      rw [breaks_intercalate _ rfl, breaks_intercalate _ rfl, List.map_map, List.map_map]
      congr 1
      exact List.map_congr_left fun o _ => o.breaks_render
    by_cases h : ops = [] <;> simp [h, hm, hops, Spelling.asWritten]
  | macroStart name params => simp [padRight, breaks_intercalate]
  | macroEnd => simp
  | command c =>
    simp only [statement_command]
    split <;> simp [Spelling.asWritten]

theorem breaks_label (l : Label) : breaks (L.label l) = breaks (l.spell .asWritten) := by
  cases l with
  | named name colon =>
    simp only [label]
    split <;> cases colon <;> simp [Label.spell, Spelling.asWritten]
  | unnamed => simp [label, Label.spell]

/-- A printed head has the line breaks of its lexemes, and one more at most, only after a
label. -/
theorem breaks_head_le (hcol : 0 < L.codeColumn) (h : Head) :
    breaks (L.head h) ≤ (if h.isLabelledStatement then 1 else 0) + breaks (h.spell .asWritten) := by
  cases h with
  | statement l s =>
    have hs := L.breaks_statement_le
    cases l with
    | none =>
      have := hs [] s
      simp only [breaks_toCodeColumn, List.length_nil, hcol, if_true] at this
      simpa [head, Head.spell] using this
    | some l =>
      have := hs (L.label l) s
      have hc : breaks (L.toCodeColumn (L.label l)) ≤ 1 := by
        rw [breaks_toCodeColumn]
        split <;> omega
      simp only [head, Head.spell, Option.map_some, Option.getD_some, breaks_append,
        Head.isLabelledStatement, if_true, breaks_label] at this ⊢
      omega
  | label l => simp [head, Head.spell, breaks_label]
  | numeric name c =>
    cases c with
    | mk cname args =>
      cases args with
      | none => simp [head, Head.spell, padRight]
      | some a =>
        have := breaks_trim_le a
        simp [head, Head.spell, padRight]
        omega
  | constant name assign value =>
    have := breaks_trim_le value
    simp [head, Head.spell]
    omega

theorem breaks_comment_le (code : List Char) (c : Comment) :
    breaks (L.comment code c) ≤ breaks code + breaks c.spell := by
  have := breaks_trim_le (c.text.getD [])
  unfold comment
  by_cases hcode : code = []
  · cases c.indented <;> simp [hcode, Comment.spell] <;> omega
  · by_cases htext : trim (c.text.getD []) = []
    · simp [hcode, htext, Comment.spell]
    · simp [hcode, htext, Comment.spell]
      omega

/-- A printed line has the line breaks of its lexemes, and one more at most, only where a
label stands before a statement. -/
theorem breaks_line_le (hcol : 0 < L.codeColumn) (l : Line) :
    breaks (L.line l) ≤
      (if l.head.any Head.isLabelledStatement then 1 else 0) + breaks (l.spell .asWritten) := by
  obtain ⟨h, c⟩ := l
  refine Nat.le_trans (breaks_trimRight_le _) ?_
  cases h with
  | none =>
    cases c with
    | none => simp [Line.spell]
    | some c => simpa [Line.spell] using L.breaks_comment_le [] c
  | some h =>
    have hh := L.breaks_head_le hcol h
    cases c with
    | none =>
      simpa [Line.spell] using hh
    | some c =>
      have hc := L.breaks_comment_le (L.head h) c
      simp only [Line.spell, Option.map_some, Option.getD_some, Option.any_some, breaks_append]
      omega

end Layout

/-- A lexed sequence without line breaks spells no line break. -/
theorem Lexes.newline_not_mem_spellTokens {d : Dialect} {cs rest : List Char} {toks : List Token}
    (h : Lexes d cs toks rest) (ht : NoBreak toks) : '\n' ∉ spellTokens toks := by
  induction h with
  | nil => simp
  | @cons cs w r toks rest t hm _ ih =>
    obtain ⟨htn, ht⟩ := noBreak_cons.mp ht
    have hw : '\n' ∉ w := by
      obtain ⟨x, hx⟩ := hm.exists_lex
      exact (Terminal.inLine_lex d htn).newlineFree _ _ _ hx
    rw [spellTokens_cons, List.mem_append, not_or]
    refine ⟨?_, ih ht⟩
    split
    · simp
    · exact hw

/-- The lexemes of a derived line hold no line break. -/
theorem DerivesLine.breaks_spell {d : Dialect} {s : List Char} {l : Line} (h : DerivesLine d s l) :
    breaks (l.spell .asWritten) = 0 := by
  obtain ⟨toks, hy, hl⟩ := h
  obtain ⟨body, hb, rfl⟩ := hy.eq_append_newline
  obtain ⟨m, hl₁, -⟩ := Lexes.append_iff.mp hl
  have hn := hl₁.newline_not_mem_spellTokens hb
  rw [← hy.spellTokens_eq, spellTokens_append, breaks_eq_zero]
  simpa [Terminal.isLayout] using hn

/-- A derived line is printed on one line, or on two where a label moves above its
statement. -/
theorem DerivesLine.breaks_tidy_line {d : Dialect} {s : List Char} {l : Line}
    (h : DerivesLine d s l) :
    breaks (Layout.tidy.line l) ≤ if l.head.any Head.isLabelledStatement then 1 else 0 := by
  have hle := Layout.tidy.breaks_line_le (by decide) l
  rwa [h.breaks_spell, Nat.add_zero] at hle

/-! ## Every line of an accepted text -/

/-- The lines of a text, each with its derivation, and the blanks after the last line break. -/
theorem Lines.exists_derived {d : Dialect} {t : List Char} {ls : List Line} (h : Lines d t ls) :
    ∃ (lines : List (List Char × Line)) (tail : List Char),
      t = lines.flatMap (fun p => p.1 ++ ['\n']) ++ tail ∧ tail.all isBlank ∧
      lines.map Prod.snd = ls ∧ ∀ p ∈ lines, '\n' ∉ p.1 ∧ DerivesLine d p.1 p.2 := by
  induction h with
  | @last t hb => exact ⟨[], t, rfl, hb, rfl, by simp⟩
  | @cons s X l ls hs hl _ ih =>
    obtain ⟨lines, tail, rfl, hb, rfl, hall⟩ := ih
    refine ⟨(s, l) :: lines, tail, by simp, hb, rfl, ?_⟩
    simp only [List.mem_cons, forall_eq_or_imp]
    exact ⟨⟨hs, hl⟩, hall⟩

/-- The tidier keeps every line's content: each line of an accepted text is printed as one
chunk, in order, and with white space deleted the chunk is the line with its known mnemonics
and registers in capitals, its command names in lower case and a colon after each label. The
chunk holds a line break of its own only where a label moves above its statement. -/
theorem format_keeps_content (d : Dialect) {t out : List Char}
    (h : Source.format d t = .ok out) :
    ∃ (lines : List (List Char × Line)) (tail : List Char),
      t = lines.flatMap (fun p => p.1 ++ ['\n']) ++ tail ∧ tail.all isBlank ∧
      out = lines.flatMap (fun p => Layout.tidy.line p.2 ++ ['\n']) ∧
      ∀ p ∈ lines, '\n' ∉ p.1 ∧
        dropSpace p.1 = dropSpace (p.2.spell .asWritten) ∧
        dropSpace (Layout.tidy.line p.2) = dropSpace (p.2.spell .tidy) ∧
        breaks (Layout.tidy.line p.2) ≤ if p.2.head.any Head.isLabelledStatement then 1 else 0 := by
  obtain ⟨ls, hls, rfl⟩ := Source.lines_of_formatLines_ok h
  obtain ⟨lines, tail, rfl, hb, rfl, hall⟩ := hls.exists_derived
  refine ⟨lines, tail, rfl, hb, by simp [Source.render, List.flatMap_map], fun p hp => ?_⟩
  obtain ⟨hs, hd⟩ := hall p hp
  exact ⟨hs, hd.dropSpace_eq, Layout.dropSpace_line _ p.2, hd.breaks_tidy_line⟩

theorem format_keeps_content_labelled_instruction :
    ∃ (lines : List (List Char × Line)) (tail : List Char),
      "x: lda #1\n".toList = lines.flatMap (fun p => p.1 ++ ['\n']) ++ tail ∧ tail.all isBlank ∧
      "x:      LDA #1\n".toList = lines.flatMap (fun p => Layout.tidy.line p.2 ++ ['\n']) ∧
      ∀ p ∈ lines, '\n' ∉ p.1 ∧
        dropSpace p.1 = dropSpace (p.2.spell .asWritten) ∧
        dropSpace (Layout.tidy.line p.2) = dropSpace (p.2.spell .tidy) ∧
        breaks (Layout.tidy.line p.2) ≤ if p.2.head.any Head.isLabelledStatement then 1 else 0 :=
  format_keeps_content .standard (Source.format_eq_ok_of_toOption (by decide +kernel))

end AsmTidy
