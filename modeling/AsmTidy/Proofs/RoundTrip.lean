import Mathlib
import AsmTidy.Proofs.LastSplit
import AsmTidy.Proofs.CommentLayout

/-!
# Printed instructions read back

The tidier prints an instruction as its mnemonic, a space, and its operands, each printed
with a space on each side of every operator but the comma and separated by `, `
(`Statement.printInstruction`). This module shows that such a print, read again as a line
of source in the default dialect, is the same instruction, up to the case of its mnemonic and
of its registers (`instruction_reads_back`). It holds for every instruction that is the first
reading of a line in the default dialect, and for every one in colonless source whose
mnemonic is an identifier; the mnemonic may be printed in any letter case, as the tidier
prints known instructions in capitals (`Mnemonic.map_toLower_display`).

**Where a reading of the print can stop.** A reading of a printed operand stops at its end,
inside it (after the first character of a literal, or before an operator of its top chain),
or past it, through an operator after it (`Operand.cases_of_lexes_render`). Past a printed
operand come `, ` or the line break, so a reading that runs on past the first operand is
read into the second, and it leaves a comma after it only at a comma of the second's top
chain. The first reading of the original line splits at the last comma
(`Statement.SplitsLast`), so no such comma follows a first operand that can run on.

**Which reading comes first.** No reading stops before a semicolon, so no comment is read.
Every pair of operands splits the print at or after the comma between the printed operands,
and the pairs are sorted latest split first; among the pairs that split there and end the
line, the one with both registers read as registers comes first. A single operand ends the
line only where the instruction has one operand.

**The default dialect.** Colonless source does not read every print back: there a word in
front of a mnemonic is a label, so the print `lda tax` of the instruction of `x lda tax` is
the label `lda` and the instruction `tax` (`colonless_print_reads_as_label`).
-/

namespace AsmTidy

open Text Lexeme

/-! ## Lists -/

section Lists

variable {β : Type} {P Q : β → Prop} {T : β → β → Prop}

/-- Keeping the elements with a property keeps a list covered, where an element is related only
to elements that have the property when it has it. -/
theorem Covered.filter {q : β → Bool} {pre L : List β} (h : Covered Q T pre L)
    (hq : ∀ y ∈ pre ++ L, ∀ x ∈ L, T y x → q x = true → q y = true) :
    Covered Q T (pre.filter q) (L.filter q) := by
  intro F₁ x F₂ hF hx
  obtain ⟨L₁, L₂, rfl, hL₁, hL₂⟩ := List.filter_eq_append_iff.mp hF
  obtain ⟨M₁, M₂, rfl, hM₁, hqx, -⟩ := List.filter_eq_cons_iff.mp hL₂
  obtain ⟨y, hy, hQy, hT⟩ := h (L₁ ++ M₁) x M₂ (by simp) hx
  have hqy := hq y (by simp only [List.mem_append] at hy ⊢; tauto) x (by simp) hT hqx
  refine ⟨y, ?_, hQy, hT⟩
  rw [← hL₁]
  simp only [List.mem_append, List.mem_filter] at hy ⊢
  rcases hy with hy | hy | hy
  · exact Or.inl ⟨hy, hqy⟩
  · exact Or.inr ⟨hy, hqy⟩
  · exact absurd hqy (by simpa using hM₁ y hy)

/-- A covered list stays covered for a property that fails only where the first fails, and a
relation that each covering element bears where the property fails. -/
theorem Covered.of_covered {T' : β → β → Prop} {L : List β}
    (h : Covered Q T [] L) (hQ : ∀ x ∈ L, ¬ P x → ¬ Q x)
    (hT : ∀ y ∈ L, ∀ x ∈ L, Q y → T y x → ¬ P x → P y ∧ T' y x) : Covered P T' [] L := by
  intro L₁ x L₂ hL hx
  have hxL : x ∈ L := by simp [hL]
  obtain ⟨y, hy, hQy, hTy⟩ := h L₁ x L₂ hL (hQ x hxL hx)
  have hyL : y ∈ L := by
    rw [hL]
    exact List.mem_append_left _ (by simpa using hy)
  obtain ⟨hPy, hT'y⟩ := hT y hyL x hxL hQy hTy hx
  exact ⟨y, hy, hPy, hT'y⟩

/-- The first element of a covered list to have continuations leads them: the elements
before it have none, and a covered element with continuations satisfies `P`. -/
theorem Covered.head?_flatMap {γ δ : Type} {E : β → Prop} {g : β → List γ} {f : γ → δ} {c : δ}
    {L : List β} (h : Covered P (fun y _ => E y) [] L) (hE : ∀ x ∈ L, ¬ E x → g x = [])
    (hP : ∀ x ∈ L, P x → E x → (g x).head?.map f = some c) (hex : ∃ x ∈ L, E x) :
    (L.flatMap g).head?.map f = some c := by
  induction L with
  | nil =>
    obtain ⟨x, hx, -⟩ := hex
    cases hx
  | cons a L ih =>
    obtain ⟨ha, hL⟩ := Covered.cons_iff.mp h
    have hPa : P a := by
      by_contra hn
      obtain ⟨y, hy, -⟩ := ha hn
      cases hy
    rw [List.flatMap_cons]
    by_cases hEa : E a
    · have hga := hP a List.mem_cons_self hPa hEa
      obtain ⟨z, zs, hz⟩ : ∃ z zs, g a = z :: zs := by
        cases hg : g a with
        | nil => rw [hg] at hga; cases hga
        | cons z zs => exact ⟨z, zs, rfl⟩
      rw [hz] at hga ⊢
      simpa using hga
    · rw [hE a List.mem_cons_self hEa, List.nil_append]
      refine ih ?_ (fun x hx => hE x (List.mem_cons_of_mem a hx))
        (fun x hx => hP x (List.mem_cons_of_mem a hx)) ?_
      · -- `a` has no continuations, so it covers nothing
        intro L₁ x L₂ hL' hx
        obtain ⟨y, hy, hPy, hEy⟩ := hL L₁ x L₂ hL' hx
        rcases List.mem_cons.mp hy with rfl | hy
        · exact absurd hEy hEa
        · exact ⟨y, by simpa using hy, hPy, hEy⟩
      · obtain ⟨x, hx, hEx⟩ := hex
        rcases List.mem_cons.mp hx with rfl | hx
        · exact absurd hEx hEa
        · exact ⟨x, hx, hEx⟩

variable (key : β → Nat)

/-- Sorting by key a list whose least key belongs to an element `y₀` that satisfies `P`: the
elements with a larger key come after `y₀`, and those with the least key keep their order. -/
theorem Covered.mergeSort_of_least {L : List β} {y₀ : β} (hy₀ : y₀ ∈ L) (hP : P y₀)
    (hT : ∀ x, T y₀ x) (hle : ∀ x ∈ L, key y₀ ≤ key x)
    (hsame : Covered P T [] (L.filter fun x => key x == key y₀)) :
    Covered P T [] (L.mergeSort fun a b => decide (key a ≤ key b)) := by
  intro S₁ x S₂ hS hx
  have hxL : x ∈ L := by
    have hx' : x ∈ L.mergeSort fun a b => decide (key a ≤ key b) := by simp [hS]
    exact List.mem_mergeSort.mp hx'
  rcases Nat.lt_or_eq_of_le (hle x hxL) with hlt | heq
  · -- `y₀` has a smaller key, so it is sorted before `x`
    refine ⟨y₀, ?_, hP, hT x⟩
    have hy₀S : y₀ ∈ S₁ ++ x :: S₂ := by
      rw [← hS, List.mem_mergeSort]
      exact hy₀
    have hpw := pairwise_mergeSort_key key L
    rw [hS, List.pairwise_append] at hpw
    rw [List.nil_append]
    rcases List.mem_append.mp hy₀S with h₁ | h₂
    · exact h₁
    · rcases List.mem_cons.mp h₂ with rfl | h₂
      · exact absurd hP hx
      · have := (List.pairwise_cons.mp hpw.2.1).1 y₀ h₂
        omega
  · -- the elements of the least key keep their order
    have hf := filter_mergeSort_key key L (key y₀)
    rw [hS, List.filter_append, List.filter_cons_of_pos (by simp [heq])] at hf
    obtain ⟨y, hy, hPy, hTy⟩ := hsame _ x _ hf.symm hx
    refine ⟨y, ?_, hPy, hTy⟩
    simp only [List.nil_append, List.mem_filter] at hy ⊢
    exact hy.1

end Lists

/-! ## The lexemes of a lexed operand -/

namespace Expr

variable {d : Dialect}

/-- The literals and operators of a lexed expression are lexemes. -/
theorem lexemes_of_lexed {e : Expr} (h : Lexed d e.tokens) : e.Lexemes := by
  induction e with
  | atom lit =>
    obtain ⟨⟨x, y, hx⟩, -⟩ := Lexed.cons h
    exact ⟨y, by rw [(Terminal.reads_lex d .literal).splits _ _ _ hx]; exact hx⟩
  | chain lit op right ih =>
    obtain ⟨⟨x, y, hx⟩, h₁⟩ := Lexed.cons h
    obtain ⟨⟨x', y', hx'⟩, h₂⟩ := Lexed.cons h₁
    obtain ⟨c, hop, hc⟩ := single_eq_some_mem hx'
    exact ⟨⟨y, by rw [(Terminal.reads_lex d .literal).splits _ _ _ hx]; exact hx⟩,
      ⟨c, of_decide_eq_true hc, hop⟩, ih h₂⟩
  | group inner ih =>
    rw [tokens, List.cons_append] at h
    exact ih (Lexed.cons h).2.append_left

end Expr

namespace Operand

variable {d : Dialect}

/-- The lexemes of a lexed operand are lexemes. -/
theorem lexemes_of_lexed {o : Operand} (h : Lexed d o.tokens) : o.Lexemes := by
  cases o with
  | register name =>
    obtain ⟨⟨x, y, hx⟩, -⟩ := Lexed.cons h
    obtain ⟨c, rfl, hc⟩ := single_eq_some_mem hx
    exact ⟨c, of_decide_eq_true hc, rfl⟩
  | value imm sel e =>
    -- past `#`: the byte selector and the expression
    have hs : Lexed d ((sel.map (Terminal.selector, ·)).toList ++ e.tokens) := by
      cases imm
      · simpa [tokens] using h
      · exact (Lexed.cons (by simpa [tokens] using h)).2
    refine ⟨fun s hs' => ?_, Expr.lexemes_of_lexed hs.append_right⟩
    obtain rfl : sel = some s := Option.mem_def.mp hs'
    exact selector_of_lexed (by simpa using hs)

theorem tokens_cons (o : Operand) :
    ∃ t w ts, o.tokens = (t, w) :: ts ∧ t.readsBlanks = false := by
  cases o with
  | register name => exact ⟨_, _, _, rfl, rfl⟩
  | value imm sel e =>
    cases imm
    · cases sel
      · obtain ⟨t, w, ts, he, ht⟩ := e.tokens_cons
        exact ⟨t, w, ts, by simp [tokens, he], ht⟩
      · next s => exact ⟨.selector, s, e.tokens, by simp [tokens], rfl⟩
    · exact ⟨.hash, ['#'], (sel.map (Terminal.selector, ·)).toList ++ e.tokens, by simp [tokens], rfl⟩

/-- A blank in front of an operand is passed over. -/
theorem lexes_cons_blank_iff {b : Char} (hb : isBlank b = true) {o : Operand}
    {cs rest : List Char} : Lexes d (b :: cs) o.tokens rest ↔ Lexes d cs o.tokens rest :=
  Lexes.cons_blank_iff hb o.tokens_cons

/-- A printed operand starts with a character that is no blank, line break or semicolon. -/
theorem render_cons {o : Operand} (ho : o.Lexemes) :
    ∃ c Y, o.render = c :: Y ∧ isBlank c = false ∧ c ≠ '\n' ∧ c ≠ ';' := by
  cases o with
  | register name =>
    obtain ⟨c, hc, rfl⟩ := ho
    obtain ⟨hC, hb, -, -⟩ := register_upper_cases hc
    refine ⟨c.toUpper, [], rfl, hb, ?_, ?_⟩ <;> rintro h <;> rw [h] at hC <;> exact absurd hC (by decide)
  | value imm sel e =>
    obtain ⟨hsel, he⟩ := ho
    obtain ⟨c, Y, hce, hc⟩ := Expr.render_cons he
    obtain ⟨hb, -, -, -⟩ := startsExpr_cases hc
    have hstart : c ≠ '\n' ∧ c ≠ ';' := by
      rcases hc with rfl | hc
      · decide
      · constructor <;> rintro rfl <;>
          exact hc (rejects_literal (by decide) (by decide) (by decide))
    cases imm with
    | true => exact ⟨'#', _, rfl, by decide, by decide, by decide⟩
    | false =>
      cases sel with
      | none => exact ⟨c, Y, by simp [render, hce], hb, hstart⟩
      | some s =>
        obtain rfl | rfl := hsel s rfl <;> exact ⟨_, _, rfl, by decide, by decide, by decide⟩

/-- Every expression read from a printed operand, in front of a stop: one that leaves the stop;
one that stops before an operator of the top chain of a bare operand; or one that runs on past
the operand, through an operator after it. -/
theorem cases_of_lexes_expr {o : Operand} (ho : o.Lexemes) {rest : List Char} (hr : StopsAt rest)
    {e' : Expr} {rest' : List Char} (h : Lexes d (o.render ++ rest) e'.tokens rest') :
    rest' = rest ∨
      (∃ e, o = value false none e ∧ ∃ op right, (op, right) ∈ e.tails ∧
        rest' = Expr.showOperator op ++ right.render ++ rest) ∨
      (∃ w r₁, ∃ e₂ : Expr, Terminal.operator.Matches d rest w r₁ ∧ Lexes d r₁ e₂.tokens rest') := by
  cases o with
  | register name =>
    obtain ⟨c, hc, rfl⟩ := ho
    obtain ⟨-, -, -, hCl⟩ := register_upper_cases hc
    rcases Expr.cases_of_lexes_render (e := .atom [c.toUpper]) hCl hr h with
      ⟨-, rfl⟩ | ⟨op, right, hmem, -⟩ | ⟨-, hbeyond⟩
    · exact Or.inl rfl
    · simp [Expr.tails] at hmem
    · exact Or.inr (Or.inr hbeyond)
  | value imm sel e =>
    obtain ⟨hsel, he⟩ := ho
    obtain ⟨c, Y, hce, hc⟩ := Expr.render_cons he
    rw [render_value_append imm sel hce] at h
    -- an expression is read only where no `#` and no byte selector is printed
    have h' : Lexes d ((if imm then ['#'] else []) ++ sel.getD [] ++ c :: (Y ++ rest))
        (value false none e').tokens rest' := by
      simpa [tokens] using h
    obtain ⟨rfl, rfl, hexpr⟩ := lexes_value_prefix hsel hc h'
    rw [← List.cons_append, ← hce] at hexpr
    rcases Expr.cases_of_lexes_render he hr hexpr with ⟨-, rfl⟩ | hinside | ⟨-, hbeyond⟩
    · exact Or.inl rfl
    · exact Or.inr (Or.inl ⟨e, rfl, hinside⟩)
    · exact Or.inr (Or.inr hbeyond)

/-- Past blanks, what is left inside a printed operand goes on with a literal character or an
operator: no line break and no semicolon, and a comma only of its top chain. -/
theorem Remainder.dropWhile {o : Operand} (ho : o.Lexemes) {X : List Char} (hX : o.Remainder X)
    (Y : List Char) :
    ∃ c Z, (X ++ Y).dropWhile isBlank = c :: Z ∧ c ≠ '\n' ∧ c ≠ ';' ∧
      (c = ',' → ∃ right, ([','], right) ∈ o.tails ∧ Z = ' ' :: (right.render ++ Y)) := by
  rcases hX with ⟨x, Z, rfl, hx⟩ | ⟨op, right, hmem, rfl⟩
  · have hb : isBlank x = false := by
      cases hb : isBlank x
      · rfl
      · obtain rfl | rfl := Terminal.isBlank_cases hb <;> exact absurd hx (by decide)
    refine ⟨x, Z ++ Y, by rw [List.cons_append, List.dropWhile_cons_of_neg (by simp [hb])],
      ?_, ?_, ?_⟩ <;> rintro rfl <;> exact absurd hx (by decide)
  · cases o with
    | register => simp [tails] at hmem
    | value imm sel e =>
      obtain ⟨c, hop, rfl⟩ := (Expr.lexemes_of_mem_tails ho.2 hmem).1
      refine ⟨c, ' ' :: (right.render ++ Y), ?_, ?_, ?_, ?_⟩
      · rw [List.append_assoc, Expr.dropWhile_showOperator ⟨c, hop, rfl⟩]
        rfl
      · rintro rfl
        exact absurd hop (by decide)
      · rintro rfl
        exact absurd hop (by decide)
      · rintro rfl
        exact ⟨right, hmem, rfl⟩

end Operand

/-! ## Where a reading of the print stops -/

/-- A reading ends the line: past blanks, a line break follows. -/
def EndsLine (r : List Char) : Prop := (r.dropWhile isBlank).head? = some '\n'

/-- No comment follows a reading: past blanks, no semicolon follows. -/
def NoComment (r : List Char) : Prop := (r.dropWhile isBlank).head? ≠ some ';'

theorem endsLine_newline : EndsLine ['\n'] := rfl

/-- The line break is read only where a reading ends the line. -/
theorem results_attempt_newline {r : List Char} :
    (Terminal.attempt .standard .newline r).results ≠ [] ↔ EndsLine r := by
  rw [Terminal.results_attempt, EndsLine]
  simp only [Terminal.read, Terminal.readsBlanks, Terminal.lex, Bool.false_eq_true, if_false]
  cases r.dropWhile isBlank with
  | nil => simp [char, single]
  | cons c Z =>
    by_cases hc : c = '\n'
    · simp [char, single, hc]
    · simp [char, single, hc]

theorem Comment.results_readFrom_eq_nil {ind : Bool} {r : List Char} (h : NoComment r) :
    (Comment.readFrom .standard ind r).results = [] := by
  have hsemi : (Terminal.attempt .standard .semicolon r).results = [] := by
    rw [Terminal.results_attempt]
    simp only [Terminal.read, Terminal.readsBlanks, Terminal.lex, Bool.false_eq_true, if_false]
    unfold NoComment at h
    cases hr : r.dropWhile isBlank with
    | nil => simp [char, single]
    | cons c Z =>
      have hc : c ≠ ';' := fun hc => h (by rw [hr, hc]; rfl)
      simp [char, single, hc]
  simp [Comment.readFrom, Reading.results_andThen, hsemi]

/-- No comment is read where no semicolon follows. -/
theorem Comment.results_read_eq_nil {r : List Char} (h : NoComment r) :
    (Comment.read .standard r).results = [] := by
  cases r with
  | nil => rw [Comment.results_read_of_not_space (by simp), results_readFrom_eq_nil h]
  | cons c t =>
    by_cases hc : c = ' '
    · subst hc
      rw [Comment.results_read_of_space, results_readFrom_eq_nil h]
      rfl
    · rw [Comment.results_read_of_not_space (by simpa using hc), results_readFrom_eq_nil h]

namespace Statement

variable {d : Dialect}

theorem results_attempt_blanks {X : List Char} (hX : ∀ c ∈ X.head?, isBlank c = false) :
    (Terminal.attempt d .blanks (' ' :: X)).results = [([' '], X)] := by
  rw [Terminal.results_attempt]
  cases X with
  | nil => rfl
  | cons c X =>
    have hc : isBlank c = false := hX c rfl
    have hsp : isBlank ' ' = true := rfl
    have ht : (c :: X).takeWhile isBlank = [] := by simp [hc]
    have hd : (c :: X).dropWhile isBlank = c :: X := List.dropWhile_cons_of_neg (by simp [hc])
    simp [Terminal.read, Terminal.readsBlanks, Terminal.lex, run, hsp, ht, hd]

/-- The first operand of the print is read right after the space that follows the mnemonic. -/
theorem mem_firstOperands_iff {X : List Char} (hX : ∀ c ∈ X.head?, isBlank c = false)
    {o : Operand} {r : List Char} :
    (o, r) ∈ (firstOperands d (' ' :: X)).results ↔ Lexes d X o.tokens r := by
  simp [firstOperands, Reading.mem_andThen, results_attempt_blanks hX, Operand.mem_read_iff]

theorem mem_operandPairs_iff {R : List Char} {k : Nat} {a b : Operand} {r : List Char} :
    ((k, a, b), r) ∈ (operandPairs d R).results ↔
      ∃ r₁ r₂, (a, r₁) ∈ (firstOperands d R).results ∧ Terminal.comma.Matches d r₁ [','] r₂ ∧
        Lexes d r₂ b.tokens r ∧ k = r₁.length := by
  simp only [operandPairs, Reading.mem_andThen, Reading.mem_map,
    Terminal.mem_attempt_eq_spelling (t := .comma) rfl, Operand.mem_read_iff, Prod.mk.injEq]
  constructor
  · rintro ⟨r₁, a', ha, r₂, w, ⟨rfl, hc⟩, b', hb, rfl, rfl, rfl⟩
    exact ⟨r₁, r₂, ha, hc, hb, rfl⟩
  · rintro ⟨r₁, r₂, ha, hc, hb, rfl⟩
    exact ⟨r₁, a, ha, r₂, [','], ⟨rfl, hc⟩, b, hb, rfl, rfl, rfl⟩

/-- A comma is read where one follows past blanks, and leaves what follows it. -/
theorem comma_matches_of_dropWhile {r r₂ w : List Char} {c : Char} {Z : List Char}
    (h : Terminal.comma.Matches d r w r₂) (hr : r.dropWhile isBlank = c :: Z) :
    c = ',' ∧ r₂ = Z := by
  obtain ⟨hc, -, rfl⟩ := h.single_eq rfl rfl hr
  exact ⟨by simpa using hc, rfl⟩

end Statement

/-! ## Readings of printed operands -/

theorem noComment_newline : NoComment ['\n'] := by
  simp [NoComment, List.dropWhile_cons_of_neg (show ¬ isBlank '\n' = true by decide)]

/-- A printed operand neither ends the line nor starts a comment. -/
theorem Operand.not_endsLine_render {o : Operand} (ho : o.Lexemes) (Y : List Char) :
    ¬ EndsLine (o.render ++ Y) ∧ NoComment (o.render ++ Y) := by
  obtain ⟨c, Z, hr, hb, hn, hs⟩ := Operand.render_cons ho
  have hd : (o.render ++ Y).dropWhile isBlank = c :: (Z ++ Y) := by
    rw [hr, List.cons_append, List.dropWhile_cons_of_neg (by simp [hb])]
  simp [EndsLine, NoComment, hd, hn, hs]

/-- A blank and then a printed operand neither ends the line nor starts a comment. -/
theorem Operand.not_endsLine_blank_render {o : Operand} (ho : o.Lexemes) (Y : List Char) :
    ¬ EndsLine (' ' :: (o.render ++ Y)) ∧ NoComment (' ' :: (o.render ++ Y)) := by
  have h := Operand.not_endsLine_render ho Y
  simpa [EndsLine, NoComment, List.dropWhile_cons_of_pos (show isBlank ' ' = true from rfl)] using h

/-- The separator of two printed operands neither ends the line nor starts a comment. -/
theorem not_endsLine_separator (Z : List Char) :
    ¬ EndsLine (',' :: ' ' :: Z) ∧ NoComment (',' :: ' ' :: Z) := by
  simp [EndsLine, NoComment, List.dropWhile_cons_of_neg (show ¬ isBlank ',' = true by decide)]

namespace Operand

variable {d : Dialect}

theorem Remainder.not_endsLine {o : Operand} (ho : o.Lexemes) {X : List Char} (hX : o.Remainder X)
    (Y : List Char) : ¬ EndsLine (X ++ Y) ∧ NoComment (X ++ Y) := by
  obtain ⟨c, Z, hd, hn, hs, -⟩ := hX.dropWhile ho Y
  simp [EndsLine, NoComment, hd, hn, hs]

/-- A comma read inside a printed operand is a comma of its top chain. -/
theorem Remainder.comma {o : Operand} (ho : o.Lexemes) {X : List Char} (hX : o.Remainder X)
    {Y w r₂ : List Char} (h : Terminal.comma.Matches d (X ++ Y) w r₂) :
    ∃ right, ([','], right) ∈ o.tails ∧ r₂ = ' ' :: (right.render ++ Y) := by
  obtain ⟨c, Z, hd, -, -, hcomma⟩ := hX.dropWhile ho Y
  obtain ⟨rfl, rfl⟩ := Statement.comma_matches_of_dropWhile h hd
  exact hcomma rfl

theorem not_operator_matches_newline {w r : List Char} :
    ¬ Terminal.operator.Matches d ['\n'] w r := by
  intro h
  obtain ⟨hop, -⟩ := h.single_eq rfl rfl (List.dropWhile_cons_of_neg (by decide))
  exact absurd hop (by decide)

theorem not_comma_matches_newline {w r : List Char} : ¬ Terminal.comma.Matches d ['\n'] w r := by
  intro h
  obtain ⟨hc, -⟩ := Statement.comma_matches_of_dropWhile h (List.dropWhile_cons_of_neg (by decide))
  exact absurd hc (by decide)

/-- Every reading of a printed operand, not a register letter read as a label, at the end of
a line: the operand, or a register letter read as a label, leaving the line break; or one that
stops inside it. -/
theorem cases_of_lexes_render_newline {o : Operand} (ho : o.Lexemes) (hlone : o.isLoneLabel = false)
    {o' : Operand} {rest' : List Char} (h : Lexes d (o.render ++ ['\n']) o'.tokens rest') :
    (rest' = ['\n'] ∧ (o' = o.upper ∨ o'.isLoneLabel = true)) ∨
      ∃ X, rest' = X ++ ['\n'] ∧ o.Remainder X := by
  rcases cases_of_lexes_render ho (stopsAt_cons (c := '\n') (by decide) []) h with
    ⟨rfl, rfl⟩ | ⟨hl, rfl⟩ | hX | ⟨-, w, r₁, e₂, hop, -⟩
  · exact Or.inl ⟨rfl, Or.inl rfl⟩
  · rw [hlone] at hl
    exact Or.inl ⟨rfl, Or.inr (by simpa using hl)⟩
  · exact Or.inr hX
  · exact absurd hop not_operator_matches_newline

/-- Every expression read from a printed operand at the end of a line leaves the line break,
or stops inside the operand, which is then bare. -/
theorem cases_of_lexes_expr_newline {o : Operand} (ho : o.Lexemes) {e' : Expr}
    {rest' : List Char} (h : Lexes d (o.render ++ ['\n']) e'.tokens rest') :
    rest' = ['\n'] ∨
      ∃ e, o = value false none e ∧ ∃ X, rest' = X ++ ['\n'] ∧ o.Remainder X := by
  rcases cases_of_lexes_expr ho (stopsAt_cons (c := '\n') (by decide) []) h with
    rfl | ⟨e, rfl, op, right, hmem, rfl⟩ | ⟨w, r₁, e₂, hop, -⟩
  · exact Or.inl rfl
  · exact Or.inr ⟨e, rfl, _, rfl, Or.inr ⟨op, right, hmem, rfl⟩⟩
  · exact absurd hop not_operator_matches_newline

end Operand

/-! ## The front of the print: its mnemonic -/

namespace Lexeme

/-- Lower case keeps the characters of an identifier what they are: it changes capitals
only, and keeps them letters. -/
theorem isIdentChar_toLower (c : Char) : isIdentChar c.toLower = isIdentChar c := by
  by_cases hu : c.isUpper
  · have ha : c.isAlpha = true := by simp [Char.isAlpha, hu]
    simp [isIdentChar, Char.isAlphanum, ha]
  · rw [Char.toLower_eq_of_not_isUpper hu]

theorem isIdentStart_toLower (c : Char) : isIdentStart c.toLower = isIdentStart c := by
  by_cases hu : c.isUpper
  · have ha : c.isAlpha = true := by simp [Char.isAlpha, hu]
    simp [isIdentStart, ha]
  · rw [Char.toLower_eq_of_not_isUpper hu]

theorem isWord_map_toLower (m : List Char) : isWord (m.map Char.toLower) = isWord m := by
  cases m with
  | nil => rfl
  | cons c m => simp [isWord, isIdentStart_toLower, isIdentChar_toLower, Function.comp_def]

/-- Two spellings of one word that differ only in letter case are both words. -/
theorem isWord_of_map_toLower_eq {m M : List Char}
    (h : M.map Char.toLower = m.map Char.toLower) : isWord M = isWord m := by
  rw [← isWord_map_toLower M, h, isWord_map_toLower]

end Lexeme

/-- The formatter changes only the letter case of a mnemonic. -/
theorem Mnemonic.map_toLower_display (m : List Char) :
    (Mnemonic.display m).map Char.toLower = m.map Char.toLower := by
  unfold Mnemonic.display
  split
  · simp [Function.comp_def]
  · rfl

/-- A word begins with a letter or an underscore, which is no blank. -/
theorem Lexeme.isWord_cons {M : List Char} (hM : isWord M = true) :
    ∃ c M', M = c :: M' ∧ isIdentStart c = true ∧ isBlank c = false := by
  obtain ⟨c, M', rfl⟩ := List.exists_cons_of_ne_nil (show M ≠ [] by rintro rfl; simp [isWord] at hM)
  have hc : isIdentStart c = true := by
    simp only [isWord, List.head?_cons, Option.any_some, Bool.and_eq_true] at hM
    exact hM.1
  refine ⟨c, M', rfl, hc, ?_⟩
  cases hb : isBlank c
  · rfl
  · rcases Terminal.isBlank_cases hb with rfl | rfl <;> exact absurd hc (by decide)

theorem Lexeme.dropWhile_word {M : List Char} (hM : isWord M = true) (R : List Char) :
    (M ++ R).dropWhile isBlank = M ++ R := by
  obtain ⟨c, M', rfl, -, hb⟩ := isWord_cons hM
  exact List.dropWhile_cons_of_neg (by simp [hb])

/-- A word, with no identifier character after it, is the mnemonic read at the front. -/
theorem Terminal.results_attempt_mnemonic_word {M R : List Char} (hM : isWord M = true)
    (hR : startsWord R = false) :
    (attempt .standard .mnemonic (M ++ R)).results = [(M, R)] := by
  have hread : read .standard .mnemonic (M ++ R) = some (M, R) := by
    rw [read, if_neg (by decide), dropWhile_word hM]
    exact identifier_append hM hR
  rw [results_attempt, hread]
  rfl

/-- A class spelled with a lexeme that begins with a dot is not read where the text does not
begin with one. -/
theorem Terminal.results_attempt_of_lead_ne_dot {d : Dialect} {t : Terminal}
    (ht : t.readsBlanks = false) {w₀ : List Char} (hs : t.spelling? = some w₀)
    (hw : w₀.head? = some '.') {cs : List Char} (h : lead cs ≠ some '.') :
    (attempt d t cs).results = [] := by
  refine List.eq_nil_iff_forall_not_mem.mpr fun p hp => h ?_
  obtain ⟨w, r⟩ := p
  have hm := matches_of_mem_attempt hp
  rw [lead_of_matches ht hm, hm.eq_spelling hs, hw]

namespace Statement

variable {d : Dialect}

/-- Where the text does not begin with a dot, every statement read is an instruction. -/
theorem results_read_of_lead_ne_dot {cs : List Char} (h : lead cs ≠ some '.') :
    (read d cs).results = (readInstruction d cs).results := by
  have hmacro : (readMacroStart d cs).results = [] := by
    rw [readMacroStart, Reading.results_andThen, Terminal.results_attempt_of_lead_ne_dot rfl rfl rfl h]
    rfl
  have hend : (Terminal.attempt d .endmacroKeyword cs).results = [] :=
    Terminal.results_attempt_of_lead_ne_dot rfl rfl rfl h
  have hcommand : (Command.read d cs).results = [] := by
    rw [Command.read, Reading.results_andThen, Terminal.results_attempt_of_lead_ne_dot rfl rfl rfl h]
    rfl
  simp only [read, Reading.results_append, Reading.results_map, hmacro, hend, hcommand,
    List.map_nil, List.append_nil]

/-- The statements read from a word and what follows it are the instructions with that word
as their mnemonic. -/
theorem results_read_word {M R : List Char} (hM : isWord M = true) (hR : startsWord R = false) :
    (read .standard (M ++ R)).results = (readOperands .standard M R).results := by
  obtain ⟨c, M', rfl, hc, hb⟩ := isWord_cons hM
  have hlead : lead (c :: M' ++ R) ≠ some '.' := by
    rw [List.cons_append, lead_cons_of_not_blank hb]
    rintro ⟨⟩
    exact absurd hc (by decide)
  rw [results_read_of_lead_ne_dot hlead, readInstruction_eq, Reading.results_andThen,
    Terminal.results_attempt_mnemonic_word hM hR]
  simp

/-- No statement begins with a sign. -/
theorem results_read_of_lead_sign {cs : List Char} {s : Char} (h : lead cs = some s)
    (hs : isSign s = true) : (read d cs).results = [] := by
  refine List.eq_nil_iff_forall_not_mem.mpr fun p hp => ?_
  obtain ⟨toks, hy, hl⟩ := mem_read_iff.mp hp
  have hs' : s = '+' ∨ s = '-' := by simpa [isSign] using hs
  rcases Statement.lead_of_yields hy hl with h' | ⟨c, h', hc⟩ <;> rw [h] at h'
  · obtain rfl := Option.some.inj h'
    rcases hs' with h'' | h'' <;> exact absurd h'' (by decide)
  · obtain rfl := Option.some.inj h'
    rcases hs' with rfl | rfl <;> rcases hc with hc | hc <;> exact absurd hc (by decide)

end Statement

/-! ## The front of the print: no label -/

namespace Lexeme

/-- A literal that begins with a colon refers to an unnamed label: signs follow the colon. -/
theorem literal_colon_cons (cs : List Char) :
    literal (':' :: cs) = (run isSign cs).map fun q => (':' :: q.1, q.2) := by
  cases cs with
  | nil => rfl
  | cons c cs =>
    have hs : isIdentStart ':' = false := by decide
    simp only [literal, first, number, seq, digits, run, char, single, label, identifier, quoted,
      exponent, opt, hs]
    cases h : isSign c <;> simp [h]

end Lexeme

theorem IsLiteral.sign_of_colon {t : List Char} (hl : IsLiteral (':' :: t)) :
    ∃ s t', t = s :: t' ∧ isSign s = true := by
  obtain ⟨r, hr⟩ := hl
  rw [List.cons_append, literal_colon_cons] at hr
  cases t with
  | nil =>
    cases r with
    | nil => simp [run] at hr
    | cons c r => cases h : isSign c <;> simp [run, h] at hr
  | cons s t' =>
    refine ⟨s, t', rfl, ?_⟩
    cases h : isSign s
    · simp [run, h] at hr
    · rfl

/-- A printed expression that begins with a colon goes on with a sign. -/
theorem Expr.sign_of_render_colon {e : Expr} (he : e.Lexemes) {Y : List Char}
    (h : e.render = ':' :: Y) : ∃ s Y', Y = s :: Y' ∧ isSign s = true := by
  have hlit : ∀ {lit Z : List Char}, IsLiteral lit → lit ++ Z = ':' :: Y →
      ∃ s Y', Y = s :: Y' ∧ isSign s = true := by
    intro lit Z hl hlZ
    obtain ⟨c, t, rfl, -⟩ := hl.exists_cons
    obtain ⟨rfl, rfl⟩ := List.cons.inj hlZ
    obtain ⟨s, t', rfl, hs⟩ := IsLiteral.sign_of_colon hl
    exact ⟨s, t' ++ Z, rfl, hs⟩
  cases e with
  | atom lit => exact hlit (Z := []) he (by simpa [Expr.render] using h)
  | chain lit op right => exact hlit he.1 (by simpa [Expr.render, List.append_assoc] using h)
  | group inner => simp [Expr.render] at h

/-- A printed operand that begins with a colon goes on with a sign. -/
theorem Operand.sign_of_render_colon {o : Operand} (ho : o.Lexemes) {Y : List Char}
    (h : o.render = ':' :: Y) : ∃ s Y', Y = s :: Y' ∧ isSign s = true := by
  cases o with
  | register name =>
    obtain ⟨c, hc, rfl⟩ := ho
    obtain ⟨hC, -⟩ := register_upper_cases hc
    obtain ⟨hC', -⟩ := List.cons.inj (show [c.toUpper] = ':' :: Y from h)
    rw [hC'] at hC
    exact absurd hC (by decide)
  | value imm sel e =>
    obtain ⟨hsel, he⟩ := ho
    cases imm with
    | true => simp [render] at h
    | false =>
      cases sel with
      | none => exact Expr.sign_of_render_colon he (by simpa [render] using h)
      | some s => obtain rfl | rfl := hsel s rfl <;> simp [render] at h

/-- A word, with a blank after it, is the label read at the front. -/
theorem Lexeme.label_word {M : List Char} (hM : isWord M = true) (T : List Char) :
    label (M ++ ' ' :: T) = some (M, ' ' :: T) := by
  obtain ⟨c, M', hcM, hc, -⟩ := isWord_cons hM
  have hat : seq (char '@') (run isIdentChar) (M ++ ' ' :: T) = none := by
    have hne : (c == '@') = false := by
      cases h : c == '@'
      · rfl
      · rw [beq_iff_eq.mp h] at hc
        exact absurd hc (by decide)
    simp [hcM, seq, char, single, hne]
  simp only [label, first, hat, Option.none_or]
  exact identifier_append hM (show startsWord (' ' :: T) = false from rfl)

/-- Only the mnemonic of the print is read as a label, and a colon after it leaves a sign. -/
theorem Label.lead_sign_of_mem_read {M T : List Char} (hM : isWord M = true)
    (hT : ∀ Y, T.dropWhile isBlank = ':' :: Y → ∃ s Y', Y = s :: Y' ∧ isSign s = true)
    {l : Label} {r : List Char} (h : (l, r) ∈ (Label.read .standard (M ++ ' ' :: T)).results) :
    ∃ s, lead r = some s ∧ isSign s = true := by
  obtain ⟨toks, hy, hl⟩ := Label.mem_read_iff.mp h
  cases hy with
  | named _ name =>
    simp only [Lexes.cons_iff, Lexes.nil_iff] at hl
    obtain ⟨m₁, hn, m₂, hcolon, rfl⟩ := hl
    -- the label is the mnemonic itself, as no identifier character follows it
    have hlex := Terminal.lex_of_matches rfl hn
    rw [dropWhile_word hM] at hlex
    obtain ⟨-, rfl⟩ : name = M ∧ m₁ = ' ' :: T := by
      have he : some (M, ' ' :: T) = some (name, m₁) := (label_word hM T).symm.trans hlex
      simpa [eq_comm] using he
    have hdrop := Terminal.dropWhile_of_matches_spelling rfl rfl hcolon
    rw [List.dropWhile_cons_of_pos (show isBlank ' ' = true from rfl)] at hdrop
    obtain ⟨s, Y', rfl, hs⟩ := hT _ hdrop
    refine ⟨s, lead_cons_of_not_blank ?_, hs⟩
    have hs' : s = '+' ∨ s = '-' := by simpa [isSign] using hs
    rcases hs' with rfl | rfl <;> rfl
  | unnamed =>
    simp only [Lexes.cons_iff, Lexes.nil_iff] at hl
    obtain ⟨m₁, hcolon, rfl⟩ := hl
    obtain ⟨c, M', rfl, hc, hb⟩ := isWord_cons hM
    have h' := Terminal.lead_of_matches rfl hcolon
    rw [List.cons_append, lead_cons_of_not_blank hb, hcolon.eq_spelling rfl] at h'
    obtain rfl := Option.some.inj h'
    exact absurd hc (by decide)

/-! ## Reading back the operands -/

/-- The readings `L` of an instruction's operand text read back as `target`: every reading
that ends the line comes after one that reads `target` and ends it, `target` is read and ends
the line, and no reading is followed by a comment. -/
def ReadsBackAs (target : Statement) (L : List (Statement × List Char)) : Prop :=
  Covered (fun p => EndsLine p.2 → p.1 = target) (fun y _ => EndsLine y.2) [] L ∧
    (∃ r, (target, r) ∈ L ∧ EndsLine r) ∧ ∀ p ∈ L, NoComment p.2

namespace Operand

theorem Remainder.length_pos {o : Operand} {X : List Char} (hX : o.Remainder X) : 0 < X.length := by
  rcases hX with ⟨x, Z, rfl, -⟩ | ⟨op, right, -, rfl⟩
  · simp
  · unfold Expr.showOperator
    split <;> simp

theorem head?_render_append {o : Operand} (ho : o.Lexemes) (Y : List Char) :
    ∀ c ∈ (o.render ++ Y).head?, isBlank c = false := by
  obtain ⟨c, Z, hr, hb, -⟩ := render_cons ho
  simp [hr, hb]

/-- What is read from a printed operand in front of the separator and a second printed operand
is never followed by a comment. -/
theorem noComment_of_lexes_separator {o o₂ : Operand} (ho : o.Lexemes) (ho₂ : o₂.Lexemes)
    {o' : Operand} {r : List Char}
    (h : Lexes .standard (o.render ++ ',' :: ' ' :: (o₂.render ++ ['\n'])) o'.tokens r) :
    NoComment r := by
  have hsep : (',' :: ' ' :: (o₂.render ++ ['\n'])).dropWhile isBlank =
      ',' :: ' ' :: (o₂.render ++ ['\n']) := List.dropWhile_cons_of_neg (by decide)
  rcases cases_of_lexes_render ho (stopsAt_cons (c := ',') (by decide) _) h with
    ⟨-, rfl⟩ | ⟨-, rfl⟩ | ⟨X, rfl, hX⟩ | ⟨-, w, r₁, e₂, hop, he₂⟩
  · exact (not_endsLine_separator _).2
  · exact (not_endsLine_separator _).2
  · exact (hX.not_endsLine ho _).2
  · -- read on through the separator, as an operator, into the second operand
    obtain ⟨-, -, rfl⟩ := hop.single_eq rfl rfl hsep
    rcases cases_of_lexes_expr_newline ho₂ ((Expr.lexes_cons_blank_iff rfl).mp he₂) with
      rfl | ⟨e, -, X, rfl, hX⟩
    · exact noComment_newline
    · exact (hX.not_endsLine ho₂ _).2

end Operand

namespace Statement

theorem results_firstOperands_newline : (firstOperands .standard [' ', '\n']).results = [] := by
  decide +kernel

/-- With no operand printed, the mnemonic alone is read, and ends the line. -/
theorem readsBackAs_nil (M : List Char) :
    ReadsBackAs (instruction M []) (readOperands .standard M [' ', '\n']).results := by
  have hpairs : (operandPairs .standard [' ', '\n']).results = [] := by
    rw [operandPairs, Reading.results_andThen, results_firstOperands_newline]
    rfl
  have hend : EndsLine [' ', '\n'] := rfl
  rw [readOperands_eq]
  simp only [Reading.results_append, Reading.results_map, Reading.results_found,
    Reading.preferring, hpairs, results_firstOperands_newline, List.mergeSort_nil, List.map_nil,
    List.nil_append]
  refine ⟨Covered.of_forall fun p hp _ => ?_, ⟨_, List.mem_singleton_self _, hend⟩,
    fun p hp => ?_⟩
  · rw [List.mem_singleton.mp hp]
  · rw [List.mem_singleton.mp hp]
    simp [NoComment, List.dropWhile_cons_of_pos (show isBlank ' ' = true from rfl),
      List.dropWhile_cons_of_neg (show ¬ isBlank '\n' = true by decide)]

/-- With one operand printed, it is read back as the one operand. -/
theorem readsBackAs_single {o : Operand} (ho : o.Lexemes) (hlone : o.isLoneLabel = false)
    (hc : o.topCommas = 0) (M : List Char) :
    ReadsBackAs (instruction M [o.upper])
      (readOperands .standard M (' ' :: (o.render ++ ['\n']))).results := by
  have hX := Operand.head?_render_append ho ['\n']
  have hcases : ∀ {a r}, (a, r) ∈ (firstOperands .standard (' ' :: (o.render ++ ['\n']))).results →
      (r = ['\n'] ∧ (a = o.upper ∨ a.isLoneLabel = true)) ∨
        ∃ X, r = X ++ ['\n'] ∧ o.Remainder X := fun h =>
    Operand.cases_of_lexes_render_newline ho hlone ((mem_firstOperands_iff hX).mp h)
  -- no comma outside parentheses, so no pair of operands
  have hpairs : (operandPairs .standard (' ' :: (o.render ++ ['\n']))).results = [] := by
    refine List.eq_nil_iff_forall_not_mem.mpr fun x hx => ?_
    obtain ⟨⟨k, a, b⟩, r⟩ := x
    obtain ⟨r₁, r₂, ha, hcomma, -, -⟩ := mem_operandPairs_iff.mp hx
    rcases hcases ha with ⟨rfl, -⟩ | ⟨X, rfl, hXr⟩
    · exact Operand.not_comma_matches_newline hcomma
    · obtain ⟨right, hmem, -⟩ := hXr.comma ho hcomma
      cases o with
      | register => simp [Operand.tails] at hmem
      | value imm sel e =>
        exact absurd hc (Nat.pos_iff_ne_zero.mp (Expr.topCommas_pos_of_mem_tails hmem))
  have hnone := Operand.not_endsLine_blank_render ho ['\n']
  have hmem : (o.upper, ['\n']) ∈ (firstOperands .standard (' ' :: (o.render ++ ['\n']))).results :=
    (mem_firstOperands_iff hX).mpr (Operand.lexes_render ho (stopsAt_cons (c := '\n') (by decide) []))
  rw [readOperands_eq]
  simp only [Reading.results_append, Reading.results_map, Reading.results_found,
    Reading.preferring, hpairs, List.mergeSort_nil, List.map_nil, List.nil_append]
  refine ⟨?_, ⟨['\n'], List.mem_append_left _ (List.mem_map.mpr ⟨_, hmem, rfl⟩),
    endsLine_newline⟩, fun p hp => ?_⟩
  · refine Covered.append (Covered.map_nil (Covered.of_covered (covered_firstOperands _ _) ?_ ?_))
      (Covered.of_forall fun p hp hend => ?_)
    · -- another operand that ends the line is a register letter read as a label
      intro x hx hP
      obtain ⟨a, r⟩ := x
      rcases hcases hx with ⟨rfl, rfl | hl⟩ | ⟨X, rfl, hXr⟩
      · exact absurd (fun _ => rfl) hP
      · simp [hl]
      · exact absurd (fun hend => absurd hend (hXr.not_endsLine ho _).1) hP
    · intro y hy x _ hQ hT hP
      obtain ⟨b, rb⟩ := y
      have hend : EndsLine x.2 := of_not_imp hP
      rw [← show rb = x.2 from hT] at hend
      refine ⟨fun _ => ?_, hend⟩
      rcases hcases hy with ⟨-, rfl | hl⟩ | ⟨X, rfl, hXr⟩
      · rfl
      · simp [hl] at hQ
      · exact absurd hend (hXr.not_endsLine ho _).1
    · rw [List.mem_singleton.mp hp] at hend
      exact absurd hend hnone.1
  · rcases List.mem_append.mp hp with hp | hp
    · obtain ⟨⟨a, r⟩, hx, rfl⟩ := List.mem_map.mp hp
      rcases hcases hx with ⟨rfl, -⟩ | ⟨X, rfl, hXr⟩
      · exact noComment_newline
      · exact (hXr.not_endsLine ho _).2
    · rw [List.mem_singleton.mp hp]
      exact hnone.2

section Pair

variable {o₁ o₂ : Operand} (ho₁ : o₁.Lexemes) (ho₂ : o₂.Lexemes)
  (hlone₁ : o₁.isLoneLabel = false) (hlone₂ : o₂.isLoneLabel = false)
  (hsplit : ∀ e₂, o₂ = .value false none e₂ → o₁.isOpen = true → e₂.topCommas = 0)

include ho₁ ho₂ hlone₁ hlone₂ hsplit in
/-- Every pair of operands read from two printed operands: split at the separator, with each
operand read back or a register letter read as a label, the second perhaps stopping inside it;
or split later, inside the first operand, and followed by no comment. A split after the
separator would need a comma outside parentheses in the second operand, which a last split
rules out. -/
theorem cases_of_mem_operandPairs {k : Nat} {a b : Operand} {r : List Char}
    (h : ((k, a, b), r) ∈
      (operandPairs .standard (' ' :: (o₁.render ++ ',' :: ' ' :: (o₂.render ++ ['\n'])))).results) :
    (k = (',' :: ' ' :: (o₂.render ++ ['\n'])).length ∧ (a = o₁.upper ∨ a.isLoneLabel = true) ∧
      ((r = ['\n'] ∧ (b = o₂.upper ∨ b.isLoneLabel = true)) ∨
        ∃ X, r = X ++ ['\n'] ∧ o₂.Remainder X)) ∨
    ((',' :: ' ' :: (o₂.render ++ ['\n'])).length < k ∧ NoComment r) := by
  obtain ⟨r₁, r₂, ha, hcomma, hb, rfl⟩ := mem_operandPairs_iff.mp h
  have ha' := (mem_firstOperands_iff (Operand.head?_render_append ho₁ _)).mp ha
  have hsep : (',' :: ' ' :: (o₂.render ++ ['\n'])).dropWhile isBlank =
      ',' :: ' ' :: (o₂.render ++ ['\n']) := List.dropWhile_cons_of_neg (by decide)
  have hsecond : Lexes .standard (' ' :: (o₂.render ++ ['\n'])) b.tokens r →
      (r = ['\n'] ∧ (b = o₂.upper ∨ b.isLoneLabel = true)) ∨
        ∃ X, r = X ++ ['\n'] ∧ o₂.Remainder X := fun hb =>
    Operand.cases_of_lexes_render_newline ho₂ hlone₂ ((Operand.lexes_cons_blank_iff rfl).mp hb)
  rcases Operand.cases_of_lexes_render ho₁ (stopsAt_cons (c := ',') (by decide) _) ha' with
    ⟨rfl, rfl⟩ | ⟨hl, rfl⟩ | ⟨X, rfl, hX⟩ | ⟨hopen, w, r₁', e₂, hop, he₂⟩
  · -- split at the separator
    obtain ⟨-, rfl⟩ := comma_matches_of_dropWhile hcomma hsep
    exact Or.inl ⟨rfl, Or.inl rfl, hsecond hb⟩
  · obtain ⟨-, rfl⟩ := comma_matches_of_dropWhile hcomma hsep
    rw [hlone₁] at hl
    exact Or.inl ⟨rfl, Or.inr (by simpa using hl), hsecond hb⟩
  · -- split at a comma of the first operand's top chain
    obtain ⟨right, hmem, rfl⟩ := hX.comma ho₁ hcomma
    have hright : (Operand.value false none right).Lexemes := by
      cases o₁ with
      | register => simp [Operand.tails] at hmem
      | value imm sel e => exact ⟨by simp, (Expr.lexemes_of_mem_tails ho₁.2 hmem).2⟩
    have hb' := (Operand.lexes_cons_blank_iff rfl).mp hb
    have hb'' : Lexes .standard ((Operand.value false none right).render ++
        ',' :: ' ' :: (o₂.render ++ ['\n'])) b.tokens r := by
      simpa [Operand.render] using hb'
    exact Or.inr ⟨by simpa using hX.length_pos,
      Operand.noComment_of_lexes_separator hright ho₂ hb''⟩
  · -- read on through the separator: the second operand then has a comma at its top
    obtain ⟨-, -, rfl⟩ := hop.single_eq rfl rfl hsep
    rcases Operand.cases_of_lexes_expr_newline ho₂ ((Expr.lexes_cons_blank_iff rfl).mp he₂) with
      rfl | ⟨e, rfl, X, rfl, hX⟩
    · exact absurd hcomma Operand.not_comma_matches_newline
    · obtain ⟨right, hmem, -⟩ := hX.comma ho₂ hcomma
      exact absurd (hsplit e rfl hopen)
        (Nat.pos_iff_ne_zero.mp (Expr.topCommas_pos_of_mem_tails hmem))

include ho₁ ho₂ in
/-- The pair split at the separator, with both operands read back, is read, and ends the line. -/
theorem mem_operandPairs_print :
    (((',' :: ' ' :: (o₂.render ++ ['\n'])).length, o₁.upper, o₂.upper), ['\n']) ∈
      (operandPairs .standard (' ' :: (o₁.render ++ ',' :: ' ' :: (o₂.render ++ ['\n'])))).results :=
  mem_operandPairs_iff.mpr ⟨_, _,
    (mem_firstOperands_iff (Operand.head?_render_append ho₁ _)).mpr
      (Operand.lexes_render ho₁ (stopsAt_cons (c := ',') (by decide) _)),
    .here rfl,
    (Operand.lexes_cons_blank_iff rfl).mpr
      (Operand.lexes_render ho₂ (stopsAt_cons (c := '\n') (by decide) [])), rfl⟩

include ho₁ ho₂ hlone₁ hlone₂ hsplit in
/-- Sorted latest split first, the pairs read from two printed operands put the pair read back
before every other pair that ends the line. Every pair splits at or after the separator, so
the pairs split there come first; of those, one that ends the line reads each operand back or
reads a register letter as a label, and the pair read back comes before such twins. -/
theorem covered_mergeSort_operandPairs :
    Covered (fun p : (Nat × Operand × Operand) × List Char =>
        EndsLine p.2 → p.1.2 = (o₁.upper, o₂.upper)) (fun y _ => EndsLine y.2) []
      ((operandPairs .standard (' ' :: (o₁.render ++ ',' :: ' ' :: (o₂.render ++ ['\n'])))).results.mergeSort
        fun p q => decide (p.1.1 ≤ q.1.1)) := by
  have hcases := fun {k a b r} => cases_of_mem_operandPairs ho₁ ho₂ hlone₁ hlone₂ hsplit
    (k := k) (a := a) (b := b) (r := r)
  have hle : ∀ x ∈ (operandPairs .standard
      (' ' :: (o₁.render ++ ',' :: ' ' :: (o₂.render ++ ['\n'])))).results,
      (',' :: ' ' :: (o₂.render ++ ['\n'])).length ≤ x.1.1 := by
    intro x hx
    obtain ⟨⟨k, a, b⟩, r⟩ := x
    rcases hcases hx with ⟨rfl, -⟩ | ⟨hlt, -⟩
    · exact le_rfl
    · exact hlt.le
  refine Covered.mergeSort_of_least (fun p : (Nat × Operand × Operand) × List Char => p.1.1)
    (mem_operandPairs_print ho₁ ho₂) (fun _ => rfl) (fun _ => endsLine_newline) hle ?_
  -- among the pairs split at the separator, the one read back covers its twins
  refine Covered.of_covered (Covered.filter (covered_operandPairs _ _) ?_) ?_ ?_
  · intro y hy x hx hT hq
    have := hle y (by simpa using hy)
    simp only [beq_iff_eq] at hq ⊢
    omega
  · intro x hx hP
    obtain ⟨⟨k, a, b⟩, r⟩ := x
    obtain ⟨hx, hk⟩ := List.mem_filter.mp hx
    simp only [beq_iff_eq] at hk
    rcases hcases hx with ⟨-, ha, ⟨rfl, hb⟩ | ⟨X, rfl, hX⟩⟩ | ⟨hlt, -⟩
    · rintro ⟨ha', hb'⟩
      rcases ha with rfl | ha <;> rcases hb with rfl | hb
      · exact hP fun _ => rfl
      all_goals simp_all
    · exact absurd (fun hend => absurd hend (hX.not_endsLine ho₂ _).1) hP
    · omega
  · intro y hy x _ hQ hT hP
    obtain ⟨⟨k, a, b⟩, r⟩ := y
    obtain ⟨hy, hk⟩ := List.mem_filter.mp hy
    simp only [beq_iff_eq] at hk
    have hend : EndsLine x.2 := of_not_imp hP
    rw [← hT.1] at hend
    refine ⟨fun _ => ?_, hend⟩
    obtain ⟨ha₀, hb₀⟩ := hQ
    rcases hcases hy with ⟨-, ha, ⟨rfl, hb⟩ | ⟨X, rfl, hX⟩⟩ | ⟨hlt, -⟩
    · rcases ha with rfl | ha
      · rcases hb with rfl | hb
        · rfl
        · simp [hb] at hb₀
      · simp [ha] at ha₀
    · exact absurd hend (hX.not_endsLine ho₂ _).1
    · omega

include ho₁ ho₂ hlone₁ hlone₂ hsplit in
/-- With two operands printed, they are read back as the two operands. -/
theorem readsBackAs_pair (M : List Char) :
    ReadsBackAs (instruction M [o₁.upper, o₂.upper])
      (readOperands .standard M (' ' :: (o₁.render ++ ',' :: ' ' :: (o₂.render ++ ['\n'])))).results := by
  have hcases := fun {k a b r} => cases_of_mem_operandPairs ho₁ ho₂ hlone₁ hlone₂ hsplit
    (k := k) (a := a) (b := b) (r := r)
  rw [readOperands_eq]
  simp only [Reading.results_append, Reading.results_map, Reading.results_found,
    Reading.preferring]
  have hfirst : ((instruction M [o₁.upper, o₂.upper]), ['\n']) ∈
      List.map (fun p : (Nat × Operand × Operand) × List Char =>
          (instruction M [p.1.2.1, p.1.2.2], p.2))
        ((operandPairs .standard
          (' ' :: (o₁.render ++ ',' :: ' ' :: (o₂.render ++ ['\n'])))).results.mergeSort
          fun p q => decide (p.1.1 ≤ q.1.1)) :=
    List.mem_map.mpr ⟨_, List.mem_mergeSort.mpr (mem_operandPairs_print ho₁ ho₂), rfl⟩
  refine ⟨?_, ⟨['\n'], List.mem_append_left _ (List.mem_append_left _ hfirst), endsLine_newline⟩,
    fun p hp => ?_⟩
  · refine Covered.append (Covered.append (Covered.map_nil ?_) ?_) ?_
    · refine (covered_mergeSort_operandPairs ho₁ ho₂ hlone₁ hlone₂ hsplit).imp fun x hP hend => ?_
      simp [hP hend]
    · exact Covered.of_forall_before fun x _ _ => ⟨(instruction M [o₁.upper, o₂.upper], ['\n']),
        List.mem_append_right _ hfirst, fun _ => rfl, endsLine_newline⟩
    · exact Covered.of_forall_before fun x _ _ => ⟨(instruction M [o₁.upper, o₂.upper], ['\n']),
        List.mem_append_right _ (List.mem_append_left _ hfirst), fun _ => rfl, endsLine_newline⟩
  · -- no reading is followed by a comment
    simp only [List.mem_append, List.mem_map, List.mem_singleton] at hp
    rcases hp with (⟨⟨⟨k, a, b⟩, r⟩, hx, rfl⟩ | ⟨⟨a, r⟩, hx, rfl⟩) | rfl
    · rcases hcases (List.mem_mergeSort.mp hx) with
        ⟨-, -, ⟨rfl, -⟩ | ⟨X, rfl, hX⟩⟩ | ⟨-, hr⟩
      · exact noComment_newline
      · exact (hX.not_endsLine ho₂ _).2
      · exact hr
    · exact Operand.noComment_of_lexes_separator ho₁ ho₂
        ((mem_firstOperands_iff (Operand.head?_render_append ho₁ _)).mp hx)
    · exact (Operand.not_endsLine_blank_render ho₁ _).2

end Pair

end Statement

/-! ## Reading back the printed line -/

/-- A printed operand list that begins with a colon goes on with a sign. -/
theorem Operand.colon_sign_of_render {o : Operand} (ho : o.Lexemes) (Z : List Char) :
    ∀ Y, (o.render ++ Z).dropWhile isBlank = ':' :: Y → ∃ s Y', Y = s :: Y' ∧ isSign s = true := by
  intro Y hY
  obtain ⟨c, W, hr, hb, -⟩ := render_cons ho
  rw [hr, List.cons_append, List.dropWhile_cons_of_neg (by simp [hb])] at hY
  obtain ⟨rfl, rfl⟩ := List.cons.inj hY
  obtain ⟨s, W', rfl, hs⟩ := sign_of_render_colon ho hr
  exact ⟨s, W' ++ Z, rfl, hs⟩

namespace Line

theorem results_withoutComment {d : Dialect} (p : Option Head × List Char) :
    (withoutComment d p).results =
      (Terminal.attempt d .newline p.2).results.map fun u => ((⟨p.1, none⟩ : Line), u.2) := by
  simp [withoutComment, Reading.results_map]

/-- A line that holds a word and an operand text whose readings read back as `target` is
read as `target` alone: no label is read at its front, as no statement begins with the sign
after a colon, and no comment follows any reading. -/
theorem best?_read_of_readsBackAs {M T : List Char} {target : Statement} (hM : isWord M = true)
    (hT : ∀ Y, T.dropWhile isBlank = ':' :: Y → ∃ s Y', Y = s :: Y' ∧ isSign s = true)
    (h : ReadsBackAs target (Statement.readOperands .standard M (' ' :: T)).results) :
    (read .standard (M ++ ' ' :: T)).best? = some ⟨some (.statement none target), none⟩ := by
  obtain ⟨hcov, ⟨r₀, hmem, hend⟩, hnc⟩ := h
  have hstmt := Statement.results_read_word hM (show startsWord (' ' :: T) = false from rfl)
  -- no label and statement: the label is the word, and only a sign can follow its colon
  have hform₁ : (readEnding .standard (Reading.map some ((Label.read .standard (M ++ ' ' :: T)).andThen
      fun l r => (Statement.read .standard r).map (Head.statement (some l))))).results = [] := by
    have hheads : ((Label.read .standard (M ++ ' ' :: T)).andThen fun l r =>
        (Statement.read .standard r).map (Head.statement (some l))).results = [] := by
      refine List.eq_nil_iff_forall_not_mem.mpr fun p hp => ?_
      obtain ⟨h', r'⟩ := p
      obtain ⟨m, l, hl, hs⟩ := Reading.mem_andThen.mp hp
      obtain ⟨s, hlead, hsign⟩ := Label.lead_sign_of_mem_read hM hT hl
      obtain ⟨st, hst, -⟩ := Reading.mem_map.mp hs
      rw [Statement.results_read_of_lead_sign hlead hsign] at hst
      cases hst
    rw [results_readEnding_eq, Reading.results_map, hheads]
    rfl
  -- the statement alone, never with a comment
  have hheads : (Reading.map some ((Statement.read .standard (M ++ ' ' :: T)).map
      (Head.statement none))).results = (Statement.readOperands .standard M (' ' :: T)).results.map
        fun q => (some (Head.statement none q.1), q.2) := by
    rw [Reading.results_map, Reading.results_map, List.map_map, hstmt]
    rfl
  have hcomment : ∀ p ∈ (Reading.map some ((Statement.read .standard (M ++ ' ' :: T)).map
      (Head.statement none))).results, (withComment .standard p).results = [] := by
    intro p hp
    rw [hheads] at hp
    obtain ⟨q, hq, rfl⟩ := List.mem_map.mp hp
    simp [withComment, Reading.results_andThen, Comment.results_read_eq_nil (hnc q hq)]
  have hfirst : ((Statement.readOperands .standard M (' ' :: T)).results.flatMap fun q =>
      (withoutComment .standard (some (Head.statement none q.1), q.2)).results).head?.map
        Prod.fst = some ⟨some (.statement none target), none⟩ := by
    refine Covered.head?_flatMap (E := fun p => EndsLine p.2) hcov (fun x _ hx => ?_)
      (fun x _ hP hx => ?_) ⟨_, hmem, hend⟩
    · rw [results_withoutComment]
      simpa using mt results_attempt_newline.mp hx
    · obtain ⟨u, us, hu⟩ := List.exists_cons_of_ne_nil (results_attempt_newline.mpr hx)
      rw [results_withoutComment]
      simp [hu, hP hx]
  obtain ⟨z, hz, hzf⟩ := Option.map_eq_some_iff.mp hfirst
  rw [Reading.best?, results_read]
  simp only [Head.readForms, List.map_cons, List.map_nil, List.cons_append, List.nil_append,
    List.flatMap_cons]
  rw [hform₁, List.nil_append, results_readEnding_eq, List.flatMap_eq_nil_iff.mpr hcomment,
    List.nil_append, hheads, List.flatMap_map, List.head?_append, hz]
  simp [hzf]

end Line

/-- The mnemonic of a line that standard source derives is a word. -/
theorem DerivesLine.isWord_mnemonic {s : List Char} {y : Line} (hy : DerivesLine .standard s y)
    {lb : Option Label} {m : List Char} {ops : List Operand}
    (hh : y.head = some (.statement lb (.instruction m ops))) : isWord m = true := by
  obtain ⟨toks, hyy, hly⟩ := hy
  obtain ⟨lt, more, rfl, -⟩ := hyy.eq_lead_mnemonic hh
  obtain ⟨mid, -, hl₂⟩ := Lexes.append_iff.mp hly
  obtain ⟨r, hmn, -⟩ := Lexes.cons_iff.mp hl₂
  exact Terminal.isWord_of_matches_mnemonic hmn

/-- An instruction printed as the formatter prints it after the code column: the mnemonic
spelled `m`, one space, and the operands printed with registers in capitals and separated by
a comma and a space. The formatter spells the mnemonic `Mnemonic.display m`. -/
def Statement.printInstruction (m : List Char) (ops : List Operand) : List Char :=
  m ++ ' ' :: ", ".toList.intercalate (ops.map Operand.render)

/-- Printing an instruction of the first reading of a line, in either dialect, with its
mnemonic in any letter case, and reading the print back as a line of standard source gives the
instruction again, with the mnemonic as printed and its registers in capitals: the print keeps
the operand count, every lexeme, the parentheses, the chains of operators and the prefixes `#`,
`<` and `>`. A mnemonic that colonless source reads may hold a letter that no identifier
holds, such as the long `ſ` of `ſta`; standard source reads no such print. -/
theorem instruction_reads_back {d : Dialect} {s : List Char} {l : Line} {lb : Option Label}
    {m M : List Char} {ops : List Operand} (hs : '\n' ∉ s)
    (hb : (Line.read d (s ++ ['\n'])).best? = some l)
    (hl : l.head = some (.statement lb (.instruction m ops)))
    (hm : d = .colonless → isWord m = true) (hM : M.map Char.toLower = m.map Char.toLower) :
    (Line.read .standard (Statement.printInstruction M ops ++ ['\n'])).best? =
      some ⟨some (.statement none (.instruction M (ops.map Operand.upper))), none⟩ := by
  have hderives := Line.derivesLine_of_best? hs hb
  obtain ⟨hlen, hlexed⟩ := hderives.operands hl
  have hlex : ∀ o ∈ ops, o.Lexemes := fun o ho => Operand.lexemes_of_lexed (hlexed o ho)
  have hpref : Statement.Preferred (.instruction m ops) := by
    simpa [hl, Head.Preferred] using Line.preferred_of_best? hb
  have hsplit : Statement.SplitsLast (.instruction m ops) := by
    simpa [hl, Head.Holds] using Line.splitsLast_of_best? hb
  -- the printed mnemonic is a word: standard source reads no other
  have hword : isWord M = true := by
    rw [isWord_of_map_toLower_eq hM]
    cases d with
    | standard => exact hderives.isWord_mnemonic hl
    | colonless => exact hm rfl
  unfold Statement.printInstruction
  rw [List.append_assoc, List.cons_append]
  -- one reading of the operand text for each number of operands
  match ops, hlen, hlex, hpref, hsplit with
  | [], _, _, _, _ =>
    refine Line.best?_read_of_readsBackAs hword ?_ (Statement.readsBackAs_nil _)
    intro Y hY
    simp [List.dropWhile_cons_of_neg (show ¬ isBlank '\n' = true by decide)] at hY
  | [o], _, hlex, hpref, _ =>
    have hsingle := Statement.readsBackAs_single (hlex o (by simp)) (hpref.1 o (by simp))
      (hpref.2 o rfl) M
    refine Line.best?_read_of_readsBackAs hword ?_ (by simpa using hsingle)
    simpa using Operand.colon_sign_of_render (hlex o (by simp)) ['\n']
  | [o₁, o₂], _, hlex, hpref, hsplit =>
    have hpair := Statement.readsBackAs_pair (hlex o₁ (by simp)) (hlex o₂ (by simp))
      (hpref.1 o₁ (by simp)) (hpref.1 o₂ (by simp))
      (fun e₂ he hopen => hsplit o₁ e₂ (by rw [he]) hopen) M
    refine Line.best?_read_of_readsBackAs hword ?_ (by simpa using hpair)
    simpa using Operand.colon_sign_of_render (hlex o₁ (by simp)) _
  | _ :: _ :: _ :: _, hlen, _, _, _ => simp at hlen

/-- `x lda #<(tab+1),1`, read in colonless source, is the label `x` and an instruction whose
print `LDA #<(tab + 1), 1` standard source reads back. -/
theorem instruction_reads_back_low_byte_pair :
    '\n' ∉ "x lda #<(tab+1),1".toList ∧
      (Line.read .colonless ("x lda #<(tab+1),1".toList ++ ['\n'])).best? =
        some ⟨some (.statement (some (.named ['x'] false)) (.instruction "lda".toList
          [.value true (some ['<']) (.group (.chain "tab".toList ['+'] (.atom ['1']))),
            .value false none (.atom ['1'])])), none⟩ ∧
      (Dialect.colonless = .colonless → isWord "lda".toList = true) ∧
      "LDA".toList.map Char.toLower = "lda".toList.map Char.toLower ∧
      (Line.read .standard (Statement.printInstruction "LDA".toList
          [.value true (some ['<']) (.group (.chain "tab".toList ['+'] (.atom ['1']))),
            .value false none (.atom ['1'])] ++ ['\n'])).best? =
        some ⟨some (.statement none (.instruction "LDA".toList
          ([.value true (some ['<']) (.group (.chain "tab".toList ['+'] (.atom ['1']))),
            .value false none (.atom ['1'])].map Operand.upper))), none⟩ := by
  have hs : '\n' ∉ "x lda #<(tab+1),1".toList := by decide
  have hb : (Line.read .colonless ("x lda #<(tab+1),1".toList ++ ['\n'])).best? =
      some ⟨some (.statement (some (.named ['x'] false)) (.instruction "lda".toList
        [.value true (some ['<']) (.group (.chain "tab".toList ['+'] (.atom ['1']))),
          .value false none (.atom ['1'])])), none⟩ := by
    decide +kernel
  have hm : Dialect.colonless = .colonless → isWord "lda".toList = true := fun _ => by decide
  have hM : "LDA".toList.map Char.toLower = "lda".toList.map Char.toLower := by decide
  exact ⟨hs, hb, hm, hM, instruction_reads_back hs hb rfl hm hM⟩

/-- Colonless source does not read the print back: `x lda tax` is the label `x` and the
instruction `lda tax`, but the print `lda tax` is, in colonless source, the label `lda`
without its colon and the instruction `tax`. -/
theorem colonless_print_reads_as_label :
    (Line.read .colonless ("x lda tax".toList ++ ['\n'])).best? =
        some ⟨some (.statement (some (.named ['x'] false))
          (.instruction "lda".toList [.value false none (.atom "tax".toList)])), none⟩ ∧
      (Line.read .colonless (Statement.printInstruction "lda".toList
          [.value false none (.atom "tax".toList)] ++ ['\n'])).best? =
        some ⟨some (.statement (some (.named "lda".toList false)) (.instruction "tax".toList [])),
          none⟩ :=
  ⟨by decide +kernel, by decide +kernel⟩

end AsmTidy
