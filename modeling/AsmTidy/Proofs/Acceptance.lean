import AsmTidy.Proofs.Readers
import AsmTidy.Source

/-!
# The tidier accepts exactly the grammar

`Source.format` cuts a text at its line breaks, reads each line on its own and keeps the first
reading. The grammar of `AsmTidy.Proofs.Grammar` instead lexes the whole text as one sequence
of lines. This module shows that the two agree.

**Lines stay lines.** Only the line break's lexeme holds a line break, and each line's lexemes
end with it; no other lexeme, nor the blanks skipped before one, crosses a line break. So the
lexemes of a derived line match from the start of the text up to its first line break, and
match there exactly as they do in that line alone (`Line.Yields.lexes_iff`). A derivation of a
text is therefore a derivation of each of its lines, followed by blanks (`derives_iff_lines`).

**One line.** A line is read exactly when the grammar derives it, and every reading takes the
whole line, break included (`Line.exists_best?_iff`).

Main results:

* `derives_iff_lines`: a text is derived as a sequence of lines exactly when each line is
  derived on its own and only blanks follow the last line break.
* `format_ok_iff_derives`: the tidier accepts a text exactly when the grammar derives it, and
  what it prints is the rendering of one of the text's derivations.
-/

namespace AsmTidy

open Text Reading

/-! ## Lexemes without line breaks -/

/-- No lexeme is a line break. -/
def NoBreak (toks : List Token) : Prop := ∀ p ∈ toks, p.1 ≠ .newline

@[simp] theorem noBreak_nil : NoBreak [] := by simp [NoBreak]

@[simp] theorem noBreak_cons {p : Token} {toks : List Token} :
    NoBreak (p :: toks) ↔ p.1 ≠ .newline ∧ NoBreak toks := by
  simp [NoBreak]

@[simp] theorem noBreak_append {ts us : List Token} :
    NoBreak (ts ++ us) ↔ NoBreak ts ∧ NoBreak us := by
  simp [NoBreak, or_imp, forall_and]

theorem OfClass.noBreak {t : Terminal} {toks : List Token} (h : OfClass t toks)
    (ht : t ≠ .newline) : NoBreak toks := by
  intro p hp
  rw [h p hp]
  exact ht

/-- The classes of an expression's lexemes. -/
theorem Expr.mem_tokens {e : Expr} {p : Token} (hp : p ∈ e.tokens) :
    p.1 ∈ [.literal, .operator, .openParen, .closeParen] := by
  induction e with
  | atom => simp_all [tokens]
  | chain _ _ _ ih =>
    simp only [tokens, List.mem_cons] at hp
    rcases hp with rfl | rfl | hp
    · simp
    · simp
    · exact ih hp
  | group _ ih =>
    simp only [tokens, List.cons_append, List.mem_cons, List.mem_append, List.not_mem_nil,
      or_false] at hp
    rcases hp with rfl | hp | rfl
    · simp
    · exact ih hp
    · simp

/-- The classes of an operand's lexemes: a register, or an expression with its `#` and its
selector. -/
theorem Operand.mem_tokens {o : Operand} {p : Token} (hp : p ∈ o.tokens) :
    p.1 ∈ [.register, .hash, .selector, .literal, .operator, .openParen, .closeParen] := by
  cases o with
  | register => simp_all [tokens]
  | value imm sel e =>
    simp only [tokens, List.mem_append] at hp
    rcases hp with (hp | hp) | hp
    · cases imm <;> simp_all
    · cases sel <;> simp_all
    · have he := Expr.mem_tokens hp
      simp only [List.mem_cons, List.not_mem_nil, or_false] at he
      rcases he with h | h | h | h <;> simp [h]

/-- The classes of the lexemes of a macro's parameters. -/
theorem Statement.mem_paramTokens {ps : List (List Char)} {p : Token} (hp : p ∈ paramTokens ps) :
    p.1 ∈ [.identifier, .comma] := by
  cases ps with
  | nil => simp [paramTokens] at hp
  | cons q ps =>
    simp only [paramTokens, List.mem_cons, List.mem_flatMap] at hp
    rcases hp with rfl | ⟨q, -, hq⟩
    · simp
    · simp only [List.not_mem_nil, or_false] at hq
      rcases hq with rfl | rfl <;> simp

theorem noBreak_of_mem {toks : List Token} {ts : List Terminal} (h : ∀ p ∈ toks, p.1 ∈ ts)
    (hts : Terminal.newline ∉ ts) : NoBreak toks :=
  fun p hp hn => hts (hn ▸ h p hp)

theorem Expr.noBreak_tokens (e : Expr) : NoBreak e.tokens :=
  noBreak_of_mem (fun _ => mem_tokens) (by decide)

theorem Operand.noBreak_tokens (o : Operand) : NoBreak o.tokens :=
  noBreak_of_mem (fun _ => mem_tokens) (by decide)

theorem Command.Yields.noBreak {c : Command} {toks : List Token} (h : c.Yields toks) :
    NoBreak toks := by
  cases h with
  | bare => simp
  | withArgs _ _ _ _ hws => simp [hws.noBreak (by decide)]

theorem Statement.noBreak_paramTokens (ps : List (List Char)) : NoBreak (paramTokens ps) :=
  noBreak_of_mem (fun _ => mem_paramTokens) (by decide)

theorem Statement.Yields.noBreak {s : Statement} {toks : List Token} (h : s.Yields toks) :
    NoBreak toks := by
  cases h with
  | bare => simp
  | unary _ o _ _ hws => simp [hws.noBreak (by decide), o.noBreak_tokens]
  | binary _ o₁ o₂ _ _ hws =>
    simp [hws.noBreak (by decide), o₁.noBreak_tokens, o₂.noBreak_tokens]
  | macroStart _ params => simp [noBreak_paramTokens params]
  | macroEnd => simp
  | command _ _ hc => exact hc.noBreak

theorem Label.Yields.noBreak {d : Dialect} {l : Label} {toks : List Token} (h : l.Yields d toks) :
    NoBreak toks := by
  cases h <;> simp

theorem Comment.Yields.noBreak {c : Comment} {toks : List Token} (h : c.Yields toks) :
    NoBreak toks := by
  cases h with
  | flush text => cases text <;> simp
  | indented _ text _ hind => cases text <;> simp [hind.noBreak (by decide)]

theorem Head.Yields.noBreak {d : Dialect} {h : Head} {toks : List Token} (hy : h.Yields d toks) :
    NoBreak toks := by
  cases hy with
  | labelled _ _ _ _ hl hs => simp [hl.noBreak, hs.noBreak]
  | statement _ _ hs => exact hs.noBreak
  | label _ _ hl => exact hl.noBreak
  | numeric _ _ _ hc => simp [hc.noBreak]
  | constant => simp

/-! ## Matching within a line -/

/-- The first line break of a text. -/
theorem exists_eq_first_newline {t : List Char} (h : '\n' ∈ t) :
    ∃ s X, '\n' ∉ s ∧ t = s ++ '\n' :: X := by
  induction t with
  | nil => simp at h
  | cons c t ih =>
    by_cases hc : c = '\n'
    · exact ⟨[], t, by simp, by simp [hc]⟩
    · obtain ⟨s, X, hs, rfl⟩ := ih (by simpa [Ne.symm hc] using h)
      exact ⟨c :: s, X, by simp [hs, Ne.symm hc], rfl⟩

namespace Terminal

variable {d : Dialect}

/-- A match is one of the class's pattern, where the text stands or after its blanks. -/
theorem Matches.exists_lex {t : Terminal} {cs w r : List Char} (h : t.Matches d cs w r) :
    ∃ x, t.lex d x = some (w, r) := by
  cases h with
  | here h => exact ⟨_, h⟩
  | afterBlanks h => exact ⟨_, h⟩

/-- A match takes a piece of the text, up to its end. -/
theorem Matches.suffix {t : Terminal} {cs w r : List Char} (h : t.Matches d cs w r) :
    w ++ r <:+ cs := by
  cases h with
  | here h => exact ((reads_lex d t).splits _ _ _ h).symm ▸ List.suffix_refl _
  | afterBlanks h => exact ((reads_lex d t).splits _ _ _ h).symm ▸ List.dropWhile_suffix _

/-- A match skips a run of blanks, takes its lexeme, and leaves the rest. -/
theorem Matches.eq_blanks_append {t : Terminal} {cs w r : List Char} (h : t.Matches d cs w r) :
    ∃ b, b.all isBlank ∧ cs = b ++ w ++ r := by
  cases h with
  | here h => exact ⟨[], rfl, ((reads_lex d t).splits _ _ _ h).symm⟩
  | afterBlanks h =>
    refine ⟨cs.takeWhile isBlank, List.all_takeWhile, ?_⟩
    rw [List.append_assoc, (reads_lex d t).splits _ _ _ h, List.takeWhile_append_dropWhile]

/-- Within a line, what a match other than the line break leaves is the end of the line. -/
theorem Matches.rest_in_line {t : Terminal} (ht : t ≠ newline) {s w r : List Char}
    (hs : '\n' ∉ s) (h : t.Matches d (s ++ ['\n']) w r) : ∃ s', '\n' ∉ s' ∧ r = s' ++ ['\n'] := by
  have hin := inLine_lex d ht
  cases h with
  | here h => exact Lexeme.rest_of_line hs (hin.newlineFree _ _ _ h) (hin.splits _ _ _ h)
  | afterBlanks h =>
    obtain ⟨s₂, hs₂, he⟩ := dropWhile_append_newline_eq (p := isBlank) (by decide) hs
    rw [he] at h
    exact Lexeme.rest_of_line hs₂ (hin.newlineFree _ _ _ h) (hin.splits _ _ _ h)

/-- The line break matches, after blanks, exactly where the line ends. -/
theorem matches_newline_iff {s X w r : List Char} (hs : '\n' ∉ s) :
    newline.Matches d (s ++ '\n' :: X) w r ↔ w = ['\n'] ∧ r = X ∧ s.all isBlank := by
  rw [matches_iff_read (by decide)]
  show Lexeme.char '\n' ((s ++ '\n' :: X).dropWhile isBlank) = some (w, r) ↔ _
  induction s with
  | nil => simp [Lexeme.char, Lexeme.single, isBlank, eq_comm]
  | cons c s ih =>
    have hc : c ≠ '\n' := fun h => hs (h ▸ List.mem_cons_self)
    by_cases hb : isBlank c = true
    · simp only [List.cons_append, List.dropWhile_cons, hb, if_true, List.all_cons,
        Bool.true_and]
      exact ih (fun h => hs (List.mem_cons_of_mem c h))
    · simp [hb, Lexeme.char, Lexeme.single, hc]

end Terminal

namespace Lexes

variable {d : Dialect}

/-- Lexing ends in the text it starts in. -/
theorem suffix {cs rest : List Char} {toks : List Token} (h : Lexes d cs toks rest) :
    rest <:+ cs := by
  induction h with
  | nil => exact List.suffix_refl _
  | cons _ hm _ ih => exact ih.trans ((List.suffix_append _ _).trans hm.suffix)

/-- Lexemes without line breaks, lexed in a line, leave the rest of that line. They match as
they would in the line alone. -/
theorem append_newline_iff {s X r : List Char} {toks : List Token} (hs : '\n' ∉ s)
    (ht : NoBreak toks) :
    Lexes d (s ++ '\n' :: X) toks r ↔
      ∃ s', '\n' ∉ s' ∧ r = s' ++ '\n' :: X ∧ Lexes d (s ++ ['\n']) toks (s' ++ ['\n']) := by
  induction toks generalizing s with
  | nil =>
    simp only [nil_iff]
    constructor
    · rintro rfl
      exact ⟨s, hs, rfl, rfl⟩
    · rintro ⟨s', -, rfl, he⟩
      rw [List.append_cancel_right he]
  | cons p toks ih =>
    obtain ⟨t, w⟩ := p
    obtain ⟨htn, ht⟩ := noBreak_cons.mp ht
    simp only [cons_iff]
    constructor
    · rintro ⟨_, hX, hl⟩
      -- the match is the one in the line alone, which leaves the rest of the line
      obtain ⟨m, rfl, hm⟩ := (Terminal.matches_append_newline hs).mp hX
      obtain ⟨s₁, hs₁, rfl⟩ := hm.rest_in_line htn hs
      rw [List.append_assoc, List.singleton_append] at hl
      obtain ⟨s', hs', rfl, hl'⟩ := (ih hs₁ ht).mp hl
      exact ⟨s', hs', rfl, _, hm, hl'⟩
    · rintro ⟨s', hs', rfl, m, hm, hl⟩
      obtain ⟨s₁, hs₁, rfl⟩ := hm.rest_in_line htn hs
      refine ⟨_, (Terminal.matches_append_newline hs).mpr ⟨_, rfl, hm⟩, ?_⟩
      rw [List.append_assoc, List.singleton_append]
      exact (ih hs₁ ht).mpr ⟨s', hs', rfl, hl⟩

end Lexes

/-! ## A line in a text -/

namespace Line

variable {d : Dialect}

/-- A line's lexemes are those of its head and comment, which hold no line break, then the
break. -/
theorem Yields.eq_append_newline {l : Line} {toks : List Token} (hy : l.Yields d toks) :
    ∃ body, NoBreak body ∧ toks = body ++ [(.newline, ['\n'])] := by
  cases hy with
  | mk oh c ht ct hh hc =>
    refine ⟨ht ++ ct, noBreak_append.mpr ⟨?_, ?_⟩, rfl⟩
    · cases oh with
      | none =>
        obtain rfl : ht = [] := hh
        exact noBreak_nil
      | some h => exact Head.Yields.noBreak hh
    · cases c with
      | none =>
        obtain rfl : ct = [] := hc
        exact noBreak_nil
      | some c => exact Comment.Yields.noBreak hc

/-- Lexed in a line and what follows it, a derived line ends at the line's break, and matches
as it does in the line alone. -/
theorem Yields.lexes_append_newline_iff {l : Line} {toks : List Token} (hy : l.Yields d toks)
    {s X r : List Char} (hs : '\n' ∉ s) :
    Lexes d (s ++ '\n' :: X) toks r ↔ r = X ∧ Lexes d (s ++ ['\n']) toks [] := by
  obtain ⟨body, hb, rfl⟩ := hy.eq_append_newline
  -- both sides say the same of the lexemes before the break, for any text after the line
  have key : ∀ X r, Lexes d (s ++ '\n' :: X) (body ++ [(.newline, ['\n'])]) r ↔
      r = X ∧ ∃ s', '\n' ∉ s' ∧ s'.all isBlank ∧ Lexes d (s ++ ['\n']) body (s' ++ ['\n']) := by
    intro X r
    rw [Lexes.append_iff]
    constructor
    · rintro ⟨m, hm, hn⟩
      obtain ⟨s', hs', rfl, hm'⟩ := (Lexes.append_newline_iff hs hb).mp hm
      obtain ⟨-, rfl, hbl⟩ := (Terminal.matches_newline_iff hs').mp (Lexes.singleton_iff.mp hn)
      exact ⟨rfl, s', hs', hbl, hm'⟩
    · rintro ⟨rfl, s', hs', hbl, hm'⟩
      exact ⟨_, (Lexes.append_newline_iff hs hb).mpr ⟨s', hs', rfl, hm'⟩,
        Lexes.singleton_iff.mpr ((Terminal.matches_newline_iff hs').mpr ⟨rfl, rfl, hbl⟩)⟩
  rw [key X r, key [] [], eq_self_iff_true, true_and]

/-- Lexed anywhere, a derived line ends at the first line break of the text. -/
theorem Yields.lexes_iff {l : Line} {toks : List Token} (hy : l.Yields d toks)
    {t r : List Char} :
    Lexes d t toks r ↔ ∃ s, '\n' ∉ s ∧ t = s ++ '\n' :: r ∧ Lexes d (s ++ ['\n']) toks [] := by
  constructor
  · intro h
    have hmem : '\n' ∈ t := by
      obtain ⟨body, -, rfl⟩ := hy.eq_append_newline
      obtain ⟨m, hm, hn⟩ := Lexes.append_iff.mp h
      have hsuf := (Lexes.singleton_iff.mp hn).suffix.trans hm.suffix
      exact hsuf.mem List.mem_cons_self
    obtain ⟨s, X, hs, rfl⟩ := exists_eq_first_newline hmem
    obtain ⟨rfl, hl⟩ := (hy.lexes_append_newline_iff hs).mp h
    exact ⟨s, hs, rfl, hl⟩
  · rintro ⟨s, hs, rfl, hl⟩
    exact (hy.lexes_append_newline_iff hs).mpr ⟨rfl, hl⟩

end Line

/-- The grammar derives the line `l` from `s` and its line break, leaving nothing. -/
def DerivesLine (d : Dialect) (s : List Char) (l : Line) : Prop :=
  ∃ toks, l.Yields d toks ∧ Lexes d (s ++ ['\n']) toks []

/-- The text is the lines `ls`, each derived on its own and ended by its line break, and then
blanks. -/
inductive Lines (d : Dialect) : List Char → List Line → Prop
  | last {t : List Char} : t.all isBlank → Lines d t []
  | cons {s X : List Char} {l : Line} {ls : List Line} : '\n' ∉ s → DerivesLine d s l →
      Lines d X ls → Lines d (s ++ '\n' :: X) (l :: ls)

/-- A derivation of a text is a derivation of each of its lines. -/
theorem derives_iff_lines {d : Dialect} {t : List Char} {ls : List Line} :
    Derives d t ls ↔ Lines d t ls := by
  constructor
  · rintro ⟨toks, rest, hy, hl, hb⟩
    induction hy generalizing t with
    | nil =>
      obtain rfl := Lexes.nil_iff.mp hl
      exact .last hb
    | cons l ls lt rt hly _ ih =>
      obtain ⟨m, hl₁, hl₂⟩ := Lexes.append_iff.mp hl
      obtain ⟨s, hs, rfl, hls⟩ := hly.lexes_iff.mp hl₁
      exact .cons hs ⟨lt, hly, hls⟩ (ih hl₂)
  · intro h
    induction h with
    | last hb => exact ⟨[], _, .nil, .nil _, hb⟩
    | cons hs hl _ ih =>
      obtain ⟨toks, rest, hy, hl', hb⟩ := ih
      obtain ⟨lt, hly, hls⟩ := hl
      exact ⟨lt ++ toks, rest, .cons _ _ _ _ hly hy,
        (hly.lexes_iff.mpr ⟨_, hs, rfl, hls⟩).append hl', hb⟩

/-! ## Reading one line -/

namespace Line

variable {d : Dialect} {s : List Char}

/-- A reading of a line and its break is a derivation of it that takes the whole line. -/
theorem derivesLine_of_mem_read (hs : '\n' ∉ s) {l : Line} {rest : List Char}
    (h : (l, rest) ∈ (read d (s ++ ['\n'])).results) : rest = [] ∧ DerivesLine d s l := by
  obtain ⟨toks, hy, hl⟩ := yields_of_mem_read h
  obtain ⟨rfl, hl'⟩ := (hy.lexes_append_newline_iff hs).mp hl
  exact ⟨rfl, toks, hy, hl'⟩

theorem derivesLine_of_best? (hs : '\n' ∉ s) {l : Line}
    (h : (read d (s ++ ['\n'])).best? = some l) : DerivesLine d s l := by
  simp only [best?, Option.map_eq_some_iff, List.head?_eq_some_iff] at h
  obtain ⟨⟨l', rest⟩, ⟨tl, he⟩, rfl⟩ := h
  exact (derivesLine_of_mem_read hs (he ▸ List.mem_cons_self)).2

theorem exists_best?_of_derivesLine {l : Line} (h : DerivesLine d s l) :
    ∃ l', (read d (s ++ ['\n'])).best? = some l' := by
  obtain ⟨toks, hy, hl⟩ := h
  obtain ⟨l', hm⟩ := exists_mem_read hy hl
  cases hr : (read d (s ++ ['\n'])).results with
  | nil => simp [hr] at hm
  | cons p ps => exact ⟨p.1, by simp [best?, hr]⟩

end Line

/-! ## The tidier -/

namespace Source

variable {d : Dialect}

/-- A line that is read is printed, before the lines after it. -/
theorem formatLines_append_newline {n : Nat} {s X : List Char} (hs : '\n' ∉ s) {l : Line}
    (hb : (Line.read d (s ++ ['\n'])).best? = some l) :
    formatLines d n ((s ++ '\n' :: X).splitOn '\n') =
      (formatLines d (n + 1) (X.splitOn '\n')).map fun rest =>
        Layout.tidy.line l ++ '\n' :: rest := by
  rw [List.splitOn_append_cons_self_of_not_mem hs]
  obtain ⟨p, ps, he⟩ := List.exists_cons_of_ne_nil (List.splitOn_ne_nil '\n' X)
  rw [he]
  simp only [formatLines, hb]

/-- A line that is not read stops the tidier. -/
theorem formatLines_append_newline_of_best?_eq_none {n : Nat} {s X : List Char} (hs : '\n' ∉ s)
    (hb : (Line.read d (s ++ ['\n'])).best? = none) :
    ∃ e, formatLines d n ((s ++ '\n' :: X).splitOn '\n') = .error e := by
  rw [List.splitOn_append_cons_self_of_not_mem hs]
  obtain ⟨p, ps, he⟩ := List.exists_cons_of_ne_nil (List.splitOn_ne_nil '\n' X)
  rw [he]
  simp only [formatLines, hb]
  exact ⟨_, rfl⟩

theorem formatLines_of_newline_not_mem {n : Nat} {t : List Char} (ht : '\n' ∉ t) :
    formatLines d n (t.splitOn '\n') =
      if t.all isBlank then .ok []
      else .error (ParseError.atFrontier n t (Line.read d t).frontier) := by
  rw [List.splitOn_eq_singleton ht]
  rfl

/-- What the tidier prints for the lines `ls`. -/
abbrev render (ls : List Line) : List Char := ls.flatMap fun l => Layout.tidy.line l ++ ['\n']

/-- The tidier's reading of a text: each line read by its most preferred reading, and then
blanks. -/
inductive Parsed (d : Dialect) : List Char → List Line → Prop
  | last {t : List Char} : t.all isBlank → Parsed d t []
  | cons {s X : List Char} {l : Line} {ls : List Line} : '\n' ∉ s →
      (Line.read d (s ++ ['\n'])).best? = some l → Parsed d X ls →
      Parsed d (s ++ '\n' :: X) (l :: ls)

/-- Where the tidier succeeds, it has read the text line by line, and prints those lines. -/
theorem parsed_of_formatLines_ok {n : Nat} {t out : List Char}
    (h : formatLines d n (t.splitOn '\n') = .ok out) : ∃ ls, Parsed d t ls ∧ out = render ls := by
  -- induction on the length of the text: the lines after the first are a shorter text
  induction hlen : t.length using Nat.strongRecOn generalizing t n out with
  | ind k ih =>
  by_cases hmem : '\n' ∈ t
  · obtain ⟨s, X, hs, rfl⟩ := exists_eq_first_newline hmem
    cases hb : (Line.read d (s ++ ['\n'])).best? with
    | none =>
      obtain ⟨e, he⟩ := formatLines_append_newline_of_best?_eq_none (n := n) (X := X) hs hb
      rw [he] at h
      cases h
    | some l =>
      rw [formatLines_append_newline hs hb] at h
      cases hX : formatLines d (n + 1) (X.splitOn '\n') with
      | error e => simp [hX, Except.map] at h
      | ok rest =>
        simp only [hX, Except.map, Except.ok.injEq] at h
        have hlt : X.length < k := by
          simp only [← hlen, List.length_append, List.length_cons]
          omega
        obtain ⟨ls, hls, rfl⟩ := ih _ hlt hX rfl
        exact ⟨l :: ls, .cons hs hb hls, by simp [← h]⟩
  · rw [formatLines_of_newline_not_mem hmem] at h
    split at h
    · next hb =>
      cases h
      exact ⟨[], .last hb, rfl⟩
    · cases h

/-- The tidier prints the lines it reads. -/
theorem formatLines_of_parsed {t : List Char} {ls : List Line} (h : Parsed d t ls) (n : Nat) :
    formatLines d n (t.splitOn '\n') = .ok (render ls) := by
  induction h generalizing n with
  | @last t hb =>
    have ht : '\n' ∉ t := fun hm => by simpa [isBlank] using List.all_eq_true.mp hb _ hm
    rw [formatLines_of_newline_not_mem ht, if_pos hb]
    rfl
  | cons hs hb _ ih =>
    rw [formatLines_append_newline hs hb, ih (n + 1)]
    simp [Except.map]

theorem format_eq_ok_iff {t out : List Char} :
    format d t = .ok out ↔ ∃ ls, Parsed d t ls ∧ out = render ls := by
  refine ⟨parsed_of_formatLines_ok, ?_⟩
  rintro ⟨ls, h, rfl⟩
  exact formatLines_of_parsed h 1

/-- The tidier's reading of each line is a derivation of it. -/
theorem Parsed.lines {t : List Char} {ls : List Line} (h : Parsed d t ls) : Lines d t ls := by
  induction h with
  | last hb => exact .last hb
  | cons hs hb _ ih => exact .cons hs (Line.derivesLine_of_best? hs hb) ih

/-- A run of the tidier that the kernel evaluates to a printed text. -/
theorem format_eq_ok_of_toOption {t out : List Char} (h : (format d t).toOption = some out) :
    format d t = .ok out := by
  revert h
  cases format d t <;> simp [Except.toOption]

/-- Where the tidier succeeds, it has read the text as lines, and prints them. -/
theorem lines_of_formatLines_ok {n : Nat} {t out : List Char}
    (h : formatLines d n (t.splitOn '\n') = .ok out) : ∃ ls, Lines d t ls ∧ out = render ls := by
  obtain ⟨ls, hls, rfl⟩ := parsed_of_formatLines_ok h
  exact ⟨ls, hls.lines, rfl⟩

/-- Where the text is lines, the tidier succeeds. -/
theorem formatLines_ok_of_lines {t : List Char} {ls : List Line} (h : Lines d t ls) (n : Nat) :
    ∃ out, formatLines d n (t.splitOn '\n') = .ok out := by
  induction h generalizing n with
  | @last t hb =>
    have ht : '\n' ∉ t := fun hm => by simpa [isBlank] using List.all_eq_true.mp hb _ hm
    rw [formatLines_of_newline_not_mem ht, if_pos hb]
    exact ⟨_, rfl⟩
  | cons hs hl _ ih =>
    obtain ⟨l', hb⟩ := Line.exists_best?_of_derivesLine hl
    obtain ⟨out, ho⟩ := ih (n + 1)
    rw [formatLines_append_newline hs hb, ho]
    exact ⟨_, rfl⟩

end Source

/-- The tidier accepts a text exactly when the grammar derives it, and then prints the
rendering of one of the text's derivations. -/
theorem format_ok_iff_derives (d : Dialect) (t : List Char) :
    ((∃ out, Source.format d t = .ok out) ↔ ∃ ls, Derives d t ls) ∧
      ∀ out, Source.format d t = .ok out →
        ∃ ls, Derives d t ls ∧ out = ls.flatMap fun l => Layout.tidy.line l ++ ['\n'] := by
  refine ⟨⟨?_, ?_⟩, ?_⟩
  · rintro ⟨out, h⟩
    obtain ⟨ls, hls, -⟩ := Source.lines_of_formatLines_ok h
    exact ⟨ls, derives_iff_lines.mpr hls⟩
  · rintro ⟨ls, h⟩
    exact Source.formatLines_ok_of_lines (derives_iff_lines.mp h) 1
  · intro out h
    obtain ⟨ls, hls, rfl⟩ := Source.lines_of_formatLines_ok h
    exact ⟨ls, derives_iff_lines.mpr hls, rfl⟩

/-- A directive that organises the file, its name written in capitals, is printed indented
and with its name in lower case; printed again, it moves to the first column. -/
theorem format_moves_lowered_directive :
    Source.format .standard ".CODE\n".toList = .ok "        .code\n".toList ∧
      Source.format .standard "        .code\n".toList = .ok ".code\n".toList :=
  ⟨Source.format_eq_ok_of_toOption (by decide +kernel),
    Source.format_eq_ok_of_toOption (by decide +kernel)⟩

end AsmTidy
