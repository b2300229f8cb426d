import AsmTidy.Proofs.Grammar

/-!
# What the lexers look at

Three facts about the patterns of the lexical classes, each proved once for the combinators
the patterns are built from.

**First characters.** No class except the three that read blanks matches at a blank. So for
those classes a match after skipping the blanks in front is the only match there is, and the
line reader, which skips them, reads exactly the grammar's lexeme (`Terminal.read_of_matches`).
The rest of a line may also be matched before the blanks; it then ends where it ends after
them.

**Line breaks.** Only the class of line breaks matches a line break, and a match never looks
past the first line break of the text (`LineLocal`): with `s` free of line breaks,
`f (s ++ '\n' :: X)` is `f (s ++ ['\n'])` with `X` appended to what is left. Lines can
therefore be lexed one at a time.
-/

namespace AsmTidy

open Text

/-! ## Runs -/

theorem takeWhile_cons_of_pos {p : Char → Bool} {c : Char} {cs : List Char} (h : p c = true) :
    (c :: cs).takeWhile p = c :: cs.takeWhile p := by
  simp [h]

/-- A run that stops at a line break does not see past it. -/
theorem takeWhile_append_newline {p : Char → Bool} (hp : p '\n' = false) (s X : List Char) :
    (s ++ '\n' :: X).takeWhile p = (s ++ ['\n']).takeWhile p := by
  induction s with
  | nil => simp [hp]
  | cons c s ih => by_cases hc : p c = true <;> simp [hc, ih]

theorem dropWhile_append_newline {p : Char → Bool} (hp : p '\n' = false) (s X : List Char) :
    (s ++ '\n' :: X).dropWhile p = (s ++ ['\n']).dropWhile p ++ X := by
  induction s with
  | nil => simp [hp]
  | cons c s ih => by_cases hc : p c = true <;> simp [hc, ih]

/-- What is left after a run in a line is the end of the line, break included. -/
theorem dropWhile_append_newline_eq {p : Char → Bool} (hp : p '\n' = false) {s : List Char}
    (hs : '\n' ∉ s) : ∃ s', '\n' ∉ s' ∧ (s ++ ['\n']).dropWhile p = s' ++ ['\n'] := by
  induction s with
  | nil => exact ⟨[], by simp, by simp [hp]⟩
  | cons c s ih =>
    have hs' : '\n' ∉ s := fun h => hs (List.mem_cons_of_mem c h)
    by_cases hc : p c = true
    · simpa [List.dropWhile_cons, hc] using ih hs'
    · exact ⟨c :: s, hs, by simp [hc]⟩

namespace Lexeme

/-! ## First characters -/

/-- `f` matches nothing at a text that starts with `c`. -/
def Rejects (f : Lexer) (c : Char) : Prop := ∀ cs, f (c :: cs) = none

theorem rejects_single {p : Char → Bool} {c : Char} (h : p c = false) : Rejects (single p) c :=
  fun cs => by simp [single, h]

theorem rejects_run {p : Char → Bool} {c : Char} (h : p c = false) : Rejects (run p) c :=
  fun cs => by simp [run, h]

theorem rejects_word {c : Char} {w : List Char} (h : w.head?.any (· != c) = true) :
    Rejects (word w) c := by
  intro cs
  cases w with
  | nil => simp at h
  | cons a w =>
    have ha : a ≠ c := by simpa using h
    simp [word, List.isPrefixOf, ha]

theorem Rejects.seq {f : Lexer} {c : Char} (g : Lexer) (h : Rejects f c) :
    Rejects (Lexeme.seq f g) c :=
  fun cs => by simp [Lexeme.seq, h cs]

theorem Rejects.first {f g : Lexer} {c : Char} (hf : Rejects f c) (hg : Rejects g c) :
    Rejects (Lexeme.first f g) c :=
  fun cs => by simp [Lexeme.first, hf cs, hg cs]

theorem rejects_identifier {c : Char} (h : isIdentStart c = false) : Rejects identifier c :=
  (rejects_single h).seq _

theorem rejects_label {c : Char} (h : isIdentStart c = false) (ha : c ≠ '@') :
    Rejects label c :=
  ((rejects_single (by simpa using ha)).seq _).first (rejects_identifier h)

theorem rejects_number {c : Char} (hd : c.isDigit = false) (hp : c ≠ '.') : Rejects number c := by
  have hdig : Rejects digits c := rejects_run hd
  exact (hdig.seq _).first ((hdig.seq _).first
    (((rejects_single (by simpa using hp)).seq _).first hdig))

/-- A literal starts with a digit, a point, `$`, `%`, `@`, a letter or underscore, `:`, a
quote or `*`. -/
theorem rejects_literal {c : Char} (hd : c.isDigit = false) (hi : isIdentStart c = false)
    (hs : c ∉ ['.', '$', '%', '@', ':', '\'', '*']) : Rejects literal c := by
  simp only [List.mem_cons, List.not_mem_nil, or_false, not_or] at hs
  obtain ⟨hp, hh, hb, ha, hc, hq, hstar⟩ := hs
  refine (rejects_number hd hp).first ?_
  refine ((rejects_single (by simpa using hh)).seq _).first ?_
  refine ((rejects_single (by simpa using hb)).seq _).first ?_
  refine (rejects_label hi ha).first ?_
  refine ((rejects_single (by simpa using hc)).seq _).first ?_
  exact ((rejects_single (by simpa using hq)).seq _).first (rejects_single (by simpa using hstar))

end Lexeme

namespace Mnemonic

theorem startsCaseless_cons_cons {k c : Char} {w cs : List Char} :
    startsCaseless (k :: w) (c :: cs) = (caselessEq k c && startsCaseless w cs) := by
  simp only [startsCaseless, List.length_cons, List.zip_cons_cons, List.all_cons]
  cases caselessEq k c <;> simp

theorem longestAt_eq_nil {cs : List Char} {ws : List (List Char)}
    (h : ∀ w ∈ ws, startsCaseless w cs = false) : longestAt cs ws = [] := by
  induction ws with
  | nil => rfl
  | cons w ws ih =>
    simp only [List.mem_cons, forall_eq_or_imp] at h
    simp [longestAt, h.1, ih h.2]

/-- No known instruction is matched at a character that none of their first letters matches. -/
theorem lexCaseless_eq_none {c : Char} (hc : known.all (·.head?.all (!caselessEq · c)) = true)
    (cs : List Char) : lexCaseless (c :: cs) = none := by
  have h : ∀ w ∈ known, ∀ k ∈ w.head?, caselessEq k c = false := by
    intro w hw k hk
    have hw' := List.all_eq_true.mp hc w hw
    rw [Option.mem_def.mp hk] at hw'
    simpa using hw'
  have hnil : [] ∉ known := by decide
  have hall : ∀ w ∈ known, startsCaseless w (c :: cs) = false := by
    intro w hw
    match w, hw with
    | k :: w, hw => simp [startsCaseless_cons_cons, h _ hw k rfl]
    | [], hw => exact absurd hw hnil
  simp [lexCaseless, longestAt_eq_nil hall]

end Mnemonic

namespace Terminal

open Lexeme

theorem isBlank_cases {c : Char} (hc : isBlank c = true) : c = ' ' ∨ c = '\t' := by
  simpa [isBlank] using hc

/-- Only runs of blanks, indents and the rest of a line can match at a blank. -/
theorem lex_eq_none_of_isBlank {d : Dialect} {t : Terminal} (ht : t.readsBlanks = false)
    {c : Char} (hc : isBlank c = true) (cs : List Char) : t.lex d (c :: cs) = none := by
  obtain rfl | rfl := isBlank_cases hc <;>
  cases t with
  | blanks | indent | text => simp [readsBlanks] at ht
  | macroKeyword | endmacroKeyword => exact rejects_word (by decide) cs
  | identifier => exact rejects_identifier (by decide) cs
  | label => exact rejects_label (by decide) (by decide) cs
  | literal => exact rejects_literal (by decide) (by decide) (by decide) cs
  | mnemonic =>
    cases d with
    | standard => exact rejects_identifier (by decide) cs
    | colonless => exact Mnemonic.lexCaseless_eq_none (by decide) cs
  | newline | colon | comma | semicolon | dot | hash | selector | openParen | closeParen
  | operator | register | assign => rfl

/-- Where a class that cannot start with a blank matches, the text does not start with one. -/
theorem dropWhile_eq_of_lex {d : Dialect} {t : Terminal} (ht : t.readsBlanks = false)
    {cs w r : List Char} (h : t.lex d cs = some (w, r)) : cs.dropWhile isBlank = cs := by
  cases cs with
  | nil => rfl
  | cons c cs =>
    cases hc : isBlank c
    · simp [hc]
    · rw [lex_eq_none_of_isBlank ht hc] at h
      cases h

theorem matches_of_read {d : Dialect} {t : Terminal} {cs w r : List Char}
    (h : t.read d cs = some (w, r)) : t.Matches d cs w r := by
  unfold read at h
  split at h
  · exact .here h
  · exact .afterBlanks h

theorem head_dropWhile_isBlank {cs x : List Char} {c : Char}
    (hx : cs.dropWhile isBlank = c :: x) : isBlank c = false := by
  have hd := List.head?_dropWhile_not isBlank cs
  rw [hx] at hd
  exact hd

theorem run_eq_some_iff {p : Char → Bool} {cs w r : List Char} :
    run p cs = some (w, r) ↔ cs.head?.any p = true ∧ w = cs.takeWhile p ∧ r = cs.dropWhile p := by
  cases cs with
  | nil => simp [run]
  | cons c cs =>
    by_cases hc : p c = true
    · simp only [run, hc, if_true, Option.some.injEq, Prod.mk.injEq, List.head?_cons,
        Option.any_some, List.takeWhile_cons_of_pos hc, List.dropWhile_cons_of_pos hc, true_and]
      exact and_congr eq_comm eq_comm
    · simp [run, hc]

/-- A run can start earlier, over characters of the run. -/
theorem run_append_of_forall {p : Char → Bool} {b s w r : List Char}
    (hb : ∀ c ∈ b, p c = true) (h : run p s = some (w, r)) : run p (b ++ s) = some (b ++ w, r) := by
  obtain ⟨hs, rfl, rfl⟩ := run_eq_some_iff.mp h
  refine run_eq_some_iff.mpr ⟨?_, by rw [List.takeWhile_append_of_pos hb],
    by rw [List.dropWhile_append_of_pos hb]⟩
  cases b with
  | nil => exact hs
  | cons a b => simp [hb a List.mem_cons_self]

/-- The rest of a line matched after the blanks in front ends where it ends before them. -/
theorem run_text_of_dropWhile {cs w r : List Char}
    (h : run (· != '\n') (cs.dropWhile isBlank) = some (w, r)) :
    ∃ w', run (· != '\n') cs = some (w', r) := by
  have hb : ∀ c ∈ cs.takeWhile isBlank, (c != '\n') = true := by
    intro c hc
    obtain rfl | rfl := isBlank_cases (List.all_eq_true.mp List.all_takeWhile c hc) <;> rfl
  have h' := run_append_of_forall hb h
  rw [List.takeWhile_append_dropWhile] at h'
  exact ⟨_, h'⟩

/-- A match is what the reader reads, except that the rest of a line may be read from before
the blanks that the match skipped. -/
theorem read_of_matches {d : Dialect} {t : Terminal} {cs w r : List Char}
    (h : t.Matches d cs w r) : ∃ w', t.read d cs = some (w', r) ∧ (t ≠ text → w' = w) := by
  cases h with
  | here h =>
    cases ht : t.readsBlanks
    · refine ⟨w, ?_, fun _ => rfl⟩
      simp only [read, ht, Bool.false_eq_true, if_false, dropWhile_eq_of_lex ht h, h]
    · exact ⟨w, by simp [read, ht, h], fun _ => rfl⟩
  | afterBlanks h =>
    cases ht : t.readsBlanks
    · exact ⟨w, by simp [read, ht, h], fun _ => rfl⟩
    · cases t with
      | text =>
        obtain ⟨w', hw'⟩ := run_text_of_dropWhile h
        exact ⟨w', by simpa [read, readsBlanks, lex] using hw', fun h => absurd rfl h⟩
      | blanks | indent =>
        cases hx : cs.dropWhile isBlank with
        | nil => simp [hx, lex, run] at h
        | cons c x =>
          have hc := head_dropWhile_isBlank hx
          have hs : c ≠ ' ' := by
            rintro rfl
            simp [isBlank] at hc
          rw [hx] at h
          simp [lex, run, hc, hs] at h
      | _ => simp [readsBlanks] at ht

theorem matches_iff_read {d : Dialect} {t : Terminal} (ht : t ≠ text) {cs w r : List Char} :
    t.Matches d cs w r ↔ t.read d cs = some (w, r) := by
  refine ⟨fun h => ?_, matches_of_read⟩
  obtain ⟨w', hr, hw⟩ := read_of_matches h
  rwa [hw ht] at hr

end Terminal

/-! ## Line breaks -/

namespace Lexeme

/-- `f` never looks past the first line break: with `s` free of line breaks, matching in
`s ++ '\n' :: X` is matching in `s ++ ['\n']`, with `X` left over as well. -/
def LineLocal (f : Lexer) : Prop :=
  ∀ s X, '\n' ∉ s → f (s ++ '\n' :: X) = (f (s ++ ['\n'])).map fun p => (p.1, p.2 ++ X)

/-- `f` reads a front of the text that holds no line break. -/
structure InLine (f : Lexer) : Prop where
  lineLocal : LineLocal f
  newlineFree : ∀ cs w r, f cs = some (w, r) → '\n' ∉ w
  splits : Splits f

theorem lineLocal_single (p : Char → Bool) : LineLocal (single p) := by
  intro s X _
  cases s with
  | nil => by_cases h : p '\n' = true <;> simp [single, h]
  | cons c s => by_cases h : p c = true <;> simp [single, h]

theorem inLine_single {p : Char → Bool} (hp : p '\n' = false) : InLine (single p) where
  lineLocal := lineLocal_single p
  newlineFree := by
    intro cs w r h
    cases cs with
    | nil => simp [single] at h
    | cons c cs =>
      by_cases hc : p c = true
      · simp only [single, hc, if_true, Option.some.injEq, Prod.mk.injEq] at h
        obtain ⟨rfl, -⟩ := h
        rintro hm
        obtain rfl := List.mem_singleton.mp hm
        rw [hp] at hc
        cases hc
      · simp [single, hc] at h
  splits := (reads_single p).splits

theorem inLine_run {p : Char → Bool} (hp : p '\n' = false) : InLine (run p) where
  lineLocal := by
    intro s X _
    cases s with
    | nil => simp [run, hp]
    | cons c s =>
      by_cases hc : p c = true
      · simp only [List.cons_append, run, hc, if_true, Option.map_some]
        rw [takeWhile_append_newline hp, dropWhile_append_newline hp]
      · simp [run, hc]
  newlineFree := by
    intro cs w r h hm
    obtain ⟨-, rfl, -⟩ := Terminal.run_eq_some_iff.mp h
    have := List.all_eq_true.mp List.all_takeWhile _ hm
    rw [hp] at this
    cases this
  splits := (reads_run p).splits

theorem inLine_many {p : Char → Bool} (hp : p '\n' = false) : InLine (many p) where
  lineLocal := by
    intro s X _
    simp only [many, Option.map_some]
    rw [takeWhile_append_newline hp, dropWhile_append_newline hp]
  newlineFree := by
    intro cs w r h hm
    simp only [many, Option.some.injEq, Prod.mk.injEq] at h
    obtain ⟨rfl, -⟩ := h
    have := List.all_eq_true.mp List.all_takeWhile _ hm
    rw [hp] at this
    cases this
  splits := splits_many p

theorem word_cons_cons {a c : Char} {w cs : List Char} :
    word (a :: w) (c :: cs) = if a = c then (word w cs).map fun p => (a :: p.1, p.2) else none := by
  by_cases h : a = c
  · subst h
    by_cases hp : w.isPrefixOf cs = true <;> simp [word, List.isPrefixOf, hp]
  · simp [word, List.isPrefixOf, h]

theorem inLine_word {w : List Char} (hw : '\n' ∉ w) (hne : w ≠ []) : InLine (word w) where
  lineLocal := by
    intro s X _
    induction w generalizing s with
    | nil => simp [word]
    | cons a w ih =>
      have ha : a ≠ '\n' := fun h => hw (h ▸ List.mem_cons_self)
      cases s with
      | nil => simp [word_cons_cons, ha]
      | cons c s =>
        simp only [List.cons_append, word_cons_cons]
        split
        · cases w with
          | nil => simp [word]
          | cons b w =>
            rw [ih (fun h => hw (List.mem_cons_of_mem a h)) (List.cons_ne_nil b w) s (by simp_all)]
            simp [Option.map_map, Function.comp_def]
        · rfl
  newlineFree := by
    intro cs v r h
    obtain ⟨-, he⟩ := reads_word hne cs v r h
    by_cases hp : w.isPrefixOf cs = true
    · simp only [word, hp, if_true, Option.some.injEq, Prod.mk.injEq] at h
      obtain ⟨rfl, -⟩ := h
      exact hw
    · simp [word, hp] at h
  splits := (reads_word hne).splits

/-- What is left after a lexeme free of line breaks, read in a line, is the end of the line,
break included. -/
theorem rest_of_line {s w r : List Char} (hs : '\n' ∉ s) (hw : '\n' ∉ w)
    (h : w ++ r = s ++ ['\n']) : ∃ s', '\n' ∉ s' ∧ r = s' ++ ['\n'] := by
  obtain ⟨s', rfl, rfl⟩ | ⟨w', rfl, hw'⟩ := List.append_eq_append_iff.mp h
  · exact ⟨s', fun h => hs (List.mem_append_right w h), rfl⟩
  · cases w' with
    | nil => exact ⟨[], by simp, by simpa using hw'.symm⟩
    | cons c w' =>
      have hc : c = '\n' := by simpa using (congrArg List.head? hw').symm
      exact absurd (List.mem_append_right s (hc ▸ List.mem_cons_self)) hw

theorem InLine.seq {f g : Lexer} (hf : InLine f) (hg : InLine g) : InLine (Lexeme.seq f g) where
  lineLocal := by
    intro s X hs
    simp only [Lexeme.seq, hf.lineLocal s X hs]
    cases hfs : f (s ++ ['\n']) with
    | none => rfl
    | some p =>
      obtain ⟨a, r⟩ := p
      obtain ⟨s', hs', rfl⟩ :=
        rest_of_line hs (hf.newlineFree _ a r hfs) (hf.splits _ a r hfs)
      simp only [Option.map_some, Option.bind_some, List.append_assoc, List.cons_append,
        List.nil_append, hg.lineLocal s' X hs']
      cases g (s' ++ ['\n']) <;> simp
  newlineFree := by
    intro cs w r h
    obtain ⟨a, m, b, h₁, h₂, rfl⟩ := seq_eq_some h
    simp only [List.mem_append, not_or]
    exact ⟨hf.newlineFree _ _ _ h₁, hg.newlineFree _ _ _ h₂⟩
  splits := splits_seq hf.splits hg.splits

theorem InLine.first {f g : Lexer} (hf : InLine f) (hg : InLine g) :
    InLine (Lexeme.first f g) where
  lineLocal := by
    intro s X hs
    simp only [Lexeme.first, hf.lineLocal s X hs, hg.lineLocal s X hs]
    cases f (s ++ ['\n']) <;> simp
  newlineFree := by
    intro cs w r h
    cases hc : f cs with
    | none =>
      simp only [Lexeme.first, hc, Option.none_or] at h
      exact hg.newlineFree _ _ _ h
    | some p =>
      simp only [Lexeme.first, hc, Option.some_or] at h
      exact hf.newlineFree _ _ _ (hc.trans h)
  splits := by
    intro cs w r h
    cases hc : f cs with
    | none =>
      simp only [Lexeme.first, hc, Option.none_or] at h
      exact hg.splits _ _ _ h
    | some p =>
      simp only [Lexeme.first, hc, Option.some_or] at h
      exact hf.splits _ _ _ (hc.trans h)

theorem InLine.opt {f : Lexer} (hf : InLine f) : InLine (Lexeme.opt f) where
  lineLocal := by
    intro s X hs
    simp only [Lexeme.opt, hf.lineLocal s X hs]
    cases f (s ++ ['\n']) <;> simp
  newlineFree := by
    intro cs w r h
    cases hc : f cs with
    | none =>
      simp only [Lexeme.opt, hc, Option.none_or, Option.some.injEq, Prod.mk.injEq] at h
      obtain ⟨rfl, -⟩ := h
      simp
    | some p =>
      simp only [Lexeme.opt, hc, Option.some_or] at h
      exact hf.newlineFree _ _ _ (hc.trans h)
  splits := splits_opt hf.splits

theorem inLine_char {c : Char} (hc : c ≠ '\n') : InLine (char c) :=
  inLine_single (by simpa using fun h => hc h.symm)

theorem inLine_identifier : InLine identifier :=
  (inLine_single (by decide)).seq (inLine_many (by decide))

theorem inLine_label : InLine label :=
  ((inLine_char (by decide)).seq (inLine_run (by decide))).first inLine_identifier

theorem inLine_number : InLine number := by
  have hd : InLine digits := inLine_run (by decide)
  have he : InLine exponent :=
    (inLine_single (by decide)).seq ((inLine_single (by decide)).opt.seq hd)
  exact (hd.seq he).first ((hd.seq ((inLine_char (by decide)).seq (hd.opt.seq he.opt))).first
    (((inLine_char (by decide)).seq (hd.seq he.opt)).first hd))

theorem inLine_literal : InLine literal := by
  refine inLine_number.first (((inLine_char (by decide)).seq (inLine_run (by decide))).first ?_)
  refine ((inLine_char (by decide)).seq (inLine_run (by decide))).first (inLine_label.first ?_)
  refine ((inLine_char (by decide)).seq (inLine_run (by decide))).first ?_
  exact ((inLine_char (by decide)).seq ((inLine_single (by decide)).seq
    (inLine_char (by decide)))).first (inLine_char (by decide))

theorem inLine_assign : InLine assign :=
  (inLine_char (by decide)).first ((inLine_char (by decide)).seq (inLine_char (by decide)))

end Lexeme

namespace Mnemonic

open Lexeme

/-- No letter or digit of a known instruction matches a line break. -/
theorem caselessEq_newline : ∀ w ∈ known, ∀ k ∈ w, caselessEq k '\n' = false := by
  -- decided as a Boolean: a decision procedure for `∀ k ∈ w` may range over every character
  simpa using (by decide : known.all (·.all (!caselessEq · '\n')) = true)

theorem startsCaseless_append_newline {w : List Char} (hw : ∀ k ∈ w, caselessEq k '\n' = false)
    (s X : List Char) : startsCaseless w (s ++ '\n' :: X) = startsCaseless w (s ++ ['\n']) := by
  induction w generalizing s with
  | nil => simp [startsCaseless]
  | cons k w ih =>
    cases s with
    | nil => simp [startsCaseless_cons_cons, hw k List.mem_cons_self]
    | cons c s =>
      simp only [List.cons_append, startsCaseless_cons_cons,
        ih (fun k hk => hw k (List.mem_cons_of_mem _ hk))]

theorem length_le_of_startsCaseless_newline {w s : List Char}
    (hw : ∀ k ∈ w, caselessEq k '\n' = false)
    (h : startsCaseless w (s ++ ['\n']) = true) : w.length ≤ s.length := by
  induction w generalizing s with
  | nil => simp
  | cons k w ih =>
    cases s with
    | nil => simp [startsCaseless_cons_cons, hw k List.mem_cons_self] at h
    | cons c s =>
      simp only [List.cons_append, startsCaseless_cons_cons, Bool.and_eq_true] at h
      simpa using ih (fun k hk => hw k (List.mem_cons_of_mem _ hk)) h.2

theorem newline_not_mem_take {w cs : List Char} (hw : ∀ k ∈ w, caselessEq k '\n' = false)
    (h : startsCaseless w cs = true) : '\n' ∉ cs.take w.length := by
  induction w generalizing cs with
  | nil => simp
  | cons k w ih =>
    cases cs with
    | nil => simp [startsCaseless] at h
    | cons c cs =>
      simp only [startsCaseless_cons_cons, Bool.and_eq_true] at h
      have hc : c ≠ '\n' := by
        rintro rfl
        rw [hw k List.mem_cons_self] at h
        exact Bool.false_ne_true h.1
      simp only [List.length_cons, List.take_succ_cons, List.mem_cons, not_or]
      exact ⟨fun e => hc e.symm, ih (fun k hk => hw k (List.mem_cons_of_mem _ hk)) h.2⟩

theorem longestAt_append_newline {ws : List (List Char)}
    (hws : ∀ w ∈ ws, ∀ k ∈ w, caselessEq k '\n' = false) (s X : List Char) :
    longestAt (s ++ '\n' :: X) ws = longestAt (s ++ ['\n']) ws := by
  induction ws with
  | nil => rfl
  | cons w ws ih =>
    simp only [longestAt, startsCaseless_append_newline (hws w List.mem_cons_self),
      ih (fun w hw => hws w (List.mem_cons_of_mem _ hw))]

theorem longestAt_eq_nil_or_mem (cs : List Char) (ws : List (List Char)) :
    longestAt cs ws = [] ∨ longestAt cs ws ∈ ws := by
  induction ws with
  | nil => exact Or.inl rfl
  | cons w ws ih =>
    simp only [longestAt]
    split
    · exact Or.inr List.mem_cons_self
    · exact ih.imp id (List.mem_cons_of_mem w)

theorem inLine_lexCaseless : InLine lexCaseless where
  lineLocal := by
    intro s X _
    simp only [lexCaseless, longestAt_append_newline caselessEq_newline]
    have hs := longestAt_eq_nil_or (s ++ ['\n']) known
    have hm := longestAt_eq_nil_or_mem (s ++ ['\n']) known
    generalize longestAt (s ++ ['\n']) known = w at hs hm
    cases w with
    | nil => rfl
    | cons k w =>
      have hmem := hm.resolve_left (List.cons_ne_nil k w)
      have hlen := length_le_of_startsCaseless_newline (caselessEq_newline _ hmem)
        (hs.resolve_left (List.cons_ne_nil k w))
      simp only [List.length_cons] at hlen
      simp [List.take_append_of_le_length hlen, List.drop_append_of_le_length hlen]
  newlineFree := by
    intro cs w r h
    have hs := longestAt_eq_nil_or cs known
    have hm := longestAt_eq_nil_or_mem cs known
    simp only [lexCaseless] at h
    generalize longestAt cs known = v at hs hm h
    cases v with
    | nil => cases h
    | cons k v =>
      simp only [Option.some.injEq, Prod.mk.injEq] at h
      obtain ⟨rfl, -⟩ := h
      exact newline_not_mem_take (caselessEq_newline _ (hm.resolve_left (List.cons_ne_nil k v)))
        (hs.resolve_left (List.cons_ne_nil k v))
  splits := fun _ _ _ h => (lexCaseless_spec h).2

end Mnemonic

namespace Terminal

open Lexeme

/-- Every class but the line break reads within a line. -/
theorem inLine_lex (d : Dialect) {t : Terminal} (ht : t ≠ newline) : InLine (t.lex d) := by
  cases t with
  | newline => exact absurd rfl ht
  | colon | comma | semicolon | dot | hash | openParen | closeParen => exact inLine_char (by decide)
  | selector | operator | register => exact inLine_single (by decide)
  | macroKeyword | endmacroKeyword => exact inLine_word (by decide) (by decide)
  | assign => exact inLine_assign
  | identifier => exact inLine_identifier
  | label => exact inLine_label
  | literal => exact inLine_literal
  | mnemonic =>
    cases d with
    | standard => exact inLine_identifier
    | colonless => exact Mnemonic.inLine_lexCaseless
  | blanks | indent | text => exact inLine_run (by decide)

theorem lineLocal_lex (d : Dialect) (t : Terminal) : LineLocal (t.lex d) := by
  by_cases ht : t = newline
  · subst ht
    exact lineLocal_single _
  · exact (inLine_lex d ht).lineLocal

/-- A match in a line does not depend on the lines after it. -/
theorem matches_append_newline {d : Dialect} {t : Terminal} {s X w r : List Char}
    (hs : '\n' ∉ s) :
    t.Matches d (s ++ '\n' :: X) w r ↔ ∃ r', r = r' ++ X ∧ t.Matches d (s ++ ['\n']) w r' := by
  have hd := dropWhile_append_newline (p := isBlank) (by decide) s X
  obtain ⟨s', hs', he⟩ := dropWhile_append_newline_eq (p := isBlank) (by decide) hs
  rw [he, List.append_assoc, List.cons_append, List.nil_append] at hd
  have h₁ := lineLocal_lex d t s X hs
  have h₂ := lineLocal_lex d t s' X hs'
  constructor
  · intro h
    cases h with
    | here h =>
      rw [h₁, Option.map_eq_some_iff] at h
      obtain ⟨⟨w', r'⟩, hl, he'⟩ := h
      simp only [Prod.mk.injEq] at he'
      obtain ⟨rfl, rfl⟩ := he'
      exact ⟨r', rfl, .here hl⟩
    | afterBlanks h =>
      rw [hd, h₂, Option.map_eq_some_iff] at h
      obtain ⟨⟨w', r'⟩, hl, he'⟩ := h
      simp only [Prod.mk.injEq] at he'
      obtain ⟨rfl, rfl⟩ := he'
      exact ⟨r', rfl, .afterBlanks (by rw [he]; exact hl)⟩
  · rintro ⟨r', rfl, h⟩
    cases h with
    | here h => exact .here (by rw [h₁, h]; rfl)
    | afterBlanks h =>
      rw [he] at h
      exact .afterBlanks (by rw [hd, h₂, h]; rfl)

end Terminal

end AsmTidy
