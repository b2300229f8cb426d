import Mathlib
import AsmTidy.Proofs.Preference
import AsmTidy.Proofs.Content

/-!
# Where comments go

A comment is printed as `; ` and its text trimmed, and the printed line is then trimmed on the
right. Where the comment stands depends on what is before it on the line.

**Alone on its line.** The comment is indented by 8 exactly when its source line begins with
a space, and not at all otherwise, also where the line begins with a tab. The reader keeps a
run of spaces in front of a semicolon as the comment's indent, and prefers that reading to the
one that skips the same spaces as blanks (`Comment.read`); a tab never starts an indent. So the
first reading of a line that holds only a comment is indented exactly where the line begins
with a space (`Line.indented_iff_of_best?`).

**After code.** Only spaces stand between the code and the semicolon, which is at column 24
of the code's last printed line, or right after the code where that line is longer
(`Layout.line_of_head`). The last line of the code is what follows the line break that a long
label puts before its statement.

Main result: `format_places_comments`, for every line of every text the tidier accepts.
-/

namespace AsmTidy

open Text

/-! ## Trimming on the right -/

namespace Text

theorem trimRight_append {xs ys : List Char} (h : trimRight ys ≠ []) :
    trimRight (xs ++ ys) = xs ++ trimRight ys := by
  have h' : (ys.reverse.dropWhile isSpace).isEmpty = false := by
    simpa [trimRight] using h
  simp [trimRight, List.dropWhile_append, h']

theorem trimRight_trimRight (cs : List Char) : trimRight (trimRight cs) = trimRight cs := by
  simp [trimRight, List.dropWhile_idempotent]

/-- A semicolon, a space and a trimmed text, trimmed on the right: all three, or the semicolon
alone where the text is empty. -/
theorem trimRight_note (cs : List Char) :
    trimRight (';' :: ' ' :: trim cs) = if trim cs = [] then [';'] else ';' :: ' ' :: trim cs := by
  split
  · next h =>
    rw [h]
    decide
  · next h =>
    have htrim : trimRight (trim cs) = trim cs := trimRight_trimRight _
    rw [show ';' :: ' ' :: trim cs = [';', ' '] ++ trim cs from rfl,
      trimRight_append (by rwa [htrim]), htrim]

theorem trimRight_note_ne_nil (cs : List Char) : trimRight (';' :: ' ' :: trim cs) ≠ [] := by
  rw [trimRight_note]
  split <;> simp

end Text

/-- Spaces added to a text widen its last line. -/
theorem lastLineWidth_append_spaces (cs : List Char) (n : Nat) :
    lastLineWidth (cs ++ spaces n) = lastLineWidth cs + n := by
  simp only [lastLineWidth, List.reverse_append, spaces, List.reverse_replicate]
  rw [List.takeWhile_append_of_pos fun a ha => by rw [List.eq_of_mem_replicate ha]; rfl]
  simp [Nat.add_comm]

/-! ## Printing a line with a comment -/

namespace Layout

variable (L : Layout)

theorem label_ne_nil (l : Label) : L.label l ≠ [] := by
  cases l <;> simp [label]

theorem toCodeColumn_ne_nil (before : List Char) : L.toCodeColumn before ≠ [] := by
  unfold toCodeColumn
  split
  · simp [spaces]
    omega
  · simp

theorem statement_ne_nil (before : List Char) (s : Statement) : L.statement before s ≠ [] := by
  cases s with
  | instruction m ops => simp [L.toCodeColumn_ne_nil before]
  | macroStart name params => simp [padRight]
  | macroEnd => simp
  | command c => simp

/-- Every head prints something. -/
theorem head_ne_nil (h : Head) : L.head h ≠ [] := by
  cases h with
  | statement l s =>
    cases l with
    | none => exact L.statement_ne_nil [] s
    | some l => simp [head, L.label_ne_nil l]
  | label l => exact L.label_ne_nil l
  | numeric name c => simp [head, padRight]
  | constant name assign value => simp [head]

/-- A comment alone on its line is indented by the code column where the source indents it. -/
theorem line_of_comment (c : Comment) :
    L.line ⟨none, some c⟩ = (if c.indented then spaces L.codeColumn else []) ++
      trimRight (';' :: ' ' :: trim (c.text.getD [])) := by
  simp only [line, comment, Option.map_none, Option.getD_none, if_true]
  rw [trimRight_append (trimRight_note_ne_nil _)]

/-- A comment after code: spaces up to the comment column, or none where the code's last line
reaches it, and then the comment. -/
theorem line_of_head (h : Head) (c : Comment) :
    L.line ⟨some h, some c⟩ = L.head h ++ spaces (L.commentColumn - lastLineWidth (L.head h)) ++
      trimRight (';' :: ' ' :: trim (c.text.getD [])) := by
  simp only [line, comment, Option.map_some, Option.getD_some, if_neg (L.head_ne_nil h)]
  rw [← trimRight_note, trimRight_append (by rw [trimRight_trimRight]; exact trimRight_note_ne_nil _),
    trimRight_trimRight]

end Layout

/-! ## The indent of a comment -/

theorem dropWhile_isBlank_dropWhile_space (cs : List Char) :
    (cs.dropWhile (· == ' ')).dropWhile isBlank = cs.dropWhile isBlank := by
  induction cs with
  | nil => rfl
  | cons c cs ih =>
    by_cases hc : c = ' '
    · subst hc
      simpa [isBlank] using ih
    · simp [hc]

namespace Comment

variable {d : Dialect}

/-- The semicolon is looked for after the blanks in front, so reading a comment from a text is
reading it from where the blanks end; the flag only marks the comment indented. -/
theorem results_readFrom (ind : Bool) (cs : List Char) :
    (readFrom d ind cs).results =
      (readFrom d false (cs.dropWhile isBlank)).results.map fun p => (⟨ind, p.1.text⟩, p.2) := by
  have hsemi : (Terminal.attempt d .semicolon (cs.dropWhile isBlank)).results =
      (Terminal.attempt d .semicolon cs).results := by
    simp [Terminal.results_attempt, Terminal.read, Terminal.readsBlanks, List.dropWhile_idempotent]
  simp only [readFrom, Reading.results_andThen, hsemi, List.map_flatMap]
  simp [Function.comp_def]

/-- A text that begins with a space is read as an indented comment first, and then as the
same comment not indented. -/
theorem results_read_of_space (t : List Char) :
    (read d (' ' :: t)).results =
      (readFrom d false (' ' :: t)).results.map (fun p => (⟨true, p.1.text⟩, p.2)) ++
        (readFrom d false (' ' :: t)).results := by
  have hind : (Terminal.attempt d .indent (' ' :: t)).results =
      [(' ' :: t.takeWhile (· == ' '), t.dropWhile (· == ' '))] := by
    simp [Terminal.results_attempt, Terminal.read, Terminal.readsBlanks, Terminal.lex, Lexeme.run]
  rw [read, Reading.results_append, Reading.results_andThen, hind, List.flatMap_singleton,
    results_readFrom, results_readFrom false (' ' :: t)]
  have hdrop : (t.dropWhile (· == ' ')).dropWhile isBlank = (' ' :: t).dropWhile isBlank := by
    rw [dropWhile_isBlank_dropWhile_space]
    simp [isBlank]
  simp [hdrop]

/-- A text that does not begin with a space has no indent. -/
theorem results_read_of_not_space {cs : List Char} (hc : cs.head? ≠ some ' ') :
    (read d cs).results = (readFrom d false cs).results := by
  have hind : (Terminal.attempt d .indent cs).results = [] := by
    cases cs with
    | nil => simp [Terminal.results_attempt, Terminal.read, Terminal.readsBlanks, Terminal.lex,
        Lexeme.run]
    | cons c t =>
      have : c ≠ ' ' := fun h => hc (by simp [h])
      simp [Terminal.results_attempt, Terminal.read, Terminal.readsBlanks, Terminal.lex,
        Lexeme.run, this]
  simp [read, Reading.results_andThen, hind]

theorem indented_of_mem_readFrom {ind : Bool} {cs : List Char} {p : Comment × List Char}
    (hp : p ∈ (readFrom d ind cs).results) : p.1.indented = ind := by
  rw [results_readFrom] at hp
  obtain ⟨q, -, rfl⟩ := List.mem_map.mp hp
  rfl

/-- Each comment read is indented exactly where the text begins with a space, or comes after
the indented comment that leaves the same text. -/
theorem covered_read (cs : List Char) :
    Covered (fun p : Comment × List Char => p.1.indented = true ↔ cs.head? = some ' ')
      (fun y x => y.2 = x.2) [] (read d cs).results := by
  by_cases hc : cs.head? = some ' '
  · obtain ⟨t, rfl⟩ : ∃ t, cs = ' ' :: t := by
      cases cs with
      | nil => simp at hc
      | cons c t => exact ⟨t, by simpa using hc⟩
    rw [results_read_of_space]
    refine Covered.append (Covered.of_forall fun p hp => ?_) (Covered.of_forall_before fun x hx _ => ?_)
    · obtain ⟨q, -, rfl⟩ := List.mem_map.mp hp
      simp
    · -- the comment read without its indent is read with it first
      refine ⟨(⟨true, x.1.text⟩, x.2), List.mem_append_right _ (List.mem_map_of_mem hx), by simp, rfl⟩
  · rw [results_read_of_not_space hc]
    exact Covered.of_forall fun p hp => by simp [indented_of_mem_readFrom hp, hc]

end Comment

namespace Line

variable {d : Dialect}

theorem exists_head_of_mem_readEnding {heads : Reading (Option Head)} {q : Line × List Char}
    (hq : q ∈ (readEnding d heads).results) : ∃ p ∈ heads.results, q.1.head = p.1 := by
  rw [results_readEnding, List.mem_append, List.mem_flatMap, List.mem_flatMap] at hq
  rcases hq with ⟨p, hp, hq⟩ | ⟨p, hp, hq⟩
  · exact ⟨p, hp, head_of_mem_ending (Or.inl hq)⟩
  · exact ⟨p, hp, head_of_mem_ending (Or.inr hq)⟩

/-- The first reading of a line that holds only a comment is indented exactly where the line
begins with a space. -/
theorem indented_iff_of_best? {cs : List Char} {l : Line} (hb : (read d cs).best? = some l)
    (hh : l.head = none) {c : Comment} (hc : l.comment = some c) :
    c.indented = true ↔ cs.head? = some ' ' := by
  refine Reading.best?_of_covered (P := fun l : Line => l.head = none → ∀ c, l.comment = some c →
    (c.indented = true ↔ cs.head? = some ' ')) (T := fun _ _ => True) (covered_read fun heads hf => ?_)
    hb hh c hc
  simp only [List.mem_append, List.mem_map, List.mem_singleton] at hf
  rcases hf with ⟨heads, -, rfl⟩ | rfl
  · -- the other forms read a head
    refine Covered.of_forall fun q hq hnone => ?_
    obtain ⟨⟨oh, r⟩, hp, hqp⟩ := exists_head_of_mem_readEnding hq
    obtain ⟨h, -, rfl⟩ := Reading.mem_map.mp hp
    simp [hqp] at hnone
  · rw [results_readEnding]
    simp only [Reading.results_found, List.flatMap_singleton]
    refine Covered.append ?_ (Covered.of_nil (Covered.of_forall fun ⟨l, rest⟩ hq _ c hc => ?_))
    · rw [Reading.results_andThen]
      refine Covered.flatMap (fun _ => trivial) (fun _ _ _ _ _ => trivial) (Comment.covered_read cs)
        (fun a ha => Covered.of_forall fun ⟨l, rest⟩ hq _ c hc => ?_) ?_
      · obtain ⟨_, _, rfl⟩ := Reading.mem_map.mp hq
        cases hc
        exact ha
      · -- a comment that leaves the same text is ended by the same line break
        rintro ⟨cy, ry⟩ ⟨cx, rx⟩ (rfl : ry = rx) - - ⟨l, rest⟩ hz
        obtain ⟨u, hu, rfl⟩ := Reading.mem_map.mp hz
        exact ⟨(⟨none, some cy⟩, rest), Reading.mem_map.mpr ⟨u, hu, rfl⟩, trivial⟩
    · obtain ⟨_, _, rfl⟩ := Reading.mem_map.mp hq
      cases hc

end Line

/-! ## Every comment of an accepted text -/

/-- How a comment `c` of the line `l`, read from the source line `s`, stands in the printed
line. It is printed as `; ` and its text trimmed, trimmed on the right. Alone on its line, it
is indented by 8 exactly where `s` begins with a space. After code, only spaces stand between
the code and the semicolon, which is at column 24 of the code's last line, or right after the
code where that line is longer. -/
def CommentPlaced (s : List Char) (l : Line) (c : Comment) (printed : List Char) : Prop :=
  let note := trimRight (';' :: ' ' :: trim (c.text.getD []))
  match l.head with
  | none => printed = (if s.head? = some ' ' then spaces 8 else []) ++ note
  | some h => ∃ pad, pad.all (· == ' ') ∧ printed = Layout.tidy.head h ++ pad ++ note ∧
      lastLineWidth (Layout.tidy.head h ++ pad) = max 24 (lastLineWidth (Layout.tidy.head h))

theorem Line.commentPlaced_of_best? {d : Dialect} {s : List Char} {l : Line}
    (hb : (read d (s ++ ['\n'])).best? = some l) {c : Comment} (hc : l.comment = some c) :
    CommentPlaced s l c (Layout.tidy.line l) := by
  obtain ⟨oh, oc⟩ := l
  obtain rfl : oc = some c := hc
  cases oh with
  | none =>
    have hind := indented_iff_of_best? hb rfl rfl
    have hhead : (s ++ ['\n']).head? = some ' ' ↔ s.head? = some ' ' := by
      cases s <;> simp
    simp only [CommentPlaced, Layout.line_of_comment]
    by_cases hs : s.head? = some ' '
    · simp [hind.mpr (hhead.mpr hs), hs, Layout.tidy]
    · have : c.indented = false := by
        cases hi : c.indented
        · rfl
        · exact absurd (hhead.mp (hind.mp hi)) hs
      simp [this, hs]
  | some h =>
    refine ⟨spaces (24 - lastLineWidth (Layout.tidy.head h)), by simp [spaces], ?_, ?_⟩
    · exact Layout.tidy.line_of_head h c
    · rw [lastLineWidth_append_spaces]
      omega

/-- Every comment of a text that the tidier accepts is printed as `; ` and its text trimmed,
with the line trimmed on the right. A comment alone on its line is indented by 8 exactly where
its source line begins with a space (not where it begins with a tab). A comment after code has
its semicolon at column `max 24 w` of the code's last printed line, `w` being that line's
width, with only spaces before it. -/
theorem format_places_comments (d : Dialect) {t out : List Char}
    (h : Source.format d t = .ok out) :
    ∃ (lines : List (List Char × Line)) (tail : List Char),
      t = lines.flatMap (fun p => p.1 ++ ['\n']) ++ tail ∧ tail.all isBlank ∧
      out = lines.flatMap (fun p => Layout.tidy.line p.2 ++ ['\n']) ∧
      ∀ p ∈ lines, '\n' ∉ p.1 ∧ (Line.read d (p.1 ++ ['\n'])).best? = some p.2 ∧
        ∀ c ∈ p.2.comment, CommentPlaced p.1 p.2 c (Layout.tidy.line p.2) := by
  obtain ⟨lines, tail, ht, hb, hout, hall⟩ := Source.exists_lines_of_format_eq_ok h
  refine ⟨lines, tail, ht, hb, hout, fun p hp => ?_⟩
  obtain ⟨hs, hbest⟩ := hall p hp
  exact ⟨hs, hbest, fun c hc => Line.commentPlaced_of_best? hbest hc⟩

theorem format_places_indented_and_trailing_comments :
    ∃ (lines : List (List Char × Line)) (tail : List Char),
      " ; note\nlonglabel: lda #1 ; c\n".toList =
        lines.flatMap (fun p => p.1 ++ ['\n']) ++ tail ∧ tail.all isBlank ∧
      "        ; note\nlonglabel:\n        LDA #1          ; c\n".toList =
        lines.flatMap (fun p => Layout.tidy.line p.2 ++ ['\n']) ∧
      ∀ p ∈ lines, '\n' ∉ p.1 ∧ (Line.read .standard (p.1 ++ ['\n'])).best? = some p.2 ∧
        ∀ c ∈ p.2.comment, CommentPlaced p.1 p.2 c (Layout.tidy.line p.2) :=
  format_places_comments .standard (Source.format_eq_ok_of_toOption (by decide +kernel))

end AsmTidy
