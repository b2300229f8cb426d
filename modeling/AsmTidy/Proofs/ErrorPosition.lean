import Mathlib
import AsmTidy.Proofs.LineFrontier
import AsmTidy.Proofs.Acceptance

/-!
# Where a text is rejected

The tidier reads a text line by line and stops at the first line it cannot read, at that
line's frontier (`Source.formatLines`). This module shows that this is where the text as a
whole stops: the error stands at the furthest point that any partial parse of the text
consumes, and names the character there, or the end of the text.

**Partial parses of a text.** The lexemes of a text are those of any number of lines
(`Source.words`). A partial parse lexes a front part of such a word from the text
(`Reaches`); it consumes the characters it does not leave (`Source.Consumes`).

**Line by line.** No lexeme but the line break crosses the end of a line, and every line ends
with one. So a partial parse that gets past a line has read it whole, and one that stops in a
line stops where a partial parse of the line alone does.

* After a line that can be read, the partial parses of the text are those of the rest of it,
  and some that stop in the line and so get less far (`isLeast_reaches_append_line`).
* In a line that cannot be read every partial parse stops, and the furthest gets to the
  line's frontier (`isLeast_reaches_of_best?_eq_none`, `isLeast_reaches_of_newline_not_mem`).

Main result:

* `format_error_at_furthest_parse`: when the tidier rejects a text, the error is at the
  furthest point that a partial parse of the text consumes.
-/

namespace AsmTidy

open Text

/-! ## Positions in a text -/

namespace ParseError

/-- The error at position `p` of the text `t`: the end of the text, or the character at `p`
with its line and column, both counted from 1. -/
def atPosition (t : List Char) (p : Nat) : ParseError :=
  match t.drop p with
  | [] => unexpectedEnd
  | c :: _ => unexpectedCharacter ((t.take p).count '\n' + 1)
      (((t.take p).reverse.takeWhile (· != '\n')).length + 1) c

@[simp] theorem shift_zero (e : ParseError) : e.shift 0 = e := by
  cases e <;> rfl

theorem shift_shift (e : ParseError) (j k : Nat) : (e.shift j).shift k = e.shift (j + k) := by
  cases e <;> simp [shift, Nat.add_assoc]

theorem takeWhile_append_newline_cons {p : Char → Bool} (hp : p '\n' = false) (s X : List Char) :
    (s ++ '\n' :: X).takeWhile p = s.takeWhile p := by
  induction s with
  | nil => simp [hp]
  | cons c s ih => by_cases hc : p c = true <;> simp [hc, ih]

/-- A position past the first line break is one line further down than in the rest of the
text, at the same column. -/
theorem atPosition_append_line {s : List Char} (hs : '\n' ∉ s) (X : List Char) (j : Nat) :
    atPosition (s ++ '\n' :: X) (s.length + 1 + j) = (atPosition X j).shift 1 := by
  have hsplit : s ++ '\n' :: X = (s ++ ['\n']) ++ X := by simp
  have hlen : s.length + 1 + j = (s ++ ['\n']).length + j := by simp
  unfold atPosition
  rw [hsplit, hlen, List.drop_length_add_append, List.take_length_add_append]
  cases X.drop j with
  | nil => rfl
  | cons c _ =>
    have hcol : ((s ++ ['\n'] ++ X.take j).reverse.takeWhile (· != '\n')) =
        (X.take j).reverse.takeWhile (· != '\n') := by
      simpa using takeWhile_append_newline_cons (p := (· != '\n')) rfl (X.take j).reverse s.reverse
    simp only [List.count_append, List.count_eq_zero_of_not_mem hs, hcol, shift,
      List.count_singleton_self]
    congr 1
    omega

/-- Inside a line, the error a reading of the line reports from how much of the line it
leaves is the error at that place of any text in which the line comes first, as long as it
is not the end of the line. -/
theorem atFrontier_eq_atPosition {line Y : List Char} {f : Nat} (hf : f ≤ line.length)
    (hn : '\n' ∉ line.take (line.length - f)) (hY : f = 0 → Y = []) :
    atFrontier 1 line f = atPosition (line ++ Y) (line.length - f) := by
  have hp : line.length - f ≤ line.length := Nat.sub_le _ _
  unfold atFrontier atPosition
  rw [List.drop_append_of_le_length hp, List.take_append_of_le_length hp]
  rcases Nat.eq_zero_or_pos f with rfl | hpos
  · rw [hY rfl]
    simp
  · obtain ⟨c, cs, hc⟩ := List.exists_cons_of_ne_nil
      (show line.drop (line.length - f) ≠ [] by simp; omega)
    have hcol : (line.take (line.length - f)).reverse.takeWhile (· != '\n') =
        (line.take (line.length - f)).reverse :=
      List.takeWhile_eq_self_iff.mpr fun x hx => by
        have : x ≠ '\n' := fun h => hn (h ▸ List.mem_reverse.mp hx)
        simpa using this
    rw [hc]
    simp [List.count_eq_zero_of_not_mem hn, hcol, hp]

/-- The place `k` characters before the end of what follows a line, in the whole text and in
the rest of it. -/
theorem atPosition_append_line_shift {s X : List Char} (hs : '\n' ∉ s) {k : Nat}
    (hk : k ≤ X.length) (n : Nat) :
    (atPosition (s ++ '\n' :: X) ((s ++ '\n' :: X).length - k)).shift n =
      (atPosition X (X.length - k)).shift (n + 1) := by
  have hpos : (s ++ '\n' :: X).length - k = s.length + 1 + (X.length - k) := by
    simp only [List.length_append, List.length_cons]
    omega
  rw [hpos, atPosition_append_line hs, shift_shift, Nat.add_comm 1 n]

/-- The error that a line numbered `n + 1` reports `f` characters before its end, the line
break at least, is at that place of the text the line starts. -/
theorem atFrontier_line_eq {s X : List Char} {f : Nat} (hs : '\n' ∉ s) (h1 : 1 ≤ f)
    (hf : f ≤ (s ++ ['\n']).length) (n : Nat) :
    atFrontier (n + 1) (s ++ ['\n']) f =
      (atPosition (s ++ '\n' :: X) ((s ++ '\n' :: X).length - (f + X.length))).shift n := by
  have hline : (s ++ ['\n']).length = s.length + 1 := by simp
  have hpos : (s ++ '\n' :: X).length - (f + X.length) = (s ++ ['\n']).length - f := by
    simp only [List.length_append, List.length_cons, List.length_nil]
    omega
  have hn : '\n' ∉ (s ++ ['\n']).take ((s ++ ['\n']).length - f) := by
    rw [List.take_append_of_le_length (by omega)]
    exact fun h => hs (List.mem_of_mem_take h)
  rw [hpos, show s ++ '\n' :: X = (s ++ ['\n']) ++ X by simp, Nat.add_comm n 1, atFrontier_add,
    ← atFrontier_eq_atPosition hf hn (by omega)]

/-- The error that a last line numbered `n + 1`, without a line break, reports is at that
place of the line. -/
theorem atFrontier_last_eq {t : List Char} {f : Nat} (ht : '\n' ∉ t) (hf : f ≤ t.length)
    (n : Nat) : atFrontier (n + 1) t f = (atPosition t (t.length - f)).shift n := by
  have hat := atFrontier_eq_atPosition (Y := []) hf (fun h => ht (List.mem_of_mem_take h))
    (fun _ => rfl)
  rw [List.append_nil] at hat
  rw [Nat.add_comm n 1, atFrontier_add, hat]

end ParseError

/-! ## Partial parses of a text -/

namespace Reaches

variable {d : Dialect} {Y : Language Token} {cs : List Char} {n : Nat}

/-- A partial parse leaves a part of the text. -/
theorem le_length (h : Reaches d Y cs n) : n ≤ cs.length := by
  cases h with
  | whole _ hl => exact hl.suffix.length_le
  | part _ _ hl => exact (List.dropWhile_suffix _).length_le.trans hl.suffix.length_le

end Reaches

theorem length_dropWhile_append_newline (s X : List Char) :
    ((s ++ '\n' :: X).dropWhile isBlank).length =
      ((s ++ ['\n']).dropWhile isBlank).length + X.length := by
  rw [dropWhile_append_newline (by decide), List.length_append]

theorem one_le_length_dropWhile {s : List Char} (hs : '\n' ∉ s) :
    1 ≤ ((s ++ ['\n']).dropWhile isBlank).length := by
  obtain ⟨s', -, he⟩ := dropWhile_append_newline_eq (p := isBlank) (by decide) hs
  rw [he]
  simp

namespace Line

variable {d : Dialect} {s X : List Char}

theorem newline_mem_words : [(Terminal.newline, ['\n'])] ∈ words d :=
  ⟨⟨none, none⟩, .mk none none [] [] rfl rfl⟩

theorem frontier_read_le_length (d : Dialect) (cs : List Char) :
    (read d cs).frontier ≤ cs.length :=
  (follows_read d cs).frontier_le_length newline_mem_words

/-- A line's lexemes before its last one hold no line break. -/
theorem noBreak_of_append_mem {toks more : List Token} (hw : toks ++ more ∈ words d)
    (hmore : more ≠ []) : NoBreak toks := by
  obtain ⟨l, hy⟩ := hw
  obtain ⟨body, hb, he⟩ := hy.eq_append_newline
  obtain ⟨more', x, rfl⟩ := (List.eq_nil_or_concat more).resolve_left hmore
  rw [List.concat_eq_append, ← List.append_assoc] at he
  have hbody : toks ++ more' = body := (List.append_inj' he rfl).1
  rw [← hbody] at hb
  exact (noBreak_append.mp hb).1

/-- A line of which no reading is complete begins with no line of the grammar at all. -/
theorem not_lexes_of_best?_eq_none {cs : List Char} (hb : (read d cs).best? = none) :
    ∀ u ∈ words d, ∀ m, ¬ Lexes d cs u m := by
  intro u hu m hl
  obtain ⟨a, ha⟩ := (follows_read d cs).complete u hu m hl
  have hnil : (read d cs).results = [] := by simpa [Reading.best?] using hb
  rw [hnil] at ha
  exact List.not_mem_nil ha

section Unreadable

variable (hs : '\n' ∉ s) (hno : ∀ u ∈ words d, ∀ m, ¬ Lexes d (s ++ ['\n']) u m)
include hs hno

/-- Nor does any text that the line starts. -/
theorem not_lexes_append_newline : ∀ u ∈ words d, ∀ m, ¬ Lexes d (s ++ '\n' :: X) u m := by
  rintro u ⟨l, hy⟩ m hl
  exact hno _ ⟨l, hy⟩ _ ((hy.lexes_append_newline_iff hs).mp hl).2

/-- In a line that begins with no line of the grammar, a partial parse of a line gets as far
in the text as in the line alone, and leaves the rest of the text besides. -/
theorem reaches_append_newline_iff {n : Nat} :
    Reaches d (words d) (s ++ '\n' :: X) n ↔
      ∃ k, Reaches d (words d) (s ++ ['\n']) k ∧ n = k + X.length := by
  constructor
  · intro h
    cases h with
    | whole hu hl => exact absurd hl (not_lexes_append_newline hs hno _ hu _)
    | part hw hmore hl =>
      obtain ⟨s', hs', rfl, hl'⟩ :=
        (Lexes.append_newline_iff hs (noBreak_of_append_mem hw hmore)).mp hl
      exact ⟨_, .part hw hmore hl', length_dropWhile_append_newline s' X⟩
  · rintro ⟨k, h, rfl⟩
    cases h with
    | whole hu hl => exact absurd hl (hno _ hu _)
    | part hw hmore hl =>
      have hnb := noBreak_of_append_mem hw hmore
      obtain ⟨s', hs', rfl, hl'⟩ := (Lexes.append_newline_iff (X := []) hs hnb).mp hl
      rw [← length_dropWhile_append_newline]
      exact .part hw hmore ((Lexes.append_newline_iff hs hnb).mpr ⟨s', hs', rfl, hl'⟩)

/-- Such a line is never consumed to its end: its line break is left at least. -/
theorem one_le_of_reaches {k : Nat} (h : Reaches d (words d) (s ++ ['\n']) k) : 1 ≤ k := by
  cases h with
  | whole hu hl => exact absurd hl (hno _ hu _)
  | part hw hmore hl =>
    obtain ⟨s', hs', rfl, -⟩ :=
      (Lexes.append_newline_iff (X := []) hs (noBreak_of_append_mem hw hmore)).mp hl
    exact one_le_length_dropWhile hs'

end Unreadable

end Line

namespace Source

variable {d : Dialect} {s X : List Char} {n : Nat}

/-- The lexeme sequences of texts: those of any number of lines. -/
def words (d : Dialect) : Language Token := KStar.kstar (Line.words d)

/-- Some partial parse of the text `t` consumes its first `p` characters. -/
def Consumes (d : Dialect) (t : List Char) (p : Nat) : Prop :=
  p ≤ t.length ∧ Reaches d (words d) t (t.length - p)

theorem reaches_length (cs : List Char) : Reaches d (words d) cs cs.length :=
  .whole (Language.nil_mem_kstar (Line.words d)) (.nil cs)

/-- The furthest point that a partial parse consumes is where the partial parse that leaves the
least stops. -/
theorem isGreatest_consumes_iff {t : List Char} {p : Nat} :
    IsGreatest {q | Consumes d t q} p ↔
      p ≤ t.length ∧ IsLeast {m | Reaches d (words d) t m} (t.length - p) := by
  constructor
  · rintro ⟨⟨hp, hr⟩, hmax⟩
    refine ⟨hp, hr, fun m hm => ?_⟩
    have hmt : m ≤ t.length := Reaches.le_length hm
    have : t.length - m ≤ p := hmax ⟨Nat.sub_le _ _, by rwa [Nat.sub_sub_self hmt]⟩
    omega
  · rintro ⟨hp, hr, hmin⟩
    refine ⟨⟨hp, hr⟩, ?_⟩
    rintro q ⟨hq, hrq⟩
    have := hmin hrq
    omega

/-- A partial parse of a text consumes nothing, or stops in its first line, or reads that line
whole and goes on with the rest. -/
theorem reaches_iff {cs : List Char} :
    Reaches d (words d) cs n ↔ n = cs.length ∨ Reaches d (Line.words d) cs n ∨
      ∃ u ∈ Line.words d, ∃ m, Lexes d cs u m ∧ Reaches d (words d) m n := by
  have hstar : words d = 1 + Line.words d * words d :=
    (Language.one_add_self_mul_kstar_eq_kstar (Line.words d)).symm
  constructor
  · intro h
    rw [hstar, Reaches.add_iff, Reaches.one_iff] at h
    exact h.imp_right Reaches.mul_cases
  · intro h
    rw [hstar, Reaches.add_iff, Reaches.one_iff]
    rcases h with h | h | ⟨u, hu, m, hl, h⟩
    · exact Or.inl h
    · -- a line alone is a text of one line
      refine Or.inr (h.mono fun w hw => ?_)
      rw [← List.append_nil w]
      exact Language.append_mem_mul hw (Language.nil_mem_kstar _)
    · exact Or.inr (Reaches.mul_of hu hl h)

/-- A partial parse of a text that starts with a line either stops in that line, leaving more
than the rest of the text, or is one of the rest. -/
theorem reaches_append_line_cases (hs : '\n' ∉ s) (h : Reaches d (words d) (s ++ '\n' :: X) n) :
    X.length < n ∨ Reaches d (words d) X n := by
  rcases reaches_iff.mp h with rfl | h | ⟨u, ⟨l, hy⟩, m, hl, hm⟩
  · left
    simp only [List.length_append, List.length_cons]
    omega
  · cases h with
    | whole hu hl =>
      obtain ⟨l, hy⟩ := hu
      obtain ⟨rfl, -⟩ := (hy.lexes_append_newline_iff hs).mp hl
      exact Or.inr (reaches_length _)
    | part hw hmore hl =>
      obtain ⟨s', hs', rfl, -⟩ :=
        (Lexes.append_newline_iff hs (Line.noBreak_of_append_mem hw hmore)).mp hl
      have := one_le_length_dropWhile hs'
      rw [length_dropWhile_append_newline]
      omega
  · obtain ⟨rfl, -⟩ := (hy.lexes_append_newline_iff hs).mp hl
    exact Or.inr hm

/-- After a line that can be read, a partial parse of the rest is one of the text. -/
theorem reaches_append_line {l : Line} (hs : '\n' ∉ s) (hl : DerivesLine d s l)
    (h : Reaches d (words d) X n) : Reaches d (words d) (s ++ '\n' :: X) n := by
  obtain ⟨toks, hy, hlex⟩ := hl
  exact reaches_iff.mpr (Or.inr (Or.inr
    ⟨toks, ⟨l, hy⟩, X, (hy.lexes_append_newline_iff hs).mpr ⟨rfl, hlex⟩, h⟩))

/-- After a line that can be read, the furthest partial parse of the text is the furthest of
the rest. -/
theorem isLeast_reaches_append_line {l : Line} (hs : '\n' ∉ s) (hl : DerivesLine d s l)
    {k : Nat} :
    IsLeast {m | Reaches d (words d) (s ++ '\n' :: X) m} k ↔
      IsLeast {m | Reaches d (words d) X m} k := by
  constructor
  · rintro ⟨hk, hmin⟩
    have hle : k ≤ X.length := hmin (reaches_append_line hs hl (reaches_length X))
    refine ⟨(reaches_append_line_cases hs hk).resolve_left (by omega), fun m hm => ?_⟩
    exact hmin (reaches_append_line hs hl hm)
  · rintro ⟨hk, hmin⟩
    refine ⟨reaches_append_line hs hl hk, fun m hm => ?_⟩
    rcases reaches_append_line_cases hs hm with hlt | hm
    · exact (hmin (reaches_length X)).trans hlt.le
    · exact hmin hm

/-- In a line that cannot be read, the furthest partial parse of the text gets to the line's
frontier. -/
theorem isLeast_reaches_of_best?_eq_none (hs : '\n' ∉ s)
    (hb : (Line.read d (s ++ ['\n'])).best? = none) :
    IsLeast {m | Reaches d (words d) (s ++ '\n' :: X) m}
      ((Line.read d (s ++ ['\n'])).frontier + X.length) := by
  have hno := Line.not_lexes_of_best?_eq_none hb
  have hline := Line.isLeast_frontier_read d (s ++ ['\n'])
  refine ⟨reaches_iff.mpr (Or.inr (Or.inl
    ((Line.reaches_append_newline_iff hs hno).mpr ⟨_, hline.1, rfl⟩))), fun m hm => ?_⟩
  rcases reaches_iff.mp hm with rfl | h | ⟨u, hu, m', hl, -⟩
  · -- consuming nothing leaves the whole text
    have := Line.frontier_read_le_length d (s ++ ['\n'])
    simp only [List.length_append, List.length_cons, List.length_nil] at this ⊢
    omega
  · obtain ⟨k, hk, rfl⟩ := (Line.reaches_append_newline_iff hs hno).mp h
    exact Nat.add_le_add_right (hline.2 hk) _
  · exact absurd hl (Line.not_lexes_append_newline hs hno _ hu _)

/-- In a last line without a line break, the furthest partial parse of it gets to its
frontier. -/
theorem isLeast_reaches_of_newline_not_mem {t : List Char} (ht : '\n' ∉ t) :
    IsLeast {m | Reaches d (words d) t m} (Line.read d t).frontier := by
  have hline := Line.isLeast_frontier_read d t
  refine ⟨reaches_iff.mpr (Or.inr (Or.inl hline.1)), fun m hm => ?_⟩
  rcases reaches_iff.mp hm with rfl | h | ⟨u, ⟨l, hy⟩, m', hl, -⟩
  · exact Line.frontier_read_le_length d t
  · exact hline.2 h
  · obtain ⟨s, -, rfl, -⟩ := hy.lexes_iff.mp hl
    exact absurd (List.mem_append_right s List.mem_cons_self) ht

/-- A line that is not read stops the tidier, at the line's frontier. -/
theorem formatLines_append_newline_eq_error {n : Nat} (hs : '\n' ∉ s)
    (hb : (Line.read d (s ++ ['\n'])).best? = none) :
    formatLines d n ((s ++ '\n' :: X).splitOn '\n') =
      .error (ParseError.atFrontier n (s ++ ['\n']) (Line.read d (s ++ ['\n'])).frontier) := by
  rw [List.splitOn_append_cons_self_of_not_mem hs]
  obtain ⟨p, ps, he⟩ := List.exists_cons_of_ne_nil (List.splitOn_ne_nil '\n' X)
  rw [he]
  simp only [formatLines, hb]

theorem eq_error_of_map_eq_error {α β ε : Type} {f : α → β} {x : Except ε α} {e : ε}
    (h : x.map f = .error e) : x = .error e := by
  cases x with
  | error e' => cases h; rfl
  | ok a => cases h

/-- The run of the tidier from the line numbered `n + 1`: an error it stops with is at the
furthest point a partial parse of the rest of the text gets to, `n` lines down. -/
theorem formatLines_error_at_least_reach {e : ParseError}
    (h : formatLines d (n + 1) (X.splitOn '\n') = .error e) :
    ∃ k, IsLeast {m | Reaches d (words d) X m} k ∧
      e = (ParseError.atPosition X (X.length - k)).shift n := by
  -- induction on the length of the text: the tidier goes on after the first line break
  induction hlen : X.length using Nat.strong_induction_on generalizing X n with
  | _ len ih =>
  subst hlen
  by_cases hX : '\n' ∈ X
  · obtain ⟨s, X', hs, rfl⟩ := exists_eq_first_newline hX
    cases hb : (Line.read d (s ++ ['\n'])).best? with
    | some l =>
      rw [formatLines_append_newline hs hb] at h
      have hlt : X'.length < (s ++ '\n' :: X').length := by
        simp only [List.length_append, List.length_cons]
        omega
      obtain ⟨k, hk, rfl⟩ := ih X'.length hlt (eq_error_of_map_eq_error h) rfl
      refine ⟨k, (isLeast_reaches_append_line hs (Line.derivesLine_of_best? hs hb)).mpr hk, ?_⟩
      exact (ParseError.atPosition_append_line_shift hs (hk.2 (reaches_length X')) n).symm
    | none =>
      rw [formatLines_append_newline_eq_error hs hb] at h
      obtain rfl := Except.error.inj h
      have h1 := Line.one_le_of_reaches hs (Line.not_lexes_of_best?_eq_none hb)
        (Line.isLeast_frontier_read d (s ++ ['\n'])).1
      exact ⟨_, isLeast_reaches_of_best?_eq_none hs hb,
        ParseError.atFrontier_line_eq hs h1 (Line.frontier_read_le_length d _) n⟩
  · rw [formatLines_of_newline_not_mem hX] at h
    split_ifs at h
    obtain rfl := Except.error.inj h
    exact ⟨_, isLeast_reaches_of_newline_not_mem hX,
      ParseError.atFrontier_last_eq hX (Line.frontier_read_le_length d X) n⟩

/-- When the tidier rejects a text, the error is at the furthest point that a partial parse
of the text consumes: the end of the text when that is where it gets to, and otherwise the
character there, with its line and column. -/
theorem format_error_at_furthest_parse (d : Dialect) (t : List Char) (e : ParseError)
    (h : format d t = .error e) :
    ∃ p, IsGreatest {q | Consumes d t q} p ∧ e = ParseError.atPosition t p := by
  obtain ⟨k, hk, rfl⟩ := formatLines_error_at_least_reach (n := 0) h
  have hkt : k ≤ t.length := hk.1.le_length
  refine ⟨t.length - k, isGreatest_consumes_iff.mpr ⟨Nat.sub_le _ _, ?_⟩, ParseError.shift_zero _⟩
  rwa [Nat.sub_sub_self hkt]

theorem format_error_at_furthest_parse_open_paren :
    ∃ p, IsGreatest {q | Consumes .standard "nop\nlda (\n".toList q} p ∧
      ParseError.unexpectedCharacter 2 6 '\n' = ParseError.atPosition "nop\nlda (\n".toList p :=
  format_error_at_furthest_parse .standard _ _ (by decide +kernel)

/-- Blanks after the last line break are accepted, in both dialects, even when they are all
the text. -/
theorem format_accepts_lone_blank :
    format .standard [' '] = .ok [] ∧ format .colonless [' '] = .ok [] := by
  constructor <;> rw [format, formatLines_of_newline_not_mem (by decide)] <;> rfl

end Source

end AsmTidy
