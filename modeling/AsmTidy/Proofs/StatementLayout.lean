import Mathlib
import AsmTidy.Proofs.MacroLines
import AsmTidy.Proofs.CommentLayout

/-!
# The layout of statements

Where the tidier puts each part of a line's head, and that no printed line ends in white space.

* `LabelPlaced`: a global label stands at column 0, a local (`@name`) or an unnamed one at
  column 4, each followed by its colon.
* `AtCodeColumn`: the text after the label part brings what follows to column 8, with spaces
  on the label's line when the label part is shorter than 8 characters, and otherwise with a
  line break and eight spaces.
* `StatementPlaced`: a mnemonic, or a command that does not stand in column 1, starts at
  column 8. A column-1 command and a macro line follow the label part directly, and a macro
  starts as `.macro` padded to 8, its name, and its parameters joined by `, `.
* `HeadLaidOut`: a head is its label part and its statement, laid out so, or a numeric
  variable whose dot stands at column `max 8 n` after a name of `n` characters.

**Theorem (`format_lays_out_statements`).** In a text that the tidier accepts, every line's head
is laid out so. A line that the grammar derives as a macro line is read, and so printed, as one
(`Line.macroLine_of_best?`). Each printed line ends in a character that is not white space, and
where it breaks in two, it breaks right after a label's colon.
-/

namespace AsmTidy

open Text

/-! ## The width of the last line -/

theorem lastLineWidth_of_newline_not_mem {cs : List Char} (h : '\n' ∉ cs) :
    lastLineWidth cs = cs.length := by
  unfold lastLineWidth
  rw [List.takeWhile_eq_self_iff.mpr fun c hc => by
    have : c ≠ '\n' := fun hc' => h (hc' ▸ List.mem_reverse.mp hc)
    simpa using this, List.length_reverse]

theorem lastLineWidth_append_newline (a : List Char) {b : List Char} (h : '\n' ∉ b) :
    lastLineWidth (a ++ '\n' :: b) = b.length := by
  rw [show a ++ '\n' :: b = (a ++ ['\n']) ++ b by simp, lastLineWidth, List.reverse_append,
    List.takeWhile_append_of_pos fun c hc => by
      have : c ≠ '\n' := fun hc' => h (hc' ▸ List.mem_reverse.mp hc)
      simpa using this]
  simp

/-! ## Where each part of a head stands -/

/-- A printed label: a global label at column 0, a local (`@name`) or an unnamed one at column
4, each followed by its colon. -/
def LabelPlaced : Label → List Char → Prop
  | .named name _, printed =>
    printed = spaces (if name.head? = some '@' then 4 else 0) ++ name ++ [':']
  | .unnamed, printed => printed = spaces 4 ++ [':']

/-- The text `gap` after the label part `before` brings what follows to column 8: spaces on the
label's line where the label part is shorter than 8 characters, and otherwise a line break and
eight spaces. -/
def AtCodeColumn (before gap : List Char) : Prop :=
  lastLineWidth (before ++ gap) = 8 ∧
    (before.length < 8 → gap.all (· == ' ')) ∧ (8 ≤ before.length → gap = '\n' :: spaces 8)

/-- A statement printed after the label part `before`: a mnemonic, or a command not in
column 1, at column 8; a column-1 command and a macro line right after the label part. -/
def StatementPlaced (before : List Char) : Statement → List Char → Prop
  | .instruction m _, printed =>
    ∃ gap rest, printed = gap ++ Mnemonic.display m ++ rest ∧ AtCodeColumn before gap
  | .command c, printed =>
    (c.name ∈ Layout.tidy.unindentedDirectives → ∃ rest, printed = '.' :: rest) ∧
      (c.name ∉ Layout.tidy.unindentedDirectives →
        ∃ gap rest, printed = gap ++ '.' :: rest ∧ AtCodeColumn before gap)
  | .macroStart name params, printed =>
    printed = ".macro  ".toList ++ name ++ ' ' :: ", ".toList.intercalate params
  | .macroEnd, printed => printed = ".endmacro".toList

/-- A line's head as printed: its label part and its statement, a label alone, or a numeric
variable whose dot stands at column `max 8 n` after a name of `n` characters. -/
def HeadLaidOut : Head → List Char → Prop
  | .statement none s, printed => StatementPlaced [] s printed
  | .statement (some l) s, printed =>
    ∃ lp rest, printed = lp ++ rest ∧ LabelPlaced l lp ∧ StatementPlaced lp s rest
  | .label l, printed => LabelPlaced l printed
  | .numeric name _, printed =>
    ∃ pad rest, printed = name ++ pad ++ '.' :: rest ∧ pad.all (· == ' ') ∧
      lastLineWidth (name ++ pad) = max 8 name.length
  | .constant _ _ _, _ => True

namespace Layout

theorem labelPlaced_label (l : Label) : LabelPlaced l (tidy.label l) := by
  cases l with
  | named name colon =>
    simp only [LabelPlaced, label, tidy]
    split <;> rfl
  | unnamed => rfl

theorem atCodeColumn_toCodeColumn {before : List Char} (h : '\n' ∉ before) :
    AtCodeColumn before (tidy.toCodeColumn before) := by
  unfold toCodeColumn
  by_cases hlt : before.length < tidy.codeColumn
  · rw [if_pos hlt]
    change before.length < 8 at hlt
    change AtCodeColumn before (spaces (8 - before.length))
    refine ⟨?_, fun _ => by simp [spaces], fun hge => absurd hlt (by omega)⟩
    rw [lastLineWidth_append_spaces, lastLineWidth_of_newline_not_mem h]
    omega
  · rw [if_neg hlt]
    change ¬before.length < 8 at hlt
    change AtCodeColumn before ('\n' :: spaces 8)
    refine ⟨?_, fun h' => absurd h' hlt, fun _ => rfl⟩
    rw [lastLineWidth_append_newline _ (by simp [spaces])]
    simp [spaces]

theorem statementPlaced_statement {before : List Char} (h : '\n' ∉ before) (s : Statement) :
    StatementPlaced before s (tidy.statement before s) := by
  cases s with
  | instruction m ops =>
    exact ⟨tidy.toCodeColumn before,
      if ops = [] then [] else ' ' :: ", ".toList.intercalate (ops.map Operand.render),
      by rw [statement_instruction, List.append_assoc], atCodeColumn_toCodeColumn h⟩
  | macroStart name params =>
    simp [StatementPlaced, padRight, tidy]
    rfl
  | macroEnd => rfl
  | command c =>
    refine ⟨fun hin => ?_, fun hout => ?_⟩
    · rw [statement_command, if_pos hin]
      exact ⟨_, rfl⟩
    · rw [statement_command, if_neg hout]
      exact ⟨tidy.toCodeColumn before, c.name.map Char.toLower ++ ' ' :: c.args.getD [],
        by simp, atCodeColumn_toCodeColumn h⟩

/-- Every head is printed as `HeadLaidOut` says, where its lexemes hold no line break. -/
theorem headLaidOut_head (h : Head) (hb : breaks (h.spell .asWritten) = 0) :
    HeadLaidOut h (tidy.head h) := by
  cases h with
  | statement l s =>
    cases l with
    | none => exact statementPlaced_statement (by simp) s
    | some l =>
      have hl : '\n' ∉ tidy.label l := by
        rw [← breaks_eq_zero, breaks_label]
        simp only [Head.spell, Option.map_some, Option.getD_some, breaks_append] at hb
        omega
      exact ⟨_, _, rfl, labelPlaced_label l, statementPlaced_statement hl s⟩
  | label l => exact labelPlaced_label l
  | numeric name c =>
    have hn : '\n' ∉ name := by
      rw [← breaks_eq_zero]
      simp only [Head.spell, breaks_append] at hb
      omega
    refine ⟨spaces (8 - name.length), " ".toList.intercalate (c.name :: (c.args.map trim).toList),
      by simp [head, padRight, tidy], by simp [spaces], ?_⟩
    rw [lastLineWidth_append_spaces, lastLineWidth_of_newline_not_mem hn]
    omega
  | constant => trivial

end Layout

/-! ## Where a printed line breaks -/

/-- Every line break of a text follows a colon. -/
def BreaksAfterColon (cs : List Char) : Prop :=
  ∀ pre c post, cs = pre ++ c :: '\n' :: post → c = ':'

/-- Of two texts that each break at most before a line without breaks, the parts before the
breaks agree. -/
theorem eq_of_append_newline {x y a b : List Char} (ha : '\n' ∉ a) (hb : '\n' ∉ b)
    (h : x ++ '\n' :: y = a ++ '\n' :: b) : x = a := by
  rcases List.append_eq_append_iff.mp h with ⟨a', rfl, ha'⟩ | ⟨c', rfl, hc'⟩
  · cases a' with
    | nil => simp
    | cons z a' =>
      obtain ⟨rfl, -⟩ := List.cons.inj ha'
      simp at ha
  · cases c' with
    | nil => simp
    | cons z c' =>
      obtain ⟨rfl, rfl⟩ := List.cons.inj hc'
      simp at hb

namespace BreaksAfterColon

theorem of_newline_not_mem {cs : List Char} (h : '\n' ∉ cs) : BreaksAfterColon cs := by
  rintro pre c post rfl
  simp at h

theorem of_isPrefix {xs ys : List Char} (h : BreaksAfterColon xs) (hp : ys <+: xs) :
    BreaksAfterColon ys := by
  rintro pre c post rfl
  obtain ⟨t, ht⟩ := hp
  exact h pre c (post ++ t) (by rw [← ht]; simp)

theorem append {xs ys : List Char} (h : BreaksAfterColon xs) (hys : '\n' ∉ ys) :
    BreaksAfterColon (xs ++ ys) := by
  intro pre c post he
  rcases List.append_eq_append_iff.mp he.symm with ⟨a', rfl, ha'⟩ | ⟨c', rfl, hc'⟩
  · -- the break falls in `xs` unless `ys` starts at the character before it or at the break
    rcases a' with _ | ⟨z, _ | ⟨z', a''⟩⟩
    · simp only [List.nil_append] at ha'
      simp [← ha'] at hys
    · obtain ⟨rfl, rfl⟩ := List.cons.inj ha'
      simp at hys
    · obtain ⟨rfl, hz⟩ := List.cons.inj ha'
      obtain ⟨rfl, rfl⟩ := List.cons.inj hz
      exact h pre c a'' rfl
  · simp [hc'] at hys

/-- A label alone on its line, and a statement on the next. -/
theorem label_newline (l : Label) {rest : List Char} (hl : '\n' ∉ Layout.tidy.label l)
    (hr : '\n' ∉ rest) : BreaksAfterColon (Layout.tidy.label l ++ '\n' :: rest) := by
  obtain ⟨lab, hlab⟩ : ∃ lab, Layout.tidy.label l = lab ++ [':'] := by
    cases l with
    | named name colon => exact ⟨_, rfl⟩
    | unnamed => exact ⟨_, rfl⟩
  intro pre c post he
  have hx : pre ++ [c] = lab ++ [':'] := by
    rw [← hlab]
    exact eq_of_append_newline (y := post) hl hr (by rw [he]; simp)
  exact (List.cons.inj (List.append_inj' hx rfl).2).1

end BreaksAfterColon

theorem Text.trimRight_isPrefix (cs : List Char) : trimRight cs <+: cs := by
  rw [trimRight, ← List.reverse_suffix, List.reverse_reverse]
  exact List.dropWhile_suffix _

/-- A text trimmed on the right ends in a character that is not white space. -/
theorem Text.getLast_trimRight (cs : List Char) :
    ∀ c ∈ (trimRight cs).getLast?, isSpace c = false := by
  intro c hc
  rw [trimRight, List.getLast?_reverse] at hc
  have h := List.head?_dropWhile_not isSpace cs.reverse
  rw [Option.mem_def.mp hc] at h
  exact h

namespace Layout

/-- A statement holds no line break, or one only in the gap that brings it to the code
column. -/
theorem statement_eq_or (before : List Char) (s : Statement)
    (hs : breaks (s.spell .asWritten) = 0) :
    '\n' ∉ tidy.statement before s ∨
      ∃ rest, tidy.statement before s = tidy.toCodeColumn before ++ rest ∧ '\n' ∉ rest := by
  cases s with
  | instruction m ops =>
    have hle := tidy.breaks_statement_le before (.instruction m ops)
    rw [hs, statement_instruction, List.append_assoc, breaks_append] at hle
    refine .inr ⟨Mnemonic.display m ++
      (if ops = [] then [] else ' ' :: ", ".toList.intercalate (ops.map Operand.render)),
      by rw [statement_instruction, List.append_assoc], breaks_eq_zero.mp (by omega)⟩
  | macroStart name params =>
    have hle := tidy.breaks_statement_le [] (.macroStart name params)
    rw [hs, breaks_toCodeColumn, if_pos (by decide)] at hle
    refine .inl (breaks_eq_zero.mp ?_)
    simpa using hle
  | macroEnd =>
    rw [statement_macroEnd]
    exact .inl (by decide)
  | command c =>
    have hc : breaks ('.' :: c.name.map Char.toLower ++ ' ' :: c.args.getD []) = 0 := by
      simpa [Spelling.asWritten] using hs
    rw [statement_command]
    split
    · exact .inl (breaks_eq_zero.mp (by simpa using hc))
    · exact .inr ⟨'.' :: c.name.map Char.toLower ++ ' ' :: c.args.getD [], by simp,
        breaks_eq_zero.mp hc⟩

theorem newline_not_mem_head {h : Head} (hl : h.isLabelledStatement = false)
    (hb : breaks (h.spell .asWritten) = 0) : '\n' ∉ tidy.head h := by
  have hle := tidy.breaks_head_le (by decide) h
  rw [hl, hb] at hle
  exact breaks_eq_zero.mp (by simpa using hle)

/-- A printed head breaks only where a label moves above its statement. -/
theorem breaksAfterColon_head (h : Head) (hb : breaks (h.spell .asWritten) = 0) :
    BreaksAfterColon (tidy.head h) := by
  cases h with
  | statement l s =>
    cases l with
    | none => exact .of_newline_not_mem (newline_not_mem_head rfl hb)
    | some l =>
      have hl : '\n' ∉ tidy.label l := by
        rw [← breaks_eq_zero, breaks_label]
        simp only [Head.spell, Option.map_some, Option.getD_some, breaks_append] at hb
        omega
      have hs : breaks (s.spell .asWritten) = 0 := by
        simp only [Head.spell, Option.map_some, Option.getD_some, breaks_append] at hb
        omega
      change BreaksAfterColon (tidy.label l ++ tidy.statement (tidy.label l) s)
      rcases statement_eq_or (tidy.label l) s hs with hn | ⟨rest, hrest, hr⟩
      · exact .of_newline_not_mem (by simp [hl, hn])
      · rw [hrest]
        unfold toCodeColumn
        -- the label part is either short enough to share the statement's line, or it is not
        by_cases hlt : (tidy.label l).length < tidy.codeColumn
        · rw [if_pos hlt]
          exact .of_newline_not_mem (by simp [hl, hr, spaces])
        · rw [if_neg hlt]
          exact BreaksAfterColon.label_newline l hl (by simp [hr, spaces])
  | label l => exact .of_newline_not_mem (newline_not_mem_head rfl hb)
  | numeric name c => exact .of_newline_not_mem (newline_not_mem_head rfl hb)
  | constant name assign value => exact .of_newline_not_mem (newline_not_mem_head rfl hb)

theorem newline_not_mem_note (c : Comment) (hc : breaks c.spell = 0) :
    '\n' ∉ trimRight (';' :: ' ' :: trim (c.text.getD [])) := by
  have h₁ := breaks_trimRight_le (';' :: ' ' :: trim (c.text.getD []))
  have h₂ := breaks_trim_le (c.text.getD [])
  simp only [Comment.spell, breaks_cons] at hc h₁
  exact breaks_eq_zero.mp (by simp at hc h₁ ⊢; omega)

/-- A printed line breaks only where a label moves above its statement, and it ends in a
character that is not white space. -/
theorem breaksAfterColon_line (l : Line) (hb : breaks (l.spell .asWritten) = 0) :
    BreaksAfterColon (tidy.line l) := by
  obtain ⟨oh, oc⟩ := l
  cases oh with
  | none =>
    have hle := tidy.breaks_line_le (by decide) ⟨none, oc⟩
    rw [hb] at hle
    exact .of_newline_not_mem (breaks_eq_zero.mp (by simpa using hle))
  | some h =>
    have hh : breaks (h.spell .asWritten) = 0 := by
      simp only [Line.spell, Option.map_some, Option.getD_some, breaks_append] at hb
      omega
    cases oc with
    | none =>
      exact (breaksAfterColon_head h hh).of_isPrefix (trimRight_isPrefix _)
    | some c =>
      have hc : breaks c.spell = 0 := by
        simp only [Line.spell, Option.map_some, Option.getD_some, breaks_append] at hb
        omega
      rw [line_of_head, List.append_assoc]
      exact (breaksAfterColon_head h hh).append (by simp [spaces, newline_not_mem_note c hc])

/-- A head is printed at the start of its line, up to white space at its end. -/
theorem trimRight_head_prefix_line (h : Head) (oc : Option Comment) :
    trimRight (tidy.head h) <+: tidy.line ⟨some h, oc⟩ := by
  cases oc with
  | none => exact List.prefix_refl _
  | some c =>
    rw [line_of_head, List.append_assoc]
    exact (trimRight_isPrefix _).trans (List.prefix_append _ _)

theorem getLast_line (l : Line) : ∀ c ∈ (tidy.line l).getLast?, isSpace c = false :=
  getLast_trimRight _

end Layout

/-! ## Physical lines -/

namespace Text

/-- Where a text breaks only after characters that are not white space and does not end in
white space, none of its physical lines ends in white space. -/
theorem getLast_of_mem_splitOn {X : List Char}
    (hb : ∀ pre c post, X = pre ++ c :: '\n' :: post → isSpace c = false)
    (hl : ∀ c ∈ X.getLast?, isSpace c = false) :
    ∀ seg ∈ X.splitOn '\n', ∀ c ∈ seg.getLast?, isSpace c = false := by
  -- cut at any line break: both sides are shorter and keep both properties
  induction h : X.length using Nat.strong_induction_on generalizing X with
  | _ n ih =>
  subst h
  by_cases hx : '\n' ∈ X
  · obtain ⟨A, B, rfl⟩ := List.append_of_mem hx
    have hbA : ∀ pre c post, A = pre ++ c :: '\n' :: post → isSpace c = false := by
      rintro pre c post rfl
      exact hb pre c (post ++ '\n' :: B) (by simp)
    have hlA : ∀ c ∈ A.getLast?, isSpace c = false := by
      intro c hc
      obtain ⟨pre, rfl⟩ := List.getLast?_eq_some_iff.mp hc
      exact hb pre c B (by simp)
    have hbB : ∀ pre c post, B = pre ++ c :: '\n' :: post → isSpace c = false := by
      rintro pre c post rfl
      exact hb (A ++ '\n' :: pre) c post (by simp)
    have hlB : ∀ c ∈ B.getLast?, isSpace c = false := by
      intro c hc
      have hne : B ≠ [] := by
        rintro rfl
        simp at hc
      exact hl c (by rwa [show A ++ '\n' :: B = (A ++ ['\n']) ++ B by simp,
        List.getLast?_append_of_ne_nil _ hne])
    change ∀ seg ∈ (A ++ '\n' :: B).splitOnP (· == '\n'), _
    rw [List.splitOnP_append_cons A B (by simp)]
    intro seg hseg
    rcases List.mem_append.mp hseg with hA | hB
    · exact ih A.length (by simp) hbA hlA rfl seg hA
    · exact ih B.length (by simp; omega) hbB hlB rfl seg hB
  · have hs : X.splitOn '\n' = [X] :=
      List.splitOnP_eq_singleton fun c hc => beq_eq_false_iff_ne.mpr fun he => hx (he ▸ hc)
    rw [hs]
    intro seg hseg
    rw [List.mem_singleton.mp hseg]
    exact hl

/-- The physical lines of texts joined with a line break after each: the empty line after the
last break, and the physical lines of each text. -/
theorem mem_splitOn_flatMap {β : Type} (f : β → List Char) (L : List β) :
    ∀ seg ∈ (L.flatMap fun b => f b ++ ['\n']).splitOn '\n',
      seg = [] ∨ ∃ b ∈ L, seg ∈ (f b).splitOn '\n' := by
  induction L with
  | nil => simp [List.splitOn]
  | cons b L ih =>
    intro seg hseg
    rw [List.flatMap_cons, List.append_assoc, List.singleton_append, List.splitOn,
      List.splitOnP_append_cons _ _ (by simp)] at hseg
    rcases List.mem_append.mp hseg with hb | hL
    · exact .inr ⟨b, List.mem_cons_self, hb⟩
    · rcases ih seg hL with h | ⟨b', hb', h⟩
      · exact .inl h
      · exact .inr ⟨b', List.mem_cons_of_mem _ hb', h⟩

end Text

/-- No physical line of a printed line ends in white space. -/
theorem Layout.getLast_of_mem_splitOn_line {l : Line} (hb : breaks (l.spell .asWritten) = 0) :
    ∀ seg ∈ (Layout.tidy.line l).splitOn '\n', ∀ c ∈ seg.getLast?, isSpace c = false :=
  getLast_of_mem_splitOn
    (fun pre c post h => by rw [Layout.breaksAfterColon_line l hb pre c post h]; decide)
    (Layout.getLast_line l)

/-! ## Every line of an accepted text -/

/-- In a text that the tidier accepts, every line's head is laid out as `HeadLaidOut` says and
stands at the start of its printed line; a line that the grammar derives as a macro line is
printed as one; every printed line breaks only after a label's colon; and no physical line of
the output ends in white space. -/
theorem format_lays_out_statements (d : Dialect) {t out : List Char}
    (h : Source.format d t = .ok out) :
    ∃ (lines : List (List Char × Line)) (tail : List Char),
      t = lines.flatMap (fun p => p.1 ++ ['\n']) ++ tail ∧ tail.all isBlank ∧
      out = lines.flatMap (fun p => Layout.tidy.line p.2 ++ ['\n']) ∧
      (∀ seg ∈ out.splitOn '\n', ∀ c ∈ seg.getLast?, isSpace c = false) ∧
      ∀ p ∈ lines, '\n' ∉ p.1 ∧ (Line.read d (p.1 ++ ['\n'])).best? = some p.2 ∧
        (∀ hd ∈ p.2.head, HeadLaidOut hd (Layout.tidy.head hd) ∧
          trimRight (Layout.tidy.head hd) <+: Layout.tidy.line p.2) ∧
        ((∃ l₀, DerivesLine d p.1 l₀ ∧ Head.isMacroLine l₀.head = true) →
          Head.isMacroLine p.2.head = true) ∧
        BreaksAfterColon (Layout.tidy.line p.2) := by
  obtain ⟨lines, tail, ht, htail, hout, hall⟩ := Source.exists_lines_of_format_eq_ok h
  -- every line read is derived, so its lexemes hold no line break
  have hbreaks : ∀ p ∈ lines, breaks (p.2.spell .asWritten) = 0 := fun p hp =>
    (Line.derivesLine_of_best? (hall p hp).1 (hall p hp).2).breaks_spell
  refine ⟨lines, tail, ht, htail, hout, ?_, fun p hp => ?_⟩
  · intro seg hseg
    rw [hout] at hseg
    rcases mem_splitOn_flatMap _ lines seg hseg with rfl | ⟨p, hp, hs⟩
    · simp
    · exact Layout.getLast_of_mem_splitOn_line (hbreaks p hp) seg hs
  obtain ⟨s, oh, oc⟩ := p
  obtain ⟨hs, hbest⟩ := hall _ hp
  have hb := hbreaks _ hp
  refine ⟨hs, hbest, fun hd hhd => ?_, ?_, Layout.breaksAfterColon_line _ hb⟩
  · obtain rfl : oh = some hd := hhd
    have hhb : breaks (hd.spell .asWritten) = 0 := by
      simp only [Line.spell, Option.map_some, Option.getD_some, breaks_append] at hb
      omega
    exact ⟨Layout.headLaidOut_head hd hhb, Layout.trimRight_head_prefix_line hd oc⟩
  · rintro ⟨l₀, hd, hm⟩
    exact Line.macroLine_of_best? hbest hd hm

theorem format_lays_out_labels_macros_and_numerics :
    ∃ (lines : List (List Char × Line)) (tail : List Char),
      "@loc: lda #1\nlonglabel: .macro m a\n.endmacro\nfour .set 9\n".toList =
        lines.flatMap (fun p => p.1 ++ ['\n']) ++ tail ∧ tail.all isBlank ∧
      "    @loc:\n        LDA #1\nlonglabel:.macro  m a\n.endmacro\nfour    .set 9\n".toList =
        lines.flatMap (fun p => Layout.tidy.line p.2 ++ ['\n']) ∧
      (∀ seg ∈ ("    @loc:\n        LDA #1\nlonglabel:.macro  m a\n.endmacro\nfour    .set 9\n".toList).splitOn '\n',
        ∀ c ∈ seg.getLast?, isSpace c = false) ∧
      ∀ p ∈ lines, '\n' ∉ p.1 ∧ (Line.read .standard (p.1 ++ ['\n'])).best? = some p.2 ∧
        (∀ hd ∈ p.2.head, HeadLaidOut hd (Layout.tidy.head hd) ∧
          trimRight (Layout.tidy.head hd) <+: Layout.tidy.line p.2) ∧
        ((∃ l₀, DerivesLine .standard p.1 l₀ ∧ Head.isMacroLine l₀.head = true) →
          Head.isMacroLine p.2.head = true) ∧
        BreaksAfterColon (Layout.tidy.line p.2) :=
  format_lays_out_statements .standard (Source.format_eq_ok_of_toOption (by decide +kernel))

end AsmTidy
