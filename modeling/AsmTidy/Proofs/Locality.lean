import Mathlib
import AsmTidy.Proofs.ErrorPosition

/-!
# Lines are read one by one

The grammar lexes a text as one sequence of lines; the tidier reads it one line at a time and
counts the lines only to report an error. Both commute with cutting a text after a line break.
Let `t₁` be whole lines: empty, or ended by a line break.

**The grammar.** A line break is no blank, and no lexeme but a line's own break crosses one.
So whatever the derivation, the first line of a text is the part before its first line break
(`Lines.append_newline_iff`), and the derivations of `t₁ ++ t₂` are a derivation of `t₁` and
then one of `t₂` (`derives_append_iff`).

**Partial parses.** After whole lines that are derived, the partial parses of the text that get
furthest are those of `t₂` (`Source.isLeast_reaches_append_of_lines`). In whole lines that are
not derived every partial parse stops, and the furthest gets as far as in `t₁` alone
(`Source.isLeast_reaches_append_of_not_lines`).

**The tidier.** Starting the count `k` lines later changes nothing but the line of an error
(`Source.formatLines_add`). So `t₁ ++ t₂` is tidied as `t₁` is, and then, if that succeeds, as
`t₂` is with its lines counted after those of `t₁` (`Source.formatLines_splitOn_append`).

Main result:

* `splits_after_whole_lines`: the derivations, the furthest partial parse and the tidy text of
  `t₁ ++ t₂` are those of `t₁` and `t₂` apart. An error in `t₁` is the error of the whole.
  Otherwise `t₁ ++ t₂` is tidied exactly when `t₂` is, to the two tidy texts one after the
  other, and an error in `t₂` is reported as many lines further down as `t₁` has lines.
-/

namespace AsmTidy

/-- Induction over a text of whole lines, one line at a time. -/
@[elab_as_elim]
theorem wholeLines_induction {motive : List Char → Prop} (nil : motive [])
    (line : ∀ s X, '\n' ∉ s → (X = [] ∨ X.getLast? = some '\n') → motive X →
      motive (s ++ '\n' :: X)) :
    ∀ t, (t = [] ∨ t.getLast? = some '\n') → motive t := by
  intro t
  -- induction on the length: the lines after the first are a shorter text of whole lines
  induction hlen : t.length using Nat.strongRecOn generalizing t with
  | ind k ih =>
  intro ht
  rcases ht with rfl | hlast
  · exact nil
  · obtain ⟨s, X, hs, rfl⟩ := exists_eq_first_newline (List.mem_of_getLast? hlast)
    have hX : X = [] ∨ X.getLast? = some '\n' := by
      cases X with
      | nil => exact Or.inl rfl
      | cons c X => exact Or.inr (by simpa [List.getLast?_append] using hlast)
    have hlt : X.length < k := by
      simp only [← hlen, List.length_append, List.length_cons]
      omega
    exact line s X hs hX (ih X.length hlt X rfl hX)

/-- A text has one first line: the part before its first line break. -/
theorem append_newline_inj {s s' X X' : List Char} (hs : '\n' ∉ s) (hs' : '\n' ∉ s')
    (h : s ++ '\n' :: X = s' ++ '\n' :: X') : s = s' ∧ X = X' := by
  have hsplit := congrArg (List.splitOn '\n') h
  rw [List.splitOn_append_cons_self_of_not_mem hs,
    List.splitOn_append_cons_self_of_not_mem hs'] at hsplit
  obtain rfl := (List.cons.inj hsplit).1
  exact ⟨rfl, (List.cons.inj (List.append_cancel_left h)).2⟩

/-! ## Derivations of whole lines -/

namespace Lines

variable {d : Dialect} {ls : List Line}

/-- The empty text is no lines. -/
theorem nil_iff : Lines d [] ls ↔ ls = [] := by
  constructor
  · intro h
    generalize ht : ([] : List Char) = t at h
    cases h with
    | last _ => rfl
    | cons => simp at ht
  · rintro rfl
    exact .last rfl

/-- Whatever the derivation, the first line of a text is the part before its first line
break: the blanks after the last line cannot hold one. -/
theorem append_newline_iff {s X : List Char} (hs : '\n' ∉ s) :
    Lines d (s ++ '\n' :: X) ls ↔
      ∃ l ls', ls = l :: ls' ∧ DerivesLine d s l ∧ Lines d X ls' := by
  constructor
  · intro h
    generalize ht : s ++ '\n' :: X = t at h
    cases h with
    | last hb =>
      subst ht
      exact absurd (List.all_eq_true.mp hb '\n' (by simp)) (by decide)
    | cons hs' hl hX =>
      obtain ⟨rfl, rfl⟩ := append_newline_inj hs' hs ht.symm
      exact ⟨_, _, rfl, hl, hX⟩
  · rintro ⟨l, ls', rfl, hl, hX⟩
    exact .cons hs hl hX

/-- The lines of whole lines and a text after them are the lines of each. -/
theorem append_iff {t₁ t₂ : List Char} (h : t₁ = [] ∨ t₁.getLast? = some '\n') :
    Lines d (t₁ ++ t₂) ls ↔ ∃ ls₁ ls₂, ls = ls₁ ++ ls₂ ∧ Lines d t₁ ls₁ ∧ Lines d t₂ ls₂ := by
  -- the rest of the text has lines of its own, so the induction is over every `ls`
  revert ls
  show ∀ ls, _
  refine wholeLines_induction ?_ ?_ t₁ h
  · intro ls
    simp [nil_iff]
  · intro s X hs _ ih ls
    rw [List.append_assoc, List.cons_append, append_newline_iff hs]
    constructor
    · rintro ⟨l, ls', rfl, hl, hX⟩
      obtain ⟨ls₁, ls₂, rfl, h₁, h₂⟩ := (ih ls').mp hX
      exact ⟨l :: ls₁, ls₂, rfl, .cons hs hl h₁, h₂⟩
    · rintro ⟨ls₁, ls₂, rfl, h₁, h₂⟩
      obtain ⟨l, ls', rfl, hl, hX⟩ := (append_newline_iff hs).mp h₁
      exact ⟨l, ls' ++ ls₂, rfl, hl, (ih _).mpr ⟨ls', ls₂, rfl, hX, h₂⟩⟩

end Lines

/-- The derivations of whole lines and a text after them are a derivation of each, one after
the other. -/
theorem derives_append_iff {d : Dialect} {t₁ t₂ : List Char} {ls : List Line}
    (h : t₁ = [] ∨ t₁.getLast? = some '\n') :
    Derives d (t₁ ++ t₂) ls ↔
      ∃ ls₁ ls₂, ls = ls₁ ++ ls₂ ∧ Derives d t₁ ls₁ ∧ Derives d t₂ ls₂ := by
  simp only [derives_iff_lines]
  exact Lines.append_iff h

namespace Source

variable {d : Dialect}

/-- Counting the lines from `n + k` reports every error `k` lines further down. -/
theorem formatLines_add (n k : Nat) (ls : List (List Char)) :
    formatLines d (n + k) ls = (formatLines d n ls).mapError (ParseError.shift k) := by
  induction ls generalizing n with
  | nil => rfl
  | cons text more ih =>
    cases more with
    | nil =>
      simp only [formatLines, ParseError.atFrontier_add]
      split <;> rfl
    | cons next rest =>
      have hmore := ih (n + 1)
      rw [Nat.add_right_comm] at hmore
      simp only [formatLines]
      split
      · rw [hmore]
        cases formatLines d (n + 1) (next :: rest) <;> rfl
      · rw [ParseError.atFrontier_add]
        rfl

/-- A text that starts with a line: the line is printed before the rest, or its own error
stops the tidier. -/
theorem formatLines_append_newline_eq {n : Nat} {s X : List Char} (hs : '\n' ∉ s) :
    formatLines d n ((s ++ '\n' :: X).splitOn '\n') =
      match (Line.read d (s ++ ['\n'])).best? with
      | some l => (formatLines d (n + 1) (X.splitOn '\n')).map fun rest =>
          Layout.tidy.line l ++ '\n' :: rest
      | none => .error (ParseError.atFrontier n (s ++ ['\n']) (Line.read d (s ++ ['\n'])).frontier) := by
  rw [List.splitOn_append_cons_self_of_not_mem hs]
  obtain ⟨p, ps, he⟩ := List.exists_cons_of_ne_nil (List.splitOn_ne_nil '\n' X)
  rw [he]
  cases hb : (Line.read d (s ++ ['\n'])).best? <;> simp only [formatLines, hb]

/-- Whole lines are tidied before what follows them, whose lines are counted after theirs. -/
theorem formatLines_splitOn_append (n : Nat) {t₁ : List Char} (t₂ : List Char)
    (h : t₁ = [] ∨ t₁.getLast? = some '\n') :
    formatLines d n ((t₁ ++ t₂).splitOn '\n') =
      (formatLines d n (t₁.splitOn '\n')).bind fun o₁ =>
        (formatLines d (n + t₁.count '\n') (t₂.splitOn '\n')).map (o₁ ++ ·) := by
  revert n
  refine wholeLines_induction ?_ ?_ t₁ h
  · intro n
    rw [List.nil_append, List.splitOn_nil, List.count_nil, Nat.add_zero]
    cases formatLines d n (t₂.splitOn '\n') <;> rfl
  · intro s X hs _ ih n
    have hcount : (s ++ '\n' :: X).count '\n' = X.count '\n' + 1 := by
      simp [List.count_append, List.count_eq_zero_of_not_mem hs]
    rw [List.append_assoc, List.cons_append, formatLines_append_newline_eq hs,
      formatLines_append_newline_eq hs, hcount]
    split
    · rw [ih (n + 1), ← Nat.add_assoc, Nat.add_right_comm]
      cases formatLines d (n + 1) (X.splitOn '\n') <;>
        cases formatLines d (n + X.count '\n' + 1) (t₂.splitOn '\n') <;>
        simp [Except.bind, Except.map]
    · rfl

/-- Tidying whole lines and then a text `t₂` is tidying the two on their own. -/
theorem format_append {t₁ : List Char} (t₂ : List Char)
    (h : t₁ = [] ∨ t₁.getLast? = some '\n') :
    format d (t₁ ++ t₂) =
      match format d t₁, format d t₂ with
      | .error e, _ => .error e
      | .ok o₁, .ok o₂ => .ok (o₁ ++ o₂)
      | .ok _, .error e => .error (e.shift (t₁.count '\n')) := by
  have h₂ := formatLines_add (d := d) 1 (t₁.count '\n') (t₂.splitOn '\n')
  unfold format
  rw [formatLines_splitOn_append 1 t₂ h, h₂]
  cases formatLines d 1 (t₁.splitOn '\n') <;>
    cases formatLines d 1 (t₂.splitOn '\n') <;> rfl

/-! ## Partial parses of whole lines -/

section Reach

variable {t₁ t₂ : List Char}

/-- Of the partial parses of a text, one leaves the least. -/
theorem exists_isLeast_reaches (t : List Char) :
    ∃ k, IsLeast {m | Reaches d (words d) t m} k :=
  ⟨_, isLeast_csInf ⟨_, reaches_length t⟩⟩

/-- After whole lines that are derived, the furthest partial parse of the text is the
furthest of what follows them. -/
theorem isLeast_reaches_append_of_lines (hl : ∃ ls₁, Lines d t₁ ls₁)
    (h : t₁ = [] ∨ t₁.getLast? = some '\n') {k : Nat} :
    IsLeast {m | Reaches d (words d) (t₁ ++ t₂) m} k ↔
      IsLeast {m | Reaches d (words d) t₂ m} k := by
  revert hl
  refine wholeLines_induction ?_ ?_ t₁ h
  · intro _
    rfl
  · rintro s X hs _ ih ⟨ls₁, hl⟩
    obtain ⟨l, ls', -, hdl, hX⟩ := (Lines.append_newline_iff hs).mp hl
    rw [List.append_assoc, List.cons_append, isLeast_reaches_append_line hs hdl]
    exact ih ⟨ls', hX⟩

/-- In whole lines that are not derived, every partial parse of the text stops, and the
furthest gets as far as in those lines alone. -/
theorem isLeast_reaches_append_of_not_lines (hn : ∀ ls, ¬ Lines d t₁ ls)
    (h : t₁ = [] ∨ t₁.getLast? = some '\n') {k : Nat} :
    IsLeast {m | Reaches d (words d) (t₁ ++ t₂) m} (k + t₂.length) ↔
      IsLeast {m | Reaches d (words d) t₁ m} k := by
  revert hn
  refine wholeLines_induction ?_ ?_ t₁ h
  · intro hn
    exact (hn [] (.last rfl)).elim
  · intro s X hs _ ih hn
    rw [List.append_assoc, List.cons_append]
    cases hb : (Line.read d (s ++ ['\n'])).best? with
    | some l =>
      -- the first line is derived, so the rest is not
      have hdl := Line.derivesLine_of_best? hs hb
      rw [isLeast_reaches_append_line hs hdl, isLeast_reaches_append_line hs hdl]
      exact ih fun ls hX => hn (l :: ls) (.cons hs hdl hX)
    | none =>
      -- every partial parse stops in the first line, the furthest at its frontier
      rw [(isLeast_reaches_of_best?_eq_none (X := X ++ t₂) hs hb).isLeast_iff_eq,
        (isLeast_reaches_of_best?_eq_none (X := X) hs hb).isLeast_iff_eq, List.length_append]
      omega

/-- After whole lines that are derived, the furthest point a partial parse consumes is as far
into what follows as in that text alone. -/
theorem isGreatest_consumes_append_of_lines (hl : ∃ ls₁, Lines d t₁ ls₁)
    (h : t₁ = [] ∨ t₁.getLast? = some '\n') (p : Nat) :
    IsGreatest {q | Consumes d (t₁ ++ t₂) q} (t₁.length + p) ↔
      IsGreatest {q | Consumes d t₂ q} p := by
  rw [isGreatest_consumes_iff, isGreatest_consumes_iff, List.length_append,
    Nat.add_sub_add_left, Nat.add_le_add_iff_left, isLeast_reaches_append_of_lines hl h]

/-- In whole lines that are not derived, the furthest point a partial parse consumes is the
furthest in those lines alone. -/
theorem isGreatest_consumes_append_of_not_lines (hn : ∀ ls, ¬ Lines d t₁ ls)
    (h : t₁ = [] ∨ t₁.getLast? = some '\n') (p : Nat) :
    IsGreatest {q | Consumes d (t₁ ++ t₂) q} p ↔ IsGreatest {q | Consumes d t₁ q} p := by
  obtain ⟨k, hk⟩ := exists_isLeast_reaches (d := d) t₁
  have hk₂ : IsLeast {m | Reaches d (words d) (t₁ ++ t₂) m} (k + t₂.length) :=
    (isLeast_reaches_append_of_not_lines hn h).mpr hk
  have hkt : k ≤ t₁.length := Reaches.le_length hk.1
  rw [isGreatest_consumes_iff, isGreatest_consumes_iff, hk₂.isLeast_iff_eq, hk.isLeast_iff_eq,
    List.length_append]
  omega

end Reach

end Source

/-- A text of whole lines followed by any text is parsed and tidied as the two apart. Its
derivations are a derivation of each. Where the first is derived, the furthest partial parse
of the whole is as far into the second as the furthest of the second alone; where it is not,
the furthest partial parse stops in it, where the furthest of the first alone does. An error
in the first is the tidier's error on the whole; otherwise the whole is tidied exactly when the
second is, to the two tidy texts one after the other, and an error in the second is reported
as many lines further down as the first has lines, at the same column and character. -/
theorem splits_after_whole_lines (d : Dialect) {t₁ : List Char} (t₂ : List Char)
    (h : t₁ = [] ∨ t₁.getLast? = some '\n') :
    (∀ ls, Derives d (t₁ ++ t₂) ls ↔
      ∃ ls₁ ls₂, ls = ls₁ ++ ls₂ ∧ Derives d t₁ ls₁ ∧ Derives d t₂ ls₂) ∧
    ((∃ ls₁, Derives d t₁ ls₁) → ∀ p,
      IsGreatest {q | Source.Consumes d (t₁ ++ t₂) q} (t₁.length + p) ↔
        IsGreatest {q | Source.Consumes d t₂ q} p) ∧
    ((∀ ls₁, ¬ Derives d t₁ ls₁) → ∀ p,
      IsGreatest {q | Source.Consumes d (t₁ ++ t₂) q} p ↔
        IsGreatest {q | Source.Consumes d t₁ q} p) ∧
    Source.format d (t₁ ++ t₂) =
      match Source.format d t₁, Source.format d t₂ with
      | .error e, _ => .error e
      | .ok o₁, .ok o₂ => .ok (o₁ ++ o₂)
      | .ok _, .error e => .error (e.shift (t₁.count '\n')) := by
  refine ⟨fun _ => derives_append_iff h, ?_, ?_, Source.format_append t₂ h⟩
  · rintro ⟨ls₁, h₁⟩
    exact Source.isGreatest_consumes_append_of_lines ⟨ls₁, derives_iff_lines.mp h₁⟩ h
  · intro hn
    exact Source.isGreatest_consumes_append_of_not_lines
      (fun ls hl => hn ls (derives_iff_lines.mpr hl)) h

theorem splits_after_nop :
    ("nop\n".toList = [] ∨ "nop\n".toList.getLast? = some '\n') ∧
    (∀ ls, Derives .standard ("nop\n".toList ++ "lda (\n".toList) ls ↔
      ∃ ls₁ ls₂, ls = ls₁ ++ ls₂ ∧ Derives .standard "nop\n".toList ls₁ ∧
        Derives .standard "lda (\n".toList ls₂) ∧
    ((∃ ls₁, Derives .standard "nop\n".toList ls₁) → ∀ p,
      IsGreatest {q | Source.Consumes .standard ("nop\n".toList ++ "lda (\n".toList) q}
          ("nop\n".toList.length + p) ↔
        IsGreatest {q | Source.Consumes .standard "lda (\n".toList q} p) ∧
    ((∀ ls₁, ¬ Derives .standard "nop\n".toList ls₁) → ∀ p,
      IsGreatest {q | Source.Consumes .standard ("nop\n".toList ++ "lda (\n".toList) q} p ↔
        IsGreatest {q | Source.Consumes .standard "nop\n".toList q} p) ∧
    Source.format .standard ("nop\n".toList ++ "lda (\n".toList) =
      match Source.format .standard "nop\n".toList, Source.format .standard "lda (\n".toList with
      | .error e, _ => .error e
      | .ok o₁, .ok o₂ => .ok (o₁ ++ o₂)
      | .ok _, .error e => .error (e.shift ("nop\n".toList.count '\n')) :=
  ⟨Or.inr (by decide), splits_after_whole_lines .standard _ (Or.inr (by decide))⟩

end AsmTidy
