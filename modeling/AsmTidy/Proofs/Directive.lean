import Mathlib
import AsmTidy.Directive

/-!
# Where the ignore directive is found

`Directive.firstOptions` looks for the directive line by line. Here the directive is stated as
a pattern over the whole text, and the search is shown to find its first occurrence.

**The pattern** (`DirectiveAt`). At the start of a line: blanks, a semicolon, any white space,
the keyword `nice65:`, and the options, which are the rest of that line and not empty. The
white space after the semicolon is any white space at all, line breaks included, so a
directive may begin on an earlier line than its keyword.

**The first directive** (`FirstIn`). The occurrence of the pattern that starts at the earliest
line start. A line start is a position after whole lines.

Main results:

* `optionsAt_eq_some_iff`: the check at the front of a text reads exactly the pattern;
* `firstOptions_eq_some_iff`: the search finds exactly the first directive;
* `ignores_iff`: a file asks to be left alone exactly when its first directive has the word
  `ignore` among its options.
-/

namespace AsmTidy.Directive

open Text

/-- The text begins with a directive whose options are `o`. -/
def DirectiveAt (cs o : List Char) : Prop :=
  ∃ b ws rest, b.all isBlank ∧ ws.all isSpace ∧ o ≠ [] ∧ '\n' ∉ o ∧
    (rest = [] ∨ rest.head? = some '\n') ∧ cs = b ++ ';' :: (ws ++ keyword ++ o ++ rest)

/-- The first directive of the text has the options `o`: it starts after the whole lines
`pre`, and no directive starts at an earlier line start. -/
def FirstIn (cs o : List Char) : Prop :=
  ∃ pre post, cs = pre ++ post ∧ (pre = [] ∨ pre.getLast? = some '\n') ∧ DirectiveAt post o ∧
    ∀ pre' post', cs = pre' ++ post' → (pre' = [] ∨ pre'.getLast? = some '\n') →
      pre'.length < pre.length → ∀ o', ¬ DirectiveAt post' o'

/-! ## One position -/

/-- What stands after the semicolon: the white space is dropped up to the keyword. -/
theorem dropWhile_isSpace_keyword {ws X : List Char} (hws : ws.all isSpace) :
    (ws ++ keyword ++ X).dropWhile isSpace = keyword ++ X := by
  rw [List.append_assoc, List.dropWhile_append_of_pos (List.all_eq_true.mp hws)]
  rfl

/-- The options of a line: everything up to its break. -/
theorem takeWhile_line {o rest : List Char} (ho : '\n' ∉ o)
    (hrest : rest = [] ∨ rest.head? = some '\n') :
    (o ++ rest).takeWhile (· != '\n') = o := by
  have hall : ∀ c ∈ o, (c != '\n') = true := fun c hc => by
    simpa using fun h : c = '\n' => ho (h ▸ hc)
  rw [List.takeWhile_append_of_pos hall]
  rcases hrest with rfl | hrest
  · simp
  · obtain ⟨r, rfl⟩ : ∃ r, rest = '\n' :: r := by
      cases rest with
      | nil => simp at hrest
      | cons c r => exact ⟨r, by simpa using hrest⟩
    simp

theorem optionsAt_of_directiveAt {cs o : List Char} (h : DirectiveAt cs o) :
    optionsAt cs = some o := by
  obtain ⟨b, ws, rest, hb, hws, hne, ho, hrest, rfl⟩ := h
  have hsemi : (b ++ ';' :: (ws ++ keyword ++ o ++ rest)).dropWhile isBlank =
      ';' :: (ws ++ keyword ++ o ++ rest) := by
    rw [List.dropWhile_append_of_pos (List.all_eq_true.mp hb)]
    rfl
  have hprefix : keyword.isPrefixOf (keyword ++ (o ++ rest)) = true :=
    List.isPrefixOf_iff_prefix.mpr (List.prefix_append _ _)
  unfold optionsAt
  rw [hsemi]
  simp only
  rw [List.append_assoc (ws ++ keyword), dropWhile_isSpace_keyword hws, if_pos hprefix,
    List.drop_left, takeWhile_line ho hrest]
  cases o with
  | nil => exact absurd rfl hne
  | cons c o => rfl

theorem directiveAt_of_optionsAt {cs o : List Char} (h : optionsAt cs = some o) :
    DirectiveAt cs o := by
  unfold optionsAt at h
  split at h
  · next rest hsemi =>
    simp only at h
    split at h
    · next hprefix =>
      obtain ⟨t, ht⟩ := List.isPrefixOf_iff_prefix.mp hprefix
      have hdrop : (rest.dropWhile isSpace).drop keyword.length = t := by
        rw [← ht, List.drop_left]
      rw [hdrop] at h
      -- the options are the rest of the line, which is not empty
      have ho : t.takeWhile (· != '\n') = o := by
        split at h
        · cases h
        · next heq => exact (Option.some.inj h) ▸ rfl
      refine ⟨cs.takeWhile isBlank, rest.takeWhile isSpace, t.dropWhile (· != '\n'),
        List.all_takeWhile, List.all_takeWhile, ?_, ?_, ?_, ?_⟩
      · rintro rfl
        split at h <;> simp_all
      · intro hn
        have := List.mem_takeWhile_imp (ho ▸ hn)
        simp at this
      · have hd := List.head?_dropWhile_not (· != '\n') t
        cases hx : t.dropWhile (· != '\n') with
        | nil => exact Or.inl rfl
        | cons c x =>
          rw [hx] at hd
          simp only [List.head?_cons, bne_eq_false_iff_eq] at hd
          exact Or.inr (by simp [hd])
      · conv_lhs => rw [← List.takeWhile_append_dropWhile (p := isBlank) (l := cs), hsemi,
          ← List.takeWhile_append_dropWhile (p := isSpace) (l := rest), ← ht,
          ← List.takeWhile_append_dropWhile (p := (· != '\n')) (l := t), ho]
        simp
    · cases h
  · cases h

/-- The check at the front of a text reads exactly a directive there. -/
theorem optionsAt_eq_some_iff {cs o : List Char} : optionsAt cs = some o ↔ DirectiveAt cs o :=
  ⟨directiveAt_of_optionsAt, optionsAt_of_directiveAt⟩

/-! ## The first line start -/

/-- A line followed by whole lines ends in a line break. -/
theorem getLast?_line_append {line q : List Char} (hq : q = [] ∨ q.getLast? = some '\n') :
    (line ++ '\n' :: q).getLast? = some '\n' := by
  rcases hq with rfl | hq
  · simp
  · cases q with
    | nil => simp
    | cons c q => simpa [List.getLast?_append] using hq

/-- A line start of a text that begins with a line is its start, or a line start of what
follows the line. -/
theorem wholeLines_prefix {line rest pre post : List Char} (hline : '\n' ∉ line)
    (he : line ++ '\n' :: rest = pre ++ post) (hpre : pre = [] ∨ pre.getLast? = some '\n') :
    pre = [] ∨ ∃ q, pre = line ++ '\n' :: q ∧ (q = [] ∨ q.getLast? = some '\n') ∧
      rest = q ++ post := by
  rcases hpre with rfl | hlast
  · exact Or.inl rfl
  · right
    have hmem : '\n' ∈ pre := List.mem_of_getLast? hlast
    -- `pre` ends in a line break and `line` holds none, so `pre` reaches past `line`
    rcases List.append_eq_append_iff.mp he with ⟨a, rfl, hpost⟩ | ⟨c, rfl, -⟩
    · cases a with
      | nil => exact absurd (by simpa using hmem) hline
      | cons x q =>
        simp only [List.cons_append, List.cons.injEq] at hpost
        obtain ⟨rfl, rfl⟩ := hpost
        refine ⟨q, rfl, ?_, rfl⟩
        cases q with
        | nil => exact Or.inl rfl
        | cons y q => exact Or.inr (by simpa [List.getLast?_append] using hlast)
    · exact absurd (List.mem_append_left c hmem) hline

theorem firstIn_of_directiveAt {cs o : List Char} (h : DirectiveAt cs o) : FirstIn cs o :=
  ⟨[], cs, rfl, Or.inl rfl, h, fun _ _ _ _ hlt => absurd hlt (Nat.not_lt_zero _)⟩

/-- A directive at the start of the text is the first one. -/
theorem eq_of_firstIn_of_directiveAt {cs o o' : List Char} (h : FirstIn cs o)
    (h' : DirectiveAt cs o') : o = o' := by
  obtain ⟨pre, post, rfl, hpre, hd, hfirst⟩ := h
  cases pre with
  | nil =>
    have := (optionsAt_of_directiveAt hd).symm.trans (optionsAt_of_directiveAt h')
    exact Option.some.inj this
  | cons c pre => exact absurd h' (hfirst [] _ rfl (Or.inl rfl) (by simp) o')

/-- Past a first line with no directive, the first directive is that of the rest. -/
theorem firstIn_line_append_iff {line rest o : List Char} (hline : '\n' ∉ line)
    (hno : ∀ o', ¬ DirectiveAt (line ++ '\n' :: rest) o') :
    FirstIn (line ++ '\n' :: rest) o ↔ FirstIn rest o := by
  constructor
  · rintro ⟨pre, post, he, hpre, hd, hfirst⟩
    rcases wholeLines_prefix hline he hpre with rfl | ⟨q, rfl, hq, hrest⟩
    · rw [List.nil_append] at he
      exact absurd (he ▸ hd) (hno o)
    · refine ⟨q, post, hrest, hq, hd, fun pre' post' he' hpre' hlt => ?_⟩
      refine hfirst (line ++ '\n' :: pre') post' (by simp [he']) ?_ (by simp; omega)
      exact Or.inr (getLast?_line_append hpre')
  · rintro ⟨q, post, rfl, hq, hd, hfirst⟩
    refine ⟨line ++ '\n' :: q, post, by simp, Or.inr (getLast?_line_append hq), hd, ?_⟩
    intro pre' post' he' hpre' hlt
    rcases wholeLines_prefix hline he' hpre' with rfl | ⟨q', rfl, hq', hrest⟩
    · rw [List.nil_append] at he'
      exact he' ▸ hno
    · exact hfirst q' post' hrest hq' (by simpa using hlt)

/-- A text of one line has a directive only at its start. -/
theorem not_firstIn_of_newline_not_mem {cs o : List Char} (hcs : '\n' ∉ cs)
    (hno : ∀ o', ¬ DirectiveAt cs o') : ¬ FirstIn cs o := by
  rintro ⟨pre, post, rfl, hpre, hd, -⟩
  rcases hpre with rfl | hlast
  · exact hno o hd
  · exact hcs (List.mem_append_left post (List.mem_of_getLast? hlast))

/-- The search finds exactly the first directive of the text. -/
theorem firstOptions_eq_some_iff (cs o : List Char) : firstOptions cs = some o ↔ FirstIn cs o := by
  fun_induction firstOptions cs with
  | case1 cs o' h =>
    constructor
    · rintro ⟨⟩
      exact firstIn_of_directiveAt (directiveAt_of_optionsAt h)
    · intro hf
      rw [eq_of_firstIn_of_directiveAt hf (directiveAt_of_optionsAt h)]
  | case2 cs h c rest hd ih =>
    -- the text is a line with no directive at its start, a line break, and `rest`
    have hc : c = '\n' := by
      have := List.head?_dropWhile_not (· != '\n') cs
      rw [hd] at this
      simpa using this
    subst hc
    have hline : '\n' ∉ cs.takeWhile (· != '\n') := fun hm => by
      simpa using List.mem_takeWhile_imp hm
    have hcs : cs = cs.takeWhile (· != '\n') ++ '\n' :: rest := by
      rw [← hd, List.takeWhile_append_dropWhile]
    have hno : ∀ o', ¬ DirectiveAt (cs.takeWhile (· != '\n') ++ '\n' :: rest) o' := by
      rw [← hcs]
      intro o' hd'
      rw [optionsAt_of_directiveAt hd'] at h
      cases h
    rw [ih, hcs, firstIn_line_append_iff hline hno]
  | case3 cs h hd =>
    have hcs : '\n' ∉ cs := fun hm => by
      simpa using List.dropWhile_eq_nil_iff.mp hd '\n' hm
    have hno : ∀ o', ¬ DirectiveAt cs o' := fun o' hd' => by
      rw [optionsAt_of_directiveAt hd'] at h
      cases h
    simp only [reduceCtorEq, false_iff]
    exact not_firstIn_of_newline_not_mem hcs hno

/-- A file asks to be left alone exactly when the options of its first directive hold the
word `ignore`. -/
theorem ignores_iff (cs : List Char) :
    ignores cs = true ↔ ∃ o, FirstIn cs o ∧ (words o).any isIgnore = true := by
  unfold ignores
  cases h : firstOptions cs with
  | none =>
    simp only [Bool.false_eq_true, false_iff, not_exists, not_and]
    intro o ho
    rw [(firstOptions_eq_some_iff cs o).mpr ho] at h
    cases h
  | some o =>
    constructor
    · intro hw
      exact ⟨o, (firstOptions_eq_some_iff cs o).mp h, hw⟩
    · rintro ⟨o', ho', hw⟩
      rw [(firstOptions_eq_some_iff cs o').mpr ho', Option.some.injEq] at h
      exact h ▸ hw

end AsmTidy.Directive
