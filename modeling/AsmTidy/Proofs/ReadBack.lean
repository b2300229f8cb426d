import Mathlib
import AsmTidy.Proofs.Registers
import AsmTidy.Proofs.MacroLines

/-!
# Reading printed operands back

The tidier prints an operand's lexemes with a space on each side of every operator but the
comma, and `, ` between two operands. This module reads such a printed operand back.

* `Lexeme.literal_relex`: a literal is lexed the same way in front of any character that no
  literal holds (`Lexeme.isStop`): the comma, the space, the closing parenthesis and the line
  break among them. So the spaces that printing adds never change a literal.
* `Expr.lexes_render`, `Operand.lexes_render`: a printed expression or operand is lexed as its
  own lexemes.
* `Expr.cases_of_lexes_render`, `Operand.cases_of_lexes_render`: every reading of a printed
  expression or operand is the operand itself, or stops inside it after a literal, or runs on
  past it through an operator.
-/

namespace AsmTidy

open Text Lexeme

/-! ## Literals in front of a stop -/

namespace Lexeme

/-- A character that no literal holds: neither a literal character nor a quote. -/
def isStop (c : Char) : Bool := !isLiteralChar c && c != '\''

/-- The text is empty or starts with a character that no literal holds. -/
def StopsAt (rest : List Char) : Prop := ∀ c ∈ rest.head?, isStop c = true

theorem stopsAt_cons {c : Char} (hc : isStop c = true) (cs : List Char) : StopsAt (c :: cs) := by
  simpa [StopsAt] using hc

/-- What a stop is not: every class of character that a literal's lexers read. -/
theorem isStop_cases {c : Char} (hc : isStop c = true) :
    isIdentChar c = false ∧ c.isDigit = false ∧ isHexDigit c = false ∧ isSign c = false ∧
      c ∉ ['.', 'e', 'E', '0', '1', '\''] := by
  have hl : isLiteralChar c = false ∧ c ≠ '\'' := by simpa [isStop] using hc
  have hi : isIdentChar c = false ∧ isHexDigit c = false := by
    simp only [isLiteralChar, Bool.or_eq_false_iff] at hl
    exact hl.1.1
  have hd : c.isDigit = false := by
    have := hi.1
    simp only [isIdentChar, Char.isAlphanum, Bool.or_eq_false_iff] at this
    exact this.1.2
  refine ⟨hi.1, hd, hi.2, ?_, ?_⟩
  · simp only [isSign, Bool.or_eq_false_iff, beq_eq_false_iff_ne]
    constructor <;> rintro rfl <;> exact absurd hl.1 (by decide)
  · intro hm
    simp only [List.mem_cons, List.not_mem_nil, or_false] at hm
    rcases hm with rfl | rfl | rfl | rfl | rfl | rfl
    all_goals first | exact absurd hl.1 (by decide) | exact absurd rfl hl.2

/-! ### The lexers a literal is built from -/

theorem takeWhile_append_of_stop {p : Char → Bool} {w r : List Char} (hw : ∀ a ∈ w, p a = true)
    (hr : ∀ c ∈ r.head?, p c = false) : (w ++ r).takeWhile p = w ∧ (w ++ r).dropWhile p = r := by
  have ht : r.takeWhile p = [] ∧ r.dropWhile p = r := by
    cases r with
    | nil => simp
    | cons c r => simp [hr c rfl]
  rw [List.takeWhile_append_of_pos hw, List.dropWhile_append_of_pos hw, ht.1, ht.2]
  simp

theorem all_of_eq_takeWhile {p : Char → Bool} {w cs : List Char} (h : w = cs.takeWhile p) :
    ∀ a ∈ w, p a = true := by
  rw [h]
  exact fun a ha => List.all_eq_true.mp List.all_takeWhile a ha

/-- A run ends where its class ends, whatever comes after it. -/
theorem run_relex {p : Char → Bool} {w r r' : List Char} (h : run p (w ++ r) = some (w, r))
    (hr' : ∀ c ∈ r'.head?, p c = false) : run p (w ++ r') = some (w, r') := by
  obtain ⟨hhead, hw, -⟩ := Terminal.run_eq_some_iff.mp h
  have hall := all_of_eq_takeWhile hw
  obtain ⟨ht, hd⟩ := takeWhile_append_of_stop hall hr'
  refine Terminal.run_eq_some_iff.mpr ⟨?_, ht.symm, hd.symm⟩
  cases w with
  | nil =>
    -- an empty run would have left a character of its class unread
    cases r with
    | nil => simp at hhead
    | cons c r =>
      have hc : p c = true := by simpa using hhead
      simp [List.takeWhile_cons_of_pos hc] at hw
  | cons a w => simp [hall a List.mem_cons_self]

theorem many_relex {p : Char → Bool} {w r r' : List Char} (h : many p (w ++ r) = some (w, r))
    (hr' : ∀ c ∈ r'.head?, p c = false) : many p (w ++ r') = some (w, r') := by
  simp only [many, Option.some.injEq, Prod.mk.injEq] at h
  obtain ⟨ht, hd⟩ := takeWhile_append_of_stop (all_of_eq_takeWhile h.1.symm) hr'
  simp [many, ht, hd]

/-- A single character is read whatever comes after it. -/
theorem single_relex {p : Char → Bool} {w r r' : List Char} (h : single p (w ++ r) = some (w, r)) :
    single p (w ++ r') = some (w, r') := by
  obtain ⟨c, rfl⟩ := single_eq_some h
  have hc : p c = true := by
    by_contra hc
    simp [single, hc] at h
  simp [single, hc]

theorem char_relex {c : Char} {w r r' : List Char} (h : char c (w ++ r) = some (w, r)) :
    char c (w ++ r') = some (w, r') :=
  single_relex h

/-- Two lexers one after the other read the same again where each of them does. -/
theorem seq_relex {f g : Lexer} (hg : Splits g) {w r r' : List Char}
    (h : seq f g (w ++ r) = some (w, r))
    (hrelex : ∀ a b, f (a ++ (b ++ r)) = some (a, b ++ r) → g (b ++ r) = some (b, r) →
      f (a ++ (b ++ r')) = some (a, b ++ r') ∧ g (b ++ r') = some (b, r')) :
    seq f g (w ++ r') = some (w, r') := by
  obtain ⟨a, m, b, h₁, h₂, rfl⟩ := seq_eq_some h
  obtain rfl : b ++ r = m := hg _ _ _ h₂
  obtain ⟨h₁', h₂'⟩ := hrelex a b (by simpa using h₁) h₂
  simp [seq, h₁', h₂']

/-- An optional lexer reads the same again where it read something, and reads nothing again
where it cannot read. -/
theorem opt_relex {f : Lexer} {w r r' : List Char} (h : opt f (w ++ r) = some (w, r))
    (hsome : f (w ++ r) = some (w, r) → f (w ++ r') = some (w, r'))
    (hnone : w = [] → f r' = none) : opt f (w ++ r') = some (w, r') := by
  cases hf : f (w ++ r) with
  | none =>
    simp only [opt, hf, Option.none_or, Option.some.injEq, Prod.mk.injEq] at h
    obtain rfl : w = [] := by simpa using h.1.symm
    simp [opt, hnone rfl]
  | some p =>
    simp only [opt, hf, Option.some_or] at h
    simp [opt, hsome (hf.trans h)]

theorem first_of_left {f g : Lexer} {cs : List Char} {p : List Char × List Char}
    (h : f cs = some p) : first f g cs = some p := by
  simp [first, h]

theorem first_of_right {f g : Lexer} {cs : List Char} {p : List Char × List Char}
    (hf : f cs = none) (hg : g cs = some p) : first f g cs = some p := by
  simp [first, hf, hg]

/-! ### Numbers -/

/-- An exponent starts with `e` or `E`, which is no digit. -/
theorem exponent_head {cs b x : List Char} (h : exponent cs = some (b, x)) :
    ∃ c b', b = c :: b' ∧ c.isDigit = false := by
  obtain ⟨a, m, b₂, h₁, -, rfl⟩ := seq_eq_some h
  obtain ⟨c, rfl, hc⟩ := single_eq_some_mem h₁
  refine ⟨c, b₂, rfl, ?_⟩
  simp only [Bool.or_eq_true, beq_iff_eq] at hc
  rcases hc with rfl | rfl <;> rfl

theorem exponent_of_isStop {c : Char} (hc : isStop c = true) (cs : List Char) :
    exponent (c :: cs) = none := by
  have hE : c ∉ ['.', 'e', 'E', '0', '1', '\''] := (isStop_cases hc).2.2.2.2
  have he : (c == 'e' || c == 'E') = false := by
    simp only [List.mem_cons, List.not_mem_nil, or_false, not_or] at hE
    simp [hE.2.1, hE.2.2.1]
  exact (rejects_single he).seq _ cs

/-- An exponent is read again in front of anything but a digit. -/
theorem exponent_relex {w r r' : List Char} (h : exponent (w ++ r) = some (w, r))
    (hr' : ∀ c ∈ r'.head?, c.isDigit = false) : exponent (w ++ r') = some (w, r') := by
  refine seq_relex (splits_seq (splits_opt (reads_single _).splits) reads_digits.splits) h
    fun a b ha hb => ⟨single_relex ha, ?_⟩
  refine seq_relex reads_digits.splits hb fun s D hs hD => ⟨?_, run_relex hD hr'⟩
  -- the sign is read again where it was read, and missed again before the same digit
  refine opt_relex hs single_relex fun hs₀ => ?_
  subst hs₀
  obtain ⟨c, D', rfl⟩ := List.exists_cons_of_ne_nil (reads_digits _ _ _ hD).1
  have hc : isSign c = false := by
    by_contra hc
    simp [opt, single, Bool.not_eq_false _ ▸ hc] at hs
  simp [single, hc]

/-- A number is read again in front of a stop. -/
theorem number_relex {w r r' : List Char} (h : number (w ++ r) = some (w, r)) (hr' : StopsAt r') :
    number (w ++ r') = some (w, r') := by
  have hd' : ∀ c ∈ r'.head?, c.isDigit = false := fun c hc => (isStop_cases (hr' c hc)).2.1
  -- an optional exponent is read again, and no digit follows it
  have hoptE : ∀ {E}, opt exponent (E ++ r) = some (E, r) →
      opt exponent (E ++ r') = some (E, r') ∧ ∀ c ∈ (E ++ r').head?, c.isDigit = false := by
    intro E hE
    refine ⟨opt_relex hE (fun h => exponent_relex h hd') fun hE₀ => ?_, ?_⟩
    · cases r' with
      | nil => rfl
      | cons c r' => exact exponent_of_isStop (hr' c rfl) r'
    · cases hx : exponent (E ++ r) with
      | none =>
        simp only [opt, hx, Option.none_or, Option.some.injEq, Prod.mk.injEq] at hE
        obtain rfl : E = [] := by simpa using hE.1.symm
        simpa using hd'
      | some p =>
        simp only [opt, hx, Option.some_or] at hE
        obtain ⟨c, E', rfl, hc⟩ := exponent_head (hx.trans hE)
        simpa using hc
  -- optional digits are read again before an optional exponent
  have hoptD : ∀ {D E}, opt digits (D ++ (E ++ r)) = some (D, E ++ r) →
      opt exponent (E ++ r) = some (E, r) → opt digits (D ++ (E ++ r')) = some (D, E ++ r') := by
    intro D E hD hE
    have hnext := (hoptE hE).2
    refine opt_relex hD (fun h => run_relex h hnext) fun hD₀ => ?_
    cases hx : E ++ r' with
    | nil => rfl
    | cons c x => exact rejects_run (hnext c (by simp [hx])) x
  have hpoint : ∀ x, digits ('.' :: x) = none := fun x => rejects_run rfl x
  unfold number at h ⊢
  rcases first_eq_some h with h₁ | h
  · -- digits and an exponent
    refine first_of_left (seq_relex reads_exponent.splits h₁ fun D E hD hE => ?_)
    obtain ⟨c, E', rfl, hc⟩ := exponent_head hE
    exact ⟨run_relex hD (by simpa using hc), exponent_relex hE hd'⟩
  rcases first_eq_some h with h₂ | h
  · -- digits, a point, optional digits and an optional exponent
    have h₂' : seq digits (seq (char '.') (seq (opt digits) (opt exponent))) (w ++ r') =
        some (w, r') := by
      refine seq_relex (splits_seq (reads_char _).splits
        (splits_seq (splits_opt reads_digits.splits) (splits_opt reads_exponent.splits))) h₂
        fun D b hD hb => ⟨?_, ?_⟩
      · obtain ⟨_, m, _, hpt, -, rfl⟩ := seq_eq_some hb
        obtain rfl := char_eq_some hpt
        exact run_relex hD (by simp)
      · refine seq_relex (splits_seq (splits_opt reads_digits.splits)
          (splits_opt reads_exponent.splits)) hb fun pt c hpt hc => ⟨char_relex hpt, ?_⟩
        exact seq_relex (splits_opt reads_exponent.splits) hc fun D₂ E hD₂ hE =>
          ⟨hoptD hD₂ hE, (hoptE hE).1⟩
    refine first_of_right ?_ (first_of_left h₂')
    -- an exponent cannot follow the digits, since a point does
    obtain ⟨D, m, b, hD, hb, rfl⟩ := seq_eq_some h₂'
    obtain ⟨_, m', _, hpt, -, -⟩ := seq_eq_some hb
    obtain rfl : ['.'] ++ m' = m := by
      have := (reads_char '.').splits _ _ _ hpt
      rwa [char_eq_some hpt] at this
    rw [List.append_assoc] at hD
    simp [seq, hD, exponent, single]
  rcases first_eq_some h with h₃ | h₄
  · -- a point, digits and an optional exponent
    have h₃' : seq (char '.') (seq digits (opt exponent)) (w ++ r') = some (w, r') := by
      refine seq_relex (splits_seq reads_digits.splits (splits_opt reads_exponent.splits)) h₃
        fun pt b hpt hb => ⟨char_relex hpt, ?_⟩
      exact seq_relex (splits_opt reads_exponent.splits) hb fun D E hD hE =>
        ⟨run_relex hD (hoptE hE).2, (hoptE hE).1⟩
    obtain ⟨_, m, _, hpt, -, rfl⟩ := seq_eq_some h₃'
    obtain rfl := char_eq_some hpt
    refine first_of_right ?_ (first_of_right ?_ (first_of_left h₃')) <;>
      simp [seq, hpoint]
  · -- digits alone: neither an exponent nor a point follows them
    have h₄' : digits (w ++ r') = some (w, r') := run_relex h₄ hd'
    have hexp : exponent r' = none := by
      cases r' with
      | nil => simp [exponent, seq, single]
      | cons c r' => exact exponent_of_isStop (hr' c rfl) r'
    have hpt : char '.' r' = none := by
      cases r' with
      | nil => simp [char, single]
      | cons c r' =>
        have hc : c ≠ '.' := fun hc => (isStop_cases (hr' c rfl)).2.2.2.2 (by simp [hc])
        simp [char, single, hc]
    refine first_of_right ?_ (first_of_right ?_ (first_of_right ?_ h₄'))
    · simp [seq, h₄', hexp]
    · simp [seq, h₄', hpt]
    · obtain ⟨c, D', hw⟩ := List.exists_cons_of_ne_nil (reads_digits _ _ _ h₄').1
      have hc : c.isDigit = true := by
        have := all_of_eq_takeWhile (Terminal.run_eq_some_iff.mp h₄').2.1
        exact this c (by simp [hw])
      have hc' : c ≠ '.' := by
        rintro rfl
        exact absurd hc (by decide)
      simp [seq, hw, char, single, hc']

/-! ### Literals -/

/-- A character and a run after it are read again in front of anything outside the run. -/
theorem charRun_relex {c : Char} {p : Char → Bool} {w r r' : List Char}
    (h : seq (char c) (run p) (w ++ r) = some (w, r)) (hr' : ∀ x ∈ r'.head?, p x = false) :
    seq (char c) (run p) (w ++ r') = some (w, r') :=
  seq_relex (reads_run p).splits h fun _ _ ha hb => ⟨char_relex ha, run_relex hb hr'⟩

theorem identifier_relex {w r r' : List Char} (h : identifier (w ++ r) = some (w, r))
    (hr' : StopsAt r') : identifier (w ++ r') = some (w, r') :=
  seq_relex (splits_many _) h fun _ _ ha hb =>
    ⟨single_relex ha, many_relex hb fun x hx => (isStop_cases (hr' x hx)).1⟩

theorem label_relex {w r r' : List Char} (h : label (w ++ r) = some (w, r)) (hr' : StopsAt r') :
    label (w ++ r') = some (w, r') := by
  rcases first_eq_some h with h | h
  · exact first_of_left (charRun_relex h fun x hx => (isStop_cases (hr' x hx)).1)
  · -- an identifier does not start with `@`
    have h' := identifier_relex h hr'
    obtain ⟨a, m, b, ha, -, hw⟩ := seq_eq_some h'
    obtain ⟨c, rfl, hc⟩ := single_eq_some_mem ha
    have hc' : (c == '@') = false := by
      cases hat : c == '@'
      · rfl
      · rw [beq_iff_eq.mp hat] at hc
        exact absurd hc (by decide)
    rw [hw, List.singleton_append, List.cons_append] at h' ⊢
    exact first_of_right (((rejects_single (p := (· == '@')) hc').seq _) _) h'

theorem isDigit_eq_false_of_isIdentStart {c : Char} (h : isIdentStart c = true) :
    c.isDigit = false := by
  have hA : 'A'.val.toNat = 65 := rfl
  have ha : 'a'.val.toNat = 97 := rfl
  have h9 : '9'.val.toNat = 57 := rfl
  cases hd : c.isDigit
  · rfl
  · simp only [Char.isDigit, Bool.and_eq_true, decide_eq_true_eq] at hd
    have hle := UInt32.le_iff_toNat_le.mp (show c.val ≤ '9'.val from hd.2)
    simp only [isIdentStart, Char.isAlpha, Char.isUpper, Char.isLower, Bool.or_eq_true,
      Bool.and_eq_true, decide_eq_true_eq, beq_iff_eq] at h
    rcases h with (⟨h₁, -⟩ | ⟨h₁, -⟩) | rfl
    · have := UInt32.le_iff_toNat_le.mp (show 'A'.val ≤ c.val from h₁)
      omega
    · have := UInt32.le_iff_toNat_le.mp (show 'a'.val ≤ c.val from h₁)
      omega
    · exact absurd hd.2 (by decide)

/-- A label starts with `@`, or with a letter or underscore; either way with no digit, point,
`$` or `%`. -/
theorem label_head {cs w r : List Char} (h : label cs = some (w, r)) :
    ∃ c t, w = c :: t ∧ c.isDigit = false ∧ c ≠ '.' ∧ (c == '$') = false ∧ (c == '%') = false := by
  rcases first_eq_some h with h | h
  · obtain ⟨_, _, _, hc, -, rfl⟩ := seq_eq_some h
    obtain rfl := char_eq_some hc
    exact ⟨'@', _, rfl, by decide, by decide, by decide, by decide⟩
  · obtain ⟨_, _, _, hs, -, rfl⟩ := seq_eq_some h
    obtain ⟨c, rfl, hid⟩ := single_eq_some_mem hs
    have hne : ∀ x ∈ ['.', '$', '%'], c ≠ x := by
      rintro x hx rfl
      simp only [List.mem_cons, List.not_mem_nil, or_false] at hx
      rcases hx with rfl | rfl | rfl <;> exact absurd hid (by decide)
    exact ⟨c, _, rfl, isDigit_eq_false_of_isIdentStart hid, hne '.' (by simp),
      by simpa using hne '$' (by simp), by simpa using hne '%' (by simp)⟩

/-- A literal is read again in front of any character that no literal holds. -/
theorem literal_relex {w r r' : List Char} (h : literal (w ++ r) = some (w, r))
    (hr' : StopsAt r') : literal (w ++ r') = some (w, r') := by
  have hfacts := fun x hx => isStop_cases (hr' x hx)
  unfold literal at h ⊢
  rcases first_eq_some h with h | h
  · exact first_of_left (number_relex h hr')
  -- every other form starts with its own character, at which the forms before it fail
  rcases first_eq_some h with h | h
  · -- `$` and hex digits
    have h' := charRun_relex h fun x hx => (hfacts x hx).2.2.1
    obtain ⟨_, _, _, hc, -, rfl⟩ := seq_eq_some h'
    obtain rfl := char_eq_some hc
    exact first_of_right (rejects_number (by decide) (by decide) _) (first_of_left h')
  rcases first_eq_some h with h | h
  · -- `%` and binary digits
    have h' := charRun_relex h fun x hx => by
      have := (hfacts x hx).2.2.2.2
      simp only [List.mem_cons, List.not_mem_nil, or_false, not_or] at this
      simp [this.2.2.2.1, this.2.2.2.2.1]
    obtain ⟨_, _, _, hc, -, rfl⟩ := seq_eq_some h'
    obtain rfl := char_eq_some hc
    exact first_of_right (rejects_number (by decide) (by decide) _)
      (first_of_right (((rejects_single (by decide)).seq _) _) (first_of_left h'))
  rcases first_eq_some h with h | h
  · -- a label
    have h' := label_relex h hr'
    obtain ⟨c, t, hw, hd, hp, hdol, hper⟩ := label_head h'
    rw [hw, List.cons_append] at h' ⊢
    exact first_of_right (rejects_number hd hp _)
      (first_of_right (((rejects_single (p := (· == '$')) hdol).seq _) _)
        (first_of_right (((rejects_single (p := (· == '%')) hper).seq _) _) (first_of_left h')))
  rcases first_eq_some h with h | h
  · -- `:` and signs: an unnamed label nearby
    have h' := charRun_relex h fun x hx => (hfacts x hx).2.2.2.1
    obtain ⟨_, _, _, hc, -, rfl⟩ := seq_eq_some h'
    obtain rfl := char_eq_some hc
    exact first_of_right (rejects_number (by decide) (by decide) _)
      (first_of_right (((rejects_single (by decide)).seq _) _)
        (first_of_right (((rejects_single (by decide)).seq _) _)
          (first_of_right (rejects_label (by decide) (by decide) _) (first_of_left h'))))
  rcases first_eq_some h with h | h
  · -- a quoted character, read whatever follows it
    have h' : seq (char '\'') (seq (single (· != '\n')) (char '\'')) (w ++ r') = some (w, r') :=
      seq_relex (splits_seq (reads_single _).splits (reads_char _).splits) h fun _ _ ha hb =>
        ⟨char_relex ha, seq_relex (reads_char _).splits hb fun _ _ ha hb =>
          ⟨single_relex ha, char_relex hb⟩⟩
    obtain ⟨_, _, _, hc, -, rfl⟩ := seq_eq_some h'
    obtain rfl := char_eq_some hc
    exact first_of_right (rejects_number (by decide) (by decide) _)
      (first_of_right (((rejects_single (by decide)).seq _) _)
        (first_of_right (((rejects_single (by decide)).seq _) _)
          (first_of_right (rejects_label (by decide) (by decide) _)
            (first_of_right (((rejects_single (by decide)).seq _) _) (first_of_left h')))))
  · -- `*`, the location counter
    have h' : char '*' (w ++ r') = some (w, r') := char_relex h
    obtain rfl := char_eq_some h'
    exact first_of_right (rejects_number (by decide) (by decide) _)
      (first_of_right (((rejects_single (by decide)).seq _) _)
        (first_of_right (((rejects_single (by decide)).seq _) _)
          (first_of_right (rejects_label (by decide) (by decide) _)
            (first_of_right (((rejects_single (by decide)).seq _) _)
              (first_of_right (((rejects_single (by decide)).seq _) _) h')))))

end Lexeme

/-! ## Lexemes, and where they are matched again -/

/-- A literal lexeme: what the literal lexer reads off some text. -/
def IsLiteral (lit : List Char) : Prop := ∃ r, literal (lit ++ r) = some (lit, r)

/-- An operator lexeme: one operator character. -/
def IsOperator (op : List Char) : Prop := ∃ c ∈ "+-*/|^&,".toList, op = [c]

/-- No operator character is a blank. -/
theorem isBlank_of_mem_operators {c : Char} (hc : c ∈ "+-*/|^&,".toList) : isBlank c = false := by
  have h : "+-*/|^&,".toList.all (fun c => !isBlank c) = true := by decide
  simpa using List.all_eq_true.mp h c hc

/-- Past its blanks, a printed operator is the operator, then a space. -/
theorem Expr.dropWhile_showOperator {op : List Char} (ho : IsOperator op) (Z : List Char) :
    (Expr.showOperator op ++ Z).dropWhile isBlank = op ++ ' ' :: Z := by
  obtain ⟨c, hc, rfl⟩ := ho
  have hb := isBlank_of_mem_operators hc
  unfold Expr.showOperator
  split
  · next h =>
    obtain rfl : c = ',' := by simpa using h
    rfl
  · simp only [List.cons_append, List.nil_append]
    rw [List.dropWhile_cons_of_pos (by decide), List.dropWhile_cons_of_neg (by simp [hb])]

theorem rejects_literal_of_isBlank {c : Char} (hc : isBlank c = true) : Rejects literal c :=
  Terminal.lex_eq_none_of_isBlank (d := .standard) (t := .literal) rfl hc

/-- A literal lexeme starts with a character that can start a literal. -/
theorem IsLiteral.exists_cons {lit : List Char} (hl : IsLiteral lit) :
    ∃ c t, lit = c :: t ∧ ¬ Rejects literal c := by
  obtain ⟨r, hr⟩ := hl
  obtain ⟨c, t, rfl⟩ := List.exists_cons_of_ne_nil (reads_literal _ _ _ hr).1
  refine ⟨c, t, rfl, fun hc => ?_⟩
  rw [List.cons_append, hc] at hr
  cases hr

/-- After its first character, a literal that is not a quoted character holds only literal
characters. -/
theorem IsLiteral.isLiteralChar_of_cons {c : Char} {t : List Char} (hl : IsLiteral (c :: t))
    (hc : c ≠ '\'') : ∀ x ∈ t, isLiteralChar x = true := by
  obtain ⟨r, hr⟩ := hl
  rcases literal_cases hr with ⟨b, hb⟩ | hall
  · exact absurd (List.cons.inj hb).1 hc
  · exact fun x hx => hall x (List.mem_cons_of_mem c hx)

namespace Terminal

variable {d : Dialect}

theorem Matches.cons_blank {t : Terminal} (ht : t.readsBlanks = false) {b : Char}
    (hb : isBlank b = true) {cs w r : List Char} (h : t.Matches d cs w r) :
    t.Matches d (b :: cs) w r :=
  .afterBlanks (by rw [List.dropWhile_cons_of_pos hb]; exact lex_of_matches ht h)

theorem Matches.of_cons_blank {t : Terminal} (ht : t.readsBlanks = false) {b : Char}
    (hb : isBlank b = true) {cs w r : List Char} (h : t.Matches d (b :: cs) w r) :
    t.Matches d cs w r :=
  .afterBlanks (by simpa [List.dropWhile_cons_of_pos hb] using lex_of_matches ht h)

/-- A class of single characters matches the first character after the blanks, and only one
it holds. -/
theorem Matches.single_eq {t : Terminal} {p : Char → Bool} (hl : t.lex d = single p)
    (ht : t.readsBlanks = false) {cs w r : List Char} (h : t.Matches d cs w r) {c : Char}
    {tl : List Char} (hcs : cs.dropWhile isBlank = c :: tl) : p c = true ∧ w = [c] ∧ r = tl := by
  have hlex := lex_of_matches ht h
  rw [hcs, hl] at hlex
  by_cases hc : p c = true
  · simp only [single, hc, if_true, Option.some.injEq, Prod.mk.injEq] at hlex
    exact ⟨hc, hlex.1.symm, hlex.2.symm⟩
  · simp [single, hc] at hlex

/-- A class is not matched at a character it rejects. -/
theorem not_matches_of_rejects {t : Terminal} (ht : t.readsBlanks = false) {c : Char}
    (hc : Rejects (t.lex d) c) (hb : isBlank c = false) {cs w r : List Char} :
    ¬ t.Matches d (c :: cs) w r := by
  intro h
  have hlex := lex_of_matches ht h
  rw [List.dropWhile_cons_of_neg (by simp [hb]), hc] at hlex
  cases hlex

theorem literal_matches {lit rest : List Char} (hl : IsLiteral lit) (hr : StopsAt rest) :
    literal.Matches d (lit ++ rest) lit rest :=
  .here (literal_relex hl.choose_spec hr)

/-- A printed literal, in front of a stop, is matched as itself and in no other way. -/
theorem literal_matches_iff {lit rest w r : List Char} (hl : IsLiteral lit) (hr : StopsAt rest) :
    literal.Matches d (lit ++ rest) w r ↔ w = lit ∧ r = rest := by
  constructor
  · intro h
    exact h.unique rfl (literal_matches hl hr)
  · rintro ⟨rfl, rfl⟩
    exact literal_matches hl hr

/-- No parenthesis is matched where a literal is. -/
theorem not_openParen_matches_literal {lit rest w r : List Char} (hl : IsLiteral lit) :
    ¬ openParen.Matches d (lit ++ rest) w r := by
  intro h
  obtain ⟨c, t, rfl, hc⟩ := hl.exists_cons
  have hb : isBlank c = false := by
    cases hb : isBlank c
    · rfl
    · exact absurd (rejects_literal_of_isBlank hb) hc
  obtain ⟨hp, -⟩ := h.single_eq rfl rfl (List.dropWhile_cons_of_neg (by simp [hb]))
  obtain rfl : c = '(' := by simpa using hp
  exact hc (rejects_literal (by decide) (by decide) (by decide))

/-- An operator is matched in its printed form, with the space after it left. -/
theorem operator_matches_show {op : List Char} (ho : IsOperator op) (X : List Char) :
    operator.Matches d (Expr.showOperator op ++ X) op (' ' :: X) := by
  refine .afterBlanks ?_
  rw [Expr.dropWhile_showOperator ho]
  obtain ⟨c, hc, rfl⟩ := ho
  simp only [lex, single, List.cons_append, List.nil_append, decide_eq_true hc, if_true]

end Terminal

/-! ## Printed expressions -/

/-- A blank in front of lexemes whose first class reads no blank is passed over. -/
theorem Lexes.cons_blank_iff {d : Dialect} {b : Char} (hb : isBlank b = true) {toks : List Token}
    (htoks : ∃ t w ts, toks = (t, w) :: ts ∧ t.readsBlanks = false) {cs rest : List Char} :
    Lexes d (b :: cs) toks rest ↔ Lexes d cs toks rest := by
  obtain ⟨t, w, ts, rfl, ht⟩ := htoks
  rw [Lexes.cons_iff, Lexes.cons_iff]
  constructor
  · rintro ⟨r, hm, hl⟩
    exact ⟨r, hm.of_cons_blank ht hb, hl⟩
  · rintro ⟨r, hm, hl⟩
    exact ⟨r, hm.cons_blank ht hb, hl⟩

namespace Expr

/-- Whether an expression ends in a literal outside parentheses, so that an operator after it
continues it. -/
def isOpen : Expr → Bool
  | atom _ => true
  | chain _ _ right => right.isOpen
  | group _ => false

/-- Every literal and every operator of the expression is a lexeme. -/
def Lexemes : Expr → Prop
  | atom lit => IsLiteral lit
  | chain lit op right => IsLiteral lit ∧ IsOperator op ∧ right.Lexemes
  | group inner => inner.Lexemes

/-- The operators of the top chain of an expression, each with the expression after it. -/
def tails : Expr → List (List Char × Expr)
  | atom _ => []
  | chain _ op right => (op, right) :: right.tails
  | group _ => []

theorem lexemes_of_mem_tails {e : Expr} (he : e.Lexemes) {op : List Char} {right : Expr}
    (h : (op, right) ∈ e.tails) : IsOperator op ∧ right.Lexemes := by
  induction e with
  | atom => simp [tails] at h
  | chain lit op' right' ih =>
    obtain ⟨-, ho, hr⟩ := he
    rcases List.mem_cons.mp h with h | h
    · obtain ⟨rfl, rfl⟩ := Prod.mk.inj h
      exact ⟨ho, hr⟩
    · exact ih hr h
  | group => simp [tails] at h

/-- A comma in the top chain is counted. -/
theorem topCommas_pos_of_mem_tails {e right : Expr} (h : ([','], right) ∈ e.tails) :
    0 < e.topCommas := by
  induction e with
  | atom => simp [tails] at h
  | chain lit op right' ih =>
    rcases List.mem_cons.mp h with h | h
    · obtain ⟨rfl, rfl⟩ := Prod.mk.inj h
      simp [topCommas]
    · have := ih h
      simp only [topCommas]
      omega
  | group => simp [tails] at h

theorem stopsAt_showOperator (op X : List Char) : StopsAt (showOperator op ++ X) := by
  unfold showOperator
  split <;> exact stopsAt_cons (by decide) _

theorem tokens_cons (e : Expr) : ∃ t w ts, e.tokens = (t, w) :: ts ∧ t.readsBlanks = false := by
  cases e <;> exact ⟨_, _, _, rfl, rfl⟩

variable {d : Dialect}

/-- A blank in front of an expression is passed over. -/
theorem lexes_cons_blank_iff {b : Char} (hb : isBlank b = true) {e : Expr} {cs rest : List Char} :
    Lexes d (b :: cs) e.tokens rest ↔ Lexes d cs e.tokens rest :=
  Lexes.cons_blank_iff hb e.tokens_cons

theorem render_chain_append (lit op : List Char) (right : Expr) (rest : List Char) :
    (chain lit op right).render ++ rest = lit ++ (showOperator op ++ (right.render ++ rest)) := by
  simp [render]

theorem render_group_append (inner : Expr) (rest : List Char) :
    (group inner).render ++ rest = '(' :: (inner.render ++ (')' :: rest)) := by
  simp [render]

/-- A printed expression, in front of a stop, is lexed as its own lexemes. -/
theorem lexes_render {e : Expr} (he : e.Lexemes) {rest : List Char} (hr : StopsAt rest) :
    Lexes d (e.render ++ rest) e.tokens rest := by
  induction e generalizing rest with
  | atom lit => exact Lexes.singleton_iff.mpr (Terminal.literal_matches he hr)
  | chain lit op right ih =>
    obtain ⟨hl, ho, hright⟩ := he
    rw [render_chain_append]
    exact .cons _ (Terminal.literal_matches hl (stopsAt_showOperator _ _))
      (.cons _ (Terminal.operator_matches_show ho _)
        ((lexes_cons_blank_iff (by decide)).mpr (ih hright hr)))
  | group inner ih =>
    rw [render_group_append, tokens, List.cons_append]
    exact .cons _ (.here (by simp [Terminal.lex, char, single]))
      (Lexes.append (ih he (stopsAt_cons (c := ')') (by decide) rest))
        (Lexes.singleton_iff.mpr (.here (by simp [Terminal.lex, char, single]))))

/-- Every reading of a printed expression, in front of a stop: the expression itself; one
that ends inside it, before an operator; or one that runs on past it, through an operator
after it, where the expression ends in a literal. -/
theorem cases_of_lexes_render {e : Expr} (he : e.Lexemes) {rest : List Char} (hr : StopsAt rest)
    {e' : Expr} {rest' : List Char} (h : Lexes d (e.render ++ rest) e'.tokens rest') :
    (e' = e ∧ rest' = rest) ∨
      (∃ op right, (op, right) ∈ e.tails ∧ rest' = showOperator op ++ right.render ++ rest) ∨
      (e.isOpen = true ∧
        ∃ w r₁, ∃ e₂ : Expr, Terminal.operator.Matches d rest w r₁ ∧ Lexes d r₁ e₂.tokens rest') := by
  induction e generalizing rest e' rest' with
  | atom lit =>
    cases e' with
    | atom lit' =>
      obtain ⟨rfl, rfl⟩ := (Terminal.literal_matches_iff he hr).mp (Lexes.singleton_iff.mp h)
      exact Or.inl ⟨rfl, rfl⟩
    | chain lit' op' e₂ =>
      obtain ⟨r, hl, htail⟩ := Lexes.cons_iff.mp h
      obtain ⟨rfl, rfl⟩ := (Terminal.literal_matches_iff he hr).mp hl
      obtain ⟨r₁, ho, hright⟩ := Lexes.cons_iff.mp htail
      exact Or.inr (Or.inr ⟨rfl, op', r₁, e₂, ho, hright⟩)
    | group inner' =>
      rw [tokens, List.cons_append] at h
      obtain ⟨r, hp, -⟩ := Lexes.cons_iff.mp h
      exact absurd hp (Terminal.not_openParen_matches_literal he)
  | chain lit op right ih =>
    obtain ⟨hl, ho, hright⟩ := he
    rw [render_chain_append] at h
    have hstop := stopsAt_showOperator op (right.render ++ rest)
    cases e' with
    | atom lit' =>
      obtain ⟨rfl, rfl⟩ := (Terminal.literal_matches_iff hl hstop).mp (Lexes.singleton_iff.mp h)
      exact Or.inr (Or.inl ⟨op, right, List.mem_cons_self, by simp⟩)
    | chain lit' op' e₂ =>
      obtain ⟨r, hl', htail⟩ := Lexes.cons_iff.mp h
      obtain ⟨rfl, rfl⟩ := (Terminal.literal_matches_iff hl hstop).mp hl'
      obtain ⟨r₁, ho', hnext⟩ := Lexes.cons_iff.mp htail
      obtain ⟨rfl, rfl⟩ := ho'.unique rfl (Terminal.operator_matches_show ho _)
      -- the rest of the chain is read after the space that follows the operator
      rcases ih hright hr ((lexes_cons_blank_iff (by decide)).mp hnext) with
        ⟨rfl, rfl⟩ | ⟨op₂, right₂, hmem, rfl⟩ | hbeyond
      · exact Or.inl ⟨rfl, rfl⟩
      · exact Or.inr (Or.inl ⟨op₂, right₂, List.mem_cons_of_mem _ hmem, rfl⟩)
      · exact Or.inr (Or.inr hbeyond)
    | group inner' =>
      rw [tokens, List.cons_append] at h
      obtain ⟨r, hp, -⟩ := Lexes.cons_iff.mp h
      exact absurd hp (Terminal.not_openParen_matches_literal hl)
  | group inner ih =>
    rw [render_group_append] at h
    have hparen {lit' r : List Char} : ¬ Terminal.literal.Matches d
        ('(' :: (inner.render ++ (')' :: rest))) lit' r :=
      Terminal.not_matches_of_rejects (t := .literal) rfl
        (rejects_literal (by decide) (by decide) (by decide)) (by decide)
    cases e' with
    | atom lit' => exact absurd (Lexes.singleton_iff.mp h) hparen
    | chain lit' op' e₂ =>
      obtain ⟨r, hl, -⟩ := Lexes.cons_iff.mp h
      exact absurd hl hparen
    | group inner' =>
      rw [tokens, List.cons_append] at h
      obtain ⟨r, hp, h⟩ := Lexes.cons_iff.mp h
      obtain ⟨-, -, rfl⟩ := hp.single_eq rfl rfl (List.dropWhile_cons_of_neg (by decide))
      obtain ⟨mid, hi, hc⟩ := Lexes.append_iff.mp h
      have hc := Lexes.singleton_iff.mp hc
      rcases ih he (stopsAt_cons (c := ')') (by decide) rest) hi with
        ⟨rfl, rfl⟩ | ⟨op, right, hmem, rfl⟩ | ⟨-, w, r₁, e₂, hm, -⟩
      · obtain ⟨-, -, rfl⟩ := hc.single_eq rfl rfl (List.dropWhile_cons_of_neg (by decide))
        exact Or.inl ⟨rfl, rfl⟩
      · -- no closing parenthesis stands where an operator does
        obtain ⟨c, hop, rfl⟩ := (lexemes_of_mem_tails (e := inner) he hmem).1
        have := hc.single_eq rfl rfl
          (by rw [List.append_assoc, dropWhile_showOperator ⟨c, hop, rfl⟩]; rfl)
        obtain rfl : c = ')' := by simpa using this.1
        exact absurd hop (by decide)
      · -- and no operator stands at the closing parenthesis
        obtain ⟨hop, -⟩ := hm.single_eq rfl rfl (List.dropWhile_cons_of_neg (by decide))
        exact absurd hop (by decide)

end Expr

/-! ## Printed operands -/

/-- What a printed expression can start with: a parenthesis, or the start of a literal. So no
blank, `#` or byte selector. -/
theorem startsExpr_cases {c : Char} (hc : c = '(' ∨ ¬ Rejects literal c) :
    isBlank c = false ∧ c ≠ '#' ∧ c ≠ '<' ∧ c ≠ '>' := by
  rcases hc with rfl | hc
  · decide
  refine ⟨?_, ?_, ?_, ?_⟩
  · cases hb : isBlank c
    · rfl
    · exact absurd (rejects_literal_of_isBlank hb) hc
  all_goals rintro rfl; exact hc (rejects_literal (by decide) (by decide) (by decide))

theorem Expr.render_cons {e : Expr} (he : e.Lexemes) :
    ∃ c Y, e.render = c :: Y ∧ (c = '(' ∨ ¬ Rejects literal c) := by
  cases e with
  | atom lit =>
    obtain ⟨c, t, rfl, hc⟩ := IsLiteral.exists_cons he
    exact ⟨c, t, rfl, Or.inr hc⟩
  | chain lit op right =>
    obtain ⟨c, t, rfl, hc⟩ := IsLiteral.exists_cons he.1
    exact ⟨c, _, rfl, Or.inr hc⟩
  | group inner => exact ⟨'(', _, rfl, Or.inl rfl⟩

/-- A register letter in capitals is a register letter, and a literal. -/
theorem register_upper_cases {c : Char} (hc : c ∈ "aAxXyY".toList) :
    c.toUpper ∈ "aAxXyY".toList ∧ isBlank c.toUpper = false ∧ ¬ Rejects literal c.toUpper ∧
      IsLiteral [c.toUpper] := by
  rw [show "aAxXyY".toList = ['a', 'A', 'x', 'X', 'y', 'Y'] from rfl] at hc ⊢
  simp only [List.mem_cons, List.not_mem_nil, or_false] at hc
  rcases hc with rfl | rfl | rfl | rfl | rfl | rfl <;>
    exact ⟨by decide, rfl, fun hr => absurd (hr []) (by decide), [], by decide⟩

namespace Operand

/-- The operand as it is read back from its print: a register in capitals. -/
def upper : Operand → Operand
  | register name => register (name.map Char.toUpper)
  | value immediate selector e => value immediate selector e

/-- Whether the operand ends in a literal outside parentheses: a register, read as a label,
does too. -/
def isOpen : Operand → Bool
  | register _ => true
  | value _ _ e => e.isOpen

/-- Every lexeme of the operand is one the lexers read. -/
def Lexemes : Operand → Prop
  | register name => ∃ c ∈ "aAxXyY".toList, name = [c]
  | value _ selector e => (∀ s ∈ selector, s = ['<'] ∨ s = ['>']) ∧ e.Lexemes

/-- The operators of the top chain of the operand's expression, each with what follows it. -/
def tails : Operand → List (List Char × Expr)
  | register _ => []
  | value _ _ e => e.tails

/-- What is left of a printed operand after a reading that stops inside it: the rest of a
literal after its first character, or an operator of the top chain with the expression after
it. -/
def Remainder (o : Operand) (X : List Char) : Prop :=
  (∃ x Z, X = x :: Z ∧ isLiteralChar x = true) ∨
    ∃ op right, (op, right) ∈ o.tails ∧ X = Expr.showOperator op ++ right.render

variable {d : Dialect}

/-- A printed operand is its `#`, its byte selector, and its printed expression. -/
theorem render_value_append (imm : Bool) (sel : Option (List Char)) {e : Expr} {c : Char}
    {Y : List Char} (hce : e.render = c :: Y) (rest : List Char) :
    (value imm sel e).render ++ rest =
      (if imm then ['#'] else []) ++ sel.getD [] ++ c :: (Y ++ rest) := by
  simp [render, hce]

/-- No expression is lexed where a character stands that no literal and no parenthesis starts
with. -/
theorem not_lexes_expr {c : Char} (hb : isBlank c = false) (hl : Rejects literal c)
    (hp : c ≠ '(') {Y rest : List Char} {e : Expr} : ¬ Lexes d (c :: Y) e.tokens rest := by
  intro h
  cases e with
  | atom lit => exact Terminal.not_matches_of_rejects (t := .literal) rfl hl hb (Lexes.singleton_iff.mp h)
  | chain lit op right =>
    obtain ⟨r, hm, -⟩ := Lexes.cons_iff.mp h
    exact Terminal.not_matches_of_rejects (t := .literal) rfl hl hb hm
  | group inner =>
    rw [Expr.tokens, List.cons_append] at h
    obtain ⟨r, hm, -⟩ := Lexes.cons_iff.mp h
    obtain ⟨hc, -⟩ := hm.single_eq rfl rfl (List.dropWhile_cons_of_neg (by simp [hb]))
    exact hp (by simpa using hc)

/-- In front of a printed expression, a byte selector is read back as it was printed. -/
theorem lexes_selector_prefix {sel sel' : Option (List Char)}
    (hsel : ∀ s ∈ sel, s = ['<'] ∨ s = ['>']) {c : Char} {Y rest : List Char}
    (hc : c = '(' ∨ ¬ Rejects literal c) {e' : Expr}
    (h : Lexes d (sel.getD [] ++ c :: Y) ((sel'.map (Terminal.selector, ·)).toList ++ e'.tokens) rest) :
    sel' = sel ∧ Lexes d (c :: Y) e'.tokens rest := by
  obtain ⟨hb, -, hlt, hgt⟩ := startsExpr_cases hc
  cases sel with
  | none =>
    cases sel' with
    | none => exact ⟨rfl, h⟩
    | some s' =>
      obtain ⟨r, hm, -⟩ := Lexes.cons_iff.mp h
      obtain ⟨hs, -⟩ := hm.single_eq rfl rfl (List.dropWhile_cons_of_neg (by simp [hb]))
      simp only [Bool.or_eq_true, beq_iff_eq] at hs
      exact absurd hs (by rintro (h | h) <;> contradiction)
  | some s =>
    obtain rfl | rfl := hsel s rfl <;>
    cases sel' with
    | none => exact absurd h (not_lexes_expr (by decide) (rejects_literal (by decide) (by decide) (by decide)) (by decide))
    | some s' =>
      obtain ⟨r, hm, h⟩ := Lexes.cons_iff.mp h
      obtain ⟨-, rfl, rfl⟩ := hm.single_eq rfl rfl (List.dropWhile_cons_of_neg (by decide))
      exact ⟨rfl, h⟩

/-- In front of a printed expression, `#` and a byte selector are read back as they were
printed. -/
theorem lexes_value_prefix {imm imm' : Bool} {sel sel' : Option (List Char)}
    (hsel : ∀ s ∈ sel, s = ['<'] ∨ s = ['>']) {c : Char} {Y rest : List Char}
    (hc : c = '(' ∨ ¬ Rejects literal c) {e' : Expr}
    (h : Lexes d ((if imm then ['#'] else []) ++ sel.getD [] ++ c :: Y) (value imm' sel' e').tokens rest) :
    imm' = imm ∧ sel' = sel ∧ Lexes d (c :: Y) e'.tokens rest := by
  obtain ⟨hb, hhash, -, -⟩ := startsExpr_cases hc
  -- what the selector or the expression starts with
  obtain ⟨c₀, Y₀, hc₀, hb₀, hhash₀⟩ : ∃ c₀ Y₀, sel.getD [] ++ c :: Y = c₀ :: Y₀ ∧
      isBlank c₀ = false ∧ c₀ ≠ '#' := by
    cases sel with
    | none => exact ⟨c, Y, rfl, hb, hhash⟩
    | some s => obtain rfl | rfl := hsel s rfl <;> exact ⟨_, _, rfl, by decide, by decide⟩
  simp only [tokens] at h
  cases imm with
  | false =>
    cases imm' with
    | false => exact ⟨rfl, lexes_selector_prefix hsel hc (by simpa using h)⟩
    | true =>
      obtain ⟨r, hm, -⟩ := Lexes.cons_iff.mp (by simpa using h)
      obtain ⟨hh, -⟩ := hm.single_eq (t := .hash) rfl rfl (by rw [hc₀, List.dropWhile_cons_of_neg (by simp [hb₀])])
      exact absurd (by simpa using hh) hhash₀
  | true =>
    cases imm' with
    | true =>
      obtain ⟨r, hm, h⟩ := Lexes.cons_iff.mp (by simpa using h)
      obtain ⟨-, -, rfl⟩ := hm.single_eq rfl rfl (List.dropWhile_cons_of_neg (by decide))
      exact ⟨rfl, lexes_selector_prefix hsel hc h⟩
    | false =>
      exfalso
      simp only [if_true, List.cons_append, List.nil_append] at h
      cases sel' with
      | none => exact not_lexes_expr (by decide) (rejects_literal (by decide) (by decide) (by decide)) (by decide) h
      | some s' =>
        obtain ⟨r, hm, -⟩ := Lexes.cons_iff.mp h
        obtain ⟨hs, -⟩ := hm.single_eq rfl rfl (List.dropWhile_cons_of_neg (by decide))
        exact absurd hs (by decide)

/-- A register is read at the start of a printed operand only where it has no `#` and no byte
selector, and its expression starts with a register letter. -/
theorem register_matches_prefix {imm : Bool} {sel : Option (List Char)}
    (hsel : ∀ s ∈ sel, s = ['<'] ∨ s = ['>']) {c : Char} {Y n rest : List Char}
    (hc : c = '(' ∨ ¬ Rejects literal c)
    (h : Terminal.register.Matches d ((if imm then ['#'] else []) ++ sel.getD [] ++ c :: Y) n rest) :
    imm = false ∧ sel = none ∧ c ∈ "aAxXyY".toList ∧ n = [c] ∧ rest = Y := by
  obtain ⟨hb, -, -, -⟩ := startsExpr_cases hc
  cases imm with
  | true =>
    obtain ⟨hr, -⟩ := h.single_eq rfl rfl (List.dropWhile_cons_of_neg (by decide))
    exact absurd hr (by decide)
  | false =>
    cases sel with
    | none =>
      obtain ⟨hr, rfl, rfl⟩ := h.single_eq rfl rfl (List.dropWhile_cons_of_neg (by simp [hb]))
      exact ⟨rfl, rfl, by simpa using hr, rfl, rfl⟩
    | some s =>
      obtain rfl | rfl := hsel s rfl <;>
      · obtain ⟨hr, -⟩ := h.single_eq rfl rfl (List.dropWhile_cons_of_neg (by decide))
        exact absurd hr (by decide)

/-- After a register read at the start of an expression, the expression goes on inside, or
it was the register letter alone. -/
theorem remainder_after_register {e : Expr} (he : e.Lexemes) {c : Char} {Y : List Char}
    (hce : e.render = c :: Y) (hc : c ∈ "aAxXyY".toList) :
    (Y = [] ∧ (value false none e).isLoneLabel = true) ∨ (value false none e).Remainder Y := by
  have hq : c ≠ '\'' := by rintro rfl; exact absurd hc (by decide)
  cases e with
  | atom lit =>
    obtain rfl : lit = c :: Y := hce
    cases Y with
    | nil => exact Or.inl ⟨rfl, by simpa [isLoneLabel] using hc⟩
    | cons x Y => exact Or.inr (Or.inl ⟨x, Y, rfl, he.isLiteralChar_of_cons hq x (by simp)⟩)
  | chain lit op right =>
    obtain ⟨hl, -, -⟩ := he
    obtain ⟨c', t, rfl, -⟩ := hl.exists_cons
    simp only [Expr.render, List.cons_append, List.cons.injEq] at hce
    obtain ⟨rfl, rfl⟩ := hce
    cases t with
    | nil => exact Or.inr (Or.inr ⟨op, right, List.mem_cons_self, rfl⟩)
    | cons x t => exact Or.inr (Or.inl ⟨x, _, rfl, hl.isLiteralChar_of_cons hq x (by simp)⟩)
  | group inner =>
    obtain rfl : '(' = c := (List.cons.inj hce).1
    exact absurd hc (by decide)

/-- A lexeme of one character, matched where it stands, in front of more lexemes. -/
theorem lexes_cons_single {t : Terminal} {p : Char → Bool} (hl : t.lex d = single p) {c : Char}
    (hc : p c = true) {cs rest : List Char} {toks : List Token} (h : Lexes d cs toks rest) :
    Lexes d (c :: cs) ((t, [c]) :: toks) rest :=
  .cons _ (.here (by rw [hl]; simp [single, hc])) h

/-- A printed operand, in front of a stop, is lexed as the operand with its register in
capitals. -/
theorem lexes_render {o : Operand} (ho : o.Lexemes) {rest : List Char} (hr : StopsAt rest) :
    Lexes d (o.render ++ rest) o.upper.tokens rest := by
  cases o with
  | register name =>
    obtain ⟨c, hc, rfl⟩ := ho
    exact lexes_cons_single (t := .register) rfl (decide_eq_true (register_upper_cases hc).1)
      (.nil rest)
  | value imm sel e =>
    obtain ⟨hsel, he⟩ := ho
    have hE := Expr.lexes_render (d := d) he hr
    -- the byte selector, and `#` in front of it
    have hS : Lexes d (sel.getD [] ++ (e.render ++ rest))
        ((sel.map (Terminal.selector, ·)).toList ++ e.tokens) rest := by
      cases sel with
      | none => exact hE
      | some s =>
        obtain rfl | rfl := hsel s rfl <;> exact lexes_cons_single (t := .selector) rfl (by decide) hE
    have htext : (value imm sel e).render ++ rest =
        (if imm then ['#'] else []) ++ (sel.getD [] ++ (e.render ++ rest)) := by
      simp [render]
    rw [htext]
    cases imm with
    | false => simpa [upper, tokens] using hS
    | true => simpa [upper, tokens] using lexes_cons_single (t := .hash) rfl (by decide) hS

/-- Every reading of a printed operand, in front of a stop: the operand, with its register in
capitals; a register letter read as the other of register and label; one that stops inside
the operand; or one that runs on past it, through an operator after it, where the operand
ends in a literal. -/
theorem cases_of_lexes_render {o : Operand} (ho : o.Lexemes) {rest : List Char}
    (hr : StopsAt rest) {o' : Operand} {rest' : List Char}
    (h : Lexes d (o.render ++ rest) o'.tokens rest') :
    (o' = o.upper ∧ rest' = rest) ∨
      ((o'.isLoneLabel = true ∨ o.isLoneLabel = true) ∧ rest' = rest) ∨
      (∃ X, rest' = X ++ rest ∧ o.Remainder X) ∨
      (o.isOpen = true ∧
        ∃ w r₁, ∃ e₂ : Expr, Terminal.operator.Matches d rest w r₁ ∧ Lexes d r₁ e₂.tokens rest') := by
  cases o with
  | register name =>
    obtain ⟨c, hc, rfl⟩ := ho
    -- the register is printed in capitals, which read as a register or as a label
    obtain ⟨hC, hb, hrej, hCl⟩ := register_upper_cases hc
    change Lexes d (c.toUpper :: rest) o'.tokens rest' at h
    cases o' with
    | register n' =>
      obtain ⟨-, rfl, rfl⟩ :=
        (Lexes.singleton_iff.mp h).single_eq rfl rfl (List.dropWhile_cons_of_neg (by simp [hb]))
      exact Or.inl ⟨rfl, rfl⟩
    | value imm' sel' e' =>
      have h' : Lexes d ((if false then ['#'] else []) ++ (none : Option (List Char)).getD [] ++
          c.toUpper :: rest) (value imm' sel' e').tokens rest' := h
      obtain ⟨rfl, rfl, hexpr⟩ := lexes_value_prefix (by simp) (Or.inr hrej) h'
      rcases Expr.cases_of_lexes_render (e := .atom [c.toUpper]) hCl hr hexpr with
        ⟨rfl, rfl⟩ | ⟨op, right, hmem, -⟩ | ⟨hopen, hbeyond⟩
      · exact Or.inr (Or.inl ⟨Or.inl (by simpa [isLoneLabel] using hC), rfl⟩)
      · simp [Expr.tails] at hmem
      · exact Or.inr (Or.inr (Or.inr ⟨rfl, hbeyond⟩))
  | value imm sel e =>
    obtain ⟨hsel, he⟩ := ho
    obtain ⟨c, Y, hce, hc⟩ := Expr.render_cons he
    rw [render_value_append imm sel hce] at h
    cases o' with
    | register n' =>
      obtain ⟨rfl, rfl, hreg, rfl, rfl⟩ := register_matches_prefix hsel hc (Lexes.singleton_iff.mp h)
      rcases remainder_after_register he hce hreg with ⟨rfl, hlone⟩ | hY
      · exact Or.inr (Or.inl ⟨Or.inr hlone, rfl⟩)
      · exact Or.inr (Or.inr (Or.inl ⟨Y, rfl, hY⟩))
    | value imm' sel' e' =>
      obtain ⟨rfl, rfl, hexpr⟩ := lexes_value_prefix hsel hc h
      rw [← List.cons_append, ← hce] at hexpr
      rcases Expr.cases_of_lexes_render he hr hexpr with
        ⟨rfl, rfl⟩ | ⟨op, right, hmem, rfl⟩ | hbeyond
      · exact Or.inl ⟨rfl, rfl⟩
      · exact Or.inr (Or.inr (Or.inl ⟨_, rfl, Or.inr ⟨op, right, hmem, rfl⟩⟩))
      · exact Or.inr (Or.inr (Or.inr hbeyond))

end Operand

end AsmTidy
