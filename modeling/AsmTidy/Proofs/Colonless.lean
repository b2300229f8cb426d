import Mathlib
import AsmTidy.Proofs.DialectReading

/-!
# Colonless source read as standard source

Colonless source (`-l`) lets a label drop its colon, and reads as a mnemonic only a known
instruction, found without regard to case. On a text that standard source accepts, and whose
standard reading calls only known instructions, colonless source reads every line the same
way unless it reads a label without its colon there (`colonless_agrees_with_standard`).

`Line.best?_colonless_of_plain` gives this for a line whose colonless reading is plain. A
colonless reading that is not plain drops the colon of a label, or has a mnemonic that is not
a word: the only words colonless source reads as mnemonics are known instructions
(`Mnemonic.isKnown_of_lexCaseless`). A mnemonic that is not a word holds a character that
matches a letter of an instruction only when case is ignored, such as the dotless `ı` in
`ınx`. Such a character is no part of any lexeme of standard source but a quoted character or
the rest of a line, and neither can stand where a colonless mnemonic does
(`Line.not_derivesLine_standard_of_folded`).
-/

namespace AsmTidy

open Text

/-! ## Where a character can stand in standard source -/

namespace Lexeme

/-- Every character that `f` reads satisfies `q`. -/
def Within (q : Char → Prop) (f : Lexer) : Prop := ∀ cs w r, f cs = some (w, r) → ∀ a ∈ w, q a

section Within

variable {q : Char → Prop}

theorem within_single {p : Char → Bool} (hp : ∀ a, p a = true → q a) : Within q (single p) := by
  intro cs w r h a ha
  cases cs with
  | nil => simp [single] at h
  | cons c cs =>
    by_cases hc : p c = true
    · simp only [single, hc, if_true, Option.some.injEq, Prod.mk.injEq] at h
      obtain ⟨rfl, rfl⟩ := h
      obtain rfl := List.mem_singleton.mp ha
      exact hp a hc
    · simp [single, hc] at h

theorem within_run {p : Char → Bool} (hp : ∀ a, p a = true → q a) : Within q (run p) := by
  intro cs w r h a ha
  cases cs with
  | nil => simp [run] at h
  | cons c cs =>
    by_cases hc : p c = true
    · simp only [run, hc, if_true, Option.some.injEq, Prod.mk.injEq] at h
      obtain ⟨rfl, rfl⟩ := h
      rcases List.mem_cons.mp ha with rfl | ha
      · exact hp a hc
      · exact hp a (List.all_eq_true.mp List.all_takeWhile a ha)
    · simp [run, hc] at h

theorem within_many {p : Char → Bool} (hp : ∀ a, p a = true → q a) : Within q (many p) := by
  intro cs w r h a ha
  simp only [many, Option.some.injEq, Prod.mk.injEq] at h
  obtain ⟨rfl, rfl⟩ := h
  exact hp a (List.all_eq_true.mp List.all_takeWhile a ha)

theorem within_word {v : List Char} (hv : ∀ a ∈ v, q a) : Within q (word v) := by
  intro cs w r h a ha
  by_cases hp : v.isPrefixOf cs = true
  · simp only [word, hp, if_true, Option.some.injEq, Prod.mk.injEq] at h
    obtain ⟨rfl, rfl⟩ := h
    exact hv a ha
  · simp [word, hp] at h

theorem within_seq {f g : Lexer} (hf : Within q f) (hg : Within q g) : Within q (seq f g) := by
  intro cs w r h a ha
  obtain ⟨b, r₁, b', h₁, h₂, rfl⟩ := seq_eq_some h
  rcases List.mem_append.mp ha with ha | ha
  · exact hf _ _ _ h₁ a ha
  · exact hg _ _ _ h₂ a ha

theorem first_eq_some {f g : Lexer} {cs : List Char} {p : List Char × List Char}
    (h : first f g cs = some p) : f cs = some p ∨ g cs = some p := by
  unfold first at h
  cases hf : f cs with
  | none => exact Or.inr (by simpa [hf] using h)
  | some p' => exact Or.inl (by simpa [hf] using h)

theorem within_first {f g : Lexer} (hf : Within q f) (hg : Within q g) : Within q (first f g) := by
  intro cs w r h a ha
  rcases first_eq_some h with h | h
  · exact hf _ _ _ h a ha
  · exact hg _ _ _ h a ha

theorem within_opt {f : Lexer} (hf : Within q f) : Within q (opt f) := by
  intro cs w r h a ha
  unfold opt at h
  cases hc : f cs with
  | none =>
    simp only [hc, Option.none_or, Option.some.injEq, Prod.mk.injEq] at h
    obtain ⟨rfl, rfl⟩ := h
    simp at ha
  | some p =>
    simp only [hc, Option.some_or, Option.some.injEq] at h
    subst h
    exact hf _ _ _ hc a ha

end Within

end Lexeme

namespace Mnemonic

/-- The characters that match a letter of an instruction only when case is ignored, and are not
ASCII: the dotted capital `İ`, the dotless `ı`, the Kelvin sign and the long `ſ`. -/
def foldedChars : List Char := ['İ', 'ı', 'K', 'ſ']

/-- A character that matches a known instruction's letter or digit without regard to case is
an identifier character or a folded one. -/
theorem isIdentChar_or_folded {w : List Char} (hw : w ∈ known) {k c : Char} (hk : k ∈ w)
    (h : caselessEq k c = true) : Lexeme.isIdentChar c = true ∨ c ∈ foldedChars := by
  have hall : known.all (·.all fun k => Lexeme.isIdentChar k && Lexeme.isIdentChar k.toUpper) =
      true := by
    decide +kernel
  have hkc := List.all_eq_true.mp (List.all_eq_true.mp hall w hw) k hk
  simp only [Bool.and_eq_true] at hkc
  rcases caselessEq_iff.mp h with rfl | rfl | ⟨-, rfl | rfl⟩ | ⟨-, rfl⟩ | ⟨-, rfl⟩
  · exact Or.inl hkc.1
  · exact Or.inl hkc.2
  all_goals exact Or.inr (by decide)

theorem isIdentStart_or_folded {w : List Char} (hw : w ∈ known) {k c : Char} (hk : k ∈ w.head?)
    (h : caselessEq k c = true) : Lexeme.isIdentStart c = true ∨ c ∈ foldedChars := by
  have hall : known.all (·.head?.all fun k =>
      Lexeme.isIdentStart k && Lexeme.isIdentStart k.toUpper) = true := by
    decide +kernel
  have hkc := List.all_eq_true.mp hall w hw
  rw [Option.mem_def.mp hk] at hkc
  simp only [Option.all_some, Bool.and_eq_true] at hkc
  rcases caselessEq_iff.mp h with rfl | rfl | ⟨-, rfl | rfl⟩ | ⟨-, rfl⟩ | ⟨-, rfl⟩
  · exact Or.inl hkc.1
  · exact Or.inl hkc.2
  all_goals exact Or.inr (by decide)

/-- Where a known instruction starts a text, ignoring case, the text's characters there are
identifier characters or folded ones, the first a letter or a folded one. -/
theorem chars_of_startsCaseless {w cs : List Char} (hw : w ∈ known)
    (h : startsCaseless w cs = true) :
    (∀ c ∈ cs.take w.length, Lexeme.isIdentChar c = true ∨ c ∈ foldedChars) ∧
      ∀ c ∈ (cs.take w.length).head?, Lexeme.isIdentStart c = true ∨ c ∈ foldedChars := by
  -- the characters are compared one by one, each with a character of `w`
  have hzip : ∀ p ∈ w.zip cs, caselessEq p.1 p.2 = true := by
    simp only [startsCaseless, Bool.and_eq_true, List.all_eq_true] at h
    exact h.2
  have hlen : w.length ≤ cs.length := length_le_of_startsCaseless h
  refine ⟨fun c hc => ?_, fun c hc => ?_⟩
  · obtain ⟨i, hi, rfl⟩ := List.getElem_of_mem hc
    have hiw : i < w.length := by simp at hi; omega
    have hp := hzip (w[i], cs[i]) (by
      rw [List.mem_iff_getElem]
      exact ⟨i, by simp; omega, by simp⟩)
    simpa using isIdentChar_or_folded hw (List.getElem_mem hiw) hp
  · obtain ⟨k, w', rfl⟩ := List.exists_cons_of_ne_nil
      (show w ≠ [] by rintro rfl; simp at hc)
    obtain ⟨c', cs', rfl⟩ := List.exists_cons_of_ne_nil
      (show cs ≠ [] by rintro rfl; simp at hlen)
    simp only [List.length_cons, List.take_succ_cons, List.head?_cons, Option.mem_def,
      Option.some.injEq] at hc
    subst hc
    exact isIdentStart_or_folded hw rfl (hzip (k, _) (by simp))

/-- What colonless source reads as a mnemonic is where a known instruction starts the text,
ignoring case. -/
theorem exists_known_of_lexCaseless {cs m r : List Char} (h : lexCaseless cs = some (m, r)) :
    ∃ w ∈ known, startsCaseless w cs = true ∧ m = cs.take w.length := by
  cases hl : longestAt cs known with
  | nil => simp [lexCaseless, hl] at h
  | cons k w =>
    simp only [lexCaseless, hl, Option.some.injEq, Prod.mk.injEq] at h
    refine ⟨k :: w, ?_, ?_, h.1.symm⟩
    · rcases longestAt_eq_nil_or_mem cs known with h | h <;> rw [hl] at h
      · simp at h
      · exact h
    · rcases longestAt_eq_nil_or cs known with h | h <;> rw [hl] at h
      · simp at h
      · exact h

/-- A mnemonic that colonless source reads and that is a word is a known instruction. -/
theorem isKnown_of_lexCaseless {cs m r : List Char} (h : lexCaseless cs = some (m, r))
    (hm : Lexeme.isWord m = true) : isKnown m = true := by
  obtain ⟨w, hw, hs, hmw⟩ := exists_known_of_lexCaseless h
  have hident : ∀ c ∈ m, Lexeme.isIdentChar c = true := by
    simp only [Lexeme.isWord, Bool.and_eq_true, List.all_eq_true] at hm
    exact hm.2
  have hlen : m.length = w.length := by
    rw [hmw, List.length_take, Nat.min_eq_left (length_le_of_startsCaseless hs)]
  -- the mnemonic and `w` agree in lower case, and have one length
  rw [← (lexCaseless_spec h).2] at hs
  have ht := take_eq_of_startsCaseless (fun k hk => known_chars hw hk) hident hs
  rw [hlen, List.take_length, List.take_of_length_le (by simp [hlen])] at ht
  simpa [isKnown, flatMap_lowerChar hident, ← ht] using hw

/-- A mnemonic that colonless source reads and that is not a word has a folded character,
after identifier characters only. -/
theorem exists_folded_of_lexCaseless {cs m r : List Char} (h : lexCaseless cs = some (m, r))
    (hm : Lexeme.isWord m = false) :
    ∃ m₁ c m₂, m = m₁ ++ c :: m₂ ∧ (∀ a ∈ m₁, Lexeme.isIdentChar a = true) ∧ c ∈ foldedChars := by
  obtain ⟨hchars, hhead⟩ : (∀ c ∈ m, Lexeme.isIdentChar c = true ∨ c ∈ foldedChars) ∧
      ∀ c ∈ m.head?, Lexeme.isIdentStart c = true ∨ c ∈ foldedChars := by
    obtain ⟨w, hw, hs, rfl⟩ := exists_known_of_lexCaseless h
    exact chars_of_startsCaseless hw hs
  have hne : m ≠ [] := (lexCaseless_spec h).1
  have hfolded : ∀ c ∈ foldedChars, Lexeme.isIdentChar c = false := by
    have h : foldedChars.all (fun c => !Lexeme.isIdentChar c) = true := by decide
    simpa using List.all_eq_true.mp h
  cases hd : m.dropWhile Lexeme.isIdentChar with
  | nil =>
    -- every character is an identifier character, so the first is a letter and `m` a word
    have hall : ∀ c ∈ m, Lexeme.isIdentChar c = true := by simpa using hd
    obtain ⟨c, m', rfl⟩ := List.exists_cons_of_ne_nil hne
    rcases hhead c rfl with hs | hs
    · simp [Lexeme.isWord, hs, List.all_eq_true.mpr hall] at hm
    · simp [hfolded c hs] at hall
  | cons c m₂ =>
    have hc : Lexeme.isIdentChar c = false := by
      simpa [hd] using List.head?_dropWhile_not Lexeme.isIdentChar m
    have hmem : c ∈ m :=
      (List.dropWhile_suffix Lexeme.isIdentChar).subset (by rw [hd]; exact List.mem_cons_self)
    refine ⟨m.takeWhile Lexeme.isIdentChar, c, m₂, ?_, fun a ha =>
      List.all_eq_true.mp List.all_takeWhile a ha, ?_⟩
    · rw [← hd, List.takeWhile_append_dropWhile]
    · rcases hchars c hmem with h | h
      · simp [h] at hc
      · exact h

end Mnemonic

namespace Lexeme

open Mnemonic (foldedChars)

theorem not_folded_of {p : Char → Bool} (hp : foldedChars.all (fun a => !p a) = true) :
    ∀ a, p a = true → a ∉ foldedChars := by
  intro a ha hf
  have := List.all_eq_true.mp hp a hf
  simp [ha] at this

theorem within_char {c : Char} (hc : c ∉ foldedChars) : Within (· ∉ foldedChars) (char c) :=
  within_single fun a ha => by
    obtain rfl : a = c := by simpa using ha
    exact hc

theorem within_identifier : Within (· ∉ foldedChars) identifier :=
  within_seq (within_single (not_folded_of (by decide))) (within_many (not_folded_of (by decide)))

theorem within_label : Within (· ∉ foldedChars) label :=
  within_first (within_seq (within_char (by decide)) (within_run (not_folded_of (by decide))))
    within_identifier

theorem within_number : Within (· ∉ foldedChars) number := by
  have hd : Within (· ∉ foldedChars) digits := within_run (not_folded_of (by decide))
  have he : Within (· ∉ foldedChars) exponent :=
    within_seq (within_single (not_folded_of (by decide)))
      (within_seq (within_opt (within_single (not_folded_of (by decide)))) hd)
  have hp : Within (· ∉ foldedChars) (char '.') := within_char (by decide)
  exact within_first (within_seq hd he) (within_first
    (within_seq hd (within_seq hp (within_seq (within_opt hd) (within_opt he))))
    (within_first (within_seq hp (within_seq hd (within_opt he))) hd))

theorem within_assign : Within (· ∉ foldedChars) assign :=
  within_first (within_char (by decide))
    (within_seq (within_char (by decide)) (within_char (by decide)))

theorem single_eq_some {p : Char → Bool} {cs w r : List Char} (h : single p cs = some (w, r)) :
    ∃ c, w = [c] := by
  cases cs with
  | nil => simp [single] at h
  | cons c cs =>
    by_cases hc : p c = true
    · simp only [single, hc, if_true, Option.some.injEq, Prod.mk.injEq] at h
      exact ⟨c, h.1.symm⟩
    · simp [single, hc] at h

theorem char_eq_some {c : Char} {cs w r : List Char} (h : char c cs = some (w, r)) : w = [c] := by
  cases cs with
  | nil => simp [char, single] at h
  | cons a cs =>
    by_cases hc : a = c
    · subst hc
      simp only [char, single, beq_self_eq_true, if_true, Option.some.injEq, Prod.mk.injEq] at h
      exact h.1.symm
    · simp [char, single, hc] at h

theorem quoted_folded {cs w r : List Char} {a : Char} (h : quoted cs = some (w, r)) (ha : a ∈ w)
    (hf : a ∈ foldedChars) : w = ['\'', a, '\''] := by
  obtain ⟨w₁, r₁, w₂, h₁, h₂, rfl⟩ := seq_eq_some h
  obtain ⟨w₃, r₃, w₄, h₃, h₄, rfl⟩ := seq_eq_some h₂
  obtain rfl := char_eq_some h₁
  obtain rfl := char_eq_some h₄
  obtain ⟨b, rfl⟩ := single_eq_some h₃
  have hq : a ≠ '\'' := by rintro rfl; exact absurd hf (by decide)
  simp only [List.cons_append, List.nil_append, List.mem_cons, List.not_mem_nil, or_false, hq,
    false_or] at ha
  rw [ha]
  rfl

theorem mem_assign {cs w r : List Char} (h : assign cs = some (w, r)) : '=' ∈ w := by
  rcases first_eq_some h with h | h
  · rw [char_eq_some h]
    exact List.mem_singleton_self _
  · obtain ⟨_, _, _, -, h₂, rfl⟩ := seq_eq_some h
    rw [char_eq_some h₂]
    exact List.mem_append_right _ (List.mem_singleton_self _)

/-- A literal holds a folded character only as a quoted character. -/
theorem literal_folded {cs w r : List Char} {a : Char} (h : literal cs = some (w, r)) (ha : a ∈ w)
    (hf : a ∈ foldedChars) : w = ['\'', a, '\''] := by
  have hno {f : Lexer} (hw : Within (· ∉ foldedChars) f) (h : f cs = some (w, r)) :
      w = ['\'', a, '\''] :=
    absurd hf (hw _ _ _ h a ha)
  unfold literal at h
  rcases first_eq_some h with h | h
  · exact hno within_number h
  rcases first_eq_some h with h | h
  · exact hno (within_seq (within_char (by decide)) (within_run (not_folded_of (by decide)))) h
  rcases first_eq_some h with h | h
  · exact hno (within_seq (within_char (by decide)) (within_run (not_folded_of (by decide)))) h
  rcases first_eq_some h with h | h
  · exact hno within_label h
  rcases first_eq_some h with h | h
  · exact hno (within_seq (within_char (by decide)) (within_run (not_folded_of (by decide)))) h
  rcases first_eq_some h with h | h
  · exact quoted_folded h ha hf
  · exact hno (within_char (by decide)) h

end Lexeme

open Mnemonic (foldedChars)

theorem Lexeme.within_word_folded {v : List Char}
    (hv : (v.all fun a => !foldedChars.contains a) = true) : Within (· ∉ foldedChars) (word v) :=
  within_word fun a ha => by simpa using List.all_eq_true.mp hv a ha

/-- In standard source, only a quoted character or the rest of a line holds a folded
character. -/
theorem Terminal.lex_standard_folded {t : Terminal} (ht : t ≠ .text) {cs w r : List Char}
    {a : Char} (h : t.lex .standard cs = some (w, r)) (ha : a ∈ w) (hf : a ∈ foldedChars) :
    w = ['\'', a, '\''] := by
  open Lexeme in
  cases t
  all_goals first
    | exact absurd rfl ht
    | exact literal_folded h ha hf
    | exact absurd hf (within_char (by decide) _ _ _ h a ha)
    | exact absurd hf (within_single (not_folded_of (by decide)) _ _ _ h a ha)
    | exact absurd hf (within_run (not_folded_of (by decide)) _ _ _ h a ha)
    | exact absurd hf (within_word_folded (by decide) _ _ _ h a ha)
    | exact absurd hf (within_identifier _ _ _ h a ha)
    | exact absurd hf (within_label _ _ _ h a ha)
    | exact absurd hf (within_assign _ _ _ h a ha)

/-- The characters that can stand before a colonless mnemonic on its line: blanks, and those of
a label definition. -/
def isLeadChar (c : Char) : Bool := Lexeme.isIdentChar c || c == '@' || c == ':' || isBlank c

theorem not_isLeadChar_of_folded {c : Char} (hc : c ∈ foldedChars) : isLeadChar c = false := by
  have h : foldedChars.all (fun c => !isLeadChar c) = true := by decide
  simpa using List.all_eq_true.mp h c hc

/-- Where only lead characters come before a folded one, the folded one is the first character
that is not a lead character. -/
theorem dropWhile_isLeadChar {u v : List Char} {c : Char} (hu : ∀ a ∈ u, isLeadChar a = true)
    (hc : c ∈ foldedChars) : (u ++ c :: v).dropWhile isLeadChar = c :: v := by
  rw [List.dropWhile_append_of_pos hu,
    List.dropWhile_cons_of_neg (by simp [not_isLeadChar_of_folded hc])]

/-- A match of standard source in a text where only lead characters come before a folded one
takes only lead characters, and leaves the folded one. -/
theorem Terminal.matches_standard_before_folded {t : Terminal} (ht : t ≠ .text)
    {u v w r : List Char} {c : Char} (hu : ∀ a ∈ u, isLeadChar a = true) (hc : c ∈ foldedChars)
    (hm : t.Matches .standard (u ++ c :: v) w r) :
    (∀ a ∈ w, isLeadChar a = true) ∧ ∃ u₂, (∀ a ∈ u₂, isLeadChar a = true) ∧ r = u₂ ++ c :: v := by
  obtain ⟨x, hx⟩ := hm.exists_lex
  obtain ⟨b, hb, he⟩ := hm.eq_blanks_append
  -- the folded character is the first that is not a lead character, and the blanks are
  have hd : (w ++ r).dropWhile isLeadChar = c :: v := by
    have hbl : ∀ a ∈ b, isLeadChar a = true := fun a ha => by
      simp [isLeadChar, List.all_eq_true.mp hb a ha]
    rw [← dropWhile_isLeadChar hu hc, he, List.append_assoc, List.dropWhile_append_of_pos hbl]
  by_cases hw : ∀ a ∈ w, isLeadChar a = true
  · rw [List.dropWhile_append_of_pos hw] at hd
    refine ⟨hw, r.takeWhile isLeadChar, fun a ha => List.all_eq_true.mp List.all_takeWhile a ha, ?_⟩
    rw [← hd, List.takeWhile_append_dropWhile]
  · -- otherwise the folded character is the lexeme's first that is not a lead character; but
    -- only a quoted character holds it, and its quote comes first
    exfalso
    obtain ⟨y, ys, hys⟩ := List.exists_cons_of_ne_nil
      (show w.dropWhile isLeadChar ≠ [] from fun h => hw (by simpa using h))
    rw [List.dropWhile_append, hys] at hd
    simp only [List.isEmpty_cons, Bool.false_eq_true, if_false, List.cons_append,
      List.cons.injEq] at hd
    have hcw : c ∈ w := (List.dropWhile_suffix isLeadChar).subset (by rw [hys, hd.1]; simp)
    obtain rfl := lex_standard_folded ht hx hcw hc
    have hq : isLeadChar '\'' = false := by decide
    simp only [List.dropWhile_cons, hq, Bool.false_eq_true, if_false, List.cons.injEq] at hys
    exact absurd (hys.1.trans hd.1).symm (by rintro rfl; exact absurd hc (by decide))

/-! ## The rest of a line comes after a dot, an assignment or a semicolon -/

/-- The classes after which the rest of a line may be read. -/
def Terminal.isGuard : Terminal → Bool
  | dot | assign | semicolon => true
  | _ => false

/-- Every rest-of-line lexeme comes after a dot, an assignment or a semicolon. -/
def textGuarded : List Token → Bool
  | [] => true
  | (t, _) :: toks => t != .text && (t.isGuard || textGuarded toks)

/-- No rest of a line, and nothing after which one may come. -/
def Unguarded (toks : List Token) : Prop := ∀ p ∈ toks, p.1 ≠ .text ∧ p.1.isGuard = false

theorem textGuarded_append {ts us : List Token} (ht : Unguarded ts) (hu : textGuarded us = true) :
    textGuarded (ts ++ us) = true := by
  induction ts with
  | nil => exact hu
  | cons p ts ih =>
    obtain ⟨t, w⟩ := p
    have hp := ht (t, w) List.mem_cons_self
    have hnt : (t != .text) = true := by simpa using hp.1
    simp only [List.cons_append, textGuarded, hnt, hp.2, Bool.false_or, Bool.true_and]
    exact ih fun q hq => ht q (List.mem_cons_of_mem _ hq)

theorem textGuarded_guard_cons {t : Terminal} (hg : t.isGuard = true) (w : List Char)
    (toks : List Token) : textGuarded ((t, w) :: toks) = true := by
  cases t <;> simp_all [textGuarded, Terminal.isGuard]

@[simp] theorem unguarded_nil : Unguarded [] := by simp [Unguarded]

@[simp] theorem unguarded_cons {t : Terminal} {w : List Char} {toks : List Token} :
    Unguarded ((t, w) :: toks) ↔ (t ≠ .text ∧ t.isGuard = false) ∧ Unguarded toks := by
  simp [Unguarded]

@[simp] theorem unguarded_append {ts us : List Token} :
    Unguarded (ts ++ us) ↔ Unguarded ts ∧ Unguarded us := by
  simp only [Unguarded, List.mem_append]
  exact ⟨fun h => ⟨fun p hp => h p (Or.inl hp), fun p hp => h p (Or.inr hp)⟩,
    fun h p hp => hp.elim (h.1 p) (h.2 p)⟩

theorem OfClass.unguarded {t : Terminal} {toks : List Token} (h : OfClass t toks)
    (ht : t ≠ .text ∧ t.isGuard = false) : Unguarded toks :=
  fun p hp => h p hp ▸ ht

theorem unguarded_of_mem {toks : List Token} {ts : List Terminal} (h : ∀ p ∈ toks, p.1 ∈ ts)
    (hts : ts.all (fun t => t != .text && !t.isGuard) = true) : Unguarded toks := by
  intro p hp
  simpa using List.all_eq_true.mp hts _ (h p hp)

theorem Expr.unguarded_tokens (e : Expr) : Unguarded e.tokens :=
  unguarded_of_mem (fun _ => mem_tokens) (by decide)

theorem Operand.unguarded_tokens (o : Operand) : Unguarded o.tokens :=
  unguarded_of_mem (fun _ => mem_tokens) (by decide)

theorem Statement.unguarded_paramTokens (ps : List (List Char)) : Unguarded (paramTokens ps) :=
  unguarded_of_mem (fun _ => mem_paramTokens) (by decide)

/-- The lexemes of a statement are unguarded, or begin with the dot of a control command. -/
theorem Statement.Yields.textGuarded_append {s : Statement} {toks : List Token}
    (hy : s.Yields toks) {rest : List Token} (hr : textGuarded rest = true) :
    textGuarded (toks ++ rest) = true := by
  have hws {ws : List Token} (h : OfClass .blanks ws) : Unguarded ws :=
    h.unguarded ⟨by decide, rfl⟩
  cases hy with
  | bare m => exact AsmTidy.textGuarded_append (by simp [Unguarded, Terminal.isGuard]) hr
  | unary m o ws _ hw =>
    refine AsmTidy.textGuarded_append ?_ hr
    simp [unguarded_cons, unguarded_append, Terminal.isGuard, hws hw, o.unguarded_tokens]
  | binary m o₁ o₂ ws _ hw =>
    refine AsmTidy.textGuarded_append ?_ hr
    simp [unguarded_cons, unguarded_append, Terminal.isGuard, hws hw, o₁.unguarded_tokens,
      o₂.unguarded_tokens]
  | macroStart name params =>
    refine AsmTidy.textGuarded_append ?_ hr
    simp [unguarded_cons, Terminal.isGuard, unguarded_paramTokens]
  | macroEnd => exact AsmTidy.textGuarded_append (by simp [Unguarded, Terminal.isGuard]) hr
  | command c toks hc =>
    cases hc <;> exact textGuarded_guard_cons rfl _ _

theorem Label.Yields.unguarded {d : Dialect} {l : Label} {toks : List Token}
    (hy : l.Yields d toks) : Unguarded toks := by
  cases hy <;> simp [Terminal.isGuard]

theorem Head.Yields.textGuarded_append {d : Dialect} {h : Head} {toks : List Token}
    (hy : h.Yields d toks) {rest : List Token} (hr : textGuarded rest = true) :
    textGuarded (toks ++ rest) = true := by
  cases hy with
  | labelled l s lt st hl hs =>
    rw [List.append_assoc]
    exact AsmTidy.textGuarded_append hl.unguarded (hs.textGuarded_append hr)
  | statement s st hs => exact hs.textGuarded_append hr
  | label l lt hl => exact AsmTidy.textGuarded_append hl.unguarded hr
  | numeric name c ct hc =>
    have hu : Unguarded [(.identifier, name)] := by simp [Terminal.isGuard]
    have hc' : textGuarded (ct ++ rest) = true := by
      cases hc <;> exact textGuarded_guard_cons rfl _ _
    have h := AsmTidy.textGuarded_append hu hc'
    exact h
  | constant name assign value =>
    have hu : Unguarded [(.label, name)] := by simp [Terminal.isGuard]
    have h := AsmTidy.textGuarded_append hu
      (textGuarded_guard_cons (t := .assign) rfl assign ((.text, value) :: rest))
    exact h

theorem Comment.Yields.textGuarded_append {c : Comment} {toks : List Token} (hy : c.Yields toks)
    (rest : List Token) : textGuarded (toks ++ rest) = true := by
  cases hy with
  | flush => exact textGuarded_guard_cons rfl _ _
  | indented ind text _ hind =>
    rw [List.append_assoc]
    exact AsmTidy.textGuarded_append (hind.unguarded ⟨by decide, rfl⟩)
      (textGuarded_guard_cons rfl _ _)

/-- In every line of the grammar, each rest-of-line lexeme comes after a dot, an assignment or
a semicolon. -/
theorem Line.Yields.guarded {d : Dialect} {l : Line} {toks : List Token} (hy : l.Yields d toks) :
    textGuarded toks = true := by
  cases hy with
  | mk oh c ht ct hh hc =>
    have hnl : textGuarded [(.newline, ['\n'])] = true := rfl
    have hct : textGuarded (ct ++ [(.newline, ['\n'])]) = true := by
      cases c with
      | none => simpa [show ct = [] from hc] using hnl
      | some c => exact Comment.Yields.textGuarded_append hc _
    rw [List.append_assoc]
    cases oh with
    | none => simpa [show ht = [] from hh] using hct
    | some h => exact Head.Yields.textGuarded_append hh hct

/-! ## A folded character cannot stand where standard source reads a line -/

/-- Lexing in standard source never reaches a folded character that only lead characters
precede: every lexeme before it is a lead character run, and no rest of a line starts before
it, as no dot, assignment or semicolon does. -/
theorem Lexes.rest_of_folded {cs rest : List Char} {toks : List Token}
    (hl : Lexes .standard cs toks rest) (hg : textGuarded toks = true) {u v : List Char} {c : Char}
    (he : cs = u ++ c :: v) (hu : ∀ a ∈ u, isLeadChar a = true) (hc : c ∈ foldedChars) :
    ∃ u₂, rest = u₂ ++ c :: v := by
  induction hl generalizing u with
  | nil cs => exact ⟨u, he⟩
  | @cons cs w r toks rest t hm _ ih =>
    subst he
    simp only [textGuarded, Bool.and_eq_true, bne_iff_ne, ne_eq, Bool.or_eq_true] at hg
    obtain ⟨hw, u₂, hu₂, rfl⟩ := Terminal.matches_standard_before_folded hg.1 hu hc hm
    -- a dot, an assignment or a semicolon would put a character that is not a lead character
    -- before the folded one
    have hnot : t.isGuard = false := by
      cases t
      all_goals first
        | rfl
        | (have hdot := hm.eq_spelling rfl
           subst hdot
           exact absurd (hw _ List.mem_cons_self) (by decide))
        | (obtain ⟨x, hx⟩ := hm.exists_lex
           exact absurd (hw _ (Lexeme.mem_assign hx)) (by decide))
    exact ih (hg.2.resolve_left (by simp [hnot])) rfl hu₂

/-- What lexes as labels and colons, with the blanks before them, is lead characters. -/
theorem Lexes.exists_lead_prefix {d : Dialect} {cs rest : List Char} {toks : List Token}
    (hl : Lexes d cs toks rest) (ht : ∀ p ∈ toks, p.1 = .label ∨ p.1 = .colon) :
    ∃ pre, (∀ a ∈ pre, isLeadChar a = true) ∧ cs = pre ++ rest := by
  induction hl with
  | nil => exact ⟨[], by simp, rfl⟩
  | @cons cs w r toks rest t hm _ ih =>
    obtain ⟨pre, hpre, rfl⟩ := ih fun p hp => ht p (List.mem_cons_of_mem _ hp)
    obtain ⟨b, hb, rfl⟩ := hm.eq_blanks_append
    have hw : ∀ a ∈ w, isLeadChar a = true := by
      rcases ht _ List.mem_cons_self with rfl | rfl
      · obtain ⟨x, hx⟩ := hm.exists_lex
        refine Lexeme.within_first ?_ ?_ _ _ _ hx
        · exact Lexeme.within_seq (Lexeme.within_single fun a ha => by simp_all [isLeadChar])
            (Lexeme.within_run fun a ha => by simp [isLeadChar, ha])
        · exact Lexeme.within_seq (Lexeme.within_single fun a ha => by
              simp [isLeadChar, Lexeme.isIdentChar_of_isIdentStart ha])
            (Lexeme.within_many fun a ha => by simp [isLeadChar, ha])
      · rw [hm.eq_spelling rfl]
        simp [isLeadChar]
    refine ⟨b ++ w ++ pre, fun a ha => ?_, by simp⟩
    simp only [List.mem_append] at ha
    rcases ha with (ha | ha) | ha
    · simp [isLeadChar, List.all_eq_true.mp hb a ha]
    · exact hw a ha
    · exact hpre a ha

theorem Statement.Yields.eq_mnemonic_cons {m : List Char} {ops : List Operand} {toks : List Token}
    (hy : (instruction m ops).Yields toks) : ∃ more, toks = (.mnemonic, m) :: more := by
  cases hy <;> exact ⟨_, rfl⟩

/-- The lexemes of a line whose head is an instruction: those of a label, its colon, or both,
or none, and then the mnemonic. -/
theorem Line.Yields.eq_lead_mnemonic {d : Dialect} {y : Line} {toks : List Token}
    (hy : y.Yields d toks) {l : Option Label} {m : List Char} {ops : List Operand}
    (hh : y.head = some (.statement l (.instruction m ops))) :
    ∃ lt more, toks = lt ++ (.mnemonic, m) :: more ∧ ∀ p ∈ lt, p.1 = .label ∨ p.1 = .colon := by
  cases hy with
  | mk oh c ht ct hhy hc =>
    obtain rfl : oh = _ := hh
    cases hhy with
    | labelled l' s' lt st hlt hst =>
      obtain ⟨more, rfl⟩ := hst.eq_mnemonic_cons
      refine ⟨lt, more ++ ct ++ [(.newline, ['\n'])], by simp, ?_⟩
      cases hlt <;> simp
    | statement s' st hst =>
      obtain ⟨more, rfl⟩ := hst.eq_mnemonic_cons
      exact ⟨[], more ++ ct ++ [(.newline, ['\n'])], by simp, by simp⟩

/-- Where colonless source derives a line whose head is an instruction, the line is lead
characters and then the mnemonic as the colonless reader reads it. -/
theorem DerivesLine.mnemonic_colonless {s : List Char} {y : Line} (hy : DerivesLine .colonless s y)
    {l : Option Label} {m : List Char} {ops : List Operand}
    (hh : y.head = some (.statement l (.instruction m ops))) :
    ∃ pre r, (∀ a ∈ pre, isLeadChar a = true) ∧ s ++ ['\n'] = pre ++ m ++ r ∧
      ∃ cs, Mnemonic.lexCaseless cs = some (m, r) := by
  obtain ⟨toks, hyy, hly⟩ := hy
  obtain ⟨lt, more, rfl, hlt⟩ := hyy.eq_lead_mnemonic hh
  obtain ⟨mid, hl₁, hl₂⟩ := Lexes.append_iff.mp hly
  obtain ⟨r, hmn, -⟩ := Lexes.cons_iff.mp hl₂
  obtain ⟨pre, hpre, he⟩ := hl₁.exists_lead_prefix hlt
  obtain ⟨b, hb, rfl⟩ := hmn.eq_blanks_append
  refine ⟨pre ++ b, r, fun a ha => ?_, by rw [he]; simp, ?_⟩
  · rcases List.mem_append.mp ha with ha | ha
    · exact hpre a ha
    · simp [isLeadChar, List.all_eq_true.mp hb a ha]
  · exact hmn.exists_lex

/-- A colonless reading whose mnemonic holds a folded character is a line that standard source
cannot read. -/
theorem Line.not_derivesLine_standard_of_folded {s : List Char} {y : Line}
    (hy : DerivesLine .colonless s y) {l : Option Label} {m : List Char} {ops : List Operand}
    (hh : y.head = some (.statement l (.instruction m ops))) (hm : Lexeme.isWord m = false)
    (x : Line) : ¬ DerivesLine .standard s x := by
  rintro ⟨toks, hyx, hlx⟩
  obtain ⟨pre, r, hpre, he, cs, hcs⟩ := hy.mnemonic_colonless hh
  obtain ⟨m₁, c, m₂, rfl, hm₁, hc⟩ := Mnemonic.exists_folded_of_lexCaseless hcs hm
  have hu : ∀ a ∈ pre ++ m₁, isLeadChar a = true := by
    intro a ha
    rcases List.mem_append.mp ha with ha | ha
    · exact hpre a ha
    · simp [isLeadChar, hm₁ a ha]
  -- standard lexing of the line would have to leave the folded character unread
  obtain ⟨u₂, hu₂⟩ := hlx.rest_of_folded hyx.guarded (v := m₂ ++ r) (by rw [he]; simp) hu hc
  simp at hu₂

/-! ## The preferred readings of the two dialects -/

/-- The label a head defines, if any. -/
def Head.label? : Head → Option Label
  | statement l _ => l
  | label l => some l
  | _ => none

/-- The line defines a label without its colon. -/
def Line.hasBareLabel (l : Line) : Bool := l.head.any fun hd => hd.label?.any Label.isBare

/-- A head is plain when it defines no label without its colon and its mnemonic, if any, is
plain. -/
theorem Head.isPlain_eq (hd : Head) :
    hd.isPlain = (!hd.label?.any Label.isBare && hd.mnemonic?.all Mnemonic.isPlain) := by
  cases hd with
  | statement l s => cases l <;> cases s <;> simp [isPlain, label?, mnemonic?, Statement.isPlain]
  | label l => simp [isPlain, label?, mnemonic?]
  | numeric | constant => rfl

theorem Head.eq_of_mem_mnemonic? {hd : Head} {m : List Char} (h : m ∈ hd.mnemonic?) :
    ∃ l ops, hd = .statement l (.instruction m ops) := by
  cases hd with
  | statement l s =>
    cases s with
    | instruction m' ops =>
      obtain rfl : m' = m := by simpa [mnemonic?] using h
      exact ⟨l, ops, rfl⟩
    | _ => simp [mnemonic?] at h
  | _ => simp [mnemonic?] at h

/-- A line whose mnemonic, if any, is plain is plain or drops the colon of a label. -/
theorem Line.isPlain_or_hasBareLabel {y : Line}
    (h : ∀ hd ∈ y.head, ∀ m ∈ hd.mnemonic?, Mnemonic.isPlain m = true) :
    y.isPlain = true ∨ y.hasBareLabel = true := by
  cases hh : y.head with
  | none => simp [isPlain, hh]
  | some hd =>
    cases hb : hd.label?.any Label.isBare
    · left
      have hm : hd.mnemonic?.all Mnemonic.isPlain = true := by
        cases hmn : hd.mnemonic? with
        | none => rfl
        | some m => simpa using h hd hh m hmn
      simp [isPlain, hh, Head.isPlain_eq, hb, hm]
    · right
      simp [hasBareLabel, hh, hb]

/-- Where both dialects derive a line, the colonless mnemonic is plain: one that is not a word
holds a folded character, which standard source cannot read there, and a word that the
colonless reader reads is a known instruction. -/
theorem DerivesLine.mnemonic_isPlain {s : List Char} {y x : Line}
    (hy : DerivesLine .colonless s y) (hx : DerivesLine .standard s x) :
    ∀ hd ∈ y.head, ∀ m ∈ hd.mnemonic?, Mnemonic.isPlain m = true := by
  intro hd hh m hm
  obtain ⟨l, ops, rfl⟩ := Head.eq_of_mem_mnemonic? hm
  obtain ⟨-, r, -, -, cs, hcs⟩ := hy.mnemonic_colonless hh
  cases hw : Lexeme.isWord m
  · exact absurd hx (Line.not_derivesLine_standard_of_folded hy hh hw x)
  · simp [Mnemonic.isPlain, Mnemonic.isKnown_of_lexCaseless hcs hw, hw]

/-- Where standard source prefers a reading of a line whose mnemonic, if any, is known,
colonless source reads the line too, and prefers the same reading or one that drops the colon
of a label. -/
theorem Line.best?_colonless {s : List Char} (hs : '\n' ∉ s) {x : Line}
    (hb : (read .standard (s ++ ['\n'])).best? = some x)
    (hk : ∀ hd ∈ x.head, ∀ m ∈ hd.mnemonic?, Mnemonic.isKnown m = true) :
    ∃ y, (read .colonless (s ++ ['\n'])).best? = some y ∧ (y = x ∨ y.hasBareLabel = true) := by
  obtain ⟨rest, hmem⟩ := Reading.exists_mem_of_best? hb
  obtain ⟨y, hy, hyx⟩ := best?_colonless_of_plain hb (isPlain_of_mem_read_standard hmem hk)
  have hd := DerivesLine.mnemonic_isPlain (derivesLine_of_best? hs hy) (derivesLine_of_best? hs hb)
  exact ⟨y, hy, (isPlain_or_hasBareLabel hd).imp_left hyx⟩

/-- Line by line, the tidier's colonless reading of a text whose standard reading calls only
known instructions. -/
theorem Source.Parsed.colonless {t : List Char} {ls : List Line} (h : Parsed .standard t ls)
    (hk : ∀ l ∈ ls, ∀ hd ∈ l.head, ∀ m ∈ hd.mnemonic?, Mnemonic.isKnown m = true) :
    ∃ lc, Parsed .colonless t lc ∧
      List.Forall₂ (fun c s => c = s ∨ c.hasBareLabel = true) lc ls := by
  induction h with
  | last hb => exact ⟨[], .last hb, .nil⟩
  | cons hs hb _ ih =>
    obtain ⟨y, hy, hyx⟩ := Line.best?_colonless hs hb (hk _ List.mem_cons_self)
    obtain ⟨lc, hlc, hf⟩ := ih fun l hl => hk l (List.mem_cons_of_mem _ hl)
    exact ⟨y :: lc, .cons hs hy hlc, .cons hyx hf⟩

theorem eq_of_forall₂_of_not_hasBareLabel {lc ls : List Line}
    (h : List.Forall₂ (fun c s => c = s ∨ c.hasBareLabel = true) lc ls)
    (hb : lc.all (!·.hasBareLabel) = true) : lc = ls := by
  induction h with
  | nil => rfl
  | cons hcs _ ih =>
    simp only [List.all_cons, Bool.and_eq_true, Bool.not_eq_eq_eq_not, Bool.not_true] at hb
    rw [hcs.resolve_right (by simp [hb.1]), ih hb.2]

/-- Colonless source accepts every text that standard source accepts and whose standard reading
calls only known instructions. Line by line it reads the text as standard source does, unless
it reads a label without its colon there; where it reads no such label, it prints the text as
standard source does. -/
theorem colonless_agrees_with_standard {t : List Char} {ls : List Line}
    (h : Source.Parsed .standard t ls)
    (hk : ∀ l ∈ ls, ∀ hd ∈ l.head, ∀ m ∈ hd.mnemonic?, Mnemonic.isKnown m = true) :
    ∃ lc, Source.Parsed .colonless t lc ∧ Source.format .colonless t = .ok (Source.render lc) ∧
      List.Forall₂ (fun c s => c = s ∨ c.hasBareLabel = true) lc ls ∧
      (lc.all (!·.hasBareLabel) = true →
        Source.format .colonless t = Source.format .standard t) := by
  obtain ⟨lc, hlc, hf⟩ := h.colonless hk
  have hfc : Source.format .colonless t = .ok (Source.render lc) :=
    Source.format_eq_ok_iff.mpr ⟨lc, hlc, rfl⟩
  refine ⟨lc, hlc, hfc, hf, fun hb => ?_⟩
  rw [hfc, Source.format_eq_ok_iff.mpr ⟨ls, h, rfl⟩, eq_of_forall₂_of_not_hasBareLabel hf hb]

theorem colonless_agrees_on_labelled_inx :
    Source.Parsed .standard ("loop: inx".toList ++ ['\n'])
        [⟨some (.statement (some (.named "loop".toList true)) (.instruction "inx".toList [])),
          none⟩] ∧
      (∀ l ∈ [(⟨some (.statement (some (.named "loop".toList true))
          (.instruction "inx".toList [])), none⟩ : Line)],
        ∀ hd ∈ l.head, ∀ m ∈ hd.mnemonic?, Mnemonic.isKnown m = true) ∧
      ∃ lc, Source.Parsed .colonless ("loop: inx".toList ++ ['\n']) lc ∧
        Source.format .colonless ("loop: inx".toList ++ ['\n']) = .ok (Source.render lc) ∧
        List.Forall₂ (fun c s => c = s ∨ c.hasBareLabel = true) lc
          [⟨some (.statement (some (.named "loop".toList true)) (.instruction "inx".toList [])),
            none⟩] ∧
        (lc.all (!·.hasBareLabel) = true →
          Source.format .colonless ("loop: inx".toList ++ ['\n']) =
            Source.format .standard ("loop: inx".toList ++ ['\n'])) := by
  refine ⟨?hp, ?hk, colonless_agrees_with_standard ?hp ?hk⟩
  case hp => exact .cons (by decide) (by decide +kernel) (.last rfl)
  case hk => simpa [Head.mnemonic?] using (by decide : Mnemonic.isKnown "inx".toList = true)

/-- Standard source reads "four .set 9" as the numeric variable four; colonless source reads
the label four, without its colon, before the command. The two print it differently. -/
theorem colonless_reads_numeric_variable_as_label :
    Source.Parsed .standard ("four .set 9".toList ++ ['\n'])
        [⟨some (.numeric "four".toList ⟨"set".toList, some "9".toList⟩), none⟩] ∧
      (∀ l ∈ [(⟨some (.numeric "four".toList ⟨"set".toList, some "9".toList⟩), none⟩ : Line)],
        ∀ hd ∈ l.head, ∀ m ∈ hd.mnemonic?, Mnemonic.isKnown m = true) ∧
      Source.format .colonless ("four .set 9".toList ++ ['\n']) ≠
        Source.format .standard ("four .set 9".toList ++ ['\n']) :=
  ⟨.cons (by decide) (by decide +kernel) (.last rfl), by simp [Head.mnemonic?], by decide +kernel⟩

end AsmTidy
