import Mathlib
import AsmTidy.Proofs.Acceptance

/-!
# How the two dialects read a line

Standard and colonless source differ in two places only. A mnemonic is any identifier in
standard source, and in colonless source the longest known instruction the text starts with,
ignoring case. A label may drop its colon in colonless source. Every other reader reads the
same in both dialects.

This module compares the readings of one line in the two dialects. Call a line *plain* when
it has no label written without its colon and its mnemonic, if any, is a known instruction
written in ASCII letters and digits. Among the plain readings, both dialects find the same
ones in the same order (`Line.sameOn_read`). So where the preferred standard reading is plain,
the preferred colonless reading is that same line or a line that is not plain
(`Line.best?_colonless_of_plain`).

The comparison is made reader by reader with `Reading.SameOn`: two readings agree on a
predicate when, after dropping the results that fail it, they are equal. A reading that fails
the predicate at one level is carried along only if everything built on it fails the predicate
of the next level, or is never completed.
-/

namespace AsmTidy

open Text

/-! ## Readings that agree on a predicate -/

namespace Reading

variable {α β : Type}

/-- The readings `r₁` and `r₂` keep the same results, in the same order, among those that
satisfy `P`. -/
def SameOn (P : α × List Char → Bool) (r₁ r₂ : Reading α) : Prop :=
  r₁.results.filter P = r₂.results.filter P

theorem bindMem_congr {r : Reading α}
    {k₁ k₂ : (a : α) → (rest : List Char) → (a, rest) ∈ r.results → Reading β}
    (h : ∀ a rest hm, k₁ a rest hm = k₂ a rest hm) : r.bindMem k₁ = r.bindMem k₂ := by
  have hk : k₁ = k₂ := by
    funext a rest hm
    exact h a rest hm
  rw [hk]

theorem results_andThen (r : Reading α) (k : α → List Char → Reading β) :
    (r.andThen k).results = r.results.flatMap fun p => (k p.1 p.2).results := by
  simp only [andThen, bindMem]
  rw [List.attach_map_val (f := fun p : α × List Char => k p.1 p.2), List.flatMap_map]

@[simp] theorem results_andThen_found (a : α) (rest : List Char) (k : α → List Char → Reading β) :
    ((found a rest).andThen k).results = (k a rest).results := by
  simp [results_andThen]

theorem exists_mem_of_best? {r : Reading α} {a : α} (h : r.best? = some a) :
    ∃ rest, (a, rest) ∈ r.results := by
  simp only [best?, Option.map_eq_some_iff, List.head?_eq_some_iff] at h
  obtain ⟨⟨a', rest⟩, ⟨tl, he⟩, rfl⟩ := h
  exact ⟨rest, he ▸ List.mem_cons_self⟩

namespace SameOn

variable {P : α × List Char → Bool} {r₁ r₂ s₁ s₂ : Reading α}

theorem of_eq (h : r₁ = r₂) : SameOn P r₁ r₂ := h ▸ rfl

theorem append (hr : SameOn P r₁ r₂) (hs : SameOn P s₁ s₂) : SameOn P (r₁ ++ s₁) (r₂ ++ s₂) := by
  simp only [SameOn, results_append, List.filter_append] at *
  rw [hr, hs]

theorem map {Q : β × List Char → Bool} {f : α → β} (hf : ∀ a rest, Q (f a, rest) = P (a, rest))
    (h : SameOn P r₁ r₂) : SameOn Q (r₁.map f) (r₂.map f) := by
  have hc : (Q ∘ fun p : α × List Char => (f p.1, p.2)) = P := by
    funext p
    exact hf p.1 p.2
  simp only [SameOn, results_map, List.filter_map, hc] at *
  rw [h]

/-- Results that fail `P` may be dropped before a `flatMap` that makes nothing of them. -/
theorem flatMap_filter {L : List (α × List Char)} {g : α × List Char → List β}
    (h : ∀ p ∈ L, P p = false → g p = []) : (L.filter P).flatMap g = L.flatMap g := by
  induction L with
  | nil => rfl
  | cons p L ih =>
    have ih' := ih fun q hq => h q (List.mem_cons_of_mem _ hq)
    cases hp : P p
    · simp [hp, ih', h p List.mem_cons_self hp]
    · simp [hp, ih']

theorem flatMap_filter_congr {L : List (α × List Char)} {g₁ g₂ : α × List Char → List β}
    (h : ∀ p, P p = true → g₁ p = g₂ p) : (L.filter P).flatMap g₁ = (L.filter P).flatMap g₂ := by
  induction L with
  | nil => rfl
  | cons p L ih => cases hp : P p <;> simp [hp, ih, h p]

/-- Continuing two readings that agree on `P`: the continuations must agree on `Q` after a
result that satisfies `P`, and keep nothing that satisfies `Q` after one that does not. -/
theorem andThen {Q : β × List Char → Bool} {k₁ k₂ : α → List Char → Reading β}
    (h : SameOn P r₁ r₂)
    (h₁ : ∀ p ∈ r₁.results, P p = false → (k₁ p.1 p.2).results.filter Q = [])
    (h₂ : ∀ p ∈ r₂.results, P p = false → (k₂ p.1 p.2).results.filter Q = [])
    (hk : ∀ a rest, P (a, rest) = true → SameOn Q (k₁ a rest) (k₂ a rest)) :
    SameOn Q (r₁.andThen k₁) (r₂.andThen k₂) := by
  unfold SameOn
  rw [results_andThen, results_andThen, List.filter_flatMap, List.filter_flatMap,
    ← flatMap_filter h₁, ← flatMap_filter h₂, h]
  exact flatMap_filter_congr fun p hp => hk p.1 p.2 hp

/-- The preferred result of `r₂`, where it satisfies `P`, is preferred in `r₁` too, unless `r₁`
prefers a result that fails `P`. -/
theorem head {a : α} {ra : List Char} {tl : List (α × List Char)} (h : SameOn P r₁ r₂)
    (h₂ : r₂.results = (a, ra) :: tl) (ha : P (a, ra) = true) :
    ∃ b rb tl', r₁.results = (b, rb) :: tl' ∧ (P (b, rb) = true → b = a) := by
  unfold SameOn at h
  rw [h₂, List.filter_cons_of_pos ha] at h
  cases h₁ : r₁.results with
  | nil => simp [h₁] at h
  | cons p tl' =>
    refine ⟨p.1, p.2, tl', rfl, fun hp => ?_⟩
    rw [h₁, List.filter_cons_of_pos hp] at h
    exact (Prod.ext_iff.mp (List.cons.inj h).1).1

end SameOn

end Reading

/-! ## Readers that do not depend on the dialect -/

theorem Expr.read_dialect (d : Dialect) (cs : List Char) : read d cs = read .standard cs := by
  -- induction on the length of the text, as the reader recurses
  induction hn : cs.length using Nat.strongRecOn generalizing cs with
  | ind n ih =>
  unfold read
  dsimp only
  congr 1
  · apply Reading.bindMem_congr
    intro lit r h₁
    congr 1
    apply Reading.bindMem_congr
    intro op r' h₂
    have := Terminal.length_lt_of_mem_attempt h₁
    have := Terminal.length_lt_of_mem_attempt h₂
    rw [ih r'.length (by omega) r' rfl]
  · apply Reading.bindMem_congr
    intro _ r h₃
    have := Terminal.length_lt_of_mem_attempt h₃
    rw [ih r.length (by omega) r rfl]
    rfl

theorem Operand.read_dialect (d : Dialect) (cs : List Char) : read d cs = read .standard cs := by
  unfold read
  simp only [Expr.read_dialect d]
  rfl

theorem Statement.readParams_dialect (d : Dialect) (cs : List Char) :
    readParams d cs = readParams .standard cs := by
  induction hn : cs.length using Nat.strongRecOn generalizing cs with
  | ind n ih =>
  unfold readParams
  apply Reading.bindMem_congr
  intro _ r h₁
  apply Reading.bindMem_congr
  intro p r' h₂
  have := Terminal.length_lt_of_mem_attempt h₁
  have := Terminal.length_lt_of_mem_attempt h₂
  rw [ih r'.length (by omega) r' rfl]

theorem Statement.readMacroStart_dialect (d : Dialect) (cs : List Char) :
    readMacroStart d cs = readMacroStart .standard cs := by
  unfold readMacroStart
  simp only [readParams_dialect d]
  rfl

/-! ## Mnemonics in the two dialects -/

namespace Lexeme

/-- A word that the identifier pattern reads whole: a letter or an underscore, then letters,
digits and underscores. -/
def isWord (w : List Char) : Bool := w.head?.any isIdentStart && w.all isIdentChar

/-- Nothing of the text starts an identifier character. -/
def startsWord (r : List Char) : Bool := r.head?.any isIdentChar

theorem isIdentChar_of_isIdentStart {c : Char} (h : isIdentStart c = true) :
    isIdentChar c = true := by
  unfold isIdentStart at h
  unfold isIdentChar Char.isAlphanum
  cases hA : c.isAlpha <;> simp_all

theorem takeWhile_of_not_startsWord {r : List Char} (hr : startsWord r = false) :
    r.takeWhile isIdentChar = [] ∧ r.dropWhile isIdentChar = r := by
  cases r with
  | nil => exact ⟨rfl, rfl⟩
  | cons c r =>
    have hc : isIdentChar c = false := by simpa [startsWord] using hr
    simp [hc]

/-- The identifier pattern reads a word whole where no identifier character follows it. -/
theorem identifier_append {m r : List Char} (hm : isWord m = true) (hr : startsWord r = false) :
    identifier (m ++ r) = some (m, r) := by
  obtain ⟨c, m', rfl⟩ := List.exists_cons_of_ne_nil (show m ≠ [] by rintro rfl; simp [isWord] at hm)
  simp only [isWord, List.head?_cons, Option.any_some, List.all_cons, Bool.and_eq_true] at hm
  obtain ⟨hc, -, hm'⟩ := hm
  have hall : ∀ a ∈ m', isIdentChar a = true := fun a ha => List.all_eq_true.mp hm' a ha
  obtain ⟨ht, hd⟩ := takeWhile_of_not_startsWord hr
  simp [identifier, seq, single, many, hc, List.takeWhile_append_of_pos hall,
    List.dropWhile_append_of_pos hall, ht, hd]

/-- What the identifier pattern reads is a word, and no identifier character follows it. -/
theorem isWord_of_identifier {cs m r : List Char} (h : identifier cs = some (m, r)) :
    isWord m = true ∧ startsWord r = false := by
  obtain ⟨a, r₁, b, h₁, h₂, rfl⟩ := seq_eq_some h
  cases cs with
  | nil => simp [single] at h₁
  | cons c cs =>
    by_cases hc : isIdentStart c = true
    · simp only [single, hc, if_true, Option.some.injEq, Prod.mk.injEq] at h₁
      obtain ⟨rfl, rfl⟩ := h₁
      simp only [many, Option.some.injEq, Prod.mk.injEq] at h₂
      obtain ⟨rfl, rfl⟩ := h₂
      refine ⟨by simp [isWord, hc, isIdentChar_of_isIdentStart hc], ?_⟩
      -- the run stops at the first character that is not an identifier character
      cases hd : (cs.dropWhile isIdentChar).head? with
      | none => simp [startsWord, hd]
      | some a =>
        have hnot := List.head?_dropWhile_not isIdentChar cs
        simp only [hd] at hnot
        simp [startsWord, hd, hnot]
    · simp [single, hc] at h₁

end Lexeme

namespace Mnemonic

open Lexeme

/-- A mnemonic that both dialects read alike: a known instruction, written as a word. -/
def isPlain (m : List Char) : Bool := isKnown m && isWord m

/-- No known instruction is the beginning of another. -/
theorem eq_of_prefix_known {a b : List Char} (ha : a ∈ known) (hb : b ∈ known) (h : a <+: b) :
    a = b := by
  -- an instruction has three letters, or four whose first three are no instruction
  have hall : known.all (fun w => w.length == 3 ||
      (w.length == 4 && !known.contains (w.take 3))) = true := by
    decide +kernel
  have hlen {w : List Char} (hw : w ∈ known) :
      w.length = 3 ∨ (w.length = 4 ∧ w.take 3 ∉ known) := by
    simpa using List.all_eq_true.mp hall w hw
  obtain ⟨t, rfl⟩ := h
  have ht : t = [] := by
    rcases hlen hb with h₂ | ⟨h₂, h₃⟩ <;> rcases hlen ha with h₁ | ⟨h₁, -⟩
    · exact List.eq_nil_of_length_eq_zero (by simp at h₂; omega)
    · simp at h₂; omega
    · exact absurd (by rw [List.take_left' h₁]; exact ha) h₃
    · exact List.eq_nil_of_length_eq_zero (by simp at h₂; omega)
  simp [ht]

/-- The letters and digits of known instructions are lower case, and their capitals lower back
to them. -/
theorem known_chars {w : List Char} (hw : w ∈ known) {k : Char} (hk : k ∈ w) :
    k.toLower = k ∧ k.toUpper.toLower = k := by
  have hall : known.all (·.all fun k => k.toLower == k && k.toUpper.toLower == k) = true := by
    decide +kernel
  simpa using List.all_eq_true.mp (List.all_eq_true.mp hall w hw) k hk

theorem caselessEq_iff {k c : Char} :
    caselessEq k c = true ↔ c = k ∨ c = k.toUpper ∨ (k = 'i' ∧ (c = 'İ' ∨ c = 'ı')) ∨
      (k = 'k' ∧ c = 'K') ∨ (k = 's' ∧ c = 'ſ') := by
  simp [caselessEq, or_assoc]

/-- An identifier character matches a lower-case letter or digit, ignoring case, only when it
lowers to it. -/
theorem toLower_of_caselessEq {k c : Char} (hk : k.toLower = k ∧ k.toUpper.toLower = k)
    (h : caselessEq k c = true) (hc : isIdentChar c = true) : c.toLower = k := by
  rcases caselessEq_iff.mp h with rfl | rfl | ⟨-, rfl | rfl⟩ | ⟨-, rfl⟩ | ⟨-, rfl⟩
  · exact hk.1
  · exact hk.2
  all_goals exact absurd hc (by decide)

/-- A character is its own lower case, or the capital of it. -/
theorem toLower_eq_self_or (c : Char) : c.toLower = c ∨ c.toLower.toUpper = c := by
  have ha : ('a'.val - 'A'.val).toNat = 32 := rfl
  have hA : ('A'.val - 'a'.val).toNat = 2 ^ 32 - 32 := rfl
  have hZ : 'Z'.val.toNat = 90 := rfl
  have hla : 'a'.val.toNat = 97 := rfl
  have hlz : 'z'.val.toNat = 122 := rfl
  unfold Char.toLower
  split
  · next h =>
    right
    have h₁ := UInt32.le_iff_toNat_le.mp h.2
    unfold Char.toUpper
    split
    · apply Char.ext
      apply UInt32.toNat_inj.mp
      simp only [UInt32.toNat_add]
      omega
    · next h' =>
      exfalso
      apply h'
      simp only [UInt32.le_iff_toNat_le, UInt32.toNat_add]
      have h₂ := UInt32.le_iff_toNat_le.mp h.1
      have hA' : 'A'.val.toNat = 65 := rfl
      omega
  · exact Or.inl rfl

theorem caselessEq_toLower_self {c : Char} : caselessEq c.toLower c = true := by
  rcases toLower_eq_self_or c with h | h
  · exact caselessEq_iff.mpr (Or.inl h.symm)
  · exact caselessEq_iff.mpr (Or.inr (Or.inl h.symm))

theorem lowerChar_of_isIdentChar {c : Char} (hc : isIdentChar c = true) :
    lowerChar c = [c.toLower] := by
  have hK : c ≠ 'K' := by rintro rfl; exact absurd hc (by decide)
  have hI : c ≠ 'İ' := by rintro rfl; exact absurd hc (by decide)
  simp [lowerChar, hK, hI]

/-- A text of identifier characters lowers character by character. -/
theorem flatMap_lowerChar {m : List Char} (hm : ∀ c ∈ m, isIdentChar c = true) :
    m.flatMap lowerChar = m.map Char.toLower := by
  induction m with
  | nil => rfl
  | cons c m ih =>
    rw [List.flatMap_cons, lowerChar_of_isIdentChar (hm c List.mem_cons_self),
      ih fun c hc => hm c (List.mem_cons_of_mem _ hc)]
    rfl

/-- Where a known instruction `w` starts a text that begins with identifier characters `m`,
`w` and `m` in lower case agree as far as both go. -/
theorem take_eq_of_startsCaseless {w m r : List Char}
    (hw : ∀ k ∈ w, k.toLower = k ∧ k.toUpper.toLower = k) (hm : ∀ c ∈ m, isIdentChar c = true)
    (h : startsCaseless w (m ++ r) = true) :
    w.take m.length = (m.map Char.toLower).take w.length := by
  induction m generalizing w with
  | nil => simp
  | cons c m ih =>
    cases w with
    | nil => simp
    | cons k w =>
      rw [List.cons_append, startsCaseless_cons_cons, Bool.and_eq_true] at h
      have hck := toLower_of_caselessEq (hw k List.mem_cons_self) h.1 (hm c List.mem_cons_self)
      have ih' := ih (fun k hk => hw k (List.mem_cons_of_mem _ hk))
        (fun c hc => hm c (List.mem_cons_of_mem _ hc)) h.2
      simp [hck, ih']

/-- The longest of the words `ws` that the text starts with is `w₀` when `w₀` is the only one. -/
theorem longestAt_eq_of_unique {cs w₀ : List Char} {ws : List (List Char)} (hne : w₀ ≠ [])
    (hw₀ : w₀ ∈ ws) (hs : startsCaseless w₀ cs = true)
    (hu : ∀ w ∈ ws, startsCaseless w cs = true → w = w₀) : longestAt cs ws = w₀ := by
  induction ws with
  | nil => simp at hw₀
  | cons w ws ih =>
    have hu' : ∀ w ∈ ws, startsCaseless w cs = true → w = w₀ :=
      fun w hw => hu w (List.mem_cons_of_mem _ hw)
    simp only [longestAt]
    by_cases hw : w = w₀
    · subst hw
      by_cases hmem : w ∈ ws
      · simp [ih hmem hu']
      · -- no other word of the tail starts the text, so the search of the tail finds nothing
        have hnil : longestAt cs ws = [] := by
          rcases longestAt_eq_nil_or_mem cs ws with h | h
          · exact h
          · rcases longestAt_eq_nil_or cs ws with h' | h'
            · exact h'
            · exact absurd (hu' _ h h' ▸ h) hmem
        have hpos : 0 < w.length := List.length_pos_iff.mpr hne
        simp [hnil, hs, hpos]
    · have hne' : startsCaseless w cs = false := by
        cases h : startsCaseless w cs
        · rfl
        · exact absurd (hu w List.mem_cons_self h) hw
      have hmem : w₀ ∈ ws := by
        rcases List.mem_cons.mp hw₀ with h | h
        · exact absurd h.symm hw
        · exact h
      simp [hne', ih hmem hu']

theorem startsCaseless_map_toLower (m r : List Char) :
    startsCaseless (m.map Char.toLower) (m ++ r) = true := by
  induction m with
  | nil => simp [startsCaseless]
  | cons c m ih =>
    rw [List.map_cons, List.cons_append, startsCaseless_cons_cons, caselessEq_toLower_self, ih]
    rfl

/-- The colonless reader of mnemonics reads a known instruction written as a word, whatever
follows it. -/
theorem lexCaseless_append {m r : List Char} (hm : isPlain m = true) :
    lexCaseless (m ++ r) = some (m, r) := by
  simp only [isPlain, Bool.and_eq_true] at hm
  obtain ⟨hk, hw⟩ := hm
  have hident : ∀ c ∈ m, isIdentChar c = true := by
    simp only [isWord, Bool.and_eq_true, List.all_eq_true] at hw
    exact hw.2
  have hw₀ : m.map Char.toLower ∈ known := by
    simpa [isKnown, flatMap_lowerChar hident] using hk
  have hne : m.map Char.toLower ≠ [] := by
    intro h
    rw [List.map_eq_nil_iff] at h
    subst h
    simp [isWord] at hw
  -- any known instruction that starts the text is a beginning of `m` in lower case, or the
  -- other way round; as none begins another, it is `m` in lower case
  have hu : ∀ w ∈ known, startsCaseless w (m ++ r) = true → w = m.map Char.toLower := by
    intro w hw hsw
    have ht := take_eq_of_startsCaseless (fun k hk => known_chars hw hk) hident hsw
    have hlen : (m.map Char.toLower).length = m.length := List.length_map ..
    by_cases hle : w.length ≤ m.length
    · rw [List.take_of_length_le hle] at ht
      exact eq_of_prefix_known hw hw₀ (ht ▸ List.take_prefix w.length (m.map Char.toLower))
    · rw [List.take_of_length_le (l := m.map Char.toLower) (by omega)] at ht
      exact (eq_of_prefix_known hw₀ hw (ht ▸ List.take_prefix m.length w)).symm
  have hl := longestAt_eq_of_unique hne hw₀ (startsCaseless_map_toLower m r) hu
  obtain ⟨c, t, hct⟩ := List.exists_cons_of_ne_nil hne
  have hlen : (c :: t).length = m.length := by rw [← hct, List.length_map]
  unfold lexCaseless
  rw [hl, hct]
  simp only [hlen, List.take_left', List.drop_left']

end Mnemonic

/-! ## Plain readings -/

namespace Mnemonic

/-- A mnemonic reading that both dialects share: a plain mnemonic that no identifier character
follows. -/
def plainAt (p : List Char × List Char) : Bool := isPlain p.1 && !Lexeme.startsWord p.2

end Mnemonic

namespace Label

/-- A label written without its colon, which only colonless source allows. -/
def isBare : Label → Bool
  | named _ false => true
  | _ => false

end Label

namespace Statement

/-- Where the statement is an instruction, its mnemonic is plain. -/
def isPlain : Statement → Bool
  | instruction m _ => Mnemonic.isPlain m
  | _ => true

/-- An instruction without operands is not followed by an identifier character. -/
def endsAt : Statement → List Char → Bool
  | instruction _ [], r => !Lexeme.startsWord r
  | _, _ => true

/-- A statement reading that both dialects share. -/
def plainAt (p : Statement × List Char) : Bool := p.1.isPlain && p.1.endsAt p.2

end Statement

namespace Head

/-- No label without its colon, and a plain mnemonic if there is one. -/
def isPlain : Head → Bool
  | statement l s => l.all (!·.isBare) && s.isPlain
  | label l => !l.isBare
  | _ => true

/-- A head reading that both dialects share. -/
def plainAt (p : Head × List Char) : Bool :=
  p.1.isPlain && match p.1 with
    | statement _ s => s.endsAt p.2
    | _ => true

end Head

/-- A line with no label without its colon, and a plain mnemonic if it has one. -/
def Line.isPlain (l : Line) : Bool := l.head.all Head.isPlain

/-! ## Mnemonics and labels -/

theorem filter_toList_eq {α : Type} {o₁ o₂ : Option α} {P : α → Bool}
    (h₁ : ∀ a, o₁ = some a → P a = true → o₂ = some a)
    (h₂ : ∀ a, o₂ = some a → P a = true → o₁ = some a) :
    o₁.toList.filter P = o₂.toList.filter P := by
  cases o₁ with
  | none =>
    cases o₂ with
    | none => rfl
    | some b =>
      cases hb : P b
      · simp [hb]
      · exact absurd (h₂ b rfl hb) (by simp)
  | some a =>
    cases ha : P a
    · cases o₂ with
      | none => simp [ha]
      | some b =>
        cases hb : P b
        · simp [ha, hb]
        · obtain rfl := Option.some.inj (h₂ b rfl hb)
          simp [ha] at hb
    · rw [h₁ a rfl ha]

theorem Terminal.results_attempt (d : Dialect) (t : Terminal) (cs : List Char) :
    (t.attempt d cs).results = (t.read d cs).toList := by
  unfold attempt
  split
  · next heq => simp [heq]
  · next heq => simp [heq]

/-- No blank, indent, semicolon or line break starts where an identifier character does. -/
theorem Terminal.results_attempt_of_startsWord {d : Dialect} {t : Terminal} {r : List Char}
    (ht : t ∈ [blanks, indent, semicolon, newline]) (hr : Lexeme.startsWord r = true) :
    (t.attempt d r).results = [] := by
  obtain ⟨c, r, rfl⟩ := List.exists_cons_of_ne_nil
    (show r ≠ [] by rintro rfl; simp [Lexeme.startsWord] at hr)
  have hi : Lexeme.isIdentChar c = true := by simpa [Lexeme.startsWord] using hr
  have hb : isBlank c = false := by
    cases hbc : isBlank c
    · rfl
    · rcases isBlank_cases hbc with rfl | rfl <;> simp_all [Lexeme.isIdentChar]
  have hsp : c ≠ ' ' := by rintro rfl; simp [isBlank] at hb
  have hsc : c ≠ ';' := by rintro rfl; simp [Lexeme.isIdentChar] at hi
  have hnl : c ≠ '\n' := by rintro rfl; simp [Lexeme.isIdentChar] at hi
  rw [results_attempt]
  simp only [List.mem_cons, List.not_mem_nil, or_false] at ht
  rcases ht with rfl | rfl | rfl | rfl <;>
    simp [read, readsBlanks, lex, Lexeme.run, Lexeme.char, Lexeme.single, hb, hsp, hsc, hnl]

/-- Both dialects read the same plain mnemonics, where the standard reader reads an identifier
and the colonless one the longest known instruction. -/
theorem Terminal.sameOn_attempt_mnemonic (cs : List Char) :
    Reading.SameOn Mnemonic.plainAt (attempt .colonless .mnemonic cs)
      (attempt .standard .mnemonic cs) := by
  unfold Reading.SameOn
  rw [results_attempt, results_attempt]
  show (Mnemonic.lexCaseless (cs.dropWhile isBlank)).toList.filter Mnemonic.plainAt =
    (Lexeme.identifier (cs.dropWhile isBlank)).toList.filter Mnemonic.plainAt
  generalize cs.dropWhile isBlank = cs'
  refine filter_toList_eq ?_ ?_
  · rintro ⟨m, r⟩ h hp
    simp only [Mnemonic.plainAt, Mnemonic.isPlain, Bool.and_eq_true, Bool.not_eq_eq_eq_not,
      Bool.not_true] at hp
    rw [← (Mnemonic.lexCaseless_spec h).2]
    exact Lexeme.identifier_append hp.1.2 hp.2
  · rintro ⟨m, r⟩ h hp
    simp only [Mnemonic.plainAt, Bool.and_eq_true] at hp
    rw [← Lexeme.reads_identifier.splits _ _ _ h]
    exact Mnemonic.lexCaseless_append hp.1

namespace Label

/-- Both dialects read the same labels with their colons, in the same order. -/
theorem sameOn_read (cs : List Char) :
    Reading.SameOn (fun p => !p.1.isBare) (read .colonless cs) (read .standard cs) := by
  unfold read Reading.SameOn
  simp only [Reading.results_append, List.filter_append]
  have hbare : ((Terminal.attempt .colonless .label cs).map (named · false)).results.filter
      (fun p => !p.1.isBare) = [] := by
    simp [List.filter_map, Function.comp_def, isBare]
  rw [hbare]
  rfl

theorem isBare_of_mem_read_standard {l : Label} {cs rest : List Char}
    (h : (l, rest) ∈ (read .standard cs).results) : l.isBare = false := by
  obtain ⟨toks, hy, -⟩ := mem_read_iff.mp h
  cases hy <;> rfl

end Label

/-! ## Statements -/

namespace Statement

/-- What an instruction reads after its mnemonic: two operands, one, or none. -/
def readOperands (d : Dialect) (m r : List Char) : Reading Statement :=
  let first := (Terminal.attempt d .blanks r).andThen fun _ r' => Operand.read d r'
  let pairs := first.andThen fun o₁ r₁ =>
    (Terminal.attempt d .comma r₁).andThen fun _ r₂ =>
      (Operand.read d r₂).map fun o₂ => (r₁.length, o₁, o₂)
  (pairs.preferring Prod.fst).map (fun p => instruction m [p.2.1, p.2.2]) ++
    first.map (fun o => instruction m [o]) ++
    Reading.found (instruction m []) r

theorem readInstruction_eq (d : Dialect) (cs : List Char) :
    readInstruction d cs = (Terminal.attempt d .mnemonic cs).andThen (readOperands d) :=
  rfl

theorem readOperands_dialect (d : Dialect) (m r : List Char) :
    readOperands d m r = readOperands .standard m r := by
  unfold readOperands
  simp only [Operand.read_dialect d]
  rfl

theorem mnemonic_of_mem_readOperands {d : Dialect} {m r rest : List Char} {s : Statement}
    (h : (s, rest) ∈ (readOperands d m r).results) : ∃ ops, s = instruction m ops := by
  simp only [readOperands, Reading.results_append, List.mem_append, Reading.mem_map,
    Reading.results_found, List.mem_singleton, Prod.mk.injEq] at h
  rcases h with (⟨_, -, rfl⟩ | ⟨_, -, rfl⟩) | ⟨rfl, -⟩
  all_goals exact ⟨_, rfl⟩

/-- Where an identifier character follows the mnemonic, no operand is read. -/
theorem results_readOperands_of_startsWord {d : Dialect} {m r : List Char}
    (hr : Lexeme.startsWord r = true) : (readOperands d m r).results = [(instruction m [], r)] := by
  have hb := Terminal.results_attempt_of_startsWord (d := d) (t := .blanks) (by simp) hr
  simp [readOperands, Reading.results_andThen, Reading.preferring, hb]

/-- A mnemonic reading that the dialects do not share leads to no shared statement. -/
theorem filter_readOperands {d : Dialect} {m r : List Char}
    (h : Mnemonic.plainAt (m, r) = false) : (readOperands d m r).results.filter plainAt = [] := by
  simp only [Mnemonic.plainAt, Bool.and_eq_false_iff, Bool.not_eq_false'] at h
  rcases h with hm | hr
  · refine List.filter_eq_nil_iff.mpr fun ⟨s, rest⟩ hp => ?_
    obtain ⟨ops, hs⟩ := mnemonic_of_mem_readOperands hp
    simp [plainAt, hs, isPlain, hm]
  · rw [results_readOperands_of_startsWord hr]
    simp [plainAt, endsAt, hr]

theorem sameOn_readInstruction (cs : List Char) :
    Reading.SameOn plainAt (readInstruction .colonless cs) (readInstruction .standard cs) := by
  rw [readInstruction_eq, readInstruction_eq]
  refine (Terminal.sameOn_attempt_mnemonic cs).andThen ?_ ?_ ?_
  · exact fun p _ hp => filter_readOperands hp
  · exact fun p _ hp => filter_readOperands hp
  · exact fun m r _ => .of_eq (readOperands_dialect _ m r)

/-- Both dialects read the same plain statements, in the same order. -/
theorem sameOn_read (cs : List Char) :
    Reading.SameOn plainAt (read .colonless cs) (read .standard cs) := by
  unfold read
  refine (((sameOn_readInstruction cs).append (.of_eq ?_)).append (.of_eq rfl)).append
    (.of_eq rfl)
  exact readMacroStart_dialect _ cs

end Statement

/-! ## Heads and lines -/

namespace Head

theorem sameOn_statement (l : Option Label) (hl : l.all (!·.isBare) = true) (cs : List Char) :
    Reading.SameOn plainAt ((Statement.read .colonless cs).map (statement l))
      ((Statement.read .standard cs).map (statement l)) :=
  (Statement.sameOn_read cs).map fun s rest => by simp [plainAt, isPlain, Statement.plainAt, hl]

/-- A label and a statement: a label without its colon makes the head not plain. -/
theorem sameOn_labelled (cs : List Char) :
    Reading.SameOn plainAt
      ((Label.read .colonless cs).andThen fun l r =>
        (Statement.read .colonless r).map (statement (some l)))
      ((Label.read .standard cs).andThen fun l r =>
        (Statement.read .standard r).map (statement (some l))) := by
  refine (Label.sameOn_read cs).andThen ?_ ?_ fun l r hl =>
    sameOn_statement (some l) (by simpa using hl) r
  · intro p _ hp
    refine List.filter_eq_nil_iff.mpr fun q hq => ?_
    obtain ⟨s, -, hs⟩ := Reading.mem_map.mp hq
    simp only [Bool.not_eq_false'] at hp
    simp [← hs, plainAt, isPlain, hp]
  · intro p hp hbare
    simp [Label.isBare_of_mem_read_standard hp] at hbare

theorem sameOn_label (cs : List Char) :
    Reading.SameOn plainAt ((Label.read .colonless cs).map label)
      ((Label.read .standard cs).map label) :=
  (Label.sameOn_read cs).map fun l rest => by simp [plainAt, isPlain]

end Head

namespace Line

/-- The heads that both dialects share: none, or a plain head ended as it should be. -/
def headPlainAt (p : Option Head × List Char) : Bool := p.1.all fun h => Head.plainAt (h, p.2)

/-- Whatever is read after a head leaves the head as it is. -/
theorem head_of_mem_readEnding {d : Dialect} {h : Option Head} {r : List Char} {l : Line}
    {rest : List Char}
    (hm : (l, rest) ∈ (readEnding d (Reading.found h r)).results) : l.head = h := by
  simp only [readEnding, Reading.results_append, List.mem_append, Reading.mem_andThen,
    Reading.mem_map, Reading.results_found, List.mem_singleton, Prod.mk.injEq] at hm
  rcases hm with ⟨_, _, ⟨rfl, rfl⟩, _, _, _, _, _, -, rfl⟩ | ⟨_, _, ⟨rfl, rfl⟩, _, -, rfl⟩ <;> rfl

theorem readEnding_found_of_startsWord {d : Dialect} {h : Option Head} {r : List Char}
    (hr : Lexeme.startsWord r = true) : (readEnding d (Reading.found h r)).results = [] := by
  have hn := Terminal.results_attempt_of_startsWord (d := d) (t := .newline) (by simp) hr
  have hi := Terminal.results_attempt_of_startsWord (d := d) (t := .indent) (by simp) hr
  have hs := Terminal.results_attempt_of_startsWord (d := d) (t := .semicolon) (by simp) hr
  simp [readEnding, Comment.read, Comment.readFrom, Reading.results_andThen, hn, hi, hs]

/-- Both dialects end the heads they share in the same way. -/
theorem sameOn_readEnding {h₁ h₂ : Reading (Option Head)} (h : Reading.SameOn headPlainAt h₁ h₂) :
    Reading.SameOn (fun p => p.1.isPlain) (readEnding .colonless h₁) (readEnding .standard h₂) := by
  -- a head that is not shared is either not plain, which the line keeps, or an instruction
  -- that an identifier character follows, after which no line ends
  have hdrop (d : Dialect) (p : Option Head × List Char) (hp : headPlainAt p = false) :
      ((Comment.read d p.2).andThen fun c r' =>
          (Terminal.attempt d .newline r').map fun _ => (⟨p.1, some c⟩ : Line)).results.filter
          (fun q => q.1.isPlain) = [] ∧
        ((Terminal.attempt d .newline p.2).map fun _ => (⟨p.1, none⟩ : Line)).results.filter
          (fun q => q.1.isPlain) = [] := by
    have hd :
        (readEnding d (Reading.found p.1 p.2)).results.filter (fun q => q.1.isPlain) = [] := by
      obtain ⟨oh, r⟩ := p
      cases oh with
      | none => simp [headPlainAt] at hp
      | some hd =>
        simp only [headPlainAt, Option.all_some, Head.plainAt, Bool.and_eq_false_iff] at hp
        rcases hp with hp | hp
        · refine List.filter_eq_nil_iff.mpr fun q hq => ?_
          simp [isPlain, head_of_mem_readEnding hq, hp]
        · cases hd with
          | statement l s =>
            obtain ⟨m, _ | _⟩ | _ | _ | _ := s <;>
              simp only [Statement.endsAt, Bool.not_eq_false', reduceCtorEq] at hp
            simp [readEnding_found_of_startsWord hp]
          | _ => simp at hp
    simpa only [readEnding, Reading.results_append, List.filter_append, List.append_eq_nil_iff,
      Reading.results_andThen_found] using hd
  -- the two parts of ending a head: with a comment, and without
  unfold readEnding
  refine (Reading.SameOn.andThen h ?_ ?_ fun _ _ _ => .of_eq rfl).append
    (Reading.SameOn.andThen h ?_ ?_ fun _ _ _ => .of_eq rfl)
  · exact fun p _ hp => (hdrop .colonless p hp).1
  · exact fun p _ hp => (hdrop .standard p hp).1
  · exact fun p _ hp => (hdrop .colonless p hp).2
  · exact fun p _ hp => (hdrop .standard p hp).2

/-- Both dialects read the same plain lines, in the same order. -/
theorem sameOn_read (cs : List Char) :
    Reading.SameOn (fun p => p.1.isPlain) (read .colonless cs) (read .standard cs) := by
  have hsome {r₁ r₂ : Reading Head} (h : Reading.SameOn Head.plainAt r₁ r₂) :
      Reading.SameOn headPlainAt (r₁.map some) (r₂.map some) :=
    h.map fun _ _ => rfl
  unfold read
  simp only [Head.readForms, List.map_cons, List.map_nil, List.cons_append, List.nil_append,
    List.foldr_cons, List.foldr_nil]
  refine (sameOn_readEnding (hsome (Head.sameOn_labelled cs))).append
    ((sameOn_readEnding (hsome (Head.sameOn_statement none rfl cs))).append
    ((sameOn_readEnding (hsome (Head.sameOn_label cs))).append
    ((sameOn_readEnding (.of_eq rfl)).append ((sameOn_readEnding (.of_eq rfl)).append
    ((sameOn_readEnding (.of_eq rfl)).append (.of_eq rfl))))))

/-- Where standard source prefers a plain line, colonless source prefers that line too, or a
line that is not plain. -/
theorem best?_colonless_of_plain {cs : List Char} {l : Line}
    (hb : (read .standard cs).best? = some l) (hl : l.isPlain = true) :
    ∃ l', (read .colonless cs).best? = some l' ∧ (l'.isPlain = true → l' = l) := by
  cases hres : (read .standard cs).results with
  | nil => simp [Reading.best?, hres] at hb
  | cons p tl =>
    obtain ⟨a, ra⟩ := p
    obtain rfl : a = l := by simpa [Reading.best?, hres] using hb
    obtain ⟨b, rb, tl', h₁, himp⟩ := (sameOn_read cs).head hres hl
    exact ⟨b, by simp [Reading.best?, h₁], himp⟩

end Line

/-! ## Standard readings are plain where their mnemonics are known -/

/-- The mnemonic of a head, if it is an instruction. -/
def Head.mnemonic? : Head → Option (List Char)
  | statement _ (.instruction m _) => some m
  | _ => none

theorem Terminal.isWord_of_matches_mnemonic {cs m r : List Char}
    (h : mnemonic.Matches .standard cs m r) : Lexeme.isWord m = true := by
  obtain ⟨x, hx⟩ := h.exists_lex
  exact (Lexeme.isWord_of_identifier hx).1

theorem Statement.isPlain_of_yields {s : Statement} {toks : List Token} {cs rest : List Char}
    (hy : s.Yields toks) (hl : Lexes .standard cs toks rest)
    (hk : ∀ m ops, s = instruction m ops → Mnemonic.isKnown m = true) : s.isPlain = true := by
  have hword {m : List Char} {more : List Token}
      (h : Lexes .standard cs ((.mnemonic, m) :: more) rest) :
      Lexeme.isWord m = true := by
    obtain ⟨r, hm, -⟩ := Lexes.cons_iff.mp h
    exact Terminal.isWord_of_matches_mnemonic hm
  cases hy with
  | bare m => simp [isPlain, Mnemonic.isPlain, hk m [] rfl, hword hl]
  | unary m o => simp [isPlain, Mnemonic.isPlain, hk m [o] rfl, hword hl]
  | binary m o₁ o₂ => simp [isPlain, Mnemonic.isPlain, hk m [o₁, o₂] rfl, hword hl]
  | macroStart | macroEnd | command => rfl

theorem Head.isPlain_of_yields {hd : Head} {toks : List Token} {cs rest : List Char}
    (hy : hd.Yields .standard toks) (hl : Lexes .standard cs toks rest)
    (hk : ∀ m ∈ hd.mnemonic?, Mnemonic.isKnown m = true) : hd.isPlain = true := by
  have hstmt {s : Statement} (l : Option Label) (hk : ∀ m ∈ (statement l s).mnemonic?,
      Mnemonic.isKnown m = true) (m : List Char) (ops : List Operand)
      (hs : s = .instruction m ops) : Mnemonic.isKnown m = true :=
    hk m (by simp [hs, mnemonic?])
  cases hy with
  | labelled l s lt st hlt hst =>
    have hbare : l.isBare = false := by cases hlt <;> rfl
    obtain ⟨mid, -, hl₂⟩ := Lexes.append_iff.mp hl
    simp [isPlain, hbare, Statement.isPlain_of_yields hst hl₂ (hstmt (some l) hk)]
  | statement s st hst => simp [isPlain, Statement.isPlain_of_yields hst hl (hstmt none hk)]
  | label l lt hlt => cases hlt <;> rfl
  | numeric | constant => rfl

/-- A standard reading of a line whose mnemonic is a known instruction is plain. -/
theorem Line.isPlain_of_mem_read_standard {cs rest : List Char} {l : Line}
    (h : (l, rest) ∈ (read .standard cs).results)
    (hk : ∀ hd ∈ l.head, ∀ m ∈ hd.mnemonic?, Mnemonic.isKnown m = true) : l.isPlain = true := by
  obtain ⟨toks, hy, hl⟩ := yields_of_mem_read h
  cases hy with
  | mk oh c ht ct hh hc =>
    cases oh with
    | none => rfl
    | some hd =>
      obtain ⟨mid, hl₁, -⟩ := Lexes.append_iff.mp hl
      obtain ⟨mid', hl₂, -⟩ := Lexes.append_iff.mp hl₁
      simpa [isPlain] using Head.isPlain_of_yields hh hl₂ (hk hd rfl)

end AsmTidy
