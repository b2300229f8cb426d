import Mathlib
import AsmTidy.Proofs.Readers

/-!
# How far a reading gets

A reader tries every way to read a piece of syntax, and its frontier records how far the
attempts got. This module states what that frontier is, in terms of the grammar alone.

**Partial parses** (`Reaches`). Take a word of a language of lexemes, and lex a front part
of it from the text, one lexeme after another. When the whole word is lexed, the parse gets
to where its last lexeme ends. Otherwise it gets past the blanks where the next lexeme would
start. `Reaches d Y cs n` says that some partial parse of a word of `Y` leaves `n` characters
of `cs` unread.

**Following a language** (`Follows`). A reading of `cs` follows the language `Y` when its
results are the words of `Y` that `cs` begins with (up to their values), and its frontier is
the least number of characters that a partial parse of a word of `Y` leaves.

Each combinator of `Reading` follows the language built the same way from the languages its
parts follow: a lexeme attempt follows its class, `++` follows the union, `bindMem` follows
the concatenation, and `found` follows the empty word. So the readers of the grammar, built
from them, follow the grammar.
-/

namespace AsmTidy

open Text

/-! ## The frontier of the combinators -/

namespace Reading

variable {α β : Type}

section FoldMin

variable {γ : Type} (f : γ → Nat)

theorem foldl_min_le_init (l : List γ) (m : Nat) : l.foldl (fun a s => min a (f s)) m ≤ m := by
  induction l generalizing m with
  | nil => exact le_rfl
  | cons s l ih => exact (ih _).trans (min_le_left _ _)

theorem foldl_min_le_of_mem {l : List γ} {s : γ} (hs : s ∈ l) (m : Nat) :
    l.foldl (fun a s => min a (f s)) m ≤ f s := by
  induction l generalizing m with
  | nil => cases hs
  | cons s' l ih =>
    rcases List.mem_cons.mp hs with rfl | hs
    · exact (foldl_min_le_init f l _).trans (min_le_right _ _)
    · exact ih hs _

theorem foldl_min_eq (l : List γ) (m : Nat) :
    l.foldl (fun a s => min a (f s)) m = m ∨ ∃ s ∈ l, l.foldl (fun a s => min a (f s)) m = f s := by
  induction l generalizing m with
  | nil => exact Or.inl rfl
  | cons s l ih =>
    rcases ih (min m (f s)) with h | ⟨s', hs', h⟩
    · rw [List.foldl_cons, h]
      rcases min_choice m (f s) with h' | h'
      · exact Or.inl h'
      · exact Or.inr ⟨s, List.mem_cons_self, h'⟩
    · exact Or.inr ⟨s', List.mem_cons_of_mem _ hs', h⟩

end FoldMin

@[simp] theorem frontier_found (a : α) (rest : List Char) : (found a rest).frontier = rest.length :=
  rfl

@[simp] theorem frontier_stuck (n : Nat) : (stuck n : Reading α).frontier = n := rfl

@[simp] theorem frontier_map (f : α → β) (r : Reading α) : (r.map f).frontier = r.frontier := rfl

@[simp] theorem frontier_preferring (key : α → Nat) (r : Reading α) :
    (r.preferring key).frontier = r.frontier := rfl

variable {r : Reading α} {k : (a : α) → (rest : List Char) → (a, rest) ∈ r.results → Reading β}


theorem frontier_bindMem_le : (r.bindMem k).frontier ≤ r.frontier :=
  foldl_min_le_init _ _ _

/-- The frontier of a continued reading, as the fold that computes it. -/
theorem frontier_bindMem : (r.bindMem k).frontier =
    (r.results.attach.map fun p : {x // x ∈ r.results} => k p.1.1 p.1.2 p.2).foldl
      (fun a s => min a s.frontier) r.frontier := rfl

theorem frontier_bindMem_le_of_mem {a : α} {m : List Char} (h : (a, m) ∈ r.results) :
    (r.bindMem k).frontier ≤ (k a m h).frontier := by
  have hmem : k a m h ∈ r.results.attach.map fun p : {x // x ∈ r.results} => k p.1.1 p.1.2 p.2 :=
    List.mem_map.mpr ⟨⟨(a, m), h⟩, List.mem_attach r.results _, rfl⟩
  rw [frontier_bindMem]
  exact foldl_min_le_of_mem (fun s : Reading β => s.frontier) hmem _

/-- The frontier of a continued reading is that of the reading or of one continuation. -/
theorem frontier_bindMem_cases :
    (r.bindMem k).frontier = r.frontier ∨
      ∃ a m h, (r.bindMem k).frontier = (k a m h).frontier := by
  rw [frontier_bindMem]
  rcases foldl_min_eq (fun s : Reading β => s.frontier)
    (r.results.attach.map fun p : {x // x ∈ r.results} => k p.1.1 p.1.2 p.2) r.frontier with
    h | ⟨s, hs, h⟩
  · exact Or.inl h
  · obtain ⟨⟨⟨a, m⟩, hp⟩, -, rfl⟩ := List.mem_map.mp hs
    exact Or.inr ⟨a, m, hp, h⟩

end Reading

/-! ## Partial parses -/

/-- Some partial parse of a word of `Y` leaves `n` characters of `cs` unread. -/
inductive Reaches (d : Dialect) (Y : Language Token) (cs : List Char) : Nat → Prop
  /-- A word lexed in full gets to where its last lexeme ends. -/
  | whole {u : List Token} {rest : List Char} : u ∈ Y → Lexes d cs u rest →
      Reaches d Y cs rest.length
  /-- A word lexed in part gets past the blanks where its next lexeme would start. -/
  | part {toks more : List Token} {rest : List Char} : toks ++ more ∈ Y → more ≠ [] →
      Lexes d cs toks rest → Reaches d Y cs (rest.dropWhile isBlank).length

namespace Reaches

variable {d : Dialect} {Y Y₁ Y₂ : Language Token} {cs : List Char} {n : Nat}

/-- A word with a lexeme in it can be started anywhere: its first lexeme would come after the
blanks in front. -/
theorem start {v : List Token} (hv : v ∈ Y) (hne : v ≠ []) :
    Reaches d Y cs (cs.dropWhile isBlank).length :=
  .part (show ([] : List Token) ++ v ∈ Y from hv) hne (.nil cs)

/-- Any word of the language gets somewhere in any text. -/
theorem exists_le_length {v : List Token} (hv : v ∈ Y) : ∃ n ≤ cs.length, Reaches d Y cs n := by
  by_cases hne : v = []
  · subst hne
    exact ⟨cs.length, le_rfl, .whole hv (.nil cs)⟩
  · exact ⟨_, (List.dropWhile_suffix _).length_le, start hv hne⟩

theorem mono (h : Reaches d Y₁ cs n) (hY : ∀ w ∈ Y₁, w ∈ Y₂) : Reaches d Y₂ cs n := by
  cases h with
  | whole hu hl => exact .whole (hY _ hu) hl
  | part hw hmore hl => exact .part (hY _ hw) hmore hl

theorem add_iff : Reaches d (Y₁ + Y₂) cs n ↔ Reaches d Y₁ cs n ∨ Reaches d Y₂ cs n := by
  constructor
  · intro h
    cases h with
    | whole hu hl =>
      rcases (Language.mem_add _ _ _).mp hu with hu | hu
      · exact Or.inl (.whole hu hl)
      · exact Or.inr (.whole hu hl)
    | part hw hmore hl =>
      rcases (Language.mem_add _ _ _).mp hw with hw | hw
      · exact Or.inl (.part hw hmore hl)
      · exact Or.inr (.part hw hmore hl)
  · rintro (h | h)
    · exact h.mono fun w hw => (Language.mem_add _ _ _).mpr (Or.inl hw)
    · exact h.mono fun w hw => (Language.mem_add _ _ _).mpr (Or.inr hw)

/-- A partial parse of a word of the first language, then one of the second after it. -/
theorem mul_of {u : List Token} {m : List Char} (hu : u ∈ Y₁) (hl : Lexes d cs u m)
    (h : Reaches d Y₂ m n) : Reaches d (Y₁ * Y₂) cs n := by
  cases h with
  | whole hv hl₂ => exact .whole (Language.append_mem_mul hu hv) (hl.append hl₂)
  | part hw hmore hl₂ =>
    refine .part ?_ hmore (hl.append hl₂)
    rw [List.append_assoc]
    exact Language.append_mem_mul hu hw

/-- A partial parse of a concatenation parses a word of the first language in part, or a
word of it in full and then a word of the second in part or in full. -/
theorem mul_cases (h : Reaches d (Y₁ * Y₂) cs n) :
    Reaches d Y₁ cs n ∨ ∃ u ∈ Y₁, ∃ m, Lexes d cs u m ∧ Reaches d Y₂ m n := by
  cases h with
  | whole hu hl =>
    obtain ⟨u, hu₁, v, hv, rfl⟩ := Language.mem_mul.mp hu
    obtain ⟨m, hl₁, hl₂⟩ := Lexes.append_iff.mp hl
    exact Or.inr ⟨u, hu₁, m, hl₁, .whole hv hl₂⟩
  | @part toks more rest hw hmore hl =>
    obtain ⟨u, hu₁, v, hv, huv⟩ := Language.mem_mul.mp hw
    -- the lexed part ends inside the second word, at the end of the first, or inside it
    rcases List.append_eq_append_iff.mp huv with ⟨a', htoks, hv'⟩ | ⟨c', hu', hmore'⟩
    · subst htoks hv'
      obtain ⟨m, hl₁, hl₂⟩ := Lexes.append_iff.mp hl
      exact Or.inr ⟨u, hu₁, m, hl₁, .part hv hmore hl₂⟩
    · subst hu' hmore'
      by_cases hc : c' = []
      · subst hc
        rw [List.append_nil] at hu₁
        rw [List.nil_append] at hmore
        exact Or.inr ⟨toks, hu₁, rest, hl, start hv hmore⟩
      · exact Or.inl (.part hu₁ hc hl)

theorem one_iff : Reaches d 1 cs n ↔ n = cs.length := by
  constructor
  · intro h
    cases h with
    | whole hu hl =>
      rw [Language.mem_one] at hu
      subst hu
      rw [Lexes.nil_iff.mp hl]
    | part hw hmore _ =>
      rw [Language.mem_one, List.append_eq_nil_iff] at hw
      exact absurd hw.2 hmore
  · rintro rfl
    exact .whole ((Language.mem_one _).mpr rfl) (.nil cs)

end Reaches

/-! ## Readers that follow a language -/

/-- The reading `r` of `cs` follows the language `Y`: its results are the words of `Y` that
`cs` begins with, up to their values, and its frontier is the least number of characters that
a partial parse of a word of `Y` leaves unread. -/
structure Follows {α : Type} (d : Dialect) (Y : Language Token) (cs : List Char) (r : Reading α) :
    Prop where
  sound : ∀ a m, (a, m) ∈ r.results → ∃ u ∈ Y, Lexes d cs u m
  complete : ∀ u ∈ Y, ∀ m, Lexes d cs u m → ∃ a, (a, m) ∈ r.results
  le : ∀ n, Reaches d Y cs n → r.frontier ≤ n
  attained : ∃ n ≤ r.frontier, Reaches d Y cs n

namespace Follows

variable {α β : Type} {d : Dialect} {Y Y₁ Y₂ : Language Token} {cs : List Char}

/-- A reading that follows a language with a word in it gets no further than the end. -/
theorem frontier_le_length {r : Reading α} (h : Follows d Y cs r) {v : List Token} (hv : v ∈ Y) :
    r.frontier ≤ cs.length := by
  obtain ⟨n, hn, hr⟩ : ∃ n ≤ cs.length, Reaches d Y cs n := Reaches.exists_le_length hv
  exact (h.le n hr).trans hn

/-- The frontier is the least number of characters that a partial parse leaves. -/
theorem isLeast_frontier {r : Reading α} (h : Follows d Y cs r) :
    IsLeast {n | Reaches d Y cs n} r.frontier := by
  obtain ⟨n, hn, hr⟩ := h.attained
  have heq : n = r.frontier := le_antisymm hn (h.le n hr)
  exact ⟨heq ▸ hr, fun m hm => h.le m hm⟩

theorem found (a : α) (cs : List Char) : Follows d 1 cs (Reading.found a cs) where
  sound b m h := by
    simp only [Reading.results_found, List.mem_singleton, Prod.mk.injEq] at h
    obtain ⟨-, rfl⟩ := h
    exact ⟨[], (Language.mem_one _).mpr rfl, .nil _⟩
  complete u hu m hl := by
    rw [Language.mem_one] at hu
    subst hu
    obtain rfl := Lexes.nil_iff.mp hl
    exact ⟨a, by simp⟩
  le n h := by
    rw [Reaches.one_iff.mp h]
    rfl
  attained := ⟨cs.length, le_rfl, Reaches.one_iff.mpr rfl⟩

theorem append {r s : Reading α} (hr : Follows d Y₁ cs r) (hs : Follows d Y₂ cs s) :
    Follows d (Y₁ + Y₂) cs (r ++ s) where
  sound a m h := by
    rcases List.mem_append.mp h with h | h
    · obtain ⟨u, hu, hl⟩ := hr.sound a m h
      exact ⟨u, (Language.mem_add _ _ _).mpr (Or.inl hu), hl⟩
    · obtain ⟨u, hu, hl⟩ := hs.sound a m h
      exact ⟨u, (Language.mem_add _ _ _).mpr (Or.inr hu), hl⟩
  complete u hu m hl := by
    rcases (Language.mem_add _ _ _).mp hu with hu | hu
    · obtain ⟨a, ha⟩ := hr.complete u hu m hl
      exact ⟨a, List.mem_append_left _ ha⟩
    · obtain ⟨a, ha⟩ := hs.complete u hu m hl
      exact ⟨a, List.mem_append_right _ ha⟩
  le n h := by
    rw [Reading.frontier_append]
    rcases Reaches.add_iff.mp h with h | h
    · exact (min_le_left _ _).trans (hr.le n h)
    · exact (min_le_right _ _).trans (hs.le n h)
  attained := by
    rw [Reading.frontier_append]
    rcases min_choice r.frontier s.frontier with he | he
    · obtain ⟨n, hn, hreach⟩ := hr.attained
      rw [he]
      exact ⟨n, hn, Reaches.add_iff.mpr (Or.inl hreach)⟩
    · obtain ⟨n, hn, hreach⟩ := hs.attained
      rw [he]
      exact ⟨n, hn, Reaches.add_iff.mpr (Or.inr hreach)⟩

/-- An alternative that reads nothing and gets no further than the others changes nothing. -/
theorem append_stuck {r : Reading α} (hr : Follows d Y cs r) {n : Nat} (hn : r.frontier ≤ n) :
    Follows d Y cs (r ++ Reading.stuck n) where
  sound a m h := hr.sound a m (by simpa using h)
  complete u hu m hl := by simpa using hr.complete u hu m hl
  le k h := by
    rw [Reading.frontier_append, Reading.frontier_stuck, min_eq_left hn]
    exact hr.le k h
  attained := by
    rw [Reading.frontier_append, Reading.frontier_stuck, min_eq_left hn]
    exact hr.attained

theorem map {r : Reading α} (hr : Follows d Y cs r) (f : α → β) : Follows d Y cs (r.map f) where
  sound b m h := by
    obtain ⟨a, ha, -⟩ := Reading.mem_map.mp h
    exact hr.sound a m ha
  complete u hu m hl := by
    obtain ⟨a, ha⟩ := hr.complete u hu m hl
    exact ⟨f a, Reading.mem_map.mpr ⟨a, ha, rfl⟩⟩
  le := hr.le
  attained := hr.attained

theorem preferring {r : Reading α} (hr : Follows d Y cs r) (key : α → Nat) :
    Follows d Y cs (r.preferring key) where
  sound a m h := hr.sound a m (Reading.mem_preferring.mp h)
  complete u hu m hl := by
    obtain ⟨a, ha⟩ := hr.complete u hu m hl
    exact ⟨a, Reading.mem_preferring.mpr ha⟩
  le := hr.le
  attained := hr.attained

/-- A reading continued by readings that each follow `Y₂` where they start follows the
concatenation. -/
theorem bindMem {r : Reading α} {k : (a : α) → (rest : List Char) → (a, rest) ∈ r.results →
      Reading β} (hr : Follows d Y₁ cs r) (hk : ∀ a m h, Follows d Y₂ m (k a m h))
    {v : List Token} (hv : v ∈ Y₂) : Follows d (Y₁ * Y₂) cs (r.bindMem k) where
  sound b m' h := by
    obtain ⟨m, a, ha, hb⟩ := Reading.mem_bindMem.mp h
    obtain ⟨u, hu, hl⟩ := hr.sound a m ha
    obtain ⟨w, hw, hl'⟩ := (hk a m ha).sound b m' hb
    exact ⟨u ++ w, Language.append_mem_mul hu hw, hl.append hl'⟩
  complete uw huw m' hl := by
    obtain ⟨u, hu, w, hw, rfl⟩ := Language.mem_mul.mp huw
    obtain ⟨m, hl₁, hl₂⟩ := Lexes.append_iff.mp hl
    obtain ⟨a, ha⟩ := hr.complete u hu m hl₁
    obtain ⟨b, hb⟩ := (hk a m ha).complete w hw m' hl₂
    exact ⟨b, Reading.mem_bindMem.mpr ⟨m, a, ha, hb⟩⟩
  le n h := by
    rcases Reaches.mul_cases h with h | ⟨u, hu, m, hl, h⟩
    · exact Reading.frontier_bindMem_le.trans (hr.le n h)
    · obtain ⟨a, ha⟩ := hr.complete u hu m hl
      exact (Reading.frontier_bindMem_le_of_mem ha).trans ((hk a m ha).le n h)
  attained := by
    rcases Reading.frontier_bindMem_cases (k := k) with he | ⟨a, m, ha, he⟩
    · obtain ⟨n, hn, hreach⟩ := hr.attained
      rw [he]
      cases hreach with
      | @part toks more rest hw hmore hl =>
        -- a word of the first language read in part is a concatenated word read in part
        have hw' : toks ++ (more ++ v) ∈ Y₁ * Y₂ := by
          rw [← List.append_assoc]
          exact Language.append_mem_mul hw hv
        exact ⟨_, hn, .part hw' (by simp [hmore]) hl⟩
      | @whole u m hu hl =>
        -- a word of the first language read in full is continued, which gets as far
        obtain ⟨a, ha⟩ := hr.complete u hu m hl
        obtain ⟨n', hn', hreach'⟩ := (hk a m ha).attained
        have hk_le := (hk a m ha).frontier_le_length hv
        exact ⟨n', hn'.trans (hk_le.trans hn), Reaches.mul_of hu hl hreach'⟩
    · obtain ⟨n, hn, hreach⟩ := (hk a m ha).attained
      obtain ⟨u, hu, hl⟩ := hr.sound a m ha
      exact ⟨n, he ▸ hn, Reaches.mul_of hu hl hreach⟩

theorem andThen {r : Reading α} {k : α → List Char → Reading β} (hr : Follows d Y₁ cs r)
    (hk : ∀ a m, (a, m) ∈ r.results → Follows d Y₂ m (k a m)) {v : List Token} (hv : v ∈ Y₂) :
    Follows d (Y₁ * Y₂) cs (r.andThen k) :=
  hr.bindMem (fun a m h => hk a m h) hv

end Follows

/-! ## Attempting a lexeme -/

namespace Terminal

/-- The words of one lexeme of the class `t`. -/
def lexemes (t : Terminal) : Language Token := {ts | ∃ w, ts = [(t, w)]}

/-- The words of one or more lexemes of the class `t`. -/
def runs (t : Terminal) : Language Token := {ts | ts ≠ [] ∧ OfClass t ts}

variable {d : Dialect} {t : Terminal} {cs : List Char}

theorem frontier_attempt_le : (attempt d t cs).frontier ≤ (cs.dropWhile isBlank).length := by
  unfold attempt
  split
  · exact min_le_left _ _
  · exact le_rfl

theorem frontier_attempt_le_of_mem {w m : List Char} (h : (w, m) ∈ (attempt d t cs).results) :
    (attempt d t cs).frontier ≤ m.length := by
  have hr := mem_attempt_iff.mp h
  unfold attempt
  rw [hr]
  exact min_le_right _ _

/-- An attempt gets past the blanks in front, or to the end of the lexeme it reads. -/
theorem frontier_attempt_cases :
    (attempt d t cs).frontier = (cs.dropWhile isBlank).length ∨
      ∃ w m, (w, m) ∈ (attempt d t cs).results ∧ (attempt d t cs).frontier = m.length := by
  cases hr : t.read d cs with
  | none =>
    left
    unfold attempt
    rw [hr]
    rfl
  | some p =>
    obtain ⟨w, m⟩ := p
    have hf : (attempt d t cs).frontier = min (cs.dropWhile isBlank).length m.length := by
      unfold attempt
      rw [hr]
    rcases min_choice (cs.dropWhile isBlank).length m.length with he | he
    · exact Or.inl (hf.trans he)
    · exact Or.inr ⟨w, m, mem_attempt_iff.mpr hr, hf.trans he⟩

/-- An attempt follows a language of one-lexeme words of its class that holds every lexeme
the class matches. -/
theorem follows_attempt_of {Y : Language Token} (hY : ∀ ts ∈ Y, ∃ w, ts = [(t, w)])
    {w₀ : List Char} (hw₀ : [(t, w₀)] ∈ Y) (hall : ∀ w m, t.Matches d cs w m → [(t, w)] ∈ Y) :
    Follows d Y cs (attempt d t cs) where
  sound w m h :=
    ⟨_, hall w m (matches_of_mem_attempt h), Lexes.singleton_iff.mpr (matches_of_mem_attempt h)⟩
  complete u hu m hl := by
    obtain ⟨w, rfl⟩ := hY u hu
    obtain ⟨w', hr, -⟩ := read_of_matches (Lexes.singleton_iff.mp hl)
    exact ⟨w', mem_attempt_iff.mpr hr⟩
  le n h := by
    cases h with
    | whole hu hl =>
      obtain ⟨w, rfl⟩ := hY _ hu
      obtain ⟨w', hr, -⟩ := read_of_matches (Lexes.singleton_iff.mp hl)
      exact frontier_attempt_le_of_mem (mem_attempt_iff.mpr hr)
    | @part toks more rest hw hmore hl =>
      -- a one-lexeme word read in part is read up to the blanks in front of it
      obtain ⟨w, hw'⟩ := hY _ hw
      cases toks with
      | nil =>
        obtain rfl := Lexes.nil_iff.mp hl
        exact frontier_attempt_le
      | cons x xs =>
        rw [List.cons_append, List.cons.injEq, List.append_eq_nil_iff] at hw'
        exact absurd hw'.2.2 hmore
  attained := by
    rcases frontier_attempt_cases with he | ⟨w, m, hm, he⟩
    · exact ⟨_, he.ge, Reaches.start hw₀ (List.cons_ne_nil _ _)⟩
    · exact ⟨m.length, he.ge, .whole (hall w m (matches_of_mem_attempt hm))
        (Lexes.singleton_iff.mpr (matches_of_mem_attempt hm))⟩

theorem follows_attempt (d : Dialect) (t : Terminal) (cs : List Char) :
    Follows d t.lexemes cs (attempt d t cs) :=
  follows_attempt_of (fun _ h => h) (show [(t, [])] ∈ t.lexemes from ⟨[], rfl⟩)
    fun w _ _ => ⟨w, rfl⟩

/-- An attempt at punctuation or a keyword follows its one spelling. -/
theorem follows_attempt_spelled {w₀ : List Char} (h : t.spelling? = some w₀) (d : Dialect)
    (cs : List Char) : Follows d {[(t, w₀)]} cs (attempt d t cs) :=
  follows_attempt_of (fun _ hts => ⟨w₀, hts⟩) rfl fun w _ hm => by
    rw [hm.eq_spelling h]
    rfl

/-- A run of blanks, or of spaces for an indent, is blank: the blanks after it are those after
its start. -/
theorem dropWhile_of_matches_run (ht : t = blanks ∨ t = indent) {w r : List Char}
    (h : t.Matches d cs w r) : cs.dropWhile isBlank = r.dropWhile isBlank := by
  obtain ⟨p, hp, hpb⟩ : ∃ p, (t = blanks ∧ p = isBlank ∨ t = indent ∧ p = (· == ' ')) ∧
      ∀ c, p c = true → isBlank c = true := by
    rcases ht with rfl | rfl
    · exact ⟨_, Or.inl ⟨rfl, rfl⟩, fun _ h => h⟩
    · refine ⟨_, Or.inr ⟨rfl, rfl⟩, fun c hc => ?_⟩
      rw [beq_iff_eq.mp hc]
      rfl
  obtain ⟨-, rfl, rfl⟩ := run_eq_some_iff.mp ((matches_run hp).mp h)
  conv_lhs => rw [← List.takeWhile_append_dropWhile (p := p) (l := cs)]
  exact List.dropWhile_append_of_pos fun c hc => hpb c (List.mem_takeWhile_imp hc)

/-- An attempt at a run follows the words of one or more runs: after a run of its class, no
other run of it starts. -/
theorem follows_attempt_run (ht : t = blanks ∨ t = indent) (d : Dialect) (cs : List Char) :
    Follows d t.runs cs (attempt d t cs) where
  sound w m h :=
    ⟨_, ⟨List.cons_ne_nil _ _, by simp [OfClass]⟩,
      Lexes.singleton_iff.mpr (matches_of_mem_attempt h)⟩
  complete u hu m hl := by
    obtain ⟨w, rfl, hm⟩ := Lexes.run_single ht hu.1 hu.2 hl
    obtain ⟨w', hr, -⟩ := read_of_matches hm
    exact ⟨w', mem_attempt_iff.mpr hr⟩
  le n h := by
    cases h with
    | whole hu hl =>
      obtain ⟨w, rfl, hm⟩ := Lexes.run_single ht hu.1 hu.2 hl
      obtain ⟨w', hr, -⟩ := read_of_matches hm
      exact frontier_attempt_le_of_mem (mem_attempt_iff.mpr hr)
    | @part toks more rest hw hmore hl =>
      cases toks with
      | nil =>
        obtain rfl := Lexes.nil_iff.mp hl
        exact frontier_attempt_le
      | cons x xs =>
        obtain ⟨t', w⟩ := x
        obtain rfl : t' = t := hw.2 _ List.mem_cons_self
        obtain ⟨r, hm, hl'⟩ := Lexes.cons_iff.mp hl
        -- a second run cannot follow the first, so the parse stops after one
        cases xs with
        | nil =>
          obtain rfl := Lexes.nil_iff.mp hl'
          rw [← dropWhile_of_matches_run ht hm]
          exact frontier_attempt_le
        | cons y ys =>
          obtain ⟨t'', w'⟩ := y
          obtain rfl : t'' = t' := hw.2 (t'', w') (by simp)
          obtain ⟨r', hm', -⟩ := Lexes.cons_iff.mp hl'
          exact absurd hm' (not_matches_after_run ht hm)
  attained := by
    rcases frontier_attempt_cases with he | ⟨w, m, hm, he⟩
    · have hv : [(t, [])] ∈ t.runs := ⟨List.cons_ne_nil _ _, by simp [OfClass]⟩
      exact ⟨_, he.ge, Reaches.start hv (List.cons_ne_nil _ _)⟩
    · exact ⟨m.length, he.ge, .whole ⟨List.cons_ne_nil _ _, by simp [OfClass]⟩
        (Lexes.singleton_iff.mpr (matches_of_mem_attempt hm))⟩

end Terminal

end AsmTidy
