import AsmTidy.Proofs.Lexers

/-!
# The readers read the grammar

Each reader of `AsmTidy.Syntax.Read` finds exactly the derivations of the grammar of
`AsmTidy.Proofs.Grammar`, one category at a time.

* **Sound.** Every reading `(x, rest)` of a text `cs` is a derivation: `x` yields lexemes that
  `cs` begins with, leaving `rest`.
* **Complete.** Every derivation of a front of `cs` is found, with the same text left. For
  expressions, operands, statements and labels the reading is the derivation itself. A
  comment's text and a constant's value are the rest of a line, which the grammar may also
  take after the blanks in front of it; the reader keeps those blanks.

The readers are built from a few combinators of `Reading`, so the proofs go through one
membership lemma per combinator, one per reader, and an induction on the tree where a
reader calls itself.
-/

namespace AsmTidy

open Text

namespace Reading

variable {α β : Type}

@[simp] theorem results_found (a : α) (rest : List Char) : (found a rest).results = [(a, rest)] :=
  rfl

@[simp] theorem results_stuck (n : Nat) : (stuck n : Reading α).results = [] := rfl

/-- A reading followed by readings that depend on it. As everywhere below, the text left by
the first is bound before its value, so that `simp` can eliminate a value that a later
equation fixes. -/
theorem mem_bindMem {r : Reading α}
    {k : (a : α) → (rest : List Char) → (a, rest) ∈ r.results → Reading β} {b : β}
    {rest : List Char} :
    (b, rest) ∈ (r.bindMem k).results ↔ ∃ m a h, (b, rest) ∈ (k a m h).results := by
  simp only [bindMem, List.mem_flatMap, List.mem_map, List.mem_attach, true_and,
    Subtype.exists]
  constructor
  · rintro ⟨_, ⟨⟨a, m⟩, h, rfl⟩, hb⟩
    exact ⟨m, a, h, hb⟩
  · rintro ⟨m, a, h, hb⟩
    exact ⟨_, ⟨(a, m), h, rfl⟩, hb⟩

theorem mem_andThen {r : Reading α} {k : α → List Char → Reading β} {b : β} {rest : List Char} :
    (b, rest) ∈ (r.andThen k).results ↔
      ∃ m a, (a, m) ∈ r.results ∧ (b, rest) ∈ (k a m).results := by
  simp only [andThen, mem_bindMem, exists_prop]

theorem mem_map {f : α → β} {r : Reading α} {b : β} {rest : List Char} :
    (b, rest) ∈ (r.map f).results ↔ ∃ a, (a, rest) ∈ r.results ∧ f a = b := by
  simp only [results_map, List.mem_map, Prod.mk.injEq, Prod.exists]
  constructor
  · rintro ⟨a, m, h, rfl, rfl⟩
    exact ⟨a, h, rfl⟩
  · rintro ⟨a, h, rfl⟩
    exact ⟨a, rest, h, rfl, rfl⟩

@[simp] theorem mem_preferring {key : α → Nat} {r : Reading α} {p : α × List Char} :
    p ∈ (r.preferring key).results ↔ p ∈ r.results := by
  simp [preferring]

theorem mem_foldr_append {α β : Type} {f : α → Reading β} {xs : List α} {n : Nat}
    {p : β × List Char} :
    p ∈ (xs.foldr (fun x acc => f x ++ acc) (stuck n)).results ↔ ∃ x ∈ xs, p ∈ (f x).results := by
  induction xs with
  | nil => simp
  | cons x xs ih => simp [ih]


end Reading

open Reading

namespace Terminal

theorem mem_attempt_iff {d : Dialect} {t : Terminal} {cs w r : List Char} :
    (w, r) ∈ (t.attempt d cs).results ↔ t.read d cs = some (w, r) := by
  refine ⟨mem_attempt, fun h => ?_⟩
  simp [attempt, h]

/-- Outside the rest of a line, a lexeme that the reader attempts is a lexeme of the grammar. -/
theorem mem_attempt_iff_matches {d : Dialect} {t : Terminal} (ht : t ≠ text) {cs w r : List Char} :
    (w, r) ∈ (t.attempt d cs).results ↔ t.Matches d cs w r := by
  rw [mem_attempt_iff, matches_iff_read ht]

theorem matches_of_mem_attempt {d : Dialect} {t : Terminal} {cs w r : List Char}
    (h : (w, r) ∈ (t.attempt d cs).results) : t.Matches d cs w r :=
  matches_of_read (mem_attempt h)

/-- The one lexeme of a class of punctuation or keywords. -/
def spelling? : Terminal → Option (List Char)
  | newline => some ['\n']
  | colon => some [':']
  | comma => some [',']
  | semicolon => some [';']
  | dot => some ['.']
  | hash => some ['#']
  | openParen => some ['(']
  | closeParen => some [')']
  | macroKeyword => some ".macro".toList
  | endmacroKeyword => some ".endmacro".toList
  | _ => none

theorem lexeme_eq_of_spelling {d : Dialect} {t : Terminal} {w₀ : List Char}
    (h : t.spelling? = some w₀) {cs w r : List Char} (hl : t.lex d cs = some (w, r)) : w = w₀ := by
  have hsingle : ∀ {c : Char}, Lexeme.char c cs = some (w, r) → w = [c] := by
    intro c hc
    cases cs with
    | nil => simp [Lexeme.char, Lexeme.single] at hc
    | cons a cs =>
      by_cases ha : (a == c) = true
      · simp only [Lexeme.char, Lexeme.single, ha, if_true, Option.some.injEq,
          Prod.mk.injEq] at hc
        obtain ⟨rfl, -⟩ := hc
        simp [beq_iff_eq.mp ha]
      · simp [Lexeme.char, Lexeme.single, ha] at hc
  have hword : ∀ {v : List Char}, Lexeme.word v cs = some (w, r) → w = v := by
    intro v hv
    by_cases hp : v.isPrefixOf cs = true
    · simp only [Lexeme.word, hp, if_true, Option.some.injEq, Prod.mk.injEq] at hv
      exact hv.1.symm
    · simp [Lexeme.word, hp] at hv
  cases t <;> simp only [spelling?, reduceCtorEq, Option.some.injEq] at h <;> subst h <;>
    first | exact hsingle hl | exact hword hl

/-- A lexeme of punctuation is its one spelling. -/
theorem Matches.eq_spelling {d : Dialect} {t : Terminal} {w₀ : List Char}
    (h : t.spelling? = some w₀) {cs w r : List Char} (hm : t.Matches d cs w r) : w = w₀ := by
  cases hm with
  | here hl => exact lexeme_eq_of_spelling h hl
  | afterBlanks hl => exact lexeme_eq_of_spelling h hl

theorem mem_attempt_spelling {d : Dialect} {t : Terminal} {w₀ : List Char}
    (h : t.spelling? = some w₀) {cs r : List Char} :
    (∃ w, (w, r) ∈ (t.attempt d cs).results) ↔ t.Matches d cs w₀ r := by
  have ht : t ≠ text := by
    rintro rfl
    simp [spelling?] at h
  constructor
  · rintro ⟨w, hw⟩
    have hm := (mem_attempt_iff_matches ht).mp hw
    rwa [hm.eq_spelling h] at hm
  · intro hm
    exact ⟨w₀, (mem_attempt_iff_matches ht).mpr hm⟩

/-- The lexeme of a class of punctuation, in the form `simp` uses. -/
theorem mem_attempt_eq_spelling {d : Dialect} {t : Terminal} {w₀ : List Char}
    (h : t.spelling? = some w₀) {cs w r : List Char} :
    (w, r) ∈ (t.attempt d cs).results ↔ w = w₀ ∧ t.Matches d cs w₀ r := by
  rw [← mem_attempt_spelling h]
  constructor
  · intro hw
    have hm := matches_of_mem_attempt hw
    obtain rfl := hm.eq_spelling h
    exact ⟨rfl, w, hw⟩
  · rintro ⟨rfl, w', hw'⟩
    have hm := matches_of_mem_attempt hw'
    rwa [hm.eq_spelling h] at hw'

/-! ### Runs and the rest of a line -/

open Lexeme

/-- A run of blanks, or of spaces for an indent, matches where it stands. -/
theorem matches_run {d : Dialect} {t : Terminal} {p : Char → Bool}
    (ht : t = blanks ∧ p = isBlank ∨ t = indent ∧ p = (· == ' ')) {cs w r : List Char} :
    t.Matches d cs w r ↔ run p cs = some (w, r) := by
  rcases ht with ⟨rfl, rfl⟩ | ⟨rfl, rfl⟩ <;>
    rw [matches_iff_read (by decide)] <;> rfl

/-- No run follows a run of its own class. -/
theorem not_matches_after_run {d : Dialect} {t : Terminal} (ht : t = blanks ∨ t = indent)
    {cs w r w' r' : List Char} (h : t.Matches d cs w r) : ¬ t.Matches d r w' r' := by
  intro h'
  obtain ⟨p, hp⟩ : ∃ p, t = blanks ∧ p = isBlank ∨ t = indent ∧ p = (· == ' ') := by
    rcases ht with rfl | rfl
    · exact ⟨_, Or.inl ⟨rfl, rfl⟩⟩
    · exact ⟨_, Or.inr ⟨rfl, rfl⟩⟩
  obtain ⟨-, -, rfl⟩ := run_eq_some_iff.mp ((matches_run hp).mp h)
  obtain ⟨hh, -, -⟩ := run_eq_some_iff.mp ((matches_run hp).mp h')
  have hd := List.head?_dropWhile_not p cs
  cases hx : cs.dropWhile p with
  | nil => simp [hx] at hh
  | cons c x => simp_all

/-- After a run of blanks the text goes on with something else. -/
theorem dropWhile_of_matches_blanks {d : Dialect} {cs w r : List Char}
    (h : blanks.Matches d cs w r) : r.dropWhile isBlank = r := by
  obtain ⟨-, -, rfl⟩ := run_eq_some_iff.mp ((matches_run (Or.inl ⟨rfl, rfl⟩)).mp h)
  have hd := List.head?_dropWhile_not isBlank cs
  cases hx : cs.dropWhile isBlank with
  | nil => rfl
  | cons c x => rw [List.dropWhile_cons_of_neg (by simp [head_dropWhile_isBlank hx])]

theorem mem_attempt_text {d : Dialect} {cs w r : List Char} :
    (w, r) ∈ (text.attempt d cs).results ↔ text.lex d cs = some (w, r) := by
  rw [mem_attempt_iff]
  rfl

/-- Where no blanks stand, the rest of the line is what the reader reads. -/
theorem mem_attempt_text_iff {d : Dialect} {cs w r : List Char} (hb : cs.dropWhile isBlank = cs) :
    (w, r) ∈ (text.attempt d cs).results ↔ text.Matches d cs w r := by
  rw [mem_attempt_text]
  constructor
  · exact .here
  · intro h
    cases h with
    | here h => exact h
    | afterBlanks h => rwa [hb] at h


/-- The rest of a line that the grammar matches is read, with the blanks in front kept. -/
theorem exists_mem_attempt_text {d : Dialect} {cs w r : List Char} (h : text.Matches d cs w r) :
    ∃ w', (w', r) ∈ (text.attempt d cs).results := by
  obtain ⟨w', hr, -⟩ := read_of_matches h
  exact ⟨w', mem_attempt_iff.mpr hr⟩


end Terminal

namespace Lexes

variable {d : Dialect}

/-- A run of lexemes of blanks or of indents is one lexeme. -/
theorem run_single {t : Terminal} (ht : t = .blanks ∨ t = .indent) {ws : List Token}
    {cs mid : List Char} (hne : ws ≠ []) (hc : OfClass t ws) (h : Lexes d cs ws mid) :
    ∃ w, ws = [(t, w)] ∧ t.Matches d cs w mid := by
  match ws, hne with
  | (t', w) :: ws', _ =>
    obtain rfl : t' = t := hc _ List.mem_cons_self
    obtain ⟨r, hm, hl⟩ := cons_iff.mp h
    cases ws' with
    | nil => exact ⟨w, rfl, nil_iff.mp hl ▸ hm⟩
    | cons q ws'' =>
      obtain ⟨t'', w''⟩ := q
      obtain rfl : t'' = t' := hc (t'', w'') (by simp)
      obtain ⟨r', hm', -⟩ := cons_iff.mp hl
      exact absurd hm' (Terminal.not_matches_after_run ht hm)

end Lexes

open Terminal

/-! ## Expressions and operands -/

namespace Expr

theorem read_eq (d : Dialect) (cs : List Char) :
    read d cs =
      (attempt d .literal cs).bindMem (fun lit r _ =>
          ((attempt d .operator r).bindMem fun op r' _ => (read d r').map (chain lit op)) ++
            found (atom lit) r) ++
        (attempt d .openParen cs).bindMem fun _ r _ =>
          (read d r).andThen fun e r' => (attempt d .closeParen r').map fun _ => group e := by
  rw [read]

/-- The readings of an expression are the expressions the text begins with. -/
theorem mem_read_iff {d : Dialect} {e : Expr} {cs rest : List Char} :
    (e, rest) ∈ (read d cs).results ↔ Lexes d cs e.tokens rest := by
  -- each form is read by one branch of the reader, the nested expression by induction
  induction e generalizing cs rest with
  | atom lit =>
    rw [read_eq]
    simp [mem_bindMem, mem_andThen, tokens, Lexes.singleton_iff,
      mem_attempt_iff_matches (t := .literal) (by decide)]
  | chain lit op right ih =>
    rw [read_eq]
    simp only [results_append, List.mem_append, mem_bindMem, mem_map, mem_andThen,
      results_found, List.mem_singleton, Prod.mk.injEq, reduceCtorEq, false_and, and_false,
      or_false, exists_false, chain.injEq, tokens, Lexes.cons_iff, exists_prop,
      mem_attempt_iff_matches (t := .literal) (by decide),
      mem_attempt_iff_matches (t := .operator) (by decide)]
    constructor
    · rintro ⟨r, _, hl, r', _, ho, _, hr, rfl, rfl, rfl⟩
      exact ⟨r, hl, r', ho, ih.mp hr⟩
    · rintro ⟨r, hl, r', ho, hr⟩
      exact ⟨r, lit, hl, r', op, ho, right, ih.mpr hr, rfl, rfl, rfl⟩
  | group inner ih =>
    rw [read_eq]
    simp [mem_bindMem, mem_andThen, ih, tokens, Lexes.cons_iff, Lexes.append_iff,
      mem_attempt_eq_spelling (t := .openParen) rfl,
      mem_attempt_eq_spelling (t := .closeParen) rfl]

end Expr

namespace Operand

/-- The readings of an operand are the operands the text begins with. -/
theorem mem_read_iff {d : Dialect} {o : Operand} {cs rest : List Char} :
    (o, rest) ∈ (read d cs).results ↔ Lexes d cs o.tokens rest := by
  -- each form of operand is read by one branch of the reader; the others build other forms
  cases o with
  | register name =>
    simp [read, tokens, mem_andThen, Lexes.singleton_iff,
      mem_attempt_iff_matches (t := .register) (by decide)]
  | value imm sel e =>
    cases imm <;> cases sel <;>
      simp [read, tokens, mem_andThen, Expr.mem_read_iff, Lexes.cons_iff,
        mem_attempt_iff_matches (t := .selector) (by decide),
        mem_attempt_eq_spelling (t := .hash) rfl]

end Operand

/-! ## Commands, statements and labels -/

namespace Command

theorem mem_read_iff {d : Dialect} {c : Command} {cs rest : List Char} :
    (c, rest) ∈ (read d cs).results ↔ ∃ toks, c.Yields toks ∧ Lexes d cs toks rest := by
  simp only [read, mem_andThen, results_append, List.mem_append, mem_map, results_found,
    List.mem_singleton, Prod.mk.injEq, mem_attempt_eq_spelling (t := .dot) rfl,
    mem_attempt_iff_matches (t := .identifier) (by decide),
    mem_attempt_iff_matches (t := .blanks) (by decide)]
  constructor
  · rintro ⟨r, _, ⟨rfl, hdot⟩, r₁, name, hname, ⟨r₂, ws, hws, args, htext, rfl⟩ | ⟨rfl, rfl⟩⟩
    · refine ⟨_, .withArgs name args [(.blanks, ws)] (by simp) (by simp [OfClass]), ?_⟩
      exact .cons _ hdot (.cons _ hname
        (.cons _ hws (.cons _ (.here (mem_attempt_text.mp htext)) (.nil _))))
    · exact ⟨_, .bare name, .cons _ hdot (.cons _ hname (.nil _))⟩
  · rintro ⟨toks, hy, hl⟩
    cases hy with
    | bare name =>
      simp only [Lexes.cons_iff, Lexes.nil_iff] at hl
      obtain ⟨r, hdot, r₁, hname, rfl⟩ := hl
      exact ⟨r, _, ⟨rfl, hdot⟩, rest, name, hname, Or.inr ⟨rfl, rfl⟩⟩
    | withArgs name args ws hne hws =>
      obtain ⟨r₂, h₁₂, h₃⟩ := Lexes.append_iff.mp hl
      obtain ⟨r₁, h₁, h₂⟩ := Lexes.append_iff.mp h₁₂
      obtain ⟨w, rfl, hb⟩ := Lexes.run_single (Or.inl rfl) hne hws h₂
      simp only [Lexes.cons_iff, Lexes.nil_iff] at h₁
      obtain ⟨r, hdot, _, hname, rfl⟩ := h₁
      have htext := (mem_attempt_text_iff (dropWhile_of_matches_blanks hb)).mpr
        (Lexes.singleton_iff.mp h₃)
      exact ⟨r, _, ⟨rfl, hdot⟩, r₁, name, hname, Or.inl ⟨r₂, w, hb, args, htext, rfl⟩⟩

end Command

namespace Statement

variable {d : Dialect} {cs rest : List Char}

theorem yields_of_mem_readInstruction {s : Statement}
    (h : (s, rest) ∈ (readInstruction d cs).results) :
    ∃ toks, s.Yields toks ∧ Lexes d cs toks rest := by
  simp only [readInstruction, results_append, List.mem_append, mem_map, mem_andThen,
    mem_preferring, results_found, List.mem_singleton, Prod.mk.injEq, Operand.mem_read_iff,
    mem_attempt_iff_matches (t := .mnemonic) (by decide),
    mem_attempt_iff_matches (t := .blanks) (by decide),
    mem_attempt_eq_spelling (t := .comma) rfl] at h
  obtain ⟨r, m, hm, (⟨_, ⟨r₁, o₁, ⟨r', w, hw, ho₁⟩, r₂, _, ⟨rfl, hc⟩, o₂, ho₂, rfl⟩, rfl⟩ |
    ⟨o, ⟨r', w, hw, ho⟩, rfl⟩) | ⟨rfl, rfl⟩⟩ := h
  · exact ⟨_, .binary m o₁ o₂ [(.blanks, w)] (by simp) (by simp [OfClass]),
      .cons _ hm (.cons _ hw (ho₁.append (.cons _ hc ho₂)))⟩
  · exact ⟨_, .unary m o [(.blanks, w)] (by simp) (by simp [OfClass]), .cons _ hm (.cons _ hw ho)⟩
  · exact ⟨_, .bare m, .cons _ hm (.nil _)⟩

/-- The instructions with at most two operands that the text begins with are read. -/
theorem mem_readInstruction {m : List Char} {os : List Operand} {toks : List Token}
    (hy : (instruction m os).Yields toks) (hl : Lexes d cs toks rest) :
    (instruction m os, rest) ∈ (readInstruction d cs).results := by
  simp only [readInstruction, results_append, List.mem_append, mem_map, mem_andThen,
    mem_preferring, results_found, List.mem_singleton, Prod.mk.injEq, Operand.mem_read_iff,
    mem_attempt_iff_matches (t := .mnemonic) (by decide),
    mem_attempt_iff_matches (t := .blanks) (by decide), mem_attempt_eq_spelling (t := .comma) rfl]
  cases hy with
  | bare _ =>
    obtain ⟨r, hm, rfl⟩ : ∃ r, mnemonic.Matches d cs m r ∧ rest = r := by
      simpa [Lexes.cons_iff] using hl
    exact ⟨rest, m, hm, Or.inr ⟨rfl, rfl⟩⟩
  | unary _ o ws hne hws =>
    obtain ⟨r, hm, hl⟩ := Lexes.cons_iff.mp hl
    obtain ⟨r', hws', ho⟩ := Lexes.append_iff.mp hl
    obtain ⟨w, rfl, hw⟩ := Lexes.run_single (Or.inl rfl) hne hws hws'
    exact ⟨r, m, hm, Or.inl (Or.inr ⟨o, ⟨r', w, hw, ho⟩, rfl⟩)⟩
  | binary _ o₁ o₂ ws hne hws =>
    obtain ⟨r, hm, hl⟩ := Lexes.cons_iff.mp hl
    obtain ⟨r₁, hl₁, hl₂⟩ := Lexes.append_iff.mp hl
    obtain ⟨r', hws', ho₁⟩ := Lexes.append_iff.mp hl₁
    obtain ⟨w, rfl, hw⟩ := Lexes.run_single (Or.inl rfl) hne hws hws'
    obtain ⟨r₂, hc, ho₂⟩ := Lexes.cons_iff.mp hl₂
    exact ⟨r, m, hm, Or.inl (Or.inl ⟨_, ⟨r₁, o₁, ⟨r', w, hw, ho₁⟩, r₂, _, ⟨rfl, hc⟩, o₂, ho₂, rfl⟩,
      rfl⟩)⟩

/-- The lexemes of further parameters, each after its comma. -/
theorem mem_readParams_iff {ps : List (List Char)} :
    (ps, rest) ∈ (readParams d cs).results ↔
      ps ≠ [] ∧ Lexes d cs (ps.flatMap fun q => [(.comma, [',']), (.identifier, q)]) rest := by
  induction ps generalizing cs with
  | nil =>
    rw [readParams]
    simp [mem_bindMem]
  | cons p ps ih =>
    rw [readParams, List.flatMap_cons, List.cons_append, List.cons_append, List.nil_append,
      Lexes.cons_iff]
    simp only [mem_bindMem, results_append, List.mem_append, mem_map, results_found,
      List.mem_singleton, Prod.mk.injEq, List.cons.injEq, exists_prop, ne_eq,
      mem_attempt_eq_spelling (t := .comma) rfl,
      mem_attempt_iff_matches (t := .identifier) (by decide), Lexes.cons_iff]
    -- the reader ends the list here, or reads more of it by induction
    cases ps with
    | nil =>
      simp only [List.flatMap_nil, Lexes.nil_iff, List.cons_ne_nil, not_false_eq_true, true_and,
        and_true]
      constructor
      · rintro ⟨r, _, ⟨rfl, hc⟩, r', _, hp, ⟨_, hnil, -, rfl⟩ | ⟨rfl, rfl⟩⟩
        · exact absurd rfl (ih.mp hnil).1
        · exact ⟨r, hc, _, hp, rfl⟩
      · rintro ⟨r, hc, r', hp, rfl⟩
        exact ⟨r, _, ⟨rfl, hc⟩, rest, p, hp, Or.inr ⟨rfl, rfl⟩⟩
    | cons q qs => simp [ih]

theorem yields_of_mem_readMacroStart {s : Statement}
    (h : (s, rest) ∈ (readMacroStart d cs).results) :
    ∃ toks, s.Yields toks ∧ Lexes d cs toks rest := by
  simp only [readMacroStart, results_append, List.mem_append, mem_map, mem_andThen, results_found,
    List.mem_singleton, Prod.mk.injEq, mem_attempt_eq_spelling (t := .macroKeyword) rfl,
    mem_attempt_iff_matches (t := .identifier) (by decide), mem_readParams_iff] at h
  obtain ⟨r, _, ⟨rfl, hk⟩, r₁, name, hn,
    ⟨r₂, p, hp, ⟨ps, ⟨-, hps⟩, rfl⟩ | ⟨rfl, rfl⟩⟩ | ⟨rfl, rfl⟩⟩ := h
  · exact ⟨_, .macroStart name (p :: ps), .cons _ hk (.cons _ hn (.cons _ hp hps))⟩
  · exact ⟨_, .macroStart name [p], .cons _ hk (.cons _ hn (.cons _ hp (.nil _)))⟩
  · exact ⟨_, .macroStart name [], .cons _ hk (.cons _ hn (.nil _))⟩

theorem mem_readMacroStart {name : List Char} {params : List (List Char)}
    (hl : Lexes d cs
      ((.macroKeyword, ".macro".toList) :: (.identifier, name) :: paramTokens params) rest) :
    (macroStart name params, rest) ∈ (readMacroStart d cs).results := by
  simp only [readMacroStart, results_append, List.mem_append, mem_map, mem_andThen, results_found,
    List.mem_singleton, Prod.mk.injEq, mem_attempt_eq_spelling (t := .macroKeyword) rfl,
    mem_attempt_iff_matches (t := .identifier) (by decide), mem_readParams_iff]
  obtain ⟨r, hk, hl⟩ := Lexes.cons_iff.mp hl
  obtain ⟨r₁, hn, hl⟩ := Lexes.cons_iff.mp hl
  refine ⟨r, _, ⟨rfl, hk⟩, r₁, name, hn, ?_⟩
  -- no parameters, one, or a first one and a comma-separated tail
  match params, hl with
  | [], hl => exact Or.inr ⟨rfl, Lexes.nil_iff.mp hl⟩
  | [p], hl =>
    obtain ⟨r₂, hp, hl⟩ := Lexes.cons_iff.mp hl
    exact Or.inl ⟨r₂, p, hp, Or.inr ⟨rfl, Lexes.nil_iff.mp hl⟩⟩
  | p :: q :: qs, hl =>
    obtain ⟨r₂, hp, hl⟩ := Lexes.cons_iff.mp hl
    exact Or.inl ⟨r₂, p, hp, Or.inl ⟨q :: qs, ⟨List.cons_ne_nil q qs, hl⟩, rfl⟩⟩

/-- The readings of a statement are the statements the text begins with. -/
theorem mem_read_iff {s : Statement} :
    (s, rest) ∈ (read d cs).results ↔ ∃ toks, s.Yields toks ∧ Lexes d cs toks rest := by
  simp only [read, results_append, List.mem_append, mem_map]
  constructor
  · rintro (((h | h) | ⟨_, h, rfl⟩) | ⟨c, h, rfl⟩)
    · exact yields_of_mem_readInstruction h
    · exact yields_of_mem_readMacroStart h
    · obtain ⟨-, h⟩ := (mem_attempt_eq_spelling rfl).mp h
      exact ⟨_, .macroEnd, Lexes.singleton_iff.mpr h⟩
    · obtain ⟨toks, hy, hl⟩ := Command.mem_read_iff.mp h
      exact ⟨toks, .command c toks hy, hl⟩
  · rintro ⟨toks, hy, hl⟩
    cases hy with
    | bare m => exact Or.inl (Or.inl (Or.inl (mem_readInstruction (.bare m) hl)))
    | unary m o ws hne hws =>
      exact Or.inl (Or.inl (Or.inl (mem_readInstruction (.unary m o ws hne hws) hl)))
    | binary m o₁ o₂ ws hne hws =>
      exact Or.inl (Or.inl (Or.inl (mem_readInstruction (.binary m o₁ o₂ ws hne hws) hl)))
    | macroStart name params => exact Or.inl (Or.inl (Or.inr (mem_readMacroStart hl)))
    | macroEnd =>
      exact Or.inl
        (Or.inr ⟨_, (mem_attempt_eq_spelling rfl).mpr ⟨rfl, Lexes.singleton_iff.mp hl⟩, rfl⟩)
    | command c toks hc => exact Or.inr ⟨c, Command.mem_read_iff.mpr ⟨toks, hc, hl⟩, rfl⟩

end Statement

namespace Label

variable {d : Dialect} {cs rest : List Char}

/-- The readings of a label definition are the label definitions the text begins with. -/
theorem mem_read_iff {l : Label} :
    (l, rest) ∈ (read d cs).results ↔ ∃ toks, l.Yields d toks ∧ Lexes d cs toks rest := by
  simp only [read, results_append, List.mem_append, mem_map, mem_andThen,
    mem_attempt_iff_matches (t := .label) (by decide), mem_attempt_eq_spelling (t := .colon) rfl]
  constructor
  · rintro ((⟨r, name, hn, _, ⟨rfl, hc⟩, rfl⟩ | h) | ⟨_, ⟨rfl, hc⟩, rfl⟩)
    · exact ⟨_, .named d name, .cons _ hn (.cons _ hc (.nil _))⟩
    · cases d with
      | standard => simp at h
      | colonless =>
        obtain ⟨name, hn, rfl⟩ := mem_map.mp h
        exact ⟨_, .colonless name,
          Lexes.singleton_iff.mpr ((mem_attempt_iff_matches (by decide)).mp hn)⟩
    · exact ⟨_, .unnamed d, Lexes.singleton_iff.mpr hc⟩
  · rintro ⟨toks, hy, hl⟩
    cases hy with
    | named _ name =>
      obtain ⟨r, hn, hl⟩ := Lexes.cons_iff.mp hl
      exact Or.inl (Or.inl ⟨r, name, hn, _, ⟨rfl, Lexes.singleton_iff.mp hl⟩, rfl⟩)
    | colonless name =>
      exact Or.inl (Or.inr (mem_map.mpr ⟨name,
        (mem_attempt_iff_matches (by decide)).mpr (Lexes.singleton_iff.mp hl), rfl⟩))
    | unnamed _ => exact Or.inr ⟨_, ⟨rfl, Lexes.singleton_iff.mp hl⟩, rfl⟩

end Label

/-! ## Comments, heads and lines -/

namespace Comment

variable {d : Dialect} {cs rest : List Char}

theorem yields_of_mem_readFrom {ind : Bool} {c : Comment}
    (h : (c, rest) ∈ (readFrom d ind cs).results) :
    c.indented = ind ∧ ∃ toks, Comment.Yields ⟨false, c.text⟩ toks ∧ Lexes d cs toks rest := by
  simp only [readFrom, mem_andThen, results_append, List.mem_append, mem_map, results_found,
    List.mem_singleton, Prod.mk.injEq, mem_attempt_eq_spelling (t := .semicolon) rfl] at h
  obtain ⟨r, _, ⟨rfl, hs⟩, ⟨t, ht, rfl⟩ | ⟨rfl, rfl⟩⟩ := h
  · exact ⟨rfl, _, .flush (some t), .cons _ hs (.cons _ (matches_of_mem_attempt ht) (.nil _))⟩
  · exact ⟨rfl, _, .flush none, .cons _ hs (.nil _)⟩

theorem exists_mem_readFrom (ind : Bool) {text : Option (List Char)}
    (hl : Lexes d cs ((.semicolon, [';']) :: (text.map (.text, ·)).toList) rest) :
    ∃ text', (⟨ind, text'⟩, rest) ∈ (readFrom d ind cs).results := by
  simp only [readFrom, mem_andThen, results_append, List.mem_append, mem_map, results_found,
    List.mem_singleton, Prod.mk.injEq, mem_attempt_eq_spelling (t := .semicolon) rfl]
  obtain ⟨r, hs, hl⟩ := Lexes.cons_iff.mp hl
  cases text with
  | none => exact ⟨none, r, _, ⟨rfl, hs⟩, Or.inr ⟨rfl, Lexes.nil_iff.mp hl⟩⟩
  | some t =>
    obtain ⟨t', ht'⟩ := exists_mem_attempt_text (Lexes.singleton_iff.mp hl)
    exact ⟨some t', r, _, ⟨rfl, hs⟩, Or.inl ⟨t', ht', rfl⟩⟩

/-- Every reading of a comment is a comment of the grammar. -/
theorem yields_of_mem_read {c : Comment} (h : (c, rest) ∈ (read d cs).results) :
    ∃ toks, c.Yields toks ∧ Lexes d cs toks rest := by
  simp only [read, mem_andThen, results_append, List.mem_append,
    mem_attempt_iff_matches (t := .indent) (by decide)] at h
  obtain ⟨r, w, hi, h⟩ | h := h
  · obtain ⟨hind, toks, hy, hl⟩ := yields_of_mem_readFrom h
    obtain ⟨ind, text⟩ := c
    cases hy with
    | flush =>
      obtain rfl : ind = true := hind
      exact ⟨_, .indented [(.indent, w)] text (by simp) (by simp [OfClass]), .cons _ hi hl⟩
  · obtain ⟨hind, toks, hy, hl⟩ := yields_of_mem_readFrom h
    obtain ⟨ind, text⟩ := c
    obtain rfl : ind = false := hind
    exact ⟨toks, hy, hl⟩

/-- Every comment of the grammar that the text begins with is read, up to the blanks in front
of its text. -/
theorem exists_mem_read {c : Comment} {toks : List Token} (hy : c.Yields toks)
    (hl : Lexes d cs toks rest) : ∃ c', (c', rest) ∈ (read d cs).results := by
  simp only [read, mem_andThen, results_append, List.mem_append,
    mem_attempt_iff_matches (t := .indent) (by decide)]
  cases hy with
  | flush text =>
    obtain ⟨t, ht⟩ := exists_mem_readFrom false hl
    exact ⟨_, Or.inr ht⟩
  | indented ind text hne hind =>
    obtain ⟨r, hi, hs⟩ := Lexes.append_iff.mp hl
    obtain ⟨w, rfl, hw⟩ := Lexes.run_single (Or.inr rfl) hne hind hi
    obtain ⟨t, ht⟩ := exists_mem_readFrom true hs
    exact ⟨_, Or.inl ⟨r, w, hw, ht⟩⟩

end Comment

namespace Head

variable {d : Dialect} {cs rest : List Char}

/-- Every reading of a head, in any of its forms, is a head of the grammar. -/
theorem yields_of_mem_readForms {heads : Reading Head} (hf : heads ∈ readForms d cs) {h : Head}
    (hh : (h, rest) ∈ heads.results) : ∃ toks, h.Yields d toks ∧ Lexes d cs toks rest := by
  simp only [readForms, List.mem_cons, List.not_mem_nil, or_false] at hf
  rcases hf with rfl | rfl | rfl | rfl | rfl
  · obtain ⟨r, l, hl, s, hs, rfl⟩ := by simpa only [mem_andThen, mem_map] using hh
    obtain ⟨lt, hly, hll⟩ := Label.mem_read_iff.mp hl
    obtain ⟨st, hsy, hsl⟩ := Statement.mem_read_iff.mp hs
    exact ⟨_, .labelled l s lt st hly hsy, hll.append hsl⟩
  · obtain ⟨s, hs, rfl⟩ := mem_map.mp hh
    obtain ⟨st, hsy, hsl⟩ := Statement.mem_read_iff.mp hs
    exact ⟨_, .statement s st hsy, hsl⟩
  · obtain ⟨l, hl, rfl⟩ := mem_map.mp hh
    obtain ⟨lt, hly, hll⟩ := Label.mem_read_iff.mp hl
    exact ⟨_, .label l lt hly, hll⟩
  · obtain ⟨r, name, hn, c, hc, rfl⟩ := by simpa only [readVariable, mem_andThen, mem_map] using hh
    obtain ⟨ct, hcy, hcl⟩ := Command.mem_read_iff.mp hc
    exact ⟨_, .numeric name c ct hcy, .cons _ (matches_of_mem_attempt hn) hcl⟩
  · obtain ⟨r, name, hn, r', a, ha, v, hv, rfl⟩ := by
      simpa only [readConstant, mem_andThen, mem_map] using hh
    exact ⟨_, .constant name a v, .cons _ (matches_of_mem_attempt hn)
      (.cons _ (matches_of_mem_attempt ha) (.cons _ (matches_of_mem_attempt hv) (.nil _)))⟩

/-- Every head of the grammar that the text begins with is read in one of the forms, up to
the blanks in front of a constant's value. -/
theorem exists_mem_readForms {h : Head} {toks : List Token} (hy : h.Yields d toks)
    (hl : Lexes d cs toks rest) : ∃ heads ∈ readForms d cs, ∃ h', (h', rest) ∈ heads.results := by
  -- each rule of the grammar is read by its own form, the `n`-th in the list
  cases hy with
  | labelled l s lt st hly hsy =>
    obtain ⟨r, hll, hsl⟩ := Lexes.append_iff.mp hl
    exact ⟨_, .head _, statement (some l) s, mem_andThen.mpr ⟨r, l,
      Label.mem_read_iff.mpr ⟨lt, hly, hll⟩,
      mem_map.mpr ⟨s, Statement.mem_read_iff.mpr ⟨st, hsy, hsl⟩, rfl⟩⟩⟩
  | statement s _ hsy =>
    exact ⟨_, .tail _ (.head _), statement none s,
      mem_map.mpr ⟨s, Statement.mem_read_iff.mpr ⟨toks, hsy, hl⟩, rfl⟩⟩
  | label l _ hly =>
    exact ⟨_, .tail _ (.tail _ (.head _)), label l,
      mem_map.mpr ⟨l, Label.mem_read_iff.mpr ⟨toks, hly, hl⟩, rfl⟩⟩
  | numeric name c ct hcy =>
    obtain ⟨r, hn, hcl⟩ := Lexes.cons_iff.mp hl
    exact ⟨_, .tail _ (.tail _ (.tail _ (.head _))), numeric name c, mem_andThen.mpr ⟨r, name,
      (mem_attempt_iff_matches (by decide)).mpr hn,
      mem_map.mpr ⟨c, Command.mem_read_iff.mpr ⟨ct, hcy, hcl⟩, rfl⟩⟩⟩
  | constant name a v =>
    simp only [Lexes.cons_iff, Lexes.nil_iff] at hl
    obtain ⟨r, hn, r', ha, _, hv, rfl⟩ := hl
    obtain ⟨v', hv'⟩ := exists_mem_attempt_text hv
    exact ⟨_, .tail _ (.tail _ (.tail _ (.tail _ (.head _)))), constant name a v',
      mem_andThen.mpr ⟨r, name, (mem_attempt_iff_matches (by decide)).mpr hn,
        mem_andThen.mpr ⟨r', a, (mem_attempt_iff_matches (by decide)).mpr ha,
          mem_map.mpr ⟨v', hv', rfl⟩⟩⟩⟩

end Head

namespace Line

variable {d : Dialect} {cs rest : List Char}

/-- The heads that a line is read with: each form of head, and none. -/
theorem yields_of_mem_heads {heads : Reading (Option Head)}
    (hf : heads ∈ (Head.readForms d cs).map (Reading.map some) ++ [found none cs])
    {oh : Option Head} {r : List Char} (hm : (oh, r) ∈ heads.results) :
    ∃ ht, (oh.elim (ht = []) fun h => h.Yields d ht) ∧ Lexes d cs ht r := by
  simp only [List.mem_append, List.mem_map, List.mem_singleton] at hf
  rcases hf with ⟨heads', hf', rfl⟩ | rfl
  · obtain ⟨h, hm', rfl⟩ := mem_map.mp hm
    exact Head.yields_of_mem_readForms hf' hm'
  · simp only [results_found, List.mem_singleton, Prod.mk.injEq] at hm
    obtain ⟨rfl, rfl⟩ := hm
    exact ⟨[], rfl, .nil _⟩

/-- Every reading of a line is a line of the grammar. -/
theorem yields_of_mem_read {l : Line} (h : (l, rest) ∈ (read d cs).results) :
    ∃ toks, l.Yields d toks ∧ Lexes d cs toks rest := by
  rw [read, mem_foldr_append] at h
  obtain ⟨heads, hf, h⟩ := h
  simp only [readEnding, results_append, List.mem_append, mem_andThen, mem_map,
    mem_attempt_eq_spelling (t := .newline) rfl] at h
  rcases h with ⟨r, oh, hm, r', c, hc, _, ⟨rfl, hn⟩, rfl⟩ | ⟨r, oh, hm, _, ⟨rfl, hn⟩, rfl⟩
  · obtain ⟨ht, hy, hl⟩ := yields_of_mem_heads hf hm
    obtain ⟨ct, hcy, hcl⟩ := Comment.yields_of_mem_read hc
    exact ⟨_, .mk oh (some c) ht ct hy hcy, (hl.append hcl).append (Lexes.singleton_iff.mpr hn)⟩
  · obtain ⟨ht, hy, hl⟩ := yields_of_mem_heads hf hm
    exact ⟨_, .mk oh none ht [] hy rfl, (hl.append (.nil _)).append (Lexes.singleton_iff.mpr hn)⟩

/-- Every line of the grammar that the text begins with is read, with the same text left. -/
theorem exists_mem_read {l : Line} {toks : List Token} (hy : l.Yields d toks)
    (hl : Lexes d cs toks rest) : ∃ l', (l', rest) ∈ (read d cs).results := by
  cases hy with
  | mk oh c ht ct hh hc =>
  obtain ⟨r', hl₁, hn⟩ := Lexes.append_iff.mp hl
  obtain ⟨r, hhl, hcl⟩ := Lexes.append_iff.mp hl₁
  -- a reading of the head, by one of the forms or as no head at all
  obtain ⟨heads, hf, oh', hm⟩ : ∃ heads ∈ (Head.readForms d cs).map (Reading.map some) ++
      [found none cs], ∃ oh', (oh', r) ∈ heads.results := by
    cases oh with
    | none =>
      obtain rfl : ht = [] := hh
      obtain rfl := Lexes.nil_iff.mp hhl
      exact ⟨_, List.mem_append_right _ (.head _), none, by simp⟩
    | some h =>
      obtain ⟨heads, hf, h', hm⟩ := Head.exists_mem_readForms hh hhl
      exact ⟨_, List.mem_append_left _ (List.mem_map_of_mem hf), some h', mem_map.mpr ⟨h', hm, rfl⟩⟩
  simp only [read, mem_foldr_append]
  have hn' := (mem_attempt_eq_spelling (t := .newline) rfl).mpr ⟨rfl, Lexes.singleton_iff.mp hn⟩
  cases c with
  | none =>
    obtain rfl : ct = [] := hc
    obtain rfl := Lexes.nil_iff.mp hcl
    exact ⟨⟨oh', none⟩, heads, hf, List.mem_append_right _
      (mem_andThen.mpr ⟨_, oh', hm, mem_map.mpr ⟨_, hn', rfl⟩⟩)⟩
  | some c =>
    obtain ⟨c', hc'⟩ := Comment.exists_mem_read hc hcl
    exact ⟨⟨oh', some c'⟩, heads, hf, List.mem_append_left _
      (mem_andThen.mpr ⟨r, oh', hm, mem_andThen.mpr ⟨r', c', hc', mem_map.mpr ⟨_, hn', rfl⟩⟩⟩)⟩

end Line

end AsmTidy
