import Mathlib
import AsmTidy.Proofs.Preference
import AsmTidy.Proofs.Colonless

/-!
# Macro lines

The start and the end of a macro definition are also control commands to the grammar:
`.macro m a` is the command `macro` with the argument `m a`, and `.endmacro` the command
`endmacro` with none. The tidier prints a macro line in its own way, so which reading it keeps
decides the layout.

**Theorem (`Line.macroLine_of_best?`).** A line that the grammar derives with a macro statement
as its head, with or without a label and a comment, is read with a macro statement as its
head.

The proof follows the order in which a line is read (`Line.read`). Such a line begins, after
its label, with a dot, so that no instruction is read there, and only one reading of its label
is followed by a statement at all (`Label.eq_or_lead_colon`). Macro statements are read before
commands (`Statement.read`). A command is preferred only through its ending: the readings with
a comment come first. But a command that can be followed by a comment leaves the text that a
macro statement leaves too (`Statement.exists_macro_of_command`): a command without arguments is
a dot and a word, and that word is `endmacro`, or `macro` and the name of the macro.
-/

namespace AsmTidy

open Text Lexeme

/-! ## The first character after the blanks -/

namespace Text

/-- The first character of a text after its leading blanks. -/
def lead (cs : List Char) : Option Char := (cs.dropWhile isBlank).head?

theorem lead_append_of_all {b cs : List Char} (hb : b.all isBlank) : lead (b ++ cs) = lead cs := by
  unfold lead
  rw [List.dropWhile_append_of_pos (by simpa using hb)]

theorem lead_cons_of_not_blank {c : Char} {cs : List Char} (hc : isBlank c = false) :
    lead (c :: cs) = some c := by
  simp [lead, hc]

/-- A text whose first character after the blanks is not an identifier character does not
start with one. -/
theorem startsWord_eq_false_of_lead {cs : List Char} {c : Char} (h : lead cs = some c)
    (hc : isIdentChar c = false) : startsWord cs = false := by
  cases cs with
  | nil => rfl
  | cons a cs =>
    cases ha : isBlank a with
    | false =>
      rw [lead_cons_of_not_blank ha, Option.some.injEq] at h
      subst h
      simp [startsWord, hc]
    | true =>
      rcases Terminal.isBlank_cases ha with rfl | rfl <;> rfl

end Text

namespace Terminal

variable {d : Dialect}

/-- A class that does not begin with a blank matches after the blanks. -/
theorem lex_of_matches {t : Terminal} (ht : t.readsBlanks = false) {cs w r : List Char}
    (h : t.Matches d cs w r) : t.lex d (cs.dropWhile isBlank) = some (w, r) := by
  have hne : t ≠ text := by
    rintro rfl
    simp [readsBlanks] at ht
  simpa [read, ht] using mem_attempt ((mem_attempt_iff_matches hne).mpr h)

/-- A lexeme of a class that does not begin with a blank begins with the first character
after the blanks. -/
theorem lead_of_matches {t : Terminal} (ht : t.readsBlanks = false) {cs w r : List Char}
    (h : t.Matches d cs w r) : lead cs = w.head? := by
  have hl := lex_of_matches ht h
  obtain ⟨hne, he⟩ := reads_lex d t _ _ _ hl
  obtain ⟨c, w, rfl⟩ := List.exists_cons_of_ne_nil hne
  rw [lead, ← he]
  rfl

/-- The lexeme of a class of punctuation or keywords begins the text after its blanks. -/
theorem dropWhile_of_matches_spelling {t : Terminal} (ht : t.readsBlanks = false) {w₀ : List Char}
    (hs : t.spelling? = some w₀) {cs w r : List Char} (h : t.Matches d cs w r) :
    cs.dropWhile isBlank = w₀ ++ r := by
  have hl := lex_of_matches ht h
  rw [← (reads_lex d t _ _ _ hl).2, h.eq_spelling hs]

/-- A mnemonic begins with a letter or an underscore, or a letter that only case folding
matches. -/
theorem mnemonic_head {cs w r : List Char} (h : mnemonic.lex d cs = some (w, r)) :
    ∀ c ∈ w.head?, isIdentStart c = true ∨ c ∈ Mnemonic.foldedChars := by
  intro c hc
  cases d with
  | standard =>
    have hw := (isWord_of_identifier h).1
    rw [isWord, Option.mem_def.mp hc] at hw
    simp only [Option.any_some, Bool.and_eq_true] at hw
    exact Or.inl hw.1
  | colonless =>
    obtain ⟨k, hk, hs, rfl⟩ := Mnemonic.exists_known_of_lexCaseless h
    exact (Mnemonic.chars_of_startsCaseless hk hs).2 c hc

/-- A label begins with `@`, a letter or an underscore. -/
theorem label_head {cs w r : List Char} (h : label.lex d cs = some (w, r)) :
    ∀ c ∈ w.head?, c = '@' ∨ isIdentStart c = true := by
  intro c hc
  rcases Lexeme.first_eq_some h with h | h
  · obtain ⟨a, r₁, b, h₁, -, rfl⟩ := seq_eq_some h
    obtain ⟨hne, he⟩ := reads_char '@' _ _ _ h₁
    cases cs with
    | nil => simp [char, single] at h₁
    | cons x cs =>
      by_cases hx : x = '@'
      · subst hx
        simp only [char, single, beq_self_eq_true, if_true, Option.some.injEq, Prod.mk.injEq] at h₁
        obtain ⟨rfl, -⟩ := h₁
        exact Or.inl (by simpa using hc.symm)
      · simp [char, single, hx] at h₁
  · have hw := (isWord_of_identifier h).1
    rw [isWord, Option.mem_def.mp hc] at hw
    simp only [Option.any_some, Bool.and_eq_true] at hw
    exact Or.inr hw.1

end Terminal

/-! ## What each reader can begin with -/

section Leads

variable {d : Dialect}

/-- A statement begins with a dot, or a mnemonic's first letter. -/
theorem Statement.lead_of_yields {s : Statement} {toks : List Token} {cs rest : List Char}
    (hy : s.Yields toks) (hl : Lexes d cs toks rest) :
    lead cs = some '.' ∨ ∃ c, lead cs = some c ∧ (isIdentStart c = true ∨ c ∈ Mnemonic.foldedChars) := by
  have hdot : ∀ {t : Terminal} {w₀ r w : List Char}, t.readsBlanks = false →
      t.spelling? = some w₀ → w₀.head? = some '.' → t.Matches d cs w r → lead cs = some '.' := by
    intro t w₀ r w ht hs hw hm
    rw [Terminal.lead_of_matches ht hm, hm.eq_spelling hs, hw]
  -- the first lexeme decides
  cases hy with
  | bare m | unary m _ _ | binary m _ _ _ =>
    obtain ⟨r, hm, -⟩ := Lexes.cons_iff.mp hl
    have hlex := Terminal.lex_of_matches rfl hm
    obtain ⟨hne, -⟩ := Terminal.reads_lex d _ _ _ _ hlex
    obtain ⟨c, m', rfl⟩ := List.exists_cons_of_ne_nil hne
    exact Or.inr ⟨c, Terminal.lead_of_matches rfl hm, Terminal.mnemonic_head hlex c rfl⟩
  | macroStart name params =>
    obtain ⟨r, hm, -⟩ := Lexes.cons_iff.mp hl
    exact Or.inl (hdot rfl rfl rfl hm)
  | macroEnd =>
    obtain ⟨r, hm, -⟩ := Lexes.cons_iff.mp hl
    exact Or.inl (hdot rfl rfl rfl hm)
  | command c toks hc =>
    cases hc with
    | bare name =>
      obtain ⟨r, hm, -⟩ := Lexes.cons_iff.mp hl
      exact Or.inl (hdot rfl rfl rfl hm)
    | withArgs name args ws _ _ =>
      obtain ⟨r, hm, -⟩ := Lexes.cons_iff.mp hl
      exact Or.inl (hdot rfl rfl rfl hm)

/-- No statement begins with a colon. -/
theorem Statement.results_read_of_lead_colon {cs : List Char} (h : lead cs = some ':') :
    (read d cs).results = [] := by
  refine List.eq_nil_iff_forall_not_mem.mpr fun ⟨s, rest⟩ hs => ?_
  obtain ⟨toks, hy, hl⟩ := mem_read_iff.mp hs
  rcases Statement.lead_of_yields hy hl with h' | ⟨c, h', hc⟩ <;> rw [h] at h'
  · cases h'
  · obtain rfl : c = ':' := (Option.some.inj h').symm
    rcases hc with hc | hc
    · exact absurd hc (by decide)
    · exact absurd hc (by decide)

/-- No mnemonic begins with a dot. -/
theorem Terminal.results_attempt_mnemonic_of_lead_dot {cs : List Char} (h : lead cs = some '.') :
    (attempt d mnemonic cs).results = [] := by
  refine List.eq_nil_iff_forall_not_mem.mpr fun ⟨w, r⟩ hw => ?_
  have hm := matches_of_mem_attempt hw
  have hlex := lex_of_matches rfl hm
  obtain ⟨hne, -⟩ := reads_lex d _ _ _ _ hlex
  obtain ⟨c, w', rfl⟩ := List.exists_cons_of_ne_nil hne
  rw [lead_of_matches rfl hm] at h
  obtain rfl : c = '.' := Option.some.inj h
  rcases mnemonic_head hlex '.' rfl with hc | hc <;> exact absurd hc (by decide)

theorem Statement.results_readInstruction_of_lead_dot {cs : List Char} (h : lead cs = some '.') :
    (readInstruction d cs).results = [] := by
  unfold readInstruction
  rw [Reading.results_andThen, Terminal.results_attempt_mnemonic_of_lead_dot h, List.flatMap_nil]

/-- No label begins with a dot. -/
theorem Label.results_read_of_lead_dot {cs : List Char} (h : lead cs = some '.') :
    (read d cs).results = [] := by
  refine List.eq_nil_iff_forall_not_mem.mpr fun ⟨l, rest⟩ hl => ?_
  obtain ⟨toks, hy, hl⟩ := mem_read_iff.mp hl
  -- a label begins with its name or with a colon
  have hname : ∀ {n r : List Char}, Terminal.label.Matches d cs n r → False := by
    intro n r hm
    have hlex := Terminal.lex_of_matches rfl hm
    obtain ⟨hne, -⟩ := Terminal.reads_lex d _ _ _ _ hlex
    obtain ⟨c, n', rfl⟩ := List.exists_cons_of_ne_nil hne
    rw [Terminal.lead_of_matches rfl hm] at h
    obtain rfl : c = '.' := Option.some.inj h
    rcases Terminal.label_head hlex '.' rfl with hc | hc
    · cases hc
    · exact absurd hc (by decide)
  cases hy with
  | named _ name =>
    obtain ⟨r, hm, -⟩ := Lexes.cons_iff.mp hl
    exact hname hm
  | colonless name =>
    obtain ⟨r, hm, -⟩ := Lexes.cons_iff.mp hl
    exact hname hm
  | unnamed _ =>
    obtain ⟨r, hm, -⟩ := Lexes.cons_iff.mp hl
    rw [Terminal.lead_of_matches rfl hm, hm.eq_spelling rfl] at h
    cases h

end Leads

/-! ## Ending a line -/

/-- A relation that follows from `T` wherever its left side satisfies `P`. -/
theorem Covered.imp_rel {β : Type} {P : β → Prop} {T T' : β → β → Prop} {pre L : List β}
    (h : Covered P T pre L) (hT : ∀ y ∈ pre ++ L, ∀ x, P y → T y x → T' y x) :
    Covered P T' pre L := by
  intro L₁ x L₂ hL hx
  obtain ⟨y, hy, hPy, hTy⟩ := h L₁ x L₂ hL hx
  refine ⟨y, hy, hPy, hT y ?_ x hPy hTy⟩
  rcases List.mem_append.mp hy with hy | hy
  · exact List.mem_append_left _ hy
  · exact List.mem_append_right _ (by rw [hL]; exact List.mem_append_left _ hy)

/-- A covered list followed by anything, where the list has an element that satisfies `P`. -/
theorem Covered.append_of_mem {β : Type} {P : β → Prop} {A B : List β}
    (hA : Covered P (fun _ _ => True) [] A) {z : β} (hz : z ∈ A) (hPz : P z) :
    Covered P (fun _ _ => True) [] (A ++ B) :=
  hA.append (Covered.of_forall_before fun _ _ _ => ⟨z, by simpa using hz, hPz, trivial⟩)

namespace Line

variable {d : Dialect}

/-- The text `r` can end a line with a comment. -/
def EndsWithComment (d : Dialect) (r : List Char) : Prop :=
  ∃ c r' u r'', (c, r') ∈ (Comment.read d r).results ∧
    (u, r'') ∈ (Terminal.attempt d .newline r').results

/-- The text `r` can end a line without a comment. -/
def EndsBare (d : Dialect) (r : List Char) : Prop :=
  ∃ u r'', (u, r'') ∈ (Terminal.attempt d .newline r).results

/-- Wherever the text `x` ends a line, so does `y`: with a comment where `x` can, and one way
or the other where `x` ends without one. -/
def EndsLike (d : Dialect) (y x : List Char) : Prop :=
  (EndsWithComment d x → EndsWithComment d y) ∧
    (EndsBare d x → EndsWithComment d y ∨ EndsBare d y)

theorem EndsLike.refl (r : List Char) : EndsLike d r r := ⟨id, Or.inr⟩

/-- The lines that end a head with a comment, from the text the head leaves. -/
def withComment (d : Dialect) (p : Option Head × List Char) : Reading Line :=
  (Comment.read d p.2).andThen fun c r' =>
    (Terminal.attempt d .newline r').map fun _ => (⟨p.1, some c⟩ : Line)

/-- The lines that end a head without a comment. -/
def withoutComment (d : Dialect) (p : Option Head × List Char) : Reading Line :=
  (Terminal.attempt d .newline p.2).map fun _ => (⟨p.1, none⟩ : Line)

theorem results_readEnding_eq (heads : Reading (Option Head)) :
    (readEnding d heads).results =
      heads.results.flatMap (fun p => (withComment d p).results) ++
        heads.results.flatMap fun p => (withoutComment d p).results :=
  results_readEnding d heads

theorem endsWithComment_iff {p : Option Head × List Char} :
    EndsWithComment d p.2 ↔ ∃ q, q ∈ (withComment d p).results := by
  constructor
  · rintro ⟨c, r', u, r'', hc, hu⟩
    exact ⟨(⟨p.1, some c⟩, r''), Reading.mem_andThen.mpr ⟨r', c, hc, Reading.mem_map.mpr ⟨u, hu, rfl⟩⟩⟩
  · rintro ⟨⟨l, rest⟩, hq⟩
    obtain ⟨r', c, hc, hq⟩ := Reading.mem_andThen.mp hq
    obtain ⟨u, hu, -⟩ := Reading.mem_map.mp hq
    exact ⟨c, r', u, rest, hc, hu⟩

theorem endsBare_iff {p : Option Head × List Char} :
    EndsBare d p.2 ↔ ∃ q, q ∈ (withoutComment d p).results := by
  constructor
  · rintro ⟨u, r'', hu⟩
    exact ⟨(⟨p.1, none⟩, r''), Reading.mem_map.mpr ⟨u, hu, rfl⟩⟩
  · rintro ⟨⟨l, rest⟩, hq⟩
    obtain ⟨u, hu, -⟩ := Reading.mem_map.mp hq
    exact ⟨u, rest, hu⟩

/-- A comment, indented or not, begins with its semicolon. -/
theorem lead_of_endsWithComment {r : List Char} (h : EndsWithComment d r) : lead r = some ';' := by
  obtain ⟨c, r', -, -, hc, -⟩ := h
  obtain ⟨toks, hy, hl⟩ := Comment.yields_of_mem_read hc
  cases hy with
  | flush text =>
    obtain ⟨m, hs, -⟩ := Lexes.cons_iff.mp hl
    rw [Terminal.lead_of_matches rfl hs, hs.eq_spelling rfl]
    rfl
  | indented ind text hne hind =>
    obtain ⟨m, hi, hs⟩ := Lexes.append_iff.mp hl
    obtain ⟨w, rfl, hw⟩ := Lexes.run_single (Or.inr rfl) hne hind hi
    obtain ⟨m', hsemi, -⟩ := Lexes.cons_iff.mp hs
    -- the indent is spaces, after blanks
    obtain ⟨x, hx⟩ := hw.exists_lex
    have hsp : ∀ a ∈ w, isBlank a = true :=
      Lexeme.within_run (q := fun a => isBlank a = true)
        (fun a ha => by simp only [beq_iff_eq] at ha; simp [ha, isBlank]) _ _ _ hx
    obtain ⟨b, hb, hr⟩ := hw.eq_blanks_append
    rw [hr, List.append_assoc, lead_append_of_all hb, lead_append_of_all (List.all_eq_true.mpr hsp),
      Terminal.lead_of_matches rfl hsemi, hsemi.eq_spelling rfl]
    rfl

theorem lead_of_endsBare {r : List Char} (h : EndsBare d r) : lead r = some '\n' := by
  obtain ⟨u, r'', hu⟩ := h
  have hm := Terminal.matches_of_mem_attempt hu
  rw [Terminal.lead_of_matches rfl hm, hm.eq_spelling rfl]
  rfl

theorem startsWord_eq_false_of_ends {r : List Char} (h : EndsWithComment d r ∨ EndsBare d r) :
    startsWord r = false := by
  rcases h with h | h
  · exact startsWord_eq_false_of_lead (lead_of_endsWithComment h) (by decide)
  · exact startsWord_eq_false_of_lead (lead_of_endsBare h) (by decide)

/-- A line is read from its heads with a head that satisfies `P` where every head that fails
`P` comes after one that satisfies it and ends a line wherever it does. -/
theorem covered_readEnding_of_endsLike {P : Option Head → Prop} {heads : Reading (Option Head)}
    (h : Covered (fun p => P p.1) (fun y x => EndsLike d y.2 x.2) [] heads.results) :
    Covered (fun q : Line × List Char => P q.1.head) (fun _ _ => True) []
      (readEnding d heads).results := by
  have hc : ∀ {p q}, q ∈ (withComment d p).results → q.1.head = p.1 := fun hq =>
    head_of_mem_ending (Or.inl hq)
  have hn : ∀ {p q}, q ∈ (withoutComment d p).results → q.1.head = p.1 := fun hq =>
    head_of_mem_ending (Or.inr hq)
  rw [results_readEnding_eq]
  refine Covered.append ?_ ?_
  · -- the lines with a comment: a twin ends with a comment wherever its head does
    refine Covered.flatMap (fun _ => trivial) (fun _ _ _ _ _ => trivial) h
      (fun a ha => Covered.of_forall fun q hq => by rwa [hc hq]) ?_
    intro y x hT _ _ z hz
    obtain ⟨z', hz'⟩ := endsWithComment_iff.mp (hT.1 (endsWithComment_iff.mpr ⟨z, hz⟩))
    exact ⟨z', hz', trivial⟩
  · by_cases hpc : ∃ y ∈ heads.results, P y.1 ∧ EndsWithComment d y.2
    · -- a preferred head with a comment is printed before every line without one
      obtain ⟨y, hy, hPy, hyc⟩ := hpc
      obtain ⟨z, hz⟩ := endsWithComment_iff.mp hyc
      have hzc : z ∈ heads.results.flatMap fun p => (withComment d p).results :=
        List.mem_flatMap.mpr ⟨y, hy, hz⟩
      exact Covered.of_forall_before fun _ _ _ => ⟨z, by simpa using hzc, by rwa [hc hz], trivial⟩
    · -- otherwise the twin of a head ends without a comment wherever that head does
      simp only [not_exists, not_and] at hpc
      have h' : Covered (fun p => P p.1) (fun y x => EndsBare d x.2 → EndsBare d y.2) []
          heads.results :=
        h.imp_rel fun y hy x hPy hT hb =>
          (hT.2 hb).resolve_left (hpc y (by simpa using hy) hPy)
      refine Covered.of_nil (Covered.flatMap (fun _ => trivial) (fun _ _ _ _ _ => trivial) h'
        (fun a ha => Covered.of_forall fun q hq => by rwa [hn hq]) ?_)
      intro y x hT _ _ z hz
      obtain ⟨z', hz'⟩ := endsBare_iff.mp (hT (endsBare_iff.mpr ⟨z, hz⟩))
      exact ⟨z', hz', trivial⟩

end Line

/-! ## Macro statements before commands -/

/-- A statement that opens or closes a macro definition. -/
def Statement.isMacro : Statement → Bool
  | .macroStart _ _ | .macroEnd => true
  | _ => false

/-- A line head that is a macro statement, after a label or not. -/
def Head.isMacroLine : Option Head → Bool
  | some (.statement _ s) => s.isMacro
  | _ => false

theorem Text.dropWhile_isBlank_cons {c : Char} (hc : isBlank c = false) (cs : List Char) :
    (c :: cs).dropWhile isBlank = c :: cs := by
  simp [hc]

theorem Lexeme.isBlank_of_isIdentChar {c : Char} (hc : isIdentChar c = true) : isBlank c = false := by
  cases hb : isBlank c
  · rfl
  · rcases Terminal.isBlank_cases hb with rfl | rfl <;> simp [isIdentChar] at hc

/-- The rest of a line ends at the line break, where no comment begins. -/
theorem Terminal.lead_of_matches_text {d : Dialect} {cs w r : List Char}
    (h : text.Matches d cs w r) : lead r = none ∨ lead r = some '\n' := by
  obtain ⟨x, hx⟩ := h.exists_lex
  cases x with
  | nil => simp [lex, run] at hx
  | cons c rest =>
    simp only [lex, run] at hx
    split at hx
    · obtain ⟨-, rfl⟩ := Prod.mk.inj (Option.some.inj hx)
      cases hr : rest.dropWhile (· != '\n') with
      | nil => exact Or.inl rfl
      | cons a r' =>
        have ha := List.head?_dropWhile_not (· != '\n') rest
        rw [hr] at ha
        simp only [List.head?_cons, bne_eq_false_iff_eq] at ha
        subst ha
        exact Or.inr (lead_cons_of_not_blank (by decide))
    · cases hx

namespace Statement

variable {d : Dialect}

/-- A macro statement begins with a dot. -/
theorem lead_of_isMacro {s : Statement} (hs : s.isMacro = true) {toks : List Token}
    {cs rest : List Char} (hy : s.Yields toks) (hl : Lexes d cs toks rest) : lead cs = some '.' := by
  cases hy with
  | macroStart name params =>
    obtain ⟨r, hm, -⟩ := Lexes.cons_iff.mp hl
    rw [Terminal.lead_of_matches rfl hm, hm.eq_spelling rfl]
    rfl
  | macroEnd =>
    obtain ⟨r, hm, -⟩ := Lexes.cons_iff.mp hl
    rw [Terminal.lead_of_matches rfl hm, hm.eq_spelling rfl]
    rfl
  | _ => simp [isMacro] at hs

theorem isMacro_of_mem_readMacroStart {cs : List Char} {p : Statement × List Char}
    (h : p ∈ (readMacroStart d cs).results) : p.1.isMacro = true := by
  obtain ⟨s, rest⟩ := p
  obtain ⟨toks, hy, -⟩ := yields_of_mem_readMacroStart h
  simp only [readMacroStart, Reading.results_append, List.mem_append, Reading.mem_map,
    Reading.mem_andThen, Reading.results_found, List.mem_singleton, Prod.mk.injEq] at h
  obtain ⟨_, _, -, _, _, -, ⟨_, _, -, ⟨_, -, rfl⟩ | ⟨rfl, -⟩⟩ | ⟨rfl, -⟩⟩ := h <;> rfl

/-- A command that can be followed by a comment leaves the text that a macro statement leaves,
in a text that is read as a macro statement ending its line. A command without arguments is
a dot and a word: `endmacro`, or `macro` followed by the name of the macro, which starts a
macro without parameters. -/
theorem exists_macro_of_command {cs : List Char} {s₀ : Statement} {r₀ : List Char}
    (h₀ : (s₀, r₀) ∈ (read d cs).results) (hm : s₀.isMacro = true)
    (hend : Line.EndsWithComment d r₀ ∨ Line.EndsBare d r₀) {c : Command} {r₁ : List Char}
    (hc : (c, r₁) ∈ (Command.read d cs).results) (hr₁ : Line.EndsWithComment d r₁) :
    ∃ s, s.isMacro = true ∧ (s, r₁) ∈ (read d cs).results := by
  have hsemi := Line.lead_of_endsWithComment hr₁
  obtain ⟨toks, hy, hl⟩ := Command.mem_read_iff.mp hc
  cases hy with
  | withArgs name args ws _ _ =>
    -- the arguments run to the end of the line, where no comment begins
    obtain ⟨m, -, ht⟩ := Lexes.append_iff.mp hl
    rcases Terminal.lead_of_matches_text (Lexes.singleton_iff.mp ht) with h | h <;>
      rw [hsemi] at h <;> cases h
  | bare name =>
    obtain ⟨r, hdot, hl⟩ := Lexes.cons_iff.mp hl
    obtain ⟨r', hname, hl⟩ := Lexes.cons_iff.mp hl
    obtain rfl := Lexes.nil_iff.mp hl
    have hcs : cs.dropWhile isBlank = ['.'] ++ r :=
      Terminal.dropWhile_of_matches_spelling rfl rfl hdot
    have hid : identifier (r.dropWhile isBlank) = some (name, r₁) :=
      Terminal.lex_of_matches rfl hname
    obtain ⟨toks₀, hy₀, hl₀⟩ := mem_read_iff.mp h₀
    cases hy₀ with
    | macroEnd =>
      -- the command's word is `endmacro`
      have hk := Terminal.dropWhile_of_matches_spelling rfl rfl (Lexes.singleton_iff.mp hl₀)
      rw [hcs, show ".endmacro".toList = ['.'] ++ "endmacro".toList from rfl, List.append_assoc,
        List.append_cancel_left_eq] at hk
      subst hk
      have hw : identifier ("endmacro".toList ++ r₀) = some ("endmacro".toList, r₀) :=
        identifier_append (by decide) (Line.startsWord_eq_false_of_ends hend)
      rw [show "endmacro".toList ++ r₀ = 'e' :: ("ndmacro".toList ++ r₀) from rfl,
        dropWhile_isBlank_cons (by decide)] at hid
      rw [show 'e' :: ("ndmacro".toList ++ r₀) = "endmacro".toList ++ r₀ from rfl, hw] at hid
      obtain ⟨-, rfl⟩ := Prod.mk.inj (Option.some.inj hid)
      exact ⟨macroEnd, rfl, h₀⟩
    | macroStart name' params =>
      obtain ⟨rk, hk, hl₀⟩ := Lexes.cons_iff.mp hl₀
      obtain ⟨r₂, hn, -⟩ := Lexes.cons_iff.mp hl₀
      have hks := Terminal.dropWhile_of_matches_spelling rfl rfl hk
      rw [hcs, show ".macro".toList = ['.'] ++ "macro".toList from rfl, List.append_assoc,
        List.append_cancel_left_eq] at hks
      subst hks
      rw [show "macro".toList ++ rk = 'm' :: ("acro".toList ++ rk) from rfl,
        dropWhile_isBlank_cons (by decide), show 'm' :: ("acro".toList ++ rk) =
          "macro".toList ++ rk from rfl] at hid
      -- the macro's name stands right after the keyword
      have hn' : identifier (rk.dropWhile isBlank) = some (name', r₂) :=
        Terminal.lex_of_matches rfl hn
      have hname' := isWord_of_identifier hn'
      obtain ⟨hne, hsplit⟩ := reads_identifier _ _ _ hn'
      cases rk with
      | nil => simp [identifier, seq, single] at hn'
      | cons x t =>
        by_cases hx : isIdentChar x = true
        · -- the command's word runs on into the name: `.macroNAME` starts the macro `NAME`
          rw [dropWhile_isBlank_cons (isBlank_of_isIdentChar hx)] at hn'
          have hmw : isWord ("macro".toList ++ x :: t.takeWhile isIdentChar) = true := by
            rw [show "macro".toList = ['m', 'a', 'c', 'r', 'o'] from rfl]
            simp only [isWord, List.cons_append, List.nil_append, List.head?_cons, Option.any_some,
              List.all_cons, hx, List.all_takeWhile, Bool.and_true]
            decide
          have hsw : startsWord (t.dropWhile isIdentChar) = false := by
            cases h : t.dropWhile isIdentChar with
            | nil => rfl
            | cons a r =>
              have ha := List.head?_dropWhile_not isIdentChar t
              rw [h] at ha
              simpa [startsWord] using ha
          have hrest : x :: t = (x :: t.takeWhile isIdentChar) ++ t.dropWhile isIdentChar := by
            rw [List.cons_append, List.takeWhile_append_dropWhile]
          have hxs : isIdentStart x = true := by
            cases h : isIdentStart x
            · simp [identifier, seq, single, h] at hn'
            · rfl
          -- both readings take the identifier characters after the keyword
          have hw' : identifier (x :: t) =
              some (x :: t.takeWhile isIdentChar, t.dropWhile isIdentChar) := by
            rw [hrest]
            exact identifier_append (by simp [isWord, hxs, hx, List.all_takeWhile]) hsw
          rw [hw'] at hn'
          obtain ⟨rfl, rfl⟩ := Prod.mk.inj (Option.some.inj hn')
          have hw : identifier ("macro".toList ++ x :: t) =
              some ("macro".toList ++ x :: t.takeWhile isIdentChar, t.dropWhile isIdentChar) := by
            rw [hrest, ← List.append_assoc]
            exact identifier_append hmw hsw
          rw [hw] at hid
          obtain ⟨-, rfl⟩ := Prod.mk.inj (Option.some.inj hid)
          exact ⟨macroStart _ [], rfl,
            mem_read_iff.mpr ⟨_, .macroStart _ [], .cons _ hk (.cons _ hn (.nil _))⟩⟩
        · -- a blank or punctuation follows the keyword: the command is `macro` alone
          have hw : identifier ("macro".toList ++ x :: t) = some ("macro".toList, x :: t) :=
            identifier_append (by decide) (by simp [startsWord, hx])
          rw [hw] at hid
          obtain ⟨-, rfl⟩ := Prod.mk.inj (Option.some.inj hid)
          have hl' := Terminal.lead_of_matches rfl hn
          rw [hsemi] at hl'
          obtain ⟨a, n', rfl⟩ := List.exists_cons_of_ne_nil hne
          obtain rfl : a = ';' := (Option.some.inj hl').symm
          simp only [isWord, List.head?_cons, Option.any_some, Bool.and_eq_true] at hname'
          exact absurd hname'.1.1 (by decide)
    | _ => simp [isMacro] at hm

/-- The statements read from a text that begins with a macro statement ending its line: every
command among them comes after a macro statement that ends a line wherever the command does. -/
theorem covered_read_of_macro {cs : List Char} {s₀ : Statement} {r₀ : List Char}
    (h₀ : (s₀, r₀) ∈ (read d cs).results) (hm : s₀.isMacro = true)
    (hend : Line.EndsWithComment d r₀ ∨ Line.EndsBare d r₀) :
    Covered (fun p : Statement × List Char => p.1.isMacro = true)
      (fun y x => Line.EndsLike d y.2 x.2) [] (read d cs).results := by
  obtain ⟨toks₀, hy₀, hl₀⟩ := mem_read_iff.mp h₀
  -- no instruction begins with the dot, so the macro statements come first
  have hsplit : (read d cs).results = ((readMacroStart d cs).results ++
      ((Terminal.attempt d .endmacroKeyword cs).map fun _ => macroEnd).results) ++
      ((Command.read d cs).map command).results := by
    simp only [read, Reading.results_append,
      results_readInstruction_of_lead_dot (lead_of_isMacro hm hy₀ hl₀), List.nil_append]
  have hpre : ∀ {y : Statement × List Char}, y ∈ (read d cs).results → y.1.isMacro = true →
      y ∈ [] ++ ((readMacroStart d cs).results ++
        ((Terminal.attempt d .endmacroKeyword cs).map fun _ => macroEnd).results) := by
    intro y hy hmy
    rw [hsplit, List.mem_append] at hy
    rcases hy with hy | hy
    · exact hy
    · obtain ⟨s, rest⟩ := y
      obtain ⟨c, -, rfl⟩ := Reading.mem_map.mp hy
      cases hmy
  rw [hsplit]
  refine Covered.append (Covered.of_forall fun y hy => ?_) (Covered.of_forall_before fun x hx _ => ?_)
  · rcases List.mem_append.mp hy with hy | hy
    · exact isMacro_of_mem_readMacroStart hy
    · obtain ⟨s, rest⟩ := y
      obtain ⟨_, -, rfl⟩ := Reading.mem_map.mp hy
      rfl
  · obtain ⟨s, rest⟩ := x
    obtain ⟨c, hc, rfl⟩ := Reading.mem_map.mp hx
    by_cases hx' : Line.EndsWithComment d rest
    · -- a command followed by a comment has a twin
      obtain ⟨s, hs, hmem⟩ := exists_macro_of_command h₀ hm hend hc hx'
      exact ⟨(s, rest), hpre hmem hs, hs, Line.EndsLike.refl rest⟩
    · exact ⟨(s₀, r₀), hpre h₀ hm, hm, fun h => absurd h hx', fun _ => hend⟩

end Statement

/-! ## One reading of the label -/

/-- A class that does not begin with a blank matches in one way at most. -/
theorem Terminal.Matches.unique {d : Dialect} {t : Terminal} (ht : t.readsBlanks = false)
    {cs w r w' r' : List Char} (h : t.Matches d cs w r) (h' : t.Matches d cs w' r') :
    w = w' ∧ r = r' := by
  have := (lex_of_matches ht h).symm.trans (lex_of_matches ht h')
  exact Prod.mk.inj (Option.some.inj this)

/-- No label name begins where a colon does. -/
theorem Terminal.Matches.not_label_colon {d : Dialect} {cs n r w r' : List Char}
    (hn : label.Matches d cs n r) (hc : colon.Matches d cs w r') : False := by
  have hlex := lex_of_matches rfl hn
  obtain ⟨hne, -⟩ := reads_lex d _ _ _ _ hlex
  obtain ⟨a, n', rfl⟩ := List.exists_cons_of_ne_nil hne
  have h := (lead_of_matches rfl hn).symm.trans (lead_of_matches rfl hc)
  rw [hc.eq_spelling rfl] at h
  obtain rfl : a = ':' := Option.some.inj h
  rcases label_head hlex ':' rfl with h | h
  · cases h
  · exact absurd h (by decide)

/-- Of the readings of a label, only the one that leaves no colon can be followed by a
statement: the others leave a colon, or are the same. -/
theorem Label.eq_or_lead_colon {d : Dialect} {cs : List Char} {l l' : Label} {r r' : List Char}
    (h : (l, r) ∈ (read d cs).results) (hr : lead r ≠ some ':')
    (h' : (l', r') ∈ (read d cs).results) : (l', r') = (l, r) ∨ lead r' = some ':' := by
  obtain ⟨toks, hy, hl⟩ := mem_read_iff.mp h
  obtain ⟨toks', hy', hl'⟩ := mem_read_iff.mp h'
  have hcolon : ∀ {m w r₁ : List Char}, Terminal.colon.Matches d m w r₁ → lead m = some ':' :=
    fun hc => by rw [Terminal.lead_of_matches rfl hc, hc.eq_spelling rfl]; rfl
  -- the name, when there is one, is read the same way by both
  cases hy <;> cases hy' <;> simp only [Lexes.cons_iff, Lexes.nil_iff] at hl hl'
  · obtain ⟨m, hn, _, hc, rfl⟩ := hl
    obtain ⟨m', hn', _, hc', rfl⟩ := hl'
    obtain ⟨rfl, rfl⟩ := hn.unique rfl hn'
    obtain ⟨-, rfl⟩ := hc.unique rfl hc'
    exact Or.inl rfl
  · obtain ⟨m, hn, _, hc, rfl⟩ := hl
    obtain ⟨m', hn', rfl⟩ := hl'
    obtain ⟨rfl, rfl⟩ := hn.unique rfl hn'
    exact Or.inr (hcolon hc)
  · obtain ⟨m, hn, -⟩ := hl
    obtain ⟨_, hc', rfl⟩ := hl'
    exact (hn.not_label_colon hc').elim
  · obtain ⟨m, hn, rfl⟩ := hl
    obtain ⟨m', hn', _, hc', rfl⟩ := hl'
    obtain ⟨rfl, rfl⟩ := hn.unique rfl hn'
    exact absurd (hcolon hc') hr
  · obtain ⟨m, hn, rfl⟩ := hl
    obtain ⟨m', hn', rfl⟩ := hl'
    obtain ⟨rfl, rfl⟩ := hn.unique rfl hn'
    exact Or.inl rfl
  · obtain ⟨m, hn, -⟩ := hl
    obtain ⟨_, hc', rfl⟩ := hl'
    exact (hn.not_label_colon hc').elim
  · obtain ⟨_, hc, -⟩ := hl
    obtain ⟨m', hn', -⟩ := hl'
    exact (hn'.not_label_colon hc).elim
  · obtain ⟨_, hc, -⟩ := hl
    obtain ⟨m', hn', -⟩ := hl'
    exact (hn'.not_label_colon hc).elim
  · obtain ⟨_, hc, rfl⟩ := hl
    obtain ⟨_, hc', rfl⟩ := hl'
    obtain ⟨-, rfl⟩ := hc.unique rfl hc'
    exact Or.inl rfl

/-! ## The first reading of a macro line -/

namespace Line

variable {d : Dialect}

/-- A derived line ends after its head with its comment, or without one. -/
theorem ends_of_lexes {c : Option Comment} {ct : List Token} {r₀ : List Char}
    (hc : c.elim (ct = []) fun c => c.Yields ct)
    (hl : Lexes d r₀ (ct ++ [(.newline, ['\n'])]) []) : EndsWithComment d r₀ ∨ EndsBare d r₀ := by
  obtain ⟨r', hcl, hn⟩ := Lexes.append_iff.mp hl
  have hnl : (['\n'], []) ∈ (Terminal.attempt d .newline r').results :=
    (Terminal.mem_attempt_iff_matches (by decide)).mpr (Lexes.singleton_iff.mp hn)
  cases c with
  | none =>
    obtain rfl : ct = [] := hc
    obtain rfl := Lexes.nil_iff.mp hcl
    exact Or.inr ⟨_, _, hnl⟩
  | some c =>
    obtain ⟨c', hc'⟩ := Comment.exists_mem_read hc hcl
    exact Or.inl ⟨c', r', _, _, hc', hnl⟩

/-- A head that ends its line is read into a line. -/
theorem exists_mem_readEnding {heads : Reading (Option Head)} {p : Option Head × List Char}
    (hp : p ∈ heads.results) (hend : EndsWithComment d p.2 ∨ EndsBare d p.2) :
    ∃ q ∈ (readEnding d heads).results, q.1.head = p.1 := by
  rw [results_readEnding_eq]
  rcases hend with hend | hend
  · obtain ⟨q, hq⟩ := endsWithComment_iff.mp hend
    exact ⟨q, List.mem_append_left _ (List.mem_flatMap.mpr ⟨p, hp, hq⟩),
      head_of_mem_ending (Or.inl hq)⟩
  · obtain ⟨q, hq⟩ := endsBare_iff.mp hend
    exact ⟨q, List.mem_append_right _ (List.mem_flatMap.mpr ⟨p, hp, hq⟩),
      head_of_mem_ending (Or.inr hq)⟩

/-- The readings of a line that is derived with a macro statement as its head: each that is
not a macro line comes after one that is. -/
theorem covered_read_of_derivesLine {s : List Char} {l₀ : Line} (hd : DerivesLine d s l₀)
    (hm : Head.isMacroLine l₀.head = true) :
    Covered (fun q : Line × List Char => Head.isMacroLine q.1.head = true) (fun _ _ => True) []
      (read d (s ++ ['\n'])).results := by
  obtain ⟨toks, hy, hl⟩ := hd
  cases hy with
  | mk oh c ht ct hh hc =>
  obtain ⟨r₀, hhl, hcl⟩ := Lexes.append_iff.mp (List.append_assoc ht ct _ ▸ hl)
  have hend := ends_of_lexes hc hcl
  cases oh with
  | none => cases hm
  | some h =>
  cases h with
  | label _ | numeric _ _ | constant _ _ _ => cases hm
  | statement lb s₀ =>
  have hms : s₀.isMacro = true := hm
  rw [results_read]
  simp only [Head.readForms, List.map_cons, List.map_nil, List.cons_append, List.nil_append,
    List.flatMap_cons]
  cases hh with
  | labelled l s₀ lt st hly hsy =>
    -- read in the first form, from the one reading of the label that a statement follows
    obtain ⟨r, hll, hsl⟩ := Lexes.append_iff.mp hhl
    have hlab := Label.mem_read_iff.mpr ⟨lt, hly, hll⟩
    have hst := Statement.mem_read_iff.mpr ⟨st, hsy, hsl⟩
    have hlead := Statement.lead_of_isMacro hms hsy hsl
    have hheads : Covered (fun p => Head.isMacroLine p.1 = true) (fun y x => EndsLike d y.2 x.2) []
        (Reading.map some ((Label.read d (s ++ ['\n'])).andThen fun l r =>
          (Statement.read d r).map (Head.statement (some l)))).results := by
      rw [Reading.results_map, Reading.results_andThen, List.map_flatMap]
      refine Covered.flatMap_of_forall fun p hp => ?_
      obtain ⟨l', r'⟩ := p
      rcases Label.eq_or_lead_colon hlab (by rw [hlead]; simp) hp with he | hcol
      · obtain ⟨rfl, rfl⟩ := Prod.mk.inj he
        rw [Reading.results_map, List.map_map]
        exact Covered.map_nil (Statement.covered_read_of_macro hst hms hend)
      · rw [Reading.results_map, Statement.results_read_of_lead_colon hcol]
        exact Covered.nil
    have hy₀ : (some (Head.statement (some l) s₀), r₀) ∈ (Reading.map some
        ((Label.read d (s ++ ['\n'])).andThen fun l r =>
          (Statement.read d r).map (Head.statement (some l)))).results :=
      Reading.mem_map.mpr ⟨_, Reading.mem_andThen.mpr ⟨r, l, hlab, Reading.mem_map.mpr ⟨s₀, hst, rfl⟩⟩,
        rfl⟩
    obtain ⟨q, hq, hqh⟩ := exists_mem_readEnding hy₀ hend
    exact Covered.append_of_mem
      (covered_readEnding_of_endsLike (P := fun h => Head.isMacroLine h = true) hheads) hq
      (by rw [hqh]; exact hms)
  | statement s₀ _ hsy =>
    -- no label begins with the dot, so the statement form comes first
    have hlead := Statement.lead_of_isMacro hms hsy hhl
    have hst := Statement.mem_read_iff.mpr ⟨_, hsy, hhl⟩
    have hnone : (readEnding d (Reading.map some ((Label.read d (s ++ ['\n'])).andThen fun l r =>
        (Statement.read d r).map (Head.statement (some l))))).results = [] := by
      rw [results_readEnding_eq, Reading.results_map, Reading.results_andThen,
        Label.results_read_of_lead_dot hlead]
      rfl
    rw [hnone, List.nil_append]
    have hheads : Covered (fun p => Head.isMacroLine p.1 = true) (fun y x => EndsLike d y.2 x.2) []
        (Reading.map some ((Statement.read d (s ++ ['\n'])).map (Head.statement none))).results := by
      rw [Reading.results_map, Reading.results_map, List.map_map]
      exact Covered.map_nil (Statement.covered_read_of_macro hst hms hend)
    have hy₀ : (some (Head.statement none s₀), r₀) ∈
        (Reading.map some ((Statement.read d (s ++ ['\n'])).map (Head.statement none))).results :=
      Reading.mem_map.mpr ⟨_, Reading.mem_map.mpr ⟨s₀, hst, rfl⟩, rfl⟩
    obtain ⟨q, hq, hqh⟩ := exists_mem_readEnding hy₀ hend
    exact Covered.append_of_mem
      (covered_readEnding_of_endsLike (P := fun h => Head.isMacroLine h = true) hheads) hq
      (by rw [hqh]; exact hms)

/-- A line that the grammar derives with a macro statement as its head is read with one. -/
theorem macroLine_of_best? {s : List Char} {l l₀ : Line}
    (hb : (read d (s ++ ['\n'])).best? = some l) (hd : DerivesLine d s l₀)
    (hm : Head.isMacroLine l₀.head = true) : Head.isMacroLine l.head = true :=
  Reading.best?_of_covered (P := fun l => Head.isMacroLine l.head = true)
    (covered_read_of_derivesLine hd hm) hb

end Line

end AsmTidy
