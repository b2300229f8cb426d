import Mathlib
import AsmTidy.Proofs.ReadBack

/-!
# Two operands split at the last comma

An operand text with several commas outside parentheses can be split into two operands at
more than one of them. The instruction reader sorts its pairs by where the first operand
ends, latest first (`Statement.readInstruction`), so the first reading of a line splits at
the last comma it can.

**The property** (`Statement.SplitsLast`). Where the first operand ends in a literal outside
parentheses and the second is a bare expression, with no `#` and no byte selector, the second
has no comma operator outside parentheses. Otherwise that comma splits the same text later:
the first operand, continued through the comma, is read as an operand too, the rest of the
second is read after it, and the pair leaves the same text (`Statement.exists_later_split`).

**Sorting.** In a list sorted by key, an element that fails a property is covered when some
element has a smaller key and is related to it (`Covered.of_lt_key`): following smaller keys
ends at an element that has the property, and sorting puts it first.

**The first reading.** `Line.splitsLast_of_best?`: the first reading of any line splits its
two operands at the last comma it can. It is what lets printed operands be read back as the
same two operands.
-/

namespace AsmTidy

open Text Lexeme

/-! ## Sorted lists -/

section Sorting

variable {β : Type} (key : β → Nat) {P : β → Prop} {T : β → β → Prop}

/-- In a list sorted by key, where every element that fails `P` has a related element with a
smaller key, every element that fails `P` has one before it that satisfies `P`. -/
theorem Covered.of_lt_key {S : List β} (hsorted : S.Pairwise fun a b => key a ≤ key b)
    (htrans : ∀ x y z, T x y → T y z → T x z)
    (h : ∀ x ∈ S, ¬ P x → ∃ y ∈ S, key y < key x ∧ T y x) : Covered P T [] S := by
  -- following smaller keys from an element that fails `P` ends at one that satisfies it
  have hdesc : ∀ n, ∀ x ∈ S, key x = n → ¬ P x → ∃ z ∈ S, P z ∧ T z x ∧ key z < key x := by
    intro n
    induction n using Nat.strong_induction_on with
    | _ n ih =>
      intro x hx hkx hPx
      obtain ⟨y, hy, hlt, hT⟩ := h x hx hPx
      by_cases hPy : P y
      · exact ⟨y, hy, hPy, hT, hlt⟩
      · obtain ⟨z, hz, hPz, hTz, hltz⟩ := ih (key y) (hkx ▸ hlt) y hy rfl hPy
        exact ⟨z, hz, hPz, htrans z y x hTz hT, hltz.trans hlt⟩
  intro S₁ x S₂ hS hPx
  obtain ⟨z, hz, hPz, hT, hlt⟩ := hdesc _ x (by simp [hS]) rfl hPx
  refine ⟨z, ?_, hPz, hT⟩
  -- an element with a smaller key is sorted before `x`
  rw [hS] at hz hsorted
  rw [List.nil_append]
  rw [List.pairwise_append] at hsorted
  rcases List.mem_append.mp hz with hz | hz
  · exact hz
  · rcases List.mem_cons.mp hz with rfl | hz
    · omega
    · have := (List.pairwise_cons.mp hsorted.2.1).1 z hz
      omega

/-- A list sorted by `mergeSort` on a key is sorted by that key. -/
theorem pairwise_mergeSort_key (L : List β) :
    (L.mergeSort fun a b => decide (key a ≤ key b)).Pairwise fun a b => key a ≤ key b :=
  (List.pairwise_mergeSort (key_le_trans key) (key_le_total key) L).imp fun h => by
    simpa using h

end Sorting

/-! ## Continuing an operand through a comma -/

namespace Expr

/-- The expression continued at its last literal outside parentheses by an operator and
another expression. -/
def extend : Expr → List Char → Expr → Expr
  | atom lit, op, e₂ => chain lit op e₂
  | chain lit op' right, op, e₂ => chain lit op' (right.extend op e₂)
  | group inner, _, _ => group inner

theorem tokens_extend {e : Expr} (he : e.isOpen = true) (op : List Char) (e₂ : Expr) :
    (e.extend op e₂).tokens = e.tokens ++ (.operator, op) :: e₂.tokens := by
  induction e with
  | atom lit => rfl
  | chain lit op' right ih => simp [extend, tokens, ih (by simpa [isOpen] using he)]
  | group inner => simp [isOpen] at he

end Expr

namespace Operand

/-- The operand continued by an operator and an expression; a register is continued as the
label of its name. -/
def extend : Operand → List Char → Expr → Operand
  | register name, op, e₂ => value false none (.chain name op e₂)
  | value immediate selector e, op, e₂ => value immediate selector (e.extend op e₂)

end Operand

namespace Terminal

variable {d : Dialect}

theorem isStop_of_isBlank {c : Char} (hc : isBlank c = true) : isStop c = true := by
  obtain rfl | rfl := isBlank_cases hc <;> rfl

/-- A comma separating two operands is a comma operator too. -/
theorem Matches.operator_of_comma {cs w r : List Char} (h : comma.Matches d cs w r) :
    operator.Matches d cs w r := by
  have hlex := lex_of_matches rfl h
  obtain rfl := char_eq_some hlex
  have hd : cs.dropWhile isBlank = ',' :: r := ((reads_lex d comma).splits _ _ _ hlex).symm
  exact .afterBlanks (by rw [hd]; rfl)

/-- A register followed by a comma is a label too. -/
theorem Matches.literal_of_register {cs n r w r' : List Char} (h : register.Matches d cs n r)
    (hc : comma.Matches d r w r') : literal.Matches d cs n r := by
  obtain ⟨c, tl, hcs⟩ : ∃ c tl, cs.dropWhile isBlank = c :: tl := by
    have hlex := lex_of_matches rfl h
    cases hx : cs.dropWhile isBlank with
    | nil => rw [hx] at hlex; cases hlex
    | cons c tl => exact ⟨c, tl, rfl⟩
  obtain ⟨hreg, rfl, rfl⟩ := h.single_eq rfl rfl hcs
  have hlit : IsLiteral [c] := by
    have hc' : c ∈ "aAxXyY".toList := by simpa using hreg
    rw [show "aAxXyY".toList = ['a', 'A', 'x', 'X', 'y', 'Y'] from rfl] at hc'
    simp only [List.mem_cons, List.not_mem_nil, or_false] at hc'
    rcases hc' with rfl | rfl | rfl | rfl | rfl | rfl <;> exact ⟨[], by decide⟩
  -- the comma, after any blanks, ends the label
  have hstop : StopsAt r := by
    cases r with
    | nil => intro x hx; cases hx
    | cons b tl =>
      cases hb : isBlank b
      · obtain ⟨hcomma, -⟩ := hc.single_eq rfl rfl (List.dropWhile_cons_of_neg (by simp [hb]))
        obtain rfl : b = ',' := by simpa using hcomma
        exact stopsAt_cons (by decide) _
      · exact stopsAt_cons (isStop_of_isBlank hb) _
  exact .afterBlanks (by rw [hcs]; exact literal_relex hlit.choose_spec hstop)

end Terminal

namespace Operand

variable {d : Dialect}

/-- An operand ending in a literal, a comma after it and an expression after that are read
as one operand: the operand continued through a comma operator. -/
theorem lexes_extend {o : Operand} (hopen : o.isOpen = true) {cs r₁ r₂ mid w : List Char}
    {e : Expr} (h₁ : Lexes d cs o.tokens r₁) (hc : Terminal.comma.Matches d r₁ w r₂)
    (h₂ : Lexes d r₂ e.tokens mid) (hw : w = [',']) : Lexes d cs (o.extend [','] e).tokens mid := by
  subst hw
  cases o with
  | register name =>
    have hr := Lexes.singleton_iff.mp h₁
    exact .cons _ (hr.literal_of_register hc) (.cons _ hc.operator_of_comma h₂)
  | value imm sel e₁ =>
    simp only [tokens, extend, Expr.tokens_extend hopen] at h₁ ⊢
    rw [← List.append_assoc]
    exact Lexes.append h₁ (.cons _ hc.operator_of_comma h₂)

end Operand

/-! ## The later split -/

namespace Statement

variable {d : Dialect}

/-- A pair whose first operand ends in a literal and whose second is a bare expression with a
comma operator outside parentheses is split again at that comma: the first operand continued
through it, and the rest of the second, leave the same text, and the first leaves less. -/
theorem exists_later_split {r rest : List Char} {k : Nat} {o₁ : Operand} {e₂ : Expr}
    (hx : ((k, o₁, .value false none e₂), rest) ∈ (operandPairs d r).results)
    (hopen : o₁.isOpen = true) (hc : 0 < e₂.topCommas) :
    ∃ y ∈ (operandPairs d r).results, y.1.1 < k ∧ y.2 = rest := by
  obtain ⟨r₁, o₁', ho₁, hx⟩ := Reading.mem_andThen.mp hx
  obtain ⟨r₂, u, hu, hx⟩ := Reading.mem_andThen.mp hx
  obtain ⟨o₂', ho₂, heq⟩ := Reading.mem_map.mp hx
  simp only [Prod.mk.injEq] at heq
  obtain ⟨rfl, ho, rfl⟩ := heq
  rw [ho] at ho₁
  obtain ⟨r', b, hb, ho₁⟩ := Reading.mem_andThen.mp ho₁
  obtain ⟨rfl, hcomma⟩ := (Terminal.mem_attempt_eq_spelling rfl).mp hu
  -- the second operand, around its comma
  obtain ⟨ea, eb, hsplit⟩ := Expr.tokens_split hc
  have h₂ := Operand.mem_read_iff.mp ho₂
  simp only [Operand.tokens, hsplit] at h₂
  obtain ⟨mid, ha, hb'⟩ := Lexes.append_iff.mp (by simpa using h₂)
  obtain ⟨mid', hop, hb'⟩ := Lexes.cons_iff.mp hb'
  have hext := Operand.lexes_extend hopen (Operand.mem_read_iff.mp ho₁) hcomma ha rfl
  refine ⟨((mid.length, o₁.extend [','] ea, .value false none eb), rest),
    Reading.mem_andThen.mpr ⟨mid, _, Reading.mem_andThen.mpr ⟨r', b, hb,
      Operand.mem_read_iff.mpr hext⟩, Reading.mem_andThen.mpr ⟨mid', [','],
        (Terminal.mem_attempt_eq_spelling rfl).mpr ⟨rfl, hop.comma_of_operator⟩,
        Reading.mem_map.mpr ⟨_, (Operand.mem_read_iff (o := .value false none eb)).mpr
          (by simpa [Operand.tokens] using hb'),
          rfl⟩⟩⟩, ?_, rfl⟩
  -- the comma and the first part of the second operand lie between the two splits
  have hlt : r₂.length < r₁.length := by
    have := hcomma.suffix.length_le
    simp only [List.length_append, List.length_singleton] at this
    omega
  exact lt_of_le_of_lt ha.suffix.length_le hlt

/-- An instruction that splits its two operands at the last comma it can: where the first
ends in a literal outside parentheses and the second is a bare expression, the second has no
comma operator outside parentheses. Other statements need nothing. -/
def SplitsLast : Statement → Prop
  | instruction _ ops =>
    ∀ o₁ e₂, ops = [o₁, .value false none e₂] → o₁.isOpen = true → e₂.topCommas = 0
  | _ => True

/-- A pair of operands that does not split last has a later split, which is sorted before it
and leaves the same text. -/
theorem covered_readOperands_splitsLast (d : Dialect) (m r : List Char) :
    Covered (fun p : Statement × List Char => p.1.SplitsLast) (fun y x => y.2 = x.2) []
      (readOperands d m r).results := by
  rw [readOperands_eq]
  simp only [Reading.results_append, Reading.results_map, Reading.results_found]
  refine Covered.append (Covered.append (Covered.map_nil ?_) (Covered.of_forall fun x hx => ?_))
    (Covered.of_forall fun x hx => ?_)
  · refine Covered.of_lt_key (fun p : (Nat × Operand × Operand) × List Char => p.1.1)
      (pairwise_mergeSort_key (fun p : (Nat × Operand × Operand) × List Char => p.1.1) _)
      (fun _ _ _ h₁ h₂ => h₁.trans h₂) fun x hx hP => ?_
    obtain ⟨⟨k, o₁, o₂⟩, rest⟩ := x
    -- a pair that does not split last: a second bare operand with a comma outside parentheses
    obtain ⟨e₂, rfl, hopen, hc⟩ :
        ∃ e₂, o₂ = .value false none e₂ ∧ o₁.isOpen = true ∧ 0 < e₂.topCommas := by
      by_contra hno
      refine hP fun o₁' e₂ he hopen => ?_
      obtain ⟨rfl, rfl⟩ : o₁ = o₁' ∧ o₂ = .value false none e₂ := by simpa using he
      exact Nat.eq_zero_of_not_pos fun hc => hno ⟨e₂, rfl, hopen, hc⟩
    obtain ⟨y, hy, hlt, hrest⟩ := exists_later_split (Reading.mem_preferring.mp hx) hopen hc
    exact ⟨y, Reading.mem_preferring.mpr hy, hlt, hrest⟩
  · obtain ⟨p, -, rfl⟩ := List.mem_map.mp hx
    intro o₁ e₂ he
    simp at he
  · obtain rfl : x = (instruction m [], r) := by simpa using hx
    intro o₁ e₂ he
    simp at he

/-- Every reading of a statement that does not split last comes after one that does and
leaves the same text. -/
theorem covered_read_splitsLast (d : Dialect) (cs : List Char) :
    Covered (fun p : Statement × List Char => p.1.SplitsLast) (fun y x => y.2 = x.2) []
      (read d cs).results := by
  simp only [read, Reading.results_append, Reading.results_map]
  refine Covered.append (Covered.append (Covered.append ?_ ?_) ?_) ?_
  · rw [readInstruction_eq, Reading.results_andThen]
    exact Covered.flatMap_of_forall fun a _ => covered_readOperands_splitsLast d a.1 a.2
  · refine Covered.of_forall fun p hp => ?_
    obtain ⟨_, _, h⟩ := exists_macroStart_of_mem hp
    rw [h]
    trivial
  · refine Covered.of_forall fun p hp => ?_
    obtain ⟨_, -, rfl⟩ := List.mem_map.mp hp
    trivial
  · refine Covered.of_forall fun p hp => ?_
    obtain ⟨_, -, rfl⟩ := List.mem_map.mp hp
    trivial

end Statement

/-- The first reading of a line splits its two operands, if it has two, at the last comma it
can. -/
theorem Line.splitsLast_of_best? {d : Dialect} {cs : List Char} {l : Line}
    (hb : (read d cs).best? = some l) : Head.Holds Statement.SplitsLast l.head :=
  holds_of_best? (Statement.covered_read_splitsLast d) hb

end AsmTidy
