import Mathlib
import AsmTidy.Proofs.DialectReading

/-!
# The preferred reading

A reader lists every reading of a text in order of preference, and the tidier prints the first
reading of each line (`Reading.best?`). This module gives a way to show that the first reading
has a property without computing it.

**Covered lists** (`Covered P T pre L`). Every element of `L` that fails `P` comes after an
element that satisfies `P` and is related to it by `T`; that element stands in `pre`, a list
of elements before `L`, or earlier in `L`. With nothing before it, a covered list begins with
an element that satisfies `P` (`Covered.head`). The relation carries what the later steps of
a reader need to know of the preferred element: that it leaves the same text, or that whatever
can follow the other element can follow it too.

Covering is kept by the ways readers are built: `++` (`Covered.append`), `map`, `flatMap`,
which is how `Reading.andThen` continues every reading (`Covered.flatMap`), and the stable sort
of `Reading.preferring` (`Covered.mergeSort`). So a reader is covered when the readers it is
built from are and each of its readings that fails the property has a preferred twin.

**The first reading of a line.** A line is read form by form, and each form first with a
comment and then without (`Line.read`). Its first reading has a property when the readings of
every form are covered (`Line.best?_of_covered`).
-/

namespace AsmTidy

open Text

/-! ## Covered lists -/

/-- Every element of `L` that fails `P` comes after an element that satisfies `P` and is
related to it by `T`, in `pre` or in `L`. -/
def Covered {β : Type} (P : β → Prop) (T : β → β → Prop) (pre L : List β) : Prop :=
  ∀ L₁ x L₂, L = L₁ ++ x :: L₂ → ¬ P x → ∃ y ∈ pre ++ L₁, P y ∧ T y x

namespace Covered

variable {β γ : Type} {P : β → Prop} {T : β → β → Prop} {pre L A B : List β}

theorem nil : Covered P T pre [] := by
  intro L₁ x L₂ h
  simp at h

theorem cons_iff {a : β} :
    Covered P T pre (a :: L) ↔ (¬ P a → ∃ y ∈ pre, P y ∧ T y a) ∧ Covered P T (pre ++ [a]) L := by
  constructor
  · intro h
    refine ⟨fun ha => by simpa using h [] a L rfl ha, fun L₁ x L₂ hL hx => ?_⟩
    obtain ⟨y, hy, hPy⟩ := h (a :: L₁) x L₂ (by rw [hL]; rfl) hx
    exact ⟨y, by simpa using hy, hPy⟩
  · rintro ⟨ha, h⟩ L₁ x L₂ hL hx
    cases L₁ with
    | nil =>
      obtain ⟨rfl, rfl⟩ := List.cons.inj hL
      simpa using ha hx
    | cons b L₁ =>
      simp only [List.cons_append, List.cons.injEq] at hL
      obtain ⟨rfl, hL⟩ := hL
      obtain ⟨y, hy, hPy⟩ := h L₁ x L₂ hL hx
      exact ⟨y, by simpa using hy, hPy⟩

theorem of_forall (h : ∀ x ∈ L, P x) : Covered P T pre L := by
  intro L₁ x L₂ hL hx
  exact absurd (h x (by simp [hL])) hx

/-- A covered list with nothing before it begins with an element that satisfies `P`. -/
theorem head (h : Covered P T [] L) : ∀ x ∈ L.head?, P x := by
  intro x hx
  cases L with
  | nil => simp at hx
  | cons a L =>
    obtain rfl : a = x := by simpa using hx
    by_contra hP
    simpa using (cons_iff.mp h).1 hP

/-- More elements before, or a weaker relation, keep a list covered. -/
theorem mono {T' : β → β → Prop} {pre' : List β} (h : Covered P T pre L)
    (hpre : ∀ y ∈ pre, y ∈ pre') (hT : ∀ y x, T y x → T' y x) : Covered P T' pre' L := by
  intro L₁ x L₂ hL hx
  obtain ⟨y, hy, hPy, hT'⟩ := h L₁ x L₂ hL hx
  refine ⟨y, ?_, hPy, hT y x hT'⟩
  rcases List.mem_append.mp hy with hy | hy
  · exact List.mem_append_left _ (hpre y hy)
  · exact List.mem_append_right _ hy

theorem append (hA : Covered P T pre A) (hB : Covered P T (pre ++ A) B) :
    Covered P T pre (A ++ B) := by
  induction A generalizing pre with
  | nil => simpa using hB
  | cons a A ih =>
    obtain ⟨ha, hA⟩ := cons_iff.mp hA
    exact cons_iff.mpr ⟨ha, ih hA (by simpa using hB)⟩

/-- A property that follows from `P` covers what `P` covers. -/
theorem imp {Q : β → Prop} (h : Covered P T pre L) (hPQ : ∀ x, P x → Q x) : Covered Q T pre L := by
  intro L₁ x L₂ hL hx
  obtain ⟨y, hy, hPy, hT⟩ := h L₁ x L₂ hL fun hP => hx (hPQ x hP)
  exact ⟨y, hy, hPQ y hPy, hT⟩

theorem of_nil (h : Covered P T [] L) : Covered P T pre L :=
  h.mono (by simp) fun _ _ hT => hT

/-- Lists that are each covered on their own, one after another. -/
theorem flatMap_of_forall {g : γ → List β} {L : List γ} (h : ∀ a ∈ L, Covered P T [] (g a)) :
    Covered P T [] (L.flatMap g) := by
  induction L with
  | nil => exact nil
  | cons a L ih =>
    rw [List.flatMap_cons]
    exact append (h a List.mem_cons_self) (of_nil (ih fun b hb => h b (List.mem_cons_of_mem a hb)))

/-- Every element of a covered list has one related to it that satisfies `P`, where `T` is
reflexive and transitive. -/
theorem exists_of_mem (hrefl : ∀ x, T x x) (h : Covered P T pre L) {x : β} (hx : x ∈ L) : ∃ y ∈ pre ++ L, P y ∧ T y x := by
  by_cases hP : P x
  · exact ⟨x, List.mem_append_right _ hx, hP, hrefl x⟩
  · obtain ⟨L₁, L₂, hL⟩ := List.append_of_mem hx
    obtain ⟨y, hy, hPy, hT⟩ := h L₁ x L₂ hL hP
    refine ⟨y, ?_, hPy, hT⟩
    rcases List.mem_append.mp hy with hy | hy
    · exact List.mem_append_left _ hy
    · exact List.mem_append_right _ (by rw [hL]; exact List.mem_append_left _ hy)

/-- An element whose twin stands before the list is covered. -/
theorem of_twins (hrefl : ∀ x, T x x) (htrans : ∀ x y z, T x y → T y z → T x z)
    (hpre : Covered P T [] pre) (h : ∀ L₁ x L₂, L = L₁ ++ x :: L₂ → ¬ P x →
      (∃ y ∈ L₁, P y ∧ T y x) ∨ ∃ y ∈ pre, T y x) : Covered P T pre L := by
  intro L₁ x L₂ hL hx
  rcases h L₁ x L₂ hL hx with ⟨y, hy, hPy, hT⟩ | ⟨y, hy, hT⟩
  · exact ⟨y, List.mem_append_right _ hy, hPy, hT⟩
  · obtain ⟨z, hz, hPz, hTz⟩ := hpre.exists_of_mem hrefl hy
    exact ⟨z, List.mem_append_left _ (by simpa using hz), hPz, htrans z y x hTz hT⟩

/-- A list each of whose elements that fail `P` has its twin before the list. -/
theorem of_forall_before (h : ∀ x ∈ L, ¬ P x → ∃ y ∈ pre, P y ∧ T y x) : Covered P T pre L := by
  intro L₁ x L₂ hL hx
  obtain ⟨y, hy, hPy, hT⟩ := h x (by simp [hL]) hx
  exact ⟨y, List.mem_append_left _ hy, hPy, hT⟩

theorem map {f : γ → β} {pre L : List γ} (h : Covered (fun a => P (f a)) (fun a b => T (f a) (f b)) pre L) :
    Covered P T (pre.map f) (L.map f) := by
  induction L generalizing pre with
  | nil => exact nil
  | cons a L ih =>
    obtain ⟨ha, h⟩ := cons_iff.mp h
    refine cons_iff.mpr ⟨fun hPa => ?_, by simpa using ih h⟩
    obtain ⟨y, hy, hPy, hT⟩ := ha hPa
    exact ⟨f y, List.mem_map_of_mem hy, hPy, hT⟩

theorem map_nil {f : γ → β} {L : List γ}
    (h : Covered (fun a => P (f a)) (fun a b => T (f a) (f b)) [] L) : Covered P T [] (L.map f) :=
  h.map

/-- Continuing every element of a covered list: the continuations of an element that
satisfies `P'` must be covered, and whatever the continuations of an element that fails `P'`
give, its twin's continuations give something related to it. -/
theorem flatMap {P' : γ → Prop} {T' : γ → γ → Prop} {g : γ → List β} {pre L : List γ}
    (hrefl : ∀ x, T x x) (htrans : ∀ x y z, T x y → T y z → T x z)
    (h : Covered P' T' pre L) (hin : ∀ a, P' a → Covered P T [] (g a))
    (htwin : ∀ y x, T' y x → P' y → ¬ P' x → ∀ z ∈ g x, ∃ z' ∈ g y, T z' z) :
    Covered P T (pre.flatMap g) (L.flatMap g) := by
  induction L generalizing pre with
  | nil => exact nil
  | cons a L ih =>
    obtain ⟨ha, h⟩ := cons_iff.mp h
    rw [List.flatMap_cons]
    refine append ?_ (by simpa using ih h)
    by_cases hPa : P' a
    · exact (hin a hPa).mono (by simp) fun _ _ hT => hT
    · obtain ⟨y, hy, hPy, hT'⟩ := ha hPa
      refine of_forall_before fun z hz _ => ?_
      obtain ⟨z', hz', hT⟩ := htwin y a hT' hPy hPa z hz
      obtain ⟨w, hw, hPw, hTw⟩ := (hin y hPy).exists_of_mem hrefl hz'
      exact ⟨w, List.mem_flatMap.mpr ⟨y, hy, by simpa using hw⟩, hPw, htrans w z' z hTw hT⟩

end Covered

/-! ## Sorting by a key -/

section Sorting

variable {β : Type} (key : β → Nat)

theorem key_le_trans (a b c : β) (hab : decide (key a ≤ key b) = true)
    (hbc : decide (key b ≤ key c) = true) : decide (key a ≤ key c) = true := by
  simp only [decide_eq_true_eq] at *
  omega

theorem key_le_total (a b : β) : (decide (key a ≤ key b) || decide (key b ≤ key a)) = true := by
  simp only [Bool.or_eq_true, decide_eq_true_eq]
  omega

/-- Sorting by a key keeps the order of the elements that share a key. -/
theorem filter_mergeSort_key (L : List β) (k : Nat) :
    (L.mergeSort fun a b => decide (key a ≤ key b)).filter (fun a => key a == k) =
      L.filter (fun a => key a == k) := by
  -- the elements of key `k` are sorted already, so they stay a sublist of the sorted list
  have hsorted : (L.filter fun a => key a == k).Pairwise fun a b => decide (key a ≤ key b) = true :=
    List.pairwise_of_forall_mem_list fun a ha b hb => by
      simp only [List.mem_filter, beq_iff_eq] at ha hb
      simp [ha.2, hb.2]
  have hsub := (List.sublist_mergeSort (key_le_trans key) (key_le_total key) hsorted
    List.filter_sublist).filter fun a => key a == k
  rw [List.filter_eq_self.mpr fun a ha => (List.mem_filter.mp ha).2] at hsub
  exact (hsub.eq_of_length ((List.mergeSort_perm L _).filter _).length_eq.symm).symm

variable {P : β → Prop} {T : β → β → Prop}

/-- The stable sort of `Reading.preferring` keeps a list covered, where the preferred element of
a pair never has the larger key. -/
theorem Covered.mergeSort {L : List β} (h : Covered P T [] L)
    (hkey : ∀ y x, T y x → key y ≤ key x) :
    Covered P T [] (L.mergeSort fun a b => decide (key a ≤ key b)) := by
  intro S₁ x S₂ hS hx
  -- the occurrence of `x` in `L` that sorting moved here is found among the elements of its key
  have hf := filter_mergeSort_key key L (key x)
  rw [hS, List.filter_append, List.filter_cons_of_pos (by simp)] at hf
  obtain ⟨L₁, L₂, rfl, hL₁, hL₂⟩ := List.filter_eq_append_iff.mp hf.symm
  obtain ⟨M₁, M₂, rfl, hM₁, -, -⟩ := List.filter_eq_cons_iff.mp hL₂
  obtain ⟨y, hy, hPy, hT⟩ := h (L₁ ++ M₁) x M₂ (by simp) hx
  refine ⟨y, ?_, hPy, hT⟩
  rw [List.nil_append] at hy ⊢
  rcases Nat.lt_or_eq_of_le (hkey y x hT) with hlt | heq
  · -- a smaller key is sorted before `x`
    have hyS : y ∈ S₁ ++ x :: S₂ := by
      rw [← hS, List.mem_mergeSort, ← List.append_assoc]
      exact List.mem_append_left _ hy
    have hpw := List.pairwise_mergeSort (key_le_trans key) (key_le_total key) (L₁ ++ (M₁ ++ x :: M₂))
    rw [hS, List.pairwise_append] at hpw
    rcases List.mem_append.mp hyS with hy₁ | hy₂
    · exact hy₁
    · rcases List.mem_cons.mp hy₂ with rfl | hy₂
      · exact absurd hPy hx
      · have := (List.pairwise_cons.mp hpw.2.1).1 y hy₂
        simp only [decide_eq_true_eq] at this
        omega
  · -- an equal key: `y` is among the elements of that key before `x`
    rcases List.mem_append.mp hy with hy₁ | hy₂
    · have : y ∈ L₁.filter fun a => key a == key x := List.mem_filter.mpr ⟨hy₁, by simp [heq]⟩
      rw [hL₁] at this
      exact (List.mem_filter.mp this).1
    · exact absurd (by simp [heq]) (hM₁ y hy₂)

end Sorting

/-! ## The first reading of a line -/

/-- The preferred reading of a reader whose readings are covered has the property. -/
theorem Reading.best?_of_covered {α : Type} {P : α → Prop}
    {T : α × List Char → α × List Char → Prop} {r : Reading α}
    (h : Covered (fun p => P p.1) T [] r.results) {a : α} (hb : r.best? = some a) : P a := by
  simp only [Reading.best?, Option.map_eq_some_iff] at hb
  obtain ⟨p, hp, rfl⟩ := hb
  exact h.head p hp

theorem Reading.results_foldr_append {α β : Type} (f : α → Reading β) (xs : List α) (n : Nat) :
    (xs.foldr (fun x acc => f x ++ acc) (Reading.stuck n)).results =
      xs.flatMap fun x => (f x).results := by
  induction xs with
  | nil => rfl
  | cons x xs ih => simp [ih]

namespace Line

variable {d : Dialect}

/-- The readings of a line are those of each form of head in turn. -/
theorem results_read (d : Dialect) (cs : List Char) :
    (read d cs).results =
      ((Head.readForms d cs).map (Reading.map some) ++ [Reading.found none cs]).flatMap
        fun heads => (readEnding d heads).results :=
  Reading.results_foldr_append _ _ _

/-- The readings that end the heads: every head with a comment, then every head without. -/
theorem results_readEnding (d : Dialect) (heads : Reading (Option Head)) :
    (readEnding d heads).results =
      heads.results.flatMap (fun p => ((Comment.read d p.2).andThen fun c r' =>
          (Terminal.attempt d .newline r').map fun _ => (⟨p.1, some c⟩ : Line)).results) ++
        heads.results.flatMap fun p =>
          ((Terminal.attempt d .newline p.2).map fun _ => (⟨p.1, none⟩ : Line)).results := by
  simp only [readEnding, Reading.results_append, Reading.results_andThen]

theorem covered_read {P : Line × List Char → Prop} {T : Line × List Char → Line × List Char → Prop}
    {cs : List Char}
    (h : ∀ heads ∈ (Head.readForms d cs).map (Reading.map some) ++ [Reading.found none cs],
      Covered P T [] (readEnding d heads).results) :
    Covered P T [] (read d cs).results := by
  rw [results_read]
  exact Covered.flatMap_of_forall h

/-- Whatever ends a head keeps it. -/
theorem head_of_mem_ending {p : Option Head × List Char} {q : Line × List Char}
    (hq : q ∈ ((Comment.read d p.2).andThen fun c r' =>
        (Terminal.attempt d .newline r').map fun _ => (⟨p.1, some c⟩ : Line)).results ∨
      q ∈ ((Terminal.attempt d .newline p.2).map fun _ => (⟨p.1, none⟩ : Line)).results) :
    q.1.head = p.1 := by
  obtain ⟨l, rest⟩ := q
  rcases hq with hq | hq
  · obtain ⟨_, _, _, _, _, rfl⟩ := by simpa only [Reading.mem_andThen, Reading.mem_map] using hq
    rfl
  · obtain ⟨_, _, rfl⟩ := Reading.mem_map.mp hq
    rfl

/-- Where every head that fails `P` leaves the text that an earlier head satisfying `P`
leaves, the first line read from the heads has a head satisfying `P`. -/
theorem covered_readEnding {P : Option Head → Prop} {heads : Reading (Option Head)}
    (h : Covered (fun p => P p.1) (fun y x => y.2 = x.2) [] heads.results) :
    Covered (fun q : Line × List Char => P q.1.head) (fun _ _ => True) []
      (readEnding d heads).results := by
  rw [results_readEnding]
  refine Covered.append ?_ (Covered.of_nil ?_) <;>
    refine Covered.flatMap (fun _ => trivial) (fun _ _ _ _ _ => trivial) h
      (fun a ha => Covered.of_forall fun q hq => ?_) ?_
  · rwa [head_of_mem_ending (Or.inl hq)]
  · -- the same text is ended by the same comment and line break
    rintro ⟨hy, ry⟩ ⟨hx, rx⟩ (rfl : ry = rx) - - ⟨l, rest⟩ hz
    obtain ⟨m, c, hc, u, hu, rfl⟩ := by simpa only [Reading.mem_andThen, Reading.mem_map] using hz
    exact ⟨(⟨hy, some c⟩, rest), Reading.mem_andThen.mpr ⟨m, c, hc, Reading.mem_map.mpr ⟨u, hu, rfl⟩⟩,
      trivial⟩
  · rwa [head_of_mem_ending (Or.inr hq)]
  · rintro ⟨hy, ry⟩ ⟨hx, rx⟩ (rfl : ry = rx) - - ⟨l, rest⟩ hz
    obtain ⟨u, hu, rfl⟩ := Reading.mem_map.mp hz
    exact ⟨(⟨hy, none⟩, rest), Reading.mem_map.mpr ⟨u, hu, rfl⟩, trivial⟩

end Line

/-! ## Every line of an accepted text -/

/-- The lines of a text that the tidier accepts, each with its preferred reading, and the
blanks after the last line break; the tidy text prints each of those readings. -/
theorem Source.exists_lines_of_format_eq_ok {d : Dialect} {t out : List Char}
    (h : Source.format d t = .ok out) :
    ∃ (lines : List (List Char × Line)) (tail : List Char),
      t = lines.flatMap (fun p => p.1 ++ ['\n']) ++ tail ∧ tail.all isBlank ∧
      out = lines.flatMap (fun p => Layout.tidy.line p.2 ++ ['\n']) ∧
      ∀ p ∈ lines, '\n' ∉ p.1 ∧ (Line.read d (p.1 ++ ['\n'])).best? = some p.2 := by
  obtain ⟨ls, hls, rfl⟩ := Source.format_eq_ok_iff.mp h
  clear h
  induction hls with
  | @last t hb => exact ⟨[], t, rfl, hb, rfl, by simp⟩
  | @cons s X l ls hs hl _ ih =>
    obtain ⟨lines, tail, rfl, hb, hout, hall⟩ := ih
    refine ⟨(s, l) :: lines, tail, by simp, hb, by simp [hout], ?_⟩
    simp only [List.mem_cons, forall_eq_or_imp]
    exact ⟨⟨hs, hl⟩, hall⟩

end AsmTidy
