/-!
# Readings

A reader tries every way to read a piece of syntax from the front of a text. Its `Reading`
keeps two things.

**Results.** Every successful reading, in order of preference, each with the text it leaves
unread. Where several readings leave the same text, the first of them is the one the tidier
uses.

**Frontier.** How many characters were still unread at the furthest point that any attempt
reached, successful or not. When no reading of a line succeeds, this is where the error is
reported.

Positions are the texts left over, so a reading's text is always a suffix of its input, and
"further" means "fewer characters left".
-/

namespace AsmTidy

/-- Every way to read a piece of syntax from the front of a text, in order of preference,
with the text each leaves; and the fewest characters left at any point an attempt reached. -/
structure Reading (α : Type) where
  results : List (α × List Char)
  frontier : Nat

namespace Reading

variable {α β : Type}

/-- Nothing was read, and no attempt got further than `n` characters from the end. -/
def stuck (n : Nat) : Reading α := ⟨[], n⟩

/-- One reading `a`, which leaves `rest` unread. -/
def found (a : α) (rest : List Char) : Reading α := ⟨[(a, rest)], rest.length⟩

/-- Apply `f` to every reading. -/
def map (f : α → β) (r : Reading α) : Reading β :=
  ⟨r.results.map fun p => (f p.1, p.2), r.frontier⟩

/-- The readings of `r`, then those of `s`: `s` is the less preferred alternative. -/
def orElse (r s : Reading α) : Reading α :=
  ⟨r.results ++ s.results, min r.frontier s.frontier⟩

instance : Append (Reading α) := ⟨orElse⟩

/-- Continue every reading of `r` with `k`, which may rely on the reading being one of `r`'s.
Readings that `r` prefers come first; the frontier is the furthest that `r` or any
continuation reached. -/
def bindMem (r : Reading α)
    (k : (a : α) → (rest : List Char) → (a, rest) ∈ r.results → Reading β) : Reading β :=
  let next := r.results.attach.map fun p => k p.1.1 p.1.2 p.2
  ⟨next.flatMap results, next.foldl (fun m s => min m s.frontier) r.frontier⟩

/-- Continue every reading of `r` with `k`. -/
def andThen (r : Reading α) (k : α → List Char → Reading β) : Reading β :=
  r.bindMem fun a rest _ => k a rest

/-- Reorder the readings so that those with smaller keys come first, keeping the order of
readings with equal keys. -/
def preferring (key : α → Nat) (r : Reading α) : Reading α :=
  ⟨r.results.mergeSort fun p q => key p.1 ≤ key q.1, r.frontier⟩

/-- The most preferred reading, if any. -/
def best? (r : Reading α) : Option α := r.results.head?.map Prod.fst

@[simp] theorem results_append (r s : Reading α) :
    (r ++ s).results = r.results ++ s.results := rfl

@[simp] theorem frontier_append (r s : Reading α) :
    (r ++ s).frontier = min r.frontier s.frontier := rfl

@[simp] theorem results_map (f : α → β) (r : Reading α) :
    (r.map f).results = r.results.map fun p => (f p.1, p.2) := rfl

end Reading

end AsmTidy
