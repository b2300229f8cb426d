import AsmTidy.Text.Space

/-!
# Wildcard patterns

A recursive run selects files whose names match a Unix shell-style wildcard pattern. Case
matters, and a leading dot is not special.

- `*` matches any text, and `?` any one character.
- `[` … `]` matches one character of a set. After `[`, a `!` negates the set, and a `]` right
  after the `[` (or the `[!`) is a member. `a-z` is the range of characters from `a` to `z`;
  a `-` at either end is a member. A backslash is an ordinary member, and so is a `[` inside.
- A `[` that no `]` closes is an ordinary character.
- Every other character matches itself.

**Ranges.** Dashes are paired with members from left to right. A dash that ends a range is
followed by at least two characters before the next dash can start one, so in `[a-c-e]` the
second dash is a member. A range whose start comes after its end is empty: it is dropped,
together with its two ends.
-/

namespace AsmTidy.Glob

open Text

/-- A set of characters written between brackets. -/
structure CharSet where
  negated : Bool
  members : List Char
  ranges : List (Char × Char)
deriving Repr

/-- Whether the set holds the character `c`. -/
def CharSet.holds (s : CharSet) (c : Char) : Bool :=
  (s.members.contains c || s.ranges.any fun r => r.1 ≤ c && c ≤ r.2) != s.negated

/-- One element of a pattern. -/
inductive Item where
  /-- `*`: any text. -/
  | anyText
  /-- `?`, or the set `[!]`: any one character. -/
  | anyChar
  | literal (c : Char)
  | oneOf (s : CharSet)
  /-- A set with no members: no character. -/
  | nothing
deriving Repr

/-- Whether an element that matches one character accepts `c`. -/
def Item.accepts : Item → Char → Bool
  | .anyText, _ => true
  | .anyChar, _ => true
  | .literal l, c => c == l
  | .oneOf s, c => s.holds c
  | .nothing, _ => false

/-- How many characters after `[` cannot close the bracket: a `!`, then a `]`. -/
def leadLength : List Char → Nat
  | '!' :: ']' :: _ => 2
  | '!' :: _ => 1
  | ']' :: _ => 1
  | _ => 0

/-- The members between `[` and the `]` that closes them, and the pattern after it; `none` if
no `]` closes the bracket. -/
def splitBracket (cs : List Char) : Option (List Char × List Char) :=
  match (cs.drop (leadLength cs)).dropWhile (· != ']') with
  | ']' :: rest =>
    some (cs.take (leadLength cs) ++ (cs.drop (leadLength cs)).takeWhile (· != ']'), rest)
  | _ => none

/-- Split the members at the dashes that form ranges: the first member (two, after a `!`)
and the two characters after a dash are never split off. -/
def splitAtDashes (cur rest : List Char) : List (List Char) :=
  match rest with
  | [] => [cur]
  | '-' :: more =>
    match splitAtDashes (more.take 2) (more.drop 2) with
    | [[]] => [cur ++ ['-']]
    | chunks => cur :: chunks
  | c :: more => splitAtDashes (cur ++ [c]) more
termination_by rest.length

/-- Drop the empty ranges, from the right: a range whose start comes after its end is removed
with its two ends. -/
def dropEmptyRanges (chunks : List (List Char)) : List (List Char) :=
  chunks.foldr (fun c acc => match acc with
    | r :: rs =>
      match c.getLast?, r.head? with
      | some a, some b => if b < a then (c.dropLast ++ r.tail) :: rs else c :: r :: rs
      | _, _ => c :: r :: rs
    | [] => [c]) []

/-- The members and ranges that chunks separated by range dashes stand for. -/
def chunkMembers : List (List Char) → List Char × List (Char × Char)
  | [] => ([], [])
  | [c] => (c, [])
  | c :: d :: more =>
    let (ms, rs) := chunkMembers (d :: more)
    match c.getLast?, d.head? with
    | some a, some b => (c ++ ms, (a, b) :: rs)
    | _, _ => (c ++ '-' :: ms, rs)

/-- The element written as `[stuff]`. -/
def bracketItem (stuff : List Char) : Item :=
  let chunks :=
    if stuff.contains '-' then
      dropEmptyRanges (splitAtDashes (stuff.take (if stuff.head? = some '!' then 2 else 1))
        (stuff.drop (if stuff.head? = some '!' then 2 else 1)))
    else [stuff]
  match chunks with
  | [] | [[]] => .nothing
  | [['!']] => .anyChar
  | ('!' :: first) :: more =>
    let (ms, rs) := chunkMembers (first :: more)
    .oneOf ⟨true, ms, rs⟩
  | _ =>
    let (ms, rs) := chunkMembers chunks
    .oneOf ⟨false, ms, rs⟩

theorem length_rest_of_splitBracket {cs stuff rest : List Char}
    (h : splitBracket cs = some (stuff, rest)) : rest.length < cs.length + 1 := by
  unfold splitBracket at h
  split at h
  · rename_i r hr
    simp only [Option.some.injEq, Prod.mk.injEq] at h
    obtain ⟨-, rfl⟩ := h
    have h1 := length_dropWhile_le (· != ']') (cs.drop (leadLength cs))
    rw [hr, List.length_cons, List.length_drop] at h1
    omega
  · simp at h

/-- The elements of a pattern. -/
def compile (cs : List Char) : List Item :=
  match cs with
  | [] => []
  | '*' :: rest => .anyText :: compile rest
  | '?' :: rest => .anyChar :: compile rest
  | '[' :: rest =>
    match h : splitBracket rest with
    | some (stuff, after) =>
      have := length_rest_of_splitBracket h
      bracketItem stuff :: compile after
    | none => .literal '[' :: compile rest
  | c :: rest => .literal c :: compile rest
termination_by cs.length

/-- Whether a name matches a sequence of elements. -/
def matchItems : List Item → List Char → Bool
  | [], name => name.isEmpty
  | .anyText :: items, name =>
    (List.range (name.length + 1)).any fun k => matchItems items (name.drop k)
  | item :: items, c :: name => item.accepts c && matchItems items name
  | _ :: _, [] => false

/-- Whether a file name matches a wildcard pattern. -/
def accepts (pattern name : List Char) : Bool := matchItems (compile pattern) name

end AsmTidy.Glob
