/-!
# Mnemonics

The instruction set of the 6502 family, as far as the tidier knows it: the 56 documented
NMOS 6502 instructions together with `ina`, and the 42 instructions the CMOS 65C02 adds.

A mnemonic is printed in capitals when its lower-case form is a known instruction, and
otherwise as written, since it may name a macro.

In colonless source, only known instructions can stand as mnemonics. There a mnemonic is
found by its spelling *without regard to case*, as regular expressions ignore case. A letter
then matches both of its cases. Three letters also match further characters: `i` matches the
dotted capital `İ` and the dotless `ı`, `k` matches the Kelvin sign `K`, and `s` matches the
long `ſ`.
-/

namespace AsmTidy.Mnemonic

/-- The NMOS 6502 instructions. -/
def nmos : List String :=
  ["adc", "and", "asl", "bcc", "bcs", "beq", "bit", "bmi", "bne", "bpl",
   "brk", "bvc", "bvs", "clc", "cld", "cli", "clv", "cmp", "cpx", "cpy",
   "dec", "dex", "dey", "eor", "ina", "inc", "inx", "iny", "jmp", "jsr",
   "lda", "ldx", "ldy", "lsr", "nop", "ora", "pha", "php", "pla", "plp",
   "rol", "ror", "rti", "rts", "sbc", "sec", "sed", "sei", "sta", "stx",
   "sty", "tax", "tay", "tsx", "txa", "txs", "tya"]

/-- The instructions the CMOS 65C02 adds. -/
def cmos : List String :=
  ["bbr0", "bbr1", "bbr2", "bbr3", "bbr4", "bbr5", "bbr6", "bbr7",
   "bbs0", "bbs1", "bbs2", "bbs3", "bbs4", "bbs5", "bbs6", "bbs7",
   "bra", "phx", "phy", "plx", "ply",
   "rmb0", "rmb1", "rmb2", "rmb3", "rmb4", "rmb5", "rmb6", "rmb7",
   "smb0", "smb1", "smb2", "smb3", "smb4", "smb5", "smb6", "smb7",
   "stp", "stz", "trb", "tsb", "wai"]

/-- Every known instruction, in lower case. -/
def known : List (List Char) := (nmos ++ cmos).map String.toList

/-- Lower-case one character of a mnemonic as Unicode's full case mapping does. A mnemonic
holds ASCII letters, digits and underscores, and in colonless source also the four letters
that match `i`, `k` or `s` without regard to case. Of these the Kelvin sign lowers to `k`
and the dotted capital `İ` to `i` followed by a combining dot; the rest keep their form. -/
def lowerChar (c : Char) : List Char :=
  if c = 'K' then ['k']
  else if c = 'İ' then ['i', '̇']
  else [c.toLower]

/-- Whether a mnemonic, lower-cased, is a known instruction. -/
def isKnown (m : List Char) : Bool := known.contains (m.flatMap lowerChar)

/-- How a mnemonic is printed: in capitals when it is a known instruction. -/
def display (m : List Char) : List Char := if isKnown m then m.map Char.toUpper else m

/-- Whether the text character `c` matches the letter or digit `k` of a mnemonic when case
is ignored. -/
def caselessEq (k c : Char) : Bool :=
  c == k || c == k.toUpper ||
    (k == 'i' && (c == 'İ' || c == 'ı')) ||
    (k == 'k' && c == 'K') || (k == 's' && c == 'ſ')

/-- Whether the text starts with the mnemonic `w`, ignoring case. -/
def startsCaseless (w cs : List Char) : Bool :=
  w.length ≤ cs.length && (w.zip cs).all fun p => caselessEq p.1 p.2

/-- The longest of the mnemonics `ws` that the text starts with, ignoring case, or `[]` if
there is none. At most one instruction of each length can match, since no two differ only in
case. -/
def longestAt (cs : List Char) : List (List Char) → List Char
  | [] => []
  | w :: ws =>
    let other := longestAt cs ws
    if startsCaseless w cs && other.length < w.length then w else other

/-- Read a mnemonic of colonless source: the longest known instruction the text starts with,
ignoring case, as it is written in the text. -/
def lexCaseless (cs : List Char) : Option (List Char × List Char) :=
  match longestAt cs known with
  | [] => none
  | w => some (cs.take w.length, cs.drop w.length)

/-- The search finds nothing or a mnemonic the text starts with. -/
theorem longestAt_eq_nil_or (cs : List Char) (ws : List (List Char)) :
    longestAt cs ws = [] ∨ startsCaseless (longestAt cs ws) cs = true := by
  induction ws with
  | nil => exact Or.inl rfl
  | cons w ws ih =>
    simp only [longestAt]
    split
    · rename_i h
      simp only [Bool.and_eq_true] at h
      exact Or.inr h.1
    · exact ih

theorem length_le_of_startsCaseless {w cs : List Char} (h : startsCaseless w cs = true) :
    w.length ≤ cs.length := by
  simp only [startsCaseless, Bool.and_eq_true, decide_eq_true_eq] at h
  exact h.1

/-- A mnemonic read without regard to case is a non-empty front of the text. -/
theorem lexCaseless_spec {cs w rest : List Char} (h : lexCaseless cs = some (w, rest)) :
    w ≠ [] ∧ w ++ rest = cs := by
  have hs := longestAt_eq_nil_or cs known
  cases hk : longestAt cs known with
  | nil => simp [lexCaseless, hk] at h
  | cons c k =>
    simp only [lexCaseless, hk, Option.some.injEq, Prod.mk.injEq] at h
    obtain ⟨rfl, rfl⟩ := h
    refine ⟨?_, List.take_append_drop _ _⟩
    rw [hk] at hs
    rcases hs with h0 | h1
    · exact absurd h0 (List.cons_ne_nil c k)
    · have hlen := length_le_of_startsCaseless h1
      simp only [List.length_cons] at hlen ⊢
      intro hnil
      have := congrArg List.length hnil
      simp only [List.length_take, List.length_nil] at this
      omega

end AsmTidy.Mnemonic
