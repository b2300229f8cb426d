/-!
# Blanks and white space

Two classes of spacing characters matter to the tidier.

**Blanks** are the space and the horizontal tab. The assembly grammar skips a run of them
between any two lexemes, and requires one after a mnemonic that has operands.

**White space** is the wider class that trimming removes: from comment text, from argument
text and from the end of every output line. It holds the 29 code points that Unicode's
character database marks as white space or as a segment or paragraph separator. These are
the ASCII controls U+0009–U+000D and U+001C–U+001F, the space, U+0085 and U+00A0, the Ogham
space mark, the typographic spaces U+2000–U+200A, the line and paragraph separators, the
narrow no-break space, the medium mathematical space and the ideographic space.

The text functions work on `List Char`, so that what they keep and drop can be stated with
the list library.
-/

namespace AsmTidy.Text

/-- The space and the horizontal tab. -/
def isBlank (c : Char) : Bool := c == ' ' || c == '\t'

/-- The characters that trimming removes. -/
def isSpace (c : Char) : Bool :=
  let n := c.toNat
  (0x09 ≤ n && n ≤ 0x0D) || (0x1C ≤ n && n ≤ 0x20) || n == 0x85 || n == 0xA0 ||
    n == 0x1680 || (0x2000 ≤ n && n ≤ 0x200A) || n == 0x2028 || n == 0x2029 ||
    n == 0x202F || n == 0x205F || n == 0x3000

/-- Remove white space from the end. -/
def trimRight (cs : List Char) : List Char := (cs.reverse.dropWhile isSpace).reverse

/-- Remove white space from both ends. -/
def trim (cs : List Char) : List Char := trimRight (cs.dropWhile isSpace)

/-- `n` spaces. -/
def spaces (n : Nat) : List Char := List.replicate n ' '

/-- Both blanks are white space. -/
theorem isSpace_of_isBlank {c : Char} (h : isBlank c = true) : isSpace c = true := by
  simp only [isBlank, Bool.or_eq_true, beq_iff_eq] at h
  rcases h with rfl | rfl <;> decide

/-- Dropping a front never lengthens a list. -/
theorem length_dropWhile_le {α : Type} (p : α → Bool) (cs : List α) :
    (cs.dropWhile p).length ≤ cs.length := by
  induction cs with
  | nil => simp
  | cons c cs ih =>
    simp only [List.dropWhile_cons]
    split
    · exact Nat.le_succ_of_le ih
    · exact Nat.le_refl _

@[simp] theorem length_spaces (n : Nat) : (spaces n).length = n := List.length_replicate

end AsmTidy.Text
