import AsmTidy.Text.Printable

/-!
# Quoted text

How a text, such as a file name, is quoted inside a message.

The text stands between single quotes, or between double quotes if it holds a single quote
and no double quote. Inside, the quote character and the backslash are preceded by a
backslash; tab, line feed and carriage return are written `\t`, `\n` and `\r`; other
control characters, and characters that are not printable, are written as hexadecimal
escapes: `\x` with two digits up to U+00FF, `\u` with four up to U+FFFF, and `\U` with eight
beyond.
-/

namespace AsmTidy.Text

/-- The lower-case hexadecimal digits of `n`, padded with zeros to `width`. -/
def hexDigits (width n : Nat) : List Char :=
  let ds := Nat.toDigits 16 n
  List.replicate (width - ds.length) '0' ++ ds

/-- How one character is written inside quotes `q`. -/
def escapeChar (q : Char) (c : Char) : List Char :=
  let n := c.toNat
  if c == q || c == '\\' then ['\\', c]
  else if c == '\t' then ['\\', 't']
  else if c == '\n' then ['\\', 'n']
  else if c == '\r' then ['\\', 'r']
  else if n < 0x20 || n == 0x7F then '\\' :: 'x' :: hexDigits 2 n
  else if n < 0x7F || isPrintable c then [c]
  else if n ≤ 0xFF then '\\' :: 'x' :: hexDigits 2 n
  else if n ≤ 0xFFFF then '\\' :: 'u' :: hexDigits 4 n
  else '\\' :: 'U' :: hexDigits 8 n

/-- Quote a text. -/
def quote (cs : List Char) : List Char :=
  let q := if cs.contains '\'' && !cs.contains '"' then '"' else '\''
  q :: cs.flatMap (escapeChar q) ++ [q]

end AsmTidy.Text
