import StyleTree.Text.Unprintable

/-!
# Quoted text

A quoted text stands between two quotes on one line. The quote and the backslash are written after
a backslash, a few controls by a letter, and every other character without a visible form by its
number. Nothing else changes, so the quoted form determines the text.

Main definitions: `quote`, `quoteChar`.
-/

namespace StyleTree.Text

/-- The hexadecimal digits of a number. -/
def hexNumeral (n : Nat) : List Char :=
  Nat.toDigits 16 n

/-- The form of a character between quotes. -/
def escapeChar (quoteMark c : Char) : List Char :=
  if c = quoteMark || c = '\\' then ['\\', c]
  else if c = '\n' then ['\\', 'n']
  else if c = '\r' then ['\\', 'r']
  else if c = '\t' then ['\\', 't']
  else if c = '\x00' then ['\\', '0']
  else if isUnprintable c then ['\\', 'u', '\x7b'] ++ hexNumeral c.toNat ++ ['\x7d']
  else [c]

/-- The characters between two quotes. -/
def quoteWith (quoteMark : Char) (cs : List Char) : String :=
  String.ofList ([quoteMark] ++ cs.flatMap (escapeChar quoteMark) ++ [quoteMark])

/-- The text in double quotes. -/
def quote (text : String) : String :=
  quoteWith '"' text.toList

/-- The character in single quotes. -/
def quoteChar (c : Char) : String :=
  quoteWith '\'' [c]

end StyleTree.Text
