/-!
# Character classes

Every character of a style sheet falls into one of five classes, and the class of a token's first
character decides how the token is read. Characters outside ASCII are identifier characters, so
the class of a character is also the class of each byte of its encoding.

Main definitions: `CharClass.ofChar`, and the predicates `isBlank`, `isNewline` and
`endsIdentifier` that the scanner reads runs with.
-/

namespace StyleTree

/-- The coarse category of a character. -/
inductive CharClass where
  | whitespace
  | identifier
  | number
  | string
  | punctuator
  deriving DecidableEq, Repr

namespace CharClass

/-- The class of a character. Control characters, the backslash, the low line, the grave accent,
the delete character and everything outside ASCII are identifier characters. -/
def ofChar : Char → CharClass
  | ' ' | '\t' | '\n' | '\r' | '\x0c' => .whitespace
  | '0' | '1' | '2' | '3' | '4' | '5' | '6' | '7' | '8' | '9' => .number
  | '"' | '\'' => .string
  | '!' | '#' | '$' | '%' | '&' | '(' | ')' | '*' | '+' | ',' | '-' | '.' | '/' | ':' | ';'
  | '<' | '=' | '>' | '?' | '@' | '[' | ']' | '^' | '\x7b' | '|' | '\x7d' | '~' => .punctuator
  | _ => .identifier

/-- The class of a byte of encoded text. Bytes of longer encodings are identifier bytes. -/
def ofByte (byte : UInt8) : CharClass :=
  ofChar (Char.ofNat byte.toNat)

/-- The name of the class. -/
def name : CharClass → String
  | .whitespace => "Whitespace"
  | .identifier => "Identifier"
  | .number => "Number"
  | .string => "String"
  | .punctuator => "Punctuator"

/-- Whether each character of this class is a token start of its own. -/
def standsAlone : CharClass → Bool
  | .string | .punctuator => true
  | _ => false

end CharClass

/-- Space, tab, line feed, carriage return and form feed. -/
def isBlank (c : Char) : Bool :=
  CharClass.ofChar c = .whitespace

/-- Line feed, carriage return and form feed. -/
def isNewline (c : Char) : Bool :=
  c = '\n' || c = '\r' || c = '\x0c'

/-- A decimal digit. -/
def isDecimal (c : Char) : Bool :=
  CharClass.ofChar c = .number

/-- A hexadecimal digit of either case. -/
def isHex (c : Char) : Bool :=
  ('0' ≤ c && c ≤ '9') || ('a' ≤ c && c ≤ 'f') || ('A' ≤ c && c ≤ 'F')

/-- A character that ends a run of identifier characters: blank, quote or punctuator. -/
def endsIdentifier (c : Char) : Bool :=
  match CharClass.ofChar c with
  | .identifier | .number => false
  | _ => true

end StyleTree
