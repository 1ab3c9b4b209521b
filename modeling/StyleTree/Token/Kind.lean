/-!
# Token kinds

A token is a run of blanks, an identifier, a run of digits, a quoted string, a comment, a line
that belongs to no rule, or a single punctuator.

Main definitions: `TokenKind`, its character `TokenKind.char?` and the inverse
`TokenKind.ofChar?`, and `TokenKind.describe`, the wording of "… is expected" messages.
-/

namespace StyleTree

/-- The kinds of tokens. Quotes and the low line have a kind though the scanner never yields it:
a quote opens a string and a low line belongs to an identifier. -/
inductive TokenKind where
  | whitespace
  | ident
  | number
  | string
  | comment
  | unknown
  | exclamationMark
  | quotationMark
  | numberSign
  | dollarSign
  | percentSign
  | ampersand
  | apostrophe
  | leftParen
  | rightParen
  | asterisk
  | plus
  | comma
  | hyphenMinus
  | fullStop
  | solidus
  | colon
  | semicolon
  | lessThan
  | equals
  | greaterThan
  | questionMark
  | commercialAt
  | leftBracket
  | rightBracket
  | circumflex
  | lowLine
  | leftBrace
  | verticalLine
  | rightBrace
  | tilde
  deriving DecidableEq, Repr, Inhabited

namespace TokenKind

/-- All kinds, in the order of their codes. -/
def all : List TokenKind :=
  [.whitespace, .ident, .number, .string, .comment, .unknown, .exclamationMark, .quotationMark,
    .numberSign, .dollarSign, .percentSign, .ampersand, .apostrophe, .leftParen, .rightParen,
    .asterisk, .plus, .comma, .hyphenMinus, .fullStop, .solidus, .colon, .semicolon, .lessThan,
    .equals, .greaterThan, .questionMark, .commercialAt, .leftBracket, .rightBracket, .circumflex,
    .lowLine, .leftBrace, .verticalLine, .rightBrace, .tilde]

/-- The character of a punctuator, `none` for the other kinds. -/
def char? : TokenKind → Option Char
  | .whitespace | .ident | .number | .string | .comment | .unknown => none
  | .exclamationMark => some '!'
  | .quotationMark => some '"'
  | .numberSign => some '#'
  | .dollarSign => some '$'
  | .percentSign => some '%'
  | .ampersand => some '&'
  | .apostrophe => some '\''
  | .leftParen => some '('
  | .rightParen => some ')'
  | .asterisk => some '*'
  | .plus => some '+'
  | .comma => some ','
  | .hyphenMinus => some '-'
  | .fullStop => some '.'
  | .solidus => some '/'
  | .colon => some ':'
  | .semicolon => some ';'
  | .lessThan => some '<'
  | .equals => some '='
  | .greaterThan => some '>'
  | .questionMark => some '?'
  | .commercialAt => some '@'
  | .leftBracket => some '['
  | .rightBracket => some ']'
  | .circumflex => some '^'
  | .lowLine => some '_'
  | .leftBrace => some '\x7b'
  | .verticalLine => some '|'
  | .rightBrace => some '\x7d'
  | .tilde => some '~'

/-- The kind of a punctuator character. -/
def ofChar? : Char → Option TokenKind
  | '!' => some .exclamationMark
  | '"' => some .quotationMark
  | '#' => some .numberSign
  | '$' => some .dollarSign
  | '%' => some .percentSign
  | '&' => some .ampersand
  | '\'' => some .apostrophe
  | '(' => some .leftParen
  | ')' => some .rightParen
  | '*' => some .asterisk
  | '+' => some .plus
  | ',' => some .comma
  | '-' => some .hyphenMinus
  | '.' => some .fullStop
  | '/' => some .solidus
  | ':' => some .colon
  | ';' => some .semicolon
  | '<' => some .lessThan
  | '=' => some .equals
  | '>' => some .greaterThan
  | '?' => some .questionMark
  | '@' => some .commercialAt
  | '[' => some .leftBracket
  | ']' => some .rightBracket
  | '^' => some .circumflex
  | '_' => some .lowLine
  | '\x7b' => some .leftBrace
  | '|' => some .verticalLine
  | '\x7d' => some .rightBrace
  | '~' => some .tilde
  | _ => none

/-- Whether the kind is a single character. -/
def isPunctuator (kind : TokenKind) : Bool :=
  kind.char?.isSome

/-- The name of the kind. -/
def name : TokenKind → String
  | .whitespace => "WHITESPACE"
  | .ident => "IDENT"
  | .number => "NUMBER"
  | .string => "STRING"
  | .comment => "COMMENT"
  | .unknown => "UNKNOWN"
  | .exclamationMark => "EXCLAMATION_MARK"
  | .quotationMark => "QUOTATION_MARK"
  | .numberSign => "NUMBER_SIGN"
  | .dollarSign => "DOLLAR_SIGN"
  | .percentSign => "PERCENT_SIGN"
  | .ampersand => "AMPERSAND"
  | .apostrophe => "APOSTROPHE"
  | .leftParen => "LEFT_PAREN"
  | .rightParen => "RIGHT_PAREN"
  | .asterisk => "ASTERISK"
  | .plus => "PLUS"
  | .comma => "COMMA"
  | .hyphenMinus => "HYPHEN_MINUS"
  | .fullStop => "FULL_STOP"
  | .solidus => "SOLIDUS"
  | .colon => "COLON"
  | .semicolon => "SEMICOLON"
  | .lessThan => "LESS_THAN"
  | .equals => "EQUALS"
  | .greaterThan => "GREATER_THAN"
  | .questionMark => "QUESTION_MARK"
  | .commercialAt => "COMMERCIAL_AT"
  | .leftBracket => "LEFT_BRACKET"
  | .rightBracket => "RIGHT_BRACKET"
  | .circumflex => "CIRCUMFLEX"
  | .lowLine => "LOW_LINE"
  | .leftBrace => "LEFT_BRACE"
  | .verticalLine => "VERTICAL_LINE"
  | .rightBrace => "RIGHT_BRACE"
  | .tilde => "TILDE"

/-- The kind of the given name. -/
def ofName? (name : String) : Option TokenKind :=
  all.find? fun kind => kind.name = name

/-- The number of the kind: the character code of a punctuator, below 7 otherwise. -/
def code : TokenKind → Nat
  | .whitespace => 1
  | .ident => 2
  | .number => 3
  | .string => 4
  | .comment => 5
  | .unknown => 6
  | kind => (kind.char?.map Char.toNat).getD 0

/-- The wording of the kind in a message: a punctuator stands between grave accents. -/
def describe : TokenKind → String
  | .whitespace => "Whitespace"
  | .ident => "Identifier"
  | .number => "Number"
  | .string => "String"
  | .comment => "Comment"
  | .unknown => "Unknown"
  | kind => "`" ++ String.ofList kind.char?.toList ++ "`"

end TokenKind
end StyleTree
