import StyleTree.Grammar.Parser

/-!
# Names, numbers and other small parts

Hyphens and digits are tokens of their own, so a name or a number can span several tokens. This
module reads them, and the leaves that one token makes.

Main definitions: `readName`, `qualifiedName`, `readNumber?`, `readUnit`, `unicodeRange`.
-/

namespace StyleTree.Grammar
open StyleTree.Parser

/-- Whether the token can go on a name. -/
def isNamePart (token : Token) : Bool :=
  match token.kind with
  | .lowLine | .ident | .number | .hyphenMinus => true
  | _ => false

/-- Reads a name: a hyphen or nothing (two hyphens for a custom name), an identifier, then
identifiers, numbers and hyphens. -/
def readName (custom : Bool) : Parser String := do
  let hyphen ← takeIf .hyphenMinus
  let second ← if custom && hyphen ≠ "" then takeIf .hyphenMinus else pure ""
  match ← kind? with
  | some .lowLine | some .ident =>
    let first ← take
    let rest ← Parser.takeWhile isNamePart
    return hyphen ++ second ++ first ++ rest
  | _ => fail (.expected .ident)

/-- A name as an identifier node. -/
def identifier (custom : Bool) : Parser Tree := do
  let info ← here
  return .leaf info .identifier (← readName custom)

/-- A name with an optional namespace: `ns|name`, `*|name`, `|name`, `*` or a plain name. With
`colon`, a `:name` after it belongs to it. -/
def qualifiedName (colon : Bool) : Parser Tree := do
  match ← current? with
  | none => fail .unexpectedEnd
  | some first =>
    let info ← here
    let opensWithBar := first.kind = .verticalLine && !(← lookupKind 1 .equals)
    let base ←
      if first.kind = .asterisk then take
      else if opensWithBar then pure ""
      else readName false
    let colon := colon && first.kind ≠ .asterisk
    let (tail, colon) ←
      if (← isAt .verticalLine) && !(← lookupKind 1 .equals) then
        let bar ← take
        match ← kind? with
        | some .hyphenMinus | some .ident | some .lowLine =>
          pure (bar ++ (← readName false), colon)
        | some .asterisk => pure (bar ++ (← take), false)
        | _ => pure (bar, colon)
      else pure ("", colon)
    let suffix ←
      if colon && (← isAt .colon) then
        let sign ← take
        pure (sign ++ (← readName false))
      else pure ""
    return .leaf info .identifier (base ++ tail ++ suffix)

/-- The length of a run of at most one token of the given kind. -/
def countIf (kind : TokenKind) (tokens : List Token) : Nat :=
  if tokens.head?.map Token.kind = some kind then 1 else 0

/-- The number of tokens that make up a number: a hyphen, digits, a full stop and digits, each
optional, but with digits in at least one place. -/
def numberLength? (tokens : List Token) : Option Nat :=
  let sign := countIf .hyphenMinus tokens
  let whole := sign + countIf .number (tokens.drop sign)
  let point := whole + countIf .fullStop (tokens.drop whole)
  let all := point + countIf .number (tokens.drop point)
  if sign = whole && point = all then none else some all

/-- Reads a number, if one stands here. -/
def readNumber? : Parser (Option String) := do
  match numberLength? (← get).rest with
  | none => return none
  | some count => return some (← takeMany count)

/-- A leaf of the given kind that holds the text of the current token. -/
def tokenLeaf (kind : LeafKind) : Parser Tree := do
  let info ← here
  return .leaf info kind (← take)

/-- An operator. -/
def operator : Parser Tree :=
  tokenLeaf .operator

/-- A space. It has no position. -/
def space : Parser Tree := do
  advance
  return .space none

/-- The nodes without the spaces at their end. -/
def dropTrailingSpaces (nodes : List Tree) : List Tree :=
  (nodes.reverse.dropWhile Node.isSpace).reverse

/-- Reads the unit of a dimension. A unit ends before an escape that is not at its start (as in
`px\9`): the rest of the token is left to be read as an identifier. -/
def readUnit (token : Token) : Parser String := do
  let (unit, escape) := token.text.toList.span (· ≠ '\\')
  if unit.isEmpty || escape.isEmpty then take
  else
    let suffix : Token :=
      { token with text := String.ofList escape, start := token.start + Text.byteLength unit }
    modify fun state => { state with rest := suffix :: state.rest.tail }
    return String.ofList unit

/-- A number sign with a name token or digits after it, as in `#fff` or `#3ee`. -/
def hash : Parser Tree := do
  let info ← here
  expect .numberSign
  match ← kind? with
  | some .number =>
    let digits ← take
    return .leaf info .hash (digits ++ (← takeIf .ident))
  | some .ident => return .leaf info .hash (← take)
  | _ => fail .expectedNumberOrIdentifier

/-- Whether the token can hold hexadecimal digits. -/
def isHexPart (token : Token) : Bool :=
  token.kind = .number || token.kind = .ident

/-- Reads one to six hexadecimal digits. -/
def hexDigits : Parser String := do
  let digits ← Parser.takeWhile isHexPart
  let length := Text.byteLength digits.toList
  if length = 0 || 6 < length || !digits.toList.all isHex then fail .unexpectedInput
  else return digits

/-- A range of characters such as `U+0025`, `U+0-7F` or `u+4??`, as one identifier. Question marks
fill the digits up to six; a range has no question marks. -/
def unicodeRange : Parser Tree := do
  let info ← here
  let sign ← takeMany 2
  let first ← hexDigits
  let room := 6 - Text.byteLength first.toList
  let marks := ((← get).rest.take room).takeWhile fun token => token.kind = .questionMark
  let wildcards ← takeMany marks.length
  let last ←
    if marks.isEmpty && (← isAt .hyphenMinus) then
      let hyphen ← take
      pure (hyphen ++ (← hexDigits))
    else pure ""
  return .leaf info .identifier (sign ++ first ++ wildcards ++ last)

end StyleTree.Grammar
