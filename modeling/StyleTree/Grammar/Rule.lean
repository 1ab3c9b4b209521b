import StyleTree.Grammar.Filter
import StyleTree.Grammar.Selector

/-!
# Declarations and rules

Blocks of declarations, rule sets, at-rules and style sheets. The body of an at-rule holds
declarations when its closing brace comes before any opening brace or at-sign, and rules otherwise;
so style sheets nest in at-rules.

Main definitions: `declarations`, `ruleset`, `atrule`, `styleSheet`.
-/

namespace StyleTree.Grammar
open StyleTree.Parser

/-! ## Declarations -/

/-- A property name. Slashes, asterisks and dollar signs may stand before it. -/
def property : Parser Tree := do
  let info ← here
  let marks ← Parser.takeWhile fun token =>
    token.kind = .solidus || token.kind = .asterisk || token.kind = .dollarSign
  let name ← readName true
  skipGaps
  return .leaf info .property (marks ++ name)

/-- Whether a property node is a filter: its name ends in `filter`, in any case. -/
def isFilter : Tree → Bool
  | .leaf _ .property name =>
    let letters := name.toList.map Text.lowerChar
    "filter".toList.isSuffixOf letters
  | _ => false

/-- A property and its value. -/
def declaration (inner : Nested) : Parser Tree := do
  let info ← here
  let name ← property
  expect .colon
  let filtered := isFilter name && (nextProgid? (← get).rest).isSome
  let node ← if filtered then filterValue else value inner false
  return .pair info .declaration name node

/-- One round of a list of declarations. -/
def declarationPart (inner : Nested) (token : Token) : Parser Item :=
  match token.kind with
  | .rightBrace => stop
  | .whitespace | .comment | .semicolon => skip
  | _ => add (declaration inner)

/-- Declarations up to a closing brace, which is not read, or the end of input. -/
def declarations (inner : Nested) : Parser (List Tree) :=
  many (declarationPart inner)

/-- Declarations without the braces around them. -/
def block (inner : Nested) : Parser Tree := do
  let info ← here
  return .sequence info .block (← declarations inner)

/-- Declarations in braces. -/
def bracedBlock (inner : Nested) : Parser Tree := do
  let info ← here
  expect .leftBrace
  let nodes ← declarations inner
  expect .rightBrace
  return .sequence info .block nodes

/-! ## Rules -/

/-- A selector and its block. -/
def ruleset (inner : Nested) : Parser Tree := do
  let info ← here
  let head ← selector inner
  let body ← bracedBlock inner
  return .pair info .ruleset head body

/-- One part of an at-rule expression. The state says whether a part was read. -/
def expressionPart (inner : Nested) (started : Bool) (token : Token) :
    Parser (Round Bool Tree) := do
  let part (read : Parser Tree) : Parser (Round Bool Tree) := return .next [← read] true
  match token.kind with
  | .semicolon | .leftBrace => return .stop
  | .whitespace =>
    if started then part space
    else
      advance
      return .next [] started
  | .comment =>
    advance
    return .next [] started
  | .comma => part operator
  | .colon => part (pseudo inner)
  | .leftParen => part (brackets inner .atruleExpression)
  | _ => part (component inner .atruleExpression)

/-- What stands between the name of an at-rule and its body or semicolon. -/
def atruleExpression (inner : Nested) : Parser Tree := do
  let info ← here
  let (parts, _) ← loop (expressionPart inner) false
  return .sequence info .atruleExpression (dropTrailingSpaces parts)

/-- Whether the body of an at-rule holds declarations. -/
def holdsDeclarations : List Token → Bool
  | [] => true
  | token :: tokens =>
    match token.kind with
    | .rightBrace => true
    | .leftBrace | .commercialAt => false
    | _ => holdsDeclarations tokens

/-- The body of an at-rule, from its opening brace, or the semicolon that ends a rule without body;
`sheet` reads a body of rules. -/
def atruleBody (inner : Nested) (sheet : Parser Tree) : Parser (Option Tree) := do
  match ← kind? with
  | none => return none
  | some .semicolon =>
    advance
    return none
  | some .leftBrace =>
    advance
    let node ← if holdsDeclarations (← get).rest then block inner else sheet
    expect .rightBrace
    return some node
  | some _ => fail .unexpectedInput

/-- An at-rule. Its position is that of its name. -/
def atrule (inner : Nested) (sheet : Parser Tree) : Parser Tree := do
  expect .commercialAt
  let info ← here
  let name ← readName false
  let expression ← atruleExpression inner
  let body ← atruleBody inner sheet
  return .atrule info name (some expression) body

/-- Whether a comment is to be kept: an exclamation mark opens its text. -/
def isKept (token : Token) : Bool :=
  token.text.toList[2]? = some '!'

/-- The text of a comment between its marks. -/
def commentText (text : String) : String :=
  let body := text.toList.drop 2
  String.ofList (if "*/".toList.isSuffixOf body then body.take (body.length - 2) else body)

/-- A comment. -/
def comment (token : Token) : Parser Tree := do
  let info ← here
  advance
  return .leaf info .comment (commentText token.text)

/-- One rule of a style sheet. Comments count only outside of at-rules. -/
def rulePart (inner : Nested) (sheet : Parser Tree) (nested : Bool) (token : Token) :
    Parser Item :=
  match token.kind with
  | .whitespace => skip
  | .comment => if nested || !isKept token then skip else add (comment token)
  | .unknown => add (tokenLeaf .unknown)
  | .commercialAt => add (atrule inner sheet)
  | .rightBrace => if nested then stop else fail .unexpectedRightBrace
  | _ => add (ruleset inner)

/-- Rules up to the end of input; a nested style sheet ends at a closing brace too. -/
def styleSheet (inner : Nested) (sheet : Parser Tree) (nested : Bool) : Parser Tree := do
  let info ← here
  return .sequence info .styleSheet (← many (rulePart inner sheet nested))

/-- The rules in the body of an at-rule, for at-rules nested at most `depth` deep. -/
def nestedSheet (inner : Nested) : Nat → Parser Tree
  | 0 => fail .stuck
  | depth + 1 => styleSheet inner (nestedSheet inner depth) true

end StyleTree.Grammar
