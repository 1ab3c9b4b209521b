import StyleTree.Grammar.Name

/-!
# Component values

Values, at-rule expressions and the arguments of functional pseudo-classes are built from the same
components: strings, numbers, names, functions and brackets. Which functions have a grammar of
their own depends on the `Scope`.

Components nest inside brackets. A production takes the readers of what stands one bracket deeper
as a record `Nested`, so each production is a plain definition; the record for a given depth is
built elsewhere from the productions themselves.

Main definitions: `component`, `brackets`, `function`, `value`.
-/

namespace StyleTree.Grammar
open StyleTree.Parser

/-- The part of the grammar that components stand in. -/
inductive Scope where
  | atruleExpression
  | selector
  | value
  deriving DecidableEq, Repr

/-- The functions whose arguments have a grammar of their own. -/
inductive SpecialFunction where
  | url
  | negation
  | script
  | variable
  deriving DecidableEq, Repr

/-- The special function of a name, in the scopes that know it. -/
def Scope.special? (scope : Scope) (name : String) : Option SpecialFunction :=
  if Text.sameLetters name "url" then some .url
  else if Text.sameLetters name "not" && scope = .selector then some .negation
  else if Text.sameLetters name "expression" && scope = .value then some .script
  else if Text.sameLetters name "var" && scope = .value then some .variable
  else none

/-- The readers of what stands inside a bracket. -/
structure Nested where
  /-- A component. -/
  component : Scope → Parser Tree
  /-- A bracketed sequence. -/
  brackets : Scope → Parser Tree
  /-- The value after the comma of `var(--name, …)`. -/
  fallback : Parser Tree
  /-- An entry of `:not(…)`. -/
  negated : Parser Tree

/-- An argument. It has no position. -/
def argument (nodes : List Tree) : Tree :=
  .sequence none .argument nodes

/-! ## Functions -/

/-- The function `url("…")`, or `url(…)` with the text up to a blank or parenthesis as it
stands. -/
def urlFunction (info : Option Nat) : Parser Tree := do
  expect .leftParen
  skipGaps
  let inner ←
    if ← isAt .string then tokenLeaf .string
    else
      let start ← here
      let text ← Parser.takeWhile fun token =>
        token.kind ≠ .whitespace && token.kind ≠ .leftParen && token.kind ≠ .rightParen
      pure (.leaf start .raw text)
  skipGaps
  expect .rightParen
  return .wrapper info .url inner

/-- The negation `:not(…)` with one or more simple selectors. -/
def negation (inner : Nested) (info : Option Nat) : Parser Tree := do
  expect .leftParen
  let entry : Parser Tree := do
    match ← kind? with
    | some .rightParen | some .comma => fail .expectedSimpleSelector
    | _ => inner.negated
  let (entries, _) ← separated (fun _ => false) entry (pure ())
  expect .rightParen
  return .sequence info .negation entries

/-- The number of tokens before the parenthesis that closes `depth + 1` open ones, or before the
end of input. -/
def balancedLength : Nat → List Token → Nat
  | _, [] => 0
  | depth, token :: tokens =>
    match token.kind, depth with
    | .rightParen, 0 => 0
    | .rightParen, depth + 1 => balancedLength depth tokens + 1
    | .leftParen, depth => balancedLength (depth + 1) tokens + 1
    | _, depth => balancedLength depth tokens + 1

/-- The function `expression(…)`: a script, kept as it stands up to the closing parenthesis. -/
def scriptFunction (info : Option Nat) (name : String) : Parser Tree := do
  expect .leftParen
  let text ← takeMany (balancedLength 0 (← get).rest)
  expect .rightParen
  return .sequence info (.function name) [argument [.leaf none .raw text]]

/-- The function `var(--name)`, or `var(--name, …)` with a whole value after the comma. -/
def variableFunction (inner : Nested) (info : Option Nat) (name : String) : Parser Tree := do
  expect .leftParen
  skipGaps
  let variableName ← identifier true
  skipGaps
  let fallback ←
    if ← isAt .comma then
      advance
      skipGaps
      let node ← inner.fallback
      skipGaps
      pure [argument [node]]
    else pure []
  expect .rightParen
  return .sequence info (.function name) (argument [variableName] :: fallback)

/-- One part of an argument. -/
def argumentPart (inner : Nested) (scope : Scope) (token : Token) : Parser Item :=
  match token.kind with
  | .comma | .rightParen => stop
  | .whitespace => add space
  | .comment => skip
  | .numberSign => add hash
  | .leftParen | .leftBracket => add (inner.brackets scope)
  | .solidus | .asterisk | .colon | .equals => add operator
  | _ => add (inner.component scope)

/-- One argument, which must not be empty. -/
def argumentOf (inner : Nested) (scope : Scope) : Parser Tree := do
  match ← many (argumentPart inner scope) with
  | [] => fail .unexpectedInput
  | parts => return argument (dropTrailingSpaces parts)

/-- Arguments between parentheses: none at all, or one or more that commas separate. -/
def arguments (inner : Nested) (scope : Scope) : Parser (List Tree) := do
  expect .leftParen
  skipGaps
  let nodes ←
    if ← isAt .rightParen then pure []
    else pure (← separated (fun _ => false) (argumentOf inner scope) skipGaps).1
  expect .rightParen
  return nodes

/-- A function whose name is read already. -/
def function (inner : Nested) (scope : Scope) (info : Option Nat) (name : String) :
    Parser Tree := do
  match scope.special? name with
  | some .url => urlFunction info
  | some .negation => negation inner info
  | some .script => scriptFunction info name
  | some .variable => variableFunction inner info name
  | none =>
    let nodes ← arguments inner scope
    match scope with
    | .selector => return .sequence info (.functionalPseudo name) nodes
    | .atruleExpression | .value => return .sequence info (.function name) nodes

/-! ## Components -/

/-- A function or a plain identifier. -/
def named (inner : Nested) (scope : Scope) : Parser Tree := do
  let info ← here
  let name ← readName false
  if ← isAt .leftParen then function inner scope info name
  else return .leaf info .identifier name

/-- A number that is read already, with the percent sign or unit after it. -/
def measured (info : Option Nat) (number : String) : Parser Tree := do
  match ← current? with
  | some token =>
    if token.kind = .percentSign then
      advance
      return .leaf info .percentage number
    else if token.kind = .ident then
      return .dimension info number (← readUnit token)
    else
      return .leaf info .number number
  | none => return .leaf info .number number

/-- A string, a number with or without unit, a sign, an identifier or a function. -/
def component (inner : Nested) (scope : Scope) : Parser Tree := do
  match ← kind? with
  | some .string => tokenLeaf .string
  | some .lowLine | some .ident => named inner scope
  | some .fullStop | some .number | some .hyphenMinus | some .plus =>
    let info ← here
    match ← readNumber? with
    | some number => measured info number
    | none =>
      let nameFollows := (← lookupKind 1 .ident) || (← lookupKind 1 .hyphenMinus)
      match ← kind? with
      | some .hyphenMinus => if nameFollows then named inner scope else operator
      | some .plus => operator
      | _ => fail .unexpectedInput
  | _ => fail .unexpectedInput

/-- One part of a bracketed sequence that ends at `closing`. -/
def bracketPart (inner : Nested) (scope : Scope) (closing : TokenKind) (token : Token) :
    Parser Item :=
  if token.kind = closing then stop
  else
    match token.kind with
    | .whitespace => add space
    | .comment => skip
    | .numberSign => add hash
    | .leftParen | .leftBracket => add (inner.brackets scope)
    | .solidus | .asterisk | .comma | .colon => add operator
    | _ => add (inner.component scope)

/-- A sequence in round or square brackets. -/
def brackets (inner : Nested) (scope : Scope) : Parser Tree := do
  let info ← here
  let round ← isAt .leftParen
  let closing := if round then .rightParen else .rightBracket
  advance
  skipGaps
  let parts ← many (bracketPart inner scope closing)
  expect closing
  let kind := if round then .braces '(' ')' else .braces '[' ']'
  return .sequence info kind (dropTrailingSpaces parts)

/-! ## Values -/

/-- The flag `!important`, with whitespace and comments allowed after the exclamation mark. -/
def importantFlag : Parser Unit := do
  expect .exclamationMark
  skipGaps
  expectWord "important"
  discard (readName false)

/-- One part of a value. The state says whether `!important` was read. -/
def valuePart (inner : Nested) (nested important : Bool) (token : Token) :
    Parser (Round Bool Tree) := do
  let part (read : Parser Tree) : Parser (Round Bool Tree) := return .next [← read] important
  match token.kind with
  | .rightBrace | .semicolon => return .stop
  | .rightParen => if nested then return .stop else fail .unexpectedInput
  | .whitespace => part space
  | .comment =>
    advance
    return .next [] important
  | .numberSign => part hash
  | .solidus | .comma => part operator
  | .leftParen | .leftBracket => part (brackets inner .value)
  | .exclamationMark =>
    importantFlag
    return .next [] true
  | .ident =>
    if token.spells "u" && (← lookupKind 1 .plus) then part unicodeRange
    else part (component inner .value)
  | _ => part (component inner .value)

/-- The value of a declaration, up to a semicolon or a closing brace; a nested one ends at a
closing parenthesis too. -/
def value (inner : Nested) (nested : Bool) : Parser Tree := do
  let info ← here
  skipGaps
  let (parts, important) ← loop (valuePart inner nested) false
  return .sequence info (.value important) (dropTrailingSpaces parts)

end StyleTree.Grammar
