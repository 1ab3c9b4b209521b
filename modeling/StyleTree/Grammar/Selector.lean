import StyleTree.Grammar.Component

/-!
# Selectors

A simple selector is a sequence of compound parts with combinators between them; a selector is a
list of simple selectors that commas separate. A list with a missing or blank entry is not an error:
its entries are discarded, and that is noted.

Main definitions: `simpleSelector`, `selector`.
-/

namespace StyleTree.Grammar
open StyleTree.Parser

/-! ## Attributes -/

/-- The operator of an attribute selector. -/
def attributeOperator : Parser String := do
  match ← kind? with
  | some .equals => take
  | some .tilde | some .circumflex | some .dollarSign | some .asterisk | some .verticalLine =>
    let first ← take
    expect .equals
    return first ++ "="
  | _ => fail .expectedAttributeOperator

/-- The operator and the value of an attribute selector, with the gaps after each. -/
def attributeTest : Parser (String × Tree) := do
  let sign ← attributeOperator
  skipGaps
  let node ← if ← isAt .string then tokenLeaf .string else identifier false
  skipGaps
  return (sign, node)

/-- The flags of an attribute selector, with the gaps after them. -/
def attributeFlags : Parser (Option String) := do
  if ← isAt .ident then
    let flags ← take
    skipGaps
    return some flags
  else return none

/-- An attribute selector: `[name]`, `[name op value]`, `[name op value flags]` or
`[name flags]`. -/
def attributeSelector : Parser Tree := do
  let info ← here
  expect .leftBracket
  skipGaps
  let name ← qualifiedName true
  skipGaps
  let test ←
    match ← kind? with
    | none | some .rightBracket | some .ident => pure none
    | some _ => pure (some (← attributeTest))
  let flags ← attributeFlags
  expect .rightBracket
  return .attributeSelector info name (test.map Prod.fst) (test.map Prod.snd) flags

/-! ## Pseudo-classes and pseudo-elements -/

/-- One of `odd`, `even`, `n`, a number, or a number with `n` right after it. -/
def nth : Parser Tree := do
  let info ← here
  match ← current? with
  | some token =>
    if token.kind = .number then
      let followed := (← lookup? 1).any fun next => next.kind = .ident && next.spells "n"
      return .leaf info .nth (← takeMany (if followed then 2 else 1))
    else if token.kind = .ident then
      if token.spells "n" || token.spells "odd" || token.spells "even" then
        return .leaf info .nth (← take)
      else fail .unexpectedIdentifier
    else fail .expectedNth
  | none => fail .expectedNth

/-- One part of the argument of `:nth-…(…)`. -/
def nthPart (token : Token) : Parser Item :=
  match token.kind with
  | .rightParen => stop
  | .whitespace | .comment => skip
  | .hyphenMinus | .plus => add operator
  | _ => add nth

/-- The pseudo-class `:nth-…(…)`, with one argument. -/
def nthSelector : Parser Tree := do
  let info ← here
  expect .colon
  let name ← readName false
  expect .leftParen
  let parts ← many nthPart
  expect .rightParen
  return .sequence info (.functionalPseudo name) [argument parts]

/-- A pseudo-element, `::name`. -/
def pseudoElement : Parser Tree := do
  let info ← here
  expect .colon
  expect .colon
  return .leaf info .pseudoElement (← readName false)

/-- A pseudo-class, `:name` or `:name(…)`. The position of the latter is that of the name. -/
def pseudoClass (inner : Nested) : Parser Tree := do
  let info ← here
  expect .colon
  let start ← here
  let name ← readName false
  if ← isAt .leftParen then function inner .selector start name
  else return .leaf info .pseudoClass name

/-- What a colon opens in a selector. -/
def pseudo (inner : Nested) : Parser Tree := do
  match ← lookup? 1 with
  | none =>
    advance
    fail .expectedColonOrIdentifier
  | some next =>
    if next.kind = .colon then pseudoElement
    else if next.kind = .ident && next.spells "nth" then nthSelector
    else pseudoClass inner

/-! ## Simple selectors -/

/-- A class, `.name`. -/
def classSelector : Parser Tree := do
  let info ← here
  expect .fullStop
  return .leaf info .classSelector (← readName false)

/-- An identity, `#name`. -/
def idSelector : Parser Tree := do
  let info ← here
  expect .numberSign
  return .leaf info .idSelector (← readName false)

/-- Whether the node is the combinator that whitespace stands for. -/
def isDescendant : Tree → Bool
  | .leaf _ .combinator name => name = " "
  | _ => false

/-- A combinator: whitespace, a sign or `/deep/`. -/
def combinator (token : Token) : Parser Tree := do
  let info ← here
  advance
  match token.kind with
  | .whitespace => return .leaf info .combinator " "
  | .solidus =>
    expectWord "deep"
    advance
    expect .solidus
    return .leaf info .combinator "/deep/"
  | _ => return .leaf info .combinator token.text

/-- A percentage, as in key frames, or a name with an optional namespace. -/
def percentageOrName : Parser Tree := do
  let tokens := (← get).rest
  match numberLength? tokens with
  | some count =>
    if tokens[count]?.map Token.kind = some .percentSign then
      let info ← here
      let number ← takeMany count
      advance
      return .leaf info .percentage number
    else qualifiedName false
  | none => qualifiedName false

/-- What has been read of a simple selector. -/
structure SelectorState where
  /-- A combinator that waits for the part after it. -/
  pending : Option Tree := none
  /-- Whether a part was read. -/
  started : Bool := false

/-- Whether a combinator other than whitespace waits for the part after it. -/
def SelectorState.isOpen (state : SelectorState) : Bool :=
  state.pending.any fun node => !isDescendant node

/-- One part of a simple selector. -/
def selectorPart (inner : Nested) (nested : Bool) (state : SelectorState) (token : Token) :
    Parser (Round SelectorState Tree) := do
  let part (read : Parser Tree) : Parser (Round SelectorState Tree) :=
    return .next (state.pending.toList ++ [← read]) { started := true }
  match token.kind with
  | .comma => return .stop
  | .leftBrace => if nested then fail .unexpectedInput else return .stop
  | .rightParen => if nested then return .stop else fail .unexpectedInput
  | .comment =>
    advance
    return .next [] state
  | .whitespace =>
    if state.pending.isNone && state.started then
      return .next [] { state with pending := some (← combinator token) }
    else
      advance
      return .next [] state
  | .plus | .greaterThan | .tilde | .solidus =>
    if state.isOpen then fail .unexpectedCombinator
    else return .next [] { state with pending := some (← combinator token) }
  | .fullStop => part classSelector
  | .leftBracket => part attributeSelector
  | .numberSign => part idSelector
  | .colon => part (pseudo inner)
  | .lowLine | .ident | .asterisk | .verticalLine => part (qualifiedName false)
  | .hyphenMinus | .number => part percentageOrName
  | _ => fail .unexpectedInput

/-- A simple selector, up to a comma or an opening brace; a nested one ends at a closing parenthesis
instead of a brace. -/
def simpleSelector (inner : Nested) (nested : Bool) : Parser Tree := do
  let info ← here
  let (parts, last) ← loop (selectorPart inner nested) {}
  if last.isOpen then fail .unexpectedCombinator
  else return .sequence info .simpleSelector parts

/-! ## Selector lists -/

/-- Notes that a selector list is discarded. -/
def noteDiscarded : Parser Unit := do
  let offset ← here
  modify fun state => { state with discarded := state.discarded ++ [offset] }

/-- A list of simple selectors, up to an opening brace. If an entry is missing or blank, all are
discarded. -/
def selector (inner : Nested) : Parser Tree := do
  let info ← here
  let (entries, missing) ←
    separated (fun token => token.kind = .leftBrace) (simpleSelector inner false) (pure ())
  if missing || entries.any fun entry => entry.children.isEmpty then
    noteDiscarded
    return .sequence info .selector []
  else
    return .sequence info .selector entries

/-! ## Nesting -/

/-- The readers of what stands inside at most `depth` brackets. -/
def Nested.upTo : Nat → Nested
  | 0 =>
    { component := fun _ => fail .stuck, brackets := fun _ => fail .stuck
      fallback := fail .stuck, negated := fail .stuck }
  | depth + 1 =>
    let inner := Nested.upTo depth
    { component := Grammar.component inner, brackets := Grammar.brackets inner
      fallback := Grammar.value inner true, negated := Grammar.simpleSelector inner true }

end StyleTree.Grammar
