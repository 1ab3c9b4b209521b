import StyleTree.Context
import StyleTree.Proofs.Checked.Component

/-!
# The machine reads rules

Filter blocks, selector lists, declarations, at-rules and style sheets on the machine, and the
productions of the contexts.

Main definitions: `Machine.progidEnd`, `Machine.selector`, `Source.atrule`, `Source.stylesheet`,
`Machine.production`.
-/

namespace StyleTree

open StyleTree.Grammar (Scope)

namespace Machine

variable (p : Source)

/-! ## Filters -/

/-- Looks from the token `k` places ahead for one that is neither whitespace nor a comment. -/
def gapsEnd (m : Machine) (k : Nat) : Action Nat := do
  match m.tokens[m.position + k]? with
  | some token =>
    if token.kind = .whitespace ∨ token.kind = .comment then m |>.gapsEnd (k + 1)
    else return k
  | none => return k
partial_fixpoint

/-- Whether the token `k` places ahead has the given text. -/
def wordAt (k : Nat) (word : String) : Action Bool := do
  match ← lookup? k with
  | some token => spells p token word
  | none => return false

/-- Looks from the token `k` places ahead for the parenthesis that closes those that are open. -/
def closingAt (m : Machine) (k depth : Nat) : Action (Option Nat) := do
  match m.tokens[m.position + k]? with
  | none => return none
  | some token =>
    match token.kind with
    | .leftParen => m |>.closingAt (k + 1) (depth + 1)
    | .rightParen =>
      let depth ← minus depth 1
      if depth = 0 then return some (m.position + k) else m |>.closingAt (k + 1) depth
    | _ => m |>.closingAt (k + 1) depth
partial_fixpoint

/-- Looks for the parenthesis that opens a filter block. -/
def progidOpening : Action (Option Nat) := do
  let k ← (← get).gapsEnd 0
  if !((← wordAt p k "progid") && (← lookupKind (k + 1) .colon)) then return none
  else
    let k ← (← get).gapsEnd (k + 2)
    if !((← wordAt p k "dximagetransform") && (← lookupKind (k + 1) .fullStop) &&
        (← wordAt p (k + 2) "microsoft") && (← lookupKind (k + 3) .fullStop) &&
        (← lookupKind (k + 4) .ident)) then
      return none
    else
      let k ← (← get).gapsEnd (k + 5)
      if ← lookupKind k .leftParen then return some k else return none

/-- Looks for a filter block, and gives the index of the parenthesis that closes it. -/
def progidEnd : Action (Option Nat) := do
  match ← progidOpening p with
  | none => return none
  | some k => (← get).closingAt k 0

/-- Steps over the tokens before an index. -/
def stepTo (stop : Nat) : Action Unit :=
  repeatWhile (fun _ _ => do stepIf ((← position?) < stop) ()) ()

/-- Reads the filter block that the token at an index closes. -/
def progid (stop : Nat) : Action (Node SourceInfo) := do
  let outer ← info p
  skipGaps
  let inner ← info p
  let start ← offset p
  stepTo stop
  let close ← current?
  expect p .rightParen
  let text ← slice p start ((close.map Span.stop).getD start)
  skipGaps
  return .wrapper outer .progid (.leaf inner .raw text)

/-- Reads a filter block, if one follows. -/
def progidRound (nodes : List (Node SourceInfo)) (_ : Span) :
    Action (Option (List (Node SourceInfo))) := do
  match ← progidEnd p with
  | none => return none
  | some stop => return some (nodes ++ [← progid p stop])

/-- Reads filter blocks. -/
def progids : List (Node SourceInfo) → Action (List (Node SourceInfo)) :=
  repeatWhile (progidRound p)

/-- Reads a value made of filter blocks. -/
def filterValue : Action (Node SourceInfo) := do
  let info ← info p
  let nodes ← progids p []
  skipGaps
  let important ← if ← isAt .exclamationMark then importantFlag p else pure false
  return .sequence info (.value important) nodes

/-! ## Selector lists -/

/-- What has been read of a selector list. -/
structure Selectors where
  nodes : List (Node SourceInfo) := []
  /-- Whether an entry is missing or blank. -/
  malformed : Bool := false
  /-- Whether an entry is due. -/
  due : Bool := true

/-- Reads an entry of a selector list, or a comma. -/
def selectorRound (st : Selectors) (token : Span) : Action (Option Selectors) := do
  match token.kind with
  | .leftBrace => return none
  | .comma =>
    advance
    return some { st with malformed := st.malformed || st.due, due := true }
  | _ =>
    let node ← simpleSelector p false
    return some
      { nodes := st.nodes ++ [node], malformed := st.malformed || !st.due || node.children.isEmpty,
        due := false }

/-- Reads the entries of a selector list. -/
def selectors : Selectors → Action Selectors :=
  repeatWhile (selectorRound p)

/-- Reads a selector list. -/
def selector : Action (Node SourceInfo) := do
  let info ← info p
  let st ← selectors p {}
  if st.due || st.malformed then return .sequence info .selector []
  else return .sequence info .selector st.nodes

/-! ## Declarations -/

/-- Steps over slashes, asterisks and dollar signs. -/
def hacks : Action Unit :=
  repeatWhile (fun _ token => stepIf (token.kind ∈ [.solidus, .asterisk, .dollarSign]) ()) ()

/-- Reads a property name. -/
def property : Action (Node SourceInfo) := do
  let info ← info p
  let start ← offset p
  hacks
  let stop ← identEnd p true
  let name ← slice p start stop
  skipGaps
  return .leaf info .property name

/-- The lower case form of a byte that is an ASCII letter; other bytes stay. -/
def lowerByte (byte : UInt8) : UInt8 :=
  if 65 ≤ byte ∧ byte ≤ 90 then byte + 32 else byte

/-- Whether the last six bytes of a name spell `filter`, in any case. -/
def endsWithFilter (name : String) : Action Bool := do
  let bytes := name.toByteArray.data.toList
  if 6 ≤ bytes.length then
    let start ← minus bytes.length 6
    return (bytes.drop start).map lowerByte = "filter".toByteArray.data.toList
  else return false

/-- Whether a property is a filter. -/
def isFilter : Node SourceInfo → Action Bool
  | .leaf _ .property name => endsWithFilter name
  | _ => return false

/-- Reads the value of a property. -/
def declared (filter : Bool) : Action (Node SourceInfo) := do
  if filter then
    match ← progidEnd p with
    | some _ => filterValue p
    | none => value p false
  else value p false

/-- Reads a declaration. -/
def declaration : Action (Node SourceInfo) := do
  let info ← info p
  let name ← property p
  expect p .colon
  let node ← declared p (← isFilter name)
  return .pair info .declaration name node

/-- One round of declarations. -/
def declarationRound (nodes : List (Node SourceInfo)) (token : Span) :
    Action (Option (List (Node SourceInfo))) := do
  match token.kind with
  | .rightBrace => return none
  | .whitespace | .comment | .semicolon =>
    advance
    return some nodes
  | _ => return some (nodes ++ [← declaration p])

/-- Reads declarations. -/
def declarations : List (Node SourceInfo) → Action (List (Node SourceInfo)) :=
  repeatWhile (declarationRound p)

/-- Reads declarations without the braces around them. -/
def block : Action (Node SourceInfo) := do
  let info ← info p
  return .sequence info .block (← declarations p [])

/-- Reads declarations in braces. -/
def blockWithBrackets : Action (Node SourceInfo) := do
  let info ← info p
  expect p .leftBrace
  let nodes ← declarations p []
  expect p .rightBrace
  return .sequence info .block nodes

/-! ## Rules -/

/-- Reads a rule set. -/
def ruleset : Action (Node SourceInfo) := do
  let info ← info p
  let head ← selector p
  let body ← blockWithBrackets p
  return .pair info .ruleset head body

/-- One round of an at-rule expression. -/
def expressionRound (nodes : List (Node SourceInfo)) (token : Span) :
    Action (Option (List (Node SourceInfo))) := do
  match token.kind with
  | .semicolon | .leftBrace => return none
  | .whitespace =>
    if nodes.isEmpty then
      advance
      return some nodes
    else return some (nodes ++ [← space])
  | .comment =>
    advance
    return some nodes
  | .comma => return some (nodes ++ [← tokenLeaf p .operator])
  | .colon => return some (nodes ++ [← pseudo p])
  | .leftParen => return some (nodes ++ [← braces p .atruleExpression])
  | _ => return some (nodes ++ [← any p .atruleExpression])

/-- Reads the parts of an at-rule expression. -/
def expressionParts : List (Node SourceInfo) → Action (List (Node SourceInfo)) :=
  repeatWhile (expressionRound p)

/-- Reads an at-rule expression. -/
def atruleExpression : Action (Node SourceInfo) := do
  let info ← info p
  let nodes ← expressionParts p []
  return .sequence info .atruleExpression (trimSpaces nodes)

/-- Looks from the token `k` places ahead whether the body of an at-rule holds declarations. -/
def isBlockFrom (m : Machine) (k : Nat) : Action Bool := do
  match m.tokens[m.position + k]? with
  | none => return true
  | some token =>
    match token.kind with
    | .rightBrace => return true
    | .leftBrace | .commercialAt => return false
    | _ => m |>.isBlockFrom (k + 1)
partial_fixpoint

/-- Whether the body of an at-rule holds declarations. -/
def isBlock : Action Bool := do
  (← get).isBlockFrom 0

/-- The byte of the text at an offset. -/
def byteAt (offset : Nat) : Option UInt8 :=
  p.text.toByteArray.data.toList[offset]?

/-- Whether a comment is to be kept. -/
def keeps (token : Span) : Action Bool := do
  return byteAt p (← size (token.start + 2)) = some 33

/-- The text from the third byte on, or nothing if no character starts there. -/
def fromThird (text : String) : String :=
  if String.Pos.Raw.IsValid text ⟨2⟩ then String.ofList (Text.dropBytes 2 text.toList) else ""

/-- The text without the mark that closes a comment. -/
def withoutClosing (text : String) : String :=
  let chars := text.toList
  String.ofList (if "*/".toList.isSuffixOf chars then chars.take (chars.length - 2) else chars)

/-- Reads a comment. -/
def comment : Action (Node SourceInfo) := do
  let info ← info p
  let text ← currentText p
  advance
  return .leaf info .comment (withoutClosing (fromThird text))

end Machine

namespace Source

open Machine

mutual

/-- Reads a style sheet. -/
def stylesheet (p : Source) (nested : Bool) : Action (Node SourceInfo) := do
  let info ← info p
  return .sequence info .styleSheet (← p |>.rulesLoop nested [])
partial_fixpoint

/-- The rules of a style sheet. -/
def rulesLoop (p : Source) (nested : Bool) (nodes : List (Node SourceInfo)) :
    Action (List (Node SourceInfo)) := do
  match ← current? with
  | none => return nodes
  | some token =>
    let start ← position?
    match ← p |>.rulesRound nested nodes token with
    | none => return nodes
    | some nodes =>
      goOn start
      p |>.rulesLoop nested nodes
partial_fixpoint

/-- One round of a style sheet. -/
def rulesRound (p : Source) (nested : Bool) (nodes : List (Node SourceInfo)) (token : Span) :
    Action (Option (List (Node SourceInfo))) := do
  match token.kind with
  | .whitespace =>
    advance
    return some nodes
  | .comment =>
    if nested || !(← keeps p token) then
      advance
      return some nodes
    else return some (nodes ++ [← comment p])
  | .unknown => return some (nodes ++ [← tokenLeaf p .unknown])
  | .commercialAt => return some (nodes ++ [← p |>.atrule])
  | .rightBrace => if nested then return none else fail p "Unexpected right curly brace"
  | _ => return some (nodes ++ [← ruleset p])
partial_fixpoint

/-- Reads an at-rule. -/
def atrule (p : Source) : Action (Node SourceInfo) := do
  expect p .commercialAt
  let info ← info p
  let name ← readIdent p false
  let expression ← atruleExpression p
  let body ← p |>.atruleBody
  return .atrule info name (some expression) body
partial_fixpoint

/-- Reads the body of an at-rule, or the semicolon that ends a rule without body. -/
def atruleBody (p : Source) : Action (Option (Node SourceInfo)) := do
  match ← kind? with
  | none => return none
  | some .semicolon =>
    advance
    return none
  | some .leftBrace =>
    advance
    let node ← if ← isBlock then block p else p |>.stylesheet true
    expect p .rightBrace
    return some node
  | some _ => fail p "Unexpected input"
partial_fixpoint

end

end Source

namespace Machine

export Source (stylesheet rulesLoop rulesRound atrule atruleBody)

/-- The production of a context. -/
def production (p : Source) : Context → Action (Node SourceInfo)
  | .stylesheet => stylesheet p false
  | .atrule => atrule p
  | .atruleExpression => atruleExpression p
  | .ruleset => ruleset p
  | .selector => selector p
  | .simpleSelector => simpleSelector p false
  | .block => block p
  | .declaration => declaration p
  | .property => property p
  | .value => value p false

end Machine

end StyleTree
