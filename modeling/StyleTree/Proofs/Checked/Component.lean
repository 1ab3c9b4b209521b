import StyleTree.Proofs.Checked.Machine

/-!
# The machine reads components

Names, numbers, functions, brackets and values on the machine. Texts are cut out of the source
between two offsets: where a production starts, and where the last token of the text ends or what
the lengths of its parts add up to.

Main definitions: `Machine.identEnd`, `Machine.unit`, `Machine.unicodeRange`, `Source.any`,
`Source.value`.
-/

namespace StyleTree

open StyleTree.Grammar (Scope)

namespace Machine

variable (p : Source)

/-! ## Names and numbers -/

/-- Whether a token of this kind can go on a name. -/
def isNameKind : TokenKind → Bool
  | .lowLine | .ident | .number | .hyphenMinus => true
  | _ => false

/-- Steps over the hyphen before a name, or two of them before a custom name. -/
def hyphens (custom : Bool) : Action Unit := do
  if ← isAt .hyphenMinus then
    advance
    if custom && (← isAt .hyphenMinus) then advance

/-- Steps over a name without hyphens in front, and gives the offset where it ends. -/
def stemEnd : Action Nat := do
  let first ← expectAny p "Identifier" [.lowLine, .ident]
  advance
  endWhile isNameKind first.stop

/-- Steps over a name, and gives the offset where it ends. -/
def identEnd (custom : Bool) : Action Nat := do
  hyphens custom
  stemEnd p

/-- Reads a name. -/
def readIdent (custom : Bool) : Action String := do
  let start ← offset p
  let stop ← identEnd p custom
  slice p start stop

/-- Reads a name as an identifier. -/
def identifier (custom : Bool) : Action (Node SourceInfo) := do
  let info ← info p
  return .leaf info .identifier (← readIdent p custom)

/-- Steps over the namespace of a name, or over the name, and gives the offset where it ends. -/
def namespaceEnd (first : Span) : Action Nat := do
  if first.kind = .asterisk then
    advance
    return first.stop
  else if first.kind = .verticalLine && !(← lookupKind 1 .equals) then return first.start
  else identEnd p false

/-- Steps over what follows the bar of a namespace. Gives the offset where it ends, and whether a
colon can go on the name. -/
def localEnd (stop : Nat) (colon : Bool) : Action (Nat × Bool) := do
  match ← current? with
  | some token =>
    if token.kind ∈ [.hyphenMinus, .ident, .lowLine] then return (← identEnd p false, colon)
    else if token.kind = .asterisk then
      advance
      return (token.stop, false)
    else return (stop, colon)
  | none => return (stop, colon)

/-- Steps over a bar and what follows it, if one stands here. -/
def barEnd (stop : Nat) (colon : Bool) : Action (Nat × Bool) := do
  if (← isAt .verticalLine) && !(← lookupKind 1 .equals) then
    let stop ← size ((← offset p) + 1)
    advance
    localEnd p stop colon
  else return (stop, colon)

/-- Steps over a colon and the name after it, if one stands here and may. -/
def colonEnd (stop : Nat) (colon : Bool) : Action Nat := do
  if colon && (← isAt .colon) then
    advance
    identEnd p false
  else return stop

/-- Reads a name with an optional namespace. -/
def namespacedIdentifier (colon : Bool) : Action (Node SourceInfo) := do
  match ← current? with
  | none => fail p "Unexpected end of input"
  | some first =>
    let info ← info p
    let stop ← namespaceEnd p first
    let ending ← barEnd p stop (colon && first.kind ≠ .asterisk)
    let stop ← colonEnd p ending.1 ending.2
    return .leaf info .identifier (← slice p first.start stop)

/-- One, if the token `k` places after the current one is of the given kind. -/
def countAt (k : Nat) (kind : TokenKind) : Action Nat :=
  return if ← lookupKind k kind then 1 else 0

/-- The number of tokens that make up the number that stands here. -/
def numberLen : Action (Option Nat) := do
  let sign ← countAt 0 .hyphenMinus
  let whole ← countAt sign .number
  let point ← countAt (sign + whole) .fullStop
  let fraction ← countAt (sign + whole + point) .number
  return if whole = 0 ∧ fraction = 0 then none else some (sign + whole + point + fraction)

/-- Steps over a number of tokens, and gives the offset where the last of them ends. -/
def endAfter : Nat → Nat → Action Nat
  | 0, stop => return stop
  | count + 1, stop => do
    let token ← current?
    advance
    endAfter count ((token.map Span.stop).getD stop)

/-- Reads a number, if one stands here. Gives its position too. -/
def numeric : Action (Option (Option SourceInfo × String)) := do
  match ← numberLen with
  | none => return none
  | some count =>
    let info ← info p
    let start ← offset p
    let stop ← endAfter count start
    return some (info, ← slice p start stop)

/-! ## Other small parts -/

/-- A leaf that holds the text of the current token. -/
def tokenLeaf (kind : LeafKind) : Action (Node SourceInfo) := do
  let info ← info p
  let value ← currentText p
  advance
  return .leaf info kind value

/-- A space. -/
def space : Action (Node SourceInfo) := do
  advance
  return .space none

/-- An argument. -/
def argument (nodes : List (Node SourceInfo)) : Node SourceInfo :=
  .sequence none .argument nodes

/-- The nodes without the spaces at their end. -/
def trimSpaces (nodes : List (Node SourceInfo)) : List (Node SourceInfo) :=
  (nodes.reverse.dropWhile Node.isSpace).reverse

/-- The arguments that are read, and the one that is being read. -/
def allArguments (st : List (Node SourceInfo) × Option (List (Node SourceInfo))) :
    List (Node SourceInfo) :=
  st.1 ++ (st.2.map fun parts => argument (trimSpaces parts)).toList

/-- Steps over a number before an identifier, and gives the offset where the token after it ends. -/
def hashEnd (first : Span) : Action Nat := do
  if first.kind = .number && (← lookupKind 1 .ident) then
    advance
    return ((← current?).map Span.stop).getD first.stop
  else return first.stop

/-- Reads a number sign with a name token or digits after it. -/
def hash : Action (Node SourceInfo) := do
  let info ← info p
  expect p .numberSign
  let first ← expectAny p "Number or identifier" [.number, .ident]
  let stop ← hashEnd first
  advance
  return .leaf info .hash (← slice p first.start stop)

/-- Reads the unit of a dimension. Before an escape that is not at its start the token is cut: the
rest of it stays where it is. -/
def unit : Action String := do
  match ← current? with
  | some token =>
    if token.kind = .ident then
      let text ← text p token
      let parts := text.toList.span (· ≠ '\\')
      if parts.1.isEmpty || parts.2.isEmpty then
        advance
        return text
      else detach p (← size (token.start + Text.byteLength parts.1))
    else fail p "Identifier is expected"
  | none => fail p "Identifier is expected"

/-- A number that is read already, with the percent sign or unit after it. -/
def measured (info : Option SourceInfo) (number : String) : Action (Node SourceInfo) := do
  match ← kind? with
  | some .percentSign =>
    expect p .percentSign
    return .leaf info .percentage number
  | some .ident => return .dimension info number (← unit p)
  | _ => return .leaf info .number number

/-- Steps over tokens of digits and letters, and gives the length of their text. -/
def hexSize (length : Nat) : Action Nat :=
  repeatWhile (fun length token => do
    if token.kind = .number ∨ token.kind = .ident then
      let length ← size (length + (← minus token.stop token.start))
      advance
      return some length
    else return none) length

/-- Steps over one to six hexadecimal digits, and gives their number. -/
def hexLen : Action Nat := do
  let start ← offset p
  let length ← hexSize 0
  if length = 0 ∨ 6 < length then fail p "Unexpected input"
  else
    let digits ← slice p start (← size (start + length))
    if digits.toList.all isHex then return length else fail p "Unexpected input"

/-- Steps over question marks, up to six digits in all. Gives the number of digits and question
marks. -/
def wildcardLen (length : Nat) : Action Nat :=
  repeatWhile (fun length token => stepIf (length < 6 ∧ token.kind = .questionMark) (length + 1))
    length

/-- Steps over a range of characters after `U+`, and gives the length of its text. -/
def unicodeRangeLen : Action Nat := do
  let digits ← hexLen p
  let length ← wildcardLen digits
  if length = digits && (← isAt .hyphenMinus) then
    advance
    size (length + (← size (1 + (← hexLen p))))
  else return length

/-- Reads a range of characters as one identifier. -/
def unicodeRange : Action (Node SourceInfo) := do
  let info ← info p
  let start ← offset p
  advance
  advance
  let length ← unicodeRangeLen p
  return .leaf info .identifier (← slice p start (← size (start + (← size (2 + length)))))

/-- Reads the flag `!important`. -/
def importantFlag : Action Bool := do
  expect p .exclamationMark
  skipGaps
  expectWord p "important" false
  let _ ← readIdent p false
  return true

/-! ## Functions without nested components -/

/-- Reads the text up to a blank or a parenthesis. -/
def rawUrl : Action (Node SourceInfo) := do
  let info ← info p
  let start ← offset p
  let stop ←
    endWhile (fun kind => kind ≠ .whitespace && kind ≠ .leftParen && kind ≠ .rightParen) start
  return .leaf info .raw (← slice p start stop)

/-- Reads the function `url(…)`. -/
def url (info : Option SourceInfo) : Action (Node SourceInfo) := do
  expect p .leftParen
  skipGaps
  let value ← if ← isAt .string then tokenLeaf p .string else rawUrl p
  skipGaps
  expect p .rightParen
  return .wrapper info .url value

/-- Steps over a token of a script, unless it is the parenthesis that closes one more than are open.
The state is the number of open ones and the offset where the last token ended. -/
def balancedRound (st : Nat × Nat) (token : Span) : Action (Option (Nat × Nat)) := do
  match token.kind with
  | .rightParen =>
    if st.1 = 0 then return none
    else
      let depth ← minus st.1 1
      advance
      return some (depth, token.stop)
  | .leftParen =>
    advance
    return some (st.1 + 1, token.stop)
  | _ =>
    advance
    return some (st.1, token.stop)

/-- Steps over a script, and gives the offset where its last token ends. -/
def balancedEnd (stop : Nat) : Action Nat :=
  return (← repeatWhile balancedRound (0, stop)).2

/-- Reads the function `expression(…)`. -/
def expression (info : Option SourceInfo) (name : String) : Action (Node SourceInfo) := do
  expect p .leftParen
  let start ← offset p
  let stop ← balancedEnd start
  expect p .rightParen
  return .sequence info (.function name) [argument [.leaf none .raw (← slice p start stop)]]

/-! ## Attributes, combinators and other parts of selectors -/

/-- Reads the operator of an attribute selector. -/
def attributeOperator : Action String := do
  let first ← expectAny p "Attribute selector (=, ~=, ^=, $=, *=, |=)"
    [.equals, .tilde, .circumflex, .dollarSign, .asterisk, .verticalLine]
  advance
  if first.kind ≠ .equals then expect p .equals
  slice p first.start (← offset p)

/-- Reads the operator and the value of an attribute selector. -/
def attributeValue : Action (String × Node SourceInfo) := do
  let operator ← attributeOperator p
  skipGaps
  let value ← if ← isAt .string then tokenLeaf p .string else identifier p false
  skipGaps
  return (operator, value)

/-- Reads the operator and the value of an attribute selector, if they stand here. -/
def attributeTest : Action (Option (String × Node SourceInfo)) := do
  match ← kind? with
  | none | some .rightBracket | some .ident => return none
  | some _ => return some (← attributeValue p)

/-- Reads the flags of an attribute selector, if they stand here. -/
def attributeFlags : Action (Option String) := do
  if ← isAt .ident then
    let flags ← currentText p
    advance
    skipGaps
    return some flags
  else return none

/-- Reads an attribute selector. -/
def attributeSelector : Action (Node SourceInfo) := do
  let info ← info p
  expect p .leftBracket
  skipGaps
  let name ← namespacedIdentifier p true
  skipGaps
  let test ← attributeTest p
  let flags ← attributeFlags p
  expect p .rightBracket
  return .attributeSelector info name (test.map Prod.fst) (test.map Prod.snd) flags

/-- Reads a class. -/
def classSelector : Action (Node SourceInfo) := do
  let info ← info p
  expect p .fullStop
  return .leaf info .classSelector (← readIdent p false)

/-- Reads an identity. -/
def idSelector : Action (Node SourceInfo) := do
  let info ← info p
  expect p .numberSign
  return .leaf info .idSelector (← readIdent p false)

/-- Whether the node is the combinator that whitespace stands for. -/
def isDescendant : Node SourceInfo → Bool
  | .leaf _ .combinator name => name = " "
  | _ => false

/-- Reads a combinator. -/
def combinator : Action (Node SourceInfo) := do
  let info ← info p
  match ← kind? with
  | some .whitespace =>
    advance
    return .leaf info .combinator " "
  | some .plus | some .tilde | some .greaterThan =>
    let name ← currentText p
    advance
    return .leaf info .combinator name
  | some .solidus =>
    advance
    expectWord p "deep" true
    expect p .solidus
    return .leaf info .combinator "/deep/"
  | _ => fail p "Combinator (+, >, ~, /deep/) is expected"

/-- Reads a percentage, if one stands here. -/
def keyframePercentage : Action (Option (Node SourceInfo)) := do
  match ← numberLen with
  | none => return none
  | some count =>
    if ← lookupKind count .percentSign then
      match ← numeric p with
      | none => return none
      | some (info, value) =>
        expect p .percentSign
        return some (.leaf info .percentage value)
    else return none

/-- Reads a percentage, or a name with an optional namespace. -/
def percentageOrName : Action (Node SourceInfo) := do
  match ← keyframePercentage p with
  | some node => return node
  | none => namespacedIdentifier p false

/-- Checks the word of one part of `:nth-…(…)`, and steps over a number before `n`. -/
def nthHead (token : Span) : Action Unit := do
  if token.kind = .number then
    match ← lookup? 1 with
    | some next => if ← isWord p next "n" then advance
    | none => return ()
  else if !((← spells p token "n") || (← spells p token "odd") || (← spells p token "even")) then
    fail p "Unexpected identifier"

/-- Reads one of `odd`, `even`, `n`, a number, or a number with `n` right after it. -/
def nth : Action (Node SourceInfo) := do
  let token ← expectAny p "Number, odd or even" [.ident, .number]
  let info ← info p
  nthHead p token
  let stop := ((← current?).map Span.stop).getD token.stop
  advance
  return .leaf info .nth (← slice p token.start stop)

/-- One round of the argument of `:nth-…(…)`. -/
def nthRound (nodes : List (Node SourceInfo)) (token : Span) :
    Action (Option (List (Node SourceInfo))) := do
  match token.kind with
  | .rightParen => return none
  | .whitespace | .comment =>
    advance
    return some nodes
  | .hyphenMinus | .plus => return some (nodes ++ [← tokenLeaf p .operator])
  | _ => return some (nodes ++ [← nth p])

/-- Reads the parts of the argument of `:nth-…(…)`. -/
def nthParts : List (Node SourceInfo) → Action (List (Node SourceInfo)) :=
  repeatWhile (nthRound p)

/-- Reads the pseudo-class `:nth-…(…)`. -/
def nthSelector : Action (Node SourceInfo) := do
  let info ← info p
  expect p .colon
  expectWord p "nth" false
  let name ← readIdent p false
  expect p .leftParen
  let nodes ← nthParts p []
  expect p .rightParen
  return .sequence info (.functionalPseudo name) [argument nodes]

/-- Reads a pseudo-element. -/
def pseudoElement : Action (Node SourceInfo) := do
  let info ← info p
  expect p .colon
  expect p .colon
  return .leaf info .pseudoElement (← readIdent p false)

end Machine

/-! ## What nests -/

namespace Source

open Machine

mutual

/-- Reads a component. -/
def any (p : Source) (scope : Scope) : Action (Node SourceInfo) := do
  match ← kind? with
  | some .string => tokenLeaf p .string
  | some .lowLine | some .ident => p |>.named scope
  | some .fullStop | some .number | some .hyphenMinus | some .plus =>
    match ← numeric p with
    | some (info, number) => measured p info number
    | none =>
      let nameFollows := (← lookupKind 1 .ident) || (← lookupKind 1 .hyphenMinus)
      match ← kind? with
      | some .hyphenMinus => if nameFollows then p |>.named scope else tokenLeaf p .operator
      | some .plus => tokenLeaf p .operator
      | _ => fail p "Unexpected input"
  | _ => fail p "Unexpected input"
partial_fixpoint

/-- Reads a function or a plain identifier. -/
def named (p : Source) (scope : Scope) : Action (Node SourceInfo) := do
  let info ← info p
  let name ← readIdent p false
  if ← isAt .leftParen then p |>.function scope info name else return .leaf info .identifier name
partial_fixpoint

/-- Reads a function whose name is read already. -/
def function (p : Source) (scope : Scope) (info : Option SourceInfo) (name : String) :
    Action (Node SourceInfo) := do
  match scope.special? name with
  | some .url => url p info
  | some .negation => p |>.negation info
  | some .script => expression p info name
  | some .variable => p |>.var info name
  | none =>
    expect p .leftParen
    let nodes ← p |>.arguments scope
    expect p .rightParen
    match scope with
    | .selector => return .sequence info (.functionalPseudo name) nodes
    | .atruleExpression | .value => return .sequence info (.function name) nodes
partial_fixpoint

/-- Reads arguments. -/
def arguments (p : Source) (scope : Scope) : Action (List (Node SourceInfo)) := do
  skipGaps
  return allArguments (← p |>.argumentsLoop scope ([], none))
partial_fixpoint

/-- The arguments that are read, and the parts of the one that is being read. -/
def argumentsLoop (p : Source) (scope : Scope)
    (st : List (Node SourceInfo) × Option (List (Node SourceInfo))) :
    Action (List (Node SourceInfo) × Option (List (Node SourceInfo))) := do
  match ← current? with
  | none => return st
  | some token =>
    let start ← position?
    match ← p |>.argumentsRound scope st token with
    | none => return st
    | some st =>
      goOn start
      p |>.argumentsLoop scope st
partial_fixpoint

/-- One round of arguments. -/
def argumentsRound (p : Source) (scope : Scope)
    (st : List (Node SourceInfo) × Option (List (Node SourceInfo))) (token : Span) :
    Action (Option (List (Node SourceInfo) × Option (List (Node SourceInfo)))) := do
  match token.kind with
  | .rightParen => if st.2.isNone && !st.1.isEmpty then fail p "Unexpected input" else return none
  | .comment =>
    advance
    return some st
  | .comma =>
    match st.2 with
    | none => fail p "Unexpected input"
    | some parts =>
      advance
      skipGaps
      return some (st.1 ++ [argument (trimSpaces parts)], none)
  | kind => return some (st.1, some (st.2.getD [] ++ [← p |>.argumentPart scope kind]))
partial_fixpoint

/-- Reads one part of an argument. -/
def argumentPart (p : Source) (scope : Scope) (kind : TokenKind) : Action (Node SourceInfo) := do
  match kind with
  | .whitespace => space
  | .numberSign => hash p
  | .leftParen | .leftBracket => p |>.braces scope
  | .solidus | .asterisk | .colon | .equals => tokenLeaf p .operator
  | _ => p |>.any scope
partial_fixpoint

/-- Reads the negation `:not(…)`. -/
def negation (p : Source) (info : Option SourceInfo) : Action (Node SourceInfo) := do
  expect p .leftParen
  let (nodes, _) ← p |>.negationLoop ([], false)
  expect p .rightParen
  return .sequence info .negation nodes
partial_fixpoint

/-- The entries that are read, and whether one was read after the last comma. -/
def negationLoop (p : Source) (st : List (Node SourceInfo) × Bool) :
    Action (List (Node SourceInfo) × Bool) := do
  match ← current? with
  | none => return st
  | some token =>
    let start ← position?
    match ← p |>.negationRound st token with
    | none => return st
    | some st =>
      goOn start
      p |>.negationLoop st
partial_fixpoint

/-- One round of a negation. -/
def negationRound (p : Source) (st : List (Node SourceInfo) × Bool) (token : Span) :
    Action (Option (List (Node SourceInfo) × Bool)) := do
  match token.kind with
  | .rightParen => if !st.2 then fail p "Simple selector is expected" else return none
  | .comma =>
    if !st.2 then fail p "Simple selector is expected"
    else
      advance
      return some (st.1, false)
  | _ => return some (st.1 ++ [← p |>.simpleSelector true], true)
partial_fixpoint

/-- Reads the function `var(…)`. -/
def var (p : Source) (info : Option SourceInfo) (name : String) : Action (Node SourceInfo) := do
  expect p .leftParen
  skipGaps
  let first ← identifier p true
  skipGaps
  let fallback ←
    if ← isAt .comma then
      advance
      skipGaps
      let node ← p |>.value true
      skipGaps
      pure [argument [node]]
    else pure []
  expect p .rightParen
  return .sequence info (.function name) (argument [first] :: fallback)
partial_fixpoint

/-- Reads a bracketed sequence. -/
def braces (p : Source) (scope : Scope) : Action (Node SourceInfo) := do
  let info ← info p
  let round ← isAt .leftParen
  let closing := if round then .rightParen else .rightBracket
  advance
  skipGaps
  let nodes ← p |>.bracesLoop scope closing []
  expect p closing
  return .sequence info (if round then .braces '(' ')' else .braces '[' ']') (trimSpaces nodes)
partial_fixpoint

/-- The parts of a bracketed sequence. -/
def bracesLoop (p : Source) (scope : Scope) (closing : TokenKind) (nodes : List (Node SourceInfo)) :
    Action (List (Node SourceInfo)) := do
  match ← current? with
  | none => return nodes
  | some token =>
    let start ← position?
    match ← p |>.bracesRound scope closing nodes token with
    | none => return nodes
    | some nodes =>
      goOn start
      p |>.bracesLoop scope closing nodes
partial_fixpoint

/-- One round of a bracketed sequence. -/
def bracesRound (p : Source) (scope : Scope) (closing : TokenKind) (nodes : List (Node SourceInfo))
    (token : Span) :
    Action (Option (List (Node SourceInfo))) := do
  if token.kind = closing then return none
  else
    match token.kind with
    | .whitespace => return some (nodes ++ [← space])
    | .comment =>
      advance
      return some nodes
    | .numberSign => return some (nodes ++ [← hash p])
    | .leftParen | .leftBracket => return some (nodes ++ [← p |>.braces scope])
    | .solidus | .asterisk | .comma | .colon => return some (nodes ++ [← tokenLeaf p .operator])
    | _ => return some (nodes ++ [← p |>.any scope])
partial_fixpoint

/-- Reads a value. -/
def value (p : Source) (nested : Bool) : Action (Node SourceInfo) := do
  let info ← info p
  skipGaps
  let (nodes, important) ← p |>.valueLoop nested ([], false)
  return .sequence info (.value important) (trimSpaces nodes)
partial_fixpoint

/-- The parts of a value, and whether `!important` was read. -/
def valueLoop (p : Source) (nested : Bool) (st : List (Node SourceInfo) × Bool) :
    Action (List (Node SourceInfo) × Bool) := do
  match ← current? with
  | none => return st
  | some token =>
    let start ← position?
    match ← p |>.valueRound nested st token with
    | none => return st
    | some st =>
      goOn start
      p |>.valueLoop nested st
partial_fixpoint

/-- One round of a value. -/
def valueRound (p : Source) (nested : Bool) (st : List (Node SourceInfo) × Bool) (token : Span) :
    Action (Option (List (Node SourceInfo) × Bool)) := do
  match token.kind with
  | .rightBrace | .semicolon => return none
  | .rightParen => if nested then return none else fail p "Unexpected input"
  | .whitespace => return some (st.1 ++ [← space], st.2)
  | .comment =>
    advance
    return some st
  | .numberSign => return some (st.1 ++ [← hash p], st.2)
  | .solidus | .comma => return some (st.1 ++ [← tokenLeaf p .operator], st.2)
  | .leftParen | .leftBracket => return some (st.1 ++ [← p |>.braces .value], st.2)
  | .exclamationMark => return some (st.1, ← importantFlag p)
  | .ident =>
    if (← spells p token "u") && (← lookupKind 1 .plus) then
      return some (st.1 ++ [← unicodeRange p], st.2)
    else return some (st.1 ++ [← p |>.any .value], st.2)
  | _ => return some (st.1 ++ [← p |>.any .value], st.2)
partial_fixpoint

/-- Reads a pseudo-class. -/
def pseudoClass (p : Source) : Action (Node SourceInfo) := do
  let info ← info p
  expect p .colon
  let start ← Machine.info p
  let name ← readIdent p false
  if ← isAt .leftParen then p |>.function .selector start name
  else return .leaf info .pseudoClass name
partial_fixpoint

/-- Reads what a colon opens in a selector. -/
def pseudo (p : Source) : Action (Node SourceInfo) := do
  match ← lookup? 1 with
  | none =>
    advance
    fail p "Colon or identifier is expected"
  | some next =>
    if next.kind = .colon then pseudoElement p
    else if ← isWord p next "nth" then nthSelector p
    else p |>.pseudoClass
partial_fixpoint

/-- Reads a simple selector. -/
def simpleSelector (p : Source) (nested : Bool) : Action (Node SourceInfo) := do
  let info ← info p
  let (nodes, pending) ← p |>.simpleSelectorLoop nested ([], none)
  if pending.any fun node => !isDescendant node then fail p "Unexpected combinator"
  else return .sequence info .simpleSelector nodes
partial_fixpoint

/-- The parts of a simple selector, and the combinator that waits for the next one. -/
def simpleSelectorLoop (p : Source) (nested : Bool)
    (st : List (Node SourceInfo) × Option (Node SourceInfo)) :
    Action (List (Node SourceInfo) × Option (Node SourceInfo)) := do
  match ← current? with
  | none => return st
  | some token =>
    let start ← position?
    match ← p |>.simpleSelectorRound nested st token with
    | none => return st
    | some st =>
      goOn start
      p |>.simpleSelectorLoop nested st
partial_fixpoint

/-- One round of a simple selector. -/
def simpleSelectorRound (p : Source) (nested : Bool)
    (st : List (Node SourceInfo) × Option (Node SourceInfo)) (token : Span) :
    Action (Option (List (Node SourceInfo) × Option (Node SourceInfo))) := do
  match token.kind with
  | .comma => return none
  | .leftBrace => if nested then fail p "Unexpected input" else return none
  | .rightParen => if nested then return none else fail p "Unexpected input"
  | .comment =>
    advance
    return some st
  | .whitespace =>
    if st.2.isNone && !st.1.isEmpty then return some (st.1, some (← combinator p))
    else
      advance
      return some st
  | .plus | .greaterThan | .tilde | .solidus =>
    if st.2.any fun node => !isDescendant node then fail p "Unexpected combinator"
    else return some (st.1, some (← combinator p))
  | kind => return some (st.1 ++ st.2.toList ++ [← p |>.compound kind], none)
partial_fixpoint

/-- Reads one part of a simple selector that is no combinator. -/
def compound (p : Source) (kind : TokenKind) : Action (Node SourceInfo) := do
  match kind with
  | .fullStop => classSelector p
  | .leftBracket => attributeSelector p
  | .numberSign => idSelector p
  | .colon => p |>.pseudo
  | .lowLine | .ident | .asterisk | .verticalLine => namespacedIdentifier p false
  | .hyphenMinus | .number => percentageOrName p
  | _ => fail p "Unexpected input"
partial_fixpoint

end

end Source

namespace Machine

export Source (any named function arguments argumentsLoop argumentsRound argumentPart negation
  negationLoop negationRound var braces bracesLoop bracesRound value valueLoop
    valueRound pseudoClass
  pseudo simpleSelector simpleSelectorLoop simpleSelectorRound compound)

end Machine

end StyleTree
