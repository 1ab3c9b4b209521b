import StyleTree.Token.Table
import StyleTree.Tree.Node

/-!
# Reading tokens

A `Parser` reads tokens from the front of the remaining ones and either yields a value or fails at
the token it stands on. It never goes back, and it keeps what it has noted when it fails.

A failure and every position in the tree is a byte offset here. Lines and columns, the name of the
source, and where the end of input is reported belong to the text as a whole and are added later.

Loops of the grammar are instances of `Parser.loop`. A round of a loop has to read a token or stop;
a loop that ran on without reading would fail with `Cause.stuck`.
-/

namespace StyleTree

/-- Why a text is refused. -/
inductive Cause where
  /-- A token of this kind has to stand here. -/
  | expected (kind : TokenKind)
  /-- An identifier of this spelling has to stand here. -/
  | expectedWord (word : String)
  | expectedNumberOrIdentifier
  | expectedAttributeOperator
  | expectedNth
  | expectedColonOrIdentifier
  | expectedSimpleSelector
  | unexpectedInput
  | unexpectedEnd
  | unexpectedCombinator
  | unexpectedIdentifier
  | unexpectedRightBrace
  /-- A loop goes on without reading, or brackets are nested deeper than there are tokens. -/
  | stuck
  deriving DecidableEq, Repr

/-- The wording of a cause. -/
def Cause.message : Cause → String
  | .expected kind => kind.describe ++ " is expected"
  | .expectedWord word => "Identifier `" ++ word ++ "` is expected"
  | .expectedNumberOrIdentifier => "Number or identifier is expected"
  | .expectedAttributeOperator => "Attribute selector (=, ~=, ^=, $=, *=, |=) is expected"
  | .expectedNth => "Number, odd or even is expected"
  | .expectedColonOrIdentifier => "Colon or identifier is expected"
  | .expectedSimpleSelector => "Simple selector is expected"
  | .unexpectedInput => "Unexpected input"
  | .unexpectedEnd => "Unexpected end of input"
  | .unexpectedCombinator => "Unexpected combinator"
  | .unexpectedIdentifier => "Unexpected identifier"
  | .unexpectedRightBrace => "Unexpected right curly brace"
  | .stuck => "Reading does not end"

/-- A cause and the token it is found at. -/
structure Failure where
  cause : Cause
  /-- The offset of the token, `none` at the end of input. -/
  offset : Option Nat
  deriving DecidableEq, Repr

/-- What is left to read, and what was noted so far. -/
structure ParserState where
  rest : List Token
  /-- Where each discarded selector list ended, `none` at the end of input. -/
  discarded : List (Option Nat) := []
  deriving DecidableEq, Repr

/-- A reader of tokens. -/
abbrev Parser := EStateM Failure ParserState

/-- A tree whose positions are byte offsets. -/
abbrev Tree := Node Nat

namespace Parser

/-- The token to be read next, `none` at the end of input. -/
def current? : Parser (Option Token) :=
  return (← get).rest.head?

/-- The token `k` places after the current one. -/
def lookup? (k : Nat) : Parser (Option Token) :=
  return (← get).rest[k]?

/-- The kind of the current token. -/
def kind? : Parser (Option TokenKind) :=
  return (← current?).map Token.kind

/-- Whether the current token is of the given kind. -/
def isAt (kind : TokenKind) : Parser Bool :=
  return (← kind?) = some kind

/-- Whether the token `k` places after the current one is of the given kind. -/
def lookupKind (k : Nat) (kind : TokenKind) : Parser Bool :=
  return (← lookup? k).map Token.kind = some kind

/-- The offset of the current token, the position of a node that starts here. -/
def here : Parser (Option Nat) :=
  return (← current?).map Token.start

/-- Fails at the current token. -/
def fail {α : Type} (cause : Cause) : Parser α := do
  throw ⟨cause, ← here⟩

/-- Steps over the current token. -/
def advance : Parser Unit :=
  modify fun state => { state with rest := state.rest.tail }

/-- Reads the current token and gives its text, which is empty at the end of input. -/
def take : Parser String := do
  let token ← current?
  advance
  return (token.map Token.text).getD ""

/-- Reads the current token if it is of the given kind, and gives its text or nothing. -/
def takeIf (kind : TokenKind) : Parser String := do
  if ← isAt kind then take else return ""

/-- Reads the given number of tokens and gives their text. -/
def takeMany (count : Nat) : Parser String := do
  let state ← get
  set { state with rest := state.rest.drop count }
  return Text.concat ((state.rest.take count).map Token.text)

/-- Reads the tokens that satisfy `p` and gives their text. -/
def takeWhile (p : Token → Bool) : Parser String := do
  takeMany ((← get).rest.takeWhile p).length

/-- Whether the token is whitespace or a comment. -/
def isGap (token : Token) : Bool :=
  token.kind = .whitespace || token.kind = .comment

/-- Skips whitespace and comments. -/
def skipGaps : Parser Unit :=
  modify fun state => { state with rest := state.rest.dropWhile isGap }

/-- Reads a token that has to be of the given kind. -/
def expect (kind : TokenKind) : Parser Unit := do
  if ← isAt kind then advance else fail (.expected kind)

/-- Checks for an identifier of the given spelling without reading it. -/
def expectWord (word : String) : Parser Unit := do
  match ← current? with
  | some token =>
    if token.kind = .ident && token.spells word then return () else fail (.expectedWord word)
  | none => fail (.expectedWord word)

/-- What a round of a loop decides. -/
inductive Round (σ α : Type) where
  /-- Leave the loop before the current token. -/
  | stop
  /-- Add items and go on from a new state. -/
  | next (items : List α) (state : σ)

/-- Repeats a round while there are tokens, and collects the items. The first argument bounds the
number of rounds. -/
def loopUpTo {σ α : Type} (round : σ → Token → Parser (Round σ α)) :
    Nat → σ → Parser (List α × σ)
  | 0, _ => fail .stuck
  | rounds + 1, state => do
    match ← current? with
    | none => return ([], state)
    | some token =>
      match ← round state token with
      | .stop => return ([], state)
      | .next items state' =>
        let (later, last) ← loopUpTo round rounds state'
        return (items ++ later, last)

/-- Repeats a round while there are tokens. Each round that goes on reads a token, so the number
of tokens bounds the number of rounds. -/
def loop {σ α : Type} (round : σ → Token → Parser (Round σ α)) (state : σ) :
    Parser (List α × σ) := do
  loopUpTo round ((← get).rest.length + 1) state

/-- What a round of a loop without state decides. -/
abbrev Item := Round Unit Tree

/-- Leaves a loop without state. -/
def stop : Parser Item :=
  return .stop

/-- Steps over the current token, which adds nothing. -/
def skip : Parser Item := do
  advance
  return .next [] ()

/-- Adds the node that a reader yields. -/
def add (read : Parser Tree) : Parser Item :=
  return .next [← read] ()

/-- Repeats a round without state and collects the nodes. -/
def many (round : Token → Parser Item) : Parser (List Tree) :=
  return (← loop (fun _ token => round token) ()).1

/-- Reads entries that commas separate. The entry after a comma is due even if there is nothing to
read for it. Also says whether the input ended, or `endsAt` held, while an entry was due. -/
def separated (endsAt : Token → Bool) (entry : Parser Tree) (between : Parser Unit) :
    Parser (List Tree × Bool) :=
  loop (fun due token => do
    if !due || endsAt token then return .stop
    let node ← entry
    if ← isAt .comma then
      advance
      between
      return .next [node] true
    else
      return .next [node] false) true

end Parser
end StyleTree
