import StyleTree.Grammar.Component

/-!
# Filter values

The value of a `filter` property can be a row of `progid:DXImageTransform.Microsoft.name(…)`
blocks. Each is kept as it stands. Whether one follows is decided by looking ahead up to the
parenthesis that closes it, so reading it cannot fail.

Main definitions: `progidLength?`, `filterValue`.
-/

namespace StyleTree.Grammar
open StyleTree.Parser

/-- The number of whitespace and comment tokens at the front. -/
def gapLength (tokens : List Token) : Nat :=
  (tokens.takeWhile isGap).length

/-- Whether the tokens start as the pattern says: a word matches an identifier of that spelling,
and a kind matches a token of that kind. -/
def startsWith : List (String ⊕ TokenKind) → List Token → Bool
  | [], _ => true
  | _ :: _, [] => false
  | .inl word :: pattern, token :: tokens => token.spells word && startsWith pattern tokens
  | .inr kind :: pattern, token :: tokens => token.kind = kind && startsWith pattern tokens

/-- The number of tokens from `progid` to the parenthesis that closes the block, if the tokens start
with such a block. Whitespace and comments may stand after the colon and before the parenthesis. -/
def progidLength? (tokens : List Token) : Option Nat :=
  if !startsWith [.inl "progid", .inr .colon] tokens then none
  else
    let name := 2 + gapLength (tokens.drop 2)
    let pattern := [.inl "dximagetransform", .inr .fullStop, .inl "microsoft", .inr .fullStop,
      .inr .ident]
    if !startsWith pattern (tokens.drop name) then none
    else
      let opening := name + 5 + gapLength (tokens.drop (name + 5))
      if !startsWith [.inr .leftParen] (tokens.drop opening) then none
      else
        let closing := opening + 1 + balancedLength 0 (tokens.drop (opening + 1))
        if closing < tokens.length then some (closing + 1) else none

/-- The block that follows after whitespace and comments, if there is one. -/
def nextProgid? (tokens : List Token) : Option Nat :=
  progidLength? (tokens.drop (gapLength tokens))

/-- One block and the whitespace and comments around it. -/
def progid (count : Nat) : Parser Tree := do
  let info ← here
  skipGaps
  let start ← here
  let text ← takeMany count
  skipGaps
  return .wrapper info .progid (.leaf start .raw text)

/-- A value made of filter blocks. -/
def filterValue : Parser Tree := do
  let info ← here
  let blocks ← many fun _ => do
    match nextProgid? (← get).rest with
    | some count => add (progid count)
    | none => stop
  skipGaps
  let important ← isAt .exclamationMark
  if important then importantFlag
  return .sequence info (.value important) blocks

end StyleTree.Grammar
