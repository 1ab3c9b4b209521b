import StyleTree.Token.Table

/-!
# Moving through a token table

A `Cursor` stands on a token of a table, or behind the last one. It never moves backwards, and it
can shorten the token it stands on from the front.
-/

namespace StyleTree

/-- A position in a token table. -/
structure Cursor where
  table : TokenTable
  /-- The index of the current token; the number of tokens at the end of input. -/
  index : Nat := 0

namespace Cursor

/-- The token under the cursor, `none` at the end of input. -/
def current? (cursor : Cursor) : Option Token :=
  cursor.table.tokens[cursor.index]?

/-- Whether all tokens are read. -/
def atEnd (cursor : Cursor) : Bool :=
  cursor.table.tokens.size ≤ cursor.index

/-- The token `k` places after the current one. -/
def lookup? (cursor : Cursor) (k : Nat) : Option Token :=
  cursor.table.tokens[cursor.index + k]?

/-- Whether the token `k` places after the current one is of the given kind. -/
def lookupKind (cursor : Cursor) (k : Nat) (kind : TokenKind) : Bool :=
  (cursor.lookup? k).any fun token => token.kind = kind

/-- Steps to the next token; stays at the end of input. -/
def next (cursor : Cursor) : Cursor :=
  if cursor.atEnd then cursor else { cursor with index := cursor.index + 1 }

/-- Steps over `k` tokens. -/
def advance (cursor : Cursor) (k : Nat) : Cursor :=
  Nat.repeat next k cursor

/-- The offset of the current token, or the length of the text. -/
def offset (cursor : Cursor) : Nat :=
  match cursor.current? with
  | some token => token.start
  | none => cursor.table.size

/-- The offset after the last character before the cursor that is no blank. -/
def lastNonSpace (cursor : Cursor) : Nat :=
  cursor.table.lastNonSpace cursor.offset

/-- Cuts the text before an offset off the current token and gives that text. The cursor is left
as it is, and the text is empty, when the offset is not in the current token. -/
def detach (cursor : Cursor) (offset : Nat) : String × Cursor :=
  match cursor.current?.bind (Token.splitAt · offset) with
  | none => ("", cursor)
  | some (head, token) =>
    let tokens := cursor.table.tokens.setIfInBounds cursor.index token
    (head, { cursor with table := { cursor.table with tokens } })

end Cursor
end StyleTree
