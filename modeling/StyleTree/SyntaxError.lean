import StyleTree.Text.Location

/-!
# Syntax errors

A syntax error is a message at a location. It can be shown on one line, or rendered below the line
of the text that it points at.
-/

namespace StyleTree

/-- A message at a location of a text. -/
structure SyntaxError where
  message : String
  location : Location
  deriving DecidableEq, Repr

namespace SyntaxError

/-- The message with the line and column it is about. -/
def display (error : SyntaxError) : String :=
  error.message ++ " at " ++ toString error.location.line ++ ":" ++ toString error.location.column

/-- The byte range of the character at the location; it is empty at the end of the text. -/
def range (error : SyntaxError) (text : String) : Nat × Nat :=
  let start := min error.location.offset (Text.byteLength text.toList)
  let width :=
    match Text.dropBytes start text.toList with
    | [] => 0
    | c :: _ => c.utf8Size
  (start, start + width)

/-- The lines of characters, which line feeds separate. -/
def splitLines : List Char → List (List Char)
  | [] => [[]]
  | c :: cs =>
    if c = '\n' then [] :: splitLines cs
    else
      match splitLines cs with
      | [] => [[c]]
      | line :: lines => (c :: line) :: lines

/-- The error with the line it points at. Lines are numbered from 1 within the text. -/
def render (error : SyntaxError) (path text : String) : String :=
  let before := splitLines (Text.takeBytes (error.range text).1 text.toList)
  let number := before.length
  let column := Text.byteLength (before.getLast?.getD [])
  let source := (splitLines text.toList)[number - 1]?.getD []
  let gutter := String.ofList (List.replicate (toString number).length ' ')
  let pointer := List.replicate column ' ' ++ "^ here".toList
  let row (margin : String) (content : List Char) : String :=
    margin ++ " |" ++ String.ofList (Text.trimEnd (' ' :: content))
  "\n".intercalate
    ["error: " ++ error.message,
      gutter ++ "--> " ++ path ++ ":" ++ toString number ++ ":" ++ toString (column + 1),
      row gutter [], row (toString number) source, row gutter pointer, row gutter []]

end SyntaxError
end StyleTree
