import StyleTree.Context
import StyleTree.SyntaxError

/-!
# Parsing

A text is scanned, read in its context, and the offsets of the result are resolved. Only scanning
and reading look at the text; the options other than the context say how positions are reported.

Main definitions: `Reading.ofText`, `parse`, `parseIn`.
-/

namespace StyleTree

/-- How a text is to be parsed. -/
structure ParseOptions where
  context : Context := .stylesheet
  /-- Whether nodes carry their positions. -/
  positions : Bool := false
  /-- The name of the source in positions. -/
  filename : String := "<unknown>"
  /-- The line of the first character. -/
  line : UInt32 := 1
  /-- The column of the first character. -/
  column : UInt32 := 1
  deriving DecidableEq, Repr

/-- A text that was read: its tokens, the tree or the failure, and where selector lists were
discarded. Positions are byte offsets, or `none` for the end of input. -/
structure Reading where
  table : TokenTable
  outcome : Except Failure Tree
  discarded : List (Option Nat)

/-- Reads a text in a context. -/
def Reading.ofText (text : String) (context : Context) : Reading :=
  let table := TokenTable.ofText text context.startsInBlock
  match (context.production table.tokens.size).run { rest := table.tokens.toList } with
  | .ok tree state => ⟨table, .ok tree, state.discarded⟩
  | .error failure state => ⟨table, .error failure, state.discarded⟩

namespace ParseOptions

/-- The line table of a text that is parsed with the options. -/
def lines (options : ParseOptions) (table : TokenTable) : LineTable :=
  table.lines options.line options.column

/-- The source position of an offset, if positions are asked for. -/
def sourceInfo (options : ParseOptions) (lines : LineTable) (offset : Nat) : Option SourceInfo :=
  if options.positions then
    let location := lines.location offset
    some ⟨options.filename, location.offset, location.line, location.column⟩
  else none

end ParseOptions

/-- The offset at which a failure is reported. At the end of input it is the end of the text without
the blanks there. -/
def Failure.reportOffset (failure : Failure) (table : TokenTable) : Nat :=
  failure.offset.getD (table.lastNonSpace table.size)

/-- The tree or the syntax error of a text that was read. -/
def Reading.resolve (reading : Reading) (options : ParseOptions) :
    Except SyntaxError (Node SourceInfo) :=
  let lines := options.lines reading.table
  match reading.outcome with
  | .ok tree => .ok (tree.mapInfo (options.sourceInfo lines))
  | .error failure =>
    .error ⟨failure.cause.message, lines.location (failure.reportOffset reading.table)⟩

/-- Parses a text. The first fault ends it; there is no partial tree. -/
def parse (text : String) (options : ParseOptions) : Except SyntaxError (Node SourceInfo) :=
  (Reading.ofText text options.context).resolve options

/-- Why a text cannot be parsed in a named context. -/
inductive ParseError where
  | unknownContext (name : String)
  | syntaxError (error : SyntaxError)
  deriving DecidableEq, Repr

/-- The wording of the error. -/
def ParseError.message : ParseError → String
  | .unknownContext name => "Unknown context `" ++ name ++ "`"
  | .syntaxError error => error.display

/-- The options with the context of the given name. -/
def ParseOptions.inContext (options : ParseOptions) (name : String) :
    Except ParseError ParseOptions :=
  match Context.ofName? name with
  | none => .error (.unknownContext name)
  | some context => .ok { options with context }

/-- Parses a text in the context of the given name, which is looked up first. -/
def parseIn (text name : String) (options : ParseOptions) :
    Except ParseError (Node SourceInfo) := do
  let options ← options.inContext name
  (parse text options).mapError .syntaxError

end StyleTree
