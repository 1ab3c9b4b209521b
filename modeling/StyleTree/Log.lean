import StyleTree.Parse
import StyleTree.Print.SourceMap

/-!
# Events

Parsing and writing report what they do as events. A parse reports its text first, then the
extensions that the scanner accepted, then each selector list that is discarded.
-/

namespace StyleTree

/-- How important an event is. -/
inductive Level where
  | trace
  | debug
  | warn
  deriving DecidableEq, Repr

/-- The name of the level. -/
def Level.name : Level → String
  | .trace => "TRACE"
  | .debug => "DEBUG"
  | .warn => "WARN"

/-- Something that happened while a text was parsed or a tree written. -/
inductive Event where
  /-- A text of `length` bytes and `tokens` tokens is parsed. -/
  | parsing (context : Context) (length tokens : Nat)
  | accepted (extension : ExtensionKind) (location : Location)
  /-- A selector list that ended at `offset` is discarded. -/
  | discarded (offset : Nat)
  /-- A text of `length` bytes is written. -/
  | written (length : Nat)
  /-- A text of `length` bytes is written with a source map. -/
  | mapped (length mappings : Nat)
  deriving DecidableEq, Repr

/-- A value that an event carries. -/
inductive EventField where
  | text (value : String)
  | number (value : Nat)
  deriving DecidableEq, Repr

namespace Event

/-- The level of the event. -/
def level : Event → Level
  | .parsing .. | .discarded _ => .debug
  | .accepted .. => .warn
  | .written _ | .mapped .. => .trace

/-- The wording of the event. -/
def message : Event → String
  | .parsing .. => "parse"
  | .accepted extension _ => extension.describe ++ " accepted as a non-standard extension"
  | .discarded _ => "discarding malformed selector list"
  | .written _ => "translate"
  | .mapped .. => "translate with source map"

/-- The values that the event carries, by name. -/
def fields : Event → List (String × EventField)
  | .parsing context length tokens =>
    [("context", .text context.name), ("len", .number length), ("tokens", .number tokens)]
  | .accepted _ location =>
    [("offset", .number location.offset), ("line", .number location.line),
      ("column", .number location.column)]
  | .discarded offset => [("offset", .number offset)]
  | .written length => [("len", .number length)]
  | .mapped length mappings => [("len", .number length), ("mappings", .number mappings)]

end Event

/-- The events of a parse, in order. -/
def Reading.events (reading : Reading) (options : ParseOptions) : List Event :=
  let table := reading.table
  let lines := options.lines table
  [.parsing options.context table.size table.tokens.size] ++
    table.extensions.map (fun extension =>
      .accepted extension.kind (lines.location extension.offset)) ++
    reading.discarded.map fun offset => .discarded (offset.getD table.size)

/-- The events of writing a tree, without and then with a source map. -/
def Node.writeEvents (node : Node SourceInfo) : List Event :=
  let mapped := node.toMappedCss
  [.written (Text.byteLength node.toCss.toList),
    .mapped (Text.byteLength mapped.text.toList) mapped.map.mappings.length]

/-- The events of parsing a text and, when that succeeds, of writing its tree. -/
def processEvents (text : String) (options : ParseOptions) : List Event :=
  let reading := Reading.ofText text options.context
  let later := match reading.resolve options with
    | .ok node => node.writeEvents
    | .error _ => []
  reading.events options ++ later

end StyleTree
