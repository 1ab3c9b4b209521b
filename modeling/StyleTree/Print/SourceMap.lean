import StyleTree.Print.Fragment
import StyleTree.Print.Vlq
import StyleTree.Text.Json

/-!
# Source maps

A source map says of each stretch of written text where in which source it comes from. A mapping is
added where text of a positioned group starts that does not go on from the last such place, and
where text of a group without position follows text of a group with one.

Main definitions: `Node.toMappedCss`, `SourceMap.encodeMappings`, `SourceMap.toJson`.
-/

namespace StyleTree

/-- A place in written text: the line counts from 1, the column in bytes from 0. -/
structure OutputPosition where
  line : Nat := 1
  column : Nat := 0
  deriving DecidableEq, Repr

/-- A place in a source: the line counts from 1, the column in bytes from 0. -/
structure SourcePosition where
  source : String
  line : Nat
  column : Nat
  deriving DecidableEq, Repr

/-- From `generated` on, the text comes from `origin`, or from no source at all. -/
structure Mapping where
  generated : OutputPosition
  origin : Option SourcePosition
  deriving DecidableEq, Repr

/-- The mappings in the order of the text, and the names of the sources they point at. -/
structure SourceMap where
  sources : List String
  mappings : List Mapping
  deriving DecidableEq, Repr

/-- The place after a character. -/
def OutputPosition.push (position : OutputPosition) (c : Char) : OutputPosition :=
  if c = '\n' then ⟨position.line + 1, 0⟩
  else ⟨position.line, position.column + c.utf8Size⟩

/-- The place after characters. -/
def OutputPosition.advance (position : OutputPosition) (cs : List Char) : OutputPosition :=
  cs.foldl OutputPosition.push position

/-- The source position of a node, with its column from 0. -/
def SourceInfo.position (info : SourceInfo) : SourcePosition :=
  ⟨info.source, info.line.toNat, info.column.toNat - 1⟩

/-- What the text written so far says about the next mapping. -/
structure MapState where
  position : OutputPosition := {}
  /-- The line and column of the last positioned text. -/
  last : Option (Nat × Nat) := none
  /-- Whether the last text was positioned. -/
  active : Bool := false
  deriving DecidableEq, Repr

namespace MapState

/-- The mapping that starts with text of the given owner, if one has to be added. -/
def mapping? (state : MapState) (owner : Option SourceInfo) : Option Mapping :=
  match owner.map SourceInfo.position with
  | some origin =>
    if state.last = some (origin.line, origin.column) then none
    else some ⟨state.position, some origin⟩
  | none => if state.active then some ⟨state.position, none⟩ else none

/-- The state after text of the given owner. -/
def after (state : MapState) (owner : Option SourceInfo) (cs : List Char) : MapState where
  position := state.position.advance cs
  last :=
    match owner.map SourceInfo.position with
    | some origin => some (origin.line, origin.column)
    | none => state.last
  active := owner.isSome

end MapState

/-- The mappings of fragments that are written after text of the given state. -/
def mappingsFrom (state : MapState) : List (Fragment SourceInfo) → List Mapping
  | [] => []
  | fragment :: fragments =>
    (state.mapping? fragment.owner).toList ++
      mappingsFrom (state.after fragment.owner fragment.text.toList) fragments

/-- The map of fragments in a row. Its sources stand in the order of their first use. -/
def SourceMap.ofFragments (fragments : List (Fragment SourceInfo)) : SourceMap :=
  let mappings := mappingsFrom {} fragments
  let names := mappings.filterMap fun mapping => mapping.origin.map SourcePosition.source
  { sources := names.eraseDups, mappings }

/-- Written text with its source map. -/
structure MappedText where
  text : String
  map : SourceMap
  deriving DecidableEq, Repr

/-- The compact text of a tree with its source map. Fragments without text start no mapping. -/
def Node.toMappedCss (node : Node SourceInfo) : MappedText :=
  let pieces := (node.fragments none).filter fun fragment => !fragment.text.isEmpty
  { text := Text.concat (pieces.map Fragment.text), map := .ofFragments pieces }

namespace SourceMap

/-- What the numbers of the next segment are relative to. -/
structure EncodeState where
  /-- The mapping before, `none` at the start. -/
  previous : Option Mapping := none
  line : Nat := 1
  column : Nat := 0
  source : Nat := 0
  /-- Counts from 0. -/
  originLine : Int := 0
  originColumn : Nat := 0

/-- The difference of two numbers in its written form. -/
def delta (value base : Int) : List Char :=
  Vlq.encode (value - base)

/-- The segment of a mapping: its column, and the source, line and column it comes from. -/
def segment (map : SourceMap) (state : EncodeState) (mapping : Mapping) :
    List Char × EncodeState :=
  let column := delta mapping.generated.column state.column
  let state := { state with previous := some mapping, column := mapping.generated.column }
  match mapping.origin with
  | none => (column, state)
  | some origin =>
    let source := (map.sources.idxOf? origin.source).getD 0
    let line : Int := (origin.line : Int) - 1
    (column ++ delta source state.source ++ delta line state.originLine ++
        delta origin.column state.originColumn,
      { state with source, originLine := line, originColumn := origin.column })

/-- The segments of mappings: a semicolon for each new line, a comma between segments of one line.
A mapping that repeats the one before on its line is left out. -/
def segments (map : SourceMap) (state : EncodeState) : List Mapping → List Char
  | [] => []
  | mapping :: mappings =>
    if mapping.generated.line ≠ state.line then
      let (text, next) := map.segment
        { state with column := 0, line := max state.line mapping.generated.line } mapping
      List.replicate (mapping.generated.line - state.line) ';' ++ text ++
        map.segments next mappings
    else if state.previous = some mapping then map.segments state mappings
    else
      let (text, next) := map.segment state mapping
      (if state.previous.isSome then [','] else []) ++ text ++ map.segments next mappings

/-- The mappings in the form of a version 3 source map. -/
def encodeMappings (map : SourceMap) : String :=
  String.ofList (map.segments {} map.mappings)

/-- The version 3 source map. -/
def toJson (map : SourceMap) : String :=
  "\x7b\"version\":3,\"sources\":" ++ Text.jsonStrings map.sources ++
    ",\"names\":[],\"mappings\":" ++ Text.jsonString map.encodeMappings ++ "\x7d"

end SourceMap
end StyleTree
