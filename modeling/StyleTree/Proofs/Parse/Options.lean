import Mathlib.Data.List.Forall2
import StyleTree.Parse
import StyleTree.Proofs.Print.Compact
import StyleTree.Proofs.Text.Lines
import StyleTree.Proofs.Tree.Walk

/-! The options other than the context do not decide what is parsed. A text is read once for its
context; whether positions are kept, and which source, line and column they name, only changes how
the offsets of the reading are resolved (`Reading.agree_resolve`). So two parses in the same context
give the same tree up to positions or the same message, and the positions differ by where the text
is said to start (`ParseOptions.Displaced`). -/

namespace StyleTree

/-- The location that a position records. -/
def SourceInfo.location (info : SourceInfo) : Location :=
  ⟨info.offset, info.line, info.column⟩

/-- No line terminator stands before the offset. -/
def OnFirstLine (text : String) (offset : Nat) : Prop :=
  lineStops (Text.bytes text) (originOf text.toList) offset = []

namespace ParseOptions

/-- The line and the column of the offset fit in words. -/
def FitsAt (options : ParseOptions) (text : String) (offset : Nat) : Prop :=
  NumbersFit (Text.bytes text) (originOf text.toList) options.line options.column offset

/-- All lines and columns of the text fit in words. -/
def Fits (options : ParseOptions) (text : String) : Prop :=
  ∀ offset ≤ text.utf8ByteSize, options.FitsAt text offset

/-- The numbers fit where even a text of as many lines and columns as it has bytes would do. -/
theorem fits_of_lt {options : ParseOptions} {text : String}
    (hline : options.line.toNat + text.utf8ByteSize < 2 ^ 32)
    (hcolumn : options.column.toNat + text.utf8ByteSize < 2 ^ 32) : options.Fits text := by
  intro offset hoffset
  constructor
  · have hle := lineAt_le (Text.bytes text) (originOf text.toList) options.line.toNat offset
    omega
  · have hle := columnAt_le (Text.bytes text) (originOf text.toList) options.column.toNat offset
    omega

/-- How the locations of one place of a text differ between two sets of options: lines by the
difference of the first lines, columns by the difference of the first columns on the first line and
not at all below. Differences are taken between words, and between numbers where these fit. -/
structure Displaced (options options' : ParseOptions) (text : String)
    (here there : Location) : Prop where
  offset : here.offset = there.offset
  line : here.line + options'.line = there.line + options.line
  firstColumn : OnFirstLine text here.offset →
    here.column + options'.column = there.column + options.column
  laterColumn : ¬ OnFirstLine text here.offset → here.column = there.column
  exactLine : options.FitsAt text here.offset → options'.FitsAt text here.offset →
    here.line.toNat + options'.line.toNat = there.line.toNat + options.line.toNat
  exactColumn : options.FitsAt text here.offset → options'.FitsAt text here.offset →
    OnFirstLine text here.offset →
      here.column.toNat + options'.column.toNat = there.column.toNat + options.column.toNat

/-- Positions of one place, each in the source that its options name. -/
structure SamePlace (options options' : ParseOptions) (text : String)
    (here there : SourceInfo) : Prop where
  source : here.source = options.filename
  source' : there.source = options'.filename
  displaced : options.Displaced options' text here.location there.location

/-- How the results of one text differ between two sets of options: equal trees but for positions,
with positions of the same places if both are recorded, or errors that say the same of the same
place. -/
inductive Agree (options options' : ParseOptions) (text : String) :
    Except SyntaxError (Node SourceInfo) → Except SyntaxError (Node SourceInfo) → Prop
  | parsed {node node' : Node SourceInfo} : node.bare = node'.bare → node.toCss = node'.toCss →
    (options.positions = true → options'.positions = true →
      List.Forall₂ (Option.Rel (options.SamePlace options' text))
        (node.preorder.map Node.info) (node'.preorder.map Node.info)) →
    Agree options options' text (.ok node) (.ok node')
  | refused {error error' : SyntaxError} : error.message = error'.message →
    options.Displaced options' text error.location error'.location →
    Agree options options' text (.error error) (.error error')

end ParseOptions

/-! ## Resolving offsets under two sets of options -/

variable {options options' : ParseOptions}

/-- The line starts do not depend on where the text is said to start. -/
theorem ParseOptions.displaced_location (text : String) (inBlock : Bool) (offset : Nat) :
    options.Displaced options' text
      ((options.lines (.ofText text inBlock)).location offset)
      ((options'.lines (.ofText text inBlock)).location offset) := by
  have hlines : ∀ options : ParseOptions, options.lines (.ofText text inBlock) =
      .ofText text (originOf text.toList) options.line options.column := fun _ => rfl
  rw [hlines, hlines]
  constructor
  case offset => rw [LineTable.location_offset, LineTable.location_offset]
  case line =>
    rw [LineTable.line_location, LineTable.line_location]
    ac_rfl
  all_goals rw [LineTable.location_offset]
  case firstColumn =>
    intro hfirst
    rw [LineTable.column_location_first hfirst, LineTable.column_location_first hfirst]
    ac_rfl
  case laterColumn =>
    intro hlater
    obtain ⟨start, hlast⟩ := Option.ne_none_iff_exists'.1 (mt List.getLast?_eq_none_iff.1 hlater)
    rw [LineTable.column_location_later hlast, LineTable.column_location_later hlast]
  case exactLine =>
    intro hfit hfit'
    rw [LineTable.toNat_line_location hfit, LineTable.toNat_line_location hfit', lineAt, lineAt]
    omega
  case exactColumn =>
    intro hfit hfit' hfirst
    rw [LineTable.toNat_column_location hfit, LineTable.toNat_column_location hfit', columnAt,
      columnAt, show lineStops _ _ _ = [] from hfirst]
    dsimp only [List.getLast?_nil]
    omega

/-- A position records the location of its offset. -/
theorem SourceInfo.location_mk (source : String) (lines : LineTable) (offset : Nat) :
    (⟨source, offset, (lines.location offset).line, (lines.location offset).column⟩ :
      SourceInfo).location = lines.location offset :=
  congrArg (Location.mk · _ _) (LineTable.location_offset _ _).symm

theorem ParseOptions.sourceInfo_of_positions (hpositions : options.positions = true)
    (lines : LineTable) (offset : Nat) : options.sourceInfo lines offset =
      some ⟨options.filename, offset, (lines.location offset).line,
        (lines.location offset).column⟩ := by
  simp [ParseOptions.sourceInfo, hpositions]

theorem ParseOptions.samePlace_sourceInfo (hpositions : options.positions = true)
    (hpositions' : options'.positions = true) (text : String) (inBlock : Bool)
    (info : Option Nat) : Option.Rel (options.SamePlace options' text)
      (info.bind (options.sourceInfo (options.lines (.ofText text inBlock))))
      (info.bind (options'.sourceInfo (options'.lines (.ofText text inBlock)))) := by
  cases info with
  | none => exact .none
  | some offset =>
    rw [Option.bind_some, Option.bind_some, sourceInfo_of_positions hpositions,
      sourceInfo_of_positions hpositions']
    refine .some ⟨rfl, rfl, ?_⟩
    rw [SourceInfo.location_mk, SourceInfo.location_mk]
    exact displaced_location text inBlock offset

theorem Reading.agree_resolve (text : String) (context : Context)
    (options options' : ParseOptions) : options.Agree options' text
      ((Reading.ofText text context).resolve options)
      ((Reading.ofText text context).resolve options') := by
  have htable : (Reading.ofText text context).table = .ofText text context.startsInBlock := by
    unfold Reading.ofText
    dsimp only
    split <;> rfl
  unfold Reading.resolve
  rw [htable]
  cases (Reading.ofText text context).outcome with
  | error failure => exact .refused rfl (ParseOptions.displaced_location _ _ _)
  | ok tree =>
    refine .parsed ?_ ?_ fun hpositions hpositions' => ?_
    · simp only [Node.bare, Node.mapInfo_mapInfo, Option.bind_fun_none]
    · exact String.toList_inj.1 ((Node.compact_mapInfo _ tree).trans
        (Node.compact_mapInfo _ tree).symm)
    · rw [Node.preorder_mapInfo, Node.preorder_mapInfo, List.map_map, List.map_map,
        List.forall₂_map_left_iff, List.forall₂_map_right_iff, List.forall₂_same]
      intro node _
      rw [Function.comp_apply, Function.comp_apply, Node.info_mapInfo, Node.info_mapInfo]
      exact ParseOptions.samePlace_sourceInfo hpositions hpositions' _ _ _

/-- **Only the context decides what is parsed.** Under two sets of options with the same context a
text gives the same tree up to positions or the same error, and positions and errors name the same
places. -/
theorem agree_parse (text : String) (options options' : ParseOptions)
    (hcontext : options.context = options'.context) :
    options.Agree options' text (parse text options) (parse text options') := by
  rw [parse, parse, hcontext]
  exact Reading.agree_resolve _ _ _ _

/-- A fragment that stands at line 3 and column 9 of one source and at the start of another. -/
theorem agree_parse_fragment :
    ParseOptions.Agree ⟨.value, true, "page.html", 3, 9⟩ ⟨.value, true, "a.css", 1, 1⟩ "1px\n2em"
      (parse "1px\n2em" ⟨.value, true, "page.html", 3, 9⟩)
      (parse "1px\n2em" ⟨.value, true, "a.css", 1, 1⟩) :=
  agree_parse _ _ _ rfl

end StyleTree
