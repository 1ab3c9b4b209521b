import StyleTree.Proofs.Grammar.MotionRule
import StyleTree.Proofs.Parse.Reading
import StyleTree.Proofs.Text.Lines
import StyleTree.Proofs.Tree.Walk

/-! A byte order mark moves offsets. In a text with a mark in front, each token, each extension and
each end of a line stands as many bytes later as the mark has, and nothing else changes; readers
follow their tokens, so the tree or the failure of the text with the mark is that of the text
without it, with offsets that are larger by the same amount (`markMoves`). -/

namespace StyleTree

open StyleTree.Parser StyleTree.Grammar

/-! ## Tokens and lines -/

/-- The text with a byte order mark in front. -/
def marked (text : String) : String :=
  String.singleton byteOrderMark ++ text

/-- The number of bytes of the mark. -/
def markSize : Nat :=
  byteOrderMark.utf8Size

theorem toList_marked (text : String) : (marked text).toList = byteOrderMark :: text.toList := by
  simp [marked]

theorem originOf_marked (text : String) : originOf (marked text).toList = markSize := by
  rw [toList_marked]
  rfl

section
variable {text : String} (h : text.toList.head? ≠ some byteOrderMark)
include h

theorem originOf_unmarked : originOf text.toList = 0 := by
  exact (originOf_eq _).trans (if_neg h)

theorem withoutMark_unmarked : withoutMark text.toList = text.toList :=
  withoutMark_eq_self fun _ hc heq => h (heq ▸ hc)

end

/-- The lexemes of a text do not depend on where it starts. -/
theorem scanFrom_add (size rounds : Nat) (state : ScanState) (offset : Nat) (cs : List Char) :
    scanFrom rounds state (offset + size) cs =
      (scanFrom rounds state offset cs).map fun entry => (entry.1 + size, entry.2) := by
  induction rounds generalizing state offset cs with
  | zero => rfl
  | succ rounds ih =>
    cases cs with
    | nil => rfl
    | cons c cs =>
      simp only [scanFrom, List.map_cons, Nat.add_right_comm offset size, ih]

theorem lexemesOf_marked {text : String} (h : text.toList.head? ≠ some byteOrderMark)
    (inBlock : Bool) :
    lexemesOf (marked text) inBlock =
      (lexemesOf text inBlock).map fun entry => (entry.1 + markSize, entry.2) := by
  have hscan := scanFrom_add markSize text.toList.length (ScanState.start inBlock) 0 text.toList
  rw [lexemesOf, lexemesOf, originOf_marked, originOf_unmarked h, withoutMark_unmarked h,
    toList_marked]
  rwa [Nat.zero_add] at hscan

/-- The token that stands after the mark. -/
def Token.later (size : Nat) (token : Token) : Token :=
  { token with start := token.start + size }

/-- The extension that is used after the mark. -/
def Extension.later (size : Nat) (extension : Extension) : Extension :=
  { extension with offset := extension.offset + size }

theorem tokens_marked {text : String} (h : text.toList.head? ≠ some byteOrderMark)
    (inBlock : Bool) :
    (TokenTable.ofText (marked text) inBlock).tokens.toList =
      (TokenTable.ofText text inBlock).tokens.toList.map (Token.later markSize) := by
  rw [TokenTable.toList_tokens_ofText, TokenTable.toList_tokens_ofText, lexemesOf_marked h,
    List.map_map, List.map_map]
  rfl

theorem extensions_marked {text : String} (h : text.toList.head? ≠ some byteOrderMark)
    (inBlock : Bool) :
    (TokenTable.ofText (marked text) inBlock).extensions =
      (TokenTable.ofText text inBlock).extensions.map (Extension.later markSize) := by
  simp only [TokenTable.ofText, lexemesOf_marked h, List.filterMap_map, List.map_filterMap]
  congr 1
  funext entry
  simp only [Function.comp_apply, Option.map_map]
  rfl

/-- The location that is as many bytes later, on the same line and column. -/
def Location.later (size : Nat) (location : Location) : Location :=
  { location with offset := location.offset + size }

/-- The table of lines that start as many bytes later. -/
def LineTable.later (size : Nat) (table : LineTable) : LineTable :=
  { table with origin := table.origin + size, laterStarts := table.laterStarts.map (· + size) }

theorem LineTable.location_later (size : Nat) (table : LineTable) (offset : Nat) :
    (table.later size).location (offset + size) = (table.location offset).later size := by
  have hstarts : (table.laterStarts.map (· + size)).takeWhile
      (fun start => decide (start ≤ offset + size)) =
      (table.laterStarts.takeWhile fun start => decide (start ≤ offset)).map (· + size) := by
    rw [List.takeWhile_map]
    congr 2
    funext start
    simp
  rw [location, location, later, hstarts, List.getLast?_map]
  cases (table.laterStarts.takeWhile fun start => decide (start ≤ offset)).getLast? with
  | none => simp [Location.later, Nat.add_sub_add_right]
  | some start => simp [Location.later, Nat.add_sub_add_right]

theorem LineTable.ofText_marked (text : String) (line column : UInt32) :
    ofText (marked text) markSize line column = (ofText text 0 line column).later markSize := by
  have hcut := cutBytes_append [byteOrderMark] text.toList
  have hsize : Text.byteLength [byteOrderMark] = markSize := rfl
  rw [hsize, List.singleton_append] at hcut
  have hends := lineEnds_add markSize 0 text.toList
  rw [Nat.zero_add] at hends
  have hstart : Text.takeBytes 0 text.toList = [] ∧ Text.dropBytes 0 text.toList = text.toList := by
    cases text.toList <;> exact ⟨rfl, rfl⟩
  simp only [ofText, later, toList_marked, hcut.1, hcut.2, hsize, hends, hstart.1, hstart.2,
    Text.byteLength_nil, Nat.zero_add]

theorem lines_marked {text : String} (h : text.toList.head? ≠ some byteOrderMark)
    (options : ParseOptions) :
    options.linesOf (marked text) = (options.linesOf text).later markSize := by
  show LineTable.ofText (marked text) (originOf (marked text).toList) options.line options.column =
    (LineTable.ofText text (originOf text.toList) options.line options.column).later markSize
  rw [originOf_marked, originOf_unmarked h, LineTable.ofText_marked]

theorem lastNonSpace_marked (text : String) (inBlock : Bool) :
    (TokenTable.ofText (marked text) inBlock).lastNonSpace
      (TokenTable.ofText (marked text) inBlock).size =
      (TokenTable.ofText text inBlock).lastNonSpace
        (TokenTable.ofText text inBlock).size + markSize := by
  rw [TokenTable.lastNonSpace_size, TokenTable.lastNonSpace_size, toList_marked, trimEnd_cons_mark,
    Text.byteLength_cons, Nat.add_comm]
  rfl

/-! ## Runs -/

/-- Everything stands as many bytes later. -/
def Motion.later (size : Nat) : Motion where
  move start := start + size
  move_add _ _ := Nat.add_right_comm ..
  Left _ := True
  left_of_cons _ := trivial
  left_cut _ _ _ _ _ _ := trivial

/-- The production reads the text with the mark as it reads the text without it. -/
theorem production_marked {text : String} (h : text.toList.head? ≠ some byteOrderMark)
    (context : Context) :
    context.production (context.tokens (marked text)).length
      { rest := context.tokens (marked text) } =
      (Motion.later markSize).result (Motion.later markSize).tree
        (context.production (context.tokens text).length { rest := context.tokens text }) := by
  have htokens : context.tokens (marked text) = (context.tokens text).map (Token.later markSize) :=
    tokens_marked h _
  rw [htokens, List.length_map]
  exact (moves_production context (context.tokens text).length).runs (M := .later markSize)
    (P := fun _ => True) (s := { rest := context.tokens text }) trivial trivial

/-- The position that is as many bytes later, on the same line and column. -/
def SourceInfo.later (size : Nat) (info : SourceInfo) : SourceInfo :=
  { info with offset := info.offset + size }

/-- The error that is as many bytes later, on the same line and column. -/
def SyntaxError.later (size : Nat) (error : SyntaxError) : SyntaxError :=
  { error with location := error.location.later size }

/-- The result whose offsets are larger by a size. -/
def resultLater (size : Nat) :
    Except SyntaxError (Node SourceInfo) → Except SyntaxError (Node SourceInfo)
  | .ok node => .ok (node.mapInfo fun info => some (info.later size))
  | .error error => .error (error.later size)

theorem sourceInfo_later (options : ParseOptions) (lines : LineTable) (size offset : Nat) :
    options.sourceInfo (lines.later size) (offset + size) =
      (options.sourceInfo lines offset).map (SourceInfo.later size) := by
  rw [ParseOptions.sourceInfo, ParseOptions.sourceInfo]
  split
  · rw [LineTable.location_later]
    rfl
  · rfl

theorem parse_marked {text : String} (h : text.toList.head? ≠ some byteOrderMark)
    (options : ParseOptions) :
    parse (marked text) options = resultLater markSize (parse text options) := by
  rw [parse_eq, parse_eq, production_marked h, lines_marked h]
  cases options.context.production (options.context.tokens text).length
    { rest := options.context.tokens text } with
  | ok tree s =>
    refine congrArg Except.ok ?_
    rw [Motion.tree, Node.mapInfo_mapInfo, Node.mapInfo_mapInfo]
    congr 1
    funext offset
    exact (sourceInfo_later ..).trans (Option.map_eq_bind ..)
  | error failure s =>
    have hoffset : ((Motion.later markSize).failure failure).reportOffset
          (TokenTable.ofText (marked text) options.context.startsInBlock) =
        failure.reportOffset (TokenTable.ofText text options.context.startsInBlock) + markSize := by
      rw [Failure.reportOffset, Failure.reportOffset, lastNonSpace_marked]
      rcases failure with ⟨cause, ⟨⟩ | offset⟩ <;> rfl
    show Except.error (SyntaxError.mk _ (LineTable.location _ (Failure.reportOffset _ _))) = _
    rw [hoffset, LineTable.location_later]
    rfl

/-- With a byte order mark in front, everything stands three bytes later and is otherwise the same:
the tokens, the extensions, and the tree or the error in every context and with all options. -/
structure MarkMoves (text : String) : Prop where
  tokens : ∀ inBlock, (TokenTable.ofText (marked text) inBlock).tokens.toList =
    (TokenTable.ofText text inBlock).tokens.toList.map (Token.later 3)
  extensions : ∀ inBlock, (TokenTable.ofText (marked text) inBlock).extensions =
    (TokenTable.ofText text inBlock).extensions.map (Extension.later 3)
  parse : ∀ options, parse (marked text) options = resultLater 3 (parse text options)

/-- **A byte order mark only moves offsets**, if the text has none of its own. -/
theorem markMoves {text : String} (h : text.toList.head? ≠ some '\ufeff') : MarkMoves text :=
  ⟨tokens_marked h, extensions_marked h, parse_marked h⟩

theorem markMoves_color :
    "a\x7bcolor:#\x7d".toList.head? ≠ some '\ufeff' ∧ MarkMoves "a\x7bcolor:#\x7d" :=
  ⟨by decide, markMoves (by decide)⟩

end StyleTree
