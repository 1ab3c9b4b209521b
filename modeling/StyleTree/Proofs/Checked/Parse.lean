import StyleTree.Proofs.Checked.AgreementRule
import StyleTree.Proofs.Checked.Scanning
import StyleTree.Proofs.Parse.ByteOrderMark
import StyleTree.Proofs.Parse.Options
import StyleTree.Proofs.Parse.Shape
import StyleTree.Proofs.Token.Locality

/-! Parsing never fails but by a syntax error, and it ends. A text is parsed on the machine from its
bytes: its lines are found, its tokens are scanned, the extensions among them are reported, and the
tokens are read. The run ends as the readers do, with the tree at its source positions or with the
syntax error (`parseChecked_eq`). Sums of words that do not fit wrap around; where they stop the run
instead, it ends in the same way if the lines and columns of the text fit
(`parseChecked_of_sumsFit`). So on the machine, too, only the context decides what is parsed
(`agree_parseChecked`). -/

namespace StyleTree

open StyleTree.Parser StyleTree.Grammar

/-- The bytes of the text are scanned, the extensions are reported, and the tokens are read. -/
def Source.read (p : Source) : ExceptT Fault Option (Node SourceInfo) := do
  let scanner ← Scanner.tokenize p p.options.context.startsInBlock
  let _ ← (Scanner.report p scanner.extensions).run' ()
  (Machine.production p p.options.context).run' ⟨scanner.tokens, 0⟩

/-- A text is parsed on the machine, from its bytes. -/
def parseChecked (overflow : Overflow) (text : String) (options : ParseOptions) :
    Option (Except Fault (Node SourceInfo)) := ExceptT.run do
  let lines ← (Scanner.lineTable text options).run' ()
  Source.read ⟨text, overflow, lines, options⟩

variable {overflow : Overflow} {text : String} {options : ParseOptions}

/-! ## Where a text starts -/

/-- A comment of which there is only the opening mark is followed by nothing. -/
theorem Reads.eq_nil_of_mark {state : ScanState} {w rest : List Char}
    (h : Reads state .comment w rest) (hlength : w.length = 2) : rest = [] := by
  have hnone : w.drop 2 = [] := List.drop_eq_nil_iff.2 (Nat.le_of_eq hlength)
  have hopen : extensionOf .comment w = some .unterminatedComment := by
    rw [extensionOf, hnone]
    exact if_neg (by decide)
  exact h.rest_eq_nil hopen (by decide)

theorem Place.Scans.openEnd {q : Place} {front back : List Token} {token : Token}
    (h : q.Scans (front ++ token :: back)) (hk : token.kind = .comment)
    (hlength : token.text.toList.length = 2) :
    back = [] := by
  obtain ⟨cs, -, hscan⟩ := h.append
  obtain ⟨cs, -, hread, hrest⟩ := hscan.cons
  rw [hk] at hread
  obtain rfl := hread.eq_nil_of_mark hlength
  exact hrest.eq_nil rfl

/-- Sums of words wrap around, or the lines and columns of the text and the number of its open
blocks fit in words. -/
def ParseOptions.SumsFit (overflow : Overflow) (text : String) (options : ParseOptions) : Prop :=
  overflow = .stops → options.Fits text ∧ text.utf8ByteSize + 1 < 2 ^ 32

/-- The source of a text. -/
def ParseOptions.source (overflow : Overflow) (text : String) (options : ParseOptions) : Source :=
  ⟨text, overflow, options.linesOf text, options⟩

theorem LineTable.fitsAt_ofText {origin offset : Nat} {line column : UInt32}
    (h : NumbersFit (Text.bytes text) origin line column offset) :
    (ofText text origin line column).FitsAt offset := by
  have hcolumn := h.column_lt
  rw [columnAt] at hcolumn
  constructor <;> rw [takeWhile_laterStarts]
  · exact h.line_lt
  · intro hnone
    rwa [hnone] at hcolumn
  · intro start hlast
    rwa [show _ = some start from hlast] at hcolumn

theorem fits_source (hsmall : text.utf8ByteSize < 2 ^ 32) (h : options.SumsFit overflow text) :
    (options.source overflow text).Fits where
  small := by rwa [← byteLength_toList] at hsmall
  origin_le start hmem := by
    obtain ⟨mark, hmark, horigin⟩ := exists_mark text.toList
    have htake : Text.takeBytes (originOf text.toList) text.toList = mark := by
      rw [← horigin, hmark]
      exact (cutBytes_append mark _).1
    have hle : Text.byteLength (Text.takeBytes (originOf text.toList) text.toList) ≤ start :=
      Nat.le_of_lt (List.rel_of_pairwise_cons (pairwise_lineEnds _ _) hmem)
    rwa [htake, horigin] at hle
  sums hstops offset hle := by
    rw [byteLength_toList] at hle
    exact LineTable.fitsAt_ofText ((h hstops).1 offset hle)

theorem scannable_source (hsmall : text.utf8ByteSize < 2 ^ 32) (h : options.SumsFit overflow text) :
    Scanner.Scannable (options.source overflow text) := by
  have hlength := (Scanner.length_byteChars text).trans (byteLength_toList text)
  exact ⟨hlength ▸ hsmall, fun hstops => hlength ▸ (h hstops).2⟩

/-- A text falls into its mark and its tokens. -/
theorem placed_start (hfits : (options.source overflow text).Fits) :
    ∃ mark, Placed (options.source overflow text) mark (options.context.tokens text) := by
  obtain ⟨mark, hmark, horigin⟩ := exists_mark text.toList
  have htiles : Tiles (Text.byteLength mark) (withoutMark text.toList)
      (options.context.tokens text) :=
    horigin ▸ tiles_ofText text options.context.startsInBlock
  have hchars := htiles.chars_eq
  have hscans : Place.Scans ⟨.start options.context.startsInBlock, withoutMark text.toList, .soft⟩
      (options.context.tokens text) := TokenTable.scans_ofText text options.context.startsInBlock
  refine ⟨mark, hchars ▸ hmark, hchars ▸ htiles, hscans.spelled, ?_, hfits⟩
  exact fun front token back htokens hk hlength =>
    Place.Scans.openEnd (htokens ▸ hscans) hk hlength

/-- The machine stands before the first token. -/
theorem stands_start : (⟨(options.context.tokens text).map Token.span, 0⟩ : Machine).Stands
    (options.context.tokens text).length (options.context.tokens text) where
  rest := rfl
  position := Nat.zero_add _
  count := List.length_map _

/-- Extensions stand in the text. -/
theorem offset_le_of_mem_extensions {inBlock : Bool} {extension : Extension}
    (h : extension ∈ (TokenTable.ofText text inBlock).extensions) :
    extension.offset ≤ Text.byteLength text.toList := by
  rw [TokenTable.extensions_ofText] at h
  obtain ⟨token, hmem, hextension⟩ := List.mem_filterMap.1 h
  obtain ⟨kind, -, rfl⟩ := Option.map_eq_some_iff.1 hextension
  obtain ⟨mark, hmark, horigin⟩ := exists_mark text.toList
  have hstop := (tiles_ofText text inBlock).stop_le token hmem
  rw [← horigin, ← Text.byteLength_append, ← hmark] at hstop
  exact (Nat.le_add_right _ _).trans hstop

/-- The tokens of the text are read on the machine. -/
theorem run_production (hfits : (options.source overflow text).Fits) :
    (Machine.production (options.source overflow text) options.context).run'
        ⟨(options.context.tokens text).map Token.span, 0⟩ =
      some ((parse text options).mapError .refused) := by
  obtain ⟨mark, hplaced⟩ := placed_start hfits
  have hanswer := agrees_production options.context (Nat.lt_succ_self _) hplaced _ [] stands_start
  have hrefusal : ∀ e : Failure, (options.source overflow text).refusal e =
      .refused ⟨e.cause.message, (options.linesOf text).location
        (e.reportOffset (TokenTable.ofText text options.context.startsInBlock))⟩ := by
    intro e
    rw [Failure.reportOffset, TokenTable.lastNonSpace_size]
    rfl
  rw [parse_eq, StateT.run'_eq]
  show (Prod.fst <$> Machine.production (options.source overflow text) options.context
    ⟨(options.context.tokens text).map Token.span, 0⟩ : ExceptT Fault Option _) = _
  generalize options.context.production _ _ = result, Machine.production _ _ _ = answer at hanswer ⊢
  cases hanswer with
  | ok _ _ hnode => rw [hnode]; rfl
  | error => rw [hrefusal]; rfl

/-- A run to the end hands on its value. -/
theorem run'_bind {α β σ : Type} {action : Run σ α} {s s' : σ} {a : α}
    (h : action s = some (.ok (a, s'))) (f : α → ExceptT Fault Option β) :
    action.run' s >>= f = f a := by
  show Option.bind (Option.bind (action s) _) _ = _
  rw [h]
  rfl

theorem read_source (hsmall : text.utf8ByteSize < 2 ^ 32) (h : options.SumsFit overflow text) :
    (options.source overflow text).read = some ((parse text options).mapError .refused) := by
  have hfits := fits_source hsmall h
  obtain ⟨scanner, hrun, htokens, hextensions⟩ :=
    Scanner.run_tokenize (scannable_source hsmall h) options.context.startsInBlock
  have hreport := Scanner.run_report (s := ()) hfits
    fun extension (hmem : extension ∈ scanner.extensions) =>
      offset_le_of_mem_extensions (hextensions ▸ hmem)
  show Option.bind (Scanner.tokenize (options.source overflow text)
    options.context.startsInBlock) _ = _
  rw [hrun]
  show (Scanner.report _ scanner.extensions).run' () >>= _ = _
  rw [run'_bind hreport, htokens]
  exact run_production hfits

/-- Parsing on the machine ends as parsing does, where sums of words wrap around or fit. -/
theorem parseChecked_of_sumsFit (hsmall : text.utf8ByteSize < 2 ^ 32)
    (h : options.SumsFit overflow text) :
    parseChecked overflow text options = some ((parse text options).mapError .refused) := by
  have hsize : Text.byteLength text.toList < 2 ^ 32 := by rwa [byteLength_toList]
  rw [parseChecked, ExceptT.run, run'_bind (Scanner.run_lineTable (s := ()) hsize options)]
  exact read_source hsmall h

/-- **Parsing never fails but by a syntax error, and it ends.** -/
theorem parseChecked_eq (text : String) (options : ParseOptions) (h : text.utf8ByteSize < 2 ^ 32) :
    parseChecked .wraps text options = some ((parse text options).mapError .refused) :=
  parseChecked_of_sumsFit h nofun

/-- Both units are cut before the escape, and the rest of their tokens is read as a name. -/
theorem parseChecked_eq_units :
    let node : Node SourceInfo := .sequence none (.value false)
      [.dimension none "1" "px", .leaf none .identifier "\\9", .leaf none .operator ",",
        .dimension none "2" "em", .leaf none .identifier "\\0"]
    "1px\\9,2em\\0".utf8ByteSize < 2 ^ 32 ∧
      parseChecked .wraps "1px\\9,2em\\0" { context := .value } = some (.ok node) := by
  intro node
  have h : parse "1px\\9,2em\\0" { context := .value } = .ok node := by decide +kernel
  have hsize : "1px\\9,2em\\0".utf8ByteSize < 2 ^ 32 := by decide +kernel
  refine ⟨hsize, ?_⟩
  rw [parseChecked_eq _ _ hsize, h]
  rfl

/-- **Only the context decides what the machine parses.** Under two sets of options with the same
context its runs on a text end with the same tree up to positions or with the same error, and
positions and errors name the same places. -/
theorem agree_parseChecked {options' : ParseOptions} (hsmall : text.utf8ByteSize < 2 ^ 32)
    (h : options.SumsFit overflow text) (h' : options'.SumsFit overflow text)
    (hcontext : options.context = options'.context) : ∃ result result',
      parseChecked overflow text options = some (result.mapError .refused) ∧
      parseChecked overflow text options' = some (result'.mapError .refused) ∧
      options.Agree options' text result result' := by
  refine ⟨_, _, parseChecked_of_sumsFit hsmall h, parseChecked_of_sumsFit hsmall h', ?_⟩
  rw [parse, parse, hcontext]
  exact Reading.agree_resolve _ _ _ _

end StyleTree
