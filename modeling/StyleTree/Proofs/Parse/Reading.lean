import StyleTree.Parse
import StyleTree.Proofs.Grammar.Place
import StyleTree.Proofs.Grammar.Run
import StyleTree.Proofs.Print.Compact

/-! From parsing a text to running the grammar. The tokens of a text are those that the scanner
makes of it (`TokenTable.scans_ofText`), and a text is parsed if the production of the context reads
a tree from them, whose offsets are then resolved (`parse_eq_ok_iff`). -/

namespace StyleTree

open StyleTree.Parser

theorem TokenTable.scans_ofText (text : String) (inBlock : Bool) :
    Place.Scans ⟨.start inBlock, withoutMark text.toList, .soft⟩
      (TokenTable.ofText text inBlock).tokens.toList := by
  refine ⟨?_, trivial⟩
  rw [toList_tokens_ofText, List.map_map]
  have hcore : (Token.core ∘ fun entry : Nat × Lexeme => entry.2.token entry.1) =
      fun entry => (entry.2.kind, entry.2.chars) := by
    funext entry
    simp [Token.core, Lexeme.token]
  exact (congrArg (List.map · _) hcore).trans (map_scanFrom (Nat.le_refl _))

theorem withoutMark_eq_self {cs : List Char} (h : ∀ d ∈ cs.head?, d ≠ byteOrderMark) :
    withoutMark cs = cs := by
  cases cs with
  | nil => rfl
  | cons c cs => rw [withoutMark, if_neg (h c rfl)]

/-- The tokens of a text, as the context has them. -/
def Context.tokens (context : Context) (text : String) : List Token :=
  (TokenTable.ofText text context.startsInBlock).tokens.toList

/-- The lines of a text, as the options have them. -/
def ParseOptions.linesOf (options : ParseOptions) (text : String) : LineTable :=
  options.lines (TokenTable.ofText text options.context.startsInBlock)

/-- A text is read by the production of the context, and what it gives is resolved. -/
theorem parse_eq (text : String) (options : ParseOptions) : parse text options =
    match options.context.production (options.context.tokens text).length
      { rest := options.context.tokens text } with
    | .ok tree _ => .ok (tree.mapInfo (options.sourceInfo (options.linesOf text)))
    | .error failure _ => .error ⟨failure.cause.message, (options.linesOf text).location
      (failure.reportOffset (TokenTable.ofText text options.context.startsInBlock))⟩ := by
  have hrun : ∀ (x : Parser Tree) s, x.run s = x s := fun _ _ => rfl
  rw [Context.tokens, Array.length_toList, parse, Reading.ofText]
  simp only [hrun]
  cases options.context.production
    (TokenTable.ofText text options.context.startsInBlock).tokens.size
    { rest := (TokenTable.ofText text options.context.startsInBlock).tokens.toList } <;> rfl

/-- A text is parsed if the production of the context reads it; the positions are then resolved. -/
theorem parse_eq_ok_iff {text : String} {options : ParseOptions} {node : Node SourceInfo} :
    parse text options = .ok node ↔ ∃ tree s',
      options.context.production (options.context.tokens text).length
        { rest := options.context.tokens text } = .ok tree s' ∧
      tree.mapInfo (options.sourceInfo (options.linesOf text)) = node := by
  rw [parse_eq]
  cases options.context.production (options.context.tokens text).length
    { rest := options.context.tokens text } <;> simp

theorem ParseOptions.sourceInfo_eq_none {options : ParseOptions}
    (hpositions : options.positions = false) (lines : LineTable) :
    options.sourceInfo lines = fun _ => none := by
  funext offset
  simp [ParseOptions.sourceInfo, hpositions]

theorem parse_eq_ok {text : String} {options : ParseOptions} {node : Node SourceInfo}
    (hpositions : options.positions = false) :
    parse text options = .ok node ↔ ∃ tree s',
      options.context.production
        (TokenTable.ofText text options.context.startsInBlock).tokens.toList.length
        { rest := (TokenTable.ofText text options.context.startsInBlock).tokens.toList } =
        .ok tree s' ∧ tree.bare = node := by
  rw [parse_eq_ok_iff, ParseOptions.sourceInfo_eq_none hpositions]
  rfl

/-- A text is refused if the production of the context fails, and the cause words the message. -/
theorem parse_of_error {text : String} {options : ParseOptions} {failure : Failure}
    {s' : ParserState} (h : options.context.production (options.context.tokens text).length
      { rest := options.context.tokens text } = .error failure s') :
    ∃ error, parse text options = .error error ∧ error.message = failure.cause.message := by
  rw [parse_eq, h]
  exact ⟨_, rfl, rfl⟩

end StyleTree
