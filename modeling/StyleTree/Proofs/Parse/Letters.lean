import StyleTree.Proofs.Grammar.WritingRule
import StyleTree.Proofs.Parse.Reading
import StyleTree.Proofs.Token.Seam

/-! Nothing that counts is lost or invented. A value without comments and flags is written with the
letters it was read from, and so is a style sheet without functions, attributes and discarded
selectors, semicolons apart (`letters_toCss_of_parse`). -/

namespace StyleTree

open StyleTree.Parser StyleTree.Grammar

theorem withoutMark_suffix (cs : List Char) : withoutMark cs <:+ cs := by
  cases cs with
  | nil => exact List.suffix_refl _
  | cons c cs =>
    rw [withoutMark]
    split
    · exact List.suffix_cons c cs
    · exact List.suffix_refl _

/-- The tokens of a text are clear if there are no comments and no flags among them. -/
theorem clear_tokens {flat : Bool} {context : Context} {text : String}
    (hunmarked : ∀ token ∈ context.tokens text, token.kind ≠ .comment ∧
      token.kind ≠ .exclamationMark)
    (hlevel : flat = true → ∀ token ∈ context.tokens text, token.kind ≠ .leftParen ∧
      token.kind ≠ .leftBracket) :
    Clear flat (context.tokens text) where
  spelled := (TokenTable.scans_ofText text context.startsInBlock).spelled
  blank token hmem hk := by
    obtain ⟨state, rest, hread⟩ :=
      (TokenTable.scans_ofText text context.startsInBlock).exists_reads hmem
    rw [hk] at hread
    exact isBlank_of_reads_whitespace hread
  unmarked := hunmarked
  level := hlevel

/-- The sign of a token stands in the text. -/
theorem mem_text_of_char? {context : Context} {text : String} {token : Token} {c : Char}
    (hmem : token ∈ context.tokens text) (hc : token.kind.char? = some c) : c ∈ text.toList :=
  (withoutMark_suffix _).mem
    ((TokenTable.scans_ofText text context.startsInBlock).mem_text_of_char? hmem hc)

/-- What is read to the end of input is the text. -/
theorem chars_of_takes {context : Context} {text : String} {front rest : List Token}
    (h : Takes (context.tokens text) front rest) (hrest : rest = []) :
    tokenChars front = withoutMark text.toList := by
  have htext := (TokenTable.scans_ofText text context.startsInBlock).text_eq
  have hchars := h.chars
  rw [hrest, tokenChars_nil, List.append_nil] at hchars
  exact hchars.symm.trans htext.symm

/-- A value that is read leaves nothing, unless a semicolon or a closing brace stands in the
text. -/
theorem rest_of_value {inner : Nested} {s s' : ParserState} {tree : Tree} {front : List Token}
    (htakes : Takes s.rest front s'.rest)
    (hends : ∀ token ∈ s.rest, token.kind ≠ .semicolon ∧ token.kind ≠ .rightBrace)
    (h : value inner false s = .ok tree s') : s'.rest = [] := by
  refine List.head?_eq_none_iff.1 (Option.eq_none_iff_forall_ne_some.2 fun token hhead => ?_)
  rcases htakes.mem_of_mem_rest token (List.mem_of_mem_head? hhead) with hmem | hident
  · obtain ⟨hsemicolon, hbrace⟩ := hends token hmem
    rcases ends_of_value h token hhead with hk | hk | ⟨hnested, -⟩
    · exact hsemicolon hk
    · exact hbrace hk
    · exact nomatch hnested
  · rcases ends_of_value h token hhead with hk | hk | ⟨hnested, -⟩
    · exact nomatch hident.symm.trans hk
    · exact nomatch hident.symm.trans hk
    · exact nomatch hnested

/-- **Nothing that counts is lost or invented.** Blanks and the case of letters apart, a value is
written as it is read, if there are no comments, flags, semicolons and closing braces among its
tokens. Semicolons apart too, so is a style sheet without comments, if none of `(`, `[` and `!`
stands in its text and no selector in the tree is empty. -/
theorem letters_toCss_of_parse {text : String} {options : ParseOptions} {node : Node SourceInfo}
    (h : parse text options = .ok node) :
    (options.context = .value →
      (∀ token ∈ options.context.tokens text,
        token.kind ∉ [.comment, .exclamationMark, .semicolon, .rightBrace]) →
      letters [] node.toCss.toList = letters [] (withoutMark text.toList)) ∧
    (options.context = .stylesheet →
      (∀ token ∈ options.context.tokens text, token.kind ≠ .comment) →
      (∀ c ∈ ['(', '[', '!'], c ∉ text.toList) → node.SelectorsKept →
      letters [';'] node.toCss.toList = letters [';'] (withoutMark text.toList)) := by
  obtain ⟨tree, s', hrun, rfl⟩ := parse_eq_ok_iff.1 h
  have hcompact : (tree.mapInfo (options.sourceInfo (options.linesOf text))).toCss.toList =
      tree.compact :=
    Node.compact_mapInfo _ tree
  rw [hcompact]
  constructor
  · intro hcontext hkinds
    rw [hcontext] at hrun hkinds
    simp only [List.mem_cons, List.not_mem_nil, or_false, not_or] at hkinds
    have hclear : Clear false (Context.value.tokens text) :=
      clear_tokens (fun token hmem => by simp [hkinds token hmem]) nofun
    have hinner : NestedWrites [] false (.upTo ((Context.value.tokens text).length + 1)) :=
      nestedWrites_upTo _
    obtain ⟨-, front, htakes, hletters⟩ :=
      writes_value (P := fun _ => True) hinner false _ tree s' hclear trivial hrun
    have hrest := rest_of_value htakes (fun token hmem => (hkinds token hmem).2.2) hrun
    rw [hletters, List.nil_append, chars_of_takes htakes hrest]
  · intro hcontext hcomments hplain hkept
    rw [hcontext] at hrun hcomments
    have hlacks : ∀ {c : Char}, c ∈ ['(', '[', '!'] →
        ∀ token ∈ Context.stylesheet.tokens text, token.kind.char? ≠ some c :=
      fun hc token hmem hsign => hplain _ hc (mem_text_of_char? hmem hsign)
    have hclear : Clear true (Context.stylesheet.tokens text) := by
      refine clear_tokens (fun token hmem => ⟨hcomments token hmem, fun hk => ?_⟩)
        fun _ token hmem => ⟨fun hk => ?_, fun hk => ?_⟩
      · exact hlacks (c := '!') (by simp) token hmem (by rw [hk]; rfl)
      · exact hlacks (c := '(') (by simp) token hmem (by rw [hk]; rfl)
      · exact hlacks (c := '[') (by simp) token hmem (by rw [hk]; rfl)
    have hinner : NestedWrites [';'] true (.upTo ((Context.stylesheet.tokens text).length + 1)) :=
      nestedWrites_upTo _
    obtain ⟨-, front, htakes, hletters⟩ :=
      writesKept_styleSheet (P := fun _ => True) hinner
        (writesKept_nestedSheet hinner _) false _ tree s' hclear trivial hrun
    rw [hletters (Node.selectorsKept_mapInfo.1 hkept),
      chars_of_takes htakes (rest_of_styleSheet hrun)]

/-- A link and a unit that ends before an escape; an at-rule, a namespace, an empty declaration and
an escape. -/
theorem letters_toCss_of_parse_both :
    let value : Node SourceInfo := .sequence none (.value false)
      [.wrapper none .url (.leaf none .raw "a.b"), .space none, .dimension none "1" "PX",
        .leaf none .identifier "\\9", .leaf none .operator ",", .sequence none (.function "VAR")
          [.sequence none .argument [.leaf none .identifier "--x"],
            .sequence none .argument [.sequence none (.value false) [.leaf none .percentage "2"]]]]
    let sheet : Node SourceInfo := .sequence none .styleSheet
      [.atrule none "M" (some (.sequence none .atruleExpression [.leaf none .identifier "a"])) none,
        .pair none .ruleset (.sequence none .selector
            [.sequence none .simpleSelector
              [.leaf none .identifier "n|p", .leaf none .combinator ">",
                .leaf none .identifier "q"],
            .sequence none .simpleSelector
              [.leaf none .classSelector "R", .leaf none .pseudoElement "s"]])
          (.sequence none .block
            [.pair none .declaration (.leaf none .property "c")
              (.sequence none (.value false) [.leaf none .identifier "E\\z"]),
            .pair none .declaration (.leaf none .property "*e")
              (.sequence none (.value false) [.leaf none .identifier "f"])])]
    (parse "\ufeffURL( a.b )  1PX\\9,VAR( --x , 2% )" { context := .value } = .ok value ∧
      letters [] value.toCss.toList =
        letters [] (withoutMark "\ufeffURL( a.b )  1PX\\9,VAR( --x , 2% )".toList)) ∧
    parse "\ufeff@M a; n|p  >q ,.R::s\x7b c : E\\z ; ; *e:f\x7d" {} = .ok sheet ∧
      letters [';'] sheet.toCss.toList =
        letters [';']
          (withoutMark "\ufeff@M a; n|p  >q ,.R::s\x7b c : E\\z ; ; *e:f\x7d".toList) := by
  intro value sheet
  have hvalue : parse "\ufeffURL( a.b )  1PX\\9,VAR( --x , 2% )" { context := .value } =
      .ok value := by
    decide +kernel
  have hsheet : parse "\ufeff@M a; n|p  >q ,.R::s\x7b c : E\\z ; ; *e:f\x7d" {} = .ok sheet := by
    decide +kernel
  have hplain : (['(', '[', '!'].all fun c =>
      decide (c ∉ "\ufeff@M a; n|p  >q ,.R::s\x7b c : E\\z ; ; *e:f\x7d".toList)) = true := by
        decide +kernel
  have hkept : (sheet.preorder.all fun node => !node.isEmptySelector) = true := by decide +kernel
  refine ⟨⟨hvalue, ?_⟩, hsheet, ?_⟩
  · exact (letters_toCss_of_parse hvalue).1 rfl (by decide +kernel)
  · exact (letters_toCss_of_parse hsheet).2 rfl (by decide +kernel)
      (fun c hmem => of_decide_eq_true (List.all_eq_true.1 hplain c hmem))
      fun node hmem => by simpa using List.all_eq_true.1 hkept node hmem

end StyleTree
