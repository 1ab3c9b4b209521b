import StyleTree.Proofs.Grammar.Pseudo

/-! Blanks that are written where the text had none: before the expression of an at-rule, and around
`/deep/`. Where no such blank comes in after an open escape (`Node.blanksApart`), the names before
it stay what they are, escapes and all. So the parts of a selector are read again
(`partsReturn_escaped`), and so is an at-rule without a body (`atrule_readsBack`). -/

namespace StyleTree

open StyleTree.Parser StyleTree.Grammar

namespace Node

variable {ι κ : Type}

/-- Whether no blank that is written in the node becomes a part of the name before it. -/
def blanksApart : Node ι → Bool
  | .atrule _ name expression _ => !takesBlank name.toList || expression.all isEmptyExpression
  | .sequence _ .simpleSelector nodes =>
    decide (nodes.IsChain fun node deep => (deep.isDeep && takesBlank node.compact) = false)
  | _ => true

theorem blanksApart_mapInfo (f : ι → Option κ) (node : Node ι) :
    (node.mapInfo f).blanksApart = node.blanksApart := by
  cases node with
  | atrule info name expression body =>
    simp only [mapInfo, mapInfoOption_eq_map, blanksApart, Option.all_map,
      isEmptyExpression_mapInfo]
  | sequence info kind nodes =>
    cases kind <;>
      simp only [mapInfo, mapInfoAll_eq_map, blanksApart, List.isChain_map, isDeep_mapInfo,
        compact_mapInfo]
  | _ => rfl

/-- A blank stands after the name of an at-rule only where it ends the name. -/
theorem takesBlank_of_blanksApart {info : Option ι} {name : String}
    {expression body : Option (Node ι)} {cs : List Char}
    (h : (Node.atrule info name expression body).blanksApart = true)
    (hspace : (expressionChars expression ++ (bodyChars body ++ cs)).head? = some ' ') :
    takesBlank name.toList = false := by
  rcases Bool.or_eq_true_iff.1 h with hname | hempty
  · simpa using hname
  · have hchars : expressionChars expression = [] := by
      cases expression with
      | none => rfl
      | some node => exact if_pos hempty
    rw [hchars] at hspace
    cases body <;> cases hspace

end Node

namespace Grammar

variable {p : Place} {s s' : ParserState} {tree : Tree} {text : List Char} {depth : Nat}

/-- In a text with a closed end, the parts of selectors that call nothing are read again, escapes
and all. -/
theorem partsReturn_escaped (inner : Nested) :
    PartsReturn inner (fun p tokens => p.firm ≠ .soft ∧ Simple tokens)
    (fun _ => True) fun node => takesBlank node.compact = false where
  suffix hinv hfirm hsuffix :=
    ⟨hfirm ▸ hinv.1, fun token hmem => hinv.2 token (hsuffix.subset hmem)⟩
  noComment hinv := (hinv.2.tidy .value).noComments _ (.head _)
  reads {p s s' token rest node} hp hinv hs _ hstarts hread := by
    rcases selectorReader_cases hp hs hstarts
      hread with ⟨front, hrest, hkept⟩ | ⟨hk, -⟩ | ⟨-, hcall⟩
    · obtain ⟨p', hpart⟩ := hkept.returnsAfter hp hinv.1 hrest
      exact ⟨p', ⟨hpart.firm ▸ hinv.1, hpart.balanced.simple hinv.2⟩, hpart⟩
    · have hnot : NotAt .leftBracket s.rest := hinv.2.notAt rfl
      exact absurd (by simp [hs, hk]) hnot
    · obtain ⟨paren, hmem, hk⟩ := hcall.mem_leftParen hp.text_ne
      have hsimple := hinv.2 paren hmem
      rw [hk] at hsimple
      exact nomatch hsimple

/-- A simple selector that calls nothing is read again from its text where no blank comes in after
an open escape. -/
theorem simpleSelector_readsBack_of_blanksApart {inner : Nested}
    (hp : Place.Scans ⟨.start false, text, .closed⟩ s.rest) (hsimple : Simple s.rest)
    (happart : tree.blanksApart = true) (h : simpleSelector inner false s = .ok tree s') :
    Context.simpleSelector.ReadsBack text tree := by
  obtain ⟨info, parts, rfl⟩ := exists_of_simpleSelector h
  have hchain : parts.IsChain fun node deep => (deep.isDeep && takesBlank node.compact) = false :=
    of_decide_eq_true happart
  have hdeep : DeepApart (fun node => takesBlank node.compact = false) parts :=
    hchain.imp fun node deep hapart hisDeep => by rwa [hisDeep, Bool.true_and] at hapart
  exact simpleSelector_readsBack_of_parts (partsReturn_escaped inner) hp ⟨nofun, hsimple⟩
    (fun _ _ => trivial) hdeep h

/-- An at-rule without a body is read again from its text where no blank comes in after an open
escape. -/
theorem atrule_readsBack {sheet : Parser Tree}
    (hp : Place.Scans ⟨.start false, text, .closed⟩ s.rest) (hsimple : Simple s.rest)
    (hbrace : ∀ token ∈ s.rest, token.kind ≠ .leftBrace) (happart : tree.blanksApart = true)
    (h : atrule (.upTo depth) sheet s = .ok tree s') : Context.atrule.ReadsBack text tree := by
  obtain ⟨p', -, -, -, hhead, hreads⟩ :=
    atrule_restates_of_name (upTo_returns depth) hp nofun hsimple (.inl hbrace)
    (fun hq hfirm hread => readName_restates_after hq (hfirm ▸ nofun) hread)
    (fun info name expression body cs htree => ⟨isStopper_after_name expression body cs,
      Node.takesBlank_of_blanksApart (htree ▸ happart)⟩) h
  refine ⟨fun hmark d hd hd' => hmark (hd' ▸ hhead d hd), fun s₁ hs₁ => ?_⟩
  rw [← List.append_nil tree.compact] at hs₁
  obtain ⟨tree', s₂, hread, hbare, -⟩ :=
    hreads (s₁.rest.length + 1) (s₁.rest.length + 1) [] s₁ hs₁ (Nat.le_succ _) (Nat.le_succ _)
  exact ⟨tree', s₂, hread, hbare⟩

end Grammar

/-- An at-rule or a simple selector without comments and extensions comes back from its compact
text, if no bracket, block, bar or flag stands in it, it does not end with a backslash, and no blank
comes in after an open escape. -/
theorem parse_toCss_of_blanksApart {text : String} {options : ParseOptions} {node : Node SourceInfo}
    (hcontext : options.context = .atrule ∨ options.context = .simpleSelector)
    (hpositions : options.positions = false)
    (hcomments : NoComments (TokenTable.ofText text false).tokens.toList)
    (hextensions : (TokenTable.ofText text false).extensions = [])
    (hplain : ∀ c ∈ ['(', '[', '\x7b', '|', '!', byteOrderMark], c ∉ text.toList)
    (hlast : text.toList.getLast? ≠ some '\\')
    (happart : ∀ other ∈ node.preorder, other.blanksApart = true)
    (h : parse text options = .ok node) : parse node.toCss options = .ok node := by
  have hmark : byteOrderMark ∉ text.toList := hplain _ (by simp)
  have hscans := TokenTable.closedScans_ofText hextensions hmark hlast
  have hclosed := TokenTable.closed_ofText hextensions
  have hsimple : Simple (TokenTable.ofText text false).tokens.toList :=
    hscans.simple hcomments (fun token hmem => (hclosed token hmem).1) fun c hmem => hplain c (by
      simp only [List.mem_cons, List.not_mem_nil, or_false] at hmem ⊢
      tauto)
  have hbrace : ∀ token ∈ (TokenTable.ofText text false).tokens.toList, token.kind ≠ .leftBrace :=
    fun token hmem hk =>
    hplain '\x7b' (by simp) (hscans.mem_text_of_char? hmem (by rw [hk]; rfl))
  obtain ⟨tree, s', hread, rfl⟩ := (parse_eq_ok hpositions).1 h
  have htree : tree.blanksApart = true := by
    rw [← Node.blanksApart_mapInfo fun _ => none]
    exact happart _ (Node.self_mem_preorder _)
  refine parse_toCss_of_readsBack hpositions hmark (fun tree' s'' hread' => ?_) h
  rcases hcontext with hcontext | hcontext
  · rw [hcontext] at hread hread' ⊢
    obtain ⟨rfl, -⟩ := EStateM.Result.ok.inj (hread.symm.trans hread')
    exact atrule_readsBack (s := ⟨_, []⟩) hscans hsimple hbrace htree hread
  · rw [hcontext] at hread hread' ⊢
    obtain ⟨rfl, -⟩ := EStateM.Result.ok.inj (hread.symm.trans hread')
    exact simpleSelector_readsBack_of_blanksApart (s := ⟨_, []⟩) hscans hsimple htree hread

/-- Blanks come in and go where names end with escapes, but none comes in after an open one. -/
theorem parse_toCss_of_blanksApart_escapes :
    let atrule : ParseOptions := { context := .atrule }
    let selector : ParseOptions := { context := .simpleSelector }
    let rule : Node SourceInfo := .atrule none "\\41 b" (some (.sequence none .atruleExpression
      [.leaf none .string "'c'", .space none, .leaf none .identifier "d\\2c"])) none
    let parts : Node SourceInfo := .sequence none .simpleSelector
      [.leaf none .identifier "a\\41 ", .leaf none .combinator "/deep/",
        .leaf none .classSelector "b\\2e",
      .leaf none .combinator ">", .leaf none .idSelector "\\z"]
    parse "@\\41 b'c'  d\\2c" atrule = .ok rule ∧ rule.toCss = "@\\41 b 'c' d\\2c;" ∧
      parse rule.toCss atrule = .ok rule ∧
      parse "a\\41 /deep/.b\\2e> #\\z " selector = .ok parts ∧
      parts.toCss = "a\\41  /deep/ .b\\2e>#\\z" ∧
      parse parts.toCss selector = .ok parts := by
  intro atrule selector rule parts
  have hrule : parse "@\\41 b'c'  d\\2c" atrule = .ok rule := by decide +kernel
  have hparts : parse "a\\41 /deep/.b\\2e> #\\z " selector = .ok parts := by decide +kernel
  have hplain : ∀ text ∈ ["@\\41 b'c'  d\\2c", "a\\41 /deep/.b\\2e> #\\z "],
      (['(', '[', '\x7b', '|', '!', byteOrderMark].all fun c =>
        decide (c ∉ text.toList)) = true := by
    decide +kernel
  refine ⟨hrule, by decide +kernel, ?_, hparts, by decide +kernel, ?_⟩
  · refine parse_toCss_of_blanksApart (.inl rfl) rfl ?_ (by decide +kernel)
      (fun c hmem => of_decide_eq_true (List.all_eq_true.1 (hplain _ (by simp)) c hmem))
        (by decide +kernel)
      (by decide +kernel) hrule
    unfold NoComments
    decide +kernel
  · refine parse_toCss_of_blanksApart (.inr rfl) rfl ?_ (by decide +kernel)
      (fun c hmem => of_decide_eq_true (List.all_eq_true.1 (hplain _ (by simp)) c hmem))
        (by decide +kernel)
      (by decide +kernel) hparts
    unfold NoComments
    decide +kernel

/-- A blank that comes in after an open escape is read as a part of the name. -/
theorem parse_toCss_ne_of_openEscape :
    let options : ParseOptions := { context := .simpleSelector }
    let parts (name : String) : Node SourceInfo := .sequence none .simpleSelector
      [.leaf none .identifier name, .leaf none .combinator "/deep/", .leaf none .identifier "b"]
    NoComments (TokenTable.ofText "a\\41/deep/b" false).tokens.toList ∧
      (TokenTable.ofText "a\\41/deep/b" false).extensions = [] ∧
      (['(', '[', '\x7b', '|', '!', byteOrderMark].all fun c =>
        decide (c ∉ "a\\41/deep/b".toList)) = true ∧
      "a\\41/deep/b".toList.getLast? ≠ some '\\' ∧
      parse "a\\41/deep/b" options = .ok (parts "a\\41") ∧
      (parts "a\\41").toCss = "a\\41 /deep/ b" ∧
      parse (parts "a\\41").toCss options = .ok (parts "a\\41 ") ∧
      parse (parts "a\\41").toCss options ≠ .ok (parts "a\\41") := by
  unfold NoComments
  decide +kernel

end StyleTree
