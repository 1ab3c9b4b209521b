import StyleTree.Proofs.Grammar.RulePlacement
import StyleTree.Proofs.Parse.Options
import StyleTree.Proofs.Parse.Shape
import StyleTree.Proofs.Text.Lines

/-! Positions in parsed trees. Tokens tile the text, so nodes that stand among the tokens (`Marks`)
stand in the text: each position is where the literal text of its node starts (`pointsAt_of_parse`),
and in pre-order the positions do not go back (`inOrder_of_parse`). -/

namespace StyleTree

open StyleTree.Parser StyleTree.Grammar

/-! ## Nodes in the text -/

/-- Where an identifier is cut, the tokens still tile the characters. -/
theorem Tiles.of_cut {offset : Nat} {cs unit escape : List Char} {front tokens : List Token}
    {ident : Token} (h : Tiles offset cs (front ++ ident :: tokens))
    (htext : ident.text.toList = unit ++ escape) (hescape : escape ≠ []) :
    ident.start + Text.byteLength unit = offset + Text.byteLength (tokenChars front ++ unit) ∧
      ∃ cs', cs = tokenChars front ++ unit ++ cs' ∧
        Tiles (offset + Text.byteLength (tokenChars front ++ unit)) cs'
          ({ ident with
              text := String.ofList escape, start := ident.start + Text.byteLength unit } ::
            tokens) := by
  obtain ⟨cs', rfl, hrest⟩ := h.of_append
  obtain ⟨hstart, -, cs', rfl, hlater⟩ := hrest.of_cons
  have hcut : ident.start + Text.byteLength unit =
      offset + Text.byteLength (tokenChars front ++ unit) := by
    rw [hstart, Text.byteLength_append, Nat.add_assoc]
  have hstop : ident.stop =
      ident.start + Text.byteLength unit + Text.byteLength escape := by
    rw [Token.stop, htext, Text.byteLength_append, Nat.add_assoc]
  have hescaped : Tiles (Token.stop { ident with
      text := String.ofList escape, start := ident.start + Text.byteLength unit }) cs' tokens := by
    rwa [Token.stop, String.toList_ofList, ← hstop]
  refine ⟨hcut, (String.ofList escape).toList ++ cs', by simp [htext], hcut ▸ .cons ?_ hescaped⟩
  simpa using hescape

theorem Text.byteLength_pos {cs : List Char} (h : cs ≠ []) : 0 < Text.byteLength cs := by
  obtain ⟨c, w, rfl⟩ := List.exists_cons_of_ne_nil h
  have hpos := c.utf8Size_pos
  rw [Text.byteLength_cons]
  omega

/-- A position is where the unit of a dimension ends inside of an identifier. -/
def EndsUnit {ι : Type} (offset : ι → Nat) (tokens : List Token) (nodes : List (Node ι))
    (position : Nat) :
    Prop :=
  (∃ token ∈ tokens, token.kind = .ident ∧ token.start < position ∧ position < token.stop) ∧
    ∃ info value unit, .dimension (some info) value unit ∈ nodes ∧
      position = offset info + Text.byteLength (value.toList ++ unit.toList)

/-- Among tokens that tile the characters, the node stands at a position: a token starts there or a
unit ends there, and the characters from there on start with the literal text of the node. -/
structure Stands (offset : Nat) (cs : List Char) (tokens : List Token) (nodes : List Tree)
    (node : Tree) (position : Nat) : Prop where
  chars : ∃ before after, cs = before ++ after ∧ position = offset + Text.byteLength before ∧
    node.OpensWith after ∧ (node.typeName = "Atrule" → before.getLast? = some '@')
  boundary : (∃ token ∈ tokens, token.start = position) ∨ EndsUnit id tokens nodes position

namespace Stands

variable {offset : Nat} {cs : List Char} {tokens : List Token} {nodes : List Tree} {node : Tree}
  {position : Nat}

theorem le (h : Stands offset cs tokens nodes node position) : offset ≤ position := by
  obtain ⟨before, -, -, rfl, -⟩ := h.chars
  exact Nat.le_add_right _ _

theorem mono {nodes' : List Tree} (h : Stands offset cs tokens nodes node position)
    (hnodes : nodes ⊆ nodes') : Stands offset cs tokens nodes' node position := by
  refine ⟨h.chars, h.boundary.imp_right ?_⟩
  rintro ⟨htoken, info, value, unit, hmem, hposition⟩
  exact ⟨htoken, info, value, unit, hnodes hmem, hposition⟩

/-- Characters that are read before. -/
theorem after {front : List Char} {tokens' : List Token} {nodes' : List Tree}
    (h : Stands (offset + Text.byteLength front) cs tokens nodes node position)
    (hboundary : (∃ token ∈ tokens, token.start = position) ∨ EndsUnit id tokens nodes position →
      (∃ token ∈ tokens', token.start = position) ∨ EndsUnit id tokens' nodes' position) :
    Stands offset (front ++ cs) tokens' nodes' node position := by
  refine ⟨?_, hboundary h.boundary⟩
  obtain ⟨before, after, rfl, rfl, hopens, hsign⟩ := h.chars
  refine ⟨front ++ before, after, by simp, by rw [Text.byteLength_append, Nat.add_assoc], hopens,
    fun htype => ?_⟩
  rw [List.getLast?_append, hsign htype]
  rfl

end Stands

theorem EndsUnit.of_subset {ι : Type} {offset : ι → Nat} {tokens tokens' : List Token}
    {nodes : List (Node ι)} {position : Nat} (h : EndsUnit offset tokens nodes position)
    (htokens : tokens ⊆ tokens') : EndsUnit offset tokens' nodes position := by
  obtain ⟨⟨token, hmem, htoken⟩, hunit⟩ := h
  exact ⟨⟨token, htokens hmem, htoken⟩, hunit⟩

theorem Marks.stands {tokens rest : List Token} {nodes : List Tree} {offset : Nat} {cs : List Char}
    (h : Marks tokens nodes rest) (htiles : Tiles offset cs tokens) :
    ∀ node ∈ nodes, ∀ position ∈ node.info, Stands offset cs tokens nodes node position := by
  induction h generalizing offset cs with
  | nil => exact nofun
  | @skip token tokens _ _ _ ih =>
    cases htiles with
    | cons _ htiles =>
      intro node hmem position hposition
      refine (ih htiles node hmem position hposition).after ?_
      exact Or.imp (fun ⟨other, hother, hstart⟩ => ⟨other, .tail _ hother, hstart⟩)
        fun hunit => hunit.of_subset (List.subset_cons_self _ _)
  | bare hinfo _ ih =>
    rintro node (_ | ⟨_, hmem⟩) position hposition
    · rw [hinfo] at hposition
      exact nomatch hposition
    · exact (ih htiles node hmem position hposition).mono (List.subset_cons_self _ _)
  | mark hinfo hopens htype _ ih =>
    rintro node (_ | ⟨_, hmem⟩) position hposition
    · rw [hinfo] at hposition
      obtain rfl := Option.some.inj hposition
      refine ⟨⟨[], cs, rfl, (htiles.start_head? _ rfl), htiles.chars_eq ▸ hopens,
        fun heq => absurd heq htype⟩, .inl ⟨_, .head _, rfl⟩⟩
    · exact (ih htiles node hmem position hposition).mono (List.subset_cons_self _ _)
  | @atrule sign token tokens node nodes rest hsign hinfo hopens _ ih =>
    cases htiles with
    | cons _ htiles =>
      have hboundary : ∀ {position},
          (∃ other ∈ token :: tokens, other.start = position) ∨
            EndsUnit id (token :: tokens) nodes position →
          (∃ other ∈ sign :: token :: tokens, other.start = position) ∨
            EndsUnit id (sign :: token :: tokens) nodes position :=
        Or.imp (fun ⟨other, hother, hstart⟩ => ⟨other, .tail _ hother, hstart⟩)
          fun hunit => hunit.of_subset (List.subset_cons_self _ _)
      rintro node (_ | ⟨_, hmem⟩) position hposition
      · rw [hinfo] at hposition
        obtain rfl := Option.some.inj hposition
        refine ⟨⟨sign.text.toList, _, rfl, htiles.start_head? _ rfl, htiles.chars_eq ▸ hopens,
          fun _ => by rw [hsign]; rfl⟩, .inl ⟨token, .tail _ (.head _), rfl⟩⟩
      · exact ((ih htiles node hmem position hposition).after hboundary).mono
          (List.subset_cons_self _ _)
  | @cut token front ident tokens value unit escape nodes rest hvalue hk hident hunit _ ih =>
    obtain rfl := htiles.start_head? token rfl
    obtain ⟨hcut, cs', rfl, hlater⟩ := htiles.of_cut hident (List.cons_ne_nil _ _)
    rw [hvalue] at hcut hlater ⊢
    have hstop : ident.stop = ident.start + Text.byteLength unit + Text.byteLength
        ('\\' :: escape) := by
      rw [Token.stop, hident, Text.byteLength_append, Nat.add_assoc]
    have hunit := Text.byteLength_pos hunit
    have hescape := Text.byteLength_pos (List.cons_ne_nil '\\' escape)
    rintro node (_ | ⟨_, hmem⟩) position hposition
    · obtain rfl := Option.some.inj hposition
      refine ⟨⟨[], _, rfl, rfl, ?_, fun htype => absurd htype (by simp [Node.typeName])⟩,
        .inl ⟨token, .head _, rfl⟩⟩
      rw [Node.OpensWith, String.toList_ofList]
      exact List.prefix_append _ _
    · refine (ih hlater node hmem position hposition).after ?_
      rintro (⟨other, _ | ⟨_, hother⟩, rfl⟩ | ⟨⟨other, hother, hkind, hlt, hlt'⟩, info, value',
        unit', hmem, rfl⟩)
      · refine .inr ⟨⟨ident, by simp, hk, by simpa using hunit, ?_⟩, token.start, value, _,
          .head _, ?_⟩
        · simp only [hstop]
          omega
        · simpa using hcut
      · exact .inl ⟨other, List.mem_append_right _ (.tail _ hother), rfl⟩
      · refine .inr ⟨?_, info, value', unit', .tail _ hmem, rfl⟩
        rcases List.mem_cons.1 hother with rfl | hother
        · refine ⟨ident, by simp, hk, by dsimp only at hlt; omega, ?_⟩
          simp only [Token.stop, String.toList_ofList] at hlt'
          omega
        · exact ⟨other, by simp [hother], hkind, hlt, hlt'⟩

theorem Marks.ordered {tokens rest : List Token} {nodes : List Tree} {offset : Nat} {cs : List Char}
    (h : Marks tokens nodes rest) (htiles : Tiles offset cs tokens) :
    (nodes.filterMap Node.info).Pairwise (· ≤ ·) := by
  have hle : ∀ {tokens rest : List Token} {nodes : List Tree} {offset : Nat} {cs : List Char},
      Marks tokens nodes rest → Tiles offset cs tokens →
      ∀ position ∈ nodes.filterMap Node.info, offset ≤ position := by
    intro tokens rest nodes offset cs h htiles position hmem
    obtain ⟨node, hnode, hposition⟩ := List.mem_filterMap.1 hmem
    exact (h.stands htiles node hnode position hposition).le
  induction h generalizing offset cs with
  | nil => exact .nil
  | skip _ ih =>
    obtain ⟨-, -, cs', -, hrest⟩ := htiles.of_cons
    exact ih hrest
  | bare hinfo _ ih =>
    rw [List.filterMap_cons_none hinfo]
    exact ih htiles
  | mark hinfo _ _ h ih =>
    rw [List.filterMap_cons_some hinfo, htiles.of_cons.1]
    exact .cons (hle h htiles) (ih htiles)
  | atrule _ hinfo _ h ih =>
    obtain ⟨-, -, cs', -, hrest⟩ := htiles.of_cons
    rw [List.filterMap_cons_some hinfo, hrest.of_cons.1]
    exact .cons (hle h hrest) (ih hrest)
  | cut hvalue _ hident _ h ih =>
    obtain ⟨-, cs', rfl, hlater⟩ := htiles.of_cut hident (List.cons_ne_nil _ _)
    rw [List.filterMap_cons_some (f := Node.info) rfl, htiles.start_head? _ rfl]
    refine .cons (fun position hmem => ?_) (ih hlater)
    exact (Nat.le_add_right _ _).trans (hle h hlater position hmem)

/-! ## Parsed trees -/

variable {options : ParseOptions} {text : String}

theorem ParseOptions.sourceInfo_eq_some {lines : LineTable} {offset : Nat} {info : SourceInfo}
    (h : options.sourceInfo lines offset = some info) : options.positions = true ∧
      info = ⟨options.filename, offset, (lines.location offset).line,
        (lines.location offset).column⟩ := by
  cases hpositions : options.positions with
  | false =>
    rw [sourceInfo_eq_none hpositions] at h
    exact nomatch h
  | true =>
    rw [sourceInfo_of_positions hpositions] at h
    exact ⟨rfl, (Option.some.inj h).symm⟩

/-- A position of a node points at the text of the node: it names the source and the location of its
offset, a token starts or a unit ends there, and the text from there on starts with the literal text
of the node. The sign of an at-rule stands before it. -/
structure ParseOptions.PointsAt (options : ParseOptions) (text : String)
    (root node : Node SourceInfo) (info : SourceInfo) : Prop where
  source : info.source = options.filename
  location : info.location = (options.linesOf text).location info.offset
  boundary : (∃ token ∈ options.context.tokens text, token.start = info.offset) ∨
    EndsUnit SourceInfo.offset (options.context.tokens text) root.preorder info.offset
  opens : ∃ before after, text.toList = before ++ after ∧ Text.byteLength before = info.offset ∧
    node.OpensWith after ∧ (node.typeName = "Atrule" → before.getLast? = some '@')

theorem marks_of_production {context : Context} {tree : Tree} {s' : ParserState}
    (h : context.production (context.tokens text).length
      { rest := context.tokens text } = .ok tree s') :
    Marks (context.tokens text) tree.preorder s'.rest := by
  obtain ⟨_, hmarks, rfl⟩ := markingTree_production _ _ _ _ _ (spelled_tokens _ _) h
  exact hmarks

theorem EndsUnit.mapInfo {lines : LineTable} {tokens : List Token} {tree : Tree} {position : Nat}
    (h : EndsUnit id tokens tree.preorder position) (hpositions : options.positions = true) :
    EndsUnit SourceInfo.offset tokens (tree.mapInfo (options.sourceInfo lines)).preorder
      position := by
  obtain ⟨htoken, start, value, unit, hmem, hposition⟩ := h
  refine ⟨htoken, ⟨options.filename, start, (lines.location start).line,
    (lines.location start).column⟩, value, unit, ?_, hposition⟩
  rw [Node.preorder_mapInfo]
  refine List.mem_map.2 ⟨_, hmem, ?_⟩
  rw [Node.mapInfo, Option.bind_some, ParseOptions.sourceInfo_of_positions hpositions]

/-- **Recorded positions point at the text of their nodes.** -/
theorem pointsAt_of_parse {node : Node SourceInfo} (h : parse text options = .ok node) :
    ∀ other ∈ node.preorder, ∀ info ∈ other.info, options.PointsAt text node other info := by
  obtain ⟨tree, s', hread, rfl⟩ := parse_eq_ok_iff.1 h
  obtain ⟨mark, hmark, hsize⟩ := exists_mark text.toList
  intro other hother info hinfo
  rw [Node.preorder_mapInfo] at hother
  obtain ⟨node, hnode, rfl⟩ := List.mem_map.1 hother
  rw [Node.info_mapInfo] at hinfo
  obtain ⟨position, hposition, hinfo⟩ := Option.bind_eq_some_iff.1 hinfo
  obtain ⟨hpositions, rfl⟩ := ParseOptions.sourceInfo_eq_some hinfo
  obtain ⟨⟨before, after, hcs, rfl, hopens, hsign⟩, hboundary⟩ :=
    (marks_of_production hread).stands (tiles_ofText text _) node hnode position hposition
  refine ⟨rfl, ?_, hboundary.imp_right fun hunit => hunit.mapInfo hpositions,
    mark ++ before, after, ?_, ?_, (Node.opensWith_mapInfo _ _ _).2 hopens, fun htype => ?_⟩
  · exact SourceInfo.location_mk _ _ _
  · rw [List.append_assoc, ← hcs]
    exact hmark
  · rw [Text.byteLength_append, hsize]
  · rw [Node.typeName_mapInfo] at htype
    rw [List.getLast?_append, hsign htype]
    rfl

/-- An at-rule and a negation stand at their names, and a unit ends before an escape. -/
theorem pointsAt_of_parse_sheet :
    let info := fun offset => some (⟨"a.css", offset, 1, offset + 1⟩ : SourceInfo)
    let options : ParseOptions := { positions := true, filename := "a.css" }
    let node : Node SourceInfo := .sequence (info 0) .styleSheet
      [.atrule (info 1) "m" (some (.sequence (info 2) .atruleExpression []))
        (some (.sequence (info 3) .styleSheet
          [.pair (info 3) .ruleset
            (.sequence (info 3) .selector [.sequence (info 3) .simpleSelector
              [.sequence (info 4) .negation
                [.sequence (info 8) .simpleSelector [.leaf (info 8) .classSelector "b"]]]])
            (.sequence (info 11) .block
              [.pair (info 12) .declaration (.leaf (info 12) .property "c")
              (.sequence (info 14) (.value false)
                [.dimension (info 14) "1" "px", .leaf (info 17) .identifier "\\9"])])]))]
    parse "@m\x7b:Not(.b)\x7bc:1px\\9\x7d\x7d" options = .ok node ∧
      ∀ other ∈ node.preorder, ∀ info ∈ other.info,
        options.PointsAt "@m\x7b:Not(.b)\x7bc:1px\\9\x7d\x7d" node other info := by
  intro info options node
  have h : parse "@m\x7b:Not(.b)\x7bc:1px\\9\x7d\x7d" options = .ok node := by decide +kernel
  exact ⟨h, pointsAt_of_parse h⟩

/-- **Positions do not go back** along the pre-order of the tree, neither as offsets nor, where they
fit in words, as lines and columns. -/
theorem inOrder_of_parse {node : Node SourceInfo} (h : parse text options = .ok node) :
    ((node.preorder.filterMap Node.info).map SourceInfo.offset).Pairwise (· ≤ ·) ∧
      (options.Fits text →
        (node.preorder.filterMap Node.info).Pairwise fun info info' =>
          info.line < info'.line ∨ info.line = info'.line ∧ info.column ≤ info'.column) := by
  obtain ⟨tree, s', hread, rfl⟩ := parse_eq_ok_iff.1 h
  have hordered := (marks_of_production hread).ordered (tiles_ofText text _)
  have hinfos : (tree.mapInfo (options.sourceInfo (options.linesOf text))).preorder.filterMap
      Node.info = (tree.preorder.filterMap Node.info).filterMap
        (options.sourceInfo (options.linesOf text)) := by
    rw [Node.preorder_mapInfo, List.filterMap_map, List.filterMap_filterMap]
    exact List.filterMap_congr fun node _ => Node.info_mapInfo _ node
  have hbounds : ∀ offset ∈ tree.preorder.filterMap Node.info,
      originOf text.toList ≤ offset ∧ offset ≤ text.utf8ByteSize := by
    intro offset hmem
    obtain ⟨node, hnode, hposition⟩ := List.mem_filterMap.1 hmem
    obtain ⟨⟨before, after, hcs, rfl, -, -⟩, -⟩ :=
      (marks_of_production hread).stands (tiles_ofText text _) node hnode offset hposition
    obtain ⟨mark, hmark, hsize⟩ := exists_mark text.toList
    have hlength := congrArg Text.byteLength hmark
    rw [hcs, Text.byteLength_append, Text.byteLength_append, byteLength_toList, hsize] at hlength
    omega
  rw [hinfos, List.pairwise_map]
  constructor
  · refine hordered.filterMap _ fun offset offset' hle info hinfo info' hinfo' => ?_
    rw [(ParseOptions.sourceInfo_eq_some hinfo).2, (ParseOptions.sourceInfo_eq_some hinfo').2]
    exact hle
  · intro hfits
    refine (List.Pairwise.and_mem.1 hordered).filterMap _
      fun offset offset' ⟨hmem, hmem', hle⟩ info hinfo info' hinfo' => ?_
    rw [(ParseOptions.sourceInfo_eq_some hinfo).2, (ParseOptions.sourceInfo_eq_some hinfo').2]
    exact LineTable.location_le (hbounds _ hmem).1 hle (hfits _ (hbounds _ hmem').2)

/-- A declaration at line 3 and column 5 whose value starts on the next line. -/
theorem inOrder_of_parse_declaration :
    let info := fun offset line column => some (⟨"a.css", offset, line, column⟩ : SourceInfo)
    let node : Node SourceInfo := .pair (info 0 3 5) .declaration (.leaf (info 0 3 5) .property "e")
      (.sequence (info 2 3 7) (.value false)
        [.dimension (info 4 4 2) "1" "px", .leaf (info 7 4 5) .identifier "\\9"])
    let options : ParseOptions := ⟨.declaration, true, "a.css", 3, 5⟩
    parse "e:\n 1px\\9" options = .ok node ∧
      options.Fits "e:\n 1px\\9" ∧
      ((node.preorder.filterMap Node.info).map SourceInfo.offset).Pairwise (· ≤ ·) ∧
      (node.preorder.filterMap Node.info).Pairwise fun info info' =>
        info.line < info'.line ∨ info.line = info'.line ∧ info.column ≤ info'.column := by
  intro info node options
  have h : parse "e:\n 1px\\9" options = .ok node := by decide +kernel
  have hfits : options.Fits "e:\n 1px\\9" :=
    ParseOptions.fits_of_lt (by decide +kernel) (by decide +kernel)
  exact ⟨h, hfits, (inOrder_of_parse h).1, (inOrder_of_parse h).2 hfits⟩

/-- On the last line that fits, a line feed leads back to line 0. -/
theorem not_inOrder_of_parse_last_line :
    let info := fun offset line => some (⟨"<unknown>", offset, line, 1⟩ : SourceInfo)
    let node : Node SourceInfo := .sequence (info 0 4294967295) (.value false)
      [.leaf (info 0 4294967295) .identifier "a", .space none, .leaf (info 2 0) .identifier "b"]
    parse "a\nb" { context := .value, positions := true, line := 4294967295 } = .ok node ∧
      ¬ (node.preorder.filterMap Node.info).Pairwise fun info info' =>
        info.line < info'.line ∨ info.line = info'.line ∧ info.column ≤ info'.column := by
  decide +kernel

end StyleTree
