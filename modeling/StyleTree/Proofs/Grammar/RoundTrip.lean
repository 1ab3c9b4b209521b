import StyleTree.Proofs.Grammar.Expression
import StyleTree.Proofs.Parse.Reading

/-! Reading the text of a tree back. In each context that holds no rules, the tree of a text is read
again from its compact text (`Context.ReadsBack`), so that parsing, printing and parsing again gives
the same tree (`parse_toCss_of_parse`). -/

namespace StyleTree

open StyleTree.Parser StyleTree.Grammar

theorem HeadFrom.ne_mark {text cs : List Char} (h : HeadFrom text cs)
    (hmark : byteOrderMark ∉ text) :
    ∀ d ∈ cs.head?, d ≠ byteOrderMark := by
  rintro d hd rfl
  rcases h _ hd with hd | hd | hd | hd
  · exact hmark hd
  · exact nomatch hd
  · exact nomatch hd
  · exact nomatch hd

/-- The tree is read again from its compact text in the given context. -/
structure Context.ReadsBack (context : Context) (text : List Char) (tree : Tree) : Prop where
  head : byteOrderMark ∉ text → ∀ d ∈ tree.compact.head?, d ≠ byteOrderMark
  reads : ∀ s : ParserState,
    Place.Scans ⟨.start context.startsInBlock, tree.compact, .soft⟩ s.rest →
    ∃ tree' s', context.production s.rest.length s = .ok tree' s' ∧ tree'.bare = tree.bare

theorem parse_toCss_of_readsBack {text : String} {options : ParseOptions} {node : Node SourceInfo}
    (hpositions : options.positions = false) (hmark : byteOrderMark ∉ text.toList)
    (hback : ∀ tree s', options.context.production
        (TokenTable.ofText text options.context.startsInBlock).tokens.toList.length
        { rest := (TokenTable.ofText text options.context.startsInBlock).tokens.toList } =
        .ok tree s' → options.context.ReadsBack text.toList tree)
    (h : parse text options = .ok node) : parse node.toCss options = .ok node := by
  obtain ⟨tree, s', hread, rfl⟩ := (parse_eq_ok hpositions).1 h
  obtain ⟨hhead, hreads⟩ := hback tree s' hread
  have hcss : tree.bare.toCss.toList = tree.compact := Node.compact_bare tree
  have hfirst : ∀ d ∈ tree.bare.toCss.toList.head?, d ≠ byteOrderMark := by
    rw [hcss]
    exact hhead hmark
  have hscans := TokenTable.scans_ofText tree.bare.toCss options.context.startsInBlock
  rw [withoutMark_eq_self hfirst, hcss] at hscans
  obtain ⟨tree', s'', hread', hbare⟩ := hreads ⟨_, []⟩ hscans
  exact (parse_eq_ok hpositions).2 ⟨tree', s'', hread', hbare⟩

/-! ## Contexts without rules -/

section
variable {text : List Char} {s s' : ParserState} {tree : Tree} {depth : Nat}

theorem value_readsBack (hp : Place.Scans ⟨.start true, text, .soft⟩ s.rest)
    (htidy : Tidy .value s.rest) (h : value (.upTo depth) false s = .ok tree s') :
    Context.value.ReadsBack text tree := by
  obtain ⟨p₁, p', hp₁, -, hp', -, -, hends, hfollow, hruns⟩ :=
    value_restates (upTo_returns depth) hp htidy rfl h
  have hend : p'.Follow [] :=
    follow_of_ends hp' (fun token hmem => EndsValue.isBreak (hends token hmem)) nofun fun _ => rfl
  refine ⟨HeadFrom.ne_mark ?_, fun s₁ hs₁ => ?_⟩
  · refine (hfollow [] nofun hend).headFrom.of_append.subset ?_
    rw [hp₁.text_eq, show text = _ from hp.text_eq]
    exact tokenChars_subset (List.dropWhile_suffix _).subset
  · rw [← List.append_nil tree.compact] at hs₁
    obtain ⟨tree', s₂, hrun, hbare, -⟩ :=
      hruns _ [] s₁ ⟨nofun, hend⟩ hs₁ (Nat.lt_succ_self _)
    exact ⟨tree', s₂, hrun, hbare⟩

theorem declaration_readsBack (hp : Place.Scans ⟨.start true, text, .soft⟩ s.rest)
    (htidy : Tidy .value s.rest) (h : declaration (.upTo depth) s = .ok tree s') :
    Context.declaration.ReadsBack text tree := by
  obtain ⟨p', -, -, -, -, hrereads⟩ := declaration_rereads (upTo_returns depth) hp htidy h
  have hhead := ((hrereads 0).follow [] ⟨nofun, fun _ => rfl⟩).headFrom.of_append
  refine ⟨hhead.ne_mark, fun s₁ hs₁ => ?_⟩
  rw [← List.append_nil tree.compact] at hs₁
  obtain ⟨tree', s₂, hrun, hbare, -⟩ :=
    (hrereads _).run [] s₁ ⟨nofun, fun _ => rfl⟩ hs₁ (Nat.lt_succ_self _)
  exact ⟨tree', s₂, hrun, hbare⟩

theorem compact_block (info : Option Nat) (nodes : List Tree) :
    (Node.sequence info .block nodes).compact = listChars nodes := by
  simp [Node.compact_sequence, Node.sequenceMarks, Node.map_piece_false, listChars]

theorem block_readsBack (hp : Place.Scans ⟨.start true, text, .soft⟩ s.rest)
    (htidy : Tidy .value s.rest) (h : block (.upTo depth) s = .ok tree s') :
    Context.block.ReadsBack text tree := by
  rw [block, here_bind_run] at h
  obtain ⟨nodes, s₁, hmany, h⟩ := bind_eq_ok.1 h
  obtain ⟨rfl, rfl⟩ := EStateM.Result.ok.inj h
  obtain ⟨p', -, -, -, -, -, hhead, hrun⟩ :=
    declarationPart_rounds (upTo_returns depth) (rounds_of_many hmany) hp htidy (.inl rfl)
  refine ⟨by rw [compact_block]; exact hhead.ne_mark, fun s₂ hs₂ => ?_⟩
  rw [compact_block, ← List.append_nil (listChars nodes)] at hs₂
  obtain ⟨nodes', s₃, hloops, hbare, -⟩ :=
    hrun _ [] s₂ nofun (fun _ => rfl) hs₂ (Nat.lt_succ_self _)
  refine ⟨.sequence (s₂.rest.head?.map Token.start) .block nodes', s₃, ?_, by simp [hbare]⟩
  show block _ s₂ = _
  rw [block, here_bind_run, declarations, bind_of_ok hloops.many_eq, run_pure]

theorem property_readsBack (hp : Place.Scans ⟨.start true, text, .soft⟩ s.rest)
    (h : property s = .ok tree s') : Context.property.ReadsBack text tree := by
  rw [property_eq] at h
  obtain ⟨node, s₁, hname, h⟩ := bind_eq_ok.1 h
  rw [skipGaps_bind_run] at h
  obtain ⟨rfl, rfl⟩ := EStateM.Result.ok.inj h
  obtain ⟨tokens, hrest, -, rfl, hproperty, -⟩ := (propertyName_eq_ok hp.text_ne).1 hname
  have hcompact : (Node.leaf (s.rest.head?.map Token.start) .property
      (Text.concat (tokens.map Token.text))).compact = tokenChars tokens := by
    simp [Node.leafMarks, toList_concat_text]
  rw [hrest] at hp
  have htext : text = tokenChars (tokens ++ s₁.rest) := hp.text_eq
  -- Whatever followed the property is cut off.
  have hcores : coresFrom (.start true) (tokenChars tokens) = tokens.map Token.core := by
    have hall : coresFrom (.start true) (tokenChars tokens ++ tokenChars s₁.rest) =
        tokens.map Token.core ++ s₁.rest.map Token.core := by
      rw [← List.map_append, hp.cores, ← tokenChars_append, ← htext]
    exact coresFrom_truncate hall
  refine ⟨HeadFrom.ne_mark fun d hd => .inl ?_, fun s₂ hs₂ => ?_⟩
  · rw [hcompact] at hd
    rw [htext, tokenChars_append]
    exact List.mem_append_left _ (List.mem_of_mem_head? hd)
  · rw [hcompact] at hs₂
    have hcore : s₂.rest.map Token.core = tokens.map Token.core := hs₂.cores.trans hcores
    have hread : propertyName s₂ = .ok (.leaf (s₂.rest.head?.map Token.start) .property
        (Text.concat (s₂.rest.map Token.text))) { s₂ with rest := [] } :=
      (propertyName_eq_ok hs₂.text_ne).2
        ⟨s₂.rest, (List.append_nil _).symm, rfl, rfl, hproperty.congr hcore, by simp [EndsName]⟩
    have hrun : property s₂ = .ok (.leaf (s₂.rest.head?.map Token.start) .property
        (Text.concat (s₂.rest.map Token.text))) { s₂ with rest := [] } := by
      rw [property_eq, bind_of_ok hread]
      rfl
    exact ⟨_, _, hrun, by simp [map_text_congr hcore]⟩

theorem atruleExpression_readsBack (hp : Place.Scans ⟨.start false, text, .soft⟩ s.rest)
    (htidy : Tidy .atruleExpression s.rest) (hcolons : colonsNested 0 s.rest = true)
    (h : atruleExpression (.upTo depth) s = .ok tree s') :
    Context.atruleExpression.ReadsBack text tree := by
  obtain ⟨p₁, hp₁, -, -, hbalanced₁, hstate₁, -⟩ := hp.skipGaps htidy.noComments
  replace hstate₁ := hstate₁ rfl
  obtain ⟨p', hp', -, -, hends, hfollow, hruns⟩ :=
    atruleExpression_restates (upTo_returns depth) (pseudoReturns_colonsNested _) hp₁ htidy
      (hbalanced₁.colonsNested hcolons) h
  have hend : p'.Follow [] :=
    follow_of_ends hp' (fun token hmem => (hends token hmem).isBreak) nofun fun _ => rfl
  refine ⟨HeadFrom.ne_mark ?_, fun s₁ hs₁ => ?_⟩
  · refine (hfollow [] nofun hend).headFrom.of_append.subset ?_
    rw [hp₁.text_eq, show text = _ from hp.text_eq]
    exact tokenChars_subset (List.dropWhile_suffix _).subset
  · rw [← List.append_nil tree.compact] at hs₁
    have hs₁' : (p₁.put (tree.compact ++ [])).Scans s₁.rest := by
      rwa [Place.put, hstate₁]
    obtain ⟨tree', s₂, hrun, hbare, -⟩ :=
      hruns _ [] s₁ ⟨nofun, hend⟩ hs₁' (Nat.lt_succ_self _)
    exact ⟨tree', s₂, hrun, hbare⟩

end

/-! ## Parsing again -/

/-- The contexts of texts that hold no rules and no selectors. -/
def Context.isPlain : Context → Bool
  | .value | .property | .declaration | .block | .atruleExpression => true
  | _ => false

/-- Values, declarations, blocks and at-rule preludes come back from their compact text. -/
theorem parse_toCss_of_parse {text : String} {options : ParseOptions} {node : Node SourceInfo}
    (hcontext : options.context.isPlain = true) (hpositions : options.positions = false)
    (hmark : byteOrderMark ∉ text.toList)
    (hcomments : NoComments
      (TokenTable.ofText text options.context.startsInBlock).tokens.toList)
    (hbangs : bangsEnd
      (TokenTable.ofText text options.context.startsInBlock).tokens.toList = true)
    (hcolons : options.context = .atruleExpression → colonsNested 0
      (TokenTable.ofText text options.context.startsInBlock).tokens.toList = true)
    (h : parse text options = .ok node) : parse node.toCss options = .ok node := by
  refine parse_toCss_of_readsBack hpositions hmark (fun tree s' hread => ?_) h
  have hscans := TokenTable.scans_ofText text options.context.startsInBlock
  rw [withoutMark_eq_self fun d hd hmark' => hmark (hmark' ▸ List.mem_of_mem_head? hd)] at hscans
  have htidy : ∀ scope, Tidy scope
      (TokenTable.ofText text options.context.startsInBlock).tokens.toList :=
    fun _ => ⟨hcomments, fun _ => hbangs⟩
  generalize TokenTable.ofText text options.context.startsInBlock = table at *
  generalize options.context = context at *
  cases context with
  | value => exact value_readsBack (s := ⟨_, []⟩) hscans (htidy _) hread
  | declaration => exact declaration_readsBack (s := ⟨_, []⟩) hscans (htidy _) hread
  | block => exact block_readsBack (s := ⟨_, []⟩) hscans (htidy _) hread
  | property => exact property_readsBack (s := ⟨_, []⟩) hscans hread
  | atruleExpression =>
    exact atruleExpression_readsBack (s := ⟨_, []⟩) hscans (htidy _) (hcolons rfl) hread
  | _ => exact nomatch hcontext

/-- A filter with a flag, a link, a unit before an escape that takes in a blank, and a string that
is not closed. -/
theorem parse_toCss_of_parse_block :
    let options : ParseOptions := { context := .block }
    let node : Node SourceInfo := .sequence none .block
      [.pair none .declaration (.leaf none .property "*FILTER") (.sequence none (.value true)
        [.wrapper none .progid (.leaf none .raw "progid:DXImageTransform.Microsoft.blur( 1 )")]),
      .pair none .declaration (.leaf none .property "b") (.sequence none (.value false)
        [.wrapper none .url (.leaf none .raw "x"), .dimension none "1" "px",
          .leaf none .identifier "\\9 ", .leaf none .string "'y"])]
    parse "*FILTER :progid:DXImageTransform.Microsoft.blur( 1 ) ! Important;;b: URL( x )1px\\9 'y"
        options = .ok node ∧
      node.toCss =
        "*FILTER:progid:DXImageTransform.Microsoft.blur( 1 )!important;b:url(x)1px\\9 'y" ∧
      parse node.toCss options = .ok node := by
  intro options node
  have h : parse
      "*FILTER :progid:DXImageTransform.Microsoft.blur( 1 ) ! Important;;b: URL( x )1px\\9 'y"
      options = .ok node := by decide +kernel
  refine ⟨h, by decide +kernel, ?_⟩
  refine parse_toCss_of_parse rfl rfl (by decide +kernel) ?_ (by decide +kernel) nofun h
  unfold NoComments
  decide +kernel

end StyleTree
