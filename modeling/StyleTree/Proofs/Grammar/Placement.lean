import StyleTree.Proofs.Grammar.Filter
import StyleTree.Proofs.Grammar.Marks

/-! Where components stand. Each production makes nodes that stand among the tokens it reads, in the
order of the tokens, and a node that has literal text is placed where that text is
(`markingTree_component`, `marks_brackets`, `markingTree_value`), if the readers one bracket deeper
do so (`NestedMarking`). Names and numbers can span several tokens; they are read as they stand
(`Spanning`). -/

namespace StyleTree

open StyleTree.Parser StyleTree.Grammar

namespace Grammar

variable {inner : Nested} {scope : Scope} {s s₁ s' : ParserState} {tree : Tree} {info : Option Nat}
  {name : String}

/-! ## Names and other small parts -/

theorem spanning_readName (custom : Bool) :
    Spanning (readName custom) fun name w => name.toList = w := by
  refine (spanning_takeIf _).bind fun hyphen w hw => .choose (fun _ => spanning_takeIf _)
    (fun _ => .pure rfl) fun second v hv => .look looks_kind? fun _ => ?_
  have hrest : Spanning (do
      let first ← take
      let rest ← Parser.takeWhile isNamePart
      return hyphen ++ second ++ first ++ rest) fun name u => name.toList = w ++ (v ++ u) :=
    spanning_take.bind fun first u hu => (spanning_takeWhile _).bind fun rest u' hu' =>
      .pure (by simp [hw, hv, hu, hu'])
  split
  · exact hrest
  · exact hrest
  · exact .fail

theorem markingTree_identifier (custom : Bool) : MarkingTree (identifier custom) :=
  .here fun _ => .step (spanning_readName custom) fun _ _ hw =>
    .leaf (by simp [Node.leafOpening, hw])

/-- A leaf whose text is a name, after its marks. -/
theorem inside_namedLeaf {kind : LeafKind} {text : List Char}
    (h : ∀ name, Node.leafOpening name kind = text ++ name) :
    MarkingInside (do return .leaf info kind (← readName false)) info text :=
  .step (spanning_readName false) fun name w hw => .leaf (by simp [h, hw])

/-- A leaf that holds the text of a token. -/
theorem markingTree_tokenLeaf {kind : LeafKind} (h : ∀ text, Node.leafOpening text kind = text) :
    MarkingTree (tokenLeaf kind) :=
  .here fun _ => .step spanning_take fun _ _ hw => .leaf (by simp [h, hw])

theorem inside_nameEnd (info : Option Nat) (name : String) (colon : Bool) :
    MarkingInside (nameEnd info name colon) info name.toList :=
  .look (looks_isAt _) fun _ => .ite
    (fun _ => .step spanning_take fun sign w hw => .step (spanning_readName false) fun more v hv =>
      .leaf (by simp [Node.leafOpening, hw, hv]))
    fun _ => .leaf (by simp [Node.leafOpening])

theorem inside_nameFrom (info : Option Nat) (colon : Bool) (base : String) :
    MarkingInside (nameFrom info colon base) info base.toList := by
  have hend : ∀ {name : String} {w : List Char} {colon : Bool}, name.toList = w →
      MarkingInside (nameEnd info name colon) info w := fun hw => hw ▸ inside_nameEnd info _ _
  refine .look (looks_isAt _) fun _ => .look (looks_lookupKind _ _) fun _ => .ite (fun _ => ?_)
    fun _ => hend (by simp)
  refine .step spanning_take fun bar w hw => .look looks_kind? fun _ => ?_
  have hname :
      ∀ colon, MarkingInside (do nameEnd info (base ++ (bar ++ (← readName false))) colon) info
      (base.toList ++ w) := fun colon =>
    .step (spanning_readName false) fun name v hv => hend (by simp [hw, hv])
  split
  · exact hname _
  · exact hname _
  · exact hname _
  · exact .step spanning_take fun star v hv => hend (by simp [hw, hv])
  · exact hend (by simp [hw])

theorem markingTree_qualifiedName (colon : Bool) : MarkingTree (qualifiedName colon) := by
  intro s tree s' hs h
  cases hrest : s.rest with
  | nil => simp [qualifiedName, hrest] at h
  | cons first rest =>
    rw [qualifiedName_eq colon hrest] at h
    have hfirst : some first.start = s.rest.head?.map Token.start := by rw [hrest]; rfl
    rw [hfirst] at h
    refine ⟨_, hrest ▸ MarkingInside.marks ?_ hs h, rfl⟩
    have hname : ∀ {name : String} {w : List Char} {colon : Bool}, name.toList = w →
        MarkingInside (nameFrom (s.rest.head?.map Token.start) colon name)
          (s.rest.head?.map Token.start) w := fun hw => hw ▸ inside_nameFrom _ _ _
    refine .ite (fun _ => .step spanning_take fun _ _ hw => hname hw) fun _ => ?_
    exact .ite (fun _ => hname rfl) fun _ => .step (spanning_readName false) fun _ _ hw => hname hw

theorem markingTree_hash : MarkingTree hash := by
  refine .here fun _ => .step (spanning_expect rfl) fun _ _ hw => .look looks_kind? fun _ => ?_
  split
  · exact .step spanning_take fun _ _ hv => .step (spanning_takeIf _) fun _ _ hu =>
      .leaf (by simp [Node.leafOpening, hw, hv, hu])
  · exact .step spanning_take fun _ _ hv => .leaf (by simp [Node.leafOpening, hw, hv])
  · exact .fail

theorem spanning_hexDigits : Spanning hexDigits fun digits w => digits.toList = w := by
  refine (spanning_takeWhile _).bind fun digits w hw => .ite (fun _ => .fail) fun _ => .pure ?_
  rw [hw, List.append_nil]

theorem markingTree_unicodeRange : MarkingTree unicodeRange := by
  refine .here fun _ => .step (spanning_takeMany 2) fun sign w₁ h₁ => .step spanning_hexDigits
    fun first w₂ h₂ => .look looks_get fun _ => .step (spanning_takeMany _) fun wildcards w₃ h₃ =>
      .look (looks_isAt _) fun _ => .ite (fun _ => ?_) fun _ => .leaf ?_
  · exact .step spanning_take fun hyphen w₄ h₄ => .step spanning_hexDigits fun last w₅ h₅ =>
      .leaf (by simp [Node.leafOpening, h₁, h₂, h₃, h₄, h₅])
  · simp [Node.leafOpening, h₁, h₂, h₃]

theorem markingTree_operator : MarkingTree operator :=
  markingTree_tokenLeaf fun _ => rfl

/-! ## Functions -/

/-- What the readers one bracket deeper have to do. A bracketed sequence is read where a bracket
opens. -/
structure NestedMarking (inner : Nested) : Prop where
  component : ∀ scope, MarkingTree (inner.component scope)
  brackets : ∀ {scope s tree s' token}, s.rest.head? = some token →
    token.kind = .leftParen ∨ token.kind = .leftBracket → Spelled s.rest →
    inner.brackets scope s = .ok tree s' → Marks s.rest tree.preorder s'.rest
  fallback : MarkingTree inner.fallback
  negated : MarkingTree inner.negated

theorem opensWithWord {word : String} {letters cs : List Char}
    (h : letters.map Text.lowerChar = word.toList) :
    Node.OpensWithWord (word ++ "(") (letters ++ '(' :: cs) :=
  ⟨letters ++ ['('], by simp, by rw [List.map_append, h, String.toList_append]; rfl⟩

theorem inside_urlFunction (hname : name.toList.map Text.lowerChar = "url".toList) :
    MarkingInside (urlFunction info) info name.toList := by
  refine .step (spanning_expect rfl) fun _ _ hw => .rest ?_
  subst hw
  have hend : ∀ {link : Tree}, Marking
      (do skipGaps; expect .rightParen; return .wrapper info .url link : Parser Tree)
      fun tree later => Opened info (name.toList ++ ['(']) tree (link.preorder ++ later) :=
    .step spanning_skipGaps fun _ => .step (spanning_expect (c := ')') rfl) fun _ => .pure
      ⟨by simp [Node.inside, Node.children], rfl, by simp [Node.typeName, WrapperKind.name],
        fun cs => by simpa [Node.OpensWith] using opensWithWord hname⟩
  refine .step spanning_skipGaps fun _ =>
    .look (looks_isAt _) fun _ => .ite (fun _ => ?_) fun _ => ?_
  · exact .bind (markingTree_tokenLeaf fun _ => rfl) fun link _ hnodes => hnodes ▸ hend
  · have hraw : MarkingTree (do
        let start ← here
        let text ← Parser.takeWhile fun token =>
          token.kind ≠ .whitespace && token.kind ≠ .leftParen && token.kind ≠ .rightParen
        pure (.leaf start .raw text)) :=
      .here fun _ => .step (spanning_takeWhile _) fun _ _ hw =>
        .leaf (by simp [Node.leafOpening, hw])
    have hthen : Marking _ _ := .bind hraw fun link _ hnodes => hnodes ▸ hend
    simpa only [bind_assoc] using hthen

theorem inside_negation (hinner : NestedMarking inner)
    (hname : name.toList.map Text.lowerChar = "not".toList) :
    MarkingInside (negation inner info) info name.toList := by
  refine .step (spanning_expect rfl) fun _ _ hw => .rest ?_
  subst hw
  refine .bind (marking_separated (w := fun _ _ => True) ?_ (.pure trivial))
    fun result nodes hnodes => ?_
  · refine .look looks_kind? fun _ => ?_
    split
    · exact .fail
    · exact .fail
    · exact hinner.negated
  · refine .step (spanning_expect (c := ')') rfl) fun _ => .pure ⟨?_, rfl, ?_, fun cs => ?_⟩
    · rw [hnodes, List.append_nil]
      rfl
    · simp [Node.typeName, SequenceKind.typeName]
    · simpa [Node.OpensWith] using opensWithWord hname

/-- A function starts with its name and a parenthesis. -/
theorem opened_function {nodes : List Tree} {arguments : List Tree}
    (hnodes : nodes = arguments.flatMap Node.preorder) :
    Opened info (name.toList ++ ['(']) (.sequence info (.function name) arguments) nodes :=
  ⟨hnodes, rfl, by simp [Node.typeName, SequenceKind.typeName], fun _ => List.prefix_append _ _⟩

/-- Arguments have no position of their own. -/
theorem preorder_argument (nodes : List Tree) :
    (argument nodes).preorder = argument nodes :: nodes.flatMap Node.preorder :=
  Node.preorder_eq _

theorem inside_scriptFunction : MarkingInside (scriptFunction info name) info name.toList := by
  refine .step (spanning_expect rfl) fun _ _ hw => .rest ?_
  subst hw
  refine .look looks_get fun s => .step (spanning_takeMany _) fun text =>
    .step (spanning_expect (c := ')') rfl) fun _ => ?_
  rintro s _ _ hs ⟨⟩
  exact ⟨_, .bare rfl (.bare rfl .nil), opened_function rfl⟩

/-- The nodes of a row make up an argument. -/
theorem Marking.argument {α : Type} {x : Parser α} (nodes : α → List Tree)
    (h : Marking x fun a marked => marked = (nodes a).flatMap Node.preorder) :
    Marking x fun a marked => marked = (Grammar.argument (nodes a)).preorder := by
  intro s a s' hs hread
  obtain ⟨_, hmarks, rfl⟩ := h s a s' hs hread
  exact ⟨_, .bare rfl hmarks, (preorder_argument _).symm⟩

theorem inside_variableFunction (hinner : NestedMarking inner) :
    MarkingInside (variableFunction inner info name) info name.toList := by
  refine .step (spanning_expect rfl) fun _ _ hw => .rest ?_
  subst hw
  refine .step spanning_skipGaps fun _ => .bind (Marking.argument (fun node => [node])
    ((markingTree_identifier true).mono fun _ _ h => by simpa using h))
    fun variableName first hfirst => ?_
  have hend : ∀ {fallback marked : List Tree}, marked = fallback.flatMap Node.preorder → Marking
      (do
        expect .rightParen
        return .sequence info (.function name) (argument [variableName] :: fallback))
      fun tree later => Opened info (name.toList ++ ['(']) tree (first ++ (marked ++ later)) :=
    fun hmarked => .step (spanning_expect (c := ')') rfl) fun _ => .pure
      (opened_function (by simp [hfirst, hmarked]))
  refine .step spanning_skipGaps fun _ =>
    .look (looks_isAt _) fun _ => .ite (fun _ => ?_) fun _ => ?_
  · refine .step spanning_advance fun _ => .step spanning_skipGaps fun _ =>
      .bind (Marking.argument (fun node => [node])
        (hinner.fallback.mono fun _ _ h => by simpa using h)) fun node second hsecond =>
          .step spanning_skipGaps fun _ => .value (hend (by simp [hsecond]))
  · exact .value (hend rfl)

/-! ## Arguments -/

theorem markingTree_space : MarkingTree space := by
  refine .step spanning_advance fun _ => ?_
  rintro s _ _ hs ⟨⟩
  exact ⟨_, .bare rfl .nil, rfl⟩

theorem roundMarks_argumentPart (hinner : NestedMarking inner) (token : Token) :
    RoundMarks (argumentPart inner scope token) token := by
  unfold argumentPart
  split
  next => exact .stop
  next => exact .stop
  next => exact .tree markingTree_space
  next => exact .skip spanning_advance
  next => exact .tree markingTree_hash
  next hk => exact .part fun _ _ _ hhead => hinner.brackets hhead (.inl hk)
  next hk => exact .part fun _ _ _ hhead => hinner.brackets hhead (.inr hk)
  next => exact .tree markingTree_operator
  next => exact .tree markingTree_operator
  next => exact .tree markingTree_operator
  next => exact .tree markingTree_operator
  next => exact .tree (hinner.component scope)

theorem flatMap_preorder_spaces {nodes : List Tree} (h : ∀ node ∈ nodes, node.isSpace = true) :
    nodes.flatMap Node.preorder = nodes := by
  induction nodes with
  | nil => rfl
  | cons node nodes ih =>
    have hnode : node.preorder = [node] := by
      cases node <;> first | rfl | exact nomatch h _ (.head _)
    rw [List.flatMap_cons, hnode, ih fun other hmem => h other (.tail _ hmem)]
    rfl

/-- Spaces at the end of a row can be left out. -/
theorem marks_dropTrailingSpaces {tokens rest : List Token} {nodes : List Tree}
    (h : Marks tokens (nodes.flatMap Node.preorder) rest) :
    Marks tokens ((dropTrailingSpaces nodes).flatMap Node.preorder) rest := by
  have hsplit :
      nodes = dropTrailingSpaces nodes ++ (nodes.reverse.takeWhile Node.isSpace).reverse := by
    rw [dropTrailingSpaces, ← List.reverse_append, List.takeWhile_append_dropWhile,
      List.reverse_reverse]
  have hspaces : ∀ node ∈ (nodes.reverse.takeWhile Node.isSpace).reverse, node.isSpace = true :=
    fun node hmem => List.mem_takeWhile_imp (List.mem_reverse.1 hmem)
  rw [hsplit, List.flatMap_append] at h
  exact h.of_append (by rwa [flatMap_preorder_spaces hspaces])

theorem markingTree_argumentOf (hinner : NestedMarking inner) :
    MarkingTree (argumentOf inner scope) := by
  intro s tree s' hs h
  obtain ⟨nodes, s₁, hmany, h⟩ := bind_eq_ok.1 h
  obtain ⟨_, hmarks, rfl⟩ :=
    marking_many (fun token => roundMarks_argumentPart hinner token) s nodes s₁ hs hmany
  cases nodes with
  | nil => exact (fail_ne_ok.1 h).elim
  | cons node nodes =>
    obtain ⟨rfl, rfl⟩ := EStateM.Result.ok.inj h
    exact ⟨_, .bare rfl (marks_dropTrailingSpaces hmarks), (preorder_argument _).symm⟩

/-- Arguments are read from an opening parenthesis. -/
theorem marks_arguments (hinner : NestedMarking inner) {trees : List Tree} (hs : Spelled s.rest)
    (h : arguments inner scope s = .ok trees s') :
    Marks s.rest (trees.flatMap Node.preorder) s'.rest ∧
      ∃ cs, tokenChars s.rest = '(' :: cs := by
  obtain ⟨_, s₁, hopen, h⟩ := bind_eq_ok.1 h
  obtain ⟨front, hfront, hparen⟩ := spanning_expect rfl _ _ _ hs hopen
  have hmarking : Marking (do
      skipGaps
      let nodes ← do
        if ← isAt .rightParen then pure []
        else pure (← separated (fun _ => false) (argumentOf inner scope) skipGaps).1
      expect .rightParen
      return nodes) fun trees nodes => nodes = trees.flatMap Node.preorder := by
    have hend : ∀ trees : List Tree, Marking (do expect .rightParen; return trees)
        fun result later => trees.flatMap Node.preorder ++ later = result.flatMap Node.preorder :=
      fun trees => .step (spanning_expect (c := ')') rfl) fun _ => .pure (List.append_nil _)
    refine .step spanning_skipGaps fun _ =>
      .look (looks_isAt _) fun _ => .ite (fun _ => ?_) fun _ => ?_
    · exact .value (hend [])
    · exact .bind (marking_separated (markingTree_argumentOf hinner) spanning_skipGaps)
        fun result _ hnodes => hnodes ▸ .value (hend result.1)
  obtain ⟨_, hmarks, rfl⟩ := hmarking s₁ trees s' (hs.of_suffix ⟨front, hfront.symm⟩) h
  refine ⟨hfront ▸ hmarks.after front, tokenChars s₁.rest, ?_⟩
  rw [hfront, tokenChars_append, hparen]
  rfl

theorem inside_function (hinner : NestedMarking inner) :
    MarkingInside (function inner scope info name) info name.toList := by
  unfold function
  cases hspecial : scope.special? name with
  | some special =>
    cases special with
    | url => exact inside_urlFunction (letters_of_url hspecial)
    | negation => exact inside_negation hinner (letters_of_negation hspecial)
    | script => exact inside_scriptFunction
    | _ => exact inside_variableFunction hinner
  | none =>
    intro s tree s' hs h
    obtain ⟨trees, s₁, hread, h⟩ := bind_eq_ok.1 h
    obtain ⟨hmarks, cs, hcs⟩ := marks_arguments hinner hs hread
    cases scope with
    | selector =>
      obtain ⟨rfl, rfl⟩ := EStateM.Result.ok.inj h
      refine ⟨hmarks, rfl, by simp [Node.typeName, SequenceKind.typeName], .inl ?_⟩
      rw [hcs]
      exact ⟨cs, by simp⟩
    | atruleExpression | value =>
      obtain ⟨rfl, rfl⟩ := EStateM.Result.ok.inj h
      refine ⟨hmarks, rfl, by simp [Node.typeName, SequenceKind.typeName], ?_⟩
      rw [hcs]
      exact ⟨cs, by simp⟩

/-! ## Components -/

theorem markingTree_named (hinner : NestedMarking inner) : MarkingTree (named inner scope) := by
  refine .here fun info => .step (spanning_readName false) fun name w hw => .look (looks_isAt _)
    fun _ => ?_
  rw [List.nil_append, ← hw]
  exact .ite (fun _ => inside_function hinner) fun _ => .leaf List.prefix_rfl

/-- A number and what makes it a percentage or a dimension. A unit can end before an escape. -/
theorem marks_measured {token : Token} {front : List Token} (hs : Spelled s₁.rest)
    (hname : tokenChars (token :: front) = name.toList)
    (h : measured (some token.start) name s₁ = .ok tree s') :
    Marks (token :: front ++ s₁.rest) tree.preorder s'.rest := by
  have hleaf : ∀ {kind : LeafKind} {rest : List Token}, rest <:+ s₁.rest →
      Node.leafOpening name.toList kind <+: tokenChars (token :: front ++ s₁.rest) →
      Marks (token :: front ++ s₁.rest)
        (Node.leaf (some token.start) kind name : Tree).preorder rest := by
    intro kind rest hsuffix hopens
    refine .here rfl hopens ?_ (.of_suffix (hsuffix.trans (List.suffix_append _ _)))
    cases kind <;> simp [Node.typeName, LeafKind.name]
  have hnumber : name.toList <+: tokenChars (token :: front ++ s₁.rest) := by
    rw [tokenChars_append, hname]
    exact List.prefix_append _ _
  rw [measured, current?_bind_run] at h
  cases hrest : s₁.rest with
  | nil =>
    rw [hrest] at h
    obtain ⟨rfl, rfl⟩ := EStateM.Result.ok.inj h
    exact hrest ▸ hleaf List.suffix_rfl hnumber
  | cons next rest =>
    rw [hrest, List.head?_cons] at h
    dsimp only at h
    split at h
    next hk =>
      obtain ⟨rfl, rfl⟩ := EStateM.Result.ok.inj h
      refine hrest ▸ hleaf (List.tail_suffix _) ?_
      rw [hrest, tokenChars_append, hname, tokenChars_cons,
        (hs next (by simp [hrest])).sign '%' (by rw [hk]; rfl)]
      exact ⟨tokenChars rest, by simp [Node.leafOpening]⟩
    next =>
      split at h
      next hk =>
        obtain ⟨unit, s₂, hunit, h⟩ := bind_eq_ok.1 h
        obtain ⟨rfl, rfl⟩ := EStateM.Result.ok.inj h
        rcases readUnit_cases next with hwhole | ⟨unit', escape, htext, hescape, hne⟩
        · obtain ⟨rfl, rfl⟩ :=
            EStateM.Result.ok.inj ((readUnit_whole hrest hwhole).symm.trans hunit)
          refine .here rfl ?_ (by simp [Node.typeName]) (.of_suffix ?_)
          · rw [tokenChars_append, hname, tokenChars_cons]
            exact ⟨tokenChars rest, by simp⟩
          · exact (List.suffix_cons _ _).trans (List.suffix_append _ _)
        · obtain ⟨rfl, rfl⟩ :=
            EStateM.Result.ok.inj ((readUnit_cut hrest htext hescape hne).symm.trans hunit)
          exact .cut hname hk htext hne .nil
      next =>
        obtain ⟨rfl, rfl⟩ := EStateM.Result.ok.inj h
        exact hrest ▸ hleaf List.suffix_rfl hnumber

theorem take_number {tokens : List Token} {count : Nat} (h : numberLength? tokens = some count) :
    ∃ token front, tokens.take count = token :: front ∧ tokens.head? = some token := by
  have hpos := numberLength?_pos h
  have hle := numberLength?_le h
  cases tokens with
  | nil => exact absurd hle (by simpa using hpos.ne')
  | cons token tokens =>
    obtain ⟨count, rfl⟩ := Nat.exists_eq_add_one.2 hpos
    exact ⟨token, tokens.take count, rfl, rfl⟩

theorem markingTree_component (hinner : NestedMarking inner) :
    MarkingTree (component inner scope) := by
  have hsign : MarkingTree (signOrName inner scope) := by
    refine .look (looks_lookupKind _ _) fun _ => .look (looks_lookupKind _ _) fun _ =>
      .look looks_kind? fun _ => ?_
    split
    · exact .ite (fun _ => markingTree_named hinner) fun _ => markingTree_operator
    · exact markingTree_operator
    · exact .fail
  have hsigned : MarkingTree (signedComponent inner scope) := by
    intro s tree s' hs h
    rw [signedComponent, here_bind_run] at h
    cases hcount : numberLength? s.rest with
    | some count =>
      obtain ⟨token, front, htake, hhead⟩ := take_number hcount
      rw [bind_of_ok (readNumber?_of_some hcount), hhead] at h
      have hname : tokenChars (token :: front) =
          (Text.concat ((s.rest.take count).map Token.text)).toList := by
        rw [toList_concat_text, htake]
      have hmarks := marks_measured (hs.of_suffix (List.drop_suffix count _)) hname h
      rw [← htake, List.take_append_drop] at hmarks
      exact ⟨_, hmarks, rfl⟩
    | none =>
      rw [bind_of_ok (readNumber?_of_none hcount)] at h
      exact hsign s tree s' hs h
  rw [component_eq]
  refine .look looks_kind? fun _ => ?_
  split
  · exact markingTree_tokenLeaf fun _ => rfl
  · exact markingTree_named hinner
  · exact markingTree_named hinner
  · exact hsigned
  · exact hsigned
  · exact hsigned
  · exact hsigned
  · exact .fail

theorem roundMarks_bracketPart (hinner : NestedMarking inner) (closing : TokenKind)
    (token : Token) :
    RoundMarks (bracketPart inner scope closing token) token := by
  refine .ite (fun _ => .stop) fun _ => ?_
  split
  next => exact .tree markingTree_space
  next => exact .skip spanning_advance
  next => exact .tree markingTree_hash
  next hk => exact .part fun _ _ _ hhead => hinner.brackets hhead (.inl hk)
  next hk => exact .part fun _ _ _ hhead => hinner.brackets hhead (.inr hk)
  next => exact .tree markingTree_operator
  next => exact .tree markingTree_operator
  next => exact .tree markingTree_operator
  next => exact .tree markingTree_operator
  next => exact .tree (hinner.component scope)

theorem marks_brackets (hinner : NestedMarking inner) {token : Token}
    (hhead : s.rest.head? = some token) (hk : token.kind = .leftParen ∨ token.kind = .leftBracket)
    (hs : Spelled s.rest) (h : brackets inner scope s = .ok tree s') :
    Marks s.rest tree.preorder s'.rest := by
  obtain ⟨rest, hrest⟩ := List.head?_eq_some_iff.1 hhead
  rw [brackets, here_bind_run, isAt_bind_run, advance_bind_run, skipGaps_bind_run, hhead] at h
  obtain ⟨nodes, s₁, hmany, h⟩ := bind_eq_ok.1 h
  have hsuffix : s.rest.tail.dropWhile isGap <:+ s.rest :=
    (List.dropWhile_suffix _).trans (List.tail_suffix _)
  obtain ⟨_, hmarks, rfl⟩ :=
    marking_many (fun token => roundMarks_bracketPart hinner _ token) _ nodes s₁
    (hs.of_suffix hsuffix) hmany
  obtain ⟨_, s₂, hclose, h⟩ := bind_eq_ok.1 h
  obtain ⟨rfl, rfl⟩ := EStateM.Result.ok.inj h
  obtain ⟨close, back, hback, -, rfl⟩ := expect_eq_ok.1 hclose
  obtain ⟨front, hfront⟩ := hsuffix
  have hinside :=
    (marks_dropTrailingSpaces hmarks).append (.of_suffix (hback ▸ List.suffix_cons close back))
  rw [List.append_nil] at hinside
  have hspelled := (hs token (by simp [hrest])).sign
  have hmarks := hinside.after front
  rw [hfront] at hmarks
  refine (Node.preorder_eq_inside _).symm ▸ .here (by rw [hhead]; rfl) ?_ ?_ hmarks
  · rcases hk with hk | hk
    · rw [hrest, tokenChars_cons, hspelled '(' (by rw [hk]; rfl)]
      simp [hk, Node.OpensWith]
    · rw [hrest, tokenChars_cons, hspelled '[' (by rw [hk]; rfl)]
      simp [hk, Node.OpensWith]
  · rcases hk with hk | hk <;> simp [hk, Node.typeName, SequenceKind.typeName]

/-! ## Values -/

theorem spanning_importantFlag : Spanning importantFlag fun _ _ => True :=
  (spanning_expect (c := '!') rfl).bind fun _ _ _ => spanning_skipGaps.bind fun _ _ _ =>
    .look (looks_expectWord _) fun _ => (spanning_readName false).bind fun _ _ _ => .pure trivial

theorem roundMarks_valuePart (hinner : NestedMarking inner) (nested important : Bool)
    (token : Token) :
    RoundMarks (valuePart inner nested important token) token := by
  unfold valuePart
  split
  next => exact .stop
  next => exact .stop
  next => exact .ite (fun _ => .stop) fun _ => .fail
  next => exact .tree markingTree_space
  next => exact .skip spanning_advance
  next => exact .tree markingTree_hash
  next => exact .tree markingTree_operator
  next => exact .tree markingTree_operator
  next hk => exact .part fun _ _ _ hhead => marks_brackets hinner hhead (.inl hk)
  next hk => exact .part fun _ _ _ hhead => marks_brackets hinner hhead (.inr hk)
  next => exact .skip spanning_importantFlag
  next =>
    refine .look (looks_lookupKind _ _) fun _ => .ite (fun _ => ?_) fun _ => ?_
    · exact .tree markingTree_unicodeRange
    · exact .tree (markingTree_component hinner)
  next => exact .tree (markingTree_component hinner)

/-- A tree without literal text. -/
theorem opened_silent {tree : Tree} {nodes : List Tree} (hnodes : nodes = tree.inside)
    (hinfo : tree.info = info) (htype : tree.typeName ≠ "Atrule")
    (hopens : ∀ cs, tree.OpensWith cs) :
    Opened info [] tree nodes :=
  ⟨hnodes, hinfo, htype, fun cs => hopens cs⟩

theorem markingTree_value (hinner : NestedMarking inner) (nested : Bool) :
    MarkingTree (value inner nested) := by
  refine .here fun info => .rest (.step spanning_skipGaps fun _ => ?_)
  intro s tree s' hs h
  obtain ⟨result, s₁, hloop, h⟩ := bind_eq_ok.1 h
  obtain ⟨_, hmarks, rfl⟩ :=
    marking_loop (fun important token => roundMarks_valuePart hinner nested important token)
    s result s₁ hs hloop
  obtain ⟨rfl, rfl⟩ := EStateM.Result.ok.inj h
  exact ⟨_, marks_dropTrailingSpaces hmarks, opened_silent rfl rfl
    (by simp [Node.typeName, SequenceKind.typeName]) fun _ => trivial⟩

theorem markingTree_progid (count : Nat) : MarkingTree (progid count) := by
  have hraw : MarkingTree (do
      let start ← here
      let text ← takeMany count
      pure (.leaf start .raw text)) :=
    .here fun _ => .step (spanning_takeMany _) fun _ _ hw => .leaf (by simp [Node.leafOpening, hw])
  refine .here fun info => .rest (.step spanning_skipGaps fun _ => ?_)
  have hopened : ∀ raw : Tree, Opened info [] (.wrapper info .progid raw) (raw.preorder ++ []) :=
    fun raw => opened_silent (by simp [Node.inside, Node.children]) rfl
      (by simp [Node.typeName, WrapperKind.name]) fun _ => trivial
  have hend : ∀ {raw : Tree}, Marking (do skipGaps; return .wrapper info .progid raw : Parser Tree)
      fun tree later => Opened info [] tree (raw.preorder ++ later) :=
    .step spanning_skipGaps fun _ => .pure (hopened _)
  have hthen : Marking _ (Opened info []) := .bind hraw fun raw _ hnodes => hnodes ▸ hend
  simpa only [bind_assoc, pure_bind] using hthen

theorem markingTree_filterValue : MarkingTree filterValue := by
  have hround : ∀ token, RoundMarks (progidPart token) token := by
    refine fun token => .look looks_get fun s => ?_
    split
    · exact .tree (markingTree_progid _)
    · exact .stop
  refine .here fun info => .rest (.bind (marking_many hround) fun nodes _ hnodes =>
    .step spanning_skipGaps fun _ => .look (looks_isAt _) fun important => ?_)
  have hend : ∀ important : Bool, Opened info []
      (.sequence info (.value important) nodes) (nodes.flatMap Node.preorder) := fun important =>
    opened_silent rfl rfl (by simp [Node.typeName, SequenceKind.typeName]) fun _ => trivial
  subst hnodes
  exact .ite (fun _ => .step spanning_importantFlag fun _ => .pure (by simpa using hend important))
    fun _ => .pure (by simpa using hend important)

end Grammar
end StyleTree
