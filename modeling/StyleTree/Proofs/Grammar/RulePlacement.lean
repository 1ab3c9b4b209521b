import StyleTree.Context
import StyleTree.Proofs.Grammar.Placement
import StyleTree.Proofs.Grammar.Selector

/-! Where selectors and rules stand. The nodes of every production stand among the tokens it reads,
in the order of the tokens (`markingTree_production`). A combinator waits for the part after it and
comes to stand where it was read (`marks_selectorRounds`); a list of selectors that is discarded
leaves its tokens without nodes (`markingTree_selector`). -/

namespace StyleTree

open StyleTree.Parser StyleTree.Grammar

namespace Grammar

variable {inner : Nested} {s s₁ s' : ParserState} {tree : Tree} {info : Option Nat}

/-! ## Attributes -/

theorem spanning_attributeOperator : Spanning attributeOperator fun _ _ => True := by
  refine .look looks_kind? fun _ => ?_
  split
  · exact spanning_take.mono fun _ _ _ => trivial
  all_goals first
    | exact spanning_take.bind fun _ _ _ =>
      (spanning_expect (c := '=') rfl).bind fun _ _ _ => .pure trivial
    | exact .fail

theorem marking_attributeTest :
    Marking attributeTest fun test nodes => nodes = test.2.preorder := by
  refine .step spanning_attributeOperator fun _ => .step spanning_skipGaps fun _ =>
    .look (looks_isAt _) fun _ => .choose (p := fun node nodes => nodes = Node.preorder node)
      (fun _ => markingTree_tokenLeaf fun _ => rfl) (fun _ => markingTree_identifier false)
      fun node nodes hnodes => .step spanning_skipGaps fun _ => .pure ?_
  rw [hnodes, List.append_nil]

theorem spanning_attributeFlags : Spanning attributeFlags fun _ _ => True :=
  .look (looks_isAt _) fun _ => .ite
    (fun _ => spanning_take.bind fun _ _ _ => spanning_skipGaps.bind fun _ _ _ => .pure trivial)
    fun _ => .pure trivial

theorem markingTree_attributeSelector : MarkingTree attributeSelector := by
  refine .here fun info => .step (spanning_expect rfl) fun _ w hw => .rest ?_
  subst hw
  refine .step spanning_skipGaps fun _ => .bind (markingTree_qualifiedName true) fun name _ hname =>
    .step spanning_skipGaps fun _ => .look looks_kind? fun _ => ?_
  subst hname
  have hend : ∀ (test : Option (String × Tree)) {nodes : List Tree}, nodes =
      (test.map Prod.snd).toList.flatMap Node.preorder → Marking (do
        let flags ← attributeFlags
        expect .rightBracket
        return .attributeSelector info name (test.map Prod.fst) (test.map Prod.snd) flags)
        fun tree later => Opened info ['['] tree (name.preorder ++ (nodes ++ later)) :=
    fun _ _ hnodes => .step spanning_attributeFlags fun _ => .step (spanning_expect (c := ']') rfl)
      fun _ => .pure ⟨by rw [hnodes, List.append_nil]; rfl, rfl, by simp [Node.typeName],
        fun _ => List.prefix_append _ _⟩
  split
  · exact .value (hend none rfl)
  · exact .value (hend none rfl)
  · exact .value (hend none rfl)
  · exact .bind marking_attributeTest fun test _ hnodes =>
      .value (hend (some test) (by simp [hnodes]))

/-! ## Pseudo-classes and pseudo-elements -/

theorem markingTree_nth : MarkingTree nth := by
  have hleaf : ∀ {read : Parser String} {info : Option Nat},
      Spanning read (fun text w => text.toList = w) →
      MarkingInside (do return .leaf info .nth (← read)) info [] := fun hread =>
    .step hread fun _ _ hw => .leaf (by simp [Node.leafOpening, hw])
  refine .here fun _ => .look looks_current? fun _ => ?_
  split
  · exact .ite (fun _ => .look (looks_lookup? _) fun _ => hleaf (spanning_takeMany _)) fun _ =>
      .ite (fun _ => .ite (fun _ => hleaf spanning_take) fun _ => .fail) fun _ => .fail
  · exact .fail

theorem roundMarks_nthPart (token : Token) : RoundMarks (nthPart token) token := by
  unfold nthPart
  split
  · exact .stop
  · exact .skip spanning_advance
  · exact .skip spanning_advance
  · exact .tree markingTree_operator
  · exact .tree markingTree_operator
  · exact .tree markingTree_nth

theorem markingTree_nthSelector : MarkingTree nthSelector := by
  refine .here fun info => .step (spanning_expect rfl) fun _ _ hcolon =>
    .step (spanning_readName false) fun name _ hname =>
      .step (spanning_expect rfl) fun _ _ hparen => .rest ?_
  subst hcolon hname hparen
  refine .bind (Marking.argument (fun parts => parts) (marking_many roundMarks_nthPart))
    fun parts _ hnodes =>
    .step (spanning_expect (c := ')') rfl) fun _ => .pure ⟨?_, rfl, ?_, fun cs => .inr ?_⟩
  · rw [hnodes, List.append_nil]
    exact (List.flatMap_singleton ..).symm
  · simp [Node.typeName, SequenceKind.typeName]
  · simp

/-- The position of a functional pseudo-class is that of its name. -/
theorem markingTree_pseudoClass (hinner : NestedMarking inner) :
    MarkingTree (pseudoClass inner) := by
  intro s tree s' hs h
  rw [pseudoClass, here_bind_run] at h
  obtain ⟨_, s₁, hcolon, h⟩ := bind_eq_ok.1 h
  rw [here_bind_run] at h
  obtain ⟨name, s₂, hname, h⟩ := bind_eq_ok.1 h
  rw [isAt_bind_run] at h
  refine ⟨_, ?_, rfl⟩
  split at h
  · obtain ⟨front, hfront, -⟩ := spanning_expect (c := ':') rfl _ _ _ hs hcolon
    have hfunction : MarkingInside
        (readName false >>= function inner .selector (s₁.rest.head?.map Token.start))
        (s₁.rest.head?.map Token.start) [] :=
      .step (spanning_readName false) fun name w hw => by
        rw [List.nil_append, ← hw]
        exact inside_function hinner
    rw [hfront]
    exact (hfunction.marks (hs.of_suffix ⟨front, hfront.symm⟩)
      ((bind_of_ok hname).trans h)).after front
  · obtain ⟨rfl, rfl⟩ := EStateM.Result.ok.inj h
    have hleaf : MarkingInside (do
        expect .colon
        return .leaf (s.rest.head?.map Token.start) .pseudoClass (← readName false))
        (s.rest.head?.map Token.start) [] :=
      .step (spanning_expect rfl) fun _ _ hw => by
        subst hw
        exact inside_namedLeaf fun _ => rfl
    exact hleaf.marks hs ((bind_of_ok hcolon).trans (bind_of_ok hname))

theorem markingTree_pseudo (hinner : NestedMarking inner) : MarkingTree (pseudo inner) := by
  have helement : MarkingTree pseudoElement :=
    .here fun _ => .step (spanning_expect rfl) fun _ _ hfirst => .step (spanning_expect rfl)
      fun _ _ hsecond => by
        subst hfirst hsecond
        exact inside_namedLeaf fun _ => rfl
  refine .look (looks_lookup? 1) fun next => ?_
  split
  · exact .step spanning_advance fun _ => .fail
  · exact .ite (fun _ => helement) fun _ => .ite (fun _ => markingTree_nthSelector)
      fun _ => markingTree_pseudoClass hinner

/-! ## Simple selectors -/

theorem markingTree_percentageOrName : MarkingTree percentageOrName := by
  intro s tree s' hs h
  cases hcount : numberLength? s.rest with
  | none => exact markingTree_qualifiedName false s tree s' hs (percentageOrName_of_none hcount ▸ h)
  | some count =>
    simp only [percentageOrName, get_bind_run, hcount] at h
    split at h
    next hpercent =>
      rw [here_bind_run, takeMany_bind_run, advance_bind_run] at h
      obtain ⟨rfl, rfl⟩ := EStateM.Result.ok.inj h
      obtain ⟨sign, hsign, hk⟩ := Option.map_eq_some_iff.1 hpercent
      obtain ⟨hlt, rfl⟩ := List.getElem?_eq_some_iff.1 hsign
      have htext := (hs _ (List.getElem_mem hlt)).sign '%' (by rw [hk]; rfl)
      have htokens : tokenChars s.rest =
          tokenChars (s.rest.take count) ++ '%' :: tokenChars (s.rest.drop (count + 1)) := by
        conv => lhs; rw [← List.take_append_drop count s.rest, List.drop_eq_getElem_cons hlt,
          tokenChars_append, tokenChars_cons, htext]
        rfl
      refine ⟨_, .here rfl ?_ (by simp [Node.typeName, LeafKind.name]) (.of_suffix ?_), rfl⟩
      · rw [htokens]
        refine ⟨tokenChars (s.rest.drop (count + 1)), ?_⟩
        rw [Node.leafOpening, toList_concat_text, List.append_assoc]
        rfl
      · exact (List.tail_suffix _).trans (List.drop_suffix _ _)
    next => exact markingTree_qualifiedName false s tree s' hs h

theorem markingTree_selectorReader (hinner : NestedMarking inner) (kind : TokenKind) :
    MarkingTree (selectorReader inner kind) := by
  unfold selectorReader
  split
  · exact .here fun _ => .step (spanning_expect rfl) fun _ _ hw => by
      subst hw
      exact inside_namedLeaf fun _ => rfl
  · exact markingTree_attributeSelector
  · exact .here fun _ => .step (spanning_expect rfl) fun _ _ hw => by
      subst hw
      exact inside_namedLeaf fun _ => rfl
  · exact markingTree_pseudo hinner
  · exact markingTree_qualifiedName false
  · exact markingTree_qualifiedName false
  · exact markingTree_qualifiedName false
  · exact markingTree_qualifiedName false
  · exact markingTree_percentageOrName
  · exact markingTree_percentageOrName
  · exact .fail

theorem markingTree_combinator (token : Token) : MarkingTree (combinator token) := by
  have hleaf : ∀ {info : Option Nat} {name : String} {w : List Char},
      MarkingInside (Pure.pure (.leaf info .combinator name)) info w :=
    .leaf List.nil_prefix
  refine .here fun info => .step spanning_advance fun _ _ _ => ?_
  split
  · exact hleaf
  · exact .look (looks_expectWord _) fun _ => .step spanning_advance fun _ _ _ =>
      .step (spanning_expect (c := '/') rfl) fun _ _ _ => hleaf
  · exact hleaf

theorem spanning_combinator (token : Token) :
    Spanning (combinator token) fun node _ => ∃ info name, node = .leaf info .combinator name := by
  refine .look looks_here fun info => spanning_advance.bind fun _ _ _ => ?_
  split
  · exact .pure ⟨_, _, rfl⟩
  · exact .look (looks_expectWord _) fun _ => spanning_advance.bind fun _ _ _ =>
      (spanning_expect (c := '/') rfl).bind fun _ _ _ => .pure ⟨_, _, rfl⟩
  · exact .pure ⟨_, _, rfl⟩

/-- The parts of a simple selector with their combinators. What waits at the start of the run stands
among the tokens before it, and can be left out. -/
theorem marks_selectorRounds (hinner : NestedMarking inner) {nested : Bool}
    {st last : SelectorState} {nodes : List Tree}
    (h : Rounds (selectorPart inner nested) st s nodes last s') {tokens : List Token}
    (hs : Spelled s.rest) (hnone : Marks tokens [] s.rest)
    (hpending : Marks tokens (st.pending.toList.flatMap Node.preorder) s.rest) :
    Marks tokens (nodes.flatMap Node.preorder) s'.rest := by
  induction h generalizing tokens with
  | done => exact hnone
  | stop hrest hround =>
    cases selectorPart_eq_ok hround with
    | ends => exact hnone
  | @next st s token rest _ _ _ _ _ _ hrest hround _ ih =>
    rw [List.flatMap_append]
    cases selectorPart_eq_ok hround with
    | comment | skip =>
      have htail : Marks s.rest [] s.rest.tail := .of_suffix (List.tail_suffix _)
      exact ih (hs.of_suffix (List.tail_suffix _)) (hnone.append htail)
        (by simpa using hpending.append htail)
    | joint _ _ _ hread =>
      obtain ⟨front, hfront, info, name, rfl⟩ := spanning_combinator _ _ _ _ hs hread
      obtain ⟨_, hnode, rfl⟩ := markingTree_combinator _ _ _ _ hs hread
      have hskip := Marks.of_suffix ⟨front, hfront.symm⟩
      exact ih (hnode.spelled hs) (hnone.append hskip) (hnone.append hnode)
    | part _ _ _ hread =>
      obtain ⟨_, hnode, rfl⟩ := markingTree_selectorReader hinner _ _ _ _ hs hread
      rw [List.flatMap_append, List.flatMap_singleton]
      exact (hpending.append hnode).append (ih (hnode.spelled hs) .nil .nil)

theorem rounds_of_simpleSelector {nested : Bool} (h : simpleSelector inner nested s = .ok tree s') :
    ∃ nodes last, Rounds (selectorPart inner nested) {} s nodes last s' ∧
      tree = .sequence (s.rest.head?.map Token.start) .simpleSelector nodes := by
  rw [simpleSelector, here_bind_run] at h
  obtain ⟨⟨nodes, last⟩, s₁, hloop, h⟩ := bind_eq_ok.1 h
  dsimp only at h
  split at h
  · exact (fail_ne_ok.1 h).elim
  · obtain ⟨rfl, rfl⟩ := EStateM.Result.ok.inj h
    exact ⟨nodes, last, rounds_of_loop hloop, rfl⟩

theorem markingTree_simpleSelector (hinner : NestedMarking inner) (nested : Bool) :
    MarkingTree (simpleSelector inner nested) := by
  intro s tree s' hs h
  obtain ⟨nodes, last, hrounds, rfl⟩ := rounds_of_simpleSelector h
  refine ⟨_, ?_, rfl⟩
  rw [Node.preorder_eq_inside]
  exact .here rfl trivial (by simp [Node.typeName, SequenceKind.typeName])
    (marks_selectorRounds hinner hrounds hs .nil .nil)

theorem endsSelector_of_rounds {nested : Bool} {st last : SelectorState} {nodes : List Tree}
    (h : Rounds (selectorPart inner nested) st s nodes last s') :
    ∀ token ∈ s'.rest.head?, EndsSelector nested token := by
  induction h with
  | done hrest => simp [hrest]
  | stop hrest hround =>
    cases selectorPart_eq_ok hround with
    | ends hends => simpa [hrest] using hends
  | next _ _ _ ih => exact ih

/-- A list of selectors does not end before an identifier. -/
theorem notAt_ident_of_separates {entries : List Tree} {missing : Bool}
    (h : Separates opensBlock (simpleSelector inner false) (pure ()) s entries missing s') :
    NotAt .ident s'.rest := by
  intro hident
  obtain ⟨token, hmem, hk⟩ := Option.map_eq_some_iff.1 hident
  induction h with
  | missing hends => simpa [opensBlock, hk] using hends token hmem
  | last _ hread =>
    obtain ⟨nodes, last, hrounds, -⟩ := rounds_of_simpleSelector hread
    simpa [EndsSelector, selectorEnd, hk] using endsSelector_of_rounds hrounds token hmem
  | more _ _ _ _ _ _ ih => exact ih hident hmem

theorem markingTree_selector (hinner : NestedMarking inner) : MarkingTree (selector inner) := by
  refine .here fun info => .rest ?_
  intro s tree s' hs h
  obtain ⟨⟨entries, missing⟩, s₁, hread, h⟩ := bind_eq_ok.1 h
  obtain ⟨_, hmarks, rfl⟩ := marking_separated (w := fun _ _ => True)
    (markingTree_simpleSelector hinner false) (.pure trivial) _ _ _ hs hread
  have hopened : ∀ entries, Opened info [] (.sequence info .selector entries)
      (entries.flatMap Node.preorder) := fun entries =>
    opened_silent rfl rfl (by simp [Node.typeName, SequenceKind.typeName]) fun _ => trivial
  dsimp only at h
  split at h
  · rw [noteDiscarded, bind_assoc, here_bind_run, modify_bind_run] at h
    obtain ⟨rfl, rfl⟩ := EStateM.Result.ok.inj h
    exact ⟨_, .of_suffix (hmarks.suffix (notAt_ident_of_separates (separates_of_separated hread))),
      hopened []⟩
  · obtain ⟨rfl, rfl⟩ := EStateM.Result.ok.inj h
    exact ⟨_, hmarks, hopened entries⟩

/-- At every depth, the readers make nodes that stand among the tokens. -/
theorem nestedMarking_upTo (depth : Nat) : NestedMarking (.upTo depth) := by
  induction depth with
  | zero => exact ⟨fun _ => .fail, fun _ _ _ h => (fail_ne_ok.1 h).elim, .fail, .fail⟩
  | succ depth ih =>
    exact ⟨fun _ => markingTree_component ih, marks_brackets ih, markingTree_value ih true,
      markingTree_simpleSelector ih true⟩

/-! ## Declarations -/

theorem markingTree_property : MarkingTree property :=
  .here fun _ => .step (spanning_takeWhile _) fun _ _ hmarks => .step (spanning_readName true)
    fun _ _ hname => .step spanning_skipGaps fun _ _ _ =>
      .leaf (by simp [Node.leafOpening, hmarks, hname])

theorem markingTree_declaration (hinner : NestedMarking inner) :
    MarkingTree (declaration inner) := by
  refine .here fun info => .rest (.bind markingTree_property fun name _ hname => .step
    (spanning_expect (c := ':') rfl) fun _ => .look looks_get fun s => .choose
      (p := fun node nodes => nodes = Node.preorder node) (fun _ => markingTree_filterValue)
      (fun _ => markingTree_value hinner false) fun node _ hnode => .pure ?_)
  subst hname hnode
  exact opened_silent (by simp [Node.inside, Node.children]) rfl
    (by simp [Node.typeName, PairKind.name]) fun _ => trivial

theorem marking_declarations (hinner : NestedMarking inner) :
    Marking (declarations inner) fun trees nodes => nodes = trees.flatMap Node.preorder := by
  refine marking_many fun token => ?_
  unfold declarationPart
  split
  · exact .stop
  · exact .skip spanning_advance
  · exact .skip spanning_advance
  · exact .skip spanning_advance
  · exact .tree (markingTree_declaration hinner)

theorem opened_block (info : Option Nat) (nodes : List Tree) :
    Opened info [] (.sequence info .block nodes) (nodes.flatMap Node.preorder) :=
  opened_silent rfl rfl (by simp [Node.typeName, SequenceKind.typeName]) fun _ => trivial

theorem markingTree_block (hinner : NestedMarking inner) : MarkingTree (block inner) :=
  .here fun info => .rest (.bind (marking_declarations hinner) fun nodes _ hnodes => .pure (by
    rw [hnodes, List.append_nil]
    exact opened_block info nodes))

theorem markingTree_bracedBlock (hinner : NestedMarking inner) : MarkingTree (bracedBlock inner) :=
  .here fun info => .rest (.step (spanning_expect (c := '\x7b') rfl) fun _ =>
    .bind (marking_declarations hinner) fun nodes _ hnodes =>
      .step (spanning_expect (c := '\x7d') rfl) fun _ => .pure (by
        rw [hnodes, List.append_nil]
        exact opened_block info nodes))

/-! ## Rules -/

theorem markingTree_ruleset (hinner : NestedMarking inner) : MarkingTree (ruleset inner) := by
  refine .here fun info => .rest (.bind (markingTree_selector hinner) fun head _ hhead =>
    .bind (markingTree_bracedBlock hinner) fun body _ hbody => .pure ?_)
  subst hhead hbody
  exact opened_silent (by simp [Node.inside, Node.children]) rfl
    (by simp [Node.typeName, PairKind.name]) fun _ => trivial

theorem roundMarks_expressionPart (hinner : NestedMarking inner) (started : Bool) (token : Token) :
    RoundMarks (expressionPart inner started token) token := by
  unfold expressionPart
  split
  next => exact .stop
  next => exact .stop
  next => exact .ite (fun _ => .tree markingTree_space) fun _ => .skip spanning_advance
  next => exact .skip spanning_advance
  next => exact .tree markingTree_operator
  next => exact .tree (markingTree_pseudo hinner)
  next hk => exact .part fun _ _ _ hhead => marks_brackets hinner hhead (.inl hk)
  next => exact .tree (markingTree_component hinner)

theorem markingTree_atruleExpression (hinner : NestedMarking inner) :
    MarkingTree (atruleExpression inner) := by
  refine .here fun info => .rest ?_
  intro s tree s' hs h
  obtain ⟨result, s₁, hloop, h⟩ := bind_eq_ok.1 h
  obtain ⟨_, hmarks, rfl⟩ := marking_loop (roundMarks_expressionPart hinner) s result s₁ hs hloop
  obtain ⟨rfl, rfl⟩ := EStateM.Result.ok.inj h
  exact ⟨_, marks_dropTrailingSpaces hmarks, opened_silent rfl rfl
    (by simp [Node.typeName, SequenceKind.typeName]) fun _ => trivial⟩

theorem marking_atruleBody (hinner : NestedMarking inner) {sheet : Parser Tree}
    (hsheet : MarkingTree sheet) :
    Marking (atruleBody inner sheet)
      fun body nodes => nodes = body.toList.flatMap Node.preorder := by
  refine .look looks_kind? fun _ => ?_
  split
  · exact .pure rfl
  · exact .step spanning_advance fun _ => .pure rfl
  · refine .step spanning_advance fun _ => .look looks_get fun s => .choose
      (p := fun node nodes => nodes = Node.preorder node) (fun _ => markingTree_block hinner)
      (fun _ => hsheet) fun node _ hnode =>
        .step (spanning_expect (c := '\x7d') rfl) fun _ => .pure ?_
    simp [hnode]
  · exact .fail

/-- An at-rule stands at its name, after its sign. -/
theorem markingTree_atrule (hinner : NestedMarking inner) {sheet : Parser Tree}
    (hsheet : MarkingTree sheet) :
    MarkingTree (atrule inner sheet) := by
  intro s tree s' hs h
  obtain ⟨_, s₁, hsign, h⟩ := bind_eq_ok.1 h
  obtain ⟨sign, rest, hrest, hk, rfl⟩ := expect_eq_ok.1 hsign
  have hs₁ : Spelled rest := hs.of_suffix (hrest ▸ List.suffix_cons sign rest)
  rw [here_bind_run] at h
  obtain ⟨name, s₂, hname, h⟩ := bind_eq_ok.1 h
  obtain ⟨front, hfront, htext⟩ := spanning_readName false _ _ _ hs₁ hname
  obtain ⟨expression, s₃, hexpression, h⟩ := bind_eq_ok.1 h
  have hs₂ := hs₁.of_suffix ⟨front, hfront.symm⟩
  obtain ⟨_, hinside, rfl⟩ := markingTree_atruleExpression hinner _ _ _ hs₂ hexpression
  obtain ⟨body, s₄, hbody, h⟩ := bind_eq_ok.1 h
  obtain ⟨_, hlater, rfl⟩ := marking_atruleBody hinner hsheet _ _ _ (hinside.spelled hs₂) hbody
  obtain ⟨rfl, rfl⟩ := EStateM.Result.ok.inj h
  have hnodes := (hinside.append hlater).after front
  rw [← hfront] at hnodes
  refine ⟨_, ?_, rfl⟩
  rw [Node.preorder_eq_inside, hrest]
  have hsigned := (hs sign (by simp [hrest])).sign '@' (by rw [hk]; rfl)
  cases rest with
  | nil => exact .skip (.bare rfl hnodes)
  | cons token tokens =>
    have hchars := congrArg tokenChars hfront
    rw [tokenChars_append, ← htext] at hchars
    exact .atrule hsigned rfl ⟨_, hchars.symm⟩ hnodes

theorem commentText_opens (text : String) : (commentText text).toList <+: text.toList.drop 2 := by
  simp only [commentText, String.toList_ofList]
  split
  · exact List.take_prefix _ _
  · exact List.prefix_rfl

/-- A comment is placed where it stands. -/
theorem marks_comment {token : Token} (hhead : s.rest.head? = some token)
    (hk : token.kind = .comment) (hs : Spelled s.rest) (h : comment token s = .ok tree s') :
    Marks s.rest tree.preorder s'.rest := by
  obtain ⟨rest, hrest⟩ := List.head?_eq_some_iff.1 hhead
  obtain ⟨rfl, rfl⟩ := EStateM.Result.ok.inj h
  obtain ⟨body, hbody⟩ := (hs token (by simp [hrest])).comment hk
  have hopens := commentText_opens token.text
  rw [← hbody] at hopens
  refine .here rfl ?_ (by simp [Node.typeName, LeafKind.name]) (.of_suffix (List.tail_suffix _))
  rw [hrest, tokenChars_cons, ← hbody]
  exact (List.prefix_append_right_inj ['/', '*']).2 (hopens.trans (List.prefix_append _ _))

theorem roundMarks_rulePart (hinner : NestedMarking inner) {sheet : Parser Tree}
    (hsheet : MarkingTree sheet) (nested : Bool) (token : Token) :
    RoundMarks (rulePart inner sheet nested token) token := by
  unfold rulePart
  split
  next => exact .skip spanning_advance
  next hk =>
    refine .ite (fun _ => .skip spanning_advance) fun _ => ?_
    exact .part fun _ _ _ hhead => marks_comment hhead hk
  next => exact .tree (markingTree_tokenLeaf fun _ => rfl)
  next => exact .tree (markingTree_atrule hinner hsheet)
  next => exact .ite (fun _ => .stop) fun _ => .fail
  next => exact .tree (markingTree_ruleset hinner)

theorem markingTree_styleSheet (hinner : NestedMarking inner) {sheet : Parser Tree}
    (hsheet : MarkingTree sheet) (nested : Bool) : MarkingTree (styleSheet inner sheet nested) := by
  refine .here fun info => .rest (.bind (marking_many (roundMarks_rulePart hinner hsheet nested))
    fun nodes _ hnodes => .pure ?_)
  rw [hnodes, List.append_nil]
  exact opened_silent rfl rfl (by simp [Node.typeName, SequenceKind.typeName]) fun _ => trivial

/-- The rules in the bodies of at-rules, however deep. -/
theorem markingTree_nestedSheet (hinner : NestedMarking inner) (depth : Nat) :
    MarkingTree (nestedSheet inner depth) := by
  induction depth with
  | zero => exact .fail
  | succ depth ih => exact markingTree_styleSheet hinner ih true

/-- In every context the nodes of the tree stand among the tokens. -/
theorem markingTree_production (context : Context) (size : Nat) :
    MarkingTree (context.production size) := by
  have hinner := nestedMarking_upTo (size + 1)
  have hsheet := markingTree_nestedSheet hinner (size + 1)
  cases context with
  | stylesheet => exact markingTree_styleSheet hinner hsheet false
  | atrule => exact markingTree_atrule hinner hsheet
  | atruleExpression => exact markingTree_atruleExpression hinner
  | ruleset => exact markingTree_ruleset hinner
  | selector => exact markingTree_selector hinner
  | simpleSelector => exact markingTree_simpleSelector hinner false
  | block => exact markingTree_block hinner
  | declaration => exact markingTree_declaration hinner
  | property => exact markingTree_property
  | value => exact markingTree_value hinner false

end Grammar
end StyleTree
