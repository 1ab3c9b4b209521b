import StyleTree.Context
import StyleTree.Proofs.Grammar.Shape

/-! The shape of what selectors and rules are read as. A simple selector goes on from a state of its
loop with combinators between parts (`GoesOn`), an at-rule expression with a space only after a part
(`ExpressionGoesOn`), and the body of an at-rule that is read as rules has some
(`sheetShaped_nestedSheet`). In every context the tree has the shape of the grammar
(`gives_production`). -/

namespace StyleTree

open StyleTree.Parser StyleTree.Grammar

namespace Grammar

open Node

variable {inner : Nested}

/-! ## Selectors -/

theorem gives_attributeOperator : Gives attributeOperator fun _ => True := by
  refine gives_kind?.step fun _ => ?_
  split
  · exact gives_take
  all_goals first
    | exact gives_take.step fun _ => (gives_expect _).step fun _ => .pure trivial
    | exact .fail

theorem gives_attributeTest :
    Gives attributeTest fun test => Shaped ["String", "Identifier"] test.2 := by
  refine gives_attributeOperator.step fun _ => gives_skipGaps.step fun _ => (gives_isAt _).step
    fun _ => .choose (p := Shaped ["String", "Identifier"]) (fun _ => gives_tokenLeaf (by decide))
      (fun _ => (gives_identifier false).mono fun _ h => h.mono (by decide)) fun node hnode =>
        gives_skipGaps.step fun _ => .pure hnode

theorem gives_attributeFlags : Gives attributeFlags fun _ => True :=
  (gives_isAt _).step fun _ => .ite
    (fun _ => gives_take.step fun _ => gives_skipGaps.step fun _ => .pure trivial)
    fun _ => .pure trivial

theorem gives_attributeSelector : Gives attributeSelector (Shaped ["Attribute"]) := by
  refine gives_here.step fun info => (gives_expect _).step fun _ => gives_skipGaps.step fun _ =>
    (gives_qualifiedName true).bind fun name hname => gives_skipGaps.step fun _ =>
      gives_kind?.step fun _ => ?_
  have hend : ∀ test : Option (String × Tree), (∀ t ∈ test, Shaped ["String", "Identifier"] t.2) →
      Gives (do
        let flags ← attributeFlags
        expect .rightBracket
        return .attributeSelector info name (test.map Prod.fst) (test.map Prod.snd) flags)
        (Shaped ["Attribute"]) := by
    refine fun test htest => gives_attributeFlags.step fun flags => (gives_expect _).step
      fun _ => .pure ⟨.head _, sound_iff.2 ⟨⟨List.mem_singleton.1 hname.type, by simp, ?_⟩, ?_⟩⟩
    · intro node hnode
      obtain ⟨t, ht, rfl⟩ := Option.map_eq_some_iff.1 hnode
      exact (htest t ht).type
    · intro node hnode
      rcases List.mem_cons.1 hnode with rfl | hnode
      · exact hname.sound
      · obtain ⟨t, ht, rfl⟩ := Option.map_eq_some_iff.1 (Option.mem_toList.1 hnode)
        exact (htest t ht).sound
  split
  · exact hend none nofun
  · exact hend none nofun
  · exact hend none nofun
  · exact gives_attributeTest.bind fun test htest => hend (some test) (by simpa using htest)

theorem gives_nth : Gives nth (Shaped ["Nth"]) := by
  refine gives_here.step fun _ => gives_current?.step fun _ => ?_
  split
  · refine .ite (fun _ => (gives_lookup? _).step fun _ => (gives_takeMany _).step fun _ =>
      .pure (.leaf (by decide))) fun _ => .ite (fun _ => ?_) fun _ => .fail
    exact .ite (fun _ => gives_take.step fun _ => .pure (.leaf (by decide))) fun _ => .fail
  · exact .fail

theorem gives_nthPart (token : Token) :
    Gives (nthPart token) (Round.All (Shaped ["Nth", "Operator"])) := by
  unfold nthPart
  split
  · exact gives_stop
  · exact gives_skip
  · exact gives_skip
  · exact gives_add (gives_operator.mono fun _ h => h.mono (by decide))
  · exact gives_add (gives_operator.mono fun _ h => h.mono (by decide))
  · exact gives_add (gives_nth.mono fun _ h => h.mono (by decide))

theorem gives_nthSelector : Gives nthSelector (Shaped ["FunctionalPseudo"]) := by
  refine gives_here.step fun info => (gives_expect _).step fun _ => (gives_readName false).step
    fun name => (gives_expect _).step fun _ => (gives_many fun token _ => gives_nthPart token).bind
      fun nodes hnodes => (gives_expect _).step fun _ => .pure ?_
  have hspace : ∀ node ∈ nodes, node.typeName ≠ "Space" := by
    intro node hmem htype
    exact absurd (htype ▸ (hnodes node hmem).type) (by decide)
  have hargument : Shaped ["Argument"] (argument nodes) :=
    shaped_argument ⟨fun node hmem => hspace node (List.mem_of_mem_head? hmem),
      fun node hmem => hspace node (List.mem_of_getLast? hmem)⟩ hnodes
  exact .sequence (.head _) (by simpa [SequenceFits, AllOf] using hargument.type)
    (List.forall_mem_singleton.2 hargument)

/-- What a colon opens in a selector. -/
def pseudoTypes : List String :=
  ["PseudoElement", "PseudoClass", "FunctionalPseudo", "Url", "Negation"]

theorem gives_pseudo (hinner : NestedShaped inner) : Gives (pseudo inner) (Shaped pseudoTypes) := by
  have helement : Gives pseudoElement (Shaped pseudoTypes) :=
    gives_here.step fun _ => (gives_expect _).step fun _ => (gives_expect _).step fun _ =>
      gives_namedLeaf (by decide)
  have hclass : Gives (pseudoClass inner) (Shaped pseudoTypes) :=
    gives_here.step fun _ => (gives_expect _).step fun _ => gives_here.step fun start =>
      (gives_readName false).step fun name => (gives_isAt _).step fun _ => .ite
        (fun _ => (gives_function hinner .selector start name).mono fun _ h => h.mono (by decide))
        fun _ => .pure (.leaf (by decide))
  refine (gives_lookup? 1).step fun next => ?_
  split
  · exact gives_advance.step fun _ => .fail
  · exact .ite (fun _ => helement) fun _ => .ite
      (fun _ => gives_nthSelector.mono fun _ h => h.mono (by decide)) fun _ => hclass

theorem gives_percentageOrName : Gives percentageOrName (Shaped ["Percentage", "Identifier"]) := by
  have hname : Gives (qualifiedName false) (Shaped ["Percentage", "Identifier"]) :=
    (gives_qualifiedName false).mono fun _ h => h.mono (by decide)
  refine gives_get.step fun s => ?_
  dsimp only
  split
  · exact .ite (fun _ => gives_here.step fun _ => (gives_takeMany _).step fun _ =>
      gives_advance.step fun _ => .pure (.leaf (by decide))) fun _ => hname
  · exact hname

theorem gives_selectorReader (hinner : NestedShaped inner) (kind : TokenKind) :
    Gives (selectorReader inner kind) (Shaped compoundTypes) := by
  have hname : Gives (qualifiedName false) (Shaped compoundTypes) :=
    (gives_qualifiedName false).mono fun _ h => h.mono (by decide)
  have hnumber : Gives percentageOrName (Shaped compoundTypes) :=
    gives_percentageOrName.mono fun _ h => h.mono (by decide)
  unfold selectorReader
  split
  · exact gives_here.step fun _ => (gives_expect _).step fun _ => gives_namedLeaf (by decide)
  · exact gives_attributeSelector.mono fun _ h => h.mono (by decide)
  · exact gives_here.step fun _ => (gives_expect _).step fun _ => gives_namedLeaf (by decide)
  · exact (gives_pseudo hinner).mono fun _ h => h.mono (by decide)
  · exact hname
  · exact hname
  · exact hname
  · exact hname
  · exact hnumber
  · exact hnumber
  · exact .fail

/-- Only whitespace is read as the combinator that it stands for. -/
theorem gives_combinator {token : Token} (hjoint : isJoint token.kind = true)
    (hspelled : token.IsSpelled) : Gives (combinator token) fun node => Shaped ["Combinator"] node ∧
      (token.kind ≠ .whitespace → ∀ info, node ≠ .leaf info .combinator " ") := by
  refine gives_here.step fun info => gives_advance.step fun _ => ?_
  split
  next hk => exact .pure ⟨.leaf (by decide), fun hne => absurd hk hne⟩
  next hk =>
    exact (gives_expectWord _).step fun _ => gives_advance.step fun _ => (gives_expect _).step
      fun _ => .pure ⟨.leaf (by decide), by simp⟩
  next hspace hslash =>
    refine .pure ⟨.leaf (by decide), fun _ info' heq => ?_⟩
    have htext : token.text.toList = [' '] := by rw [(Node.leaf.inj heq).2.2]; rfl
    have hsign : ∀ c, token.kind.char? = some c → c = ' ' := by
      intro c hc
      rw [hspelled.sign c hc] at htext
      exact List.head_eq_of_cons_eq htext
    cases hk : token.kind <;> rw [hk] at hjoint hsign <;>
      first | exact absurd hk ‹_› | exact absurd (hsign _ rfl) (by decide) | exact nomatch hjoint

/-- The combinator that waits is one, and before the first part it is not whitespace. -/
def Waits (st : SelectorState) : Prop :=
  ∀ node ∈ st.pending, Shaped ["Combinator"] node ∧
    (st.started = false → ∀ info, node ≠ .leaf info .combinator " ")

/-- Parts and combinators as a simple selector has them. -/
def selectorTypes : List String :=
  "Combinator" :: compoundTypes

/-- What a simple selector goes on with from a state of the loop. -/
structure GoesOn (started : Bool) (nodes : List Tree) : Prop where
  shaped : ∀ node ∈ nodes, Shaped selectorTypes node
  apart : nodes.IsChain fun a b => ¬ (a.typeName = "Combinator" ∧ b.typeName = "Combinator")
  last : ∀ node ∈ nodes.getLast?, node.typeName ≠ "Combinator"
  first : started = false → ∀ info, nodes.head? ≠ some (.leaf info .combinator " ")

theorem GoesOn.nil (started : Bool) : GoesOn started [] :=
  ⟨nofun, .nil, nofun, nofun⟩

/-- A part goes on with what follows it. -/
theorem GoesOn.part {node : Tree} {later : List Tree} (hnode : Shaped compoundTypes node)
    (h : GoesOn true later) (started : Bool) : GoesOn started (node :: later) := by
  have hcombinator : node.typeName ≠ "Combinator" := fun htype =>
    absurd (htype ▸ hnode.type) (by decide)
  refine ⟨?_, ?_, ?_, ?_⟩
  · simpa using ⟨hnode.mono (List.subset_cons_self _ _), h.shaped⟩
  · exact List.isChain_cons.2 ⟨fun _ _ hboth => hcombinator hboth.1, h.apart⟩
  · rw [List.getLast?_cons]
    rintro other ⟨⟩
    cases hlast : later.getLast? with
    | none => exact hcombinator
    | some last => exact h.last last hlast
  · rintro - info heq
    rw [Option.some.inj heq] at hcombinator
    exact hcombinator rfl

/-- So does a combinator with a part after it. -/
theorem GoesOn.combinator {joint node : Tree} {later : List Tree} {started : Bool}
    (hjoint : Shaped ["Combinator"] joint)
    (hblank : started = false → ∀ info, joint ≠ .leaf info .combinator " ")
    (hnode : Shaped compoundTypes node) (h : GoesOn true later) :
    GoesOn started (joint :: node :: later) := by
  have hpart := h.part hnode true
  have hcombinator : node.typeName ≠ "Combinator" := fun htype =>
    absurd (htype ▸ hnode.type) (by decide)
  refine ⟨?_, ?_, ?_, ?_⟩
  · exact List.forall_mem_cons.2 ⟨hjoint.mono (by decide), hpart.shaped⟩
  · exact List.isChain_cons.2 ⟨fun _ hother hboth => by cases hother; exact hcombinator hboth.2,
      hpart.apart⟩
  · rw [List.getLast?_cons_cons]
    exact hpart.last
  · exact fun hstarted info heq => hblank hstarted info (Option.some.inj heq)

theorem gives_selectorPart (hinner : NestedShaped inner) (nested : Bool) (st : SelectorState)
    {token : Token} (hspelled : token.IsSpelled) : Gives (selectorPart inner nested st token)
      (Round.Keeps (fun st nodes => Waits st → GoesOn st.started nodes) st) := by
  intro s result s' hs h
  cases selectorPart_eq_ok h with
  | ends => exact ⟨hs, trivial⟩
  | comment | skip => exact ⟨hs.of_suffix (List.tail_suffix _), fun _ hlater => hlater⟩
  | joint hjoint hstarted _ hread =>
    obtain ⟨hs', hnode, hblank⟩ := gives_combinator hjoint hspelled _ _ _ hs hread
    refine ⟨hs', fun later hlater _ => hlater ?_⟩
    rintro _ ⟨⟩
    refine ⟨hnode, fun hst => hblank fun hk => ?_⟩
    rw [(Bool.and_eq_true_iff.1 (hstarted hk)).2] at hst
    exact nomatch hst
  | part _ _ _ hread =>
    obtain ⟨hs', hnode⟩ := gives_selectorReader hinner _ _ _ _ hs hread
    refine ⟨hs', fun later hlater hwaits => ?_⟩
    have hlater : GoesOn true later := hlater nofun
    cases hpending : st.pending with
    | none => exact hlater.part hnode _
    | some joint =>
      obtain ⟨hjoint, hblank⟩ := hwaits joint hpending
      exact .combinator hjoint hblank hnode hlater

theorem gives_simpleSelector (hinner : NestedShaped inner) (nested : Bool) :
    Gives (simpleSelector inner nested) (Shaped ["SimpleSelector"]) := by
  refine gives_here.step fun info => (gives_loop
    (fun st nodes => Waits st → GoesOn st.started nodes) (fun _ _ => .nil _)
    fun st token ht => gives_selectorPart hinner nested st ht).bind fun result hgoes => ?_
  refine .ite (fun _ => .fail) fun _ => .pure ?_
  have hgoes := hgoes nofun
  exact .sequence (.head _) ⟨Shaped.allOf hgoes.shaped, hgoes.apart, hgoes.last, hgoes.first rfl⟩
    hgoes.shaped

theorem gives_selector (hinner : NestedShaped inner) :
    Gives (selector inner) (Shaped ["Selector"]) := by
  refine gives_here.step fun info => (gives_separated (gives_simpleSelector hinner false)
    (.pure trivial)).bind fun result hentries => .ite (fun _ => ?_) fun hfull => .pure ?_
  · have hnote : Gives noteDiscarded fun _ => True :=
      gives_here.step fun _ => .of_suffix fun s _ _ h => by cases h; exact List.suffix_refl _
    exact hnote.step fun _ => .pure ⟨.head _, sound_iff.2 ⟨⟨nofun, nofun⟩, nofun⟩⟩
  · simp only [Bool.or_eq_true, List.any_eq_true, List.isEmpty_iff, not_or, not_exists,
      not_and] at hfull
    exact .sequence (.head _) ⟨Shaped.allOf hentries, hfull.2⟩ hentries

/-- At every depth, the readers give trees of the grammar's shape. -/
theorem nestedShaped_upTo (depth : Nat) : NestedShaped (.upTo depth) := by
  induction depth with
  | zero => exact ⟨fun _ => .fail, fun _ => .fail, .fail, .fail⟩
  | succ depth ih =>
    exact ⟨gives_component ih, gives_brackets ih, gives_value ih true, gives_simpleSelector ih true⟩

/-! ## Rules -/

theorem gives_property : Gives property (Shaped ["Property"]) :=
  gives_here.step fun _ => (gives_takeWhile _).step fun _ => (gives_readName true).step fun _ =>
    gives_skipGaps.step fun _ => .pure (.leaf (by decide))

theorem gives_declaration (hinner : NestedShaped inner) :
    Gives (declaration inner) (Shaped ["Declaration"]) := by
  refine gives_here.step fun info => gives_property.bind fun name hname => (gives_expect _).step
    fun _ => gives_get.step fun s => .choose (p := Shaped ["Value"]) (fun _ => gives_filterValue)
      (fun _ => gives_value hinner false) fun node hnode => .pure ?_
  exact ⟨.head _, sound_iff.2 ⟨⟨List.mem_singleton.1 hname.type, List.mem_singleton.1 hnode.type⟩,
    by simpa [children] using ⟨hname.sound, hnode.sound⟩⟩⟩

theorem gives_declarations (hinner : NestedShaped inner) :
    Gives (declarations inner) fun nodes => ∀ node ∈ nodes, Shaped ["Declaration"] node := by
  refine gives_many fun token _ => ?_
  unfold declarationPart
  split
  · exact gives_stop
  · exact gives_skip
  · exact gives_skip
  · exact gives_skip
  · exact gives_add (gives_declaration hinner)

theorem gives_block (hinner : NestedShaped inner) : Gives (block inner) (Shaped ["Block"]) :=
  gives_here.step fun _ => (gives_declarations hinner).bind fun _ hnodes =>
    .pure (.sequence (.head _) (Shaped.allOf hnodes) hnodes)

theorem gives_bracedBlock (hinner : NestedShaped inner) :
    Gives (bracedBlock inner) (Shaped ["Block"]) :=
  gives_here.step fun _ => (gives_expect _).step fun _ => (gives_declarations hinner).bind
    fun _ hnodes => (gives_expect _).step fun _ =>
      .pure (.sequence (.head _) (Shaped.allOf hnodes) hnodes)

theorem gives_ruleset (hinner : NestedShaped inner) : Gives (ruleset inner) (Shaped ["Ruleset"]) :=
  gives_here.step fun _ => (gives_selector hinner).bind fun head hhead =>
    (gives_bracedBlock hinner).bind
      fun body hbody => .pure ⟨.head _, sound_iff.2
        ⟨⟨List.mem_singleton.1 hhead.type, List.mem_singleton.1 hbody.type⟩,
          by simpa [children] using ⟨hhead.sound, hbody.sound⟩⟩⟩

/-- What an at-rule expression goes on with: only after a part may a space come next. -/
def ExpressionGoesOn (started : Bool) (nodes : List Tree) : Prop :=
  (∀ node ∈ nodes, Shaped partTypes node) ∧ (started = false → OpensWithPart nodes)

theorem ExpressionGoesOn.part {names : List String} {node : Tree} {later : List Tree}
    (hnode : Shaped names node) (hnames : names ⊆ componentTypes) (h : ExpressionGoesOn true later)
    (started : Bool) : ExpressionGoesOn started (node :: later) := by
  have hnode := hnode.mono hnames
  refine ⟨List.forall_mem_cons.2 ⟨hnode.mono (List.subset_cons_self _ _), h.1⟩, ?_⟩
  rintro - _ ⟨⟩ htype
  exact absurd (htype ▸ hnode.type) (by decide)

theorem gives_expressionPart (hinner : NestedShaped inner) (started : Bool) (token : Token) :
    Gives (expressionPart inner started token) (Round.Keeps ExpressionGoesOn started) := by
  have hpart : ∀ {read : Parser Tree} {names : List String}, Gives read (Shaped names) →
      names ⊆ componentTypes → Gives (do return .next [← read] true)
        (Round.Keeps ExpressionGoesOn started) := fun hread hnames =>
    hread.bind fun node hnode => .pure fun later hlater => hlater.part hnode hnames started
  unfold expressionPart
  split
  · exact .pure trivial
  · exact .pure trivial
  · refine .ite (fun hstarted => gives_space.bind fun node hnode => .pure fun later hlater => ?_)
      fun _ => gives_advance.step fun _ => .pure fun _ hlater => hlater
    exact ⟨List.forall_mem_cons.2 ⟨hnode, hlater.1⟩,
      fun hnot => absurd (hstarted.symm.trans hnot) nofun⟩
  · exact gives_advance.step fun _ => .pure fun _ hlater => hlater
  · exact hpart gives_operator (by decide)
  · exact hpart (gives_pseudo hinner) (by decide)
  · exact hpart (gives_brackets hinner _) (by decide)
  · exact hpart (gives_component hinner _) (List.Subset.refl _)

theorem gives_atruleExpression (hinner : NestedShaped inner) :
    Gives (atruleExpression inner) (Shaped ["AtruleExpression"]) := by
  refine gives_here.step fun info => (gives_loop ExpressionGoesOn (fun _ => ⟨nofun, fun _ => nofun⟩)
    fun started token _ => gives_expressionPart hinner started token).bind fun result hgoes =>
      .pure ?_
  have hnodes : ∀ node ∈ dropTrailingSpaces result.1, Shaped partTypes node :=
    fun node hmem => hgoes.1 node ((prefix_dropTrailingSpaces _).mem hmem)
  exact .sequence (.head _) ⟨Shaped.allOf hnodes, trimmed_dropTrailingSpaces (hgoes.2 rfl)⟩ hnodes

/-- The rules in the body of an at-rule are read as a style sheet, and a brace closes it only if
there are rules. -/
structure SheetShaped (sheet : Parser Tree) : Prop where
  shaped : Gives sheet (Shaped ["StyleSheet"])
  filled : ∀ {s s' : ParserState} {tree : Tree}, sheet s = .ok tree s' →
    holdsDeclarations s.rest = false → s'.rest.head?.map Token.kind = some .rightBrace →
    tree.children ≠ []

/-- The body of an at-rule. -/
def IsBody (tree : Tree) : Prop :=
  tree.Sound ∧ (tree.typeName = "Block" ∨ tree.typeName = "StyleSheet" ∧ tree.children ≠ [])

theorem gives_atruleBody (hinner : NestedShaped inner) {sheet : Parser Tree}
    (hsheet : SheetShaped sheet) :
    Gives (atruleBody inner sheet) fun body => ∀ node ∈ body, IsBody node := by
  refine gives_kind?.step fun kind => ?_
  split
  · exact .pure (by simp)
  · exact gives_advance.step fun _ => .pure (by simp)
  · refine gives_advance.step fun _ s body s' hs h => ?_
    rw [get_bind_run] at h
    split at h
    · have hblock : Gives (do let node ← block inner; expect .rightBrace; return some node)
          fun body => ∀ node ∈ body, IsBody node :=
        (gives_block hinner).bind fun node hnode => (gives_expect _).step fun _ => .pure (by
          rintro _ ⟨⟩
          exact ⟨hnode.sound, .inl (List.mem_singleton.1 hnode.type)⟩)
      exact hblock s body s' hs h
    next hdeclarations =>
      obtain ⟨node, s₁, hread, h⟩ := bind_eq_ok.1 h
      obtain ⟨hs₁, hnode⟩ := hsheet.shaped _ _ _ hs hread
      obtain ⟨_, s₂, hclose, h⟩ := bind_eq_ok.1 h
      obtain ⟨rfl, rfl⟩ := EStateM.Result.ok.inj h
      refine ⟨(gives_expect _ _ _ _ hs₁ hclose).1, ?_⟩
      obtain ⟨brace, rest, hrest, hk, -⟩ := expect_eq_ok.1 hclose
      rintro _ ⟨⟩
      refine ⟨hnode.sound, .inr ⟨List.mem_singleton.1 hnode.type, hsheet.filled hread ?_ ?_⟩⟩
      · simpa using hdeclarations
      · rw [hrest, List.head?_cons, Option.map_some, hk]
  · exact .fail

theorem gives_atrule (hinner : NestedShaped inner) {sheet : Parser Tree}
    (hsheet : SheetShaped sheet) :
    Gives (atrule inner sheet) (Shaped ["Atrule"]) := by
  refine (gives_expect _).step fun _ => gives_here.step fun info => (gives_readName false).step
    fun name => (gives_atruleExpression hinner).bind fun expression hexpression =>
      (gives_atruleBody hinner hsheet).bind fun body hbody => .pure ⟨.head _, sound_iff.2
        ⟨⟨⟨expression, rfl, List.mem_singleton.1 hexpression.type⟩,
          fun node hnode => (hbody node hnode).2⟩,
          ?_⟩⟩
  rintro node (_ | ⟨_, hmem⟩)
  · exact hexpression.sound
  · exact (hbody node (Option.mem_toList.1 hmem)).1

/-- The rules of a style sheet, and the comments that are kept at the top. -/
theorem gives_rulePart (hinner : NestedShaped inner) {sheet : Parser Tree}
    (hsheet : SheetShaped sheet) (nested : Bool) (token : Token) :
    Gives (rulePart inner sheet nested token)
      (Round.All (Shaped (if nested then ruleTypes else "Comment" :: ruleTypes))) := by
  have hrule : ∀ {read : Parser Tree} {names : List String}, Gives read (Shaped names) →
      names ⊆ ruleTypes → Gives (add read)
        (Round.All (Shaped (if nested then ruleTypes else "Comment" :: ruleTypes))) := by
    refine fun hread hnames => gives_add (hread.mono fun _ hnode => hnode.mono ?_)
    cases nested
    · exact List.subset_cons_of_subset _ hnames
    · exact hnames
  unfold rulePart
  split
  · exact gives_skip
  · refine .ite (fun _ => gives_skip) fun hkept => ?_
    obtain rfl : nested = false := by cases nested <;> simp_all
    exact gives_add (gives_here.step fun _ => gives_advance.step fun _ => .pure (.leaf (by decide)))
  · exact hrule (gives_tokenLeaf (List.mem_singleton.2 rfl) : Gives _ (Shaped ["Unknown"]))
      (by decide)
  · exact hrule (gives_atrule hinner hsheet) (by decide)
  · exact .ite (fun _ => gives_stop) fun _ => .fail
  · exact hrule (gives_ruleset hinner) (by decide)

/-- A round over the rules of a nested style sheet that adds nothing steps over a gap. -/
theorem rulePart_nested {sheet : Parser Tree} {token : Token} {s s' : ParserState} {result : Item}
    (h : rulePart inner sheet true token s = .ok result s') : result = .stop ∧ s' = s ∨
      (∃ node, result = .next [node] ()) ∨
      result = .next [] () ∧ isGap token = true ∧ s' = { s with rest := s.rest.tail } := by
  have hadd : ∀ {read : Parser Tree}, add read s = .ok result s' →
      ∃ node, result = .next [node] () := by
    intro read h
    obtain ⟨node, s₁, -, h⟩ := bind_eq_ok.1 h
    exact ⟨node, (EStateM.Result.ok.inj h).1.symm⟩
  rw [rulePart] at h
  cases hk : token.kind with
  | whitespace | comment =>
    rw [hk] at h
    obtain ⟨rfl, rfl⟩ := EStateM.Result.ok.inj h
    exact .inr (.inr ⟨rfl, by simp [isGap, hk], rfl⟩)
  | rightBrace =>
    rw [hk] at h
    obtain ⟨rfl, rfl⟩ := EStateM.Result.ok.inj h
    exact .inl ⟨rfl, rfl⟩
  | _ =>
    rw [hk] at h
    exact .inr (.inl (hadd h))

/-- Where no rules are read the look-ahead finds the same as before. -/
theorem holdsDeclarations_of_no_rules {sheet : Parser Tree} {st last : Unit} {nodes : List Tree}
    {s s' : ParserState} (h : Rounds (fun _ => rulePart inner sheet true) st s nodes last s')
    (hnodes : nodes = []) : holdsDeclarations s.rest = holdsDeclarations s'.rest := by
  induction h with
  | done => rfl
  | stop _ hround =>
    rcases rulePart_nested hround with ⟨-, rfl⟩ | ⟨node, hnext⟩ | ⟨hnext, -⟩
    · rfl
    · exact nomatch hnext
    · exact nomatch hnext
  | next hrest hround _ ih =>
    obtain ⟨rfl, hlater⟩ := List.append_eq_nil_iff.1 hnodes
    rw [← ih hlater]
    rcases rulePart_nested hround with ⟨hstop, -⟩ | ⟨node, hnext⟩ | ⟨-, hgap, rfl⟩
    · exact nomatch hstop
    · exact nomatch hnext
    · rw [isGap, Bool.or_eq_true, decide_eq_true_eq, decide_eq_true_eq] at hgap
      rw [hrest]
      rcases hgap with hk | hk <;> simp only [holdsDeclarations, hk, List.tail_cons]

theorem gives_styleSheet (hinner : NestedShaped inner) {sheet : Parser Tree}
    (hsheet : SheetShaped sheet) :
    Gives (styleSheet inner sheet true) (Shaped ["StyleSheet"]) :=
  gives_here.step fun _ => (gives_many fun token _ => gives_rulePart hinner hsheet true token).bind
    fun _ hnodes => .pure (.sequence (.head _) (Shaped.allOf hnodes) hnodes)

/-- The rules in the bodies of at-rules, however deep. -/
theorem sheetShaped_nestedSheet (hinner : NestedShaped inner) (depth : Nat) :
    SheetShaped (nestedSheet inner depth) := by
  induction depth with
  | zero => exact ⟨.fail, fun h => (fail_ne_ok.1 h).elim⟩
  | succ depth ih =>
    refine ⟨gives_styleSheet hinner ih, fun h hdeclarations hbrace hempty => ?_⟩
    rw [nestedSheet, styleSheet, here_bind_run] at h
    obtain ⟨nodes, s₁, hmany, h⟩ := bind_eq_ok.1 h
    obtain ⟨rfl, rfl⟩ := EStateM.Result.ok.inj h
    rw [holdsDeclarations_of_no_rules (rounds_of_many hmany) hempty] at hdeclarations
    obtain ⟨brace, hmem, hk⟩ := Option.map_eq_some_iff.1 hbrace
    obtain ⟨rest, hrest⟩ := List.head?_eq_some_iff.1 hmem
    simp [hrest, holdsDeclarations, hk] at hdeclarations

/-! ## Contexts -/

theorem Shaped.wellShaped {names : List String} {tree : Tree} (h : Shaped names tree)
    (hnames : "Space" ∉ names) : tree.WellShaped := by
  obtain ⟨hfits, hchildren⟩ := sound_iff.1 h.sound
  exact .of_root hfits.top hchildren fun htype => hnames (htype ▸ h.type)

/-- In every context the tree has the shape of the grammar. -/
theorem gives_production (context : Context) (size : Nat) :
    Gives (context.production size) Node.WellShaped := by
  have hinner := nestedShaped_upTo (size + 1)
  have hsheet := sheetShaped_nestedSheet hinner (size + 1)
  have hroot : ∀ {read : Parser Tree} {names : List String}, Gives read (Shaped names) →
      "Space" ∉ names → Gives read Node.WellShaped :=
    fun hread hname => hread.mono fun _ h => h.wellShaped hname
  cases context with
  | stylesheet =>
    refine gives_here.step fun _ =>
      (gives_many fun token _ => gives_rulePart hinner hsheet false token).bind
        fun nodes hnodes => .pure (.of_root (Shaped.allOf hnodes)
          (fun node hmem => (hnodes node hmem).sound) (by simp [typeName, SequenceKind.typeName]))
  | atrule => exact hroot (gives_atrule hinner hsheet) (by decide)
  | atruleExpression => exact hroot (gives_atruleExpression hinner) (by decide)
  | ruleset => exact hroot (gives_ruleset hinner) (by decide)
  | selector => exact hroot (gives_selector hinner) (by decide)
  | simpleSelector => exact hroot (gives_simpleSelector hinner false) (by decide)
  | block => exact hroot (gives_block hinner) (by decide)
  | declaration => exact hroot (gives_declaration hinner) (by decide)
  | property => exact hroot gives_property (by decide)
  | value => exact hroot (gives_value hinner false) (by decide)

end Grammar
end StyleTree
