import StyleTree.Proofs.Grammar.MotionComponent

/-! Selectors, declarations and rules follow their tokens, and so do the readers of what is nested
and the productions of all contexts (`moves_production`). -/

namespace StyleTree

open StyleTree.Parser StyleTree.Grammar

namespace Motion

variable {M : Motion}

@[simp] theorem tree_pair (info : Option Nat) (kind : PairKind) (first second : Tree) :
    M.tree (.pair info kind first second) = .pair (M.info info) kind (M.tree first)
      (M.tree second) := rfl

theorem isFilter_tree (node : Tree) : isFilter (M.tree node) = isFilter node := by
  cases node with
  | leaf info kind text => cases kind <;> rfl
  | _ => rfl

theorem isDescendant_tree (node : Tree) : isDescendant (M.tree node) = isDescendant node := by
  cases node with
  | leaf info kind text => cases kind <;> rfl
  | _ => rfl

theorem children_tree (node : Tree) : (M.tree node).children = node.children.map M.tree := by
  cases node with
  | sequence info kind nodes => exact Node.mapInfoAll_eq_map _ nodes
  | atrule info name expression block => cases expression <;> cases block <;> rfl
  | attributeSelector info name operator value flags => cases value <;> rfl
  | _ => rfl

/-- What has been read of a simple selector in the second run. -/
def selectorState (M : Motion) (state : SelectorState) : SelectorState :=
  { state with pending := state.pending.map M.tree }

theorem isOpen_selectorState (state : SelectorState) :
    (M.selectorState state).isOpen = state.isOpen := by
  rcases state with ⟨⟨⟩ | node, started⟩
  · rfl
  · simp [SelectorState.isOpen, selectorState, isDescendant_tree]

end Motion

namespace Grammar

variable {M : Motion} {P : List Token → Prop} {inner : Nested} {token : Token}

/-! ## Attributes -/

theorem moves_attributeOperator : MovesIf M P attributeOperator attributeOperator id := by
  refine .kind? fun _ => ?_
  split
  case h_1 => exact moves_take
  case h_7 => exact .fail
  all_goals exact moves_take.step fun _ => (moves_expect _).step fun _ => .pure rfl

theorem moves_attributeTest : MovesIf M P attributeTest attributeTest (Prod.map id M.tree) := by
  have hend : ∀ (sign : String) (node : Tree), MovesIf M (fun _ => True)
      (do skipGaps; return (sign, node))
      (do skipGaps; return (sign, M.tree node)) (Prod.map id M.tree) :=
    fun _ _ => moves_skipGaps.step fun _ => .pure rfl
  exact moves_attributeOperator.step fun sign => moves_skipGaps.step fun _ => .isAt fun _ => .choose
    (fun _ => moves_tokenLeaf .string) (fun _ => moves_identifier false) (hend sign)

theorem moves_attributeFlags : MovesIf M P attributeFlags attributeFlags id :=
  .isAt fun _ =>
    .ite (fun _ => moves_take.step fun _ => moves_skipGaps.step fun _ => .pure rfl) fun _ =>
      .pure rfl

theorem moves_attributeSelector : MovesTree M P attributeSelector attributeSelector := by
  refine .here fun info => (moves_expect _).step fun _ => moves_skipGaps.step fun _ =>
    (moves_qualifiedName true).bind fun name => moves_skipGaps.step fun _ => .kind? fun _ => ?_
  have hend : ∀ test : Option (String × Tree), MovesTree M (fun _ => True)
      (do
        let flags ← attributeFlags
        expect .rightBracket
        return .attributeSelector info name (test.map Prod.fst) (test.map Prod.snd) flags)
      (do
        let flags ← attributeFlags
        expect .rightBracket
        return .attributeSelector (M.info info) (M.tree name)
          ((test.map (Prod.map id M.tree)).map Prod.fst)
          ((test.map (Prod.map id M.tree)).map Prod.snd) flags) := fun test =>
    moves_attributeFlags.step fun _ => (moves_expect _).step fun _ => .pure (by cases test <;> rfl)
  split
  next => exact .value (hend none).always
  next => exact .value (hend none).always
  next => exact .value (hend none).always
  next => exact moves_attributeTest.bind fun test => .value (hend (some test))

/-! ## Pseudo-classes and pseudo-elements -/

theorem moves_nth : MovesTree M P nth nth := by
  refine .here fun _ => .current? fun token? => ?_
  cases token? with
  | none => exact .fail
  | some token =>
    refine .ite (fun _ => .lookup? fun next? => ?_) fun _ =>
      .ite (fun _ => .ite (fun _ => ?_) fun _ => .fail) fun _ => .fail
    · have hnext : (next?.map M.token).any (fun next => next.kind = .ident && next.spells "n") =
          next?.any fun next => next.kind = .ident && next.spells "n" := by
        cases next? <;> rfl
      rw [hnext]
      exact (moves_takeMany _).step fun _ => .pure rfl
    · exact moves_take.step fun _ => .pure rfl

theorem itemMoves_nthPart : ItemMoves M token (nthPart token) (nthPart (M.token token)) := by
  show ItemMoves M token _ (nthPart token)
  unfold nthPart
  split
  next => exact itemMoves_stop
  next => exact itemMoves_skip
  next => exact itemMoves_skip
  next => exact itemMoves_operator
  next => exact itemMoves_operator
  next => exact itemMoves_add moves_nth

theorem moves_nthSelector : MovesTree M P nthSelector nthSelector :=
  .here fun _ => (moves_expect _).step fun _ => (moves_readName false).step fun _ =>
    (moves_expect _).step fun _ => (moves_many fun _ => itemMoves_nthPart).bind fun _ =>
      (moves_expect _).step fun _ => .pure (by simp)

theorem moves_pseudoElement : MovesTree M P pseudoElement pseudoElement :=
  .here fun _ => (moves_expect _).step fun _ => (moves_expect _).step fun _ =>
    (moves_readName false).step fun _ => .pure rfl

theorem moves_pseudoClass (hinner : NestedMoves M inner) :
    MovesTree M P (pseudoClass inner) (pseudoClass inner) :=
  .here fun _ => (moves_expect _).step fun _ => .here fun _ => (moves_readName false).step fun _ =>
    .isAt fun _ => .ite (fun _ => moves_function hinner) fun _ => .pure rfl

theorem moves_pseudo (hinner : NestedMoves M inner) :
    MovesTree M P (pseudo inner) (pseudo inner) := by
  refine .lookup? fun next? => ?_
  cases next? with
  | none => exact moves_advance.step fun _ => .fail
  | some next =>
    exact .ite (fun _ => moves_pseudoElement) fun _ => .ite (fun _ => moves_nthSelector)
      fun _ => moves_pseudoClass hinner

/-! ## Selectors -/

theorem moves_combinator : MovesTree M P (combinator token) (combinator (M.token token)) := by
  show MovesTree M P _ (combinator token)
  refine .here fun _ => moves_advance.step fun _ => ?_
  split
  next => exact .pure rfl
  next => exact (moves_expectWord _).step fun _ => moves_advance.step fun _ =>
    (moves_expect _).step fun _ => .pure rfl
  next => exact .pure rfl

theorem moves_percentageOrName : MovesTree M P percentageOrName percentageOrName := by
  refine .get fun s _ => ?_
  dsimp only
  rw [show numberLength? (M.state s).rest = _ from numberLength?_map s.rest]
  split
  next count hcount =>
    rw [Motion.getElem?_state, Motion.map_kind]
    exact .ite (fun _ => .here fun _ => (moves_takeMany count).step fun _ =>
      moves_advance.step fun _ => .pure rfl) fun _ => moves_qualifiedName false
  next => exact moves_qualifiedName false

/-- A round that adds a part after the combinator that waits for it. -/
theorem roundMoves_selected {read : Parser Tree} {state : SelectorState}
    (h : MovesIf M (fun tokens => tokens.head? = some token) read read M.tree) :
    MovesIf M (fun tokens => tokens.head? = some token)
      (do return .next (state.pending.toList ++ [← read]) { started := true } :
        Parser (Round SelectorState Tree))
      (do return .next ((M.selectorState state).pending.toList ++ [← read]) { started := true })
      (Round.moved M.tree M.selectorState) := by
  refine h.bind fun node => .pure ?_
  rcases state with ⟨⟨⟩ | pending, started⟩ <;> rfl

/-- A round that keeps a combinator for the part after it. -/
theorem roundMoves_combinator {state : SelectorState} :
    MovesIf M (fun tokens => tokens.head? = some token)
      (do return .next [] { state with pending := some (← combinator token) } :
        Parser (Round SelectorState Tree))
      (do
        return .next []
          { M.selectorState state with pending := some (← combinator (M.token token)) })
      (Round.moved M.tree M.selectorState) :=
  moves_combinator.bind fun _ => .pure rfl

theorem roundMoves_selectorPart (hinner : NestedMoves M inner) (nested : Bool) :
    RoundMoves M M.tree M.selectorState (selectorPart inner nested) := by
  intro state token
  have hnone : (M.selectorState state).pending.isNone = state.pending.isNone := by
    rcases state with ⟨⟨⟩ | pending, started⟩ <;> rfl
  rw [selectorPart, selectorPart, hnone, Motion.isOpen_selectorState,
    show (M.token token).kind = token.kind from rfl]
  split
  next => exact .pure rfl
  next => exact .ite (fun _ => .fail) fun _ => .pure rfl
  next => exact .ite (fun _ => .pure rfl) fun _ => .fail
  next => exact moves_advance.step fun _ => .pure rfl
  next => exact .ite (fun _ => roundMoves_combinator) fun _ => moves_advance.step fun _ => .pure rfl
  next => exact .ite (fun _ => .fail) fun _ => roundMoves_combinator
  next => exact .ite (fun _ => .fail) fun _ => roundMoves_combinator
  next => exact .ite (fun _ => .fail) fun _ => roundMoves_combinator
  next => exact .ite (fun _ => .fail) fun _ => roundMoves_combinator
  next =>
    exact roundMoves_selected (.here fun _ => (moves_expect _).step fun _ =>
      (moves_readName false).step fun _ => .pure rfl)
  next => exact roundMoves_selected moves_attributeSelector
  next =>
    exact roundMoves_selected (.here fun _ => (moves_expect _).step fun _ =>
      (moves_readName false).step fun _ => .pure rfl)
  next => exact roundMoves_selected (moves_pseudo hinner)
  next => exact roundMoves_selected (moves_qualifiedName false)
  next => exact roundMoves_selected (moves_qualifiedName false)
  next => exact roundMoves_selected (moves_qualifiedName false)
  next => exact roundMoves_selected (moves_qualifiedName false)
  next => exact roundMoves_selected moves_percentageOrName
  next => exact roundMoves_selected moves_percentageOrName
  next => exact .fail

theorem moves_simpleSelector (hinner : NestedMoves M inner) (nested : Bool) :
    MovesTree M P (simpleSelector inner nested) (simpleSelector inner nested) := by
  refine .here fun _ =>
    (moves_loop M.selectorState (roundMoves_selectorPart hinner nested)).bind fun result => ?_
  have hopen : (Prod.map (List.map M.tree) M.selectorState result).2.isOpen = result.2.isOpen :=
    Motion.isOpen_selectorState _
  dsimp only
  rw [hopen]
  exact .ite (fun _ => .fail) fun _ => .pure (by simp)

theorem moves_noteDiscarded : MovesIf M P noteDiscarded noteDiscarded id := by
  refine .of_suffix (fun s => ?_) fun s => ⟨_, _, rfl, List.suffix_refl _⟩
  rw [noteDiscarded, here_bind_run, here_bind_run, run_modify, run_modify, Motion.here_state]
  simp [Motion.result, Motion.state]

theorem moves_selector (hinner : NestedMoves M inner) :
    MovesTree M P (selector inner) (selector inner) := by
  refine .here fun info =>
    (moves_separated (fun _ => rfl) (moves_simpleSelector hinner false) (.pure rfl)).bind
      fun result => ?_
  have hany : (result.1.map M.tree).any (fun entry => entry.children.isEmpty) =
      result.1.any fun entry => entry.children.isEmpty := by
    rw [List.any_map]
    congr 1
    funext entry
    rw [Function.comp_apply, Motion.children_tree, List.isEmpty_map]
  show MovesTree M _ _ (if result.2 || (result.1.map M.tree).any _ then _ else _)
  rw [hany]
  exact .ite (fun _ => moves_noteDiscarded.step fun _ => .pure rfl) fun _ => .pure (by simp)

/-- The readers of what stands inside brackets follow their tokens. -/
theorem nestedMoves_upTo (depth : Nat) : NestedMoves M (.upTo depth) := by
  induction depth with
  | zero => exact ⟨fun _ => .fail, fun _ => .fail, .fail, .fail⟩
  | succ depth ih =>
    exact ⟨fun _ => moves_component ih, fun _ => moves_brackets ih, moves_value ih true,
      moves_simpleSelector ih true⟩

/-! ## Declarations -/

theorem moves_property : MovesTree M P property property :=
  .here fun _ => (moves_takeWhile fun _ => rfl).step fun _ => (moves_readName true).step fun _ =>
    moves_skipGaps.step fun _ => .pure rfl

theorem moves_declaration (hinner : NestedMoves M inner) :
    MovesTree M P (declaration inner) (declaration inner) := by
  refine .here fun info => moves_property.bind fun name => (moves_expect _).step fun _ =>
    .get fun s _ => ?_
  rw [show nextProgid? (M.state s).rest = _ from nextProgid?_map s.rest, Motion.isFilter_tree]
  exact .choose (fun _ => moves_filterValue) (fun _ => moves_value hinner false) fun _ => .pure rfl

theorem itemMoves_declarationPart (hinner : NestedMoves M inner) :
    ItemMoves M token (declarationPart inner token) (declarationPart inner (M.token token)) := by
  show ItemMoves M token _ (declarationPart inner token)
  unfold declarationPart
  split
  next => exact itemMoves_stop
  next => exact itemMoves_skip
  next => exact itemMoves_skip
  next => exact itemMoves_skip
  next => exact itemMoves_add (moves_declaration hinner)

theorem moves_declarations (hinner : NestedMoves M inner) :
    MovesIf M P (declarations inner) (declarations inner) (List.map M.tree) :=
  moves_many fun _ => itemMoves_declarationPart hinner

theorem moves_block (hinner : NestedMoves M inner) : MovesTree M P (block inner) (block inner) :=
  .here fun _ => (moves_declarations hinner).bind fun _ => .pure (by simp)

theorem moves_bracedBlock (hinner : NestedMoves M inner) :
    MovesTree M P (bracedBlock inner) (bracedBlock inner) :=
  .here fun _ => (moves_expect _).step fun _ => (moves_declarations hinner).bind fun _ =>
    (moves_expect _).step fun _ => .pure (by simp)

/-! ## Rules -/

theorem moves_ruleset (hinner : NestedMoves M inner) :
    MovesTree M P (ruleset inner) (ruleset inner) :=
  .here fun _ => (moves_selector hinner).bind fun _ =>
    (moves_bracedBlock hinner).bind fun _ => .pure rfl

theorem roundMoves_expressionPart (hinner : NestedMoves M inner) :
    RoundMoves M M.tree id (expressionPart inner) := by
  intro started token
  show MovesIf M _ _ (expressionPart inner started token) _
  unfold expressionPart
  split
  next => exact .pure rfl
  next => exact .pure rfl
  next =>
    exact .ite (fun _ => roundMoves_part moves_space) fun _ => moves_advance.step fun _ => .pure rfl
  next => exact moves_advance.step fun _ => .pure rfl
  next => exact roundMoves_part (moves_tokenLeaf _)
  next => exact roundMoves_part (moves_pseudo hinner)
  next => exact roundMoves_part (moves_brackets hinner)
  next => exact roundMoves_part (moves_component hinner)

theorem moves_atruleExpression (hinner : NestedMoves M inner) :
    MovesTree M P (atruleExpression inner) (atruleExpression inner) :=
  .here fun _ => (moves_loop id (roundMoves_expressionPart hinner)).bind fun _ => .pure (by simp)

theorem moves_atruleBody (hinner : NestedMoves M inner) {sheet : Parser Tree}
    (hsheet : MovesTree M (fun _ => True) sheet sheet) :
    MovesIf M P (atruleBody inner sheet) (atruleBody inner sheet) (Option.map M.tree) := by
  refine .kind? fun _ => ?_
  split
  next => exact .pure rfl
  next => exact moves_advance.step fun _ => .pure rfl
  next =>
    refine moves_advance.step fun _ => .get fun s _ => ?_
    rw [show holdsDeclarations (M.state s).rest = _ from holdsDeclarations_map s.rest]
    exact .choose (fun _ => moves_block hinner) (fun _ => hsheet.always) fun _ =>
      (moves_expect _).step fun _ => .pure rfl
  next => exact .fail

theorem moves_atrule (hinner : NestedMoves M inner) {sheet : Parser Tree}
    (hsheet : MovesTree M (fun _ => True) sheet sheet) :
    MovesTree M P (atrule inner sheet) (atrule inner sheet) :=
  (moves_expect _).step fun _ => .here fun _ => (moves_readName false).step fun _ =>
    (moves_atruleExpression hinner).bind fun _ => (moves_atruleBody hinner hsheet).bind fun body =>
      .pure (by cases body <;> rfl)

theorem itemMoves_rulePart (hinner : NestedMoves M inner) {sheet : Parser Tree}
    (hsheet : MovesTree M (fun _ => True) sheet sheet) (nested : Bool) :
    ItemMoves M token (rulePart inner sheet nested token)
      (rulePart inner sheet nested (M.token token)) := by
  show ItemMoves M token _ (rulePart inner sheet nested token)
  unfold rulePart
  split
  next => exact itemMoves_skip
  next =>
    exact .ite (fun _ => itemMoves_skip) fun _ =>
      itemMoves_add (.here fun _ => moves_advance.step fun _ => .pure rfl)
  next => exact itemMoves_add (moves_tokenLeaf _)
  next => exact itemMoves_add (moves_atrule hinner hsheet)
  next => exact .ite (fun _ => itemMoves_stop) fun _ => .fail
  next => exact itemMoves_add (moves_ruleset hinner)

theorem moves_styleSheet (hinner : NestedMoves M inner) {sheet : Parser Tree}
    (hsheet : MovesTree M (fun _ => True) sheet sheet) (nested : Bool) :
    MovesTree M P (styleSheet inner sheet nested) (styleSheet inner sheet nested) :=
  .here fun _ => (moves_many fun _ => itemMoves_rulePart hinner hsheet nested).bind fun _ =>
    .pure (by simp)

theorem moves_nestedSheet (hinner : NestedMoves M inner) (depth : Nat) :
    MovesTree M P (nestedSheet inner depth) (nestedSheet inner depth) := by
  induction depth generalizing P with
  | zero => exact .fail
  | succ depth ih => exact moves_styleSheet hinner ih true

/-- In every context, the production follows its tokens. -/
theorem moves_production (context : Context) (size : Nat) :
    MovesTree M P (context.production size) (context.production size) := by
  have hinner : NestedMoves M (.upTo (size + 1)) := nestedMoves_upTo _
  have hsheet := moves_nestedSheet (P := fun _ => True) hinner (size + 1)
  cases context with
  | stylesheet => exact moves_styleSheet hinner hsheet false
  | atrule => exact moves_atrule hinner hsheet
  | atruleExpression => exact moves_atruleExpression hinner
  | ruleset => exact moves_ruleset hinner
  | selector => exact moves_selector hinner
  | simpleSelector => exact moves_simpleSelector hinner false
  | block => exact moves_block hinner
  | declaration => exact moves_declaration hinner
  | property => exact moves_property
  | value => exact moves_value hinner false

end Grammar
end StyleTree
