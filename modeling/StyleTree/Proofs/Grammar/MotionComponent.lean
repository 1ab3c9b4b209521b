import StyleTree.Proofs.Grammar.Motion

/-! Components follow their tokens: names, numbers, functions and values, if the readers one bracket
deeper do (`NestedMoves`). Whatever looks ahead sees the kinds and texts of tokens only. The one
place where what is left is no end of the tokens is a unit that is cut before an escape, right after
its number (`movesIf_measured`). -/

namespace StyleTree

open StyleTree.Parser StyleTree.Grammar

namespace Motion

variable {M : Motion}

@[simp] theorem tree_leaf (info : Option Nat) (kind : LeafKind) (text : String) :
    M.tree (.leaf info kind text) = .leaf (M.info info) kind text := rfl

@[simp] theorem tree_sequence (info : Option Nat) (kind : SequenceKind) (nodes : List Tree) :
    M.tree (.sequence info kind nodes) = .sequence (M.info info) kind (nodes.map M.tree) := by
  rw [tree, Node.mapInfo, Node.mapInfoAll_eq_map]
  rfl

@[simp] theorem tree_argument (nodes : List Tree) :
    M.tree (argument nodes) = argument (nodes.map M.tree) :=
  tree_sequence none .argument nodes

theorem isSpace_tree (node : Tree) : (M.tree node).isSpace = node.isSpace := by
  cases node <;> rfl

@[simp] theorem map_dropTrailingSpaces (nodes : List Tree) :
    (dropTrailingSpaces nodes).map M.tree = dropTrailingSpaces (nodes.map M.tree) := by
  have hspace : (Node.isSpace ∘ M.tree) = Node.isSpace := funext isSpace_tree
  rw [dropTrailingSpaces, dropTrailingSpaces, List.map_reverse, ← List.map_reverse (l := nodes),
    List.dropWhile_map, hspace]

end Motion

namespace Grammar

variable {M : Motion} {P : List Token → Prop} {inner : Nested} {scope : Scope} {info : Option Nat}
    {name : String}

/-- A production does the same on moved tokens and gives the tree at the places where they stand
now. -/
abbrev MovesTree (M : Motion) (P : List Token → Prop) (x y : Parser Tree) : Prop :=
  MovesIf M P x y M.tree

/-! ## What is seen of moved tokens -/

section
variable (tokens : List Token)

theorem countIf_map (kind : TokenKind) :
    countIf kind (tokens.map M.token) = countIf kind tokens := by
  rw [countIf, countIf, List.head?_map, Motion.map_kind]

theorem numberLength?_map : numberLength? (tokens.map M.token) = numberLength? tokens := by
  simp only [numberLength?, ← List.map_drop, countIf_map]

theorem balancedLength_map (depth : Nat) :
    balancedLength depth (tokens.map M.token) = balancedLength depth tokens := by
  fun_induction balancedLength depth tokens <;> simp_all [balancedLength, Motion.token]

theorem gapLength_map : gapLength (tokens.map M.token) = gapLength tokens := by
  rw [gapLength, gapLength, takeWhile_map fun _ => rfl, List.length_map]

theorem startsWith_map (pattern : List (String ⊕ TokenKind)) :
    startsWith pattern (tokens.map M.token) = startsWith pattern tokens := by
  induction pattern generalizing tokens with
  | nil => cases tokens <;> rfl
  | cons part pattern ih =>
    cases tokens with
    | nil => rfl
    | cons token tokens =>
      cases part <;> simp [startsWith, ih, Motion.token, Token.spells]

theorem progidLength?_map : progidLength? (tokens.map M.token) = progidLength? tokens := by
  simp only [progidLength?, ← List.map_drop, startsWith_map, gapLength_map, balancedLength_map,
    List.length_map]

theorem nextProgid?_map : nextProgid? (tokens.map M.token) = nextProgid? tokens := by
  rw [nextProgid?, nextProgid?, gapLength_map, ← List.map_drop, progidLength?_map]

theorem holdsDeclarations_map :
    holdsDeclarations (tokens.map M.token) = holdsDeclarations tokens := by
  fun_induction holdsDeclarations tokens <;> simp_all [holdsDeclarations, Motion.token]

end

/-! ## Names and other small parts -/

theorem moves_readName (custom : Bool) : MovesIf M P (readName custom) (readName custom) id := by
  refine (moves_takeIf _).step fun _ =>
    .choose (fun _ => moves_takeIf _) (fun _ => .pure rfl) fun _ => .kind? fun _ => ?_
  split
  next => exact moves_take.step fun _ => (moves_takeWhile fun _ => rfl).step fun _ => .pure rfl
  next => exact moves_take.step fun _ => (moves_takeWhile fun _ => rfl).step fun _ => .pure rfl
  next => exact .fail

theorem moves_identifier (custom : Bool) : MovesTree M P (identifier custom) (identifier custom) :=
  .here fun _ => (moves_readName custom).step fun _ => .pure rfl

theorem moves_nameEnd (colon : Bool) :
    MovesTree M P (nameEnd info name colon) (nameEnd (M.info info) name colon) :=
  .isAt fun _ =>
    .ite (fun _ => moves_take.step fun _ => (moves_readName false).step fun _ => .pure rfl)
      fun _ => .pure rfl

theorem moves_nameAfterBar (colon : Bool) (base bar : String) :
    MovesTree M P (nameAfterBar info colon base bar)
      (nameAfterBar (M.info info) colon base bar) := by
  refine .kind? fun _ => ?_
  split
  next => exact (moves_readName false).step fun _ => moves_nameEnd colon
  next => exact (moves_readName false).step fun _ => moves_nameEnd colon
  next => exact (moves_readName false).step fun _ => moves_nameEnd colon
  next => exact moves_take.step fun _ => moves_nameEnd false
  next => exact moves_nameEnd colon

theorem moves_nameFrom (colon : Bool) (base : String) :
    MovesTree M P (nameFrom info colon base) (nameFrom (M.info info) colon base) :=
  .isAt fun _ => .lookupKind fun _ =>
    .ite (fun _ => moves_take.step fun _ => moves_nameAfterBar colon base _)
      fun _ => moves_nameEnd colon

theorem moves_qualifiedName (colon : Bool) :
    MovesTree M P (qualifiedName colon) (qualifiedName colon) := by
  refine .current? fun first? => ?_
  cases first? with
  | none => exact .fail
  | some first =>
    have hname : ∀ info base, MovesTree M (fun _ => True)
        (nameFrom info (colon && first.kind ≠ .asterisk) base)
        (nameFrom (M.info info) (colon && first.kind ≠ .asterisk) base) :=
          fun _ base => moves_nameFrom _ base
    refine .here fun info => .lookupKind fun _ => .ite (fun _ => ?_) fun _ =>
      .ite (fun _ => ?_) fun _ => ?_
    · exact moves_take.step (hname info)
    · exact (hname info "").always
    · exact (moves_readName false).step (hname info)

theorem moves_hash : MovesTree M P hash hash := by
  refine .here fun _ => (moves_expect _).step fun _ => .kind? fun _ => ?_
  split
  next => exact moves_take.step fun _ => (moves_takeIf _).step fun _ => .pure rfl
  next => exact moves_take.step fun _ => .pure rfl
  next => exact .fail

theorem moves_tokenLeaf (kind : LeafKind) : MovesTree M P (tokenLeaf kind) (tokenLeaf kind) :=
  .here fun _ => moves_take.step fun _ => .pure rfl

theorem moves_space : MovesTree M P space space :=
  moves_advance.step fun _ => .pure rfl

theorem moves_hexDigits : MovesIf M P hexDigits hexDigits id :=
  (moves_takeWhile fun _ => rfl).step fun _ => .ite (fun _ => .fail) fun _ => .pure rfl

theorem moves_unicodeRange : MovesTree M P unicodeRange unicodeRange := by
  refine .here fun info => (moves_takeMany 2).step fun sign => moves_hexDigits.step fun first =>
    .get fun s _ => ?_
  have hmarks : ((M.state s).rest.take (6 - Text.byteLength first.toList)).takeWhile
        (fun token => token.kind = .questionMark) =
      ((s.rest.take (6 - Text.byteLength first.toList)).takeWhile
        fun token => token.kind = .questionMark).map M.token := by
    rw [Motion.state, ← List.map_take, takeWhile_map fun _ => rfl]
  dsimp only
  rw [hmarks, List.length_map, List.isEmpty_map]
  exact (moves_takeMany _).step fun _ => .isAt fun _ => .ite
    (fun _ => moves_take.step fun _ => moves_hexDigits.step fun _ => .pure rfl) fun _ => .pure rfl

/-! ## Numbers and their units -/

/-- The tokens in front are left over after a number. -/
def AfterNumber (M : Motion) (tokens : List Token) : Prop :=
  ∃ number, M.Left (number ++ tokens) ∧ numberLength? (number ++ tokens) = some number.length

theorem token_after (token : Token) (unit rest : List Char) :
    M.token (token.after unit rest) = (M.token token).after unit rest := by
  rw [Motion.token, Token.after, Token.after, M.move_add]
  rfl

/-- A unit is read whole, or it is cut after a number. -/
theorem movesIf_readUnit {token : Token} (hk : token.kind = .ident) :
    MovesIf M (fun tokens => AfterNumber M tokens ∧ tokens.head? = some token) (readUnit token)
      (readUnit (M.token token)) id where
  runs {s} h _ := by
    obtain ⟨rest, hs⟩ := List.head?_eq_some_iff.1 h.2
    have hs' : (M.state s).rest = M.token token :: rest.map M.token := by rw [Motion.state, hs]; rfl
    rcases readUnit_cases token with hwhole | ⟨unit, escape, htext, hunit, hne⟩
    · rw [readUnit_whole hs hwhole, readUnit_whole hs' hwhole]
      rfl
    · rw [readUnit_cut hs htext hunit hne, readUnit_cut hs' htext hunit hne]
      show EStateM.Result.ok _
        (ParserState.mk ((M.token token).after unit ('\\' :: escape) :: _) _) =
        .ok _ (ParserState.mk (M.token (token.after unit ('\\' :: escape)) :: _) _)
      rw [token_after]
      rfl
  leaves {s a s'} h hleft hrun := by
    obtain ⟨⟨number, hnumber, hlength⟩, hhead⟩ := h
    obtain ⟨rest, hs⟩ := List.head?_eq_some_iff.1 hhead
    rcases readUnit_cases token with hwhole | ⟨unit, escape, htext, hunit, hne⟩
    · obtain ⟨-, rfl⟩ := EStateM.Result.ok.inj ((readUnit_whole hs hwhole).symm.trans hrun)
      exact M.left_of_cons (hs ▸ hleft)
    · obtain ⟨-, rfl⟩ := EStateM.Result.ok.inj ((readUnit_cut hs htext hunit hne).symm.trans hrun)
      rw [hs] at hnumber hlength
      exact M.left_cut hnumber hlength hk htext hne rfl
  fails {s e s'} h _ hrun := by
    obtain ⟨rest, hs⟩ := List.head?_eq_some_iff.1 h.2
    rcases readUnit_cases token with hwhole | ⟨unit, escape, htext, hunit, hne⟩
    · cases (readUnit_whole hs hwhole).symm.trans hrun
    · cases (readUnit_cut hs htext hunit hne).symm.trans hrun

theorem movesIf_measured (number : String) :
    MovesTree M (AfterNumber M) (measured info number) (measured (M.info info) number) := by
  refine .current? fun token? => ?_
  cases token? with
  | none => exact .pure rfl
  | some token =>
    refine .ite (fun _ => moves_advance.step fun _ => .pure rfl) fun _ =>
      .ite (fun hk => ?_) fun _ => .pure rfl
    exact (movesIf_readUnit hk).step fun _ => .pure rfl


theorem afterNumber_drop {tokens : List Token} {count : Nat} (hleft : M.Left tokens)
    (hcount : numberLength? tokens = some count) : AfterNumber M (tokens.drop count) := by
  refine ⟨tokens.take count, ?_, ?_⟩
  · rwa [List.take_append_drop]
  · rw [List.take_append_drop, hcount, List.length_take, Nat.min_eq_left (numberLength?_le hcount)]

theorem moves_readNumber? {f g : Option String → Parser Tree}
    (hnone : MovesTree M P (f none) (g none))
    (hsome : ∀ number, MovesTree M (AfterNumber M) (f (some number)) (g (some number))) :
    MovesTree M P (readNumber? >>= f) (readNumber? >>= g) := by
  rw [readNumber?, bind_assoc, bind_assoc]
  refine .get fun s hs => ?_
  have hlength : numberLength? (M.state s).rest = numberLength? s.rest := numberLength?_map _
  rw [hlength]
  cases hcount : numberLength? s.rest with
  | none => exact .value (hnone.mono fun _ h => h ▸ hs)
  | some count =>
    dsimp only
    rw [bind_assoc, bind_assoc]
    refine (moves_takeMany count).before (fun htokens hleft h => ?_)
      fun number => .value (hsome number)
    cases h
    exact afterNumber_drop hleft (htokens ▸ hcount)

/-! ## Functions -/

/-- What the readers one bracket deeper do. -/
structure NestedMoves (M : Motion) (inner : Nested) : Prop where
  component : ∀ scope, MovesTree M (fun _ => True) (inner.component scope) (inner.component scope)
  brackets : ∀ scope, MovesTree M (fun _ => True) (inner.brackets scope) (inner.brackets scope)
  fallback : MovesTree M (fun _ => True) inner.fallback inner.fallback
  negated : MovesTree M (fun _ => True) inner.negated inner.negated

theorem moves_urlFunction : MovesTree M P (urlFunction info) (urlFunction (M.info info)) := by
  have hend : ∀ link : Tree, MovesTree M (fun _ => True)
      (do skipGaps; expect .rightParen; return .wrapper info .url link)
      (do skipGaps; expect .rightParen; return .wrapper (M.info info) .url (M.tree link)) :=
        fun link =>
    moves_skipGaps.step fun _ => (moves_expect _).step fun _ => .pure rfl
  refine (moves_expect _).step fun _ => moves_skipGaps.step fun _ => .isAt fun _ =>
    .ite (fun _ => ?_) fun _ => ?_
  · exact (moves_tokenLeaf .string).bind hend
  · exact .here fun start => (moves_takeWhile fun _ => rfl).step fun text =>
      .value (hend (.leaf start .raw text))

theorem moves_negation (hinner : NestedMoves M inner) :
    MovesTree M P (negation inner info) (negation inner (M.info info)) := by
  refine (moves_expect _).step fun _ =>
    (moves_separated (fun _ => rfl) (.kind? fun _ => ?_) (.pure rfl)).bind
      fun _ => (moves_expect _).step fun _ => .pure (by simp)
  split
  next => exact .fail
  next => exact .fail
  next => exact hinner.negated.always

theorem moves_scriptFunction :
    MovesTree M P (scriptFunction info name) (scriptFunction (M.info info) name) := by
  refine (moves_expect _).step fun _ => .get fun s _ => ?_
  rw [show balancedLength 0 (M.state s).rest = _ from balancedLength_map s.rest 0]
  exact (moves_takeMany _).step fun _ => (moves_expect _).step fun _ =>
    .pure (by simp [Motion.info])

theorem moves_variableFunction (hinner : NestedMoves M inner) :
    MovesTree M P (variableFunction inner info name)
      (variableFunction inner (M.info info) name) := by
  have hend : ∀ (first : Tree) (later : List Tree), MovesTree M (fun _ => True)
      (do expect .rightParen; return .sequence info (.function name) (argument [first] :: later))
      (do
        expect .rightParen
        return .sequence (M.info info) (.function name)
          (argument [M.tree first] :: later.map M.tree)) :=
    fun _ _ => (moves_expect _).step fun _ => .pure (by simp)
  refine (moves_expect _).step fun _ => moves_skipGaps.step fun _ => (moves_identifier true).bind
    fun first => moves_skipGaps.step fun _ => .isAt fun _ => .ite (fun _ => ?_) fun _ =>
      .value (hend first [])
  exact moves_advance.step fun _ => moves_skipGaps.step fun _ => hinner.fallback.bind fun node =>
    moves_skipGaps.step fun _ => .value (by simpa using hend first [argument [node]])

/-! ## Arguments and brackets -/

variable {token : Token}

theorem itemMoves_space : ItemMoves M token (add space) (add space) :=
  itemMoves_add moves_space

theorem itemMoves_operator : ItemMoves M token (add operator) (add operator) :=
  itemMoves_add (moves_tokenLeaf .operator)

theorem itemMoves_argumentPart (hinner : NestedMoves M inner) :
    ItemMoves M token (argumentPart inner scope token)
      (argumentPart inner scope (M.token token)) := by
  show ItemMoves M token _ (argumentPart inner scope token)
  unfold argumentPart
  split
  next => exact itemMoves_stop
  next => exact itemMoves_stop
  next => exact itemMoves_space
  next => exact itemMoves_skip
  next => exact itemMoves_add moves_hash
  next => exact itemMoves_add (hinner.brackets scope).always
  next => exact itemMoves_add (hinner.brackets scope).always
  next => exact itemMoves_operator
  next => exact itemMoves_operator
  next => exact itemMoves_operator
  next => exact itemMoves_operator
  next => exact itemMoves_add (hinner.component scope).always

theorem moves_argumentOf (hinner : NestedMoves M inner) :
    MovesTree M P (argumentOf inner scope) (argumentOf inner scope) := by
  refine (moves_many fun _ => itemMoves_argumentPart hinner).bind fun parts => ?_
  cases parts with
  | nil => exact .fail
  | cons => exact .pure (by simp)

theorem moves_arguments (hinner : NestedMoves M inner) :
    MovesIf M P (arguments inner scope) (arguments inner scope) (List.map M.tree) := by
  have hend : ∀ nodes : List Tree, MovesIf M (fun _ => True) (do expect .rightParen; return nodes)
      (do expect .rightParen; return nodes.map M.tree) (List.map M.tree) :=
    fun _ => (moves_expect _).step fun _ => .pure rfl
  refine (moves_expect _).step fun _ => moves_skipGaps.step fun _ => .isAt fun _ =>
    .ite (fun _ => .value (hend [])) fun _ => ?_
  exact (moves_separated (fun _ => rfl) (moves_argumentOf hinner) moves_skipGaps).bind fun result =>
    .value (hend result.1)

theorem moves_function (hinner : NestedMoves M inner) :
    MovesTree M P (function inner scope info name) (function inner scope (M.info info) name) := by
  rw [function, function]
  split
  next => exact moves_urlFunction
  next => exact moves_negation hinner
  next => exact moves_scriptFunction
  next => exact moves_variableFunction hinner
  next =>
    refine (moves_arguments hinner).bind fun _ => ?_
    cases scope with
    | selector | atruleExpression | value => exact .pure (by simp)

theorem itemMoves_bracketPart (hinner : NestedMoves M inner) (closing : TokenKind) :
    ItemMoves M token (bracketPart inner scope closing token)
      (bracketPart inner scope closing (M.token token)) := by
  show ItemMoves M token _ (bracketPart inner scope closing token)
  refine .ite (fun _ => itemMoves_stop) fun _ => ?_
  split
  next => exact itemMoves_space
  next => exact itemMoves_skip
  next => exact itemMoves_add moves_hash
  next => exact itemMoves_add (hinner.brackets scope).always
  next => exact itemMoves_add (hinner.brackets scope).always
  next => exact itemMoves_operator
  next => exact itemMoves_operator
  next => exact itemMoves_operator
  next => exact itemMoves_operator
  next => exact itemMoves_add (hinner.component scope).always

/-! ## Components -/

theorem moves_named (hinner : NestedMoves M inner) :
    MovesTree M P (named inner scope) (named inner scope) :=
  .here fun _ => (moves_readName false).step fun _ => .isAt fun _ =>
    .ite (fun _ => moves_function hinner) fun _ => .pure rfl

theorem moves_component (hinner : NestedMoves M inner) :
    MovesTree M P (component inner scope) (component inner scope) := by
  have hsigned : MovesTree M P (signedComponent inner scope) (signedComponent inner scope) := by
    refine .here fun _ =>
      moves_readNumber? (.lookupKind fun _ => .lookupKind fun _ => .kind? fun _ => ?_)
      movesIf_measured
    split
    next => exact .ite (fun _ => moves_named hinner) fun _ => moves_tokenLeaf .operator
    next => exact moves_tokenLeaf .operator
    next => exact .fail
  rw [component_eq]
  refine .kind? fun _ => ?_
  split
  next => exact moves_tokenLeaf .string
  next => exact moves_named hinner
  next => exact moves_named hinner
  next => exact hsigned.mono fun _ h => h.1
  next => exact hsigned.mono fun _ h => h.1
  next => exact hsigned.mono fun _ h => h.1
  next => exact hsigned.mono fun _ h => h.1
  next => exact .fail

theorem moves_brackets (hinner : NestedMoves M inner) :
    MovesTree M P (brackets inner scope) (brackets inner scope) :=
  .here fun _ => .isAt fun _ => moves_advance.step fun _ => moves_skipGaps.step fun _ =>
    (moves_many fun _ => itemMoves_bracketPart hinner _).bind fun _ =>
      (moves_expect _).step fun _ =>
      .pure (by simp)

/-! ## Values -/

theorem moves_importantFlag : MovesIf M P importantFlag importantFlag id :=
  (moves_expect _).step fun _ => moves_skipGaps.step fun _ => (moves_expectWord _).step fun _ =>
    (moves_readName false).step fun _ => .pure rfl

/-- A round that adds what a reader yields and goes on. -/
theorem roundMoves_part {read : Parser Tree} {important : Bool}
    (h : MovesIf M (fun tokens => tokens.head? = some token) read read M.tree) :
    MovesIf M (fun tokens => tokens.head? = some token)
      (do return .next [← read] important : Parser (Round Bool Tree))
      (do return .next [← read] important) (Round.moved M.tree id) :=
  h.bind fun _ => .pure rfl

theorem roundMoves_valuePart (hinner : NestedMoves M inner) (nested : Bool) :
    RoundMoves M M.tree id (valuePart inner nested) := by
  intro important token
  show MovesIf M _ _ (valuePart inner nested important token) _
  unfold valuePart
  split
  next => exact .pure rfl
  next => exact .pure rfl
  next => exact .ite (fun _ => .pure rfl) fun _ => .fail
  next => exact roundMoves_part moves_space
  next => exact moves_advance.step fun _ => .pure rfl
  next => exact roundMoves_part moves_hash
  next => exact roundMoves_part (moves_tokenLeaf _)
  next => exact roundMoves_part (moves_tokenLeaf _)
  next => exact roundMoves_part (moves_brackets hinner)
  next => exact roundMoves_part (moves_brackets hinner)
  next => exact moves_importantFlag.step fun _ => .pure rfl
  next =>
    exact .lookupKind fun _ => .ite (fun _ => roundMoves_part moves_unicodeRange) fun _ =>
      roundMoves_part (moves_component hinner)
  next => exact roundMoves_part (moves_component hinner)

theorem moves_value (hinner : NestedMoves M inner) (nested : Bool) :
    MovesTree M P (value inner nested) (value inner nested) :=
  .here fun _ => moves_skipGaps.step fun _ =>
    (moves_loop id (roundMoves_valuePart hinner nested)).bind fun _ => .pure (by simp)

theorem moves_progid (count : Nat) : MovesTree M P (progid count) (progid count) :=
  .here fun _ => moves_skipGaps.step fun _ => .here fun _ => (moves_takeMany count).step fun _ =>
    moves_skipGaps.step fun _ => .pure rfl

theorem moves_filterValue : MovesTree M P filterValue filterValue := by
  rw [filterValue_eq]
  refine .here fun _ => (moves_many fun _ => .get fun s _ => ?_).bind fun _ =>
    moves_skipGaps.step fun _ => .step (α := Bool)
      (.isAt fun _ =>
        .ite (fun _ => moves_importantFlag.step fun _ => .pure rfl) fun _ => .pure rfl)
      fun _ => .pure (by simp)
  rw [show nextProgid? (M.state s).rest = _ from nextProgid?_map s.rest]
  cases nextProgid? s.rest with
  | none => exact .pure rfl
  | some count => exact (moves_progid count).bind fun _ => .pure rfl

end Grammar
end StyleTree
