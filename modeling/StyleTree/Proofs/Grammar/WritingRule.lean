import StyleTree.Proofs.Grammar.ProgressRule
import StyleTree.Proofs.Grammar.Sheet
import StyleTree.Proofs.Grammar.WritingComponent

/-! Selectors, declarations and rules are written with the letters they are read from, where there
are no parentheses and square brackets. Semicolons are passed over: they come and go in a block, and
one is written after an at-rule without body. A selector whose entries were discarded is not
written, so none may be empty (`Node.SelectorsKept`). -/

namespace StyleTree

open StyleTree.Parser StyleTree.Grammar

/-! ## Trees without empty selectors -/

namespace Node

variable {ι κ : Type}

/-- Whether the node is a selector without entries. -/
def isEmptySelector : Node ι → Bool
  | .sequence _ .selector [] => true
  | _ => false

/-- No selector in the tree is empty. -/
def SelectorsKept (tree : Node ι) : Prop :=
  ∀ node ∈ tree.preorder, node.isEmptySelector = false

theorem selectorsKept_iff {tree : Node ι} :
    tree.SelectorsKept ↔ tree.isEmptySelector = false ∧
    ∀ child ∈ tree.children, child.SelectorsKept := by
  rw [SelectorsKept, preorder_eq]
  simp only [List.mem_cons, List.mem_flatMap, forall_eq_or_imp, forall_exists_index, and_imp]
  exact and_congr_right fun _ => ⟨fun h child hchild other hother => h other child hchild hother,
    fun h other child hchild hother => h child hchild other hother⟩

theorem selectorsKept_mapInfo {f : ι → Option κ} {tree : Node ι} :
    (tree.mapInfo f).SelectorsKept ↔ tree.SelectorsKept := by
  have hempty : ∀ node : Node ι, (node.mapInfo f).isEmptySelector = node.isEmptySelector :=
    fun node => by
    cases node with
    | sequence info kind children => cases kind <;> cases children <;> rfl
    | _ => rfl
  simp only [SelectorsKept, preorder_mapInfo, List.forall_mem_map, hempty]

end Node

namespace Grammar

variable {passed w : List Char} {flat : Bool} {P : List Token → Prop} {inner : Nested}
  {info : Option Nat} {name : String} {token : Token}

/-! ## Names with a namespace -/

theorem writes_nameEnd (colon : Bool) :
    WritesIf passed flat P name.toList (nameEnd info name colon) Node.compact := by
  refine .isAt fun _ => .ite (fun _ => ?_) fun _ => .written (by simp [Node.leafMarks])
  exact writes_take.next fun _ => (writes_readName false).next fun _ =>
    .written (by simp [Node.leafMarks])

theorem writes_nameAfterBar (colon : Bool) (base bar : String) :
    WritesIf passed flat P (base.toList ++ bar.toList) (nameAfterBar info colon base bar)
      Node.compact := by
  have hend : ∀ {name : String} {w : List Char} {colon : Bool}, name.toList = w →
      Writes passed flat w (nameEnd info name colon) Node.compact := fun hw => hw ▸ writes_nameEnd _
  refine .kind? fun _ => ?_
  split
  next => exact (writes_readName false).next fun _ => hend (by simp)
  next => exact (writes_readName false).next fun _ => hend (by simp)
  next => exact (writes_readName false).next fun _ => hend (by simp)
  next => exact writes_take.next fun _ => hend (by simp)
  next => exact (hend (by simp)).always

theorem writes_nameFrom (colon : Bool) (base : String) :
    WritesIf passed flat P base.toList (nameFrom info colon base) Node.compact := by
  refine .isAt fun _ => .lookupKind fun _ =>
    .ite (fun _ => writes_take.next fun _ => writes_nameAfterBar colon base _) fun _ => ?_
  have hend : WritesIf passed flat P (base ++ "").toList
      (nameEnd info (base ++ "") colon) Node.compact := writes_nameEnd colon
  rw [String.append_empty] at hend ⊢
  exact hend.mono fun _ h => h.1.1

theorem writes_qualifiedName (colon : Bool) :
    WritesIf passed flat P [] (qualifiedName colon) Node.compact := by
  refine .current? fun first? => ?_
  cases first? with
  | none => exact .fail
  | some first =>
    refine .here fun info => .lookupKind fun equals => .ite (fun _ => ?_) fun _ =>
      .ite (fun _ => ?_) fun _ => ?_
    · exact writes_take.next fun base => writes_nameFrom (colon && first.kind ≠ .asterisk) base
    · exact writes_nameFrom (colon && first.kind ≠ .asterisk) ""
    · exact (writes_readName false).next fun base =>
        writes_nameFrom (colon && first.kind ≠ .asterisk) base

/-! ## Selectors -/

theorem writes_pseudoElement : WritesIf passed flat P [] pseudoElement Node.compact :=
  .here fun _ => (writes_expect (c := ':') rfl).next fun _ =>
    (writes_expect (c := ':') rfl).next fun _ =>
    (writes_readName false).next fun _ => .written (by simp [Node.leafMarks])

theorem writes_nthSelector : WritesIf passed true P [] nthSelector Node.compact :=
  .here fun _ => (writes_expect (c := ':') rfl).next fun _ => (writes_readName false).next fun _ =>
    takingIf_absent fun _ hK _ => hK.head?_ne.1

theorem writes_pseudoClass : WritesIf passed true P [] (pseudoClass inner) Node.compact := by
  refine .here fun _ => (writes_expect (c := ':') rfl).next fun _ => .here fun _ =>
    (writes_readName false).next fun _ =>
    .isAt fun paren => .ite (fun hparen => ?_) fun _ => .written (by simp [Node.leafMarks])
  exact .absurd fun _ hK h => hK.head?_ne.1 (h.2.2 hparen)

theorem writes_pseudo : WritesIf passed true P [] (pseudo inner) Node.compact := by
  refine .lookup? fun next? => ?_
  cases next? with
  | none => exact takingIf_advance.bind fun _ _ _ => .fail
  | some next =>
    exact .ite (fun _ => writes_pseudoElement) fun _ =>
      .ite (fun _ => writes_nthSelector) fun _ => writes_pseudoClass

theorem writesIf_combinator :
    WritesIf passed flat (fun tokens => tokens.head? = some token) [] (combinator token)
      Node.compact := by
  refine .here fun _ => ?_
  split
  next hk => exact (writesIf_blank (kind_at hk)).next fun _ => .told (by simp [Node.leafMarks])
  next hk =>
    refine (writesIf_sign (c := '/') (kind_at hk) rfl).next fun _ =>
      (writes_expectWord "deep").nextIf
        (Q := fun tokens =>
          ∃ word, tokens.head? = some word ∧ word.kind = .ident ∧ word.spells "deep" = true)
        (fun _ _ _ _ hs => head?_of_expectWord hs) fun _ => ?_
    have hword :
        WritesIf passed flat (fun tokens => ∃ word, tokens.head? = some word ∧ word.kind = .ident ∧
        word.spells "deep" = true) [] advance fun _ => "deep".toList := by
      refine writesIf_advance fun tokens _ h => ?_
      obtain ⟨word, hhead, -, hspells⟩ := h
      obtain ⟨rest, rfl⟩ := List.head?_eq_some_iff.1 hhead
      rw [List.take_succ_cons, List.take_zero, tokenChars_cons, tokenChars_nil, List.append_nil]
      exact letters_congr (of_decide_eq_true hspells)
    exact hword.next fun _ => (writes_expect (c := '/') rfl).next fun _ =>
      .written (by simp [Node.leafMarks])
  next => exact (writesIf_token fun _ h => h).next fun _ => .written (by simp [Node.leafMarks])

theorem writes_percentageOrName : WritesIf passed flat P [] percentageOrName Node.compact := by
  refine .get fun s _ _ => ?_
  dsimp only
  split
  next count hcount =>
    refine .ite (fun h => .here fun _ => ?_) fun _ => writes_qualifiedName false
    refine (writes_takeMany count).nextIf
      (Q := fun tokens => tokens.head?.map Token.kind = some .percentSign)
      (fun s₁ _ s₂ hs₁ hs₂ => ?_) fun _ =>
        (writesIf_sign (c := '%') (fun _ h => h) rfl).next fun _ =>
        .written (by simp [Node.leafMarks])
    obtain ⟨-, rfl⟩ := EStateM.Result.ok.inj hs₂
    show (s₁.rest.drop count).head?.map Token.kind = _
    rw [List.head?_drop, hs₁, h]
  next => exact writes_qualifiedName false

/-- Of a state of the loop over parts, the combinator that waits. -/
def SelectorState.nodes (state : SelectorState) : List Tree :=
  state.pending.toList

/-- A combinator that is not open is whitespace. -/
theorem SelectorState.letters_nodes {state : SelectorState} (h : state.isOpen = false) :
    letters passed (rowChars state.nodes) = [] := by
  obtain ⟨pending, started⟩ := state
  cases pending with
  | none => rfl
  | some node =>
    have hdescendant : isDescendant node = true := by simpa [isOpen] using h
    unfold isDescendant at hdescendant
    split at hdescendant
    next => simp [nodes, Node.leafMarks, of_decide_eq_true hdescendant]
    next => cases hdescendant

/-- The parts that are read from a state on, and the combinator that waits after them, have the
letters of what waited before and of the tokens. -/
def PartsWritten (passed : List Char) (state : SelectorState) (nodes : List Tree)
    (last : SelectorState) (front : List Token) : Prop :=
  letters passed (rowChars (nodes ++ last.nodes)) = letters passed
    (rowChars state.nodes ++ tokenChars front)

theorem PartsWritten.nil (state : SelectorState) : PartsWritten passed state [] state [] := by
  simp [PartsWritten]

/-- A round adds nodes and goes on from another state. -/
theorem PartsWritten.next {state state' last : SelectorState} {nodes later : List Tree}
    {front more : List Token}
    (h : letters passed (rowChars (nodes ++ state'.nodes)) = letters passed
      (rowChars state.nodes ++ tokenChars front))
    (hlater : PartsWritten passed state' later last more) :
    PartsWritten passed state (nodes ++ later) last (front ++ more) := by
  rw [rowChars_append, letters_append, letters_append] at h
  rw [PartsWritten, List.append_assoc, rowChars_append, letters_append, hlater, letters_append,
    tokenChars_append, letters_append, letters_append, ← List.append_assoc, ← List.append_assoc, h]

theorem writesIf_selectorPart (nested : Bool) (state : SelectorState) :
    TakingIf (Clear true) (fun tokens => tokens.head? = some token)
      (selectorPart inner nested state token)
      fun result front => result.Joins (PartsWritten passed) state front := by
  have hpart : ∀ {read : Parser Tree}, WritesIf passed true
      (fun tokens => tokens.head? = some token) [] read Node.compact →
      TakingIf (Clear true) (fun tokens => tokens.head? = some token)
        (do
          return Round.next (state.pending.toList ++ [← read])
            { started := true : SelectorState })
        fun result front => result.Joins (PartsWritten passed) state front := fun h => by
    refine h.bind fun node front hnode => .pure fun _ _ _ => .next ?_
    rw [List.append_nil, rowChars_append, rowChars_append, letters_append, letters_append,
      letters_append]
    rw [List.nil_append] at hnode
    simp [SelectorState.nodes, hnode]
  have hnamed :
      ∀ {kind : TokenKind} {c : Char} {tree : Option Nat → String → Tree}, kind.char? = some c →
      (∀ info name, (tree info name).compact = c :: name.toList) →
      WritesIf passed true (fun tokens => tokens.head? = some token) []
        (do let info ← here; expect kind; return tree info (← readName false)) Node.compact :=
          fun hc htree =>
    .here fun _ => (writes_expect hc).next fun _ => (writes_readName false).next fun _ =>
      .written (htree _ _)
  have hcombinator : state.isOpen = false →
      TakingIf (Clear true) (fun tokens => tokens.head? = some token)
      (do
        return (Round.next [] { state with pending := some (← combinator token) } :
          Round SelectorState Tree))
      fun result front => result.Joins (PartsWritten passed) state front := fun hopen => by
    have hread : WritesIf passed true (fun tokens => tokens.head? = some token) []
        (combinator token) Node.compact :=
      writesIf_combinator
    refine hread.bind fun node front hnode => .pure fun _ _ _ => .next ?_
    rw [letters_append, state.letters_nodes hopen]
    simpa [SelectorState.nodes] using hnode
  have hpass : token.kind = .whitespace →
      TakingIf (Clear true) (fun tokens => tokens.head? = some token)
      (do advance; return (Round.next [] state : Round SelectorState Tree))
      fun result front => result.Joins (PartsWritten passed) state front := fun hk => by
    have hblank : WritesIf passed true (fun tokens => tokens.head? = some token) [] advance fun _ =>
        [] :=
      writesIf_blank (kind_at hk)
    refine hblank.bind fun _ front hfront => .pure fun _ _ _ => .next ?_
    rw [letters_append, List.append_nil, ← List.nil_append (tokenChars front), ← hfront]
    simp
  unfold selectorPart
  split
  next => exact .pure (.nil state)
  next => exact .ite (fun _ => .fail) fun _ => .pure (.nil state)
  next => exact .ite (fun _ => .pure (.nil state)) fun _ => .fail
  next hk => exact takingIf_marked (.inl hk)
  next hk =>
    refine .ite (fun h => hcombinator ?_) fun _ => hpass hk
    obtain ⟨hnone, -⟩ := Bool.and_eq_true_iff.1 h
    simp [SelectorState.isOpen, Option.isNone_iff_eq_none.1 hnone]
  next => exact .ite (fun _ => .fail) fun h => hcombinator (by simpa using h)
  next => exact .ite (fun _ => .fail) fun h => hcombinator (by simpa using h)
  next => exact .ite (fun _ => .fail) fun h => hcombinator (by simpa using h)
  next => exact .ite (fun _ => .fail) fun h => hcombinator (by simpa using h)
  next => exact hpart (hnamed (c := '.') rfl fun _ _ => by simp [Node.leafMarks])
  next hk => exact .absurd fun tokens hK h => hK.head?_ne.2 (kind_at hk tokens h)
  next => exact hpart (hnamed (c := '#') rfl fun _ _ => by simp [Node.leafMarks])
  next => exact hpart writes_pseudo
  next => exact hpart (writes_qualifiedName false)
  next => exact hpart (writes_qualifiedName false)
  next => exact hpart (writes_qualifiedName false)
  next => exact hpart (writes_qualifiedName false)
  next => exact hpart writes_percentageOrName
  next => exact hpart writes_percentageOrName
  next => exact .fail

/-- The blanks around a combinator do not count. -/
theorem letters_selectorChars (nodes : List Tree) :
    letters passed (selectorChars nodes) = letters passed (rowChars nodes) := by
  have hpiece : ∀ node : Tree, letters passed (Node.piece true node) =
      letters passed node.compact := fun node => by
    rw [Node.piece]
    split
    next h =>
      unfold Node.isDeep at h
      split at h
      next =>
        have hsplit : " /deep/ ".toList = [' '] ++ ("/deep/".toList ++ [' ']) := rfl
        rw [hsplit, letters_append, letters_append, letters_space, List.nil_append, List.append_nil,
          compact_bareLeaf rfl, of_decide_eq_true h]
      next => cases h
    next => rfl
  induction nodes with
  | nil => rfl
  | cons node nodes ih =>
    rw [rowChars_cons, selectorChars, List.map_cons, List.flatten_cons, letters_append,
      letters_append, hpiece, ← ih, selectorChars]

theorem writes_simpleSelector (nested : Bool) :
    WritesIf passed true P [] (simpleSelector inner nested) Node.compact := by
  have hloop : TakingIf (Clear true) P (loop (selectorPart inner nested) {}) fun result front =>
      PartsWritten passed {} result.1 result.2 front :=
    taking_loop (PartsWritten passed) .nil fun state _ => writesIf_selectorPart nested state
  refine .here fun _ => hloop.bind fun result front h => .ite (fun _ => .fail) fun hopen => .pure ?_
  rw [PartsWritten, rowChars_append, letters_append, result.2.letters_nodes (by simpa using hopen),
    List.append_nil] at h
  rw [compact_simpleSelector, letters_selectorChars, h, List.append_nil]
  rfl

/-! ## Declarations -/

theorem writes_property : WritesIf passed flat P [] property Node.compact :=
  .here fun _ => (writes_takeWhile _).next fun _ => (writes_readName true).next fun _ =>
    writes_skipGaps.next fun _ =>
    .written (by simp [Node.leafMarks])

theorem writes_progid (count : Nat) : WritesIf passed flat P [] (progid count) Node.compact :=
  .here fun _ => writes_skipGaps.next fun _ => .here fun _ => (writes_takeMany count).next fun _ =>
    writes_skipGaps.next fun _ => .written (by simp [Node.leafMarks])

theorem writes_filterValue : WritesIf passed flat P [] filterValue Node.compact := by
  refine .here fun _ => (writes_many fun token => ?_).next fun blocks =>
    writes_skipGaps.next fun _ => .isAt fun flag =>
    .ite (fun hflag => .absurd fun tokens hK h => ?_) fun hflag => ?_
  · refine .get fun s _ _ => ?_
    split
    next count _ => exact writes_part rfl (writes_progid count)
    next => exact writes_stop
  · obtain ⟨token, hhead, hk⟩ := Option.map_eq_some_iff.1 (h.2.2 hflag)
    exact (hK.unmarked token (List.mem_of_mem_head? hhead)).2 hk
  · obtain rfl : flag = false := by simpa using hflag
    exact .written (by simp [compact_value])

theorem writes_declaration (hinner : NestedWrites passed flat inner) :
    WritesIf passed flat P [] (declaration inner) Node.compact :=
  .here fun _ => writes_property.next fun _ => (writes_expect (c := ':') rfl).next fun _ =>
    .get fun _ _ _ =>
    .fork (fun _ => writes_filterValue) (fun _ => writes_value hinner false) fun _ =>
      .written (by simp)

/-- A semicolon is passed over. -/
theorem writesIf_semicolon (hP : ∀ tokens, P tokens →
    tokens.head?.map Token.kind = some .semicolon) :
    WritesIf [';'] flat P [] advance fun _ => [] := by
  have hsign : WritesIf [';'] flat P [] advance fun _ => [';'] := writesIf_sign hP rfl
  exact hsign.imp fun _ _ h => h

theorem writes_declarations (hinner : NestedWrites [';'] flat inner) :
    WritesIf [';'] flat P [] (declarations inner) rowChars := by
  refine writes_many fun token => ?_
  unfold declarationPart
  split
  next => exact writes_stop
  next hk => exact writesIf_pass rfl (writesIf_blank (kind_at hk))
  next hk => exact takingIf_marked (.inl hk)
  next hk => exact writesIf_pass rfl (writesIf_semicolon (kind_at hk))
  next => exact writes_part rfl (writes_declaration hinner)

/-- The semicolons between declarations do not count. -/
theorem letters_listChars (nodes : List Tree) :
    letters [';'] (listChars nodes) = letters [';'] (rowChars nodes) := by
  induction nodes with
  | nil => rfl
  | cons node nodes ih =>
    cases nodes with
    | nil => simp [listChars]
    | cons node' nodes =>
      rw [listChars_cons_cons, rowChars_cons, letters_append, letters_append, ← ih]
      rfl

theorem writes_block (hinner : NestedWrites [';'] flat inner) :
    WritesIf [';'] flat P [] (block inner) Node.compact :=
  .here fun _ => (writes_declarations hinner).next fun nodes => .told (by
    rw [compact_block, letters_listChars, List.nil_append])

theorem letters_bodyChars (node : Tree) :
    letters passed (Node.bodyChars (some node)) =
      letters passed (['\x7b'] ++ node.compact ++ ['\x7d']) := by
  rw [Node.bodyChars, List.append_assoc, List.singleton_append]

theorem writes_bracedBlock (hinner : NestedWrites [';'] flat inner) :
    WritesIf [';'] flat P [] (bracedBlock inner) fun node => Node.bodyChars (some node) :=
  .here fun _ => (writes_expect (c := '\x7b') rfl).next fun _ =>
    (writes_declarations hinner).next fun nodes =>
    (writes_expect (c := '\x7d') rfl).next fun _ => .told (by
      rw [letters_bodyChars, letters_append, letters_append, compact_block, letters_listChars,
        ← letters_append, ← letters_append]
      rfl)

/-! ## Rules -/

/-- A tree without empty selectors has the letters of the tokens that the reader takes. -/
abbrev WritesKeptIf (P : List Token → Prop) (x : Parser Tree) : Prop :=
  TakingIf (Clear true) P x fun tree front =>
    tree.SelectorsKept → letters [';'] tree.compact = letters [';'] (tokenChars front)

theorem writesKept_of_writes {x : Parser Tree} (h : WritesIf [';'] true P [] x Node.compact) :
    WritesKeptIf P x :=
  h.imp fun _ _ hwrites _ => hwrites

theorem taking_noteDiscarded {K : List Token → Prop} :
    TakingIf K P noteDiscarded fun _ front => front = [] := by
  rintro s _ _ hK - ⟨⟩
  exact ⟨hK, [], .done, rfl⟩

/-- A selector is written unless its entries were discarded. -/
theorem writesKept_selector : WritesKeptIf P (selector inner) := by
  have hentry : Writes [';'] true [] (simpleSelector inner false) Node.compact :=
    writes_simpleSelector false
  refine .here fun _ => (writes_separated hentry (.written rfl)).bind fun result front h =>
    .ite (fun _ => ?_) fun hkept => .pure fun _ => ?_
  · exact taking_noteDiscarded.bind fun _ _ _ =>
      .pure fun hkept => absurd (Node.selectorsKept_iff.1 hkept).1 nofun
  · rw [List.append_nil, compact_selector]
    refine h ?_
    simp only [Bool.or_eq_true, not_or, Bool.not_eq_true] at hkept
    exact hkept.1

theorem writesKept_ruleset (hinner : NestedWrites [';'] true inner) :
    WritesKeptIf P (ruleset inner) := by
  refine .here fun _ => writesKept_selector.bind fun head front hhead =>
    (writes_bracedBlock hinner).bind fun body more hbody =>
    .pure fun hkept => ?_
  have hhead := hhead ((Node.selectorsKept_iff.1 hkept).2 head (.head _))
  rw [Node.compact_ruleset, letters_append, hhead, List.append_nil, tokenChars_append,
    letters_append]
  exact congrArg _ hbody

theorem writesIf_expressionPart (hinner : NestedWrites passed true inner) (started : Bool) :
    TakingIf (Clear true) (fun tokens => tokens.head? = some token)
      (expressionPart inner started token)
      fun result front => result.Writes passed (fun _ => ()) started front := by
  have hscope : Scope.atruleExpression ≠ .selector := nofun
  unfold expressionPart
  split
  next => exact writes_stop
  next => exact writes_stop
  next hk => exact .ite (fun _ => writes_part rfl (writesIf_space (kind_at hk))) fun _ =>
      writesIf_pass rfl (writesIf_blank (kind_at hk))
  next hk => exact takingIf_marked (.inl hk)
  next => exact writes_part rfl (writes_tokenLeaf rfl)
  next => exact writes_part rfl writes_pseudo
  next hk => exact .absurd fun tokens hK h => hK.head?_ne.1 (kind_at hk tokens h)
  next => exact writes_part rfl (writes_component hscope hinner)

theorem writes_atruleExpression (hinner : NestedWrites passed true inner) :
    WritesIf passed true P [] (atruleExpression inner) Node.compact := by
  refine .here fun _ =>
    (writes_loop (fun _ => ()) fun started _ => writesIf_expressionPart hinner started).bind
      fun result front h => .pure ?_
  rw [compact_expression, letters_dropTrailingSpaces, h.2, List.append_nil, List.nil_append]

/-- The blank before an expression does not count, and nothing is written of one without parts. -/
theorem letters_expressionChars (node : Tree) :
    letters passed (Node.expressionChars (some node)) = letters passed node.compact := by
  rw [Node.expressionChars]
  split
  next h =>
    unfold Node.isEmptyExpression at h
    split at h
    next => rw [compact_expression, rowChars_nil]
    next => cases h
  next => rw [letters_cons, letters_space, List.nil_append]

/-- The semicolon of an at-rule without body does not count. -/
theorem writesKept_atruleBody (hinner : NestedWrites [';'] true inner) {sheet : Parser Tree}
    (hsheet : WritesKeptIf (fun _ => True) sheet) :
    TakingIf (Clear true) P (atruleBody inner sheet)
      fun body front => (∀ node ∈ body, node.SelectorsKept) →
      letters [';'] (Node.bodyChars body) = letters [';'] (tokenChars front) := by
  refine .kind? fun _ => ?_
  split
  next => exact .pure fun _ => rfl
  next =>
    refine (writesIf_semicolon fun _ h => h.2).bind fun _ front h => .pure fun _ => ?_
    rw [List.append_nil, ← List.nil_append (tokenChars front), ← h]
    rfl
  next =>
    have hopen :
        WritesIf [';'] true (fun tokens => P tokens ∧ tokens.head?.map Token.kind = some .leftBrace)
          [] advance
        fun _ => ['\x7b'] := writesIf_sign (fun _ h => h.2) rfl
    have hclose : Writes [';'] true [] (expect .rightBrace) fun _ => ['\x7d'] := writes_expect rfl
    refine hopen.bind fun _ first hfirst => .get fun _ _ _ => .choose
      (p := fun tree front =>
        tree.SelectorsKept → letters [';'] tree.compact = letters [';'] (tokenChars front))
      (fun _ => (writesKept_of_writes (writes_block hinner)).always) (fun _ => hsheet.always)
        fun node front hnode =>
        hclose.bind fun _ last hlast => .pure fun hkept => ?_
    rw [letters_bodyChars, letters_append, letters_append, hnode (hkept node rfl)]
    rw [List.nil_append] at hfirst hlast
    rw [hfirst, hlast, List.append_nil, ← letters_append, ← letters_append, tokenChars_append,
      tokenChars_append, List.append_assoc]
  next => exact .fail

theorem writesKept_atrule (hinner : NestedWrites [';'] true inner) {sheet : Parser Tree}
    (hsheet : WritesKeptIf (fun _ => True) sheet) :
    WritesKeptIf P (atrule inner sheet) := by
  have hat : WritesIf [';'] true P [] (expect .commercialAt) fun _ => ['@'] := writes_expect rfl
  have hread : Writes [';'] true [] (readName false) String.toList := writes_readName false
  refine hat.bind fun _ first hfirst => .here fun info => hread.bind fun name second hname =>
    (writes_atruleExpression hinner).bind fun expression third hexpression =>
      (writesKept_atruleBody hinner hsheet).bind fun body last hbody => .pure fun hkept => ?_
  have hchildren := (Node.selectorsKept_iff.1 hkept).2
  have hbody := hbody fun node hmem => hchildren node (by cases hmem; simp [Node.children])
  rw [List.nil_append] at hfirst hname hexpression
  rw [Node.compact_atrule, letters_cons, letters_append, letters_append, letters_expressionChars,
    hfirst, hname, hexpression, hbody]
  simp only [tokenChars_append, letters_append, List.append_nil]

/-- What is written of rules without empty selectors. -/
def RulesWritten (_ : Unit) (nodes : List Tree) (_ : Unit) (front : List Token) : Prop :=
  (∀ node ∈ nodes, node.SelectorsKept) →
  letters [';'] (rowChars nodes) = letters [';'] (tokenChars front)

theorem writesKeptIf_rulePart (hinner : NestedWrites [';'] true inner) {sheet : Parser Tree}
    (hsheet : WritesKeptIf (fun _ => True) sheet) (nested : Bool) :
    TakingIf (Clear true) (fun tokens => tokens.head? = some token)
      (rulePart inner sheet nested token)
      fun result front => result.Joins RulesWritten () front := by
  have hadd : ∀ {read : Parser Tree}, WritesKeptIf (fun tokens => tokens.head? = some token) read →
      TakingIf (Clear true) (fun tokens => tokens.head? = some token) (add read)
        fun result front => result.Joins RulesWritten () front := fun h =>
    h.bind fun node front hnode => .pure fun later _ more hlater hkept => by
      obtain ⟨hfirst, hmore⟩ := List.forall_mem_cons.1 hkept
      rw [List.singleton_append, rowChars_cons, letters_append, hnode hfirst, hlater hmore,
        List.append_nil, tokenChars_append, letters_append]
  unfold rulePart
  split
  next hk =>
    have hblank : WritesIf [';'] true (fun tokens => tokens.head? = some token) [] advance fun _ =>
        [] :=
      writesIf_blank (kind_at hk)
    refine hblank.bind fun _ front hfront => .pure fun later _ more hlater hkept => ?_
    rw [List.nil_append] at hfront
    rw [List.nil_append, hlater hkept, List.append_nil, tokenChars_append, letters_append, ← hfront]
    rfl
  next hk => exact takingIf_marked (.inl hk)
  next => exact hadd (writesKept_of_writes (writes_tokenLeaf rfl))
  next => exact hadd (writesKept_atrule hinner hsheet)
  next => exact .ite (fun _ => .pure fun _ => rfl) fun _ => .fail
  next => exact hadd (writesKept_ruleset hinner)

theorem writesKept_styleSheet (hinner : NestedWrites [';'] true inner) {sheet : Parser Tree}
    (hsheet : WritesKeptIf (fun _ => True) sheet) (nested : Bool) :
    WritesKeptIf P (styleSheet inner sheet nested) := by
  have hrules : TakingIf (Clear true) P (loop (fun _ => rulePart inner sheet nested) ())
      fun result front =>
      RulesWritten () result.1 result.2 front :=
    taking_loop RulesWritten (fun _ _ => rfl) fun _ _ => writesKeptIf_rulePart hinner hsheet nested
  refine .here fun info => ?_
  rw [many, bind_assoc]
  refine hrules.bind fun result front h => .value (.pure fun hkept => ?_)
  rw [compact_styleSheet, List.append_nil]
  exact h (Node.selectorsKept_iff.1 hkept).2

theorem writesKept_nestedSheet (hinner : NestedWrites [';'] true inner) (depth : Nat) :
    WritesKeptIf (fun _ => True) (nestedSheet inner depth) := by
  induction depth with
  | zero => exact .fail
  | succ depth ih => exact writesKept_styleSheet hinner ih true

end Grammar
end StyleTree
