import StyleTree.Proofs.Checked.AgreementComponent

/-! The machine reads selectors as the grammar does, and what stands in brackets, however deep
(`nestedAgrees_upTo`). -/

namespace StyleTree

open StyleTree.Parser StyleTree.Grammar

variable {p : Source} {total n : Nat} {before : List Char} {tokens : List Token} {token : Token}
    {inner : Nested}

/-! ## Attributes -/

theorem agrees_attributeOperator :
    Agrees p total before tokens attributeOperator (Machine.attributeOperator p) Same := by
  have hpair : ∀ {first : Token} {rest : List Token},
      first.kind ∈ [TokenKind.tilde, .circumflex, .dollarSign, .asterisk, .verticalLine] →
      Agrees p total before (first :: rest)
        (do
          let sign ← take
          expect .equals
          return sign ++ "=") (Machine.attributeOperator p) Same := by
    intro first rest hk
    have hne : first.kind ≠ .equals := fun h => by simp [h] at hk
    rw [Machine.attributeOperator, Agrees.expectAny_right (List.mem_cons_of_mem _ hk)]
    refine .placed fun hplaced => ?_
    have hstart := hplaced.start_eq
    simp only [Token.span_kind, Token.span_start, ne_eq, hne, not_false_eq_true, if_true]
    refine .take (.placed fun hplaced' => .expect fun equals rest' hrest hequals => ?_)
    have htext : equals.text = "=" := by
      rw [← String.ofList_toList (s := equals.text),
        (hplaced'.spelled equals (by rw [hrest]; exact .head _)).sign '=' (by rw [hequals]; rfl)]
    rw [Agrees.offset_right, ← bind_pure (Machine.slice _ _ _),
      Agrees.slice_read hstart rfl (List.append_assoc ..)]
    refine .pure ?_
    rw [Same, String.ofList_append, String.ofList_toList, String.ofList_toList, htext]
  have hequals : ∀ {first : Token} {rest : List Token}, first.kind = .equals →
      Agrees p total before (first :: rest) take (Machine.attributeOperator p) Same := by
    intro first rest hk
    rw [Machine.attributeOperator, Agrees.expectAny_right (by simp [hk])]
    refine .placed fun hplaced => ?_
    have hstart := hplaced.start_eq
    simp only [Token.span_kind, Token.span_start, ne_eq, hk, not_true_eq_false, if_false]
    rw [← bind_pure take]
    refine .take ?_
    rw [Agrees.offset_right, ← bind_pure (Machine.slice _ _ _), Agrees.slice_read hstart rfl rfl]
    exact .pure String.ofList_toList
  have hfail : ∀ {tokens : List Token}, (∀ token ∈ tokens.head?,
      token.kind ∉ [TokenKind.equals, .tilde, .circumflex, .dollarSign, .asterisk, .verticalLine]) →
      Agrees p total before tokens (Parser.fail .expectedAttributeOperator)
        (Machine.attributeOperator p) Same := by
    intro tokens hk
    refine .left (y := Parser.fail .expectedAttributeOperator >>= pure) (fun _ => rfl) ?_
    rw [Machine.attributeOperator]
    exact .expectAny_failed rfl hk
  unfold attributeOperator
  rw [Agrees.kind?_left]
  cases hkind : tokens.head?.map Token.kind with
  | none => exact hfail fun token hmem => by simp_all
  | some kind =>
    obtain ⟨first, rest, rfl, hk⟩ := exists_cons_of_kind hkind
    cases kind with
    | equals => exact hequals hk
    | tilde | circumflex | dollarSign | asterisk | verticalLine => exact hpair (by simp [hk])
    | _ => exact hfail fun token hmem => by obtain rfl := Option.some.inj hmem; simp [hk]

/-- What the machine has to give for the operator and the value of an attribute selector. -/
def Source.test (p : Source) : String × Tree → String × Node SourceInfo :=
  fun test => (test.1, p.tree test.2)

theorem agrees_attributeValue :
    Agrees p total before tokens attributeTest (Machine.attributeValue p)
    fun test result _ _ => result = p.test test := by
  have hend : ∀ {read : List Char} {rest : List Token} (sign : String) (value : Tree), Agrees p
      total read rest
      (do skipGaps; return (sign, value)) (do Machine.skipGaps; return (sign, p.tree value))
      fun test result _ _ => result = p.test test := fun _ _ => .gaps fun _ => .pure rfl
  unfold attributeTest Machine.attributeValue
  refine agrees_attributeOperator.bind ?_
  rintro _ sign w rest rfl
  refine .gaps fun w' => ?_
  rw [Agrees.isAt_left, Agrees.isAt_right]
  by_cases hstring : (rest.dropWhile isGap).head?.map Token.kind = some .string
  · obtain ⟨token, rest', hrest, -⟩ := exists_cons_of_kind hstring
    simp only [hstring, decide_true, if_true]
    rw [hrest]
    refine (agrees_tokenLeaf .string).bind ?_
    rintro value _ w'' rest'' rfl
    exact hend sign value
  · simp only [hstring, decide_false, Bool.false_eq_true, if_false]
    refine (agrees_identifier false).bind ?_
    rintro value _ w'' rest'' rfl
    exact hend sign value

theorem agrees_attributeFlags :
    Agrees p total before tokens attributeFlags (Machine.attributeFlags p) Same := by
  unfold attributeFlags Machine.attributeFlags
  rw [Agrees.isAt_left, Agrees.isAt_right]
  refine .ite (fun hident => ?_) fun _ => .pure rfl
  obtain ⟨flags, rest, rfl, -⟩ := exists_cons_of_kind (of_decide_eq_true hident)
  rw [Agrees.currentText_right]
  exact .take (.gaps fun _ => .pure rfl)

theorem agrees_attributeSelector :
    Agrees p total before tokens attributeSelector (Machine.attributeSelector p) p.Resolves := by
  unfold attributeSelector Machine.attributeSelector
  rw [Agrees.here_left, Agrees.info_right]
  refine .expect fun opening rest _ _ => .gaps fun w => (agrees_namespacedIdentifier true).bind ?_
  rintro name _ w' rest' rfl
  have hend : ∀ {read : List Char} {rest : List Token} (test : Option (String × Tree)), Agrees p
      total read rest
      (do
        let flags ← attributeFlags
        expect .rightBracket
        return .attributeSelector (tokens.head?.map Token.start) name (test.map Prod.fst)
          (test.map Prod.snd) flags)
      (do
        let flags ← Machine.attributeFlags p
        Machine.expect p .rightBracket
        return .attributeSelector ((tokens.head?.map Token.start).bind p.info) (p.tree name)
          ((test.map p.test).map Prod.fst) ((test.map p.test).map Prod.snd) flags)
      fun tree node _ _ => node = p.tree tree := by
    intro read rest test
    refine agrees_attributeFlags.bind ?_
    rintro flags _ v rest rfl
    refine .expect fun closing rest _ _ => .pure ?_
    cases test <;> rfl
  refine .gaps fun w'' => ?_
  rw [Machine.attributeTest, bind_assoc, Agrees.kind?_left, Agrees.kind?_right]
  cases (rest'.dropWhile isGap).head?.map Token.kind with
  | none => exact hend none
  | some kind =>
    cases kind with
    | rightBracket | ident => exact hend none
    | _ =>
      dsimp only
      rw [bind_assoc]
      refine agrees_attributeValue.bind ?_
      rintro test _ w rest rfl
      exact hend (some test)

/-! ## Classes, identities and combinators -/

theorem agrees_classSelector :
    Agrees p total before tokens classSelector (Machine.classSelector p) p.Resolves := by
  unfold classSelector Machine.classSelector
  rw [Agrees.here_left, Agrees.info_right]
  refine .expect fun _ _ _ _ => (agrees_readIdent false).bind ?_
  rintro name _ w rest rfl
  exact .pure rfl

theorem agrees_idSelector :
    Agrees p total before tokens idSelector (Machine.idSelector p) p.Resolves := by
  unfold idSelector Machine.idSelector
  rw [Agrees.here_left, Agrees.info_right]
  refine .expect fun _ _ _ _ => (agrees_readIdent false).bind ?_
  rintro name _ w rest rfl
  exact .pure rfl

theorem isDescendant_tree (node : Tree) :
    Machine.isDescendant (p.tree node) = isDescendant node := by
  cases node with
  | leaf info kind text => cases kind <;> rfl
  | _ => rfl

theorem agrees_combinator (hk : isJoint token.kind = true) :
    Agrees p total before (token :: tokens) (combinator token) (Machine.combinator p)
      p.Resolves := by
  unfold combinator Machine.combinator
  rw [Agrees.here_left, Agrees.info_right, Agrees.kind?_right]
  simp only [List.head?_cons, Option.map_some]
  cases hkind : token.kind with
  | whitespace => exact .advance (.pure rfl)
  | solidus =>
    refine .advance (.expectWord fun word rest htokens _ _ => ?_)
    rw [htokens, if_pos rfl]
    exact .advance (.expect fun _ _ _ _ => .pure rfl)
  | plus | tilde | greaterThan =>
    dsimp only
    rw [Agrees.currentText_right]
    exact .advance (.pure rfl)
  | _ => simp [hkind, isJoint] at hk


/-! ## Percentages -/

theorem agrees_percentage {count : Nat} (hcount : numberLength? tokens = some count)
    (hsign : tokens[count]?.map Token.kind = some .percentSign) :
    Agrees p total before tokens (percentageOf (some count)) (Machine.percentageOrName p)
      p.Resolves := by
  rw [Machine.percentageOrName, Machine.keyframePercentage, bind_assoc,
    Agrees.right_iff fun c _ hc => Machine.run_numberLen hc, hcount]
  dsimp only
  rw [bind_assoc, Agrees.lookupKind_right, hsign, percentageOf, Agrees.here_left]
  simp only [decide_true, if_true, bind_assoc]
  refine .left (y := readNumber? >>= fun number => do
    advance
    return .leaf (tokens.head?.map Token.start) .percentage (number.getD "")) (fun discarded => ?_)
    (agrees_numeric.run.bind ?_)
  · rw [bind_of_ok (readNumber?_of_some hcount), takeMany_bind_run]
    rfl
  rintro number _ w rest ⟨⟨rfl, -⟩, discarded, discarded', hrun⟩
  obtain ⟨rfl, hrest⟩ := EStateM.Result.ok.inj ((readNumber?_of_some hcount).symm.trans hrun)
  obtain rfl := (ParserState.mk.inj hrest).1
  obtain ⟨sign, rest, hrest, hk⟩ := exists_cons_of_kind (by rwa [List.head?_drop] :
    (tokens.drop count).head?.map Token.kind = some .percentSign)
  dsimp only
  rw [hrest]
  simp only [Option.map_some, bind_assoc, pure_bind]
  rw [Agrees.expect_right hk]
  exact .advance (.pure rfl)

theorem agrees_percentageOrName :
    Agrees p total before tokens percentageOrName (Machine.percentageOrName p) p.Resolves := by
  rw [percentageOrName_eq]
  refine .left (y := percentageOf (percentLength? tokens)) (fun _ => rfl) ?_
  rw [percentLength?]
  cases hcount : numberLength? tokens with
  | none =>
    rw [Machine.percentageOrName, Machine.keyframePercentage, bind_assoc,
      Agrees.right_iff fun c _ hc => Machine.run_numberLen hc, hcount]
    exact agrees_namespacedIdentifier false
  | some count =>
    dsimp only
    by_cases hsign : tokens[count]?.map Token.kind = some .percentSign
    · rw [if_pos hsign]
      exact agrees_percentage hcount hsign
    · rw [if_neg hsign, Machine.percentageOrName, Machine.keyframePercentage, bind_assoc,
        Agrees.right_iff fun c _ hc => Machine.run_numberLen hc, hcount]
      dsimp only
      rw [bind_assoc, Agrees.lookupKind_right]
      simp only [hsign, decide_false, Bool.false_eq_true, if_false, pure_bind]
      exact agrees_namespacedIdentifier false

/-! ## Pseudo-classes and pseudo-elements -/

theorem takeMany_one {α : Type} (f : String → Parser α) (discarded : List (Option Nat)) :
    (takeMany 1 >>= f) ⟨token :: tokens, discarded⟩ =
      (take >>= f) ⟨token :: tokens, discarded⟩ := by
  rw [takeMany_bind_run, take_bind_run]
  simp [Text.concat]

/-- The machine cuts out one part of the argument of `:nth-…(…)` up to the end of the current
token. -/
abbrev Machine.nthLeaf (p : Source) (info : Option Nat) (first : Token) :
    Action (Node SourceInfo) := do
  let stop := ((← current?).map Span.stop).getD first.span.stop
  advance
  return .leaf (info.bind p.info) .nth (← slice p first.span.start stop)

theorem agrees_nthLeaf (info : Option Nat) : Agrees p total before (token :: tokens)
    (do return .leaf info .nth (← take)) (Machine.nthLeaf p info token) p.Resolves := by
  refine .placed fun hplaced => ?_
  have hstart := hplaced.start_eq
  rw [Machine.nthLeaf, Agrees.current?_right]
  refine .take ?_
  simp only [List.head?_cons, Option.map_some, Option.getD_some, Token.span_stop, Token.span_start]
  rw [Agrees.slice_read hstart hplaced.stop_eq rfl, String.ofList_toList]
  exact .pure rfl

/-- The machine steps over a number before the letter that multiplies it. -/
theorem agrees_nthNumber (info : Option Nat) (hk : token.kind = .number) :
    Agrees p total before (token :: tokens) (nthNumber info (tokens.head?.any isStep))
      (Machine.nthHead p token.span >>= fun _ => Machine.nthLeaf p info token) p.Resolves := by
  rw [nthNumber, Machine.nthHead, if_pos (show token.span.kind = _ from hk), bind_assoc,
    Agrees.lookup?_right, List.getElem?_cons_succ, ← List.head?_eq_getElem?]
  cases tokens with
  | nil => exact .left (takeMany_one _) (agrees_nthLeaf info)
  | cons next rest =>
    by_cases hstep : (next :: rest).head?.any isStep = true
    · rw [if_pos hstep]
      simp only [List.head?_cons, Option.map_some, bind_assoc]
      rw [Agrees.isWord_right (.tail _ (.head _)),
        if_pos (show (decide (next.kind = .ident) && next.spells "n") = true from hstep)]
      refine .placed fun hplaced => ?_
      have hstart := hplaced.start_eq
      have hstop := hplaced.tail.stop_eq
      refine .left (takeMany_two _) (.take ?_)
      rw [Agrees.current?_right]
      refine .take ?_
      simp only [List.head?_cons, Option.map_some, Option.getD_some, Token.span_stop,
        Token.span_start]
      rw [Agrees.slice_read hstart hstop (List.append_assoc ..), String.ofList_append,
        String.ofList_toList, String.ofList_toList]
      exact .pure rfl
    · rw [if_neg hstep]
      simp only [List.head?_cons, Option.map_some, bind_assoc]
      rw [Agrees.isWord_right (.tail _ (.head _)),
        if_neg (show ¬ (decide (next.kind = .ident) && next.spells "n") = true from hstep),
        pure_bind]
      exact .left (takeMany_one _) (agrees_nthLeaf info)

theorem agrees_nth : Agrees p total before (token :: tokens) nth (Machine.nth p) p.Resolves := by
  unfold nth Machine.nth
  rw [Agrees.here_left, Agrees.current?_left]
  simp only [List.head?_cons, Option.map_some]
  by_cases hnumber : token.kind = .number
  · rw [if_pos hnumber, Agrees.expectAny_right (by simp [hnumber]), Agrees.info_right,
      Agrees.lookup?_left]
    rw [List.getElem?_cons_succ, ← List.head?_eq_getElem?]
    exact agrees_nthNumber (some token.start) hnumber
  · rw [if_neg hnumber]
    by_cases hident : token.kind = .ident
    · rw [if_pos hident, Agrees.expectAny_right (by simp [hident]), Agrees.info_right,
        Machine.nthHead, if_neg (show ¬ token.span.kind = _ from hnumber), bind_assoc,
        Agrees.spells_right (.head _), bind_assoc, Agrees.spells_right (.head _), bind_assoc,
        Agrees.spells_right (.head _)]
      cases token.spells "n" || token.spells "odd" || token.spells "even" with
      | true => exact agrees_nthLeaf (some token.start)
      | false =>
        refine .left (y := Parser.fail .unexpectedIdentifier >>= pure) (fun _ => rfl) ?_
        exact .failed rfl
    · rw [if_neg hident]
      refine .left (y := Parser.fail .expectedNth >>= pure) (fun _ => rfl)
        (.expectAny_failed rfl fun other hmem => ?_)
      obtain rfl := Option.some.inj hmem
      simp [hnumber, hident]

theorem agrees_nthRound (items : List Tree) :
    RoundAgrees p total before (token :: tokens) p.Collects items (nthPart token)
      (Machine.nthRound p (items.map p.tree) token.span) := by
  rw [nthPart, Machine.nthRound, Token.span_kind]
  cases token.kind with
  | rightParen => exact RoundAgrees.stop
  | whitespace | comment => exact RoundAgrees.skip
  | hyphenMinus | plus => exact RoundAgrees.add (agrees_tokenLeaf .operator)
  | _ => exact RoundAgrees.add agrees_nth

theorem agrees_nthParts : Agrees p total before tokens (many nthPart) (Machine.nthParts p [])
    fun nodes nodes' _ _ => nodes' = nodes.map p.tree :=
  agrees_many (Machine.repeatWhile_eq _) (fun _ => roundSettles_nthPart)
    (fun _ => agrees_nthRound _)
    (Nat.lt_succ_self _)

theorem agrees_nthSelector {next : Token} (hk : next.kind = .ident)
    (hword : next.spells "nth" = true) :
    Agrees p total before (token :: next :: tokens) nthSelector (Machine.nthSelector p)
      p.Resolves := by
  unfold nthSelector Machine.nthSelector
  rw [Agrees.here_left, Agrees.info_right]
  refine .expect fun colon rest htokens _ => ?_
  obtain rfl := (List.cons.inj htokens).2
  rw [Agrees.expectWord_right hk hword]
  refine (agrees_readIdent false).bind ?_
  rintro name _ w rest rfl
  refine .expect fun opening rest _ _ => agrees_nthParts.bind ?_
  rintro parts _ w' rest' rfl
  refine .expect fun closing rest _ _ => .pure ?_
  rw [Source.Resolves, Source.argument_map, Source.tree_sequence]
  rfl

theorem agrees_pseudoElement :
    Agrees p total before tokens pseudoElement (Machine.pseudoElement p) p.Resolves := by
  unfold pseudoElement Machine.pseudoElement
  rw [Agrees.here_left, Agrees.info_right]
  refine .expect fun _ _ _ _ => .expect fun _ _ _ _ => (agrees_readIdent false).bind ?_
  rintro name _ w rest rfl
  exact .pure rfl

theorem agrees_pseudoClass (hinner : NestedAgrees p total n inner) (hn : tokens.length < n + 1) :
    Agrees p total before tokens (pseudoClass inner) (Machine.pseudoClass p) p.Resolves := by
  rw [pseudoClass, Machine.pseudoClass, Agrees.here_left, Agrees.info_right]
  refine .expect fun colon rest htokens _ => ?_
  rw [htokens, List.length_cons] at hn
  rw [Agrees.here_left, Agrees.info_right]
  refine ((agrees_readIdent false).reads (settles_readName false) (Nat.lt_succ_self _)).bind ?_
  rintro name _ w rest' ⟨rfl, hlt⟩
  rw [Agrees.isAt_left, Agrees.isAt_right]
  exact .ite (fun _ => agrees_function hinner _ _ (by omega)) fun _ => .pure rfl

theorem agrees_pseudo (hinner : NestedAgrees p total n inner)
    (hn : (token :: tokens).length < n + 1) :
    Agrees p total before (token :: tokens) (pseudo inner) (Machine.pseudo p) p.Resolves := by
  rw [pseudo, Machine.pseudo, Agrees.lookup?_left, Agrees.lookup?_right, List.getElem?_cons_succ,
    ← List.head?_eq_getElem?]
  cases tokens with
  | nil => exact .advance .fail
  | cons next rest =>
    simp only [List.head?_cons, Option.map_some]
    refine .ite (fun _ => agrees_pseudoElement) fun _ => ?_
    rw [Agrees.isWord_right (.tail _ (.head _))]
    refine .ite (fun hnth => ?_) fun _ => agrees_pseudoClass hinner hn
    rw [Bool.and_eq_true, decide_eq_true_eq] at hnth
    exact agrees_nthSelector hnth.1 hnth.2

/-! ## Simple selectors -/

theorem Machine.simpleSelectorLoop_eq {nested : Bool}
    (st : List (Node SourceInfo) × Option (Node SourceInfo)) :
    Machine.simpleSelectorLoop p nested st =
      Machine.once (Machine.simpleSelectorRound p nested st)
        (Machine.simpleSelectorLoop p nested) st := by
  rw [simpleSelectorLoop]
  exact eq_once rfl (fun _ => rfl) (fun _ => rfl) fun _ _ => rfl

/-- The machine has collected the parts of a simple selector, and holds the combinator that
waits. -/
structure SelectorParts (p : Source) (parts : List Tree) (st : SelectorState)
    (st' : List (Node SourceInfo) × Option (Node SourceInfo)) (_ : List Token) : Prop where
  state : st' = (parts.map p.tree, st.pending.map p.tree)
  started : st.started = !parts.isEmpty

theorem any_isDescendant (node : Option Tree) :
    ((node.map p.tree).any fun node => !Machine.isDescendant node) = node.any
      fun node => !isDescendant node := by
  cases node with
  | none => rfl
  | some node => simp only [Option.map_some, Option.any_some, isDescendant_tree]

theorem agrees_compound (hinner : NestedAgrees p total n inner)
    (hn : (token :: tokens).length < n + 1) (kind : TokenKind) :
    Agrees p total before (token :: tokens) (selectorReader inner kind) (Machine.compound p kind)
      p.Resolves := by
  unfold selectorReader Machine.compound
  cases kind with
  | fullStop => exact agrees_classSelector
  | leftBracket => exact agrees_attributeSelector
  | numberSign => exact agrees_idSelector
  | colon => exact agrees_pseudo hinner hn
  | lowLine | ident | asterisk | verticalLine => exact agrees_namespacedIdentifier false
  | hyphenMinus | number => exact agrees_percentageOrName
  | _ => exact .fail

theorem agrees_simpleSelectorRound (hinner : NestedAgrees p total n inner)
    (hn : (token :: tokens).length < n + 1) (nested : Bool) {parts : List Tree} {st : SelectorState}
    {st' : List (Node SourceInfo) × Option (Node SourceInfo)}
    (hst : SelectorParts p parts st st' (token :: tokens)) :
    RoundAgrees p total before (token :: tokens) (SelectorParts p) parts
      (selectorPart inner nested st token)
      (Machine.simpleSelectorRound p nested st' token.span) := by
  obtain ⟨rfl, hstarted⟩ := hst
  have hpart : RoundAgrees p total before (token :: tokens) (SelectorParts p) parts
      (do
        return .next (st.pending.toList ++ [← selectorReader inner token.kind])
          { started := true })
      (do
        return some (parts.map p.tree ++ (st.pending.map p.tree).toList ++
          [← Machine.compound p token.kind], none)) :=
    .next (agrees_compound hinner hn token.kind) fun part _ _ _ hpart => by
      refine ⟨?_, by simp⟩
      rw [hpart]
      cases st.pending <;> simp
  have hcombinator : isJoint token.kind = true →
      RoundAgrees p total before (token :: tokens) (SelectorParts p) parts
      (do return .next [] { st with pending := some (← combinator token) })
      (do return some (parts.map p.tree, some (← Machine.combinator p))) := fun hk =>
    .next (agrees_combinator hk) fun node _ _ _ hnode => by
      refine ⟨?_, by simpa using hstarted⟩
      rw [hnode, List.append_nil]
      rfl
  have hskip : RoundAgrees p total before (token :: tokens) (SelectorParts p) parts
      (do advance; return .next [] st)
      (do Machine.advance; return some (parts.map p.tree, st.pending.map p.tree)) :=
        .advance ⟨rfl, hstarted⟩
  rw [selectorPart, Machine.simpleSelectorRound, Token.span_kind]
  cases hk : token.kind with
  | comma => exact RoundAgrees.stop
  | leftBrace => exact RoundAgrees.ite (fun _ => .fail) fun _ => .stop
  | rightParen => exact RoundAgrees.ite (fun _ => .stop) fun _ => .fail
  | comment => exact hskip
  | whitespace =>
    have hwaits : ((st.pending.map p.tree).isNone && !(parts.map p.tree).isEmpty) =
        (st.pending.isNone && st.started) := by
      rw [hstarted, List.isEmpty_map, Option.isNone_map]
    dsimp only
    rw [hwaits]
    exact RoundAgrees.ite (fun _ => hcombinator (by rw [hk]; rfl)) fun _ => hskip
  | plus | greaterThan | tilde | solidus =>
    dsimp only
    rw [any_isDescendant]
    exact RoundAgrees.ite (fun _ => .fail) fun _ => hcombinator (by rw [hk]; rfl)
  | _ =>
    -- What starts no part is refused by both.
    rw [hk] at hpart
    exact Agrees.left (fun _ => rfl) hpart

theorem agrees_simpleSelector (hinner : NestedAgrees p total n inner) (nested : Bool)
    (hn : tokens.length < n + 1) :
    Agrees p total before tokens (simpleSelector inner nested) (Machine.simpleSelector p nested)
      p.Resolves := by
  have hloop : Agrees p total before tokens (loop (selectorPart inner nested) {})
      (Machine.simpleSelectorLoop p nested ([], none))
      fun result st _ rest => SelectorParts p result.1 result.2 st rest :=
    agrees_loop Machine.simpleSelectorLoop_eq
      (fun state _ => roundSettles_selectorPart hinner.settles nested state)
      (fun hn hst => agrees_simpleSelectorRound hinner hn nested hst) ⟨rfl, rfl⟩ hn
  rw [simpleSelector, Machine.simpleSelector, Agrees.here_left, Agrees.info_right]
  refine hloop.bind ?_
  rintro ⟨parts, last⟩ _ w rest ⟨rfl, -⟩
  dsimp only
  rw [any_isDescendant]
  refine .ite (fun _ => .fail) fun _ => .pure ?_
  rw [Source.Resolves, Source.tree_sequence]

/-! ## Selector lists -/

/-- A loop whose first round goes on reads a token. -/
theorem settlesIf_loop {σ α : Type} {round : σ → Token → Parser (Round σ α)} {st : σ}
    {P : List Token → Prop}
    (hround : ∀ st token, RoundSettles n tokensLeft st token (round st token))
    (hgoes : ∀ tokens, P tokens → ∃ token ∈ tokens.head?, ∀ s s', round st token s ≠ .ok .stop s') :
    SettlesIf n P 1 (loop round st) where
  unstuck := (settles_loop (fun _ _ => Nat.le.refl) hround).unstuck
  reads := by
    intro s result s' hn hP h
    obtain ⟨token, hhead, hnever⟩ := hgoes s.rest hP
    have hhead : s.rest.head? = some token := hhead
    rw [loop, get_bind_run, loopUpTo, current?_bind_run, hhead] at h
    obtain ⟨next, s₁, hr, h⟩ := bind_eq_ok.1 h
    cases next with
    | stop => exact absurd hr (hnever _ _)
    | next items st₁ =>
      have hlt : s₁.rest.length < s.rest.length := (hround st token).lowers hn hhead hr
      obtain ⟨_, s₂, hloop, h⟩ := bind_eq_ok.1 h
      obtain ⟨-, rfl⟩ := EStateM.Result.ok.inj h
      have hle := (settles_loopUpTo hround).reads (hlt.trans hn) (P := fun _ => _) hlt hloop
      omega

/-- A simple selector is read where none ends. -/
theorem settlesIf_simpleSelector (hinner : NestedSettles n inner) (nested : Bool) :
    SettlesIf (n + 1) (fun tokens => ∃ token ∈ tokens.head?, ¬ EndsSelector nested token) 1
      (simpleSelector inner nested) := by
  refine .here fun info =>
    (settlesIf_loop (fun state _ => roundSettles_selectorPart hinner nested state) ?_).first
      fun result => .ite (fun _ => .fail (by decide)) fun _ => .pure
  rintro tokens ⟨token, hhead, hends⟩
  refine ⟨token, hhead, fun s s' h => ?_⟩
  cases selectorPart_eq_ok h with
  | ends hstop => exact hends hstop

theorem endsSelector_of_simpleSelector {s s' : ParserState} {tree : Tree} {nested : Bool}
    (h : simpleSelector inner nested s = .ok tree s') :
    ∀ token ∈ s'.rest.head?, EndsSelector nested token := by
  obtain ⟨nodes, last, hrounds, -⟩ := rounds_of_simpleSelector h
  exact endsSelector_of_rounds hrounds


/-- Where an entry of a selector list is due, the machine has collected the entries before it, and
knows whether one is missing or blank. -/
structure Entries (p : Source) (entries : List Tree) (st : Machine.Selectors) : Prop where
  malformed : st.malformed = entries.any fun entry => entry.children.isEmpty
  nodes : st.malformed = false → st.nodes = entries.map p.tree

/-- After an entry, the machine reads a comma or leaves the loop. -/
theorem agrees_selectors_after {entries : List Tree} {node : Tree} {x : Parser (List Tree × Bool)}
    {st : Machine.Selectors} (hst : Entries p (entries ++ [node]) st) (hdue : st.due = false)
    (hends : ∀ token ∈ tokens.head?, EndsSelector false token)
    {goal : List Tree × Bool → Machine.Selectors → Prop}
    (hgoal : goal (entries ++ [node], false) st)
    (hx : ∀ {before rest st}, rest.length < tokens.length → st.due = true →
      Entries p (entries ++ [node]) st →
      Agrees p total before rest x (Machine.selectors p st) fun result st _ _ =>
        goal (entries ++ [node] ++ result.1, result.2) st) :
    Agrees p total before tokens (do
        if ← isAt .comma then
          advance
          let (later, missing) ← x
          return (node :: later, missing)
        else return ([node], false)) (Machine.selectors p st)
      fun result st _ _ => goal (entries ++ result.1, result.2) st := by
  rw [Agrees.isAt_left, Machine.selectors, Machine.repeatWhile_eq]
  cases tokens with
  | nil => exact .right (fun c _ hc => Machine.run_once_nil hc) (.pure hgoal)
  | cons token rest =>
    refine .once fun start hstart => ?_
    rw [Machine.selectorRound]
    rcases hends token rfl with hk | hk
    · simp only [List.head?_cons, Option.map_some, hk, decide_true, if_true, Token.span_kind,
        bind_assoc, pure_bind]
      refine .advance ((Agrees.goOn_right hstart (Nat.lt_succ_self _)).2 ?_)
      refine (hx (Nat.lt_succ_self _) rfl ⟨?_, ?_⟩).map fun result st w rest h => ?_
      · rw [hdue, Bool.or_false, hst.malformed]
      · rw [hdue, Bool.or_false]
        exact hst.nodes
      · simpa using h
    · have hk : token.kind = .leftBrace := hk
      simp only [List.head?_cons, Option.map_some, hk, Option.some.injEq, reduceCtorEq,
        decide_false, Token.span_kind, Bool.false_eq_true, if_false, pure_bind]
      exact .pure hgoal


theorem Machine.selectorRound_entry {st : Machine.Selectors} (h : ¬ EndsSelector false token) :
    Machine.selectorRound p st token.span = (do
      let node ← Machine.simpleSelector p false
      return some
        { nodes := st.nodes ++ [node],
          malformed := st.malformed || !st.due || node.children.isEmpty, due := false }) := by
  rw [EndsSelector, not_or] at h
  rw [selectorRound, Token.span_kind]
  cases hk : token.kind <;> first | rfl | exact absurd hk h.1 | exact absurd hk h.2

theorem isEmpty_children_tree (node : Tree) :
    (p.tree node).children.isEmpty = node.children.isEmpty := by
  rw [Source.tree, Node.children_mapInfo, List.isEmpty_map]

/-- What is known once a selector list is read: whether it is discarded, and its entries if it is
not. -/
def Listed (p : Source) (result : List Tree × Bool) (st : Machine.Selectors) : Prop :=
  (st.due || st.malformed) = (result.2 || result.1.any fun entry => entry.children.isEmpty) ∧
    ((st.due || st.malformed) = false → st.nodes = result.1.map p.tree)

/-- No entry stands before a comma. The reader reads an empty one there, the machine makes a note of
it. -/
theorem agrees_selectors_comma {entries : List Tree} {x : Parser (List Tree × Bool)}
    {st : Machine.Selectors} (hdue : st.due = true) (hk : token.kind = .comma)
    {goal : List Tree × Bool → Machine.Selectors → Prop}
    (hx : ∀ {before rest entries st}, rest.length < (token :: tokens).length → st.due = true →
      Entries p entries st →
      Agrees p total before rest x (Machine.selectors p st)
        fun result st _ _ => goal (entries ++ result.1, result.2) st) :
    Agrees p total before (token :: tokens) (do
        let node ← simpleSelector inner false
        if ← isAt .comma then
          advance
          let (later, missing) ← x
          return (node :: later, missing)
        else return ([node], false)) (Machine.selectors p st)
      fun result st _ _ => goal (entries ++ result.1, result.2) st := by
  let blank : Tree := .sequence (some token.start) .simpleSelector []
  refine .left (y := do
    advance
    let (later, missing) ← x
    return (blank :: later, missing)) (fun discarded => ?_) ?_
  · rw [bind_of_ok (simpleSelector_of_ends rfl (.inl hk)), isAt_bind_run]
    simp [hk, blank]
  rw [Machine.selectors, Machine.repeatWhile_eq]
  refine .once fun start hstart => ?_
  simp only [Machine.selectorRound, Token.span_kind, hk, bind_assoc, pure_bind, hdue, Bool.or_true]
  refine .advance ((Agrees.goOn_right hstart (Nat.lt_succ_self _)).2 ?_)
  have hblank : Entries p (entries ++ [blank]) { st with malformed := true, due := true } :=
    ⟨by simp [blank, Node.children], fun h => absurd h (by simp)⟩
  refine (hx (Nat.lt_succ_self _) rfl hblank).map fun result st w rest h => ?_
  rwa [List.append_assoc] at h

/-- The machine reads a comma as a round of its own, and no entry before a comma. -/
theorem agrees_selectors (hinner : NestedAgrees p total n inner) (hn : tokens.length < n + 1) :
    Agrees p total before tokens (separated (fun token => token.kind = .leftBrace)
      (simpleSelector inner false) (pure ()))
      (Machine.selectors p {}) fun result st _ _ => Listed p result st := by
  refine agrees_separated (fun entries _ st => st.due = true ∧ Entries p entries st) ?_
    ⟨rfl, rfl, fun _ => rfl⟩ hn
  rintro before tokens entries st x hn ⟨hdue, hst⟩ hx
  have hmissing : Listed p (entries ++ [], true) st := by
    constructor <;> simp [hdue]
  rw [separatedFrom, Agrees.current?_left]
  cases tokens with
  | nil =>
    rw [Machine.selectors, Machine.repeatWhile_eq]
    exact .right (fun c _ hc => Machine.run_once_nil hc) (.pure hmissing)
  | cons token rest =>
    by_cases hbrace : token.kind = .leftBrace
    · rw [Machine.selectors, Machine.repeatWhile_eq]
      refine .once fun start hstart => ?_
      simp only [List.head?_cons, hbrace, decide_true, if_true, Machine.selectorRound,
        Token.span_kind, pure_bind]
      exact .pure hmissing
    · simp only [List.head?_cons, hbrace, decide_false, Bool.false_eq_true, if_false]
      by_cases hcomma : token.kind = .comma
      · exact agrees_selectors_comma hdue hcomma fun hlt hdue hst => hx hlt ⟨hdue, hst⟩
      · have hends : ¬ EndsSelector false token := not_or.2 ⟨hcomma, hbrace⟩
        have hread : Agrees p total before (token :: rest) (simpleSelector inner false)
            (Machine.simpleSelector p false) p.Resolves := agrees_simpleSelector hinner false hn
        have hentry :=
          (hread.settled (settlesIf_simpleSelector hinner.settles false) hn ⟨token, rfl, hends⟩).run
        rw [Machine.selectors, Machine.repeatWhile_eq]
        refine .once fun start hstart => ?_
        rw [Machine.selectorRound_entry hends, bind_assoc]
        refine hentry.bind ?_
        rintro node _ w rest' ⟨⟨rfl, hlt⟩, discarded, discarded', hrun⟩
        simp only [pure_bind]
        refine (Agrees.goOn_right hstart hlt).2 ?_
        have hentries : Entries p (entries ++ [node])
            { nodes := st.nodes ++ [p.tree node],
              malformed := st.malformed || !st.due || (p.tree node).children.isEmpty,
                due := false } := by
          refine ⟨?_, fun h => ?_⟩
          · rw [hdue, hst.malformed, isEmpty_children_tree]
            simp
          · have h : st.malformed = false := by
              rw [Bool.or_eq_false_iff, Bool.or_eq_false_iff] at h
              exact h.1.1
            simp [hst.nodes h]
        refine agrees_selectors_after hentries rfl (endsSelector_of_simpleSelector hrun)
          ⟨?_, hentries.nodes⟩
          fun hrest hdue hst => hx (hrest.trans hlt) ⟨hdue, hst⟩
        exact (Bool.false_or _).trans (hentries.malformed.trans (Bool.false_or _).symm)

theorem agrees_selector (hinner : NestedAgrees p total n inner) (hn : tokens.length < n + 1) :
    Agrees p total before tokens (selector inner) (Machine.selector p) p.Resolves := by
  rw [selector, Machine.selector, Agrees.here_left, Agrees.info_right]
  refine (agrees_selectors hinner hn).bind ?_
  rintro ⟨entries, missing⟩ st w rest ⟨hflag, hnodes⟩
  dsimp only at hflag hnodes ⊢
  cases hdiscard : st.due || st.malformed with
  | true =>
    rw [if_pos (hflag.symm.trans hdiscard), if_pos rfl]
    exact fun hplaced _ _ hc => Answers.stay hplaced hc rfl
  | false =>
    rw [if_neg (by rw [← hflag, hdiscard]; decide), if_neg (by decide)]
    refine .pure ?_
    rw [Source.Resolves, Source.tree_sequence, hnodes hdiscard]

/-! ## Nesting -/

theorem nestedAgrees_upTo (depth : Nat) : NestedAgrees p total depth (.upTo depth) := by
  induction depth with
  | zero => exact {
      settles := nestedSettles_upTo 0
      component := fun _ h => absurd h (Nat.not_lt_zero _)
      brackets := fun _ h => absurd h (Nat.not_lt_zero _)
      fallback := fun h => absurd h (Nat.not_lt_zero _)
      negated := fun h => absurd h (Nat.not_lt_zero _)
      entered := ⟨fun h => absurd h (Nat.not_lt_zero _), fun h => absurd h (Nat.not_lt_zero _)⟩
      left := fun h => (fail_ne_ok.1 h).elim }
  | succ depth ih => exact {
      settles := nestedSettles_upTo (depth + 1)
      component := fun _ hn => agrees_component ih hn
      brackets := fun _ hn => agrees_brackets ih hn
      fallback := fun hn => agrees_value ih true hn
      negated := fun hn => agrees_simpleSelector ih true hn
      entered := settlesIf_simpleSelector ih.settles true
      left := endsSelector_of_simpleSelector }

end StyleTree
