import StyleTree.Proofs.Checked.Agreement
import StyleTree.Proofs.Grammar.Pseudo

/-! The machine reads components as the grammar does: names, numbers, functions, brackets and
values, if it reads what stands one bracket deeper (`NestedAgrees`). -/

namespace StyleTree

open StyleTree.Parser StyleTree.Grammar

variable {p : Source} {total : Nat} {before : List Char} {tokens : List Token} {token : Token}

/-! ## Trees -/

namespace Source

@[simp] theorem tree_leaf (info : Option Nat) (kind : LeafKind) (text : String) :
    p.tree (.leaf info kind text) = .leaf (info.bind p.info) kind text := rfl

@[simp] theorem tree_sequence (info : Option Nat) (kind : SequenceKind) (nodes : List Tree) :
    p.tree (.sequence info kind nodes) = .sequence (info.bind p.info) kind (nodes.map p.tree) := by
  rw [tree, Node.mapInfo, Node.mapInfoAll_eq_map]

theorem isSpace_tree (node : Tree) : (p.tree node).isSpace = node.isSpace := by
  cases node <;> rfl

theorem trimSpaces_map (nodes : List Tree) :
    Machine.trimSpaces (nodes.map p.tree) = (dropTrailingSpaces nodes).map p.tree := by
  have hspace : Node.isSpace ∘ p.tree = Node.isSpace := funext isSpace_tree
  rw [Machine.trimSpaces, dropTrailingSpaces, List.map_reverse, ← List.map_reverse (l := nodes),
    List.dropWhile_map, hspace]

theorem argument_map (nodes : List Tree) :
    Machine.argument (nodes.map p.tree) = p.tree (argument nodes) :=
  (tree_sequence none .argument nodes).symm

end Source

/-! ## Names -/

theorem exists_cons_of_kind {kind : TokenKind} (h : tokens.head?.map Token.kind = some kind) :
    ∃ token rest, tokens = token :: rest ∧ token.kind = kind := by
  cases tokens with
  | nil => cases h
  | cons token rest => exact ⟨token, rest, rfl, Option.some.inj h⟩

theorem isNamePart_eq (token : Token) : isNamePart token = Machine.isNameKind token.kind := rfl

theorem agrees_stemEnd (hyphens : String) :
    Agrees p total before tokens (nameAfter hyphens) (Machine.stemEnd p)
    fun name stop w _ =>
      name.toList = hyphens.toList ++ w ∧ stop = Text.byteLength (before ++ w) := by
  have hname : ∀ {first : Token} {rest : List Token}, first.kind ∈ [TokenKind.lowLine, .ident] →
      Agrees p total before (first :: rest)
        (do
          let first ← take
          let rest ← Parser.takeWhile isNamePart
          return hyphens ++ first ++ rest) (Machine.stemEnd p)
        fun name stop w _ =>
          name.toList = hyphens.toList ++ w ∧ stop = Text.byteLength (before ++ w) := by
    intro first rest hk
    rw [Machine.stemEnd, Agrees.expectAny_right hk]
    refine .placed fun hplaced => .take ?_
    refine (Agrees.endWhile isNamePart_eq hplaced.stop_eq).map fun text stop w rest h => ⟨?_, ?_⟩
    · rw [String.toList_append, String.toList_append, h.1, List.append_assoc]
    · rw [h.2, List.append_assoc]
  rw [nameAfter, Agrees.kind?_left]
  split
  next h =>
    obtain ⟨first, rest, rfl, hk⟩ := exists_cons_of_kind h
    exact hname (by simp [hk])
  next h =>
    obtain ⟨first, rest, rfl, hk⟩ := exists_cons_of_kind h
    exact hname (by simp [hk])
  next hlow hident =>
    refine .left (y := Parser.fail (.expected .ident) >>= pure) (fun _ => rfl)
      (.expectAny_failed rfl ?_)
    intro token htoken
    rw [Option.mem_def.1 htoken] at hlow hident
    simp_all

/-- The machine steps over the name that the reader yields. -/
theorem agrees_identEnd (custom : Bool) :
    Agrees p total before tokens (readName custom) (Machine.identEnd p custom) (Spans before) := by
  have hstem : ∀ (hyphens : String) (rest : List Token),
      Agrees p total (before ++ hyphens.toList) rest (nameAfter hyphens) (Machine.stemEnd p)
        fun text stop w => Spans before text stop (hyphens.toList ++ w) := by
    intro hyphens rest
    refine (agrees_stemEnd hyphens).imp fun name stop w _ h => ⟨h.1, ?_⟩
    rw [h.2, List.append_assoc]
  have hname : readName custom = (takeIf .hyphenMinus >>= fun hyphen =>
      if custom && hyphen ≠ "" then takeIf .hyphenMinus >>= fun second =>
        nameAfter (hyphen ++ second)
      else pure "" >>= fun second => nameAfter (hyphen ++ second)) := rfl
  rw [hname, Machine.identEnd, Machine.hyphens, bind_assoc, Agrees.isAt_right]
  by_cases hsign : tokens.head?.map Token.kind = some .hyphenMinus
  · obtain ⟨first, rest, rfl, hk⟩ := exists_cons_of_kind hsign
    refine .placed fun hplaced => ?_
    have hne : first.text ≠ "" := by simpa using hplaced.tiles.of_cons.2.1
    rw [Agrees.takeIf_yes hk]
    simp only [List.head?_cons, Option.map_some, hk, decide_true, if_true, bind_assoc]
    refine .take ?_
    rw [Agrees.isAt_right]
    cases custom with
    | false =>
      simpa using hstem (first.text ++ "") rest
    | true =>
      simp only [hne, ne_eq, not_false_eq_true, decide_true, Bool.and_self, if_true, Bool.true_and]
      by_cases hsecond : rest.head?.map Token.kind = some .hyphenMinus
      · obtain ⟨second, rest, rfl, hk'⟩ := exists_cons_of_kind hsecond
        rw [Agrees.takeIf_yes hk']
        simp only [List.head?_cons, Option.map_some, hk', decide_true, if_true]
        refine .take ?_
        simpa using hstem (first.text ++ second.text) rest
      · rw [Agrees.takeIf_no hsecond]
        simp only [hsecond, decide_false, Bool.false_eq_true, if_false, pure_bind]
        simpa using hstem (first.text ++ "") rest
  · rw [Agrees.takeIf_no hsign]
    simp only [hsign, decide_false, Bool.false_eq_true, if_false, ne_eq, not_true_eq_false,
      Bool.and_false, pure_bind]
    simpa using hstem "" tokens

/-- The machine cuts out the name that the reader yields. -/
theorem agrees_readIdent (custom : Bool) :
    Agrees p total before tokens (readName custom) (Machine.readIdent p custom) Same := by
  rw [Machine.readIdent, Agrees.offset_right]
  refine (agrees_identEnd custom).andThen fun name stop w rest h => ?_
  rw [← bind_pure (Machine.slice _ _ _), Agrees.slice_right rfl h.2 rfl]
  exact .pure (by rw [Same, ← h.1, String.ofList_toList])

theorem agrees_identifier (custom : Bool) :
    Agrees p total before tokens (identifier custom) (Machine.identifier p custom) p.Resolves := by
  rw [identifier, Machine.identifier, Agrees.here_left, Agrees.info_right]
  refine (agrees_readIdent custom).bind ?_
  rintro name _ w rest rfl
  exact .pure rfl

/-! ### Names with a namespace -/

section
variable {front w : List Char} {base : String} {info : Option Nat}

/-- The machine cuts out a name once it has found its end. -/
theorem agrees_colonEnd (colon : Bool) (hbefore : before = front ++ w) (hbase : base.toList = w) :
    Agrees p total before tokens (nameEnd info base colon) (do
      let stop ← Machine.colonEnd p (Text.byteLength before) colon
      return .leaf (info.bind p.info) .identifier (← Machine.slice p (Text.byteLength front) stop))
        p.Resolves := by
  rw [nameEnd, Machine.colonEnd, bind_assoc, Agrees.isAt_left, Agrees.isAt_right]
  by_cases hsign : (colon && decide (tokens.head?.map Token.kind = some .colon)) = true
  · rw [if_pos hsign, if_pos hsign]
    rw [Bool.and_eq_true, decide_eq_true_eq] at hsign
    obtain ⟨sign, rest, rfl, -⟩ := exists_cons_of_kind hsign.2
    rw [bind_assoc]
    refine .take ((agrees_identEnd false).bind ?_)
    rintro name stop w' rest' ⟨hname, hstop⟩
    have hread : before ++ sign.text.toList ++ w' = front ++ (w ++ sign.text.toList ++ w') := by
      rw [hbefore]; simp
    rw [Agrees.slice_read rfl hstop hread]
    refine .pure ?_
    have htext : base ++ (sign.text ++ name) = String.ofList (w ++ sign.text.toList ++ w') := by
      rw [← hbase, ← hname]
      simp
    rw [htext]
    rfl
  · rw [if_neg hsign, if_neg hsign, pure_bind, Agrees.slice_read rfl rfl hbefore]
    refine .pure ?_
    rw [String.append_empty, ← hbase, String.ofList_toList]
    rfl

/-- The machine goes on to the end of a name from a place behind its namespace. -/
abbrev Machine.nameLeaf (p : Source) (info : Option Nat) (start : Nat) (ending : Nat × Bool) :
    Action (Node SourceInfo) := do
  let stop ← colonEnd p ending.1 ending.2
  return .leaf (info.bind p.info) .identifier (← slice p start stop)

theorem agrees_localEnd (colon : Bool) {bar : String} (hbefore : before = front ++ w)
    (hbase : (base ++ bar).toList = w) :
    Agrees p total before tokens (nameAfterBar info colon base bar)
      (Machine.localEnd p (Text.byteLength before) colon >>= Machine.nameLeaf p info
        (Text.byteLength front))
      p.Resolves := by
  have hbase : base.toList ++ bar.toList = w := by rwa [String.toList_append] at hbase
  have hname :
      ∀ {first : Token} {rest : List Token},
        first.kind ∈ [TokenKind.hyphenMinus, .ident, .lowLine] →
      Agrees p total before (first :: rest)
        (readName false >>= fun name => nameEnd info (base ++ (bar ++ name)) colon)
        (Machine.localEnd p (Text.byteLength before) colon >>= Machine.nameLeaf p info
          (Text.byteLength front))
        p.Resolves := by
    intro first rest hk
    rw [Machine.localEnd, bind_assoc, Agrees.current?_right]
    simp only [List.head?_cons, Option.map_some]
    rw [if_pos (show first.span.kind ∈ _ from hk), bind_assoc]
    refine (agrees_identEnd false).bind ?_
    rintro name stop w' rest' ⟨hname, hstop⟩
    rw [pure_bind, hstop]
    exact agrees_colonEnd colon
      (show before ++ w' = front ++ (w ++ w') by rw [hbefore, List.append_assoc])
      (by rw [String.toList_append, String.toList_append, hname, ← hbase, List.append_assoc])
  rw [nameAfterBar, Agrees.kind?_left]
  split
  next h =>
    obtain ⟨first, rest, rfl, hk⟩ := exists_cons_of_kind h
    exact hname (by simp [hk])
  next h =>
    obtain ⟨first, rest, rfl, hk⟩ := exists_cons_of_kind h
    exact hname (by simp [hk])
  next h =>
    obtain ⟨first, rest, rfl, hk⟩ := exists_cons_of_kind h
    exact hname (by simp [hk])
  next h =>
    obtain ⟨first, rest, rfl, hk⟩ := exists_cons_of_kind h
    refine .placed fun hplaced => ?_
    rw [Machine.localEnd, bind_assoc, Agrees.current?_right]
    simp only [List.head?_cons, Option.map_some]
    rw [if_neg (show first.span.kind ∉ _ by simp [hk]), if_pos (show first.span.kind = _ from hk),
      bind_assoc]
    refine .take ?_
    rw [pure_bind, Token.span_stop, hplaced.stop_eq]
    exact agrees_colonEnd false
      (show before ++ first.text.toList = front ++ (w ++ first.text.toList) by rw [hbefore,
        List.append_assoc])
          (by rw [String.toList_append, String.toList_append, ← hbase, List.append_assoc])
  next hhyphen hident hlow hasterisk =>
    have hend : Agrees p total before tokens (nameEnd info (base ++ bar) colon)
        (Machine.nameLeaf p info (Text.byteLength front) (Text.byteLength before, colon))
          p.Resolves :=
      agrees_colonEnd colon hbefore (by rw [String.toList_append, hbase])
    rw [Machine.localEnd, bind_assoc, Agrees.current?_right]
    cases tokens with
    | nil => exact hend
    | cons first rest =>
      simp only [List.head?_cons, Option.map_some,
        Option.some.injEq] at hhyphen hident hlow hasterisk ⊢
      rw [if_neg (show first.span.kind ∉ _ by simp_all),
        if_neg (show ¬ first.span.kind = _ from hasterisk)]
      exact hend

theorem agrees_barEnd (colon : Bool) (hbefore : before = front ++ w) (hbase : base.toList = w) :
    Agrees p total before tokens (nameFrom info colon base)
      (Machine.barEnd p (Text.byteLength before) colon >>= Machine.nameLeaf p info
        (Text.byteLength front))
      p.Resolves := by
  rw [nameFrom, Machine.barEnd, bind_assoc, Agrees.isAt_left, Agrees.isAt_right,
    Agrees.lookupKind_left, bind_assoc, Agrees.lookupKind_right]
  by_cases hbar : (decide (tokens.head?.map Token.kind = some .verticalLine) &&
      !decide (tokens[1]?.map Token.kind = some .equals)) = true
  · rw [if_pos hbar, if_pos hbar]
    rw [Bool.and_eq_true, decide_eq_true_eq] at hbar
    obtain ⟨bar, rest, rfl, hk⟩ := exists_cons_of_kind hbar.1
    refine .placed fun hplaced => ?_
    have htext : bar.text.toList = ['|'] :=
      (hplaced.spelled bar (.head _)).sign '|' (by rw [hk]; rfl)
    have hstop : Text.byteLength before + 1 = Text.byteLength (before ++ bar.text.toList) := by
      rw [htext, Text.byteLength_append]
      rfl
    rw [bind_assoc, Agrees.offset_right, hstop, bind_assoc, Agrees.size_right hplaced.tail.size_lt,
      bind_assoc]
    exact .take (agrees_localEnd colon
      (show before ++ bar.text.toList = front ++ (w ++ bar.text.toList) by rw [hbefore,
        List.append_assoc])
      (by rw [String.toList_append, hbase]))
  · rw [if_neg hbar, if_neg hbar, pure_bind]
    exact agrees_colonEnd colon hbefore (by rw [String.append_empty, hbase])

end

theorem agrees_namespacedIdentifier (colon : Bool) :
    Agrees p total before tokens (qualifiedName colon) (Machine.namespacedIdentifier p colon)
      p.Resolves := by
  rw [Machine.namespacedIdentifier, Agrees.current?_right]
  cases tokens with
  | nil => exact .left (y := Parser.fail .unexpectedEnd) (fun _ => rfl) .fail
  | cons first rest =>
    refine (Agrees.left_iff fun discarded => qualifiedName_eq colon rfl).2
      (.placed fun hplaced => ?_)
    have hstart := hplaced.start_eq
    have hname : ∀ {w : List Char} {tokens : List Token} {base : String}, base.toList = w →
        Agrees p total (before ++ w) tokens
          (nameFrom (some first.start) (colon && first.kind ≠ .asterisk) base)
          (Machine.barEnd p (Text.byteLength (before ++ w)) (colon && first.kind ≠ .asterisk) >>=
            Machine.nameLeaf p (some first.start) first.start) p.Resolves := by
      intro w tokens base hbase
      rw [hstart]
      exact agrees_barEnd _ rfl hbase
    simp only [List.head?_cons, Option.map_some]
    rw [Agrees.info_right, Machine.namespaceEnd, Token.span_start, Token.span_stop, hplaced.stop_eq]
    by_cases hasterisk : first.kind = .asterisk
    · rw [if_pos hasterisk, if_pos (show first.span.kind = _ from hasterisk), bind_assoc]
      refine .take ?_
      rw [pure_bind]
      exact hname rfl
    · rw [if_neg hasterisk, if_neg (show ¬ first.span.kind = _ from hasterisk), bind_assoc,
        Agrees.lookupKind_right, List.getElem?_cons_succ, ← List.head?_eq_getElem?]
      by_cases hbar : (decide (first.kind = .verticalLine) &&
          !decide (rest.head?.map Token.kind = some .equals)) = true
      · rw [if_pos hbar, if_pos (show (decide (first.span.kind = _) && _) = true from hbar),
          pure_bind]
        have hempty := @hname [] (first :: rest) "" rfl
        rw [List.append_nil, ← hstart] at hempty
        exact hempty
      · rw [if_neg hbar, if_neg (show ¬ (decide (first.span.kind = _) && _) = true from hbar)]
        refine (agrees_identEnd false).bind ?_
        rintro name stop w rest' ⟨hname', rfl⟩
        exact hname hname'

/-! ## Numbers -/

namespace Machine

variable {c : Machine} {k : Nat}

theorem run_countAt (h : c.Stands total tokens) (k : Nat) (kind : TokenKind) :
    countAt k kind c = some (.ok (countIf kind (tokens.drop k), c)) := by
  rw [countAt, run_bind, run_lookupKind h, countIf, List.head?_drop]
  by_cases hk : tokens[k]?.map Token.kind = some kind <;> simp [hk]

theorem run_numberLen (h : c.Stands total tokens) :
    numberLen c = some (.ok (numberLength? tokens, c)) := by
  have hlength : ∀ sign whole point fraction : Nat,
      (if whole = 0 ∧ fraction = 0 then none else some (sign + whole + point + fraction)) =
        if (decide (sign = sign + whole) && decide
          (sign + whole + point = sign + whole + point + fraction)) = true
        then none else some (sign + whole + point + fraction) := by
    intro sign whole point fraction
    simp only [Bool.and_eq_true, decide_eq_true_eq]
    exact if_congr (by omega) rfl rfl
  simp only [numberLen, run_bind, run_countAt h, List.drop_zero, run_pure, hlength]
  rfl

end Machine

theorem agrees_endAfter {count stop : Nat} (hstop : stop = Text.byteLength before)
    (hle : count ≤ tokens.length) :
    Agrees p total before tokens (takeMany count) (Machine.endAfter count stop) (Spans before) := by
  induction count generalizing before tokens stop with
  | zero =>
    exact .left (y := pure "") (fun _ => rfl) (.pure ⟨rfl, by rw [List.append_nil]; exact hstop⟩)
  | succ count ih =>
    cases tokens with
    | nil => cases hle
    | cons token tokens =>
      refine .left (run_takeMany_succ count) (.placed fun hplaced => ?_)
      rw [Machine.endAfter, Agrees.current?_right]
      refine .take ((ih ?_ (Nat.le_of_succ_le_succ hle)).map fun text stop w rest h => ⟨?_, ?_⟩)
      · exact hplaced.stop_eq
      · rw [String.toList_append, h.1]
      · rw [h.2, List.append_assoc]

/-- The machine reads a number where the reader does, and remembers where it stands. -/
theorem agrees_numeric :
    Agrees p total before tokens readNumber? (Machine.numeric p) fun number result _ rest =>
    result = number.map (fun number => ((tokens.head?.map Token.start).bind p.info, number)) ∧
      rest.length ≤ tokens.length := by
  rw [Machine.numeric, Agrees.right_iff fun c _ hc => Machine.run_numberLen hc]
  refine .left (y := (numberLength? tokens).elim (pure none) fun count =>
    takeMany count >>= fun text => pure (some text)) (fun s => ?_) ?_
  · rw [readNumber?, get_bind_run]
    dsimp only
    cases numberLength? tokens <;> rfl
  cases hcount : numberLength? tokens with
  | none => exact .pure ⟨rfl, Nat.le.refl⟩
  | some count =>
    dsimp only
    rw [Agrees.info_right, Agrees.offset_right]
    refine ((agrees_endAfter rfl (numberLength?_le hcount)).reads (settles_takeMany count)
      (Nat.lt_succ_self _)).bind ?_
    rintro text stop w rest ⟨⟨htext, hstop⟩, hle⟩
    rw [Agrees.slice_right rfl hstop rfl, ← htext, String.ofList_toList]
    exact .pure ⟨rfl, hle⟩

/-! ## Other small parts -/

theorem agrees_tokenLeaf (kind : LeafKind) :
    Agrees p total before (token :: tokens) (tokenLeaf kind) (Machine.tokenLeaf p kind)
      p.Resolves := by
  rw [tokenLeaf, Machine.tokenLeaf, Agrees.here_left, Agrees.info_right, Agrees.currentText_right]
  exact .take (.pure rfl)

theorem agrees_space : Agrees p total before (token :: tokens) space Machine.space p.Resolves :=
  .advance (.pure rfl)

theorem agrees_hash : Agrees p total before tokens Grammar.hash (Machine.hash p) p.Resolves := by
  unfold Grammar.hash Machine.hash
  rw [Agrees.here_left, Agrees.info_right]
  refine .expect fun sign rest _ _ => ?_
  rw [Agrees.kind?_left]
  split
  next h =>
    obtain ⟨digits, rest, rfl, hk⟩ := exists_cons_of_kind h
    refine .placed fun hplaced => ?_
    have hstart := hplaced.start_eq
    rw [Agrees.expectAny_right (by simp [hk]), Machine.hashEnd, bind_assoc, Agrees.lookupKind_right,
      List.getElem?_cons_succ, ← List.head?_eq_getElem?]
    simp only [Token.span_kind, Token.span_start, Token.span_stop, hk, decide_true, Bool.true_and,
      decide_eq_true_eq]
    by_cases hname : rest.head?.map Token.kind = some .ident
    · obtain ⟨name, rest, rfl, hk'⟩ := exists_cons_of_kind hname
      rw [if_pos hname, bind_assoc]
      refine .take (.placed fun hplaced' => ?_)
      have hstop := hplaced'.stop_eq
      rw [Agrees.takeIf_yes hk', bind_assoc, Agrees.current?_right, pure_bind]
      refine .take ?_
      simp only [List.head?_cons, Option.map_some, Option.getD_some, Token.span_stop]
      rw [Agrees.slice_read hstart hstop (List.append_assoc ..), String.ofList_append,
        String.ofList_toList, String.ofList_toList]
      exact .pure rfl
    · rw [if_neg hname, pure_bind]
      refine .take ?_
      rw [Agrees.takeIf_no hname, Agrees.slice_right hstart hplaced.stop_eq rfl,
        String.append_empty, String.ofList_toList]
      exact .pure rfl
  next h =>
    obtain ⟨name, rest, rfl, hk⟩ := exists_cons_of_kind h
    refine .placed fun hplaced => ?_
    have hstart := hplaced.start_eq
    rw [Agrees.expectAny_right (by simp [hk]), Machine.hashEnd, bind_assoc, Agrees.lookupKind_right]
    simp only [Token.span_kind, Token.span_start, Token.span_stop, hk, reduceCtorEq, decide_false,
      Bool.false_and, Bool.false_eq_true, if_false, pure_bind]
    refine .take ?_
    rw [Agrees.slice_right hstart hplaced.stop_eq rfl, String.ofList_toList]
    exact .pure rfl
  next hnumber hident =>
    refine .left (y := Parser.fail .expectedNumberOrIdentifier >>= pure) (fun _ => rfl)
      (.expectAny_failed rfl ?_)
    intro token htoken
    rw [Option.mem_def.1 htoken] at hnumber hident
    simp_all

/-! ## Dimensions -/

/-- The machine cuts the token it stands at. -/
theorem Machine.run_detach {c : Machine} {unit escape : List Char}
    (hplaced : Placed p before (token :: tokens)) (h : c.Stands total (token :: tokens))
    (htext : token.text.toList = unit ++ escape) (hescape : escape ≠ []) :
    detach p (token.start + Text.byteLength unit) c = some (.ok (String.ofList unit,
      { c with tokens := c.tokens.set c.position (token.behind unit escape).span })) := by
  have hstop : token.stop = token.start + Text.byteLength unit + Text.byteLength escape := by
    rw [Token.stop, htext, Text.byteLength_append, Nat.add_assoc]
  have hlt : token.start + Text.byteLength unit < token.stop := by
    have := Text.byteLength_pos hescape
    omega
  have hspan : (token.behind unit escape).span =
      { token.span with start := token.start + Text.byteLength unit } := by
    simp only [Token.span, Token.behind, Token.stop, String.toList_ofList, htext,
      Text.byteLength_append, Nat.add_assoc]
  have hsource : p.text.toList = before ++ unit ++ (escape ++ tokenChars tokens) := by
    rw [hplaced.text, tokenChars_cons, htext, List.append_assoc, List.append_assoc]
  have hslice :=
    run_slice (s := { c with tokens := c.tokens.set c.position (token.behind unit escape).span })
      hsource
  rw [Text.byteLength_append, ← hplaced.start_eq] at hslice
  rw [detach, run_bind, run_current? h]
  simp only [List.head?_cons, Option.map_some]
  rw [if_pos
    (show token.span.start ≤ token.start + _ ∧ _ < token.span.stop from ⟨Nat.le_add_right .., hlt⟩),
    ← hspan]
  exact hslice

theorem agrees_unit (hk : token.kind = .ident) :
    Agrees p total before (token :: tokens) (readUnit token) (Machine.unit p) Same := by
  rw [readUnit, Machine.unit, Agrees.current?_right]
  simp only [List.head?_cons, Option.map_some]
  rw [if_pos (show token.span.kind = _ from hk), Agrees.text_right (.head _), Token.span_start]
  have hparts : ∀ parts, token.text.toList.span (· ≠ '\\') = parts →
      token.text.toList = parts.1 ++ parts.2 := by
    rintro _ rfl
    rw [List.span_eq_takeWhile_dropWhile, List.takeWhile_append_dropWhile]
  generalize token.text.toList.span (· ≠ '\\') = parts at hparts ⊢
  obtain ⟨unit, escape⟩ := parts
  have htext := hparts _ rfl
  dsimp only at htext ⊢
  split
  next =>
    rw [← bind_pure take]
    exact .take (.pure rfl)
  next hempty =>
    have hescape : escape ≠ [] := by
      rintro rfl
      simp at hempty
    intro hplaced c discarded hc
    have hcut := hplaced.cut hk htext hescape
    have hlt : token.start + Text.byteLength unit < 2 ^ 32 := by
      have := hcut.size_lt
      rwa [Text.byteLength_append, ← hplaced.start_eq] at this
    rw [Machine.run_bind, Machine.run_size hlt]
    dsimp only
    rw [Machine.run_detach hplaced hc htext hescape]
    exact Answers.ok hcut (hc.set _) rfl

theorem agrees_measured (info : Option Nat) (number : String) :
    Agrees p total before tokens (measured info number)
      (Machine.measured p (info.bind p.info) number)
      p.Resolves := by
  rw [measured, Machine.measured, Agrees.current?_left, Agrees.kind?_right]
  cases tokens with
  | nil => exact .pure rfl
  | cons token tokens =>
    simp only [List.head?_cons, Option.map_some]
    by_cases hpercent : token.kind = .percentSign
    · simp only [hpercent, if_true]
      rw [Agrees.expect_right hpercent]
      exact .advance (.pure rfl)
    · by_cases hident : token.kind = .ident
      · simp only [hident, reduceCtorEq, if_false, if_true]
        refine (agrees_unit hident).bind ?_
        rintro unit _ w rest rfl
        exact .pure rfl
      · rw [if_neg hpercent, if_neg hident]
        split
        next h => exact absurd (Option.some.inj h) hpercent
        next h => exact absurd (Option.some.inj h) hident
        next => exact .pure rfl

/-! ## Ranges of characters -/

theorem takeMany_two {α : Type} {sign : Token} (f : String → Parser α)
    (discarded : List (Option Nat)) :
    (takeMany 2 >>= f) ⟨token :: sign :: tokens, discarded⟩ =
      (take >>= fun first => take >>= fun second => f (first ++ second))
        ⟨token :: sign :: tokens, discarded⟩ := by
  rw [takeMany_bind_run, take_bind_run, take_bind_run]
  simp [Text.concat]

theorem isHexPart_iff (token : Token) :
    isHexPart token = true ↔ token.span.kind = .number ∨ token.span.kind = .ident := by
  simp [isHexPart]

/-- The machine adds up the lengths of the tokens it steps over. -/
theorem agrees_hexSize :
    Agrees p total before tokens (Parser.takeWhile isHexPart) (Machine.hexSize 0)
    fun text length w _ => text.toList = w ∧ length = Text.byteLength w := by
  refine (agrees_takeWhile (P := fun read length =>
      Text.byteLength before + length = Text.byteLength read)
    (fun h => ?_) (fun {read token rest length} hplaced hlength h =>
      ⟨length + Text.byteLength token.text.toList, ?_, ?_⟩)
    rfl).imp fun _ _ _ _ h => ⟨h.1, ?_⟩
  · rw [if_neg ((isHexPart_iff _).not.1 (Bool.eq_false_iff.1 h))]
    rfl
  · rw [Text.byteLength_append, ← hlength, Nat.add_assoc]
  · intro c hc
    have hlt := hplaced.tail.size_lt
    rw [Text.byteLength_append] at hlt
    have hminus :=
      Machine.run_minus (s := c) (Nat.le_add_right token.start (Text.byteLength token.text.toList))
    rw [Nat.add_sub_cancel_left] at hminus
    rw [if_pos ((isHexPart_iff _).1 h), Machine.run_bind, Token.span_stop, Token.span_start,
      Token.stop, hminus]
    dsimp only
    rw [Machine.run_bind, Machine.run_size (by omega)]
    dsimp only
    rw [Machine.run_bind, Machine.run_advance hc]
    rfl
  · have := h.2.2
    rw [Text.byteLength_append] at this
    omega

theorem agrees_hexLen : Agrees p total before tokens hexDigits (Machine.hexLen p)
    fun text length w _ => text.toList = w ∧ length = Text.byteLength w ∧ length ≤ 6 := by
  unfold hexDigits Machine.hexLen
  rw [Agrees.offset_right]
  refine agrees_hexSize.bind ?_
  rintro text length w rest ⟨rfl, rfl⟩
  have hdigits :
      (decide (Text.byteLength text.toList = 0) || decide (6 < Text.byteLength text.toList) ||
        !text.toList.all isHex) = true ↔
      (Text.byteLength text.toList = 0 ∨ 6 < Text.byteLength text.toList) ∨
      ¬ text.toList.all isHex = true := by
    simp only [Bool.or_eq_true, decide_eq_true_eq, Bool.not_eq_true', Bool.not_eq_true]
  dsimp only
  by_cases hlength : Text.byteLength text.toList = 0 ∨ 6 < Text.byteLength text.toList
  · rw [if_pos (hdigits.2 (.inl hlength)), if_pos hlength]
    exact .fail
  · refine .placed fun hplaced => ?_
    have hlt := hplaced.size_lt
    rw [Text.byteLength_append] at hlt
    rw [if_neg hlength, Agrees.size_right hlt,
      Agrees.slice_right rfl (Text.byteLength_append ..).symm rfl, String.toList_ofList]
    by_cases hall : text.toList.all isHex = true
    · rw [if_neg fun h => (hdigits.1 h).elim hlength fun h => h hall, if_pos hall]
      exact .pure ⟨(List.append_nil _).symm, by rw [List.append_nil], by omega⟩
    · rw [if_pos (hdigits.2 (.inr hall)), if_neg hall]
      exact .fail

/-- A question mark is one byte long. -/
theorem Placed.byteLength_sign (h : Placed p before (token :: tokens)) {c : Char}
    (hk : token.kind.char? = some c) (hc : c.utf8Size = 1) :
    Text.byteLength token.text.toList = 1 := by
  rw [(h.spelled token (.head _)).sign c hk]
  exact hc

/-- The question marks that fill the digits of a range up to six. -/
def wildcards (digits : Nat) (tokens : List Token) : List Token :=
  (tokens.take (6 - digits)).takeWhile fun token => token.kind = .questionMark

theorem wildcards_cons {digits : Nat} : wildcards digits (token :: tokens) =
    if digits < 6 ∧ token.span.kind = .questionMark then token :: wildcards (digits + 1) tokens
      else [] := by
  rw [wildcards]
  by_cases hdigits : digits < 6
  · rw [show 6 - digits = 6 - (digits + 1) + 1 by omega, List.take_succ_cons, List.takeWhile_cons]
    by_cases hk : token.kind = .questionMark
    · rw [if_pos (decide_eq_true hk), if_pos ⟨hdigits, hk⟩, wildcards]
    · rw [if_neg (by rwa [decide_eq_true_eq]), if_neg fun h => hk h.2]
  · rw [Nat.sub_eq_zero_of_le (by omega), if_neg fun h => hdigits h.1]
    rfl

/-- The machine counts a question mark as a byte. -/
theorem agrees_wildcardLen (digits : Nat) :
    Agrees p total before tokens (takeMany (wildcards digits tokens).length)
      (Machine.wildcardLen digits)
      fun text length w _ => text.toList = w ∧ length = digits + Text.byteLength w ∧
        length = digits + (wildcards digits tokens).length := by
  refine (agrees_takeMany (P := fun read rest count length =>
    count = (wildcards length rest).length ∧
    length + count = digits + (wildcards digits tokens).length ∧
    Text.byteLength read + digits = Text.byteLength before + length)
    (fun {_ _ rest length _} h hc => ?_) (fun {_ token rest count length} hplaced h => ?_)
      ⟨rfl, rfl, rfl⟩
    ?_).imp fun text length w rest h => ⟨h.1, ?_, h.2.2.2.1⟩
  · refine Machine.run_stepIf_not fun hmark => ?_
    have hcount := h.1
    rw [wildcards_cons, if_pos hmark] at hcount
    cases hcount
  · obtain ⟨hcount, hsum, hbytes⟩ := h
    rw [wildcards_cons] at hcount
    split at hcount
    next hmark =>
      have hsize :=
        hplaced.byteLength_sign (c := '?') (by rw [show token.kind = _ from hmark.2]; rfl) rfl
      refine ⟨length + 1, ⟨Nat.succ.inj hcount, by omega, ?_⟩,
        fun c hc => Machine.run_stepIf hmark hc⟩
      rw [Text.byteLength_append]
      omega
    next => cases hcount
  · exact (List.takeWhile_prefix _).length_le.trans (List.length_take_le' _ _)
  · have := h.2.2.2.2
    rw [Text.byteLength_append] at this
    omega

/-- The machine cuts out a range once it knows the length of the text after `U+`. -/
abbrev Machine.rangeLeaf (p : Source) (info : Option Nat) (start length : Nat) :
    Action (Node SourceInfo) := do
  return .leaf (info.bind p.info) .identifier
    (← slice p start (← size (start + (← size (2 + length)))))

theorem agrees_rangeLeaf {front w : List Char} {info : Option Nat} {text : String} {length : Nat}
    (hbefore : before = front ++ w) (htext : text.toList = w)
    (hlength : Text.byteLength w = 2 + length) :
    Agrees p total before tokens (pure (.leaf info .identifier text))
      (Machine.rangeLeaf p info (Text.byteLength front) length) p.Resolves := by
  refine .placed fun hplaced => ?_
  have hlt := hplaced.size_lt
  rw [hbefore, Text.byteLength_append] at hlt
  rw [Machine.rangeLeaf, Agrees.size_right (by omega), ← hlength, Agrees.size_right hlt,
    Agrees.slice_right rfl (Text.byteLength_append ..).symm (by rw [hbefore]), ← htext,
    String.ofList_toList]
  exact .pure rfl

theorem agrees_rangeEnd {front w : List Char} {info : Option Nat} {text : String} {digits : Nat}
    (hbefore : before = front ++ w) (htext : text.toList = w)
    (hlength : Text.byteLength w = 2 + digits) :
    Agrees p total before tokens (rangeEnd info text (wildcards digits tokens)) ((do
      let length ← Machine.wildcardLen digits
      if length = digits && (← Machine.isAt .hyphenMinus) then
        Machine.advance
        Machine.size (length + (← Machine.size (1 + (← Machine.hexLen p))))
      else return length) >>= Machine.rangeLeaf p info (Text.byteLength front)) p.Resolves := by
  rw [rangeEnd, bind_assoc]
  refine (agrees_wildcardLen digits).bind ?_
  rintro marks length w' rest ⟨hmarks, hsum, hcount⟩
  have hnone : (wildcards digits tokens).isEmpty = decide (length = digits) := by
    rw [hcount]
    cases wildcards digits tokens <;> simp
  have htext : (text ++ marks).toList = w ++ w' := by rw [String.toList_append, htext, hmarks]
  have hsize : Text.byteLength (w ++ w') = 2 + length := by
    rw [Text.byteLength_append]
    omega
  rw [Agrees.isAt_left, bind_assoc, Agrees.isAt_right, hnone]
  by_cases hhyphen :
    (decide (length = digits) && decide (rest.head?.map Token.kind = some .hyphenMinus)) = true
  · rw [if_pos hhyphen, if_pos hhyphen]
    rw [Bool.and_eq_true, decide_eq_true_eq] at hhyphen
    obtain ⟨hyphen, rest, rfl, hk⟩ := exists_cons_of_kind (of_decide_eq_true hhyphen.2)
    refine .placed fun hplaced => ?_
    have hbyte := hplaced.byteLength_sign (c := '-') (by rw [hk]; rfl) rfl
    rw [bind_assoc]
    refine .take ?_
    rw [bind_assoc]
    refine agrees_hexLen.bind ?_
    rintro last digits' w'' rest' ⟨hlast, rfl, -⟩
    refine .placed fun hplaced' => ?_
    have hlt := hplaced'.size_lt
    rw [hbefore, List.append_assoc front, Text.byteLength_append, Text.byteLength_append,
      Text.byteLength_append, hsize] at hlt
    rw [bind_assoc, Agrees.size_right (by omega), Agrees.size_right (by omega)]
    refine agrees_rangeLeaf (w := w ++ w' ++ hyphen.text.toList ++ w'')
      (by rw [hbefore]; simp) ?_ ?_
    · rw [String.toList_append, htext, String.toList_append, hlast]
      simp
    · rw [Text.byteLength_append, Text.byteLength_append, hsize]
      omega
  · rw [if_neg hhyphen, if_neg hhyphen, pure_bind]
    exact agrees_rangeLeaf (by rw [hbefore, List.append_assoc]) (by simpa using htext) hsize

/-- A letter is one byte long. -/
theorem byteLength_of_spells (h : token.spells "u" = true) :
    Text.byteLength token.text.toList = 1 := by
  have hletters := letters_of_sameLetters h rfl
  obtain ⟨c, hc⟩ :=
    List.length_eq_one_iff.1 ((List.length_map ..).symm.trans (congrArg List.length hletters))
  rw [hc] at hletters ⊢
  rcases eq_or_of_lowerChar (List.cons.inj hletters).1 with rfl | rfl <;> rfl

theorem agrees_unicodeRange {sign : Token} (hspells : token.spells "u" = true)
    (hk : sign.kind = .plus) :
    Agrees p total before (token :: sign :: tokens) unicodeRange (Machine.unicodeRange p)
      p.Resolves := by
  unfold unicodeRange Machine.unicodeRange
  rw [Agrees.here_left, Agrees.info_right, Agrees.offset_right]
  refine .placed fun hplaced => ?_
  have hopening : Text.byteLength (token.text.toList ++ sign.text.toList) = 2 := by
    rw [Text.byteLength_append, byteLength_of_spells hspells,
      hplaced.tail.byteLength_sign (c := '+') (by rw [hk]; rfl) rfl]
  refine .left (takeMany_two _) (.take (.take ?_))
  rw [Machine.unicodeRangeLen, bind_assoc]
  refine agrees_hexLen.bind ?_
  rintro first digits w tokens ⟨hfirst, rfl, -⟩
  refine .left (y := rangeEnd (some token.start) (token.text ++ sign.text ++ first)
    (wildcards (Text.byteLength w) tokens)) (fun _ => ?_) (agrees_rangeEnd
      (w := token.text.toList ++ sign.text.toList ++ w) (by simp) (by simp [hfirst]) ?_)
  · rw [← hfirst]
    rfl
  · rw [Text.byteLength_append, hopening]

/-! ## Flags and functions without nested components -/

theorem agrees_importantFlag :
    Agrees p total before tokens importantFlag (Machine.importantFlag p)
      fun _ flag _ _ => flag = true := by
  unfold importantFlag Machine.importantFlag
  refine .expect fun sign rest _ _ => .gaps fun w => .expectWord fun token rest' _ _ _ => ?_
  rw [if_neg Bool.false_ne_true, pure_bind]
  exact (agrees_readIdent false).bind fun name name' w rest _ => .pure rfl

theorem agrees_url (info : Option Nat) :
    Agrees p total before tokens (urlFunction info) (Machine.url p (info.bind p.info))
      p.Resolves := by
  unfold urlFunction Machine.url
  have hend : ∀ {read : List Char} {rest : List Token} {inner : Tree},
      Agrees p total read rest (do
          skipGaps
          expect .rightParen
          return .wrapper info .url inner)
        (do
          Machine.skipGaps
          Machine.expect p .rightParen
          return .wrapper (info.bind p.info) .url (p.tree inner))
            fun tree node _ _ => node = p.tree tree :=
    .gaps fun _ => .expect fun _ _ _ _ => .pure rfl
  refine .expect fun opening rest _ _ => .gaps fun w => ?_
  rw [Agrees.isAt_left, Agrees.isAt_right]
  by_cases hstring : (rest.dropWhile isGap).head?.map Token.kind = some .string
  · obtain ⟨first, rest, hrest, -⟩ := exists_cons_of_kind hstring
    simp only [hstring, decide_true, if_true]
    rw [hrest]
    refine (agrees_tokenLeaf .string).bind ?_
    rintro inner _ w' rest rfl
    exact hend
  · simp only [hstring, decide_false, Bool.false_eq_true, if_false, Machine.rawUrl, bind_assoc,
      pure_bind]
    rw [Agrees.here_left, Agrees.info_right, Agrees.offset_right]
    refine .bind (Agrees.endWhile (fun _ => rfl) rfl) fun text stop w' rest h => ?_
    rw [Agrees.slice_right rfl h.2 rfl, ← h.1, String.ofList_toList]
    exact hend

namespace Machine

variable {c : Machine} {depth stop : Nat}

/-- The parenthesis that closes a script is left where it stands. -/
theorem run_balancedRound_closing (hk : token.kind = .rightParen) :
    balancedRound (0, stop) token.span c = some (.ok (none, c)) := by
  simp [balancedRound, hk]

/-- A depth that is counted down was counted up before. -/
theorem run_balancedRound (total stop : Nat) {rest : List Token} {count : Nat}
    (hcount : count + 1 = balancedLength depth (token :: rest)) :
    ∃ depth', count = balancedLength depth' rest ∧ ∀ c, c.Stands total (token :: rest) →
      balancedRound (depth, stop) token.span c =
        some (.ok (some (depth', token.stop), { c with position := c.position + 1 })) := by
  by_cases hright : token.kind = .rightParen
  · cases depth with
    | zero =>
      rw [balancedLength_closing hright] at hcount
      cases hcount
    | succ depth =>
      rw [balancedLength_right hright] at hcount
      refine ⟨depth, Nat.succ.inj hcount, fun c hc => ?_⟩
      have hminus := run_minus (s := c) (Nat.le_add_left 1 depth)
      simp only [balancedRound, Token.span_kind, hright, Nat.succ_ne_zero, if_false, run_bind,
        hminus, run_advance hc]
      rfl
  · by_cases hleft : token.kind = .leftParen
    · rw [balancedLength_left hleft] at hcount
      refine ⟨depth + 1, Nat.succ.inj hcount, fun c hc => ?_⟩
      simp only [balancedRound, Token.span_kind, hleft, run_bind, run_advance hc]
      rfl
    · rw [balancedLength_other hleft hright] at hcount
      have hother : balancedRound (depth, stop) token.span =
          (do advance; return some (depth, token.stop)) := by
        rw [balancedRound, Token.span_kind]
        cases hk : token.kind <;> first | exact absurd hk hright | exact absurd hk hleft | rfl
      refine ⟨depth, Nat.succ.inj hcount, fun c hc => ?_⟩
      rw [hother, run_bind, run_advance hc]
      rfl

end Machine

theorem balancedLength_le (depth : Nat) (tokens : List Token) :
    balancedLength depth tokens ≤ tokens.length := by
  induction tokens generalizing depth with
  | nil => exact Nat.le.refl
  | cons token tokens ih =>
    by_cases hright : token.kind = .rightParen
    · cases depth with
      | zero =>
        rw [balancedLength_closing hright]
        exact Nat.zero_le _
      | succ depth =>
        rw [balancedLength_right hright]
        exact Nat.succ_le_succ (ih depth)
    · by_cases hleft : token.kind = .leftParen
      · rw [balancedLength_left hleft]
        exact Nat.succ_le_succ (ih (depth + 1))
      · rw [balancedLength_other hleft hright]
        exact Nat.succ_le_succ (ih depth)

theorem balancedLength_eq_zero {depth : Nat} (h : balancedLength depth (token :: tokens) = 0) :
    depth = 0 ∧ token.kind = .rightParen := by
  by_cases hright : token.kind = .rightParen
  · cases depth with
    | zero => exact ⟨rfl, hright⟩
    | succ depth =>
      rw [balancedLength_right hright] at h
      cases h
  · by_cases hleft : token.kind = .leftParen
    · rw [balancedLength_left hleft] at h
      cases h
    · rw [balancedLength_other hleft hright] at h
      cases h

/-- The machine finds the end of the script that the reader takes. -/
theorem agrees_balancedEnd {stop : Nat} (hstop : stop = Text.byteLength before) :
    Agrees p total before tokens (takeMany (balancedLength 0 tokens)) (Machine.balancedEnd stop)
      (Spans before) := by
  have hscript : Agrees p total before tokens (takeMany (balancedLength 0 tokens))
      (Machine.repeatWhile Machine.balancedRound (0, stop))
      fun text st w rest => text.toList = w ∧ rest = tokens.drop (balancedLength 0 tokens) ∧
        0 = balancedLength st.1 rest ∧ st.2 = Text.byteLength (before ++ w) := by
    refine agrees_takeMany (P := fun read rest count (st : Nat × Nat) =>
        count = balancedLength st.1 rest ∧
        st.2 = Text.byteLength read)
          (fun {_ token rest st c} h _ => ?_) (fun {_ token rest count st} hplaced h => ?_)
            ⟨rfl, hstop⟩
      (balancedLength_le 0 tokens)
    · obtain ⟨depth, stop⟩ := st
      obtain ⟨rfl, hk⟩ := balancedLength_eq_zero h.1.symm
      exact Machine.run_balancedRound_closing hk
    · obtain ⟨depth, stop⟩ := st
      obtain ⟨depth', hcount, hrun⟩ := Machine.run_balancedRound total stop h.1
      exact ⟨(depth', token.stop), ⟨hcount, hplaced.stop_eq⟩, hrun⟩
  exact hscript.andThen fun text st w rest h =>
    .pure (by rw [List.append_nil]; exact ⟨h.1, h.2.2.2⟩)

theorem agrees_expression (info : Option Nat) (name : String) : Agrees p total before tokens
    (scriptFunction info name) (Machine.expression p (info.bind p.info) name) p.Resolves := by
  unfold scriptFunction Machine.expression
  refine .expect fun opening rest _ _ => ?_
  rw [Agrees.offset_right]
  refine .left (y := takeMany (balancedLength 0 rest) >>= fun text => do
    expect .rightParen
    return .sequence info (.function name) [argument [.leaf none .raw text]]) (fun _ => rfl)
    ((agrees_balancedEnd rfl).bind ?_)
  rintro text stop w rest ⟨htext, hstop⟩
  refine .expect fun closing rest _ _ => ?_
  have hsource : before ++ opening.text.toList ++ w ++ closing.text.toList ++ tokenChars rest =
      before ++ opening.text.toList ++ w ++ (closing.text.toList ++ tokenChars rest) :=
        List.append_assoc ..
  rw [Agrees.slice_right rfl hstop hsource, ← htext, String.ofList_toList]
  exact .pure rfl

/-! ## Functions -/

/-- What the machine has to do where the readers one bracket deeper read, on fewer than `n`
tokens. -/
structure NestedAgrees (p : Source) (total n : Nat) (inner : Nested) : Prop where
  settles : NestedSettles n inner
  component : ∀ {before tokens} (scope), tokens.length < n →
    Agrees p total before tokens (inner.component scope) (Machine.any p scope) p.Resolves
  brackets : ∀ {before token tokens} (scope), (token :: tokens).length < n →
    Agrees p total before (token :: tokens) (inner.brackets scope)
      (Machine.braces p scope) p.Resolves
  fallback : ∀ {before tokens}, tokens.length < n →
    Agrees p total before tokens inner.fallback (Machine.value p true) p.Resolves
  negated : ∀ {before tokens}, tokens.length < n →
    Agrees p total before tokens inner.negated (Machine.simpleSelector p true) p.Resolves
  /-- An entry of a negation is read where none ends, and up to where one ends. -/
  entered : SettlesIf n (fun tokens => ∃ token ∈ tokens.head?, ¬ EndsSelector true token) 1
    inner.negated
  left : ∀ {s s' tree}, inner.negated s = .ok tree s' →
    ∀ token ∈ s'.rest.head?, EndsSelector true token

variable {n : Nat} {inner : Nested} {scope : Scope}

theorem Machine.negationLoop_eq (st : List (Node SourceInfo) × Bool) : Machine.negationLoop p st =
    Machine.once (Machine.negationRound p st) (Machine.negationLoop p) st := by
  rw [negationLoop]
  exact eq_once rfl (fun _ => rfl) (fun _ => rfl) fun _ _ => rfl

theorem Machine.negationRound_entry {st : List (Node SourceInfo) × Bool}
    (h : ¬ EndsSelector true token) :
    Machine.negationRound p st token.span =
      (do return some (st.1 ++ [← Machine.simpleSelector p true], true)) := by
  rw [EndsSelector, not_or] at h
  rw [negationRound, Token.span_kind]
  cases hk : token.kind <;> first | rfl | exact absurd hk h.1 | exact absurd hk h.2

theorem negatedEntry_eq (h : ¬ EndsSelector true token) (discarded : List (Option Nat)) :
    negatedEntry inner ⟨token :: tokens, discarded⟩ =
      inner.negated ⟨token :: tokens, discarded⟩ := by
  rw [EndsSelector, not_or] at h
  rw [negatedEntry, kind?_bind_run]
  simp only [List.head?_cons, Option.map_some]
  cases hk : token.kind <;> first | rfl | exact absurd hk h.1 | exact absurd hk h.2

/-- After an entry, the machine reads a comma or leaves the loop. -/
theorem agrees_negationLoop_after {items : List Tree} {node : Tree} {x : Parser (List Tree × Bool)}
    {nodes : List (Node SourceInfo)} (hnodes : nodes = (items ++ [node]).map p.tree)
    (hends : ∀ token ∈ tokens.head?, EndsSelector true token)
    (hx : ∀ {before rest}, rest.length < tokens.length → Agrees p total before rest x
      (Machine.negationLoop p (nodes, false))
        fun result st _ _ => st.1 = (items ++ [node] ++ result.1).map p.tree) :
    Agrees p total before tokens (do
        if ← isAt .comma then
          advance
          let (later, missing) ← x
          return (node :: later, missing)
        else return ([node], false)) (Machine.negationLoop p (nodes, true))
      fun result st _ _ => st.1 = (items ++ result.1).map p.tree := by
  rw [Agrees.isAt_left, Machine.negationLoop_eq]
  cases tokens with
  | nil => exact .right (fun c _ hc => Machine.run_once_nil hc) (.pure hnodes)
  | cons token rest =>
    refine .once fun start hstart => ?_
    rw [Machine.negationRound]
    rcases hends token rfl with hk | hk
    · simp only [List.head?_cons, Option.map_some, hk, decide_true, if_true, Token.span_kind,
        Bool.not_true, Bool.false_eq_true, if_false, bind_assoc, pure_bind]
      refine .advance ((Agrees.goOn_right hstart (Nat.lt_succ_self _)).2 ?_)
      exact (hx (Nat.lt_succ_self _)).map fun result st w rest h => by rw [h]; simp
    · have hk : token.kind = .rightParen := hk
      simp only [List.head?_cons, Option.map_some, hk, Option.some.injEq, reduceCtorEq,
        decide_false, Token.span_kind, Bool.not_true, Bool.false_eq_true, if_false, pure_bind]
      exact .pure hnodes

/-- The machine reads a comma as a round of its own. -/
theorem agrees_negationLoop (hinner : NestedAgrees p total n inner) (hn : tokens.length < n) :
    Agrees p total before tokens (separated (fun _ => false) (negatedEntry inner) (pure ()))
      (Machine.negationLoop p ([], false)) fun result st _ _ => st.1 = result.1.map p.tree := by
  refine agrees_separated (fun items _ st => st = (items.map p.tree, false)) ?_ rfl hn
  rintro before tokens items _ x hn rfl hx
  rw [separatedFrom, Agrees.current?_left, Machine.negationLoop_eq]
  cases tokens with
  | nil => exact .right (fun c _ hc => Machine.run_once_nil hc) (.pure (by rw [List.append_nil]))
  | cons token tokens =>
    simp only [List.head?_cons, Bool.false_eq_true, if_false]
    refine .once fun start hstart => ?_
    by_cases hends : EndsSelector true token
    · have hfail :
          ∀ {A B : Type} {f : A → Parser (List Tree × Bool)}
            {g : B → Action (List (Node SourceInfo) × Bool)}
          {post}, Agrees p total before (token :: tokens)
            (Parser.fail .expectedSimpleSelector >>= f)
            (Machine.fail p "Simple selector is expected" >>= g) post :=
              fun {_ _ _ _ _} => .failed rfl
      rw [negatedEntry, Machine.negationRound, bind_assoc, Agrees.kind?_left]
      rcases hends with hk | hk
      · simp only [List.head?_cons, Option.map_some, hk, Token.span_kind, Bool.not_false, if_true]
        exact hfail
      · have hk : token.kind = .rightParen := hk
        simp only [List.head?_cons, Option.map_some, hk, Token.span_kind, Bool.not_false, if_true]
        exact hfail
    · rw [Machine.negationRound_entry hends, bind_assoc]
      have hnegated : Agrees p total before (token :: tokens) inner.negated
          (Machine.simpleSelector p true) p.Resolves :=
        hinner.negated hn
      have hentry := (hnegated.settled hinner.entered hn ⟨token, rfl, hends⟩).run
      refine (hentry.left (negatedEntry_eq hends)).bind ?_
      rintro node _ w rest ⟨⟨rfl, hlt⟩, discarded, discarded', hrun⟩
      have hnodes : items.map p.tree ++ [p.tree node] = (items ++ [node]).map p.tree := by simp
      simp only [pure_bind]
      refine (Agrees.goOn_right hstart hlt).2 ?_
      refine agrees_negationLoop_after hnodes (hinner.left hrun) fun hrest => ?_
      exact hx (hrest.trans hlt) (by rw [hnodes])

theorem agrees_negation (hinner : NestedAgrees p total n inner) (info : Option Nat)
    (hn : tokens.length < n + 1) :
    Agrees p total before tokens (negation inner info) (Machine.negation p (info.bind p.info))
      p.Resolves := by
  rw [negation_eq, Machine.negation]
  refine .expect fun opening rest htokens _ => ?_
  rw [htokens, List.length_cons] at hn
  refine (agrees_negationLoop hinner (Nat.lt_of_succ_lt_succ hn)).bind ?_
  rintro ⟨nodes, missing⟩ ⟨nodes', last⟩ w rest hnodes
  refine .expect fun closing rest _ _ => .pure ?_
  rw [Source.Resolves, Source.tree_sequence, ← hnodes]


theorem agrees_var (hinner : NestedAgrees p total n inner) (info : Option Nat) (name : String)
    (hn : tokens.length < n + 1) : Agrees p total before tokens (variableFunction inner info name)
      (Machine.var p (info.bind p.info) name) p.Resolves := by
  have hend : ∀ {read : List Char} {rest : List Token} (first : Tree) (later : List Tree),
      Agrees p total read rest
        (do
          expect .rightParen
          return .sequence info (.function name) (argument [first] :: later))
        (do
          Machine.expect p .rightParen
          return .sequence (info.bind p.info) (.function name)
            (Machine.argument [p.tree first] :: later.map p.tree))
              fun tree node _ _ => node = p.tree tree :=
    fun first later => .expect fun _ _ _ _ => .pure (by simp [argument, Machine.argument])
  rw [variableFunction, Machine.var]
  refine .expect fun opening rest htokens _ => .gaps fun w => ?_
  rw [htokens, List.length_cons] at hn
  refine ((agrees_identifier true).reads (settles_identifier true) (Nat.lt_succ_self _)).bind ?_
  rintro first _ w' rest' ⟨rfl, hfirst⟩
  refine .gaps fun w'' => ?_
  rw [Agrees.isAt_left, Agrees.isAt_right]
  by_cases hcomma : (rest'.dropWhile isGap).head?.map Token.kind = some .comma
  · obtain ⟨comma, rest'', hrest, -⟩ := exists_cons_of_kind hcomma
    simp only [hcomma, decide_true, if_true, pure_bind]
    rw [hrest]
    refine .advance (.gaps fun v => ?_)
    refine (hinner.fallback ?_).bind ?_
    · have hgap := (List.dropWhile_suffix (l := rest) isGap).length_le
      have hgap' := (List.dropWhile_suffix (l := rest') isGap).length_le
      have hgap'' := (List.dropWhile_suffix (l := rest'') isGap).length_le
      rw [hrest, List.length_cons] at hgap'
      omega
    rintro node _ v' rest' rfl
    exact .gaps fun _ => hend first [argument [node]]
  · simp only [hcomma, decide_false, Bool.false_eq_true, if_false, pure_bind]
    exact hend first []

/-! ### Arguments -/

theorem Machine.argumentsLoop_eq (st : List (Node SourceInfo) × Option (List (Node SourceInfo))) :
    Machine.argumentsLoop p scope st =
      Machine.once (Machine.argumentsRound p scope st) (Machine.argumentsLoop p scope) st := by
  rw [argumentsLoop]
  exact eq_once rfl (fun _ => rfl) (fun _ => rfl) fun _ _ => rfl

/-- A token that is read as a part of an argument, or for one. -/
theorem agrees_argumentPart (hinner : NestedAgrees p total n inner)
    (hn : (token :: tokens).length < n)
    (h : token.kind ∉ [TokenKind.comma, .rightParen, .comment]) :
    ∃ read, Grammar.argumentPart inner scope token = add read ∧
      Agrees p total before (token :: tokens) read (Machine.argumentPart p scope token.kind)
        p.Resolves := by
  unfold Machine.argumentPart Grammar.argumentPart
  cases hk : token.kind with
  | comma | rightParen | comment => simp [hk] at h
  | whitespace => exact ⟨_, rfl, agrees_space⟩
  | numberSign => exact ⟨_, rfl, agrees_hash⟩
  | leftParen | leftBracket => exact ⟨_, rfl, hinner.brackets scope hn⟩
  | solidus | asterisk | colon | equals => exact ⟨_, rfl, agrees_tokenLeaf .operator⟩
  | _ => exact ⟨_, rfl, hinner.component scope hn⟩

theorem Machine.argumentsRound_part {st : List (Node SourceInfo) × Option (List (Node SourceInfo))}
    (h : token.kind ∉ [TokenKind.comma, .rightParen, .comment]) :
    Machine.argumentsRound p scope st token.span =
      (do
        return some (st.1, some (st.2.getD [] ++
          [← Machine.argumentPart p scope token.kind]))) := by
  rw [argumentsRound, Token.span_kind]
  cases hk : token.kind with
  | comma | rightParen | comment => simp [hk] at h
  | _ => rfl

/-- The parts of the argument that is being read. -/
def Source.parts (p : Source) : List Tree → Option (List (Node SourceInfo))
  | [] => none
  | part :: parts => some ((part :: parts).map p.tree)

/-- The machine is inside an argument. If it has no part so far, the token there is the first of the
argument. -/
structure InArgument (p : Source) (nodes parts : List Tree) (_ : Unit)
    (st : List (Node SourceInfo) × Option (List (Node SourceInfo)))
    (tokens : List Token) : Prop where
  state : st = (nodes.map p.tree, p.parts parts)
  first : parts = [] → ∃ token ∈ tokens.head?, token.kind ≠ .comment ∧
    (nodes = [] → token.kind ≠ .rightParen)

/-- Another part of an argument is read, or a comment is skipped. -/
theorem agrees_argumentsRound (hinner : NestedAgrees p total n inner)
    (hn : (token :: tokens).length < n) {nodes parts : List Tree}
    {st : List (Node SourceInfo) × Option (List (Node SourceInfo))}
    (hst : InArgument p nodes parts () st (token :: tokens)) (hcomma : token.kind ≠ .comma)
    (hparen : token.kind ≠ .rightParen) :
    (∀ s s', argumentPart inner scope token s ≠ .ok .stop s') ∧
      RoundAgrees p total before (token :: tokens) (InArgument p nodes) parts
        (argumentPart inner scope token) (Machine.argumentsRound p scope st token.span) := by
  by_cases hcomment : token.kind = .comment
  · have hround : argumentPart inner scope token = skip := by
      rw [argumentPart, hcomment]
    have hturn : Machine.argumentsRound p scope st token.span =
        (do Machine.advance; return some st) := by
      rw [Machine.argumentsRound, Token.span_kind, hcomment]
    rw [hround, hturn]
    refine ⟨fun _ _ h => ?_, .advance ⟨hst.state, fun hnone => ?_⟩⟩
    · cases h
    · obtain ⟨_, hmem, hfirst, -⟩ := hst.first hnone
      obtain rfl := Option.some.inj hmem
      exact absurd hcomment hfirst
  · obtain ⟨read, hround, hread⟩ :=
      @agrees_argumentPart p total before tokens token n inner scope hinner hn
      (by simp [hcomma, hparen, hcomment] : token.kind ∉ _)
    rw [hround, Machine.argumentsRound_part (by simp [hcomma, hparen, hcomment])]
    refine ⟨fun _ _ => add_ne_stop, .next hread ?_⟩
    rintro part _ w rest rfl
    refine ⟨?_, fun hnone => by simp at hnone⟩
    rw [hst.state]
    cases parts <;> simp [Source.parts]


/-- What is read after the parts of an argument; `again` reads the later arguments. -/
def argumentAfter (again : Parser (List Tree × Bool)) (parts : List Tree) :
    Parser (List Tree × Bool) := do
  let node ← (match parts with
    | [] => fail .unexpectedInput
    | parts => return argument (dropTrailingSpaces parts))
  if ← isAt .comma then
    advance
    skipGaps
    let (later, missing) ← again
    return (node :: later, missing)
  else return ([node], false)

/-- The argument that was read is complete. -/
theorem agrees_argumentsLoop_end {x : Parser (List Tree × Bool)} {nodes parts : List Tree}
    {st : List (Node SourceInfo) × Option (List (Node SourceInfo))}
    (hst : InArgument p nodes parts () st tokens)
    (hends : ∀ token ∈ tokens.head?, token.kind = .comma ∨ token.kind = .rightParen)
    (hx : ∀ {before rest} {node : Tree}, rest.length < tokens.length →
      NoGap rest → Agrees p total before rest x
        (Machine.argumentsLoop p scope ((nodes ++ [node]).map p.tree, none)) fun result st _ _ =>
          Machine.allArguments st = (nodes ++ [node] ++ result.1).map p.tree) :
    Agrees p total before tokens (argumentAfter x parts) (Machine.argumentsLoop p scope st)
      fun result st _ _ => Machine.allArguments st = (nodes ++ result.1).map p.tree := by
  unfold argumentAfter
  rw [Machine.argumentsLoop_eq, hst.state]
  cases parts with
  | nil =>
    obtain ⟨first, hmem, -, hparen⟩ := hst.first rfl
    obtain ⟨rest, rfl⟩ := List.head?_eq_some_iff.1 hmem
    refine .once fun start hstart => ?_
    rw [Machine.argumentsRound, Token.span_kind]
    rcases hends first rfl with hk | hk
    · simp only [hk, Source.parts]
      exact .failed rfl
    · have hgo : (nodes.map p.tree).isEmpty = false := by simpa using fun hnone => hparen hnone hk
      simp only [hk, Source.parts, Option.isNone_none, hgo, Bool.not_false, Bool.and_self, if_true]
      exact .failed rfl
  | cons part parts =>
    have hnodes :
        nodes.map p.tree ++ [Machine.argument (Machine.trimSpaces ((part :: parts).map p.tree))] =
        (nodes ++ [argument (dropTrailingSpaces (part :: parts))]).map p.tree := by
      rw [Source.trimSpaces_map, Source.argument_map]
      simp
    simp only [pure_bind, Source.parts]
    rw [Agrees.isAt_left]
    cases tokens with
    | nil => exact .right (fun c _ hc => Machine.run_once_nil hc) (.pure hnodes)
    | cons token rest =>
      refine .once fun start hstart => ?_
      rw [Machine.argumentsRound, Token.span_kind]
      rcases hends token rfl with hk | hk
      · simp only [List.head?_cons, Option.map_some, hk, decide_true, if_true, bind_assoc,
          pure_bind]
        refine .advance (.gaps fun w => ?_)
        have hlt : (rest.dropWhile isGap).length < (token :: rest).length :=
          Nat.lt_succ_of_le (List.dropWhile_suffix _).length_le
        refine (Agrees.goOn_right hstart hlt).2 ?_
        rw [hnodes]
        exact (hx hlt (noGap_dropWhile rest)).map fun result st w rest h => by rw [h]; simp
      · simp only [List.head?_cons, Option.map_some, hk, Option.some.injEq, reduceCtorEq,
          decide_false, Bool.false_eq_true, if_false, Option.isNone_some, Bool.false_and, pure_bind]
        exact .pure hnodes


/-- The machine reads the parts of an argument in the same loop as the commas. -/
theorem agrees_argumentsLoop (hinner : NestedAgrees p total n inner) (hn : tokens.length < n)
    (hgap : NoGap tokens) (hopen : tokens.head?.map Token.kind ≠ some .rightParen) :
    Agrees p total before tokens (separated (fun _ => false) (argumentOf inner scope) skipGaps)
      (Machine.argumentsLoop p scope ([], none)) fun result st _ _ =>
        Machine.allArguments st = result.1.map p.tree := by
  refine agrees_separated (fun nodes tokens st => st = (nodes.map p.tree, none) ∧ NoGap tokens ∧
    (nodes = [] → tokens.head?.map Token.kind ≠ some .rightParen)) ?_ ⟨rfl, hgap, fun _ => hopen⟩ hn
  rintro before tokens nodes _ x hn ⟨rfl, hgap, hopen⟩ hx
  rw [separatedFrom, Agrees.current?_left]
  cases tokens with
  | nil =>
    rw [Machine.argumentsLoop_eq]
    exact .right (fun c _ hc => Machine.run_once_nil hc) (.pure (by simp [Machine.allArguments]))
  | cons token tokens =>
    simp only [List.head?_cons, Bool.false_eq_true, if_false]
    have hst : InArgument p nodes [] () (nodes.map p.tree, none) (token :: tokens) := by
      refine ⟨rfl, fun _ => ⟨token, rfl, fun hk => ?_, fun hnone hk => hopen hnone (by simp [hk])⟩⟩
      have := hgap token rfl
      simp [isGap, hk] at this
    have hentry : (argumentOf inner scope >>= fun node => do
          if ← isAt .comma then
            advance
            skipGaps
            let (later, missing) ← x
            return (node :: later, missing)
          else return ([node], false)) =
        loop (fun _ => argumentPart inner scope) () >>= fun result => argumentAfter x result.1 := by
      rw [argumentOf, many, bind_assoc, bind_assoc]
      refine bind_congr fun result => ?_
      rw [pure_bind]
      unfold argumentAfter
      cases result.1 <;> rfl
    rw [hentry]
    refine .left (fun _ => rfl) (agrees_loopUpTo_bind
      (fun token => token.kind = .comma ∨ token.kind = .rightParen)
      (fun result => argumentAfter x result.1) Machine.argumentsLoop_eq
      (fun _ _ => roundSettles_argumentPart hinner.settles) ?_ ?_ hst hn
        (Nat.lt_succ_self _) Nat.le.refl)
    · intro before token tokens parts st t hn hst
      by_cases hends : token.kind = .comma ∨ token.kind = .rightParen
      · refine .inl ⟨hends, ?_⟩
        rcases hends with hk | hk <;> rw [argumentPart, hk] <;> rfl
      · rw [not_or] at hends
        exact .inr (agrees_argumentsRound hinner hn hst hends.1 hends.2)
    · intro before tokens parts st t hle hst hends
      refine agrees_argumentsLoop_end hst hends fun {before rest node} hlt hgap => ?_
      exact hx (hlt.trans_le hle) ⟨rfl, hgap, fun hnone => by simp at hnone⟩

theorem agrees_arguments (hinner : NestedAgrees p total n inner) (hn : tokens.length < n + 1)
    {f : List Tree → Parser Tree} {g : List (Node SourceInfo) → Action (Node SourceInfo)}
    (h : ∀ {before tokens} (nodes : List Tree),
      Agrees p total before tokens (f nodes) (g (nodes.map p.tree)) p.Resolves) :
    Agrees p total before tokens (arguments inner scope >>= f) (do
      Machine.expect p .leftParen
      let nodes ← Machine.arguments p scope
      Machine.expect p .rightParen
      g nodes) p.Resolves := by
  have hend : ∀ {read : List Char} {rest : List Token} (nodes : List Tree), Agrees p total read rest
      (do expect .rightParen; f nodes) (do Machine.expect p .rightParen; g (nodes.map p.tree))
      fun tree node _ _ => node = p.tree tree := fun nodes => .expect fun _ _ _ _ => h nodes
  rw [arguments, Machine.arguments, bind_assoc]
  refine .expect fun opening rest htokens _ => ?_
  rw [htokens, List.length_cons] at hn
  simp only [bind_assoc]
  refine .gaps fun w => ?_
  rw [Agrees.isAt_left]
  by_cases hparen : (rest.dropWhile isGap).head?.map Token.kind = some .rightParen
  · obtain ⟨closing, rest', hrest, hk⟩ := exists_cons_of_kind hparen
    have hstop : ∀ c : Machine, c.Stands total (rest.dropWhile isGap) →
        Machine.argumentsLoop p scope ([], none) c = some (.ok (([], none), c)) := by
      intro c hc
      rw [hrest] at hc
      rw [Machine.argumentsLoop_eq]
      refine Machine.run_once_stop hc ?_
      simp only [Machine.argumentsRound, Token.span_kind, hk]
      rfl
    simp only [hparen, decide_true, if_true, bind_assoc, pure_bind]
    rw [Agrees.right_iff fun c _ hc => hstop c hc]
    exact hend []
  · simp only [hparen, decide_false, Bool.false_eq_true, if_false, bind_assoc, pure_bind]
    have hlt : (rest.dropWhile isGap).length < n := by
      have := (List.dropWhile_suffix (l := rest) isGap).length_le
      omega
    refine (agrees_argumentsLoop hinner hlt (noGap_dropWhile rest) hparen).bind
      fun result st w rest hnodes => ?_
    rw [hnodes]
    exact hend result.1


theorem agrees_function (hinner : NestedAgrees p total n inner) (info : Option Nat) (name : String)
    (hn : tokens.length < n + 1) : Agrees p total before tokens (function inner scope info name)
      (Machine.function p scope (info.bind p.info) name) p.Resolves := by
  rw [function, Machine.function]
  cases scope.special? name with
  | none =>
    refine agrees_arguments hinner hn fun nodes => ?_
    cases scope with
    | selector | atruleExpression | value =>
      exact .pure (by rw [Source.Resolves, Source.tree_sequence])
  | some special =>
    cases special with
    | url => exact agrees_url info
    | negation => exact agrees_negation hinner info hn
    | script => exact agrees_expression info name
    | _ => exact agrees_var hinner info name hn

/-! ## Components -/

theorem agrees_named (hinner : NestedAgrees p total n inner) (hn : tokens.length < n + 1) :
    Agrees p total before tokens (named inner scope) (Machine.named p scope) p.Resolves := by
  rw [named, Machine.named, Agrees.here_left, Agrees.info_right]
  refine ((agrees_readIdent false).reads (settles_readName false) (Nat.lt_succ_self _)).bind ?_
  rintro name _ w rest ⟨rfl, hlt⟩
  rw [Agrees.isAt_left, Agrees.isAt_right]
  refine .ite (fun _ => ?_) fun _ => .pure rfl
  exact agrees_function hinner _ _ (by omega)

theorem agrees_signOrName (hinner : NestedAgrees p total n inner) (hn : tokens.length < n + 1) :
    Agrees p total before tokens (signOrName inner scope) (do
      let nameFollows := (← Machine.lookupKind 1 .ident) || (← Machine.lookupKind 1 .hyphenMinus)
      match ← Machine.kind? with
      | some .hyphenMinus =>
        if nameFollows then Machine.named p scope else Machine.tokenLeaf p .operator
      | some .plus => Machine.tokenLeaf p .operator
      | _ => Machine.fail p "Unexpected input") p.Resolves := by
  rw [signOrName, Agrees.lookupKind_left, Agrees.lookupKind_right, Agrees.lookupKind_left,
    Agrees.lookupKind_right, Agrees.kind?_left, Agrees.kind?_right]
  cases hkind : tokens.head?.map Token.kind with
  | none => exact .fail
  | some kind =>
    obtain ⟨sign, rest, rfl, -⟩ := exists_cons_of_kind hkind
    cases kind with
    | hyphenMinus =>
      exact .ite (fun _ => agrees_named hinner hn) fun _ => agrees_tokenLeaf .operator
    | plus => exact agrees_tokenLeaf .operator
    | _ => exact .fail

theorem agrees_component (hinner : NestedAgrees p total n inner) (hn : tokens.length < n + 1) :
    Agrees p total before tokens (component inner scope) (Machine.any p scope) p.Resolves := by
  rw [component_eq, Machine.any, Agrees.kind?_left, Agrees.kind?_right]
  cases hkind : tokens.head?.map Token.kind with
  | none => exact .fail
  | some kind =>
    obtain ⟨token, rest, rfl, -⟩ := exists_cons_of_kind hkind
    cases kind with
    | string => exact agrees_tokenLeaf .string
    | lowLine | ident => exact agrees_named hinner hn
    | fullStop | number | hyphenMinus | plus =>
      dsimp only
      rw [signedComponent, Agrees.here_left]
      refine agrees_numeric.bind ?_
      rintro number _ w rest' ⟨rfl, hle⟩
      cases number with
      | none => exact agrees_signOrName hinner (by omega)
      | some number => exact agrees_measured _ number
    | _ => exact .fail

/-! ## Brackets -/

theorem Machine.bracesLoop_eq {closing : TokenKind} (nodes : List (Node SourceInfo)) :
    Machine.bracesLoop p scope closing nodes =
      Machine.once (Machine.bracesRound p scope closing nodes)
        (Machine.bracesLoop p scope closing) nodes := by
  rw [bracesLoop]
  exact eq_once rfl (fun _ => rfl) (fun _ => rfl) fun _ _ => rfl

theorem agrees_bracesRound (hinner : NestedAgrees p total n inner)
    (hn : (token :: tokens).length < n) (closing : TokenKind) (items : List Tree) :
    RoundAgrees p total before (token :: tokens) p.Collects items
      (bracketPart inner scope closing token)
      (Machine.bracesRound p scope closing (items.map p.tree) token.span) := by
  rw [bracketPart, Machine.bracesRound, Token.span_kind]
  refine .ite (fun _ => .stop) fun _ => ?_
  cases hk : token.kind with
  | whitespace => exact .add agrees_space
  | comment => exact .skip
  | numberSign => exact .add agrees_hash
  | leftParen | leftBracket => exact .add (hinner.brackets scope hn)
  | solidus | asterisk | comma | colon => exact .add (agrees_tokenLeaf .operator)
  | _ => exact .add (hinner.component scope hn)

theorem agrees_brackets (hinner : NestedAgrees p total n inner)
    (hn : (token :: tokens).length < n + 1) :
    Agrees p total before (token :: tokens) (brackets inner scope) (Machine.braces p scope)
      p.Resolves := by
  rw [brackets, Machine.braces, Agrees.here_left, Agrees.info_right, Agrees.isAt_left,
    Agrees.isAt_right]
  rw [List.length_cons] at hn
  have hgap := (List.dropWhile_suffix (l := tokens) isGap).length_le
  refine .advance (.gaps fun w =>
    (agrees_many Machine.bracesLoop_eq (fun _ => roundSettles_bracketPart hinner.settles _)
      (fun hn => agrees_bracesRound hinner hn _ _) (by omega)).bind ?_)
  rintro parts _ w rest rfl
  refine .expect fun closing rest _ _ => .pure ?_
  rw [Source.Resolves, Source.trimSpaces_map, Source.tree_sequence]

/-! ## Values -/

theorem Machine.valueLoop_eq {nested : Bool} (st : List (Node SourceInfo) × Bool) :
    Machine.valueLoop p nested st =
    Machine.once (Machine.valueRound p nested st) (Machine.valueLoop p nested) st := by
  rw [valueLoop]
  exact eq_once rfl (fun _ => rfl) (fun _ => rfl) fun _ _ => rfl

/-- The machine has collected the parts of a value, and knows whether the flag was read. -/
def Source.Values (p : Source) (parts : List Tree) (important : Bool)
    (st : List (Node SourceInfo) × Bool) (_ : List Token) : Prop :=
  st = (parts.map p.tree, important)

theorem agrees_valueRound (hinner : NestedAgrees p total n inner)
    (hn : (token :: tokens).length < n + 1) (nested important : Bool) (parts : List Tree) :
    RoundAgrees p total before (token :: tokens) p.Values parts
      (valuePart inner nested important token)
      (Machine.valueRound p nested (parts.map p.tree, important) token.span) := by
  have hpart : ∀ {read : Parser Tree} {m : Action (Node SourceInfo)},
      Agrees p total before (token :: tokens) read m p.Resolves →
      RoundAgrees p total before (token :: tokens) p.Values parts
        (do return .next [← read] important)
        (do return some (parts.map p.tree ++ [← m], important)) := fun h =>
    .next h fun part _ _ _ hpart => by rw [Source.Values, hpart]; simp
  rw [valuePart, Machine.valueRound, Token.span_kind]
  cases hk : token.kind with
  | rightBrace | semicolon => exact RoundAgrees.stop
  | rightParen => exact RoundAgrees.ite (fun _ => .stop) fun _ => .fail
  | whitespace => exact hpart agrees_space
  | comment => exact RoundAgrees.advance rfl
  | numberSign => exact hpart agrees_hash
  | solidus | comma => exact hpart (agrees_tokenLeaf .operator)
  | leftParen | leftBracket => exact hpart (agrees_brackets hinner hn)
  | exclamationMark =>
    exact RoundAgrees.next agrees_importantFlag fun _ _ _ _ h => by rw [Source.Values, h]; simp
  | ident =>
    dsimp only
    rw [RoundAgrees, Agrees.spells_right (.head _), Agrees.lookupKind_left, Agrees.lookupKind_right]
    refine RoundAgrees.ite (fun h => ?_) fun _ => hpart (agrees_component hinner hn)
    rw [Bool.and_eq_true, decide_eq_true_eq] at h
    obtain ⟨hspells, hplus⟩ := h
    obtain ⟨sign, rest, rfl, hsign⟩ :=
      exists_cons_of_kind (by simpa [← List.head?_eq_getElem?] using hplus)
    exact hpart (agrees_unicodeRange hspells hsign)
  | _ => exact hpart (agrees_component hinner hn)

theorem agrees_valueLoop (hinner : NestedAgrees p total n inner) (nested : Bool)
    (hn : tokens.length < n + 1) :
    Agrees p total before tokens (loop (valuePart inner nested) false)
      (Machine.valueLoop p nested ([], false))
      fun result st _ rest => p.Values result.1 result.2 st rest :=
  agrees_loop Machine.valueLoop_eq
    (fun important _ => roundSettles_valuePart hinner.settles nested important)
    (fun hn hst => by
      rw [Source.Values] at hst
      rw [hst]
      exact agrees_valueRound hinner hn nested _ _) rfl hn

theorem agrees_value (hinner : NestedAgrees p total n inner) (nested : Bool)
    (hn : tokens.length < n + 1) :
    Agrees p total before tokens (value inner nested) (Machine.value p nested) p.Resolves := by
  rw [value, Machine.value, Agrees.here_left, Agrees.info_right]
  have hgap := (List.dropWhile_suffix (l := tokens) isGap).length_le
  refine .gaps fun w => (agrees_valueLoop hinner nested (by omega)).bind ?_
  rintro ⟨parts, important⟩ _ w rest rfl
  refine .pure ?_
  rw [Source.Resolves, Source.trimSpaces_map, Source.tree_sequence]

end StyleTree
