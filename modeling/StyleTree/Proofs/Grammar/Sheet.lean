import StyleTree.Proofs.Grammar.Atrule

/-! Style sheets. The rules of a sheet are read again from their texts in a row (`rulePart_rounds`),
so the rules in the body of an at-rule are, at every depth (`nestedSheet_returns`), and so is a
whole text without brackets, bars, flags and escapes (`parse_toCss_of_parse_stylesheet`). -/

namespace StyleTree

open StyleTree.Parser StyleTree.Grammar

namespace Grammar

variable {inner : Nested} {sheet : Parser Tree} {nested : Bool} {p : Place} {s s' : ParserState}
  {tree : Tree} {nodes : List Tree} {token : Token} {rest : List Token}

/-! ## Rules in a row -/

/-- What a round over rules does where there are no comments. -/
inductive RuleRound (inner : Nested) (sheet : Parser Tree) (nested : Bool) (token : Token)
    (s : ParserState) : Item → ParserState → Prop where
  | stop : token.kind = .rightBrace → RuleRound inner sheet nested token s .stop s
  | skip : token.kind = .whitespace →
    RuleRound inner sheet nested token s (.next [] ()) { s with rest := s.rest.tail }
  | atrule {node : Tree} {s' : ParserState} : atrule inner sheet s = .ok node s' →
    RuleRound inner sheet nested token s (.next [node] ()) s'
  | ruleset {node : Tree} {s' : ParserState} : ruleset inner s = .ok node s' →
    RuleRound inner sheet nested token s (.next [node] ()) s'

theorem rulePart_eq_ok {result : Item} (hsimple : isSimple token.kind = true)
    (h : rulePart inner sheet nested token s = .ok result s') :
    RuleRound inner sheet nested token s result s' := by
  have hadd : ∀ {read : Parser Tree}, add read s = .ok result s' →
      ∃ node, result = .next [node] () ∧ read s = .ok node s' := by
    intro read h
    obtain ⟨node, s₁, hread, h⟩ := bind_eq_ok.1 h
    obtain ⟨rfl, rfl⟩ := EStateM.Result.ok.inj h
    exact ⟨node, rfl, hread⟩
  by_cases hbrace : token.kind = .rightBrace
  · cases nested with
    | false =>
      simp only [rulePart, hbrace] at h
      exact (fail_ne_ok.1 h).elim
    | true =>
      simp only [rulePart, hbrace] at h
      obtain ⟨rfl, rfl⟩ := EStateM.Result.ok.inj h
      exact .stop hbrace
  by_cases hspace : token.kind = .whitespace
  · simp only [rulePart, hspace] at h
    obtain ⟨rfl, rfl⟩ := EStateM.Result.ok.inj h
    exact .skip hspace
  by_cases hat : token.kind = .commercialAt
  · rw [rulePart_atrule hat] at h
    obtain ⟨node, rfl, hread⟩ := hadd h
    exact .atrule hread
  · have hcomment : token.kind ≠ .comment := by rintro hk; rw [hk] at hsimple; cases hsimple
    have hunknown : token.kind ≠ .unknown := by rintro hk; rw [hk] at hsimple; cases hsimple
    rw [rulePart_ruleset hspace hcomment ⟨hunknown, hat, hbrace⟩] at h
    obtain ⟨node, rfl, hread⟩ := hadd h
    exact .ruleset hread

/-- What is written of rules in a row. -/
def sheetChars (nodes : List Tree) : List Char :=
  (nodes.map Node.compact).flatten

theorem compact_styleSheet (info : Option Nat) (nodes : List Tree) :
    (Node.sequence info .styleSheet nodes).compact = sheetChars nodes := by
  simp [Node.compact_sequence, Node.sequenceMarks, Node.map_piece_false, sheetChars]

/-- The loop reads the rules again from their text, up to the end of the text or, in the body of an
at-rule, to the brace that closes it. The look-ahead finds rules if there are any. -/
def RulesAgain (nested : Bool) (p p' : Place) (nodes : List Tree) : Prop :=
  ∀ (n depth : Nat) (cs : List Char) (s : ParserState),
    (∀ d ∈ cs.head?, nested = true ∧ d = '\x7d') →
    Place.Scans ⟨p.state.calm, sheetChars nodes ++ cs, .soft⟩ s.rest → s.rest.length < n →
    s.rest.length ≤ depth → (nodes ≠ [] → holdsDeclarations s.rest = false) ∧ ∃ nodes' s',
      LoopsTo (fun _ => rulePart (.upTo n) (nestedSheet (.upTo n) depth) nested) () s nodes' () s' ∧
      nodes'.map Node.bare = nodes.map Node.bare ∧ Place.Scans ⟨p'.state.calm, cs, .soft⟩ s'.rest ∧
      s'.rest.length ≤ s.rest.length

theorem RulesAgain.nil (nested : Bool) (p : Place) : RulesAgain nested p p [] := by
  intro n depth cs s hcs hs _ _
  refine ⟨absurd rfl, [], s, ?_, rfl, hs, Nat.le_refl _⟩
  cases cs with
  | nil => exact .done (hs.eq_nil rfl)
  | cons c cs =>
    obtain ⟨rfl, rfl⟩ := hcs c rfl
    obtain ⟨brace, rest, hrest, hk, -⟩ := hs.of_sign_calm rfl rfl (by decide) []
    refine .stop hrest ?_
    simp [rulePart, hk, Parser.stop]

theorem RulesAgain.cons {p₁ p' : Place} {node : Tree} (h : RuleReads p p₁ node)
    (hlater : RulesAgain nested p₁ p' nodes) : RulesAgain nested p p' (node :: nodes) := by
  intro n depth cs s hcs hs hn hdepth
  rw [sheetChars, List.map_cons, List.flatten_cons, List.append_assoc] at hs
  obtain ⟨hlooks, node', s₁, hstep, hbare, hs₁⟩ := h n depth nested _ s hs hn hdepth
  have hlt := hstep.lt
  obtain ⟨-, nodes', s₂, hloop, hbares, hs₂, hle⟩ :=
    hlater n depth cs s₁ hcs hs₁ (by omega) (by omega)
  exact ⟨fun _ => hlooks, node' :: nodes', s₂, hstep.loop hloop, by simp [hbare, hbares],
    hs₂, by omega⟩

/-- The rules of a sheet are read again. -/
theorem rulePart_rounds {st last : Unit} (hinner : inner.Returns) (hsheet : SheetReturns sheet)
    (h : Rounds (fun _ => rulePart inner sheet nested) st s nodes last s') (hp : p.Scans s.rest)
    (hfirm : p.firm = .firm) (hsimple : Simple s.rest) :
    ∃ p' : Place, p'.Scans s'.rest ∧ p'.firm = p.firm ∧ Balanced s.rest s'.rest ∧
      (holdsDeclarations s.rest = false → nodes ≠ []) ∧
      (∀ d ∈ (sheetChars nodes).head?, isStopper d = true ∨ d ∈ p.text) ∧
      RulesAgain nested p p' nodes := by
  induction h generalizing p with
  | @done st s hs =>
    exact ⟨p, hp, rfl, .refl, by simp [hs, holdsDeclarations], by simp [sheetChars], .nil nested p⟩
  | @stop st s s' token rest hs hround =>
    cases rulePart_eq_ok (hsimple token (by simp [hs])) hround with
    | stop hk =>
      exact ⟨p, hp, rfl, .refl, by simp [hs, holdsDeclarations, hk], by simp [sheetChars],
        .nil nested p⟩
  | @next st s token rest items st₁ s₁ later last s' hs hround hrounds ih =>
    have hplain : ∀ token ∈ s.rest, '\\' ∉ token.text.toList :=
      fun token hmem => (hp.isFirm hfirm token hmem).1
    -- A rule is read again, and the rules after it are.
    have hrule : ∀ {node : Tree} {p₁ : Place}, p₁.Scans s₁.rest → p₁.firm = p.firm →
        Balanced s.rest s₁.rest →
        (∀ d ∈ node.compact.head?, isStopper d = true ∨ d ∈ p.text) → RuleReads p p₁ node →
        ∃ p' : Place, p'.Scans s'.rest ∧ p'.firm = p.firm ∧ Balanced s.rest s'.rest ∧
          (holdsDeclarations s.rest = false → [node] ++ later ≠ []) ∧
          (∀ d ∈ (sheetChars ([node] ++ later)).head?, isStopper d = true ∨ d ∈ p.text) ∧
          RulesAgain nested p p' ([node] ++ later) := by
      intro node p₁ hp₁ hfirm₁ hbalanced₁ hhead hreads
      obtain ⟨p', hp', hfirm', hbalanced', -, hhead', hagain⟩ :=
        ih hp₁ (hfirm₁ ▸ hfirm) (hbalanced₁.simple hsimple)
      refine ⟨p', hp', hfirm'.trans hfirm₁, hbalanced₁.trans hbalanced', by simp, fun d hd => ?_,
        .cons hreads hagain⟩
      have hchars : sheetChars ([node] ++ later) = node.compact ++ sheetChars later := by
        simp [sheetChars]
      rw [hchars, List.head?_append] at hd
      cases hnode : node.compact.head? with
      | some c =>
        rw [hnode] at hd
        exact hhead d (hnode.trans hd)
      | none =>
        rw [hnode] at hd
        exact (hhead' d hd).imp_right (hp.text_subset hp₁ (hbalanced₁.suffix hplain).subset d)
    cases rulePart_eq_ok (hsimple token (by simp [hs])) hround with
    | skip hk =>
      rw [hs] at hp hsimple ih ⊢
      obtain ⟨cs₁, htext, -, hp₁⟩ := hp.cons
      have hstate : (p.after token cs₁).state.calm = p.state.calm :=
        ScanState.after_of_isLoose (by rw [hk]; rfl) _ _
      have hbalanced₁ : Balanced (token :: rest) rest := .token (by simp [hk]) (by simp [hk])
      obtain ⟨p', hp', hfirm', hbalanced', hlooks, hhead, hagain⟩ :=
        ih hp₁ hfirm (hbalanced₁.simple hsimple)
      refine ⟨p', hp', hfirm', hbalanced₁.trans hbalanced', fun hlooks' => ?_, fun d hd => ?_, ?_⟩
      · rw [holdsDeclarations, hk] at hlooks'
        exact hlooks hlooks'
      · rw [htext]
        exact (hhead d hd).imp_right fun hmem => List.mem_append_right _ hmem
      · rw [RulesAgain, hstate] at hagain
        exact hagain
    | atrule hread =>
      obtain ⟨p₁, hp₁, hfirm₁, hbalanced₁, hhead, hreads⟩ :=
        atrule_restates hinner hsheet hp hfirm hsimple hread
      exact hrule hp₁ hfirm₁ hbalanced₁ (fun d hd => .inr (hhead d hd)) hreads
    | ruleset hread =>
      obtain ⟨p₁, hp₁, hfirm₁, hbalanced₁, hhead, hreads⟩ :=
        ruleset_restates hinner hp hfirm hsimple hread
      exact hrule hp₁ hfirm₁ hbalanced₁ hhead hreads

/-! ## Nesting -/

theorem styleSheet_of_loop (h : LoopsTo (fun _ => rulePart inner sheet nested) () s nodes () s') :
    styleSheet inner sheet nested s =
      .ok (.sequence (s.rest.head?.map Token.start) .styleSheet nodes) s' := by
  rw [styleSheet, here_bind_run, bind_of_ok h.many_eq, run_pure]

theorem rounds_of_styleSheet (h : styleSheet inner sheet nested s = .ok tree s') :
    ∃ nodes, tree = .sequence (s.rest.head?.map Token.start) .styleSheet nodes ∧
      Rounds (fun _ => rulePart inner sheet nested) () s nodes () s' := by
  rw [styleSheet, here_bind_run] at h
  obtain ⟨nodes, s₁, hmany, h⟩ := bind_eq_ok.1 h
  obtain ⟨rfl, rfl⟩ := EStateM.Result.ok.inj h
  exact ⟨nodes, rfl, rounds_of_many hmany⟩

/-- The rules in the body of an at-rule are read again, however deep they are nested. -/
theorem nestedSheet_returns (hinner : inner.Returns) (depth : Nat) :
    SheetReturns (nestedSheet inner depth) := by
  induction depth with
  | zero => exact fun _ _ _ _ h => (fail_ne_ok.1 h).elim
  | succ depth ih =>
    intro p s s' tree hp hfirm hsimple hlooks h
    obtain ⟨nodes, rfl, hrounds⟩ := rounds_of_styleSheet h
    obtain ⟨p', hp', hfirm', hbalanced', hne, -, hagain⟩ :=
      rulePart_rounds hinner ih hrounds hp hfirm hsimple
    refine ⟨p', hp', hfirm', hbalanced', fun n depth' cs s₁ hs₁ hn hdepth => ?_⟩
    obtain ⟨depth', rfl⟩ := Nat.exists_eq_add_one.2 (Nat.zero_lt_of_lt hdepth)
    rw [compact_styleSheet] at hs₁
    obtain ⟨hlooks', nodes', s₂, hloop, hbares, hs₂, hle⟩ :=
      hagain n depth' ('\x7d' :: cs) s₁ (by simp) hs₁ hn (Nat.le_of_lt_succ hdepth)
    exact ⟨hlooks' (hne hlooks), _, s₂, styleSheet_of_loop hloop, by simp [hbares], hs₂, hle⟩

/-- A whole style sheet is read again. -/
theorem styleSheet_readsBack {text : List Char} {depth depth' : Nat}
    (hp : Place.Scans ⟨.start false, text, .firm⟩ s.rest) (hsimple : Simple s.rest)
    (h : styleSheet (.upTo depth) (nestedSheet (.upTo depth) depth') false s = .ok tree s') :
    Context.stylesheet.ReadsBack text tree := by
  have hinner := upTo_returns depth
  obtain ⟨nodes, rfl, hrounds⟩ := rounds_of_styleSheet h
  obtain ⟨p', -, -, -, -, hhead, hagain⟩ :=
    rulePart_rounds hinner (nestedSheet_returns hinner depth') hrounds hp rfl hsimple
  rw [← compact_styleSheet (s.rest.head?.map Token.start)] at hhead
  refine ⟨fun hmark d hd hd' => ?_, fun s₁ hs₁ => ?_⟩
  · subst hd'
    rcases hhead _ hd with hstop | hmem
    · exact nomatch hstop
    · exact hmark hmem
  · rw [compact_styleSheet, ← List.append_nil (sheetChars nodes)] at hs₁
    obtain ⟨-, nodes', s₂, hloop, hbares, -⟩ :=
      hagain (s₁.rest.length + 1) (s₁.rest.length + 1) [] s₁ nofun
        hs₁ (Nat.lt_succ_self _) (Nat.le_succ _)
    exact ⟨_, s₂, styleSheet_of_loop hloop, by simp [hbares]⟩

end Grammar

/-! ## Texts without brackets and escapes -/

/-- A lexeme that is no extension is a closed string, or neither a string nor a line comment. -/
theorem readLexeme_closed {state : ScanState} {c : Char} {cs : List Char}
    (h : (readLexeme state c cs).1.extension = none) : (readLexeme state c cs).1.kind ≠ .unknown ∧
      ((readLexeme state c cs).1.kind = .string → ∃ d v, (readLexeme state c cs).1.chars = d :: v ∧
        v.foldlM (StringState.step d) .inside = some .closed) := by
  unfold readLexeme at h ⊢
  split at h
  next => simp
  next => simp
  next =>
    have hclosed : (takeRun (StringState.step c) .inside cs).2.1 = .closed := by
      by_contra hopen
      simp [hopen] at h
    refine ⟨by simp, fun _ => ⟨c, _, rfl, ?_⟩⟩
    rw [← hclosed]
    exact (takeRun_spec ..).1
  next => simp
  next hclass =>
    unfold readPunctuator at h ⊢
    split at h
    · simp
    · split at h
      next => simp_all
      next => split at h <;> simp_all
    · obtain ⟨kind, hkind⟩ := ofChar?_isSome_of_punctuator hclass
      have hchar := char?_of_ofChar? hkind
      simp only [hkind, Option.getD_some]
      refine ⟨?_, ?_⟩ <;> rintro rfl <;> exact nomatch hchar

variable {text : String} {inBlock : Bool}

/-- Where no lexeme is an extension, strings are closed and no comment goes up to the end of a
line. -/
theorem TokenTable.closed_ofText (hextensions : (ofText text inBlock).extensions = []) :
    ∀ token ∈ (ofText text inBlock).tokens.toList, token.kind ≠ .unknown ∧
      ClosesQuote token.kind token.text.toList := by
  intro token hmem
  rw [toList_tokens_ofText] at hmem
  obtain ⟨⟨offset, lexeme⟩, hentry, rfl⟩ := List.mem_map.1 hmem
  have hnone : lexeme.extension = none := by
    simpa using List.filterMap_eq_nil_iff.1 hextensions _ hentry
  obtain ⟨state, c, cs, rfl⟩ : ∃ state c cs, lexeme = (readLexeme state c cs).1 :=
    exists_of_mem_scanFrom hentry
  simpa [Lexeme.token, ClosesQuote] using readLexeme_closed hnone

theorem Place.Scans.exists_reads {p : Place} {tokens : List Token} {token : Token}
    (h : p.Scans tokens) (hmem : token ∈ tokens) :
    ∃ state rest, Reads state token.kind token.text.toList rest := by
  obtain ⟨front, rest, rfl⟩ := List.mem_iff_append.1 hmem
  obtain ⟨cs, -, hrest⟩ := h.append
  obtain ⟨cs', -, hread, -⟩ := hrest.cons
  exact ⟨_, cs', hread⟩

/-- The character of a sign stands in the text. -/
theorem Place.Scans.mem_text_of_char? {p : Place} {tokens : List Token} {token : Token} {c : Char}
    (h : p.Scans tokens) (hmem : token ∈ tokens) (hc : token.kind.char? = some c) : c ∈ p.text := by
  obtain ⟨state, rest, hread⟩ := h.exists_reads hmem
  have hsub : tokenChars [token] ⊆ tokenChars tokens :=
    fun c hc => tokenChars_subset (by simpa using hmem) c hc
  rw [h.text_eq]
  exact hsub (by simp [hread.eq_char hc])

/-- Where none of some signs stands in a text, no token is one of them. -/
theorem Place.Scans.simple {p : Place} {tokens : List Token} (h : p.Scans tokens)
    (hcomments : NoComments tokens) (hunknown : ∀ token ∈ tokens, token.kind ≠ .unknown)
    (htext : ∀ c ∈ ['(', '[', '|', '!'], c ∉ p.text) : Simple tokens := by
  intro token hmem
  have hsign : ∀ c, token.kind.char? = some c → c ∉ ['(', '[', '|', '!'] :=
    fun c hc hmem' => htext c hmem' (h.mem_text_of_char? hmem hc)
  have hcomment := hcomments token hmem
  have hunknown := hunknown token hmem
  cases hk : token.kind <;>
    first | rfl | exact absurd hk ‹_› | exact absurd (hsign _ (by rw [hk]; rfl)) (by decide)

/-- The lexemes of a text without extensions and escapes are firm. -/
theorem TokenTable.firmScans_ofText (hextensions : (ofText text inBlock).extensions = [])
    (hmark : byteOrderMark ∉ text.toList) (hescape : '\\' ∉ text.toList) :
    Place.Scans ⟨.start inBlock, text.toList, .firm⟩ (ofText text inBlock).tokens.toList := by
  have hscans := scans_ofText text inBlock
  rw [withoutMark_eq_self fun d hd hmark' => hmark (hmark' ▸ List.mem_of_mem_head? hd)] at hscans
  refine ⟨hscans.cores, fun token hmem =>
    ⟨fun hslash => hescape ?_, (closed_ofText hextensions token hmem).2⟩⟩
  rw [show text.toList = _ from hscans.text_eq]
  have hsub : [token] ⊆ (ofText text inBlock).tokens.toList := by simpa using hmem
  exact tokenChars_subset hsub _ (by simpa using hslash)

/-- A text without extensions that does not end with a backslash has a closed end. -/
theorem TokenTable.closedScans_ofText (hextensions : (ofText text inBlock).extensions = [])
    (hmark : byteOrderMark ∉ text.toList) (hlast : text.toList.getLast? ≠ some '\\') :
    Place.Scans ⟨.start inBlock, text.toList, .closed⟩ (ofText text inBlock).tokens.toList := by
  have hscans := scans_ofText text inBlock
  rw [withoutMark_eq_self fun d hd hmark' => hmark (hmark' ▸ List.mem_of_mem_head? hd)] at hscans
  refine ⟨hscans.cores, fun token hmem => ⟨fun hslash => hlast ?_,
    (closed_ofText hextensions token (List.mem_of_getLast? hmem)).2⟩⟩
  obtain ⟨init, hinit⟩ := List.getLast?_eq_some_iff.1 hmem
  rw [show text.toList = _ from hscans.text_eq, hinit, tokenChars_append, tokenChars_cons,
    tokenChars_nil, List.append_nil, List.getLast?_append, hslash, Option.some_or]

/-- A style sheet without comments and extensions comes back from its compact text, if no bracket,
bar, flag or escape stands in it. -/
theorem parse_toCss_of_parse_stylesheet {text : String} {options : ParseOptions}
    {node : Node SourceInfo} (hcontext : options.context = .stylesheet)
    (hpositions : options.positions = false)
    (hcomments : NoComments (TokenTable.ofText text false).tokens.toList)
    (hextensions : (TokenTable.ofText text false).extensions = [])
    (hplain : ∀ c ∈ ['(', '[', '|', '!', '\\', byteOrderMark], c ∉ text.toList)
    (h : parse text options = .ok node) : parse node.toCss options = .ok node := by
  have hmark : byteOrderMark ∉ text.toList := hplain _ (by simp)
  refine parse_toCss_of_readsBack hpositions hmark (fun tree s' hread => ?_) h
  rw [hcontext] at hread ⊢
  have hscans := TokenTable.firmScans_ofText hextensions hmark (hplain _ (by simp))
  have hclosed := TokenTable.closed_ofText hextensions
  have hsimple : Simple (TokenTable.ofText text false).tokens.toList :=
    hscans.simple hcomments (fun token hmem => (hclosed token hmem).1) fun c hmem => hplain c (by
      simp only [List.mem_cons, List.not_mem_nil, or_false] at hmem ⊢
      tauto)
  exact styleSheet_readsBack (s := ⟨_, []⟩) hscans hsimple hread

/-- An at-rule with declarations in one with rules, a discarded selector, and an at-rule that the
end of the text ends. -/
theorem parse_toCss_of_parse_stylesheet_nested :
    let node : Node SourceInfo := .sequence none .styleSheet
      [.atrule none "m" (some (.sequence none .atruleExpression [.leaf none .identifier "x"]))
        (some (.sequence none .styleSheet
          [.atrule none "n" (some (.sequence none .atruleExpression []))
            (some (.sequence none .block
            [.pair none .declaration (.leaf none .property "a")
              (.sequence none (.value false) [.leaf none .identifier "b"])])),
          .pair none .ruleset (.sequence none .selector []) (.sequence none .block []),
          .pair none .ruleset (.sequence none .selector [.sequence none .simpleSelector
            [.leaf none .combinator "/deep/", .leaf none .identifier "c",
              .leaf none .combinator ">", .leaf none .pseudoClass "hover"]])
            (.sequence none .block [])])),
      .atrule none "p" (some (.sequence none .atruleExpression [])) none]
    parse
        "@m x \x7b @n\x7ba:b;;\x7d, a\x7b\x7d /deep/ c > :hover\x7b\x7d \x7d @p" {} =
        .ok node ∧
      node.toCss = "@m x\x7b@n\x7ba:b\x7d\x7b\x7d /deep/ c>:hover\x7b\x7d\x7d@p;" ∧
      parse node.toCss {} = .ok node := by
  intro node
  have h : parse
      "@m x \x7b @n\x7ba:b;;\x7d, a\x7b\x7d /deep/ c > :hover\x7b\x7d \x7d @p" {} =
      .ok node := by decide +kernel
  have hplain : (['(', '[', '|', '!', '\\', byteOrderMark].all fun c => decide (c ∉
      "@m x \x7b @n\x7ba:b;;\x7d, a\x7b\x7d /deep/ c > :hover\x7b\x7d \x7d @p".toList)) = true := by
    decide +kernel
  refine ⟨h, by decide +kernel, ?_⟩
  refine parse_toCss_of_parse_stylesheet rfl rfl ?_ (by decide +kernel)
    (fun c hmem => of_decide_eq_true (List.all_eq_true.1 hplain c hmem)) h
  unfold NoComments
  decide +kernel

end StyleTree
