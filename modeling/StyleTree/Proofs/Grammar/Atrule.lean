import StyleTree.Proofs.Grammar.Ruleset

/-! At-rules. The name, the expression and the body of an at-rule are read again one after the other
(`atrule_restates_of_name`), so an at-rule without escapes is (`atrule_restates`). A space stands
before an expression that is not empty, and is skipped (`expression_restates`). Whatever ends the
at-rule is written as a sign, so any text can follow it; for a body of rules this is left to the
reader of these rules (`SheetReturns`). -/

namespace StyleTree.Grammar

open StyleTree.Parser

variable {inner : Nested} {sheet : Parser Tree} {p : Place} {s s' : ParserState} {tree : Tree}
  {token : Token} {tokens rest : List Token} {cs : List Char}

/-! ## Names -/

theorem identifier_of_readName {custom : Bool} {name : String}
    (h : readName custom s = .ok name s') :
    identifier custom s = .ok (.leaf (s.rest.head?.map Token.start) .identifier name) s' := by
  rw [identifier, here_bind_run, bind_of_ok h, run_pure]

theorem readName_of_identifier {custom : Bool} (h : identifier custom s = .ok tree s') :
    ∃ name, readName custom s = .ok name s' ∧ tree.bare = .leaf none .identifier name := by
  rw [identifier, here_bind_run] at h
  obtain ⟨name, s₁, hname, h⟩ := bind_eq_ok.1 h
  obtain ⟨rfl, rfl⟩ := EStateM.Result.ok.inj h
  exact ⟨name, hname, Node.bare_leaf ..⟩

theorem compact_identifier (info : Option Nat) (name : String) :
    (Node.leaf info .identifier name : Tree).compact = name.toList := by
  simp [Node.leafMarks]

/-- A name is kept as it stands. -/
theorem readName_kept {name : String} (hp : p.Scans s.rest) (h : readName false s = .ok name s') :
    ∃ front, s.rest = front ++ s'.rest ∧ Kept (fun _ => identifier false)
      (.leaf (s.rest.head?.map Token.start) .identifier name) front s'.rest := by
  have hread := identifier_of_readName h
  rw [identifier_eq] at hread ⊢
  obtain ⟨front, hs, -, hkept⟩ := signedName_kept hp (by decide) ⟨rfl, rfl⟩ (by decide) hread
  exact ⟨front, hs, hkept⟩

/-- A name is read again before every text in `next`. -/
def NameReturns (next : List Char → Prop) (p p' : Place) (name : String) : Prop :=
  ∀ (cs : List Char) (s₁ : ParserState), next cs → (p.put (name.toList ++ cs)).Scans s₁.rest →
    ∃ s₂, readName false s₁ = .ok name s₂ ∧ (p'.put cs).Scans s₂.rest ∧
      s₂.rest.length < s₁.rest.length

theorem nameReturns_of_part {next : List Char → Prop} {p' : Place} {info : Option Nat}
    {name : String}
    (h : PartReturnsBefore next p s s' (.leaf info .identifier name)
      (fun _ => identifier false) p') :
    NameReturns next p p' name := by
  intro cs s₁ hcs hs₁
  obtain ⟨node', s₂, hrun, hbare, hs₂, hlt⟩ := h.run (s₁.rest.length + 1) cs s₁ hcs
    ((compact_identifier info name).symm ▸ hs₁) (Nat.lt_succ_self _)
  obtain ⟨name', hname', hbare'⟩ := readName_of_identifier hrun
  obtain rfl : name' = name := by
    rw [hbare', Node.bare_leaf] at hbare
    exact (Node.leaf.inj hbare).2.2
  exact ⟨s₂, hname', hs₂, hlt⟩

/-- A name without escapes is read again before a stopper. -/
theorem readName_restates {name : String} (hp : p.Scans s.rest) (hfirm : p.firm = .firm)
    (h : readName false s = .ok name s') : ∃ p' : Place, p'.Scans s'.rest ∧ p'.firm = p.firm ∧
      Balanced s.rest s'.rest ∧ NameReturns (fun cs => ∀ d ∈ cs.head?, isStopper d = true) p
        p' name := by
  obtain ⟨front, hs, hkept⟩ := readName_kept hp h
  obtain ⟨p', hpart⟩ := hkept.returns hp hfirm hs
  exact ⟨p', hpart.scans, hpart.firm, hpart.balanced,
    nameReturns_of_part (hpart.mono fun _ => .inl)⟩

/-- In a text with a closed end, a name is read again before a stopper, but for a blank that would
be a part of it. -/
theorem readName_restates_after {name : String} (hp : p.Scans s.rest) (hclosed : p.firm ≠ .soft)
    (h : readName false s = .ok name s') : ∃ p' : Place, p'.Scans s'.rest ∧ p'.firm = p.firm ∧
      Balanced s.rest s'.rest ∧ NameReturns (fun cs => (∀ d ∈ cs.head?, isStopper d = true) ∧
        (cs.head? = some ' ' → takesBlank name.toList = false)) p p' name := by
  obtain ⟨front, hs, hkept⟩ := readName_kept hp h
  obtain ⟨p', hpart⟩ := hkept.returnsAfter hp hclosed hs
  rw [compact_identifier] at hpart
  exact ⟨p', hpart.scans, hpart.firm, hpart.balanced,
    nameReturns_of_part (hpart.mono fun _ hcs => ⟨.inl hcs.1, fun hspace => .inr (hcs.2 hspace)⟩)⟩

/-! ## Expressions -/

/-- What a colon opens is read again where no token opens a bracket. -/
theorem pseudoReturns_simple (inner : Nested) : PseudoReturns inner Simple := by
  refine ⟨fun {p s s' node token rest} hp hsimple hs hk h => ?_, fun hbalanced => hbalanced.simple⟩
  rcases pseudo_kept_or hp hs h with ⟨front, hrest, hkept⟩ | hcall
  · refine ⟨reprints_of_verbatim _ hp hrest hkept.ne_nil (fun token hmem => ?_) hkept.compact
      fun n s₁ front' rest' hs₁ hcore hpeek hne => ?_, ?_⟩
    · have hword := hkept.words token hmem
      refine ⟨?_, ?_, ?_, ?_⟩ <;> rintro hk <;> rw [hk] at hword <;> exact nomatch hword
    · exact hkept.run n s₁ front' rest' hs₁ hcore (nextLike_of_peek_eq hpeek) hne
    · obtain ⟨first, more, rfl⟩ := List.exists_cons_of_ne_nil hkept.ne_nil
      obtain ⟨rfl, -⟩ := List.cons.inj (hs.symm.trans hrest)
      rw [hs] at hp
      obtain ⟨_, -, hread, -⟩ := hp.cons
      rw [hk] at hread
      exact ⟨tokenChars more, by rw [hkept.compact, tokenChars_cons, hread.eq_char rfl]; rfl⟩
  · obtain ⟨paren, hmem, hk⟩ := hcall.mem_leftParen hp.text_ne
    have hsimple := hsimple paren hmem
    rw [hk] at hsimple
    exact nomatch hsimple

/-- The blank before an expression is skipped. -/
theorem atruleExpression_skip (hs : s.rest = token :: rest) (hk : token.kind = .whitespace)
    (h : atruleExpression inner { s with rest } = .ok tree s') :
    ∃ tree', atruleExpression inner s = .ok tree' s' ∧ tree'.bare = tree.bare := by
  rw [atruleExpression, here_bind_run] at h
  obtain ⟨⟨parts, last⟩, s₁, hloop, h⟩ := bind_eq_ok.1 h
  obtain ⟨rfl, rfl⟩ := EStateM.Result.ok.inj h
  have hround : expressionPart inner false token s = .ok (.next [] false) { s with rest } :=
    expressionPart_skip hs hk
  have hloop' : loop (expressionPart inner) false s = .ok (parts, last) s₁ := by
    rw [loop, get_bind_run] at hloop ⊢
    rw [hs, List.length_cons, loopUpTo, current?_bind_run, hs, List.head?_cons]
    dsimp only
    rw [bind_of_ok hround]
    dsimp only
    rw [bind_of_ok hloop]
    rfl
  refine ⟨.sequence (s.rest.head?.map Token.start) .atruleExpression (dropTrailingSpaces parts),
    ?_, by simp⟩
  rw [atruleExpression, here_bind_run, bind_of_ok hloop']
  rfl

/-- A break can come in before what ends an expression, also at the end of a text without
escapes. -/
theorem follow_of_endsExpression (hp : p.Scans tokens) (hfirm : tokens = [] → p.firm ≠ .soft)
    (hends : ∀ token ∈ tokens.head?, EndsExpression token)
    (hcs : ∀ d ∈ cs.head?, isBreak d = true) :
    p.Follow cs := by
  cases tokens with
  | nil =>
    rw [Place.Follow, hp.nil]
    exact .atEnd (hfirm rfl) hcs
  | cons token rest =>
    obtain ⟨c, hc, hbreak⟩ := (hends token rfl).isBreak
    exact follow_of_isBreak hp rfl hc hbreak hcs

/-- What is written of an expression: the space before it is left out with it. -/
theorem expressionChars_of_atruleExpression (h : atruleExpression inner s = .ok tree s') :
    Node.expressionChars (some tree) = [] ∧ tree.compact = [] ∨
      Node.expressionChars (some tree) = ' ' :: tree.compact := by
  rw [atruleExpression, here_bind_run] at h
  obtain ⟨⟨parts, last⟩, s₁, hloop, h⟩ := bind_eq_ok.1 h
  obtain ⟨rfl, rfl⟩ := EStateM.Result.ok.inj h
  cases hparts : dropTrailingSpaces parts with
  | nil => exact .inl ⟨rfl, by simp [compact_expression, rowChars]⟩
  | cons => exact .inr rfl

/-- An expression is read again with the space that is written before it. -/
theorem expression_restates (hinner : inner.Returns) (hp : p.Scans s.rest)
    (hfirm : s'.rest = [] → p.firm ≠ .soft) (hsimple : Simple s.rest)
    (h : atruleExpression inner s = .ok tree s') :
    ∃ p' : Place, p'.Scans s'.rest ∧ p'.firm = p.firm ∧ Balanced s.rest s'.rest ∧
      (∀ token ∈ s'.rest.head?, EndsExpression token) ∧
      ∀ (n : Nat) (cs : List Char) (s₁ : ParserState),
        (∃ d v, cs = d :: v ∧ closesExpression d = true) →
        (p.put (Node.expressionChars (some tree) ++ cs)).Scans s₁.rest → s₁.rest.length < n →
        ∃ tree' s₂, atruleExpression (.upTo n) s₁ = .ok tree' s₂ ∧ tree'.bare = tree.bare ∧
          (p'.put cs).Scans s₂.rest ∧ s₂.rest.length ≤ s₁.rest.length := by
  obtain ⟨p₁, hp₁, halike, hfirm₁, hbalanced₁, -, -⟩ := hp.skipGaps (hsimple.tidy .value).noComments
  have hsimple₁ := hbalanced₁.simple hsimple
  obtain ⟨p', hp', hfirm', hbalanced', hends, hfollow, hruns⟩ :=
    atruleExpression_restates hinner (pseudoReturns_simple inner) hp₁ (hsimple.tidy _) hsimple₁ h
  refine ⟨p', hp', hfirm'.trans hfirm₁, hbalanced₁.trans hbalanced', hends,
    fun n cs s₁ hcs hs₁ hlt => ?_⟩
  have hcloses : ∀ d ∈ cs.head?, closesExpression d = true := by
    obtain ⟨d, v, rfl, hd⟩ := hcs
    simpa using hd
  have hnext : p'.Follow cs :=
    follow_of_endsExpression hp' (by rw [hfirm', hfirm₁]; exact hfirm) hends
    fun d hd => isBreak_of_closesExpression (hcloses d hd)
  have hfirst := hfollow cs hcloses hnext
  have hparen : (tree.compact ++ cs).head? ≠ some '(' :=
    hfirst.head?_ne_paren hp₁ (hsimple₁.notAt rfl)
  -- Where the expression starts does not depend on whether the name before it was `url`.
  have hstart : ∀ {state : ScanState} {tokens}, Place.Alike state p₁.state →
      Place.Scans ⟨state, tree.compact ++ cs, .soft⟩ tokens →
      (p₁.put (tree.compact ++ cs)).Scans tokens :=
    fun halike hs => ⟨hs.cores.trans (Place.coresFrom_eq_of_alike halike hparen), trivial⟩
  rcases expressionChars_of_atruleExpression h with ⟨hchars, hempty⟩ | hchars
  · rw [hchars, ← hempty] at hs₁
    exact hruns n cs s₁ ⟨hcloses, hnext⟩ (hstart halike hs₁) hlt
  · rw [hchars] at hs₁
    have hblank : ∀ d ∈ (tree.compact ++ cs).head?, isBlank d = false := by
      intro d hd
      by_contra hblank
      obtain ⟨token, hmem, hk⟩ := hp₁.isBlank_iff.1
        (StyleTree.Follow.isBlank_of hfirst hd (by simpa using hblank))
      exact noSpace_dropWhile _ token hmem hk
    obtain ⟨blank, rest, hs₁', hcore, hs₂⟩ := hs₁.of_reads (w := [' ']) (reads_blank hblank)
    have hlt' : rest.length < s₁.rest.length := by simp [hs₁']
    have halike' : Place.Alike (p.state.after .whitespace [' ']) p₁.state := halike
    obtain ⟨tree', s₂, hrun, hbare, hs₃, hle⟩ :=
      hruns n cs { s₁ with rest } ⟨hcloses, hnext⟩ (hstart halike' hs₂) (hlt'.trans hlt)
    obtain ⟨tree'', hrun', hbare'⟩ := atruleExpression_skip hs₁' (congrArg Prod.fst hcore) hrun
    exact ⟨tree'', s₂, hrun', hbare'.trans hbare, hs₃, hle.trans (Nat.le_of_lt hlt')⟩

/-! ## Bodies -/

/-- What a reader of nested rules reads up to a closing brace is read again, and the look-ahead
finds rules there if it did so before. -/
def SheetReturns (sheet : Parser Tree) : Prop :=
  ∀ {p : Place} {s s' : ParserState} {tree : Tree}, p.Scans s.rest → p.firm = .firm →
    Simple s.rest → holdsDeclarations s.rest = false → sheet s = .ok tree s' →
    ∃ p' : Place, p'.Scans s'.rest ∧ p'.firm = p.firm ∧ Balanced s.rest s'.rest ∧
      BodyReads p p' tree false fun n depth => nestedSheet (.upTo n) depth

/-- The reader of a body that starts with the given tokens. -/
def bodyReader (inner : Nested) (sheet : Parser Tree) (tokens : List Token) : Parser Tree :=
  if holdsDeclarations tokens then block inner else sheet

theorem atruleBody_semicolon (hs : s.rest = token :: rest) (hk : token.kind = .semicolon) :
    atruleBody inner sheet s = .ok none { s with rest } := by
  simp [atruleBody, hs, hk]

theorem atruleBody_brace (hs : s.rest = token :: rest) (hk : token.kind = .leftBrace) :
    atruleBody inner sheet s = (bodyReader inner sheet rest >>= fun node =>
      expect .rightBrace >>= fun _ => pure (some node)) { s with rest } := by
  simp only [atruleBody, kind?_bind_run, hs, List.head?_cons, Option.map_some, hk, advance_bind_run,
    List.tail_cons, get_bind_run, bodyReader]
  cases holdsDeclarations rest <;> rfl

/-- A body is read again with the reader that the look-ahead chooses. -/
theorem bodyReader_restates (hinner : inner.Returns) (hsheet : SheetReturns sheet)
    (hp : p.Scans s.rest) (hfirm : p.firm = .firm) (hsimple : Simple s.rest)
    (hurl : p.state.afterUrl = false) (h : bodyReader inner sheet s.rest s = .ok tree s')
    (hne : s'.rest ≠ []) :
    ∃ p' : Place, p'.Scans s'.rest ∧ p'.firm = p.firm ∧ Balanced s.rest s'.rest ∧ ∃ declares,
      BodyReads p p' tree declares fun n depth =>
        if declares then block (.upTo n) else nestedSheet (.upTo n) depth := by
  cases hlooks : holdsDeclarations s.rest with
  | true =>
    rw [bodyReader, hlooks, if_pos rfl] at h
    obtain ⟨p', hp', hfirm', hbalanced', hreads⟩ := block_restates hinner hp hsimple hurl h hne
    exact ⟨p', hp', hfirm', hbalanced', true, hreads⟩
  | false =>
    rw [bodyReader, hlooks, if_neg Bool.false_ne_true] at h
    obtain ⟨p', hp', hfirm', hbalanced', hreads⟩ := hsheet hp hfirm hsimple hlooks h
    exact ⟨p', hp', hfirm', hbalanced', false, hreads⟩

/-- The body of an at-rule is read again, or the semicolon that is written where there is none. -/
theorem atruleBody_restates {body : Option Tree} (hinner : inner.Returns) (hp : p.Scans s.rest)
    (hsheet : NotAt .leftBrace s.rest ∨ p.firm = .firm ∧ SheetReturns sheet)
    (hsimple : Simple s.rest) (hends : ∀ token ∈ s.rest.head?, EndsExpression token)
    (h : atruleBody inner sheet s = .ok body s') :
    ∃ p' : Place, p'.Scans s'.rest ∧ p'.firm = p.firm ∧ Balanced s.rest s'.rest ∧
      ∀ (n depth : Nat) (cs : List Char) (s₁ : ParserState),
        Place.Scans ⟨p.state.calm, Node.bodyChars body ++ cs, .soft⟩ s₁.rest → s₁.rest.length ≤ n →
        s₁.rest.length ≤ depth → ∃ body' s₂,
          atruleBody (.upTo n) (nestedSheet (.upTo n) depth) s₁ = .ok body' s₂ ∧
          body'.map Node.bare = body.map Node.bare ∧
          Place.Scans ⟨p'.state.calm, cs, .soft⟩ s₂.rest ∧
          s₂.rest.length < s₁.rest.length := by
  have hnone : ∀ (n depth : Nat) (cs : List Char) (s₁ : ParserState),
      Place.Scans ⟨p.state.calm, Node.bodyChars (none : Option Tree) ++ cs, .soft⟩ s₁.rest →
        ∃ body' s₂, atruleBody (.upTo n) (nestedSheet (.upTo n) depth) s₁ = .ok body' s₂ ∧
        body'.map Node.bare = none ∧ Place.Scans ⟨p.state.calm, cs, .soft⟩ s₂.rest ∧
        s₂.rest.length < s₁.rest.length := by
    intro n depth cs s₁ hs₁
    obtain ⟨semicolon, rest, hs₁', hk, hs₂⟩ := hs₁.of_sign_calm rfl rfl (by decide) []
    exact ⟨none, { s₁ with rest }, atruleBody_semicolon hs₁' hk, rfl, hs₂, by simp [hs₁']⟩
  cases hs : s.rest with
  | nil =>
    have hread : atruleBody inner sheet s = .ok none s := by simp [atruleBody, hs]
    obtain ⟨rfl, rfl⟩ := EStateM.Result.ok.inj (hread.symm.trans h)
    exact ⟨p, hs ▸ hp, rfl, hs ▸ .refl, fun n depth cs s₁ hs₁ _ _ => hnone n depth cs s₁ hs₁⟩
  | cons token rest =>
    rw [hs] at hp hsimple
    obtain ⟨cs₁, -, -, hp₁⟩ := hp.cons
    rcases hends token (by rw [hs]; rfl) with hk | hk
    · obtain ⟨rfl, rfl⟩ := EStateM.Result.ok.inj ((atruleBody_semicolon hs hk).symm.trans h)
      have hstate : (p.after token cs₁).state.calm = p.state.calm :=
        ScanState.after_of_isLoose (by rw [hk]; rfl) _ _
      refine ⟨_, hp₁, rfl, .token (by simp [hk]) (by simp [hk]), fun n depth cs s₁ hs₁ _ _ => ?_⟩
      rw [hstate]
      exact hnone n depth cs s₁ hs₁
    · obtain ⟨hfirm, hsheet⟩ :=
        hsheet.resolve_left fun hnot => hnot (by rw [hs, List.head?_cons, Option.map_some, hk])
      rw [atruleBody_brace hs hk] at h
      obtain ⟨node, s₁, hread, h⟩ := bind_eq_ok.1 h
      obtain ⟨_, s₂, hclose, h⟩ := bind_eq_ok.1 h
      obtain ⟨closing, rest', hs₁, hk', rfl⟩ := expect_eq_ok.1 hclose
      obtain ⟨rfl, rfl⟩ := EStateM.Result.ok.inj h
      have hopen : (p.after token cs₁).state = p.state.after .leftBrace token.text.toList := by
        rw [Place.after, hk]
      have hbalanced₁ : Balanced (token :: rest) rest := .token (by simp [hk]) (by simp [hk])
      obtain ⟨p₂, hp₂, hfirm₂, hbalanced₂, declares, hreads⟩ :=
        bodyReader_restates (s := { s with rest }) hinner hsheet hp₁ hfirm
          (hbalanced₁.simple hsimple)
          (by rw [hopen]; rfl) hread (by simp [hs₁])
      rw [hs₁] at hp₂ hbalanced₂
      obtain ⟨cs₂, -, -, hp'⟩ := hp₂.cons
      have hstate : (p₂.after closing cs₂).state.calm =
          (p₂.state.after .rightBrace closing.text.toList).calm := by
        rw [Place.after, hk']
      refine ⟨_, hp', hfirm₂, hbalanced₁.trans
        (hbalanced₂.trans (.token (by simp [hk']) (by simp [hk']))),
        fun n depth cs s₃ hs₃ hn hdepth => ?_⟩
      rw [Node.bodyChars, List.cons_append, List.append_assoc] at hs₃
      obtain ⟨brace, rest₃, node', s₄, closing', rest₄, hs₃', hk₃, hlooks, hread', hbare, hs₄, hk₄,
        hs₅, hlt⟩ := hreads.braced hopen closing.text.toList hs₃ hn hdepth
      have hclose' : expect .rightBrace s₄ = .ok () { s₄ with rest := rest₄ } :=
        expect_eq_ok.2 ⟨closing', rest₄, hs₄, hk₄, rfl⟩
      refine ⟨some node', { s₄ with rest := rest₄ },
        ?_, by simp [hbare], by rw [hstate]; exact hs₅, hlt⟩
      rw [atruleBody_brace hs₃' hk₃, bodyReader, hlooks, bind_of_ok hread', bind_of_ok hclose',
        run_pure]

/-! ## At-rules -/

theorem bodyChars_eq_cons (body : Option Tree) :
    ∃ d v, Node.bodyChars body = d :: v ∧ closesExpression d = true := by
  cases body with
  | none => exact ⟨';', _, rfl, rfl⟩
  | some => exact ⟨'\x7b', _, rfl, rfl⟩

/-- What is written after the name of an at-rule starts with a stopper. -/
theorem isStopper_after_name (expression body : Option Tree) (cs : List Char) :
    ∀ d ∈ (Node.expressionChars expression ++ (Node.bodyChars body ++ cs)).head?, isStopper
      d = true := by
  have hbody : ∀ d ∈ (Node.bodyChars body ++ cs).head?, isStopper d = true := by
    obtain ⟨d, v, hchars, hd⟩ := bodyChars_eq_cons body
    rw [hchars]
    rintro _ ⟨⟩
    exact isStopper_iff.2 (.inl (isBreak_of_closesExpression hd))
  cases expression with
  | none => exact hbody
  | some node =>
    rw [Node.expressionChars]
    split
    · exact hbody
    · rintro _ ⟨⟩
      rfl

/-- The at-rule is read again before any text. -/
def AtruleReads (p p' : Place) (tree : Tree) : Prop :=
  ∀ (n depth : Nat) (cs : List Char) (s : ParserState),
    Place.Scans ⟨p.state.calm, tree.compact ++ cs, .soft⟩ s.rest → s.rest.length ≤ n →
    s.rest.length ≤ depth →
    ∃ tree' s', atrule (.upTo n) (nestedSheet (.upTo n) depth) s = .ok tree' s' ∧
      tree'.bare = tree.bare ∧
      Place.Scans ⟨p'.state.calm, cs, .soft⟩ s'.rest ∧ s'.rest.length < s.rest.length

theorem AtruleReads.ruleReads {p' : Place} (h : AtruleReads p p' tree) : RuleReads p p' tree := by
  intro n depth nested cs s hs hn hdepth
  obtain ⟨tree', s', hread, hbare, hs', hlt⟩ := h n depth cs s hs (Nat.le_of_lt hn) hdepth
  have hstart := hread
  rw [atrule] at hstart
  obtain ⟨_, _, hsign, -⟩ := bind_eq_ok.1 hstart
  obtain ⟨sign, rest, hrest, hk, -⟩ := expect_eq_ok.1 hsign
  exact ⟨by simp [hrest, holdsDeclarations, hk], tree', s',
    .of_add hrest (rulePart_atrule hk) hread hlt, hbare, hs'⟩

/-- An at-rule is read again, if its name is read again before what is written after it. -/
theorem atrule_restates_of_name {next : String → List Char → Prop} (hinner : inner.Returns)
    (hp : p.Scans s.rest) (hclosed : p.firm ≠ .soft) (hsimple : Simple s.rest)
    (hsheet : (∀ token ∈ s.rest, token.kind ≠ .leftBrace) ∨ p.firm = .firm ∧ SheetReturns sheet)
    (hname : ∀ {q : Place} {s t : ParserState} {name : String}, q.Scans s.rest → q.firm = p.firm →
      readName false s = .ok name t → ∃ q' : Place, q'.Scans t.rest ∧ q'.firm = q.firm ∧
      Balanced s.rest t.rest ∧ NameReturns (next name) q q' name)
    (hnext : ∀ info name expression body cs, tree = .atrule info name expression body →
      next name (Node.expressionChars expression ++ (Node.bodyChars body ++ cs)))
    (h : atrule inner sheet s = .ok tree s') :
    ∃ p' : Place, p'.Scans s'.rest ∧ p'.firm = p.firm ∧ Balanced s.rest s'.rest ∧
      (∀ d ∈ tree.compact.head?, d ∈ p.text) ∧ AtruleReads p p' tree := by
  rw [atrule] at h
  obtain ⟨_, s₁, hsign, h⟩ := bind_eq_ok.1 h
  obtain ⟨sign, rest, hs, hk, rfl⟩ := expect_eq_ok.1 hsign
  rw [here_bind_run] at h
  obtain ⟨name, s₂, hread, h⟩ := bind_eq_ok.1 h
  obtain ⟨expression, s₃, hexpression, h⟩ := bind_eq_ok.1 h
  obtain ⟨body, s₄, hbody, h⟩ := bind_eq_ok.1 h
  obtain ⟨rfl, rfl⟩ := EStateM.Result.ok.inj h
  rw [hs] at hp hsimple hsheet
  obtain ⟨cs₁, htext, hsignRead, hp₁⟩ := hp.cons
  rw [hk] at hsignRead
  have hstate₁ : (p.after sign cs₁).state = p.state.after .commercialAt sign.text.toList := by
    rw [Place.after, hk]
  have hbalanced₁ : Balanced (sign :: rest) rest := .token (by simp [hk]) (by simp [hk])
  have hsimple₁ := hbalanced₁.simple hsimple
  obtain ⟨p₂, hp₂, hfirm₂, hbalanced₂, hnames⟩ := hname (s := ⟨rest, _⟩) hp₁ rfl hread
  have hsimple₂ := hbalanced₂.simple hsimple₁
  obtain ⟨p₃, hp₃, hfirm₃, hbalanced₃, hends, hexpressions⟩ :=
    expression_restates hinner hp₂ (fun _ => by rw [hfirm₂]; exact hclosed) hsimple₂ hexpression
  have hsimple₃ := hbalanced₃.simple hsimple₂
  have hsheet₃ : NotAt .leftBrace s₃.rest ∨ p₃.firm = .firm ∧ SheetReturns sheet := by
    refine hsheet.imp (fun hbrace => notAt_of_forall ?_)
      (And.imp_left fun hfirm => hfirm₃.trans (hfirm₂.trans hfirm))
    exact (hbalanced₁.trans (hbalanced₂.trans hbalanced₃)).forall_kind
      (P := fun kind => kind ≠ .leftBrace) (by decide)
      hbrace
  obtain ⟨p₄, hp₄, hfirm₄, hbalanced₄, hbodies⟩ :=
    atruleBody_restates hinner hp₃ hsheet₃ hsimple₃ hends hbody
  rw [hs]
  refine ⟨p₄, hp₄, hfirm₄.trans (hfirm₃.trans hfirm₂),
    hbalanced₁.trans (hbalanced₂.trans (hbalanced₃.trans hbalanced₄)), fun d hd => ?_,
    fun n depth cs s₅ hs₅ hn hdepth => ?_⟩
  · rw [Node.compact_atrule] at hd
    obtain rfl := Option.some.inj hd
    rw [htext, hsignRead.eq_char rfl]
    exact .head _
  rw [Node.compact_atrule, List.cons_append, List.append_assoc, List.append_assoc] at hs₅
  obtain ⟨at', rest₅, hs₅', hk₅, hs₆⟩ := hs₅.of_sign_calm rfl rfl (by decide) sign.text.toList
  rw [ScanState.calm_after_sign (by decide), ← hstate₁] at hs₆
  have hlt₅ : rest₅.length < s₅.rest.length := by simp [hs₅']
  obtain ⟨d, v, hchars, hd⟩ := bodyChars_eq_cons body
  obtain ⟨s₇, hname', hs₇, hlt₇⟩ := hnames _ { s₅ with rest := rest₅ } (hnext _ _ _ _ cs rfl) hs₆
  obtain ⟨expression', s₈, hexpression', hbareExpression, hs₈, hle₈⟩ :=
    hexpressions n _ s₇ ⟨d, v ++ cs, by rw [hchars, List.cons_append], hd⟩ hs₇
      (by simp only at hlt₇; omega)
  have hparen : (Node.bodyChars body ++ cs).head? ≠ some '(' := by
    rw [hchars]
    rintro hhead
    obtain rfl := Option.some.inj hhead
    cases hd
  obtain ⟨body', s₉, hbody', hbareBody, hs₉, hlt₉⟩ :=
    hbodies n depth cs s₈ ((scans_calm_iff hparen).2 hs₈) (by simp only at hlt₇; omega)
      (by simp only at hlt₇; omega)
  refine ⟨.atrule (rest₅.head?.map Token.start) name (some expression') body', s₉, ?_,
    by simp [hbareExpression, hbareBody], hs₉, by simp only at hlt₇; omega⟩
  have hsign' : expect .commercialAt s₅ = .ok () { s₅ with rest := rest₅ } :=
    expect_eq_ok.2 ⟨at', rest₅, hs₅', hk₅, rfl⟩
  rw [atrule, bind_of_ok hsign', here_bind_run, bind_of_ok hname', bind_of_ok hexpression',
    bind_of_ok hbody', run_pure]

/-- An at-rule without escapes is read again. -/
theorem atrule_restates (hinner : inner.Returns) (hsheet : SheetReturns sheet) (hp : p.Scans s.rest)
    (hfirm : p.firm = .firm) (hsimple : Simple s.rest) (h : atrule inner sheet s = .ok tree s') :
    ∃ p' : Place, p'.Scans s'.rest ∧ p'.firm = p.firm ∧ Balanced s.rest s'.rest ∧
      (∀ d ∈ tree.compact.head?, d ∈ p.text) ∧ RuleReads p p' tree := by
  obtain ⟨p', hp', hfirm', hbalanced', hhead, hreads⟩ :=
    atrule_restates_of_name hinner hp (hfirm ▸ nofun) hsimple (.inr ⟨hfirm, hsheet⟩)
      (fun hq hqfirm hread => readName_restates hq (hqfirm.trans hfirm) hread)
      (fun _ _ expression body cs _ => isStopper_after_name expression body cs) h
  exact ⟨p', hp', hfirm', hbalanced', hhead, hreads.ruleReads⟩

end StyleTree.Grammar
