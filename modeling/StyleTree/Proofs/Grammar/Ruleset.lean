import StyleTree.Proofs.Grammar.Body
import StyleTree.Proofs.Grammar.RoundTrip

/-! Rule sets. Where no token is a comment, a bracket, a bar or a flag (`Simple`), a selector is
read again before a brace (`selector_restates`), and a block up to the brace that closes it
(`block_restates`). The text of a rule set ends with a sign, so any text can follow it
(`ruleset_restates`). -/

namespace StyleTree

open StyleTree.Parser StyleTree.Grammar

variable {tokens rest : List Token} {token : Token} {p : Place} {state : ScanState}
    {cs w : List Char}

/-! ## Simple tokens -/

/-- No token is a comment, a bracket, a bar or a flag. -/
def Simple (tokens : List Token) : Prop :=
  ∀ token ∈ tokens, isSimple token.kind = true

theorem Balanced.simple (h : Balanced tokens rest) (hsimple : Simple tokens) : Simple rest :=
  h.forall_kind (P := fun kind => isSimple kind = true) rfl hsimple

theorem Simple.notAt {kind : TokenKind} (h : Simple tokens) (hkind : isSimple kind = false) :
    NotAt kind tokens := by
  refine notAt_of_forall fun token hmem hk => ?_
  have hsimple := h token hmem
  rw [hk, hkind] at hsimple
  exact nomatch hsimple

theorem Simple.noBrackets (h : Simple tokens) : NoBrackets tokens := by
  intro token hmem
  have hsimple := h token hmem
  constructor <;> rintro hk <;> rw [hk] at hsimple <;> exact nomatch hsimple

theorem bangsEnd_of_forall (h : ∀ token ∈ tokens, token.kind ≠ .exclamationMark) :
    bangsEnd tokens = true := by
  induction tokens with
  | nil => rfl
  | cons token tokens ih =>
    have hk := h token (.head _)
    simp [bangsEnd, hk, ih fun token hmem => h token (.tail _ hmem)]

theorem Simple.tidy (h : Simple tokens) (scope : Scope) : Tidy scope tokens := by
  refine ⟨fun token hmem hk => ?_, fun _ => bangsEnd_of_forall fun token hmem hk => ?_⟩ <;>
    have hsimple := h token hmem <;> rw [hk] at hsimple <;> exact nomatch hsimple

/-! ## Signs between places that leave the scanner alike -/

theorem ScanState.calm_after {kind : TokenKind} (hkind : kind ≠ .leftParen) (w w' : List Char) :
    (state.calm.after kind w).calm = (state.after kind w').calm := by
  cases kind <;> first | rfl | exact absurd rfl hkind

theorem ScanState.calm_after_sign {kind : TokenKind} (hkind : kind ≠ .ident) (w : List Char) :
    (state.after kind w).calm = state.after kind w := by
  simp [calm, after, isUrlName, hkind]

/-- A sign is read, and what follows it stands at the place after it. -/
theorem Place.Scans.of_sign_calm {c : Char} {kind : TokenKind}
    (hs : Place.Scans ⟨state.calm, c :: cs, .soft⟩ tokens) (hc : CharClass.ofChar c = .punctuator)
    (hsign : TokenKind.ofChar? c = some kind) (hne : c ≠ '/' ∧ c ≠ '(') (w : List Char) :
    ∃ token rest, tokens = token :: rest ∧ token.kind = kind ∧
      Place.Scans ⟨(state.after kind w).calm, cs, .soft⟩ rest := by
  obtain ⟨token, rest, rfl, hcore, hrest⟩ :=
    Place.Scans.of_sign (p := ⟨state.calm, [], .soft⟩) hs hc hsign hne.1
  have hparen : kind ≠ .leftParen := by
    rintro rfl
    exact hne.2 (Option.some.inj (char?_of_ofChar? hsign)).symm
  have hident : kind ≠ .ident := by
    rintro rfl
    exact nomatch char?_of_ofChar? hsign
  refine ⟨token, rest, rfl, congrArg Prod.fst hcore, ?_⟩
  rwa [← ScanState.calm_after hparen [c], ScanState.calm_after_sign hident]

namespace Grammar

variable {inner : Nested} {s s' : ParserState} {tree : Tree}

/-! ## Selectors -/

theorem compact_selector (info : Option Nat) (entries : List Tree) :
    (Node.sequence info .selector entries).compact = entriesChars entries := by
  simp [Node.compact_sequence, Node.sequenceMarks, Node.map_piece_false, entriesChars]

/-- A selector does not start with an at-sign or a closing brace. -/
theorem start_of_selector (h : selector inner s = .ok tree s') (hs : s.rest = token :: rest) :
    token.kind ≠ .unknown ∧ token.kind ≠ .commercialAt ∧ token.kind ≠ .rightBrace := by
  have hentry : ∀ {entry s₁}, simpleSelector inner false s = .ok entry s₁ → token.kind ≠ .unknown ∧
      token.kind ≠ .commercialAt ∧ token.kind ≠ .rightBrace := by
    intro entry s₁ hentry
    rw [simpleSelector, here_bind_run] at hentry
    obtain ⟨⟨parts, last⟩, s₂, hloop, -⟩ := bind_eq_ok.1 hentry
    have hround : ∃ result s₃, selectorPart inner false {} token s = .ok result s₃ := by
      cases rounds_of_loop hloop with
      | done hs' => cases hs.symm.trans hs'
      | stop hs' hround | next hs' hround =>
        obtain ⟨rfl, -⟩ := List.cons.inj (hs.symm.trans hs')
        exact ⟨_, _, hround⟩
    obtain ⟨result, s₃, hround⟩ := hround
    refine ⟨?_, ?_, ?_⟩ <;> intro hk <;> simp only [selectorPart, hk] at hround <;>
      exact fail_ne_ok.1 hround
  obtain ⟨entries, missing, s₁, hread, -, -⟩ := selector_eq_ok h
  cases hread with
  | missing hends =>
    have hk : token.kind = .leftBrace := by simpa [opensBlock] using hends token (by rw [hs]; rfl)
    rw [hk]
    decide
  | last _ hread | more _ hread => exact hentry hread

/-- The selector is read again from its text before a brace; the blank that the text may start with
can be left out. -/
def SelectorReads (p p' : Place) (tree : Tree) : Prop :=
  ∀ (n : Nat) (cs w : List Char) (s : ParserState), (w = tree.compact ∨ tree.compact = ' ' :: w) →
    Place.Scans ⟨p.state.calm, w ++ '\x7b' :: cs, .soft⟩ s.rest → s.rest.length < n →
    (∀ token ∈ s.rest.head?, token.kind ≠ .comment) ∧ holdsDeclarations s.rest = false ∧
    ∃ tree' s', selector (.upTo n) s = .ok tree' s' ∧ tree'.bare = tree.bare ∧
      Place.Scans ⟨p'.state.calm, '\x7b' :: cs, .soft⟩ s'.rest ∧ s'.rest.length ≤ s.rest.length

theorem selectorReads_nil {p' : Place} (hbare : tree.bare = .sequence none .selector [])
    (hstate : p'.state.calm = p.state.calm) : SelectorReads p p' tree := by
  intro n cs w s hw hs _
  have hcompact : tree.compact = [] := by
    rw [← Node.compact_bare, hbare]
    simp [Node.compact_sequence, Node.sequenceMarks]
  rw [hcompact] at hw
  obtain rfl := hw.resolve_right (by simp)
  obtain ⟨brace, rest, hrest, hk, -⟩ := hs.of_sign_calm rfl rfl (by decide) []
  obtain ⟨tree', s', hread, hbare', hs'⟩ : ∃ tree' s', selector (.upTo n) s = .ok tree' s' ∧
      tree'.bare = .sequence none .selector [] ∧ s'.rest = s.rest :=
    selector_of_leftBrace (by simp [hrest, hk])
  refine ⟨by simp [hrest, hk], by simp [hrest, holdsDeclarations, hk], tree', s', hread,
    hbare'.trans hbare.symm, ?_, by rw [hs']⟩
  rw [hs', hstate]
  exact hs

/-- A selector is read again before a block. If its entries are discarded, nothing is left to
read. -/
theorem selector_restates (hp : p.Scans s.rest) (hfirm : p.firm = .firm) (hsimple : Simple s.rest)
    (h : selector inner s = .ok tree s') : ∃ p' : Place, p'.Scans s'.rest ∧ p'.firm = p.firm ∧
      Balanced s.rest s'.rest ∧ SelectorStart p tree.compact ∧ SelectorReads p p' tree := by
  obtain ⟨hplain, hskims⟩ := skims_selector h hsimple.noBrackets
  obtain ⟨entries, missing, s₁, hread, hrest, htree⟩ := selector_eq_ok h
  obtain ⟨p', hp', hfirm', hbalanced', hends, hagain⟩ :=
    selectorEntries_again (selectorReturns_isSimple inner)
      (entryReturns_selector inner) hread hp hfirm
      hsimple fun _ _ _ _ => trivial
  rw [← hrest] at hp' hbalanced'
  rcases htree with hbare | ⟨hmissing, hchildren, rfl⟩
  · obtain ⟨p₁, hp₁, hfirm₁, hstate₁⟩ := hskims.scans hp hfirm
    refine ⟨p₁, hp₁, hfirm₁, hbalanced', ?_, selectorReads_nil hbare hstate₁⟩
    rw [← Node.compact_bare, hbare]
    exact .of_break nofun
  · obtain ⟨hstart, hagain⟩ := hagain hmissing hchildren
    have hne : entries ≠ [] := by
      rintro rfl
      cases hread
      exact nomatch hmissing
    refine ⟨p', hp', hfirm', hbalanced', compact_selector .. ▸ hstart,
      fun n cs w s₂ hw hs₂ hlt => ?_⟩
    rw [compact_selector] at hw
    obtain ⟨hcomment, entries', s₃, hloop, hbare, hs₃, hlt₃⟩ :=
      hagain n ('\x7b' :: cs) w s₂ (by simp [closingChar]) hw hs₂ hlt
    have hchildren' : ∀ entry ∈ entries', entry.children ≠ [] := by
      intro entry hmem
      have hmem' := List.mem_map_of_mem (f := Node.bare) hmem
      rw [hbare] at hmem'
      obtain ⟨entry', hmem', hbare'⟩ := List.mem_map.1 hmem'
      exact children_ne_nil_of_bare_eq hbare'.symm (hchildren entry' hmem')
    have hread' := selector_of_loop hloop hchildren'
    have hbare' : (Node.sequence (s₂.rest.head?.map Token.start) .selector entries' : Tree).bare =
        (Node.sequence (s.rest.head?.map Token.start) .selector entries).bare := by simp [hbare]
    refine ⟨hcomment, ?_, _, s₃, hread', hbare', hs₃, Nat.le_of_lt hlt₃⟩
    obtain ⟨brace, rest, hrest', hk, -⟩ := hs₃.of_sign_calm rfl rfl (by decide) []
    exact holdsDeclarations_of_selector hread' (Node.plainAt_of_bare_eq hbare' hplain)
      (children_ne_nil_of_bare_eq hbare' hne) (by simp [hrest', hk])

/-! ## Bodies in braces -/

/-- The body is read again up to the brace that closes it, and the look-ahead finds what it
holds. -/
def BodyReads (p p' : Place) (tree : Tree) (declares : Bool) (reader : Nat → Nat → Parser Tree) :
    Prop :=
  ∀ (n depth : Nat) (cs : List Char) (s : ParserState),
    Place.Scans ⟨p.state.calm, tree.compact ++ '\x7d' :: cs, .soft⟩ s.rest → s.rest.length < n →
    s.rest.length < depth → holdsDeclarations s.rest = declares ∧
    ∃ tree' s', reader n depth s = .ok tree' s' ∧ tree'.bare = tree.bare ∧
      Place.Scans ⟨p'.state.calm, '\x7d' :: cs, .soft⟩ s'.rest ∧ s'.rest.length ≤ s.rest.length

/-- The braces around a body are read again with it. -/
theorem BodyReads.braced {p₁ p₂ : Place} {declares : Bool} {reader : Nat → Nat → Parser Tree}
    {v : List Char} (h : BodyReads p₁ p₂ tree declares reader)
    (hopen : p₁.state = p.state.after .leftBrace v) (v' : List Char) {n depth : Nat}
    (hs : Place.Scans ⟨p.state.calm, '\x7b' :: (tree.compact ++ '\x7d' :: cs), .soft⟩ s.rest)
    (hn : s.rest.length ≤ n) (hdepth : s.rest.length ≤ depth) :
    ∃ brace rest tree' s₁ closing rest₁, s.rest = brace :: rest ∧ brace.kind = .leftBrace ∧
      holdsDeclarations rest = declares ∧ reader n depth { s with rest } = .ok tree' s₁ ∧
      tree'.bare = tree.bare ∧ s₁.rest = closing :: rest₁ ∧ closing.kind = .rightBrace ∧
      Place.Scans ⟨(p₂.state.after .rightBrace v').calm, cs, .soft⟩ rest₁ ∧
      rest₁.length < s.rest.length := by
  obtain ⟨brace, rest, hrest, hk, hs₁⟩ := hs.of_sign_calm rfl rfl (by decide) v
  rw [← hopen] at hs₁
  rw [hrest, List.length_cons] at hn hdepth
  obtain ⟨hdeclares, tree', s₁, hread, hbare, hs₂, hle⟩ :=
    h n depth cs { s with rest } hs₁ hn hdepth
  obtain ⟨closing, rest₁, hrest₁, hk₁, hs₃⟩ := hs₂.of_sign_calm rfl rfl (by decide) v'
  refine ⟨brace, rest, tree', s₁, closing, rest₁, hrest, hk, hdeclares, hread, hbare, hrest₁,
    hk₁, hs₃, ?_⟩
  rw [hrest₁] at hle
  rw [hrest]
  simp only [List.length_cons] at hle ⊢
  omega

/-- A block is read again up to the brace that closes it. -/
theorem block_restates (hinner : inner.Returns) (hp : p.Scans s.rest) (hsimple : Simple s.rest)
    (hurl : p.state.afterUrl = false) (h : block inner s = .ok tree s') (hne : s'.rest ≠ []) :
    ∃ p' : Place, p'.Scans s'.rest ∧ p'.firm = p.firm ∧ Balanced s.rest s'.rest ∧
      BodyReads p p' tree true fun n _ => block (.upTo n) := by
  rw [block, here_bind_run] at h
  obtain ⟨nodes, s₁, hmany, h⟩ := bind_eq_ok.1 h
  obtain ⟨rfl, rfl⟩ := EStateM.Result.ok.inj h
  have hrounds := rounds_of_many hmany
  obtain ⟨hplain, -⟩ := plainlyReads_declarations hrounds (.inl hsimple.noBrackets)
  obtain ⟨p', hp', hfirm', hbalanced', -, -, -, hrun⟩ :=
    declarationPart_rounds hinner hrounds hp (hsimple.tidy _) (.inl hurl)
  refine ⟨p', hp', hfirm', hbalanced', fun n depth cs s₂ hs₂ hlt _ => ?_⟩
  rw [compact_block] at hs₂
  obtain ⟨nodes', s₃, hloops, hbares, hs₃, hle⟩ :=
    hrun n ('\x7d' :: cs) s₂ (by simp) (fun htext => absurd (hp'.eq_nil htext) hne) hs₂ hlt
  have hs₃' := (scans_calm_iff (by simp)).2 hs₃
  have hbare : (Node.sequence (s₂.rest.head?.map Token.start) .block nodes' : Tree).bare =
      (Node.sequence (s.rest.head?.map Token.start) .block nodes).bare := by simp [hbares]
  refine ⟨holdsDeclarations_of_rounds (rounds_of_many hloops.many_eq) ?_ ?_, _, s₃, ?_,
    hbare, hs₃', hle⟩
  · have htree : (Node.sequence (s.rest.head?.map Token.start) .block nodes).PlainAt 3 := hplain
    exact Node.plainAt_of_bare_eq hbare htree
  · obtain ⟨closing, rest, hrest, hk, -⟩ := hs₃'.of_sign_calm rfl rfl (by decide) []
    simpa [hrest] using hk
  · show block _ s₂ = _
    rw [block, here_bind_run, declarations, bind_of_ok hloops.many_eq, run_pure]

theorem block_of_bracedBlock (h : bracedBlock inner s = .ok tree s') :
    ∃ brace rest tree' s₁ closing, s.rest = brace :: rest ∧ brace.kind = .leftBrace ∧
      block inner { s with rest } = .ok tree' s₁ ∧ tree'.bare = tree.bare ∧
      s₁.rest = closing :: s'.rest ∧ closing.kind = .rightBrace := by
  rw [bracedBlock, here_bind_run] at h
  obtain ⟨_, s₁, hopen, h⟩ := bind_eq_ok.1 h
  obtain ⟨brace, rest, hs, hk, rfl⟩ := expect_eq_ok.1 hopen
  obtain ⟨nodes, s₂, hread, h⟩ := bind_eq_ok.1 h
  obtain ⟨_, s₃, hclose, h⟩ := bind_eq_ok.1 h
  obtain ⟨closing, rest', hs₂, hk', rfl⟩ := expect_eq_ok.1 hclose
  obtain ⟨rfl, rfl⟩ := EStateM.Result.ok.inj h
  refine ⟨brace, rest, .sequence (rest.head?.map Token.start) .block nodes, s₂, closing, hs, hk,
    ?_, by simp, hs₂, hk'⟩
  rw [block, here_bind_run, bind_of_ok hread, run_pure]

theorem bracedBlock_of_block {brace closing : Token} {rest' : List Token} {s₁ : ParserState}
    (hs : s.rest = brace :: rest) (hk : brace.kind = .leftBrace)
    (h : block inner { s with rest } = .ok tree s₁) (hs₁ : s₁.rest = closing :: rest')
    (hk' : closing.kind = .rightBrace) :
    ∃ tree', bracedBlock inner s = .ok tree' { s₁ with rest := rest' } ∧
      tree'.bare = tree.bare := by
  rw [block, here_bind_run] at h
  obtain ⟨nodes, s₂, hread, h⟩ := bind_eq_ok.1 h
  obtain ⟨rfl, rfl⟩ := EStateM.Result.ok.inj h
  have hopen : expect .leftBrace s = .ok () { s with rest } :=
    expect_eq_ok.2 ⟨brace, rest, hs, hk, rfl⟩
  have hclose : expect .rightBrace s₂ = .ok () { s₂ with rest := rest' } :=
    expect_eq_ok.2 ⟨closing, rest', hs₁, hk', rfl⟩
  refine ⟨.sequence (s.rest.head?.map Token.start) .block nodes, ?_, by simp⟩
  rw [bracedBlock, here_bind_run, bind_of_ok hopen, bind_of_ok hread, bind_of_ok hclose, run_pure]

/-! ## Rules -/

/-- The loop over rules goes on from the first state as it does from the second one after it has
read a rule. -/
structure RuleStep (n depth : Nat) (nested : Bool) (s : ParserState) (tree : Tree)
    (s' : ParserState) :
    Prop where
  lt : s'.rest.length < s.rest.length
  loop : ∀ {items : List Tree} {s'' : ParserState},
    LoopsTo (fun _ => rulePart (.upTo n) (nestedSheet (.upTo n) depth) nested) () s' items () s'' →
    LoopsTo (fun _ => rulePart (.upTo n) (nestedSheet (.upTo n) depth) nested) () s
      (tree :: items) () s''

/-- The loop over rules reads the rule again before any text. The look-ahead finds that it is a
rule. -/
def RuleReads (p p' : Place) (tree : Tree) : Prop :=
  ∀ (n depth : Nat) (nested : Bool) (cs : List Char) (s : ParserState),
    Place.Scans ⟨p.state.calm, tree.compact ++ cs, .soft⟩ s.rest → s.rest.length < n →
    s.rest.length ≤ depth → holdsDeclarations s.rest = false ∧ ∃ tree' s',
      RuleStep n depth nested s tree' s' ∧ tree'.bare = tree.bare ∧
      Place.Scans ⟨p'.state.calm, cs, .soft⟩ s'.rest

variable {sheet : Parser Tree} {nested : Bool}

theorem rulePart_skip (hs : s.rest = token :: rest) (hk : token.kind = .whitespace) :
    rulePart inner sheet nested token s = .ok (.next [] ()) { s with rest } := by
  simp [rulePart, hk, skip, hs]

theorem rulePart_atrule (hk : token.kind = .commercialAt) :
    rulePart inner sheet nested token = add (atrule inner sheet) := by
  simp [rulePart, hk]

theorem rulePart_ruleset (hspace : token.kind ≠ .whitespace) (hcomment : token.kind ≠ .comment)
    (hstart : token.kind ≠ .unknown ∧ token.kind ≠ .commercialAt ∧ token.kind ≠ .rightBrace) :
    rulePart inner sheet nested token = add (ruleset inner) := by
  obtain ⟨hunknown, hat, hbrace⟩ := hstart
  rw [rulePart]
  cases hk : token.kind <;> first | rfl | exact absurd hk ‹_›

theorem RuleStep.skip {n depth : Nat} {s₁ : ParserState} (h : RuleStep n depth nested s₁ tree s')
    (hs : s.rest = token :: rest) (hk : token.kind = .whitespace) (hs₁ : s₁ = { s with rest }) :
    RuleStep n depth nested s tree s' := by
  subst hs₁
  have hlt : rest.length < s.rest.length := by simp [hs]
  exact ⟨h.lt.trans hlt, fun hloop => .next hs (rulePart_skip hs hk) hlt (h.loop hloop)⟩

theorem RuleStep.of_add {n depth : Nat} {read : Parser Tree} (hs : s.rest = token :: rest)
    (hround : rulePart (.upTo n) (nestedSheet (.upTo n) depth) nested token = add read)
    (hread : read s = .ok tree s') (hlt : s'.rest.length < s.rest.length) :
    RuleStep n depth nested s tree s' :=
  ⟨hlt, fun hloop => .cons hs (by rw [hround, add, bind_of_ok hread, run_pure]) hlt hloop⟩

/-! ## Rule sets -/

theorem eq_space_of_stopper {c : Char} (h : isStopper c = true) (hblank : isBlank c = true) :
    c = ' ' := by
  rcases isStopper_iff.1 h with hc | rfl | rfl | rfl | rfl
  · rw [isBlank_of_isBreak hc] at hblank
    exact nomatch hblank
  all_goals first | rfl | exact nomatch hblank

/-- The text of a selector starts with a blank only where a slash follows. -/
theorem SelectorStart.exists_tail {text : List Char} (h : SelectorStart p text) :
    ∃ w, (w = text ∨ text = ' ' :: w) ∧ ∀ d ∈ w.head?, isBlank d = false := by
  by_cases hblank : ∃ w, text = ' ' :: w
  · obtain ⟨w, hw⟩ := hblank
    refine ⟨w, .inr hw, fun d hd => ?_⟩
    rw [h.blank w hw] at hd
    obtain rfl := Option.some.inj hd
    rfl
  · refine ⟨text, .inl rfl, fun d hd => ?_⟩
    rcases h.head d hd with hstop | ⟨-, hd⟩
    · by_contra hd'
      obtain rfl := eq_space_of_stopper hstop (by simpa using hd')
      obtain ⟨w, hw⟩ := List.head?_eq_some_iff.1 hd
      exact hblank ⟨w, hw⟩
    · exact hd

theorem isBlank_head?_before_brace {v : List Char} (h : ∀ d ∈ w.head?, isBlank d = false) :
    ∀ d ∈ (w ++ '\x7b' :: v).head?, isBlank d = false := by
  cases w with
  | nil =>
    intro d hd
    obtain rfl := Option.some.inj hd
    rfl
  | cons c w => exact h

/-- Where no blank stands before the selector, a round of the loop reads the rule set. -/
theorem ruleset_again {p₁ p₂ p₃ : Place} {head body : Tree} {v v' : List Char} {n depth : Nat}
    (hhead : SelectorReads p p₁ head) (hbody : BodyReads p₂ p₃ body true fun n _ => block (.upTo n))
    (hopen : p₂.state = p₁.state.after .leftBrace v)
    (hw : w = head.compact ∨ head.compact = ' ' :: w) (hblank : ∀ d ∈ w.head?, isBlank d = false)
    (hs : Place.Scans ⟨p.state.calm, w ++ '\x7b' :: (body.compact ++ '\x7d' :: cs), .soft⟩ s.rest)
    (hn : s.rest.length < n) : holdsDeclarations s.rest = false ∧ ∃ tree' s',
      RuleStep n depth nested s tree' s' ∧ tree'.bare = .pair none .ruleset head.bare body.bare ∧
      Place.Scans ⟨(p₃.state.after .rightBrace v').calm, cs, .soft⟩ s'.rest := by
  obtain ⟨hcomment, hlooks, head', s₁, hread, hbareHead, hs₁, hle₁⟩ := hhead n _ w s hw hs hn
  obtain ⟨brace, rest, body', s₂, closing, rest₂, hrest, hk, -, hblock, hbareBody, hs₂, hk₂,
    hs₃, hlt₃⟩ := hbody.braced hopen v' hs₁ (Nat.le_of_lt (hle₁.trans_lt hn)) (Nat.le_refl _)
  obtain ⟨body'', hbraced, hbare⟩ := bracedBlock_of_block hrest hk hblock hs₂ hk₂
  obtain ⟨first, more, hs'⟩ : ∃ first more, s.rest = first :: more :=
    List.exists_cons_of_ne_nil fun hnil => by simp [hnil] at hle₁; simp [hrest] at hle₁
  have hspace : first.kind ≠ .whitespace := by
    intro hk
    obtain ⟨d, hd, hd'⟩ := hs.isBlank_iff.2 ⟨first, by simp [hs'], hk⟩
    rw [isBlank_head?_before_brace hblank d hd] at hd'
    exact nomatch hd'
  have hround : rulePart (.upTo n) (nestedSheet (.upTo n) depth) nested first = add
      (ruleset (.upTo n)) :=
    rulePart_ruleset hspace (hcomment first (by simp [hs'])) (start_of_selector hread hs')
  refine ⟨hlooks, .pair (s.rest.head?.map Token.start) .ruleset head' body'',
    { s₂ with rest := rest₂ },
    .of_add hs' hround ?_ (hlt₃.trans_le hle₁), by simp [hbareHead, hbare, hbareBody], hs₃⟩
  rw [ruleset, here_bind_run, bind_of_ok hread, bind_of_ok hbraced, run_pure]

/-- A rule set is read again. -/
theorem ruleset_restates (hinner : inner.Returns) (hp : p.Scans s.rest) (hfirm : p.firm = .firm)
    (hsimple : Simple s.rest) (h : ruleset inner s = .ok tree s') :
    ∃ p' : Place, p'.Scans s'.rest ∧ p'.firm = p.firm ∧ Balanced s.rest s'.rest ∧
      (∀ d ∈ tree.compact.head?, isStopper d = true ∨ d ∈ p.text) ∧ RuleReads p p' tree := by
  rw [ruleset, here_bind_run] at h
  obtain ⟨head, s₁, hhead, h⟩ := bind_eq_ok.1 h
  obtain ⟨body, s₂, hbody, h⟩ := bind_eq_ok.1 h
  obtain ⟨rfl, rfl⟩ := EStateM.Result.ok.inj h
  obtain ⟨p₁, hp₁, hfirm₁, hbalanced₁, hstart, hreads⟩ := selector_restates hp hfirm hsimple hhead
  have hsimple₁ := hbalanced₁.simple hsimple
  obtain ⟨brace, rest, body', s₃, closing, hs₁, hk, hblock, hbare, hs₃, hk'⟩ :=
    block_of_bracedBlock hbody
  rw [hs₁] at hp₁ hbalanced₁ hsimple₁
  obtain ⟨cs₁, -, -, hp₂⟩ := hp₁.cons
  have hstate₂ : (p₁.after brace cs₁).state = p₁.state.after .leftBrace brace.text.toList := by
    rw [Place.after, hk]
  have hbalanced₂ : Balanced (brace :: rest) rest := .token (by simp [hk]) (by simp [hk])
  obtain ⟨p₃, hp₃, hfirm₃, hbalanced₃, hbodyReads⟩ :=
    block_restates (s := { s₁ with rest }) hinner hp₂ (hbalanced₂.simple hsimple₁)
      (by rw [hstate₂]; rfl) hblock (by simp [hs₃])
  rw [hs₃] at hp₃ hbalanced₃
  obtain ⟨cs₃, -, -, hp₄⟩ := hp₃.cons
  have hstate₄ : (p₃.after closing cs₃).state.calm =
      (p₃.state.after .rightBrace closing.text.toList).calm := by
    rw [Place.after, hk']
  have hbalanced₄ : Balanced (closing :: s₂.rest) s₂.rest := .token (by simp [hk']) (by simp [hk'])
  have hcompact : (Node.pair (s.rest.head?.map Token.start) .ruleset head body).compact =
      head.compact ++ '\x7b' :: (body'.compact ++ ['\x7d']) := by
    rw [Node.compact_ruleset, Node.compact_of_bare_eq hbare]
  refine ⟨_, hp₄, hfirm₃.trans hfirm₁,
    hbalanced₁.trans (hbalanced₂.trans (hbalanced₃.trans hbalanced₄)),
    fun d hd => ?_, fun n depth nested cs s₄ hs₄ hn hdepth => ?_⟩
  · rw [hcompact] at hd
    exact ((hstart.append (by simp [isBreak])).head d hd).imp_right And.left
  rw [hcompact, List.append_assoc, List.cons_append, List.append_assoc] at hs₄
  rw [hstate₄, Node.bare_pair, ← hbare]
  obtain ⟨w, hw, hblank⟩ := hstart.exists_tail
  rcases hw with rfl | hw
  · exact ruleset_again hreads hbodyReads hstate₂ (.inl rfl) hblank hs₄ hn
  · rw [hw, List.cons_append] at hs₄
    obtain ⟨blank, rest₄, hs₄', hk₄, hs₅⟩ := scans_blank (isBlank_head?_before_brace hblank) hs₄
    have hlt : rest₄.length < s₄.rest.length := by simp [hs₄']
    obtain ⟨hlooks, tree', s', hstep, htree, hs'⟩ :=
      ruleset_again (s := { s₄ with rest := rest₄ }) hreads hbodyReads hstate₂ (.inr hw) hblank hs₅
        (hlt.trans hn)
    refine ⟨?_, tree', s', hstep.skip hs₄' hk₄ rfl, htree, hs'⟩
    rw [hs₄', holdsDeclarations, hk₄]
    exact hlooks

end Grammar
end StyleTree
