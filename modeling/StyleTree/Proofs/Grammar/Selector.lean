import Mathlib.Data.List.Chain
import StyleTree.Proofs.Grammar.Compound
import StyleTree.Proofs.Grammar.Escape
import StyleTree.Proofs.Grammar.Separated

/-! Simple selectors and lists of them. What a round of a simple selector can do is said once
(`selectorPart_cases`): it ends the selector, skips a blank, notes a combinator, or reads a part. A
combinator is written only before a part, so the text of the parts from some round on starts with
the combinator that waits there, and the rounds read it again with the part after it
(`selectorPart_rounds`). -/

namespace StyleTree.Grammar

open StyleTree.Parser

variable {inner : Nested} {nested : Bool} {p p' : Place} {s s' : ParserState} {token : Token}
  {tokens rest : List Token} {tree node : Tree} {nodes : List Tree} {st : SelectorState}

/-! ## Tokens between the parts -/

/-- A place that is reached from another one by tokens that leave the scanner as it was. -/
structure CalmStep (p : Place) (tokens rest : List Token) (p' : Place) : Prop where
  scans : p'.Scans rest
  firm : p'.firm = p.firm
  state : p'.state = p.state.calm
  suffix : rest <:+ tokens
  balanced : Balanced tokens rest

/-- The kinds of tokens that stand between the parts of a selector, names aside. -/
def isJoint : TokenKind → Bool
  | .whitespace | .plus | .greaterThan | .tilde | .solidus => true
  | _ => false

theorem after_joint {kind : TokenKind} (h : isJoint kind = true) (state : ScanState)
    (w : List Char) :
    state.after kind w = state.calm := by
  cases kind <;> first | rfl | exact nomatch h

theorem after_deep {w : List Char} (hw : w.map Text.lowerChar = "deep".toList) (state : ScanState) :
    state.after .ident w = state.calm := by
  have hname : ScanState.isUrlName .ident w = false := by
    rw [ScanState.isUrlName, hw]
    decide
  simp only [ScanState.after, hname, ScanState.calm]

theorem CalmStep.of_token (hp : p.Scans (token :: rest))
    (hafter : p.state.after token.kind token.text.toList = p.state.calm)
    (hkind : isJoint token.kind = true ∨ token.kind = .ident) :
    ∃ p', CalmStep p (token :: rest) rest p' := by
  obtain ⟨cs, -, -, hrest⟩ := hp.cons
  refine ⟨_, hrest, rfl, hafter, List.suffix_cons _ _, ?_⟩
  refine .token ?_ ?_ <;> rintro hk <;> rw [hk] at hkind <;> rcases hkind with h | h <;>
    exact nomatch h

theorem CalmStep.of_joint (hp : p.Scans (token :: rest)) (hjoint : isJoint token.kind = true) :
    ∃ p', CalmStep p (token :: rest) rest p' :=
  CalmStep.of_token hp (after_joint hjoint _ _) (.inl hjoint)

theorem CalmStep.trans {tokens₁ : List Token} {p₁ : Place} (h₁ : CalmStep p tokens tokens₁ p₁)
    (h₂ : CalmStep p₁ tokens₁ rest p') : CalmStep p tokens rest p' where
  scans := h₂.scans
  firm := h₂.firm.trans h₁.firm
  state := by rw [h₂.state, h₁.state]; rfl
  suffix := h₂.suffix.trans h₁.suffix
  balanced := h₁.balanced.trans h₂.balanced

/-- The names of combinators. The one that a blank stands for needs a part before it. -/
inductive Combines (started : Bool) : String → Prop where
  | blank : started = true → Combines started " "
  | sign {name} : name = ">" ∨ name = "+" ∨ name = "~" → Combines started name
  | deep : Combines started "/deep/"

theorem combinator_blank (hs : s.rest = token :: rest) (hk : token.kind = .whitespace) :
    combinator token s = .ok (.leaf (some token.start) .combinator " ") { s with rest } := by
  simp [combinator, hs, hk]

theorem combinator_sign (hs : s.rest = token :: rest)
    (hk : token.kind = .plus ∨ token.kind = .greaterThan ∨ token.kind = .tilde) :
    combinator token s = .ok (.leaf (some token.start) .combinator token.text) { s with rest } := by
  rcases hk with hk | hk | hk <;> simp [combinator, hs, hk]

theorem combinator_deep {word closing : Token} (hs : s.rest = token :: word :: closing :: rest)
    (hk : token.kind = .solidus) (hword : word.kind = .ident ∧ word.spells "deep" = true)
    (hclosing : closing.kind = .solidus) :
    combinator token s = .ok (.leaf (some token.start) .combinator "/deep/") { s with rest } := by
  have hread : expectWord "deep" { s with rest := word :: closing :: rest } =
      .ok () { s with rest := word :: closing :: rest } :=
    expectWord_eq_ok.2 ⟨rfl, word, closing :: rest, rfl, hword⟩
  have hslash : expect .solidus { s with rest := closing :: rest } = .ok () { s with rest } :=
    expect_eq_ok.2 ⟨closing, rest, rfl, hclosing, rfl⟩
  simp only [combinator, here_bind_run, advance_bind_run, hs, List.head?_cons, Option.map_some,
    List.tail_cons, hk, bind_of_ok hread, bind_of_ok hslash, run_pure]

/-- A combinator has one of the known names, and leaves the scanner as it was. Only a blank is named
after one. -/
theorem combinator_cases (hp : p.Scans s.rest) (hs : s.rest = token :: rest)
    (hjoint : isJoint token.kind = true)
    (hblank : token.kind = .whitespace → st.started = true) (h : combinator token s = .ok node s') :
    ∃ name p', node.bare = .leaf none .combinator name ∧ Combines st.started name ∧
      (name = " " → token.kind = .whitespace) ∧ CalmStep p s.rest s'.rest p' := by
  rw [hs] at hp
  obtain ⟨p₁, hstep₁⟩ := CalmStep.of_joint hp hjoint
  by_cases hspace : token.kind = .whitespace
  · obtain ⟨rfl, rfl⟩ := EStateM.Result.ok.inj ((combinator_blank hs hspace).symm.trans h)
    exact ⟨_, p₁, Node.bare_leaf .., .blank (hblank hspace), fun _ => hspace, hs ▸ hstep₁⟩
  by_cases hdeep : token.kind = .solidus
  · rw [combinator, here_bind_run, advance_bind_run, hs] at h
    simp only [hdeep, List.tail_cons] at h
    obtain ⟨_, _, hword, h⟩ := bind_eq_ok.1 h
    obtain ⟨rfl, word, rest', rfl, hident, hspells⟩ := expectWord_eq_ok.1 hword
    rw [advance_bind_run] at h
    obtain ⟨_, _, hslash, h⟩ := bind_eq_ok.1 h
    obtain ⟨closing, rest'', rfl, hclosing, rfl⟩ := expect_eq_ok.1 hslash
    obtain ⟨rfl, rfl⟩ := EStateM.Result.ok.inj h
    have hletters : word.text.toList.map Text.lowerChar = "deep".toList := of_decide_eq_true hspells
    obtain ⟨p₂, hstep₂⟩ := CalmStep.of_token hstep₁.scans
      (by rw [hident]; exact after_deep hletters _) (.inr hident)
    obtain ⟨p₃, hstep₃⟩ := CalmStep.of_joint hstep₂.scans (by rw [hclosing]; rfl)
    exact ⟨_, p₃, Node.bare_leaf .., .deep,
      fun hspace => absurd hspace (by decide), hs ▸ hstep₁.trans (hstep₂.trans hstep₃)⟩
  have hsign : token.kind = .plus ∨ token.kind = .greaterThan ∨ token.kind = .tilde := by
    cases hk : token.kind <;> simp_all [isJoint]
  obtain ⟨rfl, rfl⟩ := EStateM.Result.ok.inj ((combinator_sign hs hsign).symm.trans h)
  have hname : token.text = ">" ∨ token.text = "+" ∨ token.text = "~" := by
    obtain ⟨_, -, hread, -⟩ := hp.cons
    rw [← String.toList_inj, ← String.toList_inj, ← String.toList_inj]
    rcases hsign with hk | hk | hk <;> rw [hk] at hread <;> simp [hread.eq_char rfl]
  refine ⟨_, p₁, Node.bare_leaf .., .sign hname, fun hspace => ?_, hs ▸ hstep₁⟩
  rw [hspace] at hname
  exact absurd hname (by decide)

/-! ## What a round does -/

/-- The reader of a part of a simple selector. -/
def selectorReader (inner : Nested) : TokenKind → Parser Tree
  | .fullStop => classSelector
  | .leftBracket => attributeSelector
  | .numberSign => idSelector
  | .colon => pseudo inner
  | .lowLine | .ident | .asterisk | .verticalLine => qualifiedName false
  | .hyphenMinus | .number => percentageOrName
  | _ => fail .unexpectedInput

/-- The kind of the token that ends a selector, besides a comma. -/
def selectorEnd (nested : Bool) : TokenKind :=
  if nested then .rightParen else .leftBrace

/-- The token ends a simple selector. -/
def EndsSelector (nested : Bool) (token : Token) : Prop :=
  token.kind = .comma ∨ token.kind = selectorEnd nested

theorem selectorPart_ends (h : EndsSelector nested token) :
    selectorPart inner nested st token s = .ok .stop s := by
  cases nested <;> rcases h with hk | hk <;> simp [selectorPart, hk, selectorEnd]

/-- A blank is skipped where a combinator waits already, or nothing was read. -/
theorem selectorPart_skip (hs : s.rest = token :: rest) (hk : token.kind = .whitespace)
    (hst : (st.pending.isNone && st.started) = false) :
    selectorPart inner nested st token s = .ok (.next [] st) { s with rest } := by
  simp [selectorPart, hk, hst, hs]

/-- A combinator waits for the part after it. -/
theorem selectorPart_joint (hjoint : isJoint token.kind = true)
    (hblank : token.kind = .whitespace → (st.pending.isNone && st.started) = true)
    (hopen : token.kind ≠ .whitespace → st.isOpen = false) (h : combinator token s = .ok node s') :
    selectorPart inner nested st token s = .ok (.next [] { st with pending := some node }) s' := by
  by_cases hspace : token.kind = .whitespace
  · simp only [selectorPart, hspace, hblank hspace, if_true, bind_of_ok h, run_pure]
  · have hopen := hopen hspace
    cases hk : token.kind <;>
      simp_all only [isJoint, selectorPart, Bool.false_eq_true, if_false, bind_of_ok h, run_pure]

/-- A part is read with the combinator that waits for it. -/
theorem selectorPart_part (hcomment : token.kind ≠ .comment) (hends : ¬EndsSelector nested token)
    (hjoint : isJoint token.kind = false) :
    selectorPart inner nested st token s = (selectorReader inner token.kind >>= fun node =>
      pure (.next (st.pending.toList ++ [node]) { started := true })) s := by
  rw [EndsSelector, not_or] at hends
  rw [selectorPart]
  cases nested <;> cases hk : token.kind <;>
    first | rfl | exact absurd hk ‹_› | exact absurd hk hends.1 | exact absurd hk hends.2 |
      (rw [hk] at hjoint; exact nomatch hjoint)

/-- What a round of a simple selector does. -/
inductive SelectorRound (inner : Nested) (nested : Bool) (st : SelectorState) (token : Token)
    (s : ParserState) : Round SelectorState Tree → ParserState → Prop where
  | ends : EndsSelector nested token → SelectorRound inner nested st token s .stop s
  | comment : token.kind = .comment →
    SelectorRound inner nested st token s (.next [] st) { s with rest := s.rest.tail }
  | skip : token.kind = .whitespace → (st.pending.isNone && st.started) = false →
    SelectorRound inner nested st token s (.next [] st) { s with rest := s.rest.tail }
  | joint {node : Tree} {s' : ParserState} : isJoint token.kind = true →
    (token.kind = .whitespace → (st.pending.isNone && st.started) = true) →
    (token.kind ≠ .whitespace → st.isOpen = false) → combinator token s = .ok node s' →
    SelectorRound inner nested st token s (.next [] { st with pending := some node }) s'
  | part {node : Tree} {s' : ParserState} : token.kind ≠ .comment → ¬EndsSelector nested token →
    isJoint token.kind = false → selectorReader inner token.kind s = .ok node s' →
    SelectorRound inner nested st token s
      (.next (st.pending.toList ++ [node]) { started := true }) s'

theorem selectorPart_eq_ok {result : Round SelectorState Tree}
    (h : selectorPart inner nested st token s = .ok result s') :
    SelectorRound inner nested st token s result s' := by
  by_cases hends : EndsSelector nested token
  · obtain ⟨rfl, rfl⟩ := EStateM.Result.ok.inj ((selectorPart_ends hends).symm.trans h)
    exact .ends hends
  by_cases hcomment : token.kind = .comment
  · simp only [selectorPart, hcomment] at h
    obtain ⟨rfl, rfl⟩ := EStateM.Result.ok.inj h
    exact .comment hcomment
  cases hjoint : isJoint token.kind with
  | false =>
    rw [selectorPart_part hcomment hends hjoint] at h
    obtain ⟨node, s₁, hread, h⟩ := bind_eq_ok.1 h
    obtain ⟨rfl, rfl⟩ := EStateM.Result.ok.inj h
    exact .part hcomment hends hjoint hread
  | true =>
    by_cases hspace : token.kind = .whitespace
    · simp only [selectorPart, hspace] at h
      cases hst : st.pending.isNone && st.started with
      | false =>
        simp only [hst, Bool.false_eq_true, if_false] at h
        obtain ⟨rfl, rfl⟩ := EStateM.Result.ok.inj h
        exact .skip hspace hst
      | true =>
        simp only [hst, if_true] at h
        obtain ⟨node, s₁, hread, h⟩ := bind_eq_ok.1 h
        obtain ⟨rfl, rfl⟩ := EStateM.Result.ok.inj h
        exact .joint hjoint (fun _ => hst) (absurd hspace) hread
    · have hround : st.isOpen = false ∧ (combinator token >>= fun node =>
          pure (.next [] { st with pending := some node })) s = .ok result s' := by
        cases hopen : st.isOpen <;> cases hk : token.kind <;>
          simp_all [isJoint, selectorPart]
      obtain ⟨node, s₁, hread, h⟩ := bind_eq_ok.1 hround.2
      obtain ⟨rfl, rfl⟩ := EStateM.Result.ok.inj h
      exact .joint hjoint (absurd · hspace) (fun _ => hround.1) hread

/-- What a round does where there are no comments, with the place that it reaches unless it reads a
part. -/
inductive SelectorStep (inner : Nested) (nested : Bool) (p : Place) (st : SelectorState)
    (token : Token) (s : ParserState) : Round SelectorState Tree → ParserState → Prop where
  | ends : EndsSelector nested token → SelectorStep inner nested p st token s .stop s
  | skip {s' : ParserState} {p' : Place} : (st.pending.isNone && st.started) = false →
    CalmStep p s.rest s'.rest p' → SelectorStep inner nested p st token s (.next [] st) s'
  | joint {node : Tree} {name : String} {s' : ParserState} {p' : Place} :
    node.bare = .leaf none .combinator name → Combines st.started name → st.isOpen = false →
    (name = " " → ∃ c ∈ p.text.head?, isBlank c = true) → CalmStep p s.rest s'.rest p' →
    SelectorStep inner nested p st token s (.next [] { st with pending := some node }) s'
  | part {node : Tree} {s' : ParserState} : token.kind ≠ .comment → ¬EndsSelector nested token →
    isJoint token.kind = false → selectorReader inner token.kind s = .ok node s' →
    SelectorStep inner nested p st token s
      (.next (st.pending.toList ++ [node]) { started := true }) s'

theorem selectorPart_cases {result : Round SelectorState Tree} (hs : s.rest = token :: rest)
    (hp : p.Scans s.rest) (hcomment : token.kind ≠ .comment)
    (h : selectorPart inner nested st token s = .ok result s') :
    SelectorStep inner nested p st token s result s' := by
  cases selectorPart_eq_ok h with
  | ends hends => exact .ends hends
  | comment hk => exact absurd hk hcomment
  | skip hk hst =>
    obtain ⟨p', hstep⟩ := CalmStep.of_joint (hs ▸ hp) (by rw [hk]; rfl)
    have hstep : CalmStep p s.rest s.rest.tail p' := by
      rw [hs]
      exact hstep
    exact .skip hst hstep
  | joint hjoint hblank hopen hread =>
    obtain ⟨name, p', hbare, hname, hspace, hstep⟩ :=
      combinator_cases hp hs hjoint (fun hk => (Bool.and_eq_true_iff.1 (hblank hk)).2) hread
    refine .joint hbare hname ?_ (fun hk => hp.isBlank_iff.2 ⟨token, by rw [hs]; rfl, hspace hk⟩)
      hstep
    by_cases hk : token.kind = .whitespace
    · have hnone := Option.isNone_iff_eq_none.1 (Bool.and_eq_true_iff.1 (hblank hk)).1
      rw [SelectorState.isOpen, hnone]
      rfl
    · exact hopen hk
  | part hcomment hends hjoint hread => exact .part hcomment hends hjoint hread

/-! ## Combinators are read again -/

/-- What is written of a combinator. -/
def combinatorChars (name : String) : List Char :=
  if name = "/deep/" then " /deep/ ".toList else name.toList

theorem piece_combinator {name : String} (h : node.bare = .leaf none .combinator name) :
    Node.piece true node = combinatorChars name := by
  cases node with
  | leaf info kind text =>
    rw [Node.bare_leaf] at h
    obtain ⟨-, rfl, rfl⟩ := Node.leaf.inj h
    simp only [Node.piece, Node.isDeep, Bool.true_and, decide_eq_true_eq, combinatorChars]
    split <;> simp [Node.leafMarks]
  | _ => simp [Node.bare, Node.mapInfo] at h

theorem reads_blank {state : ScanState} {cs : List Char} (hcs : ∀ d ∈ cs.head?, isBlank d = false) :
    Reads state .whitespace [' '] cs :=
  .blanks rfl rfl fun d hd => stepWhile_eq_none.2 (hcs d hd)

/-- One blank is read before what is no blank. -/
theorem scans_blank {state : ScanState} {cs : List Char} (hcs : ∀ d ∈ cs.head?, isBlank d = false)
    (hs : Place.Scans ⟨state.calm, ' ' :: cs, .soft⟩ tokens) :
    ∃ token rest, tokens = token :: rest ∧
      token.kind = .whitespace ∧ Place.Scans ⟨state.calm, cs, .soft⟩ rest := by
  obtain ⟨token, rest, rfl, hcore, hrest⟩ :=
    Place.Scans.of_reads (p := ⟨state.calm, [], .soft⟩) (w := [' ']) hs (reads_blank hcs)
  exact ⟨token, rest, rfl, congrArg Prod.fst hcore, hrest⟩

theorem isOpen_of_pending {name : String} (hpending : st.pending = some node)
    (h : node.bare = .leaf none .combinator name) : st.isOpen = decide (name ≠ " ") := by
  rw [SelectorState.isOpen, hpending]
  cases node with
  | leaf info kind text =>
    rw [Node.bare_leaf] at h
    obtain ⟨-, rfl, rfl⟩ := Node.leaf.inj h
    simp [isDescendant]
  | _ => simp [Node.bare, Node.mapInfo] at h

theorem isDeep_combinator (h : node.bare = .leaf none .combinator "/deep/") :
    node.isDeep = true := by
  cases node with
  | leaf info kind text =>
    rw [Node.bare_leaf] at h
    obtain ⟨-, rfl, rfl⟩ := Node.leaf.inj h
    rfl
  | _ => simp [Node.bare, Node.mapInfo] at h

/-- The loop goes on from the first state as it does from the second one, where a combinator of the
given name waits. The first token is one of a combinator. -/
def Awaits (inner : Nested) (nested : Bool) (st : SelectorState) (s : ParserState) (name : String)
    (p : Place) : Prop :=
  (∀ token ∈ s.rest.head?, isJoint token.kind = true) ∧
  ∃ node s', node.bare = .leaf none .combinator name ∧ p.Scans s'.rest ∧
    s'.rest.length < s.rest.length ∧ ∀ items last s'',
      LoopsTo (selectorPart inner nested) { st with pending := some node } s' items last s'' →
      LoopsTo (selectorPart inner nested) st s items last s''

theorem Awaits.of_combinator {name : String} (hs : s.rest = token :: rest)
    (hjoint : isJoint token.kind = true)
    (hblank : token.kind = .whitespace → (st.pending.isNone && st.started) = true)
    (hopen : token.kind ≠ .whitespace → st.isOpen = false)
    (hread : combinator token s = .ok node s') (hbare : node.bare = .leaf none .combinator name)
    (hscans : p.Scans s'.rest) (hlt : s'.rest.length < s.rest.length) :
    Awaits inner nested st s name p :=
  ⟨by simpa [hs] using hjoint, node, s', hbare, hscans, hlt, fun _ _ _ hloop =>
    .next hs (selectorPart_joint hjoint hblank hopen hread) hlt hloop⟩

/-- Blanks after a combinator are skipped. -/
theorem Awaits.skip {name : String} {state : ScanState} {cs : List Char}
    (h : Awaits inner nested st s name ⟨state.calm, ' ' :: cs, .soft⟩)
    (hcs : ∀ d ∈ cs.head?, isBlank d = false) :
    Awaits inner nested st s name ⟨state.calm, cs, .soft⟩ := by
  obtain ⟨hjoint, node, s', hbare, hscans, hlt, hloop⟩ := h
  obtain ⟨blank, rest, hrest, hk, hs₁⟩ := scans_blank hcs hscans
  rw [hrest, List.length_cons] at hlt
  refine ⟨hjoint, node, { s' with rest }, hbare, hs₁, Nat.lt_of_succ_lt hlt,
    fun items last s'' hlater => ?_⟩
  exact hloop _ _ _ (.next hrest (selectorPart_skip hrest hk rfl) (by simp [hrest]) hlater)

/-- The combinator `/deep/` is read up to the blank after it. -/
theorem awaits_deep {state : ScanState} {cs : List Char} (hopen : st.isOpen = false)
    (hcs : ∀ d ∈ cs.head?, isBlank d = false)
    (hs : Place.Scans ⟨state.calm, '/' :: (['d', 'e', 'e', 'p'] ++ '/' :: ' ' :: cs), .soft⟩
      s.rest) :
    Awaits inner nested st s "/deep/" ⟨state.calm, cs, .soft⟩ := by
  have hword : ['e', 'e', 'p'].foldlM IdentifierState.step .plain = some .plain := by decide
  obtain ⟨slash, rest₁, hrest, hslash, hs₁⟩ := Place.Scans.of_reads (p := ⟨state.calm, [], .soft⟩)
    (w := ['/']) hs (.sign rfl rfl (by simp))
  obtain ⟨word, rest₂, rfl, hdeep, hs₂⟩ := Place.Scans.of_reads (p := ⟨_, [], .soft⟩)
    (w := ['d', 'e', 'e', 'p']) hs₁ (.name rfl hword fun d hd => by
      obtain rfl : '/' = d := by simpa using hd
      rfl)
  obtain ⟨closing, rest₃, rfl, hclosing, hs₃⟩ := Place.Scans.of_reads (p := ⟨_, [], .soft⟩)
    (w := ['/']) hs₂ (.sign rfl rfl (by simp))
  have hk : slash.kind = .solidus := congrArg Prod.fst hslash
  have hspells : word.spells "deep" = true := by
    have htext : word.text.toList = ['d', 'e', 'e', 'p'] := congrArg Prod.snd hdeep
    rw [Token.spells, Text.sameLetters, htext]
    decide
  have hread :=
    combinator_deep hrest hk ⟨congrArg Prod.fst hdeep, hspells⟩ (congrArg Prod.fst hclosing)
  refine Awaits.skip (Awaits.of_combinator hrest (by rw [hk]; rfl) (by simp [hk])
    (fun _ => hopen) hread
    (Node.bare_leaf ..) hs₃ ?_) hcs
  simp only [hrest, List.length_cons]
  omega

theorem combinatorChars_deep :
    combinatorChars "/deep/" = ' ' :: '/' :: (['d', 'e', 'e', 'p'] ++ ['/', ' ']) := by
  decide

/-- A combinator is read again from its text. Where nothing was read yet, the blank before it may be
missing. -/
theorem awaits_combinator {state : ScanState} {started : Bool} {name : String} {w cs : List Char}
    (hname : Combines started name)
    (hw : w = combinatorChars name ∨ started = false ∧ combinatorChars name = ' ' :: w)
    (hcs : ∀ d ∈ cs.head?, isBlank d = false)
    (hs : Place.Scans ⟨state.calm, w ++ cs, .soft⟩ s.rest) :
    Awaits inner nested { started } s name ⟨state.calm, cs, .soft⟩ := by
  cases hname with
  | blank hstarted =>
    subst hstarted
    obtain rfl := hw.resolve_right fun h => nomatch h.1
    obtain ⟨blank, rest, hrest, hk, hs₁⟩ := scans_blank hcs hs
    exact .of_combinator hrest (by rw [hk]; rfl) (fun _ => rfl) (absurd hk)
      (combinator_blank hrest hk)
      (Node.bare_leaf ..) hs₁ (by simp [hrest])
  | sign hsign =>
    have hread : ∃ c kind, name = String.singleton c ∧ CharClass.ofChar c = .punctuator ∧
        TokenKind.ofChar? c = some kind ∧ c ≠ '/' ∧ c ≠ ' ' ∧ combinatorChars name = [c] ∧
        (kind = .plus ∨ kind = .greaterThan ∨ kind = .tilde) := by
      rcases hsign with rfl | rfl | rfl
      · exact ⟨'>', _, rfl, rfl, rfl, by decide, by decide, by decide, .inr (.inl rfl)⟩
      · exact ⟨'+', _, rfl, rfl, rfl, by decide, by decide, by decide, .inl rfl⟩
      · exact ⟨'~', _, rfl, rfl, rfl, by decide, by decide, by decide, .inr (.inr rfl)⟩
    obtain ⟨c, kind, rfl, hclass, hkind, hslash, hblank, hchars, hsign⟩ := hread
    rw [hchars] at hw
    obtain rfl := hw.resolve_right fun h => hblank (List.cons.inj h.2).1
    obtain ⟨sign, rest, hrest, hcore, hs₁⟩ :=
      Place.Scans.of_sign (p := ⟨state.calm, [], .soft⟩) hs hclass hkind hslash
    have hk : sign.kind = kind := congrArg Prod.fst hcore
    have htext : sign.text = String.singleton c :=
      String.toList_inj.1 ((congrArg Prod.snd hcore).trans (by simp))
    have hjoint : isJoint sign.kind = true := by rcases hsign with h | h | h <;> rw [hk, h] <;> rfl
    have hspace : sign.kind ≠ .whitespace := by rcases hsign with h | h | h <;> simp [hk, h]
    rw [after_joint (hk ▸ hjoint)] at hs₁
    exact .of_combinator hrest hjoint (absurd · hspace) (fun _ => rfl)
      (combinator_sign hrest (hk ▸ hsign)) (by rw [Node.bare_leaf, htext]) hs₁ (by simp [hrest])
  | deep =>
    rw [combinatorChars_deep] at hw
    rcases hw with rfl | ⟨rfl, hw⟩
    · rw [List.cons_append] at hs
      obtain ⟨blank, rest, hrest, hk, hs₁⟩ := scans_blank (by simp [isBlank, CharClass.ofChar]) hs
      have hlt : rest.length < s.rest.length := by simp [hrest]
      have hjoint : ∀ token ∈ s.rest.head?, isJoint token.kind = true := by
        simp [hrest, hk, isJoint]
      -- A blank after a part is a combinator first, which `/deep/` takes the place of.
      cases started with
      | false =>
        obtain ⟨-, node, s', hbare, hscans, hlt', hloop⟩ :
            Awaits inner nested {} { s with rest } "/deep/" ⟨state.calm, cs, .soft⟩ :=
          awaits_deep rfl hcs (by simpa using hs₁)
        refine ⟨hjoint, node, s', hbare, hscans, hlt'.trans hlt, fun items last s'' hlater => ?_⟩
        exact .next hrest (selectorPart_skip hrest hk rfl) hlt (hloop _ _ _ hlater)
      | true =>
        have hread := combinator_blank hrest hk
        obtain ⟨-, node, s', hbare, hscans, hlt', hloop⟩ : Awaits inner nested
            { pending := some (.leaf (some blank.start) .combinator " "), started := true }
            { s with rest } "/deep/" ⟨state.calm, cs, .soft⟩ :=
          awaits_deep rfl hcs (by simpa using hs₁)
        refine ⟨hjoint, node, s', hbare, hscans, hlt'.trans hlt, fun items last s'' hlater => ?_⟩
        refine .next hrest (selectorPart_joint (by rw [hk]; rfl) (fun _ => rfl) (absurd hk) hread)
          hlt ?_
        exact hloop _ _ _ hlater
    · obtain ⟨-, rfl⟩ := List.cons.inj hw
      exact awaits_deep rfl hcs (by simpa using hs)

/-! ## Parts are read again -/

/-- What was read of a part between two places is read again before every text in `next`. -/
structure PartReturnsBefore (next : List Char → Prop) (p : Place) (s s' : ParserState) (node : Tree)
    (reader : Nat → Parser Tree) (p' : Place) : Prop where
  scans : p'.Scans s'.rest
  firm : p'.firm = p.firm
  balanced : Balanced s.rest s'.rest
  notDeep : node.isDeep = false
  alike : ∀ cs, next cs → p.StartsAlike (node.compact ++ cs)
  run : ∀ (n : Nat) (cs : List Char) (s₁ : ParserState), next cs →
    (p.put (node.compact ++ cs)).Scans s₁.rest → s₁.rest.length < n →
    ∃ node' s₂, reader n s₁ = .ok node' s₂ ∧ node'.bare = node.bare ∧ (p'.put cs).Scans s₂.rest ∧
      s₂.rest.length < s₁.rest.length

/-- What was read of a part between two places is read again before every text that can stand
next. -/
abbrev PartReturns (p : Place) (s s' : ParserState) (node : Tree) (reader : Nat → Parser Tree)
    (p' : Place) : Prop :=
  PartReturnsBefore p'.Joins p s s' node reader p'

theorem PartReturnsBefore.mono {next next' : List Char → Prop} {reader : Nat → Parser Tree}
    (h : PartReturnsBefore next p s s' node reader p') (hnext : ∀ cs, next' cs → next cs) :
    PartReturnsBefore next' p s s' node reader p' where
  scans := h.scans
  firm := h.firm
  balanced := h.balanced
  notDeep := h.notDeep
  alike cs hcs := h.alike cs (hnext cs hcs)
  run n cs s₁ hcs := h.run n cs s₁ (hnext cs hcs)

/-- In a text with a closed end, a part that is kept as it stands is read again unless a blank that
comes in would be a part of it. -/
theorem Kept.returnsAfter {reader : Nat → Parser Tree} {front : List Token}
    (h : Kept reader node front s'.rest) (hp : p.Scans s.rest) (hclosed : p.firm ≠ .soft)
    (hs : s.rest = front ++ s'.rest) : ∃ p' : Place,
      PartReturnsBefore (p'.JoinsAfter (takesBlank node.compact = false)) p s s' node
        reader p' := by
  rw [hs] at hp
  obtain ⟨cs', htext, hp'⟩ := hp.append
  have hcores : ∀ cs, (p.afterAll front cs').JoinsAfter (takesBlank node.compact = false) cs →
      coresFrom p.state (tokenChars front ++ cs) =
        front.map Token.core ++ coresFrom (p.afterAll front cs').state cs := fun cs hcs =>
    hp.words_before htext hclosed h.words hcs.1.ends (h.compact ▸ hcs.2)
  refine ⟨_, hp', rfl, ?_, h.notDeep, fun cs hcs => ?_, fun n cs s₁ hcs hs₁ _ => ?_⟩
  · rw [hs]
    refine .of_forall fun token hmem => ?_
    have hword := h.words token hmem
    constructor <;> rintro hk <;> rw [hk] at hword <;> exact nomatch hword
  · rw [h.compact]
    exact hp.startsAlike_of_cores htext h.ne_nil (hcores cs hcs)
  · rw [h.compact] at hs₁
    obtain ⟨front', rest', hs', hcore, hrest⟩ := Place.Scans.split_of_cores (hcores cs hcs) hs₁
    obtain ⟨tree', hrun, hbare⟩ :=
      h.run n s₁ front' rest' hs' hcore (hcs.1.nextLike hp' hrest) hs₁.text_ne
    refine ⟨tree', _, hrun, hbare, hrest, ?_⟩
    have hlen : front'.length = front.length := by simpa using congrArg List.length hcore
    have hpos := List.length_pos_iff.2 h.ne_nil
    rw [hs', List.length_append]
    simp only
    omega

/-- Where there are no escapes, it is read again before every text that can stand next. -/
theorem Kept.returns {reader : Nat → Parser Tree} {front : List Token}
    (h : Kept reader node front s'.rest) (hp : p.Scans s.rest) (hfirm : p.firm = .firm)
    (hs : s.rest = front ++ s'.rest) : ∃ p', PartReturns p s s' node reader p' := by
  obtain ⟨p', hpart⟩ := h.returnsAfter hp (hfirm ▸ nofun) hs
  have hends : takesBlank node.compact = false := h.compact ▸ (hs ▸ hp).takesBlank_of_firm hfirm
  exact ⟨p', hpart.mono fun _ hjoins => ⟨hjoins, fun _ => .inr hends⟩⟩

/-- The parts of selectors that are `sound` are read again from tokens that satisfy `inv`, before
what can start another part. -/
structure SelectorReturns (inner : Nested) (inv : List Token → Prop)
    (sound : Tree → Prop) : Prop where
  suffix : ∀ {tokens rest : List Token}, inv tokens → rest <:+ tokens → inv rest
  noComment : ∀ {token : Token} {rest : List Token}, inv (token :: rest) → token.kind ≠ .comment
  reads : ∀ {p : Place} {s s' : ParserState} {token : Token} {rest : List Token} {node : Tree},
    p.Scans s.rest → p.firm = .firm → inv s.rest → s.rest = token :: rest → sound node →
    StartsPart s'.rest → selectorReader inner token.kind s = .ok node s' →
    ∃ p', PartReturns p s s' node (fun n => selectorReader (.upTo n) token.kind) p'

/-- The parts of selectors that are `sound` are read again from tokens that satisfy `inv`, before
what can start another part. A blank may come in where one stood, and after parts that it `ends`. -/
structure PartsReturn (inner : Nested) (inv : Place → List Token → Prop)
    (sound ends : Tree → Prop) : Prop where
  suffix : ∀ {p p' : Place} {tokens rest : List Token}, inv p tokens → p'.firm = p.firm →
    rest <:+ tokens → inv p' rest
  noComment : ∀ {p : Place} {token : Token} {rest : List Token}, inv p (token :: rest) →
    token.kind ≠ .comment
  reads : ∀ {p : Place} {s s' : ParserState} {token : Token} {rest : List Token} {node : Tree},
    p.Scans s.rest → inv p s.rest → s.rest = token :: rest → sound node → StartsPart s'.rest →
    selectorReader inner token.kind s = .ok node s' → ∃ p', inv p' s'.rest ∧
      PartReturnsBefore (p'.JoinsAfter (ends node)) p s s' node
        (fun n => selectorReader (.upTo n) token.kind) p'

/-- Every blank ends parts without escapes. -/
theorem SelectorReturns.parts {inv : List Token → Prop} {sound : Tree → Prop}
    (h : SelectorReturns inner inv sound) :
    PartsReturn inner (fun p tokens => p.firm = .firm ∧ inv tokens) sound fun _ => True where
  suffix hinv hfirm hsuffix := ⟨hfirm ▸ hinv.1, h.suffix hinv.2 hsuffix⟩
  noComment hinv := h.noComment hinv.2
  reads hp hinv hs hsound hstarts hread := by
    obtain ⟨p', hpart⟩ := h.reads hp hinv.1 hinv.2 hs hsound hstarts hread
    have hsuffix := hpart.balanced.suffix fun token hmem => (hp.isFirm hinv.1 token hmem).1
    exact ⟨p', ⟨hpart.firm ▸ hinv.1, h.suffix hinv.2 hsuffix⟩, hpart.mono fun _ => And.left⟩

/-- The rounds of a selector go on with a part, or with what stands between the parts. -/
theorem startsPart_of_rounds {last : SelectorState}
    (h : Rounds (selectorPart inner nested) st s nodes last s') : StartsPart s.rest := by
  have key : ∀ {token rest result s₁}, s.rest = token :: rest →
      selectorPart inner nested st token s = .ok result s₁ → StartsPart s.rest := by
    intro token rest result s₁ hs hround
    have hparen : NotAt .leftParen s.rest := by
      rw [hs]
      intro hhead
      have hk : token.kind = .leftParen := Option.some.inj hhead
      simp [selectorPart, hk] at hround
    refine ⟨hparen, or_iff_not_imp_left.2 fun hbar => ?_⟩
    have hk : token.kind = .verticalLine := by simpa [NotAt, hs] using hbar
    cases selectorPart_eq_ok hround with
    | ends hends => rcases hends with hk' | hk' <;> rw [hk] at hk' <;> cases nested <;> cases hk'
    | comment hk' | skip hk' => cases hk.symm.trans hk'
    | joint hjoint =>
      rw [hk] at hjoint
      cases hjoint
    | part _ _ _ hread =>
      simp only [hk, selectorReader] at hread
      exact opensTail_of_qualifiedName hread hs hk
  cases h with
  | done hs => exact ⟨by simp [NotAt, hs], .inl (by simp [NotAt, hs])⟩
  | stop hs hround | next hs hround => exact key hs hround

/-! ## The rounds are read again -/

/-- The character ends a simple selector. -/
def closesSelector (nested : Bool) (c : Char) : Bool :=
  c = ',' || c = if nested then ')' else '\x7b'

theorem isBreak_of_closesSelector {c : Char} (h : closesSelector nested c = true) :
    isBreak c = true := by
  cases nested <;> simp [closesSelector] at h <;> rcases h with rfl | rfl <;> rfl

theorem endsSelector_of_closing {cs : List Char} (hs : (p.put cs).Scans tokens)
    (hcs : ∀ d ∈ cs.head?, closesSelector nested d = true) :
    ∀ token ∈ tokens.head?, EndsSelector nested token := by
  cases tokens with
  | nil => exact nofun
  | cons token rest =>
    intro token' hmem
    obtain rfl := Option.some.inj hmem
    cases cs with
    | nil => exact nomatch hs.eq_nil rfl
    | cons c cs =>
      have hc := hcs c rfl
      cases nested <;> simp [closesSelector] at hc <;> rcases hc with rfl | rfl
      · exact .inl (hs.kind_of_sign rfl rfl (by decide))
      · exact .inr (hs.kind_of_sign rfl rfl (by decide))
      · exact .inl (hs.kind_of_sign rfl rfl (by decide))
      · exact .inr (hs.kind_of_sign rfl rfl (by decide))

theorem selectorPart_closing (h : ∀ token ∈ s.rest.head?, EndsSelector nested token) :
    LoopsTo (selectorPart inner nested) st s [] st s := by
  cases hrest : s.rest with
  | nil => exact .done hrest
  | cons token rest => exact .stop hrest (selectorPart_ends (h token (by rw [hrest]; rfl)))

theorem EndsSelector.ne_comment (h : EndsSelector nested token) : token.kind ≠ .comment := by
  rcases h with hk | hk <;> rw [hk]
  · decide
  · cases nested <;> decide

/-- What is written of the parts of a simple selector. -/
def selectorChars (nodes : List Tree) : List Char :=
  (nodes.map (Node.piece true)).flatten

@[simp] theorem selectorChars_nil : selectorChars [] = [] := rfl

@[simp] theorem selectorChars_cons (node : Tree) (nodes : List Tree) :
    selectorChars (node :: nodes) = Node.piece true node ++ selectorChars nodes := rfl

/-- The loop reads the parts again from their text, between places that leave the scanner alike. No
comment stands at its start. -/
def SelectorAgain (nested : Bool) (p p' : Place) (started : Bool) (nodes : List Tree) : Prop :=
  ∀ (n : Nat) (cs w : List Char) (s : ParserState),
    (∀ d ∈ cs.head?, closesSelector nested d = true) →
    (w = selectorChars nodes ∨ started = false ∧ selectorChars nodes = ' ' :: w) →
    Place.Scans ⟨p.state.calm, w ++ cs, .soft⟩ s.rest → s.rest.length < n →
    (∀ token ∈ s.rest.head?, token.kind ≠ .comment) ∧
    ∃ nodes' last s', LoopsTo (selectorPart (.upTo n) nested) { started } s nodes' last s' ∧
      last.isOpen = false ∧ nodes'.map Node.bare = nodes.map Node.bare ∧
      Place.Scans ⟨p'.state.calm, cs, .soft⟩ s'.rest ∧ s'.rest.length + nodes.length ≤ s.rest.length

/-- A combinator waits as one that is known. -/
def SelectorState.Known (st : SelectorState) : Prop :=
  ∀ node ∈ st.pending, ∃ name, node.bare = .leaf none .combinator name ∧ Combines st.started name

/-- What is known of the text of the parts that a loop reads from a state on. Where a combinator
waits, the text starts with it. Where none waits after a part, the text starts with a blank only if
one stands there or `/deep/` comes next. -/
structure SelectorText (nested : Bool) (p p' : Place) (st : SelectorState) (nodes : List Tree) :
    Prop where
  stops : st.pending.isSome = true →
    ∀ cs : List Char, (∀ d ∈ cs.head?, closesSelector nested d = true) →
    ∀ d ∈ (selectorChars nodes ++ cs).head?, isStopper d = true
  joins : st.pending = none → st.started = true → ∀ cs : List Char,
    (∀ d ∈ cs.head?, closesSelector nested d = true) → p.Joins (selectorChars nodes ++ cs)
  blank : st.started = false → ∀ w, selectorChars nodes = ' ' :: w → w.head? = some '/'
  spaced : ∀ w, selectorChars nodes = ' ' :: w →
    (∃ node ∈ nodes.head?, node.isDeep = true) ∨ st.isOpen = false ∧
    (st.pending = none → st.started = true → ∃ c ∈ p.text.head?, isBlank c = true)
  head : ∀ d ∈ (selectorChars nodes).head?, isStopper d = true ∨ d ∈ p.text ∧ isBlank d = false
  again : SelectorAgain nested p p' st.started nodes

theorem isStopper_of_closesSelector {c : Char} (h : closesSelector nested c = true) :
    isStopper c = true :=
  isStopper_iff.2 (.inl (isBreak_of_closesSelector h))

theorem SelectorText.nil (p : Place) (st : SelectorState) : SelectorText nested p p st [] where
  stops _ _ hcs d hd := isStopper_of_closesSelector (hcs d hd)
  joins _ _ _ hcs := .inl fun d hd => isStopper_of_closesSelector (hcs d hd)
  blank := nofun
  spaced := nofun
  head := nofun
  again n cs w s hcs hw hs _ := by
    obtain rfl := hw.resolve_right fun h => nomatch h.2
    have hends := endsSelector_of_closing (p := ⟨p.state.calm, [], .soft⟩) hs hcs
    exact ⟨fun token hmem => (hends token hmem).ne_comment, [], _, s,
      selectorPart_closing hends, rfl, rfl, hs, Nat.le_refl _⟩

theorem SelectorAgain.of_state_eq {started : Bool} {p₁ : Place}
    (h : SelectorAgain nested p₁ p' started nodes) (hstate : p₁.state = p.state.calm) :
    SelectorAgain nested p p' started nodes := by
  intro n cs w s hcs hw hs hlt
  refine h n cs w s hcs hw ?_ hlt
  rw [hstate]
  exact hs

theorem SelectorText.skip {p₁ : Place} (h : SelectorText nested p₁ p' st nodes)
    (hstate : p₁.state = p.state.calm) (htext : ∀ c ∈ p₁.text, c ∈ p.text)
    (hst : (st.pending.isNone && st.started) = false) :
    SelectorText nested p p' st nodes where
  stops := h.stops
  joins hpending hstarted := by simp [hpending, hstarted] at hst
  blank := h.blank
  spaced w hw := (h.spaced w hw).imp_right fun hspaced =>
    ⟨hspaced.1, fun hpending hstarted => by simp [hpending, hstarted] at hst⟩
  head d hd := (h.head d hd).imp_right fun hd => ⟨htext d hd.1, hd.2⟩
  again := h.again.of_state_eq hstate

theorem SelectorText.joint {p₁ : Place} {name : String}
    (h : SelectorText nested p₁ p' { st with pending := some node } nodes)
    (hbare : node.bare = .leaf none .combinator name) (hopen : st.isOpen = false)
    (hspace : name = " " → ∃ c ∈ p.text.head?, isBlank c = true)
    (hstate : p₁.state = p.state.calm) : SelectorText nested p p' st nodes where
  stops _ := h.stops rfl
  joins _ _ cs hcs := .inl (h.stops rfl cs hcs)
  blank := h.blank
  spaced w hw := (h.spaced w hw).imp_right fun hspaced =>
    have hopens : ({ st with pending := some node } : SelectorState).isOpen = decide (name ≠ " ") :=
      isOpen_of_pending rfl hbare
    ⟨hopen, fun _ _ => hspace (by simpa using hopens.symm.trans hspaced.1)⟩
  head d hd := .inl (h.stops rfl [] nofun d (by simpa using hd))
  again := h.again.of_state_eq hstate

/-- A part is read where it stands, and what comes after it can be read again. -/
structure PartThen (next : List Char → Prop) (nested : Bool) (p p₁ p' : Place) (s s₁ : ParserState)
    (token : Token) (node : Tree) (later : List Tree) : Prop where
  returns : PartReturnsBefore next p s s₁ node (fun n => selectorReader (.upTo n) token.kind) p₁
  scans : p.Scans s.rest
  first : ∃ rest, s.rest = token :: rest
  notComment : token.kind ≠ .comment
  notEnds : ¬EndsSelector nested token
  notJoint : isJoint token.kind = false
  noParen : NotAt .leftParen s.rest ∧ NotAt .leftParen s₁.rest
  laterText : SelectorText nested p₁ p' { started := true } later
  next_later : ∀ cs : List Char, (∀ d ∈ cs.head?, closesSelector nested d = true) →
    next (selectorChars later ++ cs)

/-- From every state of the loop, the part is read again with what waits before it and what comes
after it. -/
theorem PartThen.again {next : List Char → Prop} {p₁ : Place} {s₁ : ParserState} {later : List Tree}
    (h : PartThen next nested p p₁ p' s s₁ token node later) (st : SelectorState) {n : Nat}
    {cs : List Char} (hcs : ∀ d ∈ cs.head?, closesSelector nested d = true) {s₂ : ParserState}
    (hs₂ : Place.Scans ⟨p.state.calm, node.compact ++ (selectorChars later ++ cs), .soft⟩ s₂.rest)
    (hlt : s₂.rest.length < n) :
    (∀ token' ∈ s₂.rest.head?, token'.kind = token.kind) ∧
    ∃ node' later' last s', LoopsTo (selectorPart (.upTo n) nested) st s₂
        (st.pending.toList ++ node' :: later') last s' ∧ last.isOpen = false ∧
      node'.bare = node.bare ∧ later'.map Node.bare = later.map Node.bare ∧
      Place.Scans ⟨p'.state.calm, cs, .soft⟩ s'.rest ∧
      s'.rest.length + (later.length + 1) ≤ s₂.rest.length := by
  obtain ⟨rest, hs⟩ := h.first
  have hjoins := h.laterText.joins rfl rfl cs hcs
  have halike := h.returns.alike _ (h.next_later cs hcs)
  have hhead : (node.compact ++ (selectorChars later ++ cs)).head? ≠ some '(' := by
    rw [halike.1]
    exact h.scans.head?_ne_paren h.noParen.1
  have hs₂' := (scans_calm_iff hhead).1 hs₂
  obtain ⟨node', s₃, hrun, hbare, hs₃, hlt₃⟩ := h.returns.run n _ s₂ (h.next_later cs hcs) hs₂' hlt
  obtain ⟨token', rest', hrest'⟩ : ∃ token' rest', s₂.rest = token' :: rest' :=
    List.exists_cons_of_ne_nil fun h => by simp [h] at hlt₃
  have hk : token'.kind = token.kind := by
    have hkind := halike.kind_eq h.scans hs₂'
    rw [hrest', hs] at hkind
    exact Option.some.inj hkind
  have hround : selectorPart (.upTo n) nested st token' s₂ =
      .ok (.next (st.pending.toList ++ [node']) { started := true }) s₃ := by
    rw [selectorPart_part (hk ▸ h.notComment) (by rw [EndsSelector, hk]; exact h.notEnds)
      (hk ▸ h.notJoint), hk, bind_of_ok hrun, run_pure]
  have hs₃' := (scans_calm_iff (hjoins.head?_ne_paren h.returns.scans h.noParen.2)).2 hs₃
  obtain ⟨-, later', last, s₄, hloop, hlast, hlater', hs₄, hle⟩ :=
    h.laterText.again n cs _ s₃ hcs (.inl rfl) hs₃' (by omega)
  refine ⟨by simpa [hrest'] using hk, node', later', last, s₄, ?_, hlast, hbare, hlater',
    hs₄, by omega⟩
  rw [List.append_cons]
  exact .next hrest' hround hlt₃ hloop

theorem combinatorChars_eq_cons {started : Bool} {name : String} (h : Combines started name) :
    ∃ c v, combinatorChars name = c :: v ∧ isStopper c = true ∧
      (started = false → c = ' ' → v.head? = some '/') ∧
      (c = ' ' → name = " " ∨ name = "/deep/") := by
  cases h with
  | blank hstarted =>
    exact ⟨' ', [], by decide, by decide, fun h => (nomatch h.symm.trans hstarted),
      fun _ => .inl rfl⟩
  | sign hsign =>
    rcases hsign with rfl | rfl | rfl
    · exact ⟨'>', [], by decide, by decide, fun _ h => (nomatch h), fun h => (nomatch h)⟩
    · exact ⟨'+', [], by decide, by decide, fun _ h => (nomatch h), fun h => (nomatch h)⟩
    · exact ⟨'~', [], by decide, by decide, fun _ h => (nomatch h), fun h => (nomatch h)⟩
  | deep => exact ⟨' ', _, combinatorChars_deep, by decide, fun _ _ => rfl, fun _ => .inr rfl⟩

theorem ne_blank_of_startsAlike {cs : List Char} (h : p.StartsAlike cs) (hp : p.Scans s.rest)
    (hs : s.rest = token :: rest) (hjoint : isJoint token.kind = false) :
    ∀ d ∈ cs.head?, isBlank d = false := by
  intro d hd
  rw [h.1] at hd
  by_contra hblank
  obtain ⟨other, hother, hk⟩ := hp.isBlank_iff.1 ⟨d, hd, by simpa using hblank⟩
  rw [hs] at hother
  obtain rfl : token = other := by simpa using hother
  rw [hk] at hjoint
  exact nomatch hjoint

section

variable {next : List Char → Prop} {p₁ : Place} {s₁ : ParserState} {later : List Tree}

theorem PartThen.piece (h : PartThen next nested p p₁ p' s s₁ token node later) :
    Node.piece true node = node.compact := by
  simp [Node.piece, h.returns.notDeep]

theorem PartThen.ne_blank (h : PartThen next nested p p₁ p' s s₁ token node later) {cs : List Char}
    (hcs : ∀ d ∈ cs.head?, closesSelector nested d = true) :
    ∀ d ∈ (node.compact ++ (selectorChars later ++ cs)).head?, isBlank d = false := by
  obtain ⟨rest, hs⟩ := h.first
  exact ne_blank_of_startsAlike (h.returns.alike _ (h.next_later cs hcs)) h.scans hs h.notJoint

/-- Where no combinator waits, the text starts with that of the part. -/
theorem SelectorText.part_of_none (h : PartThen next nested p p₁ p' s s₁ token node later)
    (hpending : st.pending = none) : SelectorText nested p p' st (node :: later) := by
  have halike : ∀ cs : List Char, (∀ d ∈ cs.head?, closesSelector nested d = true) →
      p.StartsAlike (selectorChars (node :: later) ++ cs) := fun cs hcs => by
    simpa [h.piece] using h.returns.alike _ (h.next_later cs hcs)
  have hne : ∀ d ∈ (selectorChars (node :: later)).head?, isBlank d = false := by
    have hclosed : ∀ d ∈ ([] : List Char).head?, closesSelector nested d = true := by simp
    simpa [h.piece] using h.ne_blank hclosed
  have hspace : ∀ w, selectorChars (node :: later) ≠ ' ' :: w := by
    intro w hw
    have hhead := hne ' ' (by simp [hw])
    cases hhead
  refine ⟨fun h => by simp [hpending] at h, fun _ _ cs hcs => .inr (halike cs hcs),
    fun _ w hw => absurd hw (hspace w), fun w hw => absurd hw (hspace w),
    fun d hd => .inr ⟨?_, hne d hd⟩,
    fun n cs w s₂ hcs hw hs₂ hlt => ?_⟩
  · have hhead := (halike [] (by simp)).1
    rw [List.append_nil] at hhead
    exact List.mem_of_mem_head? (hhead ▸ hd : d ∈ p.text.head?)
  · obtain rfl := hw.resolve_right fun hw => hspace w hw.2
    obtain ⟨hkind, node', later', last, s', hloop, hlast, hbare, hlater', hs', hle⟩ :=
      h.again { started := st.started } hcs (by simpa [h.piece] using hs₂) hlt
    exact ⟨fun token' hmem => by rw [hkind token' hmem]; exact h.notComment, _, last, s',
      hloop, hlast, by simp [hbare, hlater'], hs', by simpa using hle⟩

/-- A part is written after the combinator that waits for it. -/
theorem SelectorText.part_of_waiting {waiting : Tree}
    (h : PartThen next nested p p₁ p' s s₁ token node later) (hst : st.Known)
    (hpending : st.pending = some waiting) :
    SelectorText nested p p' st (waiting :: node :: later) := by
  obtain ⟨name, hname, hcombines⟩ := hst waiting hpending
  obtain ⟨c, v, hchars, hstop, hslash, hspace⟩ := combinatorChars_eq_cons hcombines
  have hwritten : selectorChars (waiting :: node :: later) =
      c :: (v ++ (node.compact ++ selectorChars later)) := by
    simp [piece_combinator hname, hchars, h.piece]
  refine ⟨fun _ cs _ d hd => ?_, fun h => by simp [hpending] at h, fun hstarted w hw => ?_,
    fun w hw => ?_, fun d hd => .inl ?_, fun n cs w s₂ hcs hw hs₂ hlt => ?_⟩
  · rw [hwritten] at hd
    obtain rfl := Option.some.inj hd
    exact hstop
  · obtain ⟨hc, rfl⟩ := List.cons.inj (hwritten.symm.trans hw)
    rw [List.head?_append, hslash hstarted hc]
    rfl
  · obtain ⟨hc, -⟩ := List.cons.inj (hwritten.symm.trans hw)
    rcases hspace hc with rfl | rfl
    · exact .inr ⟨by simp [isOpen_of_pending hpending hname], by simp [hpending]⟩
    · exact .inl ⟨waiting, rfl, isDeep_combinator hname⟩
  · rw [hwritten] at hd
    obtain rfl := Option.some.inj hd
    exact hstop
  · obtain ⟨w₁, rfl, hw₁⟩ : ∃ w₁, w = w₁ ++ (node.compact ++ selectorChars later) ∧
        (w₁ = combinatorChars name ∨ st.started = false ∧ combinatorChars name = ' ' :: w₁) := by
      rcases hw with hw | ⟨hstarted, hw⟩
      · exact ⟨_, by rw [hw, hwritten, hchars, List.cons_append], .inl rfl⟩
      · obtain ⟨rfl, rfl⟩ := List.cons.inj (hwritten.symm.trans hw)
        exact ⟨v, rfl, .inr ⟨hstarted, hchars⟩⟩
    obtain ⟨hjoint₂, waiting', s₃, hwaiting', hs₃, hlt₃, hloop₃⟩ :
        Awaits (.upTo n) nested { started := st.started } s₂ name
          ⟨p.state.calm, node.compact ++ (selectorChars later ++ cs), .soft⟩ :=
      awaits_combinator hcombines hw₁ (h.ne_blank hcs) (by simpa using hs₂)
    obtain ⟨-, node', later', last, s', hloop, hlast, hbare, hlater', hs', hle⟩ :=
      h.again { pending := some waiting', started := st.started } hcs hs₃ (hlt₃.trans hlt)
    refine ⟨fun token' hmem hk => ?_, _, last, s', hloop₃ _ _ _ hloop, hlast,
      by simp [hbare, hlater', hname, hwaiting'], hs', ?_⟩
    · have hjoint' := hjoint₂ token' hmem
      rw [hk] at hjoint'
      cases hjoint'
    · simp only [List.length_cons]
      omega

theorem SelectorText.part (h : PartThen next nested p p₁ p' s s₁ token node later)
    (hst : st.Known) :
    SelectorText nested p p' st (st.pending.toList ++ node :: later) := by
  cases hpending : st.pending with
  | none => exact .part_of_none h hpending
  | some waiting => exact .part_of_waiting h hst hpending

end

/-- The blank before each `/deep/` ends the part before it. -/
def DeepApart (ends : Tree → Prop) (nodes : List Tree) : Prop :=
  nodes.IsChain fun node deep => deep.isDeep = true → ends node

theorem DeepApart.of_forall {ends : Tree → Prop} (h : ∀ node, ends node) (nodes : List Tree) :
    DeepApart ends nodes :=
  (List.pairwise_of_forall fun node _ _ => h node).isChain

/-- What is written after a part can stand next, and a blank comes in only before `/deep/`. -/
theorem SelectorText.joinsAfter {ends : Tree → Prop} {p₁ : Place} {later : List Tree}
    {cs : List Char}
    (h : SelectorText nested p₁ p' { started := true } later)
    (hdeep : DeepApart ends (node :: later))
    (hcs : ∀ d ∈ cs.head?, closesSelector nested d = true) :
    p₁.JoinsAfter (ends node) (selectorChars later ++ cs) := by
  refine ⟨h.joins rfl rfl cs hcs, fun hspace => ?_⟩
  cases hchars : selectorChars later with
  | nil =>
    rw [hchars, List.nil_append] at hspace
    have hclose := hcs ' ' hspace
    cases nested <;> cases hclose
  | cons c w =>
    rw [hchars] at hspace
    obtain rfl := Option.some.inj hspace
    rcases h.spaced w hchars with ⟨deep, hmem, hisDeep⟩ | ⟨-, hblank⟩
    · exact .inr (List.IsChain.rel_head? hdeep hmem hisDeep)
    · exact .inl (hblank rfl rfl)

/-- The rounds of a simple selector are read again from the text of its parts. -/
theorem selectorPart_rounds {inv : Place → List Token → Prop} {sound ends : Tree → Prop}
    {last : SelectorState} (hreturns : PartsReturn inner inv sound ends)
    (h : Rounds (selectorPart inner nested) st s nodes last s') (hp : p.Scans s.rest)
    (hinv : inv p s.rest) (hsound : ∀ node ∈ nodes, sound node) (hdeep : DeepApart ends nodes)
    (hst : st.Known) :
    ∃ p' : Place, p'.Scans s'.rest ∧ p'.firm = p.firm ∧ Balanced s.rest s'.rest ∧
      (∀ token ∈ s'.rest.head?, EndsSelector nested token) ∧ SelectorText nested p p' st nodes := by
  induction h generalizing p with
  | @done st s hs => exact ⟨p, hp, rfl, .refl, by simp [hs], .nil p st⟩
  | @stop st s s' token rest hs hround =>
    have hcomment := hreturns.noComment (hs ▸ hinv)
    cases selectorPart_cases hs hp hcomment hround with
    | ends hends => exact ⟨p, hp, rfl, .refl, by simpa [hs] using hends, .nil p st⟩
  | @next st s token rest items st₁ s₁ later last s' hs hround hrounds ih =>
    have hcomment := hreturns.noComment (hs ▸ hinv)
    have hstarts : StartsPart s.rest := startsPart_of_rounds (.next hs hround hrounds)
    have hstarts₁ := startsPart_of_rounds hrounds
    have hlater : ∀ node ∈ later, sound node :=
      fun node hmem => hsound node (List.mem_append_right _ hmem)
    cases selectorPart_cases hs hp hcomment hround with
    | skip hst' hstep =>
      obtain ⟨p', hp', hfirm', hbalanced', hends, htext⟩ :=
        ih hstep.scans (hreturns.suffix hinv hstep.firm hstep.suffix) hlater hdeep hst
      exact ⟨p', hp', hfirm'.trans hstep.firm, hstep.balanced.trans hbalanced', hends,
        htext.skip hstep.state (hp.text_subset hstep.scans hstep.suffix.subset) hst'⟩
    | joint hbare hname hopen hspace hstep =>
      obtain ⟨p', hp', hfirm', hbalanced', hends, htext⟩ :=
        ih hstep.scans (hreturns.suffix hinv hstep.firm hstep.suffix) hlater hdeep
          (fun node hmem => by obtain rfl := Option.some.inj hmem; exact ⟨_, hbare, hname⟩)
      exact ⟨p', hp', hfirm'.trans hstep.firm, hstep.balanced.trans hbalanced', hends,
        htext.joint hbare hopen hspace hstep.state⟩
    | part hcomment hends' hjoint hread =>
      obtain ⟨p₁, hinv₁, hpart⟩ := hreturns.reads hp hinv hs (hsound _ (by simp)) hstarts₁ hread
      obtain ⟨p', hp', hfirm', hbalanced', hends, htext⟩ :=
        ih hpart.scans hinv₁ hlater hdeep.right_of_append nofun
      refine ⟨p', hp', hfirm'.trans hpart.firm, hpart.balanced.trans hbalanced', hends, ?_⟩
      rw [List.append_assoc] at hdeep ⊢
      exact .part ⟨hpart, hp, ⟨_, hs⟩, hcomment, hends', hjoint,
        ⟨hstarts.noParen, hstarts₁.noParen⟩, htext,
        fun cs hcs => htext.joinsAfter hdeep.right_of_append hcs⟩ hst

/-! ## Simple selectors -/

theorem compact_simpleSelector (info : Option Nat) (nodes : List Tree) :
    (Node.sequence info .simpleSelector nodes).compact = selectorChars nodes := by
  simp [Node.compact_sequence, Node.sequenceMarks, selectorChars]

/-- How the text of what was read from a place can start: with a stopper, but not with a blank
unless a slash follows, or with a character that stood there. -/
structure SelectorStart (p : Place) (text : List Char) : Prop where
  blank : ∀ w, text = ' ' :: w → w.head? = some '/'
  head : ∀ d ∈ text.head?, isStopper d = true ∨ d ∈ p.text ∧ isBlank d = false

theorem SelectorStart.of_break {text : List Char} (h : ∀ d ∈ text.head?, isBreak d = true) :
    SelectorStart p text where
  blank w hw := nomatch h ' ' (by rw [hw]; rfl)
  head d hd := .inl (isStopper_iff.2 (.inl (h d hd)))

theorem SelectorStart.append {text text' : List Char} (h : SelectorStart p text)
    (htext' : ∀ d ∈ text'.head?, isBreak d = true) : SelectorStart p (text ++ text') := by
  cases text with
  | nil => exact .of_break htext'
  | cons c text =>
    refine ⟨fun w hw => ?_, h.head⟩
    obtain ⟨rfl, rfl⟩ := List.cons.inj hw
    show (text ++ text').head? = some '/'
    rw [List.head?_append, h.blank text rfl]
    rfl

/-- A simple selector is read again from its text, before what ends it. The blank that the text may
start with can be left out. -/
def SimpleAgain (nested : Bool) (p p' : Place) (tree : Tree) : Prop :=
  ∀ (n : Nat) (cs w : List Char) (s : ParserState),
    (∀ d ∈ cs.head?, closesSelector nested d = true) →
    (w = tree.compact ∨ tree.compact = ' ' :: w) →
    Place.Scans ⟨p.state.calm, w ++ cs, .soft⟩ s.rest → s.rest.length < n →
    (∀ token ∈ s.rest.head?, token.kind ≠ .comment) ∧
    ∃ tree' s', simpleSelector (.upTo n) nested s = .ok tree' s' ∧ tree'.bare = tree.bare ∧
      Place.Scans ⟨p'.state.calm, cs, .soft⟩ s'.rest ∧
      s'.rest.length + tree.children.length ≤ s.rest.length

theorem simpleSelector_of_parts {inv : Place → List Token → Prop} {sound ends : Tree → Prop}
    (hreturns : PartsReturn inner inv sound ends) (hp : p.Scans s.rest)
    (hinv : inv p s.rest) (h : simpleSelector inner nested s = .ok tree s')
    (hsound : ∀ node ∈ tree.children, sound node) (hdeep : DeepApart ends tree.children) :
    ∃ p' : Place, p'.Scans s'.rest ∧ p'.firm = p.firm ∧ Balanced s.rest s'.rest ∧
      (∀ token ∈ s'.rest.head?, EndsSelector nested token) ∧ SelectorStart p tree.compact ∧
      SimpleAgain nested p p' tree := by
  rw [simpleSelector, here_bind_run] at h
  obtain ⟨⟨parts, last⟩, s₁, hloop, h⟩ := bind_eq_ok.1 h
  have hopen : last.isOpen = false := by
    by_contra hopen
    simp only [Bool.not_eq_false] at hopen
    simp only [hopen, if_true] at h
    exact fail_ne_ok.1 h
  simp only [hopen, Bool.false_eq_true, if_false] at h
  obtain ⟨rfl, rfl⟩ := EStateM.Result.ok.inj h
  obtain ⟨p', hp', hfirm', hbalanced', hends, htext⟩ :=
    selectorPart_rounds hreturns (rounds_of_loop hloop) hp hinv hsound hdeep nofun
  rw [compact_simpleSelector]
  refine ⟨p', hp', hfirm', hbalanced', hends, ⟨htext.blank rfl, htext.head⟩,
    fun n cs w s₂ hcs hw hs₂ hlt => ?_⟩
  rw [compact_simpleSelector] at hw
  obtain ⟨hcomment, nodes', last', s₃, hrun, hlast, hbare, hs₃, hle⟩ :=
    htext.again n cs w s₂ hcs (hw.imp_right fun hw => ⟨rfl, hw⟩) hs₂ hlt
  refine ⟨hcomment, .sequence (s₂.rest.head?.map Token.start) .simpleSelector nodes', s₃,
    ?_, by simp [hbare], hs₃, hle⟩
  simp only [simpleSelector, here_bind_run, bind_of_ok hrun.loop_eq, hlast, Bool.false_eq_true,
    if_false, run_pure]

theorem simpleSelector_restates {inv : List Token → Prop} {sound : Tree → Prop}
    (hreturns : SelectorReturns inner inv sound) (hp : p.Scans s.rest) (hfirm : p.firm = .firm)
    (hinv : inv s.rest) (h : simpleSelector inner nested s = .ok tree s')
    (hsound : ∀ node ∈ tree.children, sound node) :
    ∃ p' : Place, p'.Scans s'.rest ∧ p'.firm = p.firm ∧ Balanced s.rest s'.rest ∧
      (∀ token ∈ s'.rest.head?, EndsSelector nested token) ∧ SelectorStart p tree.compact ∧
      SimpleAgain nested p p' tree :=
  simpleSelector_of_parts hreturns.parts hp ⟨hfirm, hinv⟩ h hsound (.of_forall (fun _ => trivial) _)

/-! ## Lists of simple selectors -/

/-- The token opens a block. -/
def opensBlock (token : Token) : Bool :=
  token.kind = .leftBrace

theorem simpleSelector_of_ends (hs : s.rest = token :: rest) (hends : EndsSelector nested token) :
    simpleSelector inner nested s = .ok (.sequence (some token.start) .simpleSelector []) s := by
  have hloop : loop (selectorPart inner nested) {} s = .ok ([], {}) s :=
    (LoopsTo.stop hs (selectorPart_ends hends)).loop_eq
  simp only [simpleSelector, here_bind_run, bind_of_ok hloop, hs]
  rfl

/-- A simple selector with parts does not start with what ends one. -/
theorem notEnds_of_children (h : simpleSelector inner nested s = .ok tree s')
    (hne : tree.children ≠ []) :
    ∃ token rest, s.rest = token :: rest ∧ ¬EndsSelector nested token := by
  cases hs : s.rest with
  | nil =>
    have hloop : loop (selectorPart inner nested) {} s = .ok ([], {}) s := (LoopsTo.done hs).loop_eq
    simp only [simpleSelector, here_bind_run, bind_of_ok hloop] at h
    obtain ⟨rfl, -⟩ := EStateM.Result.ok.inj h
    exact absurd rfl hne
  | cons token rest =>
    refine ⟨token, rest, rfl, fun hends => ?_⟩
    rw [simpleSelector_of_ends hs hends] at h
    obtain ⟨rfl, -⟩ := EStateM.Result.ok.inj h
    exact hne rfl

theorem children_ne_nil_of_bare_eq {tree tree' : Tree} (h : tree'.bare = tree.bare)
    (hne : tree.children ≠ []) : tree'.children ≠ [] := by
  intro hnil
  have hchildren := congrArg Node.children h
  rw [Node.children_bare, Node.children_bare, hnil] at hchildren
  exact hne (List.map_eq_nil_iff.1 hchildren.symm)

/-- What is written of the entries of a list. -/
def entriesChars (entries : List Tree) : List Char :=
  List.intercalate [','] (entries.map Node.compact)

theorem entriesChars_cons_cons (entry entry' : Tree) (entries : List Tree) :
    entriesChars (entry :: entry' :: entries) =
      entry.compact ++ ',' :: entriesChars (entry' :: entries) :=
  intercalate_cons_cons _ _ _ _

theorem entriesChars_singleton (entry : Tree) : entriesChars [entry] = entry.compact := by
  simp [entriesChars]

theorem compact_negation (info : Option Nat) (entries : List Tree) :
    (Node.sequence info .negation entries).compact =
      (':' :: "not".toList) ++ '(' :: (entriesChars entries ++ [')']) := by
  simp [Node.compact_sequence, Node.sequenceMarks, Node.map_piece_false, entriesChars]

/-- The character that ends a list of entries. -/
def closingChar (nested : Bool) : Char :=
  if nested then ')' else '\x7b'

theorem closesSelector_closingChar (nested : Bool) :
    closesSelector nested (closingChar nested) = true := by
  cases nested <;> rfl

/-- The readers of an entry read a simple selector, and read one with parts again. -/
structure EntryReturns (inner : Nested) (nested : Bool) (endsAt : Token → Bool)
    (entry : Parser Tree) (entry' : Nat → Parser Tree) : Prop where
  ends : ∀ {token}, endsAt token = true → token.kind = selectorEnd nested
  read : ∀ {s tree s'}, entry s = .ok tree s' → simpleSelector inner nested s = .ok tree s'
  again : ∀ {n s tree s'}, simpleSelector (.upTo n) nested s = .ok tree s' → tree.children ≠ [] →
    IsDue endsAt s ∧ entry' n s = .ok tree s'

/-- The loop reads the entries again from their text, before what ends the list. The blank that the
text may start with can be left out. -/
def EntriesAgain (nested : Bool) (endsAt : Token → Bool) (entry : Nat → Parser Tree) (p p' : Place)
    (entries : List Tree) : Prop :=
  ∀ (n : Nat) (cs w : List Char) (s : ParserState), (∀ d ∈ cs.head?, d = closingChar nested) →
    (w = entriesChars entries ∨ entriesChars entries = ' ' :: w) →
    Place.Scans ⟨p.state.calm, w ++ cs, .soft⟩ s.rest → s.rest.length < n →
    (∀ token ∈ s.rest.head?, token.kind ≠ .comment) ∧
    ∃ entries' s', LoopsTo (separatedRound endsAt (entry n) (pure ())) true s entries' false s' ∧
      entries'.map Node.bare = entries.map Node.bare ∧
      Place.Scans ⟨p'.state.calm, cs, .soft⟩ s'.rest ∧ s'.rest.length < s.rest.length

/-- No comma stands where the list ends. -/
theorem head?_ne_comma_of_closing {cs : List Char} {state : ScanState} {tokens : List Token}
    (hcs : ∀ d ∈ cs.head?, d = closingChar nested) (hs : Place.Scans ⟨state, cs, .soft⟩ tokens) :
    tokens.head?.map Token.kind ≠ some .comma := by
  intro hhead
  obtain ⟨token, hmem, hk⟩ := Option.map_eq_some_iff.1 hhead
  obtain ⟨rest, rfl⟩ := List.head?_eq_some_iff.1 hmem
  cases cs with
  | nil => cases hs.eq_nil rfl
  | cons c cs =>
    obtain rfl := hcs c rfl
    have hkind : token.kind = selectorEnd nested := by
      cases nested <;>
        exact Place.Scans.kind_of_sign (p := ⟨state, [], .soft⟩) hs rfl rfl (by decide)
    rw [hk] at hkind
    cases nested <;> cases hkind

/-- The text of more than one entry is the text of the first one up to the comma, also without the
blank that it may start with. -/
theorem exists_entriesChars_cut {node next : Tree} {more : List Tree} {w : List Char}
    (h : w = entriesChars (node :: next :: more) ∨ entriesChars (node :: next :: more) = ' ' :: w) :
    ∃ v, w = v ++ ',' :: entriesChars (next :: more) ∧
      (v = node.compact ∨ node.compact = ' ' :: v) := by
  rw [entriesChars_cons_cons] at h
  rcases h with rfl | h
  · exact ⟨_, rfl, .inl rfl⟩
  · cases hnode : node.compact with
    | nil => simp [hnode] at h
    | cons c v =>
      rw [hnode, List.cons_append] at h
      obtain ⟨rfl, rfl⟩ := List.cons.inj h
      exact ⟨v, rfl, .inr rfl⟩

theorem EntriesAgain.singleton {endsAt : Token → Bool} {entry : Parser Tree}
    {entry' : Nat → Parser Tree} {node : Tree} {p' : Place}
    (hreaders : EntryReturns inner nested endsAt entry entry')
    (hagain : SimpleAgain nested p p' node) (hne : node.children ≠ []) :
    EntriesAgain nested endsAt entry' p p' [node] := by
  intro n cs w s hcs hw hs hlt
  rw [entriesChars_singleton] at hw
  obtain ⟨hcomment, node', s', hread, hbare, hs', hle⟩ :=
    hagain n cs w s (fun d hd => hcs d hd ▸ closesSelector_closingChar nested) hw hs hlt
  have hpos := List.length_pos_iff.2 hne
  obtain ⟨hdue, hread'⟩ := hreaders.again hread (children_ne_nil_of_bare_eq hbare hne)
  exact ⟨hcomment, [node'], s', separated_last hdue hread'
    (head?_ne_comma_of_closing hcs hs') (by omega),
    by simp [hbare], hs', by omega⟩

theorem EntriesAgain.cons {endsAt : Token → Bool} {entry : Parser Tree} {entry' : Nat → Parser Tree}
    {node next : Tree} {more : List Tree} {p₁ p₂ p' : Place}
    (hreaders : EntryReturns inner nested endsAt entry entry')
    (hagain : SimpleAgain nested p p₁ node) (hne : node.children ≠ [])
    (hstate : p₂.state = p₁.state.calm)
    (hlater : EntriesAgain nested endsAt entry' p₂ p' (next :: more)) :
    EntriesAgain nested endsAt entry' p p' (node :: next :: more) := by
  intro n cs w s hcs hw hs hlt
  obtain ⟨v, rfl, hv⟩ := exists_entriesChars_cut hw
  rw [List.append_assoc, List.cons_append] at hs
  obtain ⟨hcomment, node', s₁, hread, hbare, hs₁, hle⟩ :=
    hagain n (',' :: (entriesChars (next :: more) ++ cs)) v s (by simp [closesSelector]) hv hs hlt
  obtain ⟨hdue, hread'⟩ := hreaders.again hread (children_ne_nil_of_bare_eq hbare hne)
  obtain ⟨comma, rest, hrest, hcore, hs₂⟩ :=
    Place.Scans.of_sign (p := ⟨p₁.state.calm, [], .soft⟩) hs₁ rfl rfl (by decide)
  have hlength : rest.length < s.rest.length := by simp only [hrest, List.length_cons] at hle; omega
  obtain ⟨-, entries', s₃, hloop, hbares, hs₃, hlt₃⟩ :=
    hlater n cs _ { s₁ with rest } hcs (.inl rfl) (by rw [hstate]; exact hs₂) (by simp only; omega)
  refine ⟨hcomment, node' :: entries', s₃, ?_, by simp [hbare, hbares], hs₃, hlt₃.trans hlength⟩
  exact separated_more hdue hread' hrest (congrArg Prod.fst hcore) rfl hlength hloop

/-- A list of simple selectors that are not blank is read again. -/
theorem selectorEntries_again {inv : List Token → Prop} {sound : Tree → Prop} {entries : List Tree}
    {endsAt : Token → Bool} {entry : Parser Tree} {entry' : Nat → Parser Tree}
    {missing : Bool} (hreturns : SelectorReturns inner inv sound)
    (hreaders : EntryReturns inner nested endsAt entry entry')
    (h : Separates endsAt entry (pure ()) s entries missing s')
    (hp : p.Scans s.rest) (hfirm : p.firm = .firm) (hinv : inv s.rest)
    (hsound : ∀ entry ∈ entries, ∀ node ∈ entry.children, sound node) :
    ∃ p' : Place, p'.Scans s'.rest ∧ p'.firm = p.firm ∧ Balanced s.rest s'.rest ∧
      (∀ token ∈ s'.rest.head?, token.kind = selectorEnd nested) ∧
      (missing = false → (∀ entry ∈ entries, entry.children ≠ []) →
        SelectorStart p (entriesChars entries) ∧
          EntriesAgain nested endsAt entry' p p' entries) := by
  induction h generalizing p with
  | missing hends =>
    exact ⟨p, hp, rfl, .refl, fun token hmem => hreaders.ends (hends token hmem), by simp⟩
  | @last s node s' hdue hentry hcomma =>
    obtain ⟨p', hp', hfirm', hbalanced', hends, hstart, hagain⟩ :=
      simpleSelector_restates hreturns hp hfirm hinv (hreaders.read hentry) (hsound node (by simp))
    refine ⟨p', hp', hfirm', hbalanced', fun token hmem => ?_, fun _ hchildren => ?_⟩
    · refine (hends token hmem).resolve_left fun hk => hcomma ?_
      rw [Option.mem_def.1 hmem, Option.map_some, hk]
    · rw [entriesChars_singleton]
      exact ⟨hstart, .singleton hreaders hagain (hchildren node (by simp))⟩
  | @more s node s₁ comma rest s₂ later missing s' hdue hentry hs₁ hk hbetween hlater ih =>
    obtain ⟨p₁, hp₁, hfirm₁, hbalanced₁, -, hstart, hagain⟩ :=
      simpleSelector_restates hreturns hp hfirm hinv (hreaders.read hentry) (hsound node (by simp))
    obtain ⟨-, rfl⟩ := EStateM.Result.ok.inj hbetween
    have hplain : ∀ token ∈ s.rest, '\\' ∉ token.text.toList :=
      fun token hmem => (hp.isFirm hfirm token hmem).1
    have hinv₁ : inv s₁.rest := hreturns.suffix hinv (hbalanced₁.suffix hplain)
    rw [hs₁] at hp₁ hinv₁ hbalanced₁
    obtain ⟨cs₁, -, hreads, hp₂⟩ := hp₁.cons
    have hstate : (p₁.after comma cs₁).state = p₁.state.calm := by
      simp [Place.after, ScanState.after, ScanState.isUrlName, ScanState.calm, hk]
    obtain ⟨p', hp', hfirm', hbalanced', hends, hrest⟩ :=
      ih hp₂ (by rw [Place.after, hfirm₁]; exact hfirm)
        (hreturns.suffix hinv₁ (List.suffix_cons _ _))
        fun entry hmem => hsound entry (.tail _ hmem)
    refine ⟨p', hp', hfirm'.trans hfirm₁, ?_, hends, fun hmissing hchildren => ?_⟩
    · exact hbalanced₁.trans (.trans (.token (by simp [hk]) (by simp [hk])) hbalanced')
    obtain ⟨-, hlater'⟩ := hrest hmissing fun entry hmem => hchildren entry (.tail _ hmem)
    obtain ⟨next, more, rfl⟩ : ∃ next more, later = next :: more := by
      cases hlater with
      | missing => cases hmissing
      | last | more => exact ⟨_, _, rfl⟩
    rw [entriesChars_cons_cons]
    exact ⟨hstart.append (by simp [isBreak]),
      .cons hreaders hagain (hchildren node (by simp)) hstate hlater'⟩

/-! ## Selectors -/

theorem entryReturns_selector (inner : Nested) : EntryReturns inner false opensBlock
    (simpleSelector inner false) fun n => simpleSelector (.upTo n) false := by
  refine ⟨fun hopens => by simpa [opensBlock, selectorEnd] using hopens, id, fun h hne => ⟨?_, h⟩⟩
  obtain ⟨token, rest, hs, hends⟩ := notEnds_of_children h hne
  refine ⟨token, rest, hs, ?_⟩
  rw [EndsSelector, not_or] at hends
  simpa [opensBlock, selectorEnd] using hends.2

/-- A selector holds the entries of a list, or nothing if one of them is missing or blank. -/
theorem selector_eq_ok (h : selector inner s = .ok tree s') : ∃ entries missing s₁,
    Separates opensBlock (simpleSelector inner false) (pure ()) s entries missing s₁ ∧
      s'.rest = s₁.rest ∧ (tree.bare = .sequence none .selector [] ∨
        missing = false ∧ (∀ entry ∈ entries, entry.children ≠ []) ∧
          tree = .sequence (s.rest.head?.map Token.start) .selector entries) := by
  rw [selector, here_bind_run] at h
  obtain ⟨⟨entries, missing⟩, s₁, hread, h⟩ := bind_eq_ok.1 h
  refine ⟨entries, missing, s₁, separates_of_separated hread, ?_⟩
  dsimp only at h
  split at h
  next =>
    rw [noteDiscarded, bind_assoc, here_bind_run, modify_bind_run] at h
    obtain ⟨rfl, rfl⟩ := EStateM.Result.ok.inj h
    exact ⟨rfl, .inl (by simp)⟩
  next hkept =>
    obtain ⟨rfl, rfl⟩ := EStateM.Result.ok.inj h
    simp only [Bool.or_eq_true, List.any_eq_true, List.isEmpty_iff, not_or, not_exists, not_and,
      Bool.not_eq_true] at hkept
    exact ⟨rfl, .inr ⟨hkept.1, hkept.2, rfl⟩⟩

theorem selector_of_loop {entries : List Tree} (h : LoopsTo (separatedRound opensBlock
      (simpleSelector inner false) (pure ())) true s entries false s')
    (hne : ∀ entry ∈ entries, entry.children ≠ []) :
    selector inner s = .ok (.sequence (s.rest.head?.map Token.start) .selector entries) s' := by
  have hread : separated opensBlock (simpleSelector inner false) (pure ()) s =
      .ok (entries, false) s' := by
    rw [separated_eq]
    exact h.loop_eq
  have hkept : (entries.any fun entry => entry.children.isEmpty) = false := by
    simpa [List.any_eq_false] using hne
  rw [selector, here_bind_run]
  refine (bind_of_ok hread).trans ?_
  simp only [hkept, Bool.or_false, Bool.false_eq_true, if_false, run_pure]

/-- Nothing but a block is discarded as a blank list. -/
theorem selector_of_leftBrace (hs : ∀ token ∈ s.rest.head?, token.kind = .leftBrace) :
    ∃ tree s', selector inner s = .ok tree s' ∧ tree.bare = .sequence none .selector [] ∧
      s'.rest = s.rest := by
  have hread : separated opensBlock (simpleSelector inner false) (pure ()) s = .ok
      ([], true) s := by
    rw [separated_eq]
    cases hrest : s.rest with
    | nil => exact (LoopsTo.done hrest).loop_eq
    | cons token rest =>
      have hk : opensBlock token = true := by simpa [opensBlock, hrest] using hs
      exact (LoopsTo.stop hrest (separatedRound_stop (.inr hk))).loop_eq
  refine ⟨.sequence (s.rest.head?.map Token.start) .selector [],
    { s with discarded := s.discarded ++ [s.rest.head?.map Token.start] }, ?_, by simp, rfl⟩
  rw [selector, here_bind_run]
  refine (bind_of_ok hread).trans ?_
  rfl

/-! ## Parts that are kept -/

/-- A part is kept as it stands, or it is an attribute or the call of a function. -/
theorem selectorReader_cases (hp : p.Scans s.rest) (hs : s.rest = token :: rest)
    (hstarts : StartsPart s'.rest) (h : selectorReader inner token.kind s = .ok node s') :
    (∃ front, s.rest = front ++ s'.rest ∧
      Kept (fun n => selectorReader (.upTo n) token.kind) node front s'.rest) ∨
    token.kind = .leftBracket ∧ attributeSelector s = .ok node s' ∨
    token.kind = .colon ∧ PseudoCall inner s node s' := by
  cases hk : token.kind with
  | fullStop =>
    simp only [hk, selectorReader, classSelector_eq] at h ⊢
    obtain ⟨front, hrest, -, hkept⟩ := signedName_kept hp (by decide) ⟨rfl, rfl⟩ (by decide) h
    exact .inl ⟨front, hrest, hkept⟩
  | numberSign =>
    simp only [hk, selectorReader, idSelector_eq] at h ⊢
    obtain ⟨front, hrest, -, hkept⟩ := signedName_kept hp (by decide) ⟨rfl, rfl⟩ (by decide) h
    exact .inl ⟨front, hrest, hkept⟩
  | leftBracket =>
    simp only [hk, selectorReader] at h
    exact .inr (.inl ⟨rfl, h⟩)
  | colon =>
    simp only [hk, selectorReader] at h
    exact (pseudo_kept_or hp hs h).imp_right fun hcall => .inr ⟨rfl, hcall⟩
  | lowLine | ident | asterisk | verticalLine =>
    simp only [hk, selectorReader] at h
    obtain ⟨front, hrest, -, hkept⟩ := qualifiedName_kept hp hstarts h
    exact .inl ⟨front, hrest, hkept⟩
  | hyphenMinus | number =>
    simp only [hk, selectorReader] at h
    exact .inl (percentageOrName_kept hp hstarts h)
  | _ =>
    rw [hk] at h
    exact (fail_ne_ok.1 h).elim

/-- All parts but attributes and the calls of functions are kept as they stand. -/
theorem selectorReturns_of_calls {inv : List Token → Prop} {sound : Tree → Prop}
    (hsuffix : ∀ {tokens rest : List Token}, inv tokens → rest <:+ tokens → inv rest)
    (hcomment : ∀ {token : Token} {rest : List Token}, inv (token :: rest) → token.kind ≠ .comment)
    (hattributes : ∀ {p : Place} {s s' : ParserState} {node : Tree}, p.Scans s.rest →
      p.firm = .firm →
      inv s.rest → s.rest.head?.map Token.kind = some .leftBracket → sound node →
      attributeSelector s = .ok node s' →
      ∃ p', PartReturns p s s' node (fun _ => attributeSelector) p')
    (hcalls : ∀ {p : Place} {s s' : ParserState} {node : Tree}, p.Scans s.rest → p.firm = .firm →
      inv s.rest → s.rest.head?.map Token.kind = some .colon → sound node →
      PseudoCall inner s node s' → ∃ p', PartReturns p s s' node (fun n => pseudo (.upTo n)) p') :
    SelectorReturns inner inv sound := by
  refine ⟨hsuffix, hcomment, fun {p s s' token rest node} hp hfirm hinv hs hsound hstarts h => ?_⟩
  rcases selectorReader_cases hp hs hstarts h with ⟨front, hrest, hkept⟩ | ⟨hk, hread⟩ | ⟨hk, hcall⟩
  · exact hkept.returns hp hfirm hrest
  · rw [hk]
    exact hattributes hp hfirm hinv (by simp [hs, hk]) hsound hread
  · rw [hk]
    exact hcalls hp hfirm hinv (by simp [hs, hk]) hsound hcall

/-- Kinds that stand neither for a comment, nor for a bracket, a bar or a flag. -/
def isSimple : TokenKind → Bool
  | .comment | .unknown | .leftParen | .leftBracket | .verticalLine | .exclamationMark => false
  | _ => true

/-- Where no token opens a bracket, the parts are kept as they stand. -/
theorem selectorReturns_isSimple (inner : Nested) :
    SelectorReturns inner (fun tokens => ∀ token ∈ tokens, isSimple token.kind = true) fun _ =>
      True := by
  have hkind : ∀ {token : Token} {kind : TokenKind}, isSimple token.kind = true →
      isSimple kind = false → token.kind ≠ kind := by
    rintro token _ hsimple hkind rfl
    exact nomatch hsimple.symm.trans hkind
  refine selectorReturns_of_calls (fun hall hsuffix token hmem => hall token (hsuffix.subset hmem))
    (fun hall => hkind (hall _ (.head _)) rfl) (fun {p s s' node} _ _ hsimple hhead _ _ => ?_)
    fun {p s s' node} hp _ hsimple _ _ hcall => ?_
  · exact absurd hhead (notAt_of_forall fun token hmem => hkind (hsimple token hmem) rfl)
  · obtain ⟨paren, hmem, hk⟩ := hcall.mem_leftParen hp.text_ne
    exact absurd hk (hkind (hsimple paren hmem) rfl)

end StyleTree.Grammar
