import StyleTree.Proofs.Grammar.Declaration

/-! Expressions of at-rules. An expression is a row of parts without spaces at its ends, so it is
read again from its text (`atruleExpression_restates`). A colon in it opens a pseudo-class; whether
that is read again is left to the caller (`PseudoReturns`). -/

namespace StyleTree.Grammar

open StyleTree.Parser

variable {inner : Nested} {inv : List Token → Prop} {p : Place} {s s' : ParserState} {tree : Tree}
  {nodes : List Tree} {token : Token} {rest : List Token} {st st₁ : Bool}

/-- What a colon opens is read again where `inv` holds of the tokens, and `inv` goes on to hold. -/
structure PseudoReturns (inner : Nested) (inv : List Token → Prop) : Prop where
  reads : ∀ {p : Place} {s s' : ParserState} {node : Tree} {token rest}, p.Scans s.rest →
    inv s.rest → s.rest = token :: rest → token.kind = .colon → pseudo inner s = .ok node s' →
    Reprints p s node s' (fun n => pseudo (.upTo n)) ∧ ∃ w, node.compact = ':' :: w
  balanced : ∀ {tokens rest}, Balanced tokens rest → inv tokens → inv rest

/-- The token ends an expression. -/
def EndsExpression (token : Token) : Prop :=
  token.kind = .semicolon ∨ token.kind = .leftBrace

theorem EndsExpression.isBreak (h : EndsExpression token) :
    ∃ c, token.kind.char? = some c ∧ isBreak c = true := by
  rcases h with hk | hk <;> exact ⟨_, by rw [hk]; rfl, rfl⟩

theorem expressionPart_ends (h : EndsExpression token) :
    expressionPart inner st token s = .ok .stop s := by
  rcases h with h | h <;> simp [expressionPart, h]

theorem expressionPart_space (hs : s.rest = token :: rest) (hk : token.kind = .whitespace) :
    expressionPart inner true token s = .ok (.next [.space none] true) { s with rest } := by
  simp [expressionPart, hk, space, hs]

theorem expressionPart_skip (hs : s.rest = token :: rest) (hk : token.kind = .whitespace) :
    expressionPart inner false token s = .ok (.next [] false) { s with rest } := by
  simp [expressionPart, hk, hs]

/-- The reader of a part of an expression. -/
def expressionReader (inner : Nested) : TokenKind → Parser Tree
  | .comma => operator
  | .colon => pseudo inner
  | .leftParen => brackets inner .atruleExpression
  | _ => component inner .atruleExpression

theorem expressionPart_other (hends : ¬EndsExpression token) (hspace : token.kind ≠ .whitespace)
    (hcomment : token.kind ≠ .comment) : expressionPart inner st token =
      (expressionReader inner token.kind >>= fun node => pure (.next [node] true)) := by
  rw [EndsExpression, not_or] at hends
  obtain ⟨hsemicolon, hbrace⟩ := hends
  rw [expressionPart]
  cases hk : token.kind <;> first | rfl | exact absurd hk ‹_›

theorem expressionPart_eq_stop (h : expressionPart inner st token s = .ok .stop s') :
    s' = s ∧ EndsExpression token := by
  by_cases hends : EndsExpression token
  · rw [expressionPart_ends hends] at h
    exact ⟨(EStateM.Result.ok.inj h).2.symm, hends⟩
  by_cases hspace : token.kind = .whitespace
  · cases st <;> simp only [expressionPart, hspace] at h <;> exact nomatch h
  by_cases hcomment : token.kind = .comment
  · simp only [expressionPart, hcomment] at h
    exact nomatch h
  rw [expressionPart_other hends hspace hcomment] at h
  exact absurd h (bind_next_ne_stop fun node => [node])

/-- What a round reads of an expression that has started is read again. -/
theorem expressionPart_again (hinner : inner.Returns) (hpseudo : PseudoReturns inner inv)
    (hs : s.rest = token :: rest) (hp : p.Scans s.rest) (htidy : Tidy .atruleExpression s.rest)
    (hinv : inv s.rest) (hst : st = true ∨ token.kind ≠ .whitespace)
    (h : expressionPart inner st token s = .ok (.next nodes st₁) s') :
    st₁ = true ∧ RoundAgain (fun k => expressionPart (.upTo k)) p st s nodes st₁ s' := by
  have hcomment : token.kind ≠ .comment := htidy.noComments token (by simp [hs])
  have hends : ¬EndsExpression token := by
    intro hends
    exact nomatch (expressionPart_ends hends).symm.trans h
  by_cases hspace : token.kind = .whitespace
  · obtain rfl := hst.resolve_right (not_not_intro hspace)
    rw [expressionPart_space hs hspace] at h
    obtain ⟨hnext, rfl⟩ := EStateM.Result.ok.inj h
    obtain ⟨rfl, rfl⟩ := Round.next.inj hnext
    exact ⟨rfl, .space hs hspace fun k s' token' rest' hs' hk => expressionPart_space hs' hk⟩
  rw [expressionPart_other hends hspace hcomment] at h
  obtain ⟨node, s₁, hread, h⟩ := bind_eq_ok.1 h
  obtain ⟨hnext, rfl⟩ := EStateM.Result.ok.inj h
  obtain ⟨rfl, rfl⟩ := Round.next.inj hnext
  have key : ∀ reader : Nat → Parser Tree, Reprints p s node s₁ reader → IsFound token node →
      (∀ k, expressionReader (.upTo k) token.kind = reader k) →
      RoundAgain (fun k => expressionPart (.upTo k)) p st s [node] true s₁ := by
    intro reader hreprints hfound hreader
    refine .of_reprints hreprints hp hs hspace hfound fun k token' s hk => ?_
    rw [expressionPart_other (by rwa [EndsExpression, hk]) (hk ▸ hspace) (hk ▸ hcomment), hk,
      hreader k]
  refine ⟨rfl, ?_⟩
  by_cases hcomma : token.kind = .comma
  · rw [hcomma] at hread
    obtain ⟨hreprints, hfound⟩ := operator_reprints hp hs (by rw [hcomma]; rfl) hread
    exact key _ hreprints hfound fun k => by rw [hcomma]; rfl
  by_cases hcolon : token.kind = .colon
  · rw [hcolon] at hread
    obtain ⟨hreprints, w, hw⟩ := hpseudo.reads hp hinv hs hcolon hread
    refine key _ hreprints (.inr ⟨':', w, hw, rfl, by rw [hcolon]; rfl, by decide⟩) fun k => ?_
    rw [hcolon]
    rfl
  by_cases hparen : token.kind = .leftParen
  · rw [hparen] at hread
    have hhead : s.rest.head?.map Token.kind = some .leftParen := by simp [hs, hparen]
    refine key _ (brackets_reprints hinner hp htidy nofun (.inl hhead) hread)
      (.inl (by rw [hparen]; rfl)) fun k => ?_
    rw [hparen]
    rfl
  have hother : ∀ inner, expressionReader inner token.kind = component inner .atruleExpression := by
    intro inner
    rw [expressionReader] <;> assumption
  rw [hother] at hread
  obtain ⟨⟨token', rest', hs', hseen⟩, hreprints⟩ := component_reprints hinner hp htidy nofun hread
  obtain ⟨rfl, rfl⟩ := List.cons.inj (hs.symm.trans hs')
  exact key _ hreprints (.inl hseen) fun k => hother _

/-- The character ends an expression. -/
def closesExpression (c : Char) : Bool :=
  c = ';' || c = '\x7b'

theorem isBreak_of_closesExpression {c : Char} (h : closesExpression c = true) :
    isBreak c = true := by
  simp only [closesExpression, Bool.or_eq_true, decide_eq_true_eq] at h
  rcases h with rfl | rfl <;> rfl

theorem expressionPart_closing {cs : List Char} (hs : (p.put cs).Scans s.rest)
    (hcs : ∀ d ∈ cs.head?, closesExpression d = true) :
    LoopsTo (expressionPart inner) st s [] st s := by
  cases hrest : s.rest with
  | nil => exact .done hrest
  | cons token rest =>
    refine .stop hrest (expressionPart_ends ?_)
    cases cs with
    | nil => exact nomatch (hs.eq_nil rfl).symm.trans hrest
    | cons c cs =>
      have hc := hcs c rfl
      simp only [closesExpression, Bool.or_eq_true, decide_eq_true_eq] at hc
      rw [hrest] at hs
      rcases hc with rfl | rfl
      · exact .inl (hs.kind_of_sign rfl rfl (by decide))
      · exact .inr (hs.kind_of_sign rfl rfl (by decide))

/-- The next token is no whitespace. -/
def NoSpace (tokens : List Token) : Prop :=
  ∀ token ∈ tokens.head?, token.kind ≠ .whitespace

/-- The rounds of an expression read a row of parts. -/
theorem expressionParts {last : Bool} (hinner : inner.Returns) (hpseudo : PseudoReturns inner inv)
    (h : Rounds (expressionPart inner) st s nodes last s') (hp : p.Scans s.rest)
    (htidy : Tidy .atruleExpression s.rest) (hinv : inv s.rest) (hst : st = true ∨ NoSpace s.rest) :
    ∃ p' : Place, p'.Scans s'.rest ∧ p'.firm = p.firm ∧ Balanced s.rest s'.rest ∧
      (∀ token ∈ s'.rest.head?, EndsExpression token) ∧
      ∀ k, Parts k (expressionPart (.upTo k)) st p nodes last p' := by
  obtain ⟨front, back, st₁, s₁, p₁, rfl, hp₁, hfirm, hbalanced, -, hparts, hend⟩ :=
    parts_of_rounds (expressionPart inner) (fun k => expressionPart (.upTo k))
      (fun st tokens => (st = true ∨ NoSpace tokens) ∧ Tidy .atruleExpression tokens ∧ inv tokens)
      (fun _ => True) EndsExpression (fun _ => False) expressionPart_eq_stop
      (fun hs hp hinv _ _ h => by
        obtain ⟨hst, htidy, hinv⟩ := hinv
        have hst := hst.imp_right fun hspace => hspace _ (by rw [hs]; rfl)
        obtain ⟨rfl, hagain⟩ := expressionPart_again hinner hpseudo hs hp htidy hinv hst h
        have hbalanced := hagain.balanced
        exact ⟨hagain, .inl rfl, hbalanced.tidy htidy, hpseudo.balanced hbalanced hinv⟩)
      h hp ⟨hst, htidy, hinv⟩ (fun _ _ => trivial)
  rcases hend with ⟨rfl, rfl, rfl, hends⟩ | ⟨⟨_, _, _, hfalse⟩, _⟩
  · rw [List.append_nil]
    exact ⟨p₁, hp₁, hfirm, hbalanced, hends, hparts⟩
  · exact hfalse.elim

theorem noSpace_dropWhile (tokens : List Token) : NoSpace (tokens.dropWhile isGap) := by
  intro token hmem hk
  have hgap := noGap_dropWhile tokens token hmem
  simp [isGap, hk] at hgap

/-- The space before an expression is skipped. -/
theorem expressionPart_rounds_skip {last : Bool}
    (h : Rounds (expressionPart inner) st s nodes last s') (hst : st = false)
    (hc : NoComments s.rest) :
    Rounds (expressionPart inner) st { s with rest := s.rest.dropWhile isGap } nodes last s' := by
  induction h with
  | @done st s hs =>
    have hs' : ({ s with rest := s.rest.dropWhile isGap } : ParserState) = s := by
      cases s
      simp_all
    rw [hs']
    exact .done hs
  | @stop st s s' token rest hs hround =>
    have hgap : isGap token = false := by
      rcases (expressionPart_eq_stop hround).2 with h | h <;> simp [isGap, h]
    have hs' : ({ s with rest := s.rest.dropWhile isGap } : ParserState) = s := by
      cases s
      simp_all
    rw [hs']
    exact .stop hs hround
  | @next st s token rest items st₁ s₁ later last s' hs hround hrounds ih =>
    by_cases hgap : isGap token = true
    · have hspace : token.kind = .whitespace := by
        have hcomment := hc token (by simp [hs])
        simpa [isGap, hcomment] using hgap
      subst hst
      rw [expressionPart_skip hs hspace] at hround
      obtain ⟨hnext, rfl⟩ := EStateM.Result.ok.inj hround
      obtain ⟨rfl, rfl⟩ := Round.next.inj hnext
      have hrest := ih rfl fun token hmem => hc token (by rw [hs]; exact .tail _ hmem)
      rw [hs, List.dropWhile_cons_of_pos hgap]
      exact hrest
    · have hs' : ({ s with rest := s.rest.dropWhile isGap } : ParserState) = s := by
        cases s
        simp_all
      rw [hs']
      exact .next hs hround hrounds

theorem compact_expression (info : Option Nat) (nodes : List Tree) :
    (Node.sequence info .atruleExpression nodes).compact = rowChars nodes := by
  simp [Node.compact_sequence, Node.sequenceMarks, Node.map_piece_false, rowChars]

/-- An expression is read again before what ends it. Gaps before it are not kept. -/
theorem atruleExpression_restates (hinner : inner.Returns) (hpseudo : PseudoReturns inner inv)
    (hp : p.Scans (s.rest.dropWhile isGap)) (htidy : Tidy .atruleExpression s.rest)
    (hinv : inv (s.rest.dropWhile isGap)) (h : atruleExpression inner s = .ok tree s') :
    ∃ p' : Place, p'.Scans s'.rest ∧ p'.firm = p.firm ∧ Balanced (s.rest.dropWhile isGap) s'.rest ∧
      (∀ token ∈ s'.rest.head?, EndsExpression token) ∧
      (∀ cs, (∀ d ∈ cs.head?, closesExpression d = true) → p'.Follow cs →
        p.Follow (tree.compact ++ cs)) ∧
      ∀ n, Runs n p p' (fun cs => (∀ d ∈ cs.head?, closesExpression d = true) ∧ p'.Follow cs)
        tree.compact (atruleExpression (.upTo n)) fun tree' => tree'.bare = tree.bare := by
  rw [atruleExpression, here_bind_run] at h
  obtain ⟨⟨parts, last⟩, s₁, hloop, h⟩ := bind_eq_ok.1 h
  obtain ⟨rfl, rfl⟩ := EStateM.Result.ok.inj h
  have hrounds := expressionPart_rounds_skip (rounds_of_loop hloop) rfl htidy.noComments
  have htidy' : Tidy .atruleExpression (s.rest.dropWhile isGap) :=
    ⟨fun token hmem => htidy.noComments token ((List.dropWhile_suffix _).subset hmem), nofun⟩
  obtain ⟨p', hp', hfirm', hbalanced', hends, hparts⟩ :=
    expressionParts hinner hpseudo hrounds hp htidy' hinv (.inr (noSpace_dropWhile _))
  have hbreak : ∀ cs : List Char, (∀ d ∈ cs.head?, closesExpression d = true) →
      ∀ d ∈ cs.head?, isBreak d = true :=
    fun cs hcs d hd => isBreak_of_closesExpression (hcs d hd)
  rw [compact_expression]
  refine ⟨p', hp', hfirm', hbalanced', hends, fun cs hcs hf => (hparts 0).follow (hbreak cs hcs) hf,
    fun n cs s₂ hcs hs₂ hlt => ?_⟩
  obtain ⟨items', s₃, hbare, hs₃, hle, hrun⟩ := (hparts n).run (hbreak cs hcs.1) hcs.2 hs₂ hlt
  have hread := (hrun [] _ _ (expressionPart_closing hs₃ hcs.1)).loop_eq
  rw [List.append_nil] at hread
  refine ⟨.sequence (s₂.rest.head?.map Token.start) .atruleExpression (dropTrailingSpaces items'),
    s₃, ?_, ?_, hs₃, by omega⟩
  · rw [atruleExpression, here_bind_run, bind_of_ok hread]
    rfl
  · simp only [Node.bare_sequence, dropTrailingSpaces_of_bare_eq hbare, hbare]

/-- Where no colon stands outside of parentheses, none opens a pseudo-class. -/
theorem pseudoReturns_colonsNested (inner : Nested) :
    PseudoReturns inner fun tokens => colonsNested 0 tokens = true := by
  refine ⟨fun {p s s' node token rest} _ hinv hs hk _ => ?_,
    fun hbalanced hinv => hbalanced.colonsNested hinv⟩
  rw [hs, colonsNested, hk] at hinv
  cases hinv

end StyleTree.Grammar
