import StyleTree.Grammar.Selector
import StyleTree.Proofs.Grammar.Function
import StyleTree.Proofs.Grammar.Separated
import StyleTree.Tree.Walk

/-! Arguments of functions. Given that what stands one bracket deeper is read again
(`Nested.Returns`), so are the arguments of a function, from the opening parenthesis on
(`arguments_echoes`). -/

namespace StyleTree

open StyleTree.Parser

/-! ## What is asked of the tokens and of the tree -/

/-- No token is a comment, and in a value every exclamation mark starts a flag that ends it. -/
structure Tidy (scope : Grammar.Scope) (tokens : List Token) : Prop where
  noComments : NoComments tokens
  bangsEnd : scope = .value → bangsEnd tokens = true

theorem Balanced.tidy {scope : Grammar.Scope} {tokens rest : List Token} (h : Balanced tokens rest)
    (ht : Tidy scope tokens) : Tidy scope rest :=
  ⟨h.noComments ht.noComments, fun hscope => h.bangsEnd (ht.bangsEnd hscope)⟩

theorem Tidy.tail {scope : Grammar.Scope} {token : Token} {tokens : List Token}
    (h : Tidy scope (token :: tokens)) : Tidy scope tokens :=
  ⟨fun token hmem => h.noComments token (.tail _ hmem),
    fun hscope => (Bool.and_eq_true_iff.1 (h.bangsEnd hscope)).2⟩

/-- Whether the node is a functional pseudo-class or a negation, which are written with a colon. -/
def Node.isPseudoCall {ι : Type} : Node ι → Bool
  | .sequence _ (.functionalPseudo _) _ | .sequence _ .negation _ => true
  | _ => false

/-- Whether the node is a link. -/
def Node.isLink {ι : Type} : Node ι → Bool
  | .wrapper _ .url _ => true
  | _ => false

/-- Whether the colons of the calls among the children are written where they were read. A link is
written without a colon, also as a part of a selector, where it was read with one; other calls are
written with a colon, also in arguments and brackets, where they were read without. -/
def Node.keepsColons {ι : Type} : Node ι → Bool
  | .sequence _ .simpleSelector parts => parts.all fun part => !part.isLink
  | .sequence _ .argument nodes | .sequence _ (.braces _ _) nodes =>
    nodes.all fun node => !node.isPseudoCall
  | _ => true

/-- In the arguments of a pseudo-class, the tree is not written with a colon of its own, nor are the
nodes in it. -/
def Quiet (scope : Grammar.Scope) (tree : Tree) : Prop :=
  scope = .selector → tree.isPseudoCall = false ∧ ∀ node ∈ tree.preorder, node.keepsColons = true

theorem Node.mem_preorderAll {ι : Type} {nodes : List (Node ι)} {node : Node ι} :
    node ∈ preorderAll nodes ↔ ∃ child ∈ nodes, node ∈ child.preorder := by
  induction nodes with
  | nil => simp [preorderAll]
  | cons child nodes ih => simp [preorderAll, ih]

theorem Quiet.isPseudoCall_eq_false {tree : Tree} (h : Quiet .selector tree) :
    tree.isPseudoCall = false :=
  (h rfl).1

/-- What stands in an argument or in brackets is quiet if they are. -/
theorem Quiet.child {scope : Grammar.Scope} {info : Option Nat} {kind : SequenceKind}
    {children : List Tree} (h : Quiet scope (.sequence info kind children))
    (hkind : scope = .selector → kind = .argument ∨
      ∃ opening closing, kind = .braces opening closing) :
    ∀ child ∈ children, Quiet scope child := by
  intro child hchild hscope
  have hkept := (h hscope).2
  simp only [Node.preorder, List.forall_mem_cons] at hkept
  refine ⟨?_, fun node hmem => hkept.2 node (Node.mem_preorderAll.2 ⟨child, hchild, hmem⟩)⟩
  have hcolons := hkept.1
  rcases hkind hscope with rfl | ⟨opening, closing, rfl⟩ <;>
    rw [Node.keepsColons, List.all_eq_true] at hcolons <;> simpa using hcolons child hchild

theorem quiet_space {scope : Grammar.Scope} {node : Tree} (h : node.isSpace = true) :
    Quiet scope node := by
  cases node with
  | space => exact fun _ => ⟨rfl, by simp [Node.preorder, Node.keepsColons]⟩
  | _ => exact nomatch h

namespace Grammar

theorem mem_dropTrailingSpaces {node : Tree} {nodes : List Tree} (h : node ∈ nodes) :
    node ∈ dropTrailingSpaces nodes ∨ node.isSpace = true := by
  induction nodes with
  | nil => exact nomatch h
  | cons first nodes ih =>
    rw [dropTrailingSpaces_cons]
    split
    next hnone =>
      rcases List.mem_cons.1 h with rfl | h
      · exact .inr hnone.2
      · rcases ih h with hmem | hspace
        · rw [hnone.1] at hmem; exact nomatch hmem
        · exact .inr hspace
    next =>
      rcases List.mem_cons.1 h with rfl | h
      · exact .inl (.head _)
      · exact (ih h).imp_left (.tail _)

theorem quiet_of_dropTrailingSpaces {scope : Scope} {nodes : List Tree}
    (h : ∀ node ∈ dropTrailingSpaces nodes, Quiet scope node) : ∀ node ∈ nodes, Quiet scope node :=
  fun node hmem => (mem_dropTrailingSpaces hmem).elim (h node) quiet_space

/-! ## One bracket deeper -/

/-- The character ends a value. -/
def closesValue (nested : Bool) (c : Char) : Bool :=
  c = ';' || c = '\x7d' || nested && c = ')'

/-- The value that was read between two states is read again from its compact text, before what ends
a value. It may be empty, and gaps before it are not kept. -/
def Restates (nested : Bool) (p : Place) (s : ParserState) (tree : Tree) (s' : ParserState) :
    Prop :=
  ∃ p₁ p' : Place, p₁.Scans (s.rest.dropWhile isGap) ∧ p₁.state = p.state ∧ p'.Scans s'.rest ∧
    p'.firm = p.firm ∧ Balanced s.rest s'.rest ∧
    (∀ token ∈ s'.rest.head?, token.kind = .semicolon ∨ token.kind = .rightBrace ∨
      nested = true ∧ token.kind = .rightParen) ∧
    (∀ cs, (∀ d ∈ cs.head?, closesValue nested d = true) → p'.Follow cs →
      p₁.Follow (tree.compact ++ cs)) ∧
    ∀ n, Runs n p p' (fun cs => (∀ d ∈ cs.head?, closesValue nested d = true) ∧ p'.Follow cs)
      tree.compact (value (.upTo n) nested) fun tree' => tree'.bare = tree.bare

/-- The next token is one that a name, a number or a function can go on with, so its kind is
seen. -/
def IsSeen (s : ParserState) : Prop :=
  ∃ token rest, s.rest = token :: rest ∧ token.kind.isNeutral = false

/-- What stands one bracket deeper is read again. -/
structure Nested.Returns (inner : Nested) : Prop where
  component : ∀ {scope : Scope} {p : Place} {s tree s'}, p.Scans s.rest → Tidy scope s.rest →
    Quiet scope tree → inner.component scope s = .ok tree s' →
    IsSeen s ∧ Reprints p s tree s' fun n => Grammar.component (.upTo n) scope
  brackets : ∀ {scope : Scope} {p : Place} {s tree s'}, p.Scans s.rest → Tidy scope s.rest →
    Quiet scope tree → s.rest.head?.map Token.kind = some .leftParen ∨
      s.rest.head?.map Token.kind = some .leftBracket → inner.brackets scope s = .ok tree s' →
    Reprints p s tree s' fun n => Grammar.brackets (.upTo n) scope
  fallback : ∀ {p : Place} {s tree s'}, p.Scans s.rest → Tidy .value s.rest →
    p.state.afterUrl = false → inner.fallback s = .ok tree s' → Restates true p s tree s'

/-! ## Parts -/

theorem and_tidy_of_again {σ : Type} {scope : Scope}
    {round : Nat → σ → Token → Parser (Round σ Tree)} {p : Place} {st st₁ : σ} {s s₁ : ParserState}
    {items : List Tree} (h : RoundAgain round p st s items st₁ s₁) (htidy : Tidy scope s.rest) :
    RoundAgain round p st s items st₁ s₁ ∧ Tidy scope s₁.rest :=
  ⟨h, h.balanced.tidy htidy⟩

section
variable {p : Place} {s s' : ParserState} {node : Tree} {token : Token} {rest : List Token}

/-- The signs that can stand as operators. -/
def isOperatorSign : TokenKind → Bool
  | .solidus | .asterisk | .comma | .colon | .equals => true
  | _ => false

theorem operator_reprints (hp : p.Scans s.rest) (hs : s.rest = token :: rest)
    (hsign : isOperatorSign token.kind = true) (h : operator s = .ok node s') :
    Reprints p s node s' (fun _ => operator) ∧ IsFound token node := by
  refine ⟨?_, ?_⟩
  · refine tokenLeaf_reprints hp hs rfl ?_ h
    cases hk : token.kind <;> simp_all [isOperatorSign]
  · rw [operator, tokenLeaf_eq hs, EStateM.Result.ok.injEq] at h
    obtain ⟨rfl, -⟩ := h
    rw [hs] at hp
    obtain ⟨_, -, hread, -⟩ := hp.cons
    have htext : ∀ c, token.kind.char? = some c →
        (Node.leaf (some token.start) .operator token.text).compact = [c] := by
      intro c hc
      simp [Node.leafMarks, hread.eq_char hc]
    cases hk : token.kind with
    | comma =>
      exact .inr ⟨',', [], htext _ (by rw [hk]; rfl), rfl, by rw [hk]; rfl, by decide⟩
    | colon =>
      exact .inr ⟨':', [], htext _ (by rw [hk]; rfl), rfl, by rw [hk]; rfl, by decide⟩
    | solidus | asterisk | equals => exact .inl (by rw [hk]; rfl)
    | _ => rw [hk] at hsign; cases hsign

/-- The reader of a part that starts with a token of the given kind. -/
def partReader (component brackets : Parser Tree) (isOperator : TokenKind → Bool) :
    TokenKind → Parser Tree
  | .numberSign => hash
  | .leftParen | .leftBracket => brackets
  | kind => if isOperator kind then operator else component

/-- A part is read again by a round that goes by the kind of its first token. -/
theorem partReader_again {σ : Type} {component brackets : Parser Tree}
    (component' brackets' : Nat → Parser Tree) {isOperator : TokenKind → Bool}
    {round' : Nat → σ → Token → Parser (Round σ Tree)} {st st₁ : σ}
    (hp : p.Scans s.rest) (hs : s.rest = token :: rest) (hspace : token.kind ≠ .whitespace)
    (hoperator : ∀ kind, isOperator kind = true → isOperatorSign kind = true)
    (hcomponent : component s = .ok node s' → IsSeen s ∧ Reprints p s node s' component')
    (hbrackets : s.rest.head?.map Token.kind = some .leftParen ∨
      s.rest.head?.map Token.kind = some .leftBracket → brackets s = .ok node s' →
      Reprints p s node s' brackets')
    (hround : ∀ k token' s, token'.kind = token.kind → round' k st token' s =
      (partReader (component' k) (brackets' k) isOperator token.kind >>= fun node' =>
        pure (.next [node'] st₁)) s)
    (h : partReader component brackets isOperator token.kind s = .ok node s') :
    RoundAgain round' p st s [node] st₁ s' := by
  have key : ∀ reader : Nat → Parser Tree, Reprints p s node s' reader →
      IsFound token node →
      (∀ k, partReader (component' k) (brackets' k) isOperator token.kind = reader k) →
      RoundAgain round' p st s [node] st₁ s' := by
    intro reader hreprints hfound hreader
    refine .of_reprints hreprints hp hs hspace hfound fun k token' s hk => ?_
    rw [hround k token' s hk, hreader k]
  by_cases hhash : token.kind = .numberSign
  · rw [hhash] at h
    exact key _ (hash_reprints hp h) (.inl (by rw [hhash]; rfl)) fun k => by rw [hhash]; rfl
  by_cases hparen : token.kind = .leftParen
  · have hhead : s.rest.head?.map Token.kind = some .leftParen := by simp [hs, hparen]
    rw [hparen] at h
    exact key _ (hbrackets (.inl hhead) h) (.inl (by rw [hparen]; rfl)) fun k => by rw [hparen]; rfl
  by_cases hbracket : token.kind = .leftBracket
  · have hhead : s.rest.head?.map Token.kind = some .leftBracket := by simp [hs, hbracket]
    rw [hbracket] at h
    exact key _ (hbrackets (.inr hhead) h) (.inl (by rw [hbracket]; rfl))
      fun k => by rw [hbracket]; rfl
  have hother : ∀ component brackets : Parser Tree,
      partReader component brackets isOperator token.kind =
        if isOperator token.kind then operator else component := by
    intro component brackets
    rw [partReader] <;> assumption
  rw [hother] at h
  split at h
  next hop =>
    obtain ⟨hreprints, hkind⟩ := operator_reprints hp hs (hoperator _ hop) h
    exact key _ hreprints hkind fun k => by rw [hother, if_pos hop]
  next hop =>
    obtain ⟨⟨token', rest', hs', hseen⟩, hreprints⟩ := hcomponent h
    obtain ⟨rfl, rfl⟩ := List.cons.inj (hs.symm.trans hs')
    exact key _ hreprints (.inl hseen) fun k => by rw [hother, if_neg hop]

end

/-! ## Arguments -/

section
variable {inner : Nested} {scope : Scope} {p : Place} {s s' : ParserState} {nodes : List Tree}
  {token : Token} {rest : List Token}

/-- The signs that stand as operators in an argument. -/
def isArgumentOperator : TokenKind → Bool
  | .solidus | .asterisk | .colon | .equals => true
  | _ => false

theorem add_eq_next {read : Parser Tree} {st : Unit} (h : add read s = .ok (.next nodes st) s') :
    ∃ node, nodes = [node] ∧ read s = .ok node s' := by
  obtain ⟨node, s₁, hread, h⟩ := bind_eq_ok.1 h
  obtain ⟨hnext, rfl⟩ := EStateM.Result.ok.inj h
  obtain ⟨rfl, -⟩ := Round.next.inj hnext
  exact ⟨node, rfl, hread⟩

theorem add_ne_stop {read : Parser Tree} : add read s ≠ .ok .stop s' := by
  intro h
  obtain ⟨node, s₁, -, h⟩ := bind_eq_ok.1 h
  exact nomatch h

theorem add_space (hs : s.rest = token :: rest) :
    add space s = .ok (.next [.space none] ()) { s with rest } := by
  simp [add, space, hs]

theorem argumentPart_eq_add (inner : Nested) (scope : Scope) (hcomma : token.kind ≠ .comma)
    (hparen : token.kind ≠ .rightParen) (hspace : token.kind ≠ .whitespace)
    (hcomment : token.kind ≠ .comment) : argumentPart inner scope token =
      add (partReader (inner.component scope) (inner.brackets scope) isArgumentOperator
        token.kind) := by
  rw [argumentPart]
  cases hk : token.kind <;> first | rfl | exact absurd hk ‹_›

theorem argumentPart_eq_stop (h : argumentPart inner scope token s = .ok .stop s') :
    s' = s ∧ (token.kind = .comma ∨ token.kind = .rightParen) := by
  by_cases hcomma : token.kind = .comma
  · simp only [argumentPart, hcomma] at h
    exact ⟨(EStateM.Result.ok.inj h).2.symm, .inl hcomma⟩
  by_cases hparen : token.kind = .rightParen
  · simp only [argumentPart, hparen] at h
    exact ⟨(EStateM.Result.ok.inj h).2.symm, .inr hparen⟩
  by_cases hspace : token.kind = .whitespace
  · simp only [argumentPart, hspace] at h
    exact absurd h add_ne_stop
  by_cases hcomment : token.kind = .comment
  · simp only [argumentPart, hcomment] at h
    exact nomatch h
  rw [argumentPart_eq_add inner scope hcomma hparen hspace hcomment] at h
  exact absurd h add_ne_stop

/-- What a round reads of an argument is read again. -/
theorem argumentPart_again (hinner : inner.Returns) (hs : s.rest = token :: rest)
    (hp : p.Scans s.rest) (htidy : Tidy scope s.rest) (hquiet : ∀ node ∈ nodes, Quiet scope node)
    {st : Unit} (h : argumentPart inner scope token s = .ok (.next nodes st) s') :
    RoundAgain (fun k _ token => argumentPart (.upTo (k + 1)) scope token) p () s nodes () s' := by
  by_cases hcomma : token.kind = .comma
  · simp only [argumentPart, hcomma] at h
    exact nomatch h
  by_cases hparen : token.kind = .rightParen
  · simp only [argumentPart, hparen] at h
    exact nomatch h
  have hcomment : token.kind ≠ .comment := htidy.noComments token (by simp [hs])
  by_cases hspace : token.kind = .whitespace
  · simp only [argumentPart, hspace, add_space hs] at h
    obtain ⟨hnext, rfl⟩ := EStateM.Result.ok.inj h
    obtain ⟨rfl, -⟩ := Round.next.inj hnext
    refine .space hs hspace fun k s' token' rest' hs' hk => ?_
    simp only [argumentPart, hk, add_space hs']
  rw [argumentPart_eq_add inner scope hcomma hparen hspace hcomment] at h
  obtain ⟨node, rfl, hread⟩ := add_eq_next h
  refine partReader_again (fun k => component (.upTo k) scope) (fun k => brackets (.upTo k) scope)
    hp hs hspace ?_ ?_ ?_ ?_ hread
  · intro kind h
    cases kind <;> first | rfl | exact nomatch h
  · exact hinner.component hp htidy (hquiet node (.head _))
  · exact hinner.brackets hp htidy (hquiet node (.head _))
  · intro k token' s hk
    rw [argumentPart_eq_add _ _ (hk ▸ hcomma) (hk ▸ hparen) (hk ▸ hspace) (hk ▸ hcomment), hk]
    rfl

/-- The rounds of an argument read a row of parts. -/
theorem argumentParts (hinner : inner.Returns)
    (h : Rounds (fun _ token => argumentPart inner scope token) () s nodes () s')
    (hp : p.Scans s.rest) (htidy : Tidy scope s.rest) (hquiet : ∀ node ∈ nodes, Quiet scope node) :
    ∃ p' : Place, p'.Scans s'.rest ∧ p'.firm = p.firm ∧ Balanced s.rest s'.rest ∧
      (∀ token ∈ s'.rest.head?, token.kind = .comma ∨ token.kind = .rightParen) ∧
      ∀ k, Parts k (fun _ token => argumentPart (.upTo (k + 1)) scope token) () p nodes () p' := by
  obtain ⟨front, back, ⟨⟩, s₁, p₁, rfl, hp₁, hfirm, hbalanced, -, hparts, hend⟩ :=
    parts_of_rounds (fun _ token => argumentPart inner scope token) _
      (fun _ tokens => Tidy scope tokens) (Quiet scope)
      (fun token => token.kind = .comma ∨ token.kind = .rightParen) (fun _ => False)
      argumentPart_eq_stop
      (fun hs hp htidy hquiet _ h =>
        and_tidy_of_again (argumentPart_again hinner hs hp htidy hquiet h) htidy) h hp htidy hquiet
  rcases hend with ⟨rfl, -, rfl, hends⟩ | ⟨⟨_, _, _, hfalse⟩, _⟩
  · rw [List.append_nil]
    exact ⟨p₁, hp₁, hfirm, hbalanced, hends, hparts⟩
  · exact hfalse.elim

/-- Where a break stood, any break can stand. -/
theorem follow_of_isBreak {kind : TokenKind} {c : Char} {cs : List Char}
    (hp : p.Scans (token :: rest)) (hkind : token.kind = kind) (hchar : kind.char? = some c)
    (hc : isBreak c = true) (hcs : ∀ d ∈ cs.head?, isBreak d = true) : p.Follow cs := by
  obtain ⟨_, htext, hread, -⟩ := hp.cons
  rw [hkind] at hread
  rw [hread.eq_char hchar] at htext
  rw [Place.Follow, htext]
  exact .toBreak (by simp [hc]) hcs

/-- A closing parenthesis can stand where one stood. -/
theorem follow_of_rightParen {tokens : List Token} {cs : List Char} (hp : p.Scans tokens)
    (hclose : tokens.head?.map Token.kind = some .rightParen) (hcs : cs.head? = some ')') :
    p.Follow cs := by
  obtain ⟨closing, hmem, hk⟩ := Option.map_eq_some_iff.1 hclose
  obtain ⟨rest, rfl⟩ := List.head?_eq_some_iff.1 hmem
  obtain ⟨cs, rfl⟩ := List.head?_eq_some_iff.1 hcs
  exact follow_of_isBreak hp hk rfl rfl (by simp [isBreak])

theorem argumentPart_closing {inner : Nested} {cs : List Char} (hs : (p.put cs).Scans s.rest)
    (hcs : cs.head? = some ',' ∨ cs.head? = some ')') :
    LoopsTo (fun _ token => argumentPart inner scope token) () s [] () s := by
  rcases hcs with hcs | hcs
  all_goals
    obtain ⟨cs, rfl⟩ := List.head?_eq_some_iff.1 hcs
    obtain ⟨token, rest, hrest, hcore, -⟩ := hs.of_sign rfl rfl (by decide)
    have hk := congrArg Prod.fst hcore
    refine .stop hrest ?_
    simp only [Token.core_fst] at hk
    simp only [argumentPart, hk]
    rfl

/-- An argument is read again before a comma or a closing parenthesis. -/
def ArgumentAgain (scope : Scope) (p p' : Place) (tree : Tree) : Prop :=
  ∀ k, Rereads k p p' (fun cs => p'.Follow cs ∧ (cs.head? = some ',' ∨ cs.head? = some ')'))
    tree.compact (argumentOf (.upTo (k + 1)) scope) fun tree' => tree'.bare = tree.bare

theorem argumentOf_echoes {tree : Tree} (hinner : inner.Returns) (hp : p.Scans s.rest)
    (htidy : Tidy scope s.rest) (hgap : NoGap s.rest) (hquiet : Quiet scope tree)
    (h : argumentOf inner scope s = .ok tree s') :
    ∃ p' : Place, p'.Scans s'.rest ∧ p'.firm = p.firm ∧ Balanced s.rest s'.rest ∧
      (∀ token ∈ s'.rest.head?, token.kind = .comma ∨ token.kind = .rightParen) ∧
      ArgumentAgain scope p p' tree := by
  rw [argumentOf] at h
  obtain ⟨parts, s₁, hmany, h⟩ := bind_eq_ok.1 h
  cases parts with
  | nil => exact (fail_ne_ok.1 h).elim
  | cons first parts =>
    obtain ⟨rfl, rfl⟩ := EStateM.Result.ok.inj h
    obtain ⟨p', hp', hfirm, hbalanced, hends, hparts⟩ :=
      argumentParts hinner (rounds_of_many hmany) hp
      htidy (quiet_of_dropTrailingSpaces (hquiet.child fun _ => .inl rfl))
    have hfirst : first.isSpace = false := by
      cases hparts 0 with
      | space htext hread =>
        obtain ⟨c, v, rfl⟩ := List.exists_cons_of_ne_nil hread.ne_nil
        obtain ⟨token, hmem, hk⟩ := hp.isBlank_iff.1
          ⟨c, by rw [htext]; rfl, (isBlank_of_reads hread).1 c rfl⟩
        have := hgap token hmem
        simp [isGap, hk] at this
      | part hnode => exact hnode
    have hbreak : ∀ {cs : List Char}, cs.head? = some ',' ∨ cs.head? = some ')' →
        ∀ d ∈ cs.head?, isBreak d = true := by
      rintro cs (hcs | hcs) d hd <;> rw [hcs] at hd <;> cases hd <;> rfl
    simp only [ArgumentAgain, compact_argument]
    refine ⟨p', hp', hfirm, hbalanced, hends,
      fun k => ⟨fun cs hcs => ?_, fun cs s₁ hcs hs₁ hlt => ?_⟩⟩
    · exact (hparts k).follow (hbreak hcs.2) hcs.1
    · obtain ⟨items', s₂, hbare, hs₂, hle, hloop⟩ := (hparts k).run (hbreak hcs.2) hcs.1 hs₁ hlt
      have hrun := (hloop [] () s₂ (argumentPart_closing hs₂ hcs.2)).many_eq
      rw [List.append_nil] at hrun
      rw [dropTrailingSpaces_cons_of_not hfirst] at hbare hle
      rw [argumentOf, bind_of_ok hrun]
      obtain ⟨first', rest', rfl, -, -⟩ := List.map_eq_cons_iff.1 hbare
      refine ⟨_, s₂, rfl, ?_, hs₂, by simp only [List.length_cons] at hle; omega⟩
      rw [← dropTrailingSpaces_cons_of_not hfirst] at hbare
      simp only [argument, Node.bare_sequence, dropTrailingSpaces_of_bare_eq hbare, hbare]

theorem intercalate_cons_cons {α : Type} (sep a b : List α) (l : List (List α)) :
    List.intercalate sep (a :: b :: l) = a ++ (sep ++ List.intercalate sep (b :: l)) := by
  simp [List.intercalate]

/-- Arguments with commas between them are read again before the closing parenthesis. -/
def ArgumentsAgain (scope : Scope) (p p' : Place) (entries : List Tree) : Prop :=
  ∀ k cs s, cs.head? = some ')' →
    (p.put (List.intercalate [','] (entries.map Node.compact) ++ cs)).Scans s.rest →
    s.rest.length < k → ∃ entries' s', entries'.map Node.bare = entries.map Node.bare ∧
      (p'.put cs).Scans s'.rest ∧ s'.rest.length < s.rest.length ∧
      LoopsTo (separatedRound (fun _ => false) (argumentOf (.upTo (k + 1)) scope) skipGaps) true
        s entries' false s'

/-- Nothing but the end of the tokens ends the arguments before one is read. -/
theorem isDue_of_length_lt {n : Nat} (h : n < s.rest.length) : IsDue (fun _ => false) s := by
  obtain ⟨token, rest, hs⟩ : ∃ token rest, s.rest = token :: rest :=
    List.exists_cons_of_length_pos (Nat.zero_lt_of_lt h)
  exact ⟨token, rest, hs, rfl⟩

theorem ArgumentsAgain.singleton {node : Tree} {p' : Place} (hagain : ArgumentAgain scope p p' node)
    (hfollow : ∀ cs, cs.head? = some ')' → p'.Follow cs) : ArgumentsAgain scope p p' [node] := by
  intro k cs s hcs hs hlt
  rw [List.map_cons, List.map_nil, List.intercalate_singleton] at hs
  obtain ⟨node', s', hrun, hbare, hs', hlt'⟩ :=
    (hagain k).run cs s ⟨hfollow cs hcs, .inr hcs⟩ hs hlt
  refine ⟨[node'], s', by simp [hbare], hs', hlt',
    separated_last (isDue_of_length_lt hlt') hrun ?_ hlt'⟩
  simp [hs'.head?_kind_of_sign hcs rfl rfl (by decide)]

/-- The gaps after the comma are not written, so no gap may come before the next argument. -/
theorem ArgumentsAgain.cons {node next : Tree} {later : List Tree} {p₁ p₂ p' : Place}
    (hagain : ArgumentAgain scope p p₁ node) (hfollow : ∀ cs, p₁.Follow (',' :: cs))
    (hstate : p₂.state = p₁.state.after .comma [','])
    (hgap : ∀ cs tokens, cs.head? = some ')' →
      (p₂.put (List.intercalate [','] ((next :: later).map Node.compact) ++ cs)).Scans tokens →
      NoGap tokens)
    (hlater : ArgumentsAgain scope p₂ p' (next :: later)) :
    ArgumentsAgain scope p p' (node :: next :: later) := by
  intro k cs s hcs hs hlt
  rw [List.map_cons, List.map_cons, intercalate_cons_cons, List.append_assoc, List.append_assoc,
    ← List.map_cons] at hs
  obtain ⟨node', s₁, hrun, hbare, hs₁, hlt₁⟩ := (hagain k).run _ s ⟨hfollow _, .inl rfl⟩ hs hlt
  obtain ⟨comma, rest, hrest, hcore, hs₂⟩ := hs₁.of_sign rfl rfl (by decide)
  have hs₂' : (p₂.put (List.intercalate [','] ((next :: later).map Node.compact) ++ cs)).Scans
      rest := by
    rw [Place.put, hstate]
    exact hs₂
  have hlength : rest.length < s₁.rest.length := by simp [hrest]
  obtain ⟨entries', s₃, hbares, hs₃, hlt₃, hloop⟩ :=
    hlater k cs { s₁ with rest } hcs hs₂' (by simp only; omega)
  refine ⟨node' :: entries', s₃, by simp [hbare, hbares], hs₃, by simp only at hlt₃; omega, ?_⟩
  refine separated_more (isDue_of_length_lt hlt₁) hrun hrest (congrArg Prod.fst hcore) ?_
    (by simp only; omega) hloop
  rw [run_skipGaps, (hgap cs rest hcs hs₂').dropWhile_eq]

theorem separatedArguments_again {entries : List Tree} {missing : Bool} (hinner : inner.Returns)
    (h : Separates (fun _ => false) (argumentOf inner scope) skipGaps s entries missing s')
    (hclose : s'.rest.head?.map Token.kind = some .rightParen) (hp : p.Scans s.rest)
    (htidy : Tidy scope s.rest) (hgap : NoGap s.rest)
    (hquiet : ∀ entry ∈ entries, Quiet scope entry) :
    ∃ p' : Place, p'.Scans s'.rest ∧ p'.firm = p.firm ∧ Balanced s.rest s'.rest ∧ entries ≠ [] ∧
      (∀ cs, cs.head? = some ')' →
        p.Follow (List.intercalate [','] (entries.map Node.compact) ++ cs)) ∧
      ArgumentsAgain scope p p' entries := by
  induction h generalizing p with
  | @missing s hends =>
    obtain ⟨token, hmem, -⟩ := Option.map_eq_some_iff.1 hclose
    exact nomatch hends token hmem
  | @last s node s' _ hentry _ =>
    obtain ⟨p', hp', hfirm, hbalanced, -, hagain⟩ :=
      argumentOf_echoes hinner hp htidy hgap (hquiet node (.head _)) hentry
    have hfollow : ∀ cs, cs.head? = some ')' → p'.Follow cs :=
      fun cs => follow_of_rightParen hp' hclose
    refine ⟨p', hp', hfirm, hbalanced, by simp, fun cs hcs => ?_, .singleton hagain hfollow⟩
    rw [List.map_cons, List.map_nil, List.intercalate_singleton]
    exact (hagain 0).follow cs ⟨hfollow cs hcs, .inr hcs⟩
  | @more s node s₁ comma rest s₂ later missing s' _ hentry hs₁ hcomma hbetween _ ih =>
    obtain ⟨p₁, hp₁, hfirm₁, hbalanced₁, -, hagain⟩ :=
      argumentOf_echoes hinner hp htidy hgap (hquiet node (.head _)) hentry
    have htidy₁ := hbalanced₁.tidy htidy
    rw [hs₁] at hp₁ hbalanced₁ htidy₁
    obtain ⟨cs₁, -, hp₂, hstate, -⟩ := rereads_sign (c := ',') hp₁ hcomma rfl rfl (by decide)
    obtain ⟨p₃, hp₃, -, hfirm₃, hbalanced₃, hstate₃, -⟩ := hp₂.skipGaps htidy₁.tail.noComments
    replace hstate₃ := hstate₃ (by rw [← hstate]; rfl)
    obtain ⟨-, rfl⟩ := EStateM.Result.ok.inj (run_skipGaps.symm.trans hbetween)
    obtain ⟨p', hp', hfirm', hbalanced', hne, hfollow, hlater⟩ :=
      ih hclose hp₃ (hbalanced₃.tidy htidy₁.tail) (noGap_dropWhile rest)
        fun entry hmem => hquiet entry (.tail _ hmem)
    obtain ⟨next, later, rfl⟩ := List.exists_cons_of_ne_nil hne
    have hfollow₁ : ∀ cs, p₁.Follow (',' :: cs) :=
      fun cs => follow_of_isBreak hp₁ hcomma rfl rfl (by simp [isBreak])
    refine ⟨p', hp', hfirm'.trans (hfirm₃.trans hfirm₁), ?_, by simp, fun cs hcs => ?_,
      .cons hagain hfollow₁ (hstate₃.trans hstate.symm) (fun cs tokens hcs hs => ?_) hlater⟩
    · refine .trans hbalanced₁ (.trans (.token (by simp [hcomma]) (by simp [hcomma])) ?_)
      exact .trans hbalanced₃ hbalanced'
    · rw [List.map_cons, List.map_cons, intercalate_cons_cons, List.append_assoc]
      exact (hagain 0).follow _ ⟨hfollow₁ _, .inl rfl⟩
    · exact (hfollow cs hcs).noGap hp₃ hs (noGap_dropWhile rest)

/-- An argument is not empty. -/
theorem argumentOf_ne_ok {tree : Tree} (hclose : s.rest.head?.map Token.kind = some .rightParen) :
    argumentOf inner scope s ≠ .ok tree s' := by
  intro h
  obtain ⟨closing, hmem, hk⟩ := Option.map_eq_some_iff.1 hclose
  obtain ⟨rest, hrest⟩ := List.head?_eq_some_iff.1 hmem
  have hstop : argumentPart inner scope closing s = .ok .stop s := by
    simp only [argumentPart, hk]
    rfl
  have hmany : many (argumentPart inner scope) s = .ok [] s :=
    LoopsTo.many_eq (.stop hrest hstop)
  rw [argumentOf, bind_of_ok hmany] at h
  exact fail_ne_ok.1 h

/-- Arguments up to the closing parenthesis. -/
private def argumentList (inner : Nested) (scope : Scope) : Parser (List Tree) := do
  if ← isAt .rightParen then pure []
  else
    let (nodes, _) ← separated (fun _ => false) (argumentOf inner scope) skipGaps
    pure nodes

private theorem arguments_eq (inner : Nested) (scope : Scope) : arguments inner scope = (do
    expect .leftParen
    skipGaps
    let nodes ← argumentList inner scope
    expect .rightParen
    return nodes) := by
  simp only [arguments, argumentList, bind_assoc, ite_bind, pure_bind]

/-- The arguments between parentheses are read again, all or none. -/
private theorem argumentList_runs (hinner : inner.Returns) (hp : p.Scans s.rest)
    (htidy : Tidy scope s.rest) (hgap : NoGap s.rest) (hquiet : ∀ node ∈ nodes, Quiet scope node)
    (h : argumentList inner scope s = .ok nodes s')
    (hclose : s'.rest.head?.map Token.kind = some .rightParen) :
    ∃ p' : Place, p'.Scans s'.rest ∧ p'.firm = p.firm ∧ Balanced s.rest s'.rest ∧
      (∀ cs, cs.head? = some ')' →
        p.Follow (List.intercalate [','] (nodes.map Node.compact) ++ cs)) ∧
      ∀ k, Runs k p p' (·.head? = some ')') (List.intercalate [','] (nodes.map Node.compact))
        (argumentList (.upTo (k + 1)) scope)
          fun nodes' => nodes'.map Node.bare = nodes.map Node.bare := by
  rw [argumentList, isAt_bind_run] at h
  by_cases hnone : s.rest.head?.map Token.kind = some .rightParen
  · simp only [hnone, decide_true, if_true] at h
    obtain ⟨rfl, rfl⟩ := EStateM.Result.ok.inj h
    refine ⟨p, hp, rfl, .refl, fun cs hcs => follow_of_rightParen hp hnone hcs,
      fun k cs s₁ hcs hs₁ _ => ⟨[], s₁, ?_, rfl, hs₁, Nat.le_refl _⟩⟩
    rw [argumentList, isAt_bind_run, hs₁.head?_kind_of_sign hcs rfl rfl (by decide)]
    rfl
  · simp only [hnone, decide_false, Bool.false_eq_true, if_false] at h
    obtain ⟨⟨entries, missing⟩, s₁, hseparated, h⟩ := bind_eq_ok.1 h
    obtain ⟨rfl, rfl⟩ := EStateM.Result.ok.inj h
    obtain ⟨p', hp', hfirm, hbalanced, -, hfollow, hrun⟩ := separatedArguments_again hinner
      (separates_of_separated hseparated) hclose hp htidy hgap hquiet
    refine ⟨p', hp', hfirm, hbalanced, hfollow, fun k cs s₂ hcs hs₂ hlt => ?_⟩
    obtain ⟨entries', s₃, hbare, hs₃, hlt₃, hloop⟩ := hrun k cs s₂ hcs hs₂ hlt
    have hnone' : s₂.rest.head?.map Token.kind ≠ some .rightParen := by
      intro hclosing
      cases separates_of_separated hloop.loop_eq with
      | last _ hentry | more _ hentry => exact argumentOf_ne_ok hclosing hentry
    refine ⟨entries', s₃, ?_, hbare, hs₃, Nat.le_of_lt hlt₃⟩
    rw [argumentList, isAt_bind_run]
    simp only [hnone', decide_false, Bool.false_eq_true, if_false, separated_eq]
    rw [bind_of_ok hloop.loop_eq]
    rfl

theorem exists_of_argumentOf {tree : Tree} (h : argumentOf inner scope s = .ok tree s') :
    ∃ parts, tree = argument parts := by
  rw [argumentOf] at h
  obtain ⟨parts, s₁, -, h⟩ := bind_eq_ok.1 h
  cases parts with
  | nil => exact (fail_ne_ok.1 h).elim
  | cons =>
    obtain ⟨rfl, -⟩ := EStateM.Result.ok.inj h
    exact ⟨_, rfl⟩

theorem exists_of_arguments (h : arguments inner scope s = .ok nodes s') :
    ∀ node ∈ nodes, ∃ parts, node = argument parts := by
  rw [arguments_eq] at h
  obtain ⟨_, _, -, h⟩ := bind_eq_ok.1 h
  obtain ⟨_, _, -, h⟩ := bind_eq_ok.1 h
  obtain ⟨nodes, _, hnodes, h⟩ := bind_eq_ok.1 h
  obtain ⟨_, _, -, h⟩ := bind_eq_ok.1 h
  obtain ⟨rfl, -⟩ := EStateM.Result.ok.inj h
  rw [argumentList, isAt_bind_run] at hnodes
  split at hnodes
  · obtain ⟨rfl, -⟩ := EStateM.Result.ok.inj hnodes
    exact nofun
  · obtain ⟨⟨entries, missing⟩, _, hseparated, h⟩ := bind_eq_ok.1 hnodes
    obtain ⟨rfl, -⟩ := EStateM.Result.ok.inj h
    intro node hmem
    obtain ⟨_, _, hentry⟩ := (separates_of_separated hseparated).exists_entry node hmem
    exact exists_of_argumentOf hentry

/-- Arguments are read again from the parenthesis on, before any text. -/
theorem arguments_echoes (hinner : inner.Returns) (hp : p.Scans s.rest) (htidy : Tidy scope s.rest)
    (hquiet : ∀ node ∈ nodes, Quiet scope node) (h : arguments inner scope s = .ok nodes s') :
    Echoes p s s' (fun _ _ => True)
      ('(' :: (List.intercalate [','] (nodes.map Node.compact) ++ [')']))
      (fun n => arguments (.upTo n) scope)
        fun nodes' => nodes'.map Node.bare = nodes.map Node.bare := by
  rw [arguments_eq] at h
  obtain ⟨_, _, hopen, h⟩ := bind_eq_ok.1 h
  obtain ⟨opening, rest, hs, hkind, rfl⟩ := expect_eq_ok.1 hopen
  rw [skipGaps_bind_run] at h
  obtain ⟨nodes, s₁, hnodes, h⟩ := bind_eq_ok.1 h
  obtain ⟨_, _, hclose, h⟩ := bind_eq_ok.1 h
  obtain ⟨closing, rest', hs', hkind', rfl⟩ := expect_eq_ok.1 hclose
  obtain ⟨rfl, rfl⟩ := EStateM.Result.ok.inj h
  rw [hs] at hp htidy
  obtain ⟨cs₁, htext, hp₁, hstate, hsign⟩ := rereads_sign (c := '(') hp hkind rfl rfl (by decide)
  obtain ⟨p₂, hp₂, -, hfirm₂, hbalanced₂, hstate₂, -⟩ := hp₁.skipGaps htidy.tail.noComments
  replace hstate₂ := hstate₂ (by rw [← hstate]; rfl)
  obtain ⟨p₃, hp₃, hfirm₃, hbalanced₃, hfollow₃, hruns₃⟩ :=
    argumentList_runs (s := ⟨rest.dropWhile isGap, s.discarded⟩) hinner hp₂
      (hbalanced₂.tidy htidy.tail) (noGap_dropWhile rest) hquiet hnodes (by simp [hs', hkind'])
  rw [hs'] at hp₃ hbalanced₃
  obtain ⟨cs₃, -, hp', -, hsign'⟩ := rereads_sign (c := ')') hp₃ hkind' rfl rfl (by decide)
  refine ⟨_, hp', hfirm₃.trans hfirm₂, ?_, fun n => ?_⟩
  · rw [hs]
    exact .group hkind hkind' (.trans hbalanced₂ hbalanced₃)
  · simp only [arguments_eq]
    refine (hsign n).bind_nested (v := List.intercalate [','] (nodes.map Node.compact) ++ [')'])
      (f := fun n _ => do
        skipGaps
        let nodes ← argumentList (.upTo n) scope
        expect .rightParen
        return nodes) (fun k _ _ => ?_) fun _ _ => trivial
    refine Runs.skipGaps (Runs.of_state_eq ((hruns₃ k).bind (fun nodes' hnodes' => ?_)
      fun cs _ => rfl) hstate₂) fun cs tokens _ hs => ?_
    · exact (hsign' k).runs.bind (v := []) (fun _ _ => runs_pure hnodes') fun _ _ => trivial
    · rw [List.append_assoc] at hs
      refine (hfollow₃ ([')'] ++ cs) rfl).noGap hp₂ ?_ (noGap_dropWhile rest)
      rwa [Place.put, hstate₂]

end

end Grammar
end StyleTree
