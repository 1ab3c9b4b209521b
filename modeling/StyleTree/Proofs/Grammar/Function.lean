import StyleTree.Proofs.Grammar.Parts

/-! Functions whose arguments are kept as they stand: `url(…)` and scripts. Both are read again from
the opening parenthesis on, before any text (`urlFunction_calls`, `scriptFunction_calls`). -/

namespace StyleTree.Grammar

open StyleTree.Parser

variable {p : Place} {s s' : ParserState} {tokens rest : List Token} {info : Option Nat}
    {tree : Tree}

/-- The tree is written as the given name and what was read after it, and that is read again before
any text, whatever position is given to the tree. -/
def Calls (name : List Char) (p : Place) (s : ParserState) (tree : Tree) (s' : ParserState)
    (reader : Option Nat → Nat → Parser Tree) : Prop :=
  ∃ (w : List Char) (p' : Place), tree.compact = name ++ w ∧ p'.Scans s'.rest ∧ p'.firm = p.firm ∧
    Balanced s.rest s'.rest ∧ ∀ info n,
      Rereads n p p' (fun _ => True) w (reader info n) fun tree' => tree'.bare = tree.bare

/-! ## Links -/

/-- Whether the token can stand in the text of a link without quotes. -/
private def isLinkPart (token : Token) : Bool :=
  token.kind ≠ .whitespace && token.kind ≠ .leftParen && token.kind ≠ .rightParen

/-- The text of a link. -/
private def link : Parser Tree := do
  if ← isAt .string then tokenLeaf .string
  else
    let start ← here
    let text ← Parser.takeWhile isLinkPart
    pure (.leaf start .raw text)

private theorem urlFunction_eq (info : Option Nat) : urlFunction info = (do
    expect .leftParen
    skipGaps
    let inner ← link
    skipGaps
    expect .rightParen
    return .wrapper info .url inner) := by
  simp only [urlFunction, link, bind_assoc, ite_bind, pure_bind]
  rfl

theorem exists_of_urlFunction (h : urlFunction info s = .ok tree s') :
    ∃ inner, tree = .wrapper info .url inner := by
  rw [urlFunction_eq] at h
  obtain ⟨_, _, -, h⟩ := bind_eq_ok.1 h
  obtain ⟨_, _, -, h⟩ := bind_eq_ok.1 h
  obtain ⟨inner, _, -, h⟩ := bind_eq_ok.1 h
  obtain ⟨_, _, -, h⟩ := bind_eq_ok.1 h
  obtain ⟨_, _, -, h⟩ := bind_eq_ok.1 h
  obtain ⟨rfl, -⟩ := EStateM.Result.ok.inj h
  exact ⟨inner, rfl⟩

/-- Inside of `url(…)` there are no lines of their own. -/
theorem ne_unknown_of_inUrl (hp : p.Scans (tokens ++ rest)) (hurl : p.state.inUrl = true)
    (hparens : ∀ token ∈ tokens, token.kind ≠ .leftParen ∧ token.kind ≠ .rightParen) :
    ∀ token ∈ tokens, token.kind ≠ .unknown := by
  induction tokens generalizing p with
  | nil => simp
  | cons token tokens ih =>
    obtain ⟨cs, -, hread, hrest⟩ := hp.cons
    have hne := hparens token (.head _)
    intro other hmem
    rcases List.mem_cons.1 hmem with rfl | hmem
    · intro hk
      rw [hk] at hread
      exact nomatch hurl.symm.trans hread.inUrl_eq_false
    · refine ih hrest ?_ (fun token hmem => hparens token (.tail _ hmem)) other hmem
      have : (p.state.after token.kind token.text.toList).inUrl = p.state.inUrl := by
        cases hk : token.kind <;> simp_all [ScanState.after]
      exact this.trans hurl

private theorem link_raw (hs : s.rest = tokens ++ rest)
    (hkind : s.rest.head?.map Token.kind ≠ some .string)
    (htokens : ∀ token ∈ tokens, isLinkPart token = true)
    (hrest : ∀ token ∈ rest.head?, isLinkPart token = false) :
    link s = .ok (.leaf (s.rest.head?.map Token.start) .raw (Text.concat (tokens.map Token.text)))
      { s with rest } := by
  obtain ⟨htake, hdrop⟩ := takeWhile_eq_of_ends htokens hrest
  simp only [link, isAt_bind_run, hkind, decide_false, Bool.false_eq_true, if_false, here_bind_run,
    takeWhile_bind_run, run_pure]
  rw [hs, htake, hdrop]

/-- The text of a link is read again before a closing parenthesis. -/
private theorem link_runs (hp : p.Scans s.rest) (hurl : p.state.inUrl = true)
    (hc : NoComments s.rest) (h : link s = .ok tree s') :
    ∃ p' : Place, p'.Scans s'.rest ∧ p'.firm = p.firm ∧ Balanced s.rest s'.rest ∧
      (∀ cs, p'.Follow cs → p.Follow (tree.compact ++ cs)) ∧
      ∀ n, Runs n p p' (fun cs => p'.Follow cs ∧ cs.head? = some ')') tree.compact link
        fun tree' => tree'.bare = tree.bare := by
  by_cases hkind : s.rest.head?.map Token.kind = some .string
  · obtain ⟨token, hmem, hk⟩ := Option.map_eq_some_iff.1 hkind
    obtain ⟨rest, hs⟩ := List.head?_eq_some_iff.1 hmem
    simp only [link, isAt_bind_run, hkind, decide_true, if_true] at h
    obtain ⟨p', hp', hfirm, hbalanced, hrereads⟩ :=
      tokenLeaf_reprints hp hs rfl (by simp [hk]) h
    refine ⟨p', hp', hfirm, hbalanced, (hrereads 0).follow, fun n cs s₁ hcs hs₁ hlt => ?_⟩
    obtain ⟨tree', s₂, hrun, hbare, hs₂, hlt'⟩ := (hrereads n).run _ s₁ hcs.1 hs₁ hlt
    refine ⟨tree', s₂, ?_, hbare, hs₂, Nat.le_of_lt hlt'⟩
    have hk' :=
      (head?_kind_iff_of_peek_eq (((hrereads n).follow _ hcs.1).peek_eq hp hs₁) rfl).1 hkind
    simp only [link, isAt_bind_run, hk', decide_true, if_true]
    exact hrun
  · have hs : s.rest = s.rest.takeWhile isLinkPart ++ s.rest.dropWhile isLinkPart :=
      List.takeWhile_append_dropWhile.symm
    have htokens : ∀ token ∈ s.rest.takeWhile isLinkPart, isLinkPart token = true :=
      fun token hmem => List.mem_takeWhile_imp hmem
    rw [link_raw hs hkind htokens head?_dropWhile_not, EStateM.Result.ok.injEq] at h
    obtain ⟨rfl, rfl⟩ := h
    generalize s.rest.takeWhile isLinkPart = tokens at hs htokens
    generalize s.rest.dropWhile isLinkPart = rest at hs
    have hparens : ∀ token ∈ tokens, token.kind ≠ .leftParen ∧ token.kind ≠ .rightParen := by
      intro token hmem
      have := htokens token hmem
      simp only [isLinkPart, Bool.and_eq_true, decide_eq_true_eq] at this
      exact ⟨this.1.2, this.2⟩
    rw [hs] at hp
    have hunknown := ne_unknown_of_inUrl hp hurl hparens
    obtain ⟨cs', htext, hp'⟩ := hp.append
    have hlast : ∀ {cs : List Char}, ∀ token ∈ tokens.getLast?,
        (token.kind ≠ .unknown ∧ token.kind ≠ .comment) ∨ cs'.head? = cs.head? := by
      intro cs token hmem
      have hmem := List.mem_of_getLast? hmem
      exact .inl ⟨hunknown token hmem, hc token (hs ▸ List.mem_append_left _ hmem)⟩
    simp only [Node.compact_leaf, Node.leafMarks, Node.chars_nil, List.nil_append, List.append_nil,
      toList_concat_text, Node.bare_leaf]
    refine ⟨_, hp', rfl, hs ▸ .of_forall hparens,
      fun cs hcs => (hp.verbatim htext hlast hcs).1, fun n cs s₁ hcs hs₁ _ => ?_⟩
    obtain ⟨cs, rfl⟩ := List.head?_eq_some_iff.1 hcs.2
    obtain ⟨tokens', rest', hs₁', hcore, hrest'⟩ := (hp.verbatim htext hlast hcs.1).2 _ hs₁
    obtain ⟨closing, rest'', rfl, hclosing, -⟩ := hrest'.of_sign rfl rfl (by decide)
    have hk : closing.kind = .rightParen := congrArg Prod.fst hclosing
    refine ⟨_, _, link_raw hs₁' ?_ ?_ ?_, ?_, hrest', by simp [hs₁']⟩
    · intro hstring
      rw [← List.head?_map, hs₁', List.map_append, map_kind_congr hcore] at hstring
      rw [← List.head?_map, hs, List.map_append] at hkind
      cases tokens with
      | nil => simp [hk] at hstring
      | cons token tokens => exact hkind hstring
    · intro token hmem
      have hmem : token.kind ∈ tokens.map Token.kind :=
        map_kind_congr hcore ▸ List.mem_map_of_mem hmem
      obtain ⟨other, hother, hk⟩ := List.mem_map.1 hmem
      have := htokens other hother
      rwa [isLinkPart, ← hk]
    · simp [isLinkPart, hk]
    · show Node.bare _ = _
      rw [Node.bare_leaf, map_text_congr hcore]

/-- A link is read again from the parenthesis on. -/
theorem urlFunction_calls (hp : p.Scans s.rest) (hc : NoComments s.rest)
    (hurl : p.state.afterUrl = true) (h : urlFunction info s = .ok tree s') :
    Calls "url".toList p s tree s' fun info' _ => urlFunction info' := by
  rw [urlFunction_eq] at h
  obtain ⟨_, _, hopen, h⟩ := bind_eq_ok.1 h
  obtain ⟨opening, rest, hs, hkind, rfl⟩ := expect_eq_ok.1 hopen
  rw [skipGaps_bind_run] at h
  obtain ⟨inner, s₁, hlink, h⟩ := bind_eq_ok.1 h
  rw [skipGaps_bind_run] at h
  obtain ⟨_, _, hclose, h⟩ := bind_eq_ok.1 h
  obtain ⟨closing, rest', hs', hkind', rfl⟩ := expect_eq_ok.1 hclose
  obtain ⟨rfl, rfl⟩ := EStateM.Result.ok.inj h
  rw [hs] at hp hc
  obtain ⟨cs₁, htext, hp₁, hstate, hsign⟩ := rereads_sign (c := '(') hp hkind rfl rfl (by decide)
  have hc₁ : NoComments rest := fun token hmem => hc token (.tail _ hmem)
  obtain ⟨p₂, hp₂, -, hfirm₂, hbalanced₂, hstate₂, -⟩ := hp₁.skipGaps hc₁
  replace hstate₂ := hstate₂ (by rw [← hstate]; rfl)
  have hinUrl : p₂.state.inUrl = true := by rw [hstate₂, ← hstate]; exact hurl
  have hc₂ := hbalanced₂.noComments hc₁
  obtain ⟨p₃, hp₃, hfirm₃, hbalanced₃, hfollow₃, hruns₃⟩ :=
    link_runs (s := ⟨rest.dropWhile isGap, s.discarded⟩) hp₂ hinUrl hc₂ hlink
  have hc₃ := hbalanced₃.noComments hc₂
  obtain ⟨-, -, -, -, hbalanced₄, -, -⟩ := hp₃.skipGaps hc₃
  obtain ⟨p', hp', hfirm', -, hfollow', hruns'⟩ :=
    runs_closing (c := ')') hp₃ hc₃ hs' hkind' rfl rfl rfl
  refine ⟨'(' :: (inner.compact ++ [')']), p', by simp, hp',
    hfirm'.trans (hfirm₃.trans hfirm₂), ?_, fun info' n => ?_⟩
  · rw [hs]
    refine .group hkind hkind' ?_
    have hbalanced₄' : Balanced s₁.rest (closing :: rest') := hs' ▸ hbalanced₄
    exact .trans hbalanced₂ (.trans hbalanced₃ hbalanced₄')
  · simp only [urlFunction_eq]
    refine (hsign n).bind (v := inner.compact ++ [')']) (fun _ _ => ?_) (Nat.le_succ n)
      fun _ _ => trivial
    refine Runs.skipGaps (Runs.of_state_eq ((hruns₃ n).bind (fun inner' hinner => ?_)
      fun cs _ => ⟨hfollow' cs, rfl⟩) hstate₂) fun cs tokens _ hs => ?_
    · refine Runs.skipGaps ((hruns' n).bind (v := []) (fun _ _ => runs_pure ?_) fun _ _ => trivial)
        fun cs tokens _ hs => hs.noGap_of_sign rfl rfl (by decide)
      simp [hinner]
    · have hfollow := hfollow₃ _ (hfollow' cs)
      rw [List.append_assoc] at hs
      refine hfollow.noGap hp₂ ?_ (noGap_dropWhile rest)
      rwa [Place.put, hstate₂]

/-! ## Scripts -/

theorem balancedLength_closing {token : Token} (h : token.kind = .rightParen) :
    balancedLength 0 (token :: tokens) = 0 := by
  simp [balancedLength, h]

theorem balancedLength_right {depth : Nat} {token : Token} (h : token.kind = .rightParen) :
    balancedLength (depth + 1) (token :: tokens) = balancedLength depth tokens + 1 := by
  simp [balancedLength, h]

theorem balancedLength_left {depth : Nat} {token : Token} (h : token.kind = .leftParen) :
    balancedLength depth (token :: tokens) = balancedLength (depth + 1) tokens + 1 := by
  simp [balancedLength, h]

theorem balancedLength_other {depth : Nat} {token : Token} (hl : token.kind ≠ .leftParen)
    (hr : token.kind ≠ .rightParen) :
    balancedLength depth (token :: tokens) = balancedLength depth tokens + 1 := by
  cases hk : token.kind <;>
    first | exact absurd hk hl | exact absurd hk hr | simp [balancedLength, hk]

/-- The second list is left of the first after reading up to the parenthesis that closes `depth + 1`
open ones. -/
private def Opens : Nat → List Token → List Token → Prop
  | 0, tokens, rest => Balanced tokens rest
  | depth + 1, tokens, rest => ∃ closing tokens₁, closing.kind = .rightParen ∧
    Balanced tokens (closing :: tokens₁) ∧ Opens depth tokens₁ rest

private theorem Opens.of_balanced {depth : Nat} {tokens tokens₁ rest : List Token}
    (hb : Balanced tokens tokens₁) (h : Opens depth tokens₁ rest) : Opens depth tokens rest := by
  cases depth with
  | zero => exact .trans hb h
  | succ depth =>
    obtain ⟨closing, tokens₂, hk, hb', h⟩ := h
    exact ⟨closing, tokens₂, hk, .trans hb hb', h⟩

private theorem opens_balancedLength {depth : Nat} {tokens : List Token}
    (h : tokens.drop (balancedLength depth tokens) ≠ []) :
    Opens depth tokens (tokens.drop (balancedLength depth tokens)) := by
  induction tokens generalizing depth with
  | nil => simp at h
  | cons token tokens ih =>
    by_cases hr : token.kind = .rightParen
    · cases depth with
      | zero => rw [balancedLength_closing hr]; exact .refl
      | succ depth =>
        rw [balancedLength_right hr, List.drop_succ_cons] at h ⊢
        exact ⟨token, tokens, hr, .refl, ih h⟩
    · by_cases hl : token.kind = .leftParen
      · rw [balancedLength_left hl, List.drop_succ_cons] at h ⊢
        obtain ⟨closing, tokens₁, hk, hb, hopens⟩ := ih h
        exact hopens.of_balanced (.group hl hk hb)
      · rw [balancedLength_other hl hr, List.drop_succ_cons] at h ⊢
        exact (ih h).of_balanced (.token hl hr)

/-- Reading up to the closing parenthesis reads whole pairs of parentheses. -/
theorem balanced_balancedLength {closing : Token}
    (h : tokens.drop (balancedLength 0 tokens) = closing :: rest) :
    Balanced tokens (closing :: rest) := by
  have hopens : Opens 0 tokens (tokens.drop (balancedLength 0 tokens)) :=
    opens_balancedLength (by simp [h])
  rwa [h] at hopens

/-- Where the parentheses are closed is seen in the kinds of the tokens before. -/
theorem balancedLength_congr {depth : Nat} {front front' : List Token} {closing closing' : Token}
    {rest rest' : List Token} (h : balancedLength depth (front ++ closing :: rest) = front.length)
    (hkinds : front'.map Token.kind = front.map Token.kind)
    (hk : closing.kind = .rightParen) (hk' : closing'.kind = .rightParen) :
    balancedLength depth (front' ++ closing' :: rest') = front'.length := by
  induction front generalizing depth front' with
  | nil =>
    obtain rfl := List.map_eq_nil_iff.1 hkinds
    cases depth with
    | zero => exact balancedLength_closing hk'
    | succ depth => rw [List.nil_append, balancedLength_right hk] at h; exact nomatch h
  | cons token front ih =>
    obtain ⟨token', front', rfl, htoken, hfront⟩ := List.map_eq_cons_iff.1 hkinds
    rw [List.cons_append] at h ⊢
    by_cases hr : token.kind = .rightParen
    · have hr' := htoken.trans hr
      cases depth with
      | zero => rw [balancedLength_closing hr] at h; exact nomatch h
      | succ depth =>
        rw [balancedLength_right hr, List.length_cons, Nat.add_right_cancel_iff] at h
        rw [balancedLength_right hr', ih h hfront, List.length_cons]
    · by_cases hl : token.kind = .leftParen
      · rw [balancedLength_left hl, List.length_cons, Nat.add_right_cancel_iff] at h
        rw [balancedLength_left (htoken.trans hl), ih h hfront, List.length_cons]
      · rw [balancedLength_other hl hr, List.length_cons, Nat.add_right_cancel_iff] at h
        rw [balancedLength_other (by rwa [htoken]) (by rwa [htoken]), ih h hfront, List.length_cons]

/-- Tokens up to the closing parenthesis that are kept as they stand are read again. -/
theorem balancedText_runs {closing : Token} (hp : p.Scans (tokens ++ closing :: rest))
    (hlength : balancedLength 0 (tokens ++ closing :: rest) = tokens.length)
    (hk : closing.kind = .rightParen) :
    ∃ p' : Place, p'.Scans (closing :: rest) ∧ p'.firm = p.firm ∧
      (∀ cs, p.Follow (tokenChars tokens ++ ')' :: cs)) ∧
      ∀ n, Runs n p p' (·.head? = some ')') (tokenChars tokens)
        (do takeMany (balancedLength 0 (← get).rest))
          (· = Text.concat (tokens.map Token.text)) := by
  obtain ⟨cs', htext, hp'⟩ := hp.append
  obtain ⟨cs₁, htext₁, -, -, hsign⟩ := rereads_sign (c := ')') hp' hk rfl rfl (by decide)
  have hcs' : cs' = ')' :: cs₁ := htext₁
  have hfollow : ∀ cs, (p.afterAll tokens cs').Follow (')' :: cs) := by
    intro cs
    exact (hsign 0).follow cs trivial
  have hlast : ∀ cs, ∀ token ∈ tokens.getLast?,
      (token.kind ≠ .unknown ∧ token.kind ≠ .comment) ∨ cs'.head? = (')' :: cs).head? :=
    fun _ _ _ => .inr (by rw [hcs']; rfl)
  refine ⟨_, hp', rfl, fun cs => (hp.verbatim htext (hlast cs) (hfollow cs)).1,
    fun n cs s hcs hs _ => ?_⟩
  obtain ⟨cs, rfl⟩ := List.head?_eq_some_iff.1 hcs
  obtain ⟨tokens', rest', hs', hcore, hrest'⟩ := (hp.verbatim htext (hlast cs) (hfollow cs)).2 _ hs
  obtain ⟨closing', rest'', rfl, hclosing, -⟩ := hrest'.of_sign rfl rfl (by decide)
  have hlength' : balancedLength 0 (tokens' ++ closing' :: rest'') = tokens'.length :=
    balancedLength_congr hlength (map_kind_congr hcore) hk (congrArg Prod.fst hclosing)
  refine ⟨_, { s with rest := closing' :: rest'' }, ?_, rfl, hrest', by simp [hs']⟩
  rw [get_bind_run, run_takeMany, hs', hlength', List.take_left, List.drop_left,
    map_text_congr hcore]

/-- The compact text of a function: its name, and its arguments with commas between them. -/
theorem compact_function (info : Option Nat) (name : String) (nodes : List Tree) :
    (Node.sequence info (.function name) nodes).compact =
      name.toList ++ '(' :: (List.intercalate [','] (nodes.map Node.compact) ++ [')']) := by
  simp [Node.compact_sequence, Node.sequenceMarks, Node.map_piece_false]

/-- The compact text of a functional pseudo-class. -/
theorem compact_functionalPseudo (info : Option Nat) (name : String) (nodes : List Tree) :
    (Node.sequence info (.functionalPseudo name) nodes).compact =
      (':' :: name.toList) ++ '(' ::
        (List.intercalate [','] (nodes.map Node.compact) ++ [')']) := by
  simp [Node.compact_sequence, Node.sequenceMarks, Node.map_piece_false]

theorem compact_argument (nodes : List Tree) : (argument nodes).compact = rowChars nodes := by
  simp [argument, Node.compact_sequence, Node.sequenceMarks, Node.map_piece_false, rowChars]

/-- A script is read again from the parenthesis on. -/
theorem scriptFunction_calls {name : String} (hp : p.Scans s.rest)
    (h : scriptFunction info name s = .ok tree s') :
    Calls name.toList p s tree s' fun info' _ => scriptFunction info' name := by
  have heq : ∀ info, scriptFunction info name = (do
      expect .leftParen
      let text ← (do takeMany (balancedLength 0 (← get).rest))
      expect .rightParen
      return .sequence info (.function name) [argument [.leaf none .raw text]]) := by
    intro info
    simp only [scriptFunction, bind_assoc]
  rw [heq] at h
  obtain ⟨_, _, hopen, h⟩ := bind_eq_ok.1 h
  obtain ⟨opening, rest, hs, hkind, rfl⟩ := expect_eq_ok.1 hopen
  simp only [bind_assoc, get_bind_run, takeMany_bind_run] at h
  obtain ⟨_, _, hclose, h⟩ := bind_eq_ok.1 h
  obtain ⟨closing, rest', hs', hkind', rfl⟩ := expect_eq_ok.1 hclose
  obtain ⟨rfl, rfl⟩ := EStateM.Result.ok.inj h
  simp only at hs'
  have hbalanced := balanced_balancedLength hs'
  generalize htokens : rest.take (balancedLength 0 rest) = tokens
  have hrest : rest = tokens ++ closing :: rest' := by
    rw [← htokens, ← hs', List.take_append_drop]
  have hlength : balancedLength 0 (tokens ++ closing :: rest') = tokens.length := by
    have := congrArg List.length htokens
    have := congrArg List.length hs'
    simp only [List.length_drop, List.length_take, List.length_cons] at *
    rw [← hrest]
    omega
  rw [hs, hrest] at hp
  obtain ⟨cs₁, htext, hp₁, hstate, hsign⟩ := rereads_sign (c := '(') hp hkind rfl rfl (by decide)
  obtain ⟨p₂, hp₂, hfirm₂, -, hruns₂⟩ := balancedText_runs hp₁ hlength hkind'
  obtain ⟨cs₂, -, hp', -, hsign₂⟩ := rereads_sign (c := ')') hp₂ hkind' rfl rfl (by decide)
  refine ⟨'(' :: (tokenChars tokens ++ [')']), _, ?_, hp', hfirm₂, ?_, fun info' n => ?_⟩
  · rw [compact_function]
    simp [compact_argument, Node.leafMarks, toList_concat_text, List.intercalate]
  · rw [hs]
    exact .group hkind hkind' hbalanced
  · simp only [heq]
    refine (hsign n).bind (v := tokenChars tokens ++ [')']) (fun _ _ => ?_) (Nat.le_succ n)
      fun _ _ => trivial
    refine (hruns₂ n).bind (fun text htext => ?_) fun _ _ => rfl
    refine (hsign₂ n).runs.bind (v := []) (fun _ _ => runs_pure ?_) fun _ _ => trivial
    simp [htext, argument]

end StyleTree.Grammar
