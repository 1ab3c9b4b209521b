import StyleTree.Proofs.Grammar.Pseudo

/-! Attribute selectors are read again. Gaps in them are not written, but for a blank between a
value and flags, so every piece is read between signs and blanks, where the scanner stands in one
state (`Place.still`). `RunsStill` says that a reader is given the same piece there, with no gap
before it. What is written after the name starts with a sign, which the name must not go on with
(`FollowsName`). -/

namespace StyleTree

open StyleTree.Parser

variable {α β : Type} {p p' p₁ : Place} {state : ScanState} {s s' : ParserState} {token : Token}
  {tokens tokens' front rest : List Token} {cs u v w : List Char}

/-- Whether the flags of an attribute, if it has any, stand after an operator and a value. -/
def Node.flagsTested {ι : Type} : Node ι → Bool
  | .attributeSelector _ _ operator _ flags => flags.isNone || operator.isSome
  | _ => true

/-- Whether the name of an attribute does not go on with its operator, as a bar at its end would
with an equals sign or a star. -/
def Node.nameApart {ι : Type} : Node ι → Bool
  | .attributeSelector _ name operator _ _ =>
    decide (name.compact.getLast? ≠ some '|') || decide (operator ≠ some "=" ∧ operator ≠ some "*=")
  | _ => true

theorem Node.flagsTested_mapInfo {ι κ : Type} (f : ι → Option κ) (node : Node ι) :
    (node.mapInfo f).flagsTested = node.flagsTested := by
  cases node with
  | attributeSelector info name operator value flags => cases value <;> rfl
  | _ => rfl

theorem Node.nameApart_mapInfo {ι κ : Type} (f : ι → Option κ) (node : Node ι) :
    (node.mapInfo f).nameApart = node.nameApart := by
  cases node with
  | attributeSelector info name operator value flags =>
    cases value <;> simp [Node.mapInfo, Node.nameApart, Node.compact_mapInfo]
  | _ => rfl

/-! ## Tokens that open and close nothing -/

/-- The tokens of this kind open and close neither parentheses nor blocks. -/
def TokenKind.isEven : TokenKind → Bool
  | .leftParen | .rightParen | .leftBrace | .rightBrace => false
  | _ => true

theorem TokenKind.isEven_of_word {kind : TokenKind} (h : kind.isWord = true) :
    kind.isEven = true := by
  cases kind <;> first | rfl | exact nomatch h

theorem calm_after {kind : TokenKind} (h : kind.isEven = true) (state : ScanState) (w : List Char) :
    (state.after kind w).calm = state.calm := by
  cases kind <;> first | rfl | exact nomatch h

theorem after_eq_calm {kind : TokenKind} (h : kind.isEven = true) (hident : kind ≠ .ident)
    (state : ScanState) (w : List Char) : state.after kind w = state.calm := by
  cases kind <;> first | rfl | exact absurd rfl hident | exact nomatch h

theorem calm_eq_of_alike {state state' : ScanState} (h : Place.Alike state state') :
    state'.calm = state.calm := by
  simp [ScanState.calm, h.1, h.2]

/-- A place that is reached from another one by tokens that open and close nothing. -/
structure EvenStep (p : Place) (tokens rest : List Token) (p' : Place) : Prop where
  scans : p'.Scans rest
  firm : p'.firm = p.firm
  state : p'.state.calm = p.state.calm
  balanced : Balanced tokens rest

theorem EvenStep.refl (hp : p.Scans tokens) : EvenStep p tokens tokens p :=
  ⟨hp, rfl, rfl, .refl⟩

theorem EvenStep.trans (h₁ : EvenStep p tokens tokens' p₁) (h₂ : EvenStep p₁ tokens' rest p') :
    EvenStep p tokens rest p' :=
  ⟨h₂.scans, h₂.firm.trans h₁.firm, h₂.state.trans h₁.state, h₁.balanced.trans h₂.balanced⟩

theorem EvenStep.of_forall (hp : p.Scans (front ++ rest))
    (h : ∀ token ∈ front, token.kind.isEven = true) :
    ∃ p', EvenStep p (front ++ rest) rest p' := by
  induction front generalizing p with
  | nil => exact ⟨p, .refl hp⟩
  | cons token front ih =>
    have heven := h token (.head _)
    obtain ⟨cs, -, -, hp₁⟩ := hp.cons
    obtain ⟨p', hstep⟩ := ih hp₁ fun token hmem => h token (.tail _ hmem)
    refine ⟨p', .trans ⟨hp₁, rfl, calm_after heven _ _, .token ?_ ?_⟩ hstep⟩ <;> rintro hk <;>
      rw [hk] at heven <;>
      exact nomatch heven

theorem EvenStep.of_token (hp : p.Scans (token :: rest)) (h : token.kind.isEven = true) :
    ∃ p', EvenStep p (token :: rest) rest p' :=
  @EvenStep.of_forall p [token] rest hp (by simpa using h)

theorem EvenStep.of_skipGaps (hp : p.Scans tokens) (hcomments : NoComments tokens) :
    ∃ p', EvenStep p tokens (tokens.dropWhile isGap) p' := by
  obtain ⟨p', hp', halike, hfirm, hbalanced, -⟩ := hp.skipGaps hcomments
  exact ⟨p', hp', hfirm, calm_eq_of_alike halike, hbalanced⟩

/-! ## Reading between signs -/

/-- Where a scanner that was in the given state stands after a sign or a blank. -/
def Place.still (state : ScanState) : Place :=
  ⟨state.calm, [], .soft⟩

/-- The reader is given `w` between signs and blanks, and before a text in `next`. It yields a value
in `post` and stops right after `w`, and no gap stands before it. -/
structure RunsStill (p : Place) (next : List Char → Prop) (w : List Char) (reader : Parser α)
    (post : α → Prop) : Prop where
  noGap : ∀ cs tokens, next cs → (p.put (w ++ cs)).Scans tokens → NoGap tokens
  runs : ∀ n, Runs n p p next w reader post

theorem EvenStep.still (h : EvenStep p tokens rest p') : Place.still p'.state = .still p.state := by
  rw [Place.still, Place.still, h.state]

theorem RunsStill.bind {next next₁ : List Char → Prop} {x : Parser α} {f : α → Parser β}
    {post₁ : α → Prop} {post : β → Prop} (h₁ : RunsStill p next₁ u x post₁)
    (h₂ : ∀ a, post₁ a → ∀ n, Runs n p p next v (f a) post)
    (hnext : ∀ cs, next cs → next₁ (v ++ cs)) : RunsStill p next (u ++ v) (x >>= f) post where
  noGap cs tokens hcs hs := h₁.noGap (v ++ cs) tokens (hnext cs hcs) (by rwa [← List.append_assoc])
  runs n := (h₁.runs n).bind (fun a ha => h₂ a ha n) hnext

/-- There is no gap to skip. -/
theorem RunsStill.skipGaps {next : List Char → Prop} {reader : Parser α} {post : α → Prop}
    (h : RunsStill p next w reader post) : RunsStill p next w (skipGaps >>= fun _ => reader) post :=
  ⟨h.noGap, fun n => (h.runs n).skipGaps h.noGap⟩

theorem runsStill_sign {c : Char} {kind : TokenKind} (state : ScanState)
    (hc : CharClass.ofChar c = .punctuator) (hsign : TokenKind.ofChar? c = some kind)
    (hslash : c ≠ '/') (heven : kind.isEven = true) :
    RunsStill (.still state) (fun _ => True) [c] (expect kind) fun _ => True where
  noGap cs tokens _ hs := hs.noGap_of_sign hc hsign hslash
  runs n cs s _ hs _ := by
    obtain ⟨token, rest, hrest, hcore, hs'⟩ := hs.of_sign hc hsign hslash
    have hident : kind ≠ .ident := by
      rintro rfl
      exact nomatch char?_of_ofChar? hsign
    rw [after_eq_calm heven hident] at hs'
    exact ⟨(), _, expect_eq_ok.2 ⟨token, rest, hrest, congrArg Prod.fst hcore, rfl⟩, trivial,
      hs', by simp [hrest]⟩

/-- Every text is scanned. -/
theorem Place.exists_scans (p : Place) (cs : List Char) : ∃ tokens, (p.put cs).Scans tokens := by
  refine ⟨(coresFrom p.state cs).map fun core => ⟨core.1, String.ofList core.2, 0⟩, ?_, trivial⟩
  rw [List.map_map]
  exact List.map_id'' (fun core => by simp [Token.core]) _

/-- A blank is skipped before what is no gap. -/
theorem runs_blank (hw : w = [] ∨ w = [' ']) (n : Nat) : Runs n (.still state) (.still state)
    (fun cs => ∀ tokens, ((Place.still state).put cs).Scans tokens → NoGap tokens) w skipGaps
      fun _ => True := by
  intro cs s hcs hs _
  rcases hw with rfl | rfl
  · refine ⟨(), _, run_skipGaps, trivial, ?_, Nat.le_of_eq ?_⟩ <;> rw [(hcs s.rest hs).dropWhile_eq]
    exact hs
  · have hhead : ∀ d ∈ cs.head?, isBlank d = false := by
      intro d hd
      by_contra hblank
      obtain ⟨tokens, hscan⟩ := (Place.still state).exists_scans cs
      obtain ⟨token, hmem, hk⟩ := hscan.isBlank_iff.1 ⟨d, hd, by simpa using hblank⟩
      have hgap := hcs tokens hscan token hmem
      simp [isGap, hk] at hgap
    obtain ⟨blank, rest, hrest, hcore, hs'⟩ := hs.of_reads (Grammar.reads_blank hhead)
    have hk : blank.kind = .whitespace := congrArg Prod.fst hcore
    have hdrop : s.rest.dropWhile isGap = rest := by
      rw [hrest, List.dropWhile_cons_of_pos (by simp [isGap, hk])]
      exact (hcs rest hs').dropWhile_eq
    refine ⟨(), _, run_skipGaps, trivial, ?_, ?_⟩
    · rw [hdrop]
      exact hs'
    · rw [hdrop, hrest]
      exact Nat.le_succ _

/-! ## Words between signs -/

/-- Words are scanned again between signs. -/
theorem Place.Scans.split_still (hp : p.Scans (front ++ rest)) (hfirm : p.firm = .firm)
    (hwords : ∀ token ∈ front, token.kind.isWord = true) (hne : front ≠ [])
    (hends : ∀ d ∈ cs.head?, endsWord d = true)
    (hs : ((Place.still p.state).put (tokenChars front ++ cs)).Scans tokens) :
    ∃ front' rest', tokens = front' ++ rest' ∧ front'.map Token.core = front.map Token.core ∧
      ((Place.still p.state).put cs).Scans rest' := by
  obtain ⟨cs', htext, -⟩ := hp.append
  obtain ⟨first, more, rfl⟩ := List.exists_cons_of_ne_nil hne
  have hparen : NotAt .leftParen (first :: more ++ rest) := by
    intro hhead
    have hword := hwords first (.head _)
    rw [show first.kind = .leftParen from Option.some.inj hhead] at hword
    exact nomatch hword
  have hhead : (tokenChars (first :: more) ++ cs).head? ≠ some '(' := by
    obtain ⟨_, -, hread, -⟩ := hp.cons
    have hfirst := hp.head?_ne_paren hparen
    rw [htext] at hfirst
    obtain ⟨c, v, hw⟩ := List.exists_cons_of_ne_nil hread.ne_nil
    simpa [hw] using hfirst
  obtain ⟨front', rest', htokens, hcore, hrest⟩ :=
    hp.words_split htext hfirm hwords (.inl hends) ((scans_calm_iff hhead).1 hs)
  refine ⟨front', rest', htokens, hcore, ?_⟩
  have hcs : cs.head? ≠ some '(' := fun hparen => nomatch hends _ hparen
  have hcalm : (p.afterAll (first :: more) cs').state.calm = p.state.calm := by
    have hall : ∀ (tokens : List Token) (state : ScanState),
        (∀ token ∈ tokens, token.kind.isWord = true) →
        (state.afterAll (tokens.map Token.core)).calm = state.calm := by
      intro tokens
      induction tokens with
      | nil => exact fun _ _ => rfl
      | cons token tokens ih =>
        intro state h
        rw [List.map_cons, ScanState.afterAll_cons, ih _ fun token hmem => h token (.tail _ hmem)]
        exact calm_after (TokenKind.isEven_of_word (h token (.head _))) _ _
    exact hall _ _ hwords
  rw [Place.put, Place.still, ← hcalm]
  exact (scans_calm_iff hcs).2 hrest

theorem noGap_of_words (hne : front ≠ []) (hwords : ∀ token ∈ front, token.kind.isWord = true) :
    NoGap (front ++ rest) := by
  obtain ⟨first, more, rfl⟩ := List.exists_cons_of_ne_nil hne
  intro token hmem
  obtain rfl := Option.some.inj hmem
  have hword := hwords first (.head _)
  rw [isGap]
  cases hk : first.kind <;> first | rfl | (rw [hk] at hword; cases hword)

theorem words_of_core (h : tokens'.map Token.core = tokens.map Token.core)
    (hwords : ∀ token ∈ tokens, token.kind.isWord = true) :
    ∀ token ∈ tokens', token.kind.isWord = true := by
  intro token hmem
  have hk : token.kind ∈ tokens.map Token.kind :=
    Grammar.map_kind_congr h ▸ List.mem_map_of_mem hmem
  obtain ⟨other, hother, hk⟩ := List.mem_map.1 hk
  rw [← hk]
  exact hwords other hother

namespace Grammar

variable {tree node : Tree} {sign : String} {flags : Option String}

/-- What is kept as it stands is read again before every stopper. -/
theorem Kept.runsStill {reader : Nat → Parser Tree} (h : Kept reader tree front s'.rest)
    (hp : p.Scans s.rest) (hfirm : p.firm = .firm) (hs : s.rest = front ++ s'.rest) (k : Nat) :
    (∃ p', EvenStep p s.rest s'.rest p') ∧
      RunsStill (.still p.state) (fun cs => ∀ d ∈ cs.head?, isStopper d = true)
        tree.compact (reader k)
        fun tree' => tree'.bare = tree.bare := by
  rw [hs] at hp
  have hsplit : ∀ {cs tokens}, (∀ d ∈ cs.head?, isStopper d = true) →
      ((Place.still p.state).put (tree.compact ++ cs)).Scans tokens →
        ∃ front' rest', tokens = front' ++ rest' ∧
        front'.map Token.core = front.map Token.core ∧
        ((Place.still p.state).put cs).Scans rest' := by
    intro cs tokens hcs hs₁
    rw [h.compact] at hs₁
    exact hp.split_still hfirm h.words h.ne_nil (fun d hd => endsWord_of_stopper (hcs d hd)) hs₁
  refine ⟨hs ▸ EvenStep.of_forall hp
    fun token hmem => TokenKind.isEven_of_word (h.words token hmem),
    fun cs tokens hcs hs₁ => ?_, fun n cs s₁ hcs hs₁ _ => ?_⟩
  · obtain ⟨front', rest', rfl, hcore, -⟩ := hsplit hcs hs₁
    refine noGap_of_words (fun hnil => h.ne_nil ?_) (words_of_core hcore h.words)
    simpa [hnil] using hcore.symm
  · obtain ⟨front', rest', hs₂, hcore, hrest⟩ := hsplit hcs hs₁
    have hlike : NextLike s'.rest rest' := by
      intro token hmem
      obtain ⟨more, rfl⟩ := List.head?_eq_some_iff.1 hmem
      cases cs with
      | nil => exact nomatch hrest.eq_nil rfl
      | cons c cs => exact .inl (endsPart_of_stopper (hcs c rfl) hrest)
    obtain ⟨tree', hrun, hbare⟩ := h.run k s₁ front' rest' hs₂ hcore hlike hs₁.text_ne
    exact ⟨tree', _, hrun, hbare, hrest, by simp [hs₂]⟩

/-! ## Operators -/

/-- An operator of two signs starts with a token of this kind. -/
def startsOperator : TokenKind → Bool
  | .tilde | .circumflex | .dollarSign | .asterisk | .verticalLine => true
  | _ => false

/-- The operators of attributes: an equals sign, alone or after another sign. -/
inductive IsOperator : String → Prop where
  | equals : IsOperator "="
  | signed {kind : TokenKind} {c : Char} : startsOperator kind = true → kind.char? = some c →
    IsOperator (String.singleton c ++ "=")

theorem sign_of_startsOperator {kind : TokenKind} {c : Char} (h : startsOperator kind = true)
    (hc : kind.char? = some c) :
    CharClass.ofChar c = .punctuator ∧ TokenKind.ofChar? c = some kind ∧ c ≠ '/' := by
  cases kind <;> first | (obtain rfl := Option.some.inj hc; decide) | exact nomatch h

theorem isEven_of_startsOperator {kind : TokenKind} (h : startsOperator kind = true) :
    kind.isEven = true := by
  cases kind <;> first | rfl | exact nomatch h

theorem attributeOperator_equals (hs : s.rest = token :: rest) (hk : token.kind = .equals) :
    attributeOperator s = .ok token.text { s with rest } := by
  simp [attributeOperator, hs, hk]

theorem attributeOperator_signed (hs : s.rest = token :: rest)
    (hk : startsOperator token.kind = true) :
    attributeOperator s = (expect .equals >>= fun _ => pure (token.text ++ "="))
      { s with rest } := by
  rw [attributeOperator, kind?_bind_run, hs]
  cases hkind : token.kind <;> first |
    (rw [hkind] at hk; exact absurd hk Bool.false_ne_true) | simp [hkind, hs]

theorem attributeOperator_eq_ok (hp : p.Scans s.rest) (h : attributeOperator s = .ok sign s') :
    IsOperator sign ∧ ∃ p', EvenStep p s.rest s'.rest p' := by
  cases hs : s.rest with
  | nil => simp [attributeOperator, hs] at h
  | cons token rest =>
    rw [hs] at hp
    obtain ⟨cs, -, hread, hp₁⟩ := hp.cons
    by_cases hequals : token.kind = .equals
    · rw [attributeOperator_equals hs hequals] at h
      obtain ⟨rfl, rfl⟩ := EStateM.Result.ok.inj h
      rw [hequals] at hread
      have htext : token.text = "=" := String.toList_inj.1 (hread.eq_char rfl)
      rw [htext]
      exact ⟨.equals, EvenStep.of_token hp (by rw [hequals]; rfl)⟩
    by_cases hsigned : startsOperator token.kind = true
    · rw [attributeOperator_signed hs hsigned] at h
      obtain ⟨_, _, hexpect, h⟩ := bind_eq_ok.1 h
      obtain ⟨equals, rest', rfl, hk, rfl⟩ := expect_eq_ok.1 hexpect
      obtain ⟨rfl, rfl⟩ := EStateM.Result.ok.inj h
      obtain ⟨c, hc⟩ : ∃ c, token.kind.char? = some c := by
        cases hkind : token.kind <;>
          first | exact ⟨_, rfl⟩ | (rw [hkind] at hsigned; exact nomatch hsigned)
      have htext : token.text = String.singleton c :=
        String.toList_inj.1 (by simpa using hread.eq_char hc)
      rw [htext]
      obtain ⟨p₁, hstep₁⟩ := EvenStep.of_token hp (isEven_of_startsOperator hsigned)
      obtain ⟨p₂, hstep₂⟩ := EvenStep.of_token hstep₁.scans (by rw [hk]; rfl)
      exact ⟨.signed hsigned hc, p₂, hstep₁.trans hstep₂⟩
    · rw [attributeOperator, kind?_bind_run, hs] at h
      cases hkind : token.kind <;> simp_all [startsOperator]

/-- An operator is read again. -/
theorem IsOperator.runsStill (h : IsOperator sign) (state : ScanState) :
    RunsStill (.still state) (fun _ => True) sign.toList attributeOperator (· = sign) := by
  cases h with
  | equals =>
    have hsign := runsStill_sign (c := '=') state rfl rfl (by decide) rfl
    refine ⟨hsign.noGap, fun n cs s hcs hs hlt => ?_⟩
    obtain ⟨token, rest, hrest, hcore, -⟩ := hs.of_sign (c := '=') rfl rfl (by decide)
    obtain ⟨_, _, hrun, -, hs', hle⟩ := hsign.runs n cs s hcs hs hlt
    obtain ⟨token', rest', hrest', hk, rfl⟩ := expect_eq_ok.1 hrun
    obtain ⟨rfl, rfl⟩ := List.cons.inj (hrest.symm.trans hrest')
    exact ⟨_, _, attributeOperator_equals hrest hk,
      String.toList_inj.1 (congrArg Prod.snd hcore), hs', hle⟩
  | @signed kind c hk hc =>
    obtain ⟨hclass, hsign, hslash⟩ := sign_of_startsOperator hk hc
    have hchars : (String.singleton c ++ "=").toList = [c] ++ ['='] := by simp
    rw [hchars]
    have hfirst := runsStill_sign state hclass hsign hslash (isEven_of_startsOperator hk)
    have hequals := runsStill_sign (c := '=') state rfl rfl (by decide) rfl
    refine ⟨fun cs tokens _ hs => hfirst.noGap _ tokens trivial (by simpa using hs),
      fun n cs s hcs hs hlt => ?_⟩
    obtain ⟨_, s₁, hrun, -, hs₁, hle⟩ := hfirst.runs n ('=' :: cs) s trivial (by simpa using hs) hlt
    obtain ⟨token, rest, hrest, hkind, rfl⟩ := expect_eq_ok.1 hrun
    obtain ⟨token', rest', hrest', hcore, -⟩ := hs.of_sign hclass hsign hslash
    obtain ⟨rfl, -⟩ := List.cons.inj (hrest.symm.trans hrest')
    have htext : token.text = String.singleton c :=
      String.toList_inj.1 (by simpa using congrArg Prod.snd hcore)
    obtain ⟨_, s₂, hrun₂, -, hs₂, hle₂⟩ := hequals.runs n cs _ hcs hs₁ (by omega)
    refine ⟨_, s₂, ?_, rfl, hs₂, hle₂.trans hle⟩
    rw [attributeOperator_signed hrest (hkind ▸ hk), bind_of_ok hrun₂, htext, run_pure]

/-! ## Names before operators -/

/-- What is written after a name: the bracket that closes, or an operator. A name that ends with a
bar would go on with an equals sign or a star. -/
inductive FollowsName (name : List Char) : List Char → Prop where
  | closing {cs : List Char} : FollowsName name (']' :: cs)
  | operator {sign : String} {cs : List Char} : IsOperator sign →
    (name.getLast? = some '|' → sign ≠ "=" ∧ sign ≠ "*=") → FollowsName name (sign.toList ++ cs)

theorem EndsWithBar.getLast?_eq (h : EndsWithBar front) (hp : p.Scans (front ++ rest)) :
    (tokenChars front).getLast? = some '|' := by
  obtain ⟨before, bar, rfl, hk⟩ := h
  rw [List.append_assoc] at hp
  obtain ⟨_, -, hp₁⟩ := hp.append
  obtain ⟨_, -, hread, -⟩ := hp₁.cons
  rw [hk] at hread
  simp [hread.eq_char rfl]

/-- What stands after a token that neither goes on with a name nor is a bar before something
else. -/
theorem canFollow_of_cons {rest' : List Token} (hname : isNamePart token = false)
    (hcolon : token.kind ≠ .colon) (hbar : token.kind = .verticalLine → ¬NotAt .equals rest')
    (hends : EndsWithBar front → startsMember token = false ∧ token.kind ≠ .equals) :
    CanFollow true front rest (token :: rest') where
  name _ other hmem := by
    obtain rfl := Option.some.inj hmem
    exact hname
  colon _ hhead := hcolon (Option.some.inj hhead)
  opens hopens := absurd (opensTail_cons.1 hopens).2 (hbar (opensTail_cons.1 hopens).1)
  bar hbar _ other hmem := by
    obtain rfl := Option.some.inj hmem
    exact hends hbar

theorem FollowsName.canFollow {rest' : List Token} (h : FollowsName (tokenChars front) cs)
    (hp : p.Scans (front ++ rest)) (hs : ((Place.still state).put cs).Scans rest') :
    CanFollow true front rest rest' := by
  cases h with
  | closing =>
    obtain ⟨token, rest', rfl, hcore, -⟩ := hs.of_sign rfl rfl (by decide)
    have hk : token.kind = .rightBracket := congrArg Prod.fst hcore
    exact canFollow_of_cons (by simp [isNamePart, hk]) (by simp [hk]) (by simp [hk])
      (by simp [startsMember, hk])
  | @operator sign cs hsign hbar =>
    cases hsign with
    | equals =>
      obtain ⟨token, rest', rfl, hcore, -⟩ := hs.of_sign (c := '=') rfl rfl (by decide)
      have hk : token.kind = .equals := congrArg Prod.fst hcore
      refine canFollow_of_cons (by simp [isNamePart, hk]) (by simp [hk]) (by simp [hk])
        fun hends => ?_
      exact absurd rfl (hbar (hends.getLast?_eq hp)).1
    | @signed kind c hkind hc =>
      obtain ⟨hclass, hsign, hslash⟩ := sign_of_startsOperator hkind hc
      have hchars : (String.singleton c ++ "=").toList ++ cs = c :: '=' :: cs := by simp
      rw [hchars] at hs
      obtain ⟨token, rest', rfl, hcore, hs'⟩ := hs.of_sign hclass hsign hslash
      obtain ⟨equals, rest', rfl, hequals, -⟩ :=
        Place.Scans.of_sign (p := ⟨_, [], .soft⟩) hs' (c := '=') rfl rfl (by decide)
      have hk : token.kind = kind := congrArg Prod.fst hcore
      have hk' : equals.kind = .equals := congrArg Prod.fst hequals
      have hstar : EndsWithBar front → kind ≠ .asterisk := by
        rintro hends rfl
        obtain rfl := Option.some.inj hc
        exact absurd (by decide) (hbar (hends.getLast?_eq hp)).2
      refine canFollow_of_cons ?_ ?_ (fun _ => by simp [NotAt, hk']) fun hends => ?_
      · rw [isNamePart, hk]
        cases kind <;> first | rfl | cases hkind
      · rw [hk]
        rintro rfl
        cases hkind
      · have hstar := hstar hends
        rw [startsMember, hk]
        cases kind <;> first | exact absurd rfl hstar | exact ⟨rfl, by decide⟩ | cases hkind

/-- A name is read again before what is written after it. -/
theorem qualifiedName_runsStill (hp : p.Scans s.rest) (hfirm : p.firm = .firm)
    (h : qualifiedName true s = .ok tree s') :
    (∃ p', EvenStep p s.rest s'.rest p') ∧
      RunsStill (.still p.state) (FollowsName tree.compact) tree.compact
      (qualifiedName true) fun tree' => tree'.bare = tree.bare := by
  obtain ⟨front, hpass, rfl, hreads⟩ := (qualifiedName_eq_ok hp.text_ne).1 h
  have hcompact :
      (Node.leaf (s.rest.head?.map Token.start) .identifier (Text.concat (front.map Token.text)) :
        Tree).compact = tokenChars front := by
    simp [Node.leafMarks, toList_concat_text]
  have hends : ∀ {cs}, FollowsName (tokenChars front) cs → ∀ d ∈ cs.head?, endsWord d = true := by
    intro cs hafter
    cases hafter with
    | closing => simp [endsWord, isStopper, isBreak]
    | operator hsign =>
      cases hsign with
      | equals => simp [endsWord]
      | @signed kind c hkind hc =>
        have hc' : endsWord c = true := by
          cases kind <;> first | (obtain rfl := Option.some.inj hc; decide) | cases hkind
        simpa using hc'
  rw [hcompact, Node.bare_leaf]
  rw [hpass.rest] at hp ⊢
  refine ⟨EvenStep.of_forall hp fun token hmem =>
    TokenKind.isEven_of_word (hreads.words token hmem),
    fun cs tokens hafter hs => ?_, fun n cs s₁ hafter hs _ => ?_⟩
  · obtain ⟨front', rest', rfl, hcore, -⟩ :=
      hp.split_still hfirm hreads.words hreads.ne_nil (hends hafter) hs
    refine noGap_of_words (fun hnil => hreads.ne_nil ?_) (words_of_core hcore hreads.words)
    simpa [hnil] using hcore.symm
  · obtain ⟨front', rest', hs₁, hcore, hrest⟩ :=
      hp.split_still hfirm hreads.words hreads.ne_nil (hends hafter) hs
    have hreads' := hreads.before hcore (hafter.canFollow hp hrest)
    refine ⟨_, { s₁ with rest := rest' },
      (qualifiedName_eq_ok hs.text_ne).2 ⟨front', ⟨hs₁, rfl⟩, rfl, hreads'⟩, ?_,
      hrest, by simp [hs₁]⟩
    rw [Node.bare_leaf, map_text_congr hcore]

/-! ## Values and flags -/

/-- The value of an attribute. -/
def attributeValue : Parser Tree := do
  if ← isAt .string then tokenLeaf .string else identifier false

theorem attributeTest_eq : attributeTest = (do
    let sign ← attributeOperator
    skipGaps
    let node ← attributeValue
    skipGaps
    return (sign, node)) := by
  simp [attributeTest, attributeValue, ite_bind]

/-- A string without an open quote is the same token before every text. -/
theorem reads_string (h : Reads state .string w cs) (hfirm : IsFirm .string w) (state' : ScanState)
    (cs' : List Char) : Reads state' .string w cs' := by
  cases h with
  | quoted hc hv =>
    obtain ⟨c, v, hw, hclosed⟩ := hfirm.2 rfl
    obtain ⟨rfl, rfl⟩ := List.cons.inj hw
    exact .quoted hc hclosed fun _ _ => rfl
  | sign hc hsign => exact nomatch char?_of_ofChar? hsign

/-- A string is read again before every text. -/
theorem string_runsStill (hp : p.Scans (token :: rest)) (hfirm : p.firm = .firm)
    (hk : token.kind = .string) :
    RunsStill (.still p.state) (fun _ => True) token.text.toList attributeValue
      fun tree => tree.bare = .leaf none .string token.text := by
  obtain ⟨_, -, hread, -⟩ := hp.cons
  have hclosed := hp.isFirm hfirm token (.head _)
  rw [hk] at hread hclosed
  refine ⟨fun cs tokens _ hs => ?_, fun n cs s _ hs _ => ?_⟩
  · obtain ⟨token', rest', rfl, hcore, -⟩ := hs.of_reads (reads_string hread hclosed _ _)
    have hk' : token'.kind = .string := congrArg Prod.fst hcore
    simp [NoGap, isGap, hk']
  · obtain ⟨token', rest', hrest, hcore, hs'⟩ := hs.of_reads (reads_string hread hclosed _ _)
    have hk' : token'.kind = .string := congrArg Prod.fst hcore
    have htext : token'.text = token.text := String.toList_inj.1 (congrArg Prod.snd hcore)
    rw [after_eq_calm rfl (by decide)] at hs'
    refine ⟨.leaf (some token'.start) .string token'.text, { s with rest := rest' }, ?_, ?_,
      hs', by simp [hrest]⟩
    · rw [attributeValue, isAt_bind_run, hrest]
      simp only [List.head?_cons, Option.map_some, hk', decide_true, if_true]
      exact tokenLeaf_eq hrest
    · rw [Node.bare_leaf, htext]

/-- A value is read again, before every stopper if it is a name. -/
theorem attributeValue_runsStill (hp : p.Scans s.rest) (hfirm : p.firm = .firm)
    (h : attributeValue s = .ok tree s') :
    (∃ p', EvenStep p s.rest s'.rest p') ∧ RunsStill (.still p.state)
      (fun cs => tree.isString = false → ∀ d ∈ cs.head?, isStopper d = true) tree.compact
        attributeValue
      fun tree' => tree'.bare = tree.bare := by
  rw [attributeValue, isAt_bind_run] at h
  by_cases hstring : s.rest.head?.map Token.kind = some .string
  · obtain ⟨token, hmem, hk⟩ := Option.map_eq_some_iff.1 hstring
    obtain ⟨rest, hs⟩ := List.head?_eq_some_iff.1 hmem
    simp only [hstring, decide_true, if_true] at h
    obtain ⟨rfl, rfl⟩ := EStateM.Result.ok.inj ((tokenLeaf_eq hs).symm.trans h)
    rw [hs] at hp ⊢
    refine ⟨EvenStep.of_token hp (by rw [hk]; rfl), ?_⟩
    have hruns := string_runsStill hp hfirm hk
    have hcompact : (Node.leaf (some token.start) .string token.text : Tree).compact =
        token.text.toList := by
      simp [Node.leafMarks]
    rw [hcompact, Node.bare_leaf]
    exact ⟨fun cs tokens _ => hruns.noGap cs tokens trivial,
      fun n cs s _ => hruns.runs n cs s trivial⟩
  · simp only [hstring, decide_false, Bool.false_eq_true, if_false, identifier_eq] at h
    obtain ⟨front, hs, -, hkept⟩ := signedName_kept hp (by simp) ⟨rfl, rfl⟩ (by decide) h
    have hstill := hkept.runsStill hp hfirm hs 0
    have hname : tree.isString = false := by
      obtain ⟨_, _, -, -, -, -, -, rfl⟩ := (signedName_eq_ok hp.text_ne).1 h
      rfl
    refine ⟨hstill.1, fun cs tokens hcs => hstill.2.noGap cs tokens (hcs hname),
      fun n cs s₁ hcs hs₁ hlt => ?_⟩
    obtain ⟨tree', s₂, hrun, hpost⟩ := hstill.2.runs n cs s₁ (hcs hname) hs₁ hlt
    refine ⟨tree', s₂, ?_, hpost⟩
    have hnot : s₁.rest.head?.map Token.kind ≠ some .string := by
      intro hhead
      obtain ⟨_, name, hrest, hsigns, hisName, -⟩ := (signedName_eq_ok hs₁.text_ne).1 hrun
      obtain rfl := List.map_eq_nil_iff.1 hsigns
      obtain ⟨first, more, rfl, hfirst⟩ := hisName.starts
      rw [hrest] at hhead
      have hk : first.kind = .string := Option.some.inj hhead
      rcases hfirst with hk' | hk' | hk' <;> cases hk.symm.trans hk'
    rw [attributeValue, isAt_bind_run]
    simpa only [hnot, decide_false, Bool.false_eq_true, if_false, identifier_eq] using hrun

/-- What is written of the flags of an attribute. -/
def flagChars (flags : Option String) : List Char :=
  (flags.map String.toList).getD []

/-- Flags are read again before the bracket that closes. -/
theorem attributeFlags_runsStill (hp : p.Scans s.rest) (hfirm : p.firm = .firm)
    (hcomments : NoComments s.rest) (h : attributeFlags s = .ok flags s') :
    (∃ p', EvenStep p s.rest s'.rest p') ∧
      RunsStill (.still p.state) (fun cs => cs.head? = some ']') (flagChars flags) attributeFlags
        (· = flags) := by
  rw [attributeFlags, isAt_bind_run] at h
  by_cases hident : s.rest.head?.map Token.kind = some .ident
  · obtain ⟨token, hmem, hk⟩ := Option.map_eq_some_iff.1 hident
    obtain ⟨rest, hs⟩ := List.head?_eq_some_iff.1 hmem
    simp only [hident, decide_true, if_true, take_bind_run, skipGaps_bind_run, run_pure] at h
    obtain ⟨rfl, rfl⟩ := EStateM.Result.ok.inj h
    rw [hs] at hp hcomments ⊢
    have hword : ∀ token' ∈ [token], token'.kind.isWord = true := by simp [hk, TokenKind.isWord]
    obtain ⟨p₁, hstep₁⟩ := EvenStep.of_token hp (by rw [hk]; rfl)
    obtain ⟨p', hstep⟩ :=
      EvenStep.of_skipGaps hstep₁.scans fun token' hmem => hcomments token' (.tail _ hmem)
    refine ⟨⟨p', hstep₁.trans hstep⟩, ?_⟩
    have hsplit : ∀ {cs tokens}, cs.head? = some ']' →
        ((Place.still p.state).put (token.text.toList ++ cs)).Scans
        tokens → ∃ token' rest', tokens = token' :: rest' ∧ token'.core = token.core ∧
          ((Place.still p.state).put cs).Scans rest' ∧ NoGap rest' := by
      intro cs tokens hcs hs₁
      obtain ⟨v, rfl⟩ := List.head?_eq_some_iff.1 hcs
      have hs₁ : ((Place.still p.state).put (tokenChars [token] ++ ']' :: v)).Scans tokens := by
        simpa using hs₁
      obtain ⟨front', rest', rfl, hcore, hrest⟩ :=
        Place.Scans.split_still (show p.Scans ([token] ++ rest) from hp)
        hfirm hword (by simp) (by simp [endsWord, isStopper, isBreak]) hs₁
      obtain ⟨token', rfl, hcore'⟩ := exists_of_map_core_singleton hcore
      exact ⟨token', rest', rfl, hcore', hrest, hrest.noGap_of_sign rfl rfl (by decide)⟩
    refine ⟨fun cs tokens hcs hs₁ => ?_, fun n cs s₁ hcs hs₁ _ => ?_⟩
    · obtain ⟨token', rest', rfl, hcore, -⟩ := hsplit hcs (by simpa [flagChars] using hs₁)
      have hk' : token'.kind = .ident := (Token.kind_eq_of_core hcore).trans hk
      simp [NoGap, isGap, hk']
    · obtain ⟨token', rest', hrest, hcore, hs', hgap⟩ := hsplit hcs (by simpa [flagChars] using hs₁)
      have hk' : token'.kind = .ident := (Token.kind_eq_of_core hcore).trans hk
      refine ⟨some token'.text, { s₁ with rest := rest' }, ?_, ?_, hs', by simp [hrest]⟩
      · simp only [attributeFlags, isAt_bind_run, hrest, List.head?_cons, Option.map_some, hk',
          decide_true, if_true, take_bind_run, skipGaps_bind_run, List.tail_cons, hgap.dropWhile_eq,
          Option.getD_some, run_pure]
      · simp [Token.text_eq_of_core hcore]
  · simp only [hident, decide_false, Bool.false_eq_true, if_false, run_pure] at h
    obtain ⟨rfl, rfl⟩ := EStateM.Result.ok.inj h
    refine ⟨⟨p, .refl hp⟩, fun cs tokens hcs hs₁ => ?_, fun n cs s₁ hcs hs₁ _ => ?_⟩
    · obtain ⟨v, rfl⟩ := List.head?_eq_some_iff.1 hcs
      exact hs₁.noGap_of_sign rfl rfl (by decide)
    · obtain ⟨v, rfl⟩ := List.head?_eq_some_iff.1 hcs
      obtain ⟨closing, rest', hrest, hcore, -⟩ := hs₁.of_sign (c := ']') rfl rfl (by decide)
      have hk' : closing.kind = .rightBracket := congrArg Prod.fst hcore
      exact ⟨none, s₁, by simp [attributeFlags, hrest, hk'], rfl, hs₁, Nat.le_refl _⟩

/-! ## Tests -/

/-- The blank that is written between a value and flags. -/
def flagBlank (flags : Option String) (value : Tree) : List Char :=
  if flags.isSome && !value.isString then [' '] else []

theorem testChars_some (flags : Option String) (value : Tree) :
    Node.testChars flags (some value) =
      value.compact ++ (flagBlank flags value ++ flagChars flags) := by
  cases flags <;> cases hstring : value.isString <;>
    simp [Node.testChars, flagBlank, flagChars, Node.chars, hstring]

/-- An operator and a value are read again before flags, or before a bracket. -/
theorem attributeTest_runsStill {test : String × Tree} (flags : Option String) (hp : p.Scans s.rest)
    (hfirm : p.firm = .firm) (hcomments : NoComments s.rest) (h : attributeTest s = .ok test s') :
    IsOperator test.1 ∧ (∃ p', EvenStep p s.rest s'.rest p') ∧ RunsStill (.still p.state)
      (fun cs => (∀ tokens, ((Place.still p.state).put cs).Scans tokens → NoGap tokens) ∧
        (flags = none → ∀ d ∈ cs.head?, isStopper d = true))
      (test.1.toList ++ (test.2.compact ++ (flagBlank flags test.2 ++ []))) attributeTest
      fun test' => test'.1 = test.1 ∧ test'.2.bare = test.2.bare := by
  rw [attributeTest_eq] at h ⊢
  obtain ⟨sign, s₁, hsign, h⟩ := bind_eq_ok.1 h
  rw [skipGaps_bind_run] at h
  obtain ⟨value, s₂, hvalue, h⟩ := bind_eq_ok.1 h
  rw [skipGaps_bind_run] at h
  obtain ⟨rfl, rfl⟩ := EStateM.Result.ok.inj h
  obtain ⟨hoperator, p₁, hstep₁⟩ := attributeOperator_eq_ok hp hsign
  obtain ⟨p₂, hstep₂⟩ := EvenStep.of_skipGaps hstep₁.scans (hstep₁.balanced.noComments hcomments)
  have hstep₁₂ := hstep₁.trans hstep₂
  obtain ⟨⟨p₃, hstep₃⟩, hruns⟩ :=
    attributeValue_runsStill (s := { s₁ with rest := s₁.rest.dropWhile isGap })
    hstep₂.scans (hstep₁₂.firm ▸ hfirm) hvalue
  have hstep₁₃ := hstep₁₂.trans hstep₃
  obtain ⟨p₄, hstep₄⟩ := EvenStep.of_skipGaps hstep₁₃.scans (hstep₁₃.balanced.noComments hcomments)
  refine ⟨hoperator, ⟨p₄, hstep₁₃.trans hstep₄⟩, ?_⟩
  refine (hoperator.runsStill p.state).bind (fun sign' hsign' n => ?_) fun _ _ => trivial
  refine ((hstep₁₂.still ▸ hruns).bind (fun node hnode n => ?_)
    fun cs hcs hname => ?_).skipGaps.runs n
  · have hblank : flagBlank flags value = [] ∨ flagBlank flags value = [' '] := by
      rw [flagBlank]
      split
      · exact .inr rfl
      · exact .inl rfl
    exact (runs_blank hblank n).bind
      (fun _ _ => runs_pure ⟨hsign', hnode⟩) fun _ hcs => hcs.1
  · cases flags with
    | none => simpa [flagBlank] using hcs.2 rfl
    | some => simp [flagBlank, hname, isStopper]

/-- Whether an operator is read before a token of the given kind. -/
def opensTest : Option TokenKind → Bool
  | none | some .rightBracket | some .ident => false
  | some _ => true

/-- The operator and the value of an attribute, if it has any. -/
def attributeTest? : Parser (Option (String × Tree)) := do
  if opensTest (← kind?) then return some (← attributeTest) else return none

theorem attributeSelector_eq : attributeSelector = (do
    let info ← here
    expect .leftBracket
    skipGaps
    let name ← qualifiedName true
    skipGaps
    let test ← attributeTest?
    let flags ← attributeFlags
    expect .rightBracket
    return .attributeSelector info name (test.map Prod.fst) (test.map Prod.snd) flags) := by
  simp only [attributeSelector, attributeTest?, bind_assoc]
  refine bind_congr fun info => bind_congr fun _ => bind_congr fun _ => bind_congr fun name =>
    bind_congr fun _ =>
    bind_congr fun kind => ?_
  unfold opensTest
  split <;> simp

theorem opensTest_of_attributeTest {test : String × Tree} (h : attributeTest s = .ok test s') :
    opensTest (s.rest.head?.map Token.kind) = true := by
  rw [attributeTest_eq] at h
  obtain ⟨sign, s₁, hsign, -⟩ := bind_eq_ok.1 h
  rw [attributeOperator, kind?_bind_run] at hsign
  cases hs : s.rest with
  | nil => simp [hs] at hsign
  | cons token rest =>
    rw [hs, List.head?_cons, Option.map_some] at hsign
    rw [List.head?_cons, Option.map_some]
    cases hk : token.kind <;> first | rfl | (rw [hk] at hsign; exact (fail_ne_ok.1 hsign).elim)

/-- What is written of an operator and a value before flags. -/
def testText (flags : Option String) (test : Option (String × Tree)) : List Char :=
  (test.map fun test => test.1.toList ++ (test.2.compact ++ (flagBlank flags test.2 ++ []))).getD []

/-- An operator and a value, if there are any, are read again before flags. -/
theorem attributeTest?_runs {test : Option (String × Tree)} (hp : p.Scans s.rest)
    (hfirm : p.firm = .firm) (hcomments : NoComments s.rest)
    (hflags : flags.isSome = true → test.isSome = true) (h : attributeTest? s = .ok test s') :
    (∀ t ∈ test, IsOperator t.1) ∧ (∃ p', EvenStep p s.rest s'.rest p') ∧
      RunsStill (.still p.state) (fun cs => ∃ v, cs = flagChars flags ++ ']' :: v ∧
          ∀ tokens, ((Place.still p.state).put cs).Scans tokens → NoGap tokens)
            (testText flags test) attributeTest?
        fun test' => test'.map Prod.fst = test.map Prod.fst ∧
          (test'.map Prod.snd).map Node.bare = (test.map Prod.snd).map Node.bare := by
  rw [attributeTest?, kind?_bind_run] at h
  cases hopens : opensTest (s.rest.head?.map Token.kind) with
  | false =>
    simp only [hopens, Bool.false_eq_true, if_false] at h
    obtain ⟨rfl, rfl⟩ := EStateM.Result.ok.inj h
    obtain rfl : flags = none := by simpa using hflags
    refine ⟨fun _ hmem => absurd hmem (Option.not_mem_none _), ⟨p, .refl hp⟩,
      fun cs tokens hcs => ?_, fun n cs s hcs hs _ => ?_⟩
    · obtain ⟨_, -, hgap⟩ := hcs
      exact hgap tokens
    obtain ⟨v, rfl, -⟩ := hcs
    obtain ⟨closing, rest, hrest, hcore, -⟩ := hs.of_sign (c := ']') rfl rfl (by decide)
    have hk : closing.kind = .rightBracket := congrArg Prod.fst hcore
    exact ⟨none, s, by simp [attributeTest?, hrest, hk, opensTest], ⟨rfl, rfl⟩, hs, Nat.le_refl _⟩
  | true =>
    simp only [hopens, if_true] at h
    obtain ⟨test, s₁, hread, h⟩ := bind_eq_ok.1 h
    obtain ⟨rfl, rfl⟩ := EStateM.Result.ok.inj h
    obtain ⟨hoperator, hstep, hruns⟩ := attributeTest_runsStill flags hp hfirm hcomments hread
    have hnext : ∀ {cs v}, cs = flagChars flags ++ ']' :: v → flags = none →
        ∀ d ∈ cs.head?, isStopper d = true := by
      rintro _ v rfl rfl
      simp [flagChars, isStopper, isBreak]
    refine ⟨fun t hmem => Option.some.inj hmem ▸ hoperator, hstep, fun cs tokens hcs => ?_,
      fun n cs s hcs hs hlt => ?_⟩
    · obtain ⟨_, hcs, hgap⟩ := hcs
      exact hruns.noGap cs tokens ⟨hgap, hnext hcs⟩
    obtain ⟨_, hcs, hgap⟩ := hcs
    obtain ⟨test', s₂, hrun, ⟨hsign, hvalue⟩, hs₂, hle⟩ :=
      hruns.runs n cs s ⟨hgap, hnext hcs⟩ hs hlt
    refine ⟨some test', s₂, ?_, ?_, hs₂, hle⟩
    · rw [attributeTest?, kind?_bind_run, opensTest_of_attributeTest hrun, if_pos rfl,
        bind_of_ok hrun, run_pure]
    · simp [hsign, hvalue]

/-! ## Attributes -/

/-- The pieces of an attribute are read again. -/
structure AttributePieces (p : Place) (name : Tree) (test : Option (String × Tree))
    (flags : Option String) :
    Prop where
  operator : ∀ t ∈ test, IsOperator t.1
  tested : flags.isSome = true → test.isSome = true
  name : RunsStill p (FollowsName name.compact) name.compact (qualifiedName true)
    fun name' => name'.bare = name.bare
  test : RunsStill p (fun cs => ∃ v, cs = flagChars flags ++ ']' :: v ∧
      ∀ tokens, (p.put cs).Scans tokens → NoGap tokens) (testText flags test) attributeTest?
    fun test' => test'.map Prod.fst = test.map Prod.fst ∧
      (test'.map Prod.snd).map Node.bare = (test.map Prod.snd).map Node.bare
  flags : RunsStill p (fun cs => cs.head? = some ']') (flagChars flags) attributeFlags (· = flags)

/-- An attribute is a bracket, its pieces, and a bracket. -/
theorem attributeSelector_eq_ok (hp : p.Scans s.rest) (hfirm : p.firm = .firm)
    (hcomments : NoComments s.rest) (htested : node.flagsTested = true)
    (h : attributeSelector s = .ok node s') :
    ∃ name test flags opening rest closing p', node =
        .attributeSelector (s.rest.head?.map Token.start) name
        (test.map Prod.fst) (test.map Prod.snd) flags ∧
      s.rest = opening :: rest ∧ opening.kind = .leftBracket ∧ closing.kind = .rightBracket ∧
      EvenStep p s.rest (closing :: s'.rest) p' ∧
      AttributePieces (.still p.state) name test flags := by
  rw [attributeSelector_eq, here_bind_run] at h
  obtain ⟨_, _, hopen, h⟩ := bind_eq_ok.1 h
  obtain ⟨opening, rest, hs, hk, rfl⟩ := expect_eq_ok.1 hopen
  rw [skipGaps_bind_run] at h
  obtain ⟨name, s₁, hname, h⟩ := bind_eq_ok.1 h
  rw [skipGaps_bind_run] at h
  obtain ⟨test, s₂, htest, h⟩ := bind_eq_ok.1 h
  obtain ⟨flags, s₃, hflags, h⟩ := bind_eq_ok.1 h
  obtain ⟨_, _, hclose, h⟩ := bind_eq_ok.1 h
  obtain ⟨closing, rest', hs₃, hk', rfl⟩ := expect_eq_ok.1 hclose
  obtain ⟨rfl, rfl⟩ := EStateM.Result.ok.inj h
  have htested : flags.isSome = true → test.isSome = true := by
    cases flags with
    | none => exact nofun
    | some => simpa [Node.flagsTested] using htested
  have hstep₁ : ∃ p₁, EvenStep p s.rest rest p₁ := by
    rw [hs] at hp ⊢
    exact EvenStep.of_token hp (by rw [hk]; rfl)
  obtain ⟨p₁, hstep₁⟩ := hstep₁
  obtain ⟨p₂, hstep₂⟩ := EvenStep.of_skipGaps hstep₁.scans (hstep₁.balanced.noComments hcomments)
  have hstep₂ := hstep₁.trans hstep₂
  obtain ⟨⟨p₃, hstep₃⟩, hnameRuns⟩ :=
    qualifiedName_runsStill (s := { s with rest := rest.dropWhile isGap })
    hstep₂.scans (hstep₂.firm ▸ hfirm) hname
  have hstep₃ := hstep₂.trans hstep₃
  obtain ⟨p₄, hstep₄⟩ := EvenStep.of_skipGaps hstep₃.scans (hstep₃.balanced.noComments hcomments)
  have hstep₄ := hstep₃.trans hstep₄
  obtain ⟨hoperator, ⟨p₅, hstep₅⟩, htestRuns⟩ := attributeTest?_runs
    (s := { s₁ with rest := s₁.rest.dropWhile isGap }) hstep₄.scans (hstep₄.firm ▸ hfirm)
    (hstep₄.balanced.noComments hcomments) htested htest
  have hstep₅ := hstep₄.trans hstep₅
  obtain ⟨⟨p₆, hstep₆⟩, hflagsRuns⟩ := attributeFlags_runsStill hstep₅.scans (hstep₅.firm ▸ hfirm)
    (hstep₅.balanced.noComments hcomments) hflags
  have hstep₆ := hstep₅.trans hstep₆
  rw [hs₃] at hstep₆
  exact ⟨name, test, flags, opening, rest, closing, p₆, rfl, hs, hk, hk', hstep₆,
    hoperator, htested,
    hstep₂.still ▸ hnameRuns, hstep₄.still ▸ htestRuns, hstep₅.still ▸ hflagsRuns⟩

/-- What is written in the brackets of an attribute. -/
def attributeText (name : Tree) (test : Option (String × Tree)) (flags : Option String) :
    List Char :=
  name.compact ++ (testText flags test ++ (flagChars flags ++ [']']))

theorem AttributePieces.compact_eq {test : Option (String × Tree)} {name : Tree} (info : Option Nat)
    (h : AttributePieces p name test flags) : (Node.attributeSelector info name (test.map Prod.fst)
      (test.map Prod.snd) flags : Tree).compact = '[' :: attributeText name test flags := by
  rw [Node.compact_attributeSelector, attributeText]
  cases test with
  | none =>
    obtain rfl : flags = none := by simpa using h.tested
    rfl
  | some test => simp [testText, testChars_some]

theorem AttributePieces.followsName {test : Option (String × Tree)} {name : Tree}
    (info : Option Nat) (h : AttributePieces p name test flags)
    (happart : (Node.attributeSelector info name (test.map Prod.fst)
      (test.map Prod.snd) flags : Tree).nameApart = true)
    (cs : List Char) :
    FollowsName name.compact ((testText flags test ++ (flagChars flags ++ [']'])) ++ cs) := by
  cases test with
  | none =>
    obtain rfl : flags = none := by simpa using h.tested
    exact .closing
  | some test =>
    have hsign : name.compact.getLast? = some '|' → test.1 ≠ "=" ∧ test.1 ≠ "*=" := fun hbar => by
      simpa [Node.nameApart, hbar] using happart
    simpa [testText] using FollowsName.operator (h.operator test rfl) hsign

/-- The pieces of an attribute and the bracket that closes are read again one after the other. -/
theorem AttributePieces.runs {test : Option (String × Tree)} {name : Tree} (info : Option Nat)
    (h : AttributePieces (.still state) name test flags)
    (hafter : ∀ cs, FollowsName name.compact
      ((testText flags test ++ (flagChars flags ++ [']'])) ++ cs))
    (n : Nat) :
    Runs n (.still state) (.still state) (fun _ => True) (attributeText name test flags) (do
        skipGaps
        let name ← qualifiedName true
        skipGaps
        let test ← attributeTest?
        let flags ← attributeFlags
        expect .rightBracket
        return .attributeSelector info name (test.map Prod.fst) (test.map Prod.snd) flags)
      fun node : Tree => node.bare =
        .attributeSelector none name.bare (test.map Prod.fst)
          ((test.map Prod.snd).map Node.bare) flags := by
  refine (h.name.bind (fun name' hname n => ?_) fun cs _ => hafter cs).skipGaps.runs n
  refine (h.test.bind (fun test' htest n => ?_)
    fun cs _ => ⟨cs, by simp, fun tokens hscan => ?_⟩).skipGaps.runs n
  · refine (h.flags.runs n).bind (fun flags' hflags => ?_) fun cs _ => rfl
    refine ((runsStill_sign (c := ']') state rfl rfl (by decide) rfl).runs n).bind (v := [])
      (fun _ _ => ?_)
      fun _ _ => trivial
    exact runs_pure (by simp [hname, htest, hflags])
  · exact h.flags.noGap (']' :: cs) tokens rfl (by simpa using hscan)

/-- An attribute is read again, if its flags stand after an operator and its name does not go on
with it. -/
theorem attributeSelector_returns (hp : p.Scans s.rest) (hfirm : p.firm = .firm)
    (hcomments : NoComments s.rest) (htested : node.flagsTested = true)
    (happart : node.nameApart = true) (h : attributeSelector s = .ok node s') :
    ∃ p', PartReturns p s s' node (fun _ => attributeSelector) p' := by
  obtain ⟨name, test, flags, opening, rest, closing, p₁, rfl, hs, hk, hk', hstep, hpieces⟩ :=
    attributeSelector_eq_ok hp hfirm hcomments htested h
  have hafter := hpieces.followsName _ happart
  rw [hs] at hp
  obtain ⟨cs₁, htext, -, hstate₁, hsign⟩ := rereads_sign (c := '[') hp hk rfl rfl (by decide)
  obtain ⟨cs₂, -, hp', hstate', -⟩ := rereads_sign (c := ']') hstep.scans hk' rfl rfl (by decide)
  have hstill : (p₁.after closing cs₂).state = p.state.calm := by
    rw [← hstate', after_eq_calm rfl (by decide), hstep.state]
  refine ⟨p₁.after closing cs₂, hp', hstep.firm, ?_, rfl, fun cs _ => ?_,
    fun n cs s₁ _ hs₁ hlt => ?_⟩
  · exact hstep.balanced.trans (.token (by simp [hk']) (by simp [hk']))
  · rw [hpieces.compact_eq]
    exact startsAlike_of_sign htext rfl rfl (by decide) _
  · have hrereads : Rereads n p (.still p.state) (fun _ => True)
        (['['] ++ attributeText name test flags)
        attributeSelector fun node => node.bare =
          .attributeSelector none name.bare (test.map Prod.fst)
            ((test.map Prod.snd).map Node.bare) flags := by
      rw [attributeSelector_eq]
      refine .here fun info =>
        (hsign n).bind (m := n) (fun _ _ => ?_) (Nat.le_succ n) fun _ _ => trivial
      exact (hpieces.runs info hafter n).of_state_eq hstate₁
    rw [hpieces.compact_eq] at hs₁
    obtain ⟨node', s₂, hrun, hbare, hs₂, hlt₂⟩ := hrereads.run cs s₁ trivial hs₁ hlt
    refine ⟨node', s₂, hrun, by rw [hbare, Node.bare_attributeSelector], ?_, hlt₂⟩
    rw [Place.put, hstill]
    exact hs₂

/-- The parts of a selector are read again where nothing is called. -/
theorem selectorReturns_attributes (inner : Nested) :
    SelectorReturns inner (fun tokens =>
      ∀ token ∈ tokens, token.kind ≠ .comment ∧ token.kind ≠ .leftParen)
      fun node => node.flagsTested = true ∧ node.nameApart = true := by
  refine selectorReturns_of_calls (fun hall hsuffix token hmem => hall token (hsuffix.subset hmem))
    (fun hall => (hall _ (.head _)).1) (fun {p s s' node} hp hfirm hall _ hsound h => ?_)
    fun {p s s' node} hp _ hall _ _ hcall => ?_
  · exact attributeSelector_returns hp hfirm
      (fun token hmem => (hall token hmem).1) hsound.1 hsound.2 h
  · obtain ⟨paren, hmem, hk⟩ := hcall.mem_leftParen hp.text_ne
    exact absurd hk (hall paren hmem).2

end Grammar

/-- A simple selector without comments, extensions, calls and escapes comes back from its compact
text, with the name, operator, value and flags of every attribute, if all flags stand after an
operator and no name ends with a bar that goes on with one. -/
theorem parse_toCss_of_nameApart {text : String} {options : ParseOptions} {node : Node SourceInfo}
    (hcontext : options.context = .simpleSelector) (hpositions : options.positions = false)
    (hcomments : NoComments (TokenTable.ofText text false).tokens.toList)
    (hextensions : (TokenTable.ofText text false).extensions = [])
    (hplain : ∀ c ∈ ['(', '\\', byteOrderMark], c ∉ text.toList)
    (htested : ∀ other ∈ node.preorder, other.flagsTested = true)
    (happart : ∀ other ∈ node.preorder, other.nameApart = true)
    (h : parse text options = .ok node) :
    parse node.toCss options = .ok node := by
  have hscans :=
    TokenTable.firmScans_ofText hextensions (hplain byteOrderMark (by simp)) (hplain '\\' (by simp))
  have htokens : ∀ token ∈ (TokenTable.ofText text false).tokens.toList,
      token.kind ≠ .comment ∧ token.kind ≠ .leftParen := fun token hmem =>
    ⟨hcomments token hmem, fun hk =>
      hplain '(' (by simp) (hscans.mem_text_of_char? hmem (by rw [hk]; rfl))⟩
  refine parse_toCss_of_returns hcontext hpositions hextensions (hplain _ (by simp))
    (hplain _ (by simp))
    (fun _ => Grammar.selectorReturns_attributes _) htokens (fun tree hbare child hchild => ?_) h
  have hmem : child.bare ∈ node.preorder := by
    rw [← hbare, Node.bare, Node.preorder_mapInfo]
    exact List.mem_map_of_mem (Node.mem_preorder.2 (.inr ⟨child, hchild, Node.self_mem_preorder _⟩))
  rw [← Node.flagsTested_mapInfo fun _ => none, ← Node.nameApart_mapInfo fun _ => none]
  exact ⟨htested _ hmem, happart _ hmem⟩

/-- Names with namespaces and suffixes, all kinds of operators, values and flags: only the blanks
go. -/
theorem parse_toCss_of_nameApart_attributes :
    let text := "a[ xml|lang:b ~= c ]|d[*|e |= 'f'i ][ |g  ^=h I][i| $= j]"
    let options : ParseOptions := { context := .simpleSelector }
    let name : String → Node SourceInfo := .leaf none .identifier
    let node : Node SourceInfo := .sequence none .simpleSelector
      [name "a", .attributeSelector none (name "xml|lang:b") (some "~=")
        (some (name "c")) none, name "|d",
      .attributeSelector none (name "*|e") (some "|=") (some (.leaf none .string "'f'")) (some "i"),
      .attributeSelector none (name "|g") (some "^=") (some (name "h")) (some "I"),
      .attributeSelector none (name "i|") (some "$=") (some (name "j")) none]
    parse text options = .ok node ∧
      node.toCss = "a[xml|lang:b~=c]|d[*|e|='f'i][|g^=h I][i|$=j]" ∧
      parse node.toCss options = .ok node := by
  intro text options name node
  have h : parse text options = .ok node := by decide +kernel
  refine ⟨h, by decide +kernel, ?_⟩
  have hplain : (['(', '\\', byteOrderMark].all fun c => decide (c ∉ text.toList)) = true := by
    decide +kernel
  refine parse_toCss_of_nameApart rfl rfl ?_ (by decide +kernel)
    (fun c hmem => of_decide_eq_true (List.all_eq_true.1 hplain c hmem)) (by decide +kernel)
      (by decide +kernel) h
  unfold NoComments
  decide +kernel

/-- A bar at the end of a name is the first sign of the operator where no blank stands between
them. -/
theorem parse_toCss_ne_of_bar :
    let options : ParseOptions := { context := .simpleSelector }
    let tested (name operator : String) : Node SourceInfo := .sequence none .simpleSelector
      [.attributeSelector none (.leaf none .identifier name) (some operator)
        (some (.leaf none .identifier "b")) none]
    NoComments (TokenTable.ofText "[a| =b]" false).tokens.toList ∧
      (TokenTable.ofText "[a| =b]" false).extensions = [] ∧
      (['(', '\\', byteOrderMark].all fun c => decide (c ∉ "[a| =b]".toList)) = true ∧
      (∀ other ∈ (tested "a|" "=").preorder, other.flagsTested = true) ∧
      parse "[a| =b]" options = .ok (tested "a|" "=") ∧ (tested "a|" "=").toCss = "[a|=b]" ∧
      parse "[a|=b]" options = .ok (tested "a" "|=") ∧
      parse (tested "a|" "=").toCss options ≠ .ok (tested "a|" "=") := by
  unfold NoComments
  decide +kernel

end StyleTree
