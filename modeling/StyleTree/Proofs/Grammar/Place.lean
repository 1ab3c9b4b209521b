import StyleTree.Proofs.Token.Follow

/-! Places in a text. A reader of tokens stands at a `Place` if the tokens left are those that the
scanner makes of the text from there on (`Place.Scans`). Offsets do not matter, so the same tokens
can stand at places of different texts. Reading tokens moves the place (`Place.Scans.cons`,
`Place.Scans.append`), and a text can be put in place of the one that was there (`Place.put`). -/

namespace StyleTree

/-- The kind and the characters of a token, without its offset. -/
def Token.core (token : Token) : TokenKind × List Char :=
  (token.kind, token.text.toList)

@[simp] theorem Token.core_fst (token : Token) : token.core.1 = token.kind := rfl

@[simp] theorem Token.core_snd (token : Token) : token.core.2 = token.text.toList := rfl

theorem Token.text_eq_of_core {token token' : Token} (h : token.core = token'.core) :
    token.text = token'.text :=
  String.toList_inj.1 (congrArg Prod.snd h)

theorem Token.kind_eq_of_core {token token' : Token} (h : token.core = token'.core) :
    token.kind = token'.kind :=
  congrArg Prod.fst h

/-- The characters of tokens in a row. -/
def tokenChars (tokens : List Token) : List Char :=
  coreChars (tokens.map Token.core)

@[simp] theorem tokenChars_nil : tokenChars [] = [] := rfl

@[simp] theorem tokenChars_cons (token : Token) (tokens : List Token) :
    tokenChars (token :: tokens) = token.text.toList ++ tokenChars tokens := rfl

@[simp] theorem tokenChars_append (tokens tokens' : List Token) :
    tokenChars (tokens ++ tokens') = tokenChars tokens ++ tokenChars tokens' := by
  simp [tokenChars]

theorem tokenChars_subset {tokens tokens' : List Token} (h : tokens ⊆ tokens') :
    ∀ c ∈ tokenChars tokens, c ∈ tokenChars tokens' := by
  intro c hc
  simp only [tokenChars, coreChars, List.flatMap_map, List.mem_flatMap] at hc ⊢
  obtain ⟨token, hmem, hc⟩ := hc
  exact ⟨token, h hmem, hc⟩

theorem toList_concat_text (tokens : List Token) :
    (Text.concat (tokens.map Token.text)).toList = tokenChars tokens := by
  simp [Text.concat, tokenChars, coreChars, List.flatMap_map]

/-- The state as it is after a token that is not `url`. -/
def ScanState.calm (state : ScanState) : ScanState :=
  { state with afterUrl := false }

/-- How much is known of the lexemes of a text: nothing, that the last one is closed, or that all
are firm. -/
inductive Firmness where
  | soft
  | closed
  | firm

/-- What is known holds of the tokens. -/
def Firmness.Holds : Firmness → List Token → Prop
  | soft, _ => True
  | closed, tokens => ∀ token ∈ tokens.getLast?, IsClosed token.kind token.text.toList
  | firm, tokens => ∀ token ∈ tokens, IsFirm token.kind token.text.toList

theorem Firmness.Holds.of_append {known : Firmness} (front : List Token) {tokens : List Token}
    (h : known.Holds (front ++ tokens)) : known.Holds tokens := by
  cases known with
  | soft => trivial
  | closed =>
    intro token hmem
    refine h token ?_
    rw [List.getLast?_append, Option.mem_def.1 hmem]
    rfl
  | firm => exact fun token hmem => h token (List.mem_append_right _ hmem)

/-- Another token can be the first one if it is closed and firm where the one in its place is. -/
theorem Firmness.Holds.exchange {known : Firmness} {token token' : Token} {tokens : List Token}
    (h : known.Holds (token :: tokens))
    (hclosed : IsClosed token.kind token.text.toList → IsClosed token'.kind token'.text.toList)
    (hfirm : IsFirm token.kind token.text.toList → IsFirm token'.kind token'.text.toList) :
    known.Holds (token' :: tokens) := by
  cases known with
  | soft => trivial
  | closed =>
    cases tokens with
    | nil =>
      rintro _ ⟨⟩
      exact hclosed (h token rfl)
    | cons next tokens => simpa only [Holds, List.getLast?_cons_cons] using h
  | firm =>
    obtain ⟨htoken, htokens⟩ := List.forall_mem_cons.1 h
    exact List.forall_mem_cons.2 ⟨hfirm htoken, htokens⟩

/-- What the scanner knows where a reader stands, the characters to come, and how much is known of
the lexemes. -/
structure Place where
  state : ScanState
  text : List Char
  firm : Firmness

namespace Place

/-- The tokens are those of the text from here on, up to their offsets. -/
structure Scans (p : Place) (tokens : List Token) : Prop where
  cores : tokens.map Token.core = coresFrom p.state p.text
  holds : p.firm.Holds tokens

/-- The place with another text in place of the one to come. -/
def put (p : Place) (cs : List Char) : Place :=
  ⟨p.state, cs, .soft⟩

/-- The place after a token with the given text after it. -/
def after (p : Place) (token : Token) (cs : List Char) : Place :=
  ⟨p.state.after token.kind token.text.toList, cs, p.firm⟩

/-- The place after some tokens with the given text after them. -/
def afterAll (p : Place) (tokens : List Token) (cs : List Char) : Place :=
  ⟨p.state.afterAll (tokens.map Token.core), cs, p.firm⟩

/-- The text can stand in for the one to come. -/
def Follow (p : Place) (cs : List Char) : Prop :=
  StyleTree.Follow (p.firm ≠ .soft) p.state p.text cs

@[simp] theorem put_state (p : Place) (cs : List Char) : (p.put cs).state = p.state := rfl

@[simp] theorem put_text (p : Place) (cs : List Char) : (p.put cs).text = cs := rfl

@[simp] theorem put_put (p : Place) (cs cs' : List Char) : (p.put cs).put cs' = p.put cs' := rfl

theorem follow_self (p : Place) : p.Follow p.text := .refl

variable {p p' : Place} {token : Token} {tokens tokens' front : List Token} {cs w : List Char}

namespace Scans

theorem isFirm (h : p.Scans tokens) (hfirm : p.firm = .firm) :
    ∀ token ∈ tokens, IsFirm token.kind token.text.toList := by
  have hholds := h.holds
  rw [hfirm] at hholds
  exact hholds

theorem isClosed (h : p.Scans tokens) (hfirm : p.firm ≠ .soft) :
    ∀ token ∈ tokens.getLast?, IsClosed token.kind token.text.toList := by
  have hholds := h.holds
  cases hknown : p.firm with
  | soft => exact absurd hknown hfirm
  | closed => rwa [hknown] at hholds
  | firm => exact fun token hmem => (h.isFirm hknown token (List.mem_of_getLast? hmem)).isClosed

theorem nil (h : p.Scans []) : p.text = [] :=
  coresFrom_eq_nil.1 h.cores.symm

theorem eq_nil (h : p.Scans tokens) (htext : p.text = []) : tokens = [] := by
  have hcores := h.cores
  rw [htext, coresFrom_nil] at hcores
  exact List.map_eq_nil_iff.1 hcores

/-- The tokens at the place after some tokens. -/
theorem append (h : p.Scans (front ++ tokens)) :
    ∃ cs, p.text = tokenChars front ++ cs ∧ (p.afterAll front cs).Scans tokens := by
  have hcores := h.cores
  rw [List.map_append] at hcores
  obtain ⟨cs, htext, hrest⟩ := coresFrom_eq_append hcores.symm
  exact ⟨cs, htext, hrest, h.holds.of_append front⟩

/-- Where the text goes on after some tokens to its end, the last one of them is closed. -/
theorem isClosed_of_end (h : p.Scans (front ++ tokens)) (htext : p.text = tokenChars front ++ cs)
    (hcs : cs = []) (hclosed : p.firm ≠ .soft) :
    ∀ token ∈ front.getLast?, IsClosed token.kind token.text.toList := by
  obtain ⟨_, htext', hrest⟩ := h.append
  obtain rfl := List.append_cancel_left (htext.symm.trans htext')
  rw [hrest.eq_nil hcs, List.append_nil] at h
  exact h.isClosed hclosed

/-- The first token is a lexeme, and the others stand at the place after it. -/
theorem cons (h : p.Scans (token :: tokens)) : ∃ cs, p.text = token.text.toList ++ cs ∧
    Reads p.state token.kind token.text.toList cs ∧ (p.after token cs).Scans tokens := by
  obtain ⟨cs, htext, hread, hrest⟩ := coresFrom_eq_cons h.cores.symm
  exact ⟨cs, htext, hread, hrest, h.holds.of_append [token]⟩

/-- The tokens of a text that starts with a given lexeme. -/
theorem of_reads {kind : TokenKind} (h : (p.put (w ++ cs)).Scans tokens)
    (hread : Reads p.state kind w cs) : ∃ token rest, tokens = token :: rest ∧
      token.core = (kind, w) ∧ Scans ⟨p.state.after kind w, cs, .soft⟩ rest := by
  have hcores := h.cores
  rw [put_state, put_text, hread.coresFrom_append] at hcores
  obtain ⟨token, rest, rfl, htoken, hrest⟩ := List.map_eq_cons_iff.1 hcores
  exact ⟨token, rest, rfl, htoken, hrest, trivial⟩

/-- The tokens of a text that starts with a punctuator. -/
theorem of_sign {kind : TokenKind} {c : Char} (h : (p.put (c :: cs)).Scans tokens)
    (hc : CharClass.ofChar c = .punctuator) (hkind : TokenKind.ofChar? c = some kind)
    (hslash : c ≠ '/') : ∃ token rest, tokens = token :: rest ∧ token.core = (kind, [c]) ∧
      Scans ⟨p.state.after kind [c], cs, .soft⟩ rest :=
  h.of_reads (w := [c]) (.sign hc hkind fun h => absurd h hslash)

theorem text_ne (h : p.Scans tokens) : ∀ token ∈ tokens, token.text ≠ "" := by
  induction tokens generalizing p with
  | nil => simp
  | cons token tokens ih =>
    obtain ⟨cs, -, hread, hrest⟩ := h.cons
    intro other hmem
    rcases List.mem_cons.1 hmem with rfl | hmem
    · intro htext
      exact hread.ne_nil (by simp [htext])
    · exact ih hrest other hmem

/-- The tokens make up the text. -/
theorem text_eq (h : p.Scans tokens) : p.text = tokenChars tokens := by
  rw [tokenChars, h.cores, coreChars_coresFrom]

theorem text_subset (h : p.Scans tokens) (h' : p'.Scans tokens') (hsub : tokens' ⊆ tokens) :
    ∀ c ∈ p'.text, c ∈ p.text := by
  rw [h.text_eq, h'.text_eq]
  exact tokenChars_subset hsub

theorem kinds (h : p.Scans tokens) : tokens.map Token.kind = kindsFrom p.state p.text := by
  rw [kindsFrom, ← h.cores, List.map_map]
  rfl

end Scans

/-! ## Whether the last token was `url` -/

/-- Two states of the scanner that differ at most in whether the last token was `url`. -/
def Alike (state state' : ScanState) : Prop :=
  state.depth = state'.depth ∧ state.inUrl = state'.inUrl

theorem after_eq_of_alike {state state' : ScanState} (h : Alike state state') {kind : TokenKind}
    (hkind : kind ≠ .leftParen) (w : List Char) : state.after kind w = state'.after kind w := by
  obtain ⟨hdepth, hurl⟩ := h
  cases kind <;> simp_all [ScanState.after]

theorem readLexeme_eq_of_alike {state state' : ScanState} (h : Alike state state') (c : Char)
    (cs : List Char) : readLexeme state c cs = readLexeme state' c cs := by
  obtain ⟨hdepth, hurl⟩ := h
  unfold readLexeme
  split <;> try rfl
  unfold readPunctuator
  split <;> simp only [hdepth, hurl]

/-- Only an opening parenthesis tells whether the last token was `url`. -/
theorem coresFrom_eq_of_alike {state state' : ScanState} (h : Alike state state')
    (hcs : cs.head? ≠ some '(') : coresFrom state cs = coresFrom state' cs := by
  cases cs with
  | nil => rfl
  | cons c cs =>
    have hkind : (readLexeme state c cs).1.kind ≠ .leftParen := by
      intro hkind
      have hread := reads_readLexeme state c cs
      rw [hkind] at hread
      have hchars := readLexeme_append state c cs
      rw [hread.eq_char rfl] at hchars
      exact hcs (by rw [← hchars]; rfl)
    rw [coresFrom_cons, coresFrom_cons, ← readLexeme_eq_of_alike h,
      after_eq_of_alike h hkind]

end Place

variable {tokens : List Token} {cs : List Char}

/-- Whether the last token was `url` does not matter before a text that no parenthesis opens. -/
theorem scans_calm_iff {state : ScanState} (hcs : cs.head? ≠ some '(') :
    Place.Scans ⟨state.calm, cs, .soft⟩ tokens ↔ Place.Scans ⟨state, cs, .soft⟩ tokens := by
  have hcores : coresFrom state.calm cs = coresFrom state cs :=
    Place.coresFrom_eq_of_alike ⟨rfl, rfl⟩ hcs
  exact ⟨fun h => ⟨h.cores.trans hcores, trivial⟩, fun h => ⟨h.cores.trans hcores.symm, trivial⟩⟩

end StyleTree
