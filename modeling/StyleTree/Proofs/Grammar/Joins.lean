import StyleTree.Proofs.Grammar.Rereads

/-! What may stand next after the words of a selector. A word without escapes ends before every
blank and before every sign that cannot stand in a word (`isStopper`), so such signs can come in
where there were none. What stands next either starts with a stopper or as it did before
(`Place.Joins`); then a reader of words sees nothing that would go on with what it reads
(`NextLike`). -/

namespace StyleTree

variable {p : Place} {tokens tokens' front rest rest' : List Token} {cs cs' : List Char}

/-! ## Words and stoppers -/

/-- No word goes on with the character. -/
def isStopper (c : Char) : Bool :=
  isBreak c || c = ' ' || c = '>' || c = '+' || c = '~'

/-- The kinds of lexemes that names, numbers and the signs before and after them are made of. -/
def TokenKind.isWord : TokenKind → Bool
  | .ident | .lowLine | .number | .hyphenMinus | .fullStop | .numberSign | .colon | .asterisk
  | .percentSign | .verticalLine => true
  | _ => false

theorem isStopper_iff {c : Char} :
    isStopper c = true ↔ isBreak c = true ∨ c = ' ' ∨ c = '>' ∨ c = '+' ∨ c = '~' := by
  simp [isStopper, or_assoc]

/-- No word goes on with the character: a stopper, or another sign of an operator. -/
def endsWord (c : Char) : Bool :=
  isStopper c || c = '=' || c = '^' || c = '$' || c = '*' || c = '|'

theorem endsWord_of_stopper {c : Char} (hc : isStopper c = true) : endsWord c = true := by
  simp [endsWord, hc]

/-- The characters that end words. -/
def wordEnds : List Char :=
  [')', ']', ',', ';', ':', '!', '\x7b', '\x7d', ' ', '>', '+', '~', '=', '^', '$', '*', '|']

theorem endsWord_iff {c : Char} : endsWord c = true ↔ c ∈ wordEnds := by
  simp [endsWord, isStopper, isBreak, wordEnds, or_assoc]

theorem step_endsWord {last : IdentifierState} (h : last.Outside) {c : Char}
    (hc : endsWord c = true) : last.step c = none := by
  have hplain : wordEnds.all (fun d => (IdentifierState.plain.step d).isNone) = true := rfl
  have hslashes : wordEnds.all (fun d => (IdentifierState.slashes.step d).isNone) = true := rfl
  have hmem := endsWord_iff.1 hc
  rcases h with rfl | rfl
  · exact Option.isNone_iff_eq_none.1 (List.all_eq_true.1 hplain c hmem)
  · exact Option.isNone_iff_eq_none.1 (List.all_eq_true.1 hslashes c hmem)

theorem isDecimal_endsWord {c : Char} (hc : endsWord c = true) : isDecimal c = false := by
  have hends : wordEnds.all (fun d => !isDecimal d) = true := rfl
  simpa using List.all_eq_true.1 hends c (endsWord_iff.1 hc)

/-! ## What stands next -/

/-- The text starts with the same character as the one to come, and with a lexeme of the same
kind. -/
def Place.StartsAlike (p : Place) (cs : List Char) : Prop :=
  cs.head? = p.text.head? ∧ (kindsFrom p.state cs).head? = (kindsFrom p.state p.text).head?

/-- The text can stand next after a word: it starts with a stopper, or as the text to come does. -/
def Place.Joins (p : Place) (cs : List Char) : Prop :=
  (∀ d ∈ cs.head?, isStopper d = true) ∨ p.StartsAlike cs

theorem Place.Joins.ends (h : p.Joins cs) :
    (∀ d ∈ cs.head?, endsWord d = true) ∨ cs.head? = p.text.head? :=
  h.imp (fun hstop d hd => endsWord_of_stopper (hstop d hd)) And.left

theorem Place.Scans.startsAlike_of_cores (h : p.Scans (front ++ rest))
    (htext : p.text = tokenChars front ++ cs')
    (hne : front ≠ []) (hcores : coresFrom p.state (tokenChars front ++ cs) =
      front.map Token.core ++ coresFrom (p.afterAll front cs').state cs) :
      p.StartsAlike (tokenChars front ++ cs) := by
  obtain ⟨first, more, rfl⟩ := List.exists_cons_of_ne_nil hne
  obtain ⟨_, -, hread, -⟩ := h.cons
  obtain ⟨c, v, hw⟩ := List.exists_cons_of_ne_nil hread.ne_nil
  refine ⟨by simp [htext, hw], ?_⟩
  rw [kindsFrom, kindsFrom, hcores, ← h.cores]
  rfl

theorem Place.Scans.split_of_cores (hcores : coresFrom p.state (tokenChars front ++ cs) =
      front.map Token.core ++ coresFrom (p.afterAll front cs').state cs)
    (hs : (p.put (tokenChars front ++ cs)).Scans tokens) :
    ∃ front' rest', tokens = front' ++ rest' ∧ front'.map Token.core = front.map Token.core ∧
      ((p.afterAll front cs').put cs).Scans rest' := by
  obtain ⟨front', rest', rfl, hfront, hrest⟩ := List.map_eq_append_iff.1 (hs.cores.trans hcores)
  exact ⟨front', rest', rfl, hfront, hrest, trivial⟩

/-- A text that starts alike starts with a token of the same kind. -/
theorem Place.StartsAlike.kind_eq (h : p.StartsAlike cs) (hp : p.Scans tokens)
    (hs : (p.put cs).Scans tokens') :
    tokens'.head?.map Token.kind = tokens.head?.map Token.kind := by
  rw [← List.head?_map, ← List.head?_map, hp.kinds, hs.kinds]
  exact h.2

/-! ## What a reader of words sees -/

/-- No name goes on with a token of this kind, and it neither opens a bracket nor is a sign of an
operator. -/
def TokenKind.endsPart : TokenKind → Bool
  | .lowLine | .ident | .number | .hyphenMinus | .leftParen | .verticalLine | .asterisk | .equals =>
    false
  | _ => true

/-- The first token ends what stands before it, or is of the same kind as it was. -/
def NextLike (tokens tokens' : List Token) : Prop :=
  ∀ token ∈ tokens'.head?, token.kind.endsPart = true ∨
    tokens.head?.map Token.kind = some token.kind

/-- What holds of the first token, and of every kind that ends a part, holds of the first token
again. -/
theorem NextLike.forall_kind {P : TokenKind → Prop} (h : NextLike tokens tokens')
    (hends : ∀ kind : TokenKind, kind.endsPart = true → P kind)
    (htokens : ∀ token ∈ tokens.head?, P token.kind) : ∀ token ∈ tokens'.head?, P token.kind := by
  intro token hmem
  rcases h token hmem with hk | hk
  · exact hends _ hk
  · obtain ⟨other, hother, hk⟩ := Option.map_eq_some_iff.1 hk
    exact hk ▸ htokens other hother

theorem endsPart_of_stopper {c : Char} {token : Token} (hc : isStopper c = true)
    (hs : (p.put (c :: cs)).Scans (token :: tokens)) : token.kind.endsPart = true := by
  have hsign : ∀ {c : Char} {kind : TokenKind}, (p.put (c :: cs)).Scans (token :: tokens) →
      CharClass.ofChar c = .punctuator → TokenKind.ofChar? c = some kind → c ≠ '/' →
      kind.endsPart = true → token.kind.endsPart = true := by
    intro c kind hs hclass hkind hslash hends
    rw [hs.kind_of_sign hclass hkind hslash]
    exact hends
  rw [isStopper_iff, isBreak_iff] at hc
  rcases hc with (rfl | rfl | rfl | rfl | rfl | rfl | rfl | rfl) | rfl | rfl | rfl | rfl
  case inr.inl =>
    obtain ⟨_, htext, hread, -⟩ := hs.cons
    obtain ⟨c, v, hw⟩ := List.exists_cons_of_ne_nil hread.ne_nil
    rw [hw] at htext hread
    obtain ⟨rfl, -⟩ := List.cons.inj htext
    rw [kind_of_reads_blank hread rfl]
    rfl
  all_goals exact hsign hs rfl rfl (by decide) rfl

theorem Place.Joins.nextLike (h : p.Joins cs) (hp : p.Scans tokens)
    (hs : (p.put cs).Scans tokens') : NextLike tokens tokens' := by
  intro token hmem
  obtain ⟨rest, rfl⟩ := List.head?_eq_some_iff.1 hmem
  rcases h with hstop | halike
  · cases cs with
    | nil => exact nomatch hs.eq_nil rfl
    | cons c cs => exact .inl (endsPart_of_stopper (hstop c rfl) hs)
  · exact .inr (halike.kind_eq hp hs).symm

theorem nextLike_of_peek_eq (h : peek (tokens.map Token.kind) = peek (tokens'.map Token.kind)) :
    NextLike tokens tokens' := by
  intro token hmem
  cases hk : token.kind.isNeutral with
  | true =>
    refine .inl ?_
    cases hkind : token.kind <;> simp_all [TokenKind.isNeutral, TokenKind.endsPart]
  | false =>
    exact .inr ((head?_kind_iff_of_peek_eq h hk).2 (by rw [Option.mem_def.1 hmem]; rfl))

/-- The next token is not of the given kind. -/
def NotAt (kind : TokenKind) (tokens : List Token) : Prop :=
  tokens.head?.map Token.kind ≠ some kind

theorem notAt_of_forall {kind : TokenKind} (h : ∀ token ∈ tokens, token.kind ≠ kind) :
    NotAt kind tokens := by
  intro hhead
  obtain ⟨token, hmem, hk⟩ := Option.map_eq_some_iff.1 hhead
  exact h token (List.mem_of_mem_head? hmem) hk

theorem NotAt.of_nextLike {kind : TokenKind} (h : NotAt kind tokens)
    (hkind : kind.endsPart = false) (hnext : NextLike tokens tokens') : NotAt kind tokens' := by
  have key :=
    hnext.forall_kind (P := fun k => k ≠ kind) (fun k hk hkind' => ?_) fun token hmem hk =>
    h (by rw [Option.mem_def.1 hmem, Option.map_some, hk])
  · intro hhead
    obtain ⟨token, hmem, hk⟩ := Option.map_eq_some_iff.1 hhead
    exact key token hmem hk
  · rw [hkind', hkind] at hk
    exact nomatch hk

theorem Place.Scans.head?_ne_paren (hp : p.Scans tokens) (hnot : NotAt .leftParen tokens) :
    p.text.head? ≠ some '(' := by
  intro hhead
  obtain ⟨cs, htext⟩ := List.head?_eq_some_iff.1 hhead
  cases tokens with
  | nil => exact nomatch hp.nil.symm.trans htext
  | cons token tokens =>
    have hput : (p.put ('(' :: cs)).Scans (token :: tokens) := ⟨htext ▸ hp.cores, trivial⟩
    exact hnot (by rw [List.head?_cons, Option.map_some, hput.kind_of_sign rfl rfl (by decide)])

theorem Place.Follow.head?_ne_paren (h : p.Follow cs) (hp : p.Scans tokens)
    (hnot : NotAt .leftParen tokens) : cs.head? ≠ some '(' := by
  intro hhead
  have hy := StyleTree.Follow.yields h
  rw [hhead] at hy
  generalize hc : p.text.head? = c at hy
  cases hy with
  | refl => exact hp.head?_ne_paren hnot hc
  | toBreak _ hd | atEnd _ hd => exact nomatch hd

theorem Place.Joins.head?_ne_paren (h : p.Joins cs) (hp : p.Scans tokens)
    (hnot : NotAt .leftParen tokens) : cs.head? ≠ some '(' := by
  rcases h with hstop | ⟨hhead, -⟩
  · exact fun hparen => nomatch hstop _ hparen
  · rw [hhead]
    exact hp.head?_ne_paren hnot

end StyleTree
