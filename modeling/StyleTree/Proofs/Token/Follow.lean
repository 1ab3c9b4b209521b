import StyleTree.Proofs.Token.Reads

/-!
# What may follow a lexeme

A lexeme ends where the scanner refuses the next character. If that character is exchanged for one
that ends the same lexemes (`Yields`), the lexeme stays what it is (`Reads.yields`).

A reader of tokens also looks at the tokens after those that it reads, but only at whether they go
on a name or a number. `peek` is what it can see, and `Follow` says that one text can stand in for
another after any lexeme, for the scanner and for the readers. Lexemes that are kept as they are
stay so before any text that can stand in for what followed them (`coresFrom_verbatim`).
-/

namespace StyleTree

/-! ## Characters that end the same lexemes -/

/-- A punctuator that no lexeme before it goes on with, and that no reader of names or numbers goes
on with. -/
def isBreak (c : Char) : Bool :=
  c = ')' || c = ']' || c = ',' || c = ';' || c = ':' || c = '!' || c = '\x7b' || c = '\x7d'

/-- Whatever ends before `c` ends before `d` too; `none` stands for the end of the text. A break can
come in at the end of the text only where the last lexeme is `closed`. -/
inductive Yields (closed : Prop) : Option Char → Option Char → Prop where
  | refl {c} : Yields closed c c
  | toBreak {c d} : (isBlank c || isBreak c) = true → isBreak d = true →
    Yields closed (some c) (some d)
  | toEnd {c} : (isBlank c || isBreak c) = true → Yields closed (some c) none
  | toSpace {c} : isBlank c = true → Yields closed (some c) (some ' ')
  | toLetter {c} : c = 'u' ∨ c = 'U' → Yields closed (some c) (some 'u')
  | atEnd {d} : closed → isBreak d = true → Yields closed none (some d)

/-- No quote is open at the end of the lexeme. -/
def ClosesQuote (kind : TokenKind) (w : List Char) : Prop :=
  kind = .string → ∃ c v, w = c :: v ∧ v.foldlM (StringState.step c) .inside = some .closed

/-- The lexeme is complete: no escape and no quote is open at its end. -/
def IsClosed (kind : TokenKind) (w : List Char) : Prop :=
  w.getLast? ≠ some '\\' ∧ ClosesQuote kind w

/-- The lexeme is complete, and has no escapes. -/
def IsFirm (kind : TokenKind) (w : List Char) : Prop :=
  '\\' ∉ w ∧ ClosesQuote kind w

theorem IsFirm.isClosed {kind : TokenKind} {w : List Char} (h : IsFirm kind w) : IsClosed kind w :=
  ⟨fun hlast => h.1 (List.mem_of_getLast? hlast), h.2⟩

variable {closed : Prop}

theorem isBreak_iff {c : Char} : isBreak c = true ↔
    c = ')' ∨ c = ']' ∨ c = ',' ∨ c = ';' ∨ c = ':' ∨ c = '!' ∨ c = '\x7b' ∨ c = '\x7d' := by
  simp [isBreak, or_assoc]

theorem isBlank_of_isBreak {c : Char} (h : isBreak c = true) : isBlank c = false := by
  rcases isBreak_iff.1 h with rfl | rfl | rfl | rfl | rfl | rfl | rfl | rfl <;> rfl

/-- No blank comes in where there was none. -/
theorem Yields.isBlank_of {c d : Char} (h : Yields closed (some c) (some d))
    (hd : isBlank d = true) :
    isBlank c = true := by
  cases h with
  | refl => exact hd
  | toBreak _ hd' => rw [isBlank_of_isBreak hd'] at hd; exact nomatch hd
  | toSpace hc => exact hc
  | toLetter _ => exact nomatch hd

theorem stepWhile_eq_none {p : Char → Bool} {c : Char} :
    stepWhile p () c = none ↔ p c = false := by
  simp [stepWhile]

private theorem IdentifierState.step_hex {n : Nat} {c : Char} (hhex : isHex c = false)
    (hblank : isBlank c = false) : (hex n).step c = stepPlain c := by
  have hcr : c ≠ '\r' := by rintro rfl; exact nomatch hblank
  simp [step, hhex, hblank, hcr]

/-- A name ends before every break, unless an escape is open. -/
theorem IdentifierState.step_break {last : IdentifierState} (h : last ≠ .escape) {d : Char}
    (hd : isBreak d = true) :
    last.step d = none := by
  have hblank := isBlank_of_isBreak hd
  cases last with
  | escape => exact absurd rfl h
  | hex n =>
    rcases isBreak_iff.1 hd with rfl | rfl | rfl | rfl | rfl | rfl | rfl | rfl <;>
      exact step_hex rfl hblank
  | _ =>
    rcases isBreak_iff.1 hd with rfl | rfl | rfl | rfl | rfl | rfl | rfl | rfl <;> rfl

/-- An open escape goes on with every character. -/
theorem IdentifierState.step_escape_ne_none (c : Char) : escape.step c ≠ none := by
  rw [step]
  split <;> simp

/-- An escape of hexadecimal digits goes on with every blank. -/
theorem IdentifierState.step_hex_ne_none {n : Nat} {c : Char} (hc : isBlank c = true) :
    (hex n).step c ≠ none := by
  simp only [step, hc, if_true]
  split
  · simp
  · split <;> simp

private theorem IdentifierState.step_space {last : IdentifierState} {c : Char}
    (h : last.step c = none) (hc : isBlank c = true) : last.step ' ' = none := by
  cases last with
  | escape => exact absurd h (step_escape_ne_none c)
  | hex n => exact absurd h (step_hex_ne_none hc)
  | _ => rfl

private theorem IdentifierState.step_letter {last : IdentifierState} {c : Char}
    (hc : c = 'u' ∨ c = 'U') : last.step c ≠ none := by
  cases last with
  | hex n => rcases hc with rfl | rfl <;> rw [step_hex rfl rfl] <;> nofun
  | _ => rcases hc with rfl | rfl <;> nofun

/-- The reader of an identifier stands outside of escapes. -/
def IdentifierState.Outside (state : IdentifierState) : Prop :=
  state = .plain ∨ state = .slashes

theorem IdentifierState.outside_of_foldlM {v : List Char} {first last : IdentifierState}
    (hv : '\\' ∉ v) (hfirst : first.Outside)
    (h : v.foldlM IdentifierState.step first = some last) : last.Outside := by
  induction v generalizing first with
  | nil => obtain rfl := Option.some.inj h; exact hfirst
  | cons c v ih =>
    rw [List.mem_cons, not_or] at hv
    obtain ⟨mid, hmid, h⟩ := Option.bind_eq_some_iff.1 h
    refine ih hv.2 ?_ h
    have hplain : stepPlain c = some mid → mid.Outside := by
      intro h
      rw [stepPlain, if_neg (Ne.symm hv.1)] at h
      split at h
      · exact nomatch h
      · exact .inl (Option.some.inj h).symm
    rcases hfirst with rfl | rfl
    · exact hplain hmid
    · simp only [step] at hmid
      split at hmid
      · exact .inr (Option.some.inj hmid).symm
      · exact hplain hmid

/-- Only a backslash opens an escape. -/
theorem IdentifierState.eq_backslash_of_step {mid : IdentifierState} {c : Char}
    (h : mid.step c = some .escape) :
    c = '\\' := by
  have hplain : stepPlain c = some .escape → c = '\\' := by
    intro h
    by_cases hc : c = '\\'
    · exact hc
    · rw [stepPlain, if_neg hc] at h
      split at h <;> cases h
  cases mid with
  | slashes | carriageReturn =>
    rw [step] at h
    split at h
    · cases h
    · exact hplain h
  | plain => exact hplain h
  | escape =>
    rw [step] at h
    split at h <;> cases h
  | hex digits =>
    rw [step] at h
    split at h
    · cases h
    · split at h
      · cases h
      · split at h
        · cases h
        · exact hplain h

/-- An escape that is open at the end of a name was opened by its last character. -/
theorem IdentifierState.escape_of_foldlM {v : List Char} {first : IdentifierState}
    (h : v.foldlM step first = some .escape) :
    v.getLast? = some '\\' ∨ v = [] ∧ first = .escape := by
  rcases List.eq_nil_or_concat v with rfl | ⟨init, c, rfl⟩
  · exact .inr ⟨rfl, Option.some.inj h⟩
  · rw [List.concat_eq_append, List.foldlM_append] at h
    obtain ⟨mid, -, hstep⟩ := Option.bind_eq_some_iff.1 h
    have hstep : mid.step c = some .escape := by simpa using hstep
    exact .inl (by rw [List.concat_eq_append, List.getLast?_concat, eq_backslash_of_step hstep])

/-- A name whose text does not end with a backslash leaves no escape open. -/
theorem IdentifierState.ne_escape_of_name {c : Char} {v : List Char} {last : IdentifierState}
    (h : v.foldlM step (if c = '\\' then .escape else .plain) = some last)
    (hlast : (c :: v).getLast? ≠ some '\\') :
    last ≠ .escape := by
  rintro rfl
  rcases escape_of_foldlM h with hv | ⟨rfl, hfirst⟩
  · exact hlast (by rw [List.getLast?_cons, hv, Option.getD_some])
  · split at hfirst
    next hc => exact hlast (congrArg some hc)
    next => exact nomatch hfirst

/-- Nor does a name that starts with two slashes. -/
theorem IdentifierState.ne_escape_of_slashes {v : List Char} {last : IdentifierState}
    (h : v.foldlM step .slashes = some last) (hlast : ('/' :: '/' :: v).getLast? ≠ some '\\') :
    last ≠ .escape := by
  rintro rfl
  have hv := (escape_of_foldlM h).resolve_right fun h => nomatch h.2
  exact hlast
    (by rw [List.getLast?_cons, List.getLast?_cons, hv, Option.getD_some, Option.getD_some])

theorem Stops.yields_name {last : IdentifierState} {rest rest' : List Char}
    (h : Stops IdentifierState.step last rest) (hy : Yields closed rest.head? rest'.head?)
    (hclosed : closed → rest = [] → last ≠ .escape) : Stops IdentifierState.step last rest' := by
  intro d hd
  rw [Option.mem_def.1 hd] at hy
  cases hc : rest.head? with
  | none =>
    rw [hc] at hy
    cases hy with | atEnd hf hd' =>
    exact IdentifierState.step_break (hclosed hf (List.head?_eq_none_iff.1 hc)) hd'
  | some c =>
    have hstep := h c hc
    rw [hc] at hy
    cases hy with
    | refl => exact hstep
    | toBreak _ hd' =>
      refine IdentifierState.step_break ?_ hd'
      rintro rfl
      exact IdentifierState.step_escape_ne_none c hstep
    | toSpace hc' => exact IdentifierState.step_space hstep hc'
    | toLetter hc' => exact absurd hstep (IdentifierState.step_letter hc')

theorem Stops.yields_quoted {c : Char} {last : StringState} {rest rest' : List Char}
    (h : Stops (StringState.step c) last rest) (hy : Yields closed rest.head? rest'.head?)
    (hclosed : closed → rest = [] → last = .closed) : Stops (StringState.step c) last rest' := by
  intro d hd
  rw [Option.mem_def.1 hd] at hy
  cases hc : rest.head? with
  | none =>
    rw [hc] at hy
    cases hy with | atEnd hf _ =>
    rw [hclosed hf (List.head?_eq_none_iff.1 hc)]
    rfl
  | some e =>
    have hstep := h e hc
    cases last with
    | closed => rfl
    | escaped => exact nomatch hstep
    | inside => simp only [StringState.step] at hstep; split at hstep <;> (try split at hstep) <;>
        exact nomatch hstep

/-- Taking characters of a class goes on neither with a break nor with the letter `u`, and with a
blank only if the class has blanks in it. -/
theorem Stops.yields_while {p : Char → Bool} {rest rest' : List Char}
    (h : Stops (stepWhile p) () rest) (hy : Yields closed rest.head? rest'.head?)
    (hbreak : ∀ d, isBreak d = true → p d = false) (hletter : p 'u' = false)
    (hblank : p ' ' = true → ∀ c, isBlank c = true → p c = true) :
    Stops (stepWhile p) () rest' := by
  intro d hd
  rw [Option.mem_def.1 hd] at hy
  cases hc : rest.head? with
  | none => rw [hc] at hy; cases hy with | atEnd _ hd' => exact stepWhile_eq_none.2 (hbreak d hd')
  | some c =>
    have hstep := stepWhile_eq_none.1 (h c hc)
    rw [hc] at hy
    refine stepWhile_eq_none.2 ?_
    cases hy with
    | refl => exact hstep
    | toBreak _ hd' => exact hbreak d hd'
    | toSpace hc' =>
      cases hp : p ' ' with
      | false => rfl
      | true => rw [hblank hp c hc'] at hstep; exact nomatch hstep
    | toLetter _ => exact hletter

/-- A lexeme stays what it is before a character that ends the same lexemes. Lines of their own and
comments are left out: they are ended by a line end, and by nothing. -/
theorem Reads.yields {state : ScanState} {kind : TokenKind} {w rest rest' : List Char}
    (h : Reads state kind w rest) (hkind : kind ≠ .unknown ∧ kind ≠ .comment)
    (hy : Yields closed rest.head? rest'.head?) (hclosed : closed → rest = [] → IsClosed kind w) :
    Reads state kind w rest' := by
  cases h with
  | blanks hc hv hrest =>
    refine .blanks hc hv (hrest.yields_while hy (fun _ => isBlank_of_isBreak) rfl ?_)
    exact fun _ _ hc => hc
  | digits hc hv hrest =>
    refine .digits hc hv (hrest.yields_while hy (fun d hd => ?_) rfl nofun)
    rcases isBreak_iff.1 hd with rfl | rfl | rfl | rfl | rfl | rfl | rfl | rfl <;> rfl
  | quoted hc hv hrest =>
    refine .quoted hc hv (hrest.yields_quoted hy fun hf hnil => ?_)
    obtain ⟨c, v, hw, hclosed⟩ := (hclosed hf hnil).2 rfl
    obtain ⟨rfl, rfl⟩ := List.cons.inj hw
    exact Option.some.inj (hv.symm.trans hclosed)
  | name hc hv hrest =>
    exact .name hc hv (hrest.yields_name hy
      fun hf hnil => IdentifierState.ne_escape_of_name hv (hclosed hf hnil).1)
  | comment => exact absurd rfl hkind.2
  | line => exact absurd rfl hkind.1
  | slashedName hurl hdepth hv hrest =>
    exact .slashedName hurl hdepth hv
      (hrest.yields_name hy fun hf hnil =>
        IdentifierState.ne_escape_of_slashes hv (hclosed hf hnil).1)
  | sign hc hsign hrest =>
    have hbreak : ∀ d, isBreak d = true → d ≠ '*' ∧ (d = '/' → state.inUrl = true) := by
      intro d hd
      rcases isBreak_iff.1 hd with rfl | rfl | rfl | rfl | rfl | rfl | rfl | rfl <;> simp
    refine .sign hc hsign fun hslash d hd => ?_
    rw [Option.mem_def.1 hd] at hy
    cases hc' : rest.head? with
    | none => rw [hc'] at hy; cases hy with | atEnd _ hd' => exact hbreak d hd'
    | some c' =>
      have hnext := hrest hslash c' hc'
      rw [hc'] at hy
      cases hy with
      | refl => exact hnext
      | toBreak _ hd' => exact hbreak d hd'
      | toSpace _ => simp
      | toLetter _ => simp

/-! ## What a reader sees ahead -/

/-- No name, number or function goes on with a token of this kind. -/
def TokenKind.isNeutral : TokenKind → Bool
  | .whitespace | .rightParen | .rightBracket | .comma | .semicolon | .colon | .exclamationMark
  | .leftBrace | .rightBrace => true
  | _ => false

/-- The kind of the next lexeme, unless it is neutral, and whether a full stop with digits comes
next. -/
def peek (kinds : List TokenKind) : Option TokenKind × Bool :=
  (kinds.head?.filter fun kind => !kind.isNeutral, kinds.take 2 = [.fullStop, .number])

/-- A kind that is not neutral is seen. -/
theorem head?_eq_some_iff_peek {kinds : List TokenKind} {kind : TokenKind}
    (h : kind.isNeutral = false) : kinds.head? = some kind ↔ (peek kinds).1 = some kind := by
  simp [peek, Option.filter_eq_some_iff, h]

theorem peek_cons (kind : TokenKind) {kinds kinds' : List TokenKind}
    (h : (peek kinds).1 = (peek kinds').1) : peek (kind :: kinds) = peek (kind :: kinds') := by
  have hnumber : ∀ l : List TokenKind, l.take 1 = [.number] ↔ l.head? = some .number := by
    intro l; cases l <;> simp
  have hhead : kinds.head? = some .number ↔ kinds'.head? = some .number := by
    rw [head?_eq_some_iff_peek rfl, head?_eq_some_iff_peek rfl, h]
  simp only [peek, List.head?_cons, List.take_succ_cons, List.cons.injEq, hnumber, hhead]

theorem peek_of_neutral {kind : TokenKind} {kinds : List TokenKind}
    (h : kind.isNeutral = true) : peek (kind :: kinds) = (none, false) := by
  have hne : kind ≠ .fullStop := by rintro rfl; exact nomatch h
  simp [peek, h, hne]

/-- The kinds of the lexemes of a text. -/
def kindsFrom (state : ScanState) (cs : List Char) : List TokenKind :=
  (coresFrom state cs).map Prod.fst

/-- The lexemes start a range of characters: the letter `u` and a plus sign. -/
def OpensRange (cores : List (TokenKind × List Char)) : Prop :=
  (∃ w, cores.head? = some (.ident, w) ∧ w.map Text.lowerChar = ['u']) ∧
    cores.tail.head?.map Prod.fst = some .plus

/-- In the given state of the scanner, a text can stand in for another one after any lexeme. -/
structure Follow (closed : Prop) (state : ScanState) (cs cs' : List Char) : Prop where
  yields : Yields closed cs.head? cs'.head?
  peek_eq : peek (kindsFrom state cs) = peek (kindsFrom state cs')
  range_iff : OpensRange (coresFrom state cs) ↔ OpensRange (coresFrom state cs')

theorem Follow.refl {state : ScanState} {cs : List Char} : Follow closed state cs cs :=
  ⟨.refl, rfl, .rfl⟩

/-- A punctuator other than a slash is a lexeme, whatever follows. -/
theorem coresFrom_sign {state : ScanState} {c : Char} {kind : TokenKind} {cs : List Char}
    (hc : CharClass.ofChar c = .punctuator) (hkind : TokenKind.ofChar? c = some kind)
    (hslash : c ≠ '/') :
    coresFrom state (c :: cs) = (kind, [c]) :: coresFrom (state.after kind [c]) cs :=
  Reads.coresFrom_append (.sign hc hkind fun h => absurd h hslash)

/-- No name, number or range starts here, and none goes on. -/
private def IsQuiet (state : ScanState) (cs : List Char) : Prop :=
  peek (kindsFrom state cs) = (none, false) ∧ ¬OpensRange (coresFrom state cs)

private theorem isQuiet_nil {state : ScanState} : IsQuiet state [] :=
  ⟨rfl, fun ⟨⟨_, h, _⟩, _⟩ => nomatch h⟩

private theorem isQuiet_of_neutral {state : ScanState} {cs : List Char}
    {core : TokenKind × List Char} {cores : List (TokenKind × List Char)}
    (h : coresFrom state cs = core :: cores) (hkind : core.1.isNeutral = true) :
    IsQuiet state cs := by
  rw [IsQuiet, kindsFrom, h]
  refine ⟨peek_of_neutral hkind, ?_⟩
  rintro ⟨⟨w, hw, -⟩, -⟩
  obtain rfl : core = (.ident, w) := by simpa using hw
  exact nomatch hkind

private theorem isQuiet_cons {state : ScanState} {c : Char} {cs : List Char}
    (hc : (isBlank c || isBreak c) = true) : IsQuiet state (c :: cs) := by
  rcases Bool.or_eq_true_iff.1 hc with hc | hc
  · have hclass : CharClass.ofChar c = .whitespace := by simpa [isBlank] using hc
    refine isQuiet_of_neutral (coresFrom_cons ..) ?_
    simp only [readLexeme, hclass]
    rfl
  · rcases isBreak_iff.1 hc with rfl | rfl | rfl | rfl | rfl | rfl | rfl | rfl <;>
      exact isQuiet_of_neutral (coresFrom_sign rfl rfl (by decide)) rfl

private theorem Follow.of_isQuiet {state : ScanState} {cs cs' : List Char}
    (hy : Yields closed cs.head? cs'.head?) (h : IsQuiet state cs) (h' : IsQuiet state cs') :
    Follow closed state cs cs' :=
  ⟨hy, h.1.trans h'.1.symm, iff_of_false h.2 h'.2⟩

/-- A break or the end of the text can stand in for blanks and breaks. -/
theorem Follow.toBreak {state : ScanState} {c : Char} {cs cs' : List Char}
    (hc : (isBlank c || isBreak c) = true) (hcs' : ∀ d ∈ cs'.head?, isBreak d = true) :
    Follow closed state (c :: cs) cs' := by
  cases cs' with
  | nil => exact .of_isQuiet (.toEnd hc) (isQuiet_cons hc) isQuiet_nil
  | cons d cs' =>
    have hd := hcs' d rfl
    exact .of_isQuiet (.toBreak hc hd) (isQuiet_cons hc) (isQuiet_cons (by simp [hd]))

/-- A break can come in at the end of the text where the last lexeme is closed. -/
theorem Follow.atEnd {state : ScanState} {cs : List Char} (hclosed : closed)
    (hcs : ∀ d ∈ cs.head?, isBreak d = true) : Follow closed state [] cs := by
  cases cs with
  | nil => exact .refl
  | cons d cs =>
    have hd := hcs d rfl
    exact .of_isQuiet (.atEnd hclosed hd) isQuiet_nil (isQuiet_cons (by simp [hd]))

/-- One space can stand in for blanks. -/
theorem Follow.toSpace {state : ScanState} {c : Char} {cs cs' : List Char}
    (hc : isBlank c = true) : Follow closed state (c :: cs) (' ' :: cs') :=
  .of_isQuiet (.toSpace hc) (isQuiet_cons (by simp [hc])) (isQuiet_cons rfl)

/-- A text that starts with a lexeme of the same kind can stand in for another one. -/
theorem Follow.of_reads {state : ScanState} {kind : TokenKind} {w w' rest rest' : List Char}
    (h : Reads state kind w rest) (h' : Reads state kind w' rest') (hkind : kind ≠ .fullStop)
    (hrange : kind = .ident → w.map Text.lowerChar ≠ ['u'] ∧ w'.map Text.lowerChar ≠ ['u'])
    (hy : Yields closed w.head? w'.head?) : Follow closed state (w ++ rest) (w' ++ rest') := by
  obtain ⟨c, v, rfl⟩ := List.exists_cons_of_ne_nil h.ne_nil
  obtain ⟨c', v', rfl⟩ := List.exists_cons_of_ne_nil h'.ne_nil
  refine ⟨hy, ?_, iff_of_false ?_ ?_⟩
  · rw [kindsFrom, kindsFrom, h.coresFrom_append, h'.coresFrom_append]
    simp [peek, hkind]
  · rw [h.coresFrom_append]
    rintro ⟨⟨w, hw, hu⟩, -⟩
    obtain ⟨rfl, rfl⟩ : kind = .ident ∧ c :: v = w := by simpa using hw
    exact (hrange rfl).1 hu
  · rw [h'.coresFrom_append]
    rintro ⟨⟨w, hw, hu⟩, -⟩
    obtain ⟨rfl, rfl⟩ : kind = .ident ∧ c' :: v' = w := by simpa using hw
    exact (hrange rfl).2 hu

/-- A text that starts with the same punctuator can stand in for another one. -/
theorem Follow.of_sign {state : ScanState} {c : Char} {kind : TokenKind} {cs cs' : List Char}
    (hc : CharClass.ofChar c = .punctuator) (hkind : TokenKind.ofChar? c = some kind)
    (hslash : c ≠ '/') (hstop : c ≠ '.') : Follow closed state (c :: cs) (c :: cs') := by
  have hchar := char?_of_ofChar? hkind
  show Follow closed state ([c] ++ cs) ([c] ++ cs')
  refine .of_reads (.sign hc hkind fun h => absurd h hslash)
    (.sign hc hkind fun h => absurd h hslash) ?_ ?_ .refl
  · rintro rfl
    exact hstop (Option.some.inj hchar.symm)
  · rintro rfl
    exact nomatch hchar

/-- No blank comes in where there was none. -/
theorem Follow.isBlank_of {state : ScanState} {cs cs' : List Char} (h : Follow closed state cs cs')
    {d : Char} (hd : cs'.head? = some d) (hblank : isBlank d = true) :
    ∃ c, cs.head? = some c ∧ isBlank c = true := by
  have hy := h.yields
  rw [hd] at hy
  cases hc : cs.head? with
  | none =>
    rw [hc] at hy
    cases hy with
    | atEnd _ hd' => rw [isBlank_of_isBreak hd'] at hblank; exact nomatch hblank
  | some c => rw [hc] at hy; exact ⟨c, rfl, hy.isBlank_of hblank⟩

/-! ## Lexemes that are kept -/

private theorem head?_coreChars_append {state : ScanState} {cs : List Char}
    {core : TokenKind × List Char} {cores cores' : List (TokenKind × List Char)}
    (h : coresFrom state cs = core :: cores') (rest rest' : List Char) :
    (coreChars (core :: cores) ++ rest).head? = (coreChars (core :: cores) ++ rest').head? := by
  obtain ⟨_, -, hread, -⟩ := coresFrom_eq_cons h
  obtain ⟨c, v, hw⟩ := List.exists_cons_of_ne_nil hread.ne_nil
  simp [hw]

theorem opensRange_cons_iff (core : TokenKind × List Char)
    {cores cores' : List (TokenKind × List Char)}
    (h : (peek (cores.map Prod.fst)).1 = (peek (cores'.map Prod.fst)).1) :
    OpensRange (core :: cores) ↔ OpensRange (core :: cores') := by
  have hplus : cores.head?.map Prod.fst = some .plus ↔ cores'.head?.map Prod.fst = some .plus := by
    rw [← List.head?_map, ← List.head?_map, head?_eq_some_iff_peek rfl, head?_eq_some_iff_peek rfl,
      h]
  simp only [OpensRange, List.head?_cons, List.tail_cons, hplus]

/-- Lexemes that are kept as they are stay so before a text that can stand in for what followed
them. -/
theorem coresFrom_verbatim {state : ScanState} {cores cores' : List (TokenKind × List Char)}
    {rest rest' : List Char} (h : coresFrom state (coreChars cores ++ rest) = cores ++ cores')
    (hfollow : Follow closed (state.afterAll cores) rest rest')
    (hlast : ∀ core ∈ cores.getLast?, (core.1 ≠ .unknown ∧ core.1 ≠ .comment ∧
      (closed → rest = [] → IsClosed core.1 core.2)) ∨ rest.head? = rest'.head?) :
    coresFrom state (coreChars cores ++ rest') =
        cores ++ coresFrom (state.afterAll cores) rest' ∧
      Follow closed state (coreChars cores ++ rest) (coreChars cores ++ rest') := by
  induction cores generalizing state with
  | nil => exact ⟨rfl, hfollow⟩
  | cons core cores ih =>
    obtain ⟨rest₁, hcs, hread, hrest⟩ := coresFrom_eq_cons h
    rw [coreChars_cons, List.append_assoc] at hcs
    obtain rfl := List.append_cancel_left hcs
    obtain ⟨heq, hfollow'⟩ := ih hrest.symm hfollow fun core' hmem => by
      refine hlast core' ?_
      rw [List.getLast?_cons]
      simp [Option.mem_def.1 hmem]
    have hread' : Reads state core.1 core.2 (coreChars cores ++ rest') := by
      cases cores with
      | nil =>
        rcases hlast core (by simp) with hkind | hhead
        · exact hread.yields ⟨hkind.1, hkind.2.1⟩ hfollow.yields hkind.2.2
        · exact hread.of_head? hhead
      | cons core₂ cores => exact hread.of_head? (head?_coreChars_append hrest.symm _ _)
    have hcores : coresFrom state (core.2 ++ (coreChars cores ++ rest')) =
        core :: (cores ++ coresFrom ((state.after core.1 core.2).afterAll cores) rest') := by
      rw [hread'.coresFrom_append, heq]
    refine ⟨by simpa using hcores, ?_⟩
    have hpeek : (peek ((cores ++ cores').map Prod.fst)).1 = (peek ((cores ++
        coresFrom ((state.after core.1 core.2).afterAll cores) rest').map Prod.fst)).1 := by
      have hpeek := hfollow'.peek_eq
      rw [kindsFrom, kindsFrom, ← hrest, heq] at hpeek
      exact congrArg Prod.fst hpeek
    obtain ⟨c, v, hw⟩ := List.exists_cons_of_ne_nil hread.ne_nil
    refine ⟨by simp [hw, Yields.refl], ?_, ?_⟩
    · rw [kindsFrom, kindsFrom, h, coreChars_cons, List.append_assoc, hcores, List.cons_append]
      exact peek_cons core.1 hpeek
    · rw [h, coreChars_cons, List.append_assoc, hcores, List.cons_append]
      exact opensRange_cons_iff core hpeek

end StyleTree
