import StyleTree.Token.Table

/-!
# What the scanner reads

The lexical grammar as a relation: `Reads state kind w rest` says that a text `w ++ rest` starts
with the lexeme `w` of the given kind. The relation and the scanner agree (`reads_readLexeme`,
`Reads.coresFrom_append`), and it shows what the scanner looks at: the characters of the lexeme, and
at most one character after it.

`coresFrom` lists the lexemes of a text without their offsets, and `coresFrom_eq_append` cuts such a
list in two, with the state of the scanner at the cut.
-/

namespace StyleTree

/-! ## Runs of an automaton -/

/-- The automaton takes no more: there is nothing left, or it refuses the next character. -/
def Stops {σ : Type} (step : σ → Char → Option σ) (last : σ) (rest : List Char) : Prop :=
  ∀ c ∈ rest.head?, step last c = none

theorem Stops.of_head? {σ : Type} {step : σ → Char → Option σ} {last : σ} {rest rest' : List Char}
    (h : Stops step last rest) (hhead : rest.head? = rest'.head?) : Stops step last rest' := by
  unfold Stops at h ⊢
  rwa [← hhead]

theorem takeRun_eq_iff {σ : Type} {step : σ → Char → Option σ} {state last : σ}
    {v rest : List Char} :
    takeRun step state (v ++ rest) = (v, last, rest) ↔
      v.foldlM step state = some last ∧ Stops step last rest := by
  induction v generalizing state with
  | nil =>
    cases rest with
    | nil => simp [takeRun, Stops]
    | cons c cs =>
      simp only [List.nil_append, takeRun]
      split
      · next h => simp [Stops]; rintro rfl; exact h
      · next s h => simp [Stops]; rintro rfl; simp [h]
  | cons c v ih =>
    simp only [List.cons_append, takeRun, List.foldlM_cons]
    cases h : step state c with
    | none => simp
    | some s =>
      simp only [Option.bind_eq_bind, Option.bind_some]
      rw [← @ih s]
      constructor
      · intro h
        simp only [Prod.mk.injEq, List.cons.injEq, true_and] at h
        exact Prod.ext h.1 (Prod.ext h.2.1 h.2.2)
      · intro h; rw [h]

/-- Each run is taken to its end, and stops there. -/
theorem takeRun_spec {σ : Type} (step : σ → Char → Option σ) (state : σ) (cs : List Char) :
    (takeRun step state cs).1.foldlM step state = some (takeRun step state cs).2.1 ∧
      Stops step (takeRun step state cs).2.1 (takeRun step state cs).2.2 :=
  takeRun_eq_iff.1 (by rw [takeRun_append])

/-! ## Lexemes -/

/-- A text `w ++ rest` starts with the lexeme `w` of kind `kind`. -/
inductive Reads (state : ScanState) : TokenKind → List Char → List Char → Prop where
  | blanks {c v rest} : CharClass.ofChar c = .whitespace →
    v.foldlM (stepWhile isBlank) () = some () → Stops (stepWhile isBlank) () rest →
    Reads state .whitespace (c :: v) rest
  | digits {c v rest} : CharClass.ofChar c = .number →
    v.foldlM (stepWhile isDecimal) () = some () → Stops (stepWhile isDecimal) () rest →
    Reads state .number (c :: v) rest
  | quoted {c v last rest} : CharClass.ofChar c = .string →
    v.foldlM (StringState.step c) .inside = some last → Stops (StringState.step c) last rest →
    Reads state .string (c :: v) rest
  | name {c v last rest} : CharClass.ofChar c = .identifier →
    v.foldlM IdentifierState.step (if c = '\\' then .escape else .plain) = some last →
    Stops IdentifierState.step last rest → Reads state .ident (c :: v) rest
  | comment {v last rest} : v.foldlM CommentState.step .body = some last →
    Stops CommentState.step last rest → Reads state .comment ('/' :: '*' :: v) rest
  | line {v rest} : state.inUrl = false → state.depth = 0 →
    v.foldlM (stepWhile fun c => !isNewline c) () = some () →
    Stops (stepWhile fun c => !isNewline c) () rest → Reads state .unknown ('/' :: '/' :: v) rest
  | slashedName {v last rest} : state.inUrl = false → state.depth ≠ 0 →
    v.foldlM IdentifierState.step .slashes = some last →
    Stops IdentifierState.step last rest → Reads state .ident ('/' :: '/' :: v) rest
  | sign {c kind rest} : CharClass.ofChar c = .punctuator → TokenKind.ofChar? c = some kind →
    (c = '/' → ∀ d ∈ rest.head?, d ≠ '*' ∧ (d = '/' → state.inUrl = true)) →
    Reads state kind [c] rest

theorem ofChar?_isSome_of_punctuator {c : Char} (h : CharClass.ofChar c = .punctuator) :
    ∃ kind, TokenKind.ofChar? c = some kind := by
  unfold CharClass.ofChar at h
  split at h <;> first | exact ⟨_, rfl⟩ | simp at h

theorem char?_of_ofChar? {c : Char} {kind : TokenKind} (h : TokenKind.ofChar? c = some kind) :
    kind.char? = some c := by
  unfold TokenKind.ofChar? at h
  split at h <;> cases h <;> rfl

/-- The scanner reads what the relation says. -/
theorem reads_readLexeme (state : ScanState) (c : Char) (cs : List Char) :
    Reads state (readLexeme state c cs).1.kind (readLexeme state c cs).1.chars
      (readLexeme state c cs).2 := by
  unfold readLexeme
  split
  · next h => exact .blanks h (takeRun_spec ..).1 (takeRun_spec ..).2
  · next h => exact .digits h (takeRun_spec ..).1 (takeRun_spec ..).2
  · next h => exact .quoted h (takeRun_spec ..).1 (takeRun_spec ..).2
  · next h => exact .name h (takeRun_spec ..).1 (takeRun_spec ..).2
  · next h =>
    unfold readPunctuator
    split
    · exact .comment (takeRun_spec ..).1 (takeRun_spec ..).2
    · split
      · next hurl => exact .sign h rfl fun _ d hd => by simp at hd; subst hd; simp [hurl]
      · next hurl =>
        split
        · next hdepth =>
          exact .line (by simpa using hurl) hdepth (takeRun_spec ..).1 (takeRun_spec ..).2
        · next hdepth =>
          exact .slashedName (by simpa using hurl) hdepth (takeRun_spec ..).1 (takeRun_spec ..).2
    · next hcomment hslashes =>
      obtain ⟨kind, hkind⟩ := ofChar?_isSome_of_punctuator h
      simp only [hkind, Option.getD_some]
      refine .sign h hkind ?_
      rintro rfl d hd
      cases cs with
      | nil => simp at hd
      | cons d' cs =>
        obtain rfl : d' = d := by simpa using hd
        refine ⟨?_, ?_⟩
        · rintro rfl; exact hcomment _ rfl rfl
        · rintro rfl; exact (hslashes _ rfl rfl).elim

namespace Reads

variable {state : ScanState} {kind : TokenKind} {w rest : List Char}

theorem ne_nil (h : Reads state kind w rest) : w ≠ [] := by
  cases h <;> simp

/-- The scanner reads a lexeme that the relation describes. -/
theorem readLexeme_eq (h : Reads state kind w rest) :
    ∃ c v, w = c :: v ∧ (readLexeme state c (v ++ rest)).1.kind = kind ∧
      (readLexeme state c (v ++ rest)).1.chars = w ∧ (readLexeme state c (v ++ rest)).2 = rest := by
  cases h with
  | blanks hc hv hrest | digits hc hv hrest | quoted hc hv hrest | name hc hv hrest =>
    refine ⟨_, _, rfl, ?_⟩
    simp only [readLexeme, hc, takeRun_eq_iff.2 ⟨hv, hrest⟩, and_self]
  | comment hv hrest =>
    refine ⟨_, _, rfl, ?_⟩
    simp only [readLexeme, CharClass.ofChar, readPunctuator, List.cons_append,
      takeRun_eq_iff.2 ⟨hv, hrest⟩, and_self]
  | line hurl hdepth hv hrest | slashedName hurl hdepth hv hrest =>
    refine ⟨_, _, rfl, ?_⟩
    simp only [readLexeme, CharClass.ofChar, readPunctuator, List.cons_append, hurl, hdepth,
      if_true, Bool.false_eq_true, if_false, takeRun_eq_iff.2 ⟨hv, hrest⟩, and_self]
  | @sign c _ _ hc hkind hrest =>
    refine ⟨c, [], rfl, ?_⟩
    simp only [readLexeme, hc, List.nil_append]
    unfold readPunctuator
    split
    · exact absurd rfl (hrest rfl '*' (by simp)).1
    · obtain rfl : TokenKind.solidus = kind := by simpa [TokenKind.ofChar?] using hkind
      simp [(hrest rfl '/' (by simp)).2 rfl]
    · simp [hkind]

/-- A punctuator is its character. -/
theorem eq_char (h : Reads state kind w rest) {c : Char} (hkind : kind.char? = some c) :
    w = [c] := by
  cases h with
  | sign _ hsign _ => rw [Option.some.inj (hkind.symm.trans (char?_of_ofChar? hsign))]
  | _ => exact nomatch hkind

/-- Inside of `url(…)` there are no lines of their own. -/
theorem inUrl_eq_false (h : Reads state .unknown w rest) : state.inUrl = false := by
  cases h with
  | line hurl => exact hurl
  | sign _ hsign => exact nomatch char?_of_ofChar? hsign

theorem of_head? (h : Reads state kind w rest) {rest' : List Char}
    (hhead : rest.head? = rest'.head?) : Reads state kind w rest' := by
  cases h with
  | blanks hc hv hrest => exact .blanks hc hv (hrest.of_head? hhead)
  | digits hc hv hrest => exact .digits hc hv (hrest.of_head? hhead)
  | quoted hc hv hrest => exact .quoted hc hv (hrest.of_head? hhead)
  | name hc hv hrest => exact .name hc hv (hrest.of_head? hhead)
  | comment hv hrest => exact .comment hv (hrest.of_head? hhead)
  | line hurl hdepth hv hrest => exact .line hurl hdepth hv (hrest.of_head? hhead)
  | slashedName hurl hdepth hv hrest => exact .slashedName hurl hdepth hv (hrest.of_head? hhead)
  | sign hc hkind hrest => exact .sign hc hkind (hhead ▸ hrest)

/-- A lexeme can stand at the end of a text. -/
theorem to_nil (h : Reads state kind w rest) : Reads state kind w [] := by
  cases h with
  | blanks hc hv => exact .blanks hc hv nofun
  | digits hc hv => exact .digits hc hv nofun
  | quoted hc hv => exact .quoted hc hv nofun
  | name hc hv => exact .name hc hv nofun
  | comment hv => exact .comment hv nofun
  | line hurl hdepth hv => exact .line hurl hdepth hv nofun
  | slashedName hurl hdepth hv => exact .slashedName hurl hdepth hv nofun
  | sign hc hkind => exact .sign hc hkind fun _ => nofun

end Reads

/-! ## The lexemes of a text -/

/-- The lexemes of a text as pairs of a kind and characters, without their offsets. -/
def coresFrom (state : ScanState) (cs : List Char) : List (TokenKind × List Char) :=
  (scanFrom cs.length state 0 cs).map fun entry => (entry.2.kind, entry.2.chars)

private theorem map_scanFrom_congr (rounds : Nat) : ∀ (rounds' offset offset' : Nat)
    (state : ScanState) (cs : List Char), cs.length ≤ rounds → cs.length ≤ rounds' →
    (scanFrom rounds state offset cs).map (fun entry => (entry.2.kind, entry.2.chars)) =
      (scanFrom rounds' state offset' cs).map fun entry => (entry.2.kind, entry.2.chars) := by
  induction rounds with
  | zero =>
    intro rounds' offset offset' state cs hn _
    obtain rfl : cs = [] := List.length_eq_zero_iff.1 (by omega)
    cases rounds' <;> simp [scanFrom]
  | succ rounds ih =>
    intro rounds' offset offset' state cs hn hm
    cases cs with
    | nil => cases rounds' <;> simp [scanFrom]
    | cons c cs =>
      cases rounds' with
      | zero => simp at hm
      | succ rounds' =>
        have hlt := readLexeme_length_lt state c cs
        simp only [List.length_cons] at hn hm hlt
        simp only [scanFrom, List.map_cons]
        rw [ih rounds' _ _ _ _ (by omega) (by omega)]

/-- Neither the offset nor spare rounds change the lexemes. -/
theorem map_scanFrom {rounds : Nat} {state : ScanState} {offset : Nat} {cs : List Char}
    (h : cs.length ≤ rounds) :
    (scanFrom rounds state offset cs).map (fun entry => (entry.2.kind, entry.2.chars)) =
      coresFrom state cs :=
  map_scanFrom_congr _ _ _ _ _ _ h (Nat.le_refl _)

/-- Every lexeme of a text is read somewhere. -/
theorem exists_of_mem_scanFrom {rounds offset : Nat} {state : ScanState} {cs : List Char}
    {entry : Nat × Lexeme} (h : entry ∈ scanFrom rounds state offset cs) :
    ∃ state c cs, entry.2 = (readLexeme state c cs).1 := by
  induction rounds generalizing offset state cs with
  | zero => simp [scanFrom] at h
  | succ rounds ih =>
    cases cs with
    | nil => simp [scanFrom] at h
    | cons c cs =>
      rw [scanFrom, List.mem_cons] at h
      rcases h with rfl | h
      · exact ⟨state, c, cs, rfl⟩
      · exact ih h

@[simp] theorem coresFrom_nil (state : ScanState) : coresFrom state [] = [] := rfl

theorem coresFrom_cons (state : ScanState) (c : Char) (cs : List Char) :
    coresFrom state (c :: cs) =
      ((readLexeme state c cs).1.kind, (readLexeme state c cs).1.chars) ::
        coresFrom (state.after (readLexeme state c cs).1.kind (readLexeme state c cs).1.chars)
          (readLexeme state c cs).2 := by
  have hlt := readLexeme_length_lt state c cs
  conv => lhs; unfold coresFrom
  simp only [List.length_cons, scanFrom, List.map_cons]
  rw [map_scanFrom (by simp at hlt; omega)]

/-- A lexeme, and the lexemes of what follows it. -/
theorem Reads.coresFrom_append {state : ScanState} {kind : TokenKind} {w rest : List Char}
    (h : Reads state kind w rest) :
    coresFrom state (w ++ rest) = (kind, w) :: coresFrom (state.after kind w) rest := by
  obtain ⟨c, v, rfl, hkind, hchars, hrest⟩ := h.readLexeme_eq
  rw [List.cons_append, coresFrom_cons, hkind, hchars, hrest]

theorem coresFrom_eq_cons {state : ScanState} {cs : List Char} {kind : TokenKind} {w : List Char}
    {cores : List (TokenKind × List Char)} (h : coresFrom state cs = (kind, w) :: cores) :
    ∃ rest, cs = w ++ rest ∧ Reads state kind w rest ∧
      cores = coresFrom (state.after kind w) rest := by
  cases cs with
  | nil => simp at h
  | cons c cs =>
    rw [coresFrom_cons] at h
    simp only [List.cons.injEq, Prod.mk.injEq] at h
    obtain ⟨⟨rfl, rfl⟩, rfl⟩ := h
    exact ⟨_, (readLexeme_append ..).symm, reads_readLexeme .., rfl⟩

@[simp] theorem coresFrom_eq_nil {state : ScanState} {cs : List Char} :
    coresFrom state cs = [] ↔ cs = [] := by
  cases cs with
  | nil => simp
  | cons c cs => simp [coresFrom_cons]

/-- The state of the scanner after some lexemes. -/
def ScanState.afterAll (state : ScanState) (cores : List (TokenKind × List Char)) : ScanState :=
  cores.foldl (fun state core => state.after core.1 core.2) state

@[simp] theorem ScanState.afterAll_nil (state : ScanState) : state.afterAll [] = state := rfl

@[simp] theorem ScanState.afterAll_cons (state : ScanState) (core : TokenKind × List Char)
    (cores : List (TokenKind × List Char)) :
    state.afterAll (core :: cores) = (state.after core.1 core.2).afterAll cores := rfl

@[simp] theorem ScanState.afterAll_append (state : ScanState)
    (cores cores' : List (TokenKind × List Char)) :
    state.afterAll (cores ++ cores') = (state.afterAll cores).afterAll cores' := by
  simp [afterAll]

/-- The characters of lexemes in a row. -/
def coreChars (cores : List (TokenKind × List Char)) : List Char :=
  cores.flatMap Prod.snd

@[simp] theorem coreChars_nil : coreChars [] = [] := rfl

@[simp] theorem coreChars_cons (core : TokenKind × List Char)
    (cores : List (TokenKind × List Char)) :
    coreChars (core :: cores) = core.2 ++ coreChars cores := rfl

@[simp] theorem coreChars_append (cores cores' : List (TokenKind × List Char)) :
    coreChars (cores ++ cores') = coreChars cores ++ coreChars cores' := by
  simp [coreChars]

/-- A cut between two lexemes is a cut of the text. -/
theorem coresFrom_eq_append {state : ScanState} {cs : List Char}
    {cores cores' : List (TokenKind × List Char)} (h : coresFrom state cs = cores ++ cores') :
    ∃ rest, cs = coreChars cores ++ rest ∧ cores' = coresFrom (state.afterAll cores) rest := by
  induction cores generalizing state cs with
  | nil => exact ⟨cs, rfl, h.symm⟩
  | cons core cores ih =>
    obtain ⟨rest, rfl, -, hrest⟩ := coresFrom_eq_cons h
    obtain ⟨rest', rfl, hrest'⟩ := ih hrest.symm
    exact ⟨rest', by simp, hrest'⟩

/-- The lexemes make up the text. -/
theorem coreChars_coresFrom (state : ScanState) (cs : List Char) :
    coreChars (coresFrom state cs) = cs := by
  obtain ⟨rest, hcs, hrest⟩ := coresFrom_eq_append (List.append_nil (coresFrom state cs)).symm
  obtain rfl := coresFrom_eq_nil.1 hrest.symm
  simpa using hcs.symm

/-- The lexemes at the front of a text are scanned again before another text, if the last of them is
read before it. -/
theorem coresFrom_replace {state : ScanState} {cores cores' : List (TokenKind × List Char)}
    {rest rest' : List Char} (h : coresFrom state (coreChars cores ++ rest) = cores ++ cores')
    (hlast : ∀ core ∈ cores.getLast?, ∀ {state}, Reads state core.1 core.2 rest →
      Reads state core.1 core.2 rest') :
    coresFrom state (coreChars cores ++ rest') =
      cores ++ coresFrom (state.afterAll cores) rest' := by
  induction cores generalizing state with
  | nil => rfl
  | cons core cores ih =>
    rw [coreChars_cons, List.append_assoc] at h
    obtain ⟨rest₁, htext, hread, hcores⟩ := coresFrom_eq_cons h
    obtain rfl := List.append_cancel_left htext
    have hread' : Reads state core.1 core.2 (coreChars cores ++ rest') := by
      cases cores with
      | nil => exact hlast core (by simp) hread
      | cons core₂ cores =>
        obtain ⟨_, -, hread₂, -⟩ := coresFrom_eq_cons hcores.symm
        obtain ⟨c, v, hw⟩ := List.exists_cons_of_ne_nil hread₂.ne_nil
        exact hread.of_head? (by simp [hw])
    have ih := ih hcores.symm fun core' hmem => hlast core' (by
      rw [List.getLast?_cons]
      simp [Option.mem_def.1 hmem])
    rw [coreChars_cons, List.append_assoc, hread'.coresFrom_append, ih]
    rfl

/-- The lexemes at the front of a text are those of the text up to their end. -/
theorem coresFrom_truncate {state : ScanState} {cores cores' : List (TokenKind × List Char)}
    {rest : List Char} (h : coresFrom state (coreChars cores ++ rest) = cores ++ cores') :
    coresFrom state (coreChars cores) = cores := by
  have hreplace : coresFrom state (coreChars cores ++ []) = _ :=
    coresFrom_replace h fun _ _ => Reads.to_nil
  simpa using hreplace

end StyleTree
