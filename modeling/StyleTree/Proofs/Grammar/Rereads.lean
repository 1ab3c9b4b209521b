import StyleTree.Proofs.Grammar.Name
import StyleTree.Proofs.Grammar.Place
import StyleTree.Proofs.Grammar.Tidy
import StyleTree.Proofs.Print.Compact

/-! Reading a text again. `Rereads` says that a reader can be given another text than the one
between two places: before whatever may follow, it yields the same and stops where that text ends.
Runs of tokens that are kept as they stand are read again by any reader that looks only at these
tokens and at what it can see ahead (`rereads_verbatim`). A sign such as a parenthesis parts what
stands before it from what stands after it, so what follows a sign can be any text (`rereads_sign`,
`runs_closing`). -/

namespace StyleTree

open StyleTree.Parser

variable {α : Type} {p p' : Place} {tokens tokens' rest rest' : List Token} {cs w : List Char}

/-! ## Gaps -/

/-- The first token is no gap. -/
def NoGap (tokens : List Token) : Prop :=
  ∀ token ∈ tokens.head?, isGap token = false

theorem NoGap.dropWhile_eq (h : NoGap tokens) : tokens.dropWhile isGap = tokens := by
  cases tokens with
  | nil => rfl
  | cons token tokens => simp [h token (by simp)]

theorem noGap_dropWhile (tokens : List Token) : NoGap (tokens.dropWhile isGap) :=
  fun _ h => Grammar.head?_dropWhile_not _ h

/-- Whitespace is a run of blanks, and ends before no blank. -/
theorem isBlank_of_reads {state : ScanState} (h : Reads state .whitespace w cs) :
    (∀ c ∈ w.head?, isBlank c = true) ∧ ∀ c ∈ cs.head?, isBlank c = false := by
  cases h with
  | blanks hc _ hstops =>
    refine ⟨fun c hmem => ?_, fun c hmem => stepWhile_eq_none.1 (hstops c hmem)⟩
    simp at hmem
    simp [← hmem, isBlank, hc]
  | sign _ hsign => cases char?_of_ofChar? hsign

theorem kind_of_reads_blank {state : ScanState} {kind : TokenKind} {c : Char}
    (h : Reads state kind (c :: w) cs) (hc : isBlank c = true) : kind = .whitespace := by
  have hclass : CharClass.ofChar c = .whitespace := by simpa [isBlank] using hc
  cases h with
  | blanks => rfl
  | digits hc | quoted hc | name hc | sign hc => rw [hclass] at hc; cases hc
  | _ => cases hclass

/-- A blank at the front is scanned as whitespace. -/
theorem Place.Scans.isBlank_iff (h : p.Scans tokens) :
    (∃ c, p.text.head? = some c ∧ isBlank c = true) ↔
      ∃ token, tokens.head? = some token ∧ token.kind = .whitespace := by
  cases tokens with
  | nil => simp [h.nil]
  | cons token tokens =>
    obtain ⟨cs, htext, hread, -⟩ := h.cons
    obtain ⟨c, v, hw⟩ := List.exists_cons_of_ne_nil hread.ne_nil
    rw [htext, hw]
    simp only [List.cons_append, List.head?_cons, Option.some.injEq, exists_eq_left']
    constructor
    · exact fun hblank => kind_of_reads_blank (hw ▸ hread) hblank
    · intro hkind
      rw [hkind] at hread
      exact (isBlank_of_reads hread).1 c (by simp [hw])

/-- After a gap, the scanner stands at the same place but for whether the last token was `url`, and
what can stand in for the text after the gap can stand in for the gap too, if it starts with a
break. -/
theorem Place.Scans.skipGaps (h : p.Scans tokens) (hc : NoComments tokens) :
    ∃ p' : Place, p'.Scans (tokens.dropWhile isGap) ∧ Place.Alike p.state p'.state ∧
      p'.firm = p.firm ∧ Balanced tokens (tokens.dropWhile isGap) ∧
      (p.state.afterUrl = false → p'.state = p.state) ∧
      ∀ cs, (∀ d ∈ cs.head?, isBreak d = true) → p'.Follow cs → p.Follow cs := by
  cases tokens with
  | nil => exact ⟨p, h, ⟨rfl, rfl⟩, rfl, .refl, fun _ => rfl, fun _ _ hf => hf⟩
  | cons token tokens =>
    by_cases hgap : isGap token = true
    · have hkind : token.kind = .whitespace := by
        simpa [isGap, hc token (.head _)] using hgap
      obtain ⟨cs, htext, hread, hrest⟩ := h.cons
      rw [hkind] at hread
      have hnext : NoGap tokens := by
        intro next hmem
        have hk := hc next (.tail _ (List.mem_of_head? hmem))
        rw [isGap, Bool.or_eq_false_iff]
        refine ⟨?_, by simpa using hk⟩
        rw [decide_eq_false_iff_not]
        intro hk'
        obtain ⟨c, hhead, hblank⟩ := hrest.isBlank_iff.2 ⟨next, hmem, hk'⟩
        have hstop := (isBlank_of_reads hread).2 c hhead
        simp [hblank] at hstop
      have hdrop : (token :: tokens).dropWhile isGap = tokens := by
        simp [hgap, hnext.dropWhile_eq]
      have hstate : p.state.after .whitespace token.text.toList =
          { p.state with afterUrl := false } := rfl
      rw [hdrop]
      refine ⟨_, hrest, ?_, rfl, .token (by simp [hkind]) (by simp [hkind]), ?_, ?_⟩
      · simp only [Place.after, hkind, hstate]
        exact ⟨rfl, rfl⟩
      · intro hurl
        simp only [Place.after, hkind, hstate, ← hurl]
      · intro cs' hcs' _
        obtain ⟨c, v, hw⟩ := List.exists_cons_of_ne_nil hread.ne_nil
        have hblank := (isBlank_of_reads hread).1 c (by simp [hw])
        rw [Place.Follow, htext, hw]
        exact .toBreak (by simp [hblank]) hcs'
    · have hnone : (token :: tokens).dropWhile isGap = token :: tokens := by simp [hgap]
      rw [hnone]
      exact ⟨p, h, ⟨rfl, rfl⟩, rfl, .refl, fun _ => rfl, fun _ _ hf => hf⟩

/-! ## What can be seen ahead -/

theorem Place.Follow.peek_eq (h : p.Follow cs) (hp : p.Scans tokens)
    (hs : (p.put cs).Scans tokens') :
    peek (tokens.map Token.kind) = peek (tokens'.map Token.kind) := by
  rw [hp.kinds, hs.kinds]
  exact StyleTree.Follow.peek_eq h

/-- A kind that a name, a number or a function can go on with is seen. -/
theorem head?_kind_iff_of_peek_eq (h : peek (tokens.map Token.kind) = peek (tokens'.map Token.kind))
    {kind : TokenKind} (hkind : kind.isNeutral = false) :
    tokens.head?.map Token.kind = some kind ↔ tokens'.head?.map Token.kind = some kind := by
  rw [← List.head?_map, ← List.head?_map, head?_eq_some_iff_peek hkind,
    head?_eq_some_iff_peek hkind, h]

theorem Place.Follow.noGap (h : p.Follow cs) (hp : p.Scans tokens)
    (hs : (p.put cs).Scans tokens') (hgap : NoGap tokens) : NoGap tokens' := by
  intro token hmem
  rw [isGap, Bool.or_eq_false_iff, decide_eq_false_iff_not, decide_eq_false_iff_not]
  constructor
  · intro hkind
    obtain ⟨d, hd, hblank⟩ := hs.isBlank_iff.2 ⟨token, hmem, hkind⟩
    obtain ⟨other, hother, hkind'⟩ := hp.isBlank_iff.1 (StyleTree.Follow.isBlank_of h hd hblank)
    have := hgap other hother
    simp [isGap, hkind'] at this
  · intro hkind
    have hsome : tokens'.head?.map Token.kind = some .comment := by
      rw [Option.mem_def.1 hmem, Option.map_some, hkind]
    obtain ⟨other, hother, hkind'⟩ :=
      Option.map_eq_some_iff.1 ((head?_kind_iff_of_peek_eq (h.peek_eq hp hs) rfl).2 hsome)
    have := hgap other hother
    simp [isGap, hkind'] at this

/-- A token that a name, a number or a function can go on with is replaced by one of its kind. -/
theorem Place.Follow.kind_eq {token token' : Token} (h : p.Follow cs)
    (hp : p.Scans (token :: tokens)) (hs : (p.put cs).Scans (token' :: tokens'))
    (hkind : token.kind.isNeutral = false) : token'.kind = token.kind := by
  have := (head?_kind_iff_of_peek_eq (h.peek_eq hp hs) hkind).1 rfl
  simpa using this

/-- What stands in for a sign that is no break starts with the same sign. -/
theorem Place.Follow.head?_eq {kind : TokenKind} {c : Char} (h : p.Follow cs) (hp : p.Scans tokens)
    (hkind : tokens.head?.map Token.kind = some kind) (hchar : kind.char? = some c)
    (hc : CharClass.ofChar c = .punctuator) (hbreak : isBreak c = false) : cs.head? = some c := by
  obtain ⟨token, hmem, rfl⟩ := Option.map_eq_some_iff.1 hkind
  obtain ⟨rest, rfl⟩ := List.head?_eq_some_iff.1 hmem
  obtain ⟨cs', htext, hread, -⟩ := hp.cons
  have hy := StyleTree.Follow.yields h
  rw [htext, hread.eq_char hchar, List.singleton_append, List.head?_cons] at hy
  have hblank : isBlank c = false := by simp [isBlank, hc]
  have hletter : ¬(c = 'u' ∨ c = 'U') := by rintro (rfl | rfl) <;> cases hc
  generalize cs.head? = d at hy
  cases hy with
  | refl => rfl
  | toBreak hc' | toEnd hc' => simp [hblank, hbreak] at hc'
  | toSpace hc' => simp [hblank] at hc'
  | toLetter hc' => exact absurd hc' hletter

/-- The first character is one of the given text, or one that can come in before it. -/
def HeadFrom (text cs : List Char) : Prop :=
  ∀ d ∈ cs.head?, d ∈ text ∨ isBreak d = true ∨ d = ' ' ∨ d = 'u'

theorem Place.Follow.headFrom (h : p.Follow cs) : HeadFrom p.text cs := by
  have hy := StyleTree.Follow.yields h
  intro d hd
  rw [Option.mem_def.1 hd] at hy
  generalize hc : p.text.head? = c at hy
  cases hy with
  | refl => exact .inl (List.mem_of_mem_head? hc)
  | toBreak _ hd | atEnd _ hd => exact .inr (.inl hd)
  | toSpace => exact .inr (.inr (.inl rfl))
  | toLetter => exact .inr (.inr (.inr rfl))

theorem HeadFrom.of_append {text u v : List Char} (h : HeadFrom text (u ++ v)) :
    HeadFrom text u := by
  cases u with
  | nil => exact nofun
  | cons => exact h

theorem HeadFrom.subset {text text' : List Char} (h : HeadFrom text cs)
    (hsub : ∀ c ∈ text, c ∈ text') : HeadFrom text' cs :=
  fun d hd => (h d hd).imp_left (hsub d)

/-- A punctuator is read where its character stands. -/
theorem Place.Scans.kind_of_sign {c : Char} {kind : TokenKind} {token : Token}
    (h : (p.put (c :: cs)).Scans (token :: tokens)) (hc : CharClass.ofChar c = .punctuator)
    (hkind : TokenKind.ofChar? c = some kind) (hslash : c ≠ '/') : token.kind = kind := by
  obtain ⟨_, _, heq, hcore, -⟩ := h.of_sign hc hkind hslash
  obtain ⟨rfl, -⟩ := List.cons.inj heq
  exact congrArg Prod.fst hcore

theorem Place.Scans.head?_kind_of_sign {c : Char} {kind : TokenKind} (h : (p.put cs).Scans tokens)
    (hcs : cs.head? = some c) (hc : CharClass.ofChar c = .punctuator)
    (hkind : TokenKind.ofChar? c = some kind) (hslash : c ≠ '/') :
    tokens.head?.map Token.kind = some kind := by
  obtain ⟨cs, rfl⟩ := List.head?_eq_some_iff.1 hcs
  obtain ⟨token, _, rfl, hcore, -⟩ := h.of_sign hc hkind hslash
  exact congrArg (some ·.1) hcore

/-! ## Reading again -/

/-- The reader can be given `w` in place of the text between `p` and `p'`: before every text in
`next`, the text `w` can stand in for what was there, and the reader reads it, yields a value in
`post` and stops right after it. It is given fewer than `n` tokens, and reads one at least. -/
structure Rereads (n : Nat) (p p' : Place) (next : List Char → Prop) (w : List Char)
    (reader : Parser α) (post : α → Prop) : Prop where
  follow : ∀ cs, next cs → p.Follow (w ++ cs)
  run : ∀ cs s, next cs → (p.put (w ++ cs)).Scans s.rest → s.rest.length < n →
    ∃ a s', reader s = .ok a s' ∧ post a ∧ (p'.put cs).Scans s'.rest ∧
      s'.rest.length < s.rest.length

/-- Tokens that are kept as they stand are scanned again before any text that can stand in for what
followed them. -/
theorem Place.Scans.verbatim {front : List Token} {cs' : List Char}
    (h : p.Scans (front ++ rest)) (htext : p.text = tokenChars front ++ cs')
    (hlast : ∀ token ∈ front.getLast?,
      (token.kind ≠ .unknown ∧ token.kind ≠ .comment) ∨ cs'.head? = cs.head?)
    (hfollow : (p.afterAll front cs').Follow cs) :
    p.Follow (tokenChars front ++ cs) ∧ ∀ tokens', (p.put (tokenChars front ++ cs)).Scans tokens' →
      ∃ front' rest', tokens' = front' ++ rest' ∧ front'.map Token.core = front.map Token.core ∧
        ((p.afterAll front cs').put cs).Scans rest' := by
  have hcores : coresFrom p.state (coreChars (front.map Token.core) ++ cs') =
      front.map Token.core ++ rest.map Token.core := by
    rw [← List.map_append, h.cores, htext]
    rfl
  obtain ⟨hscan, hfollow'⟩ := coresFrom_verbatim hcores hfollow (by
    intro core hmem
    rw [List.getLast?_map, Option.mem_def, Option.map_eq_some_iff] at hmem
    obtain ⟨token, hmem, rfl⟩ := hmem
    exact (hlast token hmem).imp_left fun hkind =>
      ⟨hkind.1, hkind.2, fun hclosed hnil => h.isClosed_of_end htext hnil hclosed token hmem⟩)
  refine ⟨?_, fun tokens' hs => ?_⟩
  · rw [Place.Follow, htext]
    exact hfollow'
  · obtain ⟨front', rest', rfl, hfront, hrest⟩ := List.map_eq_append_iff.1 (hs.cores.trans hscan)
    exact ⟨front', rest', rfl, hfront, hrest, trivial⟩

/-- A reader that keeps the tokens it reads, and looks ahead no further than can be seen, reads them
again. -/
theorem rereads_verbatim {n : Nat} {front : List Token} {cs' : List Char} (reader : Parser α)
    (post : α → Prop) (h : p.Scans (front ++ rest)) (htext : p.text = tokenChars front ++ cs')
    (hrest : (p.afterAll front cs').Scans rest) (hne : front ≠ [])
    (hlast : ∀ token ∈ front.getLast?, token.kind ≠ .unknown ∧ token.kind ≠ .comment)
    (hrun : ∀ s front' rest', s.rest = front' ++ rest' →
      front'.map Token.core = front.map Token.core →
      peek (rest.map Token.kind) = peek (rest'.map Token.kind) →
      (∀ token ∈ s.rest, token.text ≠ "") →
        ∃ a, reader s = .ok a { s with rest := rest' } ∧ post a) :
    Rereads n p (p.afterAll front cs') (p.afterAll front cs').Follow (tokenChars front) reader
      post := by
  refine ⟨fun cs hcs => ?_, fun cs s hcs hs hlt => ?_⟩
  · exact (h.verbatim htext (fun token hmem => .inl (hlast token hmem)) hcs).1
  · obtain ⟨front', rest', hs', hfront, hrest'⟩ :=
      (h.verbatim htext (fun token hmem => .inl (hlast token hmem)) hcs).2 _ hs
    obtain ⟨a, hread, hpost⟩ := hrun s front' rest' hs' hfront (hcs.peek_eq hrest hrest') hs.text_ne
    refine ⟨a, _, hread, hpost, hrest', ?_⟩
    have hlen : front'.length = front.length := by simpa using congrArg List.length hfront
    have hpos := List.length_pos_iff.2 hne
    rw [hs', List.length_append]
    simp only
    omega

/-! ## Readers in a row -/

/-- The reader yields a value in `post` when it is given `w` before a text in `next` and fewer than
`n` tokens, and stops right after `w`. -/
def Runs (n : Nat) (p p' : Place) (next : List Char → Prop) (w : List Char) (reader : Parser α)
    (post : α → Prop) : Prop :=
  ∀ cs s, next cs → (p.put (w ++ cs)).Scans s.rest → s.rest.length < n →
    ∃ a s', reader s = .ok a s' ∧ post a ∧ (p'.put cs).Scans s'.rest ∧
      s'.rest.length ≤ s.rest.length

section
variable {β : Type} {n m : Nat} {p₁ : Place} {next next₁ : List Char → Prop} {u v : List Char}
  {reader x : Parser α} {f : α → Parser β} {post₁ : α → Prop} {post : β → Prop}

theorem Rereads.runs {post : α → Prop} (h : Rereads n p p' next w reader post) :
    Runs n p p' next w reader post := by
  intro cs s hcs hs hlt
  obtain ⟨a, s', hrun, hpost, hs', hlt'⟩ := h.run cs s hcs hs hlt
  exact ⟨a, s', hrun, hpost, hs', Nat.le_of_lt hlt'⟩

theorem runs_pure {a : α} {post : α → Prop} (h : post a) : Runs n p p next [] (pure a) post :=
  fun _ s _ hs _ => ⟨a, s, rfl, h, hs, Nat.le_refl _⟩

theorem Runs.bind (h₁ : Runs n p p₁ next₁ u x post₁)
    (h₂ : ∀ a, post₁ a → Runs n p₁ p' next v (f a) post)
    (hnext : ∀ cs, next cs → next₁ (v ++ cs)) :
    Runs n p p' next (u ++ v) (x >>= f) post := by
  intro cs s hcs hs hlt
  rw [List.append_assoc] at hs
  obtain ⟨a, s₁, hrun₁, hpost₁, hs₁, hle₁⟩ := h₁ _ s (hnext cs hcs) hs hlt
  obtain ⟨b, s₂, hrun₂, hpost, hs₂, hle₂⟩ := h₂ a hpost₁ cs s₁ hcs hs₁ (by omega)
  exact ⟨b, s₂, by rw [bind_of_ok hrun₁, hrun₂], hpost, hs₂, by omega⟩

/-- The first of two readers reads a token, so the second is given fewer tokens. -/
theorem Rereads.bind (h₁ : Rereads n p p₁ next₁ u x post₁)
    (h₂ : ∀ a, post₁ a → Runs m p₁ p' next v (f a) post) (hm : n ≤ m + 1)
    (hnext : ∀ cs, next cs → next₁ (v ++ cs)) :
    Rereads n p p' next (u ++ v) (x >>= f) post := by
  refine ⟨fun cs hcs => ?_, fun cs s hcs hs hlt => ?_⟩
  · rw [List.append_assoc]
    exact h₁.follow _ (hnext cs hcs)
  · rw [List.append_assoc] at hs
    obtain ⟨a, s₁, hrun₁, hpost₁, hs₁, hlt₁⟩ := h₁.run _ s (hnext cs hcs) hs hlt
    obtain ⟨b, s₂, hrun₂, hpost, hs₂, hle₂⟩ := h₂ a hpost₁ cs s₁ hcs hs₁ (by omega)
    exact ⟨b, s₂, by rw [bind_of_ok hrun₁, hrun₂], hpost, hs₂, by omega⟩

/-- What stands after a sign that opens is read one level deeper, and is given fewer tokens. -/
theorem Rereads.bind_nested {f : Nat → α → Parser β} (h₁ : Rereads n p p₁ next₁ u x post₁)
    (h₂ : ∀ k a, post₁ a → Runs k p₁ p' next v (f (k + 1) a) post)
    (hnext : ∀ cs, next cs → next₁ (v ++ cs)) :
    Rereads n p p' next (u ++ v) (x >>= f n) post := by
  cases n with
  | succ k => exact h₁.bind (h₂ k) (Nat.le_refl _) hnext
  | zero =>
    refine ⟨fun cs hcs => ?_, fun cs s hcs hs hlt => absurd hlt (Nat.not_lt_zero _)⟩
    rw [List.append_assoc]
    exact h₁.follow _ (hnext cs hcs)

/-- What a reader makes of the position it stands at does not matter. -/
theorem Rereads.here {f : Option Nat → Parser β} (h : ∀ info, Rereads n p p' next w (f info) post) :
    Rereads n p p' next w (here >>= f) post := by
  refine ⟨(h none).follow, fun cs s hcs hs hlt => ?_⟩
  simp only [here_bind_run]
  exact (h _).run cs s hcs hs hlt

/-- Only the state of the scanner counts of the place where a reader starts. -/
theorem Runs.of_state_eq {post : α → Prop} (h : Runs n p₁ p' next w reader post)
    (hstate : p₁.state = p.state) : Runs n p p' next w reader post := by
  intro cs s hcs hs hlt
  refine h cs s hcs ?_ hlt
  rwa [Place.put, hstate]

/-- Whether the last token was `url` does not matter before a text that no parenthesis opens. -/
theorem Runs.of_alike {post : α → Prop} (h : Runs n p₁ p' next w reader post)
    (halike : Place.Alike p.state p₁.state)
    (hhead : ∀ cs, next cs → (w ++ cs).head? ≠ some '(') : Runs n p p' next w reader post := by
  intro cs s hcs hs hlt
  refine h cs s hcs ⟨?_, trivial⟩ hlt
  exact hs.cores.trans (Place.coresFrom_eq_of_alike halike (hhead cs hcs))

/-- Gaps are skipped where there are none. -/
theorem Runs.skipGaps {reader : Parser β} (h : Runs n p p' next w reader post)
    (hgap : ∀ cs tokens, next cs → (p.put (w ++ cs)).Scans tokens → NoGap tokens) :
    Runs n p p' next w (skipGaps >>= fun _ => reader) post := by
  intro cs s hcs hs hlt
  obtain ⟨a, s', hrun, hpost, hs', hle⟩ := h cs s hcs hs hlt
  refine ⟨a, s', ?_, hpost, hs', hle⟩
  rw [skipGaps_bind_run, (hgap cs s.rest hcs hs).dropWhile_eq]
  exact hrun

end

/-- A sign is read, and any text may follow it. -/
theorem rereads_sign {c : Char} {kind : TokenKind} {token : Token} (hp : p.Scans (token :: rest))
    (hkind : token.kind = kind) (hc : CharClass.ofChar c = .punctuator)
    (hsign : TokenKind.ofChar? c = some kind) (hslash : c ≠ '/' ∧ c ≠ '.') :
    ∃ cs₁, p.text = c :: cs₁ ∧ (p.after token cs₁).Scans rest ∧
      p.state.after kind [c] = (p.after token cs₁).state ∧
      ∀ n, Rereads n p (p.after token cs₁) (fun _ => True) [c] (expect kind) fun _ => True := by
  obtain ⟨cs₁, htext, hread, hrest⟩ := hp.cons
  have hchar : token.text.toList = [c] := by
    rw [hkind] at hread
    exact hread.eq_char (char?_of_ofChar? hsign)
  rw [hchar] at htext
  have hstate : p.state.after kind [c] = (p.after token cs₁).state := by
    rw [Place.after, hkind, hchar]
  refine ⟨cs₁, htext, hrest, hstate, fun n => ⟨fun cs _ => ?_, fun cs s _ hs _ => ?_⟩⟩
  · rw [Place.Follow, htext]
    exact .of_sign hc hsign hslash.1 hslash.2
  · obtain ⟨token', rest', hs', hcore, hrest'⟩ := hs.of_sign hc hsign hslash.1
    refine ⟨(), { s with rest := rest' }, expect_eq_ok.2 ⟨token', rest', hs', ?_, rfl⟩,
      trivial, ?_, ?_⟩
    · exact congrArg Prod.fst hcore
    · rw [hstate] at hrest'
      exact hrest'
    · simp [hs']

/-- No gap stands before a sign. -/
theorem Place.Scans.noGap_of_sign {c : Char} {kind : TokenKind}
    (h : (p.put (c :: cs)).Scans tokens) (hc : CharClass.ofChar c = .punctuator)
    (hsign : TokenKind.ofChar? c = some kind) (hslash : c ≠ '/') : NoGap tokens := by
  obtain ⟨token, rest, rfl, hcore, -⟩ := h.of_sign hc hsign hslash
  intro token' hmem
  obtain rfl : token = token' := by simpa using hmem
  have hk : token.kind = kind := congrArg Prod.fst hcore
  have hchar := char?_of_ofChar? hsign
  rw [isGap, hk]
  cases kind <;> first | rfl | exact nomatch hchar

/-- A closing sign is read, whatever gap stood before it. -/
theorem runs_closing {c : Char} {kind : TokenKind} {closing : Token} (hp : p.Scans tokens)
    (hcomments : NoComments tokens) (hrest : tokens.dropWhile isGap = closing :: rest)
    (hkind : closing.kind = kind) (hc : CharClass.ofChar c = .punctuator)
    (hsign : TokenKind.ofChar? c = some kind) (hbreak : isBreak c = true) :
    ∃ p' : Place, p'.Scans rest ∧ p'.firm = p.firm ∧ p'.state.afterUrl = false ∧
      (∀ cs, p.Follow (c :: cs)) ∧ ∀ n, Runs n p p' (fun _ => True) [c] (expect kind) fun _ =>
        True := by
  obtain ⟨p₁, hp₁, halike, hfirm, -, -, hfollow⟩ := hp.skipGaps hcomments
  have hne : c ≠ '/' ∧ c ≠ '.' ∧ c ≠ '(' := by
    rcases isBreak_iff.1 hbreak with rfl | rfl | rfl | rfl | rfl | rfl | rfl | rfl <;> decide
  rw [hrest] at hp₁
  obtain ⟨cs₁, htext, hrest', hstate, hrereads⟩ := rereads_sign hp₁ hkind hc hsign ⟨hne.1, hne.2.1⟩
  have hident : kind ≠ .ident := by
    rintro rfl
    exact nomatch char?_of_ofChar? hsign
  refine ⟨_, hrest', hfirm, ?_, fun cs => ?_, fun n cs s hcs hs hlt => ?_⟩
  · rw [← hstate]
    simp [ScanState.after, ScanState.isUrlName, hident]
  · refine hfollow _ (by simpa using hbreak) ?_
    rw [Place.Follow, htext]
    exact .of_sign hc hsign hne.1 hne.2.1
  · refine (hrereads n).runs cs s hcs ⟨?_, trivial⟩ hlt
    have hhead : ([c] ++ cs).head? ≠ some '(' := by simpa using hne.2.2
    exact hs.cores.trans (Place.coresFrom_eq_of_alike halike hhead)

end StyleTree
