import StyleTree.Proofs.Grammar.Leaf

/-! Rows of parts. Values, arguments, brackets and at-rule expressions are rows of parts with spaces
between them, read by a loop; spaces at the end are dropped. `Parts` says of each part of such a row
that a round of the loop reads it again. From that the whole row is read again (`Parts.run`) and can
stand in for the text it was read from (`Parts.follow`), before a break or the end of the text. -/

namespace StyleTree

open StyleTree.Parser StyleTree.Grammar

/-! ## Spaces at the end -/

theorem Node.isSpace_bare {ι : Type} (node : Node ι) : node.bare.isSpace = node.isSpace := by
  cases node <;> rfl

namespace Grammar

theorem dropTrailingSpaces_cons (node : Tree) (nodes : List Tree) :
    dropTrailingSpaces (node :: nodes) =
      if dropTrailingSpaces nodes = [] ∧ node.isSpace = true then []
      else node :: dropTrailingSpaces nodes := by
  unfold dropTrailingSpaces
  rw [List.reverse_cons, List.dropWhile_append]
  by_cases h : nodes.reverse.dropWhile Node.isSpace = []
  · by_cases hspace : node.isSpace = true <;> simp [h, hspace]
  · simp [h]

theorem dropTrailingSpaces_cons_of_not {node : Tree} (h : node.isSpace = false)
    (nodes : List Tree) :
    dropTrailingSpaces (node :: nodes) = node :: dropTrailingSpaces nodes := by
  rw [dropTrailingSpaces_cons, if_neg (by simp [h])]

theorem dropTrailingSpaces_eq_self {nodes : List Tree}
    (h : ∀ node ∈ nodes.getLast?, node.isSpace = false) : dropTrailingSpaces nodes = nodes := by
  rw [dropTrailingSpaces]
  rcases List.eq_nil_or_concat nodes with rfl | ⟨front, last, rfl⟩
  · rfl
  · have hlast := h last (by simp)
    simp [hlast]

theorem isSpace_getLast?_dropTrailingSpaces (nodes : List Tree) :
    ∀ node ∈ (dropTrailingSpaces nodes).getLast?, node.isSpace = false := by
  intro node hmem
  rw [dropTrailingSpaces, List.getLast?_reverse] at hmem
  exact head?_dropWhile_not node hmem

/-- Nodes that are read again have no spaces at their end either. -/
theorem dropTrailingSpaces_of_bare_eq {nodes nodes' : List Tree}
    (h : nodes'.map Node.bare = (dropTrailingSpaces nodes).map Node.bare) :
    dropTrailingSpaces nodes' = nodes' := by
  refine dropTrailingSpaces_eq_self fun node hmem => ?_
  have hlast := congrArg List.getLast? h
  rw [List.getLast?_map, List.getLast?_map, Option.mem_def.1 hmem, Option.map_some] at hlast
  obtain ⟨other, hother, hbare⟩ := Option.map_eq_some_iff.1 hlast.symm
  rw [← Node.isSpace_bare, ← hbare, Node.isSpace_bare]
  exact isSpace_getLast?_dropTrailingSpaces nodes other hother

end Grammar

/-! ## Rows -/

variable {σ : Type}

/-- A round of a loop at the current token. -/
def roundHere (round : σ → Token → Parser (Round σ Tree)) (st : σ) : Parser (Round σ Tree) := do
  match ← current? with
  | none => fail .stuck
  | some token => round st token

theorem roundHere_eq {round : σ → Token → Parser (Round σ Tree)} {st : σ} {s : ParserState}
    {token : Token} {rest : List Token} (hs : s.rest = token :: rest) :
    roundHere round st s = round st token s := by
  rw [roundHere, current?_bind_run, hs]
  rfl

section
variable {n : Nat} {p p' : Place} {next : List Char → Prop} {w : List Char} {node : Tree}
  {round : σ → Token → Parser (Round σ Tree)} {st st₁ : σ} {reader : Parser Tree}

/-- A round that goes on with a reader reads again what that reader reads again. -/
theorem Rereads.of_round (h : Rereads n p p' next w reader fun node' => node'.bare = node.bare)
    (hround : ∀ cs s token rest, next cs → (p.put (w ++ cs)).Scans s.rest → s.rest = token :: rest →
      round st token s = (reader >>= fun node' => pure (.next [node'] st₁)) s) :
    Rereads n p p' next w (roundHere round st)
      fun result => ∃ node', result = .next [node'] st₁ ∧ node'.bare = node.bare := by
  refine ⟨h.follow, fun cs s hcs hs hlt => ?_⟩
  obtain ⟨node', s', hrun, hbare, hs', hlt'⟩ := h.run cs s hcs hs hlt
  obtain ⟨token, rest, hrest⟩ : ∃ token rest, s.rest = token :: rest :=
    List.exists_cons_of_ne_nil fun hnil => by simp [hnil] at hlt'
  refine ⟨_, s', ?_, ⟨node', rfl, hbare⟩, hs', hlt'⟩
  rw [roundHere_eq hrest, hround cs s token rest hcs hs hrest, bind_of_ok hrun, run_pure]

/-- A token that starts the text of a node is found again: its kind is seen, or the text starts with
its character. -/
def IsFound (token : Token) (node : Tree) : Prop :=
  token.kind.isNeutral = false ∨ ∃ c w, node.compact = c :: w ∧
    CharClass.ofChar c = .punctuator ∧ TokenKind.ofChar? c = some token.kind ∧ c ≠ '/'

/-- A round that goes by the kind of the token finds a token of the same kind again. -/
theorem Rereads.of_kind {token : Token} {rest : List Token} (hp : p.Scans (token :: rest))
    (h : Rereads n p p' p'.Follow node.compact reader fun node' => node'.bare = node.bare)
    (hkind : IsFound token node)
    (hround : ∀ token' s, token'.kind = token.kind →
      round st token' s = (reader >>= fun node' => pure (.next [node'] st₁)) s) :
    Rereads n p p' p'.Follow node.compact (roundHere round st)
      fun result => ∃ node', result = .next [node'] st₁ ∧ node'.bare = node.bare := by
  refine h.of_round fun cs s token' rest' hcs hs hrest => hround token' s ?_
  rw [hrest] at hs
  rcases hkind with hkind | ⟨c, w, hc, hclass, hsign, hslash⟩
  · exact (h.follow cs hcs).kind_eq hp hs hkind
  · rw [hc] at hs
    exact hs.kind_of_sign hclass hsign hslash

end

/-- The characters of nodes in a row. -/
def rowChars (nodes : List Tree) : List Char :=
  (nodes.map Node.compact).flatten

@[simp] theorem rowChars_nil : rowChars [] = [] := rfl

@[simp] theorem rowChars_cons (node : Tree) (nodes : List Tree) :
    rowChars (node :: nodes) = node.compact ++ rowChars nodes := rfl

theorem rowChars_append (nodes later : List Tree) :
    rowChars (nodes ++ later) = rowChars nodes ++ rowChars later := by
  simp [rowChars]

/-- Nodes that the rounds of a loop read between two places, and read again when they are given
their text and fewer than `n` tokens. -/
inductive Parts (n : Nat) (round : σ → Token → Parser (Round σ Tree)) :
    σ → Place → List Tree → σ → Place → Prop where
  | nil {st p} : Parts n round st p [] st p
  | space {st p w cs later last p'} : p.text = w ++ cs → Reads p.state .whitespace w cs →
    (∀ (s : ParserState) token rest, s.rest = token :: rest → token.kind = .whitespace →
      round st token s = .ok (.next [.space none] st) { s with rest }) →
    Parts n round st ⟨p.state.after .whitespace w, cs, p.firm⟩ later last p' →
    Parts n round st p (.space none :: later) last p'
  | part {st p node st₁ p₁ later last p'} : node.isSpace = false →
    Rereads n p p₁ p₁.Follow node.compact (roundHere round st)
      (fun result => ∃ node', result = .next [node'] st₁ ∧ node'.bare = node.bare) →
    Parts n round st₁ p₁ later last p' → Parts n round st p (node :: later) last p'

/-- Places whose states are alike scan a text in the same way, if no parenthesis opens it. -/
theorem Place.Scans.of_alike {p p' : Place} {cs : List Char} {tokens : List Token}
    (h : (p.put cs).Scans tokens) (ha : Place.Alike p.state p'.state) (hcs : cs.head? ≠ some '(') :
    (p'.put cs).Scans tokens :=
  ⟨h.cores.trans (coresFrom_eq_of_alike ha hcs), trivial⟩

theorem ne_paren_of_isBreak {cs : List Char} (h : ∀ d ∈ cs.head?, isBreak d = true) :
    cs.head? ≠ some '(' :=
  fun hhead => nomatch h _ hhead

theorem Place.alike_after_whitespace (state : ScanState) (w : List Char) :
    Place.Alike state (state.after .whitespace w) :=
  ⟨rfl, rfl⟩

theorem Place.Alike.trans {state state' state'' : ScanState} (h : Place.Alike state state')
    (h' : Place.Alike state' state'') : Place.Alike state state'' :=
  ⟨h.1.trans h'.1, h.2.trans h'.2⟩

namespace Parts

variable {n : Nat} {round : σ → Token → Parser (Round σ Tree)} {st last : σ} {p p' : Place}
  {items : List Tree} {cs : List Char}

/-- Spaces that are dropped leave the loop and the scanner where they were. -/
theorem of_dropped (h : Parts n round st p items last p') (hnone : dropTrailingSpaces items = []) :
    last = st ∧ Place.Alike p.state p'.state := by
  induction h with
  | nil => exact ⟨rfl, rfl, rfl⟩
  | space _ _ _ _ ih =>
    rw [dropTrailingSpaces_cons] at hnone
    split at hnone
    next hlater =>
      obtain ⟨hlast, halike⟩ := ih hlater.1
      exact ⟨hlast, (Place.alike_after_whitespace _ _).trans halike⟩
    next => exact nomatch hnone
  | part hnode => rw [dropTrailingSpaces_cons_of_not hnode] at hnone; exact nomatch hnone

/-- The text of a row can stand in for the text that it was read from. -/
theorem follow (h : Parts n round st p items last p') (hcs : ∀ d ∈ cs.head?, isBreak d = true)
    (hf : p'.Follow cs) : p.Follow (rowChars (dropTrailingSpaces items) ++ cs) := by
  induction h with
  | nil => exact hf
  | @space st p w cs₁ later last p' htext hread _ _ ih =>
    obtain ⟨c, v, rfl⟩ := List.exists_cons_of_ne_nil hread.ne_nil
    have hblank := (isBlank_of_reads hread).1 c rfl
    rw [Place.Follow, htext, dropTrailingSpaces_cons]
    split
    · exact .toBreak (by simp [hblank]) hcs
    · exact .toSpace hblank
  | part hnode hread _ ih =>
    rw [dropTrailingSpaces_cons_of_not hnode, rowChars_cons, List.append_assoc]
    exact hread.follow _ (ih hf)

/-- One space is read as whitespace before what can stand in for a text without a blank. -/
theorem reads_space {state : ScanState} {w cs' : List Char} {known : Firmness}
    (hread : Reads state .whitespace w cs)
    (hf : Place.Follow ⟨state.after .whitespace w, cs, known⟩ cs') :
    Reads state .whitespace [' '] cs' := by
  refine .blanks rfl rfl fun d hd => stepWhile_eq_none.2 ?_
  by_contra hblank
  obtain ⟨c, hc, hblank'⟩ := StyleTree.Follow.isBlank_of hf hd (by simpa using hblank)
  rw [(isBlank_of_reads hread).2 c hc] at hblank'
  exact nomatch hblank'

/-- The rounds of the loop read the row again, and the loop goes on after it. -/
theorem run (h : Parts n round st p items last p') (hcs : ∀ d ∈ cs.head?, isBreak d = true)
    (hf : p'.Follow cs) {s : ParserState}
    (hs : (p.put (rowChars (dropTrailingSpaces items) ++ cs)).Scans s.rest)
    (hlt : s.rest.length < n) :
    ∃ items' s₁, items'.map Node.bare = (dropTrailingSpaces items).map Node.bare ∧
      (p'.put cs).Scans s₁.rest ∧
      s₁.rest.length + (dropTrailingSpaces items).length ≤ s.rest.length ∧
      ∀ more last₁ s', LoopsTo round last s₁ more last₁ s' →
        LoopsTo round st s (items' ++ more) last₁ s' := by
  induction h generalizing s with
  | nil => exact ⟨[], s, rfl, hs, Nat.le_refl _, fun _ _ _ hmore => hmore⟩
  | @space st p w cs₁ later last p' htext hread hround hparts ih =>
    rw [dropTrailingSpaces_cons] at hs ⊢
    split at hs
    next hnone =>
      rw [if_pos hnone]
      obtain ⟨rfl, halike⟩ := hparts.of_dropped hnone.1
      refine ⟨[], s, rfl, ?_, Nat.le_refl _, fun _ _ _ hmore => hmore⟩
      exact hs.of_alike ((Place.alike_after_whitespace _ _).trans halike) (ne_paren_of_isBreak hcs)
    next hsome =>
      rw [if_neg hsome]
      rw [rowChars_cons, Node.compact_space, List.append_assoc] at hs
      have hread' := reads_space hread (hparts.follow hcs hf)
      obtain ⟨token, rest, hrest, htoken, hs₁⟩ := hs.of_reads hread'
      have hk : token.kind = .whitespace := congrArg Prod.fst htoken
      have hlength : rest.length < s.rest.length := by simp [hrest]
      have hstate : p.state.after .whitespace w = p.state.after .whitespace [' '] := rfl
      rw [hstate] at ih
      obtain ⟨items', s₂, hbare, hs₂, hle, hloop⟩ :=
        ih hf (s := { s with rest }) hs₁ (by simp only; omega)
      refine ⟨.space none :: items', s₂, by simp [hbare], hs₂,
        by simp only [List.length_cons] at hle ⊢; omega, ?_⟩
      intro more last₁ s' hmore
      exact .cons hrest (hround s token rest hrest hk) hlength
        (hloop more last₁ s' hmore)
  | @part st p node st₁ p₁ later last p' hnode hread hparts ih =>
    rw [dropTrailingSpaces_cons_of_not hnode] at hs ⊢
    rw [rowChars_cons, List.append_assoc] at hs
    obtain ⟨_, s₁, hrun, ⟨node', rfl, hbare'⟩, hs₁, hlt₁⟩ :=
      hread.run _ s (hparts.follow hcs hf) hs hlt
    obtain ⟨items', s₂, hbare, hs₂, hle, hloop⟩ := ih hf hs₁ (by omega)
    obtain ⟨token, rest, hrest⟩ : ∃ token rest, s.rest = token :: rest :=
      List.exists_cons_of_ne_nil fun hnil => by simp [hnil] at hlt₁
    rw [roundHere_eq hrest] at hrun
    refine ⟨node' :: items', s₂, by simp [hbare, hbare'], hs₂,
      by simp only [List.length_cons]; omega, ?_⟩
    intro more last₁ s' hmore
    exact .cons hrest hrun hlt₁ (hloop more last₁ s' hmore)

end Parts

/-! ## Rows of a loop -/

/-- What a round reads is read again by the rounds for any number of tokens: a space, or a part. -/
inductive RoundAgain (round : Nat → σ → Token → Parser (Round σ Tree)) (p : Place) (st : σ)
    (s : ParserState) : List Tree → σ → ParserState → Prop where
  | space {token rest} : s.rest = token :: rest → token.kind = .whitespace →
    (∀ k (s' : ParserState) token' rest', s'.rest = token' :: rest' → token'.kind = .whitespace →
      round k st token' s' = .ok (.next [.space none] st) { s' with rest := rest' }) →
    RoundAgain round p st s [.space none] st { s with rest }
  | part {node st₁ s₁ p₁} : node.isSpace = false → p₁.Scans s₁.rest → p₁.firm = p.firm →
    Balanced s.rest s₁.rest →
    (∀ k, Rereads k p p₁ p₁.Follow node.compact (roundHere (round k) st)
      fun result => ∃ node', result = .next [node'] st₁ ∧ node'.bare = node.bare) →
    RoundAgain round p st s [node] st₁ s₁

theorem RoundAgain.balanced {round : Nat → σ → Token → Parser (Round σ Tree)} {p : Place}
    {st st₁ : σ}
    {s s₁ : ParserState} {items : List Tree} (h : RoundAgain round p st s items st₁ s₁) :
    Balanced s.rest s₁.rest := by
  cases h with
  | space hs hk => rw [hs]; exact .token (by simp [hk]) (by simp [hk])
  | part _ _ _ hbalanced => exact hbalanced

/-- A loop whose rounds are read again reads a row, up to where it ends or to a special token. -/
theorem parts_of_rounds (round : σ → Token → Parser (Round σ Tree))
    (round' : Nat → σ → Token → Parser (Round σ Tree)) (inv : σ → List Token → Prop)
    (quiet : Tree → Prop) (ends special : Token → Prop) {st last : σ} {s s' : ParserState}
    {p : Place} {items : List Tree}
    (hstop : ∀ {st token s s'}, round st token s = .ok .stop s' → s' = s ∧ ends token)
    (hstep : ∀ {st token s rest p items st₁ s₁}, s.rest = token :: rest → p.Scans s.rest →
      inv st s.rest → (∀ node ∈ items, quiet node) → ¬special token →
      round st token s = .ok (.next items st₁) s₁ → RoundAgain round' p st s items st₁ s₁ ∧
      inv st₁ s₁.rest)
    (h : Rounds round st s items last s') (hp : p.Scans s.rest) (hinv : inv st s.rest)
    (hquiet : ∀ node ∈ items, quiet node) :
    ∃ front back st₁ s₁ p₁, items = front ++ back ∧ p₁.Scans s₁.rest ∧ p₁.firm = p.firm ∧
      Balanced s.rest s₁.rest ∧ inv st₁ s₁.rest ∧ (∀ k, Parts k (round' k) st p front st₁ p₁) ∧
      (back = [] ∧ last = st₁ ∧ s' = s₁ ∧ (∀ token ∈ s₁.rest.head?, ends token) ∨
        (∃ token rest, s₁.rest = token :: rest ∧ special token) ∧
          Rounds round st₁ s₁ back last s') := by
  induction h generalizing p with
  | @done st s hrest =>
    exact ⟨[], [], st, s, p, rfl, hp, rfl, .refl, hinv, fun _ => .nil,
      .inl ⟨rfl, rfl, rfl, by simp [hrest]⟩⟩
  | @stop st s s' token rest hrest hround =>
    obtain ⟨rfl, hends⟩ := hstop hround
    exact ⟨[], [], st, s', p, rfl, hp, rfl, .refl, hinv, fun _ => .nil,
      .inl ⟨rfl, rfl, rfl, by simpa [hrest] using hends⟩⟩
  | @next st s token rest items st₁ s₁ later last s' hrest hround hrounds ih =>
    by_cases hspecial : special token
    · exact ⟨[], items ++ later, st, s, p, rfl, hp, rfl, .refl, hinv, fun _ => .nil,
        .inr ⟨⟨token, rest, hrest, hspecial⟩, .next hrest hround hrounds⟩⟩
    · obtain ⟨hagain, hinv₁⟩ := hstep hrest hp hinv
        (fun node hmem => hquiet node (List.mem_append_left _ hmem)) hspecial hround
      have hquiet₁ : ∀ node ∈ later, quiet node :=
        fun node hmem => hquiet node (List.mem_append_right _ hmem)
      cases hagain with
      | @space token' rest' hrest' hk hspace =>
        rw [hrest'] at hp
        obtain ⟨cs, htext, hread, hp₁⟩ := hp.cons
        rw [hk] at hread
        obtain ⟨front, back, st₂, s₂, p₂, rfl, hp₂, hfirm₂, hbalanced, hinv₂, hparts, hend⟩ :=
          ih hp₁ hinv₁ hquiet₁
        refine ⟨.space none :: front, back, st₂, s₂, p₂, rfl, hp₂, hfirm₂, ?_, hinv₂,
          fun k => .space htext hread (hspace k) ?_, hend⟩
        · rw [hrest']
          exact .trans (.token (by simp [hk]) (by simp [hk])) hbalanced
        · have hparts := hparts k
          rwa [Place.after, hk] at hparts
      | @part node _ _ p₁ hnode hp₁ hfirm hbalanced hreads =>
        obtain ⟨front, back, st₂, s₂, p₂, rfl, hp₂, hfirm₂, hbalanced₂, hinv₂, hparts, hend⟩ :=
          ih hp₁ hinv₁ hquiet₁
        exact ⟨node :: front, back, st₂, s₂, p₂, rfl, hp₂, hfirm₂.trans hfirm,
          .trans hbalanced hbalanced₂, hinv₂, fun k => .part hnode (hreads k) (hparts k), hend⟩

/-- What is read again from a token that is no whitespace is no space. -/
theorem Reprints.isSpace_eq_false {p : Place} {s s' : ParserState} {node : Tree}
    {reader : Nat → Parser Tree} (h : Reprints p s node s' reader) (hp : p.Scans s.rest)
    (hkind : s.rest.head?.map Token.kind ≠ some .whitespace) : node.isSpace = false := by
  obtain ⟨p', hp', -, -, hrereads⟩ := h
  cases node with
  | space info =>
    have hfollow := (hrereads 0).follow _ p'.follow_self
    rw [Node.compact_space] at hfollow
    obtain ⟨token, hmem, hk⟩ := hp.isBlank_iff.1 (StyleTree.Follow.isBlank_of hfollow rfl rfl)
    exact absurd (by rw [hmem, Option.map_some, hk]) hkind
  | _ => rfl

/-- A part that is read again is read again by a round that goes by the kind of its first token. -/
theorem RoundAgain.of_reprints {p : Place} {s s' : ParserState} {node : Tree} {token : Token}
    {rest : List Token} {reader : Nat → Parser Tree} {st st₁ : σ}
    {round : Nat → σ → Token → Parser (Round σ Tree)} (h : Reprints p s node s' reader)
    (hp : p.Scans s.rest) (hs : s.rest = token :: rest) (hspace : token.kind ≠ .whitespace)
    (hfound : IsFound token node)
    (hround : ∀ k token' s, token'.kind = token.kind →
      round k st token' s = (reader k >>= fun node' => pure (.next [node'] st₁)) s) :
    RoundAgain round p st s [node] st₁ s' := by
  have hnode := h.isSpace_eq_false hp (by simp [hs, hspace])
  obtain ⟨p₁, hp₁, hfirm, hbalanced, hrereads⟩ := h
  rw [hs] at hp
  exact .part hnode hp₁ hfirm hbalanced fun k => (hrereads k).of_kind hp hfound (hround k)

end StyleTree
