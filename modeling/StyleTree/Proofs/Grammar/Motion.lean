import StyleTree.Proofs.Grammar.ProgressRule

/-! Readers follow their tokens. Positions are taken from the tokens and used for nothing else: if
the tokens stand elsewhere, a run does the same and reports the places where they stand now. And a
reader never goes back: what it has left, when it succeeds and when it fails, is an end of the
tokens it started from, but for a unit that is cut before an escape; and it fails at the first of
the tokens left.

A `Motion` says where the tokens stand in a second run and what the first run can have left.
`MovesIf` is the property of readers, with lemmas for the ways to put readers together. -/

namespace StyleTree

open StyleTree.Parser StyleTree.Grammar

/-- What is left of a token after the characters `unit` of its text. -/
def Token.after (token : Token) (unit rest : List Char) : Token :=
  { token with text := String.ofList rest, start := token.start + Text.byteLength unit }

/-- Where the tokens stand in a second run, and which tokens the first run can have left. -/
structure Motion where
  /-- The place in the second run of what stands at a place in the first one. -/
  move : Nat → Nat
  move_add : ∀ start size, move (start + size) = move start + size
  /-- What the first run can have left. -/
  Left : List Token → Prop
  left_of_cons : ∀ {token tokens}, Left (token :: tokens) → Left tokens
  /-- The unit of a number is cut before an escape. -/
  left_cut : ∀ {number tokens : List Token} {token : Token} {unit escape : List Char},
    Left (number ++ token :: tokens) →
      numberLength? (number ++ token :: tokens) = some number.length →
      token.kind = .ident → token.text.toList = unit ++ escape → unit ≠ [] →
        escape.head? = some '\\' → Left (token.after unit escape :: tokens)

namespace Motion

variable {M : Motion} {tokens rest : List Token}

theorem left_of_suffix (h : M.Left tokens) (hsuffix : rest <:+ tokens) : M.Left rest := by
  obtain ⟨front, rfl⟩ := hsuffix
  induction front with
  | nil => exact h
  | cons token front ih => exact ih (M.left_of_cons h)

/-- The place of a node in the second run. -/
def info (M : Motion) (info : Option Nat) : Option Nat :=
  info.bind fun start => some (M.move start)

/-- The tree of the second run. -/
def tree (M : Motion) : Tree → Tree :=
  Node.mapInfo fun start => some (M.move start)

/-- The token in the second run. -/
def token (M : Motion) (token : Token) : Token :=
  { token with start := M.move token.start }

/-- The state of the second run. -/
def state (M : Motion) (s : ParserState) : ParserState where
  rest := s.rest.map M.token
  discarded := s.discarded.map M.info

/-- The failure of the second run. -/
def failure (M : Motion) (e : Failure) : Failure where
  cause := e.cause
  offset := M.info e.offset

/-- The result of the second run, with the view of its value. -/
def result {α : Type} (M : Motion) (view : α → α) :
    EStateM.Result Failure ParserState α → EStateM.Result Failure ParserState α
  | .ok a s => .ok (view a) (M.state s)
  | .error e s => .error (M.failure e) (M.state s)

theorem map_kind (M : Motion) (token? : Option Token) :
    (token?.map M.token).map Token.kind = token?.map Token.kind := by
  rw [Option.map_map]
  rfl

theorem head?_state (s : ParserState) : (M.state s).rest.head? = s.rest.head?.map M.token :=
  List.head?_map

theorem kind?_state (s : ParserState) :
    (M.state s).rest.head?.map Token.kind = s.rest.head?.map Token.kind := by
  rw [head?_state, map_kind]

theorem getElem?_state (s : ParserState) (k : Nat) :
    (M.state s).rest[k]? = s.rest[k]?.map M.token :=
  List.getElem?_map

theorem here_state (s : ParserState) :
    (M.state s).rest.head?.map Token.start = M.info (s.rest.head?.map Token.start) := by
  rw [head?_state]
  cases s.rest.head? <;> rfl

theorem map_text (tokens : List Token) :
    (tokens.map M.token).map Token.text = tokens.map Token.text := by
  rw [List.map_map]
  rfl

end Motion

namespace Parser

variable {α β σ : Type} {M : Motion} {P Q : List Token → Prop} {x y : Parser α} {f g : α → Parser β}
  {view : α → α} {view' : β → β}

/-- From tokens with the property `P`, a run of `y` on the moved tokens does what a run of `x` does
on the tokens, the first run leaves what it can leave, and it fails at the first token that is
left. -/
structure MovesIf (M : Motion) (P : List Token → Prop) (x y : Parser α) (view : α → α) : Prop where
  runs : ∀ {s}, P s.rest → M.Left s.rest → y (M.state s) = M.result view (x s)
  leaves : ∀ {s a s'}, P s.rest → M.Left s.rest → x s = .ok a s' → M.Left s'.rest
  fails : ∀ {s e s'}, P s.rest → M.Left s.rest → x s = .error e s' →
    M.Left s'.rest ∧ e.offset = s'.rest.head?.map Token.start

/-- A run of `y` on the moved tokens does what a run of `x` does on the tokens. -/
abbrev Moves (M : Motion) (x y : Parser α) (view : α → α) : Prop :=
  MovesIf M (fun _ => True) x y view

namespace MovesIf

theorem mono (h : MovesIf M P x y view) (hP : ∀ tokens, Q tokens → P tokens) :
    MovesIf M Q x y view :=
  ⟨fun hQ => h.runs (hP _ hQ), fun hQ => h.leaves (hP _ hQ), fun hQ => h.fails (hP _ hQ)⟩

theorem always (h : Moves M x y view) : MovesIf M P x y view :=
  h.mono fun _ _ => trivial

/-- A reader that cannot fail and leaves an end of the tokens. -/
theorem of_suffix (hruns : ∀ s, y (M.state s) = M.result view (x s))
    (hsuffix : ∀ s, ∃ a s', x s = .ok a s' ∧ s'.rest <:+ s.rest) : MovesIf M P x y view where
  runs _ _ := hruns _
  leaves {s a s'} _ hleft h := by
    obtain ⟨_, _, hs, hrest⟩ := hsuffix s
    obtain ⟨-, rfl⟩ := EStateM.Result.ok.inj (h.symm.trans hs)
    exact Motion.left_of_suffix hleft hrest
  fails {s e s'} _ _ h := by
    obtain ⟨_, _, hs, -⟩ := hsuffix s
    cases h.symm.trans hs

theorem pure {a b : α} (h : b = view a) : MovesIf M P (Pure.pure a) (Pure.pure b) view :=
  .of_suffix (fun _ => by rw [h]; rfl) fun s => ⟨a, s, rfl, List.suffix_refl _⟩

theorem fail {cause : Cause} : MovesIf M P (Parser.fail cause) (Parser.fail cause) view where
  runs {s} _ _ := by
    show EStateM.Result.error (Failure.mk cause ((M.state s).rest.head?.map Token.start)) _ = _
    rw [Motion.here_state]
    rfl
  leaves _ _ h := (fail_ne_ok.1 h).elim
  fails {s e s'} _ hleft h := by
    cases h
    exact ⟨hleft, rfl⟩

/-- A reader comes first, and what comes after it reads tokens with the property `Q`. -/
theorem before (hx : MovesIf M P x y view)
    (hQ : ∀ {s a s'}, P s.rest → M.Left s.rest → x s = .ok a s' → Q s'.rest)
    (hf : ∀ a, MovesIf M Q (f a) (g (view a)) view') : MovesIf M P (x >>= f) (y >>= g) view' where
  runs {s} hP hleft := by
    have hrun := hx.runs hP hleft
    show EStateM.bind y g (M.state s) = M.result view' (EStateM.bind x f s)
    rw [EStateM.bind, EStateM.bind, hrun]
    cases h : x s with
    | ok a s₁ => exact (hf a).runs (hQ hP hleft h) (hx.leaves hP hleft h)
    | error e s₁ => rfl
  leaves hP hleft h := by
    obtain ⟨a, s₁, ha, h⟩ := bind_eq_ok.1 h
    exact (hf a).leaves (hQ hP hleft ha) (hx.leaves hP hleft ha) h
  fails hP hleft h := by
    rcases bind_eq_error.1 h with h | ⟨a, s₁, ha, h⟩
    · exact hx.fails hP hleft h
    · exact (hf a).fails (hQ hP hleft ha) (hx.leaves hP hleft ha) h

/-- A reader comes first, and what comes after it reads the tokens it leaves. -/
theorem bind (hx : MovesIf M P x y view) (hf : ∀ a, Moves M (f a) (g (view a)) view') :
    MovesIf M P (x >>= f) (y >>= g) view' :=
  hx.before (fun _ _ _ => trivial) hf

/-- A reader whose value has no position comes first. -/
theorem step {f g : α → Parser β} (hx : MovesIf M P x y id) (hf : ∀ a, Moves M (f a) (g a) view') :
    MovesIf M P (x >>= f) (y >>= g) view' :=
  hx.bind hf

theorem ite {c : Prop} [Decidable c] {x' y' : Parser α} (hx : c → MovesIf M P x y view)
    (hy : ¬ c → MovesIf M P x' y' view) :
    MovesIf M P (if c then x else x') (if c then y else y') view := by
  split
  · exact hx ‹_›
  · exact hy ‹_›

/-- Two ways to read what comes first, and what comes after. -/
theorem choose {c : Prop} [Decidable c] {x' y' : Parser α} (hx : c → MovesIf M P x y view)
    (hy : ¬ c → MovesIf M P x' y' view) (hf : ∀ a, Moves M (f a) (g (view a)) view') :
    MovesIf M P (if c then x >>= f else x' >>= f) (if c then y >>= g else y' >>= g) view' :=
  .ite (fun h => (hx h).bind hf) fun h => (hy h).bind hf

/-- A value that is known comes first. -/
theorem value {a b : α} (h : MovesIf M P (f a) (g b) view') :
    MovesIf M P (Pure.pure a >>= f) (Pure.pure b >>= g) view' := by
  rwa [pure_bind, pure_bind]

/-- A reader that only looks comes first. -/
theorem look {γ : Type} {x : Parser γ} {f g : γ → Parser β} (see : ParserState → γ)
    (hx : ∀ s, x s = .ok (see s) s)
    (hf : ∀ s, P s.rest →
      MovesIf M (fun tokens => tokens = s.rest) (f (see s)) (g (see (M.state s))) view') :
    MovesIf M P (x >>= f) (x >>= g) view' where
  runs {s} hP hleft := by
    rw [bind_of_ok (hx _), bind_of_ok (hx _)]
    exact (hf s hP).runs rfl hleft
  leaves {s b s'} hP hleft h := (hf s hP).leaves rfl hleft ((bind_of_ok (hx s)).symm.trans h)
  fails {s e s'} hP hleft h := (hf s hP).fails rfl hleft ((bind_of_ok (hx s)).symm.trans h)

theorem get {f g : ParserState → Parser β}
    (hf : ∀ s, P s.rest → MovesIf M (fun tokens => tokens = s.rest) (f s) (g (M.state s)) view') :
    MovesIf M P (MonadState.get >>= f) (MonadState.get >>= g) view' :=
  look (fun s => s) (fun _ => rfl) hf

theorem current? {f g : Option Token → Parser β}
    (hf : ∀ token?, MovesIf M (fun tokens => P tokens ∧ tokens.head? = token?) (f token?)
      (g (token?.map M.token)) view') :
    MovesIf M P (current? >>= f) (current? >>= g) view' := by
  refine look (fun s => s.rest.head?) (fun _ => rfl) fun s hP => ?_
  rw [Motion.head?_state]
  exact (hf _).mono fun _ h => ⟨h ▸ hP, h ▸ rfl⟩

theorem lookup? {k : Nat} {f g : Option Token → Parser β}
    (hf : ∀ token?, MovesIf M P (f token?) (g (token?.map M.token)) view') :
    MovesIf M P (lookup? k >>= f) (lookup? k >>= g) view' := by
  refine look (fun s => s.rest[k]?) (fun _ => rfl) fun s hP => ?_
  rw [Motion.getElem?_state]
  exact (hf _).mono fun _ h => h ▸ hP

theorem kind? {f g : Option TokenKind → Parser β}
    (hf : ∀ kind?, MovesIf M (fun tokens => P tokens ∧ tokens.head?.map Token.kind = kind?)
      (f kind?) (g kind?) view') :
    MovesIf M P (kind? >>= f) (kind? >>= g) view' := by
  refine look (fun s => s.rest.head?.map Token.kind) (fun _ => rfl) fun s hP => ?_
  rw [Motion.kind?_state]
  exact (hf _).mono fun _ h => ⟨h ▸ hP, h ▸ rfl⟩

theorem isAt {kind : TokenKind} {f g : Bool → Parser β} (hf : ∀ b, MovesIf M P (f b) (g b) view') :
    MovesIf M P (isAt kind >>= f) (isAt kind >>= g) view' := by
  refine look (fun s => decide (s.rest.head?.map Token.kind = some kind)) (fun _ => rfl)
    fun s hP => ?_
  rw [Motion.kind?_state]
  exact (hf _).mono fun _ h => h ▸ hP

theorem lookupKind {k : Nat} {kind : TokenKind} {f g : Bool → Parser β}
    (hf : ∀ b, MovesIf M P (f b) (g b) view') :
    MovesIf M P (lookupKind k kind >>= f) (lookupKind k kind >>= g) view' := by
  refine look (fun s => decide (s.rest[k]?.map Token.kind = some kind)) (fun _ => rfl)
    fun s hP => ?_
  rw [Motion.getElem?_state, Motion.map_kind]
  exact (hf _).mono fun _ h => h ▸ hP

/-- The place where a node starts is that of the moved token. -/
theorem here {f g : Option Nat → Parser β}
    (hf : ∀ info, MovesIf M P (f info) (g (M.info info)) view') :
    MovesIf M P (here >>= f) (here >>= g) view' := by
  refine look (fun s => s.rest.head?.map Token.start) (fun _ => rfl) fun s hP => ?_
  rw [Motion.here_state]
  exact (hf _).mono fun _ h => h ▸ hP

end MovesIf

/-! ### Readers of tokens -/

theorem moves_advance : MovesIf M P advance advance id := by
  refine .of_suffix (fun s => ?_) fun s => ⟨_, _, rfl, List.tail_suffix s.rest⟩
  rw [run_advance, run_advance]
  simp [Motion.result, Motion.state]

theorem moves_take : MovesIf M P take take id := by
  refine .of_suffix (fun s => ?_) fun s => ⟨_, _, rfl, List.tail_suffix s.rest⟩
  have htext : (s.rest.head?.map M.token).map Token.text = s.rest.head?.map Token.text := by
    rw [Option.map_map]
    rfl
  rw [run_take, run_take, Motion.head?_state, htext]
  simp [Motion.result, Motion.state]

theorem moves_takeMany (count : Nat) : MovesIf M P (takeMany count) (takeMany count) id := by
  refine .of_suffix (fun s => ?_) fun s => ⟨_, _, rfl, List.drop_suffix count s.rest⟩
  have htext : ((M.state s).rest.take count).map Token.text =
      (s.rest.take count).map Token.text := by
    rw [Motion.state, ← List.map_take, Motion.map_text]
  rw [run_takeMany, run_takeMany, htext]
  simp [Motion.result, Motion.state]

theorem takeWhile_map {p : Token → Bool} (hp : ∀ token, p (M.token token) = p token)
    (tokens : List Token) :
    (tokens.map M.token).takeWhile p = (tokens.takeWhile p).map M.token := by
  rw [List.takeWhile_map]
  congr 2
  exact funext hp

theorem dropWhile_map {p : Token → Bool} (hp : ∀ token, p (M.token token) = p token)
    (tokens : List Token) :
    (tokens.map M.token).dropWhile p = (tokens.dropWhile p).map M.token := by
  rw [List.dropWhile_map]
  congr 2
  exact funext hp

theorem moves_takeWhile {p : Token → Bool} (hp : ∀ token, p (M.token token) = p token) :
    MovesIf M P (Parser.takeWhile p) (Parser.takeWhile p) id := by
  refine .get fun s _ => ?_
  rw [Motion.state, takeWhile_map hp, List.length_map]
  exact moves_takeMany _

theorem moves_skipGaps : MovesIf M P skipGaps skipGaps id := by
  refine .of_suffix (fun s => ?_) fun s => ⟨_, _, rfl, List.dropWhile_suffix isGap⟩
  rw [run_skipGaps, run_skipGaps, Motion.state, dropWhile_map fun _ => rfl]
  rfl

theorem moves_takeIf (kind : TokenKind) : MovesIf M P (takeIf kind) (takeIf kind) id :=
  .isAt fun _ => .ite (fun _ => moves_take) fun _ => .pure rfl

theorem moves_expect (kind : TokenKind) : MovesIf M P (expect kind) (expect kind) id :=
  .isAt fun _ => .ite (fun _ => moves_advance) fun _ => .fail

theorem moves_expectWord (word : String) : MovesIf M P (expectWord word) (expectWord word) id := by
  refine .current? fun token? => ?_
  cases token? with
  | none => exact .fail
  | some token => exact .ite (fun _ => .pure rfl) fun _ => .fail

/-! ### Loops -/

/-- The decision of a round of the second run. -/
def Round.moved (item : α → α) (state : σ → σ) : Round σ α → Round σ α
  | .stop => .stop
  | .next items st => .next (items.map item) (state st)

section
variable {item : α → α} {state : σ → σ} {round : σ → Token → Parser (Round σ α)} {st : σ}

/-- A round at a token does the same at the moved token. -/
def RoundMoves (M : Motion) (item : α → α) (state : σ → σ)
    (round : σ → Token → Parser (Round σ α)) : Prop :=
  ∀ st token, MovesIf M (fun tokens => tokens.head? = some token) (round st token)
    (round (state st) (M.token token)) (Round.moved item state)

theorem moves_loopUpTo (hround : RoundMoves M item state round) {count : Nat} :
    Moves M (loopUpTo round count st) (loopUpTo round count (state st))
      (Prod.map (List.map item) state) := by
  induction count generalizing st with
  | zero => exact .fail
  | succ count ih =>
    refine .current? fun token? => ?_
    cases token? with
    | none => exact .pure rfl
    | some token =>
      refine ((hround st token).mono fun _ h => h.2).bind fun result => ?_
      cases result with
      | stop => exact .pure rfl
      | next items st₁ => exact ih.bind fun later => .pure (by simp)

theorem moves_loop (state : σ → σ) (hround : RoundMoves M item state round) :
    MovesIf M P (loop round st) (loop round (state st)) (Prod.map (List.map item) state) := by
  refine .get fun s _ => ?_
  rw [Motion.state, List.length_map]
  exact (moves_loopUpTo hround).always

end

/-- What a round without state does that starts at a token. -/
abbrev ItemMoves (M : Motion) (token : Token) (x y : Parser Item) : Prop :=
  MovesIf M (fun tokens => tokens.head? = some token) x y (Round.moved M.tree id)

theorem itemMoves_stop {token : Token} : ItemMoves M token stop stop :=
  .pure rfl

theorem itemMoves_skip {token : Token} : ItemMoves M token skip skip :=
  moves_advance.step fun _ => .pure rfl

theorem itemMoves_add {token : Token} {x y : Parser Tree}
    (h : MovesIf M (fun tokens => tokens.head? = some token) x y M.tree) :
    ItemMoves M token (add x) (add y) :=
  h.bind fun _ => .pure rfl

theorem moves_many {round : Token → Parser Item}
    (hround : ∀ token, ItemMoves M token (round token) (round (M.token token))) :
    MovesIf M P (many round) (many round) (List.map M.tree) := by
  have hloop : MovesIf M P (loop (fun (_ : Unit) token => round token) ())
      (loop (fun _ token => round token) ())
      (Prod.map (List.map M.tree) id) := moves_loop id fun _ => hround
  exact hloop.bind fun _ => .pure rfl

theorem moves_separated {endsAt : Token → Bool} {entry : Parser Tree} {between : Parser Unit}
    (hends : ∀ token, endsAt (M.token token) = endsAt token) (hentry : Moves M entry entry M.tree)
    (hbetween : Moves M between between id) :
    MovesIf M P (separated endsAt entry between) (separated endsAt entry between)
      (Prod.map (List.map M.tree) id) := by
  refine moves_loop id fun due token => ?_
  rw [hends]
  refine .ite (fun _ => .pure rfl) fun _ =>
    (hentry.always).bind fun node => .isAt fun _ => .ite (fun _ => ?_) fun _ => .pure rfl
  exact moves_advance.step fun _ => hbetween.step fun _ => .pure rfl

end Parser
end StyleTree
