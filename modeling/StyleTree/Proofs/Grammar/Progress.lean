import StyleTree.Proofs.Grammar.Mirror
import StyleTree.Proofs.Grammar.Separated

/-! Readers that come to an end. `Settles n k x` says of fewer than `n` tokens that the reader `x`
does not get stuck on them, and that at least `k` of them are gone when it succeeds. A loop settles
when each round that goes on lowers a weight that the tokens left bound (`settles_loop`); for most
loops the weight is the number of tokens, so it is enough that each such round reads one. -/

namespace StyleTree.Parser

variable {α β σ : Type} {n n' k k' : Nat} {P Q : List Token → Prop} {x y : Parser α}
  {f : α → Parser β} {s s' : ParserState}

/-- From fewer than `n` tokens with the property `P`, the reader does not get stuck, and leaves at
least `k` tokens fewer. -/
structure SettlesIf (n : Nat) (P : List Token → Prop) (k : Nat) (x : Parser α) : Prop where
  unstuck : ∀ {s e s'}, s.rest.length < n → P s.rest → x s = .error e s' → e.cause ≠ .stuck
  reads : ∀ {s a s'}, s.rest.length < n → P s.rest → x s = .ok a s' →
    s'.rest.length + k ≤ s.rest.length

/-- From fewer than `n` tokens, the reader does not get stuck, and leaves at least `k` tokens
fewer. -/
abbrev Settles (n k : Nat) (x : Parser α) : Prop :=
  SettlesIf n (fun _ => True) k x

namespace SettlesIf

theorem mono (h : SettlesIf n P k x) (hP : ∀ tokens, Q tokens → P tokens) : SettlesIf n Q k x :=
  ⟨fun hn hQ => h.unstuck hn (hP _ hQ), fun hn hQ => h.reads hn (hP _ hQ)⟩

theorem always (h : Settles n k x) : SettlesIf n P k x :=
  h.mono fun _ _ => trivial

/-- Of fewer tokens and of less that is read. -/
theorem weaken (h : SettlesIf n P k x) (hn : n' ≤ n) (hk : k' ≤ k) : SettlesIf n' P k' x where
  unstuck hlt hP := h.unstuck (hlt.trans_le hn) hP
  reads hlt hP hs := (Nat.add_le_add_left hk _).trans (h.reads (hlt.trans_le hn) hP hs)

/-- A reader that reads a token may read none. -/
theorem any (h : SettlesIf n P k x) : SettlesIf n P 0 x :=
  h.weaken Nat.le.refl (Nat.zero_le k)

/-- From no tokens at all. -/
theorem absurd (h : ∀ tokens, ¬ P tokens) : SettlesIf n P k x :=
  ⟨fun _ hP => (h _ hP).elim, fun _ hP => (h _ hP).elim⟩

theorem pure {a : α} : SettlesIf n P 0 (pure a) where
  unstuck _ _ hs := nomatch hs
  reads := by
    rintro _ _ _ - - ⟨⟩
    exact Nat.le.refl

theorem fail {cause : Cause} (h : cause ≠ .stuck) :
    SettlesIf n P k (Parser.fail cause : Parser α) where
  unstuck := by
    rintro _ _ _ - - ⟨⟩
    exact h
  reads _ _ hs := (fail_ne_ok.1 hs).elim

/-- A reader comes first, and what comes after it reads from the tokens that are left. -/
theorem step (hx : SettlesIf n P 0 x) (hf : ∀ a, Settles n k (f a)) :
    SettlesIf n P k (x >>= f) where
  unstuck := by
    intro s e s' hn hP hs
    rcases bind_eq_error.1 hs with hs | ⟨a, s₁, ha, hs⟩
    · exact hx.unstuck hn hP hs
    · exact (hf a).unstuck ((hx.reads hn hP ha).trans_lt hn) trivial hs
  reads := by
    intro s b s' hn hP hs
    obtain ⟨a, s₁, ha, hs⟩ := bind_eq_ok.1 hs
    have hle := hx.reads hn hP ha
    exact ((hf a).reads (hle.trans_lt hn) trivial hs).trans hle

/-- A reader comes first that reads a token, so that fewer are left. -/
theorem enter (hx : SettlesIf (n + 1) P 1 x) (hf : ∀ a, Settles n 0 (f a)) :
    SettlesIf (n + 1) P 1 (x >>= f) where
  unstuck := by
    intro s e s' hn hP hs
    rcases bind_eq_error.1 hs with hs | ⟨a, s₁, ha, hs⟩
    · exact hx.unstuck hn hP hs
    · have hlt := hx.reads hn hP ha
      exact (hf a).unstuck (by omega) trivial hs
  reads := by
    intro s b s' hn hP hs
    obtain ⟨a, s₁, ha, hs⟩ := bind_eq_ok.1 hs
    have hlt := hx.reads hn hP ha
    have hle := (hf a).reads (by omega) trivial hs
    omega

/-- A reader comes first that reads a token. -/
theorem first (hx : SettlesIf n P 1 x) (hf : ∀ a, Settles n 0 (f a)) :
    SettlesIf n P 1 (x >>= f) := by
  cases n with
  | zero => exact ⟨fun h => (Nat.not_lt_zero _ h).elim, fun h => (Nat.not_lt_zero _ h).elim⟩
  | succ n => exact hx.enter fun a => (hf a).weaken (Nat.le_succ n) Nat.le.refl

theorem ite {c : Prop} [Decidable c] (hx : c → SettlesIf n P k x) (hy : ¬ c → SettlesIf n P k y) :
    SettlesIf n P k (if c then x else y) := by
  split
  · exact hx ‹_›
  · exact hy ‹_›

/-- Two ways to read what comes first, and what comes after. -/
theorem choose {c : Prop} [Decidable c] (hx : c → SettlesIf n P 0 x) (hy : ¬ c → SettlesIf n P 0 y)
    (hf : ∀ a, Settles n k (f a)) : SettlesIf n P k (if c then x >>= f else y >>= f) :=
  .ite (fun h => (hx h).step hf) fun h => (hy h).step hf

/-- A value that is known comes first. -/
theorem value {a : α} (h : SettlesIf n P k (f a)) : SettlesIf n P k (Pure.pure a >>= f) := by
  rwa [pure_bind]

/-- A reader that only looks comes first. -/
theorem look {x : Parser α} (see : ParserState → α) (hx : ∀ s, x s = .ok (see s) s)
    (hf : ∀ s, P s.rest → SettlesIf n (fun tokens => tokens = s.rest) k (f (see s))) :
    SettlesIf n P k (x >>= f) where
  unstuck hn hP hs := (hf _ hP).unstuck hn rfl ((bind_of_ok (hx _)).symm.trans hs)
  reads hn hP hs := (hf _ hP).reads hn rfl ((bind_of_ok (hx _)).symm.trans hs)

theorem get {f : ParserState → Parser β}
    (hf : ∀ s, P s.rest → SettlesIf n (fun tokens => tokens = s.rest) k (f s)) :
    SettlesIf n P k (MonadState.get >>= f) :=
  look id (fun _ => rfl) hf

theorem current? {f : Option Token → Parser β}
    (hf : ∀ token?, SettlesIf n (fun tokens => P tokens ∧ tokens.head? = token?) k (f token?)) :
    SettlesIf n P k (current? >>= f) :=
  look _ (fun _ => rfl) fun _ hP => (hf _).mono fun _ h => ⟨h ▸ hP, h ▸ rfl⟩

theorem kind? {f : Option TokenKind → Parser β}
    (hf : ∀ kind?, SettlesIf n (fun tokens => P tokens ∧ tokens.head?.map Token.kind = kind?) k
      (f kind?)) :
    SettlesIf n P k (kind? >>= f) :=
  look (fun s => s.rest.head?.map Token.kind) (fun _ => rfl)
    fun _ hP => (hf _).mono fun _ h => ⟨h ▸ hP, h ▸ rfl⟩

theorem isAt {kind : TokenKind} {f : Bool → Parser β}
    (hf : ∀ b, SettlesIf n (fun tokens =>
      P tokens ∧ (tokens.head?.map Token.kind = some kind ↔ b = true)) k (f b)) :
    SettlesIf n P k (isAt kind >>= f) :=
  look (fun s => decide (s.rest.head?.map Token.kind = some kind)) (fun _ => rfl) fun s hP =>
    (hf _).mono fun tokens h => ⟨h ▸ hP, by rw [h, decide_eq_true_iff]⟩

theorem lookup? {i : Nat} {f : Option Token → Parser β}
    (hf : ∀ token?, SettlesIf n P k (f token?)) :
    SettlesIf n P k (lookup? i >>= f) :=
  look (fun s => s.rest[i]?) (fun _ => rfl) fun _ hP => (hf _).mono fun _ h => h ▸ hP

theorem lookupKind {i : Nat} {kind : TokenKind} {f : Bool → Parser β}
    (hf : ∀ b, SettlesIf n (fun tokens =>
      P tokens ∧ (tokens[i]?.map Token.kind = some kind ↔ b = true)) k (f b)) :
    SettlesIf n P k (lookupKind i kind >>= f) :=
  look (fun s => decide (s.rest[i]?.map Token.kind = some kind)) (fun _ => rfl) fun s hP =>
    (hf _).mono fun tokens h => ⟨h ▸ hP, by rw [h, decide_eq_true_iff]⟩

theorem here {f : Option Nat → Parser β} (hf : ∀ info, SettlesIf n P k (f info)) :
    SettlesIf n P k (here >>= f) :=
  look (fun s => s.rest.head?.map Token.start) (fun _ => rfl)
    fun _ hP => (hf _).mono fun _ h => h ▸ hP

end SettlesIf

/-! ### Readers of tokens -/

theorem settles_takeMany (count : Nat) : SettlesIf n P 0 (takeMany count) where
  unstuck _ _ hs := nomatch hs
  reads := by
    rintro s _ _ - - ⟨⟩
    exact (List.drop_suffix count _).length_le

/-- Some tokens are taken. -/
theorem settlesIf_takeMany {count : Nat} (hcount : 0 < count)
    (hP : ∀ tokens, P tokens → tokens ≠ []) :
    SettlesIf n P 1 (takeMany count) where
  unstuck _ _ hs := nomatch hs
  reads := by
    rintro s _ _ - hs ⟨⟩
    have := List.length_pos_iff.2 (hP _ hs)
    show (s.rest.drop count).length + 1 ≤ _
    rw [List.length_drop]
    omega

theorem settlesIf_advance (hP : ∀ tokens, P tokens → tokens ≠ []) : SettlesIf n P 1 advance where
  unstuck _ _ hs := nomatch hs
  reads := by
    rintro s _ _ - hs ⟨⟩
    have := List.length_pos_iff.2 (hP _ hs)
    show s.rest.tail.length + 1 ≤ _
    rw [List.length_tail]
    omega

theorem settles_advance : SettlesIf n P 0 advance where
  unstuck _ _ hs := nomatch hs
  reads := by
    rintro s _ _ - - ⟨⟩
    exact (List.tail_suffix _).length_le

theorem settlesIf_take (hP : ∀ tokens, P tokens → tokens ≠ []) : SettlesIf n P 1 take where
  unstuck _ _ hs := nomatch hs
  reads := by
    rintro s _ _ hn hs ⟨⟩
    exact (settlesIf_advance hP).reads hn hs run_advance

theorem settles_take : SettlesIf n P 0 take where
  unstuck _ _ hs := nomatch hs
  reads := by
    rintro s _ _ - - ⟨⟩
    exact (List.tail_suffix _).length_le

theorem settles_takeWhile (p : Token → Bool) : SettlesIf n P 0 (Parser.takeWhile p) :=
  .get fun _ _ => settles_takeMany _

theorem settles_skipGaps : SettlesIf n P 0 skipGaps where
  unstuck _ _ hs := nomatch hs
  reads := by
    rintro s _ _ - - ⟨⟩
    exact (List.dropWhile_suffix _).length_le

theorem settles_takeIf (kind : TokenKind) : SettlesIf n P 0 (takeIf kind) :=
  .isAt fun _ => .ite (fun _ => settles_take) fun _ => .pure

theorem settles_expect (kind : TokenKind) : SettlesIf n P 1 (expect kind) :=
  .isAt fun _ => .ite
    (fun hat => settlesIf_advance fun tokens htokens hnil => by simp [hnil, hat] at htokens)
    fun _ => .fail nofun

theorem settles_expectWord (word : String) : SettlesIf n P 0 (expectWord word) := by
  refine .current? fun token? => ?_
  cases token? with
  | none => exact .fail nofun
  | some token => exact .ite (fun _ => .pure) fun _ => .fail nofun

/-! ### Loops -/

/-- A round at the given token settles, and lowers the weight if it goes on. -/
structure RoundSettles (n : Nat) (weight : σ → Nat → Nat) (st : σ) (token : Token)
    (x : Parser (Round σ α)) :
    Prop where
  unstuck : ∀ {s e s'}, s.rest.length < n → s.rest.head? = some token → x s = .error e s' →
    e.cause ≠ .stuck
  reads : ∀ {s r s'}, s.rest.length < n → s.rest.head? = some token → x s = .ok r s' →
    s'.rest.length ≤ s.rest.length
  lowers : ∀ {s items st' s'}, s.rest.length < n → s.rest.head? = some token →
    x s = .ok (.next items st') s' → weight st' s'.rest.length < weight st s.rest.length

/-- A loop comes to an end before its bound is met. -/
theorem settles_loopUpTo {round : σ → Token → Parser (Round σ α)} {weight : σ → Nat → Nat}
    (hround : ∀ st token, RoundSettles n weight st token (round st token)) {count : Nat} {st : σ} :
    SettlesIf n (fun tokens => weight st tokens.length < count) 0 (loopUpTo round count st) := by
  induction count generalizing st with
  | zero => exact ⟨fun _ h => absurd h (Nat.not_lt_zero _), fun _ h => absurd h (Nat.not_lt_zero _)⟩
  | succ count ih =>
    refine .current? fun token? => ?_
    cases token? with
    | none => exact .pure
    | some token =>
      have hround := hround st token
      have hlater : ∀ {s items st₁ s₁}, s.rest.length < n → weight st s.rest.length < count + 1 →
          s.rest.head? = some token → round st token s = .ok (.next items st₁) s₁ →
          s₁.rest.length < n ∧ weight st₁ s₁.rest.length < count := by
        intro s items st₁ s₁ hn hweight hhead hs
        have hlowers := hround.lowers hn hhead hs
        exact ⟨(hround.reads hn hhead hs).trans_lt hn, by omega⟩
      constructor
      · rintro s e s' hn ⟨hweight, hhead⟩ h
        rcases bind_eq_error.1 h with h | ⟨r, s₁, hr, h⟩
        · exact hround.unstuck hn hhead h
        · cases r with
          | stop => exact nomatch h
          | next items st₁ =>
            obtain ⟨hn₁, hweight₁⟩ := hlater hn hweight hhead hr
            rcases bind_eq_error.1 h with h | ⟨_, _, _, h⟩
            · exact ih.unstuck hn₁ hweight₁ h
            · exact nomatch h
      · rintro s result s' hn ⟨hweight, hhead⟩ h
        obtain ⟨r, s₁, hr, h⟩ := bind_eq_ok.1 h
        have hle := hround.reads hn hhead hr
        cases r with
        | stop =>
          obtain ⟨-, rfl⟩ := EStateM.Result.ok.inj h
          exact hle
        | next items st₁ =>
          obtain ⟨hn₁, hweight₁⟩ := hlater hn hweight hhead hr
          obtain ⟨_, s₂, hloop, h⟩ := bind_eq_ok.1 h
          obtain ⟨-, rfl⟩ := EStateM.Result.ok.inj h
          exact (ih.reads hn₁ hweight₁ hloop).trans hle

/-- A loop whose rounds lower a weight settles. -/
theorem settles_loop {round : σ → Token → Parser (Round σ α)} {weight : σ → Nat → Nat} {st : σ}
    (hweight : ∀ st m, weight st m ≤ m)
    (hround : ∀ st token, RoundSettles n weight st token (round st token)) :
    SettlesIf n P 0 (loop round st) :=
  .get fun _ _ => (settles_loopUpTo hround).mono fun _ h => h ▸ Nat.lt_succ_of_le (hweight st _)

/-- Rounds beyond those that can be needed make no difference. -/
theorem loopUpTo_eq {round : σ → Token → Parser (Round σ α)} {weight : σ → Nat → Nat}
    (hround : ∀ st token, RoundSettles n weight st token (round st token)) {count count' : Nat}
    {st : σ} (hn : s.rest.length < n) (h : weight st s.rest.length < count)
    (h' : weight st s.rest.length < count') :
    loopUpTo round count st s = loopUpTo round count' st s := by
  induction count generalizing count' st s with
  | zero => exact absurd h (Nat.not_lt_zero _)
  | succ count ih =>
    obtain ⟨count', rfl⟩ := Nat.exists_eq_add_one.2 (Nat.zero_lt_of_lt h')
    rw [loopUpTo, loopUpTo, current?_bind_run, current?_bind_run]
    cases hhead : s.rest.head? with
    | none => rfl
    | some token =>
      cases hs : round st token s with
      | error e s₁ => exact (bind_eq_error.2 (.inl hs)).trans (bind_eq_error.2 (.inl hs)).symm
      | ok result s₁ =>
        refine (bind_of_ok hs).trans ((bind_of_ok hs).trans ?_).symm
        cases result with
        | stop => rfl
        | next items st₁ =>
          have hlt := (hround st token).lowers hn hhead hs
          have heq : loopUpTo round count st₁ s₁ = loopUpTo round count' st₁ s₁ :=
            ih (((hround st token).reads hn hhead hs).trans_lt hn) (by omega) (by omega)
          show EStateM.bind _ _ s₁ = EStateM.bind _ _ s₁
          rw [EStateM.bind, EStateM.bind, heq]

/-- The number of tokens left, whatever the state of the loop. -/
def tokensLeft (_ : σ) (m : Nat) : Nat := m

namespace RoundSettles

variable {weight : σ → Nat → Nat} {st : σ} {token : Token}

theorem stop : RoundSettles n weight st token (pure .stop : Parser (Round σ α)) where
  unstuck _ _ hs := nomatch hs
  reads := by
    rintro _ _ _ - - ⟨⟩
    exact Nat.le.refl
  lowers _ _ hs := nomatch hs

theorem fail {cause : Cause} (h : cause ≠ .stuck) :
    RoundSettles n weight st token (Parser.fail cause : Parser (Round σ α)) where
  unstuck := by
    rintro _ _ _ - - ⟨⟩
    exact h
  reads _ _ hs := (fail_ne_ok.1 hs).elim
  lowers _ _ hs := (fail_ne_ok.1 hs).elim

theorem ite {c : Prop} [Decidable c] {x y : Parser (Round σ α)}
    (hx : c → RoundSettles n weight st token x) (hy : ¬ c → RoundSettles n weight st token y) :
    RoundSettles n weight st token (if c then x else y) := by
  split
  · exact hx ‹_›
  · exact hy ‹_›

/-- A round that goes on reads a token. -/
theorem of_reads {x : Parser (Round σ α)}
    (h : SettlesIf n (fun tokens => tokens.head? = some token) 1 x) :
    RoundSettles n tokensLeft st token x where
  unstuck := h.unstuck
  reads hn hhead hs := (Nat.le_add_right _ 1).trans (h.reads hn hhead hs)
  lowers := h.reads

/-- A round that looks at the tokens, and stops or reads one. -/
theorem get {f : ParserState → Parser (Round σ α)} (hf : ∀ s, f s = pure .stop ∨
    SettlesIf n (fun tokens => tokens = s.rest) 1 (f s)) :
    RoundSettles n tokensLeft st token (MonadState.get >>= f) where
  unstuck {s e s'} hn _ hs := by
    have hs : f s s = .error e s' := hs
    rcases hf s with hstop | h
    · rw [hstop] at hs
      exact nomatch hs
    · exact h.unstuck hn rfl hs
  reads {s r s'} hn _ hs := by
    have hs : f s s = .ok r s' := hs
    rcases hf s with hstop | h
    · rw [hstop] at hs
      obtain ⟨-, rfl⟩ := EStateM.Result.ok.inj hs
      exact Nat.le.refl
    · exact (Nat.le_add_right _ 1).trans (h.reads hn rfl hs)
  lowers {s items st' s'} hn _ hs := by
    have hs : f s s = .ok (.next items st') s' := hs
    rcases hf s with hstop | h
    · rw [hstop] at hs
      exact nomatch hs
    · exact h.reads hn rfl hs

/-- A round that reads a token and goes on. -/
theorem next {β : Type} {read : Parser β} {result : β → Round σ α}
    (h : SettlesIf n (fun tokens => tokens.head? = some token) 1 read) :
    RoundSettles n tokensLeft st token (read >>= fun b => pure (result b)) := by
  refine of_reads ⟨fun hn hhead hs => ?_, fun hn hhead hs => ?_⟩
  · rcases bind_eq_error.1 hs with hs | ⟨_, _, _, hs⟩
    · exact h.unstuck hn hhead hs
    · exact nomatch hs
  · obtain ⟨_, _, hread, hs⟩ := bind_eq_ok.1 hs
    obtain ⟨-, rfl⟩ := EStateM.Result.ok.inj hs
    exact h.reads hn hhead hread

/-- A round that steps over the current token. -/
theorem advance {result : Round σ α} :
    RoundSettles n tokensLeft st token (Parser.advance >>= fun _ => pure result) :=
  next (settlesIf_advance fun _ h hnil => by simp [hnil] at h)

end RoundSettles

theorem settles_many {round : Token → Parser Item}
    (hround : ∀ token, RoundSettles n tokensLeft () token (round token)) :
    SettlesIf n P 0 (many round) :=
  (settles_loop (fun _ _ => Nat.le.refl) fun _ => hround).step fun _ => .pure

/-- While an entry is due, each token can be a comma. -/
def entriesLeft (due : Bool) (m : Nat) : Nat :=
  if due then m else 0

theorem settles_separated {endsAt : Token → Bool} {entry : Parser Tree} {between : Parser Unit}
    (hentry : Settles n 0 entry) (hbetween : Settles n 0 between) :
    SettlesIf n P 0 (separated endsAt entry between) := by
  have hweight : ∀ due m, entriesLeft due m ≤ m :=
    fun due m => by unfold entriesLeft; split <;> omega
  refine settles_loop hweight fun due token => .ite (fun _ => .stop) fun hdue => ?_
  obtain rfl : due = true := by cases due <;> simp_all
  have hround : Settles n 0 (do
      let node ← entry
      if ← isAt .comma then
        advance
        between
        return .next [node] true
      else
        return .next [node] false : Parser (Round Bool Tree)) :=
    hentry.step fun _ => .isAt fun _ => .ite
      (fun _ => settles_advance.step fun _ => hbetween.step fun _ => .pure) fun _ => .pure
  refine ⟨fun hn _ hs => hround.unstuck hn trivial hs,
    fun hn _ hs => hround.reads hn trivial hs, ?_⟩
  intro s items due s' hn hhead hs
  obtain ⟨node, s₁, hread, hs⟩ := bind_eq_ok.1 hs
  have hle : s₁.rest.length ≤ s.rest.length := hentry.reads hn trivial hread
  rw [isAt_bind_run] at hs
  split at hs
  next hcomma =>
    rw [advance_bind_run] at hs
    obtain ⟨_, s₂, hgap, hs⟩ := bind_eq_ok.1 hs
    obtain ⟨h, rfl⟩ := EStateM.Result.ok.inj hs
    obtain ⟨-, rfl⟩ := Round.next.inj h
    have hlt :=
      settlesIf_advance (n := n) (P := fun tokens => tokens.head?.map Token.kind = some .comma)
      (fun _ h hnil => by simp [hnil] at h)
    have := hlt.reads (hle.trans_lt hn) (of_decide_eq_true hcomma) run_advance
    have := hbetween.reads (s := { s₁ with rest := s₁.rest.tail }) (by omega) trivial hgap
    simp only [entriesLeft, if_true]
    omega
  next =>
    obtain ⟨h, rfl⟩ := EStateM.Result.ok.inj hs
    obtain ⟨-, rfl⟩ := Round.next.inj h
    obtain ⟨rest, hrest⟩ := List.head?_eq_some_iff.1 hhead
    simp [entriesLeft, hrest]

end StyleTree.Parser
