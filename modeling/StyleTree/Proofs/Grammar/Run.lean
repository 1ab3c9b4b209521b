import Mathlib.Data.List.TakeWhile
import StyleTree.Grammar.Parser

/-!
# Runs of parsers

What the basic readers do to the tokens that are left, as equations, and when a sequence of readers
succeeds (`bind_eq_ok`). A loop that succeeds does so along a chain of rounds (`Rounds`); in return
a chain of rounds that each read a token makes the loop succeed (`LoopsTo`), for the bound on the
number of rounds is never met.
-/

namespace StyleTree.Parser

variable {α β σ : Type} {s s' : ParserState}

theorem take_length_takeWhile (p : α → Bool) (l : List α) :
    l.take (l.takeWhile p).length = l.takeWhile p := by
  induction l with
  | nil => rfl
  | cons a l ih => by_cases h : p a <;> simp [h, ih]

theorem drop_length_takeWhile (p : α → Bool) (l : List α) :
    l.drop (l.takeWhile p).length = l.dropWhile p := by
  induction l with
  | nil => rfl
  | cons a l ih => by_cases h : p a <;> simp [h, ih]

/-! ## Sequences -/

theorem bind_eq_ok {x : Parser α} {f : α → Parser β} {b : β} :
    (x >>= f) s = .ok b s' ↔ ∃ a s₁, x s = .ok a s₁ ∧ f a s₁ = .ok b s' := by
  show (EStateM.bind x f) s = _ ↔ _
  unfold EStateM.bind
  cases x s with
  | ok a s₁ =>
    refine ⟨fun h => ⟨a, s₁, rfl, h⟩, ?_⟩
    rintro ⟨_, _, ⟨⟩, h⟩
    exact h
  | error e s₁ => simp

theorem bind_of_ok {x : Parser α} {f : α → Parser β} {a : α} {s₁ : ParserState}
    (h : x s = .ok a s₁) : (x >>= f) s = f a s₁ := by
  show (EStateM.bind x f) s = _
  unfold EStateM.bind
  rw [h]

theorem ite_bind {c : Prop} [Decidable c] (x y : Parser α) (f : α → Parser β) :
    (if c then x else y) >>= f = if c then x >>= f else y >>= f := by
  split <;> rfl

section
variable (f : α → Parser β)

@[simp] theorem run_pure (a : α) : (pure a : Parser α) s = .ok a s := rfl

@[simp] theorem run_map (f : α → β) (x : Parser α) : (f <$> x) s =
    match x s with
    | .ok a s' => .ok (f a) s'
    | .error e s' => .error e s' := by
  show EStateM.map f x s = _
  unfold EStateM.map
  cases x s <;> rfl

@[simp] theorem pure_bind_run (a : α) : ((pure a : Parser α) >>= f) s = f a s := rfl

@[simp] theorem get_bind_run (f : ParserState → Parser β) :
    ((get : Parser ParserState) >>= f) s = f s s := rfl

@[simp] theorem set_bind_run (s₁ : ParserState) (f : PUnit → Parser β) :
    ((set s₁ : Parser PUnit) >>= f) s = f ⟨⟩ s₁ := rfl

@[simp] theorem modify_bind_run (g : ParserState → ParserState) (f : PUnit → Parser β) :
    ((modify g : Parser PUnit) >>= f) s = f ⟨⟩ (g s) := rfl

@[simp] theorem run_modify (g : ParserState → ParserState) :
    (modify g : Parser PUnit) s = .ok ⟨⟩ (g s) := rfl

@[simp] theorem current?_bind_run (f : Option Token → Parser β) :
    (current? >>= f) s = f s.rest.head? s := rfl

@[simp] theorem lookup?_bind_run (k : Nat) (f : Option Token → Parser β) :
    (lookup? k >>= f) s = f s.rest[k]? s := rfl

@[simp] theorem kind?_bind_run (f : Option TokenKind → Parser β) :
    (kind? >>= f) s = f (s.rest.head?.map Token.kind) s := rfl

@[simp] theorem isAt_bind_run (kind : TokenKind) (f : Bool → Parser β) :
    (isAt kind >>= f) s = f (decide (s.rest.head?.map Token.kind = some kind)) s := rfl

@[simp] theorem lookupKind_bind_run (k : Nat) (kind : TokenKind) (f : Bool → Parser β) :
    (lookupKind k kind >>= f) s = f (decide (s.rest[k]?.map Token.kind = some kind)) s := rfl

@[simp] theorem here_bind_run (f : Option Nat → Parser β) :
    (here >>= f) s = f (s.rest.head?.map Token.start) s := rfl

@[simp] theorem fail_ne_ok {cause : Cause} {a : α} :
    (fail cause : Parser α) s = .ok a s' ↔ False := by
  refine ⟨fun h => ?_, False.elim⟩
  cases h

@[simp] theorem advance_bind_run (f : Unit → Parser β) :
    (advance >>= f) s = f () { s with rest := s.rest.tail } := rfl

@[simp] theorem run_advance : advance s = .ok () { s with rest := s.rest.tail } := rfl

@[simp] theorem take_bind_run (f : String → Parser β) :
    (take >>= f) s = f ((s.rest.head?.map Token.text).getD "") { s with rest := s.rest.tail } := rfl

@[simp] theorem run_take :
    take s = .ok ((s.rest.head?.map Token.text).getD "") { s with rest := s.rest.tail } := rfl

@[simp] theorem takeMany_bind_run (count : Nat) (f : String → Parser β) :
    (takeMany count >>= f) s =
      f (Text.concat ((s.rest.take count).map Token.text)) { s with rest := s.rest.drop count } :=
  rfl

@[simp] theorem run_takeMany (count : Nat) :
    takeMany count s =
      .ok (Text.concat ((s.rest.take count).map Token.text)) { s with rest := s.rest.drop count } :=
  rfl

@[simp] theorem takeWhile_bind_run (p : Token → Bool) (f : String → Parser β) :
    (Parser.takeWhile p >>= f) s =
      f (Text.concat ((s.rest.takeWhile p).map Token.text))
        { s with rest := s.rest.dropWhile p } := by
  show f (Text.concat ((s.rest.take _).map Token.text)) { s with rest := s.rest.drop _ } = _
  rw [take_length_takeWhile, drop_length_takeWhile]

theorem run_takeWhile (p : Token → Bool) : Parser.takeWhile p s =
    .ok (Text.concat ((s.rest.takeWhile p).map Token.text))
      { s with rest := s.rest.dropWhile p } := by
  show takeMany _ s = _
  rw [run_takeMany, take_length_takeWhile, drop_length_takeWhile]

@[simp] theorem run_skipGaps : skipGaps s = .ok () { s with rest := s.rest.dropWhile isGap } := rfl

@[simp] theorem skipGaps_bind_run (f : Unit → Parser β) :
    (skipGaps >>= f) s = f () { s with rest := s.rest.dropWhile isGap } := rfl

end

theorem takeIf_eq (kind : TokenKind) :
    takeIf kind s = if s.rest.head?.map Token.kind = some kind then take s else .ok "" s := by
  simp only [takeIf, isAt_bind_run, decide_eq_true_eq]
  split <;> rfl

theorem expect_eq_ok {kind : TokenKind} {u : Unit} :
    expect kind s = .ok u s' ↔
      ∃ token rest, s.rest = token :: rest ∧ token.kind = kind ∧ s' = { s with rest } := by
  simp only [expect, isAt_bind_run, decide_eq_true_eq]
  constructor
  · intro h
    cases hrest : s.rest with
    | nil => simp [hrest] at h
    | cons token rest =>
      by_cases hk : token.kind = kind
      · simp only [hrest, List.head?_cons, Option.map_some, hk, if_true, run_advance,
          List.tail_cons, EStateM.Result.ok.injEq, true_and] at h
        exact ⟨token, rest, rfl, hk, h.symm⟩
      · simp [hrest, hk] at h
  · rintro ⟨token, rest, hrest, hk, rfl⟩
    simp [hrest, hk]

theorem expectWord_eq_ok {word : String} {u : Unit} :
    expectWord word s = .ok u s' ↔
      s' = s ∧ ∃ token rest, s.rest = token :: rest ∧ token.kind = .ident ∧ token.spells word := by
  simp only [expectWord, current?_bind_run]
  constructor
  · intro h
    cases hrest : s.rest with
    | nil => simp [hrest] at h
    | cons token rest =>
      by_cases hk : token.kind = .ident ∧ token.spells word
      · simp [hrest, hk] at h
        exact ⟨h.symm, token, rest, rfl, hk⟩
      · simp [hrest, hk] at h
  · rintro ⟨rfl, token, rest, hrest, hk⟩
    simp [hrest, hk]

/-! ## Loops -/

/-- A chain of rounds: from a state of the loop and the tokens left, the items of all rounds, and
the state and the tokens where the loop ends. -/
inductive Rounds (round : σ → Token → Parser (Round σ α)) :
    σ → ParserState → List α → σ → ParserState → Prop where
  | done {st s} : s.rest = [] → Rounds round st s [] st s
  | stop {st s s' token rest} : s.rest = token :: rest → round st token s = .ok .stop s' →
    Rounds round st s [] st s'
  | next {st s token rest items st₁ s₁ later last s'} : s.rest = token :: rest →
    round st token s = .ok (.next items st₁) s₁ →
    Rounds round st₁ s₁ later last s' → Rounds round st s (items ++ later) last s'

theorem rounds_of_loopUpTo {round : σ → Token → Parser (Round σ α)} {count : Nat} {st last : σ}
    {items : List α} (h : loopUpTo round count st s = .ok (items, last) s') :
    Rounds round st s items last s' := by
  induction count generalizing st s items with
  | zero => simp [loopUpTo] at h
  | succ count ih =>
    simp only [loopUpTo, current?_bind_run] at h
    cases hrest : s.rest with
    | nil =>
      simp only [hrest, List.head?_nil, run_pure, EStateM.Result.ok.injEq, Prod.mk.injEq] at h
      obtain ⟨⟨rfl, rfl⟩, rfl⟩ := h
      exact .done hrest
    | cons token rest =>
      simp only [hrest, List.head?_cons, bind_eq_ok] at h
      obtain ⟨r, s₁, hr, h⟩ := h
      cases r with
      | stop =>
        simp only [run_pure, EStateM.Result.ok.injEq, Prod.mk.injEq] at h
        obtain ⟨⟨rfl, rfl⟩, rfl⟩ := h
        exact .stop hrest hr
      | next more st₁ =>
        simp only [bind_eq_ok] at h
        obtain ⟨⟨later, last'⟩, s₂, hl, h⟩ := h
        simp only [run_pure, EStateM.Result.ok.injEq, Prod.mk.injEq] at h
        obtain ⟨⟨rfl, rfl⟩, rfl⟩ := h
        exact .next hrest hr (ih hl)

/-- A loop that succeeds runs along a chain of rounds. -/
theorem rounds_of_loop {round : σ → Token → Parser (Round σ α)} {st last : σ} {items : List α}
    (h : loop round st s = .ok (items, last) s') : Rounds round st s items last s' := by
  rw [loop, get_bind_run] at h
  exact rounds_of_loopUpTo h

theorem rounds_of_many {round : Token → Parser Item} {nodes : List Tree}
    (h : many round s = .ok nodes s') : Rounds (fun _ token => round token) () s nodes () s' := by
  simp only [many, bind_eq_ok, run_pure, EStateM.Result.ok.injEq] at h
  obtain ⟨⟨items, ⟨⟩⟩, _, h, rfl, rfl⟩ := h
  exact rounds_of_loop h

/-- Rounds go on to the end of input or to one that stops. -/
theorem Rounds.ends {round : σ → Token → Parser (Round σ α)} {st last : σ} {items : List α}
    (h : Rounds round st s items last s') :
    s'.rest = [] ∨ ∃ st token s₁, s₁.rest.head? = some token ∧
    round st token s₁ = .ok .stop s' := by
  induction h with
  | done hs => exact .inl hs
  | stop hrest hs => exact .inr ⟨_, _, _, by rw [hrest]; rfl, hs⟩
  | next _ _ _ ih => exact ih

/-- Rounds that never stop go on to the end of input. -/
theorem Rounds.rest_eq_nil {round : σ → Token → Parser (Round σ α)} {st last : σ} {items : List α}
    (h : Rounds round st s items last s')
    (hround : ∀ st token s s', round st token s ≠ .ok .stop s') :
    s'.rest = [] :=
  h.ends.resolve_right fun ⟨st, token, s₁, _, hstop⟩ => hround st token s₁ s' hstop

/-- The loop succeeds, however many rounds it may take beyond one for each token. -/
def LoopsTo (round : σ → Token → Parser (Round σ α)) (st : σ) (s : ParserState) (items : List α)
    (last : σ) (s' : ParserState) : Prop :=
  ∀ count, s.rest.length < count → loopUpTo round count st s = .ok (items, last) s'

namespace LoopsTo

variable {round : σ → Token → Parser (Round σ α)} {st st₁ last : σ} {items later : List α}
  {token : Token} {rest : List Token} {s₁ : ParserState}

theorem done (h : s.rest = []) : LoopsTo round st s [] st s := by
  intro count hcount
  obtain ⟨count, rfl⟩ := Nat.exists_eq_add_one.2 (Nat.zero_lt_of_lt hcount)
  simp [loopUpTo, h]

theorem stop (h : s.rest = token :: rest) (hround : round st token s = .ok .stop s') :
    LoopsTo round st s [] st s' := by
  intro count hcount
  obtain ⟨count, rfl⟩ := Nat.exists_eq_add_one.2 (Nat.zero_lt_of_lt hcount)
  simp [loopUpTo, h, bind_of_ok hround]

/-- A round that reads a token leaves one round for each token after it. -/
theorem next (h : s.rest = token :: rest) (hround : round st token s = .ok (.next items st₁) s₁)
    (hlt : s₁.rest.length < s.rest.length) (hlater : LoopsTo round st₁ s₁ later last s') :
    LoopsTo round st s (items ++ later) last s' := by
  intro count hcount
  obtain ⟨count, rfl⟩ := Nat.exists_eq_add_one.2 (Nat.zero_lt_of_lt hcount)
  have hrun := hlater count (by omega)
  simp only [loopUpTo, current?_bind_run, h, List.head?_cons, bind_of_ok hround, bind_of_ok hrun,
    run_pure]

/-- A round that adds one item. -/
theorem cons {item : α} (h : s.rest = token :: rest)
    (hround : round st token s = .ok (.next [item] st₁) s₁) (hlt : s₁.rest.length < s.rest.length)
    (hlater : LoopsTo round st₁ s₁ later last s') : LoopsTo round st s (item :: later) last s' :=
  next h hround hlt hlater

theorem loop_eq (h : LoopsTo round st s items last s') :
    loop round st s = .ok (items, last) s' := by
  rw [loop, get_bind_run]
  exact h _ (Nat.lt_succ_self _)

theorem many_eq {round : Token → Parser Item} {nodes : List Tree}
    (h : LoopsTo (fun _ token => round token) () s nodes () s') : many round s = .ok nodes s' := by
  rw [many, bind_of_ok h.loop_eq, run_pure]

end LoopsTo

end StyleTree.Parser
