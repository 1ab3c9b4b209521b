import StyleTree.Proofs.Grammar.Leaf
import StyleTree.Proofs.Grammar.Marks

/-! What readers take. `Taking K x p` says which tokens a run of `x` takes from the front: `p`
relates them to the value. A unit that is cut before an escape counts as an identifier of its own
(`Takes`). `K` is what is known of the tokens all along: it is kept when tokens are read or an
identifier is cut (`Kept`). The lemmas follow the ways to put readers together; a loop takes what
its rounds take (`taking_loop`). -/

namespace StyleTree

open StyleTree.Parser StyleTree.Grammar

/-- Of the first tokens, the second were taken from the front and the third are left. An identifier
can be cut in two, where a unit ends before an escape. -/
inductive Takes : List Token → List Token → List Token → Prop where
  | done {tokens} : Takes tokens [] tokens
  | token {token tokens front rest} : Takes tokens front rest →
      Takes (token :: tokens) (token :: front) rest
  | cut {token unit escape tokens front rest} : token.kind = .ident → unit.kind = .ident →
    escape.kind = .ident →
    token.text.toList = unit.text.toList ++ escape.text.toList →
    Takes (escape :: tokens) front rest → Takes (token :: tokens) (unit :: front) rest

namespace Takes

variable {tokens front more rest rest' : List Token}

theorem of_append (front rest : List Token) : Takes (front ++ rest) front rest := by
  induction front with
  | nil => exact .done
  | cons token front ih => exact .token ih

theorem trans (h : Takes tokens front rest) (h' : Takes rest more rest') :
    Takes tokens (front ++ more) rest' := by
  induction h with
  | done => exact h'
  | token _ ih => exact .token (ih h')
  | cut hk hunit hescape htext _ ih => exact .cut hk hunit hescape htext (ih h')

theorem chars (h : Takes tokens front rest) :
    tokenChars tokens = tokenChars front ++ tokenChars rest := by
  induction h with
  | done => rfl
  | token _ ih => rw [tokenChars_cons, tokenChars_cons, ih, List.append_assoc]
  | cut _ _ _ htext _ ih =>
    rw [tokenChars_cons] at ih ⊢
    rw [htext, List.append_assoc, ih, tokenChars_cons, List.append_assoc]

/-- What is left stood there before, but for the escape of an identifier that is cut. -/
theorem mem_of_mem_rest (h : Takes tokens front rest) :
    ∀ token ∈ rest, token ∈ tokens ∨ token.kind = .ident := by
  induction h with
  | done => exact fun token hmem => .inl hmem
  | token _ ih => exact fun token hmem => (ih token hmem).imp_left (.tail _)
  | cut _ _ hescape _ _ ih =>
    intro token hmem
    rcases ih token hmem with hmem | hk
    · rcases List.mem_cons.1 hmem with rfl | hmem
      · exact .inr hescape
      · exact .inl (.tail _ hmem)
    · exact .inr hk

end Takes

/-- What stays known of tokens while they are read: when some are taken from the front, and when the
first one is an identifier that an escape is left of. -/
class Kept (K : List Token → Prop) : Prop where
  suffix {tokens rest} : K tokens → rest <:+ tokens → K rest
  cut {token escape tokens} : K (token :: tokens) → token.kind = .ident → escape.kind = .ident →
    escape.text.toList.head? = some '\\' → K (escape :: tokens)

namespace Parser

variable {α β σ : Type} {K P Q : List Token → Prop} {x y : Parser α} {f : α → Parser β}
  {p q : α → List Token → Prop} {r : β → List Token → Prop}

/-- From tokens with the property `P`, the reader takes tokens that `p` relates to its value. -/
def TakingIf (K P : List Token → Prop) (x : Parser α) (p : α → List Token → Prop) : Prop :=
  ∀ s a s', K s.rest → P s.rest → x s = .ok a s' →
    K s'.rest ∧ ∃ front, Takes s.rest front s'.rest ∧ p a front

/-- The reader takes tokens that `p` relates to its value. -/
abbrev Taking (K : List Token → Prop) (x : Parser α) (p : α → List Token → Prop) : Prop :=
  TakingIf K (fun _ => True) x p

namespace TakingIf

theorem mono (h : TakingIf K P x p) (hP : ∀ tokens, Q tokens → P tokens) : TakingIf K Q x p :=
  fun s a s' hK hQ => h s a s' hK (hP _ hQ)

theorem always (h : Taking K x p) : TakingIf K P x p :=
  h.mono fun _ _ => trivial

/-- Less is said of what is taken. -/
theorem imp (h : TakingIf K P x p) (hp : ∀ a front, p a front → q a front) : TakingIf K P x q := by
  intro s a s' hK hP hs
  obtain ⟨hK', front, hfront, ha⟩ := h s a s' hK hP hs
  exact ⟨hK', front, hfront, hp a front ha⟩

/-- From no tokens at all. -/
theorem absurd (h : ∀ tokens, K tokens → ¬ P tokens) : TakingIf K P x p :=
  fun _ _ _ hK hP => (h _ hK hP).elim

theorem pure {a : α} (h : p a []) : TakingIf K P (Pure.pure a) p := by
  rintro s _ _ hK - ⟨⟩
  exact ⟨hK, [], .done, h⟩

theorem fail {cause : Cause} : TakingIf K P (Parser.fail cause) p :=
  fun _ _ _ _ _ hs => (fail_ne_ok.1 hs).elim

/-- Something is known of the tokens that the first reader leaves. -/
theorem bindIf (hx : TakingIf K P x p) (hQ : ∀ s a s', P s.rest → x s = .ok a s' → Q s'.rest)
    (hf : ∀ a front, p a front → TakingIf K Q (f a) fun b more => r b (front ++ more)) :
    TakingIf K P (x >>= f) r := by
  intro s b s' hK hP hs
  obtain ⟨a, s₁, ha, hb⟩ := bind_eq_ok.1 hs
  obtain ⟨hK₁, front, hfront, hp⟩ := hx s a s₁ hK hP ha
  obtain ⟨hK', more, hmore, hr⟩ := hf a front hp s₁ b s' hK₁ (hQ s a s₁ hP ha) hb
  exact ⟨hK', front ++ more, hfront.trans hmore, hr⟩

theorem bind (hx : TakingIf K P x p)
    (hf : ∀ a front, p a front → Taking K (f a) fun b more => r b (front ++ more)) :
    TakingIf K P (x >>= f) r :=
  bindIf hx (fun _ _ _ _ _ => trivial) hf

theorem ite {c : Prop} [Decidable c] (hx : c → TakingIf K P x p) (hy : ¬ c → TakingIf K P y p) :
    TakingIf K P (if c then x else y) p := by
  split
  · exact hx ‹_›
  · exact hy ‹_›

/-- Two ways to read what comes first, and what comes after. -/
theorem choose {c : Prop} [Decidable c] (hx : c → TakingIf K P x p) (hy : ¬ c → TakingIf K P y p)
    (hf : ∀ a front, p a front → Taking K (f a) fun b more => r b (front ++ more)) :
    TakingIf K P (if c then x >>= f else y >>= f) r :=
  .ite (fun h => (hx h).bind hf) fun h => (hy h).bind hf

/-- A value that is known comes first. -/
theorem value {a : α} (h : TakingIf K P (f a) r) : TakingIf K P (Pure.pure a >>= f) r := by
  rwa [pure_bind]

/-- A reader that only looks comes first. -/
theorem look {x : Parser α} (see : ParserState → α) (hx : ∀ s, x s = .ok (see s) s)
    (hf : ∀ s, K s.rest → P s.rest → TakingIf K (fun tokens => tokens = s.rest) (f (see s)) r) :
    TakingIf K P (x >>= f) r :=
  fun s b s' hK hP hs => hf s hK hP s b s' hK rfl ((bind_of_ok (hx s)).symm.trans hs)

theorem get {f : ParserState → Parser β}
    (hf : ∀ s, K s.rest → P s.rest → TakingIf K (fun tokens => tokens = s.rest) (f s) r) :
    TakingIf K P (MonadState.get >>= f) r :=
  look id (fun _ => rfl) hf

theorem current? {f : Option Token → Parser β}
    (hf : ∀ token?, TakingIf K (fun tokens => P tokens ∧ tokens.head? = token?) (f token?) r) :
    TakingIf K P (current? >>= f) r :=
  look _ (fun _ => rfl) fun _ _ hP => (hf _).mono fun _ h => ⟨h ▸ hP, h ▸ rfl⟩

theorem kind? {f : Option TokenKind → Parser β}
    (hf : ∀ kind?, TakingIf K (fun tokens => P tokens ∧ tokens.head?.map Token.kind = kind?)
      (f kind?) r) :
    TakingIf K P (kind? >>= f) r :=
  look (fun s => s.rest.head?.map Token.kind) (fun _ => rfl)
    fun _ _ hP => (hf _).mono fun _ h => ⟨h ▸ hP, h ▸ rfl⟩

theorem isAt {kind : TokenKind} {f : Bool → Parser β}
    (hf : ∀ b, TakingIf K (fun tokens =>
      P tokens ∧ (tokens.head?.map Token.kind = some kind ↔ b = true)) (f b) r) :
    TakingIf K P (isAt kind >>= f) r :=
  look (fun s => decide (s.rest.head?.map Token.kind = some kind)) (fun _ => rfl) fun s _ hP =>
    (hf _).mono fun tokens h => ⟨h ▸ hP, by rw [h, decide_eq_true_iff]⟩

theorem lookup? {i : Nat} {f : Option Token → Parser β}
    (hf : ∀ token?, TakingIf K (fun tokens => P tokens ∧ tokens[i]? = token?) (f token?) r) :
    TakingIf K P (lookup? i >>= f) r :=
  look (fun s => s.rest[i]?) (fun _ => rfl) fun _ _ hP => (hf _).mono fun _ h => ⟨h ▸ hP, h ▸ rfl⟩

theorem lookupKind {i : Nat} {kind : TokenKind} {f : Bool → Parser β}
    (hf : ∀ b, TakingIf K (fun tokens =>
      P tokens ∧ (tokens[i]?.map Token.kind = some kind ↔ b = true)) (f b) r) :
    TakingIf K P (lookupKind i kind >>= f) r :=
  look (fun s => decide (s.rest[i]?.map Token.kind = some kind)) (fun _ => rfl) fun s _ hP =>
    (hf _).mono fun tokens h => ⟨h ▸ hP, by rw [h, decide_eq_true_iff]⟩

theorem here {f : Option Nat → Parser β} (hf : ∀ info, TakingIf K P (f info) r) :
    TakingIf K P (here >>= f) r :=
  look (fun s => s.rest.head?.map Token.start) (fun _ => rfl)
    fun _ _ hP => (hf _).mono fun _ h => h ▸ hP

end TakingIf

/-! ### Loops -/

/-- What a round takes is joined to what is taken from its state on. -/
def Round.Joins (inv : σ → List α → σ → List Token → Prop) (st : σ) (front : List Token) :
    Round σ α → Prop
  | .stop => inv st [] st front
  | .next items st' =>
    ∀ later last more, inv st' later last more → inv st (items ++ later) last (front ++ more)

theorem Rounds.taking {round : σ → Token → Parser (Round σ α)}
    {inv : σ → List α → σ → List Token → Prop} {st last : σ} {s s' : ParserState} {items : List α}
    (h : Rounds round st s items last s') (hnil : ∀ st, inv st [] st [])
    (hround : ∀ st token, TakingIf K (fun tokens => tokens.head? = some token) (round st token)
      fun result front => result.Joins inv st front)
    (hK : K s.rest) :
    K s'.rest ∧ ∃ front, Takes s.rest front s'.rest ∧ inv st items last front := by
  induction h with
  | done => exact ⟨hK, [], .done, hnil _⟩
  | stop hrest hs => exact hround _ _ _ _ _ hK (by rw [hrest]; rfl) hs
  | next hrest hs _ ih =>
    obtain ⟨hK₁, front, hfront, hjoins⟩ := hround _ _ _ _ _ hK (by rw [hrest]; rfl) hs
    obtain ⟨hK', more, hmore, hinv⟩ := ih hK₁
    exact ⟨hK', front ++ more, hfront.trans hmore, hjoins _ _ _ hinv⟩

theorem taking_loop {round : σ → Token → Parser (Round σ α)}
    (inv : σ → List α → σ → List Token → Prop) {st : σ} (hnil : ∀ st, inv st [] st [])
    (hround : ∀ st token, TakingIf K (fun tokens => tokens.head? = some token) (round st token)
      fun result front => result.Joins inv st front) :
    TakingIf K P (loop round st) fun result front => inv st result.1 result.2 front :=
  fun _ _ _ hK _ hs => (rounds_of_loop hs).taking hnil hround hK

/-! ### Readers of tokens -/

theorem taking_expectWord (word : String) :
    TakingIf K P (expectWord word) fun _ front => front = [] := by
  intro s _ s' hK _ hs
  obtain ⟨rfl, -⟩ := expectWord_eq_ok.1 hs
  exact ⟨hK, [], .done, rfl⟩

/-- A word that was looked for is there. -/
theorem head?_of_expectWord {word : String} {s s' : ParserState} {u : Unit}
    (h : expectWord word s = .ok u s') :
    ∃ token, s'.rest.head? = some token ∧ token.kind = .ident ∧ token.spells word = true := by
  obtain ⟨rfl, token, rest, hrest, hk, hspells⟩ := expectWord_eq_ok.1 h
  exact ⟨token, by rw [hrest]; rfl, hk, hspells⟩

variable [Kept K]

/-- A reader whose tokens are known by their text. -/
theorem taking_of_spanning {w : α → List Char → Prop} (hx : Spanning x w)
    (hK : ∀ tokens, K tokens → Spelled tokens) :
    TakingIf K P x fun a front => w a (tokenChars front) := by
  intro s a s' hs _ ha
  obtain ⟨front, hfront, hw⟩ := hx s a s' (hK _ hs) ha
  exact ⟨Kept.suffix hs ⟨front, hfront.symm⟩, front, hfront ▸ .of_append front _, hw⟩

theorem takingIf_takeMany (count : Nat) : TakingIf K P (takeMany count) fun _ front =>
    ∃ tokens, K tokens ∧ P tokens ∧ front = tokens.take count := by
  rintro s _ _ hK hP ⟨⟩
  have htakes := Takes.of_append (s.rest.take count) (s.rest.drop count)
  rw [List.take_append_drop] at htakes
  exact ⟨Kept.suffix hK (List.drop_suffix _ _), _, htakes, s.rest, hK, hP, rfl⟩

theorem takingIf_advance :
    TakingIf K P advance fun _ front => ∃ tokens, K tokens ∧ P tokens ∧ front = tokens.take 1 := by
  rintro ⟨_ | ⟨token, rest⟩, discarded⟩ _ _ hK hP ⟨⟩
  · exact ⟨hK, [], .done, [], hK, hP, rfl⟩
  · exact ⟨Kept.suffix hK (List.suffix_cons token rest), [token], .token .done, _, hK, hP, rfl⟩

theorem takingIf_take :
    TakingIf K P take fun _ front => ∃ tokens, K tokens ∧ P tokens ∧ front = tokens.take 1 := by
  rintro s _ _ hK hP ⟨⟩
  exact takingIf_advance s _ _ hK hP run_advance

theorem takes_takeWhile (p : Token → Bool) (tokens : List Token) :
    Takes tokens (tokens.takeWhile p) (tokens.dropWhile p) := by
  have htakes := Takes.of_append (tokens.takeWhile p) (tokens.dropWhile p)
  rwa [List.takeWhile_append_dropWhile] at htakes

theorem takingIf_takeWhile (p : Token → Bool) :
    TakingIf K P (Parser.takeWhile p) fun _ front => ∀ token ∈ front, p token = true := by
  intro s _ _ hK _ hs
  rw [run_takeWhile] at hs
  obtain ⟨-, rfl⟩ := EStateM.Result.ok.inj hs
  exact ⟨Kept.suffix hK (List.dropWhile_suffix _), _, takes_takeWhile p s.rest,
    fun token hmem => List.mem_takeWhile_imp hmem⟩

theorem taking_skipGaps :
    TakingIf K P skipGaps fun _ front => ∀ token ∈ front, isGap token = true := by
  rintro s _ _ hK - ⟨⟩
  exact ⟨Kept.suffix hK (List.dropWhile_suffix _), _, takes_takeWhile isGap s.rest,
    fun token hmem => List.mem_takeWhile_imp hmem⟩

theorem taking_expect (kind : TokenKind) :
    TakingIf K P (expect kind) fun _ front => ∃ token, front = [token] ∧ token.kind = kind := by
  intro s _ s' hK _ hs
  obtain ⟨token, rest, hrest, hk, rfl⟩ := expect_eq_ok.1 hs
  exact ⟨Kept.suffix hK (hrest ▸ List.suffix_cons token rest), [token],
    hrest ▸ .of_append [token] _, token, rfl, hk⟩

/-- A unit is an identifier, maybe the front of one that is cut before an escape. -/
theorem takingIf_readUnit {token : Token} (hP : ∀ tokens, P tokens → tokens.head? = some token)
    (hk : token.kind = .ident) : TakingIf K P (readUnit token) fun unit front =>
      ∃ token', front = [token'] ∧ token'.kind = .ident ∧ token'.text = unit := by
  intro s unit s' hK hat hs
  obtain ⟨rest, hrest⟩ := List.head?_eq_some_iff.1 (hP _ hat)
  rcases readUnit_cases token with hwhole | ⟨u, escape, htext, hunit, hne⟩
  · rw [readUnit_whole hrest hwhole] at hs
    obtain ⟨rfl, rfl⟩ := EStateM.Result.ok.inj hs
    exact ⟨Kept.suffix hK (hrest ▸ List.suffix_cons token rest), [token],
      hrest ▸ .of_append [token] _, token, rfl, hk, rfl⟩
  · rw [readUnit_cut hrest htext hunit hne] at hs
    obtain ⟨rfl, rfl⟩ := EStateM.Result.ok.inj hs
    rw [hrest] at hK ⊢
    refine ⟨Kept.cut hK hk hk (by simp), [⟨.ident, String.ofList u, token.start⟩],
      .cut hk rfl ?_ ?_ .done, _, rfl, rfl, rfl⟩
    · exact hk
    · simp [htext]

end Parser
end StyleTree
