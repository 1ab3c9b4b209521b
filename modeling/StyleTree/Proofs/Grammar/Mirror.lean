import StyleTree.Proofs.Grammar.Gives
import StyleTree.Proofs.Grammar.Marks
import StyleTree.Proofs.Grammar.Words

/-! Two runs over tokens that look alike. `Mirrors L x y view` says that a run of `y` mirrors a run
of `x`: it gives a value with the same view and leaves tokens that again look alike, or it fails for
the same cause. There are two ways to look alike (`Likeness`): the tokens agree but for the text of
blanks, or they agree up to a place where the first run ends, maybe after a blank, and other tokens
follow in the second run. In the latter case a reader could look past that place; it does not as
long as a fence is left before it (`Likeness.Live`), for no name, number or look-ahead goes past a
fence.

The lemmas follow the ways to put readers together: sequences, choices and loops. The readers of the
second run may read deeper nested brackets, so a first run that gets stuck is not mirrored. -/

namespace StyleTree

open StyleTree.Parser StyleTree.Grammar

/-! ## Tokens that look alike -/

/-- Kinds that no name, number or look-ahead goes past. -/
def TokenKind.isFence : TokenKind → Bool
  | .leftBrace | .rightBrace | .semicolon | .rightParen | .rightBracket => true
  | _ => false

/-- How the tokens of a second run differ from those of a first one, apart from their offsets. -/
inductive Likeness where
  /-- Blanks can have any text. -/
  | blanks
  /-- Where the first run ends with the tokens of a gap, the others follow. -/
  | followed (gap tail : List Token)

namespace Likeness

/-- The tokens that the first run ends with. -/
def gap : Likeness → List Token
  | blanks => []
  | followed gap _ => gap

/-- The tokens that follow in the second run. -/
def tail : Likeness → List Token
  | blanks => []
  | followed _ tail => tail

/-- Whether the text of such a token is left open. -/
def hides : Likeness → TokenKind → Bool
  | blanks, .whitespace => true
  | _, _ => false

/-- What is the same of a token in both runs: its kind, and its text unless that is left open. -/
def face (L : Likeness) (token : Token) : TokenKind × Option String :=
  (token.kind, if L.hides token.kind then none else some token.text)

variable {L : Likeness} {token token' : Token} {tokens tokens' rest : List Token}

theorem kind_eq (h : L.face token' = L.face token) : token'.kind = token.kind :=
  congrArg Prod.fst h

theorem map_kind_eq {o o' : Option Token} (h : o'.map L.face = o.map L.face) :
    o'.map Token.kind = o.map Token.kind := by
  have hkind := congrArg (Option.map Prod.fst) h
  rwa [Option.map_map, Option.map_map] at hkind

theorem hides_eq_false {kind : TokenKind} (h : kind ≠ .whitespace) : L.hides kind = false := by
  unfold hides
  split
  · exact absurd rfl h
  · rfl

theorem hides_followed (hL : L ≠ blanks) (kind : TokenKind) : L.hides kind = false := by
  cases L with
  | blanks => exact absurd rfl hL
  | followed => rfl

theorem text_eq (h : L.face token' = L.face token) (hk : L.hides token.kind = false) :
    token'.text = token.text := by
  have htext := congrArg Prod.snd h
  simpa only [face, kind_eq h, hk, Bool.false_eq_true, if_false, Option.some.injEq] using htext

theorem spells_eq (h : L.face token' = L.face token) (hk : token.kind ≠ .whitespace)
    (word : String) :
    token'.spells word = token.spells word := by
  rw [Token.spells, Token.spells, text_eq h (hides_eq_false hk)]

/-- Tokens of the same kind and text look alike. -/
theorem map_face_of_core {tokens tokens' gap tail : List Token}
    (h : tokens'.map Token.core = tokens.map Token.core) :
    tokens'.map (followed gap tail).face = tokens.map (followed gap tail).face := by
  have hface : (followed gap tail).face =
      (fun core => (core.1, some (String.ofList core.2))) ∘ Token.core := by
    funext token
    simp [face, hides]
  rw [hface, ← List.map_map, h, List.map_map]

/-- Each parenthesis that is opened is closed. -/
def ParensClose (tokens : List Token) : Prop :=
  ∀ opening rest, opening :: rest <:+ tokens → opening.kind = .leftParen →
    balancedLength 0 rest < rest.length

theorem ParensClose.of_suffix (h : ParensClose tokens) (hsuffix : rest <:+ tokens) :
    ParensClose rest :=
  fun opening more hmore => h opening more (hmore.trans hsuffix)

/-- The tokens of the second run are like those of the first one, and what the readers of the first
run rely on. -/
structure Near (L : Likeness) (tokens tokens' : List Token) : Prop where
  faces : ∃ core front, tokens = core ++ L.gap ∧ tokens' = front ++ L.tail ∧
    front.map L.face = core.map L.face
  blank : ∀ token ∈ L.gap, token.kind = .whitespace
  short : L.gap.length ≤ L.tail.length
  spelled : Spelled tokens
  words : L = blanks → LacksWord "expression" tokens ∧ LacksWord "progid" tokens
  closed : L.tail ≠ [] → ParensClose tokens

/-- No reader of the first run looks past the end of its tokens. -/
def Live (L : Likeness) (tokens : List Token) : Prop :=
  L.tail = [] ∨ ∃ token ∈ tokens, token.kind.isFence = true

namespace Near

/-- The first run does not end with a gap unless tokens follow in the second one. -/
theorem gap_eq_nil (h : L.Near tokens tokens') (htail : L.tail = []) : L.gap = [] :=
  List.length_eq_zero_iff.1 (Nat.le_zero.1 (by simpa [htail] using h.short))

theorem length_le (h : L.Near tokens tokens') : tokens.length ≤ tokens'.length := by
  obtain ⟨core, front, rfl, rfl, hfaces⟩ := h.faces
  have := congrArg List.length hfaces
  simp only [List.length_map] at this
  rw [List.length_append, List.length_append, this]
  exact Nat.add_le_add_left h.short _

theorem length_eq (h : L.Near tokens tokens') (htail : L.tail = []) :
    tokens'.length = tokens.length := by
  have hgap := h.gap_eq_nil htail
  obtain ⟨core, front, rfl, rfl, hfaces⟩ := h.faces
  simpa [htail, hgap] using congrArg List.length hfaces

/-- The gap comes after a token that is no blank. -/
theorem room (front : List Token) (h : L.Near (front ++ token :: rest) tokens')
    (hk : token.kind ≠ .whitespace) :
    front.length + L.gap.length < (front ++ token :: rest).length := by
  obtain ⟨core, -, hcore, -, -⟩ := h.faces
  by_contra hlt
  have hle : core.length ≤ front.length := by
    have hlength := congrArg List.length hcore
    rw [List.length_append, List.length_append] at hlength
    rw [List.length_append] at hlt
    omega
  have hmem : token ∈ L.gap := by
    have hdrop := congrArg (List.drop front.length) hcore
    rw [List.drop_left, List.drop_append, List.drop_eq_nil_of_le hle, List.nil_append] at hdrop
    exact List.mem_of_mem_drop (hdrop ▸ List.mem_cons_self)
  exact hk (h.blank token hmem)

/-- Where a fence is left, the gap is still to come. -/
theorem room_of_live (h : L.Near tokens tokens') {n : Nat} (hlive : L.Live (tokens.drop n)) :
    n + L.gap.length < tokens.length ∨ L.tail = [] := by
  refine hlive.symm.imp_left fun ⟨fence, hmem, hfence⟩ => ?_
  obtain ⟨front, rest, hsplit⟩ := List.append_of_mem hmem
  have htokens : tokens = (tokens.take n ++ front) ++ fence :: rest := by
    rw [List.append_assoc, ← hsplit, List.take_append_drop]
  have hle : n ≤ (tokens.take n ++ front).length := by
    have hlt := List.length_pos_of_mem hmem
    rw [List.length_drop] at hlt
    rw [List.length_append, List.length_take]
    omega
  rw [htokens] at h ⊢
  have hroom := h.room _ fun hk => by rw [hk] at hfence; exact nomatch hfence
  omega

theorem room_of_head (h : L.Near tokens tokens') (hlive : L.Live tokens) :
    L.gap.length < tokens.length ∨ L.tail = [] := by
  simpa using h.room_of_live (n := 0) hlive

theorem of_suffix (h : L.Near tokens tokens') {n : Nat}
    (hn : n + L.gap.length ≤ tokens.length ∨ L.tail = []) :
    L.Near (tokens.drop n) (tokens'.drop n) := by
  have hsuffix := List.drop_suffix n tokens
  refine ⟨?_, h.blank, h.short, h.spelled.of_suffix hsuffix, fun hL => ?_,
    fun hne => (h.closed hne).of_suffix hsuffix⟩
  · rcases hn with hn | htail
    · obtain ⟨core, front, rfl, rfl, hfaces⟩ := h.faces
      have hlength : front.length = core.length := by simpa using congrArg List.length hfaces
      rw [List.length_append] at hn
      refine ⟨core.drop n, front.drop n, ?_, ?_, by rw [List.map_drop, hfaces, List.map_drop]⟩
      · rw [List.drop_append_of_le_length (by omega)]
      · rw [List.drop_append_of_le_length (by omega)]
    · have hgap := h.gap_eq_nil htail
      obtain ⟨core, front, rfl, rfl, hfaces⟩ := h.faces
      refine ⟨core.drop n, front.drop n, ?_, ?_, by rw [List.map_drop, hfaces, List.map_drop]⟩
      · rw [hgap, List.append_nil, List.append_nil]
      · rw [htail, List.append_nil, List.append_nil]
  · obtain ⟨hscript, hfilter⟩ := h.words hL
    exact ⟨hscript.of_suffix hsuffix, hfilter.of_suffix hsuffix⟩

theorem cons (h : L.Near (token :: tokens) tokens')
    (hroom : L.gap.length < (token :: tokens).length ∨ L.tail = []) :
    ∃ token' rest, tokens' = token' :: rest ∧ L.face token' = L.face token ∧
      L.Near tokens rest := by
  have hrest := h.of_suffix (n := 1) (hroom.imp_left fun h => by omega)
  have hgap := h.gap_eq_nil
  obtain ⟨core, front, hcore, rfl, hfaces⟩ := h.faces
  cases core with
  | nil =>
    rcases hroom with hroom | htail
    · exact absurd hroom (by rw [hcore]; exact Nat.lt_irrefl _)
    · rw [hgap htail] at hcore
      exact nomatch hcore
  | cons first core =>
    obtain ⟨rfl, -⟩ := List.cons.inj hcore
    obtain ⟨token', rest, rfl, htoken, -⟩ := List.map_eq_cons_iff.1 hfaces
    exact ⟨token', rest ++ L.tail, rfl, htoken, hrest⟩

theorem nil (h : L.Near [] tokens') : tokens' = L.tail := by
  obtain ⟨core, front, hcore, rfl, hfaces⟩ := h.faces
  obtain ⟨rfl, -⟩ := List.append_eq_nil_iff.1 hcore.symm
  obtain rfl := List.map_eq_nil_iff.1 hfaces
  rfl

/-- What the readers see of the token at a place before the gap. -/
theorem getElem? (h : L.Near tokens tokens') {n : Nat}
    (hn : n + L.gap.length < tokens.length ∨ L.tail = []) :
    tokens'[n]?.map L.face = tokens[n]?.map L.face := by
  have hgap := h.gap_eq_nil
  obtain ⟨core, front, rfl, rfl, hfaces⟩ := h.faces
  have hlength : front.length = core.length := by simpa using congrArg List.length hfaces
  rw [← List.getElem?_map, ← List.getElem?_map, List.map_append, List.map_append, hfaces]
  rcases hn with hn | htail
  · rw [List.length_append] at hn
    rw [List.getElem?_append_left (by rw [List.length_map]; omega),
      List.getElem?_append_left (by rw [List.length_map]; omega)]
  · rw [htail, hgap htail]

theorem head? (h : L.Near tokens tokens') (hlive : L.Live tokens) :
    tokens'.head?.map L.face = tokens.head?.map L.face := by
  rw [List.head?_eq_getElem?, List.head?_eq_getElem?]
  exact h.getElem? (h.room_of_live (n := 0) hlive)

theorem kind? (h : L.Near tokens tokens') (hlive : L.Live tokens) :
    tokens'.head?.map Token.kind = tokens.head?.map Token.kind :=
  map_kind_eq (h.head? hlive)

/-- Taking tokens from the front takes the same ones. -/
theorem take (h : L.Near tokens tokens') {n : Nat}
    (hn : n + L.gap.length ≤ tokens.length ∨ L.tail = []) :
    (tokens'.take n).map L.face = (tokens.take n).map L.face := by
  have hgap := h.gap_eq_nil
  obtain ⟨core, front, rfl, rfl, hfaces⟩ := h.faces
  have hlength : front.length = core.length := by simpa using congrArg List.length hfaces
  rcases hn with hn | htail
  · rw [List.length_append] at hn
    rw [List.take_append_of_le_length (by omega), List.take_append_of_le_length (by omega),
      List.map_take, hfaces, List.map_take]
  · rw [htail, hgap htail, List.append_nil, List.append_nil, List.map_take, hfaces, List.map_take]

end Near

theorem Live.of_suffix (h : L.Live rest) (hsuffix : rest.map Token.kind <:+ tokens.map Token.kind) :
    L.Live tokens := by
  refine h.imp_right fun ⟨token, hmem, hfence⟩ => ?_
  obtain ⟨token', hmem', hk⟩ := List.mem_map.1 (hsuffix.subset (List.mem_map_of_mem hmem))
  exact ⟨token', hmem', hk ▸ hfence⟩

/-- Where a token is left that is no fence, another one follows it. -/
theorem Live.of_cons (h : L.Live (token :: tokens)) (hk : token.kind.isFence = false) :
    L.Live tokens := by
  refine h.imp_right fun ⟨fence, hmem, hfence⟩ => ?_
  rcases List.mem_cons.1 hmem with rfl | hmem
  · exact nomatch hk.symm.trans hfence
  · exact ⟨fence, hmem, hfence⟩

/-- The token after one that is no fence. -/
theorem Near.second? (h : L.Near tokens tokens')
    (hfirst : ∃ token rest, tokens = token :: rest ∧ token.kind.isFence = false)
    (hlive : L.Live tokens) :
    tokens'[1]?.map L.face = tokens[1]?.map L.face := by
  obtain ⟨token, rest, rfl, hk⟩ := hfirst
  exact h.getElem? (h.room_of_live (n := 1) (hlive.of_cons hk))

/-- Tokens are passed over alike up to the first one that does not satisfy `p`. -/
theorem Near.length_takeWhile {p : Token → Bool} (h : L.Near tokens tokens')
    (hp : ∀ token token', L.face token' = L.face token → p token' = p token)
    (hlive : L.Live (tokens.dropWhile p)) :
    (tokens'.takeWhile p).length = (tokens.takeWhile p).length := by
  induction tokens generalizing tokens' with
  | nil =>
    have htail : L.tail = [] := hlive.resolve_right (by simp)
    rw [h.nil, htail]
  | cons token tokens ih =>
    have hroom := h.room_of_head (hlive.of_suffix ((List.dropWhile_suffix p).map _))
    obtain ⟨token', rest, rfl, hface, hrest⟩ := h.cons hroom
    cases hk : p token with
    | false => simp [hk, hp token token' hface]
    | true =>
      rw [List.dropWhile_cons_of_pos hk] at hlive
      simp [hk, hp token token' hface, ih hrest hlive]

/-- Where a fence is left after passing over tokens, the gap is still to come. -/
theorem Near.room_of_dropWhile {p : Token → Bool} (h : L.Near tokens tokens')
    (hlive : L.Live (tokens.dropWhile p)) :
    (tokens.takeWhile p).length + L.gap.length ≤ tokens.length ∨ L.tail = [] := by
  rw [← drop_length_takeWhile] at hlive
  exact (h.room_of_live hlive).imp_left Nat.le_of_lt

theorem map_text_eq {tokens tokens' : List Token} (h : tokens'.map L.face = tokens.map L.face)
    (hk : ∀ token ∈ tokens, L.hides token.kind = false) :
    tokens'.map Token.text = tokens.map Token.text := by
  induction tokens generalizing tokens' with
  | nil => rw [List.map_eq_nil_iff.1 h]
  | cons token tokens ih =>
    obtain ⟨token', rest, rfl, hface, hrest⟩ := List.map_eq_cons_iff.1 h
    rw [List.map_cons, List.map_cons, text_eq hface (hk token (.head _)),
      ih hrest fun other hmem => hk other (.tail _ hmem)]

end Likeness

/-! ## Readers -/

namespace Parser

variable {α β γ δ σ ς : Type} {L : Likeness} {P Q : List Token → Prop} {x y : Parser α}
  {f g : α → Parser β} {view : α → γ} {view' : β → δ} {s s' t : ParserState}

theorem bind_eq_error {e : Failure} : (x >>= f) s = .error e s' ↔
    x s = .error e s' ∨ ∃ a s₁, x s = .ok a s₁ ∧ f a s₁ = .error e s' := by
  show (EStateM.bind x f) s = _ ↔ _
  unfold EStateM.bind
  cases x s with
  | ok a s₁ => simp
  | error e' s₁ => simp

/-- From tokens with the property `P`, a run of `y` mirrors a run of `x`, whose values have the same
view. Where tokens follow in the second run, the first one only steps over tokens. -/
structure MirrorsIf (L : Likeness) (P : List Token → Prop) (x y : Parser α)
    (view : α → γ) : Prop where
  leaves : L.tail ≠ [] → ∀ {s a s'}, P s.rest → x s = .ok a s' →
    s'.rest.map Token.kind <:+ s.rest.map Token.kind
  follows : ∀ {s t}, P s.rest → L.Near s.rest t.rest → L.Live s.rest → ∀ {a s'}, x s = .ok a s' →
    L.Live s'.rest → ∃ b t', y t = .ok b t' ∧ view b = view a ∧ L.Near s'.rest t'.rest
  fails : L.tail = [] → ∀ {s t}, P s.rest → L.Near s.rest t.rest → ∀ {e s'}, x s = .error e s' →
    e.cause ≠ .stuck → ∃ e' t', y t = .error e' t' ∧ e'.cause = e.cause

/-- A run of `y` mirrors a run of `x`. -/
abbrev Mirrors (L : Likeness) (x y : Parser α) (view : α → γ) : Prop :=
  MirrorsIf L (fun _ => True) x y view

/-- What can be seen of the tokens that are left. -/
def survey (see : List Token → α) : Parser α :=
  return see (← get).rest

namespace MirrorsIf

theorem mono (h : MirrorsIf L P x y view) (hP : ∀ tokens, Q tokens → P tokens) :
    MirrorsIf L Q x y view :=
  ⟨fun hL _ _ _ hs => h.leaves hL (hP _ hs), fun hs => h.follows (hP _ hs),
    fun hL _ _ hs => h.fails hL (hP _ hs)⟩

/-- A run that is mirrored from all tokens. -/
theorem always (h : Mirrors L x y view) : MirrorsIf L P x y view :=
  h.mono fun _ _ => trivial

theorem pure {a b : α} (h : view b = view a) : MirrorsIf L P (pure a) (pure b) view where
  leaves _ s _ s' _ hs := by
    obtain ⟨-, rfl⟩ := EStateM.Result.ok.inj hs
    exact List.suffix_refl _
  follows := by
    rintro s t - hnear - _ _ ⟨⟩ -
    exact ⟨b, t, rfl, h, hnear⟩
  fails _ _ _ _ _ _ _ hs := nomatch hs

theorem fail {cause : Cause} : MirrorsIf L P (fail cause) (fail cause) view where
  leaves _ _ _ _ _ hs := (fail_ne_ok.1 hs).elim
  follows _ _ _ _ _ hs := (fail_ne_ok.1 hs).elim
  fails := by
    rintro - s t - - _ _ ⟨⟩ -
    exact ⟨_, t, rfl, rfl⟩

/-- A reader that gets stuck is mirrored by every reader. -/
theorem stuck : MirrorsIf L P (Parser.fail .stuck) y view where
  leaves _ _ _ _ _ hs := (fail_ne_ok.1 hs).elim
  follows _ _ _ _ _ hs := (fail_ne_ok.1 hs).elim
  fails := by
    rintro - s t - - _ _ ⟨⟩ hstuck
    exact absurd rfl hstuck

/-- A sequence of readers, where `R` is known of the value of the first one. -/
theorem bindGiven {R : α → Prop} (hx : MirrorsIf L P x y view) (hR : L.tail ≠ [] → ∀ a, R a)
    (hgives : ∀ {s t : ParserState} {a s'}, L.Near s.rest t.rest → x s = .ok a s' → R a)
    (hf : ∀ a b, R a → view b = view a → Mirrors L (f a) (g b) view') :
    MirrorsIf L P (x >>= f) (y >>= g) view' where
  leaves hL s b s' hP hs := by
    obtain ⟨a, s₁, ha, hb⟩ := bind_eq_ok.1 hs
    exact ((hf a a (hR hL a) rfl).leaves hL trivial hb).trans (hx.leaves hL hP ha)
  follows := by
    intro s t hP hnear hlive c s' hs hlive'
    obtain ⟨a, s₁, ha, hb⟩ := bind_eq_ok.1 hs
    have hgiven := hgives hnear ha
    have hlive₁ : L.Live s₁.rest := by
      by_cases hL : L.tail = []
      · exact .inl hL
      · exact hlive'.of_suffix ((hf a a hgiven rfl).leaves hL trivial hb)
    obtain ⟨a', t₁, ha', hview, hnear₁⟩ := hx.follows hP hnear hlive ha hlive₁
    obtain ⟨b', t', hb', hview', hnear'⟩ :=
      (hf a a' hgiven hview).follows trivial hnear₁ hlive₁ hb hlive'
    exact ⟨b', t', bind_eq_ok.2 ⟨a', t₁, ha', hb'⟩, hview', hnear'⟩
  fails := by
    intro hL s t hP hnear e s' hs hstuck
    rcases bind_eq_error.1 hs with hs | ⟨a, s₁, ha, hs⟩
    · obtain ⟨e', t', ht, he⟩ := hx.fails hL hP hnear hs hstuck
      exact ⟨e', t', bind_eq_error.2 (.inl ht), he⟩
    · obtain ⟨a', t₁, ha', hview, hnear₁⟩ := hx.follows hP hnear (.inl hL) ha (.inl hL)
      obtain ⟨e', t', ht, he⟩ := (hf a a' (hgives hnear ha) hview).fails hL trivial hnear₁ hs hstuck
      exact ⟨e', t', bind_eq_error.2 (.inr ⟨a', t₁, ha', ht⟩), he⟩

theorem bind (hx : MirrorsIf L P x y view)
    (hf : ∀ a b, view b = view a → Mirrors L (f a) (g b) view') :
    MirrorsIf L P (x >>= f) (y >>= g) view' :=
  hx.bindGiven (R := fun _ => True) (fun _ _ => trivial) (fun _ _ => trivial) fun a b _ => hf a b

/-- A reader comes first whose value can be told from what is the same in both runs. -/
theorem step {x y : Parser α} {f g : α → Parser β} (hx : MirrorsIf L P x y fun a => a)
    (hf : ∀ a, Mirrors L (f a) (g a) view') : MirrorsIf L P (x >>= f) (y >>= g) view' :=
  hx.bind fun a _ h => h ▸ hf a

theorem ite {c c' : Prop} [Decidable c] [Decidable c'] {x' y' : Parser α} (hc : c' ↔ c)
    (hx : c → MirrorsIf L P x x' view) (hy : ¬ c → MirrorsIf L P y y' view) :
    MirrorsIf L P (if c then x else y) (if c' then x' else y') view := by
  by_cases h : c
  · rw [if_pos h, if_pos (hc.2 h)]
    exact hx h
  · rw [if_neg h, if_neg (mt hc.1 h)]
    exact hy h

/-- Two ways to read what comes first, and what comes after. -/
theorem choose {c c' : Prop} [Decidable c] [Decidable c'] {x' y' : Parser α} (hc : c' ↔ c)
    (hx : c → MirrorsIf L P x x' view) (hy : ¬ c → MirrorsIf L P y y' view)
    (hf : ∀ a b, view b = view a → Mirrors L (f a) (g b) view') :
    MirrorsIf L P (if c then x >>= f else y >>= f) (if c' then x' >>= g else y' >>= g) view' :=
  .ite hc (fun h => (hx h).bind hf) fun h => (hy h).bind hf

/-- A value that is known comes first. -/
theorem value {a b : α} (h : MirrorsIf L P (f a) (g b) view') :
    MirrorsIf L P (Pure.pure a >>= f) (Pure.pure b >>= g) view' := by
  rwa [pure_bind, pure_bind]

/-! ### Readers that look -/

/-- A reader that only looks comes first; `R` relates what it sees in the two runs. Where tokens
follow in the second run, it is enough if `R` holds when the first run succeeds. -/
theorem lookIf {x : Parser α} (see : List Token → α) (hx : ∀ s, x s = .ok (see s.rest) s)
    {R : α → α → Prop} (hrefl : L.tail ≠ [] → ∀ a, R a a)
    (hR : ∀ {s t : ParserState}, P s.rest → L.Near s.rest t.rest → L.Live s.rest →
      (L.tail = [] ∨ ∃ b s', f (see s.rest) s = .ok b s') → R (see s.rest) (see t.rest))
    (hf : ∀ a b, R a b → MirrorsIf L (fun tokens => P tokens ∧ see tokens = a) (f a) (g b) view') :
    MirrorsIf L P (x >>= f) (x >>= g) view' where
  leaves hL s b s' hP hs := by
    rw [bind_of_ok (hx s)] at hs
    exact (hf _ _ (hrefl hL _)).leaves hL ⟨hP, rfl⟩ hs
  follows := by
    intro s t hP hnear hlive b s' hs hlive'
    rw [bind_of_ok (hx s)] at hs
    obtain ⟨b', t', hb', hview, hnear'⟩ :=
      (hf _ _ (hR hP hnear hlive (.inr ⟨b, s', hs⟩))).follows ⟨hP, rfl⟩ hnear hlive hs hlive'
    exact ⟨b', t', (bind_of_ok (hx t)).trans hb', hview, hnear'⟩
  fails := by
    intro hL s t hP hnear e s' hs hstuck
    rw [bind_of_ok (hx s)] at hs
    obtain ⟨e', t', ht, he⟩ :=
      (hf _ _ (hR hP hnear (.inl hL) (.inl hL))).fails hL ⟨hP, rfl⟩ hnear hs hstuck
    exact ⟨e', t', (bind_of_ok (hx t)).trans ht, he⟩

/-- A reader that only looks comes first; `R` relates what it sees in the two runs. -/
theorem look {x : Parser α} (see : List Token → α) (hx : ∀ s, x s = .ok (see s.rest) s)
    {R : α → α → Prop} (hrefl : ∀ a, R a a)
    (hR : ∀ {tokens tokens'}, P tokens → L.Near tokens tokens' → L.Live tokens →
      R (see tokens) (see tokens'))
    (hf : ∀ a b, R a b → MirrorsIf L (fun tokens => P tokens ∧ see tokens = a) (f a) (g b) view') :
    MirrorsIf L P (x >>= f) (x >>= g) view' :=
  lookIf see hx (fun _ => hrefl) (fun hP hnear hlive _ => hR hP hnear hlive) hf

/-- Both runs see the same. -/
theorem survey {see : List Token → α}
    (hsee : ∀ {tokens tokens'}, P tokens → L.Near tokens tokens' → L.Live tokens →
      see tokens' = see tokens)
    (hf : ∀ a, MirrorsIf L (fun tokens => P tokens ∧ see tokens = a) (f a) (g a) view') :
    MirrorsIf L P (survey see >>= f) (survey see >>= g) view' :=
  look see (fun _ => rfl) (R := fun a b => b = a) (fun _ => rfl) hsee fun a _ h => h ▸ hf a

theorem here {f g : Option Nat → Parser β}
    (hf : ∀ info info', MirrorsIf L P (f info) (g info') view') :
    MirrorsIf L P (here >>= f) (here >>= g) view' :=
  look (fun tokens => tokens.head?.map Token.start) (fun _ => rfl) (R := fun _ _ => True)
    (fun _ => trivial)
    (fun _ _ _ => trivial) fun info info' _ => (hf info info').mono fun _ h => h.1

theorem kind? {f g : Option TokenKind → Parser β}
    (hf : ∀ k, MirrorsIf L (fun tokens => P tokens ∧ tokens.head?.map Token.kind = k) (f k)
      (g k) view') :
    MirrorsIf L P (kind? >>= f) (kind? >>= g) view' :=
  look (fun tokens => tokens.head?.map Token.kind) (fun _ => rfl) (R := fun a b => b = a)
    (fun _ => rfl)
    (fun _ hnear hlive => hnear.kind? hlive) fun k _ h => h ▸ hf k

theorem isAt {kind : TokenKind} {f g : Bool → Parser β}
    (hf : ∀ b, MirrorsIf L (fun tokens =>
      P tokens ∧ (tokens.head?.map Token.kind = some kind ↔ b = true)) (f b) (g b) view') :
    MirrorsIf L P (isAt kind >>= f) (isAt kind >>= g) view' :=
  look (fun tokens => decide (tokens.head?.map Token.kind = some kind)) (fun _ => rfl)
    (R := fun a b => b = a) (fun _ => rfl) (fun _ hnear hlive => by rw [hnear.kind? hlive])
    fun b _ h => by
      subst h
      exact (hf _).mono fun _ hb => ⟨hb.1, by rw [← hb.2, decide_eq_true_iff]⟩

theorem current? {f g : Option Token → Parser β}
    (hnone : MirrorsIf L (fun tokens => P tokens ∧ tokens = []) (f none) (g none) view')
    (hsome : ∀ token token', L.face token' = L.face token →
      MirrorsIf L (fun tokens => P tokens ∧ tokens.head? = some token) (f (some token))
        (g (some token'))
        view') : MirrorsIf L P (current? >>= f) (current? >>= g) view' :=
  look List.head? (fun _ => rfl) (R := fun a b => b.map L.face = a.map L.face) (fun _ => rfl)
    (fun _ hnear hlive => hnear.head? hlive) fun a b h => by
      cases a with
      | none =>
        obtain rfl : b = none := by simpa using h
        exact hnone.mono fun _ h => ⟨h.1, List.head?_eq_none_iff.1 h.2⟩
      | some token =>
        obtain ⟨token', rfl, hface⟩ := Option.map_eq_some_iff.1 h
        exact hsome token token' hface

/-- The token after the current one, where that is no fence. -/
theorem lookup? {f g : Option Token → Parser β}
    (hP : ∀ tokens, P tokens → ∃ token rest, tokens = token :: rest ∧ token.kind.isFence = false)
    (hf : ∀ next next' : Option Token, next'.map L.face = next.map L.face →
      MirrorsIf L P (f next) (g next') view') :
    MirrorsIf L P (lookup? 1 >>= f) (lookup? 1 >>= g) view' :=
  look (fun tokens => tokens[1]?) (fun _ => rfl) (R := fun a b => b.map L.face = a.map L.face)
    (fun _ => rfl)
    (fun htokens hnear hlive => hnear.second? (hP _ htokens) hlive)
      fun next next' h => (hf next next' h).mono fun _ h => h.1

theorem lookupKind {kind : TokenKind} {f g : Bool → Parser β}
    (hP : ∀ tokens, P tokens → ∃ token rest, tokens = token :: rest ∧ token.kind.isFence = false)
    (hf : ∀ b, MirrorsIf L (fun tokens =>
      P tokens ∧ (tokens[1]?.map Token.kind = some kind ↔ b = true)) (f b) (g b) view') :
    MirrorsIf L P (lookupKind 1 kind >>= f) (lookupKind 1 kind >>= g) view' :=
  look (fun tokens => decide (tokens[1]?.map Token.kind = some kind)) (fun _ => rfl)
    (R := fun a b => b = a) (fun _ => rfl)
    (fun htokens hnear hlive => by rw [Likeness.map_kind_eq (hnear.second? (hP _ htokens) hlive)])
    fun b _ h => by
      subst h
      exact (hf _).mono fun _ hb => ⟨hb.1, by rw [← hb.2, decide_eq_true_iff]⟩

end MirrorsIf

/-! ### Readers of tokens -/

theorem mirrorsIf_advance : MirrorsIf L P advance advance fun u => u where
  leaves := by
    rintro - s _ _ - ⟨⟩
    exact (List.tail_suffix _).map _
  follows := by
    rintro s t - hnear hlive _ _ ⟨⟩ -
    refine ⟨(), _, rfl, rfl, ?_⟩
    simpa only [List.drop_one] using hnear.of_suffix (n := 1)
      ((hnear.room_of_head hlive).imp_left fun h => by omega)
  fails _ _ _ _ _ _ _ hs := nomatch hs

/-- The text of a token is taken that is no blank. -/
theorem mirrorsIf_take (hP : ∀ tokens, P tokens → tokens.head?.map Token.kind ≠ some .whitespace) :
    MirrorsIf L P take take fun text => text where
  leaves := by
    rintro - s _ _ - ⟨⟩
    exact (List.tail_suffix _).map _
  follows := by
    rintro s t hs hnear hlive _ _ ⟨⟩ hlive'
    obtain ⟨_, _, ⟨⟩, -, hnear'⟩ :=
      mirrorsIf_advance.follows (P := fun _ => True) trivial hnear hlive run_advance hlive'
    refine ⟨_, _, run_take, ?_, hnear'⟩
    have hhead := hnear.head? hlive
    have hk := hP _ hs
    cases hs : s.rest.head? with
    | none =>
      rw [hs] at hhead
      rw [Option.map_eq_none_iff.1 hhead]
    | some token =>
      rw [hs] at hhead hk
      obtain ⟨token', htoken', hface⟩ := Option.map_eq_some_iff.1 hhead
      rw [htoken']
      exact Likeness.text_eq hface (Likeness.hides_eq_false
        fun h => hk (by rw [Option.map_some, h]))
  fails _ _ _ _ _ _ _ hs := nomatch hs

/-- Texts of tokens are taken that are the same in both runs. -/
theorem mirrorsIf_takeMany {count : Nat}
    (hP : ∀ tokens, P tokens → ∀ token ∈ tokens.take count, L.hides token.kind = false) :
    MirrorsIf L P (takeMany count) (takeMany count) fun text => text where
  leaves := by
    rintro - s _ _ - ⟨⟩
    exact (List.drop_suffix _ _).map _
  follows := by
    rintro s t hs hnear hlive _ _ ⟨⟩ hlive'
    have hcount := (hnear.room_of_live hlive').imp_left Nat.le_of_lt
    refine ⟨_, _, run_takeMany _, ?_, hnear.of_suffix hcount⟩
    rw [Likeness.map_text_eq (hnear.take hcount) (hP _ hs)]
  fails _ _ _ _ _ _ _ hs := nomatch hs

/-- Tokens are taken while they satisfy a condition that no blank satisfies. -/
theorem mirrorsIf_takeWhile {p : Token → Bool}
    (hp : ∀ token token', L.face token' = L.face token → p token' = p token)
    (hblank : ∀ token, p token = true → token.kind ≠ .whitespace) :
    MirrorsIf L P (Parser.takeWhile p) (Parser.takeWhile p) fun text => text where
  leaves _ s a s' _ hs := by
    rw [run_takeWhile] at hs
    obtain ⟨-, rfl⟩ := EStateM.Result.ok.inj hs
    exact (List.dropWhile_suffix _).map _
  follows := by
    intro s t _ hnear hlive a s' hs hlive'
    rw [run_takeWhile] at hs
    obtain ⟨rfl, rfl⟩ := EStateM.Result.ok.inj hs
    have hcount := hnear.length_takeWhile hp hlive'
    have hblanks :
        ∀ token ∈ s.rest.take (s.rest.takeWhile p).length, L.hides token.kind = false := by
      rw [take_length_takeWhile]
      exact fun token hmem => Likeness.hides_eq_false (hblank token (List.mem_takeWhile_imp hmem))
    have hroom := hnear.room_of_dropWhile hlive'
    refine ⟨_, _, run_takeWhile p, ?_, ?_⟩
    · rw [← take_length_takeWhile, hcount, Likeness.map_text_eq (hnear.take hroom) hblanks,
        take_length_takeWhile]
    · have hdrop := hnear.of_suffix hroom
      rw [drop_length_takeWhile] at hdrop
      rwa [← drop_length_takeWhile p t.rest, hcount]
  fails _ s _ _ _ _ _ hs := by
    rw [run_takeWhile] at hs
    exact nomatch hs

theorem mirrorsIf_skipGaps : MirrorsIf L P skipGaps skipGaps fun u => u where
  leaves := by
    rintro - s _ _ - ⟨⟩
    exact (List.dropWhile_suffix _).map _
  follows := by
    rintro s t - hnear hlive _ _ ⟨⟩ hlive'
    have hcount := hnear.length_takeWhile (p := isGap)
      (fun token token' hface => by rw [isGap, isGap, Likeness.kind_eq hface]) hlive'
    have hdrop := hnear.of_suffix (hnear.room_of_dropWhile hlive')
    refine ⟨(), _, run_skipGaps, rfl, ?_⟩
    rw [drop_length_takeWhile] at hdrop
    rwa [← drop_length_takeWhile isGap t.rest, hcount]
  fails _ _ _ _ _ _ _ hs := nomatch hs

theorem mirrorsIf_expect (kind : TokenKind) :
    MirrorsIf L P (expect kind) (expect kind) fun u => u :=
  .isAt fun _ => .ite .rfl (fun _ => mirrorsIf_advance) fun _ => .fail

theorem mirrorsIf_takeIf {kind : TokenKind} (hkind : kind ≠ .whitespace) :
    MirrorsIf L P (takeIf kind) (takeIf kind) fun text => text :=
  .isAt fun _ => .ite .rfl
    (fun hb => mirrorsIf_take fun tokens htokens => by rw [htokens.2.2 hb]; simpa using hkind)
    fun _ => .pure rfl

theorem mirrorsIf_expectWord (word : String) :
    MirrorsIf L P (expectWord word) (expectWord word) fun u => u := by
  refine .current? .fail fun token token' hface => ?_
  refine .ite ?_ (fun _ => .pure rfl) fun _ => .fail
  rw [Likeness.kind_eq hface]
  by_cases hk : token.kind = .ident
  · rw [Likeness.spells_eq hface (by simp [hk])]
  · simp [hk]

/-! ### Loops -/

/-- The items that a round adds and the state it goes on from, as they are viewed. -/
def roundView (item : α → γ) (state : σ → ς) : Round σ α → Option (List γ × ς)
  | .stop => none
  | .next items st => some (items.map item, state st)

/-- The items of a loop and the state it ends in, as they are viewed. -/
def loopView (item : α → γ) (state : σ → ς) (result : List α × σ) : List γ × ς :=
  (result.1.map item, state result.2)

section
variable {item : α → γ} {state : σ → ς} {round round' : σ → Token → Parser (Round σ α)} {st st' : σ}

/-- What a round does that starts at a token. -/
def RoundMirrors (L : Likeness) (item : α → γ) (state : σ → ς)
    (round round' : σ → Token → Parser (Round σ α)) :
    Prop :=
  ∀ st st' token token', state st' = state st → L.face token' = L.face token →
    MirrorsIf L (fun tokens => tokens.head? = some token) (round st token) (round' st' token')
      (roundView item state)

theorem mirrors_loopUpTo (hround : RoundMirrors L item state round round') {m n : Nat} (hmn : m ≤ n)
    (hst : state st' = state st) :
    Mirrors L (loopUpTo round m st) (loopUpTo round' n st') (loopView item state) := by
  induction m generalizing n st st' with
  | zero => exact .stuck
  | succ m ih =>
    obtain ⟨n, rfl⟩ := Nat.exists_eq_add_of_le' (Nat.le_of_add_left_le hmn)
    refine .current? (.pure (by simp [loopView, hst])) fun token token' hface => ?_
    refine ((hround st st' token token' hst hface).mono fun _ h => h.2).bind
      fun result result' hresult => ?_
    cases result with
    | stop =>
      cases result' with
      | stop => exact .pure (by simp [loopView, hst])
      | next => exact nomatch hresult
    | next items st₁ =>
      cases result' with
      | stop => exact nomatch hresult
      | next items' st₁' =>
        obtain ⟨hitems, hst₁⟩ := Prod.mk.inj (Option.some.inj hresult)
        refine (ih (Nat.le_of_succ_le_succ hmn) hst₁).bind fun later later' hlater => .pure ?_
        obtain ⟨hlater, hlast⟩ := Prod.mk.inj hlater
        simp [loopView, hitems, hlater, hlast]

theorem mirrors_loop (hround : RoundMirrors L item state round round')
    (hst : state st' = state st) :
    Mirrors L (loop round st) (loop round' st') (loopView item state) where
  leaves hL s _ _ hs h :=
    (mirrors_loopUpTo hround (Nat.le_refl (s.rest.length + 1)) hst).leaves hL hs h
  follows hs hnear hlive _ _ h hlive' :=
    (mirrors_loopUpTo hround (Nat.succ_le_succ hnear.length_le) hst).follows hs hnear hlive h hlive'
  fails hL _ _ hs hnear _ _ h hstuck :=
    (mirrors_loopUpTo hround (Nat.succ_le_succ hnear.length_le) hst).fails hL hs hnear h hstuck

end

section
variable {item : Tree → γ}

/-- What a round without a state does that starts at a token. -/
def ItemMirrors (L : Likeness) (item : Tree → γ) (token : Token) (x y : Parser Item) : Prop :=
  MirrorsIf L (fun tokens => tokens.head? = some token) x y (roundView item fun u => u)

theorem itemMirrors_stop {token : Token} : ItemMirrors L item token stop stop :=
  .pure rfl

theorem itemMirrors_skip {token : Token} : ItemMirrors L item token skip skip :=
  mirrorsIf_advance.step fun _ => .pure rfl

theorem itemMirrors_add {token : Token} {x y : Parser Tree}
    (h : MirrorsIf L (fun tokens => tokens.head? = some token) x y item) :
    ItemMirrors L item token (add x) (add y) :=
  h.bind fun node node' hnode => .pure (by simp [roundView, hnode])

theorem mirrors_many {round round' : Token → Parser Item}
    (hround : ∀ token token', L.face token' = L.face token →
      ItemMirrors L item token (round token) (round' token')) :
    Mirrors L (many round) (many round') (List.map item) := by
  have hloop : Mirrors L (loop (fun (_ : Unit) token => round token) ())
      (loop (fun _ token => round' token) ())
      (loopView item fun u => u) :=
    mirrors_loop (fun _ _ token token' _ hface => hround token token' hface) rfl
  exact hloop.bind fun result result' h => .pure (Prod.mk.inj h).1

theorem mirrors_separated {endsAt : Token → Bool} {entry entry' : Parser Tree}
    {between : Parser Unit}
    (hends : ∀ token token', L.face token' = L.face token → endsAt token' = endsAt token)
    (hentry : Mirrors L entry entry' item) (hbetween : Mirrors L between between fun u => u) :
    Mirrors L (separated endsAt entry between) (separated endsAt entry' between)
      (loopView item fun due => due) := by
  refine mirrors_loop (fun due due' token token' hdue hface => ?_) rfl
  obtain rfl : due' = due := hdue
  refine .ite (by rw [hends token token' hface]) (fun _ => .pure rfl) fun _ => ?_
  refine (hentry.mono fun _ _ => trivial).bind fun node node' hnode =>
    .isAt fun _ => .ite .rfl (fun _ => ?_) fun _ => .pure (by simp [roundView, hnode])
  exact mirrorsIf_advance.step fun _ => hbetween.step fun _ => .pure (by simp [roundView, hnode])

end

end Parser
end StyleTree
