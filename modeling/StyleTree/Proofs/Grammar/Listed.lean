import StyleTree.Proofs.Grammar.Pseudo
import StyleTree.Proofs.Grammar.Seal

/-! Entries of a list. A simple selector that is read to the end of its tokens is read of them again
when a comma follows (`tracks_simpleSelector`), so a list is read entry by entry
(`selector_of_lists`). No reader takes that comma, and those that look at what follows do not tell
it from the end of the input (`Likeness.Listed`): a name or a percentage ends there, and so does the
selector. Brackets end with their own fence, so they are sealed. -/

namespace StyleTree

open StyleTree.Parser StyleTree.Grammar

namespace Likeness

/-- Where the first run ends, a comma is to be read in the second one. -/
structure Listed (L : Likeness) : Prop where
  gap : L.gap = []
  comma : ∃ comma more, L.tail = comma :: more ∧ comma.kind = .comma

variable {L : Likeness} {tokens tokens' rest : List Token}

namespace Listed

theorem hides (h : L.Listed) (kind : TokenKind) : L.hides kind = false := by
  obtain ⟨comma, more, htail, -⟩ := h.comma
  refine hides_followed (fun hL => ?_) kind
  rw [hL] at htail
  exact nomatch htail

theorem text_eq (h : L.Listed) {token token' : Token} (hface : L.face token' = L.face token) :
    token'.text = token.text :=
  Likeness.text_eq hface (h.hides _)

/-- The tokens up to the end are those of the first run, and then comes the comma. -/
theorem near_cases (h : L.Listed) (hnear : L.Near tokens tokens') :
    (∃ token rest token' rest', tokens = token :: rest ∧ tokens' = token' :: rest' ∧
        L.face token' = L.face token ∧
        L.Near rest rest') ∨
      tokens = [] ∧ ∃ comma more, tokens' = comma :: more ∧ comma.kind = .comma := by
  cases tokens with
  | nil => exact .inr ⟨rfl, by rw [hnear.nil]; exact h.comma⟩
  | cons token rest =>
    obtain ⟨token', rest', rfl, hface, hrest⟩ := hnear.cons (.inl (by simp [h.gap]))
    exact .inl ⟨token, rest, token', rest', rfl, rfl, hface, hrest⟩

/-- Up to the end, the tokens agree on every kind but that of the comma. -/
theorem kind_iff (h : L.Listed) (hnear : L.Near tokens tokens') {n : Nat} (hn : n ≤ tokens.length)
    {kind : TokenKind} (hkind : kind ≠ .comma) :
    tokens'[n]?.map Token.kind = some kind ↔ tokens[n]?.map Token.kind = some kind := by
  induction n generalizing tokens tokens' with
  | zero =>
    rcases h.near_cases hnear with ⟨token, rest, token', rest', rfl, rfl, hface, -⟩ | ⟨rfl, comma,
      more, rfl, hk⟩
    · simp [kind_eq hface]
    · simp [hk, hkind.symm]
  | succ n ih =>
    rcases h.near_cases hnear with ⟨token, rest, token', rest', rfl, rfl, -, hrest⟩ | ⟨rfl, -⟩
    · exact ih hrest (Nat.le_of_succ_le_succ hn)
    · exact absurd hn (Nat.not_succ_le_zero n)

theorem head_iff (h : L.Listed) (hnear : L.Near tokens tokens') {kind : TokenKind}
    (hkind : kind ≠ .comma) :
    tokens'.head?.map Token.kind = some kind ↔ tokens.head?.map Token.kind = some kind := by
  rw [List.head?_eq_getElem?, List.head?_eq_getElem?]
  exact h.kind_iff hnear (Nat.zero_le _) hkind

theorem of_suffix (h : L.Listed) (hnear : L.Near tokens tokens') {n : Nat}
    (hn : n ≤ tokens.length) :
    L.Near (tokens.drop n) (tokens'.drop n) :=
  hnear.of_suffix (.inl (by simpa [h.gap] using hn))

/-- Tokens are passed over alike up to the first one that does not satisfy `p`, which no comma
does. -/
theorem length_takeWhile (h : L.Listed) {p : Token → Bool}
    (hp : ∀ token token', L.face token' = L.face token → p token' = p token)
    (hcomma : ∀ token, token.kind = .comma → p token = false) (hnear : L.Near tokens tokens') :
    (tokens'.takeWhile p).length = (tokens.takeWhile p).length := by
  induction tokens generalizing tokens' with
  | nil =>
    obtain ⟨token, _, _, _, hnil, -⟩ | ⟨-, comma, more, rfl, hk⟩ := h.near_cases hnear
    · exact nomatch hnil
    · simp [hcomma comma hk]
  | cons token rest ih =>
    obtain ⟨token', rest', rfl, hface, hrest⟩ := hnear.cons (.inl (by simp [h.gap]))
    cases hk : p token with
    | false => simp [hk, hp token token' hface]
    | true => simp [hk, hp token token' hface, ih hrest]

/-- Kinds of which a comma is none are counted alike. -/
theorem countIf (h : L.Listed) (kind : TokenKind) (hkind : kind ≠ .comma)
    (hnear : L.Near tokens tokens') :
    countIf kind tokens' = countIf kind tokens := by
  rw [Grammar.countIf, Grammar.countIf]
  exact if_congr (h.head_iff hnear hkind) rfl rfl

theorem countIf_drop (h : L.Listed) (kind : TokenKind) (hnear : L.Near tokens tokens') {n : Nat}
    (hn : n = Grammar.countIf kind tokens) : L.Near (tokens.drop n) (tokens'.drop n) := by
  subst hn
  refine h.of_suffix hnear ?_
  unfold Grammar.countIf
  split
  next hk => cases tokens with
    | nil => exact nomatch hk
    | cons => exact Nat.succ_le_succ (Nat.zero_le _)
  next => exact Nat.zero_le _

/-- A number ends before the comma. -/
theorem numberLength? (h : L.Listed) (hnear : L.Near tokens tokens') :
    numberLength? tokens' = numberLength? tokens := by
  have h₁ := h.countIf_drop .hyphenMinus hnear rfl
  have h₂ := h.countIf_drop .number h₁ rfl
  have h₃ := h.countIf_drop .fullStop h₂ rfl
  simp only [List.drop_drop] at h₂ h₃
  simp only [Grammar.numberLength?, h.countIf .hyphenMinus (by decide) hnear,
    h.countIf .number (by decide) h₁, h.countIf .fullStop (by decide) h₂,
    h.countIf .number (by decide) h₃]

end Listed
end Likeness

namespace Parser

variable {α β γ δ σ ς : Type} {L : Likeness} {P Q : List Token → Prop} {x y : Parser α}
  {f g : α → Parser β} {view : α → γ} {view' : β → δ}

namespace Tracks

/-! ## Ways to put readers together -/

theorem mono (h : Tracks L P x y view) (hP : ∀ tokens, Q tokens → P tokens) : Tracks L Q x y view :=
  fun s t hQ => h s t (hP _ hQ)

theorem pure {a b : α} (h : view b = view a) : Tracks L P (pure a) (pure b) view := by
  rintro s t - hnear _ _ ⟨⟩
  exact ⟨b, t, rfl, h, hnear⟩

/-- Nothing is said of a first run that fails. -/
theorem failing {cause : Cause} : Tracks L P (Parser.fail cause) y view :=
  fun _ _ _ _ _ _ hs => (fail_ne_ok.1 hs).elim

/-- Something is known of the tokens that the first reader leaves. -/
theorem bindIf (hx : Tracks L P x y view) (hQ : ∀ {s a s'}, P s.rest → x s = .ok a s' → Q s'.rest)
    (hf : ∀ a b, view b = view a → Tracks L Q (f a) (g b) view') :
    Tracks L P (x >>= f) (y >>= g) view' := by
  intro s t hP hnear b s' hs
  obtain ⟨a, s₁, ha, hs⟩ := bind_eq_ok.1 hs
  obtain ⟨a', t₁, ha', hview, hnear₁⟩ := hx s t hP hnear a s₁ ha
  obtain ⟨b', t', hb', hview', hnear'⟩ := hf a a' hview s₁ t₁ (hQ hP ha) hnear₁ b s' hs
  exact ⟨b', t', bind_eq_ok.2 ⟨a', t₁, ha', hb'⟩, hview', hnear'⟩

theorem bind (hx : Tracks L P x y view)
    (hf : ∀ a b, view b = view a → Tracks L (fun _ => True) (f a) (g b) view') :
    Tracks L P (x >>= f) (y >>= g) view' :=
  hx.bindIf (fun _ _ => trivial) hf

/-- A reader comes first that gives the same value in both runs. -/
theorem step (hx : Tracks L P x y fun a => a)
    (hf : ∀ a, Tracks L (fun _ => True) (f a) (g a) view') :
    Tracks L P (x >>= f) (y >>= g) view' :=
  hx.bind fun a _ h => h ▸ hf a

theorem ite {c c' : Prop} [Decidable c] [Decidable c'] {x' y' : Parser α} (hc : c' ↔ c)
    (hx : c → Tracks L P x x' view) (hy : ¬ c → Tracks L P y y' view) :
    Tracks L P (if c then x else y) (if c' then x' else y') view := by
  by_cases h : c
  · rw [if_pos h, if_pos (hc.2 h)]
    exact hx h
  · rw [if_neg h, if_neg (mt hc.1 h)]
    exact hy h

/-- Two ways to read what comes first, and what comes after. -/
theorem choose {c c' : Prop} [Decidable c] [Decidable c'] {x' y' : Parser α} (hc : c' ↔ c)
    (hx : c → Tracks L P x x' view) (hy : ¬ c → Tracks L P y y' view)
    (hf : ∀ a b, view b = view a → Tracks L (fun _ => True) (f a) (g b) view') :
    Tracks L P (if c then x >>= f else y >>= f) (if c' then x' >>= g else y' >>= g) view' :=
  .ite hc (fun h => (hx h).bind hf) fun h => (hy h).bind hf

/-- A reader that only looks comes first; `R` relates what it sees in the two runs. -/
theorem look {x : Parser α} (see : List Token → α) (hx : ∀ s, x s = .ok (see s.rest) s)
    {R : α → α → Prop}
    (hR : ∀ {tokens tokens'}, P tokens → L.Near tokens tokens' → R (see tokens) (see tokens'))
    (hf : ∀ a b, R a b → Tracks L (fun tokens => P tokens ∧ see tokens = a) (f a) (g b) view') :
    Tracks L P (x >>= f) (x >>= g) view' := by
  intro s t hP hnear b s' hs
  rw [bind_of_ok (hx s)] at hs
  rw [bind_of_ok (hx t)]
  exact hf _ _ (hR hP hnear) s t ⟨hP, rfl⟩ hnear b s' hs

/-- Both runs see the same. -/
theorem survey {see : List Token → α}
    (hsee : ∀ {tokens tokens'}, P tokens → L.Near tokens tokens' → see tokens' = see tokens)
    (hf : ∀ a, Tracks L (fun tokens => P tokens ∧ see tokens = a) (f a) (g a) view') :
    Tracks L P (survey see >>= f) (survey see >>= g) view' :=
  look see (fun _ => rfl) (R := fun a b => b = a) hsee fun a _ h => h ▸ hf a

/-! ## Looking at a token -/

variable (hL : L.Listed)

include hL

theorem isAt {kind : TokenKind} (hkind : kind ≠ .comma) {f g : Bool → Parser β}
    (hf : ∀ b, Tracks L (fun tokens =>
      P tokens ∧ (tokens.head?.map Token.kind = some kind ↔ b = true)) (f b) (g b) view') :
    Tracks L P (isAt kind >>= f) (isAt kind >>= g) view' := by
  refine look (fun tokens => decide (tokens.head?.map Token.kind = some kind)) (fun _ => rfl)
    (R := fun a b => b = a)
    (fun _ hnear => by rw [decide_eq_decide, hL.head_iff hnear hkind]) fun b _ h => ?_
  subst h
  exact (hf _).mono fun _ hb => ⟨hb.1, by rw [← hb.2, decide_eq_true_iff]⟩

/-- At the end, the second run is at the comma. -/
theorem current? {f g : Option Token → Parser β}
    (hend : ∀ comma, comma.kind = .comma →
      Tracks L (fun tokens => P tokens ∧ tokens = []) (f none) (g (some comma)) view')
    (hsome : ∀ token token', L.face token' = L.face token →
      Tracks L (fun tokens => P tokens ∧ tokens.head? = some token) (f (some token))
        (g (some token')) view') :
    Tracks L P (current? >>= f) (current? >>= g) view' := by
  refine look List.head? (fun _ => rfl)
    (R := fun a b =>
      (∃ token token', a = some token ∧ b = some token' ∧ L.face token' = L.face token) ∨
      a = none ∧ ∃ comma, b = some comma ∧ comma.kind = .comma) (fun _ hnear => ?_) fun a b h => ?_
  · rcases hL.near_cases hnear with ⟨token, rest, token', rest', rfl, rfl, hface, -⟩ | ⟨rfl, comma,
      more, rfl, hk⟩
    · exact .inl ⟨token, token', rfl, rfl, hface⟩
    · exact .inr ⟨rfl, comma, rfl, hk⟩
  · rcases h with ⟨token, token', rfl, rfl, hface⟩ | ⟨rfl, comma, rfl, hk⟩
    · exact hsome token token' hface
    · exact (hend comma hk).mono fun tokens h => ⟨h.1, List.head?_eq_none_iff.1 h.2⟩

theorem kind? {f g : Option TokenKind → Parser β}
    (hend : Tracks L (fun tokens => P tokens ∧ tokens = []) (f none) (g (some .comma)) view')
    (hsome : ∀ k, Tracks L (fun tokens => P tokens ∧ tokens.head?.map Token.kind = some k)
      (f (some k)) (g (some k)) view') :
    Tracks L P (kind? >>= f) (kind? >>= g) view' := by
  show Tracks L P (Parser.current? >>= fun token => f (token.map Token.kind))
    (Parser.current? >>= fun token => g (token.map Token.kind)) view'
  refine current? hL (fun comma hk => ?_) fun token token' hface => ?_
  · rw [Option.map_none, Option.map_some, hk]
    exact hend
  · rw [Option.map_some, Option.map_some, Likeness.kind_eq hface]
    exact (hsome token.kind).mono fun tokens h => ⟨h.1, by rw [h.2, Option.map_some]⟩

end Tracks

/-! ## Readers of tokens -/

section
variable (hL : L.Listed)

include hL

/-- Tokens that are no comma are taken. -/
theorem tracks_takeMany {count : Nat} (hP : ∀ tokens, P tokens → count ≤ tokens.length) :
    Tracks L P (takeMany count) (takeMany count) fun text => text := by
  rintro s t hs hnear _ _ ⟨⟩
  have hcount := hP _ hs
  refine ⟨_, _, run_takeMany _, ?_, hL.of_suffix hnear hcount⟩
  have htake := hnear.take (n := count) (.inl (by simpa [hL.gap] using hcount))
  rw [Likeness.map_text_eq htake fun token _ => hL.hides token.kind]

theorem tracks_step (hP : ∀ tokens, P tokens → tokens ≠ []) :
    Tracks L P advance advance fun u => u :=
  tracks_advance fun tokens h => by rw [hL.gap]; exact List.length_pos_iff.2 (hP tokens h)

theorem tracks_take (hP : ∀ tokens, P tokens → tokens ≠ []) :
    Tracks L P take take fun text => text := by
  rintro s t hs hnear _ _ ⟨⟩
  obtain ⟨_, t', hadvance, -, hnear'⟩ := tracks_step hL (P := P) hP s t hs hnear _ _ run_advance
  obtain ⟨-, rfl⟩ := EStateM.Result.ok.inj hadvance
  refine ⟨_, _, run_take, ?_, hnear'⟩
  rcases hL.near_cases hnear with ⟨token, rest, token', rest', hrest, hrest', hface, -⟩ | ⟨hnil, -⟩
  · rw [hrest, hrest']
    exact hL.text_eq hface
  · exact absurd hnil (hP _ hs)

theorem tracks_takeWhile {p : Token → Bool}
    (hp : ∀ token token', L.face token' = L.face token → p token' = p token)
    (hcomma : ∀ token, token.kind = .comma → p token = false) :
    Tracks L P (Parser.takeWhile p) (Parser.takeWhile p) fun text => text := by
  show Tracks L P (survey (fun tokens => (tokens.takeWhile p).length) >>= takeMany)
    (survey (fun tokens => (tokens.takeWhile p).length) >>= takeMany) _
  refine .survey (fun _ hnear => hL.length_takeWhile hp hcomma hnear)
    fun count => tracks_takeMany hL fun tokens h => ?_
  rw [← h.2]
  exact (List.takeWhile_prefix p).length_le

theorem tracks_expect {kind : TokenKind} (hkind : kind ≠ .comma) :
    Tracks L P (expect kind) (expect kind) fun u => u :=
  .isAt hL hkind fun _ => .ite .rfl
    (fun hb => tracks_step hL fun tokens h hnil => by simp [hnil, hb] at h) fun _ => .fail

theorem tracks_takeIf {kind : TokenKind} (hkind : kind ≠ .comma) :
    Tracks L P (takeIf kind) (takeIf kind) fun text => text :=
  .isAt hL hkind fun _ => .ite .rfl
    (fun hb => tracks_take hL fun tokens h hnil => by simp [hnil, hb] at h) fun _ => .pure rfl

/-- The word that is to be read next. -/
theorem tracks_expectWord (word : String) :
    Tracks L P (expectWord word) (expectWord word) fun u => u := by
  refine .current? hL (fun _ _ => .failing)
    fun token token' hface => .ite ?_ (fun _ => .pure rfl) fun _ => .fail
  rw [Likeness.kind_eq hface, Token.spells, Token.spells, hL.text_eq hface]

/-! ## Loops -/

section
variable {item : α → γ} {state : σ → ς} {round round' : σ → Token → Parser (Round σ α)} {st st' : σ}

/-- The loop of the second run stops at the comma where that of the first one ends. -/
theorem tracks_loopUpTo
    (hround : ∀ st st' token token', state st' = state st → L.face token' = L.face token →
      Tracks L (fun tokens => tokens.head? = some token) (round st token) (round' st' token')
        (roundView item state))
    (hstop : ∀ st comma s, comma.kind = .comma → round' st comma s = .ok .stop s) {m n : Nat}
    (hmn : m ≤ n) (hst : state st' = state st) :
    Tracks L P (loopUpTo round m st) (loopUpTo round' n st') (loopView item state) := by
  induction m generalizing n st st' P with
  | zero => exact .failing
  | succ m ih =>
    obtain ⟨n, rfl⟩ := Nat.exists_eq_add_of_le' (Nat.le_of_add_left_le hmn)
    refine .current? hL (fun comma hk => ?_) fun token token' hface => ?_
    · rintro s t - hnear _ _ ⟨⟩
      exact ⟨_, t, bind_of_ok (hstop st' comma t hk), by simp [loopView, hst], hnear⟩
    · refine ((hround st st' token token' hst hface).mono fun _ h => h.2).bind
        fun result result' hresult => ?_
      cases result with
      | stop =>
        cases result' with
        | stop => exact .pure (by simp [loopView, hst])
        | next => cases hresult
      | next items st₁ =>
        cases result' with
        | stop => cases hresult
        | next items' st₁' =>
          obtain ⟨hitems, hst₁⟩ := Prod.mk.inj (Option.some.inj hresult)
          refine (ih (Nat.le_of_succ_le_succ hmn) hst₁).bind fun later later' hlater => .pure ?_
          obtain ⟨hlater, hlast⟩ := Prod.mk.inj hlater
          simp [loopView, hitems, hlater, hlast]

theorem tracks_loop
    (hround : ∀ st st' token token', state st' = state st → L.face token' = L.face token →
      Tracks L (fun tokens => tokens.head? = some token) (round st token) (round' st' token')
        (roundView item state))
    (hstop : ∀ st comma s, comma.kind = .comma → round' st comma s = .ok .stop s)
    (hst : state st' = state st) :
    Tracks L P (loop round st) (loop round' st') (loopView item state) := by
  intro s t hs hnear a s' h
  exact tracks_loopUpTo hL hround hstop (Nat.succ_le_succ hnear.length_le) hst s t hs hnear a s' h

end
end
end Parser

namespace Grammar

variable {L : Likeness} {P : List Token → Prop} {inner inner' : Nested} {info info' : Option Nat}
    {name : String}

/-! ## Brackets -/

theorem sealsIf_attributeSelector : SealsIf L P attributeSelector attributeSelector Node.bare := by
  refine .here fun info info' => .step (mirrorsIf_expect _) fun _ =>
    .step mirrorsIf_skipGaps fun _ =>
    .bind (mirrors_qualifiedName true)
      fun name name' hname => .step mirrorsIf_skipGaps fun _ => .kind? fun k => ?_
  have hend : ∀ test test' : Option (String × Tree),
      test'.map (Prod.map id Node.bare) = test.map (Prod.map id Node.bare) →
        SealsIf L (fun _ => True) (do
        let flags ← attributeFlags
        expect .rightBracket
        return .attributeSelector info name (test.map Prod.fst) (test.map Prod.snd) flags) (do
        let flags ← attributeFlags
        expect .rightBracket
        return .attributeSelector info' name' (test'.map Prod.fst) (test'.map Prod.snd) flags)
          Node.bare := by
    refine fun test test' htest => .step mirrors_attributeFlags fun _ =>
      .last (.expect rfl) fun _ _ _ => ?_
    have hsigns := congrArg (Option.map Prod.fst) htest
    have hnodes := congrArg (Option.map Prod.snd) htest
    simp only [Option.map_map] at hsigns hnodes
    simpa [hname] using ⟨hsigns, hnodes⟩
  split
  next => exact (hend none none rfl).mono fun _ _ => trivial
  next => exact (hend none none rfl).mono fun _ _ => trivial
  next => exact (hend none none rfl).mono fun _ _ => trivial
  next =>
    exact .bind mirrors_attributeTest.always fun test test' htest =>
      hend (some test) (some test') (by simp [htest])

theorem sealsIf_nthSelector : SealsIf L P nthSelector nthSelector Node.bare :=
  .here fun _ _ => .step (mirrorsIf_expect _) fun _ => .step (mirrors_readName false) fun _ =>
    .step (mirrorsIf_expect _) fun _ =>
      .bind (mirrors_many fun _ _ => itemMirrors_nthPart) fun _ _ hparts =>
      .last (.expect rfl) fun _ _ _ => by simp [argument, hparts]

theorem sealsIf_urlFunction : SealsIf L P (urlFunction info) (urlFunction info') Node.bare := by
  have hend : ∀ link link' : Tree, link'.bare = link.bare → SealsIf L (fun _ => True)
      (do skipGaps; expect .rightParen; return .wrapper info .url link : Parser Tree)
      (do skipGaps; expect .rightParen; return .wrapper info' .url link') Node.bare :=
        fun link link' hlink =>
    .step mirrorsIf_skipGaps fun _ => .last (.expect rfl) fun _ _ _ => by simp [hlink]
  refine .step (mirrorsIf_expect _) fun _ => .step mirrorsIf_skipGaps fun _ => .isAt fun _ =>
    .ite .rfl (fun h => ?_) fun _ => ?_
  · exact .bind (mirrorsIf_tokenLeaf fun _ hat => by simp [hat.2.2 h]) hend
  · refine .here fun _ _ =>
      .step (mirrorsIf_takeWhile (fun token token' hface => ?_) fun token h => ?_) fun _ =>
      hend _ _ (by simp)
    · simp only [Likeness.kind_eq hface]
    · simp only [ne_eq, decide_not, Bool.and_eq_true, Bool.not_eq_true',
        decide_eq_false_iff_not] at h
      exact h.1.1

theorem mirrors_negatedEntry (hinner : NestedMirrors L inner inner') :
    MirrorsTree L (negatedEntry inner) (negatedEntry inner') := by
  refine .kind? fun k => ?_
  split
  next => exact .fail
  next => exact .fail
  next => exact hinner.negated.always

theorem sealsIf_negation (hinner : NestedMirrors L inner inner') :
    SealsIf L P (negation inner info) (negation inner' info') Node.bare := by
  rw [negation_eq, negation_eq]
  refine .step (mirrorsIf_expect _) fun _ =>
    .bind (mirrors_separated (fun _ _ _ => rfl) (mirrors_negatedEntry hinner)
      (.pure rfl)) fun result result' hresult => .last (.expect rfl) fun _ _ _ => ?_
  simp [show result'.1.map Node.bare = result.1.map Node.bare from congrArg Prod.fst hresult]

theorem sealsIf_arguments {scope : Scope} (hinner : NestedMirrors L inner inner') :
    SealsIf L P (arguments inner scope) (arguments inner' scope) (List.map Node.bare) := by
  refine .step (mirrorsIf_expect _) fun _ => .step mirrorsIf_skipGaps fun _ => .isAt fun _ =>
    .ite .rfl (fun _ => ?_) fun _ => ?_
  · exact .last (.expect rfl) fun _ _ _ => rfl
  · exact .bind (mirrors_separated (fun _ _ _ => rfl) (mirrors_argumentOf hinner)
      mirrorsIf_skipGaps).always
      fun result result' hresult => .last (.expect rfl) fun _ _ _ => congrArg Prod.fst hresult

/-- Inside a selector, only links and negations have a grammar of their own. -/
theorem sealsIf_function (hinner : NestedMirrors L inner inner') :
    SealsIf L P (function inner .selector info name) (function inner' .selector info' name)
      Node.bare := by
  cases hspecial : Scope.selector.special? name with
  | none =>
    rw [function_of_pseudo inner info hspecial, function_of_pseudo inner' info' hspecial]
    exact sealsIf_arguments hinner |>.last fun _ _ hnodes => by simp [hnodes]
  | some special =>
    simp only [function, hspecial]
    cases special with
    | url => exact sealsIf_urlFunction
    | negation => exact sealsIf_negation hinner
    | script => cases scope_of_special? (.inl hspecial)
    | «variable» => cases scope_of_special? (.inr hspecial)

/-! ## Names -/

/-- The sign of a percentage comes after its number. -/
theorem lt_of_percentLength? {tokens : List Token} {count : Nat}
    (h : percentLength? tokens = some count) :
    count < tokens.length := by
  unfold percentLength? at h
  split at h
  next n _ =>
    split at h
    next hsign =>
      obtain rfl := Option.some.inj h
      obtain ⟨token, htoken, -⟩ := Option.map_eq_some_iff.1 hsign
      exact (List.getElem?_eq_some_iff.1 htoken).1
    next => exact nomatch h
  next => exact nomatch h

theorem tracks_leaf {kind : LeafKind} {text : String} :
    Tracks L P (pure (.leaf info kind text)) (pure (.leaf info' kind text)) Node.bare :=
  .pure (by simp)

section
variable (hL : L.Listed)

include hL

theorem tracks_takeName :
    Tracks L P (Parser.takeWhile isNamePart) (Parser.takeWhile isNamePart) fun text => text :=
  tracks_takeWhile hL (fun _ _ => isNamePart_face) fun token hk => by rw [isNamePart, hk]

theorem tracks_readName (custom : Bool) :
    Tracks L P (readName custom) (readName custom) fun name => name := by
  have hstart : ∀ (k : TokenKind) (hyphen second : String),
      Tracks L (fun tokens => tokens.head?.map Token.kind = some k)
        (do
          let first ← take
          let rest ← Parser.takeWhile isNamePart
          return hyphen ++ second ++ first ++ rest)
        (do
          let first ← take
          let rest ← Parser.takeWhile isNamePart
          return hyphen ++ second ++ first ++ rest)
        fun name => name := fun k hyphen second =>
    (tracks_take hL fun tokens hk hnil => by simp [hnil] at hk).step fun _ =>
      (tracks_takeName hL).step fun _ => .pure rfl
  refine (tracks_takeIf hL (by decide)).step fun hyphen =>
    .choose .rfl (fun _ => tracks_takeIf hL (by decide))
      (fun _ => .pure rfl) fun second _ h => h ▸ .kind? hL .failing fun k => ?_
  split
  next => exact (hstart _ _ _).mono fun _ h => h.2
  next => exact (hstart _ _ _).mono fun _ h => h.2
  next => exact .fail

theorem tracks_nameEnd (colon : Bool) :
    Tracks L P (nameEnd info name colon) (nameEnd info' name colon) Node.bare :=
  .isAt hL (by decide) fun _ => .ite .rfl
    (fun h =>
      (tracks_take hL fun _ hat hnil => by simp [hnil, (Bool.and_eq_true_iff.1 h).2] at hat).step
        fun _ =>
      (tracks_readName hL false).step fun _ => tracks_leaf)
    fun _ => tracks_leaf

/-- What follows a bar is looked at whether there is one or not. -/
theorem tracks_lookEquals {β δ : Type} {view : β → δ} {f g : Bool → Parser β} (bar : Prop)
    (hbar : ∀ tokens, P tokens → bar → tokens ≠ [])
    (hf : ∀ equals equals', (bar → equals' = equals) → Tracks L P (f equals) (g equals') view) :
    Tracks L P (lookupKind 1 .equals >>= f) (lookupKind 1 .equals >>= g) view :=
  .look (fun tokens => decide (tokens[1]?.map Token.kind = some .equals)) (fun _ => rfl)
    (R := fun a b => bar → b = a) (fun hP hnear h => by
      rw [decide_eq_decide]
      exact hL.kind_iff hnear (List.length_pos_iff.2 (hbar _ hP h)) (by decide))
    fun equals equals' h => (hf equals equals' h).mono fun _ h => h.1

theorem tracks_nameFrom (colon : Bool) (base : String) :
    Tracks L P (nameFrom info colon base) (nameFrom info' colon base) Node.bare := by
  refine .isAt hL (by decide) fun bar =>
    tracks_lookEquals hL (bar = true) (fun tokens h hbar hnil => ?_)
      fun equals equals' hequals => .ite ?_ (fun h => ?_) fun _ => tracks_nameEnd hL colon
  · simp [hnil, hbar] at h
  · cases bar with
    | false => simp
    | true => rw [hequals rfl]
  · have hbar := (Bool.and_eq_true_iff.1 h).1
    refine (tracks_take hL fun tokens hat hnil => by simp [hnil, hbar] at hat).step fun sign =>
      .kind? hL (tracks_nameEnd hL colon) fun k => ?_
    have hname : ∀ {Q}, Tracks L Q (do nameEnd info (base ++ (sign ++ (← readName false))) colon)
        (do nameEnd info' (base ++ (sign ++ (← readName false))) colon) Node.bare :=
      (tracks_readName hL false).step fun _ => tracks_nameEnd hL colon
    split
    · exact hname
    · exact hname
    · exact hname
    · exact (tracks_take hL fun tokens hat hnil => by simp [hnil] at hat).step fun _ =>
        tracks_nameEnd hL false
    · exact tracks_nameEnd hL colon

theorem tracks_qualifiedName (colon : Bool) :
    Tracks L P (qualifiedName colon) (qualifiedName colon) Node.bare := by
  refine .current? hL (fun _ _ => .failing) fun first first' hface => .here fun info info' =>
    tracks_lookEquals hL True (fun tokens h _ hnil => by simp [hnil] at h)
      fun equals equals' hequals => ?_
  rw [Likeness.kind_eq hface, hequals trivial]
  refine .ite .rfl (fun h => ?_) fun _ => .ite .rfl (fun _ => ?_) fun _ => ?_
  · exact (tracks_take hL fun tokens h hnil => by simp [hnil] at h).step fun base =>
      tracks_nameFrom hL (colon && first.kind ≠ .asterisk) base
  · exact tracks_nameFrom hL (colon && first.kind ≠ .asterisk) ""
  · exact (tracks_readName hL false).step fun base =>
      tracks_nameFrom hL (colon && first.kind ≠ .asterisk) base

theorem tracks_percentageOrName : Tracks L P percentageOrName percentageOrName Node.bare := by
  rw [percentageOrName_eq]
  refine .survey (fun {tokens tokens'} _ hnear => ?_) fun count? => ?_
  · rw [percentLength?, percentLength?, hL.numberLength? hnear]
    cases hcount : numberLength? tokens with
    | none => rfl
    | some count => exact if_congr (hL.kind_iff hnear (numberLength?_le hcount) (by decide)) rfl rfl
  · cases count? with
    | none => exact tracks_qualifiedName hL false
    | some count =>
      refine .here fun _ _ => .bindIf (Q := fun tokens => tokens ≠ [])
        (tracks_takeMany hL fun _ h => (lt_of_percentLength? h.2).le) (fun hP htake => ?_)
        fun text _ htext => htext ▸ (tracks_step hL fun _ h => h).step fun _ => tracks_leaf
      obtain ⟨-, rfl⟩ := EStateM.Result.ok.inj htake
      exact List.ne_nil_of_length_pos
        (by rw [List.length_drop]; exact Nat.sub_pos_of_lt (lt_of_percentLength? hP.2))

/-! ## Parts of a selector -/

theorem tracks_classSelector : Tracks L P classSelector classSelector Node.bare :=
  .here fun _ _ => (tracks_expect hL (by decide)).step fun _ =>
    (tracks_readName hL false).step fun _ => tracks_leaf

theorem tracks_idSelector : Tracks L P idSelector idSelector Node.bare :=
  .here fun _ _ => (tracks_expect hL (by decide)).step fun _ =>
    (tracks_readName hL false).step fun _ => tracks_leaf

theorem tracks_pseudoElement : Tracks L P pseudoElement pseudoElement Node.bare :=
  .here fun _ _ => (tracks_expect hL (by decide)).step fun _ =>
    (tracks_expect hL (by decide)).step fun _ =>
    (tracks_readName hL false).step fun _ => tracks_leaf

theorem tracks_pseudoClass (hinner : NestedMirrors L inner inner') :
    Tracks L P (pseudoClass inner) (pseudoClass inner') Node.bare :=
  .here fun _ _ => (tracks_expect hL (by decide)).step fun _ => .here fun _ _ =>
    (tracks_readName hL false).step fun _ =>
      .isAt hL (by decide) fun _ =>
        .ite .rfl (fun _ => (sealsIf_function hinner).tracks) fun _ => tracks_leaf

theorem tracks_pseudo (hinner : NestedMirrors L inner inner')
    (hP : ∀ tokens, P tokens → tokens ≠ []) :
    Tracks L P (pseudo inner) (pseudo inner') Node.bare := by
  refine .look (fun tokens => tokens[1]?) (fun _ => rfl)
    (R := fun a b => a = none ∨ b.map L.face = a.map L.face)
    (fun hs hnear => ?_) fun next next' hnext => ?_
  · rcases hL.near_cases hnear with ⟨token, rest, token', rest', rfl, rfl, -, hrest⟩ | ⟨hnil, -⟩
    · rcases hL.near_cases hrest with ⟨token, rest, token', rest', rfl, rfl, hface, -⟩ | ⟨rfl, -⟩
      · exact .inr (congrArg some hface)
      · exact .inl rfl
    · exact absurd hnil (hP _ hs)
  · cases next with
    | none =>
      exact fun s _ _ _ _ _ hs => (fail_ne_ok.1 (bind_eq_ok.1 hs).choose_spec.choose_spec.2).elim
    | some next =>
      obtain ⟨next', rfl, hface⟩ := Option.map_eq_some_iff.1 (hnext.resolve_left (by simp))
      dsimp only
      rw [Likeness.kind_eq hface, Token.spells, Token.spells, hL.text_eq hface]
      exact .ite .rfl (fun _ => tracks_pseudoElement hL) fun _ =>
        .ite .rfl (fun _ => sealsIf_nthSelector.tracks) fun _ => tracks_pseudoClass hL hinner

theorem tracks_combinator {token token' : Token} (hface : L.face token' = L.face token)
    (hP : ∀ tokens, P tokens → tokens ≠ []) :
    Tracks L P (combinator token) (combinator token') Node.bare := by
  refine .here fun _ _ => (tracks_step hL hP).step fun _ => ?_
  rw [Likeness.kind_eq hface]
  split
  next => exact tracks_leaf
  next =>
    refine .bindIf (Q := fun tokens => tokens ≠ []) (tracks_expectWord hL "deep")
      (fun _ hword hnil => ?_) fun _ _ _ =>
      (tracks_step hL fun _ h => h).step fun _ =>
        (tracks_expect hL (by decide)).step fun _ => tracks_leaf
    obtain ⟨word, hword, -⟩ := head?_of_expectWord hword
    rw [hnil] at hword
    exact nomatch hword
  next =>
    rw [hL.text_eq hface]
    exact tracks_leaf

theorem tracks_selectorPart (hinner : NestedMirrors L inner inner') (nested : Bool)
    {state state' : SelectorState} {token token' : Token}
    (hstate : selectorView state' = selectorView state) (hface : L.face token' = L.face token) :
    Tracks L (fun tokens => tokens.head? = some token) (selectorPart inner nested state token)
      (selectorPart inner' nested state' token') (roundView Node.bare selectorView) := by
  obtain ⟨hpending, hstarted⟩ := Prod.mk.inj hstate
  have hne : ∀ tokens : List Token, tokens.head? = some token → tokens ≠ [] :=
    fun _ h hnil => by simp [hnil] at h
  have hpart : ∀ {x y : Parser Tree}, Tracks L
      (fun tokens => tokens.head? = some token) x y Node.bare →
      Tracks L (fun tokens => tokens.head? = some token)
        (do return .next (state.pending.toList ++ [← x]) { started := true } :
          Parser (Round SelectorState Tree))
        (do return .next (state'.pending.toList ++ [← y]) { started := true })
        (roundView Node.bare selectorView) := fun h => h.last fun _ _ hnode => by
    have htoList := congrArg Option.toList hpending
    rw [Option.toList_map, Option.toList_map] at htoList
    simp [roundView, hnode, htoList]
  have hskip : Tracks L (fun tokens => tokens.head? = some token)
      (do advance; return .next [] state : Parser (Round SelectorState Tree))
        (do advance; return .next [] state')
      (roundView Node.bare selectorView) :=
    (tracks_step hL hne).last fun _ _ _ => by simp [roundView, hstate]
  have hjoint : Tracks L (fun tokens => tokens.head? = some token)
      (do return .next [] { state with pending := some (← combinator token) } :
        Parser (Round SelectorState Tree))
      (do
        return .next []
          { state' with pending := some (← combinator token'), started := state.started })
      (roundView Node.bare selectorView) :=
    (tracks_combinator hL hface hne).last fun _ _ hnode => by simp [roundView, selectorView, hnode]
  have hnone : state'.pending.isNone = state.pending.isNone := by
    have := congrArg Option.isNone hpending
    rwa [Option.isNone_map, Option.isNone_map] at this
  rw [selectorPart, selectorPart, Likeness.kind_eq hface, hnone, hstarted, isOpen_of_view hstate]
  dsimp only
  split
  next => exact .pure rfl
  next => exact .ite .rfl (fun _ => .fail) fun _ => .pure rfl
  next => exact .ite .rfl (fun _ => .pure rfl) fun _ => .fail
  next => exact hskip
  next => exact .ite .rfl (fun _ => hjoint) fun _ => hskip
  next => exact .ite .rfl (fun _ => .fail) fun _ => hjoint
  next => exact .ite .rfl (fun _ => .fail) fun _ => hjoint
  next => exact .ite .rfl (fun _ => .fail) fun _ => hjoint
  next => exact .ite .rfl (fun _ => .fail) fun _ => hjoint
  next => exact hpart (tracks_classSelector hL)
  next => exact hpart sealsIf_attributeSelector.tracks
  next => exact hpart (tracks_idSelector hL)
  next => exact hpart (tracks_pseudo hL hinner hne)
  next => exact hpart (tracks_qualifiedName hL false)
  next => exact hpart (tracks_qualifiedName hL false)
  next => exact hpart (tracks_qualifiedName hL false)
  next => exact hpart (tracks_qualifiedName hL false)
  next => exact hpart (tracks_percentageOrName hL)
  next => exact hpart (tracks_percentageOrName hL)
  next => exact .fail

/-- A simple selector is read alike where a comma follows. -/
theorem tracks_simpleSelector (hinner : NestedMirrors L inner inner') (nested : Bool) :
    Tracks L P (simpleSelector inner nested) (simpleSelector inner' nested) Node.bare := by
  refine .here fun _ _ => (tracks_loop hL
    (fun _ _ _ _ hstate hface => tracks_selectorPart hL hinner nested hstate hface)
    (fun _ _ _ hk => selectorPart_ends (.inl hk)) rfl).bind fun result result' hresult => ?_
  obtain ⟨hitems, hlast⟩ := Prod.mk.inj hresult
  exact .ite (by rw [isOpen_of_view hlast]) (fun _ => .fail) fun _ => .pure (by simp [hitems])

end

/-! ## Lists of selectors -/

variable {depth : Nat} {nested : Bool} {tree : Tree} {s s' : ParserState}

/-- A simple selector goes on to the end of input or to a token that ends one. -/
theorem ends_of_simpleSelector (h : simpleSelector inner nested s = .ok tree s') :
    ∀ token ∈ s'.rest.head?, EndsSelector nested token := by
  rw [simpleSelector, here_bind_run] at h
  obtain ⟨⟨parts, last⟩, s₁, hloop, h⟩ := bind_eq_ok.1 h
  dsimp only at h
  split at h
  · exact (fail_ne_ok.1 h).elim
  · obtain ⟨-, rfl⟩ := EStateM.Result.ok.inj h
    rcases (rounds_of_loop hloop).ends with hnil | ⟨st, token, s₂, hhead, hstop⟩
    · simp [hnil]
    · cases selectorPart_eq_ok hstop with
      | ends hends => exact fun other hmem => Option.some.inj (hhead.symm.trans hmem) ▸ hends

/-- Where no token ends a simple selector, it goes on to the end. -/
theorem rest_of_simpleSelector (h : simpleSelector (.upTo depth) nested s = .ok tree s')
    (hs : ∀ token ∈ s.rest, ¬EndsSelector nested token) : s'.rest = [] := by
  have hsuffix :=
    (mirrors_simpleSelector (nestedMirrors_upTo (L := .followed [] [default]) Nat.le.refl)
      nested).leaves
    nofun trivial h
  cases hrest : s'.rest with
  | nil => rfl
  | cons token rest =>
    have hends : EndsSelector nested token := ends_of_simpleSelector h token (by rw [hrest]; rfl)
    obtain ⟨other, hmem, hk⟩ :=
      List.mem_map.1 (hsuffix.subset (List.mem_map_of_mem (hrest ▸ List.mem_cons_self)))
    rw [EndsSelector, ← hk] at hends
    exact absurd hends (hs other hmem)

/-- The tokens of an entry of a list, and what is read of them where they stand alone. -/
structure ListEntry where
  tokens : List Token
  tree : Tree
  spelled : Spelled tokens
  closed : Likeness.ParensClose tokens
  openEnd : ∀ token ∈ tokens, ¬EndsSelector false token
  reads : ∃ s', simpleSelector (.upTo (tokens.length + 1)) false { rest := tokens } = .ok tree s'

namespace ListEntry

variable {entry : ListEntry} {entries : List ListEntry} {front tokens : List Token}

theorem near (entry : ListEntry) (tail : List Token)
    (h : front.map Token.core = entry.tokens.map Token.core) :
    (Likeness.followed [] tail).Near entry.tokens (front ++ tail) where
  faces := ⟨entry.tokens, front, (List.append_nil _).symm, rfl, Likeness.map_face_of_core h⟩
  blank := nofun
  short := Nat.zero_le _
  spelled := entry.spelled
  words := nofun
  closed _ := entry.closed

theorem length_eq (h : front.map Token.core = entry.tokens.map Token.core) :
    front.length = entry.tokens.length := by
  simpa using congrArg List.length h

/-- No token of an entry opens a block. -/
theorem opensBlock_eq_false (h : front.map Token.core = entry.tokens.map Token.core) :
    ∀ token ∈ front, opensBlock token = false := by
  intro token hmem
  obtain ⟨other, hother, hcore⟩ := List.mem_map.1 (h ▸ List.mem_map_of_mem hmem)
  exact decide_eq_false fun hk =>
    entry.openEnd other hother (.inr ((congrArg Prod.fst hcore).trans hk))

/-- An entry without tokens is blank. -/
theorem children_of_nil (h : entry.tokens = []) : entry.tree.children = [] := by
  obtain ⟨s', hread⟩ := entry.reads
  by_contra hne
  obtain ⟨token, rest, hs, -⟩ := notEnds_of_children hread hne
  rw [h] at hs
  exact nomatch hs

/-- The last entry is read as it is alone. -/
theorem read_last (hdepth : entry.tokens.length < depth)
    (h : tokens.map Token.core = entry.tokens.map Token.core) (hs : s.rest = tokens) :
    ∃ tree s', simpleSelector (.upTo depth) false s = .ok tree s' ∧ s'.rest = [] ∧
      tree.bare = entry.tree.bare := by
  obtain ⟨s₁, hread⟩ := entry.reads
  have hnear := entry.near [] h
  rw [List.append_nil, ← hs] at hnear
  obtain ⟨tree, s', hread', hbare, hnear'⟩ :=
    (mirrors_simpleSelector (nestedMirrors_upTo hdepth) false).follows trivial
    hnear (.inl rfl) hread (.inl rfl)
  rw [rest_of_simpleSelector hread entry.openEnd] at hnear'
  exact ⟨tree, s', hread', hnear'.nil, hbare⟩

/-- An entry is read up to the comma after it as it is alone. -/
theorem read_listed {comma : Token} {rest : List Token} (hdepth : entry.tokens.length < depth)
    (h : front.map Token.core = entry.tokens.map Token.core) (hcomma : comma.kind = .comma)
    (hs : s.rest = front ++ comma :: rest) :
    ∃ tree s', simpleSelector (.upTo depth) false s = .ok tree s' ∧
      s'.rest = comma :: rest ∧ tree.bare = entry.tree.bare := by
  obtain ⟨s₁, hread⟩ := entry.reads
  have hnear := entry.near (comma :: rest) h
  rw [← hs] at hnear
  have hL : (Likeness.followed [] (comma :: rest)).Listed := ⟨rfl, comma, rest, rfl, hcomma⟩
  obtain ⟨tree, s', hread', hbare, hnear'⟩ :=
    tracks_simpleSelector (P := fun _ => True) hL (nestedMirrors_upTo hdepth)
    false _ s trivial hnear _ _ hread
  rw [rest_of_simpleSelector hread entry.openEnd] at hnear'
  exact ⟨tree, s', hread', hnear'.nil, hbare⟩

end ListEntry

/-- The tokens of entries with commas between them. -/
inductive Lists : List ListEntry → List Token → Prop where
  | last {entry : ListEntry} {tokens : List Token} :
    tokens.map Token.core = entry.tokens.map Token.core →
    Lists [entry] tokens
  | more {entry : ListEntry} {entries : List ListEntry} {front : List Token} {comma : Token}
    {rest : List Token} :
    front.map Token.core = entry.tokens.map Token.core → comma.kind = .comma → Lists entries rest →
    Lists (entry :: entries) (front ++ comma :: rest)

/-- The round of a selector list that reads one entry. -/
abbrev listRound (depth : Nat) : Bool → Token → Parser (Round Bool Tree) :=
  separatedRound opensBlock (simpleSelector (.upTo depth) false) (pure ())

/-- All entries are read, but for the last one if it is missing. -/
theorem Lists.loopsTo {entries : List ListEntry} {tokens : List Token} (h : Lists entries tokens)
    (hdepth : tokens.length < depth) (hs : s.rest = tokens) : ∃ trees missing s',
      LoopsTo (listRound depth) true s trees missing s' ∧
        (missing = false ∧ trees.map Node.bare = entries.map (fun entry => entry.tree.bare) ∨
          missing = true ∧ ∃ entry ∈ entries, entry.tree.children = []) := by
  induction h generalizing s with
  | @last entry tokens hcore =>
    have hlength := ListEntry.length_eq hcore
    cases htokens : tokens with
    | nil =>
      have hnil : entry.tokens = [] := List.length_eq_zero_iff.1 (by rw [← hlength, htokens]; rfl)
      exact ⟨[], true, s, .done (hs.trans htokens),
        .inr ⟨rfl, entry, .head _, ListEntry.children_of_nil hnil⟩⟩
    | cons token rest =>
      obtain ⟨tree, s', hread, hrest, hbare⟩ := entry.read_last (hlength ▸ hdepth) hcore hs
      have hopens := ListEntry.opensBlock_eq_false hcore token (by rw [htokens]; exact .head _)
      refine ⟨[tree], false, s', separated_last ⟨token, rest, hs.trans htokens, hopens⟩ hread
        (by simp [hrest]) ?_, .inl ⟨rfl, by simp [hbare]⟩⟩
      rw [hrest, hs, htokens]
      exact Nat.succ_pos _
  | @more entry entries front comma rest hcore hcomma _ ih =>
    have hlength := ListEntry.length_eq hcore
    rw [List.length_append, List.length_cons] at hdepth
    have hlt : entry.tokens.length < depth := by omega
    obtain ⟨tree, s₁, hread, hs₁, hbare⟩ := entry.read_listed hlt hcore hcomma hs
    obtain ⟨trees, missing, s', hloop, hentries⟩ := ih (s := { s₁ with rest }) (by omega) rfl
    have hdue : IsDue opensBlock s := by
      cases hfront : front with
      | nil => exact ⟨comma, rest, by rw [hs, hfront]; rfl, by simp [opensBlock, hcomma]⟩
      | cons token others =>
        have hopens := ListEntry.opensBlock_eq_false hcore token (by rw [hfront]; exact .head _)
        exact ⟨token, others ++ comma :: rest, by rw [hs, hfront]; rfl, hopens⟩
    refine ⟨tree :: trees, missing, s', separated_more hdue hread hs₁ hcomma rfl ?_ hloop, ?_⟩
    · rw [hs, List.length_append, List.length_cons]
      exact Nat.lt_add_left _ (Nat.lt_succ_self _)
    · rcases hentries with ⟨rfl, hbares⟩ | ⟨rfl, other, hmem, hblank⟩
      · exact .inl ⟨rfl, by simp [hbare, hbares]⟩
      · exact .inr ⟨rfl, other, .tail _ hmem, hblank⟩

/-- **A list is read entry by entry.** If none of them is blank, the trees of all entries are kept,
and otherwise none. -/
theorem selector_of_lists {entries : List ListEntry} {tokens : List Token}
    (h : Lists entries tokens) (hdepth : tokens.length < depth) :
    ∃ tree s', selector (.upTo depth) { rest := tokens } = .ok tree s' ∧
      tree.bare = .sequence none .selector
        (if (entries.map fun entry => entry.tree.bare).any fun tree => tree.children.isEmpty then []
          else entries.map fun entry => entry.tree.bare) := by
  obtain ⟨trees, missing, s', hloop, hentries⟩ := h.loopsTo hdepth (s := { rest := tokens }) rfl
  have hread : separated opensBlock (simpleSelector (.upTo depth) false)
      (pure ()) { rest := tokens } =
      .ok (trees, missing) s' := by
    rw [separated_eq]
    exact hloop.loop_eq
  have hdiscards : (missing || trees.any fun tree => tree.children.isEmpty) =
      (entries.map fun entry => entry.tree.bare).any fun tree => tree.children.isEmpty := by
    rcases hentries with ⟨rfl, hbares⟩ | ⟨rfl, entry, hmem, hblank⟩
    · rw [Bool.false_or, any_isEmpty_bare, hbares]
    · exact (List.any_eq_true.2 ⟨_,
        List.mem_map_of_mem hmem, by simp [Node.children_bare, hblank]⟩).symm
  have hrun : selector (.upTo depth) { rest := tokens } =
      (if missing || trees.any fun tree => tree.children.isEmpty then do
        noteDiscarded
        return .sequence (tokens.head?.map Token.start) .selector []
      else return .sequence (tokens.head?.map Token.start) .selector trees : Parser Tree) s' :=
    (here_bind_run _).trans (bind_of_ok hread)
  rw [hrun, hdiscards]
  cases hblank : (entries.map fun entry => entry.tree.bare).any
    fun tree => tree.children.isEmpty with
  | true => exact ⟨_, _, rfl, by simp⟩
  | false =>
    rw [hblank, Bool.or_eq_false_iff] at hdiscards
    rcases hentries with ⟨-, hbares⟩ | ⟨hmissing, -⟩
    · exact ⟨_, s', rfl, by simp [hbares]⟩
    · exact nomatch hmissing.symm.trans hdiscards.1

end Grammar
end StyleTree
