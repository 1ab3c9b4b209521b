import StyleTree.Proofs.Grammar.Place
import StyleTree.Proofs.Grammar.Separated

/-! What readers yield. `Gives x p` says that every value the reader `x` gives satisfies `p`, if the
tokens are spelled as their kinds say, and that this stays so for the tokens left. The lemmas follow
the ways to put readers together: sequences, choices and loops. Where only the tokens left matter,
`p` is trivial. -/

namespace StyleTree

open StyleTree.Parser

/-- A punctuator is spelled by its character, and a comment starts with its mark. -/
structure Token.IsSpelled (token : Token) : Prop where
  sign : ∀ c, token.kind.char? = some c → token.text.toList = [c]
  comment : token.kind = .comment → ['/', '*'] <+: token.text.toList

/-- Nothing is asked of an identifier. -/
theorem Token.isSpelled_of_ident {token : Token} (hk : token.kind = .ident) : token.IsSpelled := by
  constructor <;> rw [hk] <;> exact nofun

/-- A punctuator spells a single character. -/
theorem Token.IsSpelled.char?_eq_none {token : Token} (hs : token.IsSpelled) {word : String}
    (hword : word.toList.length ≠ 1) (h : token.spells word = true) : token.kind.char? = none := by
  refine Option.eq_none_iff_forall_ne_some.2 fun c hc => hword ?_
  have hlength := congrArg List.length (of_decide_eq_true h)
  rw [hs.sign c hc, List.length_map, List.length_map] at hlength
  exact hlength.symm

/-- Each punctuator is spelled by its character, and each comment starts with its mark. -/
def Spelled (tokens : List Token) : Prop :=
  ∀ token ∈ tokens, token.IsSpelled

theorem Reads.opens_comment {state : ScanState} {w rest : List Char}
    (h : Reads state .comment w rest) : ['/', '*'] <+: w := by
  cases h with
  | comment => exact ⟨_, rfl⟩
  | sign _ hsign => exact nomatch char?_of_ofChar? hsign

theorem Place.Scans.spelled {p : Place} {tokens : List Token} (h : p.Scans tokens) :
    Spelled tokens := by
  induction tokens generalizing p with
  | nil => exact nofun
  | cons token tokens ih =>
    obtain ⟨cs, -, hread, hrest⟩ := h.cons
    rintro other (_ | ⟨_, hmem⟩)
    · refine ⟨fun c hc => hread.eq_char hc, fun hk => ?_⟩
      rw [hk] at hread
      exact hread.opens_comment
    · exact ih hrest other hmem

theorem Spelled.of_suffix {tokens tokens' : List Token} (h : Spelled tokens)
    (hsuffix : tokens' <:+ tokens) : Spelled tokens' :=
  fun token hmem => h token (hsuffix.mem hmem)

namespace Parser

variable {α β σ : Type} {p q : α → Prop} {r : β → Prop} {x : Parser α} {f : α → Parser β}

/-- Every value that the reader gives satisfies `p`, and punctuators stay spelled. -/
def Gives (x : Parser α) (p : α → Prop) : Prop :=
  ∀ s a s', Spelled s.rest → x s = .ok a s' → Spelled s'.rest ∧ p a

namespace Gives

theorem pure {a : α} (h : p a) : Gives (Pure.pure a) p := by
  rintro s _ _ hs ⟨⟩
  exact ⟨hs, h⟩

theorem fail {cause : Cause} : Gives (Parser.fail cause) p :=
  fun _ _ _ _ h => (fail_ne_ok.1 h).elim

theorem bind (hx : Gives x p) (hf : ∀ a, p a → Gives (f a) r) : Gives (x >>= f) r := by
  intro s b s' hs h
  obtain ⟨a, s₁, ha, hb⟩ := bind_eq_ok.1 h
  obtain ⟨hs₁, hp⟩ := hx s a s₁ hs ha
  exact hf a hp s₁ b s' hs₁ hb

theorem mono (hx : Gives x p) (h : ∀ a, p a → q a) : Gives x q :=
  fun s a s' hs ha => (hx s a s' hs ha).imp_right (h a)

theorem ite {c : Prop} [Decidable c] {y : Parser α} (hx : c → Gives x p) (hy : ¬ c → Gives y p) :
    Gives (if c then x else y) p := by
  split
  · exact hx ‹_›
  · exact hy ‹_›

/-- Two ways to read what comes first, and what comes after. -/
theorem choose {c : Prop} [Decidable c] {y : Parser α} (hx : c → Gives x p) (hy : ¬ c → Gives y p)
    (hf : ∀ a, p a → Gives (f a) r) : Gives (if c then x >>= f else y >>= f) r :=
  .ite (fun hc => (hx hc).bind hf) fun hc => (hy hc).bind hf

/-- A reader that reads tokens or none. -/
theorem of_suffix (h : ∀ s a s', x s = .ok a s' → s'.rest <:+ s.rest) : Gives x fun _ => True :=
  fun s a s' hs ha => ⟨hs.of_suffix (h s a s' ha), trivial⟩

/-- A reader of which nothing is known but the tokens it leaves comes first. -/
theorem step (hx : Gives x fun _ => True) (hf : ∀ a, Gives (f a) r) : Gives (x >>= f) r :=
  hx.bind fun a _ => hf a

end Gives

/-! ## Basic readers -/

theorem gives_get : Gives get fun _ => True :=
  .of_suffix fun s _ _ h => by cases h; exact List.suffix_refl _

theorem gives_current? : Gives current? fun _ => True :=
  .of_suffix fun s _ _ h => by cases h; exact List.suffix_refl _

theorem gives_lookup? (k : Nat) : Gives (lookup? k) fun _ => True :=
  .of_suffix fun s _ _ h => by cases h; exact List.suffix_refl _

theorem gives_kind? : Gives kind? fun _ => True :=
  .of_suffix fun s _ _ h => by cases h; exact List.suffix_refl _

theorem gives_isAt (kind : TokenKind) : Gives (isAt kind) fun _ => True :=
  .of_suffix fun s _ _ h => by cases h; exact List.suffix_refl _

theorem gives_lookupKind (k : Nat) (kind : TokenKind) :
    Gives (lookupKind k kind) fun _ => True :=
  .of_suffix fun s _ _ h => by cases h; exact List.suffix_refl _

theorem gives_here : Gives here fun _ => True :=
  .of_suffix fun s _ _ h => by cases h; exact List.suffix_refl _

theorem gives_advance : Gives advance fun _ => True :=
  .of_suffix fun s _ _ h => by cases h; exact List.tail_suffix _

theorem gives_take : Gives take fun _ => True :=
  .of_suffix fun s _ _ h => by cases h; exact List.tail_suffix _

theorem gives_takeIf (kind : TokenKind) : Gives (takeIf kind) fun _ => True :=
  (gives_isAt kind).step fun _ => .ite (fun _ => gives_take) fun _ => .pure trivial

theorem gives_takeMany (count : Nat) : Gives (takeMany count) fun _ => True :=
  .of_suffix fun s _ _ h => by cases h; exact List.drop_suffix _ _

theorem gives_takeWhile (p : Token → Bool) : Gives (Parser.takeWhile p) fun _ => True :=
  gives_get.step fun _ => gives_takeMany _

theorem gives_skipGaps : Gives skipGaps fun _ => True :=
  .of_suffix fun s _ _ h => by cases h; exact List.dropWhile_suffix _

theorem gives_expect (kind : TokenKind) : Gives (expect kind) fun _ => True :=
  (gives_isAt kind).step fun _ => .ite (fun _ => gives_advance) fun _ => .fail

theorem gives_expectWord (word : String) : Gives (expectWord word) fun _ => True :=
  .of_suffix fun _ _ _ h => (expectWord_eq_ok.1 h).1 ▸ List.suffix_refl _

/-! ## Loops -/

/-- What a round gives keeps `inv`: a property of the items from a state of the loop on. -/
def Round.Keeps (inv : σ → List α → Prop) (st : σ) : Round σ α → Prop
  | .stop => True
  | .next items st' => ∀ later, inv st' later → inv st (items ++ later)

theorem Rounds.gives {round : σ → Token → Parser (Round σ α)} {inv : σ → List α → Prop}
    {st last : σ} {s s' : ParserState} {items : List α} (h : Rounds round st s items last s')
    (hnil : ∀ st, inv st [])
    (hround : ∀ st token, token.IsSpelled → Gives (round st token) (Round.Keeps inv st))
    (hs : Spelled s.rest) : Spelled s'.rest ∧ inv st items := by
  induction h with
  | done => exact ⟨hs, hnil _⟩
  | stop hrest h =>
    rw [hrest] at hs
    exact ⟨(hround _ _ (hs _ (.head _)) _ _ _ (hrest ▸ hs) h).1, hnil _⟩
  | next hrest h _ ih =>
    rw [hrest] at hs
    obtain ⟨hs₁, hkeeps⟩ := hround _ _ (hs _ (.head _)) _ _ _ (hrest ▸ hs) h
    exact (ih hs₁).imp_right (hkeeps _)

theorem gives_loop {round : σ → Token → Parser (Round σ α)} (inv : σ → List α → Prop) {st : σ}
    (hnil : ∀ st, inv st [])
    (hround : ∀ st token, token.IsSpelled → Gives (round st token) (Round.Keeps inv st)) :
    Gives (loop round st) fun result => inv st result.1 :=
  fun _ _ _ hs h => (rounds_of_loop h).gives hnil hround hs

/-- All items that a round adds satisfy `p`. -/
def Round.All (p : α → Prop) : Round σ α → Prop
  | .stop => True
  | .next items _ => ∀ item ∈ items, p item

theorem gives_loop_all {round : σ → Token → Parser (Round σ α)} {st : σ}
    (hround : ∀ st token, token.IsSpelled → Gives (round st token) (Round.All p)) :
    Gives (loop round st) fun result => ∀ item ∈ result.1, p item := by
  refine gives_loop (fun _ items => ∀ item ∈ items, p item) nofun fun st token ht =>
    (hround st token ht).mono ?_
  rintro (_ | ⟨items, _⟩) hitems
  · trivial
  · intro later hlater item hmem
    rcases List.mem_append.1 hmem with hmem | hmem
    · exact hitems item hmem
    · exact hlater item hmem

theorem gives_many {round : Token → Parser Item} {p : Tree → Prop}
    (hround : ∀ token, token.IsSpelled → Gives (round token) (Round.All p)) :
    Gives (many round) fun nodes => ∀ node ∈ nodes, p node :=
  (gives_loop_all fun _ => hround).bind fun _ h => .pure h

theorem gives_add {read : Parser Tree} {p : Tree → Prop} (h : Gives read p) :
    Gives (add read) (Round.All p) :=
  h.bind fun node hnode => .pure (by simpa [Round.All] using hnode)

theorem gives_skip {p : Tree → Prop} : Gives skip (Round.All p) :=
  gives_advance.step fun _ => .pure (by simp [Round.All])

theorem gives_stop {p : Tree → Prop} : Gives stop (Round.All p) :=
  .pure trivial

theorem gives_separated {endsAt : Token → Bool} {entry : Parser Tree} {between : Parser Unit}
    {p : Tree → Prop} (hentry : Gives entry p) (hbetween : Gives between fun _ => True) :
    Gives (separated endsAt entry between) fun result => ∀ node ∈ result.1, p node := by
  refine (gives_loop (fun _ nodes => ∀ node ∈ nodes, p node) nofun fun due token _ => ?_)
  have hnext : ∀ {node : Tree} {due' : Bool}, p node →
      Round.Keeps (fun _ nodes => ∀ node ∈ nodes, p node) due (.next [node] due') := by
    intro node due' hnode later hlater other hmem
    rcases List.mem_cons.1 hmem with rfl | hmem
    · exact hnode
    · exact hlater other hmem
  refine .ite (fun _ => .pure trivial) fun _ => ?_
  refine hentry.bind fun node hnode => (gives_isAt _).step fun _ => .ite (fun _ => ?_) fun _ => ?_
  · exact gives_advance.step fun _ => hbetween.step fun _ => .pure (hnext hnode)
  · exact .pure (hnext hnode)

end Parser
end StyleTree
