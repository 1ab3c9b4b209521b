import StyleTree.Proofs.Grammar.MirrorRule
import StyleTree.Proofs.Grammar.PairingRule

/-! Rules end where their last token says so: a brace that closes, or a semicolon. `SealsIf L P x y
view` says that a run of `y` mirrors a run of `x` whatever is left behind, since `x` reads a fence
last. So the rules that are read of some tokens are read of them when others follow
(`leads_of_rounds`), and the loop goes on from there. Only an at-rule without a body can end with
the input; then the tokens do not end as a statement does. -/

namespace StyleTree

open StyleTree.Parser StyleTree.Grammar

/-! ## How tokens end -/

/-- The last of the tokens that is no gap ends a statement, if there is one. -/
def EndsWell (tokens : List Token) : Prop :=
  ∀ token ∈ lastSolid? tokens, endsStatement token = true

instance (tokens : List Token) : Decidable (EndsWell tokens) :=
  inferInstanceAs (Decidable (∀ token ∈ lastSolid? tokens, endsStatement token = true))

/-- A token that ends a statement is still to come. -/
def Owes (tokens : List Token) : Prop :=
  ∃ token ∈ lastSolid? tokens, endsStatement token = true

theorem lastSolid?_cons (token : Token) (tokens : List Token) :
    lastSolid? (token :: tokens) =
      (lastSolid? tokens).or (if isGap token then none else some token) := by
  rw [lastSolid?, List.filter_cons]
  cases h : isGap token with
  | true => simp [lastSolid?]
  | false => simp [lastSolid?, List.getLast?_cons, Option.or_some]

theorem Takes.map_lastSolid? {tokens front rest : List Token} (h : Takes tokens front rest) :
    (lastSolid? tokens).map endsStatement =
      ((lastSolid? rest).or (lastSolid? front)).map endsStatement := by
  induction h with
  | done => simp [lastSolid?]
  | token _ ih =>
    rw [lastSolid?_cons, lastSolid?_cons, Option.map_or, ih, ← Option.map_or, Option.or_assoc]
  | @cut token unit escape tokens front rest hk hunit hescape _ _ ih =>
    have hword : ∀ word : Token, word.kind = .ident →
        (lastSolid? (word :: tokens)).map endsStatement =
        ((lastSolid? tokens).map endsStatement).or (some false) := by
      intro word hk
      have hsolid : (if isGap word then none else some word) = some word := by simp [isGap, hk]
      rw [lastSolid?_cons, hsolid, Option.map_or, Option.map_some, endsStatement, hk]
      rfl
    rw [hword escape hescape] at ih
    rw [hword token hk, ih, lastSolid?_cons, ← Option.or_assoc,
      Option.map_or (o := (lastSolid? rest).or _), ← ih]
    cases (lastSolid? tokens).map endsStatement <;> rfl

theorem EndsWell.of_takes {tokens front rest : List Token} (h : EndsWell tokens)
    (htakes : Takes tokens front rest) :
    EndsWell rest := by
  intro token hlast
  have hmap := htakes.map_lastSolid?
  rw [Option.mem_def.1 hlast, Option.some_or, Option.map_some, Option.map_eq_some_iff] at hmap
  obtain ⟨other, hother, hends⟩ := hmap
  rw [← hends, h other hother]

/-- Tokens that do not end as a statement does are taken from the front. -/
theorem Owes.of_takes {tokens front rest : List Token} (h : Owes tokens)
    (htakes : Takes tokens front rest) (hfront : Paired false false front) : Owes rest := by
  obtain ⟨token, hlast, hends⟩ := h
  have hmap := htakes.map_lastSolid?
  rw [Option.mem_def.1 hlast, Option.map_some, eq_comm, Option.map_eq_some_iff] at hmap
  obtain ⟨other, hother, heq⟩ := hmap
  rw [hends] at heq
  rcases Option.or_eq_some_iff.1 hother with hother | ⟨-, hother⟩
  · exact ⟨other, hother, heq⟩
  · exact nomatch heq.symm.trans (hfront.inner rfl other hother)

/-- Where a token is left that is no gap, the tokens end as a statement does. -/
theorem EndsWell.owes {token : Token} {tokens : List Token} (h : EndsWell (token :: tokens))
    (hk : isGap token = false) : Owes (token :: tokens) := by
  cases hlast : lastSolid? (token :: tokens) with
  | none => simp [lastSolid?_cons, hk] at hlast
  | some other => exact ⟨other, hlast, h other hlast⟩

/-- The parentheses that are open are closed in due order, so each of them is closed. -/
theorem balancedLength_lt_of_nest {tokens : List Token} {due due' : List TokenKind} {depth : Nat}
    (h : nest false due (tokens.map Token.kind) = some due')
    (hdepth : due'.length + depth < due.length) :
    balancedLength depth tokens < tokens.length := by
  induction tokens generalizing due depth with
  | nil =>
    obtain rfl := Option.some.inj h
    omega
  | cons token tokens ih =>
    rw [List.map_cons, nest_cons, Option.bind_eq_some_iff] at h
    obtain ⟨due₁, hstep, h⟩ := h
    have hlength := length_of_nestStep hstep
    by_cases hright : token.kind = .rightParen
    · cases depth with
      | zero =>
        rw [balancedLength_closing hright]
        exact Nat.succ_pos _
      | succ depth =>
        rw [balancedLength_right hright]
        refine Nat.succ_lt_succ (ih h ?_)
        simp [hright] at hlength
        omega
    · by_cases hleft : token.kind = .leftParen
      · rw [balancedLength_left hleft]
        refine Nat.succ_lt_succ (ih h ?_)
        simp [hleft] at hlength
        omega
      · rw [balancedLength_other hleft hright]
        refine Nat.succ_lt_succ (ih h ?_)
        simp [hleft, hright] at hlength
        omega

theorem parensClose_of_nest {tokens : List Token}
    (h : nest false [] (tokens.map Token.kind) = some []) :
    Likeness.ParensClose tokens := by
  rintro opening rest ⟨front, rfl⟩ hopening
  rw [List.map_append, nest_append, Option.bind_eq_some_iff] at h
  obtain ⟨due, -, h⟩ := h
  rw [List.map_cons, hopening, nest_cons, Option.bind_eq_some_iff] at h
  obtain ⟨due', hopens, h⟩ := h
  refine balancedLength_lt_of_nest h ?_
  have := length_of_nestStep hopens
  simp at this ⊢
  omega

/-- Where the gap is all that is left of the first run, the others that follow are left of the
second one. -/
theorem Likeness.Near.of_length_le {L : Likeness} {tokens tokens' : List Token}
    (h : L.Near tokens tokens') (hlength : tokens.length ≤ L.gap.length) :
    tokens = L.gap ∧ tokens' = L.tail := by
  obtain ⟨core, front, rfl, rfl, hfaces⟩ := h.faces
  obtain rfl : core = [] := List.length_eq_zero_iff.1 (by rw [List.length_append] at hlength; omega)
  obtain rfl := List.map_eq_nil_iff.1 hfaces
  exact ⟨rfl, rfl⟩

namespace Parser

variable {α β γ δ σ : Type} {L : Likeness} {P Q : List Token → Prop} {x y : Parser α}
  {f g : α → Parser β} {view : α → γ} {view' : β → δ} {s s' : ParserState}

/-! ## Runs that are sealed -/

/-- From tokens with the property `P`, a run of `y` mirrors a run of `x`, whatever that leaves
behind. -/
def Tracks (L : Likeness) (P : List Token → Prop) (x y : Parser α) (view : α → γ) : Prop :=
  ∀ s t, P s.rest → L.Near s.rest t.rest → ∀ a s', x s = .ok a s' →
    ∃ b t', y t = .ok b t' ∧ view b = view a ∧ L.Near s'.rest t'.rest

/-- A run of `x` reads a fence last, so a run of `y` mirrors it whatever it leaves behind. -/
structure SealsIf (L : Likeness) (P : List Token → Prop) (x y : Parser α)
    (view : α → γ) : Prop where
  lives : ∀ {s a s'}, P s.rest → x s = .ok a s' → L.Live s.rest
  tracks : Tracks L P x y view

/-- The current token is before the gap. -/
theorem tracks_advance (hP : ∀ tokens, P tokens → L.gap.length < tokens.length) :
    Tracks L P advance advance fun u => u := by
  rintro s t hs hnear _ _ ⟨⟩
  refine ⟨(), _, rfl, rfl, ?_⟩
  have hroom := hP _ hs
  simpa only [List.drop_one] using hnear.of_suffix (n := 1) (.inl (by omega))

namespace Tracks

/-- Nothing is read after the first reader. -/
theorem last {f g : α → β} (hx : Tracks L P x y view)
    (hview : ∀ a b, view b = view a → view' (g b) = view' (f a)) :
    Tracks L P (x >>= fun a => pure (f a)) (y >>= fun b => pure (g b)) view' := by
  intro s t hP hnear _ _ hs
  obtain ⟨a, s₁, ha, hs⟩ := bind_eq_ok.1 hs
  obtain ⟨rfl, rfl⟩ := EStateM.Result.ok.inj hs
  obtain ⟨b, t', hb, hab, hnear'⟩ := hx s t hP hnear a s₁ ha
  exact ⟨g b, t', bind_eq_ok.2 ⟨b, t', hb, rfl⟩, hview a b hab, hnear'⟩

theorem fail {cause : Cause} : Tracks L P (fail cause) (fail cause) view :=
  fun _ _ _ _ _ _ hs => (fail_ne_ok.1 hs).elim

theorem here {f g : Option Nat → Parser β}
    (hf : ∀ info info', Tracks L P (f info) (g info') view') :
    Tracks L P (here >>= f) (here >>= g) view' :=
  fun s t hP hnear b s' hs => hf _ _ s t hP hnear b s' hs

end Tracks

namespace SealsIf

theorem mono (h : SealsIf L P x y view) (hP : ∀ tokens, Q tokens → P tokens) :
    SealsIf L Q x y view :=
  ⟨fun hQ => h.lives (hP _ hQ), fun s t hQ => h.tracks s t (hP _ hQ)⟩

/-- From no tokens at all. -/
theorem absurd (h : ∀ tokens, ¬ P tokens) : SealsIf L P x y view :=
  ⟨fun hP => (h _ hP).elim, fun _ _ hP => (h _ hP).elim⟩

theorem fail {cause : Cause} : SealsIf L P (fail cause) (fail cause) view :=
  ⟨fun _ hs => (fail_ne_ok.1 hs).elim, .fail⟩

/-- The fence that comes last. -/
theorem fence {kind : TokenKind} (hP : ∀ tokens, P tokens → tokens.head?.map Token.kind = some kind)
    (hk : kind.isFence = true) : SealsIf L P advance advance fun u => u where
  lives {s _ _} hs _ := by
    obtain ⟨token, hhead, rfl⟩ := Option.map_eq_some_iff.1 (hP _ hs)
    exact .inr ⟨token, List.mem_of_mem_head? hhead, hk⟩
  tracks s t hs hnear u s' hadvance := by
    obtain ⟨token, hhead, rfl⟩ := Option.map_eq_some_iff.1 (hP _ hs)
    obtain ⟨rest, hrest⟩ := List.head?_eq_some_iff.1 hhead
    refine tracks_advance (P := fun tokens => L.gap.length < tokens.length)
      (fun _ h => h) s t ?_ hnear u s' hadvance
    rw [hrest] at hnear ⊢
    simpa using hnear.room [] fun hblank => by rw [hblank] at hk; exact nomatch hk

/-- Something is known of the tokens that the first reader leaves. -/
theorem bindIf (hx : MirrorsIf L P x y view)
    (hQ : ∀ {s a s'}, P s.rest → x s = .ok a s' → Q s'.rest)
    (hf : ∀ a b, view b = view a → SealsIf L Q (f a) (g b) view') :
    SealsIf L P (x >>= f) (y >>= g) view' := by
  have hlives : ∀ {s a s₁ b s'}, P s.rest → x s = .ok a s₁ → f a s₁ = .ok b s' →
      L.Live s.rest ∧ L.Live s₁.rest := by
    intro s a s₁ b s' hP ha hb
    have hlive := (hf a a rfl).lives (hQ hP ha) hb
    by_cases hL : L.tail = []
    · exact ⟨.inl hL, hlive⟩
    · exact ⟨hlive.of_suffix (hx.leaves hL hP ha), hlive⟩
  constructor
  · intro s b s' hP hs
    obtain ⟨a, s₁, ha, hb⟩ := bind_eq_ok.1 hs
    exact (hlives hP ha hb).1
  · intro s t hP hnear b s' hs
    obtain ⟨a, s₁, ha, hb⟩ := bind_eq_ok.1 hs
    obtain ⟨hlive, hlive₁⟩ := hlives hP ha hb
    obtain ⟨a', t₁, ha', hview, hnear₁⟩ := hx.follows hP hnear hlive ha hlive₁
    obtain ⟨b', t', hb', hview', hnear'⟩ := (hf a a' hview).tracks s₁ t₁ (hQ hP ha) hnear₁ b s' hb
    exact ⟨b', t', bind_eq_ok.2 ⟨a', t₁, ha', hb'⟩, hview', hnear'⟩

theorem bind (hx : MirrorsIf L P x y view)
    (hf : ∀ a b, view b = view a → SealsIf L (fun _ => True) (f a) (g b) view') :
    SealsIf L P (x >>= f) (y >>= g) view' :=
  bindIf hx (fun _ _ => trivial) hf

/-- A reader comes first whose value can be told from what is the same in both runs. -/
theorem step {x y : Parser α} {f g : α → Parser β} (hx : MirrorsIf L P x y fun a => a)
    (hf : ∀ a, SealsIf L (fun _ => True) (f a) (g a) view') :
    SealsIf L P (x >>= f) (y >>= g) view' :=
  bind hx fun a _ h => h ▸ hf a

/-- Nothing is read after the fence. -/
theorem last {f g : α → β} (hx : SealsIf L P x y view)
    (hview : ∀ a b, view b = view a → view' (g b) = view' (f a)) :
    SealsIf L P (x >>= fun a => pure (f a)) (y >>= fun b => pure (g b)) view' where
  lives hP hs := by
    obtain ⟨a, s₁, ha, -⟩ := bind_eq_ok.1 hs
    exact hx.lives hP ha
  tracks := hx.tracks.last hview

theorem ite {c c' : Prop} [Decidable c] [Decidable c'] {x' y' : Parser α} (hc : c' ↔ c)
    (hx : c → SealsIf L P x x' view) (hy : ¬ c → SealsIf L P y y' view) :
    SealsIf L P (if c then x else y) (if c' then x' else y') view := by
  by_cases h : c
  · rw [if_pos h, if_pos (hc.2 h)]
    exact hx h
  · rw [if_neg h, if_neg (mt hc.1 h)]
    exact hy h

/-- A reader that only looks comes first. It sees the same in both runs if the first one
succeeds. -/
theorem survey (see : List Token → α)
    (hsee : ∀ {s t : ParserState}, P s.rest → L.Near s.rest t.rest → L.Live s.rest →
      (∃ b s', f (see s.rest) s = .ok b s') → see t.rest = see s.rest)
    (hf : ∀ a, SealsIf L (fun tokens => P tokens ∧ see tokens = a) (f a) (g a) view') :
    SealsIf L P (survey see >>= f) (survey see >>= g) view' where
  lives hP hs := (hf _).lives ⟨hP, rfl⟩ hs
  tracks s t hP hnear b s' hs := by
    have heq := hsee hP hnear ((hf _).lives ⟨hP, rfl⟩ hs) ⟨b, s', hs⟩
    show ∃ b t', g (see t.rest) t = .ok b t' ∧ _
    rw [heq]
    exact (hf _).tracks s t ⟨hP, rfl⟩ hnear b s' hs

theorem here {f g : Option Nat → Parser β}
    (hf : ∀ info info', SealsIf L P (f info) (g info') view') :
    SealsIf L P (here >>= f) (here >>= g) view' where
  lives hP hs := (hf _ none).lives hP hs
  tracks := .here fun info info' => (hf info info').tracks

theorem kind? {f g : Option TokenKind → Parser β}
    (hf : ∀ k, SealsIf L (fun tokens => P tokens ∧ tokens.head?.map Token.kind = k) (f k)
      (g k) view') :
    SealsIf L P (kind? >>= f) (kind? >>= g) view' :=
  survey (fun tokens => tokens.head?.map Token.kind) (fun _ hnear hlive _ => hnear.kind? hlive) hf

theorem isAt {kind : TokenKind} {f g : Bool → Parser β}
    (hf : ∀ b, SealsIf L (fun tokens =>
      P tokens ∧ (tokens.head?.map Token.kind = some kind ↔ b = true)) (f b) (g b) view') :
    SealsIf L P (isAt kind >>= f) (isAt kind >>= g) view' :=
  survey (fun tokens => decide (tokens.head?.map Token.kind = some kind))
    (fun _ hnear hlive _ => by rw [hnear.kind? hlive])
    fun b => (hf b).mono fun _ h => ⟨h.1, by rw [← h.2, decide_eq_true_iff]⟩

theorem expect {kind : TokenKind} (hk : kind.isFence = true) :
    SealsIf L P (expect kind) (expect kind) fun u => u :=
  isAt fun _ => .ite .rfl (fun hb => fence (fun _ h => h.2.2 hb) hk) fun _ => .fail

end SealsIf

/-! ### Loops -/

/-- The loop adds items and then goes on from a later state. -/
def Leads (round : σ → Token → Parser (Round σ α)) (st : σ) (s : ParserState) (items : List α)
    (st' : σ) (s' : ParserState) : Prop :=
  loop round st s = ((fun later => (items ++ later.1, later.2)) <$> loop round st') s'

namespace Leads

variable {round : σ → Token → Parser (Round σ α)} {st st₁ st' : σ} {items later : List α}
  {s₁ : ParserState} {token : Token} {n : Nat}

theorem refl : Leads round st s [] st s := by
  rw [Leads, run_map]
  cases loop round st s <;> rfl

theorem trans (h : Leads round st s items st₁ s₁) (h' : Leads round st₁ s₁ later st' s') :
    Leads round st s (items ++ later) st' s' := by
  rw [Leads, run_map] at h h' ⊢
  rw [h, h']
  cases loop round st' s' <;> simp

/-- A round that reads a token and goes on. -/
theorem next (hround : ∀ st token, RoundSettles n tokensLeft st token (round st token))
    (hn : s.rest.length < n) (hhead : s.rest.head? = some token)
    (h : round st token s = .ok (.next items st₁) s₁) :
    Leads round st s items st₁ s₁ := by
  have hlt : s₁.rest.length < s.rest.length := (hround st token).lowers hn hhead h
  have hloop :
      loop round st s = (loopUpTo round s.rest.length st₁ >>=
        fun later => pure (items ++ later.1, later.2)) s₁ := by
    rw [loop, get_bind_run, loopUpTo, current?_bind_run, hhead]
    exact bind_of_ok h
  have heq : loopUpTo round s.rest.length st₁ s₁ = loop round st₁ s₁ :=
    loopUpTo_eq hround (hlt.trans hn) hlt (Nat.lt_succ_self _)
  rw [Leads, hloop, run_map, ← heq]
  cases hrun : loopUpTo round s.rest.length st₁ s₁ with
  | ok later s₂ => exact bind_of_ok hrun
  | error e s₂ => exact bind_eq_error.2 (.inl hrun)

end Leads

end Parser

namespace Grammar

variable {L : Likeness} {P : List Token → Prop} {inner inner' : Nested} {sheet sheet' : Parser Tree}
    {token : Token}

/-! ## Rules -/

theorem sealsIf_bracedBlock (hinner : NestedMirrors L inner inner') :
    SealsIf L P (bracedBlock inner) (bracedBlock inner') Node.bare :=
  .here fun _ _ => .step (mirrorsIf_expect _) fun _ =>
    .bind (mirrors_declarations hinner) fun _ _ hnodes =>
    .last (.expect rfl) fun _ _ _ => by simp [hnodes]

theorem sealsIf_ruleset (hinner : NestedMirrors L inner inner') :
    SealsIf L P (ruleset inner) (ruleset inner') Node.bare :=
  .here fun _ _ => .bind (mirrors_selector hinner).always fun _ _ hhead =>
    .last (sealsIf_bracedBlock hinner) fun _ _ hbody => by simp [hhead, hbody]

theorem sealsIf_bodyOf (hinner : NestedMirrors L inner inner') (hsheet : MirrorsTree L sheet sheet')
    (declares : Bool) :
    SealsIf L P (bodyOf inner sheet declares) (bodyOf inner' sheet' declares)
      (Option.map Node.bare) := by
  have hend : ∀ a b : Tree, b.bare = a.bare → SealsIf L (fun _ => True)
      (do expect .rightBrace; return some a) (do expect .rightBrace; return some b)
        (Option.map Node.bare) :=
    fun _ _ hnode => .last (.expect rfl) fun _ _ _ => by simp [hnode]
  exact .ite .rfl (fun _ => .bind (mirrors_block hinner).always hend) fun _ =>
    .bind hsheet.always hend

/-- The body of an at-rule, or the semicolon that stands for it. -/
theorem sealsIf_atruleBody (hinner : NestedMirrors L inner inner')
    (hsheet : MirrorsTree L sheet sheet') :
    SealsIf L Owes (atruleBody inner sheet) (atruleBody inner' sheet') (Option.map Node.bare) := by
  refine .kind? fun k => ?_
  split
  next =>
    refine .absurd fun tokens howes => ?_
    obtain ⟨⟨token, hlast, _⟩, hhead⟩ := howes
    rw [Option.map_eq_none_iff, List.head?_eq_none_iff] at hhead
    simp [hhead, lastSolid?] at hlast
  next =>
    exact .last (.fence (fun _ h => h.2) rfl) fun _ _ _ => rfl
  next =>
    refine .step mirrorsIf_advance fun _ => ?_
    show SealsIf L _ (survey holdsDeclarations >>= bodyOf inner sheet)
      (survey holdsDeclarations >>= bodyOf inner' sheet') _
    refine .survey holdsDeclarations (fun {s t} _ hnear hlive hends => hnear.holdsDeclarations ?_)
      fun declares =>
      (sealsIf_bodyOf hinner hsheet declares).mono fun _ _ => trivial
    by_cases hL : L.tail = []
    · exact .inl hL
    · obtain ⟨_, _, hread⟩ := hends
      exact .inr (mem_of_bodyOf hinner hsheet hL hread)
  next => exact .fail

/-- A reader comes first inside an at-rule, before the end that is still to come. -/
theorem sealsIf_inside {α β γ δ : Type} {x y : Parser α} {f g : α → Parser β} {view : α → γ}
    {view' : β → δ} (hx : Mirrors L x y view) (hpairs : Pairs false false x)
    (hf : ∀ a b, view b = view a → SealsIf L (fun tokens => Known false tokens ∧ Owes tokens) (f a)
      (g b) view') :
    SealsIf L (fun tokens => Known false tokens ∧ Owes tokens) (x >>= f) (y >>= g) view' := by
  refine .bindIf hx.always (fun hs h => ?_) hf
  obtain ⟨hknown, front, htakes, hfront⟩ := hpairs _ _ _ hs.1 trivial h
  exact ⟨hknown, hs.2.of_takes htakes hfront⟩

theorem sealsIf_atrule {depth : Nat} (hinner : NestedMirrors L (.upTo depth) inner')
    (hsheet : MirrorsTree L sheet sheet') :
    SealsIf L (fun tokens => Known false tokens ∧ Owes tokens) (atrule (.upTo depth) sheet)
      (atrule inner' sheet')
      Node.bare :=
  sealsIf_inside (mirrorsIf_expect _) (pairs_expect rfl) fun _ _ _ => .here fun _ _ =>
    sealsIf_inside (mirrors_readName false) (pairs_readName false) fun name name' hname =>
      sealsIf_inside (mirrors_atruleExpression hinner)
        (pairs_atruleExpression (nestedPairs_upTo depth))
        fun _ _ hexpression => .last ((sealsIf_atruleBody hinner hsheet).mono fun _ h => h.2)
          fun _ _ hbody => by simp [hname, hexpression, hbody]

/-- The gap is still to come, and before it the tokens end as a statement does. -/
structure Ahead (L : Likeness) (tokens : List Token) : Prop where
  ends : EndsWell tokens
  known : Known false tokens
  room : L.gap.length < tokens.length

/-- A token before the gap that is no blank is read. -/
theorem tracks_tokenLeaf {kind : LeafKind} (hk : token.kind ≠ .whitespace) :
    Tracks L (fun tokens => tokens.head? = some token ∧ Ahead L tokens) (tokenLeaf kind)
      (tokenLeaf kind)
      Node.bare := by
  suffices htake : Tracks L (fun tokens => tokens.head? = some token ∧ Ahead L tokens) take take
    fun text => text from
    .here fun _ _ => htake.last fun _ _ htext => by simp [htext]
  intro s t hs hnear text s' htake
  obtain ⟨rfl, rfl⟩ := EStateM.Result.ok.inj htake
  obtain ⟨_, t', hadvance, -, hnear'⟩ :=
    tracks_advance (P := Ahead L) (fun _ h => h.room) s t hs.2 hnear _ _ run_advance
  have hface := hnear.getElem? (n := 0) (.inl (by simpa using hs.2.room))
  rw [← List.head?_eq_getElem?, ← List.head?_eq_getElem?, hs.1] at hface
  obtain ⟨token', htoken', hface⟩ := Option.map_eq_some_iff.1 hface
  obtain ⟨-, rfl⟩ := EStateM.Result.ok.inj hadvance
  refine ⟨_, _, run_take, ?_, hnear'⟩
  simp [htoken', hs.1, Likeness.text_eq hface (Likeness.hides_eq_false hk)]

/-- A round reads a rule, or a token before the gap. -/
theorem tracks_rulePart {depth : Nat} (hinner : NestedMirrors L (.upTo depth) inner')
    (hsheet : MirrorsTree L sheet sheet') {token token' : Token}
    (hface : L.face token' = L.face token) :
    Tracks L (fun tokens => tokens.head? = some token ∧ Ahead L tokens)
      (rulePart (.upTo depth) sheet false token)
      (rulePart inner' sheet' false token') (roundView Node.bare fun u => u) := by
  have hskip : ∀ {P}, (∀ tokens, P tokens → L.gap.length < tokens.length) →
      Tracks L P skip skip (roundView Node.bare fun u => u) :=
        fun hP => (tracks_advance hP).last fun _ _ _ => rfl
  have hadd : ∀ {P} {x y : Parser Tree}, Tracks L P x y Node.bare →
      Tracks L P (add x) (add y) (roundView Node.bare fun u => u) := fun h =>
    h.last fun _ _ hnode => by simp [roundView, hnode]
  rw [rulePart, rulePart, Likeness.kind_eq hface]
  split
  next => exact hskip fun _ h => h.2.room
  next hk =>
    rw [isKept, isKept, comment, comment,
      Likeness.text_eq hface (Likeness.hides_eq_false (by simp [hk]))]
    simp only [Bool.false_or]
    split
    · exact hskip fun _ h => h.2.room
    · exact hadd (.here fun _ _ => (tracks_advance fun _ h => h.2.room).last fun _ _ _ => by simp)
  next hk => exact hadd (tracks_tokenLeaf (by simp [hk]))
  next hk =>
    refine hadd ((sealsIf_atrule hinner hsheet).mono fun tokens h => ⟨h.2.known, ?_⟩).tracks
    obtain ⟨rest, rfl⟩ := List.head?_eq_some_iff.1 h.1
    exact h.2.ends.owes (by simp [isGap, hk])
  next => exact .fail
  next => exact hadd (sealsIf_ruleset hinner).tracks

/-- Nothing is made of blanks. -/
theorem items_of_blanks (st : Unit) {last : Unit} {items : List Tree} {s s' : ParserState}
    (h : Rounds (fun _ token => rulePart inner sheet false token) st s items last s')
    (hblank : ∀ token ∈ s.rest, token.kind = .whitespace) : items = [] := by
  induction h with
  | done => rfl
  | stop => rfl
  | @next st s token rest items st₁ s₁ later last s' hrest hs _ ih =>
    rw [rulePart, hblank token (by simp [hrest])] at hs
    obtain ⟨hitems, rfl⟩ := EStateM.Result.ok.inj hs
    obtain ⟨rfl, -⟩ := Round.next.inj hitems
    exact ih fun token hmem => hblank token (List.mem_of_mem_tail hmem)

/-- The rules of tokens are read of them when others follow. -/
theorem leads_of_rounds {depth n : Nat} (hinner : NestedMirrors L (.upTo depth) inner')
    (hsheet : MirrorsTree L sheet sheet') (hpairs : Pairs false true sheet)
    (hround : ∀ (st : Unit) token, RoundSettles n tokensLeft st token
      (rulePart inner' sheet' false token))
    {st last : Unit} {items : List Tree} {s s' t : ParserState}
    (h : Rounds (fun _ token => rulePart (.upTo depth) sheet false token) st s items last s')
    (hnear : L.Near s.rest t.rest) (hends : EndsWell s.rest) (hn : t.rest.length < n) :
    ∃ items' t', Leads (fun _ token => rulePart inner' sheet' false token) st t items' last t' ∧
      t'.rest = L.tail ∧ items'.map Node.bare = items.map Node.bare := by
  induction h generalizing t with
  | done hrest => exact ⟨[], t, .refl, (hnear.of_length_le (by simp [hrest])).2, rfl⟩
  | stop _ hs => exact (neverStops_rulePart _ _ hs).elim
  | @next st s token rest items st₁ s₁ later last s' hrest hs hlater ih =>
    by_cases hroom : L.gap.length < s.rest.length
    · obtain ⟨token', rest', hrest', hface, -⟩ := (hrest ▸ hnear).cons (.inl (hrest ▸ hroom))
      have hhead : t.rest.head? = some token' := by rw [hrest']; rfl
      have hknown : Known false s.rest := ⟨hnear.spelled, nofun⟩
      obtain ⟨result, t₁, hs', hview, hnear₁⟩ := tracks_rulePart hinner hsheet hface s t
        ⟨by rw [hrest]; rfl, hends, hknown, hroom⟩ hnear _ _ hs
      obtain ⟨-, front, htakes, -⟩ :=
        pairsIf_rulePart (nestedPairs_upTo depth) hpairs false s _ s₁ hknown
        (by rw [hrest]; rfl) hs
      cases result with
      | stop => exact nomatch hview
      | next items' st₁' =>
        obtain ⟨hitems, -⟩ := Prod.mk.inj (Option.some.inj hview)
        have hlt := (hround st token').lowers hn hhead hs'
        obtain ⟨later', t', hleads, htail, hlater'⟩ :=
          ih hnear₁ (hends.of_takes htakes) (hlt.trans hn)
        exact ⟨items' ++ later', t', (Leads.next hround hn hhead hs').trans hleads, htail, by
          rw [List.map_append, List.map_append, hitems, hlater']⟩
    · obtain ⟨hgap, htail⟩ := hnear.of_length_le (Nat.le_of_not_lt hroom)
      have hblank : ∀ token ∈ s.rest, token.kind = .whitespace := by
        rw [hgap]
        exact hnear.blank
      rw [items_of_blanks st (.next hrest hs hlater) hblank]
      exact ⟨[], t, .refl, htail, rfl⟩

/-- Blanks before the first rule are passed over. -/
theorem leads_of_blanks {n : Nat} {gap rest : List Token} {s : ParserState}
    (hround : ∀ (st : Unit) token, RoundSettles n tokensLeft st token
      (rulePart inner sheet false token))
    (hgap : ∀ token ∈ gap, token.kind = .whitespace) (hs : s.rest = gap ++ rest)
    (hn : s.rest.length < n) :
    ∃ s', Leads (fun _ token => rulePart inner sheet false token) () s [] () s' ∧
      s'.rest = rest := by
  induction gap generalizing s with
  | nil => exact ⟨s, .refl, hs⟩
  | cons token gap ih =>
    have hhead : s.rest.head? = some token := by rw [hs]; rfl
    have htail : s.rest.tail = gap ++ rest := by rw [hs]; rfl
    have hskip : rulePart inner sheet false token s = .ok
        (.next [] ()) { s with rest := s.rest.tail } := by
      rw [rulePart, hgap token (.head _)]
      rfl
    obtain ⟨s', hleads, hs'⟩ := ih (fun token hmem => hgap token (.tail _ hmem))
      (s := { s with rest := s.rest.tail }) htail (by rw [List.length_tail]; omega)
    exact ⟨s', (Leads.next hround hn hhead hskip).trans hleads, hs'⟩

/-! ## Style sheets -/

/-- The rules of a style sheet that starts here. -/
def rulesUpTo (size : Nat) : Parser (List Tree × Unit) :=
  loop (fun _ token =>
    rulePart (.upTo (size + 1)) (nestedSheet (.upTo (size + 1)) (size + 1)) false token) ()

theorem production_stylesheet (size : Nat) : Context.production .stylesheet size =
    (do let info ← here; return .sequence info .styleSheet (← rulesUpTo size).1) := by
  show (here >>= fun info => many _ >>= fun nodes => pure (Node.sequence info .styleSheet nodes)) =
    _
  simp only [many, bind_assoc, pure_bind]
  rfl

theorem roundSettles_sheet (size : Nat) (st : Unit) (token : Token) :
    RoundSettles (size + 1) tokensLeft st token
    (rulePart (.upTo (size + 1)) (nestedSheet (.upTo (size + 1)) (size + 1)) false token) := by
  have hdeep := nestedSettles_upTo (size + 1)
  exact roundSettles_rulePart (hdeep.weaken (Nat.le_succ size))
    ((settles_nestedSheet hdeep Nat.le.refl).weaken (Nat.le_succ size) Nat.le.refl) false

/-- The rules of a style sheet, and then those of another one. -/
theorem rulesUpTo_append {gap gap₁ gap₂ rest₁ rest₂ first second both : List Token}
    {items : List Tree} {s₁ : ParserState}
    (hnear : (Likeness.followed gap (gap₂ ++ rest₂)).Near first both) (hends : EndsWell first)
    (hfirst : rulesUpTo first.length { rest := first } = .ok (items, ()) s₁)
    (hsecond : second = gap₁ ++ rest₁) (hgap₁ : ∀ token ∈ gap₁, token.kind = .whitespace)
    (hgap₂ : ∀ token ∈ gap₂, token.kind = .whitespace)
    (hrest : (Likeness.followed [] []).Near rest₁ rest₂) (hsize : second.length ≤ both.length) :
    (∀ {later s₂}, rulesUpTo second.length { rest := second } = .ok (later, ()) s₂ →
      ∃ all s', rulesUpTo both.length { rest := both } = .ok (all, ()) s' ∧
        all.map Node.bare = items.map Node.bare ++ later.map Node.bare) ∧
    (∀ {e s₂}, rulesUpTo second.length { rest := second } = .error e s₂ →
      ∃ e' s', rulesUpTo both.length { rest := both } = .error e' s') := by
  have hdepth := Nat.succ_le_succ hnear.length_le
  have hinner := nestedMirrors_upTo (L := .followed gap (gap₂ ++ rest₂)) hdepth
  obtain ⟨items', t₁, hleads, ht₁, hitems⟩ :=
    leads_of_rounds hinner (mirrors_nestedSheet hinner hdepth)
    (pairs_nestedSheet (nestedPairs_upTo _) _) (roundSettles_sheet both.length)
      (rounds_of_loop hfirst)
    (t := { rest := both }) hnear hends (Nat.lt_succ_self _)
  have hle : t₁.rest.length ≤ both.length := by
    obtain ⟨core, front, -, hboth, -⟩ := hnear.faces
    rw [ht₁, hboth, List.length_append]
    exact Nat.le_add_left _ _
  obtain ⟨t₂, hblanks, ht₂⟩ :=
    leads_of_blanks (roundSettles_sheet both.length) hgap₂ ht₁ (Nat.lt_succ_of_le hle)
  obtain ⟨s₂, hblanks₁, hs₂⟩ := leads_of_blanks (roundSettles_sheet second.length) hgap₁
    (s := { rest := second }) hsecond (Nat.lt_succ_self _)
  -- Behind the blanks, the rules of the second style sheet are read in both runs.
  have hinner₂ := nestedMirrors_upTo (L := .followed [] []) (Nat.succ_le_succ hsize)
  have hmirrors : Mirrors (.followed [] []) (rulesUpTo second.length) (rulesUpTo both.length)
      (loopView Node.bare fun u => u) :=
    mirrors_loop (fun _ _ token token' _ hface =>
      itemMirrors_rulePart hinner₂ (mirrors_nestedSheet hinner₂ (Nat.succ_le_succ hsize))
        false hface) rfl
  have hrun : rulesUpTo both.length { rest := both } =
      ((fun later => (items' ++ [] ++ later.1, later.2)) <$> rulesUpTo both.length) t₂ :=
        hleads.trans hblanks
  have hrun₁ : rulesUpTo second.length { rest := second } =
      ((fun later => ([] ++ later.1, later.2)) <$> rulesUpTo second.length) s₂ := hblanks₁
  rw [run_map] at hrun hrun₁
  rw [hrun, hrun₁]
  rw [← hs₂, ← ht₂] at hrest
  cases hloop : rulesUpTo second.length s₂ with
  | ok result s' =>
    obtain ⟨result', t', hloop', hview, -⟩ :=
      hmirrors.follows trivial hrest (.inl rfl) hloop (.inl rfl)
    rw [hloop']
    refine ⟨?_, nofun⟩
    rintro later _ ⟨⟩
    refine ⟨_, t', rfl, ?_⟩
    rw [List.append_nil, List.map_append, hitems, (Prod.mk.inj hview).1]
    rfl
  | error e s' =>
    have hlt : s₂.rest.length < second.length + 1 := by
      rw [hs₂, hsecond, List.length_append]
      omega
    have hunstuck := (settles_loop (P := fun _ => True) (fun _ _ => Nat.le.refl)
      (roundSettles_sheet second.length)).unstuck hlt trivial hloop
    obtain ⟨e', t', hloop', -⟩ := hmirrors.fails rfl trivial hrest hloop hunstuck
    rw [hloop']
    exact ⟨nofun, fun _ => ⟨e', t', rfl⟩⟩

end Grammar
end StyleTree
