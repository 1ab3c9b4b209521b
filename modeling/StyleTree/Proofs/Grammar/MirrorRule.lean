import StyleTree.Proofs.Grammar.Declaration
import StyleTree.Proofs.Grammar.MirrorComponent
import StyleTree.Proofs.Grammar.RulePlacement

/-! Rules read over tokens that look alike. Whether a filter block follows is decided by its own
tokens, up to the parenthesis that closes it (`Near.nextProgid?`), and whether the body of an
at-rule holds declarations by the brace that closes it. So every production is mirrored, and the
readers of the second run may be ready for deeper nested brackets than those of the first one. -/

namespace StyleTree

open StyleTree.Parser StyleTree.Grammar

namespace Likeness

variable {L : Likeness} {tokens tokens' : List Token}

/-- Tokens that are no fences can be left out. -/
theorem Live.dropWhile {p : Token → Bool} (h : L.Live tokens)
    (hp : ∀ token, p token = true → token.kind.isFence = false) :
    L.Live (tokens.dropWhile p) := by
  induction tokens with
  | nil => exact h
  | cons token tokens ih =>
    cases hk : p token with
    | false => rwa [List.dropWhile_cons_of_neg (by simp [hk])]
    | true =>
      rw [List.dropWhile_cons_of_pos hk]
      exact ih (h.of_cons (hp token hk))

theorem isFence_of_isGap {token : Token} (h : isGap token = true) : token.kind.isFence = false := by
  cases hk : token.kind <;> simp_all [isGap, TokenKind.isFence]

namespace Near

/-- Gaps are passed over alike. -/
theorem gap (h : L.Near tokens tokens') (hlive : L.Live tokens) :
    gapLength tokens' = gapLength tokens ∧
      L.Near (tokens.drop (gapLength tokens)) (tokens'.drop (gapLength tokens)) ∧
      L.Live (tokens.drop (gapLength tokens)) := by
  have hlive' := hlive.dropWhile fun _ => isFence_of_isGap
  refine ⟨h.length_takeWhile (fun token token' hface => ?_) hlive',
    h.of_suffix (h.room_of_dropWhile hlive'), ?_⟩
  · rw [isGap, isGap, kind_eq hface]
  · rwa [drop_gapLength]

/-- A word that is no sign, or a kind that is no fence. -/
def PassesFence : String ⊕ TokenKind → Prop
  | .inl word => word.toList.length ≠ 1
  | .inr kind => kind.isFence = false

/-- A fence is spelled by one character. -/
theorem isFence_of_fits {item : String ⊕ TokenKind} {token : Token} (hitem : PassesFence item)
    (hs : token.IsSpelled) (h : Fits item token) : token.kind.isFence = false := by
  cases item with
  | inr kind =>
    have hk : token.kind = kind := h
    rw [hk]
    exact hitem
  | inl word =>
    have hchar := hs.char?_eq_none hitem h
    cases hk : token.kind <;> simp_all [TokenKind.isFence, TokenKind.char?]

theorem startsWith_cons {item : String ⊕ TokenKind} {pattern : List (String ⊕ TokenKind)}
    {token : Token} :
    startsWith (item :: pattern) (token :: tokens) = true ↔
    Fits item token ∧ startsWith pattern tokens = true := by
  cases item <;> simp [Grammar.startsWith, Fits]

theorem fits_iff (hL : L ≠ blanks) {item : String ⊕ TokenKind} {token token' : Token}
    (hface : L.face token' = L.face token) : Fits item token' ↔ Fits item token := by
  cases item with
  | inl word => rw [Fits, Fits, Token.spells, Token.spells, text_eq hface (hides_followed hL _)]
  | inr kind => rw [Fits, Fits, kind_eq hface]

/-- Whether a pattern starts here is seen before the first fence. -/
theorem startsWith (hL : L ≠ blanks) (pattern : List (String ⊕ TokenKind))
    (hpattern : ∀ item ∈ pattern, PassesFence item) (h : L.Near tokens tokens')
    (hlive : L.Live tokens) :
    startsWith pattern tokens' = startsWith pattern tokens ∧ (startsWith pattern tokens = true →
      L.Near (tokens.drop pattern.length) (tokens'.drop pattern.length) ∧
        L.Live (tokens.drop pattern.length)) := by
  induction pattern generalizing tokens tokens' with
  | nil => exact ⟨by rw [Grammar.startsWith, Grammar.startsWith], fun _ => ⟨h, hlive⟩⟩
  | cons item pattern ih =>
    cases tokens with
    | nil =>
      rw [h.nil, hlive.resolve_right (by simp)]
      exact ⟨rfl, fun hstarts => by cases hstarts⟩
    | cons token tokens =>
      obtain ⟨token', rest, rfl, hface, hrest⟩ := h.cons (h.room_of_head hlive)
      have hlater : Fits item token → _ := fun hfits =>
        ih (fun item hmem => hpattern item (.tail _ hmem)) hrest
          (hlive.of_cons (isFence_of_fits (hpattern item (.head _))
            (h.spelled token (.head _)) hfits))
      refine ⟨?_, fun hstarts => ?_⟩
      · rw [Bool.eq_iff_iff, startsWith_cons, startsWith_cons, fits_iff hL hface]
        exact and_congr_right fun hfits => by rw [(hlater hfits).1]
      · obtain ⟨hfits, hstarts⟩ := startsWith_cons.1 hstarts
        exact (hlater hfits).2 hstarts

/-- The parenthesis that closes the one at a place is found at the same place, if there is one. -/
theorem closing (h : L.Near tokens tokens') {n : Nat}
    (hopen : Grammar.startsWith [.inr .leftParen] (tokens.drop n) = true) :
    Grammar.balancedLength 0 (tokens'.drop (n + 1)) =
      Grammar.balancedLength 0 (tokens.drop (n + 1)) ∧
      (n + 1 + Grammar.balancedLength 0 (tokens.drop (n + 1)) < tokens'.length ↔
        n + 1 + Grammar.balancedLength 0 (tokens.drop (n + 1)) < tokens.length) := by
  cases hdrop : tokens.drop n with
  | nil => exact nomatch hdrop ▸ hopen
  | cons opening rest =>
    rw [hdrop, startsWith_cons] at hopen
    have hlength := congrArg List.length hdrop
    rw [List.length_drop, List.length_cons] at hlength
    have hrest : tokens.drop (n + 1) = rest := by rw [← List.tail_drop, hdrop, List.tail_cons]
    have hroom : n + 1 + L.gap.length ≤ tokens.length := by
      have hsplit : tokens = tokens.take n ++ opening :: rest := by
        rw [← hdrop, List.take_append_drop]
      have hlt := (hsplit ▸ h).room _ (by simp [show opening.kind = _ from hopen.1])
      rw [← hsplit, List.length_take] at hlt
      omega
    have hnear := h.of_suffix (n := n + 1) (.inl hroom)
    rw [hrest] at hnear ⊢
    by_cases htail : L.tail = []
    · refine ⟨hnear.balancedLength (.inl htail), ?_⟩
      rw [h.length_eq htail]
    · have hcloses := h.closed htail opening rest (hdrop ▸ List.drop_suffix n tokens) hopen.1
      have hle := h.length_le
      exact ⟨hnear.balancedLength (.inr hcloses), by omega⟩

end Near

/-- From this place on, the tokens look alike and a fence is left. -/
structure Aligned (L : Likeness) (tokens tokens' : List Token) (n : Nat) : Prop where
  near : L.Near (tokens.drop n) (tokens'.drop n)
  live : L.Live (tokens.drop n)

namespace Aligned

variable {n : Nat}

theorem gap (h : L.Aligned tokens tokens' n) :
    gapLength (tokens'.drop n) = gapLength (tokens.drop n) ∧
    L.Aligned tokens tokens' (n + gapLength (tokens.drop n)) := by
  obtain ⟨hlength, hnear, hlive⟩ := h.near.gap h.live
  rw [List.drop_drop, List.drop_drop] at hnear
  rw [List.drop_drop] at hlive
  exact ⟨hlength, hnear, hlive⟩

theorem startsWith (h : L.Aligned tokens tokens' n) (hL : L ≠ blanks)
    (pattern : List (String ⊕ TokenKind)) (hpattern : ∀ item ∈ pattern, Near.PassesFence item) :
    startsWith pattern (tokens'.drop n) = startsWith pattern (tokens.drop n) ∧
      (startsWith pattern (tokens.drop n) = true →
        L.Aligned tokens tokens' (n + pattern.length)) := by
  obtain ⟨heq, hstarts⟩ := h.near.startsWith hL pattern hpattern h.live
  refine ⟨heq, fun hpattern => ?_⟩
  obtain ⟨hnear, hlive⟩ := hstarts hpattern
  rw [List.drop_drop, List.drop_drop] at hnear
  rw [List.drop_drop] at hlive
  exact ⟨hnear, hlive⟩

end Aligned

namespace Near

/-- A filter block is seen to start before the first fence, and to end where it is closed. -/
theorem progidLength? (hL : L ≠ blanks) (h : L.Near tokens tokens') (hlive : L.Live tokens) :
    progidLength? tokens' = progidLength? tokens := by
  obtain ⟨heq₁, hstarts₁⟩ := h.startsWith hL [.inl "progid", .inr .colon]
    (by simp [PassesFence, TokenKind.isFence]) hlive
  unfold Grammar.progidLength?
  rw [heq₁]
  refine ite_congr rfl (fun _ => rfl) fun h₁ => ?_
  obtain ⟨hnear₁, hlive₁⟩ := hstarts₁ (by simpa using h₁)
  obtain ⟨hgap₁, hname⟩ := Aligned.gap ⟨hnear₁, hlive₁⟩
  obtain ⟨heq₂, hstarts₂⟩ := hname.startsWith hL [.inl "dximagetransform", .inr .fullStop,
    .inl "microsoft", .inr .fullStop, .inr .ident] (by simp [PassesFence, TokenKind.isFence])
  simp only [List.length_cons, List.length_nil, Nat.zero_add, Nat.reduceAdd] at hgap₁ heq₂ hstarts₂
  rw [hgap₁]
  dsimp only
  rw [heq₂]
  refine ite_congr rfl (fun _ => rfl) fun h₂ => ?_
  obtain ⟨hgap₂, hparen⟩ := (hstarts₂ (by simpa using h₂)).gap
  rw [hgap₂, (hparen.startsWith hL [.inr .leftParen] (by simp [PassesFence, TokenKind.isFence])).1]
  refine ite_congr rfl (fun _ => rfl) fun h₃ => ?_
  obtain ⟨hlength, hcloses⟩ := h.closing (by simpa using h₃)
  simp only [hlength, hcloses]

theorem progidLength?_eq_none (h : ∀ token ∈ tokens.head?, token.spells "progid" = false) :
    Grammar.progidLength? tokens = none := by
  cases tokens with
  | nil => rfl
  | cons token tokens => simp [Grammar.progidLength?, Grammar.startsWith, h token rfl]

/-- Where the text of blanks is left open, there is no filter block. -/
theorem nextProgid?_blanks (hL : L = blanks) (h : L.Near tokens tokens') :
    nextProgid? tokens = none ∧ nextProgid? tokens' = none := by
  have hlive : ∀ tokens, L.Live tokens := fun _ => .inl (by rw [hL]; rfl)
  obtain ⟨hgap, hnear, -⟩ := h.gap (hlive tokens)
  have hlacks : ∀ token ∈ (tokens.drop (gapLength tokens)).head?, token.spells "progid" = false :=
    fun token hmem => (h.words hL).2.spells_eq_false (by decide)
      (List.mem_of_mem_drop (List.mem_of_mem_head? hmem))
  rw [Grammar.nextProgid?, Grammar.nextProgid?, hgap]
  refine ⟨progidLength?_eq_none hlacks, progidLength?_eq_none fun token' hmem => ?_⟩
  have hface := hnear.head? (hlive _)
  rw [Option.mem_def.1 hmem] at hface
  obtain ⟨token, htoken, hface⟩ := Option.map_eq_some_iff.1 hface.symm
  have hk : isGap token = false := by
    rw [drop_gapLength] at htoken
    exact head?_dropWhile_not token htoken
  rw [spells_eq hface.symm (fun hblank => by simp [isGap, hblank] at hk), hlacks token htoken]

/-- Whether a filter block follows is seen alike. -/
theorem nextProgid? (h : L.Near tokens tokens') (hlive : L.Live tokens) :
    nextProgid? tokens' = nextProgid? tokens := by
  by_cases hL : L = blanks
  · rw [(h.nextProgid?_blanks hL).1, (h.nextProgid?_blanks hL).2]
  · obtain ⟨hgap, hnear, hlive'⟩ := h.gap hlive
    rw [Grammar.nextProgid?, Grammar.nextProgid?, hgap, hnear.progidLength? hL hlive']

/-- Before the brace that closes it, a body is seen to hold declarations or not. -/
theorem holdsDeclarations (h : L.Near tokens tokens')
    (hcloses : L.tail = [] ∨ ∃ token ∈ tokens, token.kind = .rightBrace) :
    holdsDeclarations tokens' = holdsDeclarations tokens := by
  induction tokens generalizing tokens' with
  | nil => rw [h.nil, hcloses.resolve_right (by simp)]
  | cons token tokens ih =>
    have hlive : L.Live (token :: tokens) :=
      hcloses.imp_right fun ⟨closing, hmem, hk⟩ => ⟨closing, hmem, by rw [hk]; rfl⟩
    obtain ⟨token', rest, rfl, hface, hrest⟩ := h.cons (h.room_of_head hlive)
    rw [Grammar.holdsDeclarations, Grammar.holdsDeclarations, kind_eq hface]
    split
    next => rfl
    next => rfl
    next => rfl
    next hbrace _ _ =>
      refine ih hrest (hcloses.imp_right fun ⟨closing, hmem, hk⟩ => ⟨closing, ?_, hk⟩)
      rcases List.mem_cons.1 hmem with rfl | hmem
      · exact absurd hk hbrace
      · exact hmem

end Near
end Likeness

namespace Grammar

variable {α β γ δ : Type} {L : Likeness} {P : List Token → Prop} {inner inner' : Nested}
  {info info' : Option Nat} {name : String}

/-! ## Filter values -/

theorem mirrors_progid (hL : L ≠ .blanks) (count : Nat) :
    MirrorsTree L (progid count) (progid count) :=
  .here fun _ _ => mirrorsIf_skipGaps.step fun _ => .here fun _ _ =>
    (mirrorsIf_takeMany fun _ _ token _ => Likeness.hides_followed hL token.kind).step fun _ =>
      mirrorsIf_skipGaps.step fun _ => .pure (by simp)

/-- What is read where a filter block of so many tokens follows, or none. -/
def progidItem : Option Nat → Parser Item
  | some count => add (progid count)
  | none => stop

theorem itemMirrors_progidPart {token token' : Token} :
    ItemMirrors L Node.bare token (progidPart token) (progidPart token') := by
  show MirrorsIf L _ (survey nextProgid? >>= progidItem) (survey nextProgid? >>= progidItem) _
  refine .lookIf nextProgid? (fun _ => rfl) (R := fun a b => b = a ∧ (L = .blanks → a = none))
    (fun htail _ => ⟨rfl, fun hL => absurd (hL ▸ rfl) htail⟩)
    (fun _ hnear hlive _ => ⟨hnear.nextProgid? hlive, fun hL => (hnear.nextProgid?_blanks hL).1⟩)
    fun count? count?' h => ?_
  obtain ⟨h, hblanks⟩ := h
  subst h
  cases count?' with
  | none => exact .pure rfl
  | some count =>
    exact (itemMirrors_add (mirrors_progid (fun hL => nomatch hblanks hL) count).always).mono
      fun _ h => h.1

theorem mirrors_optionalFlag : Mirrors L optionalFlag optionalFlag fun important => important :=
  .isAt fun _ =>
    .ite .rfl (fun _ => mirrors_importantFlag.always.step fun _ => .pure rfl) fun _ => .pure rfl

theorem mirrors_filterValue : MirrorsTree L filterValue filterValue := by
  rw [filterValue_eq]
  exact .here fun _ _ => (mirrors_many fun _ _ _ => itemMirrors_progidPart).bind fun _ _ hblocks =>
    mirrorsIf_skipGaps.step fun _ => mirrors_optionalFlag.step fun _ => .pure (by simp [hblocks])

/-! ## Attributes -/

theorem mirrors_attributeOperator :
    Mirrors L attributeOperator attributeOperator fun sign => sign := by
  refine .kind? fun k => ?_
  split
  case h_1 => exact mirrorsIf_take fun _ h => by simp [h.2]
  case h_7 => exact .fail
  all_goals exact (mirrorsIf_take fun _ h => by simp [h.2]).step fun _ =>
    (mirrorsIf_expect _).step fun _ => .pure rfl

theorem mirrors_attributeTest : Mirrors L attributeTest attributeTest (Prod.map id Node.bare) := by
  refine mirrors_attributeOperator.step fun _ =>
    mirrorsIf_skipGaps.step fun _ => .isAt fun _ => .choose .rfl
      (fun h => mirrorsIf_tokenLeaf fun _ hat => by simp [hat.2.2 h])
      (fun _ => (mirrors_identifier false).always) fun _ _ hnode => mirrorsIf_skipGaps.step fun _ =>
        .pure (by simp [hnode])

theorem mirrors_attributeFlags : Mirrors L attributeFlags attributeFlags fun flags => flags :=
  .isAt fun _ => .ite .rfl
    (fun h => (mirrorsIf_take fun _ hat => by simp [hat.2.2 h]).step fun _ =>
      mirrorsIf_skipGaps.step fun _ => .pure rfl)
    fun _ => .pure rfl

theorem mirrors_attributeSelector : MirrorsTree L attributeSelector attributeSelector := by
  refine .here fun info info' => (mirrorsIf_expect _).step fun _ => mirrorsIf_skipGaps.step fun _ =>
    (mirrors_qualifiedName true).bind fun name name' hname =>
      mirrorsIf_skipGaps.step fun _ => .kind? fun k => ?_
  have hend : ∀ test test' : Option (String × Tree),
      test'.map (Prod.map id Node.bare) = test.map (Prod.map id Node.bare) → MirrorsTree L (do
        let flags ← attributeFlags
        expect .rightBracket
        return .attributeSelector info name (test.map Prod.fst) (test.map Prod.snd) flags) (do
        let flags ← attributeFlags
        expect .rightBracket
        return .attributeSelector info' name' (test'.map Prod.fst) (test'.map Prod.snd) flags) := by
    refine fun test test' htest => mirrors_attributeFlags.step fun _ =>
      (mirrorsIf_expect _).step fun _ => .pure ?_
    have hsigns := congrArg (Option.map Prod.fst) htest
    have hnodes := congrArg (Option.map Prod.snd) htest
    simp only [Option.map_map] at hsigns hnodes
    simpa [hname] using ⟨hsigns, hnodes⟩
  split
  next => exact .value (hend none none rfl).always
  next => exact .value (hend none none rfl).always
  next => exact .value (hend none none rfl).always
  next => exact mirrors_attributeTest.always.bind fun test test' htest =>
    .value (hend (some test) (some test') (by simp [htest]))

/-! ## Pseudo-classes and pseudo-elements -/

/-- Whether the token is the letter that multiplies the number before it. -/
def isStep (token : Token) : Bool :=
  token.kind = .ident && token.spells "n"

/-- What is read of a number with such a letter after it, or without one. -/
def nthNumber (info : Option Nat) (followed : Bool) : Parser Tree := do
  return .leaf info .nth (← takeMany (if followed then 2 else 1))

theorem isStep_face {token token' : Token} (hface : L.face token' = L.face token) :
    isStep token' = isStep token := by
  rw [isStep, isStep, Likeness.kind_eq hface]
  by_cases hk : token.kind = .ident
  · rw [Likeness.spells_eq hface (by simp [hk])]
  · simp [hk]

theorem isStep_any {next next' : Option Token} (h : next'.map L.face = next.map L.face) :
    next'.any isStep = next.any isStep := by
  cases next with
  | none =>
    obtain rfl : next' = none := by simpa using h
    rfl
  | some next =>
    obtain ⟨next', rfl, hface⟩ := Option.map_eq_some_iff.1 h
    exact isStep_face hface

theorem mirrors_nth : MirrorsTree L nth nth := by
  refine .here fun info info' => .current? .fail fun token token' hface => ?_
  dsimp only
  rw [Likeness.kind_eq hface]
  refine .ite .rfl (fun hk => ?_) fun _ => .ite .rfl (fun hk => ?_) fun _ => .fail
  · -- Of the two tokens that can be taken, the second one is an identifier.
    show MirrorsIf L _ (survey (fun tokens => tokens[1]?.any isStep) >>= nthNumber info)
      (survey (fun tokens => tokens[1]?.any isStep) >>= nthNumber info') Node.bare
    refine .survey (fun {tokens tokens'} hP hnear hlive => ?_) fun followed => ?_
    · obtain ⟨rest, rfl⟩ := List.head?_eq_some_iff.1 hP.2
      exact isStep_any (hnear.second? ⟨token, rest, rfl, by rw [hk]; rfl⟩ hlive)
    · refine (mirrorsIf_takeMany fun tokens hP other hmem => Likeness.hides_eq_false ?_).step
        fun _ => mirrorsIf_leaf
      obtain ⟨rest, rfl⟩ := List.head?_eq_some_iff.1 hP.1.2
      cases followed with
      | false =>
        obtain rfl : other = token := by simpa using hmem
        simp [hk]
      | true =>
        have hany := hP.2
        cases rest with
        | nil => simp at hany
        | cons next rest =>
          have hnext : next.kind = .ident := by simp [isStep] at hany; exact hany.1
          rcases List.mem_cons.1 hmem with rfl | hmem
          · simp [hk]
          · obtain rfl : other = next := by simpa using hmem
            simp [hnext]
  · rw [Likeness.spells_eq hface (by simp [hk]), Likeness.spells_eq hface (by simp [hk]),
      Likeness.spells_eq hface (by simp [hk])]
    exact .ite .rfl
      (fun _ => (mirrorsIf_take fun _ h => by simp [h.2, hk]).step fun _ => mirrorsIf_leaf)
      fun _ => .fail

theorem itemMirrors_nthPart {token token' : Token} (hface : L.face token' = L.face token) :
    ItemMirrors L Node.bare token (nthPart token) (nthPart token') := by
  rw [nthPart, nthPart, Likeness.kind_eq hface]
  split
  next => exact itemMirrors_stop
  next => exact itemMirrors_skip
  next => exact itemMirrors_skip
  next hk => exact itemMirrors_operator (by simp [hk])
  next hk => exact itemMirrors_operator (by simp [hk])
  next => exact itemMirrors_add mirrors_nth.always

theorem mirrors_nthSelector : MirrorsTree L nthSelector nthSelector :=
  .here fun _ _ => (mirrorsIf_expect _).step fun _ => (mirrors_readName false).step fun _ =>
    (mirrorsIf_expect _).step fun _ =>
      (mirrors_many fun _ _ => itemMirrors_nthPart).bind fun _ _ hparts =>
      (mirrorsIf_expect _).step fun _ => .pure (by simp [argument, hparts])

theorem mirrors_pseudoElement : MirrorsTree L pseudoElement pseudoElement :=
  .here fun _ _ => (mirrorsIf_expect _).step fun _ => (mirrorsIf_expect _).step fun _ =>
    (mirrors_readName false).step fun _ => mirrorsIf_leaf

theorem mirrors_pseudoClass (hinner : NestedMirrors L inner inner') :
    MirrorsTree L (pseudoClass inner) (pseudoClass inner') :=
  .here fun _ _ => (mirrorsIf_expect _).step fun _ => .here fun _ _ =>
    mirrorsIf_named fun _ hname =>
    .isAt fun _ => .ite .rfl (fun _ => (mirrors_function hinner hname).always) fun _ =>
      mirrorsIf_leaf

/-- What a colon opens is seen in the token after it. -/
theorem mirrorsIf_pseudo (hinner : NestedMirrors L inner inner')
    (hP : ∀ tokens, P tokens → tokens.head?.map Token.kind = some .colon) :
    MirrorsIf L P (pseudo inner) (pseudo inner') Node.bare := by
  refine .lookup? (fun tokens htokens => ?_) fun next next' hnext => ?_
  · have hhead := hP tokens htokens
    cases tokens with
    | nil => exact nomatch hhead
    | cons token rest => exact ⟨token, rest, rfl, by rw [Option.some.inj hhead]; rfl⟩
  · cases next with
    | none =>
      obtain rfl : next' = none := by simpa using hnext
      exact mirrorsIf_advance.step fun _ => .fail
    | some next =>
      obtain ⟨next', rfl, hface⟩ := Option.map_eq_some_iff.1 hnext
      dsimp only
      rw [Likeness.kind_eq hface]
      refine .ite .rfl (fun _ => mirrors_pseudoElement.always) fun _ => .ite ?_
        (fun _ => mirrors_nthSelector.always) fun _ => (mirrors_pseudoClass hinner).always
      by_cases hk : next.kind = .ident
      · rw [Likeness.spells_eq hface (by simp [hk])]
      · simp [hk]

/-! ## Simple selectors -/

theorem mirrors_classSelector : MirrorsTree L classSelector classSelector :=
  .here fun _ _ => (mirrorsIf_expect _).step fun _ => (mirrors_readName false).step fun _ =>
    mirrorsIf_leaf

theorem mirrors_idSelector : MirrorsTree L idSelector idSelector :=
  .here fun _ _ => (mirrorsIf_expect _).step fun _ => (mirrors_readName false).step fun _ =>
    mirrorsIf_leaf

theorem mirrors_combinator {token token' : Token} (hface : L.face token' = L.face token) :
    MirrorsTree L (combinator token) (combinator token') := by
  refine .here fun _ _ => mirrorsIf_advance.step fun _ => ?_
  rw [Likeness.kind_eq hface]
  split
  next => exact mirrorsIf_leaf
  next => exact (mirrorsIf_expectWord _).step fun _ => mirrorsIf_advance.step fun _ =>
    (mirrorsIf_expect _).step fun _ => mirrorsIf_leaf
  next hk _ =>
    rw [Likeness.text_eq hface (Likeness.hides_eq_false hk)]
    exact mirrorsIf_leaf

/-- The number of tokens of a percentage before its sign, if one stands here. -/
def percentLength? (tokens : List Token) : Option Nat :=
  match numberLength? tokens with
  | some count => if tokens[count]?.map Token.kind = some .percentSign then some count else none
  | none => none

/-- What is read of a percentage of so many tokens, or of a name. -/
def percentageOf : Option Nat → Parser Tree
  | some count => do
    let info ← here
    let number ← takeMany count
    advance
    return .leaf info .percentage number
  | none => qualifiedName false

theorem percentageOrName_eq : percentageOrName = survey percentLength? >>= percentageOf := by
  funext s
  show _ = percentageOf (percentLength? s.rest) s
  rw [percentageOrName, get_bind_run]
  cases h : numberLength? s.rest with
  | none => simp only [percentLength?, h, percentageOf]
  | some count => by_cases hk : s.rest[count]?.map Token.kind = some .percentSign <;>
      simp only [percentLength?, h, hk, if_true, if_false, percentageOf]

theorem mirrors_percentageOrName : MirrorsTree L percentageOrName percentageOrName := by
  rw [percentageOrName_eq]
  refine .survey (fun {tokens tokens'} _ hnear hlive => ?_) fun count? => ?_
  · obtain ⟨hlength, hafter⟩ := hnear.numberLength? hlive
    rw [percentLength?, percentLength?, hlength]
    cases hcount : numberLength? tokens with
    | none => rfl
    | some count =>
      -- The token after the number is not behind the first fence.
      have hkind := Likeness.map_kind_eq (hnear.getElem? (hnear.room_of_live (hafter count hcount)))
      simp only [hkind]
  · cases count? with
    | none => exact (mirrors_qualifiedName false).always
    | some count =>
      refine .here fun _ _ =>
        (mirrorsIf_takeMany fun tokens hP token hmem => Likeness.hides_eq_false ?_).step fun _ =>
        mirrorsIf_advance.step fun _ => mirrorsIf_leaf
      have hcount : numberLength? tokens = some count := by
        have hpercent := hP.2
        unfold percentLength? at hpercent
        grind
      rcases numberLength?_kinds hcount token hmem with hk | hk | hk <;> simp [hk]

/-- A state of the loop as it is viewed: positions do not matter. -/
def selectorView (state : SelectorState) : Option (Node SourceInfo) × Bool :=
  (state.pending.map Node.bare, state.started)

theorem isDescendant_of_bare {node node' : Tree} (h : node'.bare = node.bare) :
    isDescendant node' = isDescendant node := by
  have key : ∀ node : Tree, isDescendant node = true ↔
      ∃ info, node.bare = .leaf info .combinator " " := by
    intro node
    cases node with
    | leaf info kind text => cases kind <;> simp [isDescendant]
    | _ => simp [isDescendant, Node.bare, Node.mapInfo]
  rw [Bool.eq_iff_iff, key, key, h]

theorem isOpen_of_view {state state' : SelectorState}
    (h : selectorView state' = selectorView state) :
    state'.isOpen = state.isOpen := by
  have hpending := (Prod.mk.inj h).1
  rw [SelectorState.isOpen, SelectorState.isOpen]
  cases hp : state.pending with
  | none =>
    rw [hp] at hpending
    rw [Option.map_eq_none_iff.1 hpending]
  | some node =>
    rw [hp] at hpending
    obtain ⟨node', hnode', hbare⟩ := Option.map_eq_some_iff.1 hpending
    rw [hnode', Option.any_some, Option.any_some, isDescendant_of_bare hbare]

theorem roundMirrors_selectorPart (hinner : NestedMirrors L inner inner') (nested : Bool) :
    RoundMirrors L Node.bare selectorView (selectorPart inner nested)
      (selectorPart inner' nested) := by
  intro state state' token token' hstate hface
  obtain ⟨hpending, hstarted⟩ := Prod.mk.inj hstate
  have hpart : ∀ {x y : Parser Tree}, MirrorsIf L
      (fun tokens => tokens.head? = some token) x y Node.bare →
      MirrorsIf L (fun tokens => tokens.head? = some token)
        (do return .next (state.pending.toList ++ [← x]) { started := true } :
          Parser (Round SelectorState Tree))
        (do return .next (state'.pending.toList ++ [← y]) { started := true })
        (roundView Node.bare selectorView) := fun h => h.bind fun _ _ hnode => .pure (by
    have htoList := congrArg Option.toList hpending
    rw [Option.toList_map, Option.toList_map] at htoList
    simp [roundView, hnode, htoList])
  have hskip : MirrorsIf L (fun tokens => tokens.head? = some token)
      (do advance; return .next [] state : Parser (Round SelectorState Tree))
        (do advance; return .next [] state')
      (roundView Node.bare selectorView) :=
    mirrorsIf_advance.step fun _ => .pure (by simp [roundView, hstate])
  have hjoint : MirrorsIf L (fun tokens => tokens.head? = some token)
      (do return .next [] { state with pending := some (← combinator token) } :
        Parser (Round SelectorState Tree))
      (do
        return .next []
          { state' with pending := some (← combinator token'), started := state.started })
      (roundView Node.bare selectorView) :=
    (mirrors_combinator hface).always.bind fun _ _ hnode =>
      .pure (by simp [roundView, selectorView, hnode])
  have hnone : state'.pending.isNone = state.pending.isNone := by
    have := congrArg Option.isNone hpending
    rwa [Option.isNone_map, Option.isNone_map] at this
  rw [selectorPart, selectorPart, Likeness.kind_eq hface, hnone, hstarted, isOpen_of_view hstate]
  dsimp only
  split
  next => exact .pure rfl
  next => exact .ite .rfl (fun _ => .fail) fun _ => .pure rfl
  next => exact .ite .rfl (fun _ => .pure rfl) fun _ => .fail
  next => exact hskip
  next => exact .ite .rfl (fun _ => hjoint) fun _ => hskip
  next => exact .ite .rfl (fun _ => .fail) fun _ => hjoint
  next => exact .ite .rfl (fun _ => .fail) fun _ => hjoint
  next => exact .ite .rfl (fun _ => .fail) fun _ => hjoint
  next => exact .ite .rfl (fun _ => .fail) fun _ => hjoint
  next => exact hpart mirrors_classSelector.always
  next => exact hpart mirrors_attributeSelector.always
  next => exact hpart mirrors_idSelector.always
  next hk => exact hpart (mirrorsIf_pseudo hinner fun _ hat => by simp [hat, hk])
  next => exact hpart (mirrors_qualifiedName false).always
  next => exact hpart (mirrors_qualifiedName false).always
  next => exact hpart (mirrors_qualifiedName false).always
  next => exact hpart (mirrors_qualifiedName false).always
  next => exact hpart mirrors_percentageOrName.always
  next => exact hpart mirrors_percentageOrName.always
  next => exact .fail

theorem mirrors_simpleSelector (hinner : NestedMirrors L inner inner') (nested : Bool) :
    MirrorsTree L (simpleSelector inner nested) (simpleSelector inner' nested) := by
  refine .here fun _ _ => (mirrors_loop (roundMirrors_selectorPart hinner nested) rfl).bind
    fun result result' hresult => ?_
  obtain ⟨hitems, hlast⟩ := Prod.mk.inj hresult
  exact .ite (by rw [isOpen_of_view hlast]) (fun _ => .fail) fun _ => .pure (by simp [hitems])

/-! ## Selector lists -/

theorem mirrors_noteDiscarded : Mirrors L noteDiscarded noteDiscarded fun u => u where
  leaves := by
    rintro - s _ _ - ⟨⟩
    exact List.suffix_refl _
  follows := by
    rintro s t - hnear - _ _ ⟨⟩ -
    exact ⟨(), _, rfl, rfl, hnear⟩
  fails _ _ _ _ _ _ _ hs := nomatch hs

theorem any_isEmpty_bare (entries : List Tree) : (entries.any fun entry => entry.children.isEmpty) =
    (entries.map Node.bare).any fun entry => entry.children.isEmpty := by
  simp only [List.any_map, Function.comp_def, Node.children_bare, List.isEmpty_map]

theorem mirrors_selector (hinner : NestedMirrors L inner inner') :
    MirrorsTree L (selector inner) (selector inner') := by
  refine .here fun _ _ =>
    (mirrors_separated (fun token token' hface => by rw [Likeness.kind_eq hface])
      (mirrors_simpleSelector hinner false) (.pure rfl)).bind fun result result' hresult => ?_
  obtain ⟨hitems, hmissing⟩ := Prod.mk.inj hresult
  have hempty : (result'.1.any fun entry => entry.children.isEmpty) =
      result.1.any fun entry => entry.children.isEmpty := by
    rw [any_isEmpty_bare, any_isEmpty_bare, hitems]
  dsimp only at hmissing ⊢
  refine .ite (by rw [hmissing, hempty]) (fun _ => ?_) fun _ => .pure (by simp [hitems])
  exact mirrors_noteDiscarded.step fun _ => .pure (by simp)

/-! ## Nesting -/

/-- The readers of the second run may read deeper nested brackets. -/
theorem nestedMirrors_upTo {depth depth' : Nat} (h : depth ≤ depth') :
    NestedMirrors L (.upTo depth) (.upTo depth') := by
  induction depth generalizing depth' with
  | zero => exact ⟨fun _ => .stuck, fun _ => .stuck, .stuck, .stuck⟩
  | succ depth ih =>
    obtain ⟨depth', rfl⟩ := Nat.exists_eq_add_of_le' (Nat.le_of_add_left_le h)
    have hinner := ih (Nat.le_of_succ_le_succ h)
    exact ⟨fun _ => mirrors_component hinner,
      fun _ => mirrors_brackets hinner, mirrors_value hinner true,
      mirrors_simpleSelector hinner true⟩

/-! ## Declarations -/

theorem mirrors_property : MirrorsTree L property property := by
  refine .here fun _ _ =>
    (mirrorsIf_takeWhile (fun token token' hface => ?_) fun token h hk => ?_).step fun _ =>
    (mirrors_readName true).step fun _ => mirrorsIf_skipGaps.step fun _ => mirrorsIf_leaf
  · rw [Likeness.kind_eq hface]
  · simp [hk] at h

theorem mirrors_declaration (hinner : NestedMirrors L inner inner') :
    MirrorsTree L (declaration inner) (declaration inner') := by
  refine .here fun info info' => mirrors_property.bind fun property property' hproperty =>
    (mirrorsIf_expect _).step fun _ => ?_
  have hend : ∀ node node' : Tree, node'.bare = node.bare → MirrorsTree L
      (pure (.pair info .declaration property node))
        (pure (.pair info' .declaration property' node')) :=
    fun _ _ hnode => .pure (by simp [hproperty, hnode])
  let read (inner : Nested) (info : Option Nat) (property : Tree) (filtered : Bool) :
    Parser Tree := do
    let node ← if isFilter property && filtered then filterValue else value inner false
    return .pair info .declaration property node
  show Mirrors L (survey (fun tokens => (nextProgid? tokens).isSome) >>= read inner info property)
    (survey (fun tokens => (nextProgid? tokens).isSome) >>= read inner' info' property') Node.bare
  refine .survey (fun _ hnear hlive => by rw [hnear.nextProgid? hlive]) fun filtered => ?_
  exact .choose (by rw [isFilter_of_bare_eq hproperty]) (fun _ => mirrors_filterValue.always)
    (fun _ => (mirrors_value hinner false).always) hend

theorem mirrors_declarations (hinner : NestedMirrors L inner inner') :
    Mirrors L (declarations inner) (declarations inner') (List.map Node.bare) := by
  refine mirrors_many fun token token' hface => ?_
  rw [declarationPart, declarationPart, Likeness.kind_eq hface]
  split
  next => exact itemMirrors_stop
  next => exact itemMirrors_skip
  next => exact itemMirrors_skip
  next => exact itemMirrors_skip
  next => exact itemMirrors_add (mirrors_declaration hinner).always

theorem mirrors_block (hinner : NestedMirrors L inner inner') :
    MirrorsTree L (block inner) (block inner') :=
  .here fun _ _ => (mirrors_declarations hinner).bind fun _ _ hnodes => .pure (by simp [hnodes])

theorem mirrors_bracedBlock (hinner : NestedMirrors L inner inner') :
    MirrorsTree L (bracedBlock inner) (bracedBlock inner') :=
  .here fun _ _ => (mirrorsIf_expect _).step fun _ =>
    (mirrors_declarations hinner).bind fun _ _ hnodes =>
    (mirrorsIf_expect _).step fun _ => .pure (by simp [hnodes])

/-! ## Rules -/

theorem mirrors_ruleset (hinner : NestedMirrors L inner inner') :
    MirrorsTree L (ruleset inner) (ruleset inner') :=
  .here fun _ _ => (mirrors_selector hinner).bind fun _ _ hhead => (mirrors_bracedBlock hinner).bind
    fun _ _ hbody => .pure (by simp [hhead, hbody])

theorem roundMirrors_expressionPart (hinner : NestedMirrors L inner inner') :
    RoundMirrors L Node.bare (fun started => started) (expressionPart inner)
      (expressionPart inner') := by
  intro started started' token token' hstarted hface
  obtain rfl : started' = started := hstarted
  have hpart : ∀ {x y : Parser Tree}, MirrorsIf L
      (fun tokens => tokens.head? = some token) x y Node.bare →
      MirrorsIf L (fun tokens => tokens.head? = some token)
        (do return .next [← x] true : Parser (Round Bool Tree))
        (do return .next [← y] true) (roundView Node.bare fun started => started) :=
    fun h => h.bind fun _ _ hnode => .pure (by simp [roundView, hnode])
  rw [expressionPart, expressionPart, Likeness.kind_eq hface]
  dsimp only
  split
  next => exact .pure rfl
  next => exact .pure rfl
  next =>
    exact .ite .rfl (fun _ => hpart mirrors_space.always) fun _ =>
      mirrorsIf_advance.step fun _ => .pure rfl
  next => exact mirrorsIf_advance.step fun _ => .pure rfl
  next hk => exact hpart (mirrorsIf_tokenLeaf fun _ hat => by simp [hat, hk])
  next hk => exact hpart (mirrorsIf_pseudo hinner fun _ hat => by simp [hat, hk])
  next => exact hpart (mirrors_brackets hinner).always
  next => exact hpart (mirrors_component hinner).always

theorem mirrors_atruleExpression (hinner : NestedMirrors L inner inner') :
    MirrorsTree L (atruleExpression inner) (atruleExpression inner') :=
  .here fun _ _ => (mirrors_loop (roundMirrors_expressionPart hinner) rfl).bind fun _ _ hresult =>
    .pure (by simp [bare_dropTrailingSpaces (Prod.mk.inj hresult).1])

/-- What is read of the body of an at-rule that holds declarations or rules. -/
def bodyOf (inner : Nested) (sheet : Parser Tree) (declares : Bool) : Parser (Option Tree) := do
  let node ← if declares then block inner else sheet
  expect .rightBrace
  return some node

theorem mirrors_bodyOf (hinner : NestedMirrors L inner inner') {sheet sheet' : Parser Tree}
    (hsheet : MirrorsTree L sheet sheet') (declares : Bool) :
    Mirrors L (bodyOf inner sheet declares) (bodyOf inner' sheet' declares)
      (Option.map Node.bare) :=
  .choose .rfl (fun _ => mirrors_block hinner) (fun _ => hsheet) fun _ _ hnode =>
    (mirrorsIf_expect _).step fun _ => .pure (by simp [hnode])

/-- A body is closed by a brace among its tokens. -/
theorem mem_of_bodyOf (hinner : NestedMirrors L inner inner') {sheet sheet' : Parser Tree}
    (hsheet : MirrorsTree L sheet sheet') {declares : Bool} (hL : L.tail ≠ []) {s s' : ParserState}
    {body : Option Tree} (h : bodyOf inner sheet declares s = .ok body s') :
    ∃ token ∈ s.rest, token.kind = .rightBrace := by
  have hcloses : ∀ {x y : Parser Tree}, MirrorsTree L x y →
      (do let node ← x; expect .rightBrace; return some node : Parser (Option Tree)) s =
        .ok body s' → ∃ token ∈ s.rest, token.kind = .rightBrace := by
    intro x y hx h
    obtain ⟨node, s₁, hread, h⟩ := bind_eq_ok.1 h
    obtain ⟨_, _, hexpect, -⟩ := bind_eq_ok.1 h
    obtain ⟨closing, rest, hrest, hk, -⟩ := expect_eq_ok.1 hexpect
    have hmem : closing.kind ∈ s₁.rest.map Token.kind := List.mem_map_of_mem (by simp [hrest])
    obtain ⟨token, hmem, htoken⟩ := List.mem_map.1 ((hx.leaves hL trivial hread).subset hmem)
    exact ⟨token, hmem, htoken.trans hk⟩
  cases declares with
  | true => exact hcloses (mirrors_block hinner) h
  | false => exact hcloses hsheet h

theorem mirrors_atruleBody (hinner : NestedMirrors L inner inner') {sheet sheet' : Parser Tree}
    (hsheet : MirrorsTree L sheet sheet') :
    Mirrors L (atruleBody inner sheet) (atruleBody inner' sheet') (Option.map Node.bare) := by
  refine .kind? fun k => ?_
  split
  next => exact .pure rfl
  next => exact mirrorsIf_advance.step fun _ => .pure rfl
  next =>
    refine mirrorsIf_advance.step fun _ => ?_
    show Mirrors L (survey holdsDeclarations >>= bodyOf inner sheet)
      (survey holdsDeclarations >>= bodyOf inner' sheet') _
    refine .lookIf holdsDeclarations (fun _ => rfl) (R := fun a b => b = a) (fun _ _ => rfl)
      (fun {s t} _ hnear _ hends => hnear.holdsDeclarations ?_)
        fun declares _ h => h ▸ (mirrors_bodyOf hinner hsheet _).always
    by_cases hL : L.tail = []
    · exact .inl hL
    · obtain ⟨_, _, hread⟩ := hends.resolve_left hL
      exact .inr (mem_of_bodyOf hinner hsheet hL hread)
  next => exact .fail

theorem mirrors_atrule (hinner : NestedMirrors L inner inner') {sheet sheet' : Parser Tree}
    (hsheet : MirrorsTree L sheet sheet') :
    MirrorsTree L (atrule inner sheet) (atrule inner' sheet') :=
  (mirrorsIf_expect _).step fun _ => .here fun _ _ => (mirrors_readName false).step fun _ =>
    (mirrors_atruleExpression hinner).bind fun _ _ hexpression =>
      (mirrors_atruleBody hinner hsheet).bind fun _ _ hbody => .pure (by simp [hexpression, hbody])

theorem itemMirrors_rulePart (hinner : NestedMirrors L inner inner') {sheet sheet' : Parser Tree}
    (hsheet : MirrorsTree L sheet sheet') (nested : Bool) {token token' : Token}
    (hface : L.face token' = L.face token) :
    ItemMirrors L Node.bare token (rulePart inner sheet nested token)
      (rulePart inner' sheet' nested token') := by
  rw [rulePart, rulePart, Likeness.kind_eq hface]
  split
  next => exact itemMirrors_skip
  next hk =>
    rw [isKept, isKept, comment, comment,
      Likeness.text_eq hface (Likeness.hides_eq_false (by simp [hk]))]
    exact .ite .rfl (fun _ => itemMirrors_skip) fun _ => itemMirrors_add
      (.here fun _ _ => mirrorsIf_advance.step fun _ => mirrorsIf_leaf)
  next hk => exact itemMirrors_add (mirrorsIf_tokenLeaf fun _ hat => by simp [hat, hk])
  next => exact itemMirrors_add (mirrors_atrule hinner hsheet).always
  next => exact .ite .rfl (fun _ => itemMirrors_stop) fun _ => .fail
  next => exact itemMirrors_add (mirrors_ruleset hinner).always

theorem mirrors_styleSheet (hinner : NestedMirrors L inner inner') {sheet sheet' : Parser Tree}
    (hsheet : MirrorsTree L sheet sheet') (nested : Bool) :
    MirrorsTree L (styleSheet inner sheet nested) (styleSheet inner' sheet' nested) :=
  .here fun _ _ =>
    (mirrors_many fun _ _ => itemMirrors_rulePart hinner hsheet nested).bind fun _ _ hnodes =>
    .pure (by simp [hnodes])

theorem mirrors_nestedSheet (hinner : NestedMirrors L inner inner') {depth depth' : Nat}
    (h : depth ≤ depth') :
    MirrorsTree L (nestedSheet inner depth) (nestedSheet inner' depth') := by
  induction depth generalizing depth' with
  | zero => exact .stuck
  | succ depth ih =>
    obtain ⟨depth', rfl⟩ := Nat.exists_eq_add_of_le' (Nat.le_of_add_left_le h)
    exact mirrors_styleSheet hinner (ih (Nat.le_of_succ_le_succ h)) true

/-- In every context, texts of more tokens are read in the same way. -/
theorem mirrors_production (context : Context) {size size' : Nat} (h : size ≤ size') :
    MirrorsTree L (context.production size) (context.production size') := by
  have hinner := nestedMirrors_upTo (L := L) (Nat.succ_le_succ h)
  have hsheet := mirrors_nestedSheet hinner (Nat.succ_le_succ h)
  cases context with
  | stylesheet => exact mirrors_styleSheet hinner hsheet false
  | atrule => exact mirrors_atrule hinner hsheet
  | atruleExpression => exact mirrors_atruleExpression hinner
  | ruleset => exact mirrors_ruleset hinner
  | selector => exact mirrors_selector hinner
  | simpleSelector => exact mirrors_simpleSelector hinner false
  | block => exact mirrors_block hinner
  | declaration => exact mirrors_declaration hinner
  | property => exact mirrors_property
  | value => exact mirrors_value hinner false

end Grammar
end StyleTree
