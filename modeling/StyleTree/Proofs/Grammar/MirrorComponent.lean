import StyleTree.Proofs.Grammar.Filter
import StyleTree.Proofs.Grammar.Mirror
import StyleTree.Proofs.Grammar.Placement
import StyleTree.Proofs.Grammar.Range
import StyleTree.Proofs.Print.Compact

/-! Components read over tokens that look alike. Names, numbers, functions and values are mirrored
if the readers one bracket deeper are (`NestedMirrors`): the trees agree but for positions. The
places where a reader looks ahead are the point. A number ends before the first fence, and so does
the head of a filter block; the block itself ends at its own parenthesis. A script takes the text of
blanks; where that is left open, no name spells one. -/

namespace StyleTree

open StyleTree.Parser StyleTree.Grammar

namespace Likeness.Near

variable {L : Likeness} {tokens tokens' : List Token}

/-- Kinds that are not fences are counted alike. -/
theorem countIf {kind : TokenKind} (h : L.Near tokens tokens') (hlive : L.Live tokens) :
    countIf kind tokens' = countIf kind tokens := by
  rw [Grammar.countIf, Grammar.countIf, h.kind? hlive]

/-- Behind a run of at most one token that is no fence, the tokens still look alike. -/
theorem countIf_drop (kind : TokenKind) (h : L.Near tokens tokens') (hlive : L.Live tokens)
    (hk : kind.isFence = false) {n : Nat} (hn : n = Grammar.countIf kind tokens) :
    L.Near (tokens.drop n) (tokens'.drop n) ∧ L.Live (tokens.drop n) := by
  have hlive' : L.Live (tokens.drop n) := by
    subst hn
    cases tokens with
    | nil => exact hlive
    | cons token tokens =>
      rw [Grammar.countIf]
      split
      next hkind =>
        obtain rfl : token.kind = kind := by simpa using hkind
        exact hlive.of_cons hk
      next => exact hlive
  exact ⟨h.of_suffix ((h.room_of_live hlive').imp_left Nat.le_of_lt), hlive'⟩

/-- A number ends before the first fence. -/
theorem numberLength? (h : L.Near tokens tokens') (hlive : L.Live tokens) :
    numberLength? tokens' = numberLength? tokens ∧
      ∀ n, Grammar.numberLength? tokens = some n → L.Live (tokens.drop n) := by
  obtain ⟨h₁, hlive₁⟩ := h.countIf_drop .hyphenMinus hlive rfl rfl
  obtain ⟨h₂, hlive₂⟩ := h₁.countIf_drop .number hlive₁ rfl rfl
  obtain ⟨h₃, hlive₃⟩ := h₂.countIf_drop .fullStop hlive₂ rfl rfl
  obtain ⟨h₄, hlive₄⟩ := h₃.countIf_drop .number hlive₃ rfl rfl
  simp only [List.drop_drop] at *
  refine ⟨?_, fun n hn => ?_⟩
  · simp only [Grammar.numberLength?, h.countIf hlive, h₁.countIf hlive₁, h₂.countIf hlive₂,
      h₃.countIf hlive₃]
  · simp only [Grammar.numberLength?, Option.ite_none_left_eq_some, Option.some.injEq] at hn
    rw [← hn.2]
    exact hlive₄

/-- The first token is replaced by an escape. -/
theorem escape {token : Token} {w : List Char} {start start' : Nat}
    (h : L.Near (token :: tokens) tokens') (hlive : L.Live (token :: tokens))
    (hescape : w.head? = some '\\') :
    L.Near (⟨.ident, String.ofList w, start⟩ :: tokens)
      (⟨.ident, String.ofList w, start'⟩ :: tokens'.tail) := by
  obtain ⟨_, rest, rfl, -, htail⟩ := h.cons (h.room_of_head hlive)
  obtain ⟨core, front, hcore, hfront, hfaces⟩ := htail.faces
  refine ⟨⟨⟨.ident, String.ofList w, start⟩ :: core,
    ⟨.ident, String.ofList w, start'⟩ :: front, by rw [hcore]; rfl,
    by rw [List.tail_cons, hfront]; rfl, ?_⟩, h.blank, h.short, ?_, fun hL => ?_, fun hL => ?_⟩
  · simp [hfaces, Likeness.face]
  · intro other hmem
    rcases List.mem_cons.1 hmem with rfl | hmem
    · exact Token.isSpelled_of_ident rfl
    · exact htail.spelled other hmem
  · obtain ⟨hscript, hfilter⟩ := htail.words hL
    exact ⟨hscript.cut (by decide) (by simpa using hescape) (by decide),
      hfilter.cut (by decide) (by simpa using hescape) (by decide)⟩
  · rintro opening more hmore hopening
    rcases List.suffix_cons_iff.1 hmore with heq | hmore
    · obtain ⟨rfl, -⟩ := List.cons.inj heq
      cases hopening
    · exact htail.closed hL opening more hmore hopening

/-- The parenthesis that closes comes before the gap. -/
theorem room_of_balancedLength {depth : Nat} (h : L.Near tokens tokens')
    (hcloses : balancedLength depth tokens < tokens.length) :
    balancedLength depth tokens + L.gap.length < tokens.length := by
  obtain ⟨inside, closing, rest, rfl, hk, hlength⟩ := balancedLength_lt hcloses
  rw [hlength]
  exact h.room inside (by simp [hk])

/-- The parenthesis that closes is found at the same place, if it is among the first tokens. -/
theorem balancedLength {depth : Nat} (h : L.Near tokens tokens')
    (hcloses : L.tail = [] ∨ balancedLength depth tokens < tokens.length) :
    balancedLength depth tokens' = balancedLength depth tokens := by
  induction tokens generalizing tokens' depth with
  | nil => rw [h.nil, hcloses.resolve_right (Nat.not_lt_zero _)]
  | cons token tokens ih =>
    obtain ⟨token', rest, rfl, hface, hrest⟩ :=
      h.cons (hcloses.symm.imp_left
        fun hlt => Nat.lt_of_le_of_lt (Nat.le_add_left _ _) (h.room_of_balancedLength hlt))
    have hk := Likeness.kind_eq hface
    rw [List.length_cons] at hcloses
    by_cases hright : token.kind = .rightParen
    · cases depth with
      | zero => rw [balancedLength_closing hright, balancedLength_closing (hk.trans hright)]
      | succ depth =>
        rw [balancedLength_right hright] at hcloses ⊢
        rw [balancedLength_right (hk.trans hright),
          ih hrest (hcloses.imp_right Nat.lt_of_succ_lt_succ)]
    · by_cases hleft : token.kind = .leftParen
      · rw [balancedLength_left hleft] at hcloses ⊢
        rw [balancedLength_left (hk.trans hleft),
          ih hrest (hcloses.imp_right Nat.lt_of_succ_lt_succ)]
      · rw [balancedLength_other hleft hright] at hcloses ⊢
        rw [balancedLength_other (hk ▸ hleft) (hk ▸ hright),
          ih hrest (hcloses.imp_right Nat.lt_of_succ_lt_succ)]

end Likeness.Near

namespace Grammar

/-- Leaves an escape of the identifier that stands here. -/
def leaveEscape (escape : Token) : Parser Unit :=
  modify fun state => { state with rest := escape :: state.rest.tail }

variable {α β γ δ : Type} {L : Likeness} {P : List Token → Prop} {inner inner' : Nested}
  {scope : Scope} {info info' : Option Nat} {name : String}

/-- The second run gives the same tree but for positions. -/
abbrev MirrorsTree (L : Likeness) (x y : Parser Tree) : Prop :=
  Mirrors L x y Node.bare

/-! ## Names and other small parts -/

theorem isNamePart_face {token token' : Token} (h : L.face token' = L.face token) :
    isNamePart token' = isNamePart token := by
  rw [isNamePart, isNamePart, Likeness.kind_eq h]

theorem isNamePart_ne_whitespace {token : Token} (h : isNamePart token = true) :
    token.kind ≠ .whitespace := by
  intro hk
  rw [isNamePart, hk] at h
  cases h

theorem mirrors_readName (custom : Bool) :
    Mirrors L (readName custom) (readName custom) fun name => name := by
  refine (mirrorsIf_takeIf (by decide)).step fun hyphen =>
    .choose .rfl (fun _ => mirrorsIf_takeIf (by decide))
      (fun _ => .pure rfl) fun second _ h => h ▸ .kind? fun k => ?_
  split
  next =>
    exact (mirrorsIf_take fun _ h => by simp [h.2]).step fun _ =>
      (mirrorsIf_takeWhile (fun _ _ => isNamePart_face) fun _ => isNamePart_ne_whitespace).step
        fun _ => .pure rfl
  next =>
    exact (mirrorsIf_take fun _ h => by simp [h.2]).step fun _ =>
      (mirrorsIf_takeWhile (fun _ _ => isNamePart_face) fun _ => isNamePart_ne_whitespace).step
        fun _ => .pure rfl
  next => exact .fail

/-- A leaf with the same text. -/
theorem mirrorsIf_leaf {kind : LeafKind} {text : String} :
    MirrorsIf L P (pure (.leaf info kind text)) (pure (.leaf info' kind text)) Node.bare :=
  .pure (by simp)

theorem mirrors_identifier (custom : Bool) :
    MirrorsTree L (identifier custom) (identifier custom) :=
  .here fun _ _ => (mirrors_readName custom).step fun _ => mirrorsIf_leaf

theorem mirrors_nameEnd (colon : Bool) :
    MirrorsTree L (nameEnd info name colon) (nameEnd info' name colon) :=
  .isAt fun _ => .ite .rfl
    (fun h =>
      (mirrorsIf_take fun _ hat => by simp [hat.2.2 (Bool.and_eq_true_iff.1 h).2]).step fun _ =>
      (mirrors_readName false).step fun _ => mirrorsIf_leaf)
    fun _ => mirrorsIf_leaf

theorem mirrors_nameFrom (colon : Bool) (base : String) :
    MirrorsTree L (nameFrom info colon base) (nameFrom info' colon base) := by
  -- What follows a bar is looked at whether there is one or not.
  refine .isAt fun bar =>
    .look (fun tokens => decide (tokens[1]?.map Token.kind = some .equals)) (fun _ => rfl)
    (R := fun a b => bar = true → b = a) (fun _ _ => rfl) (fun {tokens _} hP hnear hlive hbar => ?_)
    fun equals equals' hequals => .ite ?_ (fun h => ?_) fun _ => (mirrors_nameEnd colon).always
  · obtain ⟨token, rest, rfl⟩ : ∃ token rest, tokens = token :: rest := by
      cases tokens with
      | nil => simpa using hP.2.2 hbar
      | cons token rest => exact ⟨token, rest, rfl⟩
    have hk : token.kind = .verticalLine := by simpa using hP.2.2 hbar
    rw [Likeness.map_kind_eq (hnear.second? ⟨token, rest, rfl, by rw [hk]; rfl⟩ hlive)]
  · cases bar with
    | false => simp
    | true => rw [hequals rfl]
  · have hbar := (Bool.and_eq_true_iff.1 h).1
    refine (mirrorsIf_take fun _ hat => by simp [hat.1.2.2 hbar]).step fun sign =>
      .kind? fun k => ?_
    have hname : MirrorsTree L (do nameEnd info (base ++ (sign ++ (← readName false))) colon)
        (do nameEnd info' (base ++ (sign ++ (← readName false))) colon) :=
      (mirrors_readName false).step fun _ => mirrors_nameEnd colon
    split
    · exact hname.always
    · exact hname.always
    · exact hname.always
    · exact (mirrorsIf_take fun _ hat => by simp [hat.2]).step fun _ => mirrors_nameEnd false
    · exact (mirrors_nameEnd colon).always

theorem mirrors_qualifiedName (colon : Bool) :
    MirrorsTree L (qualifiedName colon) (qualifiedName colon) := by
  refine .current? .fail fun first first' hface => .here fun info info' => ?_
  have hk := Likeness.kind_eq hface
  refine .look (fun tokens => decide (tokens[1]?.map Token.kind = some .equals)) (fun _ => rfl)
    (R := fun a b => first.kind = .verticalLine → b = a) (fun _ _ => rfl)
      (fun {tokens _} hP hnear hlive hbar => ?_)
    fun equals equals' hequals => ?_
  · obtain ⟨rest, rfl⟩ := List.head?_eq_some_iff.1 hP.2
    rw [Likeness.map_kind_eq (hnear.second? ⟨first, rest, rfl, by rw [hbar]; rfl⟩ hlive)]
  · rw [hk]
    refine .ite .rfl (fun h => ?_) fun _ => .ite ?_ (fun _ => ?_) fun _ => ?_
    · exact (mirrorsIf_take fun _ hP => by simp [hP.1.2, h]).step fun base =>
        mirrors_nameFrom (colon && first.kind ≠ .asterisk) base
    · by_cases hbar : first.kind = .verticalLine
      · rw [hequals hbar]
      · simp [hbar]
    · exact (mirrors_nameFrom (colon && first.kind ≠ .asterisk) "").always
    · exact (mirrors_readName false).always.step fun base =>
        mirrors_nameFrom (colon && first.kind ≠ .asterisk) base

theorem mirrors_hash : MirrorsTree L hash hash := by
  refine .here fun _ _ => (mirrorsIf_expect _).step fun _ => .kind? fun k => ?_
  split
  next => exact (mirrorsIf_take fun _ h => by simp [h.2]).step fun _ =>
    (mirrorsIf_takeIf (by decide)).step fun _ => mirrorsIf_leaf
  next => exact (mirrorsIf_take fun _ h => by simp [h.2]).step fun _ => mirrorsIf_leaf
  next => exact .fail

theorem mirrorsIf_tokenLeaf {kind : LeafKind}
    (hP : ∀ tokens, P tokens → tokens.head?.map Token.kind ≠ some .whitespace) :
    MirrorsIf L P (tokenLeaf kind) (tokenLeaf kind) Node.bare :=
  .here fun _ _ => (mirrorsIf_take hP).step fun _ => mirrorsIf_leaf

theorem mirrors_space : MirrorsTree L space space :=
  mirrorsIf_advance.step fun _ => .pure rfl

theorem mirrors_hexDigits : Mirrors L hexDigits hexDigits fun digits => digits := by
  refine (mirrorsIf_takeWhile (fun token token' h => ?_) fun token h => ?_).step fun _ =>
    .ite .rfl (fun _ => .fail) fun _ => .pure rfl
  · rw [isHexPart, isHexPart, Likeness.kind_eq h]
  · intro hk
    simp [isHexPart, hk] at h

/-- The question marks at the front end before the first fence. -/
theorem length_marksOf {tokens tokens' : List Token} (h : L.Near tokens tokens')
    (hlive : L.Live tokens) (room : Nat) :
    (marksOf room tokens').length = (marksOf room tokens).length := by
  unfold marksOf
  induction room generalizing tokens tokens' with
  | zero => simp
  | succ room ih =>
    cases tokens with
    | nil =>
      obtain htail : L.tail = [] := hlive.resolve_right (by simp)
      rw [h.nil, htail]
    | cons token tokens =>
      obtain ⟨token', rest, rfl, hface, hrest⟩ := h.cons (h.room_of_head hlive)
      have hk := Likeness.kind_eq hface
      by_cases hmark : token.kind = .questionMark
      · simp [hk, hmark, ih hrest (hlive.of_cons (by rw [hmark]; rfl))]
      · simp [hk, hmark]

/-- What is read of a range from its question marks on. -/
def rangeEnd (info : Option Nat) (digits : String) (marks : List Token) : Parser Tree := do
  let wildcards ← takeMany marks.length
  let last ←
    if marks.isEmpty && (← isAt .hyphenMinus) then
      let hyphen ← take
      pure (hyphen ++ (← hexDigits))
    else pure ""
  return .leaf info .identifier (digits ++ wildcards ++ last)

/-- A range starts with an identifier and a plus sign. -/
theorem mirrorsIf_unicodeRange
    (hP : ∀ tokens, P tokens → tokens.head?.map Token.kind ≠ some .whitespace ∧
      tokens[1]?.map Token.kind ≠ some .whitespace) :
    MirrorsIf L P unicodeRange unicodeRange Node.bare := by
  refine .here fun info info' =>
    (mirrorsIf_takeMany fun tokens htokens token hmem => ?_).step fun sign =>
    mirrors_hexDigits.step fun first => ?_
  · obtain ⟨h₀, h₁⟩ := hP tokens htokens
    refine Likeness.hides_eq_false fun hk => ?_
    match tokens with
    | [] => simp at hmem
    | [_] => simp_all
    | _ :: _ :: _ =>
      rcases List.mem_cons.1 hmem with rfl | hmem
      · simp [hk] at h₀
      · obtain rfl := List.mem_singleton.1 (by simpa using hmem)
        simp [hk] at h₁
  · show Mirrors L
      (survey (marksOf (6 - Text.byteLength first.toList)) >>= rangeEnd info (sign ++ first))
      (survey (marksOf (6 - Text.byteLength first.toList)) >>= rangeEnd info' (sign ++ first)) _
    refine .look (x := survey _) (marksOf _) (fun _ => rfl) (R := fun a b => b.length = a.length)
      (fun _ => rfl)
      (fun _ hnear hlive => length_marksOf hnear hlive _) fun marks marks' hlength => ?_
    have hempty : marks'.isEmpty = marks.isEmpty := by
      rw [Bool.eq_iff_iff, List.isEmpty_iff_length_eq_zero, hlength,
        List.isEmpty_iff_length_eq_zero]
    rw [rangeEnd, rangeEnd, hlength, hempty]
    refine (mirrorsIf_takeMany fun tokens hP token hmem => ?_).step fun wildcards =>
      .isAt fun hyphen =>
      .ite .rfl (fun h => ?_) fun _ => mirrorsIf_leaf
    · obtain ⟨rest, hrest, hkinds, -⟩ := marksOf_spec (6 - Text.byteLength first.toList) tokens
      rw [hP.2] at hrest hkinds
      rw [hrest, List.take_left] at hmem
      exact Likeness.hides_eq_false (by simp [hkinds token hmem])
    · refine (mirrorsIf_take fun _ hat => by simp [hat.2.2 (Bool.and_eq_true_iff.1 h).2]).step
        fun _ =>
        mirrors_hexDigits.step fun _ => mirrorsIf_leaf

/-! ## Functions -/

/-- What the readers one bracket deeper have to do. -/
structure NestedMirrors (L : Likeness) (inner inner' : Nested) : Prop where
  component : ∀ scope, MirrorsTree L (inner.component scope) (inner'.component scope)
  brackets : ∀ scope, MirrorsTree L (inner.brackets scope) (inner'.brackets scope)
  fallback : MirrorsTree L inner.fallback inner'.fallback
  negated : MirrorsTree L inner.negated inner'.negated

theorem mirrors_urlFunction : MirrorsTree L (urlFunction info) (urlFunction info') := by
  have hend : ∀ link link' : Tree, link'.bare = link.bare → MirrorsTree L
      (do skipGaps; expect .rightParen; return .wrapper info .url link : Parser Tree)
      (do skipGaps; expect .rightParen; return .wrapper info' .url link') := fun link link' hlink =>
    mirrorsIf_skipGaps.step fun _ => (mirrorsIf_expect _).step fun _ => .pure (by simp [hlink])
  refine (mirrorsIf_expect _).step fun _ => mirrorsIf_skipGaps.step fun _ => .isAt fun _ =>
    .ite .rfl (fun h => ?_) fun _ => ?_
  · exact (mirrorsIf_tokenLeaf fun _ hat => by simp [hat.2.2 h]).bind hend
  · refine .here fun _ _ =>
      (mirrorsIf_takeWhile (fun token token' hface => ?_) fun token h => ?_).step fun _ =>
      .value (hend _ _ (by simp))
    · simp only [Likeness.kind_eq hface]
    · simp only [ne_eq, decide_not, Bool.and_eq_true, Bool.not_eq_true',
        decide_eq_false_iff_not] at h
      exact h.1.1

theorem mirrors_negation (hinner : NestedMirrors L inner inner') :
    MirrorsTree L (negation inner info) (negation inner' info') := by
  refine (mirrorsIf_expect _).step fun _ =>
    (mirrors_separated (fun _ _ _ => rfl) (?_ : MirrorsTree L _ _)
      (.pure rfl)).bind fun result result' hresult => ?_
  · refine .kind? fun k => ?_
    split
    next => exact .fail
    next => exact .fail
    next => exact hinner.negated.always
  · have hitems : result'.1.map Node.bare = result.1.map Node.bare := congrArg Prod.fst hresult
    exact (mirrorsIf_expect _).step fun _ => .pure (by simp [hitems])

/-- What is read of a script whose text is as many tokens long. -/
def scriptEnd (info : Option Nat) (name : String) (count : Nat) : Parser Tree := do
  let text ← takeMany count
  expect .rightParen
  return .sequence info (.function name) [argument [.leaf none .raw text]]

theorem mirrors_scriptFunction (hL : L ≠ .blanks) :
    MirrorsTree L (scriptFunction info name) (scriptFunction info' name) := by
  refine (mirrorsIf_expect _).step fun _ => ?_
  show Mirrors L (survey (balancedLength 0) >>= scriptEnd info name)
    (survey (balancedLength 0) >>= scriptEnd info' name) _
  refine .lookIf (balancedLength 0) (fun _ => rfl) (R := fun a b => b = a) (fun _ _ => rfl)
    (fun {s t} _ hnear _ hends => hnear.balancedLength (hends.imp_right ?_)) fun count _ h => ?_
  · -- The parenthesis that is expected is the one that closes.
    rintro ⟨_, _, hread⟩
    rw [scriptEnd, takeMany_bind_run] at hread
    obtain ⟨_, _, hexpect, -⟩ := bind_eq_ok.1 hread
    obtain ⟨closing, rest, hrest, -⟩ := expect_eq_ok.1 hexpect
    have := congrArg List.length hrest
    simp only [List.length_drop, List.length_cons] at this
    omega
  · rw [h]
    exact (mirrorsIf_takeMany fun _ _ token _ => Likeness.hides_followed hL token.kind).step
      fun _ =>
      (mirrorsIf_expect _).step fun _ => .pure (by simp)

theorem mirrors_variableFunction (hinner : NestedMirrors L inner inner') :
    MirrorsTree L (variableFunction inner info name) (variableFunction inner' info' name) := by
  refine (mirrorsIf_expect _).step fun _ =>
    mirrorsIf_skipGaps.step fun _ => (mirrors_identifier true).bind
      fun first first' hfirst => mirrorsIf_skipGaps.step fun _ => .isAt fun _ => ?_
  have hend : ∀ later later' : List Tree, later'.map Node.bare = later.map Node.bare → MirrorsTree L
      (do expect .rightParen; return .sequence info (.function name) (argument [first] :: later))
      (do
        expect .rightParen
        return .sequence info' (.function name) (argument [first'] :: later')) :=
    fun later later' hlater => (mirrorsIf_expect _).step fun _ =>
      .pure (by simp [argument, hfirst, hlater])
  refine .ite .rfl (fun _ => ?_) fun _ => .value (hend [] [] rfl).always
  exact mirrorsIf_advance.step fun _ => mirrorsIf_skipGaps.step fun _ => hinner.fallback.bind
    fun node node' hnode => mirrorsIf_skipGaps.step fun _ =>
      .value (hend _ _ (by simp [argument, hnode]))

theorem itemMirrors_operator {token : Token} (hk : token.kind ≠ .whitespace) :
    ItemMirrors L Node.bare token (add operator) (add operator) :=
  itemMirrors_add (mirrorsIf_tokenLeaf fun _ hat => by simpa [hat] using hk)

theorem itemMirrors_argumentPart (hinner : NestedMirrors L inner inner') {token token' : Token}
    (hface : L.face token' = L.face token) :
    ItemMirrors L Node.bare token (argumentPart inner scope token)
      (argumentPart inner' scope token') := by
  rw [argumentPart, argumentPart, Likeness.kind_eq hface]
  split
  next => exact itemMirrors_stop
  next => exact itemMirrors_stop
  next => exact itemMirrors_add mirrors_space.always
  next => exact itemMirrors_skip
  next => exact itemMirrors_add mirrors_hash.always
  next => exact itemMirrors_add (hinner.brackets scope).always
  next => exact itemMirrors_add (hinner.brackets scope).always
  next hk => exact itemMirrors_operator (by simp [hk])
  next hk => exact itemMirrors_operator (by simp [hk])
  next hk => exact itemMirrors_operator (by simp [hk])
  next hk => exact itemMirrors_operator (by simp [hk])
  next => exact itemMirrors_add (hinner.component scope).always

theorem map_bare_dropTrailingSpaces (nodes : List Tree) : (dropTrailingSpaces nodes).map Node.bare =
    ((nodes.map Node.bare).reverse.dropWhile Node.isSpace).reverse := by
  have hspace : Node.isSpace ∘ Node.bare = (Node.isSpace : Tree → Bool) := funext Node.isSpace_bare
  rw [dropTrailingSpaces, List.map_reverse, ← List.map_reverse (l := nodes), List.dropWhile_map,
    hspace]

/-- Spaces at the end are dropped alike. -/
theorem bare_dropTrailingSpaces {nodes nodes' : List Tree}
    (h : nodes'.map Node.bare = nodes.map Node.bare) :
    (dropTrailingSpaces nodes').map Node.bare = (dropTrailingSpaces nodes).map Node.bare := by
  rw [map_bare_dropTrailingSpaces, map_bare_dropTrailingSpaces, h]

theorem mirrors_argumentOf (hinner : NestedMirrors L inner inner') :
    MirrorsTree L (argumentOf inner scope) (argumentOf inner' scope) := by
  refine (mirrors_many fun token token' => itemMirrors_argumentPart hinner).bind
    fun parts parts' hparts => ?_
  cases parts with
  | nil =>
    obtain rfl : parts' = [] := by simpa using hparts
    exact .fail
  | cons part parts =>
    obtain ⟨part', parts', rfl, -⟩ := List.map_eq_cons_iff.1 hparts
    exact .pure (by simp [argument, bare_dropTrailingSpaces hparts])

theorem mirrors_arguments (hinner : NestedMirrors L inner inner') :
    Mirrors L (arguments inner scope) (arguments inner' scope) (List.map Node.bare) := by
  refine (mirrorsIf_expect _).step fun _ =>
    mirrorsIf_skipGaps.step fun _ => .isAt fun _ => .ite .rfl (fun _ => ?_) fun _ => ?_
  · exact .value ((mirrorsIf_expect _).step fun _ => .pure rfl)
  · refine (mirrors_separated (fun _ _ _ => rfl) (mirrors_argumentOf hinner)
      mirrorsIf_skipGaps).always.bind
      fun result result' hresult => .value ?_
    have hitems : result'.1.map Node.bare = result.1.map Node.bare := congrArg Prod.fst hresult
    exact (mirrorsIf_expect _).step fun _ => .pure hitems

/-- A function is read alike, unless it is a script and the text of blanks is left open. -/
theorem mirrors_function (hinner : NestedMirrors L inner inner')
    (hname : L = .blanks → Text.sameLetters name "expression" = false) :
    MirrorsTree L (function inner scope info name) (function inner' scope info' name) := by
  rw [function, function]
  split
  next => exact mirrors_urlFunction
  next => exact mirrors_negation hinner
  next hscript =>
    refine mirrors_scriptFunction fun hL => ?_
    unfold Scope.special? at hscript
    grind
  next => exact mirrors_variableFunction hinner
  next =>
    refine (mirrors_arguments hinner).bind fun nodes nodes' hnodes => ?_
    cases scope with
    | selector | atruleExpression | value => exact .pure (by simp [hnodes])

/-! ## Components -/

/-- A name comes first. Where the text of blanks is left open, it spells no script. -/
theorem mirrorsIf_named {custom : Bool} {f g : String → Parser β} {view : β → δ}
    (hf : ∀ name, (L = .blanks → Text.sameLetters name "expression" = false) →
      Mirrors L (f name) (g name) view) :
    MirrorsIf L P (readName custom >>= f) (readName custom >>= g) view := by
  refine (mirrors_readName custom).always.bindGiven (fun hL name hblanks => ?_)
    (fun {s t name s'} hnear hread hL => ?_)
    fun name _ hname h => h ▸ hf name hname
  · rw [hblanks] at hL
    exact absurd rfl hL
  · obtain ⟨front, hfront, htext⟩ := spanning_readName custom s name s' hnear.spelled hread
    exact (hnear.words hL).1.sameLetters_eq_false (by decide) hfront htext

theorem mirrors_named (hinner : NestedMirrors L inner inner') :
    MirrorsTree L (named inner scope) (named inner' scope) :=
  .here fun _ _ => mirrorsIf_named fun _ hname => .isAt fun _ =>
    .ite .rfl (fun _ => (mirrors_function hinner hname).always) fun _ => mirrorsIf_leaf

/-- An escape is left of the identifier that stands here. -/
theorem mirrorsIf_leaveEscape {token : Token} {w : List Char} {start start' : Nat}
    (hk : token.kind = .ident) (hescape : w.head? = some '\\') :
    MirrorsIf L (fun tokens => tokens.head? = some token)
      (leaveEscape ⟨.ident, String.ofList w, start⟩) (leaveEscape ⟨.ident, String.ofList w, start'⟩)
      fun u => u where
  leaves := by
    rintro - s _ _ hhead ⟨⟩
    obtain ⟨rest, hrest⟩ := List.head?_eq_some_iff.1 hhead
    simp [hrest, hk]
  follows := by
    rintro ⟨_, _⟩ t hhead hnear hlive _ _ ⟨⟩ -
    obtain ⟨rest, rfl⟩ := List.head?_eq_some_iff.1 hhead
    exact ⟨(), _, rfl, rfl, hnear.escape hlive hescape⟩
  fails _ _ _ _ _ _ _ hs := nomatch hs

/-- The unit of a dimension, at the identifier that holds it. -/
theorem mirrorsIf_readUnit {token token' : Token} (hface : L.face token' = L.face token)
    (hk : token.kind = .ident) :
    MirrorsIf L (fun tokens => tokens.head? = some token) (readUnit token) (readUnit token')
      fun unit => unit := by
  have hk' := (Likeness.kind_eq hface).trans hk
  obtain ⟨unit, escape, hspan⟩ : ∃ unit escape, token.text.toList.span (· ≠ '\\') =
      (unit, escape) :=
    ⟨_, _, rfl⟩
  rw [readUnit, readUnit, Likeness.text_eq hface (Likeness.hides_eq_false (by simp [hk])), hspan]
  refine .ite .rfl (fun _ => mirrorsIf_take fun _ hhead => by simp [hhead, hk]) fun hcut => ?_
  rw [hk, hk']
  refine (mirrorsIf_leaveEscape hk ?_).step fun _ => .pure rfl
  rw [List.span_eq_takeWhile_dropWhile] at hspan
  obtain ⟨-, rfl⟩ := Prod.mk.inj hspan
  cases hescape : token.text.toList.dropWhile (· ≠ '\\') with
  | nil =>
    rw [hescape] at hcut
    simp at hcut
  | cons c escape => simpa using head?_dropWhile_not (p := (· ≠ '\\')) c (by rw [hescape]; rfl)

theorem mirrors_measured (number : String) :
    MirrorsTree L (measured info number) (measured info' number) := by
  refine .current? mirrorsIf_leaf fun token token' hface => ?_
  dsimp only
  rw [Likeness.kind_eq hface]
  refine .ite .rfl (fun _ => mirrorsIf_advance.step fun _ => mirrorsIf_leaf) fun _ =>
    .ite .rfl (fun hk => ?_) fun _ => mirrorsIf_leaf
  exact ((mirrorsIf_readUnit hface hk).mono fun _ h => h.2).step fun _ => .pure (by simp)

/-- What is read of a number that is so many tokens long. -/
def numberText? : Option Nat → Parser (Option String)
  | none => return none
  | some count => return some (← takeMany count)

theorem mirrorsIf_readNumber? {f g : Option String → Parser β} {view : β → δ}
    (hnone : MirrorsIf L P (f none) (g none) view)
    (hsome : ∀ number, Mirrors L (f (some number)) (g (some number)) view) :
    MirrorsIf L P (readNumber? >>= f) (readNumber? >>= g) view := by
  show MirrorsIf L P ((survey numberLength? >>= numberText?) >>= f)
    ((survey numberLength? >>= numberText?) >>= g) _
  rw [bind_assoc, bind_assoc]
  refine .survey (fun _ hnear hlive => (hnear.numberLength? hlive).1) fun length? => ?_
  cases length? with
  | none => exact .value (hnone.mono fun _ h => h.1)
  | some count =>
    rw [numberText?, bind_assoc]
    refine (mirrorsIf_takeMany fun tokens h token hmem => Likeness.hides_eq_false ?_).step
      fun number =>
      .value (hsome number)
    rcases numberLength?_kinds h.2 token hmem with hk | hk | hk <;> simp [hk]

theorem mirrors_component (hinner : NestedMirrors L inner inner') :
    MirrorsTree L (component inner scope) (component inner' scope) := by
  have hsigned : ∀ k, TokenKind.isFence k = false → MirrorsIf L
      (fun tokens => True ∧ tokens.head?.map Token.kind = some k) (signedComponent inner scope)
      (signedComponent inner' scope) Node.bare := by
    intro k hfence
    refine .here fun _ _ => mirrorsIf_readNumber? ?_ mirrors_measured
    have hcons : ∀ tokens : List Token, tokens.head?.map Token.kind = some k →
        ∃ token rest, tokens = token :: rest ∧ token.kind.isFence = false := by
      rintro (_ | ⟨token, rest⟩) h
      · cases h
      · exact ⟨token, rest, rfl, by rwa [Option.some.inj h]⟩
    refine .lookupKind (fun tokens h => hcons tokens h.2) fun _ =>
      .lookupKind (fun tokens h => hcons tokens h.1.2) fun _ => .kind? fun k' => ?_
    split
    next =>
      exact .ite .rfl (fun _ => (mirrors_named hinner).always) fun _ =>
        mirrorsIf_tokenLeaf fun _ h => by simp [h.2]
    next => exact mirrorsIf_tokenLeaf fun _ h => by simp [h.2]
    next => exact .fail
  rw [component_eq, component_eq]
  refine .kind? fun k => ?_
  split
  next => exact mirrorsIf_tokenLeaf fun _ h => by simp [h.2]
  next => exact (mirrors_named hinner).always
  next => exact (mirrors_named hinner).always
  next => exact hsigned _ rfl
  next => exact hsigned _ rfl
  next => exact hsigned _ rfl
  next => exact hsigned _ rfl
  next => exact .fail

/-! ## Brackets -/

theorem itemMirrors_bracketPart (hinner : NestedMirrors L inner inner') (closing : TokenKind)
    {token token' : Token} (hface : L.face token' = L.face token) :
    ItemMirrors L Node.bare token (bracketPart inner scope closing token)
      (bracketPart inner' scope closing token') := by
  rw [bracketPart, bracketPart, Likeness.kind_eq hface]
  refine .ite .rfl (fun _ => itemMirrors_stop) fun _ => ?_
  split
  next => exact itemMirrors_add mirrors_space.always
  next => exact itemMirrors_skip
  next => exact itemMirrors_add mirrors_hash.always
  next => exact itemMirrors_add (hinner.brackets scope).always
  next => exact itemMirrors_add (hinner.brackets scope).always
  next hk => exact itemMirrors_operator (by simp [hk])
  next hk => exact itemMirrors_operator (by simp [hk])
  next hk => exact itemMirrors_operator (by simp [hk])
  next hk => exact itemMirrors_operator (by simp [hk])
  next => exact itemMirrors_add (hinner.component scope).always

theorem mirrors_brackets (hinner : NestedMirrors L inner inner') :
    MirrorsTree L (brackets inner scope) (brackets inner' scope) :=
  .here fun _ _ => .isAt fun _ => mirrorsIf_advance.step fun _ => mirrorsIf_skipGaps.step fun _ =>
    (mirrors_many fun _ _ => itemMirrors_bracketPart hinner _).bind fun _ _ hparts =>
      (mirrorsIf_expect _).step fun _ => .pure (by simp [bare_dropTrailingSpaces hparts])

/-! ## Values -/

theorem mirrors_importantFlag : Mirrors L importantFlag importantFlag fun u => u :=
  (mirrorsIf_expect _).step fun _ => mirrorsIf_skipGaps.step fun _ =>
    (mirrorsIf_expectWord _).step fun _ =>
    (mirrors_readName false).step fun _ => .pure rfl

theorem roundMirrors_valuePart (hinner : NestedMirrors L inner inner') (nested : Bool) :
    RoundMirrors L Node.bare (fun important => important) (valuePart inner nested)
      (valuePart inner' nested) := by
  intro important important' token token' himportant hface
  obtain rfl : important' = important := himportant
  have hpart : ∀ {x y : Parser Tree}, MirrorsIf L
      (fun tokens => tokens.head? = some token) x y Node.bare →
      MirrorsIf L (fun tokens => tokens.head? = some token)
        (do return .next [← x] important' : Parser (Round Bool Tree))
          (do return .next [← y] important')
        (roundView Node.bare fun important => important) :=
    fun h => h.bind fun _ _ hnode => .pure (by simp [roundView, hnode])
  have hoperator : token.kind ≠ .whitespace →
      MirrorsIf L (fun tokens => tokens.head? = some token) operator
      operator Node.bare := fun hk => mirrorsIf_tokenLeaf fun _ hat => by simpa [hat] using hk
  rw [valuePart, valuePart, Likeness.kind_eq hface]
  dsimp only
  split
  next => exact .pure rfl
  next => exact .pure rfl
  next => exact .ite .rfl (fun _ => .pure rfl) fun _ => .fail
  next => exact hpart mirrors_space.always
  next => exact mirrorsIf_advance.step fun _ => .pure rfl
  next => exact hpart mirrors_hash.always
  next hk => exact hpart (hoperator (by simp [hk]))
  next hk => exact hpart (hoperator (by simp [hk]))
  next => exact hpart (mirrors_brackets hinner).always
  next => exact hpart (mirrors_brackets hinner).always
  next => exact mirrors_importantFlag.always.step fun _ => .pure rfl
  next hk =>
    refine .lookupKind (fun tokens hat => ?_) fun plus => .ite ?_ (fun h => ?_) fun _ => ?_
    · obtain ⟨rest, rfl⟩ := List.head?_eq_some_iff.1 hat
      exact ⟨token, rest, rfl, by rw [hk]; rfl⟩
    · rw [Likeness.spells_eq hface (by simp [hk])]
    · refine (mirrorsIf_unicodeRange fun tokens hat => ?_).bind fun _ _ hnode =>
        .pure (by simp [roundView, hnode])
      simp [hat.1, hk, hat.2.2 (Bool.and_eq_true_iff.1 h).2]
    · exact (mirrors_component hinner).always.bind fun _ _ hnode =>
        .pure (by simp [roundView, hnode])
  next => exact hpart (mirrors_component hinner).always

theorem mirrors_value (hinner : NestedMirrors L inner inner') (nested : Bool) :
    MirrorsTree L (value inner nested) (value inner' nested) := by
  refine .here fun _ _ => mirrorsIf_skipGaps.step fun _ =>
    (mirrors_loop (roundMirrors_valuePart hinner nested) rfl).bind fun result result' hresult =>
      .pure ?_
  obtain ⟨hitems, himportant⟩ := Prod.mk.inj hresult
  dsimp only at himportant
  simp only [Node.bare_sequence, bare_dropTrailingSpaces hitems, himportant]

end Grammar
end StyleTree
