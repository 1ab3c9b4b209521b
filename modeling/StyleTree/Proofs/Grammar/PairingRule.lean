import StyleTree.Proofs.Grammar.Pairing

/-! Every production takes tokens with their brackets in pairs, if the readers one bracket deeper do
(`NestedPairs`). Components, selectors and the expressions of at-rules do not end as a statement
does. -/

namespace StyleTree

open StyleTree.Parser StyleTree.Grammar

namespace Grammar

variable {all wide : Bool} {P : List Token → Prop} {inner : Nested} {scope : Scope}
  {info : Option Nat} {name : String} {token : Token} {β : Type}

/-! ## Names and other small parts -/

/-- A current token that can be seen is free. -/
theorem free_of_head {tokens : List Token} {kind : TokenKind}
    (h : tokens.head?.map Token.kind = some kind) (hk : kind.isFree all wide = true) :
    ∀ kind ∈ tokens.head?.map Token.kind, kind.isFree all wide = true := by
  intro kind' hmem
  rw [h] at hmem
  rwa [← Option.some.inj hmem]

theorem isFree_of_isNamePart (h : isNamePart token = true) : token.kind.isFree all wide = true := by
  unfold isNamePart at h
  split at h
  case h_5 => exact nomatch h
  all_goals simp_all [TokenKind.isFree]

theorem pairs_readName (custom : Bool) : PairsIf all wide P (readName custom) := by
  refine (pairs_takeIf rfl).step fun _ => .either (fun _ => pairs_takeIf rfl) (fun _ => .pure .nil)
    fun _ => .kind? fun _ => ?_
  split
  next => exact (pairsIf_take fun _ h => free_of_head h.2 rfl).step fun _ =>
      (pairs_takeWhile fun _ => isFree_of_isNamePart).step fun _ => .pure .nil
  next => exact (pairsIf_take fun _ h => free_of_head h.2 rfl).step fun _ =>
      (pairs_takeWhile fun _ => isFree_of_isNamePart).step fun _ => .pure .nil
  next => exact .fail

/-- Where all brackets are counted, the name spells no link and no script. -/
def PlainName (all : Bool) (name : String) : Prop :=
  all = true → Text.sameLetters name "url" = false ∧ Text.sameLetters name "expression" = false

theorem takingIf_readName (custom : Bool) :
    TakingIf (Known all) P (readName custom)
      fun name front => Paired all wide front ∧ PlainName all name := by
  intro s name s' hK hP hs
  have hpairs : PairsIf all wide P (readName custom) := pairs_readName custom
  obtain ⟨hK', front, htakes, hpaired⟩ := hpairs s name s' hK hP hs
  obtain ⟨front', hfront, hname⟩ := spanning_readName custom s name s' hK.spelled hs
  refine ⟨hK', front, htakes, hpaired, fun hall => ?_⟩
  obtain ⟨hurl, hscript, -⟩ := hK.words hall
  exact ⟨hurl.sameLetters_eq_false (by decide) hfront hname, hscript.sameLetters_eq_false
    (by decide) hfront hname⟩

/-- A name comes first. -/
theorem pairsIf_named {custom : Bool} {f : String → Parser β}
    (hf : ∀ name, PlainName all name → Pairs all wide (f name)) :
    PairsIf all wide P (readName custom >>= f) :=
  (takingIf_readName custom).bind fun name _ h =>
    (hf name h.2).imp fun _ _ hmore => h.1.append hmore

theorem pairs_identifier (custom : Bool) : PairsIf all wide P (identifier custom) :=
  .here fun _ => (pairs_readName custom).step fun _ => .pure .nil

theorem pairs_nameEnd (colon : Bool) : PairsIf all wide P (nameEnd info name colon) := by
  refine .isAt fun _ => .ite (fun h => ?_) fun _ => .pure .nil
  rw [Bool.and_eq_true] at h
  exact (pairsIf_take fun _ hat => free_of_head (hat.2.2 h.2) rfl).step fun _ =>
    (pairs_readName false).step fun _ => .pure .nil

theorem pairs_nameAfterBar (colon : Bool) (base bar : String) :
    PairsIf all wide P (nameAfterBar info colon base bar) := by
  refine .kind? fun _ => ?_
  split
  next => exact (pairs_readName false).step fun _ => pairs_nameEnd colon
  next => exact (pairs_readName false).step fun _ => pairs_nameEnd colon
  next => exact (pairs_readName false).step fun _ => pairs_nameEnd colon
  next => exact (pairsIf_take fun _ h => free_of_head h.2 rfl).step fun _ => pairs_nameEnd false
  next => exact pairs_nameEnd colon

theorem pairs_nameFrom (colon : Bool) (base : String) :
    PairsIf all wide P (nameFrom info colon base) := by
  refine .isAt fun _ => .lookupKind fun _ => .ite (fun h => ?_) fun _ => pairs_nameEnd colon
  rw [Bool.and_eq_true] at h
  exact (pairsIf_take fun _ hat => free_of_head (hat.1.2.2 h.1) rfl).step
    (pairs_nameAfterBar colon base)

theorem pairs_qualifiedName (colon : Bool) : PairsIf all wide P (qualifiedName colon) := by
  refine .current? fun first? => ?_
  cases first? with
  | none => exact .fail
  | some first =>
    refine .here fun info => .lookupKind fun equals => .ite (fun hk => ?_) fun _ =>
      .ite (fun _ => ?_) fun _ => ?_
    · exact (pairsIf_take fun _ h => free_of_head (by rw [h.1.2, Option.map_some, hk]) rfl).step
        fun base =>
        pairs_nameFrom (colon && first.kind ≠ .asterisk) base
    · exact pairs_nameFrom (colon && first.kind ≠ .asterisk) ""
    · exact (pairs_readName false).step fun base =>
        pairs_nameFrom (colon && first.kind ≠ .asterisk) base

theorem pairs_hash : PairsIf all wide P hash := by
  refine .here fun _ => (pairs_expect rfl).step fun _ => .kind? fun _ => ?_
  split
  next =>
    exact (pairsIf_take fun _ h => free_of_head h.2 rfl).step fun _ =>
      (pairs_takeIf rfl).step fun _ => .pure .nil
  next => exact (pairsIf_take fun _ h => free_of_head h.2 rfl).step fun _ => .pure .nil
  next => exact .fail

/-- A current token that is free is read. -/
theorem pairsIf_tokenLeaf {kind : LeafKind}
    (hP : ∀ tokens, P tokens → ∀ kind ∈ tokens.head?.map Token.kind, kind.isFree all wide = true) :
    PairsIf all wide P (tokenLeaf kind) :=
  .here fun _ => (pairsIf_take hP).step fun _ => .pure .nil

theorem pairsIf_space
    (hP : ∀ tokens, P tokens → ∀ kind ∈ tokens.head?.map Token.kind, kind.isFree all wide = true) :
    PairsIf all wide P space :=
  (pairsIf_advance hP).step fun _ => .pure .nil

theorem isFree_of_isHexPart (h : isHexPart token = true) : token.kind.isFree all wide = true := by
  rcases Bool.or_eq_true_iff.1 h with hk | hk <;> rw [of_decide_eq_true hk] <;> rfl

theorem pairs_hexDigits : PairsIf all wide P hexDigits :=
  (pairs_takeWhile fun _ => isFree_of_isHexPart).step fun _ =>
    .ite (fun _ => .fail) fun _ => .pure .nil

/-- A range starts with an identifier and a plus sign. -/
theorem pairsIf_unicodeRange
    (hP : ∀ tokens, P tokens → ∀ token ∈ tokens.take 2, token.kind.isFree all wide = true) :
    PairsIf all wide P unicodeRange := by
  refine .here fun _ => (pairsIf_takeMany hP).step fun _ => pairs_hexDigits.step fun first =>
    .get fun s _ _ => ?_
  refine (pairsIf_takeMany fun tokens h token hmem => ?_).step fun _ =>
    .isAt fun _ => .ite (fun h => ?_) fun _ => .pure .nil
  · obtain ⟨rest, hrest, hkinds, -⟩ := marksOf_spec (6 - Text.byteLength first.toList) s.rest
    have hmarks : token ∈ marksOf (6 - Text.byteLength first.toList) s.rest := by
      rw [List.prefix_iff_eq_take.1 ⟨rest, hrest.symm⟩]
      exact h ▸ hmem
    rw [hkinds token hmarks]
    rfl
  · exact (pairsIf_take fun _ hat => free_of_head (hat.2.2 (Bool.and_eq_true_iff.1 h).2) rfl).step
      fun _ =>
      pairs_hexDigits.step fun _ => .pure .nil

theorem pairsIf_readUnit (hP : ∀ tokens, P tokens → tokens.head? = some token)
    (hk : token.kind = .ident) :
    PairsIf all wide P (readUnit token) := by
  refine (takingIf_readUnit hP hk).imp fun _ front hfront => ?_
  obtain ⟨token', rfl, hk', -⟩ := hfront
  exact .of_free fun token hmem => by rw [List.mem_singleton.1 hmem, hk']; rfl

theorem pairs_measured (number : String) : PairsIf all wide P (measured info number) := by
  refine .current? fun token? => ?_
  cases token? with
  | none => exact .pure .nil
  | some token =>
    refine .ite (fun hk => ?_) fun _ => .ite (fun hk => ?_) fun _ => .pure .nil
    · exact (pairsIf_advance fun _ h => free_of_head (by rw [h.2, Option.map_some, hk]) rfl).step
        fun _ => .pure .nil
    · exact (pairsIf_readUnit (fun _ h => h.2) hk).step fun _ => .pure .nil

theorem pairsIf_readNumber? {f : Option String → Parser β} (hnone : PairsIf all wide P (f none))
    (hsome : ∀ number, Pairs all wide (f (some number))) :
    PairsIf all wide P (readNumber? >>= f) := by
  rw [readNumber?, bind_assoc]
  refine .get fun s _ hs => ?_
  cases hcount : numberLength? s.rest with
  | none => exact .value (hnone.mono fun _ h => h ▸ hs)
  | some count =>
    dsimp only
    rw [bind_assoc]
    refine (pairsIf_takeMany fun tokens h token hmem => ?_).step fun number => .value (hsome number)
    rcases numberLength?_kinds (h ▸ hcount) token hmem with hk | hk | hk <;> rw [hk] <;> rfl

/-! ## Functions -/

/-- What the readers one bracket deeper have to do. A bracketed sequence is read where a bracket
opens. -/
structure NestedPairs (all wide : Bool) (inner : Nested) : Prop where
  component : ∀ scope, Pairs all wide (inner.component scope)
  brackets : ∀ scope, PairsIf all wide
    (fun tokens => ∃ kind, tokens.head?.map Token.kind = some kind ∧
      (kind = .leftParen ∨ kind = .leftBracket)) (inner.brackets scope)
  fallback : Pairs all wide inner.fallback
  negated : Pairs all wide inner.negated

theorem NestedPairs.widen (h : NestedPairs all wide inner) : NestedPairs all true inner :=
  ⟨fun scope => (h.component scope).widen, fun scope => (h.brackets scope).widen, h.fallback.widen,
    h.negated.widen⟩

theorem pairs_urlFunction : PairsIf false wide P (urlFunction info) := by
  have hend : ∀ link : Tree, ClosesIf false .rightParen (fun _ => True)
      (do skipGaps; expect .rightParen; return .wrapper info .url link : Parser Tree) := fun link =>
    pairs_skipGaps.stepInside fun _ => .last
  refine .group (taking_expect _) rfl (.inr nofun)
    (pairs_skipGaps.stepInside fun _ => .isAt fun _ =>
      .ite (fun hstring => ?_) fun _ => .here fun _ => ?_)
  · exact (pairsIf_tokenLeaf fun _ h => free_of_head (h.2.2 hstring) rfl).stepInside hend
  · refine (pairs_takeWhile fun token h => ?_).stepInside fun _ => .value (hend _)
    cases hk : token.kind <;> simp_all [TokenKind.isFree]

theorem pairs_negation (hinner : NestedPairs all wide inner) :
    PairsIf all wide P (negation inner info) := by
  refine .group (taking_expect _) rfl (.inr nofun)
    ((pairs_separated ?_ (.pure .nil)).stepInside fun _ => .last)
  refine .kind? fun _ => ?_
  split
  next => exact .fail
  next => exact .fail
  next => exact hinner.negated.widen.always

/-- A script goes on up to the parenthesis that closes it. -/
theorem closes_script {tree : String → Tree} : ClosesIf false .rightParen P (do
    let text ← takeMany (balancedLength 0 (← get).rest)
    expect .rightParen
    return tree text) := by
  intro s _ s' hK _ hs
  rw [get_bind_run, takeMany_bind_run] at hs
  obtain ⟨_, s₁, hclosing, hs⟩ := bind_eq_ok.1 hs
  obtain ⟨-, rfl⟩ := EStateM.Result.ok.inj hs
  obtain ⟨token, rest, hrest, hk, rfl⟩ := expect_eq_ok.1 hclosing
  have hlt : balancedLength 0 s.rest < s.rest.length := by
    have hlength := congrArg List.length hrest
    rw [List.length_drop, List.length_cons] at hlength
    omega
  have hsplit : s.rest = (s.rest.take (balancedLength 0 s.rest) ++ [token]) ++ rest := by
    rw [List.append_assoc, List.singleton_append, ← hrest, List.take_append_drop]
  refine ⟨Kept.suffix hK ⟨_, hsplit.symm⟩, _, ?_, _, token, rfl, hk,
    fun due => nest_balancedLength s.rest hlt due, nofun⟩
  have htakes := Takes.of_append (s.rest.take (balancedLength 0 s.rest) ++ [token]) rest
  rwa [← hsplit] at htakes

theorem pairs_scriptFunction : PairsIf false wide P (scriptFunction info name) :=
  .group (taking_expect _) rfl (.inr nofun) closes_script

theorem pairs_variableFunction (hinner : NestedPairs all wide inner) :
    PairsIf all wide P (variableFunction inner info name) := by
  have hend : ∀ (first : Tree) (later : List Tree), ClosesIf all .rightParen (fun _ => True)
      (do
        expect .rightParen
        return .sequence info (.function name) (argument [first] :: later) : Parser Tree) :=
    fun _ _ => .last
  refine .group (taking_expect _) rfl (.inr nofun) (pairs_skipGaps.stepInside fun _ =>
    (pairs_identifier true).stepInside fun first =>
      pairs_skipGaps.stepInside fun _ => .isAt fun _ =>
      .ite (fun hcomma => ?_) fun _ => .value (hend first []).always)
  exact (pairsIf_advance fun _ h => free_of_head (h.2.2 hcomma) rfl).stepInside fun _ =>
    pairs_skipGaps.stepInside fun _ => hinner.fallback.widen.stepInside fun _ =>
      pairs_skipGaps.stepInside fun _ => .value (hend first _)

/-! ## Arguments and brackets -/

/-- The current token is free. -/
theorem free_at {kind : TokenKind} (hk : token.kind = kind) (h : kind.isFree all wide = true) :
    ∀ tokens : List Token, tokens.head? = some token →
      ∀ kind ∈ tokens.head?.map Token.kind, kind.isFree all wide = true :=
  fun _ hhead => free_of_head (by rw [hhead, Option.map_some, hk]) h

/-- A bracket opens at the current token. -/
theorem opens_at {kind : TokenKind} (hk : token.kind = kind)
    (h : kind = .leftParen ∨ kind = .leftBracket) :
    ∀ tokens : List Token, tokens.head? = some token →
      ∃ kind, tokens.head?.map Token.kind = some kind ∧ (kind = .leftParen ∨ kind = .leftBracket) :=
  fun _ hhead => ⟨kind, by rw [hhead, Option.map_some, hk], h⟩

theorem pairs_add {read : Parser Tree} (h : PairsIf all wide P read) :
    PairsIf all wide P (add read) :=
  h.step fun _ => .pure .nil

theorem pairs_stop : PairsIf all wide P stop :=
  .pure .nil

theorem pairsIf_skip
    (hP : ∀ tokens, P tokens → ∀ kind ∈ tokens.head?.map Token.kind, kind.isFree all wide = true) :
    PairsIf all wide P skip :=
  (pairsIf_advance hP).step fun _ => .pure .nil

theorem pairsIf_argumentPart (hinner : NestedPairs all wide inner) :
    PairsIf all wide (fun tokens => tokens.head? = some token)
      (argumentPart inner scope token) := by
  unfold argumentPart
  split
  next => exact pairs_stop
  next => exact pairs_stop
  next hk => exact pairs_add (pairsIf_space (free_at hk rfl))
  next hk => exact pairsIf_skip (free_at hk rfl)
  next => exact pairs_add pairs_hash
  next hk => exact pairs_add ((hinner.brackets scope).mono (opens_at hk (.inl rfl)))
  next hk => exact pairs_add ((hinner.brackets scope).mono (opens_at hk (.inr rfl)))
  next hk => exact pairs_add (pairsIf_tokenLeaf (free_at hk rfl))
  next hk => exact pairs_add (pairsIf_tokenLeaf (free_at hk rfl))
  next hk => exact pairs_add (pairsIf_tokenLeaf (free_at hk rfl))
  next hk => exact pairs_add (pairsIf_tokenLeaf (free_at hk rfl))
  next => exact pairs_add (hinner.component scope).always

theorem pairs_argumentOf (hinner : NestedPairs all wide inner) :
    PairsIf all wide P (argumentOf inner scope) := by
  refine (pairs_many fun _ => pairsIf_argumentPart hinner).step fun parts => ?_
  cases parts with
  | nil => exact .fail
  | cons => exact .pure .nil

theorem pairs_arguments (hinner : NestedPairs all wide inner) :
    PairsIf all wide P (arguments inner scope) := by
  have hend : ∀ nodes : List Tree, ClosesIf all .rightParen (fun _ => True)
      (do expect .rightParen; return nodes : Parser (List Tree)) := fun _ => .last
  refine .group (taking_expect _) rfl (.inr nofun)
    (pairs_skipGaps.stepInside fun _ => .isAt fun _ =>
      .ite (fun _ => .value (hend []).always) fun _ => ?_)
  exact (pairs_separated (pairs_argumentOf hinner.widen) pairs_skipGaps).stepInside fun _ =>
    .value (hend _)

/-- A name that is plain is none of a function whose text is kept as it stands. -/
theorem special?_of_plain (hname : PlainName true name) :
    scope.special? name ≠ some .url ∧ scope.special? name ≠ some .script := by
  obtain ⟨hurl, hscript⟩ := hname rfl
  unfold Scope.special?
  grind

theorem pairs_function (hinner : NestedPairs all wide inner) (hname : PlainName all name) :
    PairsIf all wide P (function inner scope info name) := by
  rw [function]
  split
  next hspecial =>
    cases all with
    | true => exact absurd hspecial (special?_of_plain hname).1
    | false => exact pairs_urlFunction
  next => exact pairs_negation hinner
  next hspecial =>
    cases all with
    | true => exact absurd hspecial (special?_of_plain hname).2
    | false => exact pairs_scriptFunction
  next => exact pairs_variableFunction hinner
  next =>
    refine (pairs_arguments hinner).step fun _ => ?_
    cases scope with
    | selector | atruleExpression | value => exact .pure .nil

theorem pairsIf_bracketPart (hinner : NestedPairs all wide inner) (closing : TokenKind) :
    PairsIf all wide (fun tokens => tokens.head? = some token)
      (bracketPart inner scope closing token) := by
  refine .ite (fun _ => pairs_stop) fun _ => ?_
  split
  next hk => exact pairs_add (pairsIf_space (free_at hk rfl))
  next hk => exact pairsIf_skip (free_at hk rfl)
  next => exact pairs_add pairs_hash
  next hk => exact pairs_add ((hinner.brackets scope).mono (opens_at hk (.inl rfl)))
  next hk => exact pairs_add ((hinner.brackets scope).mono (opens_at hk (.inr rfl)))
  next hk => exact pairs_add (pairsIf_tokenLeaf (free_at hk rfl))
  next hk => exact pairs_add (pairsIf_tokenLeaf (free_at hk rfl))
  next hk => exact pairs_add (pairsIf_tokenLeaf (free_at hk rfl))
  next hk => exact pairs_add (pairsIf_tokenLeaf (free_at hk rfl))
  next => exact pairs_add (hinner.component scope).always

theorem taking_opening {kind : TokenKind}
    (hP : ∀ tokens, P tokens → tokens.head?.map Token.kind = some kind) :
    TakingIf (Known all) P advance fun _ front => ∃ token, front = [token] ∧ token.kind = kind := by
  refine takingIf_advance.imp fun _ front hfront => ?_
  obtain ⟨tokens, -, hat, rfl⟩ := hfront
  have hhead := hP tokens hat
  cases tokens with
  | nil => exact nomatch hhead
  | cons token tokens => exact ⟨token, rfl, Option.some.inj hhead⟩

theorem pairsIf_brackets (hinner : NestedPairs all wide inner) (hP : ∀ tokens, P tokens → ∃ kind,
      tokens.head?.map Token.kind = some kind ∧ (kind = .leftParen ∨ kind = .leftBracket)) :
    PairsIf all wide P (brackets inner scope) := by
  have hinside : ∀ (closing : TokenKind) (tree : List Tree → Tree),
      ClosesIf all closing (fun _ => True) (do
        skipGaps
        let parts ← many (bracketPart inner scope closing)
        expect closing
        return tree parts) := fun closing _ =>
    pairs_skipGaps.stepInside fun _ =>
      (pairs_many fun _ => pairsIf_bracketPart hinner.widen closing).stepInside fun _ => .last
  refine .here fun _ => .isAt fun round => ?_
  cases round with
  | true =>
    exact .group (taking_opening fun _ h => h.2.2 rfl) rfl (.inr nofun) (hinside .rightParen _)
  | false =>
    have hbracket : ∀ tokens : List Token, P tokens ∧
        (tokens.head?.map Token.kind = some .leftParen ↔ false = true) →
        tokens.head?.map Token.kind = some .leftBracket := by
      rintro tokens ⟨hat, hround⟩
      obtain ⟨kind, hhead, rfl | rfl⟩ := hP tokens hat
      · exact absurd (hround.1 hhead) nofun
      · exact hhead
    exact .group (taking_opening hbracket) rfl (.inr nofun) (hinside .rightBracket _)

/-! ## Components -/

theorem pairs_named (hinner : NestedPairs all wide inner) :
    PairsIf all wide P (named inner scope) :=
  .here fun _ => pairsIf_named fun _ hname => .isAt fun _ =>
    .ite (fun _ => pairs_function hinner hname) fun _ => .pure .nil

theorem pairs_component (hinner : NestedPairs all wide inner) :
    PairsIf all wide P (component inner scope) := by
  have hsigned : PairsIf all wide P (signedComponent inner scope) := by
    refine .here fun _ =>
      pairsIf_readNumber? (.lookupKind fun _ => .lookupKind fun _ => .kind? fun _ => ?_)
      pairs_measured
    split
    next =>
      exact .ite (fun _ => pairs_named hinner) fun _ =>
        pairsIf_tokenLeaf fun _ h => free_of_head h.2 rfl
    next => exact pairsIf_tokenLeaf fun _ h => free_of_head h.2 rfl
    next => exact .fail
  rw [component_eq]
  refine .kind? fun _ => ?_
  split
  next => exact pairsIf_tokenLeaf fun _ h => free_of_head h.2 rfl
  next => exact pairs_named hinner
  next => exact pairs_named hinner
  next => exact hsigned.mono fun _ h => h.1
  next => exact hsigned.mono fun _ h => h.1
  next => exact hsigned.mono fun _ h => h.1
  next => exact hsigned.mono fun _ h => h.1
  next => exact .fail

/-! ## Values -/

theorem pairs_importantFlag : PairsIf all wide P importantFlag :=
  (pairs_expect rfl).step fun _ => pairs_skipGaps.step fun _ => (pairs_expectWord _).step fun _ =>
    (pairs_readName false).step fun _ => .pure .nil

/-- A part of a value is read. -/
theorem pairs_part {σ : Type} {st : σ} {read : Parser Tree} (h : PairsIf all wide P read) :
    PairsIf all wide P (do return Round.next [← read] st) :=
  h.step fun _ => .pure .nil

theorem pairsIf_valuePart (hinner : NestedPairs all wide inner) (nested important : Bool) :
    PairsIf all wide (fun tokens => tokens.head? = some token)
      (valuePart inner nested important token) := by
  unfold valuePart
  split
  next => exact .pure .nil
  next => exact .pure .nil
  next => exact .ite (fun _ => .pure .nil) fun _ => .fail
  next hk => exact pairs_part (pairsIf_space (free_at hk rfl))
  next hk => exact (pairsIf_advance (free_at hk rfl)).step fun _ => .pure .nil
  next => exact pairs_part pairs_hash
  next hk => exact pairs_part (pairsIf_tokenLeaf (free_at hk rfl))
  next hk => exact pairs_part (pairsIf_tokenLeaf (free_at hk rfl))
  next hk => exact pairs_part (pairsIf_brackets hinner (opens_at hk (.inl rfl)))
  next hk => exact pairs_part (pairsIf_brackets hinner (opens_at hk (.inr rfl)))
  next => exact pairs_importantFlag.step fun _ => .pure .nil
  next hk =>
    refine .lookupKind fun plus =>
      .ite (fun h => pairs_part (pairsIf_unicodeRange fun tokens hat => ?_))
        fun _ => pairs_part (pairs_component hinner)
    rintro other hmem
    obtain ⟨rest, rfl⟩ := List.head?_eq_some_iff.1 hat.1
    have hplus := hat.2.2 (Bool.and_eq_true_iff.1 h).2
    cases rest with
    | nil => cases hplus
    | cons next rest =>
      rcases List.mem_cons.1 hmem with rfl | hmem
      · rw [hk]
        rfl
      · obtain rfl := List.mem_singleton.1 hmem
        rw [Option.some.inj hplus]
        rfl
  next => exact pairs_part (pairs_component hinner)

theorem pairs_value (hinner : NestedPairs all wide inner) (nested : Bool) :
    PairsIf all wide P (value inner nested) :=
  .here fun _ => pairs_skipGaps.step fun _ =>
    (pairs_loop fun important _ => pairsIf_valuePart hinner nested important).step
      fun _ => .pure .nil

/-! ## Filter values -/

/-- The words and kinds of a pattern are no brackets. -/
def IsFreeItem (all wide : Bool) : String ⊕ TokenKind → Prop
  | .inl word => word.toList.length ≠ 1
  | .inr kind => kind.isFree all wide = true

theorem isFree_of_fits {item : String ⊕ TokenKind} (hitem : IsFreeItem all wide item)
    (hs : token.IsSpelled) (h : Fits item token) : token.kind.isFree all wide = true := by
  cases item with
  | inl word => exact TokenKind.isFree_of_char? (hs.char?_eq_none hitem h)
  | inr kind =>
    have hk : token.kind = kind := h
    rw [hk]
    exact hitem

theorem paired_of_fits (pattern : List (String ⊕ TokenKind)) {tokens : List Token}
    (hpattern : ∀ item ∈ pattern, IsFreeItem all wide item) (hs : Spelled tokens)
    (h : List.Forall₂ Fits pattern tokens) : Paired all wide tokens := by
  refine .of_free ?_
  induction h with
  | nil => exact nofun
  | cons hfits _ ih =>
    rintro token (_ | ⟨_, hmem⟩)
    · exact isFree_of_fits (hpattern _ (.head _)) (hs _ (.head _)) hfits
    · exact ih (fun item hmem => hpattern item (.tail _ hmem))
        (fun token hmem => hs token (.tail _ hmem)) token hmem

theorem paired_gap {gap : List Token} (h : ∀ token ∈ gap, isGap token = true) :
    Paired all wide gap :=
  .of_free fun token hmem => isFree_of_isGap (h token hmem)

/-- Before its parenthesis, a filter block is a row of words. -/
theorem exists_of_isHead {front : List Token} (h : IsHead front) (hs : Spelled front) :
    ∃ words opening, front = words ++ [opening] ∧ opening.kind = .leftParen ∧
      Paired all wide words := by
  cases h with
  | @mk first colon opening gap name gap' hfirst _ hcolon hgap hname _ hgap' hopening =>
    have hwords : Paired all wide [first, colon] := by
      refine paired_of_fits [.inl "progid", .inr .colon] (fun item hmem => ?_)
        (fun token hmem => ?_)
        (.cons hfirst (.cons hcolon .nil))
      · rcases List.mem_pair.1 hmem with rfl | rfl
        · exact (by decide : "progid".toList.length ≠ 1)
        · exact (rfl : TokenKind.isFree all wide .colon = true)
      · rcases List.mem_pair.1 hmem with rfl | rfl <;> exact hs _ (by simp)
    have hname' : Paired all wide name := by
      refine paired_of_fits progidName (fun item hmem => ?_)
        (fun token hmem => hs token (by simp [hmem])) hname
      simp only [progidName, List.mem_cons, List.not_mem_nil, or_false] at hmem
      rcases hmem with rfl | rfl | rfl | rfl | rfl
      · exact (by decide : "dximagetransform".toList.length ≠ 1)
      · exact (rfl : TokenKind.isFree all wide .fullStop = true)
      · exact (by decide : "microsoft".toList.length ≠ 1)
      · exact (rfl : TokenKind.isFree all wide .fullStop = true)
      · exact (rfl : TokenKind.isFree all wide .ident = true)
    exact ⟨[first, colon] ++ (gap ++ (name ++ gap')), opening, by simp, hopening,
      hwords.append ((paired_gap hgap).append (hname'.append (paired_gap hgap')))⟩

theorem paired_of_isProgid {tokens : List Token} (h : IsProgid tokens) (hs : Spelled tokens) :
    Paired false wide tokens := by
  obtain ⟨front, inside, closing, rfl, hhead, hk, hlength⟩ := h
  obtain ⟨words, opening, rfl, hopening, hwords⟩ : ∃ words opening, front = words ++ [opening] ∧
      opening.kind = .leftParen ∧ Paired false wide words :=
    exists_of_isHead hhead fun token hmem => hs token (List.mem_append_left _ hmem)
  have hinside : Paired false true inside := by
    refine ⟨fun due => ?_, nofun⟩
    have hnest := nest_balancedLength (inside ++ [closing]) (by rw [hlength]; simp) due
    rwa [hlength, List.take_left] at hnest
  rw [List.append_assoc]
  exact hwords.append (.group (by rw [hopening, hk]; rfl) (.inr (by rw [hk]; nofun)) hinside)

theorem pairs_progidPart (token : Token) : PairsIf false wide P (progidPart token) := by
  intro s item s' hK _ hs
  cases hnext : nextProgid? s.rest with
  | none =>
    obtain ⟨-, rfl⟩ := EStateM.Result.ok.inj ((progidPart_eq_stop hnext).symm.trans hs)
    exact ⟨hK, [], .done, .nil⟩
  | some count =>
    rw [nextProgid?, drop_gapLength] at hnext
    obtain ⟨front, rest, hfront, hprogid, -⟩ := (progidLength?_iff (noGap_dropWhile _)).1 hnext
    obtain ⟨info, start, hrun⟩ := progidPart_run token hfront hprogid
    obtain ⟨-, rfl⟩ := EStateM.Result.ok.inj (hrun.symm.trans hs)
    have hsuffix := List.dropWhile_suffix isGap (l := s.rest)
    have hspelled := hK.spelled.of_suffix hsuffix
    rw [hfront] at hsuffix hspelled
    have htakes := takes_takeWhile isGap s.rest
    rw [hfront] at htakes
    refine ⟨Kept.suffix hK ((List.dropWhile_suffix isGap).trans
      ((List.suffix_append front rest).trans hsuffix)), _,
      htakes.trans ((Takes.of_append front _).trans (takes_takeWhile isGap rest)), ?_⟩
    have hgap : ∀ tokens : List Token, Paired false wide (tokens.takeWhile isGap) := fun _ =>
      paired_gap fun _ hmem => List.mem_takeWhile_imp hmem
    exact (hgap _).append
      ((paired_of_isProgid hprogid fun token hmem =>
        hspelled token (List.mem_append_left _ hmem)).append
      (hgap _))

theorem pairs_filterValue : PairsIf false wide P filterValue := by
  rw [filterValue_eq]
  exact .here fun _ => (pairs_many fun token => pairs_progidPart token).step fun _ =>
    pairs_skipGaps.step fun _ => TakingIf.step
      (.isAt fun _ =>
        .ite (fun _ => pairs_importantFlag.step fun _ => .pure .nil) fun _ => .pure .nil)
      fun _ => .pure .nil

/-- Where all brackets are counted, no filter block follows. -/
theorem nextProgid?_of_known {tokens : List Token} (h : Known true tokens) :
    nextProgid? tokens = none :=
  Likeness.Near.progidLength?_eq_none fun _ hmem => (h.words rfl).2.2.spells_eq_false (by decide)
    (List.mem_of_mem_drop (List.mem_of_mem_head? hmem))

/-! ## Attributes -/

theorem pairs_attributeOperator : PairsIf all wide P attributeOperator := by
  refine .kind? fun _ => ?_
  split
  case h_1 => exact pairsIf_take fun _ h => free_of_head h.2 rfl
  case h_7 => exact .fail
  all_goals
    refine (pairsIf_take fun _ h => free_of_head h.2 rfl).step fun _ =>
      (pairs_expect rfl).step fun _ => ?_
    exact .pure .nil

theorem pairs_attributeTest : PairsIf all wide P attributeTest :=
  pairs_attributeOperator.step fun _ => pairs_skipGaps.step fun _ => .isAt fun _ => .either
    (fun hstring => pairsIf_tokenLeaf fun _ h => free_of_head (h.2.2 hstring) rfl)
      (fun _ => pairs_identifier false)
    fun _ => pairs_skipGaps.step fun _ => .pure .nil

theorem pairs_attributeFlags : PairsIf all wide P attributeFlags :=
  .isAt fun _ =>
    .ite (fun hat => (pairsIf_take fun _ h => free_of_head (h.2.2 hat) rfl).step fun _ =>
    pairs_skipGaps.step fun _ => .pure .nil) fun _ => .pure .nil

theorem pairs_attributeSelector : PairsIf all wide P attributeSelector := by
  refine .here fun info =>
    .group (taking_expect _) rfl (.inr nofun) (pairs_skipGaps.stepInside fun _ =>
    (pairs_qualifiedName true).stepInside fun name =>
      pairs_skipGaps.stepInside fun _ => .kind? fun _ => ?_)
  have hend : ∀ test : Option (String × Tree), ClosesIf all .rightBracket (fun _ => True) (do
      let flags ← attributeFlags
      expect .rightBracket
      return .attributeSelector info name (test.map Prod.fst)
        (test.map Prod.snd) flags : Parser Tree) :=
    fun _ => pairs_attributeFlags.stepInside fun _ => .last
  split
  next => exact .value (hend none).always
  next => exact .value (hend none).always
  next => exact .value (hend none).always
  next => exact pairs_attributeTest.stepInside fun test => .value (hend (some test))

/-! ## Pseudo-classes and pseudo-elements -/

theorem pairs_nth : PairsIf all wide P nth := by
  refine .here fun _ => .current? fun token? => ?_
  cases token? with
  | none => exact .fail
  | some token =>
    refine .ite (fun hk => .lookup? fun next? => ?_) fun _ =>
      .ite (fun hk => .ite (fun _ => ?_) fun _ => .fail) fun _ => .fail
    · refine (pairsIf_takeMany fun tokens h other hmem => ?_).step fun _ => .pure .nil
      obtain ⟨⟨-, hhead⟩, hnext⟩ := h
      obtain ⟨rest, rfl⟩ := List.head?_eq_some_iff.1 hhead
      split at hmem
      next hfollowed =>
        -- The second token is seen to be an identifier.
        cases rest with
        | nil => simp [← hnext] at hfollowed
        | cons next rest =>
          obtain rfl : some next = next? := hnext
          rcases List.mem_cons.1 hmem with rfl | hmem
          · rw [hk]
            rfl
          · rw [List.mem_singleton.1 hmem, of_decide_eq_true (Bool.and_eq_true_iff.1 hfollowed).1]
            rfl
      next =>
        rw [List.mem_singleton.1 hmem, hk]
        rfl
    · exact (pairsIf_take fun _ h => free_of_head (by rw [h.2, Option.map_some, hk]) rfl).step
        fun _ => .pure .nil

theorem pairsIf_nthPart :
    PairsIf all wide (fun tokens => tokens.head? = some token) (nthPart token) := by
  unfold nthPart
  split
  next => exact pairs_stop
  next hk => exact pairsIf_skip (free_at hk rfl)
  next hk => exact pairsIf_skip (free_at hk rfl)
  next hk => exact pairs_add (pairsIf_tokenLeaf (free_at hk rfl))
  next hk => exact pairs_add (pairsIf_tokenLeaf (free_at hk rfl))
  next => exact pairs_add pairs_nth

theorem pairs_nthSelector : PairsIf all wide P nthSelector :=
  .here fun _ => (pairs_expect rfl).step fun _ => (pairs_readName false).step fun _ =>
    .group (taking_expect _) rfl (.inr nofun)
      ((pairs_many fun _ => pairsIf_nthPart).stepInside fun _ => .last)

theorem pairs_pseudoElement : PairsIf all wide P pseudoElement :=
  .here fun _ => (pairs_expect rfl).step fun _ => (pairs_expect rfl).step fun _ =>
    (pairs_readName false).step fun _ =>
    .pure .nil

theorem pairs_pseudoClass (hinner : NestedPairs all wide inner) :
    PairsIf all wide P (pseudoClass inner) :=
  .here fun _ => (pairs_expect rfl).step fun _ => .here fun _ => pairsIf_named fun _ hname =>
    .isAt fun _ =>
    .ite (fun _ => pairs_function hinner hname) fun _ => .pure .nil

theorem pairs_pseudo (hinner : NestedPairs all wide inner) : PairsIf all wide (fun tokens =>
    tokens.head?.map Token.kind = some .colon) (pseudo inner) := by
  refine .lookup? fun next? => ?_
  cases next? with
  | none => exact (pairsIf_advance fun _ h => free_of_head h.1 rfl).step fun _ => .fail
  | some next =>
    exact .ite (fun _ => pairs_pseudoElement) fun _ => .ite (fun _ => pairs_nthSelector)
      fun _ => pairs_pseudoClass hinner

/-! ## Selectors -/

theorem pairsIf_combinator (hfree : token.kind.isFree all wide = true) :
    PairsIf all wide (fun tokens => tokens.head? = some token) (combinator token) := by
  refine .here fun _ => (pairsIf_advance (free_at rfl hfree)).step fun _ => ?_
  split
  next => exact .pure .nil
  next =>
    refine (pairs_expectWord "deep").stepIf (Q := fun tokens => ∃ word, tokens.head? = some word ∧
      word.kind = .ident ∧ word.spells "deep" = true)
        (fun _ _ _ _ hs => head?_of_expectWord hs) fun _ => ?_
    refine (pairsIf_advance fun tokens h => ?_).step fun _ =>
      (pairs_expect rfl).step fun _ => .pure .nil
    obtain ⟨word, hhead, hident, -⟩ := h
    exact free_at hident rfl tokens hhead
  next => exact .pure .nil

theorem pairs_percentageOrName : PairsIf all wide P percentageOrName := by
  refine .get fun s _ _ => ?_
  dsimp only
  split
  next count hcount =>
    refine .ite (fun h => .here fun _ => ?_) fun _ => pairs_qualifiedName false
    have hnumber : ∀ tokens : List Token, tokens = s.rest → ∀ token ∈ tokens.take count,
        token.kind.isFree all wide = true := fun tokens heq token hmem => by
      rcases numberLength?_kinds (heq ▸ hcount) token hmem with hk | hk | hk <;> rw [hk] <;> rfl
    refine (pairsIf_takeMany hnumber).stepIf
      (Q := fun tokens => tokens.head?.map Token.kind = some .percentSign)
      (fun s₁ _ s₂ hs₁ hs₂ => ?_) fun _ =>
        (pairsIf_advance fun _ h => free_of_head h rfl).step fun _ => .pure .nil
    obtain ⟨-, rfl⟩ := EStateM.Result.ok.inj hs₂
    show (s₁.rest.drop count).head?.map Token.kind = _
    rw [List.head?_drop, hs₁, h]
  next => exact pairs_qualifiedName false

theorem pairsIf_selectorPart (hinner : NestedPairs all wide inner) (nested : Bool)
    (state : SelectorState) :
    PairsIf all wide (fun tokens => tokens.head? = some token)
      (selectorPart inner nested state token) := by
  have hpart : ∀ {read : Parser Tree}, PairsIf all wide
      (fun tokens => tokens.head? = some token) read →
      PairsIf all wide (fun tokens => tokens.head? = some token)
        (do
          return Round.next (state.pending.toList ++ [← read])
            { started := true : SelectorState }) :=
    fun h => h.step fun _ => .pure .nil
  have hnamed : ∀ {kind : TokenKind} {tree : Option Nat → String → Tree}, kind.isFree all
      wide = true → PairsIf all wide (fun tokens => tokens.head? = some token)
        (do let info ← here; expect kind; return tree info (← readName false)) := fun hk =>
    .here fun _ => (pairs_expect hk).step fun _ => (pairs_readName false).step fun _ => .pure .nil
  have hcombinator : ∀ {kind : TokenKind}, token.kind = kind → kind.isFree all wide = true →
      PairsIf all wide (fun tokens => tokens.head? = some token)
        (do
          return (Round.next [] { state with pending := some (← combinator token) } :
            Round SelectorState Tree)) := fun hk hfree =>
    (pairsIf_combinator (hk ▸ hfree)).step fun _ => .pure .nil
  unfold selectorPart
  split
  next => exact .pure .nil
  next => exact .ite (fun _ => .fail) fun _ => .pure .nil
  next => exact .ite (fun _ => .pure .nil) fun _ => .fail
  next hk => exact (pairsIf_advance (free_at hk rfl)).step fun _ => .pure .nil
  next hk =>
    exact .ite (fun _ => hcombinator hk rfl) fun _ =>
      (pairsIf_advance (free_at hk rfl)).step fun _ => .pure .nil
  next hk => exact .ite (fun _ => .fail) fun _ => hcombinator hk rfl
  next hk => exact .ite (fun _ => .fail) fun _ => hcombinator hk rfl
  next hk => exact .ite (fun _ => .fail) fun _ => hcombinator hk rfl
  next hk => exact .ite (fun _ => .fail) fun _ => hcombinator hk rfl
  next => exact hpart (hnamed rfl)
  next => exact hpart pairs_attributeSelector
  next => exact hpart (hnamed rfl)
  next hk => exact hpart ((pairs_pseudo hinner).mono fun _ h => by rw [h, Option.map_some, hk])
  next => exact hpart (pairs_qualifiedName false)
  next => exact hpart (pairs_qualifiedName false)
  next => exact hpart (pairs_qualifiedName false)
  next => exact hpart (pairs_qualifiedName false)
  next => exact hpart pairs_percentageOrName
  next => exact hpart pairs_percentageOrName
  next => exact .fail

theorem pairs_simpleSelector (hinner : NestedPairs all wide inner) (nested : Bool) :
    PairsIf all wide P (simpleSelector inner nested) :=
  .here fun _ => (pairs_loop fun state _ => pairsIf_selectorPart hinner nested state).step fun _ =>
    .ite (fun _ => .fail) fun _ => .pure .nil

theorem pairs_noteDiscarded : PairsIf all wide P noteDiscarded := by
  rintro s _ _ hK - ⟨⟩
  exact ⟨hK, [], .done, .nil⟩

theorem pairs_selector (hinner : NestedPairs all wide inner) :
    PairsIf all wide P (selector inner) :=
  .here fun _ => (pairs_separated (pairs_simpleSelector hinner false) (.pure .nil)).step fun _ =>
    .ite (fun _ => pairs_noteDiscarded.step fun _ => .pure .nil) fun _ => .pure .nil

theorem nestedPairs_upTo (depth : Nat) : NestedPairs all wide (.upTo depth) := by
  induction depth with
  | zero => exact ⟨fun _ => .fail, fun _ => .fail, .fail, .fail⟩
  | succ depth ih =>
    exact ⟨fun _ => pairs_component ih,
      fun _ => pairsIf_brackets ih fun _ h => h, pairs_value ih true,
      pairs_simpleSelector ih true⟩

/-! ## Declarations -/

theorem pairs_property : PairsIf all wide P property := by
  refine .here fun _ => (pairs_takeWhile fun token h => ?_).step fun _ =>
    (pairs_readName true).step fun _ =>
    pairs_skipGaps.step fun _ => .pure .nil
  rcases Bool.or_eq_true_iff.1 h with h | hk
  · rcases Bool.or_eq_true_iff.1 h with hk | hk <;> rw [of_decide_eq_true hk] <;> rfl
  · rw [of_decide_eq_true hk]
    rfl

theorem pairs_declaration (hinner : NestedPairs all wide inner) :
    PairsIf all wide P (declaration inner) := by
  refine .here fun _ => pairs_property.step fun _ => (pairs_expect rfl).step fun _ =>
    .get fun s hK _ =>
    .either (fun hfiltered => ?_) (fun _ => pairs_value hinner false) fun _ => .pure .nil
  cases all with
  | true => simp [nextProgid?_of_known hK] at hfiltered
  | false => exact pairs_filterValue

theorem pairs_declarations (hinner : NestedPairs all true inner) :
    PairsIf all true P (declarations inner) := by
  refine pairs_many fun token => ?_
  unfold declarationPart
  split
  next => exact pairs_stop
  next hk => exact pairsIf_skip (free_at hk rfl)
  next hk => exact pairsIf_skip (free_at hk rfl)
  next hk => exact pairsIf_skip (free_at hk rfl)
  next => exact pairs_add (pairs_declaration hinner)

theorem pairs_block (hinner : NestedPairs all true inner) : PairsIf all true P (block inner) :=
  .here fun _ => (pairs_declarations hinner).step fun _ => .pure .nil

theorem pairs_bracedBlock (hinner : NestedPairs all true inner) :
    PairsIf all true P (bracedBlock inner) :=
  .here fun _ =>
    .group (taking_expect _) rfl (.inl rfl) ((pairs_declarations hinner).stepInside fun _ => .last)

/-! ## Rules -/

theorem pairs_ruleset (hinner : NestedPairs all true inner) : PairsIf all true P (ruleset inner) :=
  .here fun _ => (pairs_selector hinner).step fun _ =>
    (pairs_bracedBlock hinner).step fun _ => .pure .nil

theorem pairsIf_expressionPart (hinner : NestedPairs all wide inner) (started : Bool) :
    PairsIf all wide (fun tokens => tokens.head? = some token)
      (expressionPart inner started token) := by
  unfold expressionPart
  split
  next => exact .pure .nil
  next => exact .pure .nil
  next hk =>
    refine .ite (fun _ => ?_) fun _ => (pairsIf_advance (free_at hk rfl)).step fun _ => .pure .nil
    exact pairs_part (pairsIf_space (free_at hk rfl))
  next hk => exact (pairsIf_advance (free_at hk rfl)).step fun _ => .pure .nil
  next hk => exact pairs_part (pairsIf_tokenLeaf (free_at hk rfl))
  next hk => exact pairs_part ((pairs_pseudo hinner).mono fun _ h => by rw [h, Option.map_some, hk])
  next hk => exact pairs_part (pairsIf_brackets hinner (opens_at hk (.inl rfl)))
  next => exact pairs_part (pairs_component hinner)

theorem pairs_atruleExpression (hinner : NestedPairs all wide inner) :
    PairsIf all wide P (atruleExpression inner) :=
  .here fun _ =>
    (pairs_loop fun started _ => pairsIf_expressionPart hinner started).step fun _ => .pure .nil

theorem pairs_atruleBody (hinner : NestedPairs all true inner) {sheet : Parser Tree}
    (hsheet : Pairs all true sheet) :
    PairsIf all true P (atruleBody inner sheet) := by
  refine .kind? fun _ => ?_
  split
  next => exact .pure .nil
  next => exact (pairsIf_advance fun _ h => free_of_head h.2 rfl).step fun _ => .pure .nil
  next =>
    refine .group (taking_opening fun _ h => h.2) rfl (.inl rfl)
      (.get fun _ _ _ => .ite (fun _ => ?_) fun _ => ?_)
    · exact (pairs_block hinner).stepInside fun _ => .last
    · exact hsheet.always.stepInside fun _ => .last
  next => exact .fail

theorem pairs_atrule (hinner : NestedPairs all true inner) {sheet : Parser Tree}
    (hsheet : Pairs all true sheet) :
    PairsIf all true P (atrule inner sheet) :=
  (pairs_expect rfl).step fun _ => .here fun _ => (pairs_readName false).step fun _ =>
    (pairs_atruleExpression hinner).step fun _ =>
      (pairs_atruleBody hinner hsheet).step fun _ => .pure .nil

theorem pairsIf_rulePart (hinner : NestedPairs all true inner) {sheet : Parser Tree}
    (hsheet : Pairs all true sheet) (nested : Bool) :
    PairsIf all true (fun tokens => tokens.head? = some token)
      (rulePart inner sheet nested token) := by
  unfold rulePart
  split
  next hk => exact pairsIf_skip (free_at hk rfl)
  next hk =>
    refine .ite (fun _ => pairsIf_skip (free_at hk rfl)) fun _ => pairs_add (.here fun _ => ?_)
    exact (pairsIf_advance (free_at hk rfl)).step fun _ => .pure .nil
  next hk => exact pairs_add (pairsIf_tokenLeaf (free_at hk rfl))
  next => exact pairs_add (pairs_atrule hinner hsheet)
  next => exact .ite (fun _ => pairs_stop) fun _ => .fail
  next => exact pairs_add (pairs_ruleset hinner)

theorem pairs_styleSheet (hinner : NestedPairs all true inner) {sheet : Parser Tree}
    (hsheet : Pairs all true sheet) (nested : Bool) :
    PairsIf all true P (styleSheet inner sheet nested) :=
  .here fun _ =>
    (pairs_many fun _ => pairsIf_rulePart hinner hsheet nested).step fun _ => .pure .nil

theorem pairs_nestedSheet (hinner : NestedPairs all true inner) (depth : Nat) :
    Pairs all true (nestedSheet inner depth) := by
  induction depth with
  | zero => exact .fail
  | succ depth ih => exact pairs_styleSheet hinner ih true

/-- In every context, a production takes tokens with their brackets in pairs. -/
theorem pairs_production (context : Context) (size : Nat) :
    Pairs all true (context.production size) := by
  have hinner : NestedPairs all true (.upTo (size + 1)) := nestedPairs_upTo (size + 1)
  have hsheet := pairs_nestedSheet hinner (size + 1)
  cases context with
  | stylesheet => exact pairs_styleSheet hinner hsheet false
  | atrule => exact pairs_atrule hinner hsheet
  | atruleExpression => exact pairs_atruleExpression hinner
  | ruleset => exact pairs_ruleset hinner
  | selector => exact pairs_selector hinner
  | simpleSelector => exact pairs_simpleSelector hinner false
  | block => exact pairs_block hinner
  | declaration => exact pairs_declaration hinner
  | property => exact pairs_property
  | value => exact pairs_value hinner false

end Grammar
end StyleTree
