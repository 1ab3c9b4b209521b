import StyleTree.Proofs.Grammar.MirrorRule
import StyleTree.Proofs.Grammar.Progress

/-! Reading comes to an end. Every production settles on fewer than `n + 1` tokens if the readers
one bracket deeper settle on fewer than `n` (`NestedSettles`), for a bracket is a token; so no text
is too deep for the readers that are ready for as many brackets as it has tokens
(`settles_production`). -/

namespace StyleTree

open StyleTree.Parser StyleTree.Grammar

namespace Grammar

variable {n : Nat} {P : List Token → Prop} {inner : Nested} {scope : Scope} {info : Option Nat}
    {name : String}

/-- A current token that can be seen is there. -/
theorem ne_nil_of_head {tokens : List Token} {kind : TokenKind}
    (h : tokens.head?.map Token.kind = some kind) :
    tokens ≠ [] := by
  rintro rfl
  exact nomatch h

/-! ## Names and other small parts -/

theorem settles_readName (custom : Bool) : SettlesIf n P 1 (readName custom) := by
  refine (settles_takeIf _).step fun _ =>
    .choose (fun _ => settles_takeIf _) (fun _ => .pure) fun _ => .kind? fun _ => ?_
  split
  next =>
    exact (settlesIf_take fun _ h => ne_nil_of_head h.2).first fun _ =>
      (settles_takeWhile _).step fun _ => .pure
  next =>
    exact (settlesIf_take fun _ h => ne_nil_of_head h.2).first fun _ =>
      (settles_takeWhile _).step fun _ => .pure
  next => exact .fail nofun

theorem settles_identifier (custom : Bool) : SettlesIf n P 1 (identifier custom) :=
  .here fun _ => (settles_readName custom).first fun _ => .pure

theorem settles_nameEnd (colon : Bool) : SettlesIf n P 0 (nameEnd info name colon) :=
  .isAt fun _ =>
    .ite (fun _ => settles_take.step fun _ => (settles_readName false).any.step fun _ => .pure)
      fun _ => .pure

theorem settles_nameAfterBar (colon : Bool) (base bar : String) :
    SettlesIf n P 0 (nameAfterBar info colon base bar) := by
  refine .kind? fun _ => ?_
  split
  next => exact (settles_readName false).any.step fun _ => settles_nameEnd colon
  next => exact (settles_readName false).any.step fun _ => settles_nameEnd colon
  next => exact (settles_readName false).any.step fun _ => settles_nameEnd colon
  next => exact settles_take.step fun _ => settles_nameEnd false
  next => exact settles_nameEnd colon

theorem settles_nameFrom (colon : Bool) (base : String) :
    SettlesIf n P 0 (nameFrom info colon base) :=
  .isAt fun _ => .lookupKind fun _ =>
    .ite (fun _ => settles_take.step (settles_nameAfterBar colon base))
      fun _ => settles_nameEnd colon

/-- A bar that belongs to a name is read. -/
theorem settlesIf_nameFrom
    (hP : ∀ tokens, P tokens → tokens.head?.map Token.kind = some .verticalLine ∧
      tokens[1]?.map Token.kind ≠ some .equals)
    (colon : Bool) (base : String) :
    SettlesIf n P 1 (nameFrom info colon base) := by
  refine .isAt fun bar => .lookupKind fun equals => .ite (fun _ => ?_) fun hnot =>
    .absurd fun tokens h => hnot ?_
  · exact (settlesIf_take fun tokens h => ne_nil_of_head (hP tokens h.1.1).1).first
      (settles_nameAfterBar colon base)
  · obtain ⟨⟨hat, hbar⟩, hequals⟩ := h
    obtain ⟨hhead, hnext⟩ := hP tokens hat
    cases equals with
    | true => exact absurd (hequals.2 rfl) hnext
    | false => rw [hbar.1 hhead]; rfl

theorem settles_qualifiedName (colon : Bool) : SettlesIf n P 1 (qualifiedName colon) := by
  refine .current? fun first? => ?_
  cases first? with
  | none => exact .fail nofun
  | some first =>
    refine .here fun info => .lookupKind fun equals => .ite (fun _ => ?_) fun _ =>
      .ite (fun h => ?_) fun _ => ?_
    · exact (settlesIf_take fun _ h hnil => by simp [hnil] at h).first fun base =>
        settles_nameFrom (colon && first.kind ≠ .asterisk) base
    · refine settlesIf_nameFrom (fun tokens hat => ?_) (colon && first.kind ≠ .asterisk) ""
      obtain ⟨⟨-, hhead⟩, hequals⟩ := hat
      simp only [Bool.and_eq_true, decide_eq_true_eq, Bool.not_eq_true'] at h
      exact ⟨by rw [hhead, Option.map_some, h.1], fun hnext => by simp [hequals.1 hnext] at h⟩
    · exact (settles_readName false).first fun base =>
        settles_nameFrom (colon && first.kind ≠ .asterisk) base

theorem settles_hash : SettlesIf n P 1 hash := by
  refine .here fun _ => (settles_expect _).first fun _ => .kind? fun _ => ?_
  split
  next => exact settles_take.step fun _ => (settles_takeIf _).step fun _ => .pure
  next => exact settles_take.step fun _ => .pure
  next => exact .fail nofun

theorem settlesIf_tokenLeaf {kind : LeafKind} (hP : ∀ tokens, P tokens → tokens ≠ []) :
    SettlesIf n P 1 (tokenLeaf kind) :=
  .here fun _ => (settlesIf_take hP).first fun _ => .pure

theorem settles_tokenLeaf {kind : LeafKind} : SettlesIf n P 0 (tokenLeaf kind) :=
  .here fun _ => settles_take.step fun _ => .pure

theorem settlesIf_space (hP : ∀ tokens, P tokens → tokens ≠ []) : SettlesIf n P 1 space :=
  (settlesIf_advance hP).first fun _ => .pure

theorem settles_hexDigits : SettlesIf n P 0 hexDigits :=
  (settles_takeWhile _).step fun _ => .ite (fun _ => .fail nofun) fun _ => .pure

theorem settlesIf_unicodeRange (hP : ∀ tokens, P tokens → tokens ≠ []) :
    SettlesIf n P 1 unicodeRange :=
  .here fun _ => (settlesIf_takeMany Nat.two_pos hP).first fun _ => settles_hexDigits.step fun _ =>
    .get fun _ _ =>
    (settles_takeMany _).step fun _ => .isAt fun _ => .ite
      (fun _ => settles_take.step fun _ => settles_hexDigits.step fun _ => .pure) fun _ => .pure

theorem settles_leaveEscape (escape : Token) :
    SettlesIf n (fun tokens => tokens ≠ []) 0 (leaveEscape escape) where
  unstuck _ _ hs := nomatch hs
  reads := by
    rintro s _ _ - hs ⟨⟩
    obtain ⟨token, rest, hrest⟩ := List.exists_cons_of_ne_nil hs
    simp [hrest]

theorem settlesIf_readUnit {token : Token} (hP : ∀ tokens, P tokens → tokens ≠ []) :
    SettlesIf n P 0 (readUnit token) :=
  .ite (fun _ => settles_take) fun _ => ((settles_leaveEscape _).mono hP).step fun _ => .pure

theorem settles_measured (number : String) : SettlesIf n P 0 (measured info number) := by
  refine .current? fun token? => ?_
  cases token? with
  | none => exact .pure
  | some token =>
    exact .ite (fun _ => settles_advance.step fun _ => .pure) fun _ => .ite
      (fun _ => (settlesIf_readUnit fun _ h hnil => by simp [hnil] at h).step fun _ => .pure)
        fun _ => .pure

/-- The tokens of a number are read. -/
theorem settlesIf_number {count : Nat}
    (hP : ∀ tokens, P tokens → numberLength? tokens = some count) :
    SettlesIf n P 1 (takeMany count) where
  unstuck _ _ hs := nomatch hs
  reads := by
    rintro s _ _ - hs ⟨⟩
    have hpos := numberLength?_pos (hP _ hs)
    have hle := numberLength?_le (hP _ hs)
    show (s.rest.drop count).length + 1 ≤ _
    rw [List.length_drop]
    omega

theorem settlesIf_readNumber? {β : Type} {f : Option String → Parser β}
    (hnone : SettlesIf n P 1 (f none)) (hsome : ∀ number, Settles n 0 (f (some number))) :
    SettlesIf n P 1 (readNumber? >>= f) := by
  rw [readNumber?, bind_assoc]
  refine .get fun s hs => ?_
  cases hcount : numberLength? s.rest with
  | none => exact .value (hnone.mono fun _ h => h ▸ hs)
  | some count =>
    dsimp only
    rw [bind_assoc]
    exact (settlesIf_number fun _ h => h ▸ hcount).first fun number => .value (hsome number)

/-! ## Functions -/

/-- What the readers one bracket deeper have to do on fewer than `n` tokens. A bracketed sequence is
read where a bracket opens. -/
structure NestedSettles (n : Nat) (inner : Nested) : Prop where
  component : ∀ scope, Settles n 1 (inner.component scope)
  brackets : ∀ scope, SettlesIf n (fun tokens => tokens ≠ []) 1 (inner.brackets scope)
  fallback : Settles n 0 inner.fallback
  negated : Settles n 0 inner.negated

theorem settles_urlFunction : SettlesIf n P 1 (urlFunction info) := by
  have hend : ∀ link : Tree, Settles n 0
      (do skipGaps; expect .rightParen; return .wrapper info .url link : Parser Tree) := fun link =>
    settles_skipGaps.step fun _ => (settles_expect _).any.step fun _ => .pure
  refine (settles_expect _).first fun _ =>
    settles_skipGaps.step fun _ => .isAt fun _ => .ite (fun _ => ?_) fun _ => ?_
  · exact settles_tokenLeaf.step hend
  · exact .here fun _ => (settles_takeWhile _).step fun _ => .value (hend _)

theorem settles_negation (hinner : NestedSettles n inner) :
    SettlesIf (n + 1) P 1 (negation inner info) := by
  refine (settles_expect _).enter fun _ => (settles_separated ?_ .pure).step fun _ =>
    (settles_expect _).any.step fun _ => .pure
  refine .kind? fun _ => ?_
  split
  next => exact .fail nofun
  next => exact .fail nofun
  next => exact hinner.negated.always

theorem settles_scriptFunction : SettlesIf n P 1 (scriptFunction info name) :=
  (settles_expect _).first fun _ => .get fun _ _ => (settles_takeMany _).step fun _ =>
    (settles_expect _).any.step fun _ => .pure

theorem settles_variableFunction (hinner : NestedSettles n inner) :
    SettlesIf (n + 1) P 1 (variableFunction inner info name) := by
  have hend : ∀ (first : Tree) (later : List Tree), Settles n 0
      (do
        expect .rightParen
        return .sequence info (.function name) (argument [first] :: later) : Parser Tree) :=
    fun _ _ => (settles_expect _).any.step fun _ => .pure
  refine (settles_expect _).enter fun _ =>
    settles_skipGaps.step fun _ => (settles_identifier true).any.step fun first =>
    settles_skipGaps.step fun _ => .isAt fun _ => .ite (fun _ => ?_) fun _ =>
      .value (hend first []).always
  exact settles_advance.step fun _ => settles_skipGaps.step fun _ => hinner.fallback.step fun _ =>
    settles_skipGaps.step fun _ => .value (hend first _)

/-! ## Arguments and brackets -/

variable {token : Token}

theorem ne_nil_of_head? {tokens : List Token} (h : tokens.head? = some token) : tokens ≠ [] := by
  rintro rfl
  exact nomatch h

theorem roundSettles_stop : RoundSettles n tokensLeft () token stop :=
  .stop

theorem roundSettles_skip : RoundSettles n tokensLeft () token skip :=
  .advance

theorem roundSettles_add {read : Parser Tree}
    (h : SettlesIf n (fun tokens => tokens.head? = some token) 1 read) :
    RoundSettles n tokensLeft () token (add read) :=
  .next h

theorem roundSettles_operator : RoundSettles n tokensLeft () token (add operator) :=
  roundSettles_add (settlesIf_tokenLeaf fun _ => ne_nil_of_head?)

theorem roundSettles_space : RoundSettles n tokensLeft () token (add space) :=
  roundSettles_add (settlesIf_space fun _ => ne_nil_of_head?)

theorem roundSettles_argumentPart (hinner : NestedSettles n inner) :
    RoundSettles n tokensLeft () token (argumentPart inner scope token) := by
  unfold argumentPart
  split
  next => exact roundSettles_stop
  next => exact roundSettles_stop
  next => exact roundSettles_space
  next => exact roundSettles_skip
  next => exact roundSettles_add settles_hash
  next => exact roundSettles_add ((hinner.brackets scope).mono fun _ => ne_nil_of_head?)
  next => exact roundSettles_add ((hinner.brackets scope).mono fun _ => ne_nil_of_head?)
  next => exact roundSettles_operator
  next => exact roundSettles_operator
  next => exact roundSettles_operator
  next => exact roundSettles_operator
  next => exact roundSettles_add (hinner.component scope).always

theorem settles_argumentOf (hinner : NestedSettles n inner) :
    Settles n 0 (argumentOf inner scope) := by
  refine (settles_many fun _ => roundSettles_argumentPart hinner).step fun parts => ?_
  cases parts with
  | nil => exact .fail nofun
  | cons => exact .pure

theorem settles_arguments (hinner : NestedSettles n inner) :
    SettlesIf (n + 1) P 1 (arguments inner scope) := by
  have hend : ∀ nodes : List Tree, Settles n 0
      (do expect .rightParen; return nodes : Parser (List Tree)) :=
    fun _ => (settles_expect _).any.step fun _ => .pure
  refine (settles_expect _).enter fun _ => settles_skipGaps.step fun _ => .isAt fun _ =>
    .ite (fun _ => .value (hend []).always) fun _ => ?_
  exact (settles_separated (settles_argumentOf hinner) settles_skipGaps).step fun _ =>
    .value (hend _)

theorem settles_function (hinner : NestedSettles n inner) :
    SettlesIf (n + 1) P 1 (function inner scope info name) := by
  rw [function]
  split
  next => exact settles_urlFunction
  next => exact settles_negation hinner
  next => exact settles_scriptFunction
  next => exact settles_variableFunction hinner
  next =>
    refine (settles_arguments hinner).first fun _ => ?_
    cases scope with
    | selector | atruleExpression | value => exact .pure

theorem roundSettles_bracketPart (hinner : NestedSettles n inner) (closing : TokenKind) :
    RoundSettles n tokensLeft () token (bracketPart inner scope closing token) := by
  refine .ite (fun _ => roundSettles_stop) fun _ => ?_
  split
  next => exact roundSettles_space
  next => exact roundSettles_skip
  next => exact roundSettles_add settles_hash
  next => exact roundSettles_add ((hinner.brackets scope).mono fun _ => ne_nil_of_head?)
  next => exact roundSettles_add ((hinner.brackets scope).mono fun _ => ne_nil_of_head?)
  next => exact roundSettles_operator
  next => exact roundSettles_operator
  next => exact roundSettles_operator
  next => exact roundSettles_operator
  next => exact roundSettles_add (hinner.component scope).always

/-! ## Components -/

theorem settles_named (hinner : NestedSettles n inner) :
    SettlesIf (n + 1) P 1 (named inner scope) :=
  .here fun _ => (settles_readName false).first fun _ => .isAt fun _ =>
    .ite (fun _ => (settles_function hinner).any) fun _ => .pure

theorem settles_component (hinner : NestedSettles n inner) :
    SettlesIf (n + 1) P 1 (component inner scope) := by
  have hoperator : ∀ kind, SettlesIf (n + 1) (fun tokens => tokens.head?.map Token.kind = some kind)
      1 operator :=
    fun _ => settlesIf_tokenLeaf fun _ => ne_nil_of_head
  have hsigned : SettlesIf (n + 1) P 1 (signedComponent inner scope) := by
    refine .here fun _ =>
      settlesIf_readNumber? (.lookupKind fun _ => .lookupKind fun _ => .kind? fun _ => ?_)
      settles_measured
    split
    next => exact .ite (fun _ => settles_named hinner) fun _ => (hoperator _).mono fun _ h => h.2
    next => exact (hoperator _).mono fun _ h => h.2
    next => exact .fail (by decide)
  rw [component_eq]
  refine .kind? fun _ => ?_
  split
  next => exact settlesIf_tokenLeaf fun _ h => ne_nil_of_head h.2
  next => exact settles_named hinner
  next => exact settles_named hinner
  next => exact hsigned.mono fun _ h => h.1
  next => exact hsigned.mono fun _ h => h.1
  next => exact hsigned.mono fun _ h => h.1
  next => exact hsigned.mono fun _ h => h.1
  next => exact .fail (by decide)

theorem settlesIf_brackets (hinner : NestedSettles n inner)
    (hP : ∀ tokens, P tokens → tokens ≠ []) :
    SettlesIf (n + 1) P 1 (brackets inner scope) :=
  .here fun _ => .isAt fun _ => (settlesIf_advance fun _ h => hP _ h.1).enter fun _ =>
    settles_skipGaps.step fun _ =>
    (settles_many fun _ => roundSettles_bracketPart hinner _).step fun _ =>
      (settles_expect _).any.step fun _ => .pure

/-! ## Values -/

theorem settles_importantFlag : SettlesIf n P 1 importantFlag :=
  (settles_expect _).first fun _ => settles_skipGaps.step fun _ =>
    (settles_expectWord _).step fun _ =>
    (settles_readName false).any.step fun _ => .pure

theorem roundSettles_valuePart (hinner : NestedSettles n inner) (nested important : Bool) :
    RoundSettles (n + 1) tokensLeft important token (valuePart inner nested important token) := by
  unfold valuePart
  split
  next => exact .stop
  next => exact .stop
  next => exact .ite (fun _ => .stop) fun _ => .fail (by simp)
  next => exact .next (settlesIf_space fun _ => ne_nil_of_head?)
  next => exact .advance
  next => exact .next settles_hash
  next => exact .next (settlesIf_tokenLeaf fun _ => ne_nil_of_head?)
  next => exact .next (settlesIf_tokenLeaf fun _ => ne_nil_of_head?)
  next => exact .next (settlesIf_brackets hinner fun _ => ne_nil_of_head?)
  next => exact .next (settlesIf_brackets hinner fun _ => ne_nil_of_head?)
  next => exact .next settles_importantFlag
  next =>
    refine .of_reads (.lookupKind fun _ => .ite (fun _ => ?_) fun _ =>
      (settles_component hinner).first fun _ => .pure)
    exact (settlesIf_unicodeRange fun _ h => ne_nil_of_head? h.1).first fun _ => .pure
  next => exact .next (settles_component hinner)

theorem settles_value (hinner : NestedSettles n inner) (nested : Bool) :
    SettlesIf (n + 1) P 0 (value inner nested) :=
  .here fun _ => settles_skipGaps.step fun _ =>
    (settles_loop (fun _ _ => Nat.le.refl)
      fun important _ => roundSettles_valuePart hinner nested important).step
      fun _ => .pure

theorem progidLength?_bounds {tokens : List Token} {count : Nat}
    (h : progidLength? tokens = some count) :
    0 < count ∧ count ≤ tokens.length := by
  simp only [progidLength?, Option.ite_none_left_eq_some, Option.ite_none_right_eq_some,
    Option.some.injEq] at h
  omega

/-- A block that follows is read. -/
theorem settlesIf_progid {count : Nat} (hP : ∀ tokens, P tokens → nextProgid? tokens = some count) :
    SettlesIf n P 1 (progid count) where
  unstuck _ _ hs := nomatch hs
  reads := by
    rintro s _ _ - hs ⟨⟩
    obtain ⟨hpos, hle⟩ := progidLength?_bounds (hP _ hs)
    show (((s.rest.dropWhile isGap).drop count).dropWhile isGap).length + 1 ≤ _
    have hskip := (List.dropWhile_suffix isGap (l := (s.rest.dropWhile isGap).drop count)).length_le
    have hgap := (List.dropWhile_suffix isGap (l := s.rest)).length_le
    rw [drop_gapLength] at hle
    rw [List.length_drop] at hskip
    omega

theorem roundSettles_progidPart : RoundSettles n tokensLeft () token (progidPart token) := by
  refine .get fun s => ?_
  cases hcount : nextProgid? s.rest with
  | none => exact .inl rfl
  | some count => exact .inr ((settlesIf_progid fun _ h => h ▸ hcount).first fun _ => .pure)

theorem settles_filterValue : SettlesIf n P 0 filterValue := by
  rw [filterValue_eq]
  exact .here fun _ => (settles_many fun _ => roundSettles_progidPart).step fun _ =>
    settles_skipGaps.step fun _ => .step
      (.isAt fun _ => .ite (fun _ => settles_importantFlag.any.step fun _ => .pure) fun _ => .pure)
      fun _ => .pure

/-! ## Attributes -/

theorem settles_attributeOperator : SettlesIf n P 0 attributeOperator := by
  refine .kind? fun _ => ?_
  split
  case h_1 => exact settles_take
  case h_7 => exact .fail nofun
  all_goals exact settles_take.step fun _ => (settles_expect _).any.step fun _ => .pure

theorem settles_attributeTest : SettlesIf n P 0 attributeTest :=
  settles_attributeOperator.step fun _ => settles_skipGaps.step fun _ => .isAt fun _ => .choose
    (fun _ => settles_tokenLeaf) (fun _ => (settles_identifier false).any) fun _ =>
      settles_skipGaps.step fun _ => .pure

theorem settles_attributeFlags : SettlesIf n P 0 attributeFlags :=
  .isAt fun _ =>
    .ite (fun _ => settles_take.step fun _ => settles_skipGaps.step fun _ => .pure) fun _ => .pure

theorem settles_attributeSelector : SettlesIf n P 1 attributeSelector := by
  refine .here fun info => (settles_expect _).first fun _ => settles_skipGaps.step fun _ =>
    (settles_qualifiedName true).any.step fun name =>
      settles_skipGaps.step fun _ => .kind? fun _ => ?_
  have hend : ∀ test : Option (String × Tree), Settles n 0 (do
      let flags ← attributeFlags
      expect .rightBracket
      return .attributeSelector info name (test.map Prod.fst)
        (test.map Prod.snd) flags : Parser Tree) :=
    fun _ => settles_attributeFlags.step fun _ => (settles_expect _).any.step fun _ => .pure
  split
  next => exact .value (hend none).always
  next => exact .value (hend none).always
  next => exact .value (hend none).always
  next => exact settles_attributeTest.step fun test => .value (hend (some test))

/-! ## Pseudo-classes and pseudo-elements -/

theorem settlesIf_nth (hP : ∀ tokens, P tokens → tokens ≠ []) : SettlesIf n P 1 nth := by
  refine .here fun _ => .current? fun token? => ?_
  cases token? with
  | none => exact .fail nofun
  | some token =>
    refine .ite (fun _ => .lookup? fun _ => ?_) fun _ =>
      .ite (fun _ => .ite (fun _ => ?_) fun _ => .fail nofun) fun _ => .fail nofun
    · exact (settlesIf_takeMany (by split <;> decide) fun _ h => hP _ h.1).first fun _ => .pure
    · exact (settlesIf_take fun _ h => hP _ h.1).first fun _ => .pure

theorem roundSettles_nthPart : RoundSettles n tokensLeft () token (nthPart token) := by
  unfold nthPart
  split
  next => exact roundSettles_stop
  next => exact roundSettles_skip
  next => exact roundSettles_skip
  next => exact roundSettles_operator
  next => exact roundSettles_operator
  next => exact roundSettles_add (settlesIf_nth fun _ => ne_nil_of_head?)

theorem settles_nthSelector : SettlesIf n P 1 nthSelector :=
  .here fun _ => (settles_expect _).first fun _ => (settles_readName false).any.step fun _ =>
    (settles_expect _).any.step fun _ => (settles_many fun _ => roundSettles_nthPart).step fun _ =>
      (settles_expect _).any.step fun _ => .pure

theorem settles_pseudoElement : SettlesIf n P 1 pseudoElement :=
  .here fun _ => (settles_expect _).first fun _ => (settles_expect _).any.step fun _ =>
    (settles_readName false).any.step fun _ => .pure

theorem settles_pseudoClass (hinner : NestedSettles n inner) :
    SettlesIf (n + 1) P 1 (pseudoClass inner) :=
  .here fun _ => (settles_expect _).first fun _ => .here fun _ =>
    (settles_readName false).any.step fun _ =>
    .isAt fun _ => .ite (fun _ => (settles_function hinner).any) fun _ => .pure

theorem settles_pseudo (hinner : NestedSettles n inner) : SettlesIf (n + 1) P 1 (pseudo inner) := by
  refine .lookup? fun next? => ?_
  cases next? with
  | none => exact settles_advance.step fun _ => .fail nofun
  | some next =>
    exact .ite (fun _ => settles_pseudoElement) fun _ => .ite (fun _ => settles_nthSelector)
      fun _ => settles_pseudoClass hinner

/-! ## Selectors -/

theorem settlesIf_combinator (hP : ∀ tokens, P tokens → tokens ≠ []) :
    SettlesIf n P 1 (combinator token) := by
  refine .here fun _ => (settlesIf_advance hP).first fun _ => ?_
  split
  next => exact .pure
  next => exact (settles_expectWord _).step fun _ => settles_advance.step fun _ =>
    (settles_expect _).any.step fun _ => .pure
  next => exact .pure

theorem settles_percentageOrName : SettlesIf n P 1 percentageOrName := by
  refine .get fun s _ => ?_
  dsimp only
  split
  next count hcount =>
    refine .ite (fun _ => .here fun _ => ?_) fun _ => settles_qualifiedName false
    exact (settlesIf_number fun _ h => h ▸ hcount).first fun _ =>
      settles_advance.step fun _ => .pure
  next => exact settles_qualifiedName false

theorem roundSettles_selectorPart (hinner : NestedSettles n inner) (nested : Bool)
    (state : SelectorState) :
    RoundSettles (n + 1) tokensLeft state token (selectorPart inner nested state token) := by
  unfold selectorPart
  split
  next => exact .stop
  next => exact .ite (fun _ => .fail nofun) fun _ => .stop
  next => exact .ite (fun _ => .stop) fun _ => .fail nofun
  next => exact .advance
  next =>
    exact .ite (fun _ => .next (settlesIf_combinator fun _ => ne_nil_of_head?)) fun _ => .advance
  next =>
    exact .ite (fun _ => .fail nofun) fun _ => .next (settlesIf_combinator fun _ => ne_nil_of_head?)
  next =>
    exact .ite (fun _ => .fail nofun) fun _ => .next (settlesIf_combinator fun _ => ne_nil_of_head?)
  next =>
    exact .ite (fun _ => .fail nofun) fun _ => .next (settlesIf_combinator fun _ => ne_nil_of_head?)
  next =>
    exact .ite (fun _ => .fail nofun) fun _ => .next (settlesIf_combinator fun _ => ne_nil_of_head?)
  next =>
    exact .next (.here fun _ => (settles_expect _).first fun _ =>
      (settles_readName false).any.step fun _ => .pure)
  next => exact .next settles_attributeSelector
  next =>
    exact .next (.here fun _ => (settles_expect _).first fun _ =>
      (settles_readName false).any.step fun _ => .pure)
  next => exact .next (settles_pseudo hinner)
  next => exact .next (settles_qualifiedName false)
  next => exact .next (settles_qualifiedName false)
  next => exact .next (settles_qualifiedName false)
  next => exact .next (settles_qualifiedName false)
  next => exact .next settles_percentageOrName
  next => exact .next settles_percentageOrName
  next => exact .fail nofun

theorem settles_simpleSelector (hinner : NestedSettles n inner) (nested : Bool) :
    SettlesIf (n + 1) P 0 (simpleSelector inner nested) :=
  .here fun _ =>
    (settles_loop (fun _ _ => Nat.le.refl)
      fun state _ => roundSettles_selectorPart hinner nested state).step
    fun _ => .ite (fun _ => .fail nofun) fun _ => .pure

theorem settles_noteDiscarded : SettlesIf n P 0 noteDiscarded where
  unstuck _ _ hs := nomatch hs
  reads := by
    rintro s _ _ - - ⟨⟩
    exact Nat.le.refl

theorem settles_selector (hinner : NestedSettles n inner) :
    SettlesIf (n + 1) P 0 (selector inner) :=
  .here fun _ => (settles_separated (settles_simpleSelector hinner false) .pure).step fun _ =>
    .ite (fun _ => settles_noteDiscarded.step fun _ => .pure) fun _ => .pure

/-- The readers of what stands inside at most `depth` brackets settle on fewer tokens than that. -/
theorem nestedSettles_upTo (depth : Nat) : NestedSettles depth (.upTo depth) := by
  induction depth with
  | zero =>
    have hnone : ∀ {α : Type} {P : List Token → Prop} {k : Nat} {x : Parser α}, SettlesIf 0 P k x :=
      fun {_ _ _ _} =>
      ⟨fun h => absurd h (Nat.not_lt_zero _), fun h => absurd h (Nat.not_lt_zero _)⟩
    exact ⟨fun _ => hnone, fun _ => hnone, hnone, hnone⟩
  | succ depth ih =>
    exact ⟨fun _ => settles_component ih,
      fun _ => settlesIf_brackets ih fun _ h => h, settles_value ih true,
      settles_simpleSelector ih true⟩

/-! ## Declarations -/

theorem settles_property : SettlesIf n P 1 property :=
  .here fun _ => (settles_takeWhile _).step fun _ => (settles_readName true).first fun _ =>
    settles_skipGaps.step fun _ => .pure

theorem settles_declaration (hinner : NestedSettles n inner) :
    SettlesIf (n + 1) P 1 (declaration inner) :=
  .here fun _ => settles_property.first fun _ => (settles_expect _).any.step fun _ =>
    .get fun _ _ =>
    .choose (fun _ => settles_filterValue) (fun _ => settles_value hinner false) fun _ => .pure

theorem roundSettles_declarationPart (hinner : NestedSettles n inner) :
    RoundSettles (n + 1) tokensLeft () token (declarationPart inner token) := by
  unfold declarationPart
  split
  next => exact roundSettles_stop
  next => exact roundSettles_skip
  next => exact roundSettles_skip
  next => exact roundSettles_skip
  next => exact roundSettles_add (settles_declaration hinner)

theorem settles_declarations (hinner : NestedSettles n inner) :
    SettlesIf (n + 1) P 0 (declarations inner) :=
  settles_many fun _ => roundSettles_declarationPart hinner

theorem settles_block (hinner : NestedSettles n inner) : SettlesIf (n + 1) P 0 (block inner) :=
  .here fun _ => (settles_declarations hinner).step fun _ => .pure

theorem settles_bracedBlock (hinner : NestedSettles n inner) :
    SettlesIf (n + 1) P 1 (bracedBlock inner) :=
  .here fun _ => (settles_expect _).first fun _ => (settles_declarations hinner).step fun _ =>
    (settles_expect _).any.step fun _ => .pure

/-! ## Rules -/

theorem settles_ruleset (hinner : NestedSettles n inner) : SettlesIf (n + 1) P 1 (ruleset inner) :=
  .here fun _ => (settles_selector hinner).step fun _ =>
    (settles_bracedBlock hinner).first fun _ => .pure

theorem roundSettles_expressionPart (hinner : NestedSettles n inner) (started : Bool) :
    RoundSettles (n + 1) tokensLeft started token (expressionPart inner started token) := by
  unfold expressionPart
  split
  next => exact .stop
  next => exact .stop
  next => exact .ite (fun _ => .next (settlesIf_space fun _ => ne_nil_of_head?)) fun _ => .advance
  next => exact .advance
  next => exact .next (settlesIf_tokenLeaf fun _ => ne_nil_of_head?)
  next => exact .next (settles_pseudo hinner)
  next => exact .next (settlesIf_brackets hinner fun _ => ne_nil_of_head?)
  next => exact .next (settles_component hinner)

theorem settles_atruleExpression (hinner : NestedSettles n inner) :
    SettlesIf (n + 1) P 0 (atruleExpression inner) :=
  .here fun _ =>
    (settles_loop (fun _ _ => Nat.le.refl)
      fun started _ => roundSettles_expressionPart hinner started).step
    fun _ => .pure

theorem settles_atruleBody (hinner : NestedSettles n inner) {sheet : Parser Tree}
    (hsheet : Settles n 0 sheet) :
    SettlesIf n P 0 (atruleBody inner sheet) := by
  refine .kind? fun _ => ?_
  split
  next => exact .pure
  next => exact settles_advance.step fun _ => .pure
  next =>
    refine settles_advance.step fun _ => .get fun _ _ => .choose
      (fun _ => (settles_block hinner).weaken (Nat.le_succ n) Nat.le.refl)
        (fun _ => hsheet.always) fun _ =>
        (settles_expect _).any.step fun _ => .pure
  next => exact .fail (by simp)

theorem settles_atrule (hinner : NestedSettles n inner) {sheet : Parser Tree}
    (hsheet : Settles n 0 sheet) :
    SettlesIf (n + 1) P 1 (atrule inner sheet) :=
  (settles_expect _).enter fun _ => .here fun _ => (settles_readName false).any.step fun _ =>
    ((settles_atruleExpression hinner).weaken (Nat.le_succ n) Nat.le.refl).step fun _ =>
      (settles_atruleBody hinner hsheet).step fun _ => .pure

theorem roundSettles_rulePart (hinner : NestedSettles n inner) {sheet : Parser Tree}
    (hsheet : Settles n 0 sheet) (nested : Bool) :
    RoundSettles (n + 1) tokensLeft () token (rulePart inner sheet nested token) := by
  unfold rulePart
  split
  next => exact roundSettles_skip
  next =>
    refine .ite (fun _ => roundSettles_skip) fun _ => roundSettles_add (.here fun _ => ?_)
    exact (settlesIf_advance fun _ => ne_nil_of_head?).first fun _ => .pure
  next => exact roundSettles_add (settlesIf_tokenLeaf fun _ => ne_nil_of_head?)
  next => exact roundSettles_add (settles_atrule hinner hsheet)
  next => exact .ite (fun _ => roundSettles_stop) fun _ => .fail (by simp)
  next => exact roundSettles_add (settles_ruleset hinner)

theorem settles_styleSheet (hinner : NestedSettles n inner) {sheet : Parser Tree}
    (hsheet : Settles n 0 sheet) (nested : Bool) :
    SettlesIf (n + 1) P 0 (styleSheet inner sheet nested) :=
  .here fun _ =>
    (settles_many fun _ => roundSettles_rulePart hinner hsheet nested).step fun _ => .pure

/-- The round goes on, or it fails. -/
def NeverStops (round : Parser Item) : Prop :=
  ∀ s s', round s ≠ .ok .stop s'

theorem neverStops_rulePart {sheet : Parser Tree} :
    NeverStops (rulePart inner sheet false token) := by
  have hadd : ∀ read : Parser Tree, NeverStops (add read) := fun _ _ _ => add_ne_stop
  unfold rulePart
  split
  next =>
    intro s s' h
    cases h
  next =>
    split
    · intro s s' h
      cases h
    · exact hadd _
  next => exact hadd _
  next => exact hadd _
  next => exact fun _ _ h => fail_ne_ok.1 h
  next => exact hadd _

/-- A style sheet is read to the end of input. -/
theorem rest_of_styleSheet {sheet : Parser Tree} {s s' : ParserState} {tree : Tree}
    (h : styleSheet inner sheet false s = .ok tree s') : s'.rest = [] := by
  rw [styleSheet, here_bind_run] at h
  obtain ⟨nodes, s₁, hmany, h⟩ := bind_eq_ok.1 h
  obtain ⟨-, rfl⟩ := EStateM.Result.ok.inj h
  exact (rounds_of_many hmany).rest_eq_nil fun _ _ => neverStops_rulePart

theorem NestedSettles.weaken {m : Nat} (h : NestedSettles n inner) (hm : m ≤ n) :
    NestedSettles m inner :=
  ⟨fun scope => (h.component scope).weaken hm Nat.le.refl,
    fun scope => (h.brackets scope).weaken hm Nat.le.refl,
    h.fallback.weaken hm Nat.le.refl, h.negated.weaken hm Nat.le.refl⟩

/-- The rules in the bodies of at-rules settle on fewer tokens than the depth they are read to. -/
theorem settles_nestedSheet (hinner : NestedSettles n inner) {depth : Nat} (h : depth ≤ n) :
    Settles depth 0 (nestedSheet inner depth) := by
  induction depth with
  | zero => exact ⟨fun h => absurd h (Nat.not_lt_zero _), fun h => absurd h (Nat.not_lt_zero _)⟩
  | succ depth ih =>
    exact settles_styleSheet (hinner.weaken (Nat.le_of_succ_le h)) (ih (Nat.le_of_succ_le h)) true

/-- In every context, a text of at most `size` tokens is read to an end. -/
theorem settles_production (context : Context) (size : Nat) :
    Settles (size + 1) 0 (context.production size) := by
  have hdeep := nestedSettles_upTo (size + 1)
  have hinner := hdeep.weaken (Nat.le_succ size)
  have hsheet := (settles_nestedSheet hdeep Nat.le.refl).weaken (Nat.le_succ size) Nat.le.refl
  cases context with
  | stylesheet => exact settles_styleSheet hinner hsheet false
  | atrule => exact (settles_atrule hinner hsheet).any
  | atruleExpression => exact settles_atruleExpression hinner
  | ruleset => exact (settles_ruleset hinner).any
  | selector => exact settles_selector hinner
  | simpleSelector => exact settles_simpleSelector hinner false
  | block => exact settles_block hinner
  | declaration => exact (settles_declaration hinner).any
  | property => exact settles_property.any
  | value => exact settles_value hinner false

end Grammar
end StyleTree
