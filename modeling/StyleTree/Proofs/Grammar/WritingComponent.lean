import StyleTree.Proofs.Grammar.Writing

/-! Components and values are written with the letters they are read from, if the readers one
bracket deeper do so (`NestedWrites`). In a selector, functions are not: a colon is written before
each. -/

namespace StyleTree

open StyleTree.Parser StyleTree.Grammar

namespace Grammar

variable {passed w : List Char} {flat : Bool} {P : List Token → Prop} {inner : Nested}
  {scope : Scope} {info : Option Nat} {name : String} {token : Token} {kind : LeafKind}

/-! ## Names and other small parts -/

theorem writes_readName (custom : Bool) :
    WritesIf passed flat P [] (readName custom) String.toList :=
  writes_of_spanning (spanning_readName custom)

/-- A leaf that is nothing but its text. -/
theorem compact_bareLeaf (h : Node.leafMarks kind = ([], [])) (info : Option Nat) (text : String) :
    (Node.leaf info kind text : Tree).compact = text.toList := by
  simp [h]

theorem writes_identifier (custom : Bool) :
    WritesIf passed flat P [] (identifier custom) Node.compact :=
  .here fun _ => (writes_readName custom).next fun _ => .written (compact_bareLeaf rfl _ _)

theorem writes_tokenLeaf (h : Node.leafMarks kind = ([], [])) :
    WritesIf passed flat P [] (tokenLeaf kind) Node.compact :=
  .here fun _ => writes_take.next fun _ => .written (compact_bareLeaf h _ _)

theorem writesIf_space (hP : ∀ tokens, P tokens → tokens.head?.map Token.kind = some .whitespace) :
    WritesIf passed flat P [] space Node.compact :=
  (writesIf_blank hP).next fun _ => .told (by simp)

theorem writes_hash : WritesIf passed flat P [] hash Node.compact := by
  refine .here fun _ => (writes_expect (c := '#') rfl).next fun _ => .kind? fun _ => ?_
  split
  next =>
    exact writes_take.next fun _ => writes_takeIf.next fun _ => .written (by simp [Node.leafMarks])
  next => exact writes_take.next fun _ => .written (by simp [Node.leafMarks])
  next => exact .fail

theorem writes_hexDigits : WritesIf passed flat P [] hexDigits String.toList :=
  writes_of_spanning spanning_hexDigits

theorem writes_unicodeRange : WritesIf passed flat P [] unicodeRange Node.compact := by
  refine .here fun _ => (writes_takeMany 2).next fun _ => writes_hexDigits.next fun _ =>
    .get fun _ _ _ =>
    (writes_takeMany _).next fun _ => .isAt fun _ => .ite (fun _ => ?_) fun _ => ?_
  · exact writes_take.next fun _ => writes_hexDigits.next fun _ =>
      .written (by simp [Node.leafMarks])
  · exact .written (by simp [Node.leafMarks])

theorem writes_readNumber? :
    WritesIf passed flat P [] readNumber? fun number => (number.map String.toList).getD [] := by
  refine .get fun s _ _ => ?_
  cases numberLength? s.rest with
  | none => exact .written rfl
  | some count => exact (writes_takeMany count).next fun _ => .written (by simp)

theorem writes_measured (number : String) :
    WritesIf passed flat P number.toList (measured info number) Node.compact := by
  refine .current? fun token? => ?_
  cases token? with
  | none => exact .written (compact_bareLeaf rfl _ _)
  | some token =>
    refine .ite (fun hk => ?_) fun _ => .ite (fun hk => ?_) fun _ =>
      .written (compact_bareLeaf rfl _ _)
    · exact (writesIf_sign (c := '%') (fun tokens h => kind_at hk tokens h.2) rfl).next fun _ =>
        .written (by simp [Node.leafMarks])
    · exact (writesIf_readUnit (fun _ h => h.2) hk).next fun _ => .written (by simp)

/-! ## Functions -/

/-- What the readers one bracket deeper have to do. A bracketed sequence is read where a bracket
opens. -/
structure NestedWrites (passed : List Char) (flat : Bool) (inner : Nested) : Prop where
  component : ∀ {scope}, scope ≠ .selector →
    Writes passed flat [] (inner.component scope) Node.compact
  brackets : ∀ {scope}, scope ≠ .selector → WritesIf passed flat (fun tokens => ∃ kind,
    tokens.head?.map Token.kind = some kind ∧ (kind = .leftParen ∨ kind = .leftBracket)) []
      (inner.brackets scope) Node.compact
  fallback : Writes passed flat [] inner.fallback Node.compact

/-- The name of a link is written in lower case. -/
theorem writes_urlFunction (hname : name.toList.map Text.lowerChar = "url".toList) :
    WritesIf passed flat P name.toList (urlFunction info) Node.compact := by
  have hend : ∀ link : Tree, Writes passed flat (name.toList ++ ['('] ++ [] ++ link.compact)
      (do skipGaps; expect .rightParen; return .wrapper info .url link : Parser Tree)
        Node.compact := by
    refine fun link => writes_skipGaps.next fun _ =>
      (writes_expect (c := ')') rfl).next fun _ => .told ?_
    have hletters : letters passed name.toList = letters passed "url".toList :=
      letters_congr (hname.trans (by decide))
    rw [Node.compact_url]
    simp only [List.append_nil, List.append_assoc, letters_append _ name.toList, hletters]
    rw [← letters_append]
    rfl
  refine (writes_expect (c := '(') rfl).next fun _ => writes_skipGaps.next fun _ => .isAt fun _ =>
    .ite (fun _ => (writes_tokenLeaf rfl).next hend) fun _ => .here fun _ => ?_
  refine (writes_takeWhile _).next fun text => .value ?_
  have htext := hend (.leaf ‹_› .raw text)
  rwa [compact_bareLeaf rfl] at htext

theorem writes_scriptFunction :
    WritesIf passed flat P name.toList (scriptFunction info name) Node.compact :=
  (writes_expect (c := '(') rfl).next fun _ => .get fun _ _ _ => (writes_takeMany _).next fun _ =>
    (writes_expect (c := ')') rfl).next fun _ =>
      .written (by simp [compact_function, compact_argument, Node.leafMarks])

theorem writes_variableFunction (hinner : NestedWrites passed flat inner) :
    WritesIf passed flat P name.toList (variableFunction inner info name) Node.compact := by
  refine (writes_expect (c := '(') rfl).next fun _ =>
    writes_skipGaps.next fun _ => (writes_identifier true).next fun first =>
    writes_skipGaps.next fun _ => .isAt fun comma => .ite (fun hcomma => ?_) fun _ => .value ?_
  · refine (writesIf_sign (c := ',') (fun _ h => h.2.2 hcomma) rfl).next fun _ =>
      writes_skipGaps.next fun _ =>
      hinner.fallback.next fun node => writes_skipGaps.next fun _ => .value ?_
    exact (writes_expect (c := ')') rfl).next fun _ =>
      .written (by simp [compact_function, compact_argument])
  · exact (writes_expect (c := ')') rfl).next fun _ =>
      .written (by simp [compact_function, compact_argument])

/-! ## Arguments and brackets -/

theorem letters_dropTrailingSpaces (nodes : List Tree) :
    letters passed (rowChars (dropTrailingSpaces nodes)) = letters passed (rowChars nodes) := by
  have hsplit :
      nodes = dropTrailingSpaces nodes ++ (nodes.reverse.takeWhile Node.isSpace).reverse := by
    rw [dropTrailingSpaces, ← List.reverse_append, List.takeWhile_append_dropWhile,
      List.reverse_reverse]
  have hspaces : letters passed (rowChars (nodes.reverse.takeWhile Node.isSpace).reverse) = [] := by
    have hspace : ∀ node ∈ (nodes.reverse.takeWhile Node.isSpace).reverse, node.isSpace = true :=
      fun node hmem => List.mem_takeWhile_imp (List.mem_reverse.1 hmem)
    generalize (nodes.reverse.takeWhile Node.isSpace).reverse = spaces at hspace
    induction spaces with
    | nil => rfl
    | cons node nodes ih =>
      rw [rowChars_cons, letters_append, ih fun other hmem => hspace other (.tail _ hmem)]
      cases node with
      | space => simp
      | _ => cases hspace _ (.head _)
  conv => rhs; rw [hsplit, rowChars_append, letters_append, hspaces, List.append_nil]

theorem writesIf_argumentPart (hscope : scope ≠ .selector)
    (hinner : NestedWrites passed flat inner) :
    TakingIf (Clear flat) (fun tokens => tokens.head? = some token) (argumentPart inner scope token)
      fun result front => result.Writes passed id () front := by
  unfold argumentPart
  split
  next => exact writes_stop
  next => exact writes_stop
  next hk => exact writes_part rfl (writesIf_space (kind_at hk))
  next hk => exact takingIf_marked (.inl hk)
  next => exact writes_part rfl writes_hash
  next hk =>
    exact writes_part rfl
      ((hinner.brackets hscope).mono fun tokens h => ⟨_, kind_at hk tokens h, .inl rfl⟩)
  next hk =>
    exact writes_part rfl
      ((hinner.brackets hscope).mono fun tokens h => ⟨_, kind_at hk tokens h, .inr rfl⟩)
  next => exact writes_part rfl (writes_tokenLeaf rfl)
  next => exact writes_part rfl (writes_tokenLeaf rfl)
  next => exact writes_part rfl (writes_tokenLeaf rfl)
  next => exact writes_part rfl (writes_tokenLeaf rfl)
  next => exact writes_part rfl (hinner.component hscope).always

theorem writes_argumentOf (hscope : scope ≠ .selector) (hinner : NestedWrites passed flat inner) :
    WritesIf passed flat P [] (argumentOf inner scope) Node.compact := by
  refine (writes_many fun _ => writesIf_argumentPart hscope hinner).next fun parts => ?_
  split
  · exact .fail
  · exact .told (by rw [compact_argument, letters_dropTrailingSpaces, List.nil_append])

/-- Entries before a parenthesis are all there. -/
theorem writes_closed {entry : Parser Tree} {between : Parser Unit}
    (hentry : Writes passed flat [] entry Node.compact)
    (hbetween : Writes passed flat [] between fun _ => []) :
    WritesIf passed flat P w (do
        let result ← separated (fun _ => false) entry between
        expect .rightParen
        return result.1) fun nodes => w ++ (entriesChars nodes ++ [')']) := by
  intro s nodes s' hK hP hs
  obtain ⟨⟨entries, missing⟩, s₁, hread, hend⟩ := bind_eq_ok.1 hs
  obtain ⟨hK₁, front, htakes, hwrites⟩ := writes_separated hentry hbetween s _ s₁ hK hP hread
  have hclose : WritesIf passed flat (fun _ => True) []
      (do expect .rightParen; return entries : Parser (List Tree))
      fun _ => [')'] := (writes_expect rfl).next fun _ => .written rfl
  obtain ⟨hK', last, hlast, hparen⟩ := hclose s₁ nodes s' hK₁ trivial hend
  obtain ⟨_, s₂, hexpect, hend⟩ := bind_eq_ok.1 hend
  obtain ⟨rfl, rfl⟩ := EStateM.Result.ok.inj hend
  obtain ⟨token, rest, hrest, -, -⟩ := expect_eq_ok.1 hexpect
  have hmissing : missing = false :=
    (separates_of_separated hread).missing_eq_false (by simp [hrest])
  refine ⟨hK', front ++ last, htakes.trans hlast, ?_⟩
  show letters passed (w ++ (entriesChars entries ++ [')'])) = letters passed
    (w ++ tokenChars (front ++ last))
  rw [List.nil_append] at hparen
  rw [letters_append, letters_append, letters_append, hwrites hmissing, hparen, tokenChars_append,
    letters_append]

theorem writes_arguments (hscope : scope ≠ .selector) (hinner : NestedWrites passed flat inner) :
    WritesIf passed flat P [] (arguments inner scope)
      fun nodes => '(' :: (entriesChars nodes ++ [')']) := by
  refine (writes_expect (c := '(') rfl).next fun _ =>
    writes_skipGaps.next fun _ => .isAt fun _ => .ite (fun _ => .value ?_) fun _ => ?_
  · exact (writes_expect (c := ')') rfl).next fun _ => .written (by simp [entriesChars])
  · simp only [pure_bind]
    exact (writes_closed (w := ['(']) (writes_argumentOf hscope hinner) writes_skipGaps).imp
      fun _ _ h => h

theorem writes_function (hscope : scope ≠ .selector) (hinner : NestedWrites passed flat inner) :
    WritesIf passed flat P name.toList (function inner scope info name) Node.compact := by
  rw [function]
  split
  next hspecial => exact writes_urlFunction (letters_of_url hspecial)
  next hspecial => exact absurd (scope_of_negation hspecial) hscope
  next => exact writes_scriptFunction
  next => exact writes_variableFunction hinner
  next =>
    refine (writes_arguments hscope hinner).next fun nodes => ?_
    cases scope with
    | selector => exact absurd rfl hscope
    | atruleExpression | value => exact .written (compact_function _ _ _)

theorem writesIf_bracketPart (hscope : scope ≠ .selector) (hinner : NestedWrites passed flat inner)
    (closing : TokenKind) :
    TakingIf (Clear flat) (fun tokens => tokens.head? = some token)
      (bracketPart inner scope closing token)
      fun result front => result.Writes passed id () front := by
  refine .ite (fun _ => writes_stop) fun _ => ?_
  split
  next hk => exact writes_part rfl (writesIf_space (kind_at hk))
  next hk => exact takingIf_marked (.inl hk)
  next => exact writes_part rfl writes_hash
  next hk =>
    exact writes_part rfl
      ((hinner.brackets hscope).mono fun tokens h => ⟨_, kind_at hk tokens h, .inl rfl⟩)
  next hk =>
    exact writes_part rfl
      ((hinner.brackets hscope).mono fun tokens h => ⟨_, kind_at hk tokens h, .inr rfl⟩)
  next => exact writes_part rfl (writes_tokenLeaf rfl)
  next => exact writes_part rfl (writes_tokenLeaf rfl)
  next => exact writes_part rfl (writes_tokenLeaf rfl)
  next => exact writes_part rfl (writes_tokenLeaf rfl)
  next => exact writes_part rfl (hinner.component hscope).always

theorem writesIf_brackets (hscope : scope ≠ .selector) (hinner : NestedWrites passed flat inner)
    (hP : ∀ tokens, P tokens → ∃ kind, tokens.head?.map Token.kind = some kind ∧
      (kind = .leftParen ∨ kind = .leftBracket)) :
    WritesIf passed flat P [] (brackets inner scope) Node.compact := by
  have hinside : ∀ {info : Option Nat} {closing : TokenKind} {o c : Char}, closing.char? = some c →
      Writes passed flat ([] ++ [o]) (do
      skipGaps
      let parts ← many (bracketPart inner scope closing)
      expect closing
      return .sequence info (.braces o c) (dropTrailingSpaces parts) : Parser Tree) Node.compact :=
        fun hc =>
    writes_skipGaps.next fun _ =>
      (writes_many fun _ => writesIf_bracketPart hscope hinner _).next fun parts =>
      (writes_expect hc).next fun _ => .told (by
        rw [compact_braces, letters_cons, letters_append, letters_dropTrailingSpaces,
          List.nil_append, List.append_nil, List.append_assoc, letters_append, letters_append])
  refine .here fun info => .isAt fun round => ?_
  cases round with
  | true => exact (writesIf_sign (c := '(') (fun _ h => h.2.2 rfl) rfl).next fun _ => hinside rfl
  | false =>
    have hbracket : ∀ tokens : List Token, P tokens ∧
        (tokens.head?.map Token.kind = some .leftParen ↔ false = true) →
        tokens.head?.map Token.kind = some .leftBracket := by
      rintro tokens ⟨hat, hround⟩
      obtain ⟨kind, hhead, rfl | rfl⟩ := hP tokens hat
      · exact absurd (hround.1 hhead) nofun
      · exact hhead
    exact (writesIf_sign (c := '[') hbracket rfl).next fun _ => hinside rfl

/-! ## Components -/

theorem writes_named (hscope : scope ≠ .selector) (hinner : NestedWrites passed flat inner) :
    WritesIf passed flat P [] (named inner scope) Node.compact :=
  .here fun _ => (writes_readName false).next fun _ => .isAt fun _ =>
    .ite (fun _ => writes_function hscope hinner) fun _ => .written (compact_bareLeaf rfl _ _)

theorem writes_component (hscope : scope ≠ .selector) (hinner : NestedWrites passed flat inner) :
    WritesIf passed flat P [] (component inner scope) Node.compact := by
  have hsigned : WritesIf passed flat P [] (signedComponent inner scope) Node.compact := by
    refine .here fun _ => writes_readNumber?.next fun number => ?_
    cases number with
    | some number => exact writes_measured number
    | none =>
      refine .lookupKind fun _ => .lookupKind fun _ => .kind? fun _ => ?_
      split
      next => exact .ite (fun _ => writes_named hscope hinner) fun _ => writes_tokenLeaf rfl
      next => exact writes_tokenLeaf rfl
      next => exact .fail
  rw [component_eq]
  refine .kind? fun _ => ?_
  split
  next => exact writes_tokenLeaf rfl
  next => exact writes_named hscope hinner
  next => exact writes_named hscope hinner
  next => exact hsigned.mono fun _ h => h.1
  next => exact hsigned.mono fun _ h => h.1
  next => exact hsigned.mono fun _ h => h.1
  next => exact hsigned.mono fun _ h => h.1
  next => exact .fail

/-! ## Values -/

theorem writesIf_valuePart (hinner : NestedWrites passed flat inner) (nested important : Bool) :
    TakingIf (Clear flat) (fun tokens => tokens.head? = some token)
      (valuePart inner nested important token)
      fun result front => result.Writes passed id important front := by
  have hvalue : Scope.value ≠ .selector := nofun
  unfold valuePart
  split
  next => exact writes_stop
  next => exact writes_stop
  next => exact .ite (fun _ => writes_stop) fun _ => .fail
  next hk => exact writes_part rfl (writesIf_space (kind_at hk))
  next hk => exact takingIf_marked (.inl hk)
  next => exact writes_part rfl writes_hash
  next => exact writes_part rfl (writes_tokenLeaf rfl)
  next => exact writes_part rfl (writes_tokenLeaf rfl)
  next hk =>
    exact writes_part rfl
      (writesIf_brackets hvalue hinner fun tokens h => ⟨_, kind_at hk tokens h, .inl rfl⟩)
  next hk =>
    exact writes_part rfl
      (writesIf_brackets hvalue hinner fun tokens h => ⟨_, kind_at hk tokens h, .inr rfl⟩)
  next hk => exact takingIf_marked (.inr hk)
  next =>
    exact .lookupKind fun _ => .ite (fun _ => writes_part rfl writes_unicodeRange)
      fun _ => writes_part rfl (writes_component hvalue hinner)
  next => exact writes_part rfl (writes_component hvalue hinner)

/-- Where there are no flags, a value is written without one. -/
theorem writes_value (hinner : NestedWrites passed flat inner) (nested : Bool) :
    WritesIf passed flat P [] (value inner nested) Node.compact := by
  refine .here fun _ => writes_skipGaps.next fun _ => ?_
  refine (writes_loop id fun important _ => writesIf_valuePart hinner nested important).bind
    fun result front h => ?_
  obtain ⟨parts, important⟩ := result
  obtain ⟨rfl, hparts⟩ := h
  refine .pure ?_
  rw [compact_value, if_neg nofun, List.append_nil, letters_dropTrailingSpaces, hparts,
    List.append_nil, List.append_nil, List.nil_append]

/-- A value goes on up to what ends it. -/
theorem ends_of_value {nested : Bool} {s s' : ParserState} {tree : Tree}
    (h : value inner nested s = .ok tree s') :
    ∀ token ∈ s'.rest.head?, EndsValue nested token := by
  rw [value, here_bind_run, skipGaps_bind_run] at h
  obtain ⟨⟨parts, important⟩, s₁, hloop, h⟩ := bind_eq_ok.1 h
  obtain ⟨-, rfl⟩ := EStateM.Result.ok.inj h
  rcases (rounds_of_loop hloop).ends with hnil | ⟨_, token, s₂, hhead, hstop⟩
  · simp [hnil]
  · obtain ⟨rfl, hends⟩ := valuePart_eq_stop hstop
    intro other hmem
    obtain rfl := Option.some.inj (hhead.symm.trans hmem)
    exact hends

/-- Values are written with the letters they are read from, whatever the depth of the brackets. -/
theorem nestedWrites_upTo (depth : Nat) : NestedWrites passed flat (.upTo depth) := by
  induction depth with
  | zero => exact ⟨fun _ => .fail, fun _ => .fail, .fail⟩
  | succ depth ih =>
    exact ⟨fun hscope => writes_component hscope ih,
      fun hscope => writesIf_brackets hscope ih fun _ h => h,
      writes_value ih true⟩

end Grammar
end StyleTree
