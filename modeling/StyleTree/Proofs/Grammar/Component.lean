import StyleTree.Proofs.Grammar.Arguments

/-! Components and brackets. Functions are read again from the opening parenthesis on
(`function_calls`), names and numbers as they stand; so a component is read again
(`component_reprints`), and so is a bracketed sequence of components (`brackets_reprints`), given
that what stands one bracket deeper is. The name `url` is the only one that is not kept as it
stands: it is written in lower case (`writtenName_rereads`). -/

namespace StyleTree.Grammar

open StyleTree.Parser

variable {inner : Nested} {scope : Scope} {p : Place} {s s' : ParserState} {tree : Tree}
  {nodes : List Tree} {info : Option Nat} {token : Token} {rest : List Token}

/-! ## Variables -/

theorem identifier_reprints {custom : Bool} (hp : p.Scans s.rest)
    (h : identifier custom s = .ok tree s') :
    Reprints p s tree s' fun _ => identifier custom := by
  rw [identifier, here_bind_run] at h
  obtain ⟨name, s₁, hname, h⟩ := bind_eq_ok.1 h
  obtain ⟨rfl, rfl⟩ := EStateM.Result.ok.inj h
  obtain ⟨tokens, cs, hs, hisName, rfl, hends, -, -, -⟩ := readName_rereads hp hname
  refine reprints_of_verbatim _ hp hs hisName.ne_nil (fun token hmem => ?_) ?_ ?_
  · rcases hisName.kinds token hmem with hk | hk | hk | hk <;> simp [hk]
  · simp [Node.leafMarks, toList_concat_text]
  · intro _ s₁ front rest hs₁ hcore hpeek hne
    refine ⟨.leaf (s₁.rest.head?.map Token.start) .identifier
      (Text.concat (tokens.map Token.text)), ?_, by simp⟩
    rw [identifier, here_bind_run, bind_of_ok (readName_congr hisName hends hs₁ hcore hpeek hne),
      run_pure]

/-- The value after the comma of a variable, if there is one. -/
private def fallbackList (inner : Nested) : Parser (List Tree) := do
  if ← isAt .comma then
    advance
    skipGaps
    let node ← inner.fallback
    skipGaps
    pure [argument [node]]
  else pure []

private theorem variableFunction_eq (inner : Nested) (info : Option Nat) (name : String) :
    variableFunction inner info name = (do
      expect .leftParen
      skipGaps
      let variableName ← identifier true
      skipGaps
      let fallback ← fallbackList inner
      expect .rightParen
      return .sequence info (.function name) (argument [variableName] :: fallback)) := by
  simp only [variableFunction, fallbackList, bind_assoc, ite_bind, pure_bind]

/-- The text of the arguments after the first one. -/
private def laterChars (nodes : List Tree) : List Char :=
  (nodes.map fun node => ',' :: node.compact).flatten

private theorem intercalate_cons (first : List Char) (nodes : List Tree) :
    List.intercalate [','] (first :: nodes.map Node.compact) = first ++ laterChars nodes := by
  induction nodes generalizing first with
  | nil => simp [laterChars]
  | cons node nodes ih =>
    rw [List.map_cons, intercalate_cons_cons, ih]
    simp [laterChars]

/-- What stands after the name of a variable is read again up to the closing parenthesis. -/
private structure FallbackReturns (p p' : Place) (nodes : List Tree) : Prop where
  breaks : ∀ cs, ∀ d ∈ (laterChars nodes ++ ')' :: cs).head?, isBreak d = true
  follow : ∀ cs, p.Follow (laterChars nodes ++ ')' :: cs)
  runs : ∀ k, Runs k p p' (·.head? = some ')') (laterChars nodes) (fallbackList (.upTo (k + 1)))
    fun nodes' => nodes'.map Node.bare = nodes.map Node.bare

private theorem FallbackReturns.nil {tokens : List Token} (hp : p.Scans tokens)
    (hclose : tokens.head?.map Token.kind = some .rightParen) : FallbackReturns p p [] where
  breaks cs := by simp [laterChars, isBreak]
  follow cs := follow_of_rightParen hp hclose rfl
  runs k cs s hcs hs _ := by
    have hk : s.rest.head?.map Token.kind = some .rightParen :=
      hs.head?_kind_of_sign hcs rfl rfl (by decide)
    refine ⟨[], s, ?_, rfl, hs, Nat.le_refl _⟩
    rw [fallbackList, isAt_bind_run, hk]
    rfl

private theorem FallbackReturns.value {comma : Token} {node : Tree} {p₁ p' : Place}
    (hp : p.Scans (comma :: rest)) (hk : comma.kind = .comma)
    (hstate : p₁.state = p.state.after .comma [','])
    (hgap : ∀ cs tokens, (p₁.put (node.compact ++ ')' :: cs)).Scans tokens → NoGap tokens)
    (hfollow : ∀ cs, p'.Follow (')' :: cs))
    (hruns : ∀ n, Runs n p₁ p'
      (fun cs => (∀ d ∈ cs.head?, closesValue true d = true) ∧ p'.Follow cs) node.compact
      (Grammar.value (.upTo n) true) fun node' => node'.bare = node.bare) :
    FallbackReturns p p' [argument [node]] := by
  have hlater : laterChars [argument [node]] = ',' :: node.compact := by
    simp [laterChars, compact_argument]
  refine ⟨fun cs => by simp [hlater, isBreak], fun cs => ?_, fun k cs s hcs hs hlt => ?_⟩
  · rw [hlater]
    exact follow_of_isBreak hp hk rfl rfl (by simp [isBreak])
  obtain ⟨cs, rfl⟩ := List.head?_eq_some_iff.1 hcs
  rw [hlater, List.cons_append] at hs
  obtain ⟨comma', rest', hrest, hcore, hs₁⟩ := hs.of_sign rfl rfl (by decide)
  have hk' : comma'.kind = .comma := congrArg Prod.fst hcore
  have hs₁' : (p₁.put (node.compact ++ ')' :: cs)).Scans rest' := by
    rw [Place.put, hstate]
    exact hs₁
  obtain ⟨node', s₂, hrun, hbare, hs₂, hle⟩ := hruns k (')' :: cs) { s with rest := rest' }
    ⟨by simp [closesValue], hfollow cs⟩ hs₁' (by simp [hrest] at hlt ⊢; omega)
  have hgap₂ : NoGap s₂.rest := hs₂.noGap_of_sign rfl rfl (by decide)
  refine ⟨[argument [node']], s₂, ?_, by simp [argument, hbare], hs₂, ?_⟩
  · simp only [fallbackList, isAt_bind_run, hrest, List.head?_cons, Option.map_some, hk',
      decide_true, if_true, advance_bind_run, skipGaps_bind_run, List.tail_cons,
      (hgap cs rest' hs₁').dropWhile_eq]
    have hrun' : (Nested.upTo (k + 1)).fallback { s with rest := rest' } = .ok node' s₂ := hrun
    simp only [bind_of_ok hrun', skipGaps_bind_run, hgap₂.dropWhile_eq, run_pure]
  · simp only at hle
    simp only [hrest, List.length_cons]
    omega

private theorem fallbackList_returns (hinner : inner.Returns) (hp : p.Scans s.rest)
    (htidy : Tidy .value s.rest) (h : fallbackList inner s = .ok nodes s')
    (hclose : s'.rest.head?.map Token.kind = some .rightParen) :
    ∃ p' : Place, p'.Scans s'.rest ∧ p'.firm = p.firm ∧ Balanced s.rest s'.rest ∧
      FallbackReturns p p' nodes := by
  rw [fallbackList, isAt_bind_run] at h
  by_cases hcomma : s.rest.head?.map Token.kind = some .comma
  · obtain ⟨comma, hmem, hk⟩ := Option.map_eq_some_iff.1 hcomma
    obtain ⟨rest, hs⟩ := List.head?_eq_some_iff.1 hmem
    simp only [hs, List.head?_cons, Option.map_some, hk, decide_true, if_true, advance_bind_run,
      skipGaps_bind_run, List.tail_cons] at h
    obtain ⟨node, s₁, hnode, h⟩ := bind_eq_ok.1 h
    rw [skipGaps_bind_run] at h
    obtain ⟨rfl, rfl⟩ := EStateM.Result.ok.inj h
    rw [hs] at hp htidy
    obtain ⟨cs₁, -, hp₁, hstate, -⟩ := rereads_sign (c := ',') hp hk rfl rfl (by decide)
    obtain ⟨p₂, hp₂, -, hfirm₂, hbalanced₂, hstate₂, -⟩ := hp₁.skipGaps htidy.tail.noComments
    replace hstate₂ := hstate₂ (by rw [← hstate]; rfl)
    obtain ⟨p₃, p', hp₃, hstate₃, hp', hfirm', hbalanced', hends, hfollow, hruns⟩ :=
      hinner.fallback (s := ⟨rest.dropWhile isGap, s.discarded⟩) hp₂ (hbalanced₂.tidy htidy.tail)
        (by rw [hstate₂, ← hstate]; rfl) hnode
    have hgap₁ : NoGap s₁.rest := by
      intro token hmem
      rcases hends token hmem with hk | hk | ⟨-, hk⟩ <;> simp [isGap, hk]
    simp only [hgap₁.dropWhile_eq] at hclose ⊢
    have hclosing : ∀ cs, p'.Follow (')' :: cs) := fun cs => follow_of_rightParen hp' hclose rfl
    refine ⟨p', hp', hfirm'.trans hfirm₂, ?_,
      .value hp hk (hstate₂.trans hstate.symm) (fun cs tokens hs₂ => ?_) hclosing hruns⟩
    · rw [hs]
      exact .trans (.token (by simp [hk]) (by simp [hk])) (.trans hbalanced₂ hbalanced')
    · refine (hfollow _ (by simp [closesValue]) (hclosing cs)).noGap hp₃ ?_ (noGap_dropWhile _)
      rwa [Place.put, hstate₃]
  · simp only [hcomma, decide_false, Bool.false_eq_true, if_false] at h
    obtain ⟨rfl, rfl⟩ := EStateM.Result.ok.inj h
    exact ⟨p, hp, rfl, .refl, .nil hp hclose⟩

/-- A variable is read again from the parenthesis on. -/
theorem variableFunction_calls {name : String} (hinner : inner.Returns)
    (hp : p.Scans s.rest) (htidy : Tidy .value s.rest)
    (h : variableFunction inner info name s = .ok tree s') :
    Calls name.toList p s tree s' fun info' n => variableFunction (.upTo n) info' name := by
  rw [variableFunction_eq] at h
  obtain ⟨_, _, hopen, h⟩ := bind_eq_ok.1 h
  obtain ⟨opening, rest, hs, hkind, rfl⟩ := expect_eq_ok.1 hopen
  rw [skipGaps_bind_run] at h
  obtain ⟨variableName, s₁, hname, h⟩ := bind_eq_ok.1 h
  rw [skipGaps_bind_run] at h
  obtain ⟨fallback, s₂, hfallback, h⟩ := bind_eq_ok.1 h
  obtain ⟨_, _, hclose, h⟩ := bind_eq_ok.1 h
  obtain ⟨closing, rest', hs', hkind', rfl⟩ := expect_eq_ok.1 hclose
  obtain ⟨rfl, rfl⟩ := EStateM.Result.ok.inj h
  rw [hs] at hp htidy
  obtain ⟨cs₁, htext, hp₁, hstate, hsign⟩ := rereads_sign (c := '(') hp hkind rfl rfl (by decide)
  obtain ⟨p₂, hp₂, -, hfirm₂, hbalanced₂, hstate₂, -⟩ := hp₁.skipGaps htidy.tail.noComments
  replace hstate₂ := hstate₂ (by rw [← hstate]; rfl)
  obtain ⟨p₃, hp₃, hfirm₃, hbalanced₃, hname₃⟩ :=
    identifier_reprints (s := ⟨rest.dropWhile isGap, s.discarded⟩) hp₂ hname
  have htidy₃ := hbalanced₃.tidy (hbalanced₂.tidy htidy.tail)
  obtain ⟨p₄, hp₄, halike₄, hfirm₄, hbalanced₄, -, hfollow₄⟩ := hp₃.skipGaps htidy₃.noComments
  obtain ⟨p₅, hp₅, hfirm₅, hbalanced₅, hbreak, hfollow₅, hruns₅⟩ :=
    fallbackList_returns (s := ⟨s₁.rest.dropWhile isGap, s₁.discarded⟩) hinner hp₄
      (hbalanced₄.tidy htidy₃) hfallback (by simp [hs', hkind'])
  rw [hs'] at hp₅ hbalanced₅
  obtain ⟨cs₅, -, hp', -, hsign'⟩ := rereads_sign (c := ')') hp₅ hkind' rfl rfl (by decide)
  have hfollow₃ : ∀ cs, p₃.Follow (laterChars fallback ++ ')' :: cs) :=
    fun cs => hfollow₄ _ (hbreak cs) (hfollow₅ cs)
  refine ⟨'(' :: (variableName.compact ++ (laterChars fallback ++ [')'])), _, ?_, hp',
    hfirm₅.trans (hfirm₄.trans (hfirm₃.trans hfirm₂)), ?_, fun info' n => ?_⟩
  · rw [compact_function, List.map_cons, intercalate_cons, compact_argument]
    simp
  · rw [hs]
    refine .group hkind hkind' (.trans hbalanced₂ (.trans hbalanced₃ ?_))
    exact .trans hbalanced₄ hbalanced₅
  · simp only [variableFunction_eq]
    refine (hsign n).bind_nested (v := variableName.compact ++ (laterChars fallback ++ [')']))
      (f := fun n _ => do
        skipGaps
        let variableName ← identifier true
        skipGaps
        let fallback ← fallbackList (.upTo n)
        expect .rightParen
        return Node.sequence info' (.function name) (argument [variableName] :: fallback))
      (fun k _ _ => ?_) fun _ _ => trivial
    refine Runs.skipGaps (Runs.of_state_eq ((hname₃ k).runs.bind (fun name' hname' => ?_)
      fun cs _ => ?_) hstate₂) fun cs tokens _ hs => ?_
    · refine Runs.skipGaps (Runs.of_alike ((hruns₅ k).bind (fun fallback' hfallback' => ?_)
        fun cs _ => rfl) halike₄ ?_) ?_
      · refine (hsign' k).runs.bind (v := []) (fun _ _ => runs_pure ?_) fun _ _ => trivial
        simp [argument, hname', hfallback']
      · intro cs _ hhead
        rw [List.append_assoc] at hhead
        exact ne_paren_of_isBreak (hbreak cs) hhead
      · intro cs tokens _ hs
        rw [List.append_assoc] at hs
        exact (hfollow₅ cs).noGap hp₄ (hs.of_alike halike₄ (ne_paren_of_isBreak (hbreak cs)))
          (noGap_dropWhile _)
    · rw [List.append_assoc]
      exact hfollow₃ cs
    · have hfollow := (hname₃ 0).follow _ (hfollow₃ cs)
      refine hfollow.noGap hp₂ ?_ (noGap_dropWhile rest)
      simp only [List.append_assoc] at hs
      rwa [Place.put, hstate₂]

/-! ## Functions -/

/-- The name that a function is written with: that of a link is written in lower case. -/
def writtenName (scope : Scope) (name : String) : String :=
  if scope.special? name = some .url then "url" else name

theorem special?_writtenName (scope : Scope) (name : String) :
    scope.special? (writtenName scope name) = scope.special? name := by
  unfold writtenName
  split
  next h => rw [h]; rfl
  next => rfl

theorem scope_of_special? {name : String} (h : scope.special? name = some .script ∨
    scope.special? name = some .variable) : scope = .value := by
  unfold Scope.special? at h
  cases scope <;> split at h <;> (try split at h) <;> simp_all

theorem scope_of_negation {name : String} (h : scope.special? name = some .negation) :
    scope = .selector := by
  unfold Scope.special? at h
  cases scope <;> simp at h ⊢
  grind

/-- A function without a grammar of its own. -/
theorem function_of_plain (inner : Nested) {name : String} (h : scope.special? name = none)
    (hscope : scope ≠ .selector) : function inner scope info name = (do
      let nodes ← arguments inner scope
      return .sequence info (.function name) nodes) := by
  cases scope with
  | selector => exact absurd rfl hscope
  | atruleExpression | value => simp only [function, h]

/-- A function is read again from the parenthesis on. -/
theorem function_calls {name : String} (hinner : inner.Returns) (hp : p.Scans s.rest)
    (htidy : Tidy scope s.rest) (hquiet : Quiet scope tree)
    (hurl : scope.special? name = some .url → p.state.afterUrl = true)
    (h : function inner scope info name s = .ok tree s') :
    Calls (writtenName scope name).toList p s tree s' fun info' n =>
      function (.upTo n) scope info' (writtenName scope name) := by
  have hspecial' := special?_writtenName scope name
  cases hspecial : scope.special? name with
  | some special =>
    rw [hspecial] at hspecial'
    simp only [function, hspecial, hspecial'] at h ⊢
    cases special with
    | url =>
      rw [writtenName, if_pos hspecial]
      exact urlFunction_calls hp htidy.noComments (hurl hspecial) h
    | negation =>
      obtain ⟨_, _, -, h⟩ := bind_eq_ok.1 h
      obtain ⟨_, _, -, h⟩ := bind_eq_ok.1 h
      obtain ⟨_, _, -, h⟩ := bind_eq_ok.1 h
      obtain ⟨rfl, -⟩ := EStateM.Result.ok.inj h
      obtain rfl := scope_of_negation hspecial
      cases hquiet.isPseudoCall_eq_false
    | script =>
      rw [writtenName, if_neg (by simp [hspecial])]
      exact scriptFunction_calls hp h
    | «variable» =>
      rw [writtenName, if_neg (by simp [hspecial])]
      obtain rfl := scope_of_special? (.inr hspecial)
      exact variableFunction_calls hinner hp htidy h
  | none =>
    rw [writtenName, if_neg (by simp [hspecial])] at hspecial' ⊢
    have hplain : scope ≠ .selector := by
      rintro rfl
      simp only [function, hspecial] at h
      obtain ⟨_, _, -, h⟩ := bind_eq_ok.1 h
      obtain ⟨rfl, -⟩ := EStateM.Result.ok.inj h
      cases hquiet.isPseudoCall_eq_false
    simp only [function_of_plain _ hspecial hplain] at h ⊢
    obtain ⟨nodes, s₁, harguments, h⟩ := bind_eq_ok.1 h
    obtain ⟨rfl, rfl⟩ := EStateM.Result.ok.inj h
    obtain ⟨p', hp', hfirm, hbalanced, hrereads⟩ :=
      arguments_echoes hinner hp htidy (hquiet.child fun hscope => absurd hscope hplain) harguments
    refine ⟨_, p', compact_function .., hp', hfirm, hbalanced, fun info' n => ?_⟩
    rw [← List.append_nil ('(' :: _)]
    refine (hrereads n).bind (fun nodes' hnodes => runs_pure ?_) (Nat.le_succ n) fun _ _ => trivial
    simp [hnodes]

/-! ## Names and functions -/

theorem eq_or_of_lowerChar {c d : Char} (h : Text.lowerChar c = d) :
    c = d ∨ c = Char.ofNat (d.toNat - 32) := by
  unfold Text.lowerChar at h
  split at h
  next hupper =>
    have hle : c.toNat ≤ 'Z'.toNat := by
      simp only [Bool.and_eq_true, decide_eq_true_eq] at hupper
      exact hupper.2
    have hvalid : (c.toNat + 32).isValidChar :=
      .inl (Nat.lt_of_le_of_lt (Nat.add_le_add_right hle 32) (by decide))
    have hnat : (Char.ofNat (c.toNat + 32)).toNat = c.toNat + 32 := by
      rw [Char.ofNat, dif_pos hvalid]
      rfl
    refine .inr ?_
    rw [← h, hnat, Nat.add_sub_cancel, Char.ofNat_toNat]
  next => exact .inl h

/-- Both cases of the letter can stand in an identifier. -/
def isLetter (d : Char) : Bool :=
  [d, Char.ofNat (d.toNat - 32)].all fun c => CharClass.ofChar c = .identifier && c ≠ '\\'

theorem isLetter_of_lowerChar {c : Char} (h : isLetter (Text.lowerChar c) = true) :
    CharClass.ofChar c = .identifier ∧ c ≠ '\\' := by
  simp only [isLetter, List.all_cons, List.all_nil, Bool.and_true, Bool.and_eq_true,
    decide_eq_true_eq] at h
  rcases eq_or_of_lowerChar (c := c) rfl with hc | hc <;> rw [hc]
  · exact h.1
  · exact h.2

/-- A word of letters, in any case, is one token before what no name goes on with. -/
theorem reads_letters_before (state : ScanState) {w word cs : List Char}
    (h : w.map Text.lowerChar = word) (hword : word.all isLetter = true) (hne : word ≠ [])
    (hcs : ∀ d ∈ cs.head?, IdentifierState.plain.step d = none) : Reads state .ident w cs := by
  have hletter : ∀ c ∈ w, CharClass.ofChar c = .identifier ∧ c ≠ '\\' := fun c hmem =>
    isLetter_of_lowerChar (List.all_eq_true.1 hword _ (h ▸ List.mem_map_of_mem hmem))
  have hrun : ∀ v : List Char, (∀ c ∈ v, CharClass.ofChar c = .identifier ∧ c ≠ '\\') →
      v.foldlM IdentifierState.step .plain = some .plain := by
    intro v hv
    induction v with
    | nil => rfl
    | cons c v ih =>
      have ⟨hclass, hslash⟩ := hv c (.head _)
      have hstep : IdentifierState.step .plain c = some .plain := by
        simp [IdentifierState.step, IdentifierState.stepPlain, hslash, endsIdentifier, hclass]
      rw [List.foldlM_cons, hstep]
      exact ih fun c hmem => hv c (.tail _ hmem)
  cases w with
  | nil => exact absurd h.symm hne
  | cons c v =>
    have ⟨hclass, hslash⟩ := hletter c (.head _)
    have hv : v.foldlM IdentifierState.step (if c = '\\' then .escape else .plain) =
        some .plain := by
      rw [if_neg hslash]
      exact hrun v fun c hmem => hletter c (.tail _ hmem)
    exact .name hclass hv hcs

/-- A word of letters, in any case, is one token before a parenthesis. -/
theorem reads_letters (state : ScanState) {w word : List Char} (cs : List Char)
    (h : w.map Text.lowerChar = word) (hword : word.all isLetter = true) (hne : word ≠ []) :
    Reads state .ident w ('(' :: cs) := by
  refine reads_letters_before state h hword hne fun d hd => ?_
  obtain rfl : '(' = d := Option.some.inj hd
  rfl

/-- Tokens whose characters are one lexeme are one token. -/
theorem exists_token_of_reads {tokens rest : List Token} {cs : List Char}
    (hp : p.Scans (tokens ++ rest)) (htext : p.text = tokenChars tokens ++ cs)
    (hread : Reads p.state .ident (tokenChars tokens) cs) :
    ∃ token, tokens = [token] ∧ token.core = (.ident, tokenChars tokens) := by
  cases tokens with
  | nil => exact absurd rfl hread.ne_nil
  | cons token tokens =>
    have hcores := hp.cores
    rw [htext, hread.coresFrom_append, List.cons_append, List.map_cons, List.cons.injEq] at hcores
    have hchars := congrArg Prod.snd hcores.1
    simp only [Token.core_snd, tokenChars_cons] at hchars
    cases tokens with
    | nil => exact ⟨token, rfl, hcores.1⟩
    | cons token' tokens =>
      have hne := hp.text_ne token' (by simp)
      simp at hchars
      exact absurd hchars.1 hne

theorem letters_of_sameLetters {name word : String} (h : Text.sameLetters name word = true)
    (hword : word.toList.map Text.lowerChar = word.toList) :
    name.toList.map Text.lowerChar = word.toList :=
  (of_decide_eq_true h).trans hword

theorem letters_of_url {name : String} (h : scope.special? name = some .url) :
    name.toList.map Text.lowerChar = "url".toList := by
  refine letters_of_sameLetters ?_ (by decide)
  unfold Scope.special? at h
  grind

theorem letters_of_negation {name : String} (h : scope.special? name = some .negation) :
    name.toList.map Text.lowerChar = "not".toList := by
  refine letters_of_sameLetters ?_ (by decide)
  unfold Scope.special? at h
  grind

theorem after_url {state : ScanState} {w : List Char} (h : w.map Text.lowerChar = ['u', 'r', 'l']) :
    state.after .ident w = { state with afterUrl := true } := by
  simp [ScanState.after, ScanState.isUrlName, h]

/-- The name of a link is one token, and is read again in lower case. -/
theorem url_rereads {tokens rest : List Token} {cs : List Char} (hp : p.Scans (tokens ++ rest))
    (htext : p.text = tokenChars tokens ++ '(' :: cs)
    (hletters : (tokenChars tokens).map Text.lowerChar = ['u', 'r', 'l']) :
    (p.afterAll tokens ('(' :: cs)).state = { p.state with afterUrl := true } ∧
      ∀ n, Rereads n p (p.afterAll tokens ('(' :: cs)) (·.head? = some '(') "url".toList
        (readName false) (· = "url") := by
  have reads_url : ∀ (state : ScanState) {w : List Char} (cs : List Char),
      w.map Text.lowerChar = ['u', 'r', 'l'] → Reads state .ident w ('(' :: cs) :=
    fun state w cs h => reads_letters state cs h (by decide) (by simp)
  have hread := reads_url p.state cs hletters
  have hstate : (p.afterAll tokens ('(' :: cs)).state = { p.state with afterUrl := true } := by
    obtain ⟨token, rfl, hcore⟩ := exists_token_of_reads hp htext hread
    rw [← after_url hletters, Place.afterAll, List.map_singleton, hcore]
    rfl
  refine ⟨hstate, fun n => ⟨fun cs' hcs' => ?_, fun cs' s hcs' hs hlt => ?_⟩⟩
  · obtain ⟨cs', rfl⟩ := List.head?_eq_some_iff.1 hcs'
    rw [Place.Follow, htext]
    refine .of_reads hread (reads_url _ _ rfl) (by simp)
      (fun _ => ⟨by simp [hletters], by decide⟩) ?_
    obtain ⟨c, v, hw, hc, -⟩ := List.map_eq_cons_iff.1 hletters
    rw [hw]
    exact .toLetter (eq_or_of_lowerChar hc)
  · obtain ⟨cs', rfl⟩ := List.head?_eq_some_iff.1 hcs'
    obtain ⟨token, rest', hrest, hcore, hs'⟩ := hs.of_reads (reads_url _ _ rfl)
    have hk : token.kind = .ident := congrArg Prod.fst hcore
    have htoken : token.text = "url" := String.toList_inj.1 (congrArg Prod.snd hcore)
    have hs₁ : ((p.afterAll tokens ('(' :: cs)).put ('(' :: cs')).Scans rest' := by
      rw [Place.put, hstate, ← after_url (w := "url".toList) rfl]
      exact hs'
    obtain ⟨opening, rest₁, rfl, hopening, -⟩ := hs₁.of_sign rfl rfl (by decide)
    have hkind : opening.kind = .leftParen := congrArg Prod.fst hopening
    refine ⟨"url", { s with rest := opening :: rest₁ }, ?_, rfl, hs₁, by simp [hrest]⟩
    refine (readName_eq_ok hs.text_ne).2 ⟨[token], by simp [hrest], rfl, ?_, ?_, ?_⟩
    · simp [htoken, Text.concat]
    · exact ⟨[], token, [], rfl, by simp, by simp, .inr hk, by simp⟩
    · simp [EndsName, isNamePart, hkind]

/-- The name of a function is read again, as it is written. -/
theorem writtenName_rereads {name : String} (scope : Scope) (hp : p.Scans s.rest)
    (h : readName false s = .ok name s') (hparen : s'.rest.head?.map Token.kind = some .leftParen) :
    ∃ p₁ : Place, p₁.Scans s'.rest ∧ p₁.firm = p.firm ∧ Balanced s.rest s'.rest ∧
      (scope.special? name = some .url → p₁.state.afterUrl = true) ∧
      ∀ n, Rereads n p p₁ (fun cs => p₁.Follow cs ∧ cs.head? = some '(')
        (writtenName scope name).toList (readName false) (· = writtenName scope name) := by
  obtain ⟨tokens, cs, hs, hisName, rfl, -, htext, hp₁, hrereads⟩ := readName_rereads hp h
  refine ⟨_, hp₁, rfl, hs ▸ hisName.balanced, ?_⟩
  by_cases hurl : scope.special? (Text.concat (tokens.map Token.text)) = some .url
  · obtain ⟨opening, hmem, hkind⟩ := Option.map_eq_some_iff.1 hparen
    obtain ⟨rest, hrest⟩ := List.head?_eq_some_iff.1 hmem
    rw [hrest] at hp₁
    obtain ⟨cs₁, hcs, -, -, -⟩ := rereads_sign (c := '(') hp₁ hkind rfl rfl (by decide)
    obtain rfl : cs = '(' :: cs₁ := hcs
    have hletters := letters_of_url hurl
    rw [toList_concat_text] at hletters
    obtain ⟨hstate, hrereads⟩ := url_rereads (hs ▸ hp) htext hletters
    rw [writtenName, if_pos hurl]
    refine ⟨fun _ => by rw [hstate], fun n => ⟨fun cs hcs => ?_, fun cs s hcs hs hlt => ?_⟩⟩
    · exact (hrereads n).follow cs hcs.2
    · exact (hrereads n).run cs s hcs.2 hs hlt
  · rw [writtenName, if_neg hurl]
    refine ⟨fun h => absurd h hurl, fun n => ⟨fun cs hcs => ?_, fun cs s hcs hs hlt => ?_⟩⟩
    · exact (hrereads n).follow cs hcs.1
    · exact (hrereads n).run cs s hcs.1 hs hlt

/-- A function or an identifier is read again. -/
theorem named_reprints (hinner : inner.Returns) (hp : p.Scans s.rest) (htidy : Tidy scope s.rest)
    (hquiet : Quiet scope tree) (h : named inner scope s = .ok tree s') :
    Reprints p s tree s' fun n => named (.upTo n) scope := by
  rw [named, here_bind_run] at h
  obtain ⟨name, s₁, hname, h⟩ := bind_eq_ok.1 h
  rw [isAt_bind_run] at h
  by_cases hparen : s₁.rest.head?.map Token.kind = some .leftParen
  · simp only [hparen, decide_true, if_true] at h
    obtain ⟨p₁, hp₁, hfirm₁, hbalanced₁, hurl, hrereads⟩ :=
      writtenName_rereads scope hp hname hparen
    obtain ⟨w, p', hcompact, hp', hfirm, hbalanced, hcalls⟩ :=
      function_calls hinner hp₁ (hbalanced₁.tidy htidy) hquiet hurl h
    have hnext : ∀ cs, p₁.Follow (w ++ cs) ∧ (w ++ cs).head? = some '(' := by
      intro cs
      have hfollow := (hcalls none 0).follow cs trivial
      refine ⟨hfollow, hfollow.head?_eq hp₁ hparen rfl rfl rfl⟩
    rw [Reprints, hcompact]
    refine ⟨p', hp', hfirm.trans hfirm₁, .trans hbalanced₁ hbalanced, fun n => ⟨?_, ?_⟩⟩
    · intro cs _
      rw [List.append_assoc]
      exact (hrereads n).follow _ (hnext cs)
    · intro cs s₂ _ hs₂ hlt
      rw [List.append_assoc] at hs₂
      obtain ⟨_, s₃, hrun, rfl, hs₃, hlt₃⟩ := (hrereads n).run _ s₂ (hnext cs) hs₂ hlt
      obtain ⟨tree', s₄, hrun', hbare, hs₄, hlt₄⟩ :=
        (hcalls (s₂.rest.head?.map Token.start) n).run cs s₃ trivial hs₃ (by omega)
      refine ⟨tree', s₄, ?_, hbare, hs₄, by omega⟩
      have hopen := (head?_kind_iff_of_peek_eq ((hnext cs).1.peek_eq hp₁ hs₃) rfl).1 hparen
      show named (.upTo n) scope s₂ = _
      rw [named, here_bind_run, bind_of_ok hrun, isAt_bind_run]
      simp only [hopen, decide_true, if_true]
      exact hrun'
  · simp only [hparen, decide_false, Bool.false_eq_true, if_false] at h
    obtain ⟨rfl, rfl⟩ := EStateM.Result.ok.inj h
    obtain ⟨tokens, cs, hs, hisName, rfl, hends, -, -, -⟩ := readName_rereads hp hname
    refine reprints_of_verbatim _ hp hs hisName.ne_nil (fun token hmem => ?_) ?_ ?_
    · rcases hisName.kinds token hmem with hk | hk | hk | hk <;> simp [hk]
    · simp [Node.leafMarks, toList_concat_text]
    · intro n s₂ front rest hs₂ hcore hpeek hne
      have hparen' : rest.head?.map Token.kind ≠ some .leftParen :=
        fun h => hparen ((head?_kind_iff_of_peek_eq hpeek rfl).2 h)
      refine ⟨.leaf (s₂.rest.head?.map Token.start) .identifier
        (Text.concat (tokens.map Token.text)), ?_, by simp⟩
      rw [named, here_bind_run, bind_of_ok (readName_congr hisName hends hs₂ hcore hpeek hne),
        isAt_bind_run]
      simp only [hparen', decide_false, Bool.false_eq_true, if_false, run_pure]

/-! ## Components -/

/-- The kinds of tokens that a number or a sign can start with. -/
def startsNumber : TokenKind → Bool
  | .fullStop | .number | .hyphenMinus | .plus => true
  | _ => false

/-- A component that starts with a sign and not with a number: a name or the sign. -/
def signOrName (inner : Nested) (scope : Scope) : Parser Tree := do
  let nameFollows := (← lookupKind 1 .ident) || (← lookupKind 1 .hyphenMinus)
  match ← kind? with
  | some .hyphenMinus => if nameFollows then named inner scope else operator
  | some .plus => operator
  | _ => fail .unexpectedInput

/-- A component that starts the way numbers do. -/
def signedComponent (inner : Nested) (scope : Scope) : Parser Tree := do
  let info ← here
  match ← readNumber? with
  | some number => measured info number
  | none => signOrName inner scope

theorem component_eq (inner : Nested) (scope : Scope) : component inner scope = (do
    match ← kind? with
    | some .string => tokenLeaf .string
    | some .lowLine | some .ident => named inner scope
    | some .fullStop | some .number | some .hyphenMinus | some .plus => signedComponent inner scope
    | _ => fail .unexpectedInput) :=
  rfl

theorem readNumber?_of_some {count : Nat} (h : numberLength? s.rest = some count) :
    readNumber? s = .ok (some (Text.concat ((s.rest.take count).map Token.text)))
      { s with rest := s.rest.drop count } := by
  rw [readNumber?, get_bind_run, h]
  rfl

theorem readNumber?_of_none (h : numberLength? s.rest = none) : readNumber? s = .ok none s := by
  rw [readNumber?, get_bind_run, h]
  rfl

theorem component_of_number {count : Nat} (h : numberLength? s.rest = some count) :
    component inner scope s = measured (s.rest.head?.map Token.start)
      (Text.concat ((s.rest.take count).map Token.text)) { s with rest := s.rest.drop count } := by
  obtain ⟨token, hmem, hk⟩ : ∃ token, s.rest.head? = some token ∧ (token.kind = .hyphenMinus ∨
      token.kind = .number ∨ token.kind = .fullStop) := by
    obtain ⟨k, rfl⟩ := Nat.exists_eq_add_one.2 (numberLength?_pos h)
    have hle := numberLength?_le h
    have hkinds := numberLength?_kinds h
    generalize s.rest = tokens at *
    cases tokens with
    | nil => exact absurd hle (by simp)
    | cons token rest => exact ⟨token, rfl, hkinds token (by simp)⟩
  rw [component, kind?_bind_run, hmem, Option.map_some]
  rcases hk with hk | hk | hk <;>
    simp only [hk, here_bind_run, bind_of_ok (readNumber?_of_some h), hmem]

theorem component_readsNumbers (scope : Scope) :
    ReadsNumbers fun n => component (.upTo n) scope :=
  fun _ _ _ h => component_of_number h

/-- What a component is where no number stands. -/
theorem component_of_sign (hs : s.rest = token :: rest) (hk : startsNumber token.kind = true)
    (h : numberLength? s.rest = none) : component inner scope s =
      if token.kind = .hyphenMinus then
        if rest.head?.map Token.kind = some .ident ∨
          rest.head?.map Token.kind = some .hyphenMinus then
          named inner scope s
        else operator s
      else if token.kind = .plus then operator s else fail .unexpectedInput s := by
  have hmem : s.rest.head? = some token := by rw [hs]; rfl
  have hnext : s.rest[1]?.map Token.kind = rest.head?.map Token.kind := by
    rw [hs, List.getElem?_cons_succ, List.head?_eq_getElem?]
  rw [component, kind?_bind_run, hmem, Option.map_some]
  cases hkind : token.kind with
  | fullStop | number | hyphenMinus | plus =>
    simp only [here_bind_run, bind_of_ok (readNumber?_of_none h), lookupKind_bind_run, hnext,
      kind?_bind_run, hmem, Option.map_some, hkind, Bool.or_eq_true, decide_eq_true_eq,
      reduceCtorEq, if_true, if_false]
    try split <;> rfl
  | _ => rw [hkind] at hk; cases hk

/-- No token is a low line on its own. -/
theorem ne_lowLine_of_scans (hp : p.Scans s.rest) : ∀ token ∈ s.rest, token.kind ≠ .lowLine := by
  generalize s.rest = tokens at hp
  induction tokens generalizing p with
  | nil => simp
  | cons token tokens ih =>
    obtain ⟨cs, -, hread, hp'⟩ := hp.cons
    intro other hmem
    rcases List.mem_cons.1 hmem with rfl | hmem
    · intro hk
      rw [hk] at hread
      generalize other.text.toList = w at hread
      cases hread with
      | sign hc hsign =>
        cases char?_of_ofChar? hsign
        exact nomatch hc
    · exact ih hp' other hmem

/-- A name that a hyphen starts is a component. -/
theorem component_of_named (hp : p.Scans s.rest)
    (hhyphen : s.rest.head?.map Token.kind = some .hyphenMinus)
    (h : named inner scope s = .ok tree s') : component inner scope s = .ok tree s' := by
  have hrun := h
  rw [named, here_bind_run] at hrun
  obtain ⟨name, s₁, hname, -⟩ := bind_eq_ok.1 hrun
  obtain ⟨tokens, hs, -, -, ⟨hyphens, first, more, rfl, hlength, hhyphens, hfirst, -⟩, -⟩ :=
    (readName_eq_ok hp.text_ne).1 hname
  have hident : first.kind = .ident :=
    hfirst.resolve_left (ne_lowLine_of_scans hp first (by simp [hs]))
  obtain ⟨hyphen, hk, hs⟩ : ∃ hyphen, hyphen.kind = .hyphenMinus ∧
      s.rest = hyphen :: first :: (more ++ s₁.rest) := by
    match hyphens, hlength with
    | [], _ => simp [hs, hident] at hhyphen
    | [hyphen], _ => exact ⟨hyphen, hhyphens hyphen (.head _), by simp [hs]⟩
  have hnumber : numberLength? s.rest = none := by
    rw [hs, numberLength?_hyphen hk]
    simp [peek, hident, TokenKind.isNeutral]
  rw [component_of_sign hs (by rw [hk]; rfl) hnumber, if_pos hk, if_pos (by simp [hident]), h]

/-- A hyphen or a plus sign that stands alone is read again. -/
theorem component_reprints_of_operator (hp : p.Scans s.rest) (hs : s.rest = token :: rest)
    (hk : token.kind = .hyphenMinus ∨ token.kind = .plus) (hnumber : numberLength? s.rest = none)
    (hname : token.kind = .hyphenMinus → ¬(rest.head?.map Token.kind = some .ident ∨
      rest.head?.map Token.kind = some .hyphenMinus)) (h : operator s = .ok tree s') :
    Reprints p s tree s' fun n => component (.upTo n) scope := by
  have hs' : s.rest = [token] ++ rest := hs
  rw [operator, tokenLeaf_eq hs, EStateM.Result.ok.injEq] at h
  obtain ⟨rfl, rfl⟩ := h
  refine reprints_of_verbatim _ hp hs' (by simp) ?_ (by simp [Node.leafMarks]) ?_
  · rcases hk with hk | hk <;> simp [hk]
  · intro n s₁ front rest' hs₁ hcore hpeek _
    obtain ⟨token', rfl, hcore'⟩ := exists_of_map_core_singleton hcore
    have hk' := Token.kind_eq_of_core hcore'
    have hs₁' : s₁.rest = token' :: rest' := hs₁
    have hnumber' : numberLength? s₁.rest = none := by
      rcases hk with hk | hk
      · rw [hs, numberLength?_hyphen hk, hpeek] at hnumber
        rwa [hs₁', numberLength?_hyphen (hk'.trans hk)]
      · rw [hs₁', numberLength?_plus (hk'.trans hk)]
    have hrun : component (.upTo n) scope s₁ = operator s₁ := by
      rcases hk with hk | hk
      · rw [component_of_sign hs₁' (by rw [hk', hk]; rfl) hnumber', if_pos (hk'.trans hk), if_neg]
        rintro (hnext | hnext)
        · exact hname hk (.inl ((head?_kind_iff_of_peek_eq hpeek rfl).2 hnext))
        · exact hname hk (.inr ((head?_kind_iff_of_peek_eq hpeek rfl).2 hnext))
      · rw [component_of_sign hs₁' (by rw [hk', hk]; rfl) hnumber', if_neg (by simp [hk', hk]),
          if_pos (hk'.trans hk)]
    refine ⟨_, hrun.trans (tokenLeaf_eq hs₁'), ?_⟩
    rw [Node.bare_leaf, Node.bare_leaf, Token.text_eq_of_core hcore']

/-- What starts with a hyphen, a plus sign, a full stop or digits is read again. -/
theorem component_reprints_of_sign (hinner : inner.Returns) (hp : p.Scans s.rest)
    (htidy : Tidy scope s.rest) (hquiet : Quiet scope tree) (hs : s.rest = token :: rest)
    (hsign : startsNumber token.kind = true) (h : component inner scope s = .ok tree s') :
    Reprints p s tree s' fun n => component (.upTo n) scope := by
  cases hnumber : numberLength? s.rest with
  | some count =>
    rw [component_of_number hnumber] at h
    refine measured_reprints (component_readsNumbers scope) hp
      (List.take_append_drop count s.rest).symm ?_ h
    rw [List.take_append_drop, List.length_take, Nat.min_eq_left (numberLength?_le hnumber),
      hnumber]
  | none =>
    rw [component_of_sign hs hsign hnumber] at h
    split at h
    next hk =>
      split at h
      next hnext =>
        refine (named_reprints hinner hp htidy hquiet h).congr
          fun n cs s₁ tree' s₂ hfollow hs₁ => ?_
        refine component_of_named hs₁
          ((head?_kind_iff_of_peek_eq (hfollow.peek_eq hp hs₁) rfl).1 ?_)
        rw [hs, List.head?_cons, Option.map_some, hk]
      next hnext => exact component_reprints_of_operator hp hs (.inl hk) hnumber (fun _ => hnext) h
    next hk =>
      split at h
      next hplus =>
        exact component_reprints_of_operator hp hs (.inr hplus) hnumber (fun h => absurd h hk) h
      next => exact (fail_ne_ok.1 h).elim

/-- What a component is where neither a number nor a sign stands. -/
theorem component_of_kind (hs : s.rest = token :: rest) (hk : startsNumber token.kind = false) :
    component inner scope s = if token.kind = .string then tokenLeaf .string s
      else if token.kind = .ident ∨ token.kind = .lowLine then named inner scope s
      else fail .unexpectedInput s := by
  rw [component, kind?_bind_run, hs, List.head?_cons, Option.map_some]
  cases hkind : token.kind <;> first | rfl | (rw [hkind] at hk; exact absurd hk (by decide))

/-- A component is read again. -/
theorem component_reprints (hinner : inner.Returns) (hp : p.Scans s.rest)
    (htidy : Tidy scope s.rest) (hquiet : Quiet scope tree)
    (h : component inner scope s = .ok tree s') :
    IsSeen s ∧ Reprints p s tree s' fun n => component (.upTo n) scope := by
  cases hs : s.rest with
  | nil => simp [component, hs] at h
  | cons token rest =>
    by_cases hsign : startsNumber token.kind = true
    · refine ⟨⟨token, rest, hs, ?_⟩,
        component_reprints_of_sign hinner hp htidy hquiet hs hsign h⟩
      cases hk : token.kind <;> first | rfl | (rw [hk] at hsign; cases hsign)
    rw [component_of_kind hs (by simpa using hsign)] at h
    split at h
    next hk =>
      have hseen : token.kind.isNeutral = false := by rw [hk]; rfl
      refine ⟨⟨token, rest, hs, hseen⟩, ?_⟩
      refine (tokenLeaf_reprints hp hs rfl (by simp [hk]) h).of_kind hp hs hseen ?_
      intro n s₁ token' rest' hs₁ hk'
      rw [component_of_kind hs₁ (by simpa [hk'] using hsign), hk', if_pos hk]
    next hk =>
      split at h
      next hname =>
        have hseen : token.kind.isNeutral = false := by rcases hname with h | h <;> rw [h] <;> rfl
        refine ⟨⟨token, rest, hs, hseen⟩, ?_⟩
        refine (named_reprints hinner hp htidy hquiet h).of_kind hp hs hseen ?_
        intro n s₁ token' rest' hs₁ hk'
        rw [component_of_kind hs₁ (by simpa [hk'] using hsign), hk', if_neg hk, if_pos hname]
      next => exact (fail_ne_ok.1 h).elim

/-! ## Brackets -/

/-- The signs that stand as operators in brackets. -/
def isBracketOperator : TokenKind → Bool
  | .solidus | .asterisk | .comma | .colon => true
  | _ => false

theorem bracketPart_eq_add (inner : Nested) (scope : Scope) {closing : TokenKind}
    (hclosing : token.kind ≠ closing) (hspace : token.kind ≠ .whitespace)
    (hcomment : token.kind ≠ .comment) : bracketPart inner scope closing token =
      add (partReader (inner.component scope) (inner.brackets scope) isBracketOperator
        token.kind) := by
  rw [bracketPart, if_neg hclosing]
  cases hk : token.kind <;> first | rfl | exact absurd hk ‹_›

theorem bracketPart_eq_stop {closing : TokenKind}
    (h : bracketPart inner scope closing token s = .ok .stop s') :
    s' = s ∧ token.kind = closing := by
  by_cases hclosing : token.kind = closing
  · rw [bracketPart, if_pos hclosing] at h
    exact ⟨(EStateM.Result.ok.inj h).2.symm, hclosing⟩
  by_cases hspace : token.kind = .whitespace
  · rw [bracketPart, if_neg hclosing, hspace] at h
    exact absurd h add_ne_stop
  by_cases hcomment : token.kind = .comment
  · rw [bracketPart, if_neg hclosing, hcomment] at h
    exact nomatch h
  rw [bracketPart_eq_add inner scope hclosing hspace hcomment] at h
  exact absurd h add_ne_stop

/-- What a round reads of a bracketed sequence is read again. -/
theorem bracketPart_again {closing : TokenKind} (hinner : inner.Returns)
    (hs : s.rest = token :: rest) (hp : p.Scans s.rest) (htidy : Tidy scope s.rest)
    (hquiet : ∀ node ∈ nodes, Quiet scope node) {st : Unit}
    (h : bracketPart inner scope closing token s = .ok (.next nodes st) s') :
    RoundAgain (fun k _ token => bracketPart (.upTo (k + 1)) scope closing token) p () s nodes ()
      s' := by
  have hcomment : token.kind ≠ .comment := htidy.noComments token (by simp [hs])
  have hopen : token.kind ≠ closing := by
    intro hk
    rw [bracketPart, if_pos hk] at h
    exact nomatch h
  by_cases hspace : token.kind = .whitespace
  · rw [bracketPart, if_neg hopen, hspace] at h
    obtain ⟨hnext, rfl⟩ := EStateM.Result.ok.inj ((add_space hs).symm.trans h)
    obtain ⟨rfl, -⟩ := Round.next.inj hnext
    refine .space hs hspace fun k s' token' rest' hs' hk => ?_
    rw [bracketPart, if_neg (by rwa [hk, ← hspace]), hk]
    exact add_space hs'
  rw [bracketPart_eq_add inner scope hopen hspace hcomment] at h
  obtain ⟨node, rfl, hread⟩ := add_eq_next h
  refine partReader_again (fun k => component (.upTo k) scope) (fun k => brackets (.upTo k) scope)
    hp hs hspace ?_ ?_ ?_ ?_ hread
  · intro kind h
    cases kind <;> first | rfl | exact nomatch h
  · exact hinner.component hp htidy (hquiet node (.head _))
  · exact hinner.brackets hp htidy (hquiet node (.head _))
  · intro k token' s hk
    rw [bracketPart_eq_add _ _ (hk ▸ hopen) (hk ▸ hspace) (hk ▸ hcomment), hk]
    rfl

/-- A sequence between an opening and a closing sign. -/
private def bracketed (inner : Nested) (scope : Scope) (opening closing : TokenKind) (o c : Char)
    (info : Option Nat) : Parser Tree := do
  expect opening
  skipGaps
  let parts ← many (bracketPart inner scope closing)
  expect closing
  return .sequence info (.braces o c) (dropTrailingSpaces parts)

/-- The two kinds of brackets. -/
private def IsPair (opening closing : TokenKind) (o c : Char) : Prop :=
  opening = .leftParen ∧ closing = .rightParen ∧ o = '(' ∧ c = ')' ∨
    opening = .leftBracket ∧ closing = .rightBracket ∧ o = '[' ∧ c = ']'

/-- The rounds of a bracketed sequence read a row of parts. -/
theorem bracketParts {closing : TokenKind} (hinner : inner.Returns)
    (h : Rounds (fun _ token => bracketPart inner scope closing token) () s nodes () s')
    (hp : p.Scans s.rest) (htidy : Tidy scope s.rest) (hquiet : ∀ node ∈ nodes, Quiet scope node) :
    ∃ p' : Place, p'.Scans s'.rest ∧ p'.firm = p.firm ∧ Balanced s.rest s'.rest ∧
      ∀ k, Parts k (fun _ token => bracketPart (.upTo (k + 1)) scope closing token)
        () p nodes () p' := by
  obtain ⟨front, back, ⟨⟩, s₁, p₁, rfl, hp₁, hfirm, hbalanced, -, hparts, hend⟩ :=
    parts_of_rounds (fun _ token => bracketPart inner scope closing token) _
      (fun _ tokens => Tidy scope tokens) (Quiet scope)
      (fun token => token.kind = closing) (fun _ => False) bracketPart_eq_stop
      (fun hs hp htidy hquiet _ h =>
        and_tidy_of_again (bracketPart_again hinner hs hp htidy hquiet h) htidy) h hp htidy hquiet
  rcases hend with ⟨rfl, -, rfl, -⟩ | ⟨⟨_, _, _, hfalse⟩, _⟩
  · rw [List.append_nil]
    exact ⟨p₁, hp₁, hfirm, hbalanced, hparts⟩
  · exact hfalse.elim

theorem compact_braces (info : Option Nat) (o c : Char) (nodes : List Tree) :
    (Node.sequence info (.braces o c) nodes).compact = o :: (rowChars nodes ++ [c]) := by
  simp [Node.compact_sequence, Node.sequenceMarks, Node.map_piece_false, rowChars]

/-- What the scanner makes of two brackets. -/
private structure PairSigns (opening closing : TokenKind) (o c : Char) : Prop where
  open_class : CharClass.ofChar o = .punctuator
  open_kind : TokenKind.ofChar? o = some opening
  open_ne : o ≠ '/' ∧ o ≠ '.'
  afterUrl : ∀ state : ScanState, (state.after opening [o]).afterUrl = false
  close_class : CharClass.ofChar c = .punctuator
  close_kind : TokenKind.ofChar? c = some closing
  close_ne : c ≠ '/' ∧ c ≠ '.'
  close_break : isBreak c = true

private theorem IsPair.signs {opening closing : TokenKind} {o c : Char}
    (h : IsPair opening closing o c) : PairSigns opening closing o c := by
  rcases h with ⟨rfl, rfl, rfl, rfl⟩ | ⟨rfl, rfl, rfl, rfl⟩ <;>
    exact ⟨rfl, rfl, by decide, fun _ => rfl, rfl, rfl, by decide, rfl⟩

private theorem IsPair.balanced {opening closing : TokenKind} {o c : Char} {first last : Token}
    {tokens : List Token} (h : IsPair opening closing o c) (hfirst : first.kind = opening)
    (hlast : last.kind = closing) (hinner : Balanced tokens (last :: rest)) :
    Balanced (first :: tokens) rest := by
  rcases h with ⟨rfl, rfl, -, -⟩ | ⟨rfl, rfl, -, -⟩
  · exact .group hfirst hlast hinner
  · exact .trans (.token (by simp [hfirst]) (by simp [hfirst]))
      (.trans hinner (.token (by simp [hlast]) (by simp [hlast])))

/-- The parts are read again before the bracket that closes; spaces at their end are not written. -/
private theorem PairSigns.runs_parts {opening closing : TokenKind} {o c : Char}
    {p' : Place} {k : Nat}
    (hsigns : PairSigns opening closing o c) (hfollow : ∀ cs, p'.Follow (c :: cs))
    (hparts : Parts k (fun _ token => bracketPart (.upTo (k + 1)) scope closing token) () p nodes ()
      p') :
    Runs k p p' (·.head? = some c) (rowChars (dropTrailingSpaces nodes))
      (many (bracketPart (.upTo (k + 1)) scope closing))
      fun nodes' => nodes'.map Node.bare = (dropTrailingSpaces nodes).map Node.bare := by
  intro cs s hcs hs hlt
  obtain ⟨cs, rfl⟩ := List.head?_eq_some_iff.1 hcs
  obtain ⟨nodes', s', hbare, hs', hle, hloop⟩ :=
    hparts.run (by simpa using hsigns.close_break) (hfollow cs) hs hlt
  obtain ⟨token, rest, hrest, hcore, -⟩ :=
    hs'.of_sign hsigns.close_class hsigns.close_kind hsigns.close_ne.1
  have hkind : token.kind = closing := congrArg Prod.fst hcore
  have hstop : bracketPart (.upTo (k + 1)) scope closing token s' = .ok .stop s' := by
    rw [bracketPart, if_pos hkind]
    rfl
  have hrun := (hloop [] () s' (.stop hrest hstop)).many_eq
  rw [List.append_nil] at hrun
  exact ⟨nodes', s', hrun, hbare, hs', by omega⟩

private theorem brackets_eq (inner : Nested) (scope : Scope) {opening closing : TokenKind}
    {o c : Char} (hpair : IsPair opening closing o c)
    (h : s.rest.head?.map Token.kind = some opening) : brackets inner scope s =
      bracketed inner scope opening closing o c (s.rest.head?.map Token.start) s := by
  rcases hpair with ⟨rfl, rfl, rfl, rfl⟩ | ⟨rfl, rfl, rfl, rfl⟩ <;>
    simp [brackets, bracketed, expect, h, ite_bind]

private theorem bracketed_rereads {opening closing : TokenKind} {o c : Char}
    (hpair : IsPair opening closing o c) (hinner : inner.Returns) (hp : p.Scans s.rest)
    (htidy : Tidy scope s.rest) (hquiet : Quiet scope tree)
    (h : bracketed inner scope opening closing o c info s = .ok tree s') :
    ∃ p' : Place, p'.Scans s'.rest ∧ p'.firm = p.firm ∧ Balanced s.rest s'.rest ∧
      ∀ info' n, Rereads n p p' (fun _ => True) tree.compact
        (bracketed (.upTo n) scope opening closing o c info')
          fun tree' => tree'.bare = tree.bare := by
  obtain ⟨_, _, hopen, h⟩ := bind_eq_ok.1 h
  obtain ⟨first, rest, hs, hkind, rfl⟩ := expect_eq_ok.1 hopen
  rw [skipGaps_bind_run] at h
  obtain ⟨parts, s₁, hmany, h⟩ := bind_eq_ok.1 h
  obtain ⟨_, _, hclose, h⟩ := bind_eq_ok.1 h
  obtain ⟨last, rest', hs', hkind', rfl⟩ := expect_eq_ok.1 hclose
  obtain ⟨rfl, rfl⟩ := EStateM.Result.ok.inj h
  have hsigns := hpair.signs
  rw [hs] at hp htidy
  obtain ⟨cs₁, -, hp₁, hstate, hsign⟩ :=
    rereads_sign hp hkind hsigns.open_class hsigns.open_kind hsigns.open_ne
  obtain ⟨p₂, hp₂, -, hfirm₂, hbalanced₂, hstate₂, -⟩ := hp₁.skipGaps htidy.tail.noComments
  replace hstate₂ := hstate₂ (by rw [← hstate]; exact hsigns.afterUrl p.state)
  obtain ⟨p₃, hp₃, hfirm₃, hbalanced₃, hparts⟩ :=
    bracketParts (s := ⟨rest.dropWhile isGap, s.discarded⟩) hinner (rounds_of_many hmany) hp₂
      (hbalanced₂.tidy htidy.tail)
      (quiet_of_dropTrailingSpaces (hquiet.child fun _ => .inr ⟨o, c, rfl⟩))
  rw [hs'] at hp₃ hbalanced₃
  have hbreak : ∀ cs, ∀ d ∈ (c :: cs).head?, isBreak d = true :=
    fun cs => by simpa using hsigns.close_break
  have hfollow₃ : ∀ cs, p₃.Follow (c :: cs) := fun cs =>
    follow_of_isBreak hp₃ hkind' (char?_of_ofChar? hsigns.close_kind) hsigns.close_break (hbreak cs)
  obtain ⟨cs₃, -, hp', -, hsign'⟩ :=
    rereads_sign hp₃ hkind' hsigns.close_class hsigns.close_kind hsigns.close_ne
  rw [compact_braces]
  refine ⟨_, hp', hfirm₃.trans hfirm₂, ?_, fun info' n => ?_⟩
  · rw [hs]
    exact hpair.balanced hkind hkind' (.trans hbalanced₂ hbalanced₃)
  · refine (hsign n).bind_nested (v := rowChars (dropTrailingSpaces parts) ++ [c])
      (f := fun n _ => do
        skipGaps
        let parts ← many (bracketPart (.upTo n) scope closing)
        expect closing
        return Node.sequence info' (.braces o c) (dropTrailingSpaces parts)) (fun k _ _ => ?_)
      fun _ _ => trivial
    have hmany := hsigns.runs_parts hfollow₃ (hparts k)
    refine Runs.skipGaps
      ((hmany.bind (fun parts' hparts' => ?_) fun cs _ => rfl).of_state_eq hstate₂)
      fun cs tokens _ hs => ?_
    · refine (hsign' k).runs.bind (v := []) (fun _ _ => runs_pure ?_) fun _ _ => trivial
      simp [dropTrailingSpaces_of_bare_eq hparts', hparts']
    · rw [List.append_assoc] at hs
      refine ((hparts k).follow (hbreak cs) (hfollow₃ cs)).noGap hp₂ ?_ (noGap_dropWhile rest)
      rwa [Place.put, hstate₂]

/-- A bracketed sequence is read again. -/
theorem brackets_reprints (hinner : inner.Returns) (hp : p.Scans s.rest) (htidy : Tidy scope s.rest)
    (hquiet : Quiet scope tree) (hopen : s.rest.head?.map Token.kind = some .leftParen ∨
      s.rest.head?.map Token.kind = some .leftBracket) (h : brackets inner scope s = .ok tree s') :
    Reprints p s tree s' fun n => brackets (.upTo n) scope := by
  have key : ∀ opening closing o c, IsPair opening closing o c →
      s.rest.head?.map Token.kind = some opening → opening.isNeutral = false →
      Reprints p s tree s' fun n => brackets (.upTo n) scope := by
    intro opening closing o c hpair hkind hseen
    rw [brackets_eq inner scope hpair hkind] at h
    obtain ⟨p', hp', hfirm, hbalanced, hrereads⟩ := bracketed_rereads hpair hinner hp htidy hquiet h
    refine ⟨p', hp', hfirm, hbalanced,
      fun n => ⟨fun cs _ => (hrereads none n).follow cs trivial, ?_⟩⟩
    intro cs s₁ _ hs₁ hlt
    have hkind' := (head?_kind_iff_of_peek_eq
      (((hrereads none n).follow cs trivial).peek_eq hp hs₁) hseen).1 hkind
    simp only [brackets_eq _ scope hpair hkind']
    exact (hrereads _ n).run cs s₁ trivial hs₁ hlt
  rcases hopen with hopen | hopen
  · exact key _ _ _ _ (.inl ⟨rfl, rfl, rfl, rfl⟩) hopen rfl
  · exact key _ _ _ _ (.inr ⟨rfl, rfl, rfl, rfl⟩) hopen rfl

end StyleTree.Grammar
