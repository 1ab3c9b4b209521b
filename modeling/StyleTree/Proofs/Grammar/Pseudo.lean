import StyleTree.Proofs.Grammar.Sheet
import StyleTree.Proofs.Tree.Walk

/-! Functional pseudo-classes and negations as parts of a selector. The name of a call is read again
before its parenthesis (`NameAgain`), and what stands in the parentheses is: the entries of a
negation (`negation_calls`), and arguments in which nothing is written with a colon of its own
(`arguments_echoes`). So a selector is read again from its text, however deep calls are nested
(`selectorReturns_upTo`, `parse_toCss_of_parse_simpleSelector`), unless a colon is written where
none was read or the other way round (`Node.keepsColons`). -/

namespace StyleTree

open StyleTree.Parser StyleTree.Grammar

/-! ## Colons of calls -/

namespace Node

variable {ι κ : Type}

/-- Whether no entry of a negation is blank. -/
def hasEntries : Node ι → Bool
  | .sequence _ .negation entries => entries.all fun entry => !entry.children.isEmpty
  | _ => true

theorem isPseudoCall_mapInfo (f : ι → Option κ) (node : Node ι) :
    (node.mapInfo f).isPseudoCall = node.isPseudoCall := by
  cases node with
  | sequence info kind => cases kind <;> rfl
  | _ => rfl

theorem isLink_mapInfo (f : ι → Option κ) (node : Node ι) :
    (node.mapInfo f).isLink = node.isLink := by
  cases node with
  | wrapper info kind => cases kind <;> rfl
  | _ => rfl

theorem keepsColons_mapInfo (f : ι → Option κ) (node : Node ι) :
    (node.mapInfo f).keepsColons = node.keepsColons := by
  cases node with
  | sequence info kind nodes =>
    cases kind <;> simp only [mapInfo, mapInfoAll_eq_map, keepsColons, List.all_map,
      Function.comp_def, isLink_mapInfo, isPseudoCall_mapInfo]
  | _ => rfl

theorem hasEntries_mapInfo (f : ι → Option κ) (node : Node ι) :
    (node.mapInfo f).hasEntries = node.hasEntries := by
  cases node with
  | sequence info kind nodes =>
    cases kind <;> simp only [mapInfo, mapInfoAll_eq_map, hasEntries, List.all_map,
      Function.comp_def, children_mapInfo, List.isEmpty_map]
  | _ => rfl

/-- In the whole tree, colons of calls are written where they were read, and no entry of a negation
is blank. -/
structure CallsKept (tree : Node ι) : Prop where
  colons : ∀ node ∈ tree.preorder, node.keepsColons = true
  entries : ∀ node ∈ tree.preorder, node.hasEntries = true

theorem CallsKept.child {tree child : Node ι} (h : tree.CallsKept)
    (hchild : child ∈ tree.children) :
    child.CallsKept where
  colons node hmem := h.colons node (mem_preorder.2 (.inr ⟨child, hchild, hmem⟩))
  entries node hmem := h.entries node (mem_preorder.2 (.inr ⟨child, hchild, hmem⟩))

theorem CallsKept.of_mapInfo {tree : Node ι} {f : ι → Option κ} (h : (tree.mapInfo f).CallsKept) :
    tree.CallsKept where
  colons node hmem := by
    rw [← keepsColons_mapInfo f]
    exact h.colons _ (preorder_mapInfo f tree ▸ List.mem_map_of_mem hmem)
  entries node hmem := by
    rw [← hasEntries_mapInfo f]
    exact h.entries _ (preorder_mapInfo f tree ▸ List.mem_map_of_mem hmem)

end Node

namespace Grammar

variable {inner : Nested} {nested : Bool} {p : Place} {s s' : ParserState} {token : Token}
  {tokens rest : List Token} {tree : Tree} {nodes : List Tree} {info : Option Nat}

/-- A part of a selector that is no link, with the calls below it kept. -/
def IsKeptPart (node : Tree) : Prop :=
  node.isLink = false ∧ node.CallsKept

/-- The tokens that texts with calls are made of: no comments, square brackets and bars, and nothing
that opens a series of places. -/
structure IsCallToken (token : Token) : Prop where
  noComment : token.kind ≠ .comment
  noBracket : token.kind ≠ .leftBracket
  noBar : token.kind ≠ .verticalLine
  noNth : token.kind = .ident → token.spells "nth" = false

/-- All tokens are ones that texts with calls are made of. -/
def AreCallTokens (tokens : List Token) : Prop :=
  ∀ token ∈ tokens, IsCallToken token

/-! ## Names of calls -/

/-- The name, written as `w`, is read again before a parenthesis, and it names neither a
pseudo-element nor a series of places. -/
def NameAgain (p p' : Place) (w : List Char) (name : String) : Prop :=
  ∀ (cs : List Char) (s : ParserState), p'.Follow ('(' :: cs) →
    (p.put (w ++ '(' :: cs)).Scans s.rest →
    ∃ first rest s', s.rest = first :: rest ∧ first.kind ≠ .colon ∧
      (first.kind = .ident → first.spells "nth" = false) ∧ readName false s = .ok name s' ∧
      (p'.put ('(' :: cs)).Scans s'.rest ∧ s'.rest.length < s.rest.length

/-- A name whose first token is no `nth` is read again as it stands. -/
theorem nameAgain_of_isName {cs : List Char} (hp : p.Scans (tokens ++ rest))
    (htext : p.text = tokenChars tokens ++ cs) (hname : IsName false tokens)
    (hnth : ∀ token ∈ tokens, token.kind = .ident → token.spells "nth" = false) :
    NameAgain p (p.afterAll tokens cs) (tokenChars tokens)
      (Text.concat (tokens.map Token.text)) := by
  intro cs' s hfollow hs
  obtain ⟨tokens', rest', hrest, hcore, hs'⟩ :=
    (hp.verbatim htext (fun token hmem => .inl (hname.last token hmem)) hfollow).2 _ hs
  obtain ⟨opening, rest'', rfl, hopening, -⟩ := hs'.of_sign rfl rfl (by decide)
  have hk : opening.kind = .leftParen := congrArg Prod.fst hopening
  have hname' : IsName false tokens' := hname.congr hcore
  obtain ⟨first, more, rfl⟩ := List.exists_cons_of_ne_nil hname'.ne_nil
  obtain ⟨first', more', rfl, hfirst, -⟩ := List.map_eq_cons_iff.1 hcore.symm
  refine ⟨first, more ++ opening :: rest'', { s with rest := opening :: rest'' }, hrest, ?_, ?_,
    ?_, hs', ?_⟩
  · rcases hname'.kinds first (.head _) with hk | hk | hk | hk <;> simp [hk]
  · rw [Token.kind_eq_of_core hfirst.symm, Token.spells, Token.text_eq_of_core hfirst.symm]
    exact hnth first' (.head _)
  · refine (readName_eq_ok hs.text_ne).2
      ⟨first :: more, hrest, rfl, ?_, hname', by simp [EndsName, isNamePart, hk]⟩
    rw [map_text_congr hcore]
  · simp only [hrest, List.length_append, List.length_cons]
    omega

/-- The name of a negation is read again in lower case. -/
theorem nameAgain_of_negation {cs : List Char} (hp : p.Scans (tokens ++ rest))
    (htext : p.text = tokenChars tokens ++ '(' :: cs)
    (hletters : (tokenChars tokens).map Text.lowerChar = "not".toList) :
    NameAgain p (p.afterAll tokens ('(' :: cs)) "not".toList "not" := by
  have hreads : ∀ {w : List Char} (cs : List Char), w.map Text.lowerChar = "not".toList →
      Reads p.state .ident w ('(' :: cs) :=
    fun cs h => reads_letters p.state cs h (by decide) (by simp)
  have hafter : ∀ {w : List Char}, w.map Text.lowerChar = "not".toList →
      p.state.after .ident w = p.state.calm := by
    intro w h
    simp [ScanState.after, ScanState.isUrlName, ScanState.calm, h]
  obtain ⟨word, rfl, hcore⟩ := exists_token_of_reads hp htext (hreads cs hletters)
  intro cs' s _ hs
  obtain ⟨token, rest', hrest, htoken, hs'⟩ := hs.of_reads (hreads cs' rfl)
  have hk : token.kind = .ident := congrArg Prod.fst htoken
  have htext : token.text = "not" := String.toList_inj.1 (congrArg Prod.snd htoken)
  have hs₁ : ((p.afterAll [word] ('(' :: cs)).put ('(' :: cs')).Scans rest' := by
    have hstate : (p.afterAll [word] ('(' :: cs)).state = p.state.after .ident "not".toList := by
      rw [hafter rfl, ← hafter hletters, Place.afterAll, List.map_singleton, hcore]
      rfl
    rw [Place.put, hstate]
    exact hs'
  obtain ⟨opening, rest'', rfl, hopening, -⟩ := hs₁.of_sign rfl rfl (by decide)
  have hkind : opening.kind = .leftParen := congrArg Prod.fst hopening
  refine ⟨token, opening :: rest'', { s with rest := opening :: rest'' }, hrest, by simp [hk], ?_,
    ?_, hs₁, by simp [hrest]⟩
  · rw [Token.spells, htext]
    exact fun _ => by decide
  · refine (readName_eq_ok hs.text_ne).2
      ⟨[token], by simp [hrest], rfl, by simp [htext, Text.concat], ?_, ?_⟩
    · exact ⟨[], token, [], rfl, by simp, by simp, .inr hk, by simp⟩
    · simp [EndsName, isNamePart, hkind]

/-! ## Calls -/

theorem pseudo_of_call {first second : Token} {name : String} {s₁ : ParserState}
    (hs : s.rest = first :: second :: rest) (hfirst : first.kind = .colon)
    (hcolon : second.kind ≠ .colon) (hnth : second.kind = .ident → second.spells "nth" = false)
    (hname : readName false { s with rest := second :: rest } = .ok name s₁)
    (hparen : s₁.rest.head?.map Token.kind = some .leftParen) :
    pseudo inner s = function inner .selector (some second.start) name s₁ := by
  have hread : expect .colon s = .ok () { s with rest := second :: rest } :=
    expect_eq_ok.2 ⟨first, second :: rest, hs, hfirst, rfl⟩
  rw [pseudo_eq hs, if_neg hcolon, if_neg (by simpa using hnth), pseudoClass, here_bind_run,
    bind_of_ok hread, here_bind_run, bind_of_ok hname, isAt_bind_run, hparen]
  rfl

theorem startsAlike_of_sign {kind : TokenKind} {c : Char} {cs₁ : List Char}
    (htext : p.text = c :: cs₁) (hc : CharClass.ofChar c = .punctuator)
    (hkind : TokenKind.ofChar? c = some kind) (hslash : c ≠ '/') (cs : List Char) :
    p.StartsAlike (c :: cs) := by
  refine ⟨by rw [htext]; rfl, ?_⟩
  rw [kindsFrom, kindsFrom, htext, coresFrom_sign hc hkind hslash, coresFrom_sign hc hkind hslash]
  rfl

/-- A call is read again if its name is, and what stands in its parentheses is. -/
theorem returns_of_calls {p₀ p₁ : Place} {colon : Token} {s₁ : ParserState} {w cs₁ : List Char}
    {name : String} (hs : s.rest = colon :: rest) (hk : colon.kind = .colon)
    (htext : p.text = ':' :: cs₁) (hstate : p.state.after .colon [':'] = p₀.state)
    (hname : NameAgain p₀ p₁ w name) (hp₁ : p₁.Scans s₁.rest) (hfirm₁ : p₁.firm = p.firm)
    (hbalanced₁ : Balanced rest s₁.rest) (hparen : s₁.rest.head?.map Token.kind = some .leftParen)
    (hdeep : tree.isDeep = false)
    (hcalls : Calls (':' :: w) p₁ s₁ tree s' fun info n => function (.upTo n) .selector info name) :
    ∃ p', PartReturns p s s' tree (fun n => pseudo (.upTo n)) p' := by
  obtain ⟨v, p', hcompact, hp', hfirm', hbalanced', hrereads⟩ := hcalls
  refine ⟨p', hp', hfirm'.trans hfirm₁, ?_, hdeep, fun cs _ => ?_, fun n cs s₂ _ hs₂ hlt => ?_⟩
  · rw [hs]
    exact .trans (.token (by simp [hk]) (by simp [hk])) (.trans hbalanced₁ hbalanced')
  · rw [hcompact]
    exact startsAlike_of_sign htext rfl rfl (by decide) _
  · rw [hcompact, List.cons_append, List.cons_append, List.append_assoc] at hs₂
    have hfollow := (hrereads none n).follow cs trivial
    obtain ⟨v', hv⟩ := List.head?_eq_some_iff.1 (hfollow.head?_eq hp₁ hparen rfl rfl rfl)
    rw [hv] at hfollow hs₂
    obtain ⟨colon', rest', hrest, hcore, hs₃⟩ := hs₂.of_sign rfl rfl (by decide)
    rw [hstate] at hs₃
    obtain ⟨first, rest'', s₃, hfirst, hcolon, hnth, hread, hs₄, hlt₄⟩ :=
      hname v' { s₂ with rest := rest' } hfollow hs₃
    simp only at hfirst
    rw [hfirst] at hread hlt₄ hrest
    have hlt₃ : s₃.rest.length < n := by
      simp only [hrest, List.length_cons] at hlt hlt₄
      omega
    have hs₄' : (p₁.put (v ++ cs)).Scans s₃.rest := hv ▸ hs₄
    obtain ⟨tree', s₄, hrun, hbare, hs₅, hlt₅⟩ :=
      (hrereads (some first.start) n).run cs s₃ trivial hs₄' hlt₃
    have hparen' : s₃.rest.head?.map Token.kind = some .leftParen := by
      obtain ⟨opening, rest₃, hrest₃, hopening, -⟩ := hs₄.of_sign rfl rfl (by decide)
      rw [hrest₃]
      exact congrArg (some ·.1) hopening
    refine ⟨tree', s₄, ?_, hbare, hs₅, ?_⟩
    · exact (pseudo_of_call hrest (congrArg Prod.fst hcore) hcolon hnth hread hparen').trans hrun
    · simp only [hrest, List.length_cons] at hlt₄ ⊢
      omega

/-! ## Negations -/

/-- The reader of an entry of a negation, which must not be missing. -/
def negatedEntry (inner : Nested) : Parser Tree := do
  match ← kind? with
  | some .rightParen | some .comma => fail .expectedSimpleSelector
  | _ => inner.negated

theorem negation_eq (inner : Nested) (info : Option Nat) : negation inner info = (do
    expect .leftParen
    let entries ← separated (fun _ => false) (negatedEntry inner) (pure ())
    expect .rightParen
    return .sequence info .negation entries.1) := rfl

theorem negatedEntry_eq_ok : negatedEntry inner s = .ok tree s' ↔
    s.rest.head?.map Token.kind ≠ some .rightParen ∧ s.rest.head?.map Token.kind ≠ some .comma ∧
      inner.negated s = .ok tree s' := by
  rw [negatedEntry, kind?_bind_run]
  cases s.rest.head?.map Token.kind with
  | none => simp
  | some kind => cases kind <;> simp

theorem entryReturns_negation (depth : Nat) : EntryReturns (.upTo depth) true (fun _ => false)
    (negatedEntry (.upTo (depth + 1))) fun n => negatedEntry (.upTo (n + 1)) where
  ends := nofun
  read h := (negatedEntry_eq_ok.1 h).2.2
  again h hne := by
    obtain ⟨token, rest, hs, hends⟩ := notEnds_of_children h hne
    rw [EndsSelector, not_or] at hends
    refine ⟨⟨token, rest, hs, rfl⟩, negatedEntry_eq_ok.2 ⟨?_, ?_, h⟩⟩
    · simpa [hs, selectorEnd] using hends.2
    · simpa [hs] using hends.1

/-- A negation is read again from the parenthesis on. -/
theorem negation_calls {depth : Nat} {inv : List Token → Prop} {sound : Tree → Prop}
    (hreturns : ∀ k, depth = k + 1 → SelectorReturns (.upTo k) inv sound)
    (hp : p.Scans s.rest) (hfirm : p.firm = .firm) (hinv : inv s.rest)
    (hentries : ∀ entry ∈ tree.children, entry.children ≠ [] ∧ ∀ node ∈ entry.children, sound node)
    (h : negation (.upTo depth) info s = .ok tree s') :
    Calls (':' :: "not".toList) p s tree s' fun info' n => negation (.upTo n) info' := by
  rw [negation_eq] at h
  obtain ⟨_, _, hopen, h⟩ := bind_eq_ok.1 h
  obtain ⟨opening, rest, hs, hkind, rfl⟩ := expect_eq_ok.1 hopen
  obtain ⟨⟨entries, missing⟩, s₁, hread, h⟩ := bind_eq_ok.1 h
  obtain ⟨_, _, hclose, h⟩ := bind_eq_ok.1 h
  obtain ⟨closing, rest', hs', hkind', rfl⟩ := expect_eq_ok.1 hclose
  obtain ⟨rfl, rfl⟩ := EStateM.Result.ok.inj h
  have hseparates := separates_of_separated hread
  obtain rfl : missing = false := hseparates.missing_eq_false (by simp [hs'])
  rw [hs] at hp hinv
  obtain ⟨cs₁, -, hp₁, hstate, hsign⟩ := rereads_sign (c := '(') hp hkind rfl rfl (by decide)
  have hcalm : (p.after opening cs₁).state.calm = (p.after opening cs₁).state := by
    rw [← hstate]; rfl
  obtain ⟨k, rfl⟩ : ∃ k, depth = k + 1 := by
    refine Nat.exists_eq_add_one.2 (Nat.pos_of_ne_zero ?_)
    rintro rfl
    cases hseparates with
    | last _ hentry | more _ hentry => exact fail_ne_ok.1 (negatedEntry_eq_ok.1 hentry).2.2
  obtain ⟨p₂, hp₂, hfirm₂, hbalanced₂, -, hrest⟩ :=
    selectorEntries_again (hreturns k rfl) (entryReturns_negation k) hseparates hp₁ hfirm
      ((hreturns k rfl).suffix hinv (List.suffix_cons _ _))
        fun entry hmem => (hentries entry hmem).2
  obtain ⟨-, hagain⟩ := hrest rfl fun entry hmem => (hentries entry hmem).1
  rw [hs'] at hp₂ hbalanced₂
  obtain ⟨cs₂, -, hp', hstate', -⟩ := rereads_sign (c := ')') hp₂ hkind' rfl rfl (by decide)
  refine ⟨_, _, compact_negation _ _, hp', hfirm₂, ?_, fun info' n => ?_⟩
  · rw [hs]
    exact .group hkind hkind' hbalanced₂
  · simp only [negation_eq]
    refine (hsign n).bind_nested (v := entriesChars entries ++ [')']) (f := fun n _ => do
      let entries ← separated (fun _ => false) (negatedEntry (.upTo n)) (pure ())
      expect .rightParen
      return (Node.sequence info' .negation entries.1 : Tree)) (fun k _ _ => ?_) fun _ _ => trivial
    intro cs s₂ _ hs₂ hlt
    rw [Place.put, ← hcalm, List.append_assoc] at hs₂
    obtain ⟨-, entries', s₃, hloop, hbares, hs₃, hlt₃⟩ :=
      hagain k ([')'] ++ cs) _ s₂ (by simp [closingChar]) (.inl rfl) hs₂ hlt
    obtain ⟨closing', rest₃, hrest₃, hcore, hs₄⟩ :=
      Place.Scans.of_sign (p := ⟨p₂.state.calm, [], .soft⟩) hs₃ rfl rfl (by decide)
    have hclose' : expect .rightParen s₃ = .ok () { s₃ with rest := rest₃ } :=
      expect_eq_ok.2 ⟨closing', rest₃, hrest₃, congrArg Prod.fst hcore, rfl⟩
    have hread' : separated (fun _ => false) (negatedEntry (.upTo (k + 1))) (pure ()) s₂ =
        .ok (entries', false) s₃ := hloop.loop_eq
    refine ⟨.sequence info' .negation entries', { s₃ with rest := rest₃ },
      ?_, by simp [hbares], ?_, ?_⟩
    · rw [bind_of_ok hread', bind_of_ok hclose', run_pure]
    · rw [Place.put, ← hstate']
      exact hs₄
    · simp only [hrest₃, List.length_cons] at hlt₃ ⊢
      omega

theorem exists_of_simpleSelector (h : simpleSelector inner nested s = .ok tree s') :
    ∃ info parts, tree = .sequence info .simpleSelector parts := by
  rw [simpleSelector, here_bind_run] at h
  obtain ⟨⟨parts, last⟩, s₁, -, h⟩ := bind_eq_ok.1 h
  dsimp only at h
  split at h
  · exact (fail_ne_ok.1 h).elim
  · obtain ⟨rfl, -⟩ := EStateM.Result.ok.inj h
    exact ⟨_, parts, rfl⟩

/-- The parts of a simple selector are kept if the calls below it are. -/
theorem isKeptPart_of_callsKept {parts : List Tree}
    (h : (Node.sequence info .simpleSelector parts).CallsKept) :
    ∀ node ∈ parts, IsKeptPart node := by
  intro node hmem
  have hcolons := h.colons _ (Node.self_mem_preorder _)
  rw [Node.keepsColons, List.all_eq_true] at hcolons
  exact ⟨by simpa using hcolons node hmem, h.child hmem⟩

/-- The entries of a negation are simple selectors. -/
theorem exists_of_negation {depth : Nat} (h : negation (.upTo depth) info s = .ok tree s') :
    ∃ entries, tree = .sequence info .negation entries ∧
      ∀ entry ∈ entries, ∃ info parts, entry = .sequence info .simpleSelector parts := by
  rw [negation_eq] at h
  obtain ⟨_, _, -, h⟩ := bind_eq_ok.1 h
  obtain ⟨⟨entries, missing⟩, s₁, hread, h⟩ := bind_eq_ok.1 h
  obtain ⟨_, _, -, h⟩ := bind_eq_ok.1 h
  obtain ⟨rfl, -⟩ := EStateM.Result.ok.inj h
  refine ⟨entries, rfl, fun entry hmem => ?_⟩
  obtain ⟨s₁, s₂, hentry⟩ := (separates_of_separated hread).exists_entry entry hmem
  have hnegated := (negatedEntry_eq_ok.1 hentry).2.2
  cases depth with
  | zero => exact (fail_ne_ok.1 hnegated).elim
  | succ depth => exact exists_of_simpleSelector hnegated

/-! ## Functional pseudo-classes -/

theorem function_of_pseudo (inner : Nested) (info : Option Nat) {name : String}
    (h : Scope.selector.special? name = none) : function inner .selector info name = (do
      let nodes ← arguments inner .selector
      return .sequence info (.functionalPseudo name) nodes) := by
  simp only [function, h]

/-- A functional pseudo-class is read again from the parenthesis on. -/
theorem functionalPseudo_calls (info : Option Nat) {name : String} (hinner : inner.Returns)
    (hp : p.Scans s.rest) (htidy : Tidy .selector s.rest)
    (hname : Scope.selector.special? name = none) (hquiet : ∀ node ∈ nodes, Quiet .selector node)
    (h : arguments inner .selector s = .ok nodes s') :
    Calls (':' :: name.toList) p s (.sequence info (.functionalPseudo name) nodes) s' fun info' n =>
      function (.upTo n) .selector info' name := by
  obtain ⟨p', hp', hfirm, hbalanced, hrereads⟩ := arguments_echoes hinner hp htidy hquiet h
  refine ⟨_, p', compact_functionalPseudo .., hp', hfirm, hbalanced, fun info' n => ?_⟩
  simp only [function_of_pseudo _ _ hname]
  rw [← List.append_nil ('(' :: _)]
  refine (hrereads n).bind (fun nodes' hnodes => runs_pure ?_) (Nat.le_succ n) fun _ _ => trivial
  simp [hnodes]

/-! ## Parts -/

/-- What a colon opens in a selector is a link, a negation or a functional pseudo-class. -/
theorem function_selector_eq_ok {name : String}
    (h : function inner .selector info name s = .ok tree s') :
    tree.isLink = true ∨
      Scope.selector.special? name = some .negation ∧ negation inner info s = .ok tree s' ∨
      Scope.selector.special? name = none ∧ ∃ nodes, arguments inner .selector s = .ok nodes s' ∧
        tree = .sequence info (.functionalPseudo name) nodes := by
  cases hspecial : Scope.selector.special? name with
  | none =>
    rw [function_of_pseudo inner info hspecial] at h
    obtain ⟨nodes, s₁, harguments, h⟩ := bind_eq_ok.1 h
    obtain ⟨rfl, rfl⟩ := EStateM.Result.ok.inj h
    exact .inr (.inr ⟨rfl, nodes, harguments, rfl⟩)
  | some special =>
    simp only [function, hspecial] at h
    cases special with
    | url =>
      obtain ⟨link, rfl⟩ := exists_of_urlFunction h
      exact .inl rfl
    | negation => exact .inr (.inl ⟨rfl, h⟩)
    | script => cases scope_of_special? (.inl hspecial)
    | «variable» => cases scope_of_special? (.inr hspecial)

/-- A call is read again, given that the entries of negations one bracket deeper are. -/
theorem pseudoCall_returns {depth : Nat} {node : Tree}
    (hreturns : ∀ k, depth = k + 1 → SelectorReturns (.upTo k) AreCallTokens IsKeptPart)
    (hp : p.Scans s.rest) (hfirm : p.firm = .firm) (hinv : AreCallTokens s.rest)
    (hcolon : s.rest.head?.map Token.kind = some .colon) (hkept : IsKeptPart node)
    (h : PseudoCall (.upTo depth) s node s') :
    ∃ p', PartReturns p s s' node (fun n => pseudo (.upTo n)) p' := by
  cases h with
  | nth hs hident hspells => exact nomatch ((hinv _ (by simp [hs])).noNth hident).symm.trans hspells
  | @call first second rest name s₁ hs hsecond hnth hname hparen hread =>
    rw [hs] at hp
    have hk : first.kind = .colon := by simpa [hs] using hcolon
    obtain ⟨cs₁, htext, hp₀, hstate, -⟩ := rereads_sign (c := ':') hp hk rfl rfl (by decide)
    obtain ⟨tokens, htokens, -, rfl, hisName, -⟩ := (readName_eq_ok hp₀.text_ne).1 hname
    simp only at htokens
    rw [htokens] at hp₀
    have hinv₁ : ∀ token ∈ tokens ++ s₁.rest, IsCallToken token := fun token hmem => by
      refine hinv token ?_
      rw [hs, htokens]
      exact .tail _ hmem
    have hbalanced : Balanced (second :: rest) s₁.rest := htokens ▸ hisName.balanced
    obtain ⟨cs, htext₀, hp₁⟩ := hp₀.append
    rcases function_selector_eq_ok
      hread with hlink | ⟨hspecial, hread⟩ | ⟨hspecial, nodes, harguments, rfl⟩
    · exact nomatch hkept.1.symm.trans hlink
    · obtain ⟨opening, hmem, hopening⟩ := Option.map_eq_some_iff.1 hparen
      obtain ⟨rest₁, hrest₁⟩ := List.head?_eq_some_iff.1 hmem
      obtain ⟨cs', rfl⟩ : ∃ cs', cs = '(' :: cs' := by
        obtain ⟨cs', hcs, -⟩ := rereads_sign (c := '(') (hrest₁ ▸ hp₁) hopening rfl rfl (by decide)
        exact ⟨cs', hcs⟩
      obtain ⟨entries, rfl, hentries⟩ := exists_of_negation hread
      have hletters := letters_of_negation hspecial
      rw [toList_concat_text] at hletters
      refine returns_of_calls hs hk htext hstate (nameAgain_of_negation hp₀ htext₀ hletters) hp₁
        rfl hbalanced
        hparen rfl (negation_calls hreturns hp₁ hfirm
          (fun token hmem => hinv₁ token (List.mem_append_right _ hmem))
            (fun entry hmem => ?_) hread)
      have hfilled := hkept.2.entries _ (Node.self_mem_preorder _)
      rw [Node.hasEntries, List.all_eq_true] at hfilled
      obtain ⟨info, parts, rfl⟩ := hentries entry hmem
      exact ⟨by simpa using hfilled _ hmem, isKeptPart_of_callsKept (hkept.2.child hmem)⟩
    · have hquiet : ∀ node ∈ nodes, Quiet .selector node := by
        intro node hmem _
        obtain ⟨parts, rfl⟩ := exists_of_arguments harguments node hmem
        exact ⟨rfl, (hkept.2.child hmem).colons⟩
      have htidy : Tidy .selector s₁.rest :=
        ⟨fun token hmem => (hinv₁ token (List.mem_append_right _ hmem)).noComment, nofun⟩
      have hcalls :=
        functionalPseudo_calls (some second.start) (upTo_returns depth) hp₁ htidy hspecial hquiet
        harguments
      rw [toList_concat_text] at hcalls
      exact returns_of_calls hs hk htext hstate
        (nameAgain_of_isName hp₀ htext₀ hisName fun token hmem =>
          (hinv₁ token (List.mem_append_left _ hmem)).noNth) hp₁ rfl hbalanced hparen rfl hcalls

/-- The parts of a selector are read again, however deep the calls in them are nested. -/
theorem selectorReturns_upTo (depth : Nat) :
    SelectorReturns (.upTo depth) AreCallTokens IsKeptPart := by
  have key : ∀ depth, (∀ k, depth = k + 1 → SelectorReturns (.upTo k) AreCallTokens IsKeptPart) →
      SelectorReturns (.upTo depth) AreCallTokens IsKeptPart := fun depth hreturns =>
    selectorReturns_of_calls (fun hall hsuffix token hmem => hall token (hsuffix.subset hmem))
      (fun hall => (hall _ (.head _)).noComment)
      (fun _ _ hall hhead =>
        absurd hhead (notAt_of_forall fun token hmem => (hall token hmem).noBracket))
      fun hp hfirm hinv hcolon hkept hcall =>
        pseudoCall_returns hreturns hp hfirm hinv hcolon hkept hcall
  induction depth with
  | zero => exact key 0 nofun
  | succ depth ih =>
    refine key _ fun k hk => ?_
    obtain rfl := Nat.succ.inj hk
    exact ih

/-- A simple selector is read again from its text where the parts of it are. -/
theorem simpleSelector_readsBack_of_parts {text : List Char} {known : Firmness}
    {inv : Place → List Token → Prop} {sound ends : Tree → Prop}
    (hreturns : PartsReturn inner inv sound ends)
    (hp : Place.Scans ⟨.start false, text, known⟩ s.rest)
    (hinv : inv ⟨.start false, text, known⟩ s.rest) (hsound : ∀ node ∈ tree.children, sound node)
    (hdeep : DeepApart ends tree.children) (h : simpleSelector inner false s = .ok tree s') :
    Context.simpleSelector.ReadsBack text tree := by
  obtain ⟨p', -, -, -, -, hstart, hagain⟩ := simpleSelector_of_parts hreturns hp hinv h hsound hdeep
  refine ⟨fun hmark d hd hd' => ?_, fun s₁ hs₁ => ?_⟩
  · subst hd'
    rcases hstart.head _ hd with hstop | ⟨hmem, -⟩
    · exact nomatch hstop
    · exact hmark hmem
  · rw [← List.append_nil (Node.compact _)] at hs₁
    obtain ⟨-, tree', s₂, hrun, hbare, -⟩ :=
      hagain (s₁.rest.length + 1) [] _ s₁ nofun (.inl rfl) hs₁ (Nat.lt_succ_self _)
    exact ⟨tree', s₂, hrun, hbare⟩

theorem simpleSelector_readsBack_of_returns {text : List Char} {inv : List Token → Prop}
    {sound : Tree → Prop} (hreturns : SelectorReturns inner inv sound)
    (hp : Place.Scans ⟨.start false, text, .firm⟩ s.rest) (hinv : inv s.rest)
    (hsound : ∀ node ∈ tree.children, sound node) (h : simpleSelector inner false s = .ok tree s') :
    Context.simpleSelector.ReadsBack text tree :=
  simpleSelector_readsBack_of_parts hreturns.parts hp ⟨rfl, hinv⟩ hsound
    (.of_forall (fun _ => trivial) _) h

/-- A simple selector with calls is read again from its text. -/
theorem simpleSelector_readsBack {text : List Char} {depth : Nat}
    (hp : Place.Scans ⟨.start false, text, .firm⟩ s.rest) (hinv : AreCallTokens s.rest)
    (hkept : tree.CallsKept) (h : simpleSelector (.upTo depth) false s = .ok tree s') :
    Context.simpleSelector.ReadsBack text tree := by
  obtain ⟨info, parts, rfl⟩ := exists_of_simpleSelector h
  exact simpleSelector_readsBack_of_returns (selectorReturns_upTo depth) hp hinv
    (isKeptPart_of_callsKept hkept) h

end Grammar

/-- A simple selector without extensions, escapes and byte order marks comes back from its compact
text where its parts are read again. -/
theorem parse_toCss_of_returns {text : String} {options : ParseOptions} {node : Node SourceInfo}
    {inv : List Token → Prop} {sound : Tree → Prop} (hcontext : options.context = .simpleSelector)
    (hpositions : options.positions = false)
    (hextensions : (TokenTable.ofText text false).extensions = [])
    (hmark : byteOrderMark ∉ text.toList) (hplain : '\\' ∉ text.toList)
    (hreturns : ∀ depth, SelectorReturns (.upTo depth) inv sound)
    (hinv : inv (TokenTable.ofText text false).tokens.toList)
    (hsound : ∀ tree : Tree, tree.bare = node → ∀ child ∈ tree.children, sound child)
    (h : parse text options = .ok node) : parse node.toCss options = .ok node := by
  obtain ⟨tree, s', hread, rfl⟩ := (parse_eq_ok hpositions).1 h
  refine parse_toCss_of_readsBack hpositions hmark (fun tree' s'' hread' => ?_) h
  obtain ⟨rfl, -⟩ := EStateM.Result.ok.inj (hread.symm.trans hread')
  rw [hcontext] at hread ⊢
  exact simpleSelector_readsBack_of_returns (s := ⟨_, []⟩) (hreturns _)
    (TokenTable.firmScans_ofText hextensions hmark hplain) hinv (hsound tree rfl) hread

/-- A simple selector without comments, extensions and series of places comes back from its compact
text, if no square bracket, bar or escape stands in it, no entry of a negation is blank, and the
colons of its calls are written where they were read. -/
theorem parse_toCss_of_parse_simpleSelector {text : String} {options : ParseOptions}
    {node : Node SourceInfo} (hcontext : options.context = .simpleSelector)
    (hpositions : options.positions = false)
    (hcomments : NoComments (TokenTable.ofText text false).tokens.toList)
    (hextensions : (TokenTable.ofText text false).extensions = [])
    (hnth : ∀ token ∈ (TokenTable.ofText text false).tokens.toList, token.kind = .ident →
      token.spells "nth" = false)
    (hplain : ∀ c ∈ ['[', '|', '\\', byteOrderMark], c ∉ text.toList) (hkept : node.CallsKept)
    (h : parse text options = .ok node) : parse node.toCss options = .ok node := by
  have hmark : byteOrderMark ∉ text.toList := hplain _ (by simp)
  have hscans := TokenTable.firmScans_ofText hextensions hmark (hplain _ (by simp))
  have hinv : AreCallTokens (TokenTable.ofText text false).tokens.toList := fun token hmem => {
    noComment := hcomments token hmem
    noBracket := fun hk => hplain '[' (by simp) (hscans.mem_text_of_char? hmem (by rw [hk]; rfl))
    noBar := fun hk => hplain '|' (by simp) (hscans.mem_text_of_char? hmem (by rw [hk]; rfl))
    noNth := hnth token hmem }
  obtain ⟨tree, s', hread, rfl⟩ := (parse_eq_ok hpositions).1 h
  refine parse_toCss_of_readsBack hpositions hmark (fun tree' s'' hread' => ?_) h
  obtain ⟨rfl, -⟩ := EStateM.Result.ok.inj (hread.symm.trans hread')
  rw [hcontext] at hread ⊢
  exact simpleSelector_readsBack (s := ⟨_, []⟩) hscans hinv (.of_mapInfo hkept) hread

/-- Calls in the entries of a negation, a link in the arguments of a pseudo-class, and names in
upper case. -/
theorem parse_toCss_of_parse_simpleSelector_calls :
    let options : ParseOptions := { context := .simpleSelector }
    let node : Node SourceInfo := .sequence none .simpleSelector
      [.leaf none .identifier "a",
      .sequence none .negation [.sequence none .simpleSelector
        [.sequence none (.functionalPseudo "is")
          [.sequence none .argument [.leaf none .identifier "b"],
          .sequence none .argument [.wrapper none .url (.leaf none .raw "x")]],
        .leaf none .combinator ">", .leaf none .identifier "c"],
      .sequence none .simpleSelector [.sequence none (.functionalPseudo "lang")
        [.sequence none .argument [.leaf none .identifier "en"]]]],
      .sequence none (.functionalPseudo "X") []]
    parse "a:NOT( :is(b,URL( x )) > c,:lang(en)):X( )" options = .ok node ∧
      node.toCss = "a:not(:is(b,url(x))>c,:lang(en)):X()" ∧
      parse node.toCss options = .ok node := by
  intro options node
  have h : parse "a:NOT( :is(b,URL( x )) > c,:lang(en)):X( )" options = .ok node := by
    decide +kernel
  refine ⟨h, by decide +kernel, ?_⟩
  have hplain : (['[', '|', '\\', byteOrderMark].all fun c =>
      decide (c ∉ "a:NOT( :is(b,URL( x )) > c,:lang(en)):X( )".toList)) = true := by decide +kernel
  refine parse_toCss_of_parse_simpleSelector rfl rfl ?_ (by decide +kernel) ?_
    (fun c hmem => of_decide_eq_true (List.all_eq_true.1 hplain c hmem)) ⟨?_, ?_⟩ h
  · unfold NoComments
    decide +kernel
  · decide +kernel
  · decide +kernel
  · decide +kernel

/-- A pseudo-class in the arguments of another one is written with a colon that was not read, so the
tree does not come back; nor does a link as a part, which is written without the colon that was
read. -/
theorem parse_toCss_ne_of_nested_pseudo :
    let text := ":host(:lang(en))"
    let options : ParseOptions := { context := .simpleSelector }
    let node : Node SourceInfo := .sequence none .simpleSelector
      [.sequence none (.functionalPseudo "host") [.sequence none .argument
        [.leaf none .operator ":", .sequence none (.functionalPseudo "lang")
          [.sequence none .argument [.leaf none .identifier "en"]]]]]
    let link : Node SourceInfo :=
      .sequence none .simpleSelector [.wrapper none .url (.leaf none .raw "x")]
    NoComments (TokenTable.ofText text false).tokens.toList ∧
      (TokenTable.ofText text false).extensions = [] ∧
      (∀ token ∈ (TokenTable.ofText text false).tokens.toList,
        token.kind = .ident → token.spells "nth" = false) ∧
      (['[', '|', '\\', byteOrderMark].all fun c => decide (c ∉ text.toList)) = true ∧
      (∀ other ∈ node.preorder, other.hasEntries = true) ∧
      parse text options = .ok node ∧ node.toCss = ":host(::lang(en))" ∧
      parse node.toCss options ≠ .ok node ∧
      parse ":url(x)" options = .ok link ∧ link.toCss = "url(x)" ∧
      parse link.toCss options ≠ .ok link := by
  unfold NoComments
  decide +kernel

end StyleTree
