import StyleTree.Grammar.Selector
import StyleTree.Proofs.Grammar.Component
import StyleTree.Proofs.Grammar.Qualified

/-! The parts of a simple selector that are kept as they stand: names, the signs `.`, `#` and `:`
with a name after them, and percentages. `Kept` says that a reader reads the tokens of such a part,
and reads them again wherever what stands next looks alike. -/

namespace StyleTree.Grammar

open StyleTree.Parser

variable {inner : Nested} {p : Place} {s s' : ParserState} {tokens tokens' front rest : List Token}
  {token : Token} {tree : Tree}

/-- The readers read the tree from the tokens as they stand, and read it again from the same tokens
before others that look alike. -/
structure Kept (reader : Nat → Parser Tree) (tree : Tree) (front rest : List Token) : Prop where
  words : ∀ token ∈ front, token.kind.isWord = true
  ne_nil : front ≠ []
  notDeep : tree.isDeep = false
  compact : tree.compact = tokenChars front
  run : ∀ (n : Nat) (s : ParserState) (front' rest' : List Token), s.rest = front' ++ rest' →
    front'.map Token.core = front.map Token.core → NextLike rest rest' →
    (∀ token ∈ s.rest, token.text ≠ "") →
    ∃ tree', reader n s = .ok tree' { s with rest := rest' } ∧ tree'.bare = tree.bare

/-- A reader that goes by the second token, and by what stands next, reads again what another one
does. -/
theorem Kept.of_second {reader reader' : Nat → Parser Tree} {first second : Token}
    (h : Kept reader tree (first :: second :: front) rest)
    (heq : ∀ n (s : ParserState) first' second' more tree' s', s.rest = first' :: second' :: more →
      second'.core = second.core → NextLike rest s'.rest → reader n s = .ok tree' s' →
      reader' n s = .ok tree' s') : Kept reader' tree (first :: second :: front) rest := by
  refine ⟨h.words, h.ne_nil, h.notDeep, h.compact, fun n s front' rest' hs hcore hnext hne => ?_⟩
  obtain ⟨tree', hrun, hbare⟩ := h.run n s front' rest' hs hcore hnext hne
  obtain ⟨first', tail, rfl, -, htail⟩ := List.map_eq_cons_iff.1 hcore
  obtain ⟨second', more, rfl, hsecond, -⟩ := List.map_eq_cons_iff.1 htail
  exact ⟨tree', heq n s first' second' (more ++ rest') tree' _ hs hsecond hnext hrun, hbare⟩

/-! ## Signs and names -/

/-- Reads tokens of the given kinds. -/
def expectAll : List TokenKind → Parser Unit
  | [] => pure ()
  | kind :: kinds => do
    expect kind
    expectAll kinds

/-- The given signs and a name, as a leaf. -/
def signedName (signs : List TokenKind) (kind : LeafKind) : Parser Tree := do
  let info ← here
  expectAll signs
  return .leaf info kind (← readName false)

theorem classSelector_eq : classSelector = signedName [.fullStop] .classSelector := by
  simp [classSelector, signedName, expectAll]

theorem idSelector_eq : idSelector = signedName [.numberSign] .idSelector := by
  simp [idSelector, signedName, expectAll]

theorem pseudoElement_eq : pseudoElement = signedName [.colon, .colon] .pseudoElement := by
  simp [pseudoElement, signedName, expectAll]

theorem identifier_eq : identifier false = signedName [] .identifier := by
  simp [identifier, signedName, expectAll]

theorem expectAll_eq_ok {signs : List TokenKind} {u : Unit} :
    expectAll signs s = .ok u s' ↔ ∃ front, s.rest = front ++ s'.rest ∧
      front.map Token.kind = signs ∧ s'.discarded = s.discarded := by
  induction signs generalizing s with
  | nil =>
    simp only [expectAll, run_pure, EStateM.Result.ok.injEq, List.map_eq_nil_iff]
    constructor
    · rintro ⟨-, rfl⟩
      exact ⟨[], rfl, rfl, rfl⟩
    · rintro ⟨_, hs, rfl, hd⟩
      refine ⟨trivial, ?_⟩
      cases s
      cases s'
      simp_all
  | cons kind signs ih =>
    rw [expectAll, bind_eq_ok]
    constructor
    · rintro ⟨_, s₁, hexpect, h⟩
      obtain ⟨sign, rest, hs, hk, rfl⟩ := expect_eq_ok.1 hexpect
      obtain ⟨front, hrest, hsigns, hd⟩ := ih.1 h
      refine ⟨sign :: front, ?_, by simp [hk, hsigns], hd⟩
      rw [hs]
      simpa using hrest
    · rintro ⟨front, hs, hsigns, hd⟩
      obtain ⟨sign, front, rfl, hk, hsigns⟩ := List.map_eq_cons_iff.1 hsigns
      exact ⟨(), _, expect_eq_ok.2 ⟨sign, _, hs, hk, rfl⟩, ih.2 ⟨front, rfl, hsigns, hd⟩⟩

theorem signedName_eq_ok {signs : List TokenKind} {kind : LeafKind}
    (hne : ∀ token ∈ s.rest, token.text ≠ "") :
    signedName signs kind s = .ok tree s' ↔ ∃ front name, s.rest = front ++ (name ++ s'.rest) ∧
      front.map Token.kind = signs ∧ IsName false name ∧ EndsName s'.rest ∧
      s'.discarded = s.discarded ∧
      tree = .leaf (s.rest.head?.map Token.start) kind (Text.concat (name.map Token.text)) := by
  rw [signedName, here_bind_run, bind_eq_ok]
  constructor
  · rintro ⟨_, s₁, hsigns, h⟩
    obtain ⟨name, s₂, hname, h⟩ := bind_eq_ok.1 h
    obtain ⟨rfl, rfl⟩ := EStateM.Result.ok.inj h
    obtain ⟨front, hs, hkinds, hd⟩ := expectAll_eq_ok.1 hsigns
    have hne₁ : ∀ token ∈ s₁.rest, token.text ≠ "" :=
      fun token hmem => hne token (hs ▸ List.mem_append_right _ hmem)
    obtain ⟨tokens, hs₁, hd₁, rfl, hname, hends⟩ := (readName_eq_ok hne₁).1 hname
    exact ⟨front, tokens, by rw [hs, hs₁], hkinds, hname, hends, hd₁.trans hd, rfl⟩
  · rintro ⟨front, name, hs, hkinds, hname, hends, hd, rfl⟩
    refine ⟨(), { s with rest := name ++ s'.rest }, expectAll_eq_ok.2 ⟨front, hs, hkinds, rfl⟩, ?_⟩
    have hread : readName false { s with rest := name ++ s'.rest } =
        .ok (Text.concat (name.map Token.text)) s' := by
      refine (readName_eq_ok fun token hmem => hne token ?_).2 ⟨name, rfl, hd, rfl, hname, hends⟩
      rw [hs]
      exact List.mem_append_right _ hmem
    rw [bind_of_ok hread, run_pure]

/-- Signs stand for their characters. -/
theorem tokenChars_signs (hp : p.Scans (front ++ rest))
    (hsigns : ∀ token ∈ front, token.kind.char?.isSome = true) :
    tokenChars front = (front.map Token.kind).filterMap TokenKind.char? := by
  induction front generalizing p with
  | nil => rfl
  | cons sign front ih =>
    obtain ⟨cs, -, hread, hrest⟩ := hp.cons
    obtain ⟨c, hc⟩ := Option.isSome_iff_exists.1 (hsigns sign (.head _))
    rw [tokenChars_cons, ih hrest fun token hmem => hsigns token (.tail _ hmem), hread.eq_char hc]
    simp [hc]

/-- A name with signs before it is kept as it stands. -/
theorem signedName_kept {signs : List TokenKind} {kind : LeafKind} (hp : p.Scans s.rest)
    (hsigns : ∀ sign ∈ signs, sign.isWord = true ∧ sign.char?.isSome = true)
    (hmarks : Node.chars (Node.leafMarks kind).1 = signs.filterMap TokenKind.char? ∧
      (Node.leafMarks kind).2 = []) (hkind : kind ≠ .combinator)
    (h : signedName signs kind s = .ok tree s') :
    ∃ front, s.rest = front ++ s'.rest ∧ signs.length < front.length ∧
      Kept (fun _ => signedName signs kind) tree front s'.rest := by
  obtain ⟨front, name, hs, hkinds, hname, hends, -, rfl⟩ := (signedName_eq_ok hp.text_ne).1 h
  have hmem : ∀ token ∈ front, token.kind ∈ signs :=
    fun token hmem => hkinds ▸ List.mem_map_of_mem hmem
  rw [hs] at hp
  have hchars := tokenChars_signs hp fun token h => (hsigns _ (hmem token h)).2
  refine ⟨front ++ name, by rw [hs, List.append_assoc], ?_, ?_, ?_, ?_, ?_, ?_⟩
  · have hpos := List.length_pos_iff.2 hname.ne_nil
    rw [← hkinds, List.length_map, List.length_append]
    omega
  · intro token h
    rcases List.mem_append.1 h with h | h
    · exact (hsigns _ (hmem token h)).1
    · exact hname.words token h
  · simp [hname.ne_nil]
  · cases kind <;> first | rfl | exact absurd rfl hkind
  · rw [Node.compact_leaf, hmarks.1, hmarks.2, tokenChars_append, hchars, hkinds,
      toList_concat_text]
    simp
  · intro _ s₁ front₁ rest₁ hs₁ hcore hnext hne
    rw [List.map_append] at hcore
    obtain ⟨front', name', rfl, hfront, hname'⟩ := List.map_eq_append_iff.1 hcore
    refine ⟨_, (signedName_eq_ok hne).2 ⟨front', name', by rw [hs₁, List.append_assoc], ?_,
      hname.congr hname', hends.of_nextLike hnext, rfl, rfl⟩, ?_⟩
    · rw [map_kind_congr hfront, hkinds]
    · rw [Node.bare_leaf, Node.bare_leaf, map_text_congr hname']

/-! ## Names with a namespace -/

/-- A name is kept as it stands, with the namespace it may have. -/
theorem qualifiedName_kept (hp : p.Scans s.rest) (hnext : StartsPart s'.rest)
    (h : qualifiedName false s = .ok tree s') : ∃ front, s.rest = front ++ s'.rest ∧
      ReadsQualified false front s'.rest ∧
      Kept (fun _ => qualifiedName false) tree front s'.rest := by
  obtain ⟨front, hpass, rfl, hreads⟩ := (qualifiedName_eq_ok hp.text_ne).1 h
  refine ⟨front, hpass.rest, hreads, hreads.words, hreads.ne_nil, rfl, ?_,
    fun n s₁ front' rest' hs hcore hlike hne => ?_⟩
  · rw [Node.compact_leaf, toList_concat_text]
    simp [Node.leafMarks]
  · have hreads' := hreads.before hcore (canFollow_of_nextLike hnext hlike)
    refine ⟨_, (qualifiedName_eq_ok hne).2 ⟨front', ⟨hs, rfl⟩, rfl, hreads'⟩, ?_⟩
    rw [Node.bare_leaf, Node.bare_leaf, map_text_congr hcore]

/-! ## Percentages -/

theorem percentageOrName_percent {number : List Token} {percent : Token}
    (hnumber : numberLength? (number ++ percent :: rest) = some number.length)
    (hk : percent.kind = .percentSign) (hs : s.rest = number ++ percent :: rest) :
    percentageOrName s = .ok (.leaf (s.rest.head?.map Token.start) .percentage
      (Text.concat (number.map Token.text))) { s with rest } := by
  have hpercent : (number ++ percent :: rest)[number.length]?.map Token.kind =
      some .percentSign := by
    simp [hk]
  simp only [percentageOrName, get_bind_run, hs, hnumber, hpercent, if_true, here_bind_run,
    takeMany_bind_run, advance_bind_run, run_pure, List.take_left, List.drop_left, List.tail_cons]

theorem percentageOrName_of_none (h : numberLength? s.rest = none) :
    percentageOrName s = qualifiedName false s := by
  simp only [percentageOrName, get_bind_run, h]

theorem IsName.numberLength?_eq_none (h : IsName false tokens) :
    numberLength? (tokens ++ rest) = none := by
  obtain ⟨hyphens, first, more, rfl, hlen, hhyphens, hfirst, -⟩ := h
  match hyphens, hlen with
  | [], _ => rcases hfirst with hk | hk <;> simp [numberLength?, countIf, hk]
  | [hyphen], _ =>
    have hk := hhyphens hyphen (by simp)
    rcases hfirst with hk' | hk' <;> simp [numberLength?_hyphen hk, peek, hk', TokenKind.isNeutral]

/-- No number stands where a name does. -/
theorem ReadsQualified.numberLength?_eq_none (h : ReadsQualified false front rest) :
    numberLength? (front ++ rest) = none := by
  cases h with
  | star hk => simp [numberLength?, countIf, hk]
  | bar hopens =>
    obtain ⟨bar, more, heq, hk, -⟩ := hopens
    rw [heq]
    simp [numberLength?, countIf, hk]
  | name hname =>
    rw [List.append_assoc]
    exact hname.numberLength?_eq_none

/-- A percentage, or a name that a hyphen opens, is kept as it stands. -/
theorem percentageOrName_kept (hp : p.Scans s.rest) (hnext : StartsPart s'.rest)
    (h : percentageOrName s = .ok tree s') : ∃ front, s.rest = front ++ s'.rest ∧
      Kept (fun _ => percentageOrName) tree front s'.rest := by
  -- A name is no number, so that its tokens are read as a name again.
  have hname : qualifiedName false s = .ok tree s' → ∃ front, s.rest = front ++ s'.rest ∧
      Kept (fun _ => percentageOrName) tree front s'.rest := by
    intro h
    obtain ⟨front, hrest, hreads, hkept⟩ := qualifiedName_kept hp hnext h
    refine ⟨front, hrest, hkept.words, hkept.ne_nil, hkept.notDeep, hkept.compact, ?_⟩
    intro n s₁ front' rest' hs₁ hcore hlike hne
    have hreads' := hreads.before hcore (canFollow_of_nextLike hnext hlike)
    rw [percentageOrName_of_none (by rw [hs₁]; exact hreads'.numberLength?_eq_none)]
    exact hkept.run n s₁ front' rest' hs₁ hcore hlike hne
  cases hnumber : numberLength? s.rest with
  | none => exact hname (percentageOrName_of_none hnumber ▸ h)
  | some count =>
    by_cases hpercent : s.rest[count]?.map Token.kind = some .percentSign
    · obtain ⟨percent, hmem, hk⟩ := Option.map_eq_some_iff.1 hpercent
      obtain ⟨number, rest', hrest, hlen⟩ : ∃ number rest', s.rest = number ++ percent :: rest' ∧
          number.length = count := by
        obtain ⟨hlt, rfl⟩ := List.getElem?_eq_some_iff.1 hmem
        refine ⟨s.rest.take count, s.rest.drop (count + 1), ?_, by simp; omega⟩
        rw [← List.drop_eq_getElem_cons hlt, List.take_append_drop]
      rw [hrest, ← hlen] at hnumber
      obtain ⟨rfl, rfl⟩ :=
        EStateM.Result.ok.inj ((percentageOrName_percent hnumber hk hrest).symm.trans h)
      refine ⟨number ++ [percent], by simp [hrest], ?_, by simp, rfl, ?_, ?_⟩
      · intro token hmem
        rcases List.mem_append.1 hmem with hmem | hmem
        · rcases numberLength?_kinds hnumber token (by simpa using hmem) with hk | hk | hk <;>
            rw [hk] <;> rfl
        · rw [List.mem_singleton.1 hmem, hk]
          rfl
      · rw [hrest] at hp
        obtain ⟨_, -, hp₁⟩ := hp.append
        obtain ⟨_, -, hread, -⟩ := hp₁.cons
        rw [hk] at hread
        simp [Node.leafMarks, toList_concat_text, hread.eq_char rfl]
      · intro _ s₁ front' rest₁ hs₁ hcore _ _
        rw [List.map_append] at hcore
        obtain ⟨number', last, rfl, hcore', hlast⟩ := List.map_eq_append_iff.1 hcore
        obtain ⟨percent', rfl, hpercent'⟩ := exists_of_map_core_singleton hlast
        have hk' : percent'.kind = .percentSign := (Token.kind_eq_of_core hpercent').trans hk
        have hlen' : number'.length = number.length := by simpa using congrArg List.length hcore'
        have hnumber' : numberLength? (number' ++ percent' :: rest₁) = some number'.length := by
          have hsame : numberLength? (number' ++ percent' :: rest₁) =
              numberLength? (number ++ percent :: rest₁) :=
            numberLength?_congr (by simp [map_kind_congr hcore', hk, hk'])
          rw [hsame, hlen']
          exact numberLength?_append_congr hnumber (by simp [peek])
        refine ⟨_, percentageOrName_percent hnumber' hk' (by simp [hs₁]), ?_⟩
        rw [Node.bare_leaf, Node.bare_leaf, map_text_congr hcore']
    · refine hname ?_
      simp only [percentageOrName, get_bind_run, hnumber, hpercent, if_false] at h
      exact h

/-! ## Pseudo-classes and pseudo-elements -/

theorem pseudo_eq {first second : Token} (hs : s.rest = first :: second :: rest) :
    pseudo inner s = if second.kind = .colon then pseudoElement s
      else if second.kind = .ident && second.spells "nth" then nthSelector s
      else pseudoClass inner s := by
  simp only [pseudo, lookup?_bind_run, hs, List.getElem?_cons_succ, List.getElem?_cons_zero]
  split
  · rfl
  · split <;> rfl

/-- A colon and a name are a pseudo-class, if no parenthesis follows. -/
theorem pseudoClass_of_name (h : signedName [.colon] .pseudoClass s = .ok tree s')
    (hnext : NotAt .leftParen s'.rest) : pseudoClass inner s = .ok tree s' := by
  simp only [signedName, expectAll, here_bind_run, bind_assoc, pure_bind] at h
  obtain ⟨_, s₁, hcolon, h⟩ := bind_eq_ok.1 h
  obtain ⟨name, s₂, hname, h⟩ := bind_eq_ok.1 h
  obtain ⟨rfl, rfl⟩ := EStateM.Result.ok.inj h
  have hnext' : decide (s₂.rest.head?.map Token.kind = some .leftParen) = false :=
    decide_eq_false hnext
  simp only [pseudoClass, here_bind_run, bind_of_ok hcolon, bind_of_ok hname, isAt_bind_run, hnext',
    Bool.false_eq_true, if_false, run_pure]

/-- A colon opens a function: of a series of places, or of another name. -/
inductive PseudoCall (inner : Nested) (s : ParserState) (tree : Tree)
    (s' : ParserState) : Prop where
  | nth {first second rest} : s.rest = first :: second :: rest → second.kind = .ident →
    second.spells "nth" = true → nthSelector s = .ok tree s' → PseudoCall inner s tree s'
  | call {first second rest name s₁} : s.rest = first :: second :: rest →
    second.kind ≠ .colon → (second.kind = .ident → second.spells "nth" = false) →
    readName false { s with rest := second :: rest } = .ok name s₁ →
    s₁.rest.head?.map Token.kind = some .leftParen →
    function inner .selector (some second.start) name s₁ = .ok tree s' → PseudoCall inner s tree s'

theorem PseudoCall.mem_leftParen (h : PseudoCall inner s tree s')
    (hne : ∀ token ∈ s.rest, token.text ≠ "") : ∃ token ∈ s.rest, token.kind = .leftParen := by
  -- A parenthesis follows the name.
  have key : ∀ {s₀ s₁ : ParserState} {name : String}, s₀.rest <:+ s.rest →
      readName false s₀ = .ok name s₁ → s₁.rest.head?.map Token.kind = some .leftParen →
      ∃ token ∈ s.rest, token.kind = .leftParen := by
    intro s₀ s₁ name hsuffix hname hparen
    obtain ⟨token, hmem, hk⟩ := Option.map_eq_some_iff.1 hparen
    obtain ⟨tokens, hrest, -⟩ :=
      (readName_eq_ok fun token hmem => hne token (hsuffix.subset hmem)).1 hname
    refine ⟨token, hsuffix.subset ?_, hk⟩
    rw [hrest]
    exact List.mem_append_right _ (List.mem_of_mem_head? hmem)
  cases h with
  | nth _ _ _ hread =>
    rw [nthSelector, here_bind_run] at hread
    obtain ⟨_, _, hcolon, hread⟩ := bind_eq_ok.1 hread
    obtain ⟨colon, rest, hs, -, rfl⟩ := expect_eq_ok.1 hcolon
    obtain ⟨name, s₁, hname, hread⟩ := bind_eq_ok.1 hread
    obtain ⟨_, _, hparen, -⟩ := bind_eq_ok.1 hread
    obtain ⟨opening, rest', hs₁, hk, -⟩ := expect_eq_ok.1 hparen
    exact key (hs ▸ List.suffix_cons _ _) hname (by rw [hs₁, List.head?_cons, Option.map_some, hk])
  | call hs _ _ hname hparen _ => exact key (hs ▸ List.suffix_cons _ _) hname hparen

/-- What a colon opens is kept as it stands, or is a function. -/
theorem pseudo_kept_or (hp : p.Scans s.rest) (hs : s.rest = token :: rest)
    (h : pseudo inner s = .ok tree s') :
    (∃ front, s.rest = front ++ s'.rest ∧ Kept (fun n => pseudo (.upTo n)) tree front s'.rest) ∨
      PseudoCall inner s tree s' := by
  cases rest with
  | nil => simp [pseudo, hs] at h
  | cons second rest =>
    have hfront : ∀ front : List Token, s.rest = front ++ s'.rest → 2 ≤ front.length →
        ∃ more, front = token :: second :: more := by
      intro front hrest hlen
      match front, hlen with
      | first :: second' :: more, _ =>
        obtain ⟨rfl, htail⟩ := List.cons.inj (hs.symm.trans hrest)
        obtain ⟨rfl, -⟩ := List.cons.inj htail
        exact ⟨more, rfl⟩
    rw [pseudo_eq hs] at h
    by_cases hcolon : second.kind = .colon
    · rw [if_pos hcolon, pseudoElement_eq] at h
      obtain ⟨front, hrest, hlen, hkept⟩ := signedName_kept hp (by decide) ⟨rfl, rfl⟩ (by decide) h
      obtain ⟨more, rfl⟩ := hfront front hrest (Nat.le_of_lt hlen)
      refine .inl ⟨_, hrest, hkept.of_second
        fun n s first' second' more tree' s' hs hcore _ hrun => ?_⟩
      rw [pseudo_eq hs, if_pos ((Token.kind_eq_of_core hcore).trans hcolon), pseudoElement_eq, hrun]
    rw [if_neg hcolon] at h
    by_cases hnth : (second.kind = .ident && second.spells "nth") = true
    · rw [if_pos hnth] at h
      simp only [Bool.and_eq_true, decide_eq_true_eq] at hnth
      exact .inr (.nth hs hnth.1 hnth.2 h)
    rw [if_neg hnth] at h
    rw [pseudoClass, here_bind_run] at h
    obtain ⟨_, s₁, hexpect, h⟩ := bind_eq_ok.1 h
    obtain ⟨_, _, hs₀, hk₀, rfl⟩ := expect_eq_ok.1 hexpect
    obtain ⟨rfl, rfl⟩ := List.cons.inj (hs.symm.trans hs₀)
    rw [here_bind_run] at h
    obtain ⟨name, s₂, hname, h⟩ := bind_eq_ok.1 h
    rw [isAt_bind_run] at h
    by_cases hparen : s₂.rest.head?.map Token.kind = some .leftParen
    · simp only [hparen, decide_true, if_true] at h
      simp only [Bool.and_eq_true, decide_eq_true_eq, not_and, Bool.not_eq_true] at hnth
      exact .inr (.call hs hcolon hnth hname hparen h)
    · simp only [hparen, decide_false, Bool.false_eq_true, if_false] at h
      obtain ⟨rfl, rfl⟩ := EStateM.Result.ok.inj h
      have hread : signedName [.colon] .pseudoClass s =
          .ok (.leaf (s.rest.head?.map Token.start) .pseudoClass name) s₂ := by
        simp only [signedName, expectAll, here_bind_run, bind_assoc, pure_bind, bind_of_ok hexpect,
          bind_of_ok hname, run_pure]
      obtain ⟨front, hrest, hlen, hkept⟩ :=
        signedName_kept hp (by decide) ⟨rfl, rfl⟩ (by decide) hread
      obtain ⟨more, rfl⟩ := hfront front hrest hlen
      refine .inl ⟨_, hrest, hkept.of_second
        fun n s first' second' more tree' s' hs hcore hnext hrun => ?_⟩
      have hspells : second'.spells "nth" = second.spells "nth" := by
        rw [Token.spells, Token.spells, Token.text_eq_of_core hcore]
      rw [pseudo_eq hs, Token.kind_eq_of_core hcore, if_neg hcolon, hspells, if_neg hnth]
      exact pseudoClass_of_name hrun (NotAt.of_nextLike hparen rfl hnext)

end StyleTree.Grammar
