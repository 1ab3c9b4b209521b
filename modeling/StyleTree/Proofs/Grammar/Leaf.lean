import Mathlib.Data.List.TakeDrop
import StyleTree.Grammar.Component
import StyleTree.Proofs.Grammar.Rereads

/-! Names, numbers and the other leaves that are kept as they stand. Each reader of such a leaf
reads the same leaf again from its text: `Reprints` is the statement for one run of a reader, and
the main lemmas are `readName_rereads`, `measured_reprints` and `unicodeRange_reprints`. -/

namespace StyleTree

open StyleTree.Parser

/-- A reader for each number of tokens can be given `w` in place of what was read between two
states, before every text in `next` of the place that was reached. -/
def Echoes {α : Type} (p : Place) (s s' : ParserState) (next : Place → List Char → Prop)
    (w : List Char) (reader : Nat → Parser α) (post : α → Prop) : Prop :=
  ∃ p' : Place, p'.Scans s'.rest ∧ p'.firm = p.firm ∧ Balanced s.rest s'.rest ∧
    ∀ n, Rereads n p p' (next p') w (reader n) post

/-- The tree that was read between two states is read again from its compact text. -/
def Reprints (p : Place) (s : ParserState) (tree : Tree) (s' : ParserState)
    (reader : Nat → Parser Tree) : Prop :=
  Echoes p s s' Place.Follow tree.compact reader fun tree' => tree'.bare = tree.bare

variable {p : Place} {s s' : ParserState} {tokens tokens' : List Token}

/-- A tree whose text is that of its tokens is read again by a reader that looks at these tokens and
at what can be seen ahead. -/
theorem reprints_of_verbatim {tree : Tree} (reader : Nat → Parser Tree) (hp : p.Scans s.rest)
    (hs : s.rest = tokens ++ s'.rest) (hne : tokens ≠ [])
    (hkinds : ∀ token ∈ tokens, token.kind ≠ .unknown ∧ token.kind ≠ .comment ∧
      token.kind ≠ .leftParen ∧ token.kind ≠ .rightParen)
    (hcompact : tree.compact = tokenChars tokens)
    (hrun : ∀ n s₁ front rest, s₁.rest = front ++ rest →
      front.map Token.core = tokens.map Token.core →
      peek (s'.rest.map Token.kind) = peek (rest.map Token.kind) →
      (∀ token ∈ s₁.rest, token.text ≠ "") →
      ∃ tree', reader n s₁ = .ok tree' { s₁ with rest } ∧ tree'.bare = tree.bare) :
    Reprints p s tree s' reader := by
  rw [hs] at hp
  obtain ⟨cs', htext, hp'⟩ := hp.append
  refine ⟨_, hp', rfl, ?_, fun n => ?_⟩
  · rw [hs]
    exact .of_forall fun token hmem => (hkinds token hmem).2.2
  · rw [hcompact]
    refine rereads_verbatim _ _ hp htext hp' hne (fun token hmem => ?_) (hrun n)
    have := hkinds token (List.mem_of_getLast? hmem)
    exact ⟨this.1, this.2.1⟩

/-- A reader reads again what another one does, if it goes on with that one. -/
theorem Reprints.congr {tree : Tree} {reader reader' : Nat → Parser Tree}
    (h : Reprints p s tree s' reader)
    (heq : ∀ n cs s₁ tree' s₂, p.Follow cs → (p.put cs).Scans s₁.rest →
      reader n s₁ = .ok tree' s₂ → reader' n s₁ = .ok tree' s₂) : Reprints p s tree s' reader' := by
  obtain ⟨p', hp', hfirm, hbalanced, hrereads⟩ := h
  refine ⟨p', hp', hfirm, hbalanced, fun n => ⟨(hrereads n).follow, fun cs s₁ hcs hs₁ hlt => ?_⟩⟩
  obtain ⟨tree', s₂, hrun, hrest⟩ := (hrereads n).run cs s₁ hcs hs₁ hlt
  exact ⟨tree', s₂, heq n _ s₁ tree' s₂ ((hrereads n).follow cs hcs) hs₁ hrun, hrest⟩

/-- A reader that goes by the kind of the first token finds a token of that kind again. -/
theorem Reprints.of_kind {tree : Tree} {reader reader' : Nat → Parser Tree} {token : Token}
    {rest : List Token} (h : Reprints p s tree s' reader) (hp : p.Scans s.rest)
    (hs : s.rest = token :: rest) (hseen : token.kind.isNeutral = false)
    (heq : ∀ n s₁ token' rest', s₁.rest = token' :: rest' → token'.kind = token.kind →
      reader' n s₁ = reader n s₁) : Reprints p s tree s' reader' := by
  refine h.congr fun n cs s₁ tree' s₂ hfollow hs₁ hrun => ?_
  have hkind : s₁.rest.head?.map Token.kind = some token.kind :=
    (head?_kind_iff_of_peek_eq (hfollow.peek_eq hp hs₁) hseen).1 (by rw [hs]; rfl)
  obtain ⟨token', hmem, hk⟩ := Option.map_eq_some_iff.1 hkind
  obtain ⟨rest', hs₁'⟩ := List.head?_eq_some_iff.1 hmem
  rw [heq n s₁ token' rest' hs₁' hk, hrun]

namespace Grammar

theorem map_kind_congr (h : tokens'.map Token.core = tokens.map Token.core) :
    tokens'.map Token.kind = tokens.map Token.kind := by
  have hkinds := congrArg (List.map Prod.fst) h
  rw [List.map_map, List.map_map] at hkinds
  exact hkinds

theorem map_text_congr (h : tokens'.map Token.core = tokens.map Token.core) :
    tokens'.map Token.text = tokens.map Token.text := by
  have := congrArg (List.map (String.ofList ∘ Prod.snd)) h
  simpa [Function.comp_def] using this

/-! ## Names -/

theorem IsName.congr {custom : Bool} (h : IsName custom tokens)
    (hcore : tokens'.map Token.core = tokens.map Token.core) : IsName custom tokens' := by
  obtain ⟨hyphens, first, more, rfl, hlen, hhyphens, hfirst, hmore⟩ := h
  rw [List.map_append, List.map_cons] at hcore
  obtain ⟨hyphens', tail, rfl, hh, htail⟩ := List.map_eq_append_iff.1 hcore
  obtain ⟨first', more', rfl, hf, hm⟩ := List.map_eq_cons_iff.1 htail
  have hkinds := map_kind_congr hh
  have hkinds' := map_kind_congr hm
  refine ⟨hyphens', first', more', rfl, ?_, fun token hmem => ?_, ?_, fun token hmem => ?_⟩
  · have : hyphens'.length = hyphens.length := by simpa using congrArg List.length hh
    omega
  · have hk : token.kind ∈ hyphens.map Token.kind := hkinds ▸ List.mem_map_of_mem hmem
    obtain ⟨other, hother, hk⟩ := List.mem_map.1 hk
    rw [← hk, hhyphens other hother]
  · rwa [Token.kind_eq_of_core hf]
  · have hk : token.kind ∈ more.map Token.kind := hkinds' ▸ List.mem_map_of_mem hmem
    obtain ⟨other, hother, hk⟩ := List.mem_map.1 hk
    have := hmore other hother
    rw [isNamePart] at this ⊢
    rwa [← hk]

theorem endsName_congr (h : peek (tokens.map Token.kind) = peek (tokens'.map Token.kind))
    (hends : EndsName tokens) : EndsName tokens' := by
  intro token hmem
  have key : ∀ kind : TokenKind, kind.isNeutral = false → token.kind = kind →
      ∃ other ∈ tokens.head?, other.kind = kind := by
    intro kind hneutral hkind
    have := (head?_kind_iff_of_peek_eq h hneutral).2 (by rw [Option.mem_def.1 hmem, ← hkind]; rfl)
    obtain ⟨other, hother, hkind⟩ := Option.map_eq_some_iff.1 this
    exact ⟨other, hother, hkind⟩
  have hpart : ∀ kind : TokenKind, kind.isNeutral = false →
      isNamePart ⟨kind, "", 0⟩ = true → token.kind ≠ kind := by
    intro kind hneutral hkind hk
    obtain ⟨other, hother, hother'⟩ := key kind hneutral hk
    have := hends other hother
    rw [isNamePart] at this hkind
    simp [hother', hkind] at this
  rw [isNamePart]
  split
  next hk => exact absurd hk (hpart _ rfl rfl)
  next hk => exact absurd hk (hpart _ rfl rfl)
  next hk => exact absurd hk (hpart _ rfl rfl)
  next hk => exact absurd hk (hpart _ rfl rfl)
  next => rfl

theorem IsName.kinds {custom : Bool} (h : IsName custom tokens) : ∀ token ∈ tokens,
    token.kind = .lowLine ∨ token.kind = .ident ∨ token.kind = .number ∨
      token.kind = .hyphenMinus := by
  obtain ⟨hyphens, first, more, rfl, -, hhyphens, hfirst, hmore⟩ := h
  intro token hmem
  rcases List.mem_append.1 hmem with hmem | hmem
  · simp [hhyphens token hmem]
  · rcases List.mem_cons.1 hmem with rfl | hmem
    · rcases hfirst with h | h <;> simp [h]
    · have := hmore token hmem
      rw [isNamePart] at this
      cases hk : token.kind <;> simp_all

theorem IsName.ne_nil {custom : Bool} (h : IsName custom tokens) : tokens ≠ [] := by
  obtain ⟨hyphens, first, more, rfl, -⟩ := h
  simp

theorem IsName.balanced {custom : Bool} {rest : List Token} (h : IsName custom tokens) :
    Balanced (tokens ++ rest) rest :=
  .of_forall fun token hmem => by
    rcases h.kinds token hmem with hk | hk | hk | hk <;> simp [hk]

theorem IsName.last {custom : Bool} (h : IsName custom tokens) :
    ∀ token ∈ tokens.getLast?, token.kind ≠ .unknown ∧ token.kind ≠ .comment := by
  intro token hmem
  rcases h.kinds token (List.mem_of_getLast? hmem) with hk | hk | hk | hk <;> simp [hk]

theorem readName_congr {custom : Bool} {rest rest' : List Token} (h : IsName custom tokens)
    (hends : EndsName rest) (hs : s.rest = tokens' ++ rest')
    (hcore : tokens'.map Token.core = tokens.map Token.core)
    (hpeek : peek (rest.map Token.kind) = peek (rest'.map Token.kind))
    (hne : ∀ token ∈ s.rest, token.text ≠ "") :
    readName custom s = .ok (Text.concat (tokens.map Token.text)) { s with rest := rest' } := by
  refine (readName_eq_ok hne).2 ⟨tokens', hs, rfl, ?_, h.congr hcore, endsName_congr hpeek hends⟩
  rw [map_text_congr hcore]

/-- A name is read again from its text. -/
theorem readName_rereads {custom : Bool} {name : String} (hp : p.Scans s.rest)
    (h : readName custom s = .ok name s') :
    ∃ tokens cs, s.rest = tokens ++ s'.rest ∧ IsName custom tokens ∧
      name = Text.concat (tokens.map Token.text) ∧ EndsName s'.rest ∧
      p.text = tokenChars tokens ++ cs ∧ (p.afterAll tokens cs).Scans s'.rest ∧
      ∀ n, Rereads n p (p.afterAll tokens cs) (p.afterAll tokens cs).Follow name.toList
        (readName custom) (· = name) := by
  obtain ⟨tokens, hrest, -, rfl, hname, hends⟩ := (readName_eq_ok hp.text_ne).1 h
  rw [hrest] at hp
  obtain ⟨cs, htext, hp'⟩ := hp.append
  rw [toList_concat_text]
  refine ⟨tokens, cs, hrest, hname, rfl, hends, htext, hp', fun n => ?_⟩
  exact rereads_verbatim _ _ hp htext hp' hname.ne_nil hname.last
    fun s₁ front rest hs hcore hpeek hne => ⟨_, readName_congr hname hends hs hcore hpeek hne, rfl⟩

/-! ## Leaves of one token -/

theorem tokenLeaf_eq {kind : LeafKind} {token : Token} {rest : List Token}
    (hs : s.rest = token :: rest) :
    tokenLeaf kind s = .ok (.leaf (some token.start) kind token.text) { s with rest } := by
  simp only [tokenLeaf, here_bind_run, take_bind_run, hs, List.head?_cons, Option.map_some,
    Option.getD_some, List.tail_cons, run_pure]

theorem exists_of_map_core_singleton {token : Token}
    (h : tokens.map Token.core = [token].map Token.core) :
    ∃ token', tokens = [token'] ∧ token'.core = token.core := by
  simpa [List.map_eq_cons_iff] using h

/-- A leaf that holds the text of one token is read again. -/
theorem tokenLeaf_reprints {kind : LeafKind} {tree : Tree} {token : Token} {rest : List Token}
    (hp : p.Scans s.rest) (hs : s.rest = token :: rest) (hmarks : Node.leafMarks kind = ([], []))
    (hkind : token.kind ≠ .unknown ∧ token.kind ≠ .comment ∧
      token.kind ≠ .leftParen ∧ token.kind ≠ .rightParen)
    (h : tokenLeaf kind s = .ok tree s') : Reprints p s tree s' fun _ => tokenLeaf kind := by
  rw [tokenLeaf_eq hs, EStateM.Result.ok.injEq] at h
  obtain ⟨rfl, rfl⟩ := h
  have hs' : s.rest = [token] ++ rest := hs
  refine reprints_of_verbatim _ hp hs' (by simp) (by simpa using hkind) (by simp [hmarks]) ?_
  intro _ s₁ front rest' hs₁ hcore _ _
  obtain ⟨token', rfl, hcore'⟩ := exists_of_map_core_singleton hcore
  refine ⟨_, tokenLeaf_eq hs₁, ?_⟩
  rw [Node.bare_leaf, Node.bare_leaf, Token.text_eq_of_core hcore']

/-! ## Hashes -/

/-- The tokens of a hash before the given ones: a number sign, and a name token or digits with the
name token that follows them, if one does. -/
inductive IsHash : List Token → List Token → Prop where
  | name {sign name rest} : sign.kind = .numberSign → name.kind = .ident → IsHash [sign, name] rest
  | digits {sign digits rest} : sign.kind = .numberSign → digits.kind = .number →
    rest.head?.map Token.kind ≠ some .ident → IsHash [sign, digits] rest
  | both {sign digits name rest} : sign.kind = .numberSign → digits.kind = .number →
    name.kind = .ident → IsHash [sign, digits, name] rest

theorem hash_of_isHash {rest : List Token} (h : IsHash tokens rest) (hs : s.rest = tokens ++ rest) :
    hash s = .ok (.leaf (s.rest.head?.map Token.start) .hash
      (Text.concat (tokens.tail.map Token.text))) { s with rest } := by
  cases h with
  | name hsign hname => simp [hash, expect, hs, hsign, hname, Text.concat]
  | digits hsign hdigits hrest =>
    simp [hash, expect, hs, hsign, hdigits, takeIf_eq, hrest, Text.concat]
  | both hsign hdigits hname =>
    simp [hash, expect, hs, hsign, hdigits, hname, takeIf_eq, Text.concat]

theorem isHash_of_hash {tree : Tree} (h : hash s = .ok tree s') :
    ∃ tokens, s.rest = tokens ++ s'.rest ∧ IsHash tokens s'.rest ∧
      tree.bare = .leaf none .hash (Text.concat (tokens.tail.map Token.text)) := by
  have key : ∀ tokens rest, s.rest = tokens ++ rest → IsHash tokens rest →
      ∃ tokens, s.rest = tokens ++ s'.rest ∧ IsHash tokens s'.rest ∧
        tree.bare = .leaf none .hash (Text.concat (tokens.tail.map Token.text)) := by
    intro tokens rest hs hhash
    rw [hash_of_isHash hhash hs, EStateM.Result.ok.injEq] at h
    obtain ⟨rfl, rfl⟩ := h
    exact ⟨tokens, hs, hhash, Node.bare_leaf ..⟩
  rw [hash, here_bind_run] at h
  obtain ⟨_, _, hexpect, h⟩ := bind_eq_ok.1 h
  obtain ⟨sign, rest, hs, hsign, rfl⟩ := expect_eq_ok.1 hexpect
  rw [kind?_bind_run] at h
  cases rest with
  | nil => simp at h
  | cons first rest =>
    cases hk : first.kind <;> simp only [List.head?_cons, Option.map_some, hk, fail_ne_ok] at h
    · exact key [sign, first] rest hs (.name hsign hk)
    · by_cases hname : rest.head?.map Token.kind = some .ident
      · obtain ⟨name, hmem, hkind⟩ := Option.map_eq_some_iff.1 hname
        obtain ⟨rest, rfl⟩ := List.head?_eq_some_iff.1 hmem
        exact key [sign, first, name] rest hs (.both hsign hk hkind)
      · exact key [sign, first] rest hs (.digits hsign hk hname)

theorem IsHash.congr {rest rest' : List Token} (h : IsHash tokens rest)
    (hcore : tokens'.map Token.core = tokens.map Token.core)
    (hpeek : peek (rest.map Token.kind) = peek (rest'.map Token.kind)) : IsHash tokens' rest' := by
  have hkinds := map_kind_congr hcore
  cases h with
  | name hsign hname =>
    simp only [List.map_cons, List.map_nil, List.map_eq_cons_iff, List.map_eq_nil_iff] at hkinds
    obtain ⟨sign', _, rfl, hsign', name', _, rfl, hname', rfl⟩ := hkinds
    exact .name (hsign'.trans hsign) (hname'.trans hname)
  | digits hsign hdigits hrest =>
    simp only [List.map_cons, List.map_nil, List.map_eq_cons_iff, List.map_eq_nil_iff] at hkinds
    obtain ⟨sign', _, rfl, hsign', digits', _, rfl, hdigits', rfl⟩ := hkinds
    refine .digits (hsign'.trans hsign) (hdigits'.trans hdigits) ?_
    exact fun h => hrest ((head?_kind_iff_of_peek_eq hpeek rfl).2 h)
  | both hsign hdigits hname =>
    simp only [List.map_cons, List.map_nil, List.map_eq_cons_iff, List.map_eq_nil_iff] at hkinds
    obtain ⟨sign', _, rfl, hsign', digits', _, rfl, hdigits', name', _, rfl, hname', rfl⟩ := hkinds
    exact .both (hsign'.trans hsign) (hdigits'.trans hdigits) (hname'.trans hname)

/-- A hash is read again from its text. -/
theorem hash_reprints {tree : Tree} (hp : p.Scans s.rest) (h : hash s = .ok tree s') :
    Reprints p s tree s' fun _ => hash := by
  obtain ⟨tokens, hs, hhash, htree⟩ := isHash_of_hash h
  have hsign : ∃ sign more, tokens = sign :: more ∧ sign.text.toList = ['#'] := by
    rw [hs] at hp
    cases hhash with
    | name hsign | digits hsign | both hsign =>
      refine ⟨_, _, rfl, ?_⟩
      obtain ⟨cs, -, hread, -⟩ := hp.cons
      rw [hsign] at hread
      exact hread.eq_char rfl
  refine reprints_of_verbatim _ hp hs ?_ ?_ ?_ ?_
  · obtain ⟨sign, more, rfl, -⟩ := hsign
    simp
  · cases hhash <;> simp_all
  · obtain ⟨sign, more, rfl, htext⟩ := hsign
    rw [Node.compact_of_bare_eq (htree.trans (Node.bare_leaf none .hash _).symm)]
    simp [Node.leafMarks, toList_concat_text, htext]
  · intro _ s₁ front rest hs₁ hcore hpeek _
    refine ⟨_, hash_of_isHash (hhash.congr hcore hpeek) hs₁, ?_⟩
    rw [htree, Node.bare_leaf, List.map_tail, List.map_tail, map_text_congr hcore]

/-! ## Numbers, percentages and dimensions -/

theorem measured_percent {info : Option Nat} {number : String} {token : Token} {rest : List Token}
    (hs : s.rest = token :: rest) (hk : token.kind = .percentSign) :
    measured info number s = .ok (.leaf info .percentage number) { s with rest } := by
  simp [measured, hs, hk]

theorem measured_number {info : Option Nat} {number : String}
    (hpercent : s.rest.head?.map Token.kind ≠ some .percentSign)
    (hunit : s.rest.head?.map Token.kind ≠ some .ident) :
    measured info number s = .ok (.leaf info .number number) s := by
  rw [measured, current?_bind_run]
  cases hs : s.rest with
  | nil => rfl
  | cons token rest =>
    simp only [hs, List.head?_cons, Option.map_some, ne_eq, Option.some.injEq] at hpercent hunit
    simp [hpercent, hunit]

theorem measured_unit {info : Option Nat} {number unit : String} {token : Token}
    {rest : List Token} (hs : s.rest = token :: rest) (hk : token.kind = .ident)
    (h : readUnit token s = .ok unit s') :
    measured info number s = .ok (.dimension info number unit) s' := by
  rw [measured, current?_bind_run]
  simp [hs, hk, h]

theorem readUnit_whole {token : Token} {rest : List Token} (hs : s.rest = token :: rest)
    (h : '\\' ∉ token.text.toList ∨ token.text.toList.head? = some '\\') :
    readUnit token s = .ok token.text { s with rest } := by
  have hspan : ((token.text.toList.span (· ≠ '\\')).1.isEmpty ||
      (token.text.toList.span (· ≠ '\\')).2.isEmpty) = true := by
    rw [List.span_eq_takeWhile_dropWhile]
    rcases h with h | h
    · have hdrop : token.text.toList.dropWhile (· ≠ '\\') = [] := by
        rw [List.dropWhile_eq_nil_iff]
        intro c hc
        simp only [ne_eq, decide_not, Bool.not_eq_true', decide_eq_false_iff_not]
        rintro rfl
        exact h hc
      rw [hdrop, List.isEmpty_nil, Bool.or_true]
    · obtain ⟨tail, htail⟩ := List.head?_eq_some_iff.1 h
      simp [htail]
  rw [readUnit]
  simp only [hspan, if_true, run_take, hs, List.head?_cons, Option.map_some, Option.getD_some,
    List.tail_cons]

theorem readUnit_cut {token : Token} {rest : List Token} {unit escape : List Char}
    (hs : s.rest = token :: rest) (htext : token.text.toList = unit ++ '\\' :: escape)
    (hunit : '\\' ∉ unit) (hne : unit ≠ []) :
    readUnit token s = .ok (String.ofList unit) { s with rest :=
      { token with text := String.ofList ('\\' :: escape),
                   start := token.start + Text.byteLength unit } :: rest } := by
  have hspan : token.text.toList.span (· ≠ '\\') = (unit, '\\' :: escape) := by
    have hfront : ∀ c ∈ unit, decide (c ≠ '\\') = true := by
      intro c hc
      rw [decide_eq_true_iff]
      rintro rfl
      exact hunit hc
    have hback : ∀ c ∈ ('\\' :: escape).head?, decide (c ≠ '\\') = false := by simp
    obtain ⟨htake, hdrop⟩ := takeWhile_eq_of_ends hfront hback
    rw [List.span_eq_takeWhile_dropWhile, htext, htake, hdrop]
  rw [readUnit, hspan]
  simp [hs, hne]

/-- A unit is a whole token, or the part of one before an escape. -/
theorem readUnit_cases (token : Token) :
    ('\\' ∉ token.text.toList ∨ token.text.toList.head? = some '\\') ∨
      ∃ unit escape, token.text.toList = unit ++ '\\' :: escape ∧ '\\' ∉ unit ∧ unit ≠ [] := by
  by_cases h : '\\' ∈ token.text.toList
  · obtain ⟨unit, escape, htext, hunit⟩ := List.eq_append_cons_of_mem h
    cases unit with
    | nil => exact .inl (.inr (by simp [htext]))
    | cons c unit => exact .inr ⟨c :: unit, escape, htext, hunit, by simp⟩
  · exact .inl (.inl h)

section
variable {reader : Nat → Parser Tree} {number back : List Token}

/-- The readers go on with `measured` where a number stands. -/
def ReadsNumbers (reader : Nat → Parser Tree) : Prop :=
  ∀ n s count, numberLength? s.rest = some count →
    reader n s = measured (s.rest.head?.map Token.start)
      (Text.concat ((s.rest.take count).map Token.text)) { s with rest := s.rest.drop count }

/-- A number is read again before tokens that look the same. -/
theorem ReadsNumbers.again {n : Nat} (hreader : ReadsNumbers reader)
    (hnumber : numberLength? (number ++ back) = some number.length) {front rest : List Token}
    (hs : s.rest = front ++ rest) (hcore : front.map Token.core = number.map Token.core)
    (hpeek : (peek (back.map Token.kind)).1 = (peek (rest.map Token.kind)).1) :
    reader n s = measured (s.rest.head?.map Token.start) (Text.concat (number.map Token.text))
      { s with rest } := by
  have hlength : front.length = number.length := by simpa using congrArg List.length hcore
  have hcount : numberLength? s.rest = some number.length := by
    have hkinds : (front ++ rest).map Token.kind = (number ++ rest).map Token.kind := by
      simp [map_kind_congr hcore]
    rw [hs, numberLength?_congr hkinds]
    exact numberLength?_append_congr hnumber hpeek
  rw [hreader n s _ hcount, hs, ← hlength, List.take_left, List.drop_left, map_text_congr hcore]

/-- A number and the token that belongs to it, if there is one, are read again. -/
theorem ReadsNumbers.reprints {tree : Tree} {last : List Token} (hreader : ReadsNumbers reader)
    (hp : p.Scans s.rest) (hs : s.rest = number ++ (last ++ s'.rest))
    (hnumber : numberLength? (number ++ (last ++ s'.rest)) = some number.length)
    (hlast : ∀ token ∈ last, token.kind = .percentSign ∨ token.kind = .ident)
    (hcompact : tree.compact = tokenChars number ++ tokenChars last)
    (hrun : ∀ info s₁ last' rest, s₁.rest = last' ++ rest →
      last'.map Token.core = last.map Token.core →
      peek (s'.rest.map Token.kind) = peek (rest.map Token.kind) →
      ∃ tree', measured info (Text.concat (number.map Token.text)) s₁ = .ok tree' { s₁ with rest } ∧
        tree'.bare = tree.bare) :
    Reprints p s tree s' reader := by
  have hne : number ≠ [] := List.length_pos_iff.1 (numberLength?_pos hnumber)
  have hs' : s.rest = (number ++ last) ++ s'.rest := by simp [hs]
  refine reprints_of_verbatim reader hp hs' (by simp [hne]) ?_ (by simpa using hcompact) ?_
  · intro token hmem
    rcases List.mem_append.1 hmem with hmem | hmem
    · rcases numberLength?_kinds hnumber token (by simpa using hmem) with hk | hk | hk <;> simp [hk]
    · rcases hlast token hmem with hk | hk <;> simp [hk]
  · intro n s₁ front rest hs₁ hcore hpeek _
    obtain ⟨number', last', rfl, hcore', hlast'⟩ :=
      List.map_eq_append_iff.1 (hcore.trans List.map_append)
    rw [List.append_assoc] at hs₁
    have hpeek' : (peek ((last ++ s'.rest).map Token.kind)).1 =
        (peek ((last' ++ rest).map Token.kind)).1 := by
      rw [List.map_append, List.map_append, map_kind_congr hlast']
      cases last with
      | nil => exact congrArg Prod.fst hpeek
      | cons token last => rfl
    rw [hreader.again hnumber hs₁ hcore' hpeek']
    exact hrun _ _ last' rest rfl hlast' hpeek

/-- A number with what belongs to it is read again, if its unit is a whole token. -/
theorem measured_reprints_of_whole {info : Option Nat} {tree : Tree} (hreader : ReadsNumbers reader)
    (hp : p.Scans s.rest) (hs : s.rest = number ++ back)
    (hnumber : numberLength? (number ++ back) = some number.length)
    (hwhole : ∀ token ∈ back.head?, token.kind = .ident →
      '\\' ∉ token.text.toList ∨ token.text.toList.head? = some '\\')
    (h : measured info (Text.concat (number.map Token.text))
      { s with rest := back } = .ok tree s') :
    Reprints p s tree s' reader := by
  by_cases hpercent : back.head?.map Token.kind = some .percentSign
  · obtain ⟨sign, hmem, hk⟩ := Option.map_eq_some_iff.1 hpercent
    obtain ⟨rest, rfl⟩ := List.head?_eq_some_iff.1 hmem
    rw [measured_percent rfl hk, EStateM.Result.ok.injEq] at h
    obtain ⟨rfl, rfl⟩ := h
    have hsign : sign.text.toList = ['%'] := by
      rw [hs] at hp
      obtain ⟨_, -, hp⟩ := hp.append
      obtain ⟨_, -, hread, -⟩ := hp.cons
      rw [hk] at hread
      exact hread.eq_char rfl
    have hs' : s.rest = number ++ ([sign] ++ rest) := hs
    refine hreader.reprints hp hs' hnumber (by simp [hk]) ?_ ?_
    · simp [Node.leafMarks, toList_concat_text, hsign]
    · intro info s₁ last' rest₁ hs₁ hcore _
      obtain ⟨sign', rfl, hsign'⟩ := exists_of_map_core_singleton hcore
      exact ⟨_, measured_percent hs₁ ((Token.kind_eq_of_core hsign').trans hk), by simp⟩
  · by_cases hunit : back.head?.map Token.kind = some .ident
    · obtain ⟨unit, hmem, hk⟩ := Option.map_eq_some_iff.1 hunit
      obtain ⟨rest, rfl⟩ := List.head?_eq_some_iff.1 hmem
      have htext := hwhole unit rfl hk
      rw [measured_unit rfl hk (readUnit_whole rfl htext), EStateM.Result.ok.injEq] at h
      obtain ⟨rfl, rfl⟩ := h
      have hs' : s.rest = number ++ ([unit] ++ rest) := hs
      refine hreader.reprints hp hs' hnumber (by simp [hk]) ?_ ?_
      · simp [toList_concat_text]
      · intro info s₁ last' rest₁ hs₁ hcore _
        obtain ⟨unit', rfl, hunit'⟩ := exists_of_map_core_singleton hcore
        rw [← Token.text_eq_of_core hunit'] at htext ⊢
        exact ⟨_, measured_unit hs₁ ((Token.kind_eq_of_core hunit').trans hk)
          (readUnit_whole hs₁ htext), by simp⟩
    · rw [measured_number hpercent hunit, EStateM.Result.ok.injEq] at h
      obtain ⟨rfl, rfl⟩ := h
      have hs' : s.rest = number ++ ([] ++ back) := hs
      refine hreader.reprints hp hs' hnumber (by simp) ?_ ?_
      · simp [Node.leafMarks, toList_concat_text]
      · intro info s₁ last' rest₁ hs₁ hcore hpeek
        obtain rfl := List.map_eq_nil_iff.1 hcore
        obtain rfl : rest₁ = s₁.rest := hs₁.symm
        refine ⟨.leaf info .number _, measured_number ?_ ?_, by simp⟩
        · exact fun h => hpercent ((head?_kind_iff_of_peek_eq hpeek rfl).2 h)
        · exact fun h => hunit ((head?_kind_iff_of_peek_eq hpeek rfl).2 h)

end

/-! ## Units that are cut at an escape -/

private theorem step_backslash {state : IdentifierState} (h : state.Outside) :
    state.step '\\' = some .escape := by
  rcases h with rfl | rfl <;> rfl

/-- The text from an escape on is read as it would be at the start of an identifier. -/
private theorem foldlM_escape_iff {u escape : List Char} {first last : IdentifierState}
    (hu : '\\' ∉ u) (hfirst : first.Outside) {mid : IdentifierState}
    (hmid : u.foldlM IdentifierState.step first = some mid) :
    (u ++ '\\' :: escape).foldlM IdentifierState.step first = some last ↔
      escape.foldlM IdentifierState.step .escape = some last := by
  rw [List.foldlM_append, hmid]
  simp [step_backslash (IdentifierState.outside_of_foldlM hu hfirst hmid)]

private theorem reads_escape_iff {state : ScanState} {escape rest : List Char} :
    Reads state .ident ('\\' :: escape) rest ↔ ∃ last,
      escape.foldlM IdentifierState.step .escape = some last ∧
        Stops IdentifierState.step last rest := by
  constructor
  · intro h
    cases h with
    | name _ hv hrest => exact ⟨_, hv, hrest⟩
    | sign _ hsign _ => exact nomatch hsign
  · exact fun ⟨last, hv, hrest⟩ => .name rfl hv hrest

/-- What an identifier can start with before an escape makes no difference to what follows. -/
theorem reads_cut_iff {state : ScanState} {unit escape₀ rest₀ escape rest : List Char}
    (h₀ : Reads state .ident (unit ++ '\\' :: escape₀) rest₀) (hunit : '\\' ∉ unit)
    (hne : unit ≠ []) :
    Reads state .ident (unit ++ '\\' :: escape) rest ↔
    Reads state .ident ('\\' :: escape) rest := by
  have key : ∀ u first last, '\\' ∉ u → first.Outside →
      (u ++ '\\' :: escape₀).foldlM IdentifierState.step first = some last →
      ∀ last, (u ++ '\\' :: escape).foldlM IdentifierState.step first = some last ↔
        escape.foldlM IdentifierState.step .escape = some last := by
    intro u first last hu hfirst hv
    rw [List.foldlM_append] at hv
    obtain ⟨mid, hmid, -⟩ := Option.bind_eq_some_iff.1 hv
    exact fun last => foldlM_escape_iff hu hfirst hmid
  rw [reads_escape_iff]
  generalize hw : unit ++ '\\' :: escape₀ = w at h₀
  cases h₀ with
  | @name c v last _ hc hv _ =>
    obtain ⟨u, rfl, rfl⟩ : ∃ u, unit = c :: u ∧ v = u ++ '\\' :: escape₀ := by
      cases unit with
      | nil => exact absurd rfl hne
      | cons d u =>
        simp only [List.cons_append, List.cons.injEq] at hw
        exact ⟨u, by rw [hw.1], hw.2.symm⟩
    rw [List.mem_cons, not_or] at hunit
    rw [if_neg (Ne.symm hunit.1)] at hv
    have hiff := key u .plain last hunit.2 (.inl rfl) hv
    constructor
    · intro h
      generalize hw' : c :: u ++ '\\' :: escape = w' at h
      cases h with
      | @name _ _ last _ _ hv' hrest =>
        obtain ⟨rfl, rfl⟩ := List.cons.inj hw'
        rw [if_neg (Ne.symm hunit.1)] at hv'
        exact ⟨last, (hiff last).1 hv', hrest⟩
      | slashedName => obtain ⟨rfl, -⟩ := List.cons.inj hw'; exact nomatch hc
      | sign _ hsign _ => exact nomatch char?_of_ofChar? hsign
    · rintro ⟨last, hv', hrest⟩
      refine .name hc ?_ hrest
      rw [if_neg (Ne.symm hunit.1)]
      exact (hiff last).2 hv'
  | @slashedName v last _ hurl hdepth hv _ =>
    obtain ⟨u, rfl, rfl⟩ : ∃ u, unit = '/' :: '/' :: u ∧ v = u ++ '\\' :: escape₀ := by
      match unit with
      | [] => exact absurd rfl hne
      | [d] => simp at hw
      | d :: e :: u =>
        simp only [List.cons_append, List.cons.injEq] at hw
        exact ⟨u, by rw [hw.1, hw.2.1], hw.2.2.symm⟩
    have hu : '\\' ∉ u := fun h => hunit (by simp [h])
    have hiff := key u .slashes last hu (.inr rfl) hv
    constructor
    · intro h
      generalize hw' : '/' :: '/' :: u ++ '\\' :: escape = w' at h
      cases h with
      | name hc => obtain ⟨rfl, -⟩ := List.cons.inj hw'; exact nomatch hc
      | @slashedName _ last _ _ _ hv' hrest =>
        obtain ⟨-, hw'⟩ := List.cons.inj hw'
        obtain ⟨-, rfl⟩ := List.cons.inj hw'
        exact ⟨last, (hiff last).1 hv', hrest⟩
      | sign _ hsign _ => exact nomatch char?_of_ofChar? hsign
    · rintro ⟨last, hv', hrest⟩
      exact .slashedName hurl hdepth ((hiff last).2 hv') hrest
  | sign _ hsign _ => exact nomatch char?_of_ofChar? hsign

theorem after_ident_of_backslash {state : ScanState} {w w' : List Char} (h : '\\' ∈ w)
    (h' : '\\' ∈ w') : state.after .ident w = state.after .ident w' := by
  have key : ∀ w : List Char, '\\' ∈ w → ScanState.isUrlName .ident w = false := by
    intro w h
    have hmem : '\\' ∈ w.map Text.lowerChar := List.mem_map.2 ⟨'\\', h, rfl⟩
    rw [ScanState.isUrlName, Bool.and_eq_false_iff]
    refine .inr (decide_eq_false fun heq => ?_)
    rw [heq] at hmem
    exact absurd hmem (by decide)
  simp [ScanState.after, key w h, key w' h']

/-- What stands in for an escape starts with one. -/
theorem exists_escape_of_follow {escape : List Char} {cs : List Char}
    (htext : p.text = '\\' :: escape) (h : p.Follow cs) : ∃ escape' rest,
      cs = '\\' :: escape' ++ rest ∧ Reads p.state .ident ('\\' :: escape') rest := by
  have hy := StyleTree.Follow.yields h
  rw [htext, List.head?_cons] at hy
  obtain ⟨cs', rfl⟩ : ∃ cs', cs = '\\' :: cs' := by
    cases cs with
    | nil => cases hy with | toEnd hc => exact nomatch hc
    | cons c cs =>
      rw [List.head?_cons] at hy
      cases hy with
      | refl => exact ⟨cs, rfl⟩
      | toBreak hc => exact nomatch hc
      | toSpace hc => exact nomatch hc
      | toLetter hc => rcases hc with hc | hc <;> exact absurd hc (by decide)
  have hread := reads_readLexeme p.state '\\' cs'
  refine ⟨_, (readLexeme p.state '\\' cs').2, (readLexeme_append p.state '\\' cs').symm, hread⟩

/-- The unit can stand before any text that starts with an escape. -/
private theorem follow_cut {known : Firmness} {state : ScanState}
    {unit escape rest escape' rest' : List Char}
    (hread : Reads state .ident (unit ++ '\\' :: escape) rest)
    (hread' : Reads state .ident ('\\' :: escape') rest') (hunit : '\\' ∉ unit) (hne : unit ≠ []) :
    Place.Follow ⟨state, unit ++ '\\' :: escape ++ rest, known⟩
      (unit ++ ('\\' :: escape' ++ rest')) := by
  have hrange : ∀ escape : List Char, (unit ++ '\\' :: escape).map Text.lowerChar ≠ ['u'] := by
    intro escape heq
    have hmem : Text.lowerChar '\\' ∈ ['u'] := by
      rw [← heq]
      exact List.mem_map_of_mem (by simp)
    exact absurd hmem (by decide)
  rw [← List.append_assoc, Place.Follow]
  refine .of_reads hread ((reads_cut_iff hread hunit hne).2 hread') (by simp)
    (fun _ => ⟨hrange _, hrange _⟩) ?_
  obtain ⟨c, u, rfl⟩ := List.exists_cons_of_ne_nil hne
  exact .refl

/-- What follows an escape is read as it is after the whole unit. -/
private theorem coresFrom_escape {p' : Place} {state : ScanState} {unit escape rest : List Char}
    {tokens : List Token} (hread : Reads state .ident ('\\' :: escape) rest) (h : p'.Scans tokens)
    (hstate : p'.state = state.after .ident (unit ++ '\\' :: escape)) (htext : p'.text = rest) :
    (.ident, '\\' :: escape) :: tokens.map Token.core =
      coresFrom state ('\\' :: escape ++ rest) := by
  have hafter : state.after .ident (unit ++ '\\' :: escape) = state.after .ident ('\\' :: escape) :=
    after_ident_of_backslash (by simp) (by simp)
  rw [hread.coresFrom_append, h.cores, hstate, htext, hafter]

/-- A dimension whose unit ends before an escape is read again, and the escape is left. -/
theorem measured_reprints_of_cut {reader : Nat → Parser Tree} {number rest : List Token}
    {token : Token} {unit escape : List Char} {info : Option Nat} {tree : Tree}
    (hreader : ReadsNumbers reader) (hp : p.Scans s.rest) (hs : s.rest = number ++ token :: rest)
    (hnumber : numberLength? (number ++ token :: rest) = some number.length)
    (hk : token.kind = .ident) (htext : token.text.toList = unit ++ '\\' :: escape)
    (hunit : '\\' ∉ unit) (hne : unit ≠ [])
    (h : measured info (Text.concat (number.map Token.text)) { s with rest := token :: rest } =
      .ok tree s') : Reprints p s tree s' reader := by
  rw [measured_unit rfl hk (readUnit_cut rfl htext hunit hne), EStateM.Result.ok.injEq] at h
  obtain ⟨rfl, rfl⟩ := h
  have hlast : ∀ token ∈ number.getLast?, token.kind ≠ .unknown ∧ token.kind ≠ .comment := by
    intro token hmem
    rcases numberLength?_kinds hnumber token (by simpa using List.mem_of_getLast? hmem) with
      hk | hk | hk <;> simp [hk]
  have hbalanced : Balanced (number ++ token :: rest) (token :: rest) :=
    .of_forall fun token hmem => by
    rcases numberLength?_kinds hnumber token (by simpa using hmem) with hk | hk | hk <;> simp [hk]
  have hpos := numberLength?_pos hnumber
  rw [hs] at hp
  obtain ⟨cs₁, hcs₁, hp₁⟩ := hp.append
  obtain ⟨cs₂, hcs₂, hread, hrest⟩ := hp₁.cons
  simp only [Place.after, Place.afterAll, hk, htext] at hcs₂ hread hrest
  subst hcs₂
  generalize hstate : p.state.afterAll (number.map Token.core) = state at hread hrest
  have hescape := (reads_cut_iff hread hunit hne).1 hread
  have hlast' : ∀ {cs' cs : List Char}, ∀ token ∈ number.getLast?,
      (token.kind ≠ .unknown ∧ token.kind ≠ .comment) ∨ cs'.head? = cs.head? :=
    fun token hmem => .inl (hlast token hmem)
  have hfollow : ∀ {escape' rest'}, Reads state .ident ('\\' :: escape') rest' →
      (p.afterAll number (unit ++ '\\' :: escape ++ cs₂)).Follow
        (unit ++ ('\\' :: escape' ++ rest')) := by
    intro escape' rest' hread'
    rw [Place.afterAll, hstate]
    exact follow_cut hread hread' hunit hne
  have hclosed : IsClosed token.kind token.text.toList → IsClosed token.kind ('\\' :: escape) := by
    rintro ⟨hlast, -⟩
    refine ⟨fun hescape => hlast ?_, fun hstring => by cases hk.symm.trans hstring⟩
    rw [htext, List.getLast?_append, hescape, Option.some_or]
  have hescaped : '\\' ∈ token.text.toList := htext ▸ List.mem_append_right _ (.head _)
  refine ⟨⟨state, '\\' :: escape ++ cs₂, p.firm⟩, ⟨?_, (hp.holds.of_append number).exchange
    (by simpa using hclosed) fun hfirm => absurd hescaped hfirm.1⟩, rfl, ?_,
    fun n => ⟨fun cs hcs => ?_, fun cs s₁ hcs hs₁ _ => ?_⟩⟩
  · rw [← coresFrom_escape hescape hrest rfl rfl]
    simp [Token.core, hk]
  · rw [hs]
    exact .trans hbalanced (.cut hk (by simp [htext]) hk)
  · obtain ⟨escape', rest', rfl, hread'⟩ := exists_escape_of_follow rfl hcs
    rw [← List.append_assoc, Node.compact_dimension, toList_concat_text, String.toList_ofList,
      List.append_assoc, List.append_assoc]
    exact (hp.verbatim hcs₁ hlast' (hfollow hread')).1
  · obtain ⟨escape', rest', rfl, hread'⟩ := exists_escape_of_follow rfl hcs
    rw [← List.append_assoc, Node.compact_dimension, toList_concat_text, String.toList_ofList,
      List.append_assoc, List.append_assoc] at hs₁
    obtain ⟨number', rest₁, hs', hcore, hp₂⟩ := (hp.verbatim hcs₁ hlast' (hfollow hread')).2 _ hs₁
    rw [← List.append_assoc] at hp₂
    have hnew := (reads_cut_iff hread hunit hne).2 hread'
    rw [← hstate] at hnew
    obtain ⟨token', rest₂, rfl, htoken, hrest₂⟩ := hp₂.of_reads hnew
    rw [Place.afterAll, hstate] at hrest₂
    have hk' : token'.kind = .ident := congrArg Prod.fst htoken
    have htext' : token'.text.toList = unit ++ '\\' :: escape' := congrArg Prod.snd htoken
    have hrun := hreader.again (n := n) hnumber hs' hcore (by simp [peek, hk, hk'])
    rw [measured_unit rfl hk' (readUnit_cut rfl htext' hunit hne)] at hrun
    refine ⟨_, _, hrun, by simp, ⟨?_, trivial⟩, ?_⟩
    · rw [Place.put_text, Place.put_state, ← coresFrom_escape hread' hrest₂ rfl rfl]
      simp [Token.core, hk']
    · have hlen : number'.length = number.length := by simpa using congrArg List.length hcore
      simp [hs']
      omega

/-- A number with what belongs to it is read again. -/
theorem measured_reprints {reader : Nat → Parser Tree} {number back : List Token}
    {info : Option Nat} {tree : Tree} (hreader : ReadsNumbers reader) (hp : p.Scans s.rest)
    (hs : s.rest = number ++ back) (hnumber : numberLength? (number ++ back) = some number.length)
    (h : measured info (Text.concat (number.map Token.text))
      { s with rest := back } = .ok tree s') :
    Reprints p s tree s' reader := by
  by_cases hwhole : ∀ token ∈ back.head?, token.kind = .ident →
      '\\' ∉ token.text.toList ∨ token.text.toList.head? = some '\\'
  · exact measured_reprints_of_whole hreader hp hs hnumber hwhole h
  · simp only [not_forall] at hwhole
    obtain ⟨token, hmem, hk, hcut⟩ := hwhole
    obtain ⟨unit, escape, htext, hunit, hne⟩ := (readUnit_cases token).resolve_left hcut
    obtain ⟨rest, rfl⟩ := List.head?_eq_some_iff.1 hmem
    exact measured_reprints_of_cut hreader hp hs hnumber hk htext hunit hne h

end Grammar
end StyleTree
