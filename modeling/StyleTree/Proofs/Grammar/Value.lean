import StyleTree.Proofs.Grammar.Component
import StyleTree.Proofs.Grammar.Range

/-! Values. A value is a row of parts, and the flag `!important` at its end if it has one: the flag
is written after the parts, without the gaps around it. So a value is read again from its text
(`value_restates`), and with it all that can stand inside of brackets (`upTo_returns`). -/

namespace StyleTree.Grammar

open StyleTree.Parser

variable {inner : Nested} {nested : Bool} {p : Place} {s s' : ParserState} {tree : Tree}
  {nodes : List Tree} {token : Token} {rest : List Token}

/-! ## Parts of a value -/

/-- The signs that stand as operators in a value. -/
def isValueOperator : TokenKind → Bool
  | .solidus | .comma => true
  | _ => false

/-- The token ends a value. -/
def EndsValue (nested : Bool) (token : Token) : Prop :=
  token.kind = .semicolon ∨ token.kind = .rightBrace ∨ nested = true ∧ token.kind = .rightParen

/-- The tokens start a range of characters. -/
def atRange : List Token → Bool
  | first :: second :: _ => first.kind = .ident && first.spells "u" && second.kind = .plus
  | _ => false

theorem atRange_iff {tokens : List Token} (hp : p.Scans tokens) :
    atRange tokens = true ↔ OpensRange (coresFrom p.state p.text) := by
  rw [← hp.cores]
  match tokens with
  | [] => simp [atRange, OpensRange]
  | [first] => simp [atRange, OpensRange]
  | first :: second :: rest =>
    have hletter : first.spells "u" = true ↔ first.text.toList.map Text.lowerChar = ['u'] := by
      rw [Token.spells, Text.sameLetters, decide_eq_true_iff]
      exact Iff.rfl
    simp only [atRange, OpensRange, List.map_cons, List.head?_cons, List.tail_cons,
      Bool.and_eq_true, decide_eq_true_eq, hletter, Option.map_some, Option.some.injEq,
      Token.core_fst]
    constructor
    · rintro ⟨⟨hk, hu⟩, hplus⟩
      exact ⟨⟨_, Prod.ext hk rfl, hu⟩, hplus⟩
    · rintro ⟨⟨w, hcore, hw⟩, hplus⟩
      obtain ⟨hk, rfl⟩ := Prod.ext_iff.1 hcore
      exact ⟨⟨hk, hw⟩, hplus⟩

theorem valuePart_ident {important : Bool} (hs : s.rest = token :: rest)
    (hk : token.kind = .ident) :
    valuePart inner nested important token s =
      ((if atRange s.rest then unicodeRange else component inner .value) >>= fun node =>
        pure (.next [node] important)) s := by
  have hrange : (token.spells "u" && decide (s.rest[1]?.map Token.kind = some .plus)) =
      atRange s.rest := by
    rw [hs]
    cases rest <;> simp [atRange, hk]
  simp only [valuePart, hk, lookupKind_bind_run, hrange]
  split <;> rfl

theorem valuePart_other {important : Bool} (hident : token.kind ≠ .ident)
    (hends : ¬EndsValue true token) (hspace : token.kind ≠ .whitespace)
    (hcomment : token.kind ≠ .comment) (hflag : token.kind ≠ .exclamationMark) :
    valuePart inner nested important token =
      (partReader (component inner .value) (brackets inner .value) isValueOperator token.kind >>=
        fun node => pure (.next [node] important)) := by
  simp only [EndsValue, not_or, true_and] at hends
  obtain ⟨hsemicolon, hbrace, hparen⟩ := hends
  rw [valuePart]
  cases hk : token.kind <;> first | rfl | exact absurd hk ‹_›

theorem valuePart_space {important : Bool} (hs : s.rest = token :: rest)
    (hk : token.kind = .whitespace) :
    valuePart inner nested important token s =
      .ok (.next [.space none] important) { s with rest } := by
  simp [valuePart, hk, space, hs]

theorem valuePart_ends (inner : Nested) (nested important : Bool) (h : EndsValue true token) :
    valuePart inner nested important token s = .ok .stop s ∧ EndsValue nested token ∨
      valuePart inner nested important token s = fail .unexpectedInput s := by
  rcases h with h | h | ⟨-, h⟩
  · exact .inl ⟨by simp [valuePart, h], .inl h⟩
  · exact .inl ⟨by simp [valuePart, h], .inr (.inl h)⟩
  · cases nested with
    | true => exact .inl ⟨by simp [valuePart, h], .inr (.inr ⟨rfl, h⟩)⟩
    | false => exact .inr (by simp [valuePart, h])

theorem bind_next_ne_stop {β σ : Type} {read : Parser β} (items : β → List Tree) {st : σ} :
    (read >>= fun b => (pure (.next (items b) st) : Parser (Round σ Tree))) s ≠ .ok .stop s' := by
  intro h
  obtain ⟨_, _, -, h⟩ := bind_eq_ok.1 h
  exact nomatch h

/-- Where a round of a value stops, the value ends. -/
theorem valuePart_eq_stop {important : Bool}
    (h : valuePart inner nested important token s = .ok .stop s') :
    s' = s ∧ EndsValue nested token := by
  by_cases hends : EndsValue true token
  · rcases valuePart_ends inner nested important hends with ⟨hstop, hends⟩ | hfail
    · exact ⟨(EStateM.Result.ok.inj (hstop.symm.trans h)).2.symm, hends⟩
    · exact (fail_ne_ok.1 (hfail.symm.trans h)).elim
  by_cases hident : token.kind = .ident
  · simp only [valuePart, hident, lookupKind_bind_run] at h
    split at h <;> exact absurd h (bind_next_ne_stop fun node => [node])
  by_cases hspace : token.kind = .whitespace
  · simp only [valuePart, hspace] at h
    exact absurd h (bind_next_ne_stop fun node => [node])
  by_cases hcomment : token.kind = .comment
  · simp only [valuePart, hcomment] at h
    exact nomatch h
  by_cases hflag : token.kind = .exclamationMark
  · simp only [valuePart, hflag] at h
    exact absurd h (bind_next_ne_stop fun _ => [])
  rw [valuePart_other hident hends hspace hcomment hflag] at h
  exact absurd h (bind_next_ne_stop fun node => [node])

/-- What a round reads of a value, other than the flag, is read again. -/
theorem valuePart_again {important important' : Bool} (hinner : inner.Returns)
    (hs : s.rest = token :: rest) (hp : p.Scans s.rest) (htidy : Tidy .value s.rest)
    (hflag : token.kind ≠ .exclamationMark)
    (h : valuePart inner nested important token s = .ok (.next nodes important') s') :
    important' = important ∧
      RoundAgain (fun k => valuePart (.upTo k) nested) p important s nodes important s' := by
  have hquiet : ∀ node, Quiet .value node := fun _ => nofun
  have hcomment : token.kind ≠ .comment := htidy.noComments token (by simp [hs])
  have hends : ¬EndsValue true token := by
    intro hends
    rcases valuePart_ends inner nested important hends with ⟨hstop, -⟩ | hfail
    · exact nomatch hstop.symm.trans h
    · exact fail_ne_ok.1 (hfail.symm.trans h)
  by_cases hspace : token.kind = .whitespace
  · rw [valuePart_space hs hspace, EStateM.Result.ok.injEq] at h
    obtain ⟨hnext, rfl⟩ := h
    obtain ⟨rfl, rfl⟩ := Round.next.inj hnext
    exact ⟨rfl, .space hs hspace fun k s' token' rest' hs' hk => valuePart_space hs' hk⟩
  by_cases hident : token.kind = .ident
  · rw [valuePart_ident hs hident] at h
    obtain ⟨node, s₁, hread, h⟩ := bind_eq_ok.1 h
    obtain ⟨hnext, rfl⟩ := EStateM.Result.ok.inj h
    obtain ⟨rfl, rfl⟩ := Round.next.inj hnext
    -- Whether a range stands here can be seen, so the same reader is chosen again.
    have key : ∀ reader : Nat → Parser Tree, Reprints p s node s₁ reader →
        (∀ k, (if atRange s.rest then unicodeRange else component (.upTo k) .value) = reader k) →
        RoundAgain (fun k => valuePart (.upTo k) nested) p important s [node] important s₁ := by
      intro reader hreprints hreader
      have hnode := hreprints.isSpace_eq_false hp (by simp [hs, hspace])
      obtain ⟨p₁, hp₁, hfirm, hbalanced, hrereads⟩ := hreprints
      refine .part hnode hp₁ hfirm hbalanced fun k => (hrereads k).of_round ?_
      intro cs s₂ token' rest' hcs hs₂ hrest
      have hfollow := (hrereads k).follow cs hcs
      have hident' : token'.kind = .ident := by
        rw [← hident]
        exact hfollow.kind_eq (hs ▸ hp) (hrest ▸ hs₂) (by rw [hident]; rfl)
      have hsame : atRange s₂.rest = atRange s.rest := by
        rw [Bool.eq_iff_iff, atRange_iff hs₂, atRange_iff hp]
        exact (StyleTree.Follow.range_iff hfollow).symm
      rw [valuePart_ident hrest hident', hsame, hreader k]
    refine ⟨rfl, ?_⟩
    by_cases hrange : atRange s.rest = true
    · rw [if_pos hrange] at hread
      refine key _ ?_ fun k => by rw [if_pos hrange]
      rw [hs] at hrange
      match rest, hrange with
      | second :: rest, hrange =>
        simp only [atRange, Bool.and_eq_true, decide_eq_true_eq] at hrange
        exact unicodeRange_reprints hp hs hident hrange.2 hread
    · rw [if_neg hrange] at hread
      refine key _ (component_reprints hinner hp htidy (hquiet node) hread).2 fun k => ?_
      rw [if_neg hrange]
  · rw [valuePart_other hident hends hspace hcomment hflag] at h
    obtain ⟨node, s₁, hread, h⟩ := bind_eq_ok.1 h
    obtain ⟨hnext, rfl⟩ := EStateM.Result.ok.inj h
    obtain ⟨rfl, rfl⟩ := Round.next.inj hnext
    refine ⟨rfl, partReader_again (fun k => component (.upTo k) .value)
      (fun k => brackets (.upTo k) .value) hp hs hspace ?_ ?_ ?_ ?_ hread⟩
    · intro kind h
      cases kind <;> first | rfl | exact nomatch h
    · exact component_reprints hinner hp htidy (hquiet node)
    · exact brackets_reprints hinner hp htidy (hquiet node)
    · intro k token' s hk
      rw [valuePart_other (hk ▸ hident) (by rwa [EndsValue, hk]) (hk ▸ hspace) (hk ▸ hcomment)
        (hk ▸ hflag), hk]

/-! ## The flag -/

theorem flagEnds_of_tidy (h : Tidy .value (token :: rest)) (hk : token.kind = .exclamationMark) :
    ∃ word rest₁, rest.dropWhile isGap = word :: rest₁ ∧ word.kind = .ident ∧
      word.spells "important" = true ∧
      ∀ token ∈ (rest₁.dropWhile isGap).head?, EndsValue true token := by
  have hends : flagEnds rest = true := by
    have := (Bool.and_eq_true_iff.1 (h.bangsEnd rfl)).1
    simpa [hk] using this
  rw [flagEnds] at hends
  split at hends
  next => exact nomatch hends
  next word rest₁ hrest =>
    simp only [Bool.and_eq_true, decide_eq_true_eq] at hends
    refine ⟨word, rest₁, hrest, hends.1.1, hends.1.2, fun token hmem => ?_⟩
    have hall := hends.2
    rw [Option.mem_def.1 hmem] at hall
    simp only [Option.all_some, Bool.or_eq_true, decide_eq_true_eq] at hall
    rcases hall with (hk | hk) | hk
    · exact .inl hk
    · exact .inr (.inl hk)
    · exact .inr (.inr ⟨rfl, hk⟩)

theorem EndsValue.isNamePart_eq_false (h : EndsValue true token) : isNamePart token = false := by
  rcases h with h | h | ⟨-, h⟩ <;> simp [isNamePart, h]

theorem EndsValue.isGap_eq_false (h : EndsValue true token) : isGap token = false := by
  rcases h with h | h | ⟨-, h⟩ <;> simp [isGap, h]

/-- The word of a flag is read as one token. -/
theorem importantFlag_eq_ok {bang word : Token} {rest₁ : List Token}
    (hne : ∀ token ∈ s.rest, token.text ≠ "") (hs : s.rest = bang :: rest)
    (hbang : bang.kind = .exclamationMark) (hrest : rest.dropWhile isGap = word :: rest₁)
    (hk : word.kind = .ident) (hword : word.spells "important" = true) (hends : EndsName rest₁) :
    importantFlag s = .ok () { s with rest := rest₁ } := by
  have hopen : expect .exclamationMark s = .ok () { s with rest } :=
    expect_eq_ok.2 ⟨bang, rest, hs, hbang, rfl⟩
  have hcheck : expectWord "important" ⟨word :: rest₁, s.discarded⟩ =
      .ok () ⟨word :: rest₁, s.discarded⟩ := expectWord_eq_ok.2 ⟨rfl, word, rest₁, rfl, hk, hword⟩
  have hmem : ∀ token ∈ word :: rest₁, token.text ≠ "" := by
    intro token hmem
    refine hne token ?_
    rw [hs]
    exact .tail _ ((List.dropWhile_suffix _).subset (hrest ▸ hmem))
  have hname : readName false ⟨word :: rest₁, s.discarded⟩ =
      .ok word.text ⟨rest₁, s.discarded⟩ := by
    refine (readName_eq_ok hmem).2 ⟨[word], rfl, rfl, by simp [Text.concat], ?_, hends⟩
    exact ⟨[], word, [], rfl, by simp, by simp, .inr hk, by simp⟩
  rw [importantFlag, bind_of_ok hopen, skipGaps_bind_run]
  simp only [hrest]
  rw [bind_of_ok hcheck]
  show ((fun _ => ()) <$> readName false) _ = _
  rw [run_map, hname]

theorem closesValue_iff {c : Char} :
    closesValue nested c = true ↔ c = ';' ∨ c = '\x7d' ∨ nested = true ∧ c = ')' := by
  simp [closesValue, or_assoc]

theorem isBreak_of_closesValue {c : Char} (h : closesValue nested c = true) : isBreak c = true := by
  rcases closesValue_iff.1 h with rfl | rfl | ⟨-, rfl⟩ <;> rfl

theorem closesValue_weaken {cs : List Char} (h : ∀ d ∈ cs.head?, closesValue nested d = true) :
    ∀ d ∈ cs.head?, closesValue true d = true := by
  intro d hd
  rcases closesValue_iff.1 (h d hd) with h | h | ⟨-, h⟩ <;> simp [closesValue, h]

/-- Where a text ends a value, so does its first token. -/
theorem endsValue_of_scans {cs : List Char} {tokens : List Token} (h : (p.put cs).Scans tokens)
    (hcs : ∀ d ∈ cs.head?, closesValue nested d = true) :
    ∀ token ∈ tokens.head?, EndsValue nested token := by
  cases cs with
  | nil => simp [h.eq_nil rfl]
  | cons c cs =>
    intro token hmem
    obtain ⟨rest, rfl⟩ := List.head?_eq_some_iff.1 hmem
    rcases closesValue_iff.1 (hcs c rfl) with rfl | rfl | ⟨hnested, rfl⟩
    · exact .inl (h.kind_of_sign rfl rfl (by decide))
    · exact .inr (.inl (h.kind_of_sign rfl rfl (by decide)))
    · exact .inr (.inr ⟨hnested, h.kind_of_sign rfl rfl (by decide)⟩)

theorem EndsValue.weaken (h : EndsValue nested token) : EndsValue true token :=
  h.imp_right (Or.imp_right fun h => ⟨rfl, h.2⟩)

theorem reads_important {state : ScanState} {cs : List Char}
    (hcs : ∀ d ∈ cs.head?, closesValue nested d = true) :
    Reads state .ident "important".toList cs := by
  have hplain : "mportant".toList.foldlM IdentifierState.step .plain = some .plain := by decide
  refine .name (by decide) hplain fun d hd => ?_
  rcases closesValue_iff.1 (hcs d hd) with rfl | rfl | ⟨-, rfl⟩ <;> rfl

theorem toList_important : "!important".toList = '!' :: "important".toList := by decide

theorem after_important {state : ScanState} {w : List Char}
    (hword : w.map Text.lowerChar ≠ ['u', 'r', 'l']) :
    (state.after .exclamationMark ['!']).after .ident w = { state with afterUrl := false } := by
  simp [ScanState.after, ScanState.isUrlName, hword]

/-- The flag is read again from its text, without the gaps in it. -/
theorem importantFlag_rereads (hp : p.Scans s.rest) (htidy : Tidy .value s.rest)
    (hs : s.rest = token :: rest) (hk : token.kind = .exclamationMark)
    (h : importantFlag s = .ok () s') :
    ∃ p' : Place, p'.Scans s'.rest ∧ p'.firm = p.firm ∧ Balanced s.rest s'.rest ∧
      p'.state.afterUrl = false ∧
      (∀ token ∈ (s'.rest.dropWhile isGap).head?, EndsValue true token) ∧
      ∀ n, Rereads n p p' (fun cs => ∀ d ∈ cs.head?, closesValue true d = true) "!important".toList
        importantFlag fun _ => True := by
  rw [hs] at htidy
  obtain ⟨word, rest₁, hrest, hident, hword, hends⟩ := flagEnds_of_tidy htidy hk
  have hname : EndsName rest₁ := by
    intro token hmem
    cases rest₁ with
    | nil => exact nomatch hmem
    | cons first rest₂ =>
      obtain rfl : first = token := by simpa using hmem
      by_cases hgap : isGap first = true
      · rw [isNamePart]
        rcases Bool.or_eq_true_iff.1 hgap with hk | hk <;> simp [of_decide_eq_true hk]
      · exact (hends first (by simp [hgap])).isNamePart_eq_false
  have hletters : word.text.toList.map Text.lowerChar = "important".toList :=
    of_decide_eq_true hword
  rw [importantFlag_eq_ok hp.text_ne hs hk hrest hident hword hname, EStateM.Result.ok.injEq] at h
  obtain ⟨-, rfl⟩ := h
  rw [hs] at hp
  obtain ⟨cs₁, htext, hp₁, hstate, -⟩ := rereads_sign (c := '!') hp hk rfl rfl (by decide)
  obtain ⟨p₂, hp₂, -, hfirm₂, hbalanced₂, hstate₂, -⟩ := hp₁.skipGaps htidy.tail.noComments
  replace hstate₂ := hstate₂ (by rw [← hstate]; rfl)
  rw [hrest] at hp₂ hbalanced₂
  obtain ⟨cs₂, -, -, hp₃⟩ := hp₂.cons
  have hstate₃ : (p₂.after word cs₂).state = { p.state with afterUrl := false } := by
    rw [Place.after, hident, hstate₂, ← hstate]
    exact after_important (by rw [hletters]; decide)
  refine ⟨p₂.after word cs₂, hp₃, hfirm₂, ?_, by rw [hstate₃], hends, fun n => ⟨fun cs _ => ?_, ?_⟩⟩
  · rw [hs]
    refine .trans (.token (by simp [hk]) (by simp [hk])) (.trans hbalanced₂ ?_)
    exact .token (by simp [hident]) (by simp [hident])
  · rw [toList_important]
    exact follow_of_isBreak hp hk rfl rfl (by simp [isBreak])
  · intro cs s₁ hcs hs₁ _
    rw [toList_important, List.cons_append] at hs₁
    obtain ⟨bang, rest₂, hrest₂, hbang, hs₂⟩ := hs₁.of_sign rfl rfl (by decide)
    obtain ⟨word', rest₃, rfl, hword', hs₃⟩ :=
      Place.Scans.of_reads (p := ⟨_, [], .soft⟩) hs₂ (reads_important hcs)
    have hident' : word'.kind = .ident := congrArg Prod.fst hword'
    have htext' : word'.text.toList = "important".toList := congrArg Prod.snd hword'
    have hends' : ∀ token ∈ rest₃.head?, EndsValue true token :=
      endsValue_of_scans (p := ⟨_, [], .soft⟩) hs₃ hcs
    refine ⟨(), { s₁ with rest := rest₃ }, ?_, trivial, ?_, ?_⟩
    · refine importantFlag_eq_ok hs₁.text_ne hrest₂ (congrArg Prod.fst hbang) ?_ hident' ?_ ?_
      · simp [isGap, hident']
      · rw [Token.spells, Text.sameLetters, htext']
        exact decide_eq_true rfl
      · exact fun token hmem => (hends' token hmem).isNamePart_eq_false
    · rw [Place.put, hstate₃, ← after_important (w := "important".toList) (by decide)]
      exact hs₃
    · simp only [hrest₂, List.length_cons]
      omega

/-! ## Values -/

theorem dropTrailingSpaces_append {front back : List Tree}
    (h : ∀ node ∈ back, node.isSpace = true) :
    dropTrailingSpaces (front ++ back) = dropTrailingSpaces front := by
  rw [dropTrailingSpaces, dropTrailingSpaces, List.reverse_append,
    List.dropWhile_append_of_pos (by simpa using h)]

/-- The rounds of a value where it ends read the gaps before its end. -/
theorem valuePart_rounds_of_ends {important last : Bool}
    (h : Rounds (valuePart inner nested) important s nodes last s') (hc : NoComments s.rest)
    (hends : ∀ token ∈ (s.rest.dropWhile isGap).head?, EndsValue true token) :
    last = important ∧ (∀ node ∈ nodes, node.isSpace = true) ∧
      s'.rest = s.rest.dropWhile isGap ∧ ∀ token ∈ s'.rest.head?, EndsValue nested token := by
  induction h with
  | done hs => exact ⟨rfl, by simp, by simp [hs], by simp [hs]⟩
  | @stop st s s' token rest hs hround =>
    obtain ⟨rfl, hstop⟩ := valuePart_eq_stop hround
    refine ⟨rfl, by simp, ?_, by simpa [hs] using hstop⟩
    simp [hs, hstop.weaken.isGap_eq_false]
  | @next st s token rest items st₁ s₁ later last s' hs hround _ ih =>
    rw [hs] at hends hc ⊢
    by_cases hgap : isGap token = true
    · have hspace : token.kind = .whitespace := by
        have hcomment := hc token (.head _)
        simpa [isGap, hcomment] using hgap
      rw [valuePart_space hs hspace, EStateM.Result.ok.injEq] at hround
      obtain ⟨hnext, rfl⟩ := hround
      obtain ⟨rfl, rfl⟩ := Round.next.inj hnext
      rw [List.dropWhile_cons_of_pos hgap] at hends ⊢
      obtain ⟨hlast, hnodes, hrest⟩ := ih (fun token hmem => hc token (.tail _ hmem)) hends
      exact ⟨hlast, by simpa [Node.isSpace] using hnodes, hrest⟩
    · have hend := hends token (by simp [hgap])
      rcases valuePart_ends inner nested st hend with ⟨hstop, -⟩ | hfail
      · cases hstop.symm.trans hround
      · exact (fail_ne_ok.1 (hfail.symm.trans hround)).elim

/-- A value ends before a text that closes it. -/
theorem valuePart_closing {important : Bool} {cs : List Char} (hs : (p.put cs).Scans s.rest)
    (hcs : ∀ d ∈ cs.head?, closesValue nested d = true) :
    LoopsTo (valuePart inner nested) important s [] important s := by
  have hends := endsValue_of_scans hs hcs
  cases hrest : s.rest with
  | nil => exact .done hrest
  | cons token rest =>
    refine .stop hrest ?_
    rcases hends token (by simp [hrest]) with hk | hk | ⟨rfl, hk⟩ <;> simp [valuePart, hk]

/-- After the parts of a value the loop ends with the given text, which can stand in for what was
there. -/
structure EndsWith (nested : Bool) (p p' : Place) (w : List Char) (last : Bool) : Prop where
  follow : ∀ cs, (∀ d ∈ cs.head?, closesValue nested d = true) → p'.Follow cs →
    (∀ d ∈ (w ++ cs).head?, isBreak d = true) ∧ p.Follow (w ++ cs)
  run : ∀ k cs s, (∀ d ∈ cs.head?, closesValue nested d = true) → (p.put (w ++ cs)).Scans s.rest →
    ∃ s', LoopsTo (valuePart (.upTo k) nested) false s [] last s' ∧ (p'.put cs).Scans s'.rest ∧
      s'.rest.length ≤ s.rest.length

theorem endsWith_nil (nested : Bool) (p : Place) : EndsWith nested p p [] false where
  follow _ hcs hf := ⟨fun d hd => isBreak_of_closesValue (hcs d hd), hf⟩
  run _ _ s hcs hs := ⟨s, valuePart_closing hs hcs, hs, Nat.le_refl _⟩

theorem endsWith_flag (hp : p.Scans s.rest) (htidy : Tidy .value s.rest)
    (hs : s.rest = token :: rest) (hk : token.kind = .exclamationMark) {last : Bool}
    (h : Rounds (valuePart inner nested) false s nodes last s') :
    ∃ p' : Place, p'.Scans s'.rest ∧ p'.firm = p.firm ∧ Balanced s.rest s'.rest ∧ last = true ∧
      (∀ node ∈ nodes, node.isSpace = true) ∧ (∀ token ∈ s'.rest.head?, EndsValue nested token) ∧
      EndsWith nested p p' "!important".toList true := by
  cases h with
  | done hs' => exact nomatch hs.symm.trans hs'
  | stop hs' hround =>
    obtain ⟨rfl, -⟩ := List.cons.inj (hs.symm.trans hs')
    obtain ⟨-, hends⟩ := valuePart_eq_stop hround
    rcases hends with h | h | ⟨-, h⟩ <;> exact nomatch hk.symm.trans h
  | @next _ _ token' rest' items st₁ s₁ later _ _ hs' hround hrounds =>
    obtain ⟨rfl, rfl⟩ := List.cons.inj (hs.symm.trans hs')
    simp only [valuePart, hk] at hround
    obtain ⟨⟨⟩, s₂, hflag, hround⟩ := bind_eq_ok.1 hround
    obtain ⟨hnext, rfl⟩ := EStateM.Result.ok.inj hround
    obtain ⟨rfl, rfl⟩ := Round.next.inj hnext
    obtain ⟨p₁, hp₁, hfirm₁, hbalanced₁, hurl₁, hends₁, hrereads⟩ :=
      importantFlag_rereads hp htidy hs hk hflag
    have hc₁ := (hbalanced₁.tidy htidy).noComments
    obtain ⟨rfl, hspaces, hrest, hends⟩ := valuePart_rounds_of_ends hrounds hc₁ hends₁
    obtain ⟨p', hp', -, hfirm', hbalanced', hstate', -⟩ := hp₁.skipGaps hc₁
    replace hstate' := hstate' hurl₁
    rw [← hrest] at hp' hbalanced'
    refine ⟨p', hp', hfirm'.trans hfirm₁, .trans hbalanced₁ hbalanced', rfl, by simpa using hspaces,
      hends, fun cs hcs _ => ⟨?_, (hrereads 0).follow cs (closesValue_weaken hcs)⟩,
      fun k cs s₃ hcs hs₃ => ?_⟩
    · rw [toList_important]
      simp [isBreak]
    · obtain ⟨⟨⟩, s₄, hrun, -, hs₄, hlt⟩ := (hrereads (s₃.rest.length + 1)).run cs s₃
        (closesValue_weaken hcs) hs₃ (Nat.lt_succ_self _)
      have hs₄' : (p'.put cs).Scans s₄.rest := by rwa [Place.put, hstate']
      rw [toList_important] at hs₃
      obtain ⟨bang, rest₃, hrest₃, hcore, -⟩ := hs₃.of_sign rfl rfl (by decide)
      have hbang : bang.kind = .exclamationMark := congrArg Prod.fst hcore
      have hround : valuePart (.upTo k) nested false bang s₃ = .ok (.next [] true) s₄ := by
        simp only [valuePart, hbang, bind_of_ok hrun, run_pure]
      exact ⟨s₄, .next hrest₃ hround hlt (valuePart_closing hs₄' hcs), hs₄', Nat.le_of_lt hlt⟩

theorem compact_value (info : Option Nat) (important : Bool) (nodes : List Tree) :
    (Node.sequence info (.value important) nodes).compact =
      rowChars nodes ++ if important then "!important".toList else [] := by
  cases important <;>
    simp [Node.compact_sequence, Node.sequenceMarks, Node.map_piece_false, rowChars]

/-- A value is read again before what ends it. -/
theorem value_restates (hinner : inner.Returns) (hp : p.Scans s.rest) (htidy : Tidy .value s.rest)
    (hurl : p.state.afterUrl = false) (h : value inner nested s = .ok tree s') :
    Restates nested p s tree s' := by
  rw [value, here_bind_run, skipGaps_bind_run] at h
  obtain ⟨⟨parts, important⟩, s₁, hloop, h⟩ := bind_eq_ok.1 h
  obtain ⟨rfl, rfl⟩ := EStateM.Result.ok.inj h
  obtain ⟨p₁, hp₁, -, hfirm₁, hbalanced₁, hstate₁, -⟩ := hp.skipGaps htidy.noComments
  replace hstate₁ := hstate₁ hurl
  obtain ⟨front, back, st, s₂, p₂, rfl, hp₂, hfirm₂, hbalanced₂, ⟨rfl, htidy₂⟩, hparts, hend⟩ :=
    parts_of_rounds (valuePart inner nested) (fun k => valuePart (.upTo k) nested)
      (fun important tokens => important = false ∧ Tidy .value tokens) (fun _ => True)
      (EndsValue nested) (fun token => token.kind = .exclamationMark) valuePart_eq_stop
      (fun hs hp hinv _ hflag h => by
        obtain ⟨rfl, hagain⟩ := valuePart_again hinner hs hp hinv.2 hflag h
        obtain ⟨hagain, htidy⟩ := and_tidy_of_again hagain hinv.2
        exact ⟨hagain, hinv.1, htidy⟩)
      (rounds_of_loop hloop) hp₁ ⟨rfl, hbalanced₁.tidy htidy⟩ (fun _ _ => trivial)
  obtain ⟨p', w, hp', hfirm', hbalanced', hends, hspaces, hw, hending⟩ :
      ∃ (p' : Place) (w : List Char),
      p'.Scans s₁.rest ∧ p'.firm = p₂.firm ∧ Balanced s₂.rest s₁.rest ∧
      (∀ token ∈ s₁.rest.head?, EndsValue nested token) ∧ (∀ node ∈ back, node.isSpace = true) ∧
      (w = if important then "!important".toList else []) ∧ EndsWith nested p₂ p' w important := by
    rcases hend with ⟨rfl, rfl, rfl, hends⟩ | ⟨⟨token, rest, hs₂, hk⟩, hrounds⟩
    · exact ⟨p₂, [], hp₂, rfl, .refl, hends, by simp, rfl, endsWith_nil nested p₂⟩
    · obtain ⟨p', hp', hfirm', hbalanced', rfl, hspaces, hends, hending⟩ :=
        endsWith_flag hp₂ htidy₂ hs₂ hk hrounds
      exact ⟨p', _, hp', hfirm', hbalanced', hends, hspaces, rfl, hending⟩
  have hcompact : (Node.sequence (s.rest.head?.map Token.start) (.value important)
      (dropTrailingSpaces (front ++ back))).compact = rowChars (dropTrailingSpaces front) ++ w := by
    rw [compact_value, dropTrailingSpaces_append hspaces, hw]
  have hfollow : ∀ cs, (∀ d ∈ cs.head?, closesValue nested d = true) → p'.Follow cs →
      p₁.Follow (rowChars (dropTrailingSpaces front) ++ (w ++ cs)) := by
    intro cs hcs hf
    obtain ⟨hbreak, hf₂⟩ := hending.follow cs hcs hf
    exact (hparts 0).follow hbreak hf₂
  refine ⟨p₁, p', hp₁, hstate₁, hp', hfirm'.trans (hfirm₂.trans hfirm₁),
    .trans hbalanced₁ (.trans hbalanced₂ hbalanced'), hends, fun cs hcs hf => ?_,
    fun n cs s₃ hcs hs₃ hlt => ?_⟩
  · rw [hcompact, List.append_assoc]
    exact hfollow cs hcs hf
  · rw [hcompact, List.append_assoc] at hs₃
    have hs₃' : (p₁.put (rowChars (dropTrailingSpaces front) ++ (w ++ cs))).Scans s₃.rest := by
      rwa [Place.put, hstate₁]
    have hgap : NoGap s₃.rest :=
      (hfollow cs hcs.1 hcs.2).noGap hp₁ hs₃' (noGap_dropWhile _)
    obtain ⟨hbreak, hf₂⟩ := hending.follow cs hcs.1 hcs.2
    obtain ⟨items', s₄, hbare, hs₄, hle, hrun⟩ := (hparts n).run hbreak hf₂ hs₃' hlt
    obtain ⟨s₅, hloops, hs₅, hle₅⟩ := hending.run n cs s₄ hcs.1 hs₄
    have hvalue := (hrun [] _ _ hloops).loop_eq
    rw [List.append_nil] at hvalue
    refine ⟨.sequence (s₃.rest.head?.map Token.start) (.value important)
      (dropTrailingSpaces items'), s₅, ?_, ?_, hs₅, by omega⟩
    · rw [value, here_bind_run, skipGaps_bind_run, hgap.dropWhile_eq, bind_of_ok hvalue]
      rfl
    · simp only [Node.bare_sequence, dropTrailingSpaces_of_bare_eq hbare, hbare,
        dropTrailingSpaces_append hspaces]

/-- Whatever stands inside of brackets is read again. -/
theorem upTo_returns (depth : Nat) : (Nested.upTo depth).Returns := by
  induction depth with
  | zero =>
    exact ⟨fun _ _ _ h => (fail_ne_ok.1 h).elim, fun _ _ _ _ h => (fail_ne_ok.1 h).elim,
      fun _ _ _ h => (fail_ne_ok.1 h).elim⟩
  | succ depth ih =>
    exact ⟨component_reprints ih, brackets_reprints ih, value_restates ih⟩

end StyleTree.Grammar
