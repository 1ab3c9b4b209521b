import Mathlib.Data.List.Chain
import StyleTree.Proofs.Grammar.Pseudo
import StyleTree.Proofs.Token.Seam

/-! Series of places, the arguments of `:nth-…(…)`. An element of a series is a sign, digits, digits
with `n` right after them, or one of a few words, and nothing is written between elements. So a
series is scanned again as it was read (`coresFrom_elements`) and read again (`elements_run`) unless
two places in it run together (`Node.placesApart`). -/

namespace StyleTree

open StyleTree.Parser StyleTree.Grammar

namespace Node

variable {ι κ : Type}

/-- Whether the two elements of a series would be read as something else with no blank between
them. -/
def runsTogether : Node ι → Node ι → Bool
  | .leaf _ .nth first, .leaf _ .nth second =>
    !(first.toList.all isDecimal &&
      (Text.sameLetters second "odd" || Text.sameLetters second "even"))
  | _, _ => false

/-- Whether no two elements of a series run together. -/
def placesApart : Node ι → Bool
  | .sequence _ .argument nodes =>
    decide (nodes.IsChain fun first second => runsTogether first second = false)
  | _ => true

theorem runsTogether_mapInfo (f : ι → Option κ) (first second : Node ι) :
    runsTogether (first.mapInfo f) (second.mapInfo f) = runsTogether first second := by
  cases first with
  | leaf info kind text =>
    cases second with
    | leaf info' kind' text' => cases kind <;> cases kind' <;> rfl
    | _ => cases kind <;> rfl
  | _ => cases second <;> rfl

theorem placesApart_mapInfo (f : ι → Option κ) (node : Node ι) :
    (node.mapInfo f).placesApart = node.placesApart := by
  cases node with
  | sequence info kind nodes =>
    cases kind <;> simp only [mapInfo, mapInfoAll_eq_map, placesApart, List.isChain_map,
      runsTogether_mapInfo]
  | _ => rfl

end Node

namespace Grammar

variable {inner : Nested} {p : Place} {s s' : ParserState} {state : ScanState} {token : Token}
  {rest : List Token} {node : Tree} {nodes : List Tree} {cores : List (TokenKind × List Char)}
  {pieces : List (List (TokenKind × List Char))} {cs w : List Char}

/-! ## Elements -/

/-- One or more digits. -/
def IsDigits (w : List Char) : Prop :=
  w ≠ [] ∧ ∀ c ∈ w, isDecimal c = true

/-- The lexemes that an element of a series is read from. -/
inductive IsElement : List (TokenKind × List Char) → Tree → Prop
  | sign {info text kind c} : TokenKind.ofChar? c = some kind → c = '-' ∨ c = '+' →
    text.toList = [c] →
    IsElement [(kind, [c])] (.leaf info .operator text)
  | digits {info text w} :
  text.toList = w → IsDigits w → IsElement [(.number, w)] (.leaf info .nth text)
  | step {info text v w} : text.toList = v ++ w → IsDigits v → w.map Text.lowerChar = ['n'] →
    IsElement [(.number, v), (.ident, w)] (.leaf info .nth text)
  | word {info text w} :
    text.toList = w → w.map Text.lowerChar ∈ ["n".toList, "odd".toList, "even".toList] →
    IsElement [(.ident, w)] (.leaf info .nth text)

/-- The text starts with a sign, or with a parenthesis that closes. -/
def EndsPlace (cs : List Char) : Prop :=
  ∀ d ∈ cs.head?, d = '-' ∨ d = '+' ∨ d = ')'

theorem reads_digits (hw : IsDigits w) (hcs : ∀ d ∈ cs.head?, isDecimal d = false) :
    Reads state .number w cs := by
  obtain ⟨hne, hw⟩ := hw
  obtain ⟨c, v, rfl⟩ := List.exists_cons_of_ne_nil hne
  exact .digits (of_decide_eq_true (hw c (.head _)))
    (foldlM_stepWhile.2 fun d hmem => hw d (.tail _ hmem))
    fun d hd => stepWhile_eq_none.2 (hcs d hd)

theorem isDigits_of_reads (h : Reads state .number w cs) : IsDigits w := by
  cases h with
  | digits hc hv =>
    exact ⟨List.cons_ne_nil _ _, List.forall_mem_cons.2 ⟨decide_eq_true hc, foldlM_stepWhile.1 hv⟩⟩
  | sign _ hsign => exact nomatch char?_of_ofChar? hsign

theorem reads_word (hw : w.map Text.lowerChar ∈ ["n".toList, "odd".toList, "even".toList])
    (hcs : EndsPlace cs) :
    Reads state .ident w cs := by
  have hends : ∀ d ∈ cs.head?, IdentifierState.plain.step d = none := by
    intro d hd
    rcases hcs d hd with rfl | rfl | rfl <;> rfl
  simp only [List.mem_cons, List.not_mem_nil, or_false] at hw
  rcases hw with hw | hw | hw <;> exact reads_letters_before state hw (by decide) (by decide) hends

theorem after_word (hstate : state.calm = state)
    (hw : w.map Text.lowerChar ∈ ["n".toList, "odd".toList, "even".toList]) :
    state.after .ident w = state := by
  have hname : ScanState.isUrlName .ident w = false := by
    simp only [List.mem_cons, List.not_mem_nil, or_false] at hw
    rcases hw with hw | hw | hw <;> rw [ScanState.isUrlName, hw] <;> decide
  rw [← hstate]
  simp only [ScanState.after, hname, ScanState.calm]

theorem mem_words_of_step (hw : w.map Text.lowerChar = ['n']) :
    w.map Text.lowerChar ∈ ["n".toList, "odd".toList, "even".toList] := by
  rw [hw]
  decide

/-- The first letter of a word is no digit. -/
theorem isDecimal_of_word (hw : w.map Text.lowerChar ∈ ["n".toList, "odd".toList, "even".toList]) :
    ∃ c v, w = c :: v ∧ isDecimal c = false := by
  have hletter : ∃ c v, w = c :: v ∧ isLetter (Text.lowerChar c) = true := by
    simp only [List.mem_cons, List.not_mem_nil, or_false] at hw
    rcases hw with hw | hw | hw <;> obtain ⟨c, v, rfl, hc, -⟩ := List.map_eq_cons_iff.1 hw <;>
      exact ⟨c, v, rfl, by rw [hc]; decide⟩
  obtain ⟨c, v, rfl, hc⟩ := hletter
  exact ⟨c, v, rfl, by rw [isDecimal, (isLetter_of_lowerChar hc).1]; rfl⟩

/-- An element leaves the scanner as it was. -/
theorem IsElement.afterAll (h : IsElement cores node) (hstate : state.calm = state) :
    state.afterAll cores = state := by
  have hnumber : ∀ w, state.after .number w = state := fun w => hstate
  cases h with
  | @sign _ _ kind c hkind hc =>
    rcases hc with rfl | rfl <;> obtain rfl := Option.some.inj hkind <;> exact hstate
  | digits => exact hnumber _
  | step _ _ hw =>
    rw [ScanState.afterAll_cons, hnumber, ScanState.afterAll_cons,
      after_word hstate (mem_words_of_step hw)]; rfl
  | word _ hw => exact after_word hstate hw

theorem IsElement.compact_eq (h : IsElement cores node) : node.compact = coreChars cores := by
  cases h with
  | sign _ _ htext | digits htext | step htext | word htext =>
    simp [Node.leafMarks, htext, coreChars]

/-- What stands next is no part of an element that ends with digits. -/
theorem EndsPlace.not_isDecimal (h : EndsPlace cs) : ∀ d ∈ cs.head?, isDecimal d = false := by
  intro d hd
  rcases h d hd with rfl | rfl | rfl <;> rfl

/-- The element of the given lexemes ends before the text: a sign before every text, digits before
every text that starts with none, and words before signs and parentheses that close. -/
def Precedes (cores : List (TokenKind × List Char)) (cs : List Char) : Prop :=
  EndsPlace cs ∨ (∃ w, cores = [(.number, w)]) ∧ (∀ d ∈ cs.head?, isDecimal d = false) ∨
    ∃ kind c, cores = [(kind, [c])] ∧ TokenKind.ofChar? c = some kind

theorem IsElement.coresFrom_compact (h : IsElement cores node) (hstate : state.calm = state)
    (hcs : Precedes cores cs) :
    coresFrom state (node.compact ++ cs) = cores ++ coresFrom state cs := by
  have hafter := h.afterAll hstate
  have hident : ∀ {w v}, cores = v ++ [(.ident, w)] → EndsPlace cs := by
    rintro w v rfl
    rcases hcs with hcs | ⟨⟨w', heq⟩, -⟩ | ⟨kind, c, heq, hkind⟩
    · exact hcs
    · simpa using congrArg List.getLast? heq
    · obtain ⟨rfl, -⟩ : .ident = kind ∧ w = [c] := by simpa using congrArg List.getLast? heq
      cases char?_of_ofChar? hkind
  rw [h.compact_eq]
  cases h with
  | @sign _ _ kind c hkind hc =>
    have hread : Reads state kind [c] cs :=
      .sign (by rcases hc with rfl | rfl <;> rfl) hkind
        (by rcases hc with rfl | rfl <;> exact fun h => absurd h (by decide))
    have hscan := hread.coresFrom_append
    rw [show state.after kind [c] = state from hafter] at hscan
    simpa [coreChars] using hscan
  | @digits _ _ w _ hw =>
    have hends : ∀ d ∈ cs.head?, isDecimal d = false := by
      rcases hcs with hcs | ⟨-, hcs⟩ | ⟨kind, c, heq, hkind⟩
      · exact hcs.not_isDecimal
      · exact hcs
      · obtain ⟨⟨rfl, -⟩, -⟩ := (List.cons.inj heq).imp_left Prod.mk.inj
        cases char?_of_ofChar? hkind
    have hread : Reads state .number w cs := reads_digits hw hends
    have hscan := hread.coresFrom_append
    rw [show state.after .number w = state from hafter] at hscan
    simpa [coreChars] using hscan
  | @step _ _ v w _ hv hw =>
    have hwords := mem_words_of_step hw
    obtain ⟨c, u, rfl, hc⟩ := isDecimal_of_word hwords
    have hread : Reads state .number v (c :: u ++ cs) := reads_digits hv (by simpa using hc)
    have hread' : Reads state .ident (c :: u) cs := reads_word hwords (hident (v := [_]) rfl)
    have hscan := hread.coresFrom_append
    rw [show state.after .number v = state from hstate, hread'.coresFrom_append,
      after_word hstate hwords] at hscan
    simpa [coreChars] using hscan
  | @word _ _ w _ hw =>
    have hread : Reads state .ident w cs := reads_word hw (hident (v := []) rfl)
    have hscan := hread.coresFrom_append
    rw [show state.after .ident w = state from hafter] at hscan
    simpa [coreChars] using hscan

/-! ## Series are scanned again -/

theorem mem_words_of_sameLetters {text : String}
    (h : (Text.sameLetters text "odd" || Text.sameLetters text "even") = true) :
    text.toList.map Text.lowerChar ∈ ["n".toList, "odd".toList, "even".toList] := by
  rw [Bool.or_eq_true] at h
  rcases h with h | h <;> rw [of_decide_eq_true h] <;> decide

/-- Elements that do not run together can stand next to each other. -/
theorem IsElement.precedes {cores' : List (TokenKind × List Char)} {next : Tree}
    (h : IsElement cores node) (hnext : IsElement cores' next)
    (happart : Node.runsTogether node next = false) (cs : List Char) :
    Precedes cores (next.compact ++ cs) := by
  cases hnext with
  | @sign _ _ _ c _ hc htext =>
    refine .inl fun d hd => ?_
    obtain rfl : c = d := by simpa [Node.leafMarks, htext] using hd
    exact hc.imp_right .inl
  | @digits _ text | @step _ text | @word _ text =>
    cases h with
    | sign hkind => exact .inr (.inr ⟨_, _, rfl, hkind⟩)
    | @digits _ text' w =>
      simp only [Node.runsTogether, Bool.not_eq_false', Bool.and_eq_true] at happart
      obtain ⟨c, v, htext, hc⟩ := isDecimal_of_word (mem_words_of_sameLetters happart.2)
      refine .inr (.inl ⟨⟨w, rfl⟩, fun d hd => ?_⟩)
      obtain rfl : c = d := by simpa [Node.leafMarks, htext] using hd
      exact hc
    | @step _ text' v w htext hv hw =>
      obtain ⟨c, u, rfl, hc⟩ := isDecimal_of_word (mem_words_of_step hw)
      simp [Node.runsTogether, htext, hc] at happart
    | @word _ text' w htext hw =>
      obtain ⟨c, u, rfl, hc⟩ := isDecimal_of_word hw
      simp [Node.runsTogether, htext, hc] at happart

/-- The elements of a series are scanned again from the text that is written of them. -/
theorem coresFrom_elements (helements : ∀ node ∈ nodes, ∃ cores, IsElement cores node)
    (happart : nodes.IsChain fun first second => Node.runsTogether first second = false) :
    ∃ pieces, List.Forall₂ IsElement pieces nodes ∧ ∀ (state : ScanState) (cs : List Char),
      state.calm = state → EndsPlace cs →
      coresFrom state (rowChars nodes ++ cs) = pieces.flatten ++ coresFrom state cs := by
  induction nodes with
  | nil => exact ⟨[], .nil, fun _ _ _ _ => rfl⟩
  | cons node nodes ih =>
    obtain ⟨cores, hnode⟩ := helements node (.head _)
    obtain ⟨pieces, hpieces, hscan⟩ :=
      ih (fun node hmem => helements node (.tail _ hmem)) happart.tail
    refine ⟨cores :: pieces, .cons hnode hpieces, fun state cs hstate hcs => ?_⟩
    have hprecedes : Precedes cores (rowChars nodes ++ cs) := by
      cases nodes with
      | nil => exact .inl hcs
      | cons next later =>
        obtain ⟨cores', hnext⟩ := helements next (.tail _ (.head _))
        rw [rowChars_cons, List.append_assoc]
        exact hnode.precedes hnext (List.isChain_cons_cons.1 happart).1 _
    rw [rowChars_cons, List.append_assoc, hnode.coresFrom_compact hstate hprecedes,
      hscan state cs hstate hcs, List.flatten_cons, List.append_assoc]

/-! ## Places -/

theorem nth_number (hs : s.rest = token :: rest) (hk : token.kind = .number)
    (hnext : ∀ next ∈ rest.head?, next.kind = .ident → next.spells "n" = false) :
    nth s = .ok (.leaf (some token.start) .nth token.text) { s with rest } := by
  have hfollowed : (rest[0]?.any fun next => next.kind = .ident && next.spells "n") = false := by
    rw [← List.head?_eq_getElem?]
    cases hhead : rest.head? with
    | none => rfl
    | some next => simpa using hnext next hhead
  simp only [nth, here_bind_run, current?_bind_run, lookup?_bind_run, hs, List.head?_cons,
    Option.map_some, hk, if_true, List.getElem?_cons_succ, hfollowed, Bool.false_eq_true, if_false,
    takeMany_bind_run, List.take_succ_cons, List.take_zero, List.drop_succ_cons, List.drop_zero,
    run_pure]
  simp [Text.concat]

theorem nth_step {word : Token} (hs : s.rest = token :: word :: rest) (hk : token.kind = .number)
    (hword : word.kind = .ident ∧ word.spells "n" = true) : nth s =
      .ok (.leaf (some token.start) .nth (Text.concat [token.text, word.text]))
        { s with rest } := by
  simp only [nth, here_bind_run, current?_bind_run, lookup?_bind_run, hs, List.head?_cons,
    Option.map_some, hk, if_true, List.getElem?_cons_succ, List.getElem?_cons_zero, Option.any_some,
    hword.1, hword.2, decide_true, Bool.and_self, takeMany_bind_run, List.take_succ_cons,
    List.take_zero, List.drop_succ_cons, List.drop_zero, run_pure, List.map_cons, List.map_nil]

theorem nth_word (hs : s.rest = token :: rest) (hk : token.kind = .ident)
    (hword : (token.spells "n" || token.spells "odd" || token.spells "even") = true) :
    nth s = .ok (.leaf (some token.start) .nth token.text) { s with rest } := by
  simp only [nth, here_bind_run, current?_bind_run, hs, List.head?_cons, Option.map_some, hk,
    reduceCtorEq, if_false, if_true, hword, take_bind_run, run_pure, Option.getD_some,
    List.tail_cons]

/-- The ways in which a place is read. -/
inductive NthStep (s : ParserState) : Tree → ParserState → Prop
  | digits {token : Token} {rest : List Token} : s.rest = token :: rest → token.kind = .number →
    NthStep s (.leaf (some token.start) .nth token.text) { s with rest }
  | step {token word : Token} {rest : List Token} :
    s.rest = token :: word :: rest → token.kind = .number →
    word.kind = .ident ∧ word.spells "n" = true →
    NthStep s (.leaf (some token.start) .nth (Text.concat [token.text, word.text])) { s with rest }
  | word {token : Token} {rest : List Token} : s.rest = token :: rest → token.kind = .ident →
    (token.spells "n" || token.spells "odd" || token.spells "even") = true →
    NthStep s (.leaf (some token.start) .nth token.text) { s with rest }

theorem nth_cases (h : nth s = .ok node s') : NthStep s node s' := by
  cases hs : s.rest with
  | nil =>
    rw [nth, here_bind_run, current?_bind_run, hs] at h
    exact (fail_ne_ok.1 h).elim
  | cons token rest =>
    by_cases hnumber : token.kind = .number
    · by_cases hnext : ∃ next ∈ rest.head?, next.kind = .ident ∧ next.spells "n" = true
      · obtain ⟨word, hmem, hword⟩ := hnext
        obtain ⟨rest, rfl⟩ := List.head?_eq_some_iff.1 hmem
        obtain ⟨rfl, rfl⟩ := EStateM.Result.ok.inj ((nth_step hs hnumber hword).symm.trans h)
        exact .step hs hnumber hword
      · have hread := nth_number hs hnumber fun next hmem hk =>
          Bool.eq_false_iff.2 fun hspells => hnext ⟨next, hmem, hk, hspells⟩
        obtain ⟨rfl, rfl⟩ := EStateM.Result.ok.inj (hread.symm.trans h)
        exact .digits hs hnumber
    · by_cases hident : token.kind = .ident
      · by_cases hword : (token.spells "n" || token.spells "odd" || token.spells "even") = true
        · obtain ⟨rfl, rfl⟩ := EStateM.Result.ok.inj ((nth_word hs hident hword).symm.trans h)
          exact .word hs hident hword
        · simp only [nth, here_bind_run, current?_bind_run, hs, List.head?_cons, hident,
            reduceCtorEq, if_false, if_true, hword] at h
          exact (fail_ne_ok.1 h).elim
      · simp only [nth, here_bind_run, current?_bind_run, hs, List.head?_cons, hnumber, hident,
          if_false] at h
        exact (fail_ne_ok.1 h).elim

theorem mem_words_of_spells
    (h : (token.spells "n" || token.spells "odd" || token.spells "even") = true) :
    token.text.toList.map Text.lowerChar ∈ ["n".toList, "odd".toList, "even".toList] := by
  rw [Bool.or_eq_true, Bool.or_eq_true] at h
  rcases h with (h | h) | h <;> rw [of_decide_eq_true h] <;> decide

/-- A place is an element of a series. -/
theorem isElement_of_nth (hp : p.Scans s.rest) (h : nth s = .ok node s') :
    ∃ front, s.rest = front ++ s'.rest ∧
    front ≠ [] ∧ IsElement (front.map Token.core) node ∧ ∀ token ∈ front, token.kind = .number ∨
    token.kind = .ident := by
  cases nth_cases h with
  | @digits token rest hs hk =>
    rw [hs] at hp
    obtain ⟨cs, -, hread, -⟩ := hp.cons
    rw [hk] at hread
    refine ⟨[token], hs, by simp, ?_, by simp [hk]⟩
    rw [List.map_singleton, Token.core, hk]
    exact .digits rfl (isDigits_of_reads hread)
  | @step token word rest hs hk hword =>
    rw [hs] at hp
    obtain ⟨cs, -, hread, -⟩ := hp.cons
    rw [hk] at hread
    refine ⟨[token, word], hs, by simp, ?_, by simp [hk, hword.1]⟩
    rw [List.map_cons, List.map_singleton, Token.core, Token.core, hk, hword.1]
    refine .step (by simp [Text.concat]) (isDigits_of_reads hread) ?_
    exact (of_decide_eq_true hword.2).trans (by decide)
  | @word token rest hs hk hword =>
    refine ⟨[token], hs, by simp, ?_, by simp [hk]⟩
    rw [List.map_singleton, Token.core, hk]
    exact .word rfl (mem_words_of_spells hword)

/-! ## Series are read -/

/-- What a round of a series does. -/
inductive NthRound (s : ParserState) (token : Token) : Item → ParserState → Prop
  | ends : token.kind = .rightParen → NthRound s token .stop s
  | gap : isGap token = true → NthRound s token (.next [] ()) { s with rest := s.rest.tail }
  | element {node : Tree} {front : List Token} {s' : ParserState} : s.rest = front ++ s'.rest →
    IsElement (front.map Token.core) node →
    (∀ token ∈ front, token.kind ≠ .leftParen ∧ token.kind ≠ .rightParen) →
    NthRound s token (.next [node] ()) s'

theorem nthPart_cases {result : Item} (hp : p.Scans s.rest) (hs : s.rest = token :: rest)
    (h : nthPart token s = .ok result s') : NthRound s token result s' := by
  have hsign : ∀ {c}, TokenKind.ofChar? c = some token.kind → (c = '-' ∨ c = '+') →
      add operator s = .ok result s' → NthRound s token result s' := by
    intro c hkind hc h
    obtain ⟨rfl, rfl⟩ := EStateM.Result.ok.inj h
    rw [hs] at hp
    obtain ⟨cs, -, hread, -⟩ := hp.cons
    have htext : token.text.toList = [c] := hread.eq_char (char?_of_ofChar? hkind)
    have helement : IsElement ([token].map Token.core)
        (.leaf (some token.start) .operator token.text) := by
      rw [List.map_singleton, Token.core, htext]
      exact .sign hkind hc htext
    rw [hs]
    refine .element (by simp [hs]) helement ?_
    · rcases hc with rfl | rfl <;> simp [← Option.some.inj hkind]
  have hplace : add nth s = .ok result s' → NthRound s token result s' := by
    intro h
    obtain ⟨node, s₁, hread, h⟩ := bind_eq_ok.1 h
    obtain ⟨rfl, rfl⟩ := EStateM.Result.ok.inj h
    obtain ⟨front, hrest, -, helement, hkinds⟩ := isElement_of_nth hp hread
    refine .element hrest helement fun token hmem => ?_
    rcases hkinds token hmem with hk | hk <;> simp [hk]
  cases hk : token.kind with
  | rightParen =>
    rw [nthPart, hk] at h
    obtain ⟨rfl, rfl⟩ := EStateM.Result.ok.inj h
    exact .ends hk
  | whitespace | comment =>
    rw [nthPart, hk] at h
    obtain ⟨rfl, rfl⟩ := EStateM.Result.ok.inj h
    exact .gap (by simp [isGap, hk])
  | hyphenMinus =>
    rw [nthPart, hk] at h
    exact hsign (c := '-') (by rw [hk]; rfl) (.inl rfl) h
  | plus =>
    rw [nthPart, hk] at h
    exact hsign (c := '+') (by rw [hk]; rfl) (.inr rfl) h
  | _ =>
    rw [nthPart, hk] at h
    exact hplace h

/-- A series reads elements, and leaves the scanner as it was. -/
theorem elements_of_rounds {st last : Unit}
    (h : Rounds (fun _ token => nthPart token) st s nodes last s') (hp : p.Scans s.rest)
    (hstate : p.state.calm = p.state) :
    ∃ p' : Place, p'.Scans s'.rest ∧ p'.state = p.state ∧ p'.firm = p.firm ∧
      Balanced s.rest s'.rest ∧ ∀ node ∈ nodes, ∃ cores, IsElement cores node := by
  induction h generalizing p with
  | done => exact ⟨p, hp, rfl, rfl, .refl, nofun⟩
  | stop hs hround =>
    cases nthPart_cases hp hs hround with
    | ends => exact ⟨p, hp, rfl, rfl, .refl, nofun⟩
  | @next _ s token rest items _ s₁ later last s' hs hround _ ih =>
    cases nthPart_cases hp hs hround with
    | gap hgap =>
      rw [hs] at hp
      obtain ⟨cs, -, hread, hp₁⟩ := hp.cons
      have hk : token.kind = .whitespace ∨ token.kind = .comment := by simpa [isGap] using hgap
      have hafter : (p.after token cs).state = p.state := by
        rw [Place.after]
        rcases hk with hk | hk <;> rw [hk] <;> exact hstate
      have hbalanced : Balanced s.rest rest := by
        rw [hs]
        refine .token ?_ ?_ <;> rcases hk with hk | hk <;> simp [hk]
      obtain ⟨p', hp', hstate', hfirm', hbalanced', helements⟩ :=
        ih (by rw [hs]; exact hp₁) (by rw [hafter]; exact hstate)
      refine ⟨p', hp', hstate'.trans hafter, hfirm', hbalanced.trans ?_, helements⟩
      rw [hs] at hbalanced'
      exact hbalanced'
    | @element node front _ hrest helement hkinds =>
      rw [hrest] at hp
      obtain ⟨cs, -, hp₁⟩ := hp.append
      have hafter : (p.afterAll front cs).state = p.state := helement.afterAll hstate
      obtain ⟨p', hp', hstate', hfirm', hbalanced', helements⟩ :=
        ih hp₁ (by rw [hafter]; exact hstate)
      refine ⟨p', hp', hstate'.trans hafter, hfirm', ?_, ?_⟩
      · rw [hrest]
        exact (Balanced.of_forall hkinds).trans hbalanced'
      · exact List.forall_mem_cons.2 ⟨⟨_, helement⟩, helements⟩

/-! ## Series are read again -/

/-- The first lexeme of what can stand after digits is no `n`. -/
theorem IsElement.not_spells_n {first : Token} {cores' : List (TokenKind × List Char)} {next : Tree}
    (h : IsElement [(.number, w)] node) (hnext : IsElement cores' next)
    (happart : Node.runsTogether node next = false) (hfirst : cores'.head? = some first.core)
    (hk : first.kind = .ident) : first.spells "n" = false := by
  cases hnext with
  | sign hkind =>
    obtain ⟨rfl, -⟩ := Prod.mk.inj (Option.some.inj hfirst)
    rw [hk] at hkind
    exact nomatch char?_of_ofChar? hkind
  | digits | step =>
    obtain ⟨hnumber, -⟩ := Prod.mk.inj (Option.some.inj hfirst)
    exact nomatch hnumber.trans hk
  | @word _ text w htext =>
    obtain ⟨-, hw⟩ := Prod.mk.inj (Option.some.inj hfirst)
    obtain rfl : text = first.text := String.toList_inj.1 (htext.trans hw)
    cases h with
    | sign hkind => exact nomatch char?_of_ofChar? hkind
    | digits =>
      simp only [Node.runsTogether, Bool.not_eq_false', Bool.and_eq_true, Bool.or_eq_true,
        Text.sameLetters, decide_eq_true_eq] at happart
      rw [Token.spells, Text.sameLetters]
      rcases happart.2 with h | h <;> rw [h] <;> decide

/-- An element is read by one round of the loop. -/
theorem IsElement.round {front : List Token} (h : IsElement (front.map Token.core) node)
    (hs : s.rest = front ++ rest) (hnext : ∀ w, front.map Token.core = [(.number, w)] →
      ∀ next ∈ rest.head?, next.kind = .ident → next.spells "n" = false) :
    ∃ first more node', front = first :: more ∧
      nthPart first s = .ok (.next [node'] ()) { s with rest } ∧
      node'.bare = node.bare := by
  have hplace : ∀ {first more node'}, front = first :: more →
      first.kind = .number ∨ first.kind = .ident →
      nth s = .ok node' { s with rest } → node'.bare = node.bare →
      ∃ first more node', front = first :: more ∧
        nthPart first s = .ok (.next [node'] ()) { s with rest } ∧
        node'.bare = node.bare := by
    intro first more node' hfront hk hread hbare
    refine ⟨first, more, node', hfront, ?_, hbare⟩
    have hround : nthPart first s = add nth s := by rcases hk with hk | hk <;> rw [nthPart, hk]
    rw [hround, add, bind_of_ok hread, run_pure]
  generalize hcores : front.map Token.core = cores at h
  cases h with
  | @sign _ text kind c hkind hc htext =>
    obtain ⟨token, rfl, hcore⟩ := List.map_eq_singleton_iff.1 hcores
    obtain ⟨rfl, hchars⟩ := Prod.mk.inj hcore
    obtain rfl : token.text = text := String.toList_inj.1 (hchars.trans htext.symm)
    have hround : nthPart token s = add operator s := by
      rcases hc with rfl | rfl <;> rw [nthPart, ← Option.some.inj hkind]
    refine ⟨token, [], .leaf (some token.start) .operator token.text, rfl, ?_, by simp⟩
    rw [hround, add, operator, tokenLeaf, bind_assoc, here_bind_run, bind_assoc, take_bind_run, hs]
    rfl
  | @digits _ text w htext =>
    obtain ⟨token, rfl, hcore⟩ := List.map_eq_singleton_iff.1 hcores
    obtain ⟨hk, hchars⟩ := Prod.mk.inj hcore
    obtain rfl : token.text = text := String.toList_inj.1 (hchars.trans htext.symm)
    exact hplace rfl (.inl hk) (nth_number hs hk (hnext w hcores)) (by simp)
  | @step _ text v w htext _ hw =>
    obtain ⟨token, more, rfl, hcore, hmore⟩ := List.map_eq_cons_iff.1 hcores
    obtain ⟨word, rfl, hcore'⟩ := List.map_eq_singleton_iff.1 hmore
    obtain ⟨hk, hchars⟩ := Prod.mk.inj hcore
    obtain ⟨hk', hchars'⟩ := Prod.mk.inj hcore'
    have hspells : word.spells "n" = true := by
      rw [Token.spells, Text.sameLetters, hchars', hw]
      decide
    refine hplace rfl (.inl hk) (nth_step hs hk ⟨hk', hspells⟩) ?_
    have htext' : Text.concat [token.text, word.text] = text := by
      rw [← String.toList_inj, htext]
      simp [Text.concat, hchars, hchars']
    rw [Node.bare_leaf, Node.bare_leaf, htext']
  | @word _ text w htext hw =>
    obtain ⟨token, rfl, hcore⟩ := List.map_eq_singleton_iff.1 hcores
    obtain ⟨hk, hchars⟩ := Prod.mk.inj hcore
    obtain rfl : token.text = text := String.toList_inj.1 (hchars.trans htext.symm)
    have hspells : (token.spells "n" || token.spells "odd" || token.spells "even") = true := by
      rw [← htext] at hw
      simp only [List.mem_cons, List.not_mem_nil, or_false] at hw
      simp only [Token.spells, Text.sameLetters]
      rcases hw with hw | hw | hw <;> rw [hw] <;> decide
    exact hplace rfl (.inr hk) (nth_word hs hk hspells) (by simp)

theorem IsElement.ne_nil (h : IsElement cores node) : cores ≠ [] := by
  cases h <;> exact List.cons_ne_nil _ _

/-- The elements of a series are read again from their lexemes, up to the parenthesis that
closes. -/
theorem elements_run {front : List Token} {closing : Token}
    (h : List.Forall₂ IsElement pieces nodes)
    (happart : nodes.IsChain fun first second => Node.runsTogether first second = false)
    (hs : s.rest = front ++ closing :: rest) (hcore : front.map Token.core = pieces.flatten)
    (hk : closing.kind = .rightParen) : ∃ nodes',
      LoopsTo (fun _ token => nthPart token) () s nodes' () { s with rest := closing :: rest } ∧
        nodes'.map Node.bare = nodes.map Node.bare := by
  induction h generalizing s front with
  | nil =>
    obtain rfl : front = [] := List.map_eq_nil_iff.1 hcore
    rw [List.nil_append] at hs
    refine ⟨[], ?_, rfl⟩
    rw [← hs]
    exact .stop hs (by rw [nthPart, hk]; rfl)
  | @cons cores node pieces nodes hnode hnodes ih =>
    rw [List.flatten_cons] at hcore
    obtain ⟨front, later, rfl, rfl, hlater⟩ := List.map_eq_append_iff.1 hcore
    rw [List.append_assoc] at hs
    have hnext : ∀ w, front.map Token.core = [(.number, w)] →
        ∀ next ∈ (later ++ closing :: rest).head?, next.kind = .ident →
          next.spells "n" = false := by
      intro w hw next hmem hident
      cases hnodes with
      | nil =>
        obtain rfl : later = [] := List.map_eq_nil_iff.1 hlater
        obtain rfl : closing = next := Option.some.inj hmem
        exact nomatch hident.symm.trans hk
      | @cons cores' next' pieces _ hnext' _ =>
        obtain ⟨core, more, rfl⟩ := List.exists_cons_of_ne_nil hnext'.ne_nil
        rw [List.flatten_cons, List.cons_append] at hlater
        obtain ⟨first, later, rfl, rfl, -⟩ := List.map_eq_cons_iff.1 hlater
        obtain rfl : first = next := Option.some.inj hmem
        rw [hw] at hnode
        exact hnode.not_spells_n hnext' (List.isChain_cons_cons.1 happart).1 rfl hident
    obtain ⟨first, more, node', rfl, hround, hbare⟩ := hnode.round hs hnext
    obtain ⟨nodes', hloop, hbares⟩ :=
      ih happart.tail (s := { s with rest := later ++ closing :: rest }) rfl hlater
    refine ⟨node' :: nodes', .cons hs hround ?_ hloop, by simp [hbare, hbares]⟩
    simp only [hs, List.cons_append, List.length_cons, List.length_append]
    omega

/-- A series is read again from its text, up to the parenthesis that closes. -/
theorem elements_again (helements : ∀ node ∈ nodes, ∃ cores, IsElement cores node)
    (happart : nodes.IsChain fun first second => Node.runsTogether first second = false)
    (hstate : state.calm = state)
    (hs : Place.Scans ⟨state, rowChars nodes ++ ')' :: cs, .soft⟩ s.rest) :
    ∃ nodes' closing rest, many nthPart s = .ok nodes' { s with rest := closing :: rest } ∧
      nodes'.map Node.bare = nodes.map Node.bare ∧ closing.kind = .rightParen ∧
      Place.Scans ⟨state.after .rightParen [')'], cs, .soft⟩ rest ∧
      rest.length < s.rest.length := by
  obtain ⟨pieces, hpieces, hscan⟩ := coresFrom_elements helements happart
  have hcores := hs.cores
  rw [hscan state _ hstate (by simp [EndsPlace])] at hcores
  obtain ⟨front, rest', hrest, hfront, hrest'⟩ := List.map_eq_append_iff.1 hcores
  obtain ⟨closing, rest, rfl, hclosing, hs'⟩ :=
    Place.Scans.of_sign (p := ⟨state, [], .soft⟩) ⟨hrest', trivial⟩ rfl rfl (by decide)
  have hk : closing.kind = .rightParen := congrArg Prod.fst hclosing
  obtain ⟨nodes', hloop, hbares⟩ := elements_run hpieces happart hrest hfront hk
  refine ⟨nodes', closing, rest, hloop.many_eq, hbares, hk, hs', ?_⟩
  rw [hrest, List.length_append, List.length_cons]
  omega

/-! ## Pseudo-classes of series -/

theorem pseudo_of_nth {first second : Token} (hs : s.rest = first :: second :: rest)
    (hident : second.kind = .ident) (hspells : second.spells "nth" = true) :
    pseudo inner s = nthSelector s := by
  rw [pseudo_eq hs, if_neg (by simp [hident]), if_pos (by simp [hident, hspells])]

/-- The pseudo-class of a series is a colon, a name, and the series in parentheses. -/
theorem nthSelector_eq_ok (hne : ∀ token ∈ s.rest, token.text ≠ "") : nthSelector s = .ok node s' ↔
    ∃ colon name opening rest parts closing, s.rest = colon :: (name ++ opening :: rest) ∧
      colon.kind = .colon ∧ IsName false name ∧ opening.kind = .leftParen ∧
      many nthPart { s with rest } = .ok parts { s' with rest := closing :: s'.rest } ∧
      closing.kind = .rightParen ∧ node = .sequence (some colon.start)
        (.functionalPseudo (Text.concat (name.map Token.text))) [argument parts] := by
  rw [nthSelector, here_bind_run]
  constructor
  · intro h
    obtain ⟨_, s₀, hcolon, h⟩ := bind_eq_ok.1 h
    obtain ⟨colon, rest₀, hs, hk, rfl⟩ := expect_eq_ok.1 hcolon
    obtain ⟨_, s₁, hname, h⟩ := bind_eq_ok.1 h
    obtain ⟨_, _, hopen, h⟩ := bind_eq_ok.1 h
    obtain ⟨opening, rest, hs₁, hopening, rfl⟩ := expect_eq_ok.1 hopen
    obtain ⟨parts, s₂, hparts, h⟩ := bind_eq_ok.1 h
    obtain ⟨_, _, hclose, h⟩ := bind_eq_ok.1 h
    obtain ⟨closing, rest₂, hs₂, hclosing, rfl⟩ := expect_eq_ok.1 hclose
    obtain ⟨rfl, rfl⟩ := EStateM.Result.ok.inj h
    obtain ⟨name, hpass, rfl, hisName, -⟩ :=
      (readName_passes fun token hmem => hne token (by rw [hs]; exact .tail _ hmem)).1 hname
    have hrest : rest₀ = name ++ opening :: rest := hpass.rest.trans (by rw [hs₁])
    have hdiscarded : s₁.discarded = s.discarded := hpass.discarded
    refine ⟨colon, name, opening, rest, parts, closing, by rw [hs, hrest], hk, hisName, hopening,
      ?_, hclosing, by simp [hs]⟩
    rw [← hs₂, ← hdiscarded]
    exact hparts
  · rintro ⟨colon, name, opening, rest, parts, closing, hs, hk, hisName, hopening, hparts,
      hclosing, rfl⟩
    have hcolon : expect .colon s = .ok () { s with rest := name ++ opening :: rest } :=
      expect_eq_ok.2 ⟨colon, _, hs, hk, rfl⟩
    have hname : readName false { s with rest := name ++ opening :: rest } =
        .ok (Text.concat (name.map Token.text)) { s with rest := opening :: rest } := by
      refine (readName_passes fun token hmem => hne token (by rw [hs]; exact .tail _ hmem)).2
        ⟨name, ⟨rfl, rfl⟩, rfl, hisName, fun token hmem => ?_⟩
      obtain rfl : opening = token := Option.some.inj hmem
      rw [isNamePart, hopening]
    have hopen : expect .leftParen { s with rest := opening :: rest } = .ok () { s with rest } :=
      expect_eq_ok.2 ⟨opening, rest, rfl, hopening, rfl⟩
    have hclose : expect .rightParen { s' with rest := closing :: s'.rest } = .ok () s' :=
      expect_eq_ok.2 ⟨closing, s'.rest, rfl, hclosing, rfl⟩
    rw [bind_of_ok hcolon, bind_of_ok hname, bind_of_ok hopen, bind_of_ok hparts, bind_of_ok hclose,
      run_pure, hs]
    rfl

theorem compact_nthSelector (info : Option Nat) (name : String) (parts : List Tree) :
    (Node.sequence info (.functionalPseudo name) [argument parts]).compact =
      ':' :: (name.toList ++ '(' :: (rowChars parts ++ [')'])) := by
  simp [compact_functionalPseudo, compact_argument]

/-- The pseudo-class of a series is read again. -/
theorem nthSelector_returns {first second : Token} (hp : p.Scans s.rest) (hfirm : p.firm = .firm)
    (hs : s.rest = first :: second :: rest) (hident : second.kind = .ident)
    (hspells : second.spells "nth" = true)
    (happart : ∀ child ∈ node.children, child.placesApart = true)
    (h : nthSelector s = .ok node s') :
    ∃ p', PartReturns p s s' node (fun n => pseudo (.upTo n)) p' := by
  obtain ⟨colon, name, opening, rest₁, parts, closing, hrest, hcolon, hname, hopening, hparts,
    hclosing, rfl⟩ := (nthSelector_eq_ok hp.text_ne).1 h
  have happart : parts.IsChain fun first second => Node.runsTogether first second = false :=
    of_decide_eq_true (happart _ (List.mem_singleton_self _))
  have hfront : s.rest = (colon :: name) ++ opening :: rest₁ := hrest
  have hwords : ∀ token ∈ colon :: name, token.kind.isWord = true :=
    List.forall_mem_cons.2 ⟨by rw [hcolon]; rfl, hname.words⟩
  have hbalanced₁ : Balanced s.rest (opening :: rest₁) := by
    rw [hrest]
    exact (Balanced.token (by simp [hcolon]) (by simp [hcolon])).trans hname.balanced
  rw [hfront] at hp
  obtain ⟨_, -, hread, -⟩ := hp.cons
  have hchars : tokenChars (colon :: name) = ':' :: tokenChars name := by
    rw [hcolon] at hread
    simp [hread.eq_char rfl]
  obtain ⟨cs₁, htext, hp₁⟩ := hp.append
  obtain ⟨cs₂, htext₁, hp₂, hstate₂, -⟩ := rereads_sign (c := '(') hp₁ hopening rfl rfl (by decide)
  have hcalm : ((p.afterAll (colon :: name) cs₁).after opening cs₂).state.calm =
      ((p.afterAll (colon :: name) cs₁).after opening cs₂).state := by rw [← hstate₂]; rfl
  obtain ⟨p₃, hp₃, hstate₃, hfirm₃, hbalanced₃, helements⟩ :=
    elements_of_rounds (rounds_of_many hparts) hp₂ hcalm
  obtain ⟨cs₄, -, hp₄, hstate₄, -⟩ := rereads_sign (c := ')') hp₃ hclosing rfl rfl (by decide)
  have hcompact :
      ∀ cs, (Node.sequence (some colon.start)
        (.functionalPseudo (Text.concat (name.map Token.text)))
      [argument parts] : Tree).compact ++ cs =
        tokenChars (colon :: name) ++ '(' :: (rowChars parts ++ ')' :: cs) := by
    intro cs
    rw [compact_nthSelector, toList_concat_text, hchars]
    simp
  refine ⟨p₃.after closing cs₄, hp₄, hfirm₃,
    hbalanced₁.trans (.group hopening hclosing hbalanced₃), rfl,
    fun cs _ => ?_, fun n cs s₁ _ hs₁ _ => ?_⟩
  · rw [hcompact, hchars]
    exact startsAlike_of_sign (htext.trans (by rw [hchars]; rfl)) rfl rfl (by decide) _
  · rw [hcompact] at hs₁
    have hjoins : (p.afterAll (colon :: name) cs₁).Joins ('(' :: (rowChars parts ++ ')' :: cs)) :=
      .inr (startsAlike_of_sign htext₁ rfl rfl (by decide) _)
    obtain ⟨front', rest', hrest', hcore, hs₂⟩ := hp.words_split htext hfirm hwords hjoins.ends hs₁
    obtain ⟨colon', name', rfl, hcolon', hname'⟩ := List.map_eq_cons_iff.1 hcore
    obtain ⟨opening', rest₂', rfl, hopening', hs₃⟩ := hs₂.of_sign rfl rfl (by decide)
    rw [hstate₂] at hs₃
    obtain ⟨nodes', closing', rest₃', hread', hbares, hclosing', hs₄, hlt⟩ :=
      elements_again (s := { s₁ with rest := rest₂' }) helements happart hcalm hs₃
    have hname₁ : IsName false name' := hname.congr hname'
    have hnth : nthSelector s₁ = .ok (.sequence (some colon'.start)
        (.functionalPseudo (Text.concat (name'.map Token.text))) [argument nodes'])
          { s₁ with rest := rest₃' } :=
      (nthSelector_eq_ok hs₁.text_ne).2 ⟨colon', name', opening', rest₂', nodes', closing', hrest',
        (Token.kind_eq_of_core hcolon').trans hcolon, hname₁, congrArg Prod.fst hopening', hread',
        hclosing', rfl⟩
    obtain ⟨second', more, rfl, -⟩ := hname₁.starts
    have hsecond : second'.core = second.core := by
      obtain ⟨-, hrest⟩ := List.cons.inj (hrest.symm.trans hs)
      obtain ⟨second'', more', rfl, -⟩ := hname.starts
      obtain ⟨rfl, -⟩ := List.cons.inj hrest
      exact (List.cons.inj hname').1
    have hident' : second'.kind = .ident := (Token.kind_eq_of_core hsecond).trans hident
    have hspells' : second'.spells "nth" = true := by
      rw [Token.spells, Token.text_eq_of_core hsecond]
      exact hspells
    refine ⟨_, _, (pseudo_of_nth hrest' hident' hspells').trans hnth, ?_, ?_, ?_⟩
    · simp [argument, hbares, map_text_congr hname']
    · rw [Place.put, ← hstate₄, hstate₃]
      exact hs₄
    · simp only at hlt ⊢
      rw [hrest']
      simp only [List.length_append, List.length_cons]
      omega

/-! ## Simple selectors with series -/

/-- Whether the tokens end with a colon and the name of a series. -/
def opensSeries (tokens : List Token) : Bool :=
  ((tokens.reverse.dropWhile isNamePart).head?.any fun colon => colon.kind = .colon) &&
    (tokens.reverse.takeWhile isNamePart).getLast?.any
      fun word => word.kind = .ident && word.spells "nth"

/-- Every parenthesis that opens is that of a series. -/
def OnlySeries (tokens : List Token) : Prop :=
  ∀ n : Fin tokens.length, tokens[n].kind = .leftParen → opensSeries (tokens.take n) = true

/-- What stands before a parenthesis of a series ends with its name. -/
theorem OnlySeries.opens {before after : List Token} {paren : Token}
    (h : OnlySeries (before ++ paren :: after)) (hk : paren.kind = .leftParen) :
    opensSeries before = true := by
  have hopens := h ⟨before.length, by simp⟩ (by simpa using hk)
  simpa using hopens

theorem IsName.isNamePart {custom : Bool} {name : List Token} (h : IsName custom name) :
    ∀ token ∈ name, isNamePart token = true := by
  intro token hmem
  rw [Grammar.isNamePart]
  rcases h.kinds token hmem with hk | hk | hk | hk <;> rw [hk]

theorem not_opensSeries {before name : List Token} {colon first : Token}
    (hcolon : colon.kind = .colon) (hname : IsName false (first :: name))
    (hfirst : first.kind = .ident → first.spells "nth" = false) :
    opensSeries (before ++ colon :: first :: name) = false := by
  have hends : ∀ token ∈ (colon :: before.reverse).head?, isNamePart token = false := by
    simp [isNamePart, hcolon]
  have hrun :=
    takeWhile_eq_of_ends (fun token hmem => hname.isNamePart token (List.mem_reverse.1 hmem)) hends
  have hreverse : (before ++ colon :: first :: name).reverse =
      (first :: name).reverse ++ colon :: before.reverse := by simp
  rw [opensSeries, hreverse, hrun.1, List.getLast?_reverse, List.head?_cons, Option.any_some]
  simpa using fun _ => hfirst

/-- A call in a text with no parentheses but those of series is one of a series. -/
theorem PseudoCall.nth_of_onlySeries {tokens : List Token} (h : PseudoCall inner s node s')
    (hp : p.Scans s.rest) (hcolon : s.rest.head?.map Token.kind = some .colon)
    (hsuffix : s.rest <:+ tokens) (honly : OnlySeries tokens) :
    ∃ first second rest, s.rest = first :: second :: rest ∧ second.kind = .ident ∧
      second.spells "nth" = true ∧
      nthSelector s = .ok node s' := by
  cases h with
  | nth hs hident hspells hread => exact ⟨_, _, _, hs, hident, hspells, hread⟩
  | @call first second rest name s₁ hs _ hnth hname hparen _ =>
    obtain ⟨before, rfl⟩ := hsuffix
    obtain ⟨paren, hmem, hk⟩ := Option.map_eq_some_iff.1 hparen
    obtain ⟨after, hs₁⟩ := List.head?_eq_some_iff.1 hmem
    have hne : ∀ token ∈ second :: rest, token.text ≠ "" :=
      fun token hmem => hp.text_ne token (by rw [hs]; exact .tail _ hmem)
    obtain ⟨front, hpass, -, hisName, -⟩ := (readName_passes hne).1 hname
    have hrest : second :: rest = front ++ paren :: after := hpass.rest.trans (by rw [hs₁])
    have heq : before ++ s.rest = (before ++ first :: front) ++ paren :: after := by
      rw [hs, hrest]
      simp
    rw [heq] at honly
    obtain ⟨first', more, rfl, -⟩ := hisName.starts
    obtain ⟨rfl, -⟩ := List.cons.inj hrest
    have hfirst : first.kind = .colon := by simpa [hs] using hcolon
    exact nomatch (not_opensSeries hfirst hisName hnth).symm.trans (honly.opens hk)

/-- The parts of a selector are read again where all calls are those of series. -/
theorem selectorReturns_series {tokens : List Token} (inner : Nested) (honly : OnlySeries tokens)
    (htokens : ∀ token ∈ tokens, token.kind ≠ .comment ∧ token.kind ≠ .leftBracket) :
    SelectorReturns inner (· <:+ tokens)
      fun node => ∀ child ∈ node.children, child.placesApart = true := by
  refine selectorReturns_of_calls (fun hsuffix hsuffix' => hsuffix'.trans hsuffix)
    (fun hsuffix => (htokens _ (hsuffix.subset (.head _))).1) (fun _ _ hsuffix hhead => ?_)
    fun {p s s' node} hp hfirm hsuffix hcolon happart hcall => ?_
  · exact absurd hhead (notAt_of_forall fun token hmem => (htokens token (hsuffix.subset hmem)).2)
  · obtain ⟨first, second, rest, hs, hident, hspells, hread⟩ :=
      hcall.nth_of_onlySeries hp hcolon hsuffix honly
    exact nthSelector_returns hp hfirm hs hident hspells happart hread

end Grammar

/-- A simple selector without comments and extensions, in which all parentheses are those of series
of places, comes back from its compact text, if no square bracket or escape stands in it and no two
elements of a series run together. -/
theorem parse_toCss_of_placesApart {text : String} {options : ParseOptions} {node : Node SourceInfo}
    (hcontext : options.context = .simpleSelector) (hpositions : options.positions = false)
    (hcomments : NoComments (TokenTable.ofText text false).tokens.toList)
    (hextensions : (TokenTable.ofText text false).extensions = [])
    (hseries : OnlySeries (TokenTable.ofText text false).tokens.toList)
    (hplain : ∀ c ∈ ['[', '\\', byteOrderMark], c ∉ text.toList)
    (happart : ∀ other ∈ node.preorder, other.placesApart = true)
    (h : parse text options = .ok node) :
    parse node.toCss options = .ok node := by
  have hscans :=
    TokenTable.firmScans_ofText hextensions (hplain byteOrderMark (by simp)) (hplain '\\' (by simp))
  have htokens : ∀ token ∈ (TokenTable.ofText text false).tokens.toList,
      token.kind ≠ .comment ∧ token.kind ≠ .leftBracket := fun token hmem =>
    ⟨hcomments token hmem, fun hk =>
      hplain '[' (by simp) (hscans.mem_text_of_char? hmem (by rw [hk]; rfl))⟩
  refine parse_toCss_of_returns hcontext hpositions hextensions (hplain _ (by simp))
    (hplain _ (by simp))
    (fun _ => selectorReturns_series _ hseries htokens) (List.suffix_refl _)
      (fun tree hbare child hchild => ?_) h
  intro other hother
  have hmem : other ∈ tree.preorder :=
    Node.mem_preorder.2
      (.inr ⟨child, hchild, Node.mem_preorder.2 (.inr ⟨other, hother, Node.self_mem_preorder _⟩)⟩)
  rw [← Node.placesApart_mapInfo fun _ => none]
  refine happart _ ?_
  rw [← hbare, Node.bare, Node.preorder_mapInfo]
  exact List.mem_map_of_mem hmem

/-- Series with signs, a number before a word, and words in any case: only the blanks go. -/
theorem parse_toCss_of_placesApart_series :
    let text := "a|b:NTH-last-child( 3N + 02 ) > :nth-of-type(- 2 Odd-even)"
    let options : ParseOptions := { context := .simpleSelector }
    let node : Node SourceInfo := .sequence none .simpleSelector
      [.leaf none .identifier "a|b",
      .sequence none (.functionalPseudo "NTH-last-child") [.sequence none .argument
        [.leaf none .nth "3N", .leaf none .operator "+", .leaf none .nth "02"]],
      .leaf none .combinator ">",
      .sequence none (.functionalPseudo "nth-of-type") [.sequence none .argument
        [.leaf none .operator "-", .leaf none .nth "2", .leaf none .nth "Odd",
          .leaf none .operator "-", .leaf none .nth "even"]]]
    parse text options = .ok node ∧
      node.toCss = "a|b:NTH-last-child(3N+02)>:nth-of-type(-2Odd-even)" ∧
      parse node.toCss options = .ok node := by
  intro text options node
  have h : parse text options = .ok node := by decide +kernel
  refine ⟨h, by decide +kernel, ?_⟩
  have hplain : (['[', '\\', byteOrderMark].all fun c => decide (c ∉ text.toList)) = true := by
    decide +kernel
  refine parse_toCss_of_placesApart rfl rfl ?_ (by decide +kernel) ?_
    (fun c hmem => of_decide_eq_true (List.all_eq_true.1 hplain c hmem)) (by decide +kernel) h
  · unfold NoComments
    decide +kernel
  · unfold OnlySeries
    decide +kernel

/-- Places that stand next to each other are read as one without the blank between them, or as
none. -/
theorem parse_toCss_ne_of_runsTogether :
    let options : ParseOptions := { context := .simpleSelector }
    let node : Node SourceInfo := .sequence none .simpleSelector
      [.sequence none (.functionalPseudo "nth-child") [.sequence none .argument
        [.leaf none .nth "2", .leaf none .nth "n"]]]
    NoComments (TokenTable.ofText ":nth-child(2 n)" false).tokens.toList ∧
      (TokenTable.ofText ":nth-child(2 n)" false).extensions = [] ∧
      OnlySeries (TokenTable.ofText ":nth-child(2 n)" false).tokens.toList ∧
      (['[', '|', '\\', byteOrderMark].all fun c => decide (c ∉ ":nth-child(2 n)".toList)) = true ∧
      parse ":nth-child(2 n)" options = .ok node ∧ node.toCss = ":nth-child(2n)" ∧
      parse node.toCss options = .ok (.sequence none .simpleSelector
        [.sequence none (.functionalPseudo "nth-child")
          [.sequence none .argument [.leaf none .nth "2n"]]]) ∧
      parse node.toCss options ≠ .ok node := by
  unfold NoComments OnlySeries
  decide +kernel

end StyleTree
