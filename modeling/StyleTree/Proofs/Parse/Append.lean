import StyleTree.Proofs.Grammar.Seal
import StyleTree.Proofs.Parse.Nesting
import StyleTree.Proofs.Token.Seam

/-! Style sheets can be put one after another. Where a style sheet ends with its last statement, the
scanner is back in its first state, and no rule looks past it. So another style sheet after it is
read as it is alone (`parse_append`). -/

namespace StyleTree

open StyleTree.Parser StyleTree.Grammar

/-! ## The scanner at the end of a style sheet -/

/-- The state of the scanner after some tokens. -/
def ScanState.afterTokens (state : ScanState) (tokens : List Token) : ScanState :=
  state.afterAll (tokens.map Token.core)

theorem after_inUrl {state : ScanState} {kind : TokenKind} {w : List Char}
    (hleft : kind ≠ .leftParen) (hright : kind ≠ .rightParen) :
    (state.after kind w).inUrl = state.inUrl := by
  cases kind <;> first | rfl | contradiction

/-- Where no parenthesis is open, none of them is that of a link. -/
theorem inUrl_of_nest {state : ScanState} {cores : List (TokenKind × List Char)}
    {due due' : List TokenKind} (h : nest false due (cores.map Prod.fst) = some due')
    (hstate : state.inUrl = true → due ≠ []) :
    (state.afterAll cores).inUrl = true → due' ≠ [] := by
  induction cores generalizing state due with
  | nil =>
    obtain rfl := Option.some.inj h
    exact hstate
  | cons core cores ih =>
    rw [List.map_cons, nest_cons, Option.bind_eq_some_iff] at h
    obtain ⟨due₁, hstep, h⟩ := h
    refine ih h fun (hurl : (state.after core.1 core.2).inUrl = true) => ?_
    by_cases hleft : core.1 = .leftParen
    · rw [hleft] at hstep
      obtain rfl := Option.some.inj hstep
      exact List.cons_ne_nil _ _
    · by_cases hright : core.1 = .rightParen
      · rw [hright] at hurl
        exact nomatch hurl
      · rw [after_inUrl hleft hright] at hurl
        rw [nestStep_of_not_counted due
          (by cases hk : core.1 <;> simp_all [TokenKind.isCounted])] at hstep
        obtain rfl := Option.some.inj hstep
        exact hstate hurl

theorem withoutMark_append {cs ds : List Char} (hmark : ∀ d ∈ ds.head?, d ≠ byteOrderMark) :
    withoutMark (cs ++ ds) = withoutMark cs ++ ds := by
  cases cs with
  | nil => exact withoutMark_eq_self hmark
  | cons c cs =>
    rw [List.cons_append, withoutMark, withoutMark]
    split <;> rfl

theorem map_core_tokens (text : String) : (Context.stylesheet.tokens text).map Token.core =
    coresFrom (.start false) (withoutMark text.toList) :=
  (TokenTable.scans_ofText text false).cores

/-- A comment that is not accepted without an end has one. -/
theorem isShut_of_mem {text : String}
    (hcomments : ∀ extension ∈ (TokenTable.ofText text false).extensions,
      extension.kind ≠ .unterminatedComment) :
    ∀ token ∈ Context.stylesheet.tokens text, token.kind = .comment → IsShut token.core := by
  intro token hmem hk
  rw [Context.tokens, TokenTable.toList_tokens_ofText] at hmem
  obtain ⟨⟨offset, lexeme⟩, hentry, rfl⟩ := List.mem_map.1 hmem
  obtain ⟨state, c, cs, hlexeme⟩ : ∃ state c cs, lexeme = (readLexeme state c cs).1 :=
    exists_of_mem_scanFrom hentry
  have hextension : lexeme.extension ≠ some .unterminatedComment := fun hextension =>
    hcomments ⟨.unterminatedComment, offset⟩
      (List.mem_filterMap.2 ⟨_, hentry, by simp [hextension]⟩) rfl
  rw [hlexeme] at hextension
  have hshut := isShut_of_comment (by rw [← hlexeme]; exact hk) hextension
  rw [← hlexeme] at hshut
  rwa [Token.core, hk,
    show (lexeme.token offset).text.toList = lexeme.chars from String.toList_ofList]

/-- The tokens of a style sheet before the last blanks. -/
theorem isShut_of_endsWell {text : String}
    (hcomments : ∀ extension ∈ (TokenTable.ofText text false).extensions, extension.kind ≠
      .unterminatedComment)
    (hends : EndsWell (Context.stylesheet.tokens text)) {front gap : List Token} {token : Token}
    (h : Context.stylesheet.tokens text = front ++ token :: gap)
    (hgap : ∀ other ∈ gap, isGap other = true) (hk : token.kind ≠ .whitespace) :
    IsShut token.core := by
  by_cases hcomment : token.kind = .comment
  · exact isShut_of_mem hcomments token (by simp [h]) hcomment
  · have hlast : lastSolid? (Context.stylesheet.tokens text) = some token := by
      have hnone : (gap.filter fun token => !isGap token) = [] := by simpa using hgap
      rw [h, lastSolid?, List.filter_append,
        List.filter_cons_of_pos (by simp [isGap, hk, hcomment]), hnone, List.getLast?_concat]
    have hends := hends token hlast
    rw [Token.core]
    rcases Bool.or_eq_true_iff.1 hends with hk | hk <;> rw [of_decide_eq_true hk]
    · exact .semicolon
    · exact .rightBrace

/-! ## The tokens of both style sheets -/

/-- The tokens of two texts and of the text that they make up. -/
structure SeamTokens (a b : String) where
  front : List Token
  front' : List Token
  gap : List Token
  gap₁ : List Token
  gap₂ : List Token
  rest : List Token
  rest' : List Token
  first : Context.stylesheet.tokens a = front ++ gap
  second : Context.stylesheet.tokens b = gap₁ ++ rest
  both : Context.stylesheet.tokens (a ++ b) = front' ++ (gap₂ ++ rest')
  front_core : front'.map Token.core = front.map Token.core
  rest_core : rest'.map Token.core = rest.map Token.core
  blank : ∀ token ∈ gap ++ (gap₁ ++ gap₂), token.kind = .whitespace
  length_first : gap.length ≤ gap₂.length
  length_second : gap₁.length ≤ gap₂.length

theorem seamTokens_of_seam {a b : String} (hmark : ∀ c ∈ b.toList.head?, c ≠ byteOrderMark)
    (h : Seam (.start false) (withoutMark a.toList) b.toList) : Nonempty (SeamTokens a b) := by
  have hfirst := (map_core_tokens a).trans h.first
  have hsecond := map_core_tokens b
  rw [withoutMark_eq_self hmark, h.second] at hsecond
  have hboth := map_core_tokens (a ++ b)
  rw [String.toList_append, withoutMark_append hmark, h.both] at hboth
  obtain ⟨front, gap, ha, hfront, hgap⟩ := List.map_eq_append_iff.1 hfirst
  obtain ⟨gap₁, rest, hb, hgap₁, hrest⟩ := List.map_eq_append_iff.1 hsecond
  obtain ⟨front', later, hab, hfront', hlater⟩ := List.map_eq_append_iff.1 hboth
  obtain ⟨gap₂, rest', rfl, hgap₂, hrest'⟩ := List.map_eq_append_iff.1 hlater
  have hlength : ∀ {tokens : List Token} {cores}, tokens.map Token.core = cores →
      cores.length = tokens.length :=
    fun h => by rw [← h, List.length_map]
  refine ⟨front, front', gap, gap₁, gap₂, rest, rest', ha, hb, hab, hfront'.trans hfront.symm,
    hrest'.trans hrest.symm, fun token hmem => h.blank token.core ?_, ?_, ?_⟩
  · rw [← hgap, ← hgap₁, ← hgap₂, ← List.map_append, ← List.map_append]
    exact List.mem_map_of_mem hmem
  · rw [← hlength hgap, ← hlength hgap₂]
    exact h.length_first
  · rw [← hlength hgap₁, ← hlength hgap₂]
    exact h.length_second

/-- A style sheet that is read and ends with its last statement leaves the scanner as it was at the
start. -/
theorem exists_seamTokens {a b : String} (hmark : ∀ c ∈ b.toList.head?, c ≠ byteOrderMark)
    (hcomments : ∀ extension ∈ (TokenTable.ofText a false).extensions,
      extension.kind ≠ .unterminatedComment)
    (hends : EndsWell (Context.stylesheet.tokens a))
    (hdepth : ((ScanState.start false).afterTokens (Context.stylesheet.tokens a)).depth = 0)
    (hnest : nest false [] ((Context.stylesheet.tokens a).map Token.kind) = some []) :
    Nonempty (SeamTokens a b) := by
  have hcores := map_core_tokens a
  have hurl : ((ScanState.start false).afterAll
    (coresFrom (.start false) (withoutMark a.toList))).inUrl = false := by
    rw [← hcores]
    refine Bool.eq_false_iff.2 fun hurl => ?_
    have hnone : nest false [] (((Context.stylesheet.tokens a).map Token.core).map Prod.fst) =
        some [] := by
      rwa [List.map_map]
    exact inUrl_of_nest hnone (by decide) hurl rfl
  have hbefore : ∀ front gap, Context.stylesheet.tokens a = front ++ gap →
      (∀ token ∈ gap, isGap token = true) →
      ∀ core ∈ (front.map Token.core).getLast?, core.1 = .whitespace ∨ IsShut core := by
    intro front gap h hgap core hcore
    rcases List.eq_nil_or_concat front with rfl | ⟨init, token, rfl⟩
    · simp at hcore
    · rw [List.concat_eq_append] at h hcore
      rw [List.map_append, List.map_singleton, List.getLast?_concat] at hcore
      obtain rfl := Option.some.inj hcore
      by_cases hk : token.kind = .whitespace
      · exact .inl hk
      · exact .inr (isShut_of_endsWell hcomments hends (h.trans (List.append_assoc ..)) hgap hk)
  obtain ⟨hseam⟩ : Nonempty (Seam (.start false) (withoutMark a.toList) b.toList) := by
    refine exists_seam rfl (by rw [← hcores]; exact hdepth) hurl
      (by rw [← hcores]; exact hbefore _ [] (List.append_nil _).symm nofun)
      fun cores w h core hcore => ?_
    rw [← hcores] at h
    obtain ⟨front, gap, ha, rfl, hgap⟩ := List.map_eq_append_iff.1 h
    obtain ⟨blank, rfl, hblank⟩ := List.map_eq_singleton_iff.1 hgap
    have hk : isGap blank = true := by
      simp [isGap, show blank.kind = .whitespace from congrArg Prod.fst hblank]
    rcases hbefore front [blank] ha (by simpa using hk) core hcore with hk | hshut
    · simp [hk]
    · exact hshut.ne_ident
  exact seamTokens_of_seam hmark hseam

/-! ## Parsing both style sheets -/

theorem parse_styleSheet_eq_ok {text : String} {options : ParseOptions} {node : Node SourceInfo}
    (hcontext : options.context = .stylesheet) (hpositions : options.positions = false) :
    parse text options = .ok node ↔ ∃ items s',
      rulesUpTo (Context.stylesheet.tokens text).length { rest := Context.stylesheet.tokens text } =
        .ok (items, ()) s' ∧
        node = .sequence none .styleSheet (items.map Node.bare) := by
  rw [parse_eq_ok_iff, ParseOptions.sourceInfo_eq_none hpositions, hcontext, production_stylesheet]
  constructor
  · rintro ⟨tree, s', hrun, rfl⟩
    rw [here_bind_run] at hrun
    obtain ⟨⟨items, ⟨⟩⟩, s₁, hrules, hrun⟩ := bind_eq_ok.1 hrun
    obtain ⟨rfl, rfl⟩ := EStateM.Result.ok.inj hrun
    exact ⟨items, s₁, hrules, Node.bare_sequence ..⟩
  · rintro ⟨items, s', hrules, rfl⟩
    exact ⟨_, s', (here_bind_run _).trans (bind_eq_ok.2 ⟨_, s', hrules, rfl⟩),
      Node.bare_sequence ..⟩

/-- The tokens of the first style sheet look alike where those of the second one follow them. -/
theorem SeamTokens.near {a b : String} (seam : SeamTokens a b)
    (hnest : nest false [] ((Context.stylesheet.tokens a).map Token.kind) = some []) :
    (Likeness.followed seam.gap (seam.gap₂ ++ seam.rest')).Near (Context.stylesheet.tokens a)
      (Context.stylesheet.tokens (a ++ b)) where
  faces :=
    ⟨seam.front, seam.front', seam.first, seam.both, Likeness.map_face_of_core seam.front_core⟩
  blank token hmem := seam.blank token (List.mem_append_left _ hmem)
  short :=
    seam.length_first.trans (by rw [Likeness.tail, List.length_append]; exact Nat.le_add_right _ _)
  spelled := spelled_tokens _ a
  words := nofun
  closed _ := parensClose_of_nest hnest

/-- The tokens of the second style sheet look alike on their own and after the first one. -/
theorem SeamTokens.near_rest {a b : String} (seam : SeamTokens a b) :
    (Likeness.followed [] []).Near seam.rest seam.rest' where
  faces :=
    ⟨seam.rest, seam.rest', (List.append_nil _).symm, (List.append_nil _).symm,
      Likeness.map_face_of_core seam.rest_core⟩
  blank := nofun
  short := Nat.le_refl _
  spelled := (spelled_tokens _ b).of_suffix ⟨seam.gap₁, seam.second.symm⟩
  words := nofun
  closed h := absurd rfl h

theorem SeamTokens.length_le {a b : String} (seam : SeamTokens a b) :
    (Context.stylesheet.tokens b).length ≤ (Context.stylesheet.tokens (a ++ b)).length := by
  have hrest : seam.rest'.length = seam.rest.length := by
    simpa using congrArg List.length seam.rest_core
  have := seam.length_second
  rw [seam.second, seam.both]
  simp only [List.length_append]
  omega

/-- **Style sheets can be put one after another.** The first one is read, its comments have an end,
its last token that is no gap is a semicolon or a brace that closes, and no block is left open. Then
another text after it is read if it is read alone, and its rules come after those of the first
one. -/
theorem parse_append {a b : String} {options : ParseOptions} {node : Node SourceInfo}
    (hcontext : options.context = .stylesheet) (hpositions : options.positions = false)
    (hmark : ∀ c ∈ b.toList.head?, c ≠ byteOrderMark) (ha : parse a options = .ok node)
    (hcomments : ∀ extension ∈ (TokenTable.ofText a false).extensions,
      extension.kind ≠ .unterminatedComment)
    (hends : EndsWell (Context.stylesheet.tokens a))
    (hdepth : ((ScanState.start false).afterTokens (Context.stylesheet.tokens a)).depth = 0) :
    ((∃ node', parse (a ++ b) options = .ok node') ↔ ∃ node', parse b options = .ok node') ∧
    ∀ node', parse b options = .ok node' →
      parse (a ++ b) options =
        .ok (.sequence none .styleSheet (node.children ++ node'.children)) := by
  obtain ⟨tree, _, hrun, -⟩ := parse_eq_ok_iff.1 ha
  rw [hcontext] at hrun
  have hknown : Known false (Context.stylesheet.tokens a) := known_tokens nofun
  have hnest := nest_of_production hknown hrun
  obtain ⟨items, s₁, hfirst, rfl⟩ := (parse_styleSheet_eq_ok hcontext hpositions).1 ha
  obtain ⟨seam⟩ := exists_seamTokens hmark hcomments hends hdepth hnest
  obtain ⟨hread, hrefused⟩ := rulesUpTo_append (seam.near hnest) hends hfirst seam.second
    (fun token hmem => seam.blank token (by simp [hmem]))
      (fun token hmem => seam.blank token (by simp [hmem]))
    seam.near_rest seam.length_le
  have hboth : ∀ node', parse b options = .ok node' → parse (a ++ b) options =
      .ok (.sequence none .styleSheet
        ((Node.sequence none .styleSheet (items.map Node.bare)).children ++ node'.children)) := by
    intro node' hb
    obtain ⟨later, s₂, hsecond, rfl⟩ := (parse_styleSheet_eq_ok hcontext hpositions).1 hb
    obtain ⟨all, s', hall, hitems⟩ := hread hsecond
    refine (parse_styleSheet_eq_ok hcontext hpositions).2 ⟨all, s', hall, ?_⟩
    rw [hitems]
    rfl
  refine ⟨⟨fun ⟨node', hab⟩ => ?_, fun ⟨node', hb⟩ => ⟨_, hboth node' hb⟩⟩, hboth⟩
  obtain ⟨all, s', hall, -⟩ := (parse_styleSheet_eq_ok hcontext hpositions).1 hab
  cases hsecond :
      rulesUpTo (Context.stylesheet.tokens b).length { rest := Context.stylesheet.tokens b } with
  | ok later s₂ =>
    exact ⟨_, (parse_styleSheet_eq_ok hcontext hpositions).2 ⟨later.1, s₂, hsecond, rfl⟩⟩
  | error e s₂ =>
    obtain ⟨e', t', herror⟩ := hrefused hsecond
    exact nomatch herror.symm.trans hall

/-- A rule with a comment and blanks behind it, and an at-rule with blanks before it. -/
theorem parse_append_atrule :
    let rule : Node SourceInfo := .pair none .ruleset
      (.sequence none .selector [.sequence none .simpleSelector [.leaf none .identifier "a"]])
      (.sequence none .block [.pair none .declaration (.leaf none .property "b")
        (.sequence none (.value false) [.leaf none .identifier "c"])])
    let atrule : Node SourceInfo :=
      .atrule none "d" (some (.sequence none .atruleExpression [])) none
    parse "a\x7bb:c\x7d/* e */ " {} = .ok (.sequence none .styleSheet [rule]) ∧
      parse "\n@d;" {} = .ok (.sequence none .styleSheet [atrule]) ∧
      ((∃ node, parse ("a\x7bb:c\x7d/* e */ " ++ "\n@d;") {} = .ok node) ↔
        ∃ node, parse "\n@d;" {} = .ok node) ∧
      parse ("a\x7bb:c\x7d/* e */ " ++ "\n@d;") {} =
        .ok (.sequence none .styleSheet ([rule] ++ [atrule])) := by
  intro rule atrule
  have hfirst : parse "a\x7bb:c\x7d/* e */ " {} = .ok (.sequence none .styleSheet [rule]) := by
    decide +kernel
  have hsecond : parse "\n@d;" {} = .ok (.sequence none .styleSheet [atrule]) := by decide +kernel
  obtain ⟨hiff, hboth⟩ :=
    parse_append (b := "\n@d;") rfl rfl (by simp [byteOrderMark]) hfirst (by decide +kernel)
    (by decide +kernel) (by decide +kernel)
  exact ⟨hfirst, hsecond, hiff, hboth _ hsecond⟩

end StyleTree
