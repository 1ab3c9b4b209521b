import StyleTree.Proofs.Grammar.PairingRule
import StyleTree.Proofs.Parse.Shape

/-! Style sheets are well nested. Whatever a style sheet that is accepted is made of, its
parentheses are closed in order; and unless a link, a script or a filter block is spelled, so are
all its brackets (`nest_of_parse_styleSheet`). -/

namespace StyleTree

open StyleTree.Parser StyleTree.Grammar

/-- Where an identifier is cut, no bracket is. -/
theorem Takes.nest_eq {all : Bool} {tokens front rest : List Token} (h : Takes tokens front rest)
    (due : List TokenKind) :
    nest all due (tokens.map Token.kind) =
      (nest all due (front.map Token.kind)).bind fun due => nest all due (rest.map Token.kind) := by
  induction h generalizing due with
  | done => rfl
  | token _ ih =>
    simp only [List.map_cons, nest_cons, Option.bind_assoc, ih]
  | cut hk hunit hescape _ _ ih =>
    rw [List.map_cons, hk, nest_cons, List.map_cons, hunit, nest_cons, Option.bind_assoc]
    have := ih due
    rw [List.map_cons, hescape, nest_cons] at this
    exact this

/-- The brackets of a text that is read to its end leave none due. -/
theorem nest_of_rest_eq_nil {all : Bool} {context : Context} {size : Nat} {s s' : ParserState}
    {tree : Tree} (hs : Known all s.rest) (h : context.production size s = .ok tree s')
    (hrest : s'.rest = []) :
    nest all [] (s.rest.map Token.kind) = some [] := by
  obtain ⟨-, front, htakes, hpaired⟩ := pairs_production context size s tree s' hs trivial h
  rw [hrest] at htakes
  rw [htakes.nest_eq, hpaired.nested, Option.bind_some]
  rfl

/-- The brackets of a style sheet that is read leave none due. -/
theorem nest_of_production {all : Bool} {size : Nat} {s s' : ParserState} {tree : Tree}
    (hs : Known all s.rest) (h : Context.production .stylesheet size s = .ok tree s') :
    nest all [] (s.rest.map Token.kind) = some [] :=
  nest_of_rest_eq_nil hs h (rest_of_styleSheet h)

/-- Nothing is known of the words of a text if only parentheses are counted. -/
theorem known_tokens {all : Bool} {context : Context} {text : String}
    (hwords : all = true → ∀ token ∈ context.tokens text, token.kind = .ident →
      token.spells "url" = false ∧ token.spells "expression" = false ∧
        token.spells "progid" = false) :
    Known all (context.tokens text) where
  spelled := spelled_tokens context text
  words hall := by
    have hscans := TokenTable.scans_ofText text context.startsInBlock
    have hlacks : ∀ {word : String}, word.toList.all isLetter = true → word ≠ "" →
        word.toList.map Text.lowerChar = word.toList →
        (∀ token ∈ context.tokens text, token.kind = .ident → token.spells word = false) →
        LacksWord word (context.tokens text) := fun hword hne hlower htokens =>
      lacksWord_of_scans hscans hword hne hlower htokens
    exact ⟨hlacks (by decide) (by decide) (by decide)
      fun token hmem hk => (hwords hall token hmem hk).1,
      hlacks (by decide) (by decide) (by decide)
        fun token hmem hk => (hwords hall token hmem hk).2.1,
      hlacks (by decide) (by decide) (by decide)
        fun token hmem hk => (hwords hall token hmem hk).2.2⟩

/-- **Style sheets that are accepted are well nested.** No front of the text closes more parentheses
than it opens, and the text closes all of them. If none of its identifiers spells `url`,
`expression` or `progid`, each of its brackets closes the last one that is open, and none is left
open. -/
theorem nest_of_parse_styleSheet {text : String} {options : ParseOptions} {node : Node SourceInfo}
    (hcontext : options.context = .stylesheet) (h : parse text options = .ok node) :
    (∀ front, front <+: (options.context.tokens text).map Token.kind →
      front.count .rightParen ≤ front.count .leftParen) ∧
    ((options.context.tokens text).map Token.kind).count .rightParen =
      ((options.context.tokens text).map Token.kind).count .leftParen ∧
    ((∀ token ∈ options.context.tokens text, token.kind = .ident →
        token.spells "url" = false ∧ token.spells "expression" = false ∧
          token.spells "progid" = false) →
      nest true [] ((options.context.tokens text).map Token.kind) = some []) := by
  obtain ⟨tree, s', hrun, -⟩ := parse_eq_ok_iff.1 h
  rw [hcontext] at hrun ⊢
  have hknown : Known false (Context.stylesheet.tokens text) := known_tokens nofun
  have hround := nest_of_production hknown hrun
  refine ⟨?_, by simpa using length_of_nest hround,
    fun hwords => nest_of_production (known_tokens fun _ => hwords) hrun⟩
  · rintro front ⟨back, hsplit⟩
    rw [← hsplit, nest_append, Option.bind_eq_some_iff] at hround
    obtain ⟨due, hdue, -⟩ := hround
    have hlength := length_of_nest hdue
    simp only [List.length_nil] at hlength
    omega

/-- An attribute, a negation and a parenthesis in the argument of a function. -/
theorem nest_of_parse_ruleset :
    let node : Node SourceInfo := .sequence none .styleSheet
      [.pair none .ruleset (.sequence none .selector [.sequence none .simpleSelector
          [.leaf none .identifier "a", .attributeSelector none (.leaf none .identifier "x")
            none none none,
            .sequence none .negation [.sequence none .simpleSelector
              [.leaf none .classSelector "b"]]]])
        (.sequence none .block [.pair none .declaration (.leaf none .property "c")
          (.sequence none (.value false) [.sequence none (.function "d")
            [.sequence none .argument [.sequence none
              (.braces '(' ')') [.leaf none .number "1"]]]])])]
    let kinds := (Context.stylesheet.tokens "a[x]:not(.b)\x7bc:d((1))\x7d").map Token.kind
    parse "a[x]:not(.b)\x7bc:d((1))\x7d" {} = .ok node ∧
      (∀ front, front <+: kinds → front.count .rightParen ≤ front.count .leftParen) ∧
      kinds.count .rightParen = kinds.count .leftParen ∧ nest true [] kinds = some [] := by
  intro node kinds
  have h : parse "a[x]:not(.b)\x7bc:d((1))\x7d" {} = .ok node := by decide +kernel
  obtain ⟨hfronts, htotal, hall⟩ := nest_of_parse_styleSheet rfl h
  exact ⟨h, hfronts, htotal, hall (by decide +kernel)⟩

end StyleTree
