import StyleTree.Proofs.Grammar.RuleShape
import StyleTree.Proofs.Parse.Reading

/-! The shape of parsed trees. Whatever the text, the context and the options, the tree that a text
is parsed to has the shape of the grammar (`wellShaped_of_parse`). -/

namespace StyleTree

open StyleTree.Parser StyleTree.Grammar

theorem spelled_tokens (context : Context) (text : String) : Spelled (context.tokens text) :=
  (TokenTable.scans_ofText text context.startsInBlock).spelled

/-- **Every parsed tree has the shape of the grammar**, and no positions unless they are asked
for. -/
theorem wellShaped_of_parse {text : String} {options : ParseOptions} {node : Node SourceInfo}
    (h : parse text options = .ok node) : node.WellShaped ∧
      (options.positions = false → ∀ other ∈ node.preorder, other.info = none) := by
  obtain ⟨tree, s', hread, rfl⟩ := parse_eq_ok_iff.1 h
  obtain ⟨-, hshape⟩ := gives_production _ _ _ _ _ (spelled_tokens _ _) hread
  refine ⟨hshape.mapInfo, fun hpositions other hmem => ?_⟩
  rw [ParseOptions.sourceInfo_eq_none hpositions, Node.preorder_mapInfo] at hmem
  obtain ⟨node, -, rfl⟩ := List.mem_map.1 hmem
  rw [Node.info_mapInfo, Option.bind_fun_none]

/-- A kept comment, an at-rule with rules, combinators, an attribute with flags, and spaces. -/
theorem wellShaped_of_parse_sheet :
    let node : Node SourceInfo := .sequence none .styleSheet
      [.leaf none .comment "!k",
      .atrule none "m" (some (.sequence none .atruleExpression
          [.leaf none .identifier "a", .space none, .leaf none .identifier "b"]))
        (some (.sequence none .styleSheet
          [.pair none .ruleset (.sequence none .selector [.sequence none .simpleSelector
              [.leaf none .combinator "+", .leaf none .identifier "c", .leaf none .combinator " ",
                .attributeSelector none (.leaf none .identifier "d") (some "=")
                  (some (.leaf none .string "'x'")) (some "i")]])
            (.sequence none .block [.pair none .declaration (.leaf none .property "e")
              (.sequence none (.value true) [.sequence none (.function "f")
                [.sequence none .argument [.leaf none .number "1", .space none,
                  .leaf none .number "2"]]])])]))]
    parse "/*!k*/@m a b \x7b + c [d = 'x'i]\x7be: f( 1 2 ) !important\x7d\x7d" {} = .ok node ∧
      node.WellShaped ∧ ∀ other ∈ node.preorder, other.info = none := by
  intro node
  have h : parse "/*!k*/@m a b \x7b + c [d = 'x'i]\x7be: f( 1 2 ) !important\x7d\x7d" {} =
      .ok node := by decide +kernel
  exact ⟨h, (wellShaped_of_parse h).1, (wellShaped_of_parse h).2 rfl⟩

end StyleTree
