import StyleTree.Proofs.Grammar.Negation
import StyleTree.Proofs.Parse.Shape

/-! Negations of parsed trees. Whatever the text, the context and the options, a negation of the
tree that a text is parsed to has entries, and each of them is a simple selector. One of them has no
parts only if gaps alone stand for an entry in the text (`negations_of_parse`), which the grammar
lets pass (`exists_blank_negation`). -/

namespace StyleTree

open StyleTree.Parser StyleTree.Grammar

theorem watches_tokens (context : Context) (text : String) :
    Watches (HasBlankNegation (context.tokens text)) (context.tokens text) where
  spelled := spelled_tokens context text
  whole :=
    spellsWhole_of_scans (TokenTable.scans_ofText text context.startsInBlock)
      (by decide) (by decide)
  blank_of := id

/-- The entries of a negation do not depend on positions. -/
theorem Node.NegationFilled.mapInfo {ι κ : Type} {blank : Prop} {f : ι → Option κ} {node : Node ι}
    (h : node.NegationFilled blank) : (node.mapInfo f).NegationFilled blank := by
  cases node with
  | sequence info kind entries =>
    cases kind with
    | negation =>
      obtain ⟨hentries, hempty⟩ := h
      rw [Node.mapInfo, Node.mapInfoAll_eq_map]
      refine ⟨by simpa using hentries, fun other hmem hchildren => ?_⟩
      obtain ⟨entry, hentry, rfl⟩ := List.mem_map.1 hmem
      rw [Node.children_mapInfo, List.map_eq_nil_iff] at hchildren
      exact hempty entry hentry hchildren
    | _ => trivial
  | _ => trivial

/-- **Entries of negations.** Every negation in a parsed tree has entries, and they are simple
selectors. If one of them has no parts, the text has a negation in which gaps alone stand for an
entry. -/
theorem negations_of_parse {text : String} {options : ParseOptions} {tree : Node SourceInfo}
    (h : parse text options = .ok tree) {info : Option SourceInfo}
    {entries : List (Node SourceInfo)}
    (hnegation : .sequence info .negation entries ∈ tree.preorder) :
    entries ≠ [] ∧ ∀ entry ∈ entries, entry.typeName = "SimpleSelector" ∧
      (entry.children = [] → HasBlankNegation (options.context.tokens text)) := by
  obtain ⟨read, s', hread, rfl⟩ := parse_eq_ok_iff.1 h
  obtain ⟨-, -, -, hfilled⟩ :=
    fills_production (P := fun _ => True) _ _ _ _ _ (watches_tokens _ _) trivial hread
  obtain ⟨-, hshape⟩ := gives_production _ _ _ _ _ (spelled_tokens _ _) hread
  have hfits : Node.AllOf ["SimpleSelector"] entries := by
    rcases Node.mem_preorder.1 hnegation with heq | ⟨child, hchild, hmem⟩
    · have hroot := (hshape.mapInfo (f := options.sourceInfo (options.linesOf text))).root
      rw [← heq] at hroot
      exact hroot
    · exact hshape.mapInfo.below child hchild _ hmem
  have hnode : Node.NegationFilled (HasBlankNegation (options.context.tokens text))
      (.sequence info .negation entries) := by
    rw [Node.preorder_mapInfo] at hnegation
    obtain ⟨node, hmem, heq⟩ := List.mem_map.1 hnegation
    exact heq ▸ (hfilled node hmem).mapInfo
  exact ⟨hnode.1, fun entry hmem => ⟨List.mem_singleton.1 (hfits entry hmem), hnode.2 entry hmem⟩⟩

/-- A negation in an entry of another one. -/
theorem negations_of_parse_nested :
    let inside : Node SourceInfo := .sequence none .negation
      [.sequence none .simpleSelector [.leaf none .classSelector "b"]]
    let entries : List (Node SourceInfo) :=
      [.sequence none .simpleSelector [.leaf none .identifier "a"],
        .sequence none .simpleSelector [inside]]
    let tree : Node SourceInfo := .sequence none .simpleSelector [.sequence none .negation entries]
    parse ":not(a, :NOT(.b))" { context := .simpleSelector } = .ok tree ∧
      .sequence none .negation entries ∈ tree.preorder ∧
      entries ≠ [] ∧ ∀ entry ∈ entries, entry.typeName = "SimpleSelector" ∧
        (entry.children = [] →
          HasBlankNegation (Context.simpleSelector.tokens ":not(a, :NOT(.b))")) := by
  intro inside entries tree
  have h : parse ":not(a, :NOT(.b))" { context := .simpleSelector } = .ok tree := by decide +kernel
  have hmem : .sequence none .negation entries ∈ tree.preorder := by
    rw [Node.preorder_eq]
    exact .tail _ (List.mem_append_left _ (Node.self_mem_preorder _))
  exact ⟨h, hmem, negations_of_parse h hmem⟩

/-- A negation with nothing but a space in its parentheses is read. -/
theorem exists_blank_negation :
    let blank : Node SourceInfo := .sequence none .simpleSelector []
    let tree : Node SourceInfo := .sequence none .simpleSelector [.sequence none .negation [blank]]
    parse ":not( )" { context := .simpleSelector } = .ok tree ∧
      .sequence none .negation [blank] ∈ tree.preorder ∧
      ¬ ∀ entry ∈ [blank], entry.children ≠ [] := by
  intro blank tree
  refine ⟨by decide +kernel, ?_, fun h => h blank (.head _) rfl⟩
  rw [Node.preorder_eq]
  exact .tail _ (List.mem_append_left _ (Node.self_mem_preorder _))

end StyleTree
