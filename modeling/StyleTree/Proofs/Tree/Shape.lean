import Mathlib.Data.List.Chain
import StyleTree.Proofs.Tree.Walk

/-! The shape of the trees that the grammar makes. `Node.Fits` says of a node which children it has,
by their types and in which order; `Node.WellShaped` says that every node of a tree fits and draws
together where spaces stand and which nodes have no position. Positions do not matter to the shape
(`Node.WellShaped.mapInfo`). -/

namespace StyleTree

namespace Node

variable {ι κ : Type}

/-! ## Which children a node has -/

/-- All nodes are of the types of the given names. -/
def AllOf (names : List String) (nodes : List (Node ι)) : Prop :=
  ∀ node ∈ nodes, node.typeName ∈ names

/-- No space stands at either end. -/
structure Trimmed (nodes : List (Node ι)) : Prop where
  first : ∀ node ∈ nodes.head?, node.typeName ≠ "Space"
  last : ∀ node ∈ nodes.getLast?, node.typeName ≠ "Space"

/-- Combinators stand between parts: no two are adjacent, none is the last, and the first one is not
whitespace. -/
structure Joined (nodes : List (Node ι)) : Prop where
  apart : nodes.IsChain fun a b => ¬ (a.typeName = "Combinator" ∧ b.typeName = "Combinator")
  last : ∀ node ∈ nodes.getLast?, node.typeName ≠ "Combinator"
  first : ∀ info, nodes.head? ≠ some (leaf info .combinator " ")

/-- The rules of a style sheet. -/
def ruleTypes : List String :=
  ["Atrule", "Ruleset", "Unknown"]

/-- The parts of a simple selector, combinators apart. -/
def compoundTypes : List String :=
  ["Class", "Id", "Attribute", "PseudoClass", "PseudoElement", "FunctionalPseudo",
    "Negation", "Url", "Identifier", "Percentage"]

/-- What values, at-rule expressions, arguments and brackets are made of, spaces apart. -/
def componentTypes : List String :=
  ["String", "Number", "Percentage", "Dimension", "Identifier", "Operator", "Hash", "Function",
    "FunctionalPseudo", "Url", "Negation", "Braces", "PseudoClass", "PseudoElement"]

/-- The children of a sequence are those that the grammar gives it; `top` says that the sequence is
the whole tree. -/
def SequenceFits (top : Bool) (info : Option ι) (nodes : List (Node ι)) : SequenceKind → Prop
  | .styleSheet => AllOf (if top then "Comment" :: ruleTypes else ruleTypes) nodes
  | .atruleExpression => AllOf ("Space" :: componentTypes) nodes ∧ Trimmed nodes
  | .selector => AllOf ["SimpleSelector"] nodes ∧ ∀ node ∈ nodes, node.children ≠ []
  | .simpleSelector => AllOf ("Combinator" :: compoundTypes) nodes ∧ Joined nodes
  | .block => AllOf ["Declaration"] nodes
  | .value _ => (AllOf ["Progid"] nodes ∨ AllOf ("Space" :: componentTypes) nodes) ∧
    ∀ node ∈ nodes.getLast?, node.typeName ≠ "Space"
  | .functionalPseudo _ => AllOf ["Argument"] nodes
  | .function _ => AllOf ["Argument"] nodes ∧ ∀ node ∈ nodes, node.children ≠ []
  | .negation => AllOf ["SimpleSelector"] nodes
  | .braces opening closing => (opening, closing) ∈ [('(', ')'), ('[', ']')] ∧
    AllOf ("Space" :: componentTypes) nodes ∧ Trimmed nodes
  | .argument => info = none ∧ Trimmed nodes

/-- The children of a node are those that the grammar gives it. -/
def Fits (top : Bool) : Node ι → Prop
  | .leaf .. | .dimension .. => True
  | .space info => info = none
  | .sequence info kind nodes => SequenceFits top info nodes kind
  | .pair _ .ruleset first second => first.typeName = "Selector" ∧ second.typeName = "Block"
  | .pair _ .declaration first second => first.typeName = "Property" ∧ second.typeName = "Value"
  | .wrapper _ .url inner => inner.typeName ∈ ["String", "Raw"]
  | .wrapper _ .progid inner => inner.typeName = "Raw"
  | .atrule _ _ expression body =>
    (∃ node, expression = some node ∧ node.typeName = "AtruleExpression") ∧
      ∀ node ∈ body, node.typeName = "Block" ∨ node.typeName = "StyleSheet" ∧ node.children ≠ []
  | .attributeSelector _ name operator value _ => name.typeName = "Identifier" ∧
    (value.isSome ↔ operator.isSome) ∧ ∀ node ∈ value, node.typeName ∈ ["String", "Identifier"]

/-- The whole tree has the shape of the grammar below its root. -/
def Sound (tree : Node ι) : Prop :=
  ∀ node ∈ tree.preorder, node.Fits false

theorem sound_iff {node : Node ι} :
    node.Sound ↔ node.Fits false ∧ ∀ child ∈ node.children, child.Sound := by
  rw [Sound, preorder_eq]
  simp only [List.mem_cons, List.mem_flatMap, forall_eq_or_imp, forall_exists_index, and_imp]
  exact and_congr_right fun _ => ⟨fun h child hchild other hother => h other child hchild hother,
    fun h other child hchild hother => h child hchild other hother⟩


/-! ## Spaces -/

theorem typeName_ne_space {node : Node ι} : node.typeName ≠ "Space" ↔ node.isSpace = false := by
  cases node with
  | leaf info kind text => cases kind <;> simp [typeName, LeafKind.name, isSpace]
  | sequence info kind nodes => cases kind <;> simp [typeName, SequenceKind.typeName, isSpace]
  | pair info kind => cases kind <;> simp [typeName, PairKind.name, isSpace]
  | wrapper info kind => cases kind <;> simp [typeName, WrapperKind.name, isSpace]
  | _ => simp [typeName, isSpace]

/-- The nodes that spaces can stand in. -/
def spacedTypes : List String :=
  ["Value", "AtruleExpression", "Argument", "Braces"]

theorem AllOf.not_space {names : List String} {nodes : List (Node ι)} (h : AllOf names nodes)
    (hnames : "Space" ∉ names) : ∀ node ∈ nodes, node.typeName ≠ "Space" :=
  fun node hmem htype => hnames (htype ▸ h node hmem)

/-- Spaces stand only where parts are written in a row. -/
theorem Fits.spaced {top : Bool} {node child : Node ι} (h : node.Fits top)
    (hchild : child ∈ node.children) (hspace : child.typeName = "Space") :
    node.typeName ∈ spacedTypes := by
  have hnot : ∀ {names : List String} {nodes : List (Node ι)}, AllOf names nodes → "Space" ∉ names →
      child ∈ nodes → False := fun hall hnames hmem => hall.not_space hnames child hmem hspace
  cases node with
  | leaf | dimension | space => exact nomatch hchild
  | sequence info kind nodes =>
    cases kind with
    | value | atruleExpression | argument | braces =>
      simp [typeName, SequenceKind.typeName, spacedTypes]
    | styleSheet => cases top <;> exact (hnot h (by decide) hchild).elim
    | selector | simpleSelector | function => exact (hnot h.1 (by decide) hchild).elim
    | block | functionalPseudo | negation => exact (hnot h (by decide) hchild).elim
  | pair info kind first second =>
    cases kind <;> simp only [Fits] at h <;> simp only [children, List.mem_cons, List.not_mem_nil,
      or_false] at hchild <;> rcases hchild with rfl | rfl <;> simp [hspace] at h
  | wrapper info kind inner =>
    cases kind <;> simp only [Fits] at h <;> simp only [children, List.mem_singleton] at hchild <;>
      subst hchild <;> simp [hspace] at h
  | atrule info name expression body =>
    obtain ⟨⟨node, rfl, htype⟩, hbody⟩ := h
    rcases List.mem_cons.1 hchild with rfl | hchild
    · simp [hspace] at htype
    · have := hbody child (Option.mem_toList.1 hchild)
      simp [hspace] at this
  | attributeSelector info name operator value flags =>
    obtain ⟨hname, -, hvalue⟩ := h
    rcases List.mem_cons.1 hchild with rfl | hchild
    · simp [hspace] at hname
    · have := hvalue child (Option.mem_toList.1 hchild)
      simp [hspace] at this

theorem Fits.info_eq_none {top : Bool} {node : Node ι} (h : node.Fits top)
    (htype : node.typeName ∈ ["Space", "Argument"]) : node.info = none := by
  cases node with
  | leaf info kind text => cases kind <;> simp [typeName, LeafKind.name] at htype
  | space info => exact h
  | sequence info kind nodes =>
    cases kind with
    | argument => exact h.1
    | _ => simp [typeName, SequenceKind.typeName] at htype
  | pair info kind => cases kind <;> simp [typeName, PairKind.name] at htype
  | wrapper info kind => cases kind <;> simp [typeName, WrapperKind.name] at htype
  | _ => simp [typeName] at htype

/-! ## Whole trees -/

/-- A tree of the shape of the grammar: its root fits at the top, every other node fits below,
spaces stand only in rows of parts, and neither spaces nor arguments have a position. -/
structure WellShaped (tree : Node ι) : Prop where
  root : tree.Fits true
  below : ∀ child ∈ tree.children, child.Sound
  notSpace : tree.typeName ≠ "Space"
  spaced : ∀ node ∈ tree.preorder, ∀ child ∈ node.children, child.typeName = "Space" →
    node.typeName ∈ spacedTypes
  unplaced : ∀ node ∈ tree.preorder, node.typeName ∈ ["Space", "Argument"] → node.info = none

theorem WellShaped.of_root {tree : Node ι} (hroot : tree.Fits true)
    (hbelow : ∀ child ∈ tree.children, child.Sound) (hspace : tree.typeName ≠ "Space") :
    tree.WellShaped := by
  have hfits : ∀ node ∈ tree.preorder, ∃ top, node.Fits top := by
    intro node hmem
    rcases mem_preorder.1 hmem with rfl | ⟨child, hchild, hmem⟩
    · exact ⟨true, hroot⟩
    · exact ⟨false, hbelow child hchild node hmem⟩
  refine ⟨hroot, hbelow, hspace, fun node hmem child hchild htype => ?_, fun node hmem htype => ?_⟩
  · obtain ⟨top, h⟩ := hfits node hmem
    exact h.spaced hchild htype
  · obtain ⟨top, h⟩ := hfits node hmem
    exact h.info_eq_none htype

/-- A tree whose root is no style sheet has no more at the top than below. -/
theorem Fits.top {node : Node ι} (h : node.Fits false) : node.Fits true := by
  cases node with
  | sequence info kind nodes =>
    cases kind with
    | styleSheet => exact fun node hmem => .tail _ (h node hmem)
    | _ => exact h
  | pair info kind => cases kind <;> exact h
  | wrapper info kind => cases kind <;> exact h
  | _ => exact h

/-! ## Positions do not matter -/

@[simp] theorem typeName_mapInfo (f : ι → Option κ) (node : Node ι) :
    (node.mapInfo f).typeName = node.typeName := by
  cases node <;> rfl

section
variable {f : ι → Option κ} {nodes : List (Node ι)}

theorem AllOf.mapInfo {names : List String} (h : AllOf names nodes) :
    AllOf names (nodes.map (Node.mapInfo f)) := by
  rintro _ hmem
  obtain ⟨node, hnode, rfl⟩ := List.mem_map.1 hmem
  rw [typeName_mapInfo]
  exact h node hnode

theorem last_mapInfo {name : String} (h : ∀ node ∈ nodes.getLast?, node.typeName ≠ name) :
    ∀ node ∈ (nodes.map (Node.mapInfo f)).getLast?, node.typeName ≠ name := by
  intro _ hmem
  rw [List.getLast?_map] at hmem
  obtain ⟨node, hnode, rfl⟩ := Option.map_eq_some_iff.1 hmem
  rw [typeName_mapInfo]
  exact h node hnode

theorem Trimmed.mapInfo (h : Trimmed nodes) : Trimmed (nodes.map (Node.mapInfo f)) := by
  refine ⟨fun _ hmem => ?_, last_mapInfo h.last⟩
  rw [List.head?_map] at hmem
  obtain ⟨node, hnode, rfl⟩ := Option.map_eq_some_iff.1 hmem
  rw [typeName_mapInfo]
  exact h.first node hnode

theorem Joined.mapInfo (h : Joined nodes) : Joined (nodes.map (Node.mapInfo f)) := by
  refine ⟨?_, last_mapInfo h.last, fun info heq => ?_⟩
  · simpa only [List.isChain_map, typeName_mapInfo] using h.apart
  · rw [List.head?_map] at heq
    obtain ⟨node, hnode, hleaf⟩ := Option.map_eq_some_iff.1 heq
    cases node with
    | leaf info' kind text =>
      obtain ⟨-, rfl, rfl⟩ := Node.leaf.inj hleaf
      exact h.first info' hnode
    | _ => exact nomatch hleaf

theorem filled_mapInfo (h : ∀ node ∈ nodes, node.children ≠ []) :
    ∀ node ∈ nodes.map (Node.mapInfo f), node.children ≠ [] := by
  rintro _ hmem
  obtain ⟨node, hnode, rfl⟩ := List.mem_map.1 hmem
  simpa [children_mapInfo] using h node hnode

theorem SequenceFits.mapInfo {top : Bool} {info : Option ι} {kind : SequenceKind}
    (h : SequenceFits top info nodes kind) :
    SequenceFits top (info.bind f) (nodes.map (Node.mapInfo f)) kind := by
  cases kind with
  | styleSheet | block | functionalPseudo | negation => exact AllOf.mapInfo h
  | selector | function => exact ⟨h.1.mapInfo, filled_mapInfo h.2⟩
  | atruleExpression => exact ⟨h.1.mapInfo, h.2.mapInfo⟩
  | simpleSelector => exact ⟨h.1.mapInfo, h.2.mapInfo⟩
  | value => exact ⟨h.1.imp AllOf.mapInfo AllOf.mapInfo, last_mapInfo h.2⟩
  | braces => exact ⟨h.1, h.2.1.mapInfo, h.2.2.mapInfo⟩
  | argument => exact ⟨by rw [h.1]; rfl, h.2.mapInfo⟩

theorem Fits.mapInfo {top : Bool} {node : Node ι} (h : node.Fits top) :
    (node.mapInfo f).Fits top := by
  cases node with
  | leaf | dimension => trivial
  | space info =>
    cases h
    rfl
  | sequence info kind nodes =>
    rw [Node.mapInfo, mapInfoAll_eq_map]
    exact SequenceFits.mapInfo h
  | pair info kind => cases kind <;> simpa only [Node.mapInfo, Fits, typeName_mapInfo] using h
  | wrapper info kind => cases kind <;> simpa only [Node.mapInfo, Fits, typeName_mapInfo] using h
  | atrule info name expression body =>
    obtain ⟨⟨node, rfl, htype⟩, hbody⟩ := h
    rw [Node.mapInfo, mapInfoOption_eq_map, mapInfoOption_eq_map]
    refine ⟨⟨_, rfl, by rwa [typeName_mapInfo]⟩, fun _ hmem => ?_⟩
    obtain ⟨node, hnode, rfl⟩ := Option.map_eq_some_iff.1 hmem
    simpa [children_mapInfo] using hbody node hnode
  | attributeSelector info name operator value flags =>
    obtain ⟨hname, htest, hvalue⟩ := h
    rw [Node.mapInfo, mapInfoOption_eq_map]
    refine ⟨by rwa [typeName_mapInfo], by simpa using htest, fun _ hmem => ?_⟩
    obtain ⟨node, hnode, rfl⟩ := Option.map_eq_some_iff.1 hmem
    rw [typeName_mapInfo]
    exact hvalue node hnode

theorem Sound.mapInfo {node : Node ι} (h : node.Sound) : (node.mapInfo f).Sound := by
  intro _ hmem
  rw [preorder_mapInfo] at hmem
  obtain ⟨other, hother, rfl⟩ := List.mem_map.1 hmem
  exact (h other hother).mapInfo

/-- The shape does not depend on positions. -/
theorem WellShaped.mapInfo {tree : Node ι} (h : tree.WellShaped) : (tree.mapInfo f).WellShaped := by
  refine .of_root h.root.mapInfo (fun _ hmem => ?_) (by rw [typeName_mapInfo]; exact h.notSpace)
  rw [children_mapInfo] at hmem
  obtain ⟨child, hchild, rfl⟩ := List.mem_map.1 hmem
  exact (h.below child hchild).mapInfo

end

end Node
end StyleTree
