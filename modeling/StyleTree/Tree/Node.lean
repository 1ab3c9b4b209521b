/-!
# Syntax trees

The tree of a style sheet. A node is a leaf with one text, a dimension, a space, a node with a list
of children, or one of the few shapes with children of fixed roles: rule sets and declarations
(pairs), wrappers around one node, at-rules and attribute selectors.

The type of positions is a parameter: the grammar builds trees whose positions are byte offsets,
which are resolved to source positions or erased afterwards (`Node.mapInfo`).

Main definitions: `Node`, `Node.children`, `Node.mapInfo`, and equality of trees, which compares
positions too (`Node.beq_eq_iff`).
-/

namespace StyleTree

/-- Where a node starts in its source text. -/
structure SourceInfo where
  source : String
  offset : Nat
  line : UInt32
  column : UInt32
  deriving DecidableEq, Repr, Inhabited

/-- The kinds of nodes that hold one text and no children. -/
inductive LeafKind where
  | property
  | combinator
  | identifier
  | pseudoClass
  | pseudoElement
  | classSelector
  | idSelector
  | hash
  | nth
  | number
  | string
  | operator
  | raw
  | unknown
  | percentage
  | comment
  deriving DecidableEq, Repr

/-- The kinds of nodes that hold a list of children. -/
inductive SequenceKind where
  | styleSheet
  | atruleExpression
  | selector
  | simpleSelector
  | block
  | value (important : Bool)
  | functionalPseudo (name : String)
  | function (name : String)
  | negation
  | braces (opening closing : Char)
  | argument
  deriving DecidableEq, Repr

/-- The kinds of nodes that hold two children. -/
inductive PairKind where
  /-- A selector and its block. -/
  | ruleset
  /-- A property and its value. -/
  | declaration
  deriving DecidableEq, Repr

/-- The kinds of nodes that hold one child. -/
inductive WrapperKind where
  | url
  | progid
  deriving DecidableEq, Repr

/-- A node of a syntax tree whose positions are of type `ι`. -/
inductive Node (ι : Type) where
  | leaf (info : Option ι) (kind : LeafKind) (text : String)
  | dimension (info : Option ι) (value unit : String)
  | space (info : Option ι)
  | sequence (info : Option ι) (kind : SequenceKind) (children : List (Node ι))
  | pair (info : Option ι) (kind : PairKind) (first second : Node ι)
  | wrapper (info : Option ι) (kind : WrapperKind) (inner : Node ι)
  | atrule (info : Option ι) (name : String) (expression block : Option (Node ι))
  | attributeSelector (info : Option ι) (name : Node ι) (operator : Option String)
      (value : Option (Node ι)) (flags : Option String)
  deriving Inhabited

namespace LeafKind

/-- The name of the kind. -/
def name : LeafKind → String
  | .property => "Property"
  | .combinator => "Combinator"
  | .identifier => "Identifier"
  | .pseudoClass => "PseudoClass"
  | .pseudoElement => "PseudoElement"
  | .classSelector => "Class"
  | .idSelector => "Id"
  | .hash => "Hash"
  | .nth => "Nth"
  | .number => "Number"
  | .string => "String"
  | .operator => "Operator"
  | .raw => "Raw"
  | .unknown => "Unknown"
  | .percentage => "Percentage"
  | .comment => "Comment"

end LeafKind

/-- The name of the kind. -/
def SequenceKind.typeName : SequenceKind → String
  | .styleSheet => "StyleSheet"
  | .atruleExpression => "AtruleExpression"
  | .selector => "Selector"
  | .simpleSelector => "SimpleSelector"
  | .block => "Block"
  | .value _ => "Value"
  | .functionalPseudo _ => "FunctionalPseudo"
  | .function _ => "Function"
  | .negation => "Negation"
  | .braces _ _ => "Braces"
  | .argument => "Argument"

/-- The name of the kind. -/
def PairKind.name : PairKind → String
  | .ruleset => "Ruleset"
  | .declaration => "Declaration"

/-- The name of the kind. -/
def WrapperKind.name : WrapperKind → String
  | .url => "Url"
  | .progid => "Progid"

namespace Node

variable {ι κ : Type}

/-- The name of the node's type. -/
def typeName : Node ι → String
  | .leaf _ kind _ => kind.name
  | .dimension .. => "Dimension"
  | .space _ => "Space"
  | .sequence _ kind _ => kind.typeName
  | .pair _ kind _ _ => kind.name
  | .wrapper _ kind _ => kind.name
  | .atrule .. => "Atrule"
  | .attributeSelector .. => "Attribute"

/-- The position of the node. -/
def info : Node ι → Option ι
  | .leaf info _ _ | .dimension info _ _ | .space info | .sequence info _ _ | .pair info _ _ _
  | .wrapper info _ _ | .atrule info _ _ _ | .attributeSelector info _ _ _ _ => info

/-- The node with another position. -/
def withInfo (info : Option ι) : Node ι → Node ι
  | .leaf _ kind text => .leaf info kind text
  | .dimension _ value unit => .dimension info value unit
  | .space _ => .space info
  | .sequence _ kind children => .sequence info kind children
  | .pair _ kind first second => .pair info kind first second
  | .wrapper _ kind inner => .wrapper info kind inner
  | .atrule _ name expression block => .atrule info name expression block
  | .attributeSelector _ name operator value flags =>
    .attributeSelector info name operator value flags

/-- The children in source order. -/
def children : Node ι → List (Node ι)
  | .leaf .. | .dimension .. | .space _ => []
  | .sequence _ _ children => children
  | .pair _ _ first second => [first, second]
  | .wrapper _ _ inner => [inner]
  | .atrule _ _ expression block => expression.toList ++ block.toList
  | .attributeSelector _ name _ value _ => name :: value.toList

/-- Whether the node is a space. -/
def isSpace : Node ι → Bool
  | .space _ => true
  | _ => false

/-- Proof by induction on a tree, with the hypothesis for every child. -/
@[elab_as_elim, induction_eliminator]
theorem inductionOn {motive : Node ι → Prop}
    (leaf : ∀ info kind text, motive (.leaf info kind text))
    (dimension : ∀ info value unit, motive (.dimension info value unit))
    (space : ∀ info, motive (.space info))
    (sequence : ∀ info kind children, (∀ child ∈ children, motive child) →
      motive (.sequence info kind children))
    (pair : ∀ info kind first second, motive first → motive second →
      motive (.pair info kind first second))
    (wrapper : ∀ info kind inner, motive inner → motive (.wrapper info kind inner))
    (atrule : ∀ info name expression block, (∀ child ∈ expression, motive child) →
      (∀ child ∈ block, motive child) → motive (.atrule info name expression block))
    (attributeSelector : ∀ info name operator value flags, motive name →
      (∀ child ∈ value, motive child) → motive (.attributeSelector info name operator value flags))
    (node : Node ι) : motive node := by
  refine @Node.rec ι motive (fun nodes => ∀ child ∈ nodes, motive child)
    (fun node => ∀ child ∈ node, motive child) leaf dimension space sequence pair
    wrapper atrule attributeSelector ?_ ?_ ?_ ?_ node
  · simp
  · intro head tail hhead htail child hmem
    rcases List.mem_cons.mp hmem with rfl | hmem
    · exact hhead
    · exact htail child hmem
  · simp
  · intro node hnode child hmem
    obtain rfl := Option.some.inj hmem
    exact hnode

/-! ## Changing positions -/

mutual

/-- The tree with each position replaced, or erased where `f` gives nothing. -/
def mapInfo (f : ι → Option κ) : Node ι → Node κ
  | .leaf info kind text => .leaf (info.bind f) kind text
  | .dimension info value unit => .dimension (info.bind f) value unit
  | .space info => .space (info.bind f)
  | .sequence info kind children => .sequence (info.bind f) kind (mapInfoAll f children)
  | .pair info kind first second =>
    .pair (info.bind f) kind (mapInfo f first) (mapInfo f second)
  | .wrapper info kind inner => .wrapper (info.bind f) kind (mapInfo f inner)
  | .atrule info name expression block =>
    .atrule (info.bind f) name (mapInfoOption f expression) (mapInfoOption f block)
  | .attributeSelector info name operator value flags =>
    .attributeSelector (info.bind f) (mapInfo f name) operator (mapInfoOption f value) flags

/-- The nodes with each position replaced. -/
def mapInfoAll (f : ι → Option κ) : List (Node ι) → List (Node κ)
  | [] => []
  | node :: nodes => mapInfo f node :: mapInfoAll f nodes

/-- The node, if any, with each position replaced. -/
def mapInfoOption (f : ι → Option κ) : Option (Node ι) → Option (Node κ)
  | none => none
  | some node => some (mapInfo f node)

end

theorem mapInfoAll_eq_map (f : ι → Option κ) (nodes : List (Node ι)) :
    mapInfoAll f nodes = nodes.map (mapInfo f) := by
  induction nodes with
  | nil => rfl
  | cons node nodes ih => simp [mapInfoAll, ih]

theorem mapInfoOption_eq_map (f : ι → Option κ) (node : Option (Node ι)) :
    mapInfoOption f node = node.map (mapInfo f) := by
  cases node <;> rfl

/-! ## Measures -/

mutual

/-- The number of levels below the node. -/
def height : Node ι → Nat
  | .leaf .. | .dimension .. | .space _ => 0
  | .sequence _ _ children => heightAll children + 1
  | .pair _ _ first second => max (height first) (height second) + 1
  | .wrapper _ _ inner => height inner + 1
  | .atrule _ _ expression block => max (heightOption expression) (heightOption block) + 1
  | .attributeSelector _ name _ value _ => max (height name) (heightOption value) + 1

/-- The largest height of the nodes. -/
def heightAll : List (Node ι) → Nat
  | [] => 0
  | node :: nodes => max (height node) (heightAll nodes)

/-- The height of the node, if any. -/
def heightOption : Option (Node ι) → Nat
  | none => 0
  | some node => height node

end

/-! ## Equality -/

section
variable [DecidableEq ι]

mutual

/-- Whether two trees are equal, positions included. -/
def beq : Node ι → Node ι → Bool
  | .leaf i k t, .leaf i' k' t' => i = i' && k = k' && t = t'
  | .dimension i v u, .dimension i' v' u' => i = i' && v = v' && u = u'
  | .space i, .space i' => i = i'
  | .sequence i k cs, .sequence i' k' cs' => i = i' && k = k' && beqAll cs cs'
  | .pair i k a b, .pair i' k' a' b' => i = i' && k = k' && beq a a' && beq b b'
  | .wrapper i k a, .wrapper i' k' a' => i = i' && k = k' && beq a a'
  | .atrule i n e b, .atrule i' n' e' b' =>
    i = i' && n = n' && beqOption e e' && beqOption b b'
  | .attributeSelector i n o v f, .attributeSelector i' n' o' v' f' =>
    i = i' && beq n n' && o = o' && beqOption v v' && f = f'
  | _, _ => false

/-- Whether two lists of trees are equal. -/
def beqAll : List (Node ι) → List (Node ι) → Bool
  | [], [] => true
  | a :: as, b :: bs => beq a b && beqAll as bs
  | _, _ => false

/-- Whether two optional trees are equal. -/
def beqOption : Option (Node ι) → Option (Node ι) → Bool
  | none, none => true
  | some a, some b => beq a b
  | _, _ => false

end

theorem beqAll_eq_iff {as bs : List (Node ι)}
    (h : ∀ a ∈ as, ∀ b, beq a b = true ↔ a = b) : beqAll as bs = true ↔ as = bs := by
  induction as generalizing bs with
  | nil => cases bs <;> simp [beqAll]
  | cons a as ih =>
    cases bs with
    | nil => simp [beqAll]
    | cons b bs =>
      simp only [beqAll, Bool.and_eq_true, List.cons.injEq]
      rw [h a (by simp), ih fun a hmem => h a (by simp [hmem])]

theorem beqOption_eq_iff {a b : Option (Node ι)}
    (h : ∀ c ∈ a, ∀ d, beq c d = true ↔ c = d) : beqOption a b = true ↔ a = b := by
  cases a with
  | none => cases b <;> simp [beqOption]
  | some a =>
    cases b with
    | none => simp [beqOption]
    | some b => simp [beqOption, h a rfl]

/-- The test for equality decides equality. -/
theorem beq_eq_iff (a b : Node ι) : beq a b = true ↔ a = b := by
  induction a generalizing b with
  | leaf | dimension | space => cases b <;> simp [beq, and_assoc]
  | sequence info kind children ih => cases b <;> simp [beq, and_assoc, beqAll_eq_iff ih]
  | pair info kind first second ih₁ ih₂ => cases b <;> simp [beq, and_assoc, ih₁, ih₂]
  | wrapper info kind inner ih => cases b <;> simp [beq, and_assoc, ih]
  | atrule info name expression block ih₁ ih₂ =>
    cases b <;> simp [beq, and_assoc, beqOption_eq_iff ih₁, beqOption_eq_iff ih₂]
  | attributeSelector info name operator value flags ih₁ ih₂ =>
    cases b <;> simp [beq, and_assoc, ih₁, beqOption_eq_iff ih₂]

instance : DecidableEq (Node ι) := fun a b =>
  decidable_of_iff (beq a b = true) (beq_eq_iff a b)

end
end Node
end StyleTree
