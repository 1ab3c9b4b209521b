import StyleTree.Text.Bytes
import StyleTree.Tree.Node

/-!
# Compact text of a tree

A tree is written as a row of fragments. Each fragment belongs to the innermost group around it:
at-rules, simple selectors and declarations are groups that carry their position, while style
sheets, rule sets, selectors and blocks are groups without one. The compact text is the fragments'
text in a row; source maps are made from the same fragments.

Main definitions: `Node.fragments`, `Node.toCss`.
-/

namespace StyleTree

/-- A piece of written text with the position of the group that writes it. -/
structure Fragment (ι : Type) where
  text : String
  owner : Option ι
  deriving DecidableEq, Repr

namespace Node

variable {ι : Type}

/-- What is written before and after the text of a leaf. -/
def leafMarks : LeafKind → List String × List String
  | .pseudoClass => ([":"], [])
  | .pseudoElement => (["::"], [])
  | .classSelector => (["."], [])
  | .idSelector | .hash => (["#"], [])
  | .percentage => ([], ["%"])
  | .comment => (["/*"], ["*/"])
  | _ => ([], [])

/-- What is written before, between and after the children. -/
def sequenceMarks : SequenceKind → List String × List String × List String
  | .styleSheet | .atruleExpression | .simpleSelector | .argument => ([], [], [])
  | .selector => ([], [","], [])
  | .block => ([], [";"], [])
  | .value important => ([], [], if important then ["!important"] else [])
  | .functionalPseudo name => ([":", name, "("], [","], [")"])
  | .function name => ([name, "("], [","], [")"])
  | .negation => ([":not("], [","], [")"])
  | .braces opening closing => ([String.singleton opening], [], [String.singleton closing])

/-- The group that the children of a sequence are written in. -/
def sequenceOwner (info owner : Option ι) : SequenceKind → Option ι
  | .styleSheet | .selector | .block => none
  | .simpleSelector => info
  | _ => owner

/-- Whether an expression writes nothing at all, not even the blank before it. -/
def isEmptyExpression : Node ι → Bool
  | .sequence _ .atruleExpression [] => true
  | _ => false

/-- Whether the node is a quoted string. -/
def isString : Node ι → Bool
  | .leaf _ .string _ => true
  | _ => false

/-- Whether the node is the combinator that is written between blanks in a simple selector. -/
def isDeep : Node ι → Bool
  | .leaf _ .combinator name => name = "/deep/"
  | _ => false

/-- Fragments with one owner. -/
def written (owner : Option ι) (texts : List String) : List (Fragment ι) :=
  texts.map (⟨·, owner⟩)

mutual

/-- The fragments of a node inside a group with the given position. -/
def fragments (owner : Option ι) : Node ι → List (Fragment ι)
  | .leaf _ kind text =>
    written owner ((leafMarks kind).1 ++ [text] ++ (leafMarks kind).2)
  | .dimension _ value unit => written owner [value, unit]
  | .space _ => written owner [" "]
  | .sequence info kind children =>
    let owner := sequenceOwner info owner kind
    let (before, between, after) := sequenceMarks kind
    written owner before ++
      fragmentsAll owner (kind = .simpleSelector) between children ++ written owner after
  | .pair info .declaration first second =>
    fragments info first ++ written info [":"] ++ fragments info second
  | .pair _ .ruleset first second =>
    fragments none first ++ written none ["\x7b"] ++ fragments none second ++
      written none ["\x7d"]
  | .wrapper _ .url inner => written owner ["url("] ++ fragments owner inner ++ written owner [")"]
  | .wrapper _ .progid inner => fragments owner inner
  | .atrule info name expression block =>
    written info ["@", name] ++ expressionFragments info expression ++ bodyFragments info block
  | .attributeSelector _ name operator value flags =>
    written owner ["["] ++ fragments owner name ++
      (match operator with
        | none => []
        | some operator => written owner [operator] ++ testFragments owner flags value) ++
      written owner ["]"]

/-- The fragments of the children of a sequence; `deep` says that blanks stand around the
combinator `/deep/`. -/
def fragmentsAll (owner : Option ι) (deep : Bool) (between : List String) :
    List (Node ι) → List (Fragment ι)
  | [] => []
  | [node] => if deep && isDeep node then written owner [" /deep/ "] else fragments owner node
  | node :: nodes =>
    (if deep && isDeep node then written owner [" /deep/ "] else fragments owner node) ++
      written owner between ++ fragmentsAll owner deep between nodes

/-- The fragments of an at-rule's expression, with a blank before it. -/
def expressionFragments (owner : Option ι) : Option (Node ι) → List (Fragment ι)
  | none => []
  | some node =>
    if isEmptyExpression node then [] else written owner [" "] ++ fragments owner node

/-- The fragments of an at-rule's body; a rule without body ends in a semicolon. -/
def bodyFragments (owner : Option ι) : Option (Node ι) → List (Fragment ι)
  | none => written owner [";"]
  | some node => written owner ["\x7b"] ++ fragments owner node ++ written owner ["\x7d"]

/-- The fragments of an attribute's value and flags. Flags are written only after a value, with a
blank between the two unless the value is a quoted string. -/
def testFragments (owner : Option ι) (flags : Option String) : Option (Node ι) → List (Fragment ι)
  | none => []
  | some node =>
    fragments owner node ++
      (match flags with
        | none => []
        | some flags => written owner (if isString node then [flags] else [" ", flags]))

end

/-- The compact text of a tree. -/
def toCss (node : Node ι) : String :=
  Text.concat ((node.fragments none).map Fragment.text)

end Node
end StyleTree
