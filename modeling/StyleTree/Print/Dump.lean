import StyleTree.Text.Quoted
import StyleTree.Tree.Node

/-!
# Outline of a tree

The outline has one line per node, in the order of the tree, each indented by two blanks per level.
A line holds the node's type, its texts in quotes, and its line and column if it has a position.

Main definitions: `Node.label`, `Node.outline`.
-/

namespace StyleTree.Node

/-- The texts of a node on its line of the outline. -/
def fields {ι : Type} : Node ι → List String
  | .leaf _ _ text => [Text.quote text]
  | .dimension _ value unit => [Text.quote value, Text.quote unit]
  | .sequence _ (.value true) _ => ["!important"]
  | .sequence _ (.functionalPseudo name) _ | .sequence _ (.function name) _ => [Text.quote name]
  | .sequence _ (.braces opening closing) _ => [Text.quoteChar opening, Text.quoteChar closing]
  | .atrule _ name _ _ => [Text.quote name]
  | .attributeSelector _ _ operator _ flags =>
    operator.toList.map Text.quote ++ flags.toList.map fun flags => "flags=" ++ Text.quote flags
  | _ => []

/-- The line and column of a position. -/
def place (info : SourceInfo) : String :=
  "@" ++ toString info.line ++ ":" ++ toString info.column

/-- The words of a node's line in the outline. -/
def label (node : Node SourceInfo) : List String :=
  [node.typeName] ++ node.fields ++ node.info.toList.map place

/-- A line of the outline at the given level. -/
def outlineLine (level : Nat) (words : List String) : String :=
  String.ofList (List.replicate (2 * level) ' ') ++ " ".intercalate words ++ "\n"

mutual

/-- The lines of the outline of a node at the given level. -/
def outlineAt (level : Nat) : Node SourceInfo → List String
  | node@(.leaf ..) | node@(.dimension ..) | node@(.space _) => [outlineLine level node.label]
  | node@(.sequence _ _ children) =>
    outlineLine level node.label :: outlineAll (level + 1) children
  | node@(.pair _ _ first second) =>
    outlineLine level node.label :: (outlineAt (level + 1) first ++ outlineAt (level + 1) second)
  | node@(.wrapper _ _ inner) => outlineLine level node.label :: outlineAt (level + 1) inner
  | node@(.atrule _ _ expression block) =>
    outlineLine level node.label ::
      (outlineOption (level + 1) expression ++ outlineOption (level + 1) block)
  | node@(.attributeSelector _ name _ value _) =>
    outlineLine level node.label ::
      (outlineAt (level + 1) name ++ outlineOption (level + 1) value)

/-- The lines of the outlines of nodes at the given level. -/
def outlineAll (level : Nat) : List (Node SourceInfo) → List String
  | [] => []
  | node :: nodes => outlineAt level node ++ outlineAll level nodes

/-- The lines of the outline of a node, if any. -/
def outlineOption (level : Nat) : Option (Node SourceInfo) → List String
  | none => []
  | some node => outlineAt level node

end

/-- The outline of a tree. -/
def outline (node : Node SourceInfo) : String :=
  String.join (outlineAt 0 node)

end StyleTree.Node
