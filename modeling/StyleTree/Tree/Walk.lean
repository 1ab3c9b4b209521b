import StyleTree.Tree.Node

/-!
# Walking through trees

Trees are walked depth first, children in source order. A walk can look at every node, change every
node before or after its children, or change every list of children before going into it.

A walk that changes a node first and then goes into the children it has now may go deeper than the
tree was; such walks take a bound on the depth.

Main definitions: `Node.preorder`, `Node.postorder`, `Node.editPre`, `Node.editPost`,
`Node.editLists`.
-/

namespace StyleTree.Node

variable {ι : Type}

mutual

/-- The nodes of a tree, each before its children. -/
def preorder : Node ι → List (Node ι)
  | node@(.leaf ..) | node@(.dimension ..) | node@(.space _) => [node]
  | node@(.sequence _ _ children) => node :: preorderAll children
  | node@(.pair _ _ first second) => node :: (preorder first ++ preorder second)
  | node@(.wrapper _ _ inner) => node :: preorder inner
  | node@(.atrule _ _ expression block) =>
    node :: (preorderOption expression ++ preorderOption block)
  | node@(.attributeSelector _ name _ value _) => node :: (preorder name ++ preorderOption value)

/-- The nodes of trees in a row, each before its children. -/
def preorderAll : List (Node ι) → List (Node ι)
  | [] => []
  | node :: nodes => preorder node ++ preorderAll nodes

/-- The nodes of a tree, if any, each before its children. -/
def preorderOption : Option (Node ι) → List (Node ι)
  | none => []
  | some node => preorder node

end

mutual

/-- The nodes of a tree, each after its children. -/
def postorder : Node ι → List (Node ι)
  | node@(.leaf ..) | node@(.dimension ..) | node@(.space _) => [node]
  | node@(.sequence _ _ children) => postorderAll children ++ [node]
  | node@(.pair _ _ first second) => postorder first ++ postorder second ++ [node]
  | node@(.wrapper _ _ inner) => postorder inner ++ [node]
  | node@(.atrule _ _ expression block) =>
    postorderOption expression ++ postorderOption block ++ [node]
  | node@(.attributeSelector _ name _ value _) => postorder name ++ postorderOption value ++ [node]

/-- The nodes of trees in a row, each after its children. -/
def postorderAll : List (Node ι) → List (Node ι)
  | [] => []
  | node :: nodes => postorder node ++ postorderAll nodes

/-- The nodes of a tree, if any, each after its children. -/
def postorderOption : Option (Node ι) → List (Node ι)
  | none => []
  | some node => postorder node

end

section
variable {m : Type → Type} [Monad m]

/-- Changes the children of a node in order. -/
def mapChildrenM (f : Node ι → m (Node ι)) : Node ι → m (Node ι)
  | node@(.leaf ..) | node@(.dimension ..) | node@(.space _) => pure node
  | .sequence info kind children => return .sequence info kind (← children.mapM f)
  | .pair info kind first second => do
    let first ← f first
    let second ← f second
    return .pair info kind first second
  | .wrapper info kind inner => return .wrapper info kind (← f inner)
  | .atrule info name expression block => do
    let expression ← expression.mapM f
    let block ← block.mapM f
    return .atrule info name expression block
  | .attributeSelector info name operator value flags => do
    let name ← f name
    let value ← value.mapM f
    return .attributeSelector info name operator value flags

/-- Changes every node, each before its children. The children are those of the changed node. Nodes
`depth` or more levels down are left alone. -/
def editPre (visit : Node ι → m (Node ι)) : Nat → Node ι → m (Node ι)
  | 0, node => pure node
  | depth + 1, node => do
    let node ← visit node
    node.mapChildrenM (editPre visit depth)

mutual

/-- Changes every node, each after its children. -/
def editPost (visit : Node ι → m (Node ι)) : Node ι → m (Node ι)
  | node@(.leaf ..) | node@(.dimension ..) | node@(.space _) => visit node
  | .sequence info kind children => do
    let children ← editPostAll visit children
    visit (.sequence info kind children)
  | .pair info kind first second => do
    let first ← editPost visit first
    let second ← editPost visit second
    visit (.pair info kind first second)
  | .wrapper info kind inner => do
    let inner ← editPost visit inner
    visit (.wrapper info kind inner)
  | .atrule info name expression block => do
    let expression ← editPostOption visit expression
    let block ← editPostOption visit block
    visit (.atrule info name expression block)
  | .attributeSelector info name operator value flags => do
    let name ← editPost visit name
    let value ← editPostOption visit value
    visit (.attributeSelector info name operator value flags)

/-- Changes every node of trees in a row, each after its children. -/
def editPostAll (visit : Node ι → m (Node ι)) : List (Node ι) → m (List (Node ι))
  | [] => pure []
  | node :: nodes => do
    let node ← editPost visit node
    let nodes ← editPostAll visit nodes
    return node :: nodes

/-- Changes every node of a tree, if any, each after its children. -/
def editPostOption (visit : Node ι → m (Node ι)) : Option (Node ι) → m (Option (Node ι))
  | none => pure none
  | some node => do
    let node ← editPost visit node
    return some node

end

/-- Changes every list of children before going into the nodes left in it. Lists `depth` or more
levels down are left alone. -/
def editLists (visit : List (Node ι) → m (List (Node ι))) : Nat → Node ι → m (Node ι)
  | 0, node => pure node
  | depth + 1, .sequence info kind children => do
    let children ← visit children
    let children ← children.mapM (editLists visit depth)
    return .sequence info kind children
  | depth + 1, node => node.mapChildrenM (editLists visit depth)

end
end StyleTree.Node
