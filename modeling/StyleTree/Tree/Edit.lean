import StyleTree.HandleList.Basic
import StyleTree.Text.Bytes
import StyleTree.Tree.Walk

/-!
# Edits of a tree

An edit pass walks through a tree and changes nodes of a chosen type, or lists of children, up to a
number of edits. It reports what it met on its way and how many edits it made.

A list of children is edited through handles: the elements to change are chosen first, and the
handles of those not yet reached stay good while others are inserted or removed around them.

Main definitions: `Pass`, `Pass.apply`.
-/

namespace StyleTree

/-- Whether nodes are changed before or after their children. -/
inductive WalkOrder where
  | pre
  | post
  deriving DecidableEq, Repr

/-- A change of a list of children. Nodes are chosen by the name of their type. -/
inductive ListEdit (ι : Type) where
  | remove (type : String)
  | insertBefore (type : String) (node : Node ι)
  | insertAfter (type : String) (node : Node ι)
  | append (node : Node ι)
  | prepend (node : Node ι)
  | popFront
  | popBack
  | reverse
  /-- Removes the spaces next to an operator other than plus and minus. -/
  | tighten

/-- A walk through a tree. -/
inductive Pass (ι : Type) where
  | walk (order : WalkOrder)
  /-- Writes the text of nodes of one type in upper case. -/
  | upper (order : WalkOrder) (type : String) (limit : Nat)
  /-- Puts a copy of a node in the place of nodes of one type; their positions stay. -/
  | replace (order : WalkOrder) (type : String) (node : Node ι) (limit : Nat)
  | lists (edit : ListEdit ι) (limit : Nat)

/-- What a pass meets: a node of some type, or a list of some length. -/
inductive Visit where
  | node (type : String)
  | list (length : Nat)
  deriving DecidableEq, Repr

/-- The report of a pass. -/
structure PassReport where
  visited : Array Visit := #[]
  edits : Nat := 0
  deriving Repr

namespace Node

variable {ι : Type}

/-- The node with its name or value in upper case, if it has one. A dimension has its number. -/
def upper? : Node ι → Option (Node ι)
  | .leaf info kind text => some (.leaf info kind (Text.upper text))
  | .dimension info value unit => some (.dimension info (Text.upper value) unit)
  | .sequence info (.functionalPseudo name) children =>
    some (.sequence info (.functionalPseudo (Text.upper name)) children)
  | .sequence info (.function name) children =>
    some (.sequence info (.function (Text.upper name)) children)
  | .atrule info name expression block => some (.atrule info (Text.upper name) expression block)
  | _ => none

/-- Whether the node is an operator other than plus and minus. -/
def isTightOperator : Node ι → Bool
  | .leaf _ .operator text => text ≠ "+" && text ≠ "-"
  | _ => false

end Node

namespace ListEdit

variable {ι : Type}

/-- The handles of the elements of a type. -/
def chosen (list : HandleList (Node ι)) (type : String) : List Handle :=
  list.handles.filter fun handle => (list.get? handle).any fun node => node.typeName = type

/-- Whether the handle names a space next to a tight operator. -/
def isTightSpace (list : HandleList (Node ι)) (handle : Handle) : Bool :=
  let isTight (neighbour : Option Handle) : Bool :=
    (neighbour.bind list.get?).any Node.isTightOperator
  (list.get? handle).any Node.isSpace &&
    (isTight (list.prev? handle) || isTight (list.next? handle))

/-- Makes a change at each handle. Also gives the number of handles. -/
def changeEach (list : HandleList (Node ι)) (handles : List Handle)
    (change : HandleList (Node ι) → Handle → HandleList (Node ι)) : HandleList (Node ι) × Nat :=
  (handles.foldl change list, handles.length)

/-- The changed list and the number of edits, of which there may be `room`. -/
def apply (edit : ListEdit ι) (room : Nat) (list : HandleList (Node ι)) :
    HandleList (Node ι) × Nat :=
  match edit with
  | .remove type =>
    changeEach list ((chosen list type).take room) fun list handle => (list.remove handle).2
  | .insertBefore type node =>
    changeEach list ((chosen list type).take room) fun list handle =>
      (list.insertBefore handle node).2
  | .insertAfter type node =>
    changeEach list ((chosen list type).take room) fun list handle =>
      (list.insertAfter handle node).2
  | .append node => if room = 0 then (list, 0) else ((list.append node).2, 1)
  | .prepend node => if room = 0 then (list, 0) else ((list.prepend node).2, 1)
  | .popFront => if room = 0 || list.isEmpty then (list, 0) else (list.popFront.2, 1)
  | .popBack => if room = 0 || list.isEmpty then (list, 0) else (list.popBack.2, 1)
  | .reverse => (.ofList list.id list.toList.reverse, 0)
  | .tighten =>
    changeEach list (list.handles.filter (isTightSpace list)) fun list handle =>
      (list.remove handle).2

/-- The height of the node that the edit adds. -/
def addedHeight : ListEdit ι → Nat
  | .insertBefore _ node | .insertAfter _ node | .append node | .prepend node => node.height + 1
  | _ => 0

end ListEdit

namespace Pass

variable {ι : Type}

/-- Notes a node, and changes it if it is of the given type and edits are left. -/
def visitNode (type : String) (limit : Nat) (change : Node ι → Option (Node ι)) (node : Node ι) :
    StateM PassReport (Node ι) := do
  modify fun report => { report with visited := report.visited.push (.node node.typeName) }
  if node.typeName = type && (← get).edits < limit then
    match change node with
    | none => return node
    | some changed =>
      modify fun report => { report with edits := report.edits + 1 }
      return changed
  else return node

/-- Notes a list and changes it. -/
def visitList (edit : ListEdit ι) (limit : Nat) (nodes : List (Node ι)) :
    StateM PassReport (List (Node ι)) := do
  let report ← get
  let (list, count) := edit.apply (limit - report.edits) (.ofList 0 nodes)
  let visited := report.visited.push (.list nodes.length)
  set { report with visited, edits := report.edits + count }
  return list.toList

/-- Changes nodes in the given order. An edit adds at most `added` levels. -/
def editNodes (order : WalkOrder) (limit added : Nat) (visit : Node ι → StateM PassReport (Node ι))
    (tree : Node ι) : StateM PassReport (Node ι) :=
  match order with
  | .pre => tree.editPre visit (tree.height + limit * added + 1)
  | .post => tree.editPost visit

/-- The tree after the pass and the report. -/
def apply (pass : Pass ι) (tree : Node ι) : Node ι × PassReport :=
  match pass with
  | .walk order =>
    let nodes := match order with
      | .pre => tree.preorder
      | .post => tree.postorder
    (tree, { visited := (nodes.map fun node => Visit.node node.typeName).toArray })
  | .upper order type limit =>
    (editNodes order limit 0 (visitNode type limit Node.upper?) tree).run {}
  | .replace order type new limit =>
    let change (node : Node ι) : Option (Node ι) := some (new.withInfo node.info)
    (editNodes order limit (new.height + 1) (visitNode type limit change) tree).run {}
  | .lists edit limit =>
    (tree.editLists (visitList edit limit) (tree.height + limit * edit.addedHeight + 1)).run {}

end Pass
end StyleTree
