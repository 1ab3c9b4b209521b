import Mathlib.Data.List.Basic
import StyleTree.Proofs.Tree.Walk

/-!
# Nodes and their children

A node is its frame, which is its type with its scalar fields and with holes for its children, and
the nodes in the holes (`Node.ext_frame`, `Node.withChildren`). With the frame, the many shapes of
nodes need not be told apart: the walks that change a tree change the list of children
(`Node.mapChildrenM_eq`, `Node.editPost_eq`), and the frames of a tree in pre-order, each saying how
many children follow, are the tree (`Node.eq_of_frames`).
-/

namespace StyleTree

/-- A node with holes for its children. -/
inductive Frame (ι : Type) where
  | leaf (info : Option ι) (kind : LeafKind) (text : String)
  | dimension (info : Option ι) (value unit : String)
  | space (info : Option ι)
  | sequence (info : Option ι) (kind : SequenceKind) (arity : Nat)
  | pair (info : Option ι) (kind : PairKind)
  | wrapper (info : Option ι) (kind : WrapperKind)
  | atrule (info : Option ι) (name : String) (expression block : Bool)
  | attributeSelector (info : Option ι) (operator : Option String) (value : Bool)
      (flags : Option String)
  deriving DecidableEq

namespace Node

variable {ι : Type}

/-- The frame of a node. -/
def frame : Node ι → Frame ι
  | .leaf info kind text => .leaf info kind text
  | .dimension info value unit => .dimension info value unit
  | .space info => .space info
  | .sequence info kind children => .sequence info kind children.length
  | .pair info kind _ _ => .pair info kind
  | .wrapper info kind _ => .wrapper info kind
  | .atrule info name expression block => .atrule info name expression.isSome block.isSome
  | .attributeSelector info _ operator value flags =>
    .attributeSelector info operator value.isSome flags

/-- The node with others for its children, as many as it has. -/
def withChildren : Node ι → List (Node ι) → Node ι
  | .sequence info kind _, children => .sequence info kind children
  | .pair info kind _ _, [first, second] => .pair info kind first second
  | .wrapper info kind _, [inner] => .wrapper info kind inner
  | .atrule info name (some _) none, [expression] => .atrule info name (some expression) none
  | .atrule info name none (some _), [block] => .atrule info name none (some block)
  | .atrule info name (some _) (some _), [expression, block] =>
    .atrule info name (some expression) (some block)
  | .attributeSelector info _ operator none flags, [name] =>
    .attributeSelector info name operator none flags
  | .attributeSelector info _ operator (some _) flags, [name, value] =>
    .attributeSelector info name operator (some value) flags
  | node, _ => node

/-! ## A node from its frame and its children -/

theorem ext_frame {a b : Node ι} (hframe : a.frame = b.frame)
    (hchildren : a.children = b.children) :
    a = b := by
  cases a <;> cases b <;> simp_all [frame, children]
  case atrule.atrule info name expression block info' name' expression' block' =>
    cases expression <;> cases expression' <;> cases block <;> cases block' <;> simp_all
  case attributeSelector.attributeSelector value _ _ _ _ value' _ =>
    cases value <;> cases value' <;> simp_all

theorem length_children_of_frame {a b : Node ι} (h : a.frame = b.frame) :
    a.children.length = b.children.length := by
  cases a <;> cases b <;> simp_all [frame, children]
  case atrule.atrule info name expression block info' name' expression' block' =>
    cases expression <;> cases expression' <;> cases block <;> cases block' <;> simp_all
  case attributeSelector.attributeSelector value _ _ _ _ value' _ =>
    cases value <;> cases value' <;> simp_all

theorem frame_withChildren {node : Node ι} {children : List (Node ι)}
    (h : children.length = node.children.length) :
    (node.withChildren children).frame = node.frame := by
  cases node with
  | sequence => exact congrArg (Frame.sequence _ _) h
  | pair =>
    obtain ⟨first, second, rfl⟩ := List.length_eq_two.1 h
    rfl
  | wrapper =>
    obtain ⟨inner, rfl⟩ := List.length_eq_one_iff.1 h
    rfl
  | atrule info name expression block =>
    cases expression <;> cases block
    case none.none => rfl
    case some.some =>
      obtain ⟨first, second, rfl⟩ := List.length_eq_two.1 h
      rfl
    all_goals
      obtain ⟨inner, rfl⟩ := List.length_eq_one_iff.1 h
      rfl
  | attributeSelector info name operator value flags =>
    cases value with
    | none =>
      obtain ⟨name, rfl⟩ := List.length_eq_one_iff.1 h
      rfl
    | some value =>
      obtain ⟨name, value, rfl⟩ := List.length_eq_two.1 h
      rfl
  | _ => rfl

theorem children_withChildren {node : Node ι} {children : List (Node ι)}
    (h : children.length = node.children.length) :
    (node.withChildren children).children = children := by
  cases node with
  | leaf | dimension | space => exact (List.eq_nil_of_length_eq_zero h).symm
  | sequence => rfl
  | pair =>
    obtain ⟨first, second, rfl⟩ := List.length_eq_two.1 h
    rfl
  | wrapper =>
    obtain ⟨inner, rfl⟩ := List.length_eq_one_iff.1 h
    rfl
  | atrule info name expression block =>
    cases expression <;> cases block
    case none.none => exact (List.eq_nil_of_length_eq_zero h).symm
    case some.some =>
      obtain ⟨first, second, rfl⟩ := List.length_eq_two.1 h
      rfl
    all_goals
      obtain ⟨inner, rfl⟩ := List.length_eq_one_iff.1 h
      rfl
  | attributeSelector info name operator value flags =>
    cases value with
    | none =>
      obtain ⟨name, rfl⟩ := List.length_eq_one_iff.1 h
      rfl
    | some value =>
      obtain ⟨name, value, rfl⟩ := List.length_eq_two.1 h
      rfl

theorem withChildren_children (node : Node ι) : node.withChildren node.children = node :=
  ext_frame (frame_withChildren rfl) (children_withChildren rfl)

/-! ## Heights -/

theorem height_le_heightAll {node : Node ι} {nodes : List (Node ι)} (h : node ∈ nodes) :
    node.height ≤ heightAll nodes := by
  induction nodes with
  | nil => cases h
  | cons other nodes ih =>
    rw [heightAll]
    rcases List.mem_cons.1 h with rfl | h
    · exact Nat.le_max_left ..
    · exact Nat.le_trans (ih h) (Nat.le_max_right ..)

theorem height_lt_of_mem_children {node child : Node ι} (h : child ∈ node.children) :
    child.height < node.height := by
  cases node with
  | leaf | dimension | space => cases h
  | sequence info kind nodes =>
    rw [height]
    exact Nat.lt_succ_of_le (height_le_heightAll h)
  | pair | wrapper =>
    simp only [children, List.mem_cons, List.not_mem_nil, or_false] at h
    rw [height]
    grind
  | atrule info name expression block =>
    rw [height]
    cases expression <;> cases block <;> (simp_all [children, heightOption]; try grind)
  | attributeSelector info name operator value flags =>
    rw [height]
    cases value <;> (simp_all [children, heightOption]; try grind)

/-! ## The frames of a tree -/

theorem eq_of_frames_append {as bs : List (Node ι)} {rest rest' : List (Frame ι)}
    (hlength : as.length = bs.length)
    (h : (as.flatMap preorder).map frame ++ rest = (bs.flatMap preorder).map frame ++ rest') :
    as = bs ∧ rest = rest' := by
  -- By the number of frames: one is read, and the children join the trees that are still to come.
  induction hcount : (as.flatMap preorder).length using Nat.strongRecOn generalizing as bs with
  | ind count ih =>
    cases as with
    | nil =>
      obtain rfl := List.eq_nil_of_length_eq_zero hlength.symm
      exact ⟨rfl, h⟩
    | cons a as =>
      obtain ⟨b, bs, rfl⟩ := List.exists_cons_of_length_eq_add_one hlength.symm
      simp only [List.flatMap_cons, preorder_eq, List.cons_append, List.map_cons,
        ← List.flatMap_append, List.cons.injEq, List.length_cons] at h hcount
      obtain ⟨hframe, htail⟩ := h
      have hchildren := length_children_of_frame hframe
      have hlength' : (a.children ++ as).length = (b.children ++ bs).length := by
        simpa [hchildren] using hlength
      obtain ⟨hjoined, hrest⟩ := ih _ (by omega) hlength' htail rfl
      obtain ⟨heq, rfl⟩ := List.append_inj hjoined hchildren
      exact ⟨congrArg (· :: as) (ext_frame hframe heq), hrest⟩

/-- The frames of a tree in pre-order determine it: each tells how many trees follow as its
children. -/
theorem eq_of_frames {a b : Node ι} (h : a.preorder.map frame = b.preorder.map frame) : a = b := by
  have hrow : ([a].flatMap preorder).map frame ++ [] = ([b].flatMap preorder).map frame ++ [] := by
    simpa using h
  obtain ⟨heq, -⟩ := eq_of_frames_append (show [a].length = [b].length from rfl) hrow
  exact (List.cons.inj heq).1

/-! ## Walks by the list of children -/

section
variable {m : Type → Type} [Monad m] [LawfulMonad m]

theorem mapChildrenM_eq (f : Node ι → m (Node ι)) (node : Node ι) :
    node.mapChildrenM f = node.withChildren <$> node.children.mapM f := by
  cases node with
  | atrule info name expression block =>
    cases expression <;> cases block <;>
      simp [mapChildrenM, withChildren, children, List.mapM_cons]
  | attributeSelector info name operator value flags =>
    cases value <;> simp [mapChildrenM, withChildren, children, List.mapM_cons]
  | sequence =>
    rw [mapChildrenM, bind_pure_comp]
    rfl
  | _ => simp [mapChildrenM, withChildren, children, List.mapM_cons]

theorem editPostAll_eq (visit : Node ι → m (Node ι)) (nodes : List (Node ι)) :
    editPostAll visit nodes = nodes.mapM (editPost visit) := by
  induction nodes with
  | nil => rfl
  | cons node nodes ih => rw [editPostAll, ih, List.mapM_cons]

theorem editPost_eq (visit : Node ι → m (Node ι)) (node : Node ι) :
    node.editPost visit = node.children.mapM (editPost visit) >>= fun children =>
      visit (node.withChildren children) := by
  cases node with
  | atrule info name expression block =>
    cases expression <;> cases block <;>
      simp [editPost, editPostOption, withChildren, children, List.mapM_cons]
  | attributeSelector info name operator value flags =>
    cases value <;> simp [editPost, editPostOption, withChildren, children, List.mapM_cons]
  | sequence => simp [editPost, editPostAll_eq, withChildren, children]
  | _ => simp [editPost, withChildren, children, List.mapM_cons]

end
end Node
end StyleTree
