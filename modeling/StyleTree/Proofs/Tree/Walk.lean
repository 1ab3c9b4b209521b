import Mathlib.Data.List.Basic
import StyleTree.Tree.Walk

/-! Walks and positions. The pre-order of a tree is the node followed by the pre-orders of its
children (`Node.preorder_eq`), whatever the shape of the node, its post-order the same with the node
last, and proofs go by one induction over the children (`Node.childrenInduction`). Replacing
positions commutes with the pre-order (`Node.preorder_mapInfo`). -/

namespace StyleTree.Node

variable {ι κ μ : Type}

/-! ## Walks by children -/

theorem preorderAll_eq_flatMap (nodes : List (Node ι)) :
    preorderAll nodes = nodes.flatMap preorder := by
  induction nodes with
  | nil => rfl
  | cons node nodes ih => simp [preorderAll, ih]

theorem preorderOption_eq_flatMap (node : Option (Node ι)) :
    preorderOption node = node.toList.flatMap preorder := by
  cases node <;> simp [preorderOption]

theorem preorder_eq (node : Node ι) : node.preorder = node :: node.children.flatMap preorder := by
  cases node <;> simp [preorder, children, preorderAll_eq_flatMap, preorderOption_eq_flatMap]

theorem postorderAll_eq_flatMap (nodes : List (Node ι)) :
    postorderAll nodes = nodes.flatMap postorder := by
  induction nodes with
  | nil => rfl
  | cons node nodes ih => simp [postorderAll, ih]

theorem postorderOption_eq_flatMap (node : Option (Node ι)) :
    postorderOption node = node.toList.flatMap postorder := by
  cases node <;> simp [postorderOption]

theorem postorder_eq (node : Node ι) :
    node.postorder = node.children.flatMap postorder ++ [node] := by
  cases node <;> simp [postorder, children, postorderAll_eq_flatMap, postorderOption_eq_flatMap]

theorem self_mem_preorder (node : Node ι) : node ∈ node.preorder := by
  rw [preorder_eq]
  exact .head _

theorem mem_preorder {node other : Node ι} :
    other ∈ node.preorder ↔ other = node ∨ ∃ child ∈ node.children, other ∈ child.preorder := by
  rw [preorder_eq, List.mem_cons, List.mem_flatMap]

/-! ## Induction over the children -/

/-- Proof by induction on a tree, whatever the shape of its nodes. -/
theorem childrenInduction {motive : Node ι → Prop}
    (step : ∀ node : Node ι, (∀ child ∈ node.children, motive child) → motive node)
    (node : Node ι) : motive node := by
  induction node with
  | leaf | dimension | space => exact step _ (by simp [children])
  | sequence info kind nodes ih => exact step _ ih
  | pair info kind first second ih₁ ih₂ => exact step _ (by simp [children, ih₁, ih₂])
  | wrapper info kind inner ih => exact step _ (by simp [children, ih])
  | atrule info name expression block ih₁ ih₂ =>
    refine step _ fun child hchild => ?_
    rcases List.mem_append.1 hchild with hchild | hchild
    · exact ih₁ child (Option.mem_toList.1 hchild)
    · exact ih₂ child (Option.mem_toList.1 hchild)
  | attributeSelector info name operator value flags ih₁ ih₂ =>
    refine step _ fun child hchild => ?_
    rcases List.mem_cons.1 hchild with rfl | hchild
    · exact ih₁
    · exact ih₂ child (Option.mem_toList.1 hchild)

/-! ## Replacing positions -/

@[simp] theorem info_mapInfo (f : ι → Option κ) (node : Node ι) :
    (node.mapInfo f).info = node.info.bind f := by
  cases node <;> rfl

theorem children_mapInfo (f : ι → Option κ) (node : Node ι) :
    (node.mapInfo f).children = node.children.map (mapInfo f) := by
  cases node with
  | sequence => exact mapInfoAll_eq_map _ _
  | atrule info name expression block => cases expression <;> cases block <;> rfl
  | attributeSelector info name operator value flags => cases value <;> rfl
  | _ => rfl

theorem preorder_mapInfo (f : ι → Option κ) (node : Node ι) :
    (node.mapInfo f).preorder = node.preorder.map (mapInfo f) := by
  induction node using childrenInduction with
  | step node ih =>
    rw [preorder_eq, preorder_eq node, children_mapInfo, List.map_cons, List.map_flatMap,
      List.flatMap_map]
    exact congrArg _ (List.flatMap_congr ih)

/-- Replacing positions twice is replacing them once. -/
theorem mapInfo_mapInfo (f : ι → Option κ) (g : κ → Option μ) (node : Node ι) :
    (node.mapInfo f).mapInfo g = node.mapInfo fun info => (f info).bind g := by
  induction node with
  | leaf info | dimension info | space info => cases info <;> rfl
  | sequence info kind children ih =>
    simp only [mapInfo, mapInfoAll_eq_map, List.map_map, Option.bind_assoc]
    exact congrArg _ (List.map_congr_left ih)
  | pair info kind first second ih₁ ih₂ => simp only [mapInfo, ih₁, ih₂, Option.bind_assoc]
  | wrapper info kind inner ih => simp only [mapInfo, ih, Option.bind_assoc]
  | atrule info name expression block ih₁ ih₂ =>
    have hexpression := Option.map_congr ih₁
    have hblock := Option.map_congr ih₂
    simp only [mapInfo, mapInfoOption_eq_map, Option.map_map, Option.bind_assoc, Function.comp_def,
      hexpression, hblock]
  | attributeSelector info name operator value flags ih₁ ih₂ =>
    have hvalue := Option.map_congr ih₂
    simp only [mapInfo, mapInfoOption_eq_map, Option.map_map, Option.bind_assoc, Function.comp_def,
      ih₁, hvalue]

end StyleTree.Node
