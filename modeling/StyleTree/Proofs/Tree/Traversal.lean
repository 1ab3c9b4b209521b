import StyleTree.Proofs.HandleList.Visits
import StyleTree.Proofs.Tree.Frame

/-!
# Agreement of the walks

The walks through a tree meet the same nodes (`Node.walks_agree`). A node is named by its path, the
indices of children on the way down from the root. The walk in pre-order meets the paths in their
lexicographic order, the walk in post-order meets each path after those that go on from it, and
neither leaves out or repeats one (`Enumerates`).

A visitor may change the node it is given but keeps its children, as one does that edits scalar
fields (`Visitor`). Both editing walks hand the nodes over in the orders of the walks that only
look, and what the visitor makes of each is a node of the result (`Visitor.serves_editPre`,
`Visitor.serves_editPost`). A visitor may go by what it met before and by the children it finds, and
then the order matters. If it goes by the scalar fields alone, both walks leave the same tree.
-/

namespace StyleTree

variable {ι : Type}

namespace Node

/-- The node at the end of a path. -/
def descendant? (node : Node ι) : List Nat → Option (Node ι)
  | [] => some node
  | i :: path => node.children[i]?.bind fun child => child.descendant? path

/-- The node at the end of a path that starts at one of `nodes`, of which the first has index
`k`. -/
def descendantFrom? (k : Nat) (nodes : List (Node ι)) : List Nat → Option (Node ι)
  | [] => none
  | i :: path => if i < k then none else nodes[i - k]?.bind fun node => node.descendant? path

end Node

/-- The order of paths in a walk that leaves a node after its children. -/
inductive LeftBefore : List Nat → List Nat → Prop
  | inside (i : Nat) (path : List Nat) : LeftBefore (i :: path) []
  | earlier {i j : Nat} (path path' : List Nat) (h : i < j) : LeftBefore (i :: path) (j :: path')
  | cons (i : Nat) {path path' : List Nat} (h : LeftBefore path path') :
    LeftBefore (i :: path) (i :: path')

/-- The nodes are those that `read` finds, path by path, each path once and in the given order. -/
def Enumerates (before : List Nat → List Nat → Prop) (read : List Nat → Option (Node ι))
    (nodes : List (Node ι)) : Prop :=
  ∃ paths : List (List Nat), paths.Pairwise before ∧ (∀ path, path ∈ paths ↔ (read path).isSome) ∧
    paths.map read = nodes.map some

namespace Node

theorem descendantFrom?_self (node : Node ι) (nodes : List (Node ι)) (k : Nat) (path : List Nat) :
    descendantFrom? k (node :: nodes) (k :: path) = node.descendant? path := by
  simp [descendantFrom?]

theorem descendantFrom?_later {nodes : List (Node ι)} {k i : Nat} (h : k < i) (node : Node ι)
    (path : List Nat) :
    descendantFrom? k (node :: nodes) (i :: path) = descendantFrom? (k + 1) nodes (i :: path) := by
  obtain ⟨j, rfl⟩ := Nat.exists_eq_add_of_lt h
  have hindex : k + j + 1 - k = j + 1 := by omega
  have hindex' : k + j + 1 - (k + 1) = j := by omega
  simp only [descendantFrom?, hindex, hindex', List.getElem?_cons_succ]
  rw [if_neg (by omega), if_neg (by omega)]

theorem descendantFrom?_early {i k : Nat} (h : i < k) (nodes : List (Node ι)) (path : List Nat) :
    descendantFrom? k nodes (i :: path) = none := by
  simp [descendantFrom?, h]

/-- The walks through trees in a row, one after the other, are the walk through the row. -/
theorem enumerates_flatMap {before : List Nat → List Nat → Prop} {walk : Node ι → List (Node ι)}
    (earlier : ∀ {i j} (path path'), i < j → before (i :: path) (j :: path'))
    (cons : ∀ i {path path'}, before path path' → before (i :: path) (i :: path'))
    {nodes : List (Node ι)} (h : ∀ node ∈ nodes, Enumerates before node.descendant? (walk node))
    (k : Nat) : Enumerates before (descendantFrom? k nodes) (nodes.flatMap walk) := by
  induction nodes generalizing k with
  | nil => exact ⟨[], .nil, fun path => by cases path <;> simp [descendantFrom?], rfl⟩
  | cons node nodes ih =>
    obtain ⟨hnode, hnodes⟩ := List.forall_mem_cons.1 h
    obtain ⟨paths, hpairs, hmem, hread⟩ := hnode
    obtain ⟨others, hpairs', hmem', hread'⟩ := ih hnodes (k + 1)
    have hlater : ∀ path ∈ others, ∃ i rest, path = i :: rest ∧ k < i := by
      intro path hpath
      have hsome := (hmem' path).1 hpath
      cases path with
      | nil => simp [descendantFrom?] at hsome
      | cons i rest =>
        refine ⟨i, rest, rfl, Nat.lt_of_not_le fun hle => ?_⟩
        simp [descendantFrom?_early (Nat.lt_succ_of_le hle)] at hsome
    have hself : ∀ path, descendantFrom? k (node :: nodes) (k :: path) = node.descendant? path :=
      descendantFrom?_self node nodes k
    refine ⟨paths.map (k :: ·) ++ others, ?_, fun path => ?_, ?_⟩
    · refine List.pairwise_append.2 ⟨hpairs.map _ fun _ _ => cons k, hpairs', ?_⟩
      intro path hpath path' hpath'
      obtain ⟨front, -, rfl⟩ := List.mem_map.1 hpath
      obtain ⟨i, rest, rfl, hlt⟩ := hlater path' hpath'
      exact earlier front rest hlt
    · rw [List.mem_append, hmem']
      cases path with
      | nil => simp [descendantFrom?]
      | cons i path =>
        rcases Nat.lt_trichotomy i k with hlt | rfl | hgt
        · simp [descendantFrom?, hlt, Nat.lt_succ_of_lt hlt, Nat.ne_of_gt hlt]
        · simp [hself, descendantFrom?_early (Nat.lt_succ_self i), hmem]
        · simp [descendantFrom?_later hgt, Nat.ne_of_lt hgt]
    · rw [List.map_append, List.map_map, List.flatMap_cons, List.map_append, ← hread, ← hread']
      refine congrArg₂ (· ++ ·) (List.map_congr_left fun path _ => hself path) ?_
      refine List.map_congr_left fun path hpath => ?_
      obtain ⟨i, rest, rfl, hlt⟩ := hlater path hpath
      exact descendantFrom?_later hlt node rest

/-- The walks through the children of a node, one after the other, meet every path but the empty
one. -/
theorem exists_paths_below {before : List Nat → List Nat → Prop} (walk : Node ι → List (Node ι))
    (earlier : ∀ {i j} (path path'), i < j → before (i :: path) (j :: path'))
    (cons : ∀ i {path path'}, before path path' → before (i :: path) (i :: path')) {node : Node ι}
    (h : ∀ child ∈ node.children, Enumerates before child.descendant? (walk child)) :
    ∃ paths : List (List Nat), paths.Pairwise before ∧
      (∀ path, path ∈ paths ↔ path ≠ [] ∧ (node.descendant? path).isSome) ∧
      paths.map node.descendant? = (node.children.flatMap walk).map some := by
  obtain ⟨paths, hpairs, hmem, hread⟩ := enumerates_flatMap earlier cons h 0
  have hbelow : ∀ i path, descendantFrom? 0 node.children (i :: path) = node.descendant?
      (i :: path) := by
    simp [descendant?, descendantFrom?]
  refine ⟨paths, hpairs, fun path => ?_, ?_⟩
  · rw [hmem]
    cases path with
    | nil => simp [descendantFrom?]
    | cons i path => simp [hbelow]
  · rw [← hread]
    refine List.map_congr_left fun path hpath => ?_
    cases path with
    | nil => exact absurd ((hmem []).1 hpath) (by simp [descendantFrom?])
    | cons i path => exact (hbelow i path).symm

/-- The walk in pre-order meets every path once, in lexicographic order. -/
theorem enumerates_preorder (tree : Node ι) :
    Enumerates (· < ·) tree.descendant? tree.preorder := by
  induction tree using childrenInduction with
  | step node ih =>
    obtain ⟨paths, hpairs, hmem, hread⟩ :=
      exists_paths_below preorder (fun _ _ h => .rel h) (fun _ => .cons) ih
    refine ⟨[] :: paths, List.pairwise_cons.2 ⟨fun path hpath => ?_, hpairs⟩, fun path => ?_, ?_⟩
    · obtain ⟨i, rest, rfl⟩ := List.exists_cons_of_ne_nil ((hmem path).1 hpath).1
      exact .nil
    · rw [List.mem_cons, hmem]
      cases path <;> simp [descendant?]
    · rw [preorder_eq, List.map_cons, List.map_cons, hread]
      rfl

/-- The walk in post-order meets every path once, each after the paths that go on from it. -/
theorem enumerates_postorder (tree : Node ι) :
    Enumerates LeftBefore tree.descendant? tree.postorder := by
  induction tree using childrenInduction with
  | step node ih =>
    obtain ⟨paths, hpairs, hmem, hread⟩ := exists_paths_below postorder .earlier .cons ih
    refine ⟨paths ++ [[]], List.pairwise_append.2 ⟨hpairs, List.pairwise_singleton .., ?_⟩,
      fun path => ?_, ?_⟩
    · intro path hpath last hlast
      obtain ⟨i, rest, rfl⟩ := List.exists_cons_of_ne_nil ((hmem path).1 hpath).1
      obtain rfl := List.mem_singleton.1 hlast
      exact .inside i rest
    · rw [List.mem_append, hmem]
      cases path <;> simp [descendant?]
    · rw [postorder_eq, List.map_append, List.map_append, hread]
      rfl

end Node

/-! ## Visitors -/

/-- A visitor with a state. It may change the node it is given, but not the children of it. -/
structure Visitor (σ ι : Type) where
  visit : Node ι → StateM σ (Node ι)
  keeps : ∀ node state, ((visit node).run state).1.children = node.children

namespace Visitor

variable {σ α β : Type}

/-- The walk `edit` hands nodes to the visitor one after the other: up to `given?` they are those of
`walk` in the tree, and what the visitor made of them is, up to `left?`, those of `walk` in the
result. -/
def Serves (visitor : Visitor σ ι) (edit : Node ι → StateM σ (Node ι))
    (walk : Node ι → List (Node ι)) (asGiven : Node ι → α) (asLeft : Node ι → β) (tree : Node ι)
    (state : σ) : Prop :=
  ∃ (given seen : List (Node ι)) (state' : σ) (result : Node ι),
    (given.mapM visitor.visit).run state = (seen, state') ∧
    (edit tree).run state = (result, state') ∧
    given.map asGiven = (walk tree).map asGiven ∧ seen.map asLeft = (walk result).map asLeft

variable {visitor : Visitor σ ι} {edit : Node ι → StateM σ (Node ι)}
  {walk : Node ι → List (Node ι)} {asGiven : Node ι → α} {asLeft : Node ι → β}

/-- Trees in a row are served like one tree. -/
theorem Serves.row {nodes : List (Node ι)}
    (h : ∀ node ∈ nodes, ∀ state, visitor.Serves edit walk asGiven asLeft node state) (state : σ) :
    ∃ (given seen : List (Node ι)) (state' : σ) (results : List (Node ι)),
      (given.mapM visitor.visit).run state = (seen, state') ∧
      (nodes.mapM edit).run state = (results, state') ∧ results.length = nodes.length ∧
      given.map asGiven = (nodes.flatMap walk).map asGiven ∧
      seen.map asLeft = (results.flatMap walk).map asLeft := by
  induction nodes generalizing state with
  | nil => exact ⟨[], [], state, [], rfl, rfl, rfl, rfl, rfl⟩
  | cons node nodes ih =>
    obtain ⟨hnode, hnodes⟩ := List.forall_mem_cons.1 h
    obtain ⟨given, seen, state₁, result, hvisit, hedit, hgiven, hseen⟩ := hnode state
    obtain ⟨given', seen', state₂, results, hvisit', hedit', hlength, hgiven', hseen'⟩ :=
      ih hnodes state₁
    exact ⟨given ++ given', seen ++ seen', state₂, result :: results,
      run_mapM_append hvisit hvisit', run_mapM_cons hedit hedit', by simp [hlength],
      by simp [hgiven, hgiven'], by simp [hseen, hseen']⟩

theorem children_of_visit (visitor : Visitor σ ι) {node result : Node ι} {state state' : σ}
    (h : (visitor.visit node).run state = (result, state')) : result.children = node.children := by
  have hkeeps := visitor.keeps node state
  rwa [h] at hkeeps

/-- Walking before the children, the visitor is given the nodes of the tree in pre-order, and each
node of the result is, but for its children, what the visitor made of it. -/
theorem serves_editPre (visitor : Visitor σ ι) {tree : Node ι} {bound : Nat}
    (h : tree.height < bound) (state : σ) :
    visitor.Serves (Node.editPre visitor.visit bound) Node.preorder id Node.frame tree state := by
  induction bound generalizing tree state with
  | zero => omega
  | succ bound ih =>
    obtain ⟨node, state₁, hvisit⟩ := exists_run (visitor.visit tree) state
    have hchildren := visitor.children_of_visit hvisit
    have hbelow : ∀ child ∈ tree.children, ∀ state, visitor.Serves
        (Node.editPre visitor.visit bound)
        Node.preorder id Node.frame child state := by
      intro child hchild
      have := Node.height_lt_of_mem_children hchild
      exact ih (by omega)
    obtain ⟨given, seen, state₂, results, hvisit', hedit, hlength, hgiven, hseen⟩ :=
      Serves.row hbelow state₁
    have hlength' : results.length = node.children.length := by rw [hlength, hchildren]
    refine ⟨tree :: given, node :: seen, state₂, node.withChildren results,
      run_mapM_cons hvisit hvisit', ?_, ?_, ?_⟩
    · rw [Node.editPre, run_bind_of_run hvisit, Node.mapChildrenM_eq, hchildren, StateT.run_map,
        hedit]
      rfl
    · rw [Node.preorder_eq, List.map_cons, hgiven, List.map_cons]
    · rw [Node.preorder_eq, Node.children_withChildren hlength', List.map_cons, List.map_cons,
        Node.frame_withChildren hlength', hseen]

/-- Walking after the children, the visitor is given the nodes of the tree in post-order, each with
the children left by the visits before, and what it makes of them are the nodes of the result. -/
theorem serves_editPost (visitor : Visitor σ ι) (tree : Node ι) (state : σ) :
    visitor.Serves (Node.editPost visitor.visit) Node.postorder Node.frame id tree state := by
  induction tree using Node.childrenInduction generalizing state with
  | step node ih =>
    obtain ⟨given, seen, state₁, results, hvisit, hedit, hlength, hgiven, hseen⟩ :=
      Serves.row ih state
    obtain ⟨result, state₂, hvisit'⟩ :=
      exists_run (visitor.visit (node.withChildren results)) state₁
    have hchildren : result.children = results := by
      rw [visitor.children_of_visit hvisit', Node.children_withChildren hlength]
    refine ⟨given ++ [node.withChildren results], seen ++ [result], state₂, result,
      run_mapM_append hvisit (run_mapM_cons hvisit' rfl), ?_, ?_, ?_⟩
    · rw [Node.editPost_eq, run_bind_of_run hedit, hvisit']
    · rw [Node.postorder_eq, List.map_append, List.map_append, hgiven, List.map_singleton,
        List.map_singleton, Node.frame_withChildren hlength]
    · rw [Node.postorder_eq, hchildren, List.map_append, List.map_append, hseen]

/-! ## Edits that look at scalar fields only -/

/-- What the visitor makes of a node is, but for its children, `edit` of the node but for them. -/
def Edits (visitor : Visitor σ ι) (edit : Frame ι → Frame ι) : Prop :=
  ∀ node state, ((visitor.visit node).run state).1.frame = edit node.frame

theorem Edits.frames_editPre {visitor : Visitor σ ι} {edit : Frame ι → Frame ι}
    (h : visitor.Edits edit) {tree : Node ι} {bound : Nat} (hbound : tree.height < bound)
    (state : σ) :
    ((tree.editPre visitor.visit bound).run state).1.preorder.map Node.frame =
      tree.preorder.map fun node => edit node.frame := by
  obtain ⟨given, seen, state', result, hvisit, hedit, hgiven, hseen⟩ :=
    visitor.serves_editPre hbound state
  rw [List.map_id, List.map_id] at hgiven
  have hframes := map_run_mapM (fun node (_ : node ∈ given) state => h node state) state
  rw [hedit]
  rwa [hvisit, hseen, hgiven] at hframes

theorem Edits.frames_editPost {visitor : Visitor σ ι} {edit : Frame ι → Frame ι}
    (h : visitor.Edits edit) (tree : Node ι) (state : σ) :
    ((tree.editPost visitor.visit).run state).1.preorder.map Node.frame =
      tree.preorder.map fun node => edit node.frame := by
  induction tree using Node.childrenInduction generalizing state with
  | step node ih =>
    have hrow := map_run_mapM (f := Node.editPost visitor.visit)
      (g := fun child => child.preorder.map Node.frame)
      (k := fun child => child.preorder.map fun node => edit node.frame) ih state
    obtain ⟨results, state₁, hedit⟩ :=
      exists_run (node.children.mapM (Node.editPost visitor.visit)) state
    rw [hedit] at hrow
    have hlength : results.length = node.children.length := by simpa using congrArg List.length hrow
    obtain ⟨result, state₂, hvisit⟩ := exists_run (visitor.visit (node.withChildren results)) state₁
    have hchildren := visitor.children_of_visit hvisit
    have hframe := h (node.withChildren results) state₁
    rw [hvisit, Node.frame_withChildren hlength] at hframe
    rw [Node.editPost_eq, run_bind_of_run hedit, hvisit, Node.preorder_eq, Node.preorder_eq node,
      hchildren, Node.children_withChildren hlength, List.map_cons, List.map_cons, hframe,
      List.map_flatMap, List.map_flatMap, List.flatMap_def, List.flatMap_def, hrow]

end Visitor

namespace Node

variable {σ : Type}

/-! ## Lists of children -/

/-- The list of children of a node that has one. -/
def list? : Node ι → Option (List (Node ι))
  | .sequence _ _ children => some children
  | _ => none

theorem editLists_of_list?_eq_none {node : Node ι} (h : node.list? = none)
    (visit : List (Node ι) → StateM σ (List (Node ι))) (bound : Nat) :
    node.editLists visit (bound + 1) =
      node.withChildren <$> node.children.mapM (editLists visit bound) := by
  cases node with
  | sequence => cases h
  | _ => exact mapChildrenM_eq _ _

/-- A visitor that leaves the lists as they are is given the lists of the nodes in pre-order, and
the tree stays as it is. -/
theorem editLists_visits {visit : List (Node ι) → StateM σ (List (Node ι))}
    (h : ∀ nodes state, ((visit nodes).run state).1 = nodes) {tree : Node ι} {bound : Nat}
    (hbound : tree.height < bound) (state : σ) :
    ∃ state', ((tree.preorder.filterMap list?).mapM visit).run state =
        (tree.preorder.filterMap list?, state') ∧
      (tree.editLists visit bound).run state = (tree, state') := by
  induction bound generalizing tree state with
  | zero => omega
  | succ bound ih =>
    have hrow : ∀ (nodes : List (Node ι)) (state : σ), (∀ node ∈ nodes, node.height < bound) →
        ∃ state', (((nodes.flatMap preorder).filterMap list?).mapM visit).run state =
            ((nodes.flatMap preorder).filterMap list?, state') ∧
          (nodes.mapM (editLists visit bound)).run state = (nodes, state') := by
      intro nodes
      induction nodes with
      | nil => exact fun state _ => ⟨state, rfl, rfl⟩
      | cons node nodes ihnodes =>
        intro state hlt
        obtain ⟨hnode, hnodes⟩ := List.forall_mem_cons.1 hlt
        obtain ⟨state₁, hvisit, hedit⟩ := ih hnode state
        obtain ⟨state₂, hvisit', hedit'⟩ := ihnodes state₁ hnodes
        refine ⟨state₂, ?_, run_mapM_cons hedit hedit'⟩
        rw [List.flatMap_cons, List.filterMap_append]
        exact run_mapM_append hvisit hvisit'
    have hbelow : ∀ child ∈ tree.children, child.height < bound := by
      intro child hchild
      have := height_lt_of_mem_children hchild
      omega
    rw [preorder_eq]
    cases tree with
    | sequence info kind nodes =>
      obtain ⟨given, state₁, hvisit⟩ := exists_run (visit nodes) state
      obtain rfl : given = nodes := by
        have hgiven := h nodes state
        rwa [hvisit] at hgiven
      obtain ⟨state₂, hvisit', hedit⟩ := hrow given state₁ hbelow
      refine ⟨state₂, run_mapM_cons hvisit hvisit', ?_⟩
      rw [editLists, run_bind_of_run hvisit, run_bind_of_run hedit]
      rfl
    | _ =>
      obtain ⟨state₁, hvisit, hedit⟩ := hrow _ state hbelow
      refine ⟨state₁, hvisit, ?_⟩
      rw [editLists_of_list?_eq_none rfl, StateT.run_map, hedit]
      exact congrArg (·, state₁) (withChildren_children _)

/-! ## All walks -/

/-- What the walks through a tree agree on. -/
structure WalksAgree (tree : Node ι) : Prop where
  preorder : Enumerates (· < ·) tree.descendant? tree.preorder
  postorder : Enumerates LeftBefore tree.descendant? tree.postorder
  editPre : ∀ {σ : Type} (visitor : Visitor σ ι) (bound : Nat), tree.height < bound → ∀ state,
    visitor.Serves (Node.editPre visitor.visit bound) Node.preorder id frame tree state
  editPost : ∀ {σ : Type} (visitor : Visitor σ ι) state,
    visitor.Serves (Node.editPost visitor.visit) Node.postorder frame id tree state
  /-- An edit of scalar fields that goes by scalar fields is made once at every node. -/
  edited : ∀ {σ : Type} (visitor : Visitor σ ι) (edit : Frame ι → Frame ι), visitor.Edits edit →
    ∀ bound, tree.height < bound → ∀ state, ∃ result : Node ι,
      result.preorder.map frame = tree.preorder.map (fun node => edit node.frame) ∧
      ((tree.editPre visitor.visit bound).run state).1 = result ∧
      ((tree.editPost visitor.visit).run state).1 = result
  /-- A visitor that changes nothing leaves the tree. -/
  kept : ∀ {σ : Type} (visitor : Visitor σ ι),
    (∀ node state, ((visitor.visit node).run state).1 = node) →
      ∀ bound, tree.height < bound → ∀ state,
        ((tree.editPre visitor.visit bound).run state).1 = tree ∧
        ((tree.editPost visitor.visit).run state).1 = tree
  /-- A list of children in cells is walked as the list of its elements. -/
  cells : ∀ {σ : Type} (list : HandleList (Node ι)), list.Valid → tree.list? = some list.toList →
    ∀ (visit : Node ι → StateM σ (Node ι)) state,
      ∃ (list' : HandleList (Node ι)) (nodes : List (Node ι)) (state' : σ),
        (tree.children.mapM visit).run state = (nodes, state') ∧
        (list.visitEach visit).run state = (list', state') ∧ list'.Valid ∧
        list'.toList = nodes ∧ list'.handles = list.handles
  lists : ∀ {σ : Type} (visit : List (Node ι) → StateM σ (List (Node ι))),
    (∀ nodes state, ((visit nodes).run state).1 = nodes) →
      ∀ bound, tree.height < bound → ∀ state, ∃ state',
        ((tree.preorder.filterMap list?).mapM visit).run state =
          (tree.preorder.filterMap list?, state') ∧
        (tree.editLists visit bound).run state = (tree, state')

/-- The walks through a tree agree. -/
theorem walks_agree (tree : Node ι) : tree.WalksAgree where
  preorder := tree.enumerates_preorder
  postorder := tree.enumerates_postorder
  editPre visitor _ hbound state := visitor.serves_editPre hbound state
  editPost visitor state := visitor.serves_editPost tree state
  edited _ _ hedit _ hbound state :=
    have hpre := hedit.frames_editPre hbound state
    ⟨_, hpre, rfl, eq_of_frames ((hedit.frames_editPost tree state).trans hpre.symm)⟩
  kept visitor hkeeps _ hbound state :=
    have hedits : visitor.Edits id := fun node state => congrArg frame (hkeeps node state)
    ⟨eq_of_frames (hedits.frames_editPre hbound state),
      eq_of_frames (hedits.frames_editPost tree state)⟩
  cells list H hlist visit state := by
    have hchildren : tree.children = list.toList := by
      cases tree with
      | sequence => exact Option.some.inj hlist
      | _ => cases hlist
    rw [hchildren]
    exact H.run_visitEach visit state
  lists _ hvisit _ hbound state := editLists_visits hvisit hbound state

end Node
end StyleTree
