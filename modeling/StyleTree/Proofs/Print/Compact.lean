import StyleTree.Print.Fragment

/-! The compact text of a tree, node by node. `Node.compact` is the text as characters; for each
shape of node an equation gives it in terms of the text of the children, without the groups that own
the fragments. Positions do not matter (`Node.compact_mapInfo`), and `Node.bare` is a tree without
any. -/

namespace StyleTree.Node

variable {ι κ : Type}

-- The text of each shape of node comes from the equations of the printer.
attribute [local simp] fragments

/-- The characters of the compact text of a tree. -/
def compact (node : Node ι) : List Char :=
  node.toCss.toList

/-- The characters of texts in a row. -/
def chars (texts : List String) : List Char :=
  texts.flatMap String.toList

@[simp] theorem chars_nil : chars [] = [] := rfl

@[simp] theorem chars_cons (text : String) (texts : List String) :
    chars (text :: texts) = text.toList ++ chars texts := rfl

@[simp] theorem chars_append (texts texts' : List String) :
    chars (texts ++ texts') = chars texts ++ chars texts' := by
  simp [chars]

/-! ## Fragments without owners -/

theorem map_text_written (owner : Option ι) (texts : List String) :
    (written owner texts).map Fragment.text = texts := by
  simp [written, Function.comp_def]

/-- What is written of a child: in a simple selector, blanks stand around the combinator
`/deep/`. -/
def piece (deep : Bool) (node : Node ι) : List Char :=
  if deep && isDeep node then " /deep/ ".toList else node.compact

/-- The characters of fragments. -/
def fragmentChars (fragments : List (Fragment ι)) : List Char :=
  chars (fragments.map Fragment.text)

@[simp] theorem fragmentChars_append (fragments fragments' : List (Fragment ι)) :
    fragmentChars (fragments ++ fragments') =
      fragmentChars fragments ++ fragmentChars fragments' := by
  simp [fragmentChars]

@[simp] theorem fragmentChars_written (owner : Option ι) (texts : List String) :
    fragmentChars (written owner texts) = chars texts := by
  rw [fragmentChars, map_text_written]

theorem compact_eq (node : Node ι) : node.compact = fragmentChars (node.fragments none) := by
  rw [compact, toCss, Text.concat, String.toList_ofList]
  rfl

theorem fragmentChars_fragmentsAll {owner : Option ι} {deep : Bool} {between : List String}
    {nodes : List (Node ι)}
    (h : ∀ node ∈ nodes, fragmentChars (fragments owner node) = node.compact) :
    fragmentChars (fragmentsAll owner deep between nodes) =
      List.intercalate (chars between) (nodes.map (piece deep)) := by
  have hpiece : ∀ node ∈ nodes, fragmentChars (if deep && isDeep node then
      written owner [" /deep/ "] else fragments owner node) = piece deep node := by
    intro node hmem
    unfold piece
    split
    · simp
    · exact h node hmem
  induction nodes with
  | nil => rfl
  | cons node nodes ih =>
    have ih :=
      ih (fun node hmem => h node (.tail _ hmem)) fun node hmem => hpiece node (.tail _ hmem)
    cases nodes with
    | nil => simpa [fragmentsAll, List.intercalate] using hpiece node (.head _)
    | cons node' nodes =>
      rw [fragmentsAll, fragmentChars_append, fragmentChars_append, ih, hpiece node (.head _),
        fragmentChars_written]
      · simp [List.intercalate]
      · simp

/-- The owner of the fragments does not change the text. -/
theorem fragmentChars_fragments (owner : Option ι) (node : Node ι) :
    fragmentChars (node.fragments owner) = node.compact := by
  rw [compact_eq]
  induction node generalizing owner with
  | leaf | dimension | space => simp [fragments]
  | sequence info kind children ih =>
    have hchildren : ∀ (owner : Option ι), ∀ child ∈ children,
        fragmentChars (fragments owner child) = child.compact := by
      intro owner child hmem
      rw [ih child hmem, compact_eq]
    simp only [fragments, fragmentChars_append, fragmentChars_written,
      fragmentChars_fragmentsAll (hchildren _)]
  | pair info kind first second => cases kind <;> simp [fragments]
  | wrapper info kind inner ih => cases kind <;> simp [fragments, ih owner]
  | atrule => simp [fragments]
  | attributeSelector info name operator value flags ih₁ ih₂ =>
    cases operator with
    | none => simp [fragments, ih₁ owner]
    | some operator =>
      cases value with
      | none => simp [fragments, testFragments, ih₁ owner]
      | some value =>
        cases flags <;> simp [fragments, testFragments, ih₁ owner, ih₂ value rfl owner]

/-! ## The text of each shape of node -/

@[simp] theorem compact_leaf (info : Option ι) (kind : LeafKind) (text : String) :
    (leaf info kind text).compact =
      chars (leafMarks kind).1 ++ text.toList ++ chars (leafMarks kind).2 := by
  simp [compact_eq, fragments]

@[simp] theorem compact_dimension (info : Option ι) (value unit : String) :
    (dimension info value unit).compact = value.toList ++ unit.toList := by
  simp [compact_eq, fragments]

@[simp] theorem compact_space (info : Option ι) : (space info).compact = [' '] := by
  simp [compact_eq, fragments]

theorem compact_sequence (info : Option ι) (kind : SequenceKind) (children : List (Node ι)) :
    (sequence info kind children).compact = chars (sequenceMarks kind).1 ++
      List.intercalate (chars (sequenceMarks kind).2.1)
        (children.map (piece (decide (kind = .simpleSelector)))) ++
      chars (sequenceMarks kind).2.2 := by
  rw [compact_eq, fragments]
  simp only [fragmentChars_append, fragmentChars_written,
    fragmentChars_fragmentsAll fun child _ => fragmentChars_fragments _ child]

@[simp] theorem piece_false (node : Node ι) : piece false node = node.compact := rfl

theorem map_piece_false (nodes : List (Node ι)) : nodes.map (piece false) = nodes.map compact :=
  rfl

@[simp] theorem intercalate_nil (pieces : List (List Char)) :
    List.intercalate [] pieces = pieces.flatten := by
  induction pieces with
  | nil => rfl
  | cons piece pieces ih =>
    cases pieces with
    | nil => simp [List.intercalate]
    | cons piece' pieces => simpa [List.intercalate] using ih

@[simp] theorem compact_declaration (info : Option ι) (first second : Node ι) :
    (pair info .declaration first second).compact = first.compact ++ ':' :: second.compact := by
  simp [compact_eq (pair ..), fragments, fragmentChars_fragments]

@[simp] theorem compact_ruleset (info : Option ι) (first second : Node ι) :
    (pair info .ruleset first second).compact =
      first.compact ++ '\x7b' :: (second.compact ++ ['\x7d']) := by
  simp [compact_eq (pair ..), fragments, fragmentChars_fragments]

@[simp] theorem compact_url (info : Option ι) (inner : Node ι) :
    (wrapper info .url inner).compact = "url(".toList ++ (inner.compact ++ [')']) := by
  simp [compact_eq (wrapper ..), fragments, fragmentChars_fragments]

@[simp] theorem compact_progid (info : Option ι) (inner : Node ι) :
    (wrapper info .progid inner).compact = inner.compact := by
  simp [compact_eq (wrapper ..), fragments, fragmentChars_fragments]

/-- What is written of an at-rule's expression. -/
def expressionChars : Option (Node ι) → List Char
  | none => []
  | some node => if isEmptyExpression node then [] else ' ' :: node.compact

/-- What is written of an at-rule's body. -/
def bodyChars : Option (Node ι) → List Char
  | none => [';']
  | some node => '\x7b' :: (node.compact ++ ['\x7d'])

@[simp] theorem compact_atrule (info : Option ι) (name : String)
    (expression block : Option (Node ι)) :
    (atrule info name expression block).compact =
      '@' :: (name.toList ++ (expressionChars expression ++ bodyChars block)) := by
  have hexpression : fragmentChars (expressionFragments info expression) =
      expressionChars expression := by
    cases expression with
    | none => rfl
    | some node =>
      simp only [expressionFragments, expressionChars]
      split
      · rfl
      · simp [fragmentChars_fragments]
  have hblock : fragmentChars (bodyFragments info block) = bodyChars block := by
    cases block <;> simp [bodyFragments, bodyChars, fragmentChars_fragments]
  simp [compact_eq (atrule ..), fragments, hexpression, hblock]

/-- What is written of an attribute's value and flags. -/
def testChars (flags : Option String) : Option (Node ι) → List Char
  | none => []
  | some node => node.compact ++
    (flags.map fun flags => chars (if isString node then [flags] else [" ", flags])).getD []

@[simp] theorem compact_attributeSelector (info : Option ι) (name : Node ι)
    (operator : Option String) (value : Option (Node ι)) (flags : Option String) :
    (attributeSelector info name operator value flags).compact = '[' :: (name.compact ++
      ((operator.map fun sign => sign.toList ++ testChars flags value).getD [] ++ [']'])) := by
  cases operator with
  | none => simp [compact_eq (attributeSelector ..), fragments, fragmentChars_fragments]
  | some operator =>
    cases value with
    | none =>
      simp [compact_eq (attributeSelector ..), fragments, fragmentChars_fragments, testFragments,
        testChars]
    | some value =>
      cases flags <;>
        simp [compact_eq (attributeSelector ..), fragments, fragmentChars_fragments, testFragments,
          testChars]

/-! ## Trees without positions -/

/-- The tree without positions. -/
def bare (node : Node ι) : Node SourceInfo :=
  node.mapInfo fun _ => none

theorem isDeep_mapInfo (f : ι → Option κ) (node : Node ι) :
    isDeep (node.mapInfo f) = isDeep node := by
  cases node with
  | leaf info kind text => cases kind <;> rfl
  | _ => rfl

theorem isEmptyExpression_mapInfo (f : ι → Option κ) (node : Node ι) :
    isEmptyExpression (node.mapInfo f) = isEmptyExpression node := by
  cases node with
  | sequence info kind children => cases kind <;> cases children <;> rfl
  | _ => rfl

/-- The text does not depend on positions. -/
theorem compact_mapInfo (f : ι → Option κ) (node : Node ι) :
    (node.mapInfo f).compact = node.compact := by
  induction node with
  | leaf | dimension | space => simp [mapInfo]
  | sequence info kind children ih =>
    rw [mapInfo, compact_sequence, compact_sequence, mapInfoAll_eq_map, List.map_map]
    congr 3
    refine List.map_congr_left fun child hmem => ?_
    simp only [Function.comp_apply, piece, isDeep_mapInfo, ih child hmem]
  | pair info kind first second ih₁ ih₂ => cases kind <;> simp [mapInfo, ih₁, ih₂]
  | wrapper info kind inner ih => cases kind <;> simp [mapInfo, ih]
  | atrule info name expression block ih₁ ih₂ =>
    have hexpression : expressionChars (expression.map (mapInfo f)) =
        expressionChars expression := by
      cases expression with
      | none => rfl
      | some node =>
        simp [expressionChars, isEmptyExpression_mapInfo, ih₁ node rfl]
    have hblock : bodyChars (block.map (mapInfo f)) = bodyChars block := by
      cases block with
      | none => rfl
      | some node => simp [bodyChars, ih₂ node rfl]
    simp [mapInfo, mapInfoOption_eq_map, hexpression, hblock]
  | attributeSelector info name operator value flags ih₁ ih₂ =>
    have htest : testChars flags (value.map (mapInfo f)) = testChars flags value := by
      cases value with
      | none => rfl
      | some node =>
        have hstring : isString (node.mapInfo f) = isString node := by
          cases node with
          | leaf info kind text => cases kind <;> rfl
          | _ => rfl
        simp [testChars, hstring, ih₂ node rfl]
    simp [mapInfo, mapInfoOption_eq_map, ih₁, htest]

theorem compact_bare (node : Node ι) : node.bare.compact = node.compact :=
  compact_mapInfo _ node

theorem compact_of_bare_eq {node node' : Node ι} (h : node.bare = node'.bare) :
    node.compact = node'.compact := by
  rw [← compact_bare node, h, compact_bare]

@[simp] theorem bare_leaf (info : Option ι) (kind : LeafKind) (text : String) :
    (leaf info kind text).bare = leaf none kind text := by
  cases info <;> rfl

@[simp] theorem bare_dimension (info : Option ι) (value unit : String) :
    (dimension info value unit).bare = dimension none value unit := by
  cases info <;> rfl

@[simp] theorem bare_space (info : Option ι) : (space info).bare = space none := by
  cases info <;> rfl

@[simp] theorem bare_sequence (info : Option ι) (kind : SequenceKind) (children : List (Node ι)) :
    (sequence info kind children).bare = sequence none kind (children.map bare) := by
  cases info <;> simp [bare, mapInfo, mapInfoAll_eq_map]

@[simp] theorem bare_pair (info : Option ι) (kind : PairKind) (first second : Node ι) :
    (pair info kind first second).bare = pair none kind first.bare second.bare := by
  cases info <;> rfl

@[simp] theorem bare_wrapper (info : Option ι) (kind : WrapperKind) (inner : Node ι) :
    (wrapper info kind inner).bare = wrapper none kind inner.bare := by
  cases info <;> rfl

@[simp] theorem bare_atrule (info : Option ι) (name : String) (expression block : Option (Node ι)) :
    (atrule info name expression block).bare =
      atrule none name (expression.map bare) (block.map bare) := by
  cases info <;> simp only [bare, mapInfo, mapInfoOption_eq_map] <;> rfl

@[simp] theorem bare_attributeSelector (info : Option ι) (name : Node ι) (operator : Option String)
    (value : Option (Node ι)) (flags : Option String) :
    (attributeSelector info name operator value flags).bare =
      attributeSelector none name.bare operator (value.map bare) flags := by
  cases info <;> simp only [bare, mapInfo, mapInfoOption_eq_map] <;> rfl

theorem children_bare (node : Node ι) : node.bare.children = node.children.map bare := by
  cases node with
  | atrule info name expression block =>
    cases expression <;> cases block <;> simp [children]
  | attributeSelector info name operator value flags => cases value <;> simp [children]
  | _ => simp [children]

end StyleTree.Node
