import StyleTree.Print.Dump
import StyleTree.Proofs.Parse.Shape
import StyleTree.Proofs.Text.Quoted
import StyleTree.Proofs.Tree.Frame

/-!
# Reading the outline

The outline of a tree is one line for each node, in pre-order, indented by two blanks for each level
(`Node.OutlinedByLine`). The line of a node tells its type and its fields, because a quoted text
ends at its own quote (`Node.frame_eq_of_label`), and the deeper lines that follow it are the
outlines of its children (`Node.eq_of_lines`). So the outline tells which tree it is, but for
positions and for whether the only child of an at-rule is its expression or its block
(`Node.outline_identifies`).
-/

namespace StyleTree

open Text StyleTree.Parser StyleTree.Grammar

theorem LeafKind.name_injective {kind kind' : LeafKind} (h : kind.name = kind'.name) :
    kind = kind' := by
  cases kind <;> cases kind' <;> first | rfl | (simp [LeafKind.name] at h)

namespace Text

theorem quote_append_inj {s t : String} {rest rest' : List Char}
    (h : (quote s).toList ++ rest = (quote t).toList ++ rest') : s = t ∧ rest = rest' := by
  obtain ⟨hchars, hrest⟩ := quoteWith_append_inj (.inl rfl) h
  exact ⟨String.toList_inj.1 hchars, hrest⟩

theorem quoteChar_append_inj {c d : Char} {rest rest' : List Char}
    (h : (quoteChar c).toList ++ rest = (quoteChar d).toList ++ rest') : c = d ∧ rest = rest' := by
  obtain ⟨hchars, hrest⟩ := quoteWith_append_inj (.inr rfl) h
  exact ⟨(List.cons.inj hchars).1, hrest⟩

theorem append_cons_inj {c : Char} {xs ys rest rest' : List Char} (hxs : c ∉ xs) (hys : c ∉ ys)
    (h : xs ++ c :: rest = ys ++ c :: rest') : xs = ys ∧ rest = rest' := by
  have hfront : ∀ {zs rest : List Char}, c ∉ zs → (zs ++ c :: rest).takeWhile (· ≠ c) = zs := by
    intro zs rest hzs
    have hne : ∀ d ∈ zs, decide (d ≠ c) = true :=
      fun d hd => by simpa using ne_of_mem_of_not_mem hd hzs
    exact (takeWhile_eq_of_ends hne (by simp)).1
  have heq := congrArg (List.takeWhile (· ≠ c)) h
  rw [hfront hxs, hfront hys] at heq
  subst heq
  exact ⟨rfl, (List.cons.inj (List.append_cancel_left h)).2⟩

end Text

namespace Node

variable {ι : Type}

/-! ## The line of a node -/

/-- The characters of words, each after a blank. -/
def wordChars (words : List String) : List Char :=
  words.flatMap fun word => ' ' :: word.toList

@[simp] theorem wordChars_nil : wordChars [] = [] := rfl

@[simp] theorem wordChars_cons (word : String) (words : List String) :
    wordChars (word :: words) = ' ' :: (word.toList ++ wordChars words) := by
  simp [wordChars]

theorem toList_intercalate_blank (word : String) (words : List String) :
    (" ".intercalate (word :: words)).toList = word.toList ++ wordChars words := by
  rw [String.toList_intercalate]
  induction words generalizing word with
  | nil => simp
  | cons next words ih =>
    rw [List.map_cons, List.map_cons, List.intercalate_cons_cons, ← List.map_cons, ih]
    simp

/-- The names of the types, those of each shape of node in a row. -/
def typeNames : List (List String) :=
  [["Property", "Combinator", "Identifier", "PseudoClass", "PseudoElement", "Class", "Id",
      "Hash", "Nth", "Number", "String", "Operator", "Raw", "Unknown", "Percentage", "Comment"],
    ["Dimension"], ["Space"],
    ["StyleSheet", "AtruleExpression", "Selector", "SimpleSelector", "Block", "Value",
      "FunctionalPseudo", "Function", "Negation", "Braces", "Argument"],
    ["Ruleset", "Declaration"], ["Url", "Progid"], ["Atrule"], ["Attribute"]]

theorem findIdx_typeName (node : Node ι) :
    typeNames.findIdx (node.typeName ∈ ·) = node.ctorIdx := by
  cases node with
  | leaf _ kind | sequence _ kind | pair _ kind | wrapper _ kind => cases kind <;> rfl
  | _ => rfl

theorem all_isAlpha_typeName (node : Node ι) : node.typeName.toList.all Char.isAlpha = true := by
  cases node with
  | leaf _ kind => cases kind <;> simp [typeName, LeafKind.name]
  | sequence _ kind => cases kind <;> simp [typeName, SequenceKind.typeName]
  | pair _ kind => cases kind <;> simp [typeName, PairKind.name]
  | wrapper _ kind => cases kind <;> simp [typeName, WrapperKind.name]
  | _ => simp [typeName]

theorem notMem_typeName {c : Char} (h : c.isAlpha = false) (node : Node ι) :
    c ∉ node.typeName.toList := by
  intro hmem
  have halpha := List.all_eq_true.1 node.all_isAlpha_typeName c hmem
  rw [h] at halpha
  cases halpha

/-- The words of a line tell where the name of the type ends. -/
theorem typeName_append_inj {a b : Node ι} {words words' : List String}
    (h : a.typeName.toList ++ wordChars words = b.typeName.toList ++ wordChars words') :
    a.typeName = b.typeName ∧ wordChars words = wordChars words' := by
  have htake : ∀ (node : Node ι) (words : List String),
      (node.typeName.toList ++ wordChars words).takeWhile (· ≠ ' ') = node.typeName.toList := by
    intro node words
    refine (takeWhile_eq_of_ends (fun c hc => ?_) ?_).1
    · exact decide_eq_true fun heq => notMem_typeName rfl node (heq ▸ hc)
    · cases words <;> simp
  have hname := congrArg (List.takeWhile (· ≠ ' ')) h
  rw [htake, htake] at hname
  rw [hname] at h
  exact ⟨String.toList_inj.1 hname, List.append_cancel_left h⟩

/-! ## The fields of a node -/

theorem wordChars_flags_inj {flags flags' : Option String}
    (h : wordChars (flags.toList.map fun flags => "flags=" ++ quote flags) =
      wordChars (flags'.toList.map fun flags => "flags=" ++ quote flags)) : flags = flags' := by
  cases flags <;> cases flags' <;> simp at h
  · rfl
  · exact congrArg some (quote_append_inj (congrArg (· ++ []) h)).1

/-- Of two attribute selectors the words tell the operator from the flags: a flag is not written in
quotes alone. -/
theorem wordChars_attribute_inj {operator operator' flags flags' : Option String}
    (h : wordChars (operator.toList.map quote ++ flags.toList.map
      fun flags => "flags=" ++ quote flags) =
      wordChars (operator'.toList.map quote ++
        flags'.toList.map fun flags => "flags=" ++ quote flags)) :
    operator = operator' ∧ flags = flags' := by
  have hquoted : ∀ (text : String) (rest : List Char) (flags : Option String),
      ' ' :: ((quote text).toList ++ rest) ≠
        wordChars (flags.toList.map fun flags => "flags=" ++ quote flags) := by
    intro text rest flags
    cases flags <;> simp [quote, toList_quoteWith]
  cases operator with
  | none =>
    cases operator' with
    | none => exact ⟨rfl, wordChars_flags_inj h⟩
    | some operator' => exact absurd h.symm (by simpa using hquoted operator' _ flags)
  | some operator =>
    cases operator' with
    | none => exact absurd h (by simpa using hquoted operator _ flags')
    | some operator' =>
      have hquote : (quote operator).toList ++
            wordChars (flags.toList.map fun flags => "flags=" ++ quote flags) =
          (quote operator').toList ++
            wordChars (flags'.toList.map fun flags => "flags=" ++ quote flags) := by
        simpa using h
      obtain ⟨rfl, hflags⟩ := quote_append_inj hquote
      exact ⟨rfl, wordChars_flags_inj hflags⟩

theorem sequence_frame_eq_of_fields {info : Option ι} {kind kind' : SequenceKind}
    {nodes nodes' : List (Node ι)} (hlength : nodes.length = nodes'.length)
    (htype : kind.typeName = kind'.typeName)
    (hfields : wordChars (fields (sequence info kind nodes)) =
      wordChars (fields (sequence info kind' nodes'))) :
    (sequence info kind nodes).frame = (sequence info kind' nodes').frame := by
  suffices hkind : kind = kind' by rw [frame, frame, hkind, hlength]
  cases kind <;> cases kind' <;> try (simp [SequenceKind.typeName] at htype; done)
  case value.value important important' => cases important <;> cases important' <;>
    simp_all [fields]
  case functionalPseudo.functionalPseudo =>
    simp only [fields, wordChars_cons, List.cons.injEq, true_and] at hfields
    rw [(quote_append_inj hfields).1]
  case function.function =>
    simp only [fields, wordChars_cons, List.cons.injEq, true_and] at hfields
    rw [(quote_append_inj hfields).1]
  case braces.braces =>
    simp only [fields, wordChars_cons, List.cons.injEq, true_and] at hfields
    obtain ⟨rfl, hclosing⟩ := quoteChar_append_inj hfields
    obtain ⟨rfl, -⟩ := quoteChar_append_inj (List.cons.inj hclosing).2
    rfl
  all_goals rfl

/-- Two nodes of one type with as many children have the same frame if they show the same fields.
The block of an at-rule shows in the number of children if there is an expression. -/
theorem frame_eq_of_fields {a b : Node ι} (hinfo : a.info = b.info)
    (ha : ∀ info name block, a ≠ .atrule info name none block)
    (hb : ∀ info name block, b ≠ .atrule info name none block)
    (hlength : a.children.length = b.children.length) (htype : a.typeName = b.typeName)
    (hfields : wordChars a.fields = wordChars b.fields) : a.frame = b.frame := by
  have hshape : a.ctorIdx = b.ctorIdx := by rw [← findIdx_typeName, ← findIdx_typeName, htype]
  cases a <;> cases b <;> try exact absurd hshape (Nat.ne_of_beq_eq_false rfl)
  all_goals
    simp only [info] at hinfo
    subst hinfo
  case leaf.leaf =>
    obtain rfl := LeafKind.name_injective htype
    simp only [fields, wordChars_cons, List.cons.injEq, true_and] at hfields
    rw [(quote_append_inj hfields).1]
  case dimension.dimension =>
    simp only [fields, wordChars_cons, List.cons.injEq, true_and] at hfields
    obtain ⟨rfl, hunit⟩ := quote_append_inj hfields
    obtain ⟨rfl, -⟩ := quote_append_inj (List.cons.inj hunit).2
    rfl
  case space.space => rfl
  case sequence.sequence => exact sequence_frame_eq_of_fields hlength htype hfields
  case pair.pair kind _ _ kind' _ _ =>
    cases kind <;> cases kind' <;> first | rfl | (simp [typeName, PairKind.name] at htype)
  case wrapper.wrapper kind _ kind' _ =>
    cases kind <;> cases kind' <;> first | rfl | (simp [typeName, WrapperKind.name] at htype)
  case atrule.atrule name expression block name' expression' block' =>
    simp only [fields, wordChars_cons, List.cons.injEq, true_and] at hfields
    obtain ⟨rfl, -⟩ := quote_append_inj hfields
    cases expression with
    | none => exact absurd rfl (ha _ _ _)
    | some expression =>
      cases expression' with
      | none => exact absurd rfl (hb _ _ _)
      | some expression' => cases block <;> cases block' <;> simp_all [children, frame]
  case attributeSelector.attributeSelector value _ _ _ value' _ =>
    obtain ⟨rfl, rfl⟩ := wordChars_attribute_inj hfields
    cases value <;> cases value' <;> simp_all [children, frame]

/-! ## Lines -/

theorem newline_notMem_fields (node : Node ι) : ∀ word ∈ node.fields, '\n' ∉ word.toList := by
  have hquote : ∀ text : String, '\n' ∉ (quote text).toList := fun text =>
    newline_notMem_quoteWith (.inl rfl) text.toList
  have hchar : ∀ c : Char, '\n' ∉ (quoteChar c).toList :=
    fun c => newline_notMem_quoteWith (.inr rfl) [c]
  unfold fields
  split <;> simp +contextual [hquote, hchar]
  rintro word (⟨text, -, rfl⟩ | ⟨text, -, rfl⟩) <;> simp [hquote]

theorem newline_notMem_place (info : SourceInfo) : '\n' ∉ (place info).toList := by
  have hnumeral : ∀ n : UInt32, '\n' ∉ (toString n).toList := by
    intro n hmem
    rw [show toString n = toString n.toNat from rfl, Nat.toString_eq_repr, Nat.toList_repr] at hmem
    exact absurd (Nat.isDigit_of_mem_toDigits (by decide) (by decide) hmem) (by decide)
  simp [place, hnumeral]

/-- The line of a node is one line. -/
theorem newline_notMem_label (node : Node SourceInfo) :
    '\n' ∉ (" ".intercalate node.label).toList := by
  have hwords : ∀ word ∈ node.fields ++ node.info.toList.map place, '\n' ∉ word.toList := by
    intro word hword
    rcases List.mem_append.1 hword with hword | hword
    · exact node.newline_notMem_fields word hword
    · obtain ⟨info, -, rfl⟩ := List.mem_map.1 hword
      exact newline_notMem_place info
  rw [label, List.append_assoc, List.singleton_append, toList_intercalate_blank, List.mem_append,
    wordChars, List.mem_flatMap]
  rintro (hname | ⟨word, hword, hmem⟩)
  · exact notMem_typeName rfl node hname
  · rcases List.mem_cons.1 hmem with hmem | hmem
    · cases hmem
    · exact hwords word hword hmem

theorem outlineAll_eq_flatMap (level : Nat) (nodes : List (Node SourceInfo)) :
    outlineAll level nodes = nodes.flatMap (outlineAt level) := by
  induction nodes with
  | nil => rfl
  | cons node nodes ih => rw [outlineAll, ih, List.flatMap_cons]

theorem outlineOption_eq_flatMap (level : Nat) (node : Option (Node SourceInfo)) :
    outlineOption level node = node.toList.flatMap (outlineAt level) := by
  cases node <;> simp [outlineOption]

/-- The outline of a node is its line and the outlines of its children, one level deeper. -/
theorem outlineAt_eq (level : Nat) (node : Node SourceInfo) : outlineAt level node =
    outlineLine level node.label :: node.children.flatMap (outlineAt (level + 1)) := by
  cases node <;> simp [outlineAt, children, outlineAll_eq_flatMap, outlineOption_eq_flatMap]

theorem toList_outlineLine (level : Nat) (words : List String) : (outlineLine level words).toList =
    List.replicate (2 * level) ' ' ++ (" ".intercalate words).toList ++ ['\n'] := by
  simp [outlineLine]

/-- The number of blanks that a line starts with. -/
def indentation (line : String) : Nat :=
  (line.toList.takeWhile (· = ' ')).length

theorem typeName_toList_ne_nil (node : Node ι) : node.typeName.toList ≠ [] := by
  cases node with
  | leaf _ kind => cases kind <;> simp [typeName, LeafKind.name]
  | sequence _ kind => cases kind <;> simp [typeName, SequenceKind.typeName]
  | pair _ kind => cases kind <;> simp [typeName, PairKind.name]
  | wrapper _ kind => cases kind <;> simp [typeName, WrapperKind.name]
  | _ => simp [typeName]

/-- A line is indented by two blanks a level: the name of the type starts with a letter. -/
theorem indentation_outlineLine (level : Nat) (node : Node SourceInfo) :
    indentation (outlineLine level node.label) = 2 * level := by
  obtain ⟨c, cs, hname⟩ := List.exists_cons_of_ne_nil node.typeName_toList_ne_nil
  have hc : c ≠ ' ' := by
    rintro rfl
    exact notMem_typeName rfl node (by rw [hname]; exact .head _)
  have hblanks : ∀ c ∈ List.replicate (2 * level) ' ', decide (c = ' ') = true := by simp
  have hletter : ∀ c ∈ ((" ".intercalate node.label).toList ++ ['\n']).head?, decide
      (c = ' ') = false := by
    rw [label, List.append_assoc, List.singleton_append, toList_intercalate_blank, hname]
    simp [hc]
  have htake := (takeWhile_eq_of_ends hblanks hletter).1
  rw [indentation, toList_outlineLine, List.append_assoc, htake, List.length_replicate]

theorem le_indentation {level : Nat} {node : Node SourceInfo} {line : String}
    (h : line ∈ outlineAt level node) : 2 * level ≤ indentation line := by
  induction node using childrenInduction generalizing level with
  | step node ih =>
    rw [outlineAt_eq, List.mem_cons, List.mem_flatMap] at h
    rcases h with rfl | ⟨child, hchild, hline⟩
    · exact Nat.le_of_eq (indentation_outlineLine level node).symm
    · have := ih child hchild hline
      omega

/-- Lines without breaks inside are told apart by the breaks between them. -/
theorem lines_inj {rows rows' : List (List Char)} (h : ∀ row ∈ rows, '\n' ∉ row)
    (h' : ∀ row ∈ rows', '\n' ∉ row)
    (heq : rows.flatMap (· ++ ['\n']) = rows'.flatMap (· ++ ['\n'])) : rows = rows' := by
  induction rows generalizing rows' with
  | nil =>
    cases rows' with
    | nil => rfl
    | cons row' rows' => simp at heq
  | cons row rows ih =>
    cases rows' with
    | nil => simp at heq
    | cons row' rows' =>
      obtain ⟨hrow, hrows⟩ := List.forall_mem_cons.1 h
      obtain ⟨hrow', hrows'⟩ := List.forall_mem_cons.1 h'
      simp only [List.flatMap_cons, List.append_assoc, List.singleton_append] at heq
      obtain ⟨rfl, hrest⟩ := append_cons_inj hrow hrow' heq
      rw [ih hrows hrows' hrest]

theorem outlineLine_inj {level : Nat} {a b : Node SourceInfo}
    (h : outlineLine level a.label = outlineLine level b.label) :
    " ".intercalate a.label = " ".intercalate b.label := by
  have hchars := congrArg String.toList h
  rw [toList_outlineLine, toList_outlineLine] at hchars
  exact String.toList_inj.1 (List.append_cancel_left (List.append_cancel_right hchars))

/-! ## Trees from lines -/

/-- A tree without positions in which every at-rule has an expression. -/
structure Plain (tree : Node ι) : Prop where
  unplaced : ∀ node ∈ tree.preorder, node.info = none
  expressions : ∀ node ∈ tree.preorder, ∀ info name block, node ≠ .atrule info name none block

theorem Plain.child {tree child : Node ι} (h : tree.Plain) (hchild : child ∈ tree.children) :
    child.Plain where
  unplaced node hnode := h.unplaced node (mem_preorder.2 (.inr ⟨child, hchild, hnode⟩))
  expressions node hnode := h.expressions node (mem_preorder.2 (.inr ⟨child, hchild, hnode⟩))

/-- Nodes without positions that have as many children and the same line have the same frame. -/
theorem frame_eq_of_label {a b : Node SourceInfo} (ha : a.Plain) (hb : b.Plain)
    (hlength : a.children.length = b.children.length)
    (h : " ".intercalate a.label = " ".intercalate b.label) : a.frame = b.frame := by
  have hrow : ∀ {node : Node SourceInfo}, node.Plain → (" ".intercalate node.label).toList =
      node.typeName.toList ++ wordChars node.fields := by
    intro node hnode
    rw [label, hnode.unplaced node node.self_mem_preorder, List.append_assoc, List.singleton_append,
      toList_intercalate_blank]
    simp
  have hchars := congrArg String.toList h
  rw [hrow ha, hrow hb] at hchars
  obtain ⟨htype, hfields⟩ := typeName_append_inj hchars
  refine frame_eq_of_fields ?_ (ha.expressions a a.self_mem_preorder)
    (hb.expressions b b.self_mem_preorder) hlength htype hfields
  rw [ha.unplaced a a.self_mem_preorder, hb.unplaced b b.self_mem_preorder]

/-- Trees in a row, all at one level, are the same if they have the same lines. -/
theorem eq_of_lines {level : Nat} {as bs : List (Node SourceInfo)} (ha : ∀ a ∈ as, a.Plain)
    (hb : ∀ b ∈ bs, b.Plain)
    (h : as.flatMap (outlineAt level) = bs.flatMap (outlineAt level)) : as = bs := by
  -- By the number of lines: after the first one, the deeper lines are those of the children.
  induction hcount : (as.flatMap (outlineAt level)).length using Nat.strongRecOn
    generalizing level as bs with
  | ind count ih =>
    cases as with
    | nil =>
      cases bs with
      | nil => rfl
      | cons b bs => simp [outlineAt_eq] at h
    | cons a as =>
      cases bs with
      | nil => simp [outlineAt_eq] at h
      | cons b bs =>
        obtain ⟨haPlain, has⟩ := List.forall_mem_cons.1 ha
        obtain ⟨hbPlain, hbs⟩ := List.forall_mem_cons.1 hb
        simp only [List.flatMap_cons, outlineAt_eq, List.cons_append, List.cons.injEq] at h
        obtain ⟨hline, hrest⟩ := h
        have hdeeper : ∀ (nodes others : List (Node SourceInfo)),
            (nodes.flatMap (outlineAt (level + 1)) ++ others.flatMap (outlineAt level)).takeWhile
              (2 * level < indentation ·) = nodes.flatMap (outlineAt (level + 1)) := by
          intro nodes others
          refine (takeWhile_eq_of_ends (fun line hline => ?_) fun line hline => ?_).1
          · obtain ⟨node, -, hline⟩ := List.mem_flatMap.1 hline
            have := le_indentation hline
            exact decide_eq_true (by omega)
          · cases others with
            | nil => cases hline
            | cons other others =>
              rw [List.flatMap_cons, outlineAt_eq, List.cons_append, List.head?_cons,
                Option.mem_some_iff] at hline
              rw [← hline, indentation_outlineLine]
              exact decide_eq_false (Nat.lt_irrefl _)
        have hbelow := congrArg (List.takeWhile (2 * level < indentation ·)) hrest
        rw [hdeeper, hdeeper] at hbelow
        rw [hbelow] at hrest
        have hafter := List.append_cancel_left hrest
        simp only [List.flatMap_cons, outlineAt_eq, List.cons_append, List.length_cons,
          List.length_append] at hcount
        have hchildren := ih _ (by omega) (fun child => haPlain.child) (fun child => hbPlain.child)
          hbelow rfl
        have hothers := ih _ (by omega) has hbs hafter rfl
        have hframe := frame_eq_of_label haPlain hbPlain (congrArg List.length hchildren)
          (outlineLine_inj hline)
        rw [ext_frame hframe hchildren, hothers]

/-! ## The outline -/

/-- The nodes of a tree in pre-order, each with its level. -/
def leveled (level : Nat) (node : Node ι) : List (Nat × Node ι) :=
  (level, node) :: node.children.attach.flatMap fun child => leveled (level + 1) child.1
termination_by node.height
decreasing_by exact height_lt_of_mem_children child.2

theorem leveled_eq (level : Nat) (node : Node ι) :
    node.leveled level = (level, node) :: node.children.flatMap (leveled (level + 1)) := by
  rw [leveled, List.flatMap_subtype (fun _ _ => rfl), List.unattach_attach]

theorem map_snd_leveled (level : Nat) (node : Node ι) :
    (node.leveled level).map Prod.snd = node.preorder := by
  induction node using childrenInduction generalizing level with
  | step node ih =>
    rw [leveled_eq, preorder_eq, List.map_cons, List.map_flatMap]
    exact congrArg _ (List.flatMap_congr fun child hchild => ih child hchild (level + 1))

theorem outlineAt_eq_map (level : Nat) (node : Node SourceInfo) : outlineAt level node =
    (node.leveled level).map fun entry => outlineLine entry.1 entry.2.label := by
  induction node using childrenInduction generalizing level with
  | step node ih =>
    rw [leveled_eq, outlineAt_eq, List.map_cons, List.map_flatMap]
    exact congrArg _ (List.flatMap_congr fun child hchild => ih child hchild (level + 1))

/-- The characters of the line of a node, without the break at its end. -/
def row (level : Nat) (node : Node SourceInfo) : List Char :=
  List.replicate (2 * level) ' ' ++ (" ".intercalate node.label).toList

/-- The outline of a tree is one line for each node, in pre-order, indented by two blanks a
level. -/
structure OutlinedByLine (tree : Node SourceInfo) : Prop where
  nodes : (tree.leveled 0).map Prod.snd = tree.preorder
  lines : tree.outline.toList = (tree.leveled 0).flatMap fun entry => row entry.1 entry.2 ++ ['\n']
  unbroken : ∀ entry ∈ tree.leveled 0, '\n' ∉ row entry.1 entry.2

theorem outlinedByLine (tree : Node SourceInfo) : tree.OutlinedByLine where
  nodes := map_snd_leveled 0 tree
  lines := by
    rw [outline, String.toList_join, outlineAt_eq_map, List.flatMap_map]
    exact List.flatMap_congr fun entry _ => toList_outlineLine entry.1 entry.2.label
  unbroken entry _ := by
    rw [row, List.mem_append, List.mem_replicate]
    rintro (⟨-, hblank⟩ | hmem)
    · cases hblank
    · exact newline_notMem_label entry.2 hmem

/-- Trees without positions whose at-rules have expressions are told apart by their outlines. -/
theorem eq_of_outline {a b : Node SourceInfo} (ha : a.Plain) (hb : b.Plain)
    (h : a.outline = b.outline) : a = b := by
  have hrows : (a.leveled 0).map (fun entry => row entry.1 entry.2) =
      (b.leveled 0).map fun entry => row entry.1 entry.2 := by
    refine lines_inj (fun row hrow => ?_) (fun row hrow => ?_) ?_
    · obtain ⟨entry, hentry, rfl⟩ := List.mem_map.1 hrow
      exact a.outlinedByLine.unbroken entry hentry
    · obtain ⟨entry, hentry, rfl⟩ := List.mem_map.1 hrow
      exact b.outlinedByLine.unbroken entry hentry
    · rw [List.flatMap_map, List.flatMap_map, ← a.outlinedByLine.lines, ← b.outlinedByLine.lines, h]
  have hlines : ∀ tree : Node SourceInfo, outlineAt 0 tree =
      ((tree.leveled 0).map fun entry => row entry.1 entry.2).map
        fun row => String.ofList (row ++ ['\n']) := by
    intro tree
    rw [outlineAt_eq_map, List.map_map]
    refine List.map_congr_left fun entry _ => String.toList_inj.1 ?_
    rw [toList_outlineLine, Function.comp_apply, String.toList_ofList, row]
  have hforest : [a].flatMap (outlineAt 0) = [b].flatMap (outlineAt 0) := by
    rw [List.flatMap_singleton, List.flatMap_singleton, hlines, hlines, hrows]
  have heq := eq_of_lines (List.forall_mem_singleton.2 ha) (List.forall_mem_singleton.2 hb) hforest
  exact (List.cons.inj heq).1

/-- Parsed trees are told apart by their outlines if their positions are left out. -/
theorem plain_of_parse {text : String} {options : ParseOptions} {node : Node SourceInfo}
    (hpositions : options.positions = false) (h : parse text options = .ok node) : node.Plain := by
  obtain ⟨tree, s', hread, rfl⟩ := parse_eq_ok_iff.1 h
  obtain ⟨-, hshape⟩ := gives_production _ _ _ _ _ (spelled_tokens _ _) hread
  rw [ParseOptions.sourceInfo_eq_none hpositions]
  have hwell : (tree.mapInfo fun _ => (none : Option SourceInfo)).WellShaped := hshape.mapInfo
  refine ⟨fun other hmem => ?_, fun other hmem info name block heq => ?_⟩
  · rw [Node.preorder_mapInfo] at hmem
    obtain ⟨node, -, rfl⟩ := List.mem_map.1 hmem
    rw [Node.info_mapInfo, Option.bind_fun_none]
  · obtain ⟨top, hfits⟩ : ∃ top, other.Fits top := by
      rcases mem_preorder.1 hmem with rfl | ⟨child, hchild, hmem⟩
      · exact ⟨true, hwell.root⟩
      · exact ⟨false, hwell.below child hchild other hmem⟩
    subst heq
    obtain ⟨⟨node, hnode, -⟩, -⟩ := hfits
    cases hnode

/-- **The outline identifies the tree.** Two trees without positions whose at-rules have
expressions, as every parsed tree has, have different outlines if they are different, and every
outline has one line for each node. -/
theorem outline_identifies :
    (∀ {a b : Node SourceInfo}, a.Plain → b.Plain → a.outline = b.outline → a = b) ∧
    (∀ {text : String} {options : ParseOptions} {node : Node SourceInfo},
      options.positions = false → parse text options = .ok node → node.Plain) ∧
    ∀ tree : Node SourceInfo, tree.OutlinedByLine :=
  ⟨eq_of_outline, plain_of_parse, outlinedByLine⟩

/-- A text with a quote and a break in it, and the words of its line as texts of their own. -/
theorem outline_identifies_texts :
    let a : Node SourceInfo := .atrule none "m" (some (.sequence none .atruleExpression
      [.leaf none .identifier "x\"\n  Identifier \"y"])) none
    let b : Node SourceInfo := .atrule none "m" (some (.sequence none .atruleExpression
      [.leaf none .identifier "x", .leaf none .identifier "y"])) none
    a.Plain ∧ b.Plain ∧ a.outline ≠ b.outline := by
  intro a b
  have ha : a.Plain := ⟨by decide, by simp [a, preorder, preorderAll, preorderOption]⟩
  have hb : b.Plain := ⟨by decide, by simp [b, preorder, preorderAll, preorderOption]⟩
  exact ⟨ha, hb, fun h => absurd (outline_identifies.1 ha hb h) (by decide)⟩

end Node
end StyleTree
