import StyleTree.Proofs.Grammar.Filter
import StyleTree.Proofs.Grammar.Gives
import StyleTree.Proofs.Grammar.Selector
import StyleTree.Proofs.Tree.Shape

/-! The shape of what components are read as. `Shaped` says that a tree is of one of the given types
and that each of its nodes has the children that the grammar gives it. Every production gives such a
tree (`gives_component`, `gives_brackets`, `gives_value`), if the readers one bracket deeper do
(`NestedShaped`). -/

namespace StyleTree

open StyleTree.Parser StyleTree.Grammar

namespace Grammar

open Node

/-- A tree of one of the given types that has the shape of the grammar. -/
structure Shaped (names : List String) (tree : Tree) : Prop where
  type : tree.typeName ∈ names
  sound : tree.Sound

namespace Shaped

variable {names names' : List String} {node : Tree} {nodes : List Tree}

theorem mono (h : Shaped names node) (hnames : names ⊆ names') : Shaped names' node :=
  ⟨hnames h.type, h.sound⟩

theorem leaf {info : Option Nat} {kind : LeafKind} {text : String} (h : kind.name ∈ names) :
    Shaped names (.leaf info kind text) :=
  ⟨h, sound_iff.2 ⟨trivial, nofun⟩⟩

theorem space (h : "Space" ∈ names) : Shaped names (.space none : Tree) :=
  ⟨h, sound_iff.2 ⟨rfl, nofun⟩⟩

theorem dimension {info : Option Nat} {value unit : String} (h : "Dimension" ∈ names) :
    Shaped names (.dimension info value unit) :=
  ⟨h, sound_iff.2 ⟨trivial, nofun⟩⟩

theorem sequence {info : Option Nat} {kind : SequenceKind} (h : kind.typeName ∈ names)
    (hfits : SequenceFits false info nodes kind) (hnodes : ∀ node ∈ nodes, Shaped names' node) :
    Shaped names (.sequence info kind nodes) :=
  ⟨h, sound_iff.2 ⟨hfits, fun node hmem => (hnodes node hmem).sound⟩⟩

theorem allOf (h : ∀ node ∈ nodes, Shaped names node) : AllOf names nodes :=
  fun node hmem => (h node hmem).type

end Shaped

/-! ## Small parts -/

section
variable {names : List String}

theorem gives_readName (custom : Bool) : Gives (readName custom) fun _ => True := by
  refine (gives_takeIf _).step fun _ => .choose (fun _ => gives_takeIf _) (fun _ => .pure trivial)
    fun _ _ => gives_kind?.step fun _ => ?_
  split
  · exact gives_take.step fun _ => (gives_takeWhile _).step fun _ => .pure trivial
  · exact gives_take.step fun _ => (gives_takeWhile _).step fun _ => .pure trivial
  · exact .fail

/-- A leaf whose text is a name. -/
theorem gives_namedLeaf {info : Option Nat} {kind : LeafKind} (h : kind.name ∈ names) :
    Gives (do return .leaf info kind (← readName false)) (Shaped names) :=
  (gives_readName false).step fun _ => .pure (.leaf h)

theorem gives_tokenLeaf {kind : LeafKind} (h : kind.name ∈ names) :
    Gives (tokenLeaf kind) (Shaped names) :=
  gives_here.step fun _ => gives_take.step fun _ => .pure (.leaf h)

theorem gives_operator : Gives operator (Shaped ["Operator"]) :=
  gives_tokenLeaf (by decide)

theorem gives_identifier (custom : Bool) : Gives (identifier custom) (Shaped ["Identifier"]) :=
  gives_here.step fun _ => (gives_readName custom).step fun _ => .pure (.leaf (by decide))

theorem gives_nameEnd (info : Option Nat) (name : String) (colon : Bool) :
    Gives (nameEnd info name colon) (Shaped ["Identifier"]) :=
  (gives_isAt _).step fun _ => .ite
    (fun _ => gives_take.step fun _ => (gives_readName _).step fun _ => .pure (.leaf (by decide)))
    fun _ => .pure (.leaf (by decide))

theorem gives_nameFrom (info : Option Nat) (colon : Bool) (base : String) :
    Gives (nameFrom info colon base) (Shaped ["Identifier"]) := by
  refine (gives_isAt _).step fun _ => (gives_lookupKind _ _).step fun _ => .ite (fun _ => ?_)
    fun _ => gives_nameEnd _ _ _
  refine gives_take.step fun _ => gives_kind?.step fun _ => ?_
  split
  · exact (gives_readName _).step fun _ => gives_nameEnd _ _ _
  · exact (gives_readName _).step fun _ => gives_nameEnd _ _ _
  · exact (gives_readName _).step fun _ => gives_nameEnd _ _ _
  · exact gives_take.step fun _ => gives_nameEnd _ _ _
  · exact gives_nameEnd _ _ _

theorem gives_qualifiedName (colon : Bool) :
    Gives (qualifiedName colon) (Shaped ["Identifier"]) := by
  intro s tree s' hs h
  cases hrest : s.rest with
  | nil => simp [qualifiedName, hrest] at h
  | cons first rest =>
    rw [qualifiedName_eq colon hrest] at h
    refine Gives.ite (fun _ => gives_take.step fun _ => gives_nameFrom _ _ _)
      (fun _ => ?_) s tree s' hs h
    exact .ite (fun _ => gives_nameFrom _ _ _)
      fun _ => (gives_readName _).step fun _ => gives_nameFrom _ _ _

theorem gives_readNumber? : Gives readNumber? fun _ => True := by
  refine gives_get.step fun _ => ?_
  split
  · exact .pure trivial
  · exact (gives_takeMany _).step fun _ => .pure trivial

/-- An identifier that is cut is no punctuator. -/
theorem gives_readUnit {token : Token} (hk : token.kind = .ident) :
    Gives (readUnit token) fun _ => True := by
  unfold readUnit
  refine .ite (fun _ => gives_take) fun _ => ?_
  intro s unit s' hs h
  obtain ⟨-, rfl⟩ := EStateM.Result.ok.inj h
  refine ⟨?_, trivial⟩
  rintro other (_ | ⟨_, hmem⟩)
  · exact Token.isSpelled_of_ident hk
  · exact hs other (List.mem_of_mem_tail hmem)

theorem gives_hash : Gives hash (Shaped ["Hash"]) := by
  refine gives_here.step fun _ => (gives_expect _).step fun _ => gives_kind?.step fun _ => ?_
  split
  · exact gives_take.step fun _ => (gives_takeIf _).step fun _ => .pure (.leaf (by decide))
  · exact gives_take.step fun _ => .pure (.leaf (by decide))
  · exact .fail

theorem gives_hexDigits : Gives hexDigits fun _ => True :=
  (gives_takeWhile _).step fun _ => .ite (fun _ => .fail) fun _ => .pure trivial

theorem gives_unicodeRange : Gives unicodeRange (Shaped ["Identifier"]) := by
  refine gives_here.step fun _ => (gives_takeMany _).step fun _ => gives_hexDigits.step fun _ =>
    gives_get.step fun _ => (gives_takeMany _).step fun _ => (gives_isAt _).step fun _ => ?_
  refine .ite (fun _ => ?_) fun _ => .pure (.leaf (by decide))
  exact gives_take.step fun _ => gives_hexDigits.step fun _ => .pure (.leaf (by decide))

end

/-! ## Components -/

/-- What the readers one bracket deeper have to give. -/
structure NestedShaped (inner : Nested) : Prop where
  component : ∀ scope, Gives (inner.component scope) (Shaped componentTypes)
  brackets : ∀ scope, Gives (inner.brackets scope) (Shaped ["Braces"])
  fallback : Gives inner.fallback (Shaped ["Value"])
  negated : Gives inner.negated (Shaped ["SimpleSelector"])

variable {inner : Nested}

theorem shaped_argument {names : List String} {nodes : List Tree} (htrimmed : Trimmed nodes)
    (hnodes : ∀ node ∈ nodes, Shaped names node) : Shaped ["Argument"] (argument nodes) :=
  .sequence (by decide) ⟨rfl, htrimmed⟩ hnodes

theorem trimmed_singleton {ι : Type} {node : Node ι} (h : node.typeName ≠ "Space") :
    Trimmed [node] :=
  ⟨by simpa using h, by simpa using h⟩

theorem gives_urlFunction (info : Option Nat) : Gives (urlFunction info) (Shaped ["Url"]) := by
  have hend : ∀ {node : Tree}, Shaped ["String", "Raw"] node →
      Gives (do skipGaps; expect .rightParen; return .wrapper info .url node) (Shaped ["Url"]) :=
    fun hnode => gives_skipGaps.step fun _ => (gives_expect _).step fun _ =>
      .pure ⟨.head _, sound_iff.2 ⟨hnode.type, by simpa [children] using hnode.sound⟩⟩
  refine (gives_expect _).step fun _ => gives_skipGaps.step fun _ => (gives_isAt _).step fun _ =>
    .ite (fun _ => ?_) fun _ => ?_
  · exact (gives_tokenLeaf (by decide)).bind fun _ => hend
  · exact gives_here.step fun _ => (gives_takeWhile _).step fun _ => hend (.leaf (by decide))

theorem gives_negation (hinner : NestedShaped inner) (info : Option Nat) :
    Gives (negation inner info) (Shaped ["Negation"]) := by
  refine (gives_expect _).step fun _ => .bind (gives_separated (p := Shaped ["SimpleSelector"]) ?_
    (.pure trivial)) fun _ hentries => (gives_expect _).step fun _ => .pure ?_
  · refine gives_kind?.step fun _ => ?_
    split
    · exact .fail
    · exact .fail
    · exact hinner.negated
  · exact .sequence (by decide) (Shaped.allOf hentries) hentries

theorem gives_scriptFunction (info : Option Nat) (name : String) :
    Gives (scriptFunction info name) (Shaped ["Function"]) := by
  refine (gives_expect _).step fun _ => gives_get.step fun _ => (gives_takeMany _).step fun text =>
    (gives_expect _).step fun _ => .pure ?_
  have hraw : Shaped ["Raw"] (.leaf none .raw text) := .leaf (by decide)
  have hargument : Shaped ["Argument"] (argument [.leaf none .raw text]) :=
    shaped_argument (trimmed_singleton (by simp [typeName, LeafKind.name]))
      (List.forall_mem_singleton.2 hraw)
  exact .sequence (.head _) ⟨by simpa [AllOf] using hargument.type, by simp [argument, children]⟩
    (List.forall_mem_singleton.2 hargument)

theorem gives_variableFunction (hinner : NestedShaped inner) (info : Option Nat) (name : String) :
    Gives (variableFunction inner info name) (Shaped ["Function"]) := by
  refine (gives_expect _).step fun _ => gives_skipGaps.step fun _ => (gives_identifier true).bind
    fun variableName hname => gives_skipGaps.step fun _ => (gives_isAt _).step fun _ => ?_
  have hspace : ∀ {name : String} {node : Tree}, Shaped [name] node → name ≠ "Space" →
      node.typeName ≠ "Space" := by
    intro name node hnode hne
    rw [List.mem_singleton.1 hnode.type]
    exact hne
  have hargument : Shaped ["Argument"] (argument [variableName]) :=
    shaped_argument (trimmed_singleton (hspace hname (by decide))) (by simpa using hname)
  refine .ite (fun _ => ?_) fun _ => (gives_expect _).step fun _ => .pure ?_
  · refine gives_advance.step fun _ => gives_skipGaps.step fun _ => hinner.fallback.bind
      fun node hnode => gives_skipGaps.step fun _ => (gives_expect _).step fun _ => .pure ?_
    have hfallback : Shaped ["Argument"] (argument [node]) :=
      shaped_argument (trimmed_singleton (hspace hnode (by decide))) (by simpa using hnode)
    exact .sequence (.head _)
      ⟨by simp [AllOf, argument, typeName, SequenceKind.typeName], by simp [argument, children]⟩
      (List.forall_mem_cons.2 ⟨hargument, List.forall_mem_singleton.2 hfallback⟩)
  · exact .sequence (.head _)
      ⟨by simp [AllOf, argument, typeName, SequenceKind.typeName], by simp [argument, children]⟩
      (List.forall_mem_singleton.2 hargument)

/-! ## Rows of components -/

theorem prefix_dropTrailingSpaces (nodes : List Tree) : dropTrailingSpaces nodes <+: nodes := by
  have h := List.reverse_prefix.2 (List.dropWhile_suffix (p := Node.isSpace) (l := nodes.reverse))
  rwa [List.reverse_reverse] at h

theorem last_dropTrailingSpaces (nodes : List Tree) :
    ∀ node ∈ (dropTrailingSpaces nodes).getLast?, node.typeName ≠ "Space" :=
  fun node hmem => typeName_ne_space.2 (isSpace_getLast?_dropTrailingSpaces nodes node hmem)

/-- The parts of a row, spaces among them. -/
def partTypes : List String :=
  "Space" :: componentTypes

/-- The first node of a row is no space. -/
def OpensWithPart (nodes : List Tree) : Prop :=
  ∀ node ∈ nodes.head?, node.typeName ≠ "Space"

theorem trimmed_dropTrailingSpaces {nodes : List Tree} (h : OpensWithPart nodes) :
    Trimmed (dropTrailingSpaces nodes) := by
  refine ⟨fun node hmem => ?_, last_dropTrailingSpaces nodes⟩
  obtain ⟨back, hback⟩ := prefix_dropTrailingSpaces nodes
  refine h node ?_
  rw [← hback, List.head?_append, Option.mem_def.1 hmem]
  rfl

/-- What a round over components adds: a component, or at a gap a space or nothing. -/
def AddsComponent (token : Token) : Item → Prop
  | .stop => True
  | .next items _ => (∃ node, items = [node] ∧ Shaped componentTypes node) ∨
    isGap token = true ∧ ∀ node ∈ items, node = .space none

theorem AddsComponent.all {token : Token} {result : Item} (h : AddsComponent token result) :
    Round.All (Shaped partTypes) result := by
  cases result with
  | stop => trivial
  | next items st =>
    rcases h with ⟨node, rfl, hnode⟩ | ⟨-, hspaces⟩
    · have hnode : Shaped partTypes node := hnode.mono (List.subset_cons_self _ _)
      simpa [Round.All] using hnode
    · intro node hmem
      rw [hspaces node hmem]
      exact .space (.head _)

theorem gives_addComponent {token : Token} {names : List String} {read : Parser Tree}
    (h : Gives read (Shaped names)) (hnames : names ⊆ componentTypes) :
    Gives (add read) (AddsComponent token) :=
  h.bind fun node hnode => .pure (.inl ⟨node, rfl, hnode.mono hnames⟩)

theorem gives_addSpace {token : Token} (hk : token.kind = .whitespace) :
    Gives (add space) (AddsComponent token) :=
  (gives_advance.step fun _ => .pure rfl : Gives space fun node => node = .space none).bind
    fun node hnode => .pure (.inr ⟨by simp [isGap, hk], by simpa using hnode⟩)

theorem gives_skipComment {token : Token} (hk : token.kind = .comment) :
    Gives skip (AddsComponent token) :=
  gives_advance.step fun _ => .pure (.inr ⟨by simp [isGap, hk], by simp⟩)

/-- A row that starts at a part. -/
theorem row_of_many {round : Token → Parser Item} {s s' : ParserState} {nodes : List Tree}
    (hround : ∀ token, Gives (round token) (AddsComponent token)) (hs : Spelled s.rest)
    (hgap : NoGap s.rest) (h : many round s = .ok nodes s') :
    Spelled s'.rest ∧ (∀ node ∈ nodes, Shaped partTypes node) ∧ OpensWithPart nodes := by
  obtain ⟨hs', hnodes⟩ :=
    gives_many (fun token _ => (hround token).mono fun _ => AddsComponent.all) s nodes s' hs h
  refine ⟨hs', hnodes, ?_⟩
  cases rounds_of_many h with
  | done | stop => simp [OpensWithPart]
  | next hrest hfirst hlater =>
    obtain ⟨-, ⟨node, rfl, hnode⟩ | ⟨hgap', -⟩⟩ := hround _ _ _ _ hs hfirst
    · rintro _ ⟨⟩ htype
      have htype : "Space" ∈ componentTypes := htype ▸ hnode.type
      exact absurd htype (by decide)
    · rw [NoGap, hrest] at hgap
      rw [hgap _ rfl] at hgap'
      cases hgap'

theorem gives_argumentPart (hinner : NestedShaped inner) (scope : Scope) (token : Token) :
    Gives (argumentPart inner scope token) (AddsComponent token) := by
  unfold argumentPart
  split
  next => exact .pure trivial
  next => exact .pure trivial
  next hk => exact gives_addSpace hk
  next hk => exact gives_skipComment hk
  next => exact gives_addComponent gives_hash (by decide)
  next => exact gives_addComponent (hinner.brackets scope) (by decide)
  next => exact gives_addComponent (hinner.brackets scope) (by decide)
  next => exact gives_addComponent gives_operator (by decide)
  next => exact gives_addComponent gives_operator (by decide)
  next => exact gives_addComponent gives_operator (by decide)
  next => exact gives_addComponent gives_operator (by decide)
  next => exact gives_addComponent (hinner.component scope) (List.Subset.refl _)

/-- An argument that is not empty. -/
def IsFilled (tree : Tree) : Prop :=
  Shaped ["Argument"] tree ∧ tree.children ≠ []

theorem filled_of_argumentOf (hinner : NestedShaped inner) {scope : Scope} {s s' : ParserState}
    {tree : Tree} (hs : Spelled s.rest) (hgap : NoGap s.rest)
    (h : argumentOf inner scope s = .ok tree s') : Spelled s'.rest ∧ IsFilled tree := by
  obtain ⟨nodes, s₁, hmany, h⟩ := bind_eq_ok.1 h
  obtain ⟨hs₁, hnodes, hopens⟩ := row_of_many (gives_argumentPart hinner scope) hs hgap hmany
  cases nodes with
  | nil => exact (fail_ne_ok.1 h).elim
  | cons node nodes =>
    obtain ⟨rfl, rfl⟩ := EStateM.Result.ok.inj h
    refine ⟨hs₁, shaped_argument (trimmed_dropTrailingSpaces hopens)
      fun other hmem => hnodes other ((prefix_dropTrailingSpaces _).mem hmem), ?_⟩
    rw [dropTrailingSpaces_cons_of_not (typeName_ne_space.1 (hopens node rfl))]
    simp [argument, children]

theorem filled_of_separates (hinner : NestedShaped inner) {scope : Scope} {endsAt : Token → Bool}
    {s s' : ParserState} {entries : List Tree} {missing : Bool}
    (h : Separates endsAt (argumentOf inner scope) skipGaps s entries missing s')
    (hs : Spelled s.rest) (hgap : NoGap s.rest) :
    Spelled s'.rest ∧ ∀ node ∈ entries, IsFilled node := by
  induction h with
  | missing => exact ⟨hs, nofun⟩
  | last _ hentry _ =>
    obtain ⟨hs', hfilled⟩ := filled_of_argumentOf hinner hs hgap hentry
    exact ⟨hs', by simpa using hfilled⟩
  | more _ hentry hcomma _ hbetween _ ih =>
    obtain ⟨hs₁, hfilled⟩ := filled_of_argumentOf hinner hs hgap hentry
    obtain ⟨-, rfl⟩ := EStateM.Result.ok.inj hbetween
    rw [hcomma] at hs₁
    obtain ⟨hs', hlater⟩ :=
      ih ((hs₁.of_suffix (List.suffix_cons _ _)).of_suffix (List.dropWhile_suffix _))
        (noGap_dropWhile _)
    exact ⟨hs', by simpa using ⟨hfilled, hlater⟩⟩

theorem gives_arguments (hinner : NestedShaped inner) (scope : Scope) :
    Gives (arguments inner scope) fun nodes => ∀ node ∈ nodes, IsFilled node := by
  refine (gives_expect _).step fun _ s nodes s' hs h => ?_
  rw [skipGaps_bind_run, isAt_bind_run] at h
  have hs := hs.of_suffix (List.dropWhile_suffix isGap)
  split at h
  · rw [pure_bind_run] at h
    obtain ⟨_, s₁, hclose, h⟩ := bind_eq_ok.1 h
    obtain ⟨rfl, rfl⟩ := EStateM.Result.ok.inj h
    exact ⟨(gives_expect _ _ _ _ hs hclose).1, nofun⟩
  · obtain ⟨⟨entries, missing⟩, s₁, hentries, h⟩ := bind_eq_ok.1 h
    rw [pure_bind_run] at h
    obtain ⟨hs₁, hfilled⟩ :=
      filled_of_separates hinner (separates_of_separated hentries) hs (noGap_dropWhile _)
    obtain ⟨_, s₂, hclose, h⟩ := bind_eq_ok.1 h
    obtain ⟨rfl, rfl⟩ := EStateM.Result.ok.inj h
    exact ⟨(gives_expect _ _ _ _ hs₁ hclose).1, hfilled⟩

/-- What a function with its arguments is read as. -/
def functionTypes : Scope → List String
  | .selector => ["Url", "Negation", "FunctionalPseudo"]
  | .atruleExpression | .value => ["Url", "Function"]

theorem functionTypes_subset (scope : Scope) : functionTypes scope ⊆ componentTypes := by
  cases scope <;> decide

theorem mem_functionTypes {scope : Scope} {name : String} {special : SpecialFunction}
    (h : scope.special? name = some special) :
    (match special with
      | .url => "Url"
      | .negation => "Negation"
      | .script | .variable => "Function") ∈ functionTypes scope := by
  cases scope <;> cases special <;> simp [Scope.special?, functionTypes] at h ⊢ <;> grind

theorem gives_function (hinner : NestedShaped inner) (scope : Scope) (info : Option Nat)
    (name : String) : Gives (function inner scope info name) (Shaped (functionTypes scope)) := by
  have hmono : ∀ {type : String} {node : Tree}, type ∈ functionTypes scope → Shaped [type] node →
      Shaped (functionTypes scope) node := fun htype hnode => hnode.mono (by simpa using htype)
  unfold function
  cases hspecial : scope.special? name with
  | some special =>
    have htype := mem_functionTypes hspecial
    cases special with
    | url => exact (gives_urlFunction info).mono fun _ => hmono htype
    | negation => exact (gives_negation hinner info).mono fun _ => hmono htype
    | script => exact (gives_scriptFunction info name).mono fun _ => hmono htype
    | _ => exact (gives_variableFunction hinner info name).mono fun _ => hmono htype
  | none =>
    refine (gives_arguments hinner scope).bind fun nodes hnodes => ?_
    have hshaped : ∀ node ∈ nodes, Shaped ["Argument"] node := fun node hmem => (hnodes node hmem).1
    have hfunction : Shaped ["Function"] (.sequence info (.function name) nodes : Tree) :=
      .sequence (.head _) ⟨Shaped.allOf hshaped, fun node hmem => (hnodes node hmem).2⟩ hshaped
    have hpseudo : Shaped ["FunctionalPseudo"]
        (.sequence info (.functionalPseudo name) nodes : Tree) :=
      .sequence (.head _) (Shaped.allOf hshaped) hshaped
    cases scope with
    | selector => exact .pure (hmono (by decide) hpseudo)
    | atruleExpression | value => exact .pure (hmono (by decide) hfunction)

theorem gives_named (hinner : NestedShaped inner) (scope : Scope) :
    Gives (named inner scope) (Shaped componentTypes) :=
  gives_here.step fun info => (gives_readName false).step fun name => (gives_isAt _).step fun _ =>
    .ite (fun _ => (gives_function hinner scope info name).mono fun _ h =>
      h.mono (functionTypes_subset scope)) fun _ => .pure (.leaf (by decide))

theorem gives_measured (info : Option Nat) (number : String) :
    Gives (measured info number) (Shaped componentTypes) := by
  refine gives_current?.step fun token => ?_
  split
  · refine .ite (fun _ => gives_advance.step fun _ => .pure (.leaf (by decide))) fun _ => ?_
    refine .ite (fun hk => ?_) fun _ => .pure (.leaf (by decide))
    exact (gives_readUnit hk).step fun _ => .pure (.dimension (by decide))
  · exact .pure (.leaf (by decide))

theorem gives_component (hinner : NestedShaped inner) (scope : Scope) :
    Gives (component inner scope) (Shaped componentTypes) := by
  have hsigned : Gives (signedComponent inner scope) (Shaped componentTypes) := by
    refine gives_here.step fun info => gives_readNumber?.step fun number => ?_
    split
    · exact gives_measured info _
    refine (gives_lookupKind _ _).step fun _ => (gives_lookupKind _ _).step fun _ =>
      gives_kind?.step fun _ => ?_
    split
    · exact .ite (fun _ => gives_named hinner scope)
        fun _ => gives_operator.mono fun _ h => h.mono (by decide)
    · exact gives_operator.mono fun _ h => h.mono (by decide)
    · exact .fail
  rw [component_eq]
  refine gives_kind?.step fun _ => ?_
  split
  · exact gives_tokenLeaf (by decide)
  · exact gives_named hinner scope
  · exact gives_named hinner scope
  · exact hsigned
  · exact hsigned
  · exact hsigned
  · exact hsigned
  · exact .fail

theorem gives_bracketPart (hinner : NestedShaped inner) (scope : Scope) (closing : TokenKind)
    (token : Token) : Gives (bracketPart inner scope closing token) (AddsComponent token) := by
  refine .ite (fun _ => .pure trivial) fun _ => ?_
  split
  next hk => exact gives_addSpace hk
  next hk => exact gives_skipComment hk
  next => exact gives_addComponent gives_hash (by decide)
  next => exact gives_addComponent (hinner.brackets scope) (by decide)
  next => exact gives_addComponent (hinner.brackets scope) (by decide)
  next => exact gives_addComponent gives_operator (by decide)
  next => exact gives_addComponent gives_operator (by decide)
  next => exact gives_addComponent gives_operator (by decide)
  next => exact gives_addComponent gives_operator (by decide)
  next => exact gives_addComponent (hinner.component scope) (List.Subset.refl _)

theorem gives_brackets (hinner : NestedShaped inner) (scope : Scope) :
    Gives (brackets inner scope) (Shaped ["Braces"]) := by
  refine gives_here.step fun info => (gives_isAt _).step fun round => gives_advance.step
    fun _ s tree s' hs h => ?_
  rw [skipGaps_bind_run] at h
  obtain ⟨nodes, s₁, hmany, h⟩ := bind_eq_ok.1 h
  obtain ⟨hs₁, hnodes, hopens⟩ := row_of_many (gives_bracketPart hinner scope _)
    (hs.of_suffix (List.dropWhile_suffix isGap)) (noGap_dropWhile _) hmany
  obtain ⟨_, s₂, hclose, h⟩ := bind_eq_ok.1 h
  obtain ⟨rfl, rfl⟩ := EStateM.Result.ok.inj h
  refine ⟨(gives_expect _ _ _ _ hs₁ hclose).1, ?_⟩
  have hnodes : ∀ node ∈ dropTrailingSpaces nodes, Shaped partTypes node :=
    fun node hmem => hnodes node ((prefix_dropTrailingSpaces _).mem hmem)
  have htrimmed := trimmed_dropTrailingSpaces hopens
  cases round
  · exact .sequence (.head _) ⟨by decide, Shaped.allOf hnodes, htrimmed⟩ hnodes
  · exact .sequence (.head _) ⟨by decide, Shaped.allOf hnodes, htrimmed⟩ hnodes

/-! ## Values -/

theorem gives_importantFlag : Gives importantFlag fun _ => True :=
  (gives_expect _).step fun _ => gives_skipGaps.step fun _ => (gives_expectWord _).step fun _ =>
    (gives_readName false).step fun _ => .pure trivial

theorem gives_space : Gives space (Shaped partTypes) :=
  gives_advance.step fun _ => .pure (.space (.head _))

theorem gives_valuePart (hinner : NestedShaped inner) (nested important : Bool) (token : Token) :
    Gives (valuePart inner nested important token) (Round.All (Shaped partTypes)) := by
  have hpart : ∀ {read : Parser Tree} {names : List String}, Gives read (Shaped names) →
      names ⊆ partTypes → Gives (do return .next [← read] important)
        (Round.All (σ := Bool) (Shaped partTypes)) := fun hread hnames =>
    hread.bind fun node hnode => .pure (by simpa [Round.All] using hnode.mono hnames)
  have hempty : Round.All (Shaped partTypes) (.next [] important : Round Bool Tree) := by
    simp [Round.All]
  unfold valuePart
  split
  next => exact .pure trivial
  next => exact .pure trivial
  next => exact .ite (fun _ => .pure trivial) fun _ => .fail
  next => exact hpart gives_space (List.Subset.refl _)
  next => exact gives_advance.step fun _ => .pure hempty
  next => exact hpart gives_hash (by decide)
  next => exact hpart gives_operator (by decide)
  next => exact hpart gives_operator (by decide)
  next => exact hpart (gives_brackets hinner _) (by decide)
  next => exact hpart (gives_brackets hinner _) (by decide)
  next => exact gives_importantFlag.step fun _ => .pure hempty
  next =>
    refine (gives_lookupKind _ _).step fun _ => .ite (fun _ => ?_) fun _ => ?_
    · exact hpart gives_unicodeRange (by decide)
    · exact hpart (gives_component hinner _) (by decide)
  next => exact hpart (gives_component hinner _) (by decide)

theorem gives_value (hinner : NestedShaped inner) (nested : Bool) :
    Gives (value inner nested) (Shaped ["Value"]) := by
  refine gives_here.step fun info => gives_skipGaps.step fun _ => .bind (gives_loop_all
    fun _ token _ => gives_valuePart hinner nested _ token) fun result hnodes => .pure ?_
  have hnodes : ∀ node ∈ dropTrailingSpaces result.1, Shaped partTypes node :=
    fun node hmem => hnodes node ((prefix_dropTrailingSpaces _).mem hmem)
  exact .sequence (.head _) ⟨.inr (Shaped.allOf hnodes), last_dropTrailingSpaces _⟩ hnodes

theorem gives_progid (count : Nat) : Gives (progid count) (Shaped ["Progid"]) :=
  gives_here.step fun _ => gives_skipGaps.step fun _ => gives_here.step fun _ =>
    (gives_takeMany count).step fun _ => gives_skipGaps.step fun _ =>
      .pure ⟨.head _, sound_iff.2 ⟨rfl, List.forall_mem_singleton.2 (sound_iff.2 ⟨trivial, nofun⟩)⟩⟩

theorem gives_filterValue : Gives filterValue (Shaped ["Value"]) := by
  have hround : ∀ token, Gives (progidPart token) (Round.All (Shaped ["Progid"])) := by
    refine fun _ => gives_get.step fun s => ?_
    split
    · exact gives_add (gives_progid _)
    · exact gives_stop
  have hlast : ∀ {nodes : List Tree}, (∀ node ∈ nodes, Shaped ["Progid"] node) →
      ∀ node ∈ nodes.getLast?, node.typeName ≠ "Space" := by
    intro nodes hnodes node hmem
    rw [List.mem_singleton.1 (hnodes node (List.mem_of_getLast? hmem)).type]
    decide
  refine gives_here.step fun info =>
    (gives_many fun token _ => hround token).bind fun nodes hnodes =>
    gives_skipGaps.step fun _ => (gives_isAt _).step fun _ => ?_
  refine .ite (fun _ => gives_importantFlag.step fun _ => .pure ?_) fun _ => .pure ?_
  · exact .sequence (.head _) ⟨.inl (Shaped.allOf hnodes), hlast hnodes⟩ hnodes
  · exact .sequence (.head _) ⟨.inl (Shaped.allOf hnodes), hlast hnodes⟩ hnodes

end Grammar
end StyleTree
