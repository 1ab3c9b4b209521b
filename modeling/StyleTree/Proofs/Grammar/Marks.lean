import StyleTree.Proofs.Grammar.Gives
import StyleTree.Proofs.Tree.Walk

/-! Where nodes stand among the tokens. `Marks` says of nodes in a row, each before its children,
that the positions of those that have one are starts of tokens, from left to right, and that the
tokens from there on start with the literal text of the node (`Node.OpensWith`). A reader that takes
tokens and gives their text is described by `Spanning`; a reader of nodes by `Marking`. -/

namespace StyleTree

open StyleTree.Parser

namespace Node

variable {ι κ : Type}

/-! ## The text that a node starts with -/

/-- The literal text of a leaf with its marks. -/
def leafOpening (text : List Char) : LeafKind → List Char
  | .property | .identifier | .number | .string | .operator | .nth | .raw | .unknown => text
  | .classSelector => '.' :: text
  | .idSelector | .hash => '#' :: text
  | .pseudoClass => ':' :: text
  | .pseudoElement => ':' :: ':' :: text
  | .percentage => text ++ ['%']
  | .comment => '/' :: '*' :: text
  | .combinator => []

/-- The characters start with the word, up to the case of ASCII letters. -/
def OpensWithWord (word : String) (cs : List Char) : Prop :=
  ∃ w, w <+: cs ∧ w.map Text.lowerChar = word.toList

/-- The characters start with the literal text of the node. A node that has none starts anywhere. -/
def OpensWith (cs : List Char) : Node ι → Prop
  | .leaf _ kind text => leafOpening text.toList kind <+: cs
  | .dimension _ value unit => value.toList ++ unit.toList <+: cs
  | .sequence _ (.function name) _ => name.toList ++ ['('] <+: cs
  | .sequence _ (.functionalPseudo name) _ =>
    name.toList ++ ['('] <+: cs ∨ ':' :: (name.toList ++ ['(']) <+: cs
  | .sequence _ .negation _ => OpensWithWord "not(" cs
  | .sequence _ (.braces opening _) _ => [opening] <+: cs
  | .wrapper _ .url _ => OpensWithWord "url(" cs
  | .attributeSelector .. => ['['] <+: cs
  | .atrule _ name _ _ => name.toList <+: cs
  | _ => True

theorem opensWith_mapInfo (f : ι → Option κ) (node : Node ι) (cs : List Char) :
    (node.mapInfo f).OpensWith cs ↔ node.OpensWith cs := by
  cases node with
  | sequence info kind => cases kind <;> rfl
  | pair info kind => cases kind <;> rfl
  | wrapper info kind => cases kind <;> rfl
  | _ => rfl

/-- The nodes below a node, each before its children. -/
def inside (node : Node ι) : List (Node ι) :=
  node.children.flatMap preorder

theorem preorder_eq_inside (node : Node ι) : node.preorder = node :: node.inside :=
  preorder_eq node

end Node

/-! ## Nodes among tokens -/

/-- From the first to the second list of tokens, the positions of the nodes follow each other. The
name of an at-rule comes after its sign. A dimension can take the front of an identifier with an
escape; the escape is left as a token of its own. -/
inductive Marks : List Token → List Tree → List Token → Prop where
  | nil {tokens} : Marks tokens [] tokens
  | skip {token tokens nodes rest} : Marks tokens nodes rest → Marks (token :: tokens) nodes rest
  | bare {tokens node nodes rest} : node.info = none → Marks tokens nodes rest →
    Marks tokens (node :: nodes) rest
  | mark {token tokens node nodes rest} : node.info = some token.start →
    node.OpensWith (tokenChars (token :: tokens)) → node.typeName ≠ "Atrule" →
    Marks (token :: tokens) nodes rest → Marks (token :: tokens) (node :: nodes) rest
  | atrule {sign token tokens node nodes rest} : sign.text.toList = ['@'] →
    node.info = some token.start → node.OpensWith (tokenChars (token :: tokens)) →
    Marks (token :: tokens) nodes rest → Marks (sign :: token :: tokens) (node :: nodes) rest
  | cut {token front ident tokens value unit escape nodes rest} :
    tokenChars (token :: front) = value.toList → ident.kind = .ident →
    ident.text.toList = unit ++ '\\' :: escape → unit ≠ [] →
    Marks ({ ident with text := String.ofList ('\\' :: escape),
                        start := ident.start + Text.byteLength unit } :: tokens) nodes rest →
    Marks (token :: front ++ ident :: tokens)
      (.dimension (some token.start) value (String.ofList unit) :: nodes) rest

namespace Marks

variable {tokens tokens₁ rest : List Token} {nodes later : List Tree}

theorem append (h : Marks tokens nodes tokens₁) (hlater : Marks tokens₁ later rest) :
    Marks tokens (nodes ++ later) rest := by
  induction h with
  | nil => exact hlater
  | skip _ ih => exact .skip (ih hlater)
  | bare hinfo _ ih => exact .bare hinfo (ih hlater)
  | mark hinfo hopens htype _ ih => exact .mark hinfo hopens htype (ih hlater)
  | atrule hsign hinfo hopens _ ih => exact .atrule hsign hinfo hopens (ih hlater)
  | cut hvalue hk hident hunit _ ih => exact .cut hvalue hk hident hunit (ih hlater)

theorem after (front : List Token) (h : Marks tokens nodes rest) :
    Marks (front ++ tokens) nodes rest := by
  induction front with
  | nil => exact h
  | cons token front ih => exact .skip ih

theorem of_suffix (h : rest <:+ tokens) : Marks tokens [] rest := by
  obtain ⟨front, rfl⟩ := h
  exact Marks.nil.after front

/-- A node at the current token, or at the end of input without a position. -/
theorem here {node : Tree} (hinfo : node.info = tokens.head?.map Token.start)
    (hopens : node.OpensWith (tokenChars tokens)) (htype : node.typeName ≠ "Atrule")
    (h : Marks tokens nodes rest) : Marks tokens (node :: nodes) rest := by
  cases tokens with
  | nil => exact .bare hinfo h
  | cons token tokens => exact .mark hinfo hopens htype h

/-- Spaces can be left out at the end. -/
theorem of_append (h : Marks tokens (nodes ++ later) rest)
    (hlater : ∀ node ∈ later, node.isSpace = true) :
    Marks tokens nodes rest := by
  generalize hall : nodes ++ later = all at h
  induction h generalizing nodes later with
  | nil =>
    obtain ⟨rfl, -⟩ := List.append_eq_nil_iff.1 hall
    exact .nil
  | skip _ ih => exact .skip (ih hlater hall)
  | bare hinfo _ ih =>
    rcases List.append_eq_cons_iff.1 hall with ⟨rfl, rfl⟩ | ⟨nodes, rfl, rfl⟩
    · exact ih (fun node hmem => hlater node (.tail _ hmem)) (List.nil_append _)
    · exact .bare hinfo (ih hlater rfl)
  | mark hinfo hopens htype _ ih =>
    rcases List.append_eq_cons_iff.1 hall with ⟨rfl, rfl⟩ | ⟨nodes, rfl, rfl⟩
    · exact ih (fun node hmem => hlater node (.tail _ hmem)) (List.nil_append _)
    · exact .mark hinfo hopens htype (ih hlater rfl)
  | atrule hsign hinfo hopens _ ih =>
    rcases List.append_eq_cons_iff.1 hall with ⟨rfl, rfl⟩ | ⟨nodes, rfl, rfl⟩
    · exact .skip (ih (fun node hmem => hlater node (.tail _ hmem)) (List.nil_append _))
    · exact .atrule hsign hinfo hopens (ih hlater rfl)
  | cut hvalue hk hident hunit _ ih =>
    rcases List.append_eq_cons_iff.1 hall with ⟨rfl, rfl⟩ | ⟨nodes, rfl, rfl⟩
    · exact nomatch hlater _ (.head _)
    · exact .cut hvalue hk hident hunit (ih hlater rfl)

/-- What is left is a suffix, unless a unit was cut off right before it. -/
theorem suffix (h : Marks tokens nodes rest) (hrest : rest.head?.map Token.kind ≠ some .ident) :
    rest <:+ tokens := by
  induction h with
  | nil => exact List.suffix_rfl
  | skip _ ih => exact (ih hrest).trans (List.suffix_cons _ _)
  | bare _ _ ih | mark _ _ _ _ ih => exact ih hrest
  | atrule _ _ _ _ ih => exact (ih hrest).trans (List.suffix_cons _ _)
  | cut _ hk _ _ _ ih =>
    rcases List.suffix_cons_iff.1 (ih hrest) with rfl | hsuffix
    · exact absurd (congrArg some hk) hrest
    · exact (hsuffix.trans (List.suffix_cons _ _)).trans (List.suffix_append _ _)

theorem spelled (h : Marks tokens nodes rest) (hs : Spelled tokens) : Spelled rest := by
  induction h with
  | nil => exact hs
  | skip _ ih => exact ih fun token hmem => hs token (.tail _ hmem)
  | bare _ _ ih | mark _ _ _ _ ih => exact ih hs
  | atrule _ _ _ _ ih => exact ih fun token hmem => hs token (.tail _ hmem)
  | cut _ hk _ _ _ ih =>
    refine ih fun token hmem => ?_
    rcases List.mem_cons.1 hmem with rfl | hmem
    · exact Token.isSpelled_of_ident hk
    · exact hs token (by simp [hmem])

end Marks

namespace Parser

variable {α β : Type} {x : Parser α} {f : α → Parser β}

/-! ## Readers that look -/

/-- The reader leaves the tokens as they are. -/
def Looks (x : Parser α) : Prop :=
  ∀ s a s', x s = .ok a s' → s'.rest = s.rest

theorem looks_get : Looks get := fun s _ _ h => by cases h; rfl

theorem looks_current? : Looks current? := fun s _ _ h => by cases h; rfl

theorem looks_lookup? (k : Nat) : Looks (lookup? k) := fun s _ _ h => by cases h; rfl

theorem looks_kind? : Looks kind? := fun s _ _ h => by cases h; rfl

theorem looks_isAt (kind : TokenKind) : Looks (isAt kind) := fun s _ _ h => by cases h; rfl

theorem looks_lookupKind (k : Nat) (kind : TokenKind) : Looks (lookupKind k kind) :=
  fun s _ _ h => by cases h; rfl

theorem looks_here : Looks here := fun s _ _ h => by cases h; rfl

theorem looks_expectWord (word : String) : Looks (expectWord word) :=
  fun _ _ _ h => congrArg _ (expectWord_eq_ok.1 h).1

/-! ## Readers of tokens -/

section
variable {p q : α → List Char → Prop} {r : β → List Char → Prop}

/-- The reader takes tokens from the front; `p` tells its value from their text. -/
def Spanning (x : Parser α) (p : α → List Char → Prop) : Prop :=
  ∀ s a s', Spelled s.rest → x s = .ok a s' →
    ∃ front, s.rest = front ++ s'.rest ∧ p a (tokenChars front)

namespace Spanning

theorem pure {a : α} (h : p a []) : Spanning (Pure.pure a) p := by
  rintro s _ _ hs ⟨⟩
  exact ⟨[], rfl, h⟩

theorem fail {cause : Cause} : Spanning (Parser.fail cause) p :=
  fun _ _ _ _ h => (fail_ne_ok.1 h).elim

theorem bind (hx : Spanning x p) (hf : ∀ a w, p a w → Spanning (f a) fun b v => r b (w ++ v)) :
    Spanning (x >>= f) r := by
  intro s b s' hs h
  obtain ⟨a, s₁, ha, hb⟩ := bind_eq_ok.1 h
  obtain ⟨front, hfront, hp⟩ := hx s a s₁ hs ha
  obtain ⟨back, hback, hr⟩ := hf a _ hp s₁ b s' (hs.of_suffix ⟨front, hfront.symm⟩) hb
  exact ⟨front ++ back, by rw [hfront, hback, List.append_assoc], by rwa [tokenChars_append]⟩

theorem mono (hx : Spanning x p) (h : ∀ a w, p a w → q a w) : Spanning x q := by
  intro s a s' hs ha
  obtain ⟨front, hfront, hp⟩ := hx s a s' hs ha
  exact ⟨front, hfront, h a _ hp⟩

theorem ite {c : Prop} [Decidable c] {y : Parser α} (hx : c → Spanning x p)
    (hy : ¬ c → Spanning y p) :
    Spanning (if c then x else y) p := by
  split
  · exact hx ‹_›
  · exact hy ‹_›

/-- Two ways to read what comes first, and what comes after. -/
theorem choose {c : Prop} [Decidable c] {y : Parser α} (hx : c → Spanning x p)
    (hy : ¬ c → Spanning y p) (hf : ∀ a w, p a w → Spanning (f a) fun b v => r b (w ++ v)) :
    Spanning (if c then x >>= f else y >>= f) r :=
  .ite (fun hc => (hx hc).bind hf) fun hc => (hy hc).bind hf

/-- A reader that only looks comes first. -/
theorem look (hx : Looks x) (hf : ∀ a, Spanning (f a) r) : Spanning (x >>= f) r := by
  intro s b s' hs h
  obtain ⟨a, s₁, ha, hb⟩ := bind_eq_ok.1 h
  obtain hrest := hx s a s₁ ha
  rw [← hrest] at hs ⊢
  exact hf a s₁ b s' hs hb

end Spanning

theorem spanning_take : Spanning take fun text w => text.toList = w := by
  rintro ⟨_ | ⟨token, rest⟩, discarded⟩ _ _ - ⟨⟩
  · exact ⟨[], rfl, rfl⟩
  · exact ⟨[token], rfl, by simp⟩

theorem spanning_advance : Spanning advance fun _ _ => True := by
  rintro ⟨_ | ⟨token, rest⟩, discarded⟩ _ _ - ⟨⟩
  · exact ⟨[], rfl, trivial⟩
  · exact ⟨[token], rfl, trivial⟩

theorem spanning_takeIf (kind : TokenKind) : Spanning (takeIf kind) fun text w => text.toList = w :=
  .look (looks_isAt kind) fun _ => .ite (fun _ => spanning_take) fun _ => .pure rfl

theorem spanning_takeMany (count : Nat) :
    Spanning (takeMany count) fun text w => text.toList = w := by
  rintro s _ _ - ⟨⟩
  exact ⟨s.rest.take count, (List.take_append_drop _ _).symm, toList_concat_text _⟩

theorem spanning_takeWhile (p : Token → Bool) :
    Spanning (Parser.takeWhile p) fun text w => text.toList = w :=
  .look looks_get fun _ => spanning_takeMany _

theorem spanning_skipGaps : Spanning skipGaps fun _ _ => True := by
  rintro s _ _ - ⟨⟩
  exact ⟨s.rest.takeWhile isGap, List.takeWhile_append_dropWhile.symm, trivial⟩

theorem spanning_expect {kind : TokenKind} {c : Char} (hc : kind.char? = some c) :
    Spanning (expect kind) fun _ w => w = [c] := by
  intro s _ s' hs h
  obtain ⟨token, rest, hrest, hk, rfl⟩ := expect_eq_ok.1 h
  refine ⟨[token], hrest, ?_⟩
  rw [tokenChars_cons, tokenChars_nil, List.append_nil]
  exact (hs token (by simp [hrest])).sign c (hk ▸ hc)

end

/-! ## Readers of nodes -/

section
variable {p q : α → List Tree → Prop} {r : β → List Tree → Prop}

/-- The nodes that the reader makes stand among the tokens that it takes; `p` tells them from its
value. -/
def Marking (x : Parser α) (p : α → List Tree → Prop) : Prop :=
  ∀ s a s', Spelled s.rest → x s = .ok a s' → ∃ nodes, Marks s.rest nodes s'.rest ∧ p a nodes

namespace Marking

theorem pure {a : α} (h : p a []) : Marking (Pure.pure a) p := by
  rintro s _ _ hs ⟨⟩
  exact ⟨[], .nil, h⟩

theorem fail {cause : Cause} : Marking (Parser.fail cause) p :=
  fun _ _ _ _ h => (fail_ne_ok.1 h).elim

theorem bind (hx : Marking x p)
    (hf : ∀ a nodes, p a nodes → Marking (f a) fun b later => r b (nodes ++ later)) :
    Marking (x >>= f) r := by
  intro s b s' hs h
  obtain ⟨a, s₁, ha, hb⟩ := bind_eq_ok.1 h
  obtain ⟨nodes, hnodes, hp⟩ := hx s a s₁ hs ha
  obtain ⟨later, hlater, hr⟩ := hf a nodes hp s₁ b s' (hnodes.spelled hs) hb
  exact ⟨nodes ++ later, hnodes.append hlater, hr⟩

theorem mono (hx : Marking x p) (h : ∀ a nodes, p a nodes → q a nodes) : Marking x q := by
  intro s a s' hs ha
  obtain ⟨nodes, hnodes, hp⟩ := hx s a s' hs ha
  exact ⟨nodes, hnodes, h a nodes hp⟩

theorem ite {c : Prop} [Decidable c] {y : Parser α} (hx : c → Marking x p)
    (hy : ¬ c → Marking y p) :
    Marking (if c then x else y) p := by
  split
  · exact hx ‹_›
  · exact hy ‹_›

/-- A reader that makes no nodes comes first. -/
theorem step {w : α → List Char → Prop} (hx : Spanning x w) (hf : ∀ a, Marking (f a) r) :
    Marking (x >>= f) r := by
  intro s b s' hs h
  obtain ⟨a, s₁, ha, hb⟩ := bind_eq_ok.1 h
  obtain ⟨front, hfront, -⟩ := hx s a s₁ hs ha
  obtain ⟨nodes, hnodes, hr⟩ := hf a s₁ b s' (hs.of_suffix ⟨front, hfront.symm⟩) hb
  exact ⟨nodes, hfront ▸ hnodes.after front, hr⟩

/-- A reader that only looks comes first. -/
theorem look (hx : Looks x) (hf : ∀ a, Marking (f a) r) : Marking (x >>= f) r := by
  intro s b s' hs h
  obtain ⟨a, s₁, ha, hb⟩ := bind_eq_ok.1 h
  have hrest := hx s a s₁ ha
  rw [← hrest] at hs ⊢
  exact hf a s₁ b s' hs hb

/-- A value that is known comes first. -/
theorem value {a : α} (h : Marking (f a) r) : Marking (Pure.pure a >>= f) r := by
  rwa [pure_bind]

/-- Two ways to read what comes first, and what comes after. -/
theorem choose {c : Prop} [Decidable c] {y : Parser α} (hx : c → Marking x p)
    (hy : ¬ c → Marking y p)
    (hf : ∀ a nodes, p a nodes → Marking (f a) fun b later => r b (nodes ++ later)) :
    Marking (if c then x >>= f else y >>= f) r :=
  .ite (fun hc => (hx hc).bind hf) fun hc => (hy hc).bind hf

end Marking

end

/-- The reader makes a tree whose nodes stand among the tokens. -/
def MarkingTree (x : Parser Tree) : Prop :=
  Marking x fun tree nodes => nodes = tree.preorder

/-- The nodes are those inside of the tree, which has the given position and starts with the given
text. -/
structure Opened (info : Option Nat) (text : List Char) (tree : Tree)
    (nodes : List Tree) : Prop where
  nodes_eq : nodes = tree.inside
  info_eq : tree.info = info
  notAtrule : tree.typeName ≠ "Atrule"
  opens : ∀ cs, tree.OpensWith (text ++ cs)

/-- After some text, which has been read, the reader makes what is inside of a tree with the given
position, and the tree starts with its literal text there. -/
def MarkingInside (x : Parser Tree) (info : Option Nat) (text : List Char) : Prop :=
  ∀ s tree s', Spelled s.rest → x s = .ok tree s' → Marks s.rest tree.inside s'.rest ∧
    tree.info = info ∧ tree.typeName ≠ "Atrule" ∧ tree.OpensWith (text ++ tokenChars s.rest)

namespace MarkingInside

variable {info : Option Nat} {text : List Char} {p : α → List Char → Prop} {f : α → Parser Tree}

theorem fail {cause : Cause} : MarkingInside (Parser.fail cause) info text :=
  fun _ _ _ _ h => (fail_ne_ok.1 h).elim

theorem ite {c : Prop} [Decidable c] {x y : Parser Tree} (hx : c → MarkingInside x info text)
    (hy : ¬ c → MarkingInside y info text) : MarkingInside (if c then x else y) info text := by
  split
  · exact hx ‹_›
  · exact hy ‹_›

/-- More text is read. -/
theorem step (hx : Spanning x p) (hf : ∀ a w, p a w → MarkingInside (f a) info (text ++ w)) :
    MarkingInside (x >>= f) info text := by
  intro s tree s' hs h
  obtain ⟨a, s₁, ha, hb⟩ := bind_eq_ok.1 h
  obtain ⟨front, hfront, hp⟩ := hx s a s₁ hs ha
  obtain ⟨hnodes, hinfo, htype, hopens⟩ :=
    hf a _ hp s₁ tree s' (hs.of_suffix ⟨front, hfront.symm⟩) hb
  refine ⟨hfront ▸ hnodes.after front, hinfo, htype, ?_⟩
  rwa [hfront, tokenChars_append, ← List.append_assoc]

theorem look {x : Parser α} (hx : Looks x) (hf : ∀ a, MarkingInside (f a) info text) :
    MarkingInside (x >>= f) info text := by
  intro s tree s' hs h
  obtain ⟨a, s₁, ha, hb⟩ := bind_eq_ok.1 h
  have hrest := hx s a s₁ ha
  rw [← hrest] at hs ⊢
  exact hf a s₁ tree s' hs hb

/-- The text that was read is that of a leaf. -/
theorem leaf {kind : LeafKind} {name : String} (h : Node.leafOpening name.toList kind <+: text) :
    MarkingInside (Pure.pure (.leaf info kind name)) info text := by
  rintro s _ _ hs ⟨⟩
  refine ⟨.nil, rfl, ?_, h.trans (List.prefix_append _ _)⟩
  cases kind <;> simp [Node.typeName, LeafKind.name]

/-- The tree starts with the text that was read, and goes on with the nodes inside. -/
theorem rest {x : Parser Tree} (h : Marking x (Opened info text)) : MarkingInside x info text := by
  intro s tree s' hs hread
  obtain ⟨_, hnodes, rfl, hinfo, htype, hopens⟩ := h s tree s' hs hread
  exact ⟨hnodes, hinfo, htype, hopens _⟩

theorem marks {x : Parser Tree} {s s' : ParserState} {tree : Tree}
    (h : MarkingInside x (s.rest.head?.map Token.start) []) (hs : Spelled s.rest)
    (hread : x s = .ok tree s') : Marks s.rest tree.preorder s'.rest := by
  obtain ⟨hnodes, hinfo, htype, hopens⟩ := h s tree s' hs hread
  rw [Node.preorder_eq_inside]
  exact .here hinfo hopens htype hnodes

end MarkingInside

/-- A tree that is placed where it starts. -/
theorem MarkingTree.here {f : Option Nat → Parser Tree}
    (h : ∀ info, MarkingInside (f info) info []) :
    MarkingTree (here >>= f) := by
  intro s tree s' hs hread
  rw [here_bind_run] at hread
  exact ⟨_, (h _).marks hs hread, rfl⟩

/-! ## Loops -/

/-- The nodes of the trees that a round adds. -/
def Round.nodes {σ : Type} : Round σ Tree → List Tree
  | .stop => []
  | .next items _ => items.flatMap Node.preorder

/-- A round at the given token makes nodes that stand among the tokens. -/
def RoundMarks {σ : Type} (x : Parser (Round σ Tree)) (token : Token) : Prop :=
  ∀ s result s', s.rest.head? = some token → Spelled s.rest → x s = .ok result s' →
    Marks s.rest result.nodes s'.rest

namespace RoundMarks

variable {σ : Type} {token : Token} {st : σ}

theorem of_marking {x : Parser (Round σ Tree)}
    (h : Marking x fun result nodes => nodes = result.nodes) :
    RoundMarks x token := by
  intro s result s' _ hs hread
  obtain ⟨_, hnodes, rfl⟩ := h s result s' hs hread
  exact hnodes

theorem ite {c : Prop} [Decidable c] {x y : Parser (Round σ Tree)} (hx : c → RoundMarks x token)
    (hy : ¬ c → RoundMarks y token) : RoundMarks (if c then x else y) token := by
  split
  · exact hx ‹_›
  · exact hy ‹_›

theorem fail {cause : Cause} : RoundMarks (Parser.fail cause : Parser (Round σ Tree)) token :=
  .of_marking .fail

theorem stop : RoundMarks (Pure.pure (.stop : Round σ Tree)) token :=
  .of_marking (.pure rfl)

/-- The round only looks at what is to come first. -/
theorem look {x : Parser α} {f : α → Parser (Round σ Tree)} (hx : Looks x)
    (hf : ∀ a, RoundMarks (f a) token) : RoundMarks (x >>= f) token := by
  intro s result s' hhead hs h
  obtain ⟨a, s₁, ha, hb⟩ := bind_eq_ok.1 h
  have hrest := hx s a s₁ ha
  rw [← hrest] at hhead hs ⊢
  exact hf a s₁ result s' hhead hs hb

/-- A round that reads tokens and makes no node. -/
theorem skip {w : α → List Char → Prop} (hx : Spanning x w) :
    RoundMarks (x >>= fun _ => Pure.pure (.next [] st)) token :=
  .of_marking (.step hx fun _ => .pure rfl)

/-- A round that adds a tree. -/
theorem part {read : Parser Tree} (h : ∀ s tree s', s.rest.head? = some token → Spelled s.rest →
    read s = .ok tree s' → Marks s.rest tree.preorder s'.rest) :
    RoundMarks (read >>= fun node => Pure.pure (.next [node] st)) token := by
  intro s result s' hhead hs hread
  obtain ⟨tree, s₁, htree, hread⟩ := bind_eq_ok.1 hread
  obtain ⟨rfl, rfl⟩ := EStateM.Result.ok.inj hread
  have hnodes := h s tree s₁ hhead hs htree
  rwa [Round.nodes, List.flatMap_singleton]

theorem tree {read : Parser Tree} (h : MarkingTree read) :
    RoundMarks (read >>= fun node => Pure.pure (.next [node] st)) token :=
  part fun s tree s' _ hs hread => by
    obtain ⟨_, hnodes, rfl⟩ := h s tree s' hs hread
    exact hnodes

end RoundMarks

theorem Rounds.marks {σ : Type} {round : σ → Token → Parser (Round σ Tree)} {st last : σ}
    {s s' : ParserState} {items : List Tree} (h : Rounds round st s items last s')
    (hround : ∀ st token, RoundMarks (round st token) token) (hs : Spelled s.rest) :
    Marks s.rest (items.flatMap Node.preorder) s'.rest := by
  induction h with
  | done => exact .nil
  | stop hrest h => exact hround _ _ _ _ _ (by rw [hrest]; rfl) hs h
  | next hrest h _ ih =>
    have hfirst := hround _ _ _ _ _ (by rw [hrest]; rfl) hs h
    rw [List.flatMap_append]
    exact hfirst.append (ih (hfirst.spelled hs))

theorem marking_loop {σ : Type} {round : σ → Token → Parser (Round σ Tree)} {st : σ}
    (hround : ∀ st token, RoundMarks (round st token) token) :
    Marking (loop round st) fun result nodes => nodes = result.1.flatMap Node.preorder :=
  fun _ _ _ hs h => ⟨_, (rounds_of_loop h).marks hround hs, rfl⟩

theorem marking_many {round : Token → Parser Item}
    (hround : ∀ token, RoundMarks (round token) token) :
    Marking (many round) fun trees nodes => nodes = trees.flatMap Node.preorder :=
  fun _ _ _ hs h => ⟨_, (rounds_of_many h).marks (fun _ => hround) hs, rfl⟩

theorem marking_separated {endsAt : Token → Bool} {entry : Parser Tree} {between : Parser Unit}
    {w : Unit → List Char → Prop} (hentry : MarkingTree entry) (hbetween : Spanning between w) :
    Marking (separated endsAt entry between) fun result nodes =>
      nodes = result.1.flatMap Node.preorder := by
  refine marking_loop fun due token => .ite (fun _ => .stop) fun _ => .of_marking ?_
  refine .bind hentry fun tree nodes hnodes => .look (looks_isAt _) fun _ =>
    .ite (fun _ => .step spanning_advance fun _ => .step hbetween fun _ => .pure ?_) fun _ =>
      .pure ?_
  · rw [hnodes, List.append_nil, Round.nodes, List.flatMap_singleton]
  · rw [hnodes, List.append_nil, Round.nodes, List.flatMap_singleton]

end Parser
end StyleTree
