import StyleTree.Grammar.Rule
import StyleTree.Proofs.Grammar.Declaration
import StyleTree.Proofs.Grammar.Selector

/-! The look-ahead of at-rules. The body of an at-rule holds declarations if a closing brace comes
before every opening brace and every at-sign (`holdsDeclarations`). Readers that open no bracket
step over none of these signs (`Skims`). No bracket is opened where none stands among the tokens, or
where the tree that is read is plain; so declarations that are read from any text with the same
plain tree are found by the look-ahead there too (`holdsDeclarations_of_rounds`), and so are rules
(`holdsDeclarations_of_selector`). -/

namespace StyleTree

open StyleTree.Parser StyleTree.Grammar

variable {tokens rest : List Token} {token : Token}

/-- Kinds that neither open nor close anything and do not start an at-rule. -/
def TokenKind.isLoose : TokenKind → Bool
  | .leftBrace | .rightBrace | .leftParen | .rightParen | .commercialAt => false
  | _ => true

theorem ScanState.after_of_isLoose {kind : TokenKind} (h : kind.isLoose = true) (state : ScanState)
    (w : List Char) : (state.after kind w).calm = state.calm := by
  cases kind <;> first | rfl | exact nomatch h

/-- The second list is left of the first after stepping over loose tokens. An identifier with an
escape can be shortened from the front. -/
inductive Skims : List Token → List Token → Prop where
  | refl {tokens : List Token} : Skims tokens tokens
  | token {token : Token} {tokens : List Token} : token.kind.isLoose = true →
      Skims (token :: tokens) tokens
  | cut {token token' : Token} {tokens : List Token} : token.kind = .ident →
    '\\' ∈ token.text.toList → token'.kind = .ident → Skims (token :: tokens) (token' :: tokens)
  | trans {tokens tokens₁ tokens₂ : List Token} : Skims tokens tokens₁ → Skims tokens₁ tokens₂ →
    Skims tokens tokens₂

namespace Skims

theorem of_forall {front : List Token} (h : ∀ token ∈ front, token.kind.isLoose = true) :
    Skims (front ++ rest) rest := by
  induction front with
  | nil => exact .refl
  | cons token front ih =>
    exact .trans (.token (h token (.head _))) (ih fun token hmem => h token (.tail _ hmem))

theorem holdsDeclarations_eq (h : Skims tokens rest) :
    holdsDeclarations tokens = holdsDeclarations rest := by
  induction h with
  | refl => rfl
  | @token token tokens hk =>
    rw [holdsDeclarations]
    cases hkind : token.kind <;> first | rfl | (rw [hkind] at hk; exact nomatch hk)
  | cut hk _ hk' => simp only [holdsDeclarations, hk, hk']
  | trans _ _ ih₁ ih₂ => exact ih₁.trans ih₂

theorem forall_kind {P : TokenKind → Prop} (h : Skims tokens rest) (hident : P .ident)
    (htokens : ∀ token ∈ tokens, P token.kind) : ∀ token ∈ rest, P token.kind := by
  induction h with
  | refl => exact htokens
  | token => exact fun token hmem => htokens token (.tail _ hmem)
  | cut _ _ hk' =>
    intro token hmem
    rcases List.mem_cons.1 hmem with rfl | hmem
    · rwa [hk']
    · exact htokens token (.tail _ hmem)
  | trans _ _ ih₁ ih₂ => exact ih₂ (ih₁ htokens)

/-- Where there are no escapes, skimming leaves the scanner as it was. -/
theorem scans (h : Skims tokens rest) {p : Place} (hp : p.Scans tokens) (hfirm : p.firm = .firm) :
    ∃ p' : Place, p'.Scans rest ∧ p'.firm = p.firm ∧ p'.state.calm = p.state.calm := by
  induction h generalizing p with
  | refl => exact ⟨p, hp, rfl, rfl⟩
  | @token token tokens hk =>
    obtain ⟨cs, -, -, hrest⟩ := hp.cons
    exact ⟨_, hrest, rfl, ScanState.after_of_isLoose hk _ _⟩
  | cut _ hescape _ => exact absurd hescape (hp.isFirm hfirm _ (.head _)).1
  | trans _ _ ih₁ ih₂ =>
    obtain ⟨p₁, hp₁, hfirm₁, hstate₁⟩ := ih₁ hp hfirm
    obtain ⟨p₂, hp₂, hfirm₂, hstate₂⟩ := ih₂ hp₁ (hfirm₁ ▸ hfirm)
    exact ⟨p₂, hp₂, hfirm₂.trans hfirm₁, hstate₂.trans hstate₁⟩

end Skims

/-- No bracket is opened. -/
def NoBrackets (tokens : List Token) : Prop :=
  ∀ token ∈ tokens, token.kind ≠ .leftParen ∧ token.kind ≠ .leftBracket

theorem Skims.noBrackets (h : Skims tokens rest) (hbrackets : NoBrackets tokens) :
    NoBrackets rest :=
  h.forall_kind (P := fun kind => kind ≠ .leftParen ∧ kind ≠ .leftBracket) (by decide) hbrackets

/-- The node has no children and no text of its own brackets. -/
def Node.isPlain {ι : Type} : Node ι → Bool
  | .leaf .. | .dimension .. | .space .. => true
  | _ => false

/-- The nodes that stand `depth` levels below the node are plain. -/
def Node.PlainAt {ι : Type} : Nat → Node ι → Prop
  | 0, node => node.isPlain = true
  | depth + 1, node => ∀ child ∈ node.children, child.PlainAt depth

theorem Node.isPlain_bare {ι : Type} (node : Node ι) : node.bare.isPlain = node.isPlain := by
  cases node <;> rfl

theorem Node.plainAt_bare {ι : Type} {depth : Nat} {node : Node ι} :
    node.bare.PlainAt depth ↔ node.PlainAt depth := by
  induction depth generalizing node with
  | zero => rw [PlainAt, PlainAt, isPlain_bare]
  | succ depth ih => simp only [PlainAt, children_bare, List.mem_map, forall_exists_index, and_imp,
      forall_apply_eq_imp_iff₂, ih]

theorem Node.plainAt_of_bare_eq {ι : Type} {depth : Nat} {node node' : Node ι}
    (h : node'.bare = node.bare) (hplain : node.PlainAt depth) : node'.PlainAt depth := by
  rw [← plainAt_bare, h, plainAt_bare]
  exact hplain

namespace Grammar

variable {inner : Nested} {nested : Bool} {scope : Scope} {s s' : ParserState} {tree node : Tree}
  {nodes : List Tree} {α β : Type}

/-! ## Readers of leaves -/

/-- The reader steps over loose tokens only. -/
def Skimming (x : Parser α) : Prop :=
  ∀ s a s', x s = .ok a s' → Skims s.rest s'.rest

theorem Skimming.pure (a : α) : Skimming (pure a : Parser α) := by
  intro s a s' h
  obtain ⟨-, rfl⟩ := EStateM.Result.ok.inj h
  exact .refl

theorem Skimming.bind {x : Parser α} {f : α → Parser β} (hx : Skimming x)
    (hf : ∀ a, Skimming (f a)) : Skimming (x >>= f) := by
  intro s b s' h
  obtain ⟨a, s₁, hread, h⟩ := bind_eq_ok.1 h
  exact .trans (hx _ _ _ hread) (hf a _ _ _ h)

theorem skims_tail (h : ∀ token ∈ s.rest.head?, token.kind.isLoose = true) :
    Skims s.rest s.rest.tail := by
  cases hs : s.rest with
  | nil => exact .refl
  | cons token rest => exact .token (h token (by rw [hs]; rfl))

theorem skims_dropWhile {p : Token → Bool} (h : ∀ token, p token = true → token.kind.isLoose = true)
    (tokens : List Token) : Skims tokens (tokens.dropWhile p) := by
  have hfront : Skims (tokens.takeWhile p ++ tokens.dropWhile p) (tokens.dropWhile p) :=
    .of_forall fun token hmem => h token (List.mem_takeWhile_imp hmem)
  rwa [List.takeWhile_append_dropWhile] at hfront

theorem skims_skipGaps (tokens : List Token) : Skims tokens (tokens.dropWhile isGap) := by
  refine skims_dropWhile (fun token h => ?_) tokens
  rw [isGap, Bool.or_eq_true, decide_eq_true_eq, decide_eq_true_eq] at h
  rcases h with hk | hk <;> rw [hk] <;> rfl

theorem skimming_expect {kind : TokenKind} (hkind : kind.isLoose = true) :
    Skimming (expect kind) := by
  intro s a s' h
  obtain ⟨token, rest, hs, hk, rfl⟩ := expect_eq_ok.1 h
  rw [hs]
  exact .token (hk ▸ hkind)

theorem skimming_takeIf {kind : TokenKind} (hkind : kind.isLoose = true) :
    Skimming (takeIf kind) := by
  intro s a s' h
  rw [takeIf_eq] at h
  split at h
  next hk =>
    obtain ⟨-, rfl⟩ := EStateM.Result.ok.inj h
    refine skims_tail fun token hmem => ?_
    rw [Option.mem_def.1 hmem] at hk
    exact Option.some.inj hk ▸ hkind
  next =>
    obtain ⟨-, rfl⟩ := EStateM.Result.ok.inj h
    exact .refl

theorem isLoose_of_isNamePart (h : isNamePart token = true) : token.kind.isLoose = true := by
  rw [isNamePart] at h
  cases hk : token.kind <;> first | rfl | simp [hk] at h

theorem skimming_nameAfter (hyphens : String) : Skimming (nameAfter hyphens) := by
  intro s name s' h
  obtain ⟨first, more, hs, -, -, hfirst, hmore, -⟩ := nameAfter_eq_ok.1 h
  rw [hs]
  refine .of_forall fun token hmem => ?_
  rcases List.mem_cons.1 hmem with rfl | hmem
  · rcases hfirst with hk | hk <;> rw [hk] <;> rfl
  · exact isLoose_of_isNamePart (hmore token hmem)

theorem skimming_readName (custom : Bool) : Skimming (readName custom) := by
  have heq : readName custom = (takeIf .hyphenMinus >>= fun hyphen =>
      if custom && hyphen ≠ "" then takeIf .hyphenMinus >>= fun second =>
        nameAfter (hyphen ++ second)
      else nameAfter (hyphen ++ "")) := rfl
  rw [heq]
  refine .bind (skimming_takeIf rfl) fun hyphen => ?_
  split
  · exact .bind (skimming_takeIf rfl) fun _ => skimming_nameAfter _
  · exact skimming_nameAfter _

theorem skims_tokenLeaf {kind : LeafKind} {token : Token} {rest : List Token}
    (hs : s.rest = token :: rest) (hk : token.kind.isLoose = true)
    (h : tokenLeaf kind s = .ok tree s') : tree.isPlain = true ∧ Skims s.rest s'.rest := by
  rw [tokenLeaf_eq hs] at h
  obtain ⟨rfl, rfl⟩ := EStateM.Result.ok.inj h
  rw [hs]
  exact ⟨rfl, .token hk⟩

theorem isPlain_of_bare_eq {kind : LeafKind} {text : String}
    (h : tree.bare = .leaf none kind text) :
    tree.isPlain = true := by
  rw [← Node.isPlain_bare, h]
  rfl

theorem skims_hash (h : hash s = .ok tree s') : tree.isPlain = true ∧ Skims s.rest s'.rest := by
  obtain ⟨tokens, hs, hhash, hbare⟩ := isHash_of_hash h
  refine ⟨isPlain_of_bare_eq hbare, hs ▸ .of_forall fun token hmem => ?_⟩
  cases hhash <;> simp only [List.mem_cons, List.not_mem_nil, or_false] at hmem <;>
    rcases hmem with rfl | rfl | rfl <;> simp [TokenKind.isLoose, *]

theorem skims_unicodeRange {sign plus : Token} {rest : List Token}
    (hs : s.rest = sign :: plus :: rest) (hsign : sign.kind = .ident) (hplus : plus.kind = .plus)
    (h : unicodeRange s = .ok tree s') :
    tree.isPlain = true ∧ Skims s.rest s'.rest := by
  obtain ⟨tokens, hs', hrange⟩ := isRange_of_unicodeRange hs hsign hplus h
  obtain ⟨rfl, -⟩ := EStateM.Result.ok.inj ((unicodeRange_of_isRange hrange hs').symm.trans h)
  refine ⟨rfl, hs' ▸ .of_forall fun token hmem => ?_⟩
  rcases hrange.kinds token hmem with hk | hk | hk | hk | hk <;> rw [hk] <;> rfl

theorem skims_takeMany {count : Nat} (h : numberLength? s.rest = some count) :
    Skims s.rest (s.rest.drop count) := by
  have hfront : Skims (s.rest.take count ++ s.rest.drop count) (s.rest.drop count) :=
    .of_forall fun token hmem => by
      rcases numberLength?_kinds h token hmem with hk | hk | hk <;> rw [hk] <;> rfl
  rwa [List.take_append_drop] at hfront

theorem skims_readUnit {token : Token} {rest : List Token} {unit : String}
    (hs : s.rest = token :: rest) (hk : token.kind = .ident) (h : readUnit token s = .ok unit s') :
    Skims s.rest s'.rest := by
  rcases readUnit_cases token with hwhole | ⟨unit', escape, htext, hunit, hne⟩
  · obtain ⟨-, rfl⟩ := EStateM.Result.ok.inj ((readUnit_whole hs hwhole).symm.trans h)
    rw [hs]
    exact .token (by rw [hk]; rfl)
  · obtain ⟨-, rfl⟩ := EStateM.Result.ok.inj ((readUnit_cut hs htext hunit hne).symm.trans h)
    rw [hs]
    exact .cut hk (by simp [htext]) hk

theorem skims_measured {info : Option Nat} {number : String}
    (h : measured info number s = .ok tree s') :
    tree.isPlain = true ∧ Skims s.rest s'.rest := by
  have hnumber :
      ∀ {tree s'}, (.ok (.leaf info .number number) s : EStateM.Result Failure ParserState Tree) =
      .ok tree s' → tree.isPlain = true ∧ Skims s.rest s'.rest := by
    intro tree s' h
    obtain ⟨rfl, rfl⟩ := EStateM.Result.ok.inj h
    exact ⟨rfl, .refl⟩
  cases hs : s.rest with
  | nil =>
    rw [measured_number (by simp [hs]) (by simp [hs])] at h
    exact hs ▸ hnumber h
  | cons token rest =>
    by_cases hpercent : token.kind = .percentSign
    · obtain ⟨rfl, rfl⟩ := EStateM.Result.ok.inj ((measured_percent hs hpercent).symm.trans h)
      exact ⟨rfl, .token (by rw [hpercent]; rfl)⟩
    by_cases hident : token.kind = .ident
    · rw [measured, current?_bind_run, hs, List.head?_cons] at h
      simp only [hident, reduceCtorEq, if_false, if_true] at h
      obtain ⟨unit, s₁, hunit, h⟩ := bind_eq_ok.1 h
      obtain ⟨rfl, rfl⟩ := EStateM.Result.ok.inj h
      exact ⟨rfl, hs ▸ skims_readUnit hs hident hunit⟩
    · rw [measured_number (by simp [hs, hpercent]) (by simp [hs, hident])] at h
      exact hs ▸ hnumber h

/-! ## Readers that can open a bracket -/

/-- The nodes `depth` levels below those that are read are plain and only loose tokens are stepped
over, if no bracket stands among the tokens or the nodes are known to be plain. -/
def PlainlyReads (depth : Nat) (s : ParserState) (nodes : List Tree) (s' : ParserState) : Prop :=
  (NoBrackets s.rest ∨ ∀ node ∈ nodes, node.PlainAt depth) →
    (∀ node ∈ nodes, node.PlainAt depth) ∧ Skims s.rest s'.rest

namespace PlainlyReads

variable {depth : Nat} {s₁ : ParserState} {later : List Tree}

theorem of_plain (htree : tree.isPlain = true) (h : Skims s.rest s'.rest) :
    PlainlyReads 0 s [tree] s' :=
  fun _ => ⟨by simpa [Node.PlainAt] using htree, h⟩

theorem nil (h : Skims s.rest s'.rest) : PlainlyReads depth s [] s' :=
  fun _ => ⟨nofun, h⟩

theorem of_bracket {token : Token} {rest : List Token} (hs : s.rest = token :: rest)
    (hk : token.kind = .leftParen ∨ token.kind = .leftBracket) (htree : tree.isPlain = false) :
    PlainlyReads 0 s [tree] s' := by
  rintro (hbrackets | hplain)
  · have := hbrackets token (by simp [hs])
    exact absurd hk (by simp [this])
  · have hplain : tree.isPlain = true := hplain tree (by simp)
    rw [htree] at hplain
    exact nomatch hplain

theorem of_skims (h : PlainlyReads depth s₁ nodes s') (hskims : Skims s.rest s₁.rest) :
    PlainlyReads depth s nodes s' := by
  intro hplain
  obtain ⟨hplain, hskims'⟩ := h (hplain.imp_left hskims.noBrackets)
  exact ⟨hplain, hskims.trans hskims'⟩

theorem append (h : PlainlyReads depth s nodes s₁) (hlater : PlainlyReads depth s₁ later s') :
    PlainlyReads depth s (nodes ++ later) s' := by
  intro hplain
  obtain ⟨hnodes, hskims⟩ := h (hplain.imp_right fun hall node hmem =>
    hall node (List.mem_append_left _ hmem))
  obtain ⟨hlater, hskims'⟩ := hlater (hplain.imp hskims.noBrackets fun hall node hmem =>
    hall node (List.mem_append_right _ hmem))
  refine ⟨fun node hmem => ?_, hskims.trans hskims'⟩
  exact (List.mem_append.1 hmem).elim (hnodes node) (hlater node)

/-- What is read as the children of a node is read one level deeper. -/
theorem children (h : PlainlyReads depth s nodes s') (htree : tree.children = nodes) :
    PlainlyReads (depth + 1) s [tree] s' := by
  intro hplain
  obtain ⟨hnodes, hskims⟩ := h (hplain.imp_right fun hall => htree ▸ hall tree (by simp))
  refine ⟨fun node hmem => ?_, hskims⟩
  rw [List.mem_singleton.1 hmem, Node.PlainAt, htree]
  exact hnodes

/-- The nodes that are read before by a loop, whose rounds each read plainly. -/
theorem of_rounds {σ : Type} {round : σ → Token → Parser (Round σ Tree)} {st last : σ}
    (inv : σ → Prop) (hstop : ∀ {st token s s'}, round st token s = .ok .stop s' → s' = s)
    (hnext : ∀ {st s token rest items st₁ s₁}, inv st → s.rest = token :: rest →
      round st token s = .ok (.next items st₁) s₁ → inv st₁ ∧ PlainlyReads depth s items s₁)
    (h : Rounds round st s nodes last s') (hst : inv st) : PlainlyReads depth s nodes s' := by
  induction h with
  | done => exact .nil .refl
  | stop _ hround =>
    obtain rfl := hstop hround
    exact .nil .refl
  | next hs hround _ ih =>
    obtain ⟨hst₁, hitems⟩ := hnext hst hs hround
    exact hitems.append (ih hst₁)

end PlainlyReads

/-- The reader yields no plain node. -/
def Nests (x : Parser Tree) : Prop :=
  ∀ s tree s', x s = .ok tree s' → tree.isPlain = false

theorem Nests.pure (h : tree.isPlain = false) : Nests (pure tree : Parser Tree) := by
  intro s tree' s' hread
  obtain ⟨rfl, -⟩ := EStateM.Result.ok.inj hread
  exact h

theorem Nests.bind {x : Parser α} {f : α → Parser Tree} (hf : ∀ a, Nests (f a)) :
    Nests (x >>= f) := by
  intro s tree s' h
  obtain ⟨a, s₁, -, h⟩ := bind_eq_ok.1 h
  exact hf a _ _ _ h

theorem nests_function {info : Option Nat} {name : String} :
    Nests (function inner scope info name) := by
  rw [function]
  cases scope.special? name with
  | none =>
    refine .bind fun nodes => ?_
    cases scope <;> exact .pure rfl
  | some special =>
    cases special with
    | url =>
      refine .bind fun _ => .bind fun _ => .bind fun atString => ?_
      dsimp only
      split
      · exact .bind fun _ => .bind fun _ => .bind fun _ => .pure rfl
      · exact .bind fun _ => .bind fun _ => .bind fun _ => .bind fun _ => .bind fun _ => .pure rfl
    | negation => exact .bind fun _ => .bind fun _ => .bind fun _ => .pure rfl
    | script => exact .bind fun _ => .bind fun _ => .bind fun _ => .bind fun _ => .pure rfl
    | «variable» =>
      refine .bind fun _ => .bind fun _ => .bind fun _ => .bind fun _ => .bind fun atComma => ?_
      dsimp only
      split
      · exact .bind fun _ => .bind fun _ => .bind fun _ => .bind fun _ => .bind fun _ =>
          .bind fun _ => .pure rfl
      · exact .bind fun _ => .bind fun _ => .pure rfl

theorem nests_brackets : Nests (brackets inner scope) := by
  refine .bind fun _ => .bind fun _ => .bind fun _ => .bind fun _ => .bind fun _ =>
    .bind fun _ => .pure rfl

theorem nests_attributeSelector : Nests attributeSelector := by
  have hend : ∀ (info : Option Nat) (name : Tree) (test : Option (String × Tree)), Nests (do
      let flags ← attributeFlags
      expect .rightBracket
      return .attributeSelector info name (test.map Prod.fst) (test.map Prod.snd) flags) :=
    fun _ _ _ => .bind fun _ => .bind fun _ => .pure rfl
  refine .bind fun info => .bind fun _ => .bind fun _ => .bind fun name => .bind fun _ =>
    .bind fun kind => ?_
  cases kind with
  | none => exact hend info name none
  | some kind =>
    cases kind with
    | rightBracket | ident => exact hend info name none
    | _ => exact .bind fun test => hend info name (some test)

/-- A function is read where a parenthesis stands. -/
theorem plainlyReads_function {info : Option Nat} {name : String}
    (hparen : s.rest.head?.map Token.kind = some .leftParen)
    (h : function inner scope info name s = .ok tree s') : PlainlyReads 0 s [tree] s' := by
  obtain ⟨token, hmem, hk⟩ := Option.map_eq_some_iff.1 hparen
  obtain ⟨rest, hs⟩ := List.head?_eq_some_iff.1 hmem
  exact .of_bracket hs (.inl hk) (nests_function _ _ _ h)

theorem plainlyReads_named (h : named inner scope s = .ok tree s') :
    PlainlyReads 0 s [tree] s' := by
  rw [named, here_bind_run] at h
  obtain ⟨name, s₁, hname, h⟩ := bind_eq_ok.1 h
  have hskims := skimming_readName false _ _ _ hname
  rw [isAt_bind_run] at h
  by_cases hparen : s₁.rest.head?.map Token.kind = some .leftParen
  · simp only [hparen, decide_true, if_true] at h
    exact (plainlyReads_function hparen h).of_skims hskims
  · simp only [hparen, decide_false, Bool.false_eq_true, if_false] at h
    obtain ⟨rfl, rfl⟩ := EStateM.Result.ok.inj h
    exact .of_plain rfl hskims

theorem plainlyReads_component (h : component inner scope s = .ok tree s') :
    PlainlyReads 0 s [tree] s' := by
  cases hs : s.rest with
  | nil => simp [component, hs] at h
  | cons token rest =>
    cases hsign : startsNumber token.kind with
    | false =>
      rw [component_of_kind hs hsign] at h
      by_cases hstring : token.kind = .string
      · rw [if_pos hstring] at h
        have hleaf := skims_tokenLeaf hs (by rw [hstring]; rfl) h
        exact .of_plain hleaf.1 hleaf.2
      rw [if_neg hstring] at h
      by_cases hname : token.kind = .ident ∨ token.kind = .lowLine
      · rw [if_pos hname] at h
        exact plainlyReads_named h
      · rw [if_neg hname] at h
        exact (fail_ne_ok.1 h).elim
    | true =>
      cases hnumber : numberLength? s.rest with
      | some count =>
        rw [component_of_number hnumber] at h
        have hmeasured := skims_measured h
        exact .of_plain hmeasured.1 ((skims_takeMany hnumber).trans hmeasured.2)
      | none =>
        rw [component_of_sign hs hsign hnumber] at h
        have hoperator : operator s = .ok tree s' → token.kind.isLoose = true →
            PlainlyReads 0 s [tree] s' :=
          fun h hk => .of_plain (skims_tokenLeaf hs hk h).1 (skims_tokenLeaf hs hk h).2
        by_cases hhyphen : token.kind = .hyphenMinus
        · rw [if_pos hhyphen] at h
          split at h
          · exact plainlyReads_named h
          · exact hoperator h (by rw [hhyphen]; rfl)
        rw [if_neg hhyphen] at h
        by_cases hplus : token.kind = .plus
        · rw [if_pos hplus] at h
          exact hoperator h (by rw [hplus]; rfl)
        · rw [if_neg hplus] at h
          exact (fail_ne_ok.1 h).elim

/-! ## Values -/

theorem PlainlyReads.dropTrailingSpaces (h : PlainlyReads 0 s nodes s') :
    PlainlyReads 0 s (dropTrailingSpaces nodes) s' := by
  intro hplain
  have hall : (∀ node ∈ Grammar.dropTrailingSpaces nodes, node.PlainAt 0) →
      ∀ node ∈ nodes, node.PlainAt 0 := by
    intro hall node hmem
    refine (mem_dropTrailingSpaces hmem).elim (hall node) fun hspace => ?_
    cases node <;> first | rfl | exact nomatch hspace
  obtain ⟨hnodes, hskims⟩ := h (hplain.imp_right hall)
  refine ⟨fun node hmem => hnodes node ?_, hskims⟩
  rw [Grammar.dropTrailingSpaces, List.mem_reverse] at hmem
  exact List.mem_reverse.1 ((List.dropWhile_suffix _).subset hmem)

theorem skimming_importantFlag : Skimming importantFlag := by
  refine .bind (skimming_expect rfl) fun _ => ?_
  intro s _ s' h
  rw [skipGaps_bind_run] at h
  obtain ⟨_, _, hword, h⟩ := bind_eq_ok.1 h
  obtain ⟨rfl, -⟩ := expectWord_eq_ok.1 hword
  have hname : (readName false >>= fun _ => pure ()) { s with rest := s.rest.dropWhile isGap } =
      .ok () s' := h
  exact (skims_skipGaps s.rest).trans
    ((skimming_readName false).bind (fun _ => .pure ()) _ _ _ hname)

theorem plainlyReads_valuePart {token : Token} {rest : List Token} {important important' : Bool}
    (hs : s.rest = token :: rest)
    (h : valuePart inner nested important token s = .ok (.next nodes important') s') :
    PlainlyReads 0 s nodes s' := by
  have hpart : ∀ {reader : Parser Tree}, (reader >>= fun node => (pure (.next [node] important) :
      Parser (Round Bool Tree))) s = .ok (.next nodes important') s' →
      (∀ {tree}, reader s = .ok tree s' → PlainlyReads 0 s [tree] s') →
      PlainlyReads 0 s nodes s' := by
    intro reader h hreader
    obtain ⟨node, s₁, hread, h⟩ := bind_eq_ok.1 h
    obtain ⟨hnext, rfl⟩ := EStateM.Result.ok.inj h
    obtain ⟨rfl, -⟩ := Round.next.inj hnext
    exact hreader hread
  by_cases hends : EndsValue true token
  · rcases valuePart_ends inner nested important hends with ⟨hstop, -⟩ | hfail
    · exact nomatch hstop.symm.trans h
    · exact (fail_ne_ok.1 (hfail.symm.trans h)).elim
  by_cases hident : token.kind = .ident
  · rw [valuePart_ident hs hident] at h
    cases hrange : atRange s.rest with
    | false =>
      simp only [hrange, Bool.false_eq_true, if_false] at h
      exact hpart h plainlyReads_component
    | true =>
      simp only [hrange, if_true] at h
      refine hpart h fun hread => ?_
      cases rest with
      | nil => simp [hs, atRange] at hrange
      | cons plus rest =>
        simp only [hs, atRange, Bool.and_eq_true, decide_eq_true_eq] at hrange
        have hskims := skims_unicodeRange hs hident hrange.2 hread
        exact .of_plain hskims.1 hskims.2
  by_cases hspace : token.kind = .whitespace
  · obtain ⟨hnext, rfl⟩ := EStateM.Result.ok.inj ((valuePart_space hs hspace).symm.trans h)
    obtain ⟨rfl, -⟩ := Round.next.inj hnext
    exact .of_plain rfl (hs ▸ .token (by rw [hspace]; rfl))
  by_cases hcomment : token.kind = .comment
  · simp only [valuePart, hcomment] at h
    obtain ⟨hnext, rfl⟩ := EStateM.Result.ok.inj h
    obtain ⟨rfl, -⟩ := Round.next.inj hnext
    exact .nil (skims_tail fun token' hmem => by
      obtain rfl : token = token' := by simpa [hs] using hmem
      rw [hcomment]
      rfl)
  by_cases hflag : token.kind = .exclamationMark
  · simp only [valuePart, hflag] at h
    obtain ⟨_, s₁, hread, h⟩ := bind_eq_ok.1 h
    obtain ⟨hnext, rfl⟩ := EStateM.Result.ok.inj h
    obtain ⟨rfl, -⟩ := Round.next.inj hnext
    exact .nil (skimming_importantFlag _ _ _ hread)
  rw [valuePart_other hident hends hspace hcomment hflag] at h
  refine hpart h fun {tree} hread => ?_
  cases hk : token.kind with
  | numberSign =>
    rw [hk] at hread
    have hhash := skims_hash hread
    exact .of_plain hhash.1 hhash.2
  | leftParen | leftBracket =>
    rw [hk] at hread
    exact .of_bracket hs (by simp [hk]) (nests_brackets _ _ _ hread)
  | solidus | comma =>
    rw [hk] at hread
    have hleaf := skims_tokenLeaf hs (by rw [hk]; rfl) hread
    exact .of_plain hleaf.1 hleaf.2
  | _ =>
    rw [hk] at hread
    exact plainlyReads_component hread

theorem plainlyReads_value (h : value inner nested s = .ok tree s') :
    PlainlyReads 1 s [tree] s' := by
  rw [value, here_bind_run, skipGaps_bind_run] at h
  obtain ⟨⟨parts, important⟩, s₁, hloop, h⟩ := bind_eq_ok.1 h
  obtain ⟨rfl, rfl⟩ := EStateM.Result.ok.inj h
  have hparts := PlainlyReads.of_rounds (fun _ => True) (fun h => (valuePart_eq_stop h).1)
    (fun _ hs h => ⟨trivial, plainlyReads_valuePart hs h⟩) (rounds_of_loop hloop) trivial
  exact (hparts.dropTrailingSpaces.of_skims (skims_skipGaps s.rest)).children rfl

/-! ## Declarations -/

theorem plainlyReads_filterValue (hsome : (nextProgid? s.rest).isSome = true)
    (h : filterValue s = .ok tree s') : PlainlyReads 1 s [tree] s' := by
  rw [filterValue_eq, here_bind_run] at h
  obtain ⟨blocks, s₁, hblocks, h⟩ := bind_eq_ok.1 h
  rw [skipGaps_bind_run] at h
  obtain ⟨important, _, -, h⟩ := bind_eq_ok.1 h
  obtain ⟨rfl, rfl⟩ := EStateM.Result.ok.inj h
  rintro (hbrackets | hplain)
  · -- A block has an opening parenthesis.
    obtain ⟨count, hcount⟩ := Option.isSome_iff_exists.1 hsome
    rw [nextProgid?, drop_gapLength] at hcount
    obtain ⟨front, tail, hs, hhead⟩ := isHead_of_progidLength? (noGap_dropWhile _) hcount
    cases hhead with
    | @mk _ _ opening _ _ _ _ _ _ _ _ _ _ hopening =>
      refine absurd hopening (hbrackets opening ((List.dropWhile_suffix isGap).subset ?_)).1
      simp [hs]
  · have hplain : ∀ block ∈ blocks, block.isPlain = true := hplain _ (List.mem_singleton.2 rfl)
    have hne := (progidPart_rounds_ne_nil (rounds_of_many hblocks)).2 hsome
    cases rounds_of_many hblocks with
    | done | stop => exact absurd rfl hne
    | next hs hround _ =>
      cases hnext : nextProgid? s.rest with
      | none => cases (progidPart_eq_stop hnext).symm.trans hround
      | some count =>
        simp only [progidPart, get_bind_run, hnext] at hround
        obtain ⟨block, rfl, hblock⟩ := add_eq_next hround
        have hnests : Nests (progid count) :=
          .bind fun _ => .bind fun _ => .bind fun _ => .bind fun _ => .bind fun _ => .pure rfl
        cases (hnests _ _ _ hblock).symm.trans (hplain block (by simp))

theorem plainlyReads_valueOf {filter : Bool} (h : valueOf inner filter s = .ok tree s') :
    PlainlyReads 1 s [tree] s' := by
  rw [valueOf, get_bind_run] at h
  by_cases hfilter : (filter && (nextProgid? s.rest).isSome) = true
  · rw [if_pos hfilter] at h
    exact plainlyReads_filterValue (Bool.and_eq_true_iff.1 hfilter).2 h
  · rw [if_neg hfilter] at h
    exact plainlyReads_value h

theorem isLoose_of_isMark {token : Token} (h : isMark token = true) :
    token.kind.isLoose = true := by
  simp only [isMark, Bool.or_eq_true, decide_eq_true_eq] at h
  rcases h with (hk | hk) | hk <;> rw [hk] <;> rfl

theorem skims_propertyColon (h : propertyColon s = .ok tree s') :
    tree.children = [] ∧ Skims s.rest s'.rest := by
  rw [propertyColon, property_eq] at h
  simp only [propertyName, bind_assoc, pure_bind] at h
  rw [here_bind_run, takeWhile_bind_run] at h
  obtain ⟨name, s₁, hname, h⟩ := bind_eq_ok.1 h
  rw [skipGaps_bind_run] at h
  obtain ⟨_, s₂, hcolon, h⟩ := bind_eq_ok.1 h
  obtain ⟨rfl, rfl⟩ := EStateM.Result.ok.inj h
  refine ⟨rfl, (skims_dropWhile (fun _ => isLoose_of_isMark) s.rest).trans ?_⟩
  refine (skimming_readName true _ _ _ hname).trans ((skims_skipGaps s₁.rest).trans ?_)
  exact skimming_expect rfl _ _ _ hcolon

theorem plainlyReads_declaration (h : declaration inner s = .ok tree s') :
    PlainlyReads 2 s [tree] s' := by
  rw [declaration_eq, here_bind_run] at h
  obtain ⟨name, s₁, hname, h⟩ := bind_eq_ok.1 h
  obtain ⟨node, s₂, hvalue, h⟩ := bind_eq_ok.1 h
  obtain ⟨rfl, rfl⟩ := EStateM.Result.ok.inj h
  obtain ⟨hchildren, hskims⟩ := skims_propertyColon hname
  have hread : PlainlyReads 1 s [name] s₁ := fun _ =>
    ⟨fun child hmem => by rw [List.mem_singleton.1 hmem, Node.PlainAt, hchildren]; exact nofun,
      hskims⟩
  exact (hread.append (plainlyReads_valueOf hvalue)).children rfl

theorem plainlyReads_declarations {st last : Unit}
    (h : Rounds (fun _ => declarationPart inner) st s nodes last s') :
    PlainlyReads 2 s nodes s' := by
  refine .of_rounds (fun _ => True) (fun h => (declarationPart_eq_stop h).1)
    (fun {st s token rest items st₁ s₁} _ hs hround => ⟨trivial, ?_⟩) h trivial
  by_cases hskip : token.kind = .whitespace ∨ token.kind = .comment ∨ token.kind = .semicolon
  · rw [declarationPart_skip hs hskip] at hround
    obtain ⟨hnext, rfl⟩ := EStateM.Result.ok.inj hround
    obtain ⟨rfl, -⟩ := Round.next.inj hnext
    exact .nil (hs ▸ .token (by rcases hskip with hk | hk | hk <;> rw [hk] <;> rfl))
  · have hbrace : token.kind ≠ .rightBrace := by
      intro hk
      rw [declarationPart, hk] at hround
      cases hround
    rw [declarationPart_other hbrace hskip] at hround
    obtain ⟨node, rfl, hread⟩ := add_eq_next hround
    exact plainlyReads_declaration hread

/-- Plain declarations are found to be declarations: no brace and no at-sign stands before the brace
that closes them. -/
theorem holdsDeclarations_of_rounds {st last : Unit}
    (h : Rounds (fun _ => declarationPart inner) st s nodes last s')
    (hplain : ∀ node ∈ nodes, node.PlainAt 2)
    (hend : ∀ token ∈ s'.rest.head?, token.kind = .rightBrace) :
    holdsDeclarations s.rest = true := by
  rw [(plainlyReads_declarations h (.inr hplain)).2.holdsDeclarations_eq]
  cases hs : s'.rest with
  | nil => rfl
  | cons token rest =>
    have hk : token.kind = .rightBrace := hend token (by simp [hs])
    simp [holdsDeclarations, hk]

/-! ## Selectors -/

theorem plainlyReads_pseudo (h : pseudo inner s = .ok tree s') : PlainlyReads 0 s [tree] s' := by
  cases hs : s.rest with
  | nil => simp [pseudo, hs] at h
  | cons first rest =>
    cases rest with
    | nil => simp [pseudo, hs] at h
    | cons second rest =>
      rw [pseudo_eq hs] at h
      split at h
      · rw [pseudoElement, here_bind_run] at h
        obtain ⟨_, s₁, hfirst, h⟩ := bind_eq_ok.1 h
        obtain ⟨_, s₂, hsecond, h⟩ := bind_eq_ok.1 h
        obtain ⟨name, s₃, hname, h⟩ := bind_eq_ok.1 h
        obtain ⟨rfl, rfl⟩ := EStateM.Result.ok.inj h
        refine .of_plain rfl ((skimming_expect rfl _ _ _ hfirst).trans ?_)
        exact (skimming_expect rfl _ _ _ hsecond).trans (skimming_readName false _ _ _ hname)
      split at h
      · have hnests : Nests nthSelector :=
          .bind fun _ => .bind fun _ => .bind fun _ => .bind fun _ =>
          .bind fun _ => .bind fun _ => .pure rfl
        have htree := hnests _ _ _ h
        rw [nthSelector, here_bind_run] at h
        obtain ⟨_, s₁, hcolon, h⟩ := bind_eq_ok.1 h
        obtain ⟨name, s₂, hname, h⟩ := bind_eq_ok.1 h
        obtain ⟨_, _, hparen, -⟩ := bind_eq_ok.1 h
        obtain ⟨opening, rest', hs₂, hk, -⟩ := expect_eq_ok.1 hparen
        refine (PlainlyReads.of_bracket hs₂ (.inl hk) htree).of_skims ?_
        exact (skimming_expect rfl _ _ _ hcolon).trans (skimming_readName false _ _ _ hname)
      · rw [pseudoClass, here_bind_run] at h
        obtain ⟨_, s₁, hcolon, h⟩ := bind_eq_ok.1 h
        rw [here_bind_run] at h
        obtain ⟨name, s₂, hname, h⟩ := bind_eq_ok.1 h
        have hskims :=
          (skimming_expect rfl _ _ _ hcolon).trans (skimming_readName false _ _ _ hname)
        rw [isAt_bind_run] at h
        by_cases hparen : s₂.rest.head?.map Token.kind = some .leftParen
        · simp only [hparen, decide_true, if_true] at h
          exact (plainlyReads_function hparen h).of_skims hskims
        · simp only [hparen, decide_false, Bool.false_eq_true, if_false] at h
          obtain ⟨rfl, rfl⟩ := EStateM.Result.ok.inj h
          exact .of_plain rfl hskims

theorem skims_tail_of_kind {kind : TokenKind} (h : s.rest.head?.map Token.kind = some kind)
    (hkind : kind.isLoose = true) : Skims s.rest s.rest.tail := by
  refine skims_tail fun token hmem => ?_
  rw [Option.mem_def.1 hmem] at h
  rwa [Option.some.inj h]

private theorem skims_nameEnd {info : Option Nat} {name : String} {colon : Bool}
    (h : nameEnd info name colon s = .ok tree s') : tree.isPlain = true ∧ Skims s.rest s'.rest := by
  rw [nameEnd, isAt_bind_run] at h
  split at h
  next hcolon =>
    rw [take_bind_run] at h
    obtain ⟨_, s₁, hname, h⟩ := bind_eq_ok.1 h
    obtain ⟨rfl, rfl⟩ := EStateM.Result.ok.inj h
    simp only [Bool.and_eq_true, decide_eq_true_eq] at hcolon
    exact ⟨rfl, (skims_tail_of_kind hcolon.2 rfl).trans (skimming_readName false _ _ _ hname)⟩
  next =>
    obtain ⟨rfl, rfl⟩ := EStateM.Result.ok.inj h
    exact ⟨rfl, .refl⟩

private theorem skims_nameFrom {info : Option Nat} {base : String} {colon : Bool}
    (h : nameFrom info colon base s = .ok tree s') :
    tree.isPlain = true ∧ Skims s.rest s'.rest := by
  rw [nameFrom, isAt_bind_run, lookupKind_bind_run] at h
  split at h
  next hbar =>
    simp only [Bool.and_eq_true, decide_eq_true_eq] at hbar
    have hskims := skims_tail_of_kind hbar.1 rfl
    rw [take_bind_run, kind?_bind_run] at h
    have hend : ∀ {name colon}, nameEnd info name colon { s with rest := s.rest.tail } =
        .ok tree s' → tree.isPlain = true ∧ Skims s.rest s'.rest :=
      fun h => ⟨(skims_nameEnd h).1, hskims.trans (skims_nameEnd h).2⟩
    cases hk : s.rest.tail.head?.map Token.kind with
    | none => rw [hk] at h; exact hend h
    | some kind =>
      rw [hk] at h
      cases kind with
      | hyphenMinus | ident | lowLine =>
        obtain ⟨_, s₁, hname, h⟩ := bind_eq_ok.1 h
        obtain ⟨hplain, hskims'⟩ := skims_nameEnd h
        exact ⟨hplain, hskims.trans ((skimming_readName false _ _ _ hname).trans hskims')⟩
      | asterisk =>
        obtain ⟨_, s₁, hstar, h⟩ := bind_eq_ok.1 h
        obtain ⟨-, rfl⟩ := EStateM.Result.ok.inj hstar
        obtain ⟨hplain, hskims'⟩ := skims_nameEnd h
        exact ⟨hplain, hskims.trans (.trans
          (skims_tail_of_kind (s := { s with rest := s.rest.tail }) hk rfl)
          hskims')⟩
      | _ => exact hend h
  next => exact skims_nameEnd h

theorem skims_qualifiedName {colon : Bool} (h : qualifiedName colon s = .ok tree s') :
    tree.isPlain = true ∧ Skims s.rest s'.rest := by
  cases hs : s.rest with
  | nil => simp [qualifiedName, hs] at h
  | cons first rest =>
    rw [qualifiedName_eq colon hs] at h
    split at h
    next hk =>
      rw [take_bind_run] at h
      obtain ⟨hplain, hskims⟩ := skims_nameFrom h
      exact ⟨hplain, (Skims.token (by rw [hk]; rfl)).trans (by simpa [hs] using hskims)⟩
    next =>
      split at h
      · exact hs ▸ skims_nameFrom h
      · obtain ⟨_, s₁, hname, h⟩ := bind_eq_ok.1 h
        obtain ⟨hplain, hskims⟩ := skims_nameFrom h
        exact ⟨hplain, hs ▸ (skimming_readName false _ _ _ hname).trans hskims⟩

theorem skims_percentageOrName (h : percentageOrName s = .ok tree s') :
    tree.isPlain = true ∧ Skims s.rest s'.rest := by
  rw [percentageOrName, get_bind_run] at h
  cases hnumber : numberLength? s.rest with
  | none =>
    simp only [hnumber] at h
    exact skims_qualifiedName h
  | some count =>
    simp only [hnumber] at h
    split at h
    next hpercent =>
      rw [here_bind_run, takeMany_bind_run, advance_bind_run] at h
      obtain ⟨rfl, rfl⟩ := EStateM.Result.ok.inj h
      have hpercent : (s.rest.drop count).head?.map Token.kind = some .percentSign := by
        rwa [List.head?_drop]
      exact ⟨rfl, (skims_takeMany hnumber).trans
        (skims_tail_of_kind (s := { s with rest := s.rest.drop count }) hpercent rfl)⟩
    next => exact skims_qualifiedName h

theorem plainlyReads_selectorReader {token : Token} {rest : List Token}
    (hs : s.rest = token :: rest) (h : selectorReader inner token.kind s = .ok tree s') :
    PlainlyReads 0 s [tree] s' := by
  have hplain : tree.isPlain = true ∧ Skims s.rest s'.rest → PlainlyReads 0 s [tree] s' :=
    fun h => .of_plain h.1 h.2
  have hsigned : ∀ {kind : TokenKind} {leaf : LeafKind}, kind.isLoose = true →
      signedName [kind] leaf s = .ok tree s' → PlainlyReads 0 s [tree] s' := by
    intro kind leaf hkind h
    rw [signedName, here_bind_run] at h
    obtain ⟨_, s₁, hsign, h⟩ := bind_eq_ok.1 h
    obtain ⟨_, s₂, hname, h⟩ := bind_eq_ok.1 h
    obtain ⟨rfl, rfl⟩ := EStateM.Result.ok.inj h
    obtain ⟨front, hrest, hkinds, -⟩ := expectAll_eq_ok.1 hsign
    refine .of_plain rfl (Skims.trans ?_ (skimming_readName false _ _ _ hname))
    rw [hrest]
    refine .of_forall fun token hmem => ?_
    have hk := hkinds ▸ List.mem_map_of_mem hmem
    rwa [List.mem_singleton.1 hk]
  cases hk : token.kind with
  | fullStop =>
    rw [hk, selectorReader, classSelector_eq] at h
    exact @hsigned .fullStop _ rfl h
  | numberSign =>
    rw [hk, selectorReader, idSelector_eq] at h
    exact @hsigned .numberSign _ rfl h
  | leftBracket =>
    rw [hk] at h
    exact .of_bracket hs (.inr hk) (nests_attributeSelector _ _ _ h)
  | colon => rw [hk] at h; exact plainlyReads_pseudo h
  | lowLine | ident | asterisk | verticalLine => rw [hk] at h; exact hplain (skims_qualifiedName h)
  | hyphenMinus | number => rw [hk] at h; exact hplain (skims_percentageOrName h)
  | _ => rw [hk] at h; exact (fail_ne_ok.1 h).elim

theorem skims_combinator {token : Token} {rest : List Token} (hs : s.rest = token :: rest)
    (hjoint : isJoint token.kind = true) (h : combinator token s = .ok tree s') :
    tree.isPlain = true ∧ Skims s.rest s'.rest := by
  have hskims : Skims s.rest rest := by
    rw [hs]
    exact .token (by cases hk : token.kind <;> first | rfl | simp [hk, isJoint] at hjoint)
  by_cases hspace : token.kind = .whitespace
  · obtain ⟨rfl, rfl⟩ := EStateM.Result.ok.inj ((combinator_blank hs hspace).symm.trans h)
    exact ⟨rfl, hskims⟩
  by_cases hdeep : token.kind = .solidus
  · rw [combinator, here_bind_run, advance_bind_run, hs] at h
    simp only [hdeep, List.tail_cons] at h
    obtain ⟨_, _, hword, h⟩ := bind_eq_ok.1 h
    obtain ⟨rfl, word, rest', rfl, hident, hspells⟩ := expectWord_eq_ok.1 hword
    rw [advance_bind_run] at h
    obtain ⟨_, _, hslash, h⟩ := bind_eq_ok.1 h
    obtain ⟨closing, rest'', rfl, hclosing, rfl⟩ := expect_eq_ok.1 hslash
    obtain ⟨rfl, rfl⟩ := EStateM.Result.ok.inj h
    exact ⟨rfl, hskims.trans (.trans (.token (by rw [hident]; rfl))
      (.token (by rw [hclosing]; rfl)))⟩
  · have hsign : token.kind = .plus ∨ token.kind = .greaterThan ∨ token.kind = .tilde := by
      cases hk : token.kind <;> simp_all [isJoint]
    obtain ⟨rfl, rfl⟩ := EStateM.Result.ok.inj ((combinator_sign hs hsign).symm.trans h)
    exact ⟨rfl, hskims⟩

theorem plainlyReads_simpleSelector (h : simpleSelector inner nested s = .ok tree s') :
    PlainlyReads 1 s [tree] s' := by
  rw [simpleSelector, here_bind_run] at h
  obtain ⟨⟨parts, last⟩, s₁, hloop, h⟩ := bind_eq_ok.1 h
  have hopen : last.isOpen = false := by
    by_contra hopen
    simp only [Bool.not_eq_false] at hopen
    simp only [hopen, if_true] at h
    exact fail_ne_ok.1 h
  simp only [hopen, Bool.false_eq_true, if_false] at h
  obtain ⟨rfl, rfl⟩ := EStateM.Result.ok.inj h
  suffices hparts : PlainlyReads 0 s parts s₁ from hparts.children rfl
  refine .of_rounds (fun st => ∀ node ∈ st.pending, node.isPlain = true)
    (fun {st token s s'} hround => ?_) (fun {st s token rest items st₁ s₁} hst hs hround => ?_)
    (rounds_of_loop hloop) (by simp)
  · cases selectorPart_eq_ok hround with
    | ends => rfl
  · cases selectorPart_eq_ok hround with
    | comment hk => exact ⟨hst, .nil (hs ▸ .token (by rw [hk]; rfl))⟩
    | skip hk => exact ⟨hst, .nil (hs ▸ .token (by rw [hk]; rfl))⟩
    | joint hjoint _ _ hread =>
      obtain ⟨hplain, hskims⟩ := skims_combinator hs hjoint hread
      refine ⟨fun node hmem => ?_, .nil hskims⟩
      obtain rfl := Option.some.inj hmem
      exact hplain
    | part _ _ _ hread =>
      have hpending : PlainlyReads 0 s st.pending.toList s :=
        fun _ => ⟨fun node hmem => hst node (Option.mem_toList.1 hmem), .refl⟩
      exact ⟨by simp, hpending.append (plainlyReads_selectorReader hs hread)⟩

/-- A list of selectors is read up to a brace. -/
theorem plainlyReads_separates {entries : List Tree} {missing : Bool}
    (h : Separates opensBlock (simpleSelector inner false) (pure ()) s entries missing s') :
    PlainlyReads 1 s entries s' := by
  induction h with
  | missing => exact .nil .refl
  | last _ hentry => exact plainlyReads_simpleSelector hentry
  | more _ hentry hs₁ hk hbetween _ ih =>
    obtain ⟨-, rfl⟩ := EStateM.Result.ok.inj hbetween
    refine (plainlyReads_simpleSelector hentry).append (ih.of_skims ?_)
    rw [hs₁]
    exact .token (by rw [hk]; rfl)

/-- A selector without brackets is plain, even if its entries are discarded. -/
theorem skims_selector (h : selector inner s = .ok tree s') (hbrackets : NoBrackets s.rest) :
    tree.PlainAt 2 ∧ Skims s.rest s'.rest := by
  obtain ⟨entries, missing, s₁, hread, hrest, htree⟩ := selector_eq_ok h
  obtain ⟨hentries, hskims⟩ := plainlyReads_separates hread (.inl hbrackets)
  rw [hrest]
  refine ⟨?_, hskims⟩
  rcases htree with hbare | ⟨-, -, rfl⟩
  · have hempty : (Node.sequence none .selector [] : Tree).PlainAt 2 := nofun
    exact Node.plainAt_of_bare_eq (by simpa using hbare) hempty
  · exact hentries

/-- A plain selector that is not discarded is found to be one: the brace after it comes first. -/
theorem holdsDeclarations_of_selector (h : selector inner s = .ok tree s') (hplain : tree.PlainAt 2)
    (hne : tree.children ≠ []) (hbrace : s'.rest.head?.map Token.kind = some .leftBrace) :
    holdsDeclarations s.rest = false := by
  obtain ⟨entries, missing, s₁, hread, hrest, htree⟩ := selector_eq_ok h
  rcases htree with hbare | ⟨-, -, rfl⟩
  · have hchildren := congrArg Node.children hbare
    rw [Node.children_bare] at hchildren
    exact absurd (List.map_eq_nil_iff.1 hchildren) hne
  · rw [(plainlyReads_separates hread (.inr hplain)).2.holdsDeclarations_eq, ← hrest]
    obtain ⟨brace, hmem, hk⟩ := Option.map_eq_some_iff.1 hbrace
    obtain ⟨rest, hs'⟩ := List.head?_eq_some_iff.1 hmem
    simp [hs', holdsDeclarations, hk]

end Grammar
end StyleTree
