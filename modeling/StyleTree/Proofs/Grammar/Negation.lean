import StyleTree.Proofs.Grammar.PairingRule
import StyleTree.Proofs.Grammar.Pseudo
import StyleTree.Proofs.Grammar.RulePlacement
import StyleTree.Proofs.Grammar.RuleShape

/-! Entries of negations. The reader of an entry checks that the entry is not missing, but a simple
selector may take gaps and nothing else (`gap_of_children_eq_nil`). So a negation that is read has
entries, and one of them is empty only where gaps alone stand before a comma or the closing
parenthesis (`OpensBlank`). That a text has such a negation (`HasBlankNegation`) is known from its
tokens; `Watches` keeps it while they are read. -/

namespace StyleTree

open StyleTree.Parser StyleTree.Grammar

/-! ## Negations among tokens -/

/-- The tokens start with the parenthesis of a negation, and after entries that commas end, one of
its entries is made of gaps. -/
inductive OpensBlank : List Token → Prop where
  | mk {opening closing : Token} {inside gap after : List Token} : opening.kind = .leftParen →
    nest false [] (inside.map Token.kind) = some [] →
    (∀ token ∈ inside.getLast?, token.kind = .comma) →
    gap ≠ [] → (∀ token ∈ gap, isGap token = true) →
    closing.kind = .comma ∨ closing.kind = .rightParen →
    OpensBlank (opening :: (inside ++ (gap ++ closing :: after)))

/-- Somewhere among the tokens, a name that spells `not` and a parenthesis open a negation with a
blank entry. -/
def HasBlankNegation (tokens : List Token) : Prop :=
  ∃ before name after, tokens = before ++ name :: after ∧ name.kind = .ident ∧
    name.spells "not" = true ∧ OpensBlank after

theorem HasBlankNegation.of_suffix {tokens rest : List Token} (h : HasBlankNegation rest)
    (hsuffix : rest <:+ tokens) :
    HasBlankNegation tokens := by
  obtain ⟨before, name, after, rfl, hname⟩ := h
  obtain ⟨front, rfl⟩ := hsuffix
  exact ⟨front ++ before, name, after, (List.append_assoc ..).symm, hname⟩

/-- What is known of the tokens: if a negation among them has a blank entry, `blank` holds. -/
structure Watches (blank : Prop) (tokens : List Token) : Prop where
  spelled : Spelled tokens
  whole : SpellsWhole "not" tokens
  blank_of : HasBlankNegation tokens → blank

instance {blank : Prop} : Kept (Watches blank) where
  suffix h hsuffix :=
    ⟨h.spelled.of_suffix hsuffix, fun part hpart => h.whole part (hpart.trans hsuffix.isInfix),
      fun hblank => h.blank_of (hblank.of_suffix hsuffix)⟩
  cut {token escape tokens} h _ hk htext := by
    have hsuffix := List.suffix_cons token tokens
    refine ⟨?_, ?_, ?_⟩
    · rintro other (_ | ⟨_, hmem⟩)
      · exact Token.isSpelled_of_ident hk
      · exact h.spelled other (.tail _ hmem)
    · intro part hpart hspells
      rcases List.infix_cons_iff.1 hpart with hprefix | hpart
      · cases part with
        | nil => exact absurd hspells (by decide)
        | cons first part =>
          obtain ⟨rest, hrest⟩ := hprefix
          obtain ⟨rfl, -⟩ := List.cons.inj hrest
          exact absurd hspells (lower_tokenChars_ne htext (by decide))
      · exact h.whole part (hpart.trans hsuffix.isInfix) hspells
    · rintro ⟨before, name, after, heq, hident, hspells, hopens⟩
      cases before with
      | nil =>
        -- An escape does not spell the name.
        obtain ⟨rfl, rfl⟩ := List.cons.inj heq
        refine absurd (letters_of_sameLetters hspells (by decide)) ?_
        simpa using @lower_tokenChars_ne _ [] "not" htext (by decide)
      | cons first before =>
        obtain ⟨rfl, rfl⟩ := List.cons.inj heq
        exact h.blank_of (.of_suffix ⟨before, name, after, rfl, hident, hspells, hopens⟩ hsuffix)

/-! ## Negations of a tree -/

namespace Node

variable {ι κ : Type} {blank : Prop} {node : Node ι}

/-- A negation has entries, and if one of them is empty, `blank` holds. -/
def NegationFilled (blank : Prop) : Node ι → Prop
  | .sequence _ .negation entries => entries ≠ [] ∧ ∀ entry ∈ entries, entry.children = [] → blank
  | _ => True

/-- So it is with every negation of the tree. -/
def NegationsFilled (blank : Prop) (tree : Node ι) : Prop :=
  ∀ node ∈ tree.preorder, node.NegationFilled blank

theorem NegationsFilled.of_children (h : node.NegationFilled blank)
    (hchildren : ∀ child ∈ node.children, child.NegationsFilled blank) :
    node.NegationsFilled blank := by
  intro other hmem
  rcases mem_preorder.1 hmem with rfl | ⟨child, hchild, hmem⟩
  · exact h
  · exact hchildren child hchild other hmem

theorem NegationsFilled.leaf (info : Option ι) (kind : LeafKind) (text : String) :
    (Node.leaf info kind text).NegationsFilled blank :=
  .of_children trivial nofun

/-- The types of nodes without a negation below them. -/
def plainTypes : List String :=
  ["Property", "Identifier", "Class", "Id", "PseudoClass", "PseudoElement", "Number", "Percentage",
    "Dimension", "String", "Operator", "Nth", "Combinator", "Hash", "Raw", "Comment", "Unknown",
    "Url", "Progid", "Attribute"]

theorem exists_leaf_of_type (h : node.typeName ∈ ["Identifier", "String", "Raw"]) :
    ∃ info kind text, node = .leaf info kind text := by
  cases node with
  | leaf info kind text => exact ⟨info, kind, text, rfl⟩
  | sequence info kind nodes => cases kind <;> simp [typeName, SequenceKind.typeName] at h
  | pair info kind => cases kind <;> simp [typeName, PairKind.name] at h
  | wrapper info kind => cases kind <;> simp [typeName, WrapperKind.name] at h
  | _ => simp [typeName] at h

theorem negationsFilled_of_type (h : node.typeName ∈ ["Identifier", "String", "Raw"]) :
    node.NegationsFilled blank := by
  obtain ⟨info, kind, text, rfl⟩ := exists_leaf_of_type h
  exact .leaf info kind text

theorem Sound.negationsFilled (h : node.Sound) (htype : node.typeName ∈ plainTypes) :
    node.NegationsFilled blank := by
  obtain ⟨hfits, -⟩ := sound_iff.1 h
  cases node with
  | leaf | dimension | space => exact .of_children trivial nofun
  | sequence info kind nodes =>
    cases kind <;> simp [typeName, SequenceKind.typeName, plainTypes] at htype
  | pair info kind => cases kind <;> simp [typeName, PairKind.name, plainTypes] at htype
  | wrapper info kind inner =>
    refine .of_children trivial fun child hchild => ?_
    obtain rfl := List.mem_singleton.1 hchild
    cases kind with
    | url => exact negationsFilled_of_type (List.mem_cons_of_mem _ hfits)
    | progid => exact negationsFilled_of_type (by simp [show child.typeName = "Raw" from hfits])
  | atrule => simp [typeName, plainTypes] at htype
  | attributeSelector info name operator value flags =>
    refine .of_children trivial fun child hchild => ?_
    obtain ⟨hname, -, hvalue⟩ := hfits
    rcases List.mem_cons.1 hchild with rfl | hchild
    · exact negationsFilled_of_type (by simp [hname])
    · have hchild := hvalue child (Option.mem_toList.1 hchild)
      exact negationsFilled_of_type (by grind)

end Node

/-! ## Readers -/

/-- What is left among the tokens after some nodes was taken from the front. -/
theorem Marks.taking {K : List Token → Prop} [Kept K] {tokens rest : List Token} {nodes : List Tree}
    (h : Marks tokens nodes rest) (hK : K tokens) : K rest ∧ ∃ front, Takes tokens front rest := by
  induction h with
  | nil => exact ⟨hK, [], .done⟩
  | @skip token tokens _ _ _ ih =>
    obtain ⟨hrest, front, htakes⟩ := ih (Kept.suffix hK (List.suffix_cons token tokens))
    exact ⟨hrest, token :: front, .token htakes⟩
  | bare _ _ ih | mark _ _ _ _ ih => exact ih hK
  | @atrule sign token tokens _ _ _ _ _ _ _ ih =>
    obtain ⟨hrest, front, htakes⟩ := ih (Kept.suffix hK (List.suffix_cons sign (token :: tokens)))
    exact ⟨hrest, sign :: front, .token htakes⟩
  | @cut token front ident tokens value unit escape nodes rest _ hk htext _ _ ih =>
    have hident := Kept.suffix hK (List.suffix_append (token :: front) (ident :: tokens))
    obtain ⟨hrest, later, htakes⟩ := ih (Kept.cut hident hk hk (by simp))
    have hcut : Takes (ident :: tokens)
        ({ ident with text := String.ofList unit } :: later) rest := by
      refine .cut hk ?_ ?_ ?_ htakes
      · exact hk
      · exact hk
      · simp [htext]
    exact ⟨hrest, _, (Takes.of_append (token :: front) (ident :: tokens)).trans hcut⟩

namespace Parser

variable {α β σ : Type} {blank : Prop} {P : List Token → Prop} {x : Parser α} {f : α → Parser β}

/-- Of the tokens that are left, as much is known as before. -/
abbrev WatchesIf (blank : Prop) (P : List Token → Prop) (x : Parser α) : Prop :=
  TakingIf (Watches blank) P x fun _ _ => True

/-- The negations of the tree that is read are filled. -/
abbrev FillsIf (blank : Prop) (P : List Token → Prop) (x : Parser Tree) : Prop :=
  TakingIf (Watches blank) P x fun tree _ => tree.NegationsFilled blank

/-- The negations of the trees that are read are filled. -/
abbrev FillsAllIf (blank : Prop) (P : List Token → Prop) (x : Parser (List Tree)) : Prop :=
  TakingIf (Watches blank) P x fun trees _ => ∀ tree ∈ trees, tree.NegationsFilled blank

/-- The negations of the trees that a round adds are filled. -/
abbrev RoundFillsIf (blank : Prop) (P : List Token → Prop) (x : Parser (Round σ Tree)) : Prop :=
  TakingIf (Watches blank) P x fun result _ => result.All (Node.NegationsFilled blank)

namespace TakingIf

/-- A reader of which nothing is known but the tokens it leaves comes first. -/
theorem after {w : α → List Token → Prop} {r : β → Prop} (hx : TakingIf (Watches blank) P x w)
    (hf : ∀ a, Taking (Watches blank) (f a) fun b _ => r b) :
    TakingIf (Watches blank) P (x >>= f) fun b _ => r b :=
  hx.bind fun a _ _ => hf a

end TakingIf

theorem watches_of_marking {w : α → List Tree → Prop} (h : Marking x w) : WatchesIf blank P x := by
  intro s a s' hK _ hs
  obtain ⟨nodes, hmarks, -⟩ := h s a s' hK.spelled hs
  obtain ⟨hrest, front, htakes⟩ := hmarks.taking hK
  exact ⟨hrest, front, htakes, trivial⟩

theorem watches_of_spanning {w : α → List Char → Prop} (h : Spanning x w) : WatchesIf blank P x :=
  (taking_of_spanning h fun _ hK => hK.spelled).imp fun _ _ _ => trivial

/-- A tree of a type without negations. -/
theorem fills_plain {names : List String} {x : Parser Tree} (hmarking : MarkingTree x)
    (hshape : Gives x (Shaped names)) (hnames : names ⊆ Node.plainTypes) : FillsIf blank P x := by
  intro s tree s' hK hP hs
  obtain ⟨-, hshaped⟩ := hshape s tree s' hK.spelled hs
  obtain ⟨hrest, front, htakes, -⟩ := watches_of_marking hmarking s tree s' hK hP hs
  exact ⟨hrest, front, htakes, hshaped.sound.negationsFilled (hnames hshaped.type)⟩

/-! ### Loops -/

theorem fills_loop {round : σ → Token → Parser (Round σ Tree)} {st : σ}
    (hround : ∀ st token, RoundFillsIf blank (fun tokens => tokens.head? = some token)
      (round st token)) :
    TakingIf (Watches blank) P (loop round st)
      fun result _ => ∀ tree ∈ result.1, tree.NegationsFilled blank := by
  refine taking_loop (fun _ trees _ _ => ∀ tree ∈ trees, tree.NegationsFilled blank)
    (fun _ => nofun) fun st token =>
    (hround st token).imp fun result front hitems => ?_
  cases result with
  | stop => exact nofun
  | next items =>
    intro later _ _ hlater tree hmem
    rcases List.mem_append.1 hmem with hmem | hmem
    · exact hitems tree hmem
    · exact hlater tree hmem

theorem fills_many {round : Token → Parser Item}
    (hround : ∀ token, RoundFillsIf blank (fun tokens => tokens.head? = some token) (round token)) :
    FillsAllIf blank P (many round) :=
  (fills_loop fun _ => hround).bind fun _ _ htrees => .pure htrees

theorem roundFills_next {st : σ} {read : Parser Tree} (h : FillsIf blank P read) :
    RoundFillsIf blank P (do return Round.next [← read] st) :=
  h.bind fun _ _ htree => .pure (by simpa [Round.All] using htree)

theorem roundFills_skip : RoundFillsIf blank P skip :=
  takingIf_advance.after fun _ => .pure (by simp [Round.All])

theorem roundFills_nothing {st : σ} {x : Parser Unit} (h : WatchesIf blank P x) :
    RoundFillsIf blank P (do x; return .next [] st) :=
  h.after fun _ => .pure (by simp [Round.All])

theorem fills_separated {endsAt : Token → Bool} {entry : Parser Tree} {between : Parser Unit}
    (hentry : FillsIf blank (fun _ => True) entry)
    (hbetween : WatchesIf blank (fun _ => True) between) :
    TakingIf (Watches blank) P (separated endsAt entry between) fun result _ =>
      ∀ tree ∈ result.1, tree.NegationsFilled blank := by
  refine fills_loop fun due token => .ite (fun _ => .pure trivial) fun _ =>
    hentry.always.bind fun tree _ htree =>
    .isAt fun comma => ?_
  have hall : ∀ due : Bool, Round.All (Node.NegationsFilled blank) (.next [tree] due) :=
    fun due => by
    simpa [Round.All] using htree
  exact .ite (fun _ => takingIf_advance.after fun _ => hbetween.after fun _ => .pure (hall true))
    fun _ => .pure (hall false)

end Parser

namespace Grammar

variable {blank : Prop} {P : List Token → Prop} {inner : Nested} {scope : Scope} {info : Option Nat}
  {name : String} {token : Token} {nested : Bool} {s s' : ParserState} {tree : Tree}

/-! ## Entries -/

/-- A combinator that waits goes on to wait where no part comes. -/
theorem gap_of_rounds {st last : SelectorState} {nodes : List Tree}
    (h : Rounds (selectorPart inner nested) st s nodes last s') (hs : Spelled s.rest)
    (hnodes : nodes = []) (hstarted : st.started = false) (hopen : last.isOpen = false) :
    st.isOpen = false ∧ ∃ gap, s.rest = gap ++ s'.rest ∧ ∀ token ∈ gap, isGap token = true := by
  induction h with
  | done => exact ⟨hopen, [], rfl, by simp⟩
  | stop hrest hround =>
    cases selectorPart_eq_ok hround
    exact ⟨hopen, [], rfl, by simp⟩
  | @next st s token rest items st₁ s₁ later last s' hrest hround _ ih =>
    obtain ⟨rfl, hlater⟩ := List.append_eq_nil_iff.1 hnodes
    have hgap : isGap token = true → s₁.rest = s.rest.tail → st₁ = st →
        st.isOpen = false ∧ ∃ gap, s.rest = gap ++ s'.rest ∧ ∀ token ∈ gap, isGap token = true := by
      rintro htoken hs₁ rfl
      rw [hrest, List.tail_cons] at hs₁
      obtain ⟨hst, gap, hgap, hall⟩ :=
        ih (hs₁ ▸ hs.of_suffix (hrest ▸ List.suffix_cons token rest)) hlater hstarted hopen
      exact ⟨hst, token :: gap, by rw [hrest, ← hs₁, hgap,
        List.cons_append], by simpa using ⟨htoken, hall⟩⟩
    generalize hresult : (Round.next [] st₁ : Round SelectorState Tree) = result at hround
    cases selectorPart_eq_ok hround with
    | ends => cases hresult
    | comment hk =>
      obtain ⟨-, rfl⟩ := Round.next.inj hresult
      exact hgap (by simp [isGap, hk]) rfl rfl
    | skip hk =>
      obtain ⟨-, rfl⟩ := Round.next.inj hresult
      exact hgap (by simp [isGap, hk]) rfl rfl
    | @joint node _ hjoint hspace _ hread =>
      obtain ⟨-, rfl⟩ := Round.next.inj hresult
      have hspelled := hs token (by simp [hrest])
      obtain ⟨hs₁, -, hblank⟩ := gives_combinator hjoint hspelled _ _ _ hs hread
      have hne : token.kind ≠ .whitespace := by
        intro hk
        cases hstarted.symm.trans (Bool.and_eq_true_iff.1 (hspace hk)).2
      obtain ⟨hwaits, -⟩ := ih hs₁ hlater hstarted hopen
      -- What waits is no descendant combinator, so the selector would be open.
      refine absurd hwaits ?_
      have hdescendant : isDescendant node = false := by
        rw [Bool.eq_false_iff]
        intro h
        unfold isDescendant at h
        split at h
        · exact hblank hne _ (congrArg _ (of_decide_eq_true h))
        · cases h
      simp [SelectorState.isOpen, hdescendant]
    | part =>
      obtain ⟨hitems, -⟩ := Round.next.inj hresult
      simp at hitems

/-- A simple selector without parts takes gaps only. -/
theorem gap_of_children_eq_nil (h : simpleSelector inner nested s = .ok tree s')
    (hs : Spelled s.rest) (hempty : tree.children = []) :
    ∃ gap, s.rest = gap ++ s'.rest ∧ ∀ token ∈ gap, isGap token = true := by
  rw [simpleSelector, here_bind_run] at h
  obtain ⟨⟨nodes, last⟩, s₁, hloop, h⟩ := bind_eq_ok.1 h
  dsimp only at h
  split at h
  · exact (fail_ne_ok.1 h).elim
  · obtain ⟨rfl, rfl⟩ := EStateM.Result.ok.inj h
    exact (gap_of_rounds (rounds_of_loop hloop) hs hempty rfl
      (by simpa using ‹¬last.isOpen = true›)).2

/-- What the readers one bracket deeper have to do. -/
structure NestedFills (blank : Prop) (inner : Nested) : Prop where
  component : ∀ scope, FillsIf blank (fun _ => True) (inner.component scope)
  brackets : ∀ scope, FillsIf blank (fun _ => True) (inner.brackets scope)
  fallback : FillsIf blank (fun _ => True) inner.fallback
  negated : FillsIf blank (fun _ => True) inner.negated
  paired : Pairs false true inner.negated
  gap : ∀ {s tree s'}, Spelled s.rest → inner.negated s = .ok tree s' → tree.children = [] →
    ∃ gap, s.rest = gap ++ s'.rest ∧ ∀ token ∈ gap, isGap token = true

/-- What is left is a part of the tokens, unless it starts with an identifier that was cut; the
brackets before it are those that were taken. -/
theorem exists_inside {all : Bool} {tokens front rest : List Token} (h : Takes tokens front rest)
    (hrest : rest.head?.map Token.kind ≠ some .ident) : ∃ inside, tokens = inside ++ rest ∧
      ∀ due, nest all due (inside.map Token.kind) = nest all due (front.map Token.kind) := by
  induction h with
  | done => exact ⟨[], rfl, fun _ => rfl⟩
  | @token token _ _ _ _ ih =>
    obtain ⟨inside, rfl, hnest⟩ := ih hrest
    exact ⟨token :: inside, rfl, fun due => by simp only [List.map_cons, nest_cons, hnest]⟩
  | @cut token unit escape tokens front rest hk hunit hescape _ _ ih =>
    obtain ⟨inside, hinside, hnest⟩ := ih hrest
    cases inside with
    | nil =>
      have hfront : escape :: tokens = rest := hinside
      exact absurd (by rw [← hfront]; exact congrArg some hescape) hrest
    | cons first inside =>
      obtain ⟨rfl, rfl⟩ := List.cons.inj hinside
      refine ⟨token :: inside, rfl, fun due => ?_⟩
      have hident : ∀ kinds, nest all due (.ident :: kinds) = nest all due kinds := fun kinds => by
        rw [nest_cons, nestStep_of_not_counted due rfl, Option.bind_some]
      rw [List.map_cons, List.map_cons, hk, hunit, hident, hident, ← hnest, List.map_cons, hescape,
        hident]

/-- The entries of a negation, up to the parenthesis that closes it. -/
theorem negated_of_separates (hinner : NestedFills blank inner) {opening : Token}
    {inside : List Token} {entries : List Tree} {missing : Bool}
    (h : Separates (fun _ => false) (negatedEntry inner) (pure ()) s entries missing s')
    (hopening : opening.kind = .leftParen) (hnest : nest false [] (inside.map Token.kind) = some [])
    (hcomma : ∀ token ∈ inside.getLast?, token.kind = .comma) (hK : Watches blank s.rest)
    (hblank : OpensBlank (opening :: (inside ++ s.rest)) → blank)
    (hend : s'.rest.head?.map Token.kind = some .rightParen) :
    entries ≠ [] ∧ ∀ entry ∈ entries, entry.children = [] → blank := by
  -- An empty entry stands before the token that comes next.
  have hentry : ∀ {s s₁ : ParserState} {entry : Tree} {inside : List Token} {kind : TokenKind},
      negatedEntry inner s = .ok entry s₁ → nest false [] (inside.map Token.kind) = some [] →
      (∀ token ∈ inside.getLast?, token.kind = .comma) → Watches blank s.rest →
      (OpensBlank (opening :: (inside ++ s.rest)) → blank) →
      s₁.rest.head?.map Token.kind = some kind →
      kind = .comma ∨ kind = .rightParen → entry.children = [] → blank := by
    intro s s₁ entry inside kind h hnest hcomma hK hblank hhead hkind hempty
    obtain ⟨hright, hleft, hread⟩ := negatedEntry_eq_ok.1 h
    obtain ⟨gap, hgap, hall⟩ := hinner.gap hK.spelled hread hempty
    obtain ⟨closing, hclosing, hk⟩ := Option.map_eq_some_iff.1 hhead
    obtain ⟨after, hafter⟩ := List.head?_eq_some_iff.1 hclosing
    refine hblank ?_
    rw [hgap, hafter] at hright hleft ⊢
    refine .mk hopening hnest hcomma ?_ hall (hk ▸ hkind)
    rintro rfl
    rcases hkind with rfl | rfl
    · exact hleft (congrArg some hk)
    · exact hright (congrArg some hk)
  induction h generalizing inside with
  | @missing s hdue =>
    obtain ⟨token, hhead, -⟩ := Option.map_eq_some_iff.1 hend
    exact nomatch hdue token hhead
  | last _ hread hlast =>
    refine ⟨List.cons_ne_nil _ _, fun entry hmem => ?_⟩
    obtain rfl := List.mem_singleton.1 hmem
    exact hentry hread hnest hcomma hK hblank hend (.inr rfl)
  | @more s entry s₁ comma rest s₂ later missing s' _ hread hs₁ hk hbetween _ ih =>
    obtain ⟨-, rfl⟩ := EStateM.Result.ok.inj hbetween
    obtain ⟨hK₁, -⟩ := hinner.negated _ _ _ hK trivial (negatedEntry_eq_ok.1 hread).2.2
    obtain ⟨-, front, htakes, hpaired⟩ :=
      hinner.paired _ _ _ ⟨hK.spelled, nofun⟩ trivial (negatedEntry_eq_ok.1 hread).2.2
    obtain ⟨taken, htaken, hnested⟩ := exists_inside htakes (by simp [hs₁, hk])
    have hnest' : nest false [] ((inside ++ taken ++ [comma]).map Token.kind) = some [] := by
      rw [List.map_append, List.map_append, nest_append, nest_append, hnest, Option.bind_some,
        hnested, hpaired.nested]
      simp [nest, nestStep, hk, TokenKind.isCounted]
    have hblank' : OpensBlank (opening :: (inside ++ taken ++ [comma] ++ rest)) → blank := by
      intro hopens
      refine hblank ?_
      rw [htaken, hs₁]
      simpa using hopens
    have hK' : Watches blank rest := Kept.suffix hK₁ (hs₁ ▸ List.suffix_cons comma rest)
    obtain ⟨-, hlater⟩ := ih hnest' (by simp [hk]) hK' hblank' hend
    refine ⟨List.cons_ne_nil _ _, fun other hmem => ?_⟩
    rcases List.mem_cons.1 hmem with rfl | hmem
    · exact hentry hread hnest hcomma hK hblank (by simp [hs₁, hk]) (.inl rfl)
    · exact hlater other hmem

/-- After the name of a negation, no entry is blank unless `blank` holds. -/
def AfterName (blank : Prop) (name : String) (tokens : List Token) : Prop :=
  name.toList.map Text.lowerChar = "not".toList → OpensBlank tokens → blank

theorem fills_negation (hinner : NestedFills blank inner) :
    FillsIf blank (fun tokens => OpensBlank tokens → blank) (negation inner info) := by
  have hentry : FillsIf blank (fun _ => True) (negatedEntry inner) := by
    intro s tree s' hK hP hs
    exact hinner.negated s tree s' hK hP (negatedEntry_eq_ok.1 hs).2.2
  have hentries : TakingIf (Watches blank) (fun tokens => OpensBlank tokens → blank)
      (negation inner info) fun tree _ =>
      ∀ entry ∈ tree.children, entry.NegationsFilled blank := by
    rw [negation_eq]
    exact (taking_expect _).after fun _ =>
      (fills_separated hentry (.pure trivial)).bind fun _ _ hentries =>
      (taking_expect _).after fun _ => .pure hentries
  intro s tree s' hK hblank hs
  obtain ⟨hK', front, htakes, hchildren⟩ := hentries s tree s' hK hblank hs
  refine ⟨hK', front, htakes, .of_children ?_ hchildren⟩
  rw [negation_eq] at hs
  obtain ⟨_, s₁, hopen, hs⟩ := bind_eq_ok.1 hs
  obtain ⟨⟨entries, missing⟩, s₂, hread, hs⟩ := bind_eq_ok.1 hs
  obtain ⟨_, s₃, hclose, hs⟩ := bind_eq_ok.1 hs
  obtain ⟨rfl, rfl⟩ := EStateM.Result.ok.inj hs
  obtain ⟨opening, rest, hrest, hk, rfl⟩ := expect_eq_ok.1 hopen
  obtain ⟨closing, rest', hrest', hk', -⟩ := expect_eq_ok.1 hclose
  rw [hrest] at hK hblank
  exact @negated_of_separates _ _ _ _ hinner opening [] _ _
    (separates_of_separated hread) hk rfl nofun
    (Kept.suffix hK (List.suffix_cons opening rest)) hblank (by simp [hrest', hk'])

/-- A name comes first. -/
theorem fills_named {custom : Bool} {f : String → Parser Tree}
    (hf : ∀ name, FillsIf blank (AfterName blank name) (f name)) :
    FillsIf blank P (readName custom >>= f) := by
  intro s tree s' hK _ hs
  obtain ⟨name, s₁, hname, hs⟩ := bind_eq_ok.1 hs
  obtain ⟨front, hfront, htext⟩ := spanning_readName custom s name s₁ hK.spelled hname
  have hsuffix : s₁.rest <:+ s.rest := ⟨front, hfront.symm⟩
  have hafter : AfterName blank name s₁.rest := by
    intro hletters hopens
    rw [htext] at hletters
    obtain ⟨token, rfl, hk⟩ :=
      hK.whole front (hfront ▸ (List.prefix_append front s₁.rest).isInfix) hletters
    refine hK.blank_of ⟨[], token, s₁.rest, hfront, hk, decide_eq_true ?_, hopens⟩
    rw [← List.append_nil token.text.toList]
    exact hletters
  obtain ⟨hK', more, htakes, hfills⟩ := hf name s₁ tree s' (Kept.suffix hK hsuffix) hafter hs
  exact ⟨hK', front ++ more, (hfront ▸ Takes.of_append front s₁.rest).trans htakes, hfills⟩

/-! ## Functions -/

theorem fills_identifier (custom : Bool) : FillsIf blank P (identifier custom) :=
  fills_plain (markingTree_identifier custom) (gives_identifier custom) (by decide)

theorem fills_tokenLeaf (kind : LeafKind) : FillsIf blank P (tokenLeaf kind) :=
  .here fun _ => takingIf_take.after fun _ => .pure (.leaf _ _ _)

theorem fills_hash : FillsIf blank P hash :=
  fills_plain markingTree_hash gives_hash (by decide)

theorem fills_space : FillsIf blank P space :=
  takingIf_advance.after fun _ => .pure (.of_children trivial nofun)

theorem watches_skipGaps : WatchesIf blank P skipGaps :=
  taking_skipGaps.imp fun _ _ _ => trivial

theorem fills_argument {nodes : List Tree} (h : ∀ node ∈ nodes, node.NegationsFilled blank) :
    (argument nodes).NegationsFilled blank :=
  .of_children trivial h

theorem fills_urlFunction : FillsIf blank P (urlFunction info) := by
  have hend : ∀ link : Tree, link.NegationsFilled blank → FillsIf blank (fun _ => True)
      (do skipGaps; expect .rightParen; return .wrapper info .url link) := fun link hlink =>
    watches_skipGaps.after fun _ => (taking_expect _).after fun _ => .pure
      (.of_children trivial fun node hmem => List.mem_singleton.1 hmem ▸ hlink)
  refine (taking_expect _).after fun _ =>
    watches_skipGaps.after fun _ => .isAt fun _ => .ite (fun _ => ?_) fun _ =>
    .here fun _ => ?_
  · exact (fills_tokenLeaf _).bind fun link _ hlink => hend link hlink
  · exact (watches_of_spanning (spanning_takeWhile _)).after fun _ => .value (hend _ (.leaf _ _ _))

theorem fills_scriptFunction : FillsIf blank P (scriptFunction info name) := by
  refine (taking_expect _).after fun _ => .get fun _ _ _ => (takingIf_takeMany _).after fun text =>
    (taking_expect _).after fun _ => .pure (.of_children trivial fun node hmem => ?_)
  obtain rfl := List.mem_singleton.1 hmem
  exact fills_argument fun node hmem => List.mem_singleton.1 hmem ▸ .leaf _ _ _

theorem fills_variableFunction (hinner : NestedFills blank inner) :
    FillsIf blank P (variableFunction inner info name) := by
  have hend : ∀ (first : Tree) (later : List Tree), first.NegationsFilled blank →
      (∀ node ∈ later, node.NegationsFilled blank) → FillsIf blank (fun _ => True)
        (do
          expect .rightParen
          return .sequence info (.function name) (argument [first] :: later)) := by
    refine fun first later hfirst hlater => (taking_expect _).after fun _ =>
      .pure (.of_children trivial fun node hmem => ?_)
    rcases List.mem_cons.1 hmem with rfl | hmem
    · exact fills_argument fun node hmem => List.mem_singleton.1 hmem ▸ hfirst
    · exact hlater node hmem
  refine (taking_expect _).after fun _ =>
    watches_skipGaps.after fun _ => (fills_identifier true).bind fun first _ hfirst =>
    watches_skipGaps.after fun _ => .isAt fun _ => .ite (fun _ => ?_) fun _ =>
      .value (hend first [] hfirst nofun).always
  exact takingIf_advance.after fun _ => watches_skipGaps.after fun _ =>
    hinner.fallback.bind fun node _ hnode =>
    watches_skipGaps.after fun _ => .value (hend first _ hfirst fun other hmem => by
      obtain rfl := List.mem_singleton.1 hmem
      exact fills_argument fun other hmem => List.mem_singleton.1 hmem ▸ hnode)

theorem roundFills_argumentPart (hinner : NestedFills blank inner) :
    RoundFillsIf blank P (argumentPart inner scope token) := by
  unfold argumentPart
  split
  next => exact .pure trivial
  next => exact .pure trivial
  next => exact roundFills_next fills_space
  next => exact roundFills_skip
  next => exact roundFills_next fills_hash
  next => exact roundFills_next (hinner.brackets scope).always
  next => exact roundFills_next (hinner.brackets scope).always
  next => exact roundFills_next (fills_tokenLeaf _)
  next => exact roundFills_next (fills_tokenLeaf _)
  next => exact roundFills_next (fills_tokenLeaf _)
  next => exact roundFills_next (fills_tokenLeaf _)
  next => exact roundFills_next (hinner.component scope).always

theorem filled_dropTrailingSpaces {nodes : List Tree}
    (h : ∀ node ∈ nodes, node.NegationsFilled blank) :
    ∀ node ∈ dropTrailingSpaces nodes, node.NegationsFilled blank :=
  fun node hmem => h node ((prefix_dropTrailingSpaces nodes).mem hmem)

theorem fills_argumentOf (hinner : NestedFills blank inner) :
    FillsIf blank P (argumentOf inner scope) := by
  refine (fills_many fun _ => roundFills_argumentPart hinner).bind fun parts _ hparts => ?_
  cases parts with
  | nil => exact .fail
  | cons => exact .pure (fills_argument (filled_dropTrailingSpaces hparts))

theorem fills_arguments (hinner : NestedFills blank inner) :
    FillsAllIf blank P (arguments inner scope) := by
  have hend : ∀ nodes : List Tree, (∀ node ∈ nodes, node.NegationsFilled blank) →
      FillsAllIf blank (fun _ => True)
      (do expect .rightParen; return nodes) :=
        fun _ hnodes => (taking_expect _).after fun _ => .pure hnodes
  refine (taking_expect _).after fun _ => watches_skipGaps.after fun _ => .isAt fun _ => .ite
    (fun _ => .value (hend [] nofun).always) fun _ => ?_
  exact (fills_separated (fills_argumentOf hinner) watches_skipGaps).bind fun result _ hnodes =>
    .value (hend _ hnodes)

theorem fills_function (hinner : NestedFills blank inner) :
    FillsIf blank (AfterName blank name) (function inner scope info name) := by
  unfold function
  split
  next => exact fills_urlFunction
  next hspecial => exact (fills_negation hinner).mono fun _ h => h (letters_of_negation hspecial)
  next => exact fills_scriptFunction
  next => exact fills_variableFunction hinner
  next =>
    refine (fills_arguments hinner).bind fun nodes _ hnodes => ?_
    cases scope with
    | selector | atruleExpression | value => exact .pure (.of_children trivial hnodes)

/-! ## Components -/

theorem fillsIf_component_named (hinner : NestedFills blank inner) :
    FillsIf blank P (named inner scope) :=
  .here fun _ => fills_named fun _ => .isAt fun _ =>
    .ite (fun _ => (fills_function hinner).mono fun _ h => h.1) fun _ => .pure (.leaf _ _ _)

theorem fills_measured (number : String) : FillsIf blank P (measured info number) := by
  refine .current? fun token? => ?_
  cases token? with
  | none => exact .pure (.leaf _ _ _)
  | some token =>
    refine .ite (fun _ => takingIf_advance.after fun _ => .pure (.leaf _ _ _)) fun _ =>
      .ite (fun hk => ?_) fun _ => .pure (.leaf _ _ _)
    exact (takingIf_readUnit (fun _ h => h.2) hk).after fun _ => .pure (.of_children trivial nofun)

theorem fills_component (hinner : NestedFills blank inner) :
    FillsIf blank P (component inner scope) := by
  have hsigned : ∀ {P : List Token → Prop}, FillsIf blank P (signedComponent inner scope) := by
    refine .here fun info => ?_
    rw [readNumber?, bind_assoc]
    refine .get fun s _ _ => ?_
    cases numberLength? s.rest with
    | none =>
      refine .value (.lookupKind fun _ => .lookupKind fun _ => .kind? fun _ => ?_)
      split
      next => exact .ite (fun _ => fillsIf_component_named hinner) fun _ => fills_tokenLeaf _
      next => exact fills_tokenLeaf _
      next => exact .fail
    | some count =>
      dsimp only
      rw [bind_assoc]
      exact (takingIf_takeMany _).after fun number => .value (fills_measured number)
  rw [component_eq]
  refine .kind? fun _ => ?_
  split
  next => exact fills_tokenLeaf _
  next => exact fillsIf_component_named hinner
  next => exact fillsIf_component_named hinner
  next => exact hsigned
  next => exact hsigned
  next => exact hsigned
  next => exact hsigned
  next => exact .fail

theorem roundFills_bracketPart (hinner : NestedFills blank inner) (closing : TokenKind) :
    RoundFillsIf blank P (bracketPart inner scope closing token) := by
  refine .ite (fun _ => .pure trivial) fun _ => ?_
  split
  next => exact roundFills_next fills_space
  next => exact roundFills_skip
  next => exact roundFills_next fills_hash
  next => exact roundFills_next (hinner.brackets scope).always
  next => exact roundFills_next (hinner.brackets scope).always
  next => exact roundFills_next (fills_tokenLeaf _)
  next => exact roundFills_next (fills_tokenLeaf _)
  next => exact roundFills_next (fills_tokenLeaf _)
  next => exact roundFills_next (fills_tokenLeaf _)
  next => exact roundFills_next (hinner.component scope).always

theorem fills_brackets (hinner : NestedFills blank inner) :
    FillsIf blank P (brackets inner scope) :=
  .here fun _ => .isAt fun round => takingIf_advance.after fun _ => watches_skipGaps.after fun _ =>
    (fills_many fun _ => roundFills_bracketPart hinner _).bind fun _ _ hparts =>
      (taking_expect _).after fun _ =>
      .pure (by cases round <;> exact .of_children trivial (filled_dropTrailingSpaces hparts))

theorem watches_importantFlag : WatchesIf blank P importantFlag :=
  watches_of_spanning spanning_importantFlag

theorem roundFills_valuePart (hinner : NestedFills blank inner) (nested important : Bool) :
    RoundFillsIf blank P (valuePart inner nested important token) := by
  unfold valuePart
  split
  next => exact .pure trivial
  next => exact .pure trivial
  next => exact .ite (fun _ => .pure trivial) fun _ => .fail
  next => exact roundFills_next fills_space
  next => exact takingIf_advance.after fun _ => .pure (by simp [Round.All])
  next => exact roundFills_next fills_hash
  next => exact roundFills_next (fills_tokenLeaf _)
  next => exact roundFills_next (fills_tokenLeaf _)
  next => exact roundFills_next (fills_brackets hinner)
  next => exact roundFills_next (fills_brackets hinner)
  next => exact roundFills_nothing watches_importantFlag
  next =>
    refine .lookupKind fun _ => .ite (fun _ => roundFills_next ?_) fun _ =>
      roundFills_next (fills_component hinner)
    exact fills_plain markingTree_unicodeRange gives_unicodeRange (by decide)
  next => exact roundFills_next (fills_component hinner)

theorem fills_value (hinner : NestedFills blank inner) (nested : Bool) :
    FillsIf blank P (value inner nested) :=
  .here fun _ => watches_skipGaps.after fun _ => (fills_loop fun important _ =>
    roundFills_valuePart hinner nested important).bind fun _ _ hparts =>
      .pure (.of_children trivial (filled_dropTrailingSpaces hparts))

theorem fills_filterValue : FillsIf blank P filterValue := by
  have hflag : WatchesIf blank (fun _ => True) optionalFlag :=
    .isAt fun _ => .ite (fun _ => watches_importantFlag.after fun _ => .pure trivial) fun _ =>
      .pure trivial
  have hround : ∀ token, RoundFillsIf blank (fun tokens => tokens.head? = some token)
      (progidPart token) := by
    refine fun token => .get fun s _ _ => ?_
    cases nextProgid? s.rest with
    | none => exact .pure trivial
    | some count =>
      exact roundFills_next (fills_plain (markingTree_progid count) (gives_progid count)
        (by decide))
  rw [filterValue_eq]
  exact .here fun _ => (fills_many hround).bind fun nodes _ hnodes =>
    watches_skipGaps.after fun _ =>
    hflag.after fun _ => .pure (.of_children trivial hnodes)

/-! ## Selectors -/

theorem fills_nthSelector : FillsIf blank P nthSelector := by
  have hnth : ∀ {P : List Token → Prop}, FillsIf blank P nth :=
    fills_plain markingTree_nth gives_nth (by decide)
  have hround : ∀ token, RoundFillsIf blank (fun tokens => tokens.head? = some token)
      (nthPart token) := by
    intro token
    unfold nthPart
    split
    next => exact .pure trivial
    next => exact roundFills_skip
    next => exact roundFills_skip
    next => exact roundFills_next (fills_tokenLeaf _)
    next => exact roundFills_next (fills_tokenLeaf _)
    next => exact roundFills_next hnth
  refine .here fun _ => (taking_expect _).after fun _ =>
    (watches_of_spanning (spanning_readName false)).after fun _ =>
    (taking_expect _).after fun _ => (fills_many hround).bind fun parts _ hparts =>
      (taking_expect _).after fun _ =>
      .pure (.of_children trivial fun node hmem => ?_)
  exact List.mem_singleton.1 hmem ▸ fills_argument hparts

theorem fills_pseudo (hinner : NestedFills blank inner) : FillsIf blank P (pseudo inner) := by
  have helement : ∀ {P : List Token → Prop}, FillsIf blank P pseudoElement :=
    .here fun _ => (taking_expect _).after fun _ => (taking_expect _).after fun _ =>
      (watches_of_spanning (spanning_readName false)).after fun _ => .pure (.leaf _ _ _)
  have hclass : ∀ {P : List Token → Prop}, FillsIf blank P (pseudoClass inner) :=
    .here fun _ => (taking_expect _).after fun _ => .here fun _ => fills_named fun _ =>
      .isAt fun _ =>
      .ite (fun _ => (fills_function hinner).mono fun _ h => h.1) fun _ => .pure (.leaf _ _ _)
  refine .lookup? fun next? => ?_
  cases next? with
  | none => exact takingIf_advance.after fun _ => .fail
  | some next =>
    exact .ite (fun _ => helement) fun _ => .ite (fun _ => fills_nthSelector) fun _ => hclass

theorem fills_selectorReader (hinner : NestedFills blank inner) (kind : TokenKind) :
    FillsIf blank P (selectorReader inner kind) := by
  have hnamed : ∀ {kind : TokenKind} {leaf : LeafKind}, FillsIf blank P (do
      let info ← here
      expect kind
      return .leaf info leaf (← readName false)) := .here fun _ => (taking_expect _).after fun _ =>
    (watches_of_spanning (spanning_readName false)).after fun _ => .pure (.leaf _ _ _)
  have hname : FillsIf blank P (qualifiedName false) :=
    fills_plain (markingTree_qualifiedName false) (gives_qualifiedName false) (by decide)
  have hnumber : FillsIf blank P percentageOrName :=
    fills_plain markingTree_percentageOrName gives_percentageOrName (by decide)
  have hattribute : FillsIf blank P attributeSelector :=
    fills_plain markingTree_attributeSelector gives_attributeSelector (by decide)
  unfold selectorReader
  split
  · exact hnamed
  · exact hattribute
  · exact hnamed
  · exact fills_pseudo hinner
  · exact hname
  · exact hname
  · exact hname
  · exact hname
  · exact hnumber
  · exact hnumber
  · exact .fail

theorem fills_combinator : FillsIf blank P (combinator token) := by
  refine .here fun _ => takingIf_advance.after fun _ => ?_
  split
  next => exact .pure (.leaf _ _ _)
  next =>
    exact (taking_expectWord _).after fun _ =>
      takingIf_advance.after fun _ => (taking_expect _).after fun _ =>
      .pure (.leaf _ _ _)
  next => exact .pure (.leaf _ _ _)

theorem fills_simpleSelector (hinner : NestedFills blank inner) (nested : Bool) :
    FillsIf blank P (simpleSelector inner nested) := by
  have hloop : TakingIf (Watches blank) (fun _ => True) (loop (selectorPart inner nested) {})
      fun result _ =>
      (∀ node ∈ ({} : SelectorState).pending, node.NegationsFilled blank) →
        ∀ node ∈ result.1, node.NegationsFilled blank := by
    refine taking_loop (fun (st : SelectorState) (nodes : List Tree) _ _ =>
      (∀ node ∈ st.pending, node.NegationsFilled blank) →
      ∀ node ∈ nodes, node.NegationsFilled blank)
      (fun _ _ => nofun) fun st token => ?_
    intro s result s' hK _ hs
    cases selectorPart_eq_ok hs with
    | ends => exact ⟨hK, [], .done, fun _ => nofun⟩
    | comment | skip =>
      obtain ⟨hK', front, htakes, -⟩ :=
        takingIf_advance (P := fun _ => True) s _ _ hK trivial run_advance
      exact ⟨hK', front, htakes, fun _ _ _ hlater => hlater⟩
    | joint _ _ _ hread =>
      obtain ⟨hK', front, htakes, hnode⟩ :=
        fills_combinator (P := fun _ => True) s _ _ hK trivial hread
      exact ⟨hK', front, htakes, fun _ _ _ hlater _ => hlater (by simpa using hnode)⟩
    | part _ _ _ hread =>
      obtain ⟨hK', front, htakes, hnode⟩ :=
        fills_selectorReader (P := fun _ => True) hinner _ s _ _ hK trivial hread
      refine ⟨hK', front, htakes, fun later _ _ hlater hpending node hmem => ?_⟩
      rcases List.mem_append.1 hmem with hmem | hmem
      · rcases List.mem_append.1 hmem with hmem | hmem
        · exact hpending node (Option.mem_toList.1 hmem)
        · exact List.mem_singleton.1 hmem ▸ hnode
      · exact hlater nofun node hmem
  exact .here fun _ => hloop.always.bind fun _ _ hnodes => .ite (fun _ => .fail) fun _ =>
    .pure (.of_children trivial (hnodes nofun))

theorem fills_selector (hinner : NestedFills blank inner) : FillsIf blank P (selector inner) := by
  have hnote : ∀ {P : List Token → Prop}, WatchesIf blank P noteDiscarded := by
    rintro P s _ _ hK - ⟨⟩
    exact ⟨hK, [], .done, trivial⟩
  refine .here fun _ =>
    (fills_separated (fills_simpleSelector hinner false) (.pure trivial)).bind fun _ _ hentries =>
    .ite (fun _ => ?_) fun _ => .pure (.of_children trivial hentries)
  exact hnote.after fun _ => .pure (.of_children trivial nofun)

/-- At every depth, negations are filled. -/
theorem nestedFills_upTo (depth : Nat) : NestedFills blank (.upTo depth) := by
  induction depth with
  | zero =>
    exact ⟨fun _ => .fail, fun _ => .fail, .fail, .fail, .fail, fun _ h => (fail_ne_ok.1 h).elim⟩
  | succ depth ih =>
    exact ⟨fun _ => fills_component ih, fun _ => fills_brackets ih, fills_value ih true,
      fills_simpleSelector ih true,
      pairs_simpleSelector (nestedPairs_upTo depth) true, fun hs h => gap_of_children_eq_nil h hs⟩

/-! ## Rules -/

theorem fills_declaration (hinner : NestedFills blank inner) :
    FillsIf blank P (declaration inner) := by
  have hend : ∀ {info : Option Nat} {name value : Tree}, name.NegationsFilled blank →
      value.NegationsFilled blank →
      (Node.pair info .declaration name value).NegationsFilled blank := fun hname hvalue =>
    .of_children trivial (List.forall_mem_cons.2 ⟨hname, List.forall_mem_singleton.2 hvalue⟩)
  exact .here fun _ =>
    (fills_plain markingTree_property gives_property (by decide)).bind fun name _ hname =>
    (taking_expect _).after fun _ => .get fun _ _ _ =>
      .choose (p := fun value _ => value.NegationsFilled blank)
        (fun _ => fills_filterValue) (fun _ => fills_value hinner false)
        fun _ _ hvalue => .pure (hend hname hvalue)

theorem fills_declarations (hinner : NestedFills blank inner) :
    FillsAllIf blank P (declarations inner) := by
  refine fills_many fun token => ?_
  unfold declarationPart
  split
  next => exact .pure trivial
  next => exact roundFills_skip
  next => exact roundFills_skip
  next => exact roundFills_skip
  next => exact roundFills_next (fills_declaration hinner)

theorem fills_block (hinner : NestedFills blank inner) : FillsIf blank P (block inner) :=
  .here fun _ => (fills_declarations hinner).bind fun _ _ hnodes =>
    .pure (.of_children trivial hnodes)

theorem fills_bracedBlock (hinner : NestedFills blank inner) :
    FillsIf blank P (bracedBlock inner) :=
  .here fun _ => (taking_expect _).after fun _ => (fills_declarations hinner).bind fun _ _ hnodes =>
    (taking_expect _).after fun _ => .pure (.of_children trivial hnodes)

theorem fills_ruleset (hinner : NestedFills blank inner) : FillsIf blank P (ruleset inner) :=
  .here fun _ => (fills_selector hinner).bind fun _ _ hhead =>
    (fills_bracedBlock hinner).bind fun _ _ hbody =>
    .pure (.of_children trivial (List.forall_mem_cons.2 ⟨hhead, List.forall_mem_singleton.2 hbody⟩))

theorem roundFills_expressionPart (hinner : NestedFills blank inner) (started : Bool) :
    RoundFillsIf blank P (expressionPart inner started token) := by
  have hskip : ∀ {P : List Token → Prop}, RoundFillsIf blank P
      (do advance; return .next [] started) :=
    takingIf_advance.after fun _ => .pure (by simp [Round.All])
  unfold expressionPart
  split
  next => exact .pure trivial
  next => exact .pure trivial
  next => exact .ite (fun _ => roundFills_next fills_space) fun _ => hskip
  next => exact hskip
  next => exact roundFills_next (fills_tokenLeaf _)
  next => exact roundFills_next (fills_pseudo hinner)
  next => exact roundFills_next (fills_brackets hinner)
  next => exact roundFills_next (fills_component hinner)

theorem fills_atruleExpression (hinner : NestedFills blank inner) :
    FillsIf blank P (atruleExpression inner) :=
  .here fun _ =>
    (fills_loop fun started _ => roundFills_expressionPart hinner started).bind fun _ _ hparts =>
    .pure (.of_children trivial (filled_dropTrailingSpaces hparts))

theorem fills_atruleBody (hinner : NestedFills blank inner) {sheet : Parser Tree}
    (hsheet : FillsIf blank (fun _ => True) sheet) :
    TakingIf (Watches blank) P (atruleBody inner sheet)
      fun body _ => ∀ node ∈ body, node.NegationsFilled blank := by
  have hend : ∀ {P : List Token → Prop} {read : Parser Tree}, FillsIf blank P read →
      TakingIf (Watches blank) P (do let node ← read; expect .rightBrace; return some node)
        fun body _ =>
        ∀ node ∈ body, node.NegationsFilled blank := fun hread =>
    hread.bind fun node _ hnode => (taking_expect _).after fun _ => .pure (by simpa using hnode)
  refine .kind? fun _ => ?_
  split
  next => exact .pure (by simp)
  next => exact takingIf_advance.after fun _ => .pure (by simp)
  next =>
    refine takingIf_advance.after fun _ => .get fun _ _ _ => .ite (fun _ => ?_) fun _ => ?_
    · exact hend (fills_block hinner)
    · exact hend hsheet.always
  next => exact .fail

theorem fills_atrule (hinner : NestedFills blank inner) {sheet : Parser Tree}
    (hsheet : FillsIf blank (fun _ => True) sheet) :
    FillsIf blank P (atrule inner sheet) := by
  refine (taking_expect _).after fun _ =>
    .here fun _ => (watches_of_spanning (spanning_readName false)).after fun _ =>
    (fills_atruleExpression hinner).bind fun expression _ hexpression =>
      (fills_atruleBody hinner hsheet).bind
        fun body _ hbody => .pure (.of_children trivial fun node hmem => ?_)
  rcases List.mem_append.1 hmem with hmem | hmem
  · exact List.mem_singleton.1 hmem ▸ hexpression
  · exact hbody node (Option.mem_toList.1 hmem)

theorem roundFills_rulePart (hinner : NestedFills blank inner) {sheet : Parser Tree}
    (hsheet : FillsIf blank (fun _ => True) sheet) (nested : Bool) :
    RoundFillsIf blank P (rulePart inner sheet nested token) := by
  unfold rulePart
  split
  next => exact roundFills_skip
  next =>
    refine .ite (fun _ => roundFills_skip) fun _ => roundFills_next (.here fun _ => ?_)
    exact takingIf_advance.after fun _ => .pure (.leaf _ _ _)
  next => exact roundFills_next (fills_tokenLeaf _)
  next => exact roundFills_next (fills_atrule hinner hsheet)
  next => exact .ite (fun _ => .pure trivial) fun _ => .fail
  next => exact roundFills_next (fills_ruleset hinner)

theorem fills_styleSheet (hinner : NestedFills blank inner) {sheet : Parser Tree}
    (hsheet : FillsIf blank (fun _ => True) sheet) (nested : Bool) :
    FillsIf blank P (styleSheet inner sheet nested) :=
  .here fun _ =>
    (fills_many fun _ => roundFills_rulePart hinner hsheet nested).bind fun _ _ hnodes =>
    .pure (.of_children trivial hnodes)

theorem fills_nestedSheet (hinner : NestedFills blank inner) (depth : Nat) :
    FillsIf blank (fun _ => True) (nestedSheet inner depth) := by
  induction depth with
  | zero => exact .fail
  | succ depth ih => exact fills_styleSheet hinner ih true

/-- In every context, negations are filled. -/
theorem fills_production (context : Context) (size : Nat) :
    FillsIf blank P (context.production size) := by
  have hinner : NestedFills blank (.upTo (size + 1)) := nestedFills_upTo (size + 1)
  have hsheet := fills_nestedSheet hinner (size + 1)
  cases context with
  | stylesheet => exact fills_styleSheet hinner hsheet false
  | atrule => exact fills_atrule hinner hsheet
  | atruleExpression => exact fills_atruleExpression hinner
  | ruleset => exact fills_ruleset hinner
  | selector => exact fills_selector hinner
  | simpleSelector => exact fills_simpleSelector hinner false
  | block => exact fills_block hinner
  | declaration => exact fills_declaration hinner
  | property => exact fills_plain markingTree_property gives_property (by decide)
  | value => exact fills_value hinner false

end Grammar
end StyleTree
