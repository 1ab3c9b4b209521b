import StyleTree.Grammar.Rule
import StyleTree.Proofs.Grammar.Filter

/-! Declarations and lists of them. A property is kept as it stands, and a colon parts it from its
value (`declaration_rereads`). In a list of declarations nothing but the declarations is kept: they
are read again with one semicolon between them (`declarationPart_rounds`). -/

namespace StyleTree.Grammar

open StyleTree.Parser

variable {inner : Nested} {p : Place} {s s' : ParserState} {tokens tokens' rest : List Token}
  {token : Token} {tree : Tree} {nodes : List Tree}

/-! ## Properties -/

/-- Whether the token can stand before the name of a property. -/
def isMark (token : Token) : Bool :=
  token.kind = .solidus || token.kind = .asterisk || token.kind = .dollarSign

/-- A property without the gap after it. -/
def propertyName : Parser Tree := do
  let info ← here
  let marks ← Parser.takeWhile isMark
  let name ← readName true
  return .leaf info .property (marks ++ name)

theorem property_eq : property = (do
    let node ← propertyName
    skipGaps
    return node) := by
  simp only [property, propertyName, bind_assoc, pure_bind]
  rfl

/-- The tokens of a property: marks and a name. -/
def IsProperty (tokens : List Token) : Prop :=
  ∃ marks name, tokens = marks ++ name ∧ (∀ token ∈ marks, isMark token = true) ∧ IsName true name

theorem IsProperty.congr (h : IsProperty tokens)
    (hcore : tokens'.map Token.core = tokens.map Token.core) : IsProperty tokens' := by
  obtain ⟨marks, name, rfl, hmarks, hname⟩ := h
  rw [List.map_append] at hcore
  obtain ⟨marks', name', rfl, hmarks', hname'⟩ := List.map_eq_append_iff.1 hcore
  refine ⟨marks', name', rfl, fun token hmem => ?_, hname.congr hname'⟩
  obtain ⟨other, hother, heq⟩ := List.mem_map.1 (hmarks' ▸ List.mem_map_of_mem hmem)
  rw [isMark, ← Token.kind_eq_of_core heq]
  exact hmarks other hother

theorem IsName.not_isMark (h : IsName true tokens) : ∀ token ∈ tokens, isMark token = false := by
  intro token hmem
  rcases h.kinds token hmem with hk | hk | hk | hk <;> simp [isMark, hk]

theorem IsProperty.kinds (h : IsProperty tokens) : ∀ token ∈ tokens, token.kind = .solidus ∨
    token.kind = .asterisk ∨ token.kind = .dollarSign ∨ token.kind = .lowLine ∨
    token.kind = .ident ∨ token.kind = .number ∨ token.kind = .hyphenMinus := by
  obtain ⟨marks, name, rfl, hmarks, hname⟩ := h
  intro token hmem
  rcases List.mem_append.1 hmem with hmem | hmem
  · have hmark := hmarks token hmem
    simp only [isMark, Bool.or_eq_true, decide_eq_true_eq] at hmark
    rcases hmark with (h | h) | h <;> simp [h]
  · rcases hname.kinds token hmem with h | h | h | h <;> simp [h]

theorem IsProperty.ne_nil (h : IsProperty tokens) : tokens ≠ [] := by
  obtain ⟨marks, name, rfl, -, hname⟩ := h
  simp [hname.ne_nil]

/-- A property is read as it stands. -/
theorem propertyName_eq_ok (hne : ∀ token ∈ s.rest, token.text ≠ "") :
    propertyName s = .ok tree s' ↔ ∃ tokens, s.rest = tokens ++ s'.rest ∧
      s'.discarded = s.discarded ∧ tree = .leaf (s.rest.head?.map Token.start) .property
        (Text.concat (tokens.map Token.text)) ∧ IsProperty tokens ∧ EndsName s'.rest := by
  have hdrop : ∀ token ∈ s.rest.dropWhile isMark, token.text ≠ "" :=
    fun token hmem => hne token ((List.dropWhile_suffix _).subset hmem)
  rw [propertyName, here_bind_run, takeWhile_bind_run]
  constructor
  · intro h
    obtain ⟨name, s₁, hname, h⟩ := bind_eq_ok.1 h
    obtain ⟨rfl, rfl⟩ := EStateM.Result.ok.inj h
    obtain ⟨tokens, hrest, hdiscarded, rfl, hname, hends⟩ := (readName_eq_ok hdrop).1 hname
    refine ⟨s.rest.takeWhile isMark ++ tokens, ?_, hdiscarded, ?_, ?_, hends⟩
    · rw [List.append_assoc, ← hrest, List.takeWhile_append_dropWhile]
    · rw [List.map_append, concat_append]
    · exact ⟨_, tokens, rfl, fun token hmem => List.mem_takeWhile_imp hmem, hname⟩
  · rintro ⟨_, hrest, hdiscarded, rfl, ⟨marks, name, rfl, hmarks, hname⟩, hends⟩
    have hfirst : ∀ token ∈ (name ++ s'.rest).head?, isMark token = false := by
      intro token hmem
      refine hname.not_isMark token ?_
      rw [List.head?_append_of_ne_nil _ hname.ne_nil] at hmem
      exact List.mem_of_mem_head? hmem
    rw [List.append_assoc] at hrest
    obtain ⟨htake, hdrop'⟩ := takeWhile_eq_of_ends hmarks hfirst
    have hread : readName true { s with rest := s.rest.dropWhile isMark } =
        .ok (Text.concat (name.map Token.text)) s' :=
      (readName_eq_ok hdrop).2 ⟨name, by rw [hrest, hdrop'], hdiscarded, rfl, hname, hends⟩
    rw [bind_of_ok hread, run_pure, List.map_append, concat_append, hrest, htake]

theorem propertyName_reprints (hp : p.Scans s.rest) (h : propertyName s = .ok tree s') :
    Reprints p s tree s' fun _ => propertyName := by
  obtain ⟨tokens, hrest, -, rfl, hproperty, hends⟩ := (propertyName_eq_ok hp.text_ne).1 h
  refine reprints_of_verbatim _ hp hrest hproperty.ne_nil (fun token hmem => ?_) ?_ ?_
  · rcases hproperty.kinds token hmem with h | h | h | h | h | h | h <;> simp [h]
  · simp [Node.leafMarks, toList_concat_text]
  · intro n s₁ front rest hs₁ hcore hpeek hne
    refine ⟨_, (propertyName_eq_ok hne).2 ⟨front, hs₁, rfl, rfl, hproperty.congr hcore,
      endsName_congr hpeek hends⟩, ?_⟩
    rw [Node.bare_leaf, Node.bare_leaf, map_text_congr hcore]

/-- A property and the colon after it. -/
def propertyColon : Parser Tree := do
  let name ← property
  expect .colon
  return name

/-- A property is read again up to its colon, and any text may follow. -/
theorem propertyColon_rereads (hp : p.Scans s.rest) (hc : NoComments s.rest)
    (h : propertyColon s = .ok tree s') :
    ∃ p' : Place, p'.Scans s'.rest ∧ p'.firm = p.firm ∧ Balanced s.rest s'.rest ∧
      p'.state.afterUrl = false ∧ ∀ n, Rereads n p p' (fun _ => True) (tree.compact ++ [':'])
        propertyColon fun tree' => tree'.bare = tree.bare := by
  have heq : propertyColon = (do
      let name ← propertyName
      skipGaps
      expect .colon
      return name) := by
    simp only [propertyColon, property_eq, bind_assoc, pure_bind]
  rw [heq] at h
  obtain ⟨name, s₁, hname, h⟩ := bind_eq_ok.1 h
  rw [skipGaps_bind_run] at h
  obtain ⟨_, _, hcolon, h⟩ := bind_eq_ok.1 h
  obtain ⟨colon, rest, hs₁, hk, rfl⟩ := expect_eq_ok.1 hcolon
  obtain ⟨rfl, rfl⟩ := EStateM.Result.ok.inj h
  obtain ⟨p₁, hp₁, hfirm₁, hbalanced₁, hrereads₁⟩ := propertyName_reprints hp hname
  have hc₁ := hbalanced₁.noComments hc
  obtain ⟨p₂, hp₂, -, hfirm₂, hbalanced₂, -, -⟩ := hp₁.skipGaps hc₁
  obtain ⟨p', hp', hfirm', hurl', hfollow', hruns'⟩ :=
    runs_closing (c := ':') hp₁ hc₁ hs₁ hk rfl rfl rfl
  refine ⟨p', hp', hfirm'.trans hfirm₁, ?_, hurl', fun n => ?_⟩
  · refine .trans hbalanced₁ (.trans hbalanced₂ ?_)
    have hs₁ : s₁.rest.dropWhile isGap = colon :: rest := hs₁
    rw [hs₁]
    exact .token (by simp [hk]) (by simp [hk])
  · rw [heq]
    refine (hrereads₁ n).bind (fun name' hname' => ?_) (Nat.le_succ n) fun cs _ => hfollow' cs
    refine Runs.skipGaps ((hruns' n).bind (v := []) (fun _ _ => runs_pure hname')
      fun _ _ => trivial) fun cs tokens _ hs => hs.noGap_of_sign rfl rfl (by decide)

/-! ## Declarations -/

/-- The value of a property that is a filter or not. -/
def valueOf (inner : Nested) (filter : Bool) : Parser Tree := do
  if filter && (nextProgid? (← get).rest).isSome then filterValue else value inner false

theorem declaration_eq (inner : Nested) : declaration inner = (do
    let info ← here
    let name ← propertyColon
    let node ← valueOf inner (isFilter name)
    return .pair info .declaration name node) := by
  simp only [declaration, propertyColon, valueOf, bind_assoc, pure_bind, ite_bind]

theorem isFilter_of_bare_eq {tree tree' : Tree} (h : tree'.bare = tree.bare) :
    isFilter tree' = isFilter tree := by
  have key : ∀ tree : Tree, isFilter tree = true ↔
      ∃ info name, tree.bare = .leaf info .property name ∧
      "filter".toList.isSuffixOf (name.toList.map Text.lowerChar) = true := by
    intro tree
    cases tree with
    | leaf info kind text => cases kind <;> simp [isFilter]
    | _ => simp [isFilter, Node.bare, Node.mapInfo]
  rw [Bool.eq_iff_iff, key, key, h]

/-- Where a break stands or the text ends, a break can stand or the text can end. -/
theorem follow_of_ends {cs : List Char} (hp : p.Scans tokens) (hends : ∀ token ∈ tokens.head?,
      ∃ c, token.kind.char? = some c ∧ isBreak c = true)
    (hcs : ∀ d ∈ cs.head?, isBreak d = true) (hend : p.text = [] → cs = []) : p.Follow cs := by
  cases tokens with
  | nil =>
    rw [Place.Follow, hend hp.nil, hp.nil]
    exact .refl
  | cons token rest =>
    obtain ⟨c, hc, hbreak⟩ := hends token rfl
    exact follow_of_isBreak hp rfl hc hbreak hcs

theorem EndsValue.isBreak {nested : Bool} (h : EndsValue nested token) :
    ∃ c, token.kind.char? = some c ∧ isBreak c = true := by
  rcases h with hk | hk | ⟨-, hk⟩ <;> exact ⟨_, by rw [hk]; rfl, rfl⟩

/-- A value does not start with a block of a filter: no colon can stand in it. -/
theorem nextProgid?_of_value (hp : p.Scans s.rest) (h : value inner false s = .ok tree s') :
    nextProgid? s.rest = none := by
  rw [Option.eq_none_iff_forall_ne_some]
  intro count hsome
  rw [nextProgid?, drop_gapLength] at hsome
  obtain ⟨front, tail, hs, hhead⟩ := isHead_of_progidLength? (noGap_dropWhile _) hsome
  rw [value, here_bind_run, skipGaps_bind_run, hs] at h
  obtain ⟨⟨parts, important⟩, s₁, hloop, -⟩ := bind_eq_ok.1 h
  obtain ⟨first, colon, rest, hfront, hfirst, hcolon⟩ : ∃ first colon rest,
      front = first :: colon :: rest ∧ first.spells "progid" = true ∧ colon.kind = .colon := by
    cases hhead with
    | mk hfirst _ hcolon => exact ⟨_, _, _, rfl, hfirst, hcolon⟩
  have hmem : ∀ token ∈ first :: colon :: (rest ++ tail), token ∈ s.rest := by
    intro token hmem
    refine (List.dropWhile_suffix isGap).subset ?_
    rwa [hs, hfront]
  have hident := ident_of_spells hp (hmem first (.head _)) hfirst (d := 'p') rfl (by decide)
  have hu : first.spells "u" = false := by
    have hletters : first.text.toList.map Text.lowerChar = "progid".toList :=
      of_decide_eq_true hfirst
    rw [Token.spells, Text.sameLetters, hletters]
    rfl
  have hname : readName false ⟨first :: colon :: (rest ++ tail), s.discarded⟩ =
      .ok first.text ⟨colon :: (rest ++ tail), s.discarded⟩ := by
    refine (readName_eq_ok fun token h => hp.text_ne token (hmem token h)).2
      ⟨[first], rfl, rfl, by simp [Text.concat], ?_, fun token h => ?_⟩
    · exact ⟨[], first, [], rfl, by simp, by simp, .inr hident, by simp⟩
    · obtain rfl : colon = token := by simpa using h
      simp [isNamePart, hcolon]
  have hcomponent : component inner .value ⟨first :: colon :: (rest ++ tail), s.discarded⟩ =
      .ok (.leaf (some first.start) .identifier first.text)
        ⟨colon :: (rest ++ tail), s.discarded⟩ := by
    rw [component, kind?_bind_run]
    simp only [List.head?_cons, Option.map_some, hident, named, here_bind_run, bind_of_ok hname,
      isAt_bind_run, hcolon, reduceCtorEq, Option.some.injEq, decide_false,
      Bool.false_eq_true, if_false, run_pure]
  have hrange : atRange (first :: colon :: (rest ++ tail)) = false := by simp [atRange, hu]
  have hround : ∀ st, valuePart inner false st first
      ⟨first :: colon :: (rest ++ tail), s.discarded⟩ =
      .ok (.next [.leaf (some first.start) .identifier first.text] st)
        ⟨colon :: (rest ++ tail), s.discarded⟩ := by
    intro st
    rw [valuePart_ident rfl hident]
    simp only [hrange, Bool.false_eq_true, if_false, bind_of_ok hcomponent, run_pure]
  have hfail : ∀ st result s₂, valuePart inner false st colon
      ⟨colon :: (rest ++ tail), s.discarded⟩ ≠ .ok result s₂ := by
    intro st result s₂ h
    simp only [valuePart, hcolon] at h
    obtain ⟨node, s₃, h, -⟩ := bind_eq_ok.1 h
    rw [component, kind?_bind_run] at h
    simp only [List.head?_cons, Option.map_some, hcolon] at h
    exact fail_ne_ok.1 h
  -- The word is read as an identifier, and nothing can be read at the colon after it.
  rw [hfront] at hloop
  cases rounds_of_loop hloop with
  | done hs => cases hs
  | stop hs hround' =>
    obtain ⟨rfl, -⟩ := List.cons.inj hs
    cases (hround _).symm.trans hround'
  | next hs hround' hrounds =>
    obtain ⟨rfl, rfl⟩ := List.cons.inj hs
    obtain ⟨-, rfl⟩ := EStateM.Result.ok.inj ((hround _).symm.trans hround')
    cases hrounds with
    | done hs => cases hs
    | stop hs hround' | next hs hround' =>
      obtain ⟨rfl, -⟩ := List.cons.inj hs
      exact hfail _ _ _ hround'

theorem valueOf_runs {filter : Bool} (hinner : inner.Returns) (hp : p.Scans s.rest)
    (htidy : Tidy .value s.rest) (hurl : p.state.afterUrl = false)
    (h : valueOf inner filter s = .ok tree s') :
    ∃ p' : Place, p'.Scans s'.rest ∧ p'.firm = p.firm ∧ Balanced s.rest s'.rest ∧
      (p'.state.afterUrl = false ∨ ∀ token ∈ s'.rest.head?, EndsValue false token) ∧
      ∀ n, Runs n p p' (fun cs => (∀ d ∈ cs.head?, closesValue false d = true) ∧
        (p'.text = [] → cs = [])) tree.compact (valueOf (.upTo n) filter)
        fun tree' => tree'.bare = tree.bare := by
  rw [valueOf, get_bind_run] at h
  by_cases hfilter : (filter && (nextProgid? s.rest).isSome) = true
  · rw [if_pos hfilter] at h
    obtain ⟨hfilter, hsome⟩ := Bool.and_eq_true_iff.1 hfilter
    obtain ⟨p', hp', hfirm', hbalanced', hurl', hruns⟩ := filterValue_runs hp htidy hurl h
    refine ⟨p', hp', hfirm', hbalanced', .inl hurl', fun n cs s₁ hcs hs₁ _ => ?_⟩
    obtain ⟨hseen, tree', s₂, hrun, hbare, hs₂, hle⟩ := hruns cs s₁ (closesValue_weaken hcs.1) hs₁
    refine ⟨tree', s₂, ?_, hbare, hs₂, hle⟩
    rw [valueOf, get_bind_run, hseen, hsome, hfilter]
    exact hrun
  · rw [if_neg hfilter] at h
    obtain ⟨p₁, p', -, -, hp', hfirm', hbalanced', hends, -, hruns⟩ :=
      value_restates hinner hp htidy hurl h
    refine ⟨p', hp', hfirm', hbalanced', .inr hends, fun n cs s₁ hcs hs₁ hlt => ?_⟩
    have hfollow := follow_of_ends hp' (fun token hmem => EndsValue.isBreak (hends token hmem))
      (fun d hd => isBreak_of_closesValue (hcs.1 d hd)) hcs.2
    obtain ⟨tree', s₂, hrun, hbare, hs₂, hle⟩ := hruns n cs s₁ ⟨hcs.1, hfollow⟩ hs₁ hlt
    refine ⟨tree', s₂, ?_, hbare, hs₂, hle⟩
    rw [valueOf, get_bind_run, nextProgid?_of_value hs₁ hrun, Option.isSome_none, Bool.and_false]
    exact hrun

/-- A declaration is read again before what ends it. -/
theorem declaration_rereads (hinner : inner.Returns) (hp : p.Scans s.rest)
    (htidy : Tidy .value s.rest) (h : declaration inner s = .ok tree s') :
    ∃ p' : Place, p'.Scans s'.rest ∧ p'.firm = p.firm ∧ Balanced s.rest s'.rest ∧
      (p'.state.afterUrl = false ∨ ∀ token ∈ s'.rest.head?, EndsValue false token) ∧
      ∀ n, Rereads n p p' (fun cs => (∀ d ∈ cs.head?, closesValue false d = true) ∧
        (p'.text = [] → cs = [])) tree.compact (declaration (.upTo n))
        fun tree' => tree'.bare = tree.bare := by
  rw [declaration_eq, here_bind_run] at h
  obtain ⟨name, s₁, hname, h⟩ := bind_eq_ok.1 h
  obtain ⟨node, s₂, hvalue, h⟩ := bind_eq_ok.1 h
  obtain ⟨rfl, rfl⟩ := EStateM.Result.ok.inj h
  obtain ⟨p₁, hp₁, hfirm₁, hbalanced₁, hurl₁, hrereads⟩ :=
    propertyColon_rereads hp htidy.noComments hname
  obtain ⟨p', hp', hfirm', hbalanced', hends, hruns⟩ :=
    valueOf_runs hinner hp₁ (hbalanced₁.tidy htidy) hurl₁ hvalue
  refine ⟨p', hp', hfirm'.trans hfirm₁, .trans hbalanced₁ hbalanced', hends, fun n => ?_⟩
  have hcompact : (Node.pair (s.rest.head?.map Token.start) .declaration name node).compact =
      name.compact ++ [':'] ++ node.compact := by
    simp
  rw [declaration_eq, hcompact]
  refine Rereads.here fun info => (hrereads n).bind (fun name' hname' => ?_) (Nat.le_succ n)
    fun _ _ => trivial
  rw [isFilter_of_bare_eq hname', ← List.append_nil node.compact]
  refine (hruns n).bind (fun node' hnode' => runs_pure ?_) fun cs hcs => hcs
  simp [hname', hnode']


theorem compact_ne_nil_of_declaration (h : declaration inner s = .ok tree s') :
    tree.compact ≠ [] := by
  rw [declaration_eq, here_bind_run] at h
  obtain ⟨name, _, -, h⟩ := bind_eq_ok.1 h
  obtain ⟨node, _, -, h⟩ := bind_eq_ok.1 h
  obtain ⟨rfl, -⟩ := EStateM.Result.ok.inj h
  simp

/-! ## Lists of declarations -/

/-- The characters of declarations with semicolons between them. -/
def listChars (nodes : List Tree) : List Char :=
  List.intercalate [';'] (nodes.map Node.compact)

theorem listChars_cons_cons (node node' : Tree) (nodes : List Tree) :
    listChars (node :: node' :: nodes) = node.compact ++ ';' :: listChars (node' :: nodes) :=
  intercalate_cons_cons _ _ _ _

/-- Where a declaration can be read, a round of a list of them reads it. -/
theorem declarationPart_eq_add (hne : ∀ token ∈ s.rest, token.text ≠ "")
    (hs : s.rest = token :: rest) (h : declaration inner s = .ok tree s') :
    declarationPart inner token = add (declaration inner) := by
  rw [declaration_eq, here_bind_run, propertyColon, property_eq] at h
  obtain ⟨_, _, h, -⟩ := bind_eq_ok.1 h
  obtain ⟨_, _, h, -⟩ := bind_eq_ok.1 h
  obtain ⟨_, _, h, -⟩ := bind_eq_ok.1 h
  obtain ⟨tokens, hrest, -, -, hproperty, -⟩ := (propertyName_eq_ok hne).1 h
  obtain ⟨first, more, rfl⟩ := List.exists_cons_of_ne_nil hproperty.ne_nil
  obtain ⟨rfl, -⟩ := List.cons.inj (hs.symm.trans hrest)
  rw [declarationPart]
  rcases hproperty.kinds token (.head _) with hk | hk | hk | hk | hk | hk | hk <;> rw [hk]

theorem declarationPart_skip (hs : s.rest = token :: rest)
    (hk : token.kind = .whitespace ∨ token.kind = .comment ∨ token.kind = .semicolon) :
    declarationPart inner token s = .ok (.next [] ()) { s with rest } := by
  rcases hk with hk | hk | hk <;> simp [declarationPart, hk, skip, hs]

theorem declarationPart_other (hbrace : token.kind ≠ .rightBrace) (hskip : ¬(token.kind =
    .whitespace ∨ token.kind = .comment ∨ token.kind = .semicolon)) :
    declarationPart inner token = add (declaration inner) := by
  rw [declarationPart]
  cases hk : token.kind <;> first | rfl | simp [hk] at hskip hbrace

theorem declarationPart_eq_stop (h : declarationPart inner token s = .ok .stop s') :
    s' = s ∧ token.kind = .rightBrace := by
  by_cases hbrace : token.kind = .rightBrace
  · rw [declarationPart, hbrace] at h
    exact ⟨(EStateM.Result.ok.inj h).2.symm, hbrace⟩
  by_cases hskip : token.kind = .whitespace ∨ token.kind = .comment ∨ token.kind = .semicolon
  · rcases hskip with hk | hk | hk <;> rw [declarationPart, hk] at h <;> exact nomatch h
  · rw [declarationPart_other hbrace hskip] at h
    exact absurd h add_ne_stop

theorem declarationPart_closing {cs : List Char} (hs : (p.put cs).Scans s.rest)
    (hcs : ∀ d ∈ cs.head?, d = '\x7d') :
    LoopsTo (fun _ => declarationPart inner) () s [] () s := by
  cases hrest : s.rest with
  | nil => exact .done hrest
  | cons token rest =>
    refine .stop hrest ?_
    have hk : token.kind = .rightBrace := by
      cases cs with
      | nil => exact nomatch (hs.eq_nil rfl).symm.trans hrest
      | cons c cs =>
        obtain rfl := hcs c rfl
        rw [hrest] at hs
        exact hs.kind_of_sign rfl rfl (by decide)
    rw [declarationPart, hk]
    rfl

/-- From one place to the other, the declarations are read again with semicolons between them,
before the end of the text or a closing brace. -/
def ListRereads (p p' : Place) (nodes : List Tree) : Prop :=
  ∀ n cs (s : ParserState), (∀ d ∈ cs.head?, d = '\x7d') → (p'.text = [] → cs = []) →
    Place.Scans ⟨ScanState.calm p.state, listChars nodes ++ cs, .soft⟩ s.rest → s.rest.length < n →
    ∃ nodes' s', LoopsTo (fun _ => declarationPart (.upTo n)) () s nodes' () s' ∧
      nodes'.map Node.bare = nodes.map Node.bare ∧ (p'.put cs).Scans s'.rest ∧
      s'.rest.length ≤ s.rest.length

theorem head?_ne_paren_of_closing {cs : List Char} (hcs : ∀ d ∈ cs.head?, d = '\x7d') :
    cs.head? ≠ some '(' :=
  fun h => nomatch hcs _ h

/-- No declarations are read again at once. -/
theorem ListRereads.nil (p : Place) : ListRereads p p [] := by
  intro n cs s hcs _ hs _
  have hs' := (scans_calm_iff (head?_ne_paren_of_closing hcs)).1 hs
  exact ⟨[], s, declarationPart_closing hs' hcs, rfl, hs', Nat.le_refl _⟩

/-- After a declaration that is read again, the others are, behind a semicolon. -/
theorem ListRereads.cons {p₁ p' : Place} {node : Tree} {later : List Tree}
    (hcalm : ScanState.calm p.state = p.state) (hend : p₁.text = [] → later = [] ∧ p'.text = [])
    (hnode : ∀ n, Rereads n p p₁ (fun cs =>
      (∀ d ∈ cs.head?, closesValue false d = true) ∧ (p₁.text = [] → cs = [])) node.compact
        (declaration (.upTo n)) fun node' => node'.bare = node.bare)
    (hlater : ListRereads p₁ p' later) : ListRereads p p' (node :: later) := by
  intro n cs s hcs hempty hs hlt
  -- What follows the declaration in the text, and how the loop goes on from there.
  obtain ⟨tail, hchars, hnext, htail⟩ : ∃ tail : List Char,
      listChars (node :: later) ++ cs = node.compact ++ tail ∧
      ((∀ d ∈ tail.head?, closesValue false d = true) ∧ (p₁.text = [] → tail = [])) ∧
      ∀ s₁ : ParserState, (p₁.put tail).Scans s₁.rest → s₁.rest.length < n →
        ∃ nodes' s', LoopsTo (fun _ => declarationPart (.upTo n)) () s₁ nodes' () s' ∧
          nodes'.map Node.bare = later.map Node.bare ∧ (p'.put cs).Scans s'.rest ∧
          s'.rest.length ≤ s₁.rest.length := by
    cases later with
    | nil =>
      refine ⟨cs, by simp [listChars], ⟨fun d hd => by simp [hcs d hd, closesValue],
        fun h => hempty (hend h).2⟩, fun s₁ hs₁ hlt₁ => ?_⟩
      exact hlater n cs s₁ hcs hempty ((scans_calm_iff (head?_ne_paren_of_closing hcs)).2 hs₁) hlt₁
    | cons node' later =>
      refine ⟨';' :: (listChars (node' :: later) ++ cs), by simp [listChars_cons_cons],
        ⟨by simp [closesValue], fun h => by cases (hend h).1⟩, fun s₁ hs₁ hlt₁ => ?_⟩
      obtain ⟨semicolon, rest₁, hrest₁, hcore, hs₂⟩ := hs₁.of_sign rfl rfl (by decide)
      have hk : semicolon.kind = .semicolon := congrArg Prod.fst hcore
      have hlength : rest₁.length < s₁.rest.length := by simp [hrest₁]
      obtain ⟨nodes', s', hloops, hbare, hs', hle⟩ :=
        hlater n cs { s₁ with rest := rest₁ } hcs hempty hs₂ (by simp only; omega)
      refine ⟨nodes', s', ?_, hbare, hs', by simp only at hle; omega⟩
      exact .next hrest₁ (declarationPart_skip hrest₁ (.inr (.inr hk))) hlength hloops
  rw [hchars, hcalm] at hs
  obtain ⟨node', s₁, hread, hbare, hs₁, hlt₁⟩ := (hnode n).run tail s hnext hs hlt
  obtain ⟨nodes', s', hloops, hbares, hs', hle⟩ := htail s₁ hs₁ (by omega)
  obtain ⟨token, rest, hrest⟩ : ∃ token rest, s.rest = token :: rest :=
    List.exists_cons_of_ne_nil fun h => by simp [h] at hlt₁
  have hround : declarationPart (.upTo n) token s = .ok (.next [node'] ()) s₁ := by
    rw [declarationPart_eq_add hs.text_ne hrest hread, add, bind_of_ok hread, run_pure]
  exact ⟨node' :: nodes', s', .cons hrest hround hlt₁ hloops, by simp [hbares, hbare],
    hs', by omega⟩

/-- The list starts as its first declaration does. -/
theorem headFrom_listChars {cs : List Char} {node : Tree} {later : List Tree}
    (h : HeadFrom cs node.compact) (hne : node.compact ≠ []) :
    HeadFrom cs (listChars (node :: later)) := by
  obtain ⟨w, hw⟩ : ∃ w, listChars (node :: later) = node.compact ++ w := by
    cases later with
    | nil => exact ⟨[], by simp [listChars]⟩
    | cons node' later => exact ⟨_, listChars_cons_cons ..⟩
  intro d hd
  rw [hw, List.head?_append_of_ne_nil _ hne] at hd
  exact h d hd

/-- The rounds of a list of declarations read them again with semicolons between them. -/
theorem declarationPart_rounds {st last : Unit} (hinner : inner.Returns)
    (h : Rounds (fun _ => declarationPart inner) st s nodes last s') (hp : p.Scans s.rest)
    (htidy : Tidy .value s.rest)
    (hurl : p.state.afterUrl = false ∨ ∀ token ∈ s.rest.head?, EndsValue false token) :
    ∃ p' : Place, p'.Scans s'.rest ∧ p'.firm = p.firm ∧ Balanced s.rest s'.rest ∧
      (∀ token ∈ s'.rest.head?, token.kind = .rightBrace) ∧
      (p.text = [] → nodes = [] ∧ p'.text = []) ∧ HeadFrom p.text (listChars nodes) ∧
      ListRereads p p' nodes := by
  induction h generalizing p with
  | done hs =>
    exact ⟨p, hp, rfl, .refl, by simp [hs],
      fun h => ⟨rfl, h⟩, by simp [HeadFrom, listChars], .nil p⟩
  | stop hs hround =>
    obtain ⟨rfl, hk⟩ := declarationPart_eq_stop hround
    exact ⟨p, hp, rfl, .refl, by simpa [hs] using hk,
      fun h => ⟨rfl, h⟩, by simp [HeadFrom, listChars], .nil p⟩
  | @next st s token rest items st₁ s₁ later last s' hs hround hrounds ih =>
    have htext : p.text ≠ [] := fun htext => by cases (hp.eq_nil htext).symm.trans hs
    by_cases hskip : token.kind = .whitespace ∨ token.kind = .comment ∨ token.kind = .semicolon
    · rw [declarationPart_skip hs hskip] at hround
      obtain ⟨hnext, rfl⟩ := EStateM.Result.ok.inj hround
      obtain ⟨rfl, rfl⟩ := Round.next.inj hnext
      rw [hs] at hp htidy ⊢
      obtain ⟨cs₁, htext₁, -, hp₁⟩ := hp.cons
      have hstate : (p.after token cs₁).state = ScanState.calm p.state := by
        rcases hskip with hk | hk | hk <;>
          simp [Place.after, ScanState.after, ScanState.isUrlName, ScanState.calm, hk]
      obtain ⟨p', hp', hfirm', hbalanced', hends', -, hhead, hlater⟩ :=
        ih hp₁ htidy.tail (.inl (by rw [hstate]; rfl))
      refine ⟨p', hp', hfirm', .trans (.token ?_ ?_) hbalanced', hends', (absurd · htext),
        hhead.subset fun c hc => by rw [htext₁]; exact List.mem_append_right _ hc, ?_⟩
      · rcases hskip with hk | hk | hk <;> simp [hk]
      · rcases hskip with hk | hk | hk <;> simp [hk]
      · rw [ListRereads, hstate] at hlater
        exact hlater
    · have hbrace : token.kind ≠ .rightBrace := by
        intro hk
        rw [declarationPart, hk] at hround
        cases hround
      rw [declarationPart_other hbrace hskip] at hround
      obtain ⟨node, rfl, hread⟩ := add_eq_next hround
      have hurl : p.state.afterUrl = false := by
        refine hurl.resolve_right fun hends => ?_
        rcases hends token (by rw [hs]; rfl) with hk | hk | ⟨h, -⟩
        · exact hskip (.inr (.inr hk))
        · exact hbrace hk
        · cases h
      obtain ⟨p₁, hp₁, hfirm₁, hbalanced₁, hends₁, hrereads⟩ :=
        declaration_rereads hinner hp htidy hread
      obtain ⟨p', hp', hfirm', hbalanced', hends', hend, -, hlater⟩ :=
        ih hp₁ (hbalanced₁.tidy htidy) hends₁
      have hhead := ((hrereads 0).follow [] ⟨by simp, fun _ => rfl⟩).headFrom.of_append
      exact ⟨p', hp', hfirm'.trans hfirm₁, .trans hbalanced₁ hbalanced', hends', (absurd · htext),
        headFrom_listChars hhead (compact_ne_nil_of_declaration hread),
        hlater.cons (by rw [ScanState.calm, ← hurl]) hend hrereads⟩

end StyleTree.Grammar
