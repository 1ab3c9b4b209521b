import Mathlib.Data.List.Forall2
import StyleTree.Proofs.Grammar.Listed
import StyleTree.Proofs.Parse.Append
import StyleTree.Proofs.Token.History

/-! Selector lists, entry by entry. Between texts that are accepted as simple selectors, a comma is
scanned as one lexeme, and what stands before and after it is scanned as it is alone
(`coresFrom_comma`). So the list of such texts is read as the list of their trees. If one of them is
blank, none is kept (`parse_intercalate`). -/

namespace StyleTree

open StyleTree.Parser StyleTree.Grammar

/-! ## Scanning up to a comma -/

section
variable {state : ScanState} {kind : TokenKind} {v w rest cs ds : List Char}

/-- A lexeme that makes use of no extension and leaves no escape open ends before a comma. -/
theorem Reads.before_comma (h : Reads state kind w rest) (hextension : extensionOf kind w = none)
    (hlast : w.getLast? ≠ some '\\') : Reads state kind w (',' :: ds) := by
  cases h with
  | blanks hc hv => exact .blanks hc hv fun d hd => Option.some.inj hd ▸ rfl
  | digits hc hv => exact .digits hc hv fun d hd => Option.some.inj hd ▸ rfl
  | @quoted c v last _ hc hv =>
    rw [extensionOf_string hc hv] at hextension
    obtain rfl : last = .closed := by simpa using hextension
    exact .quoted hc hv fun _ _ => rfl
  | @name c v last _ hc hv =>
    exact .name hc hv fun d hd => Option.some.inj hd ▸ IdentifierState.step_break
      (IdentifierState.ne_escape_of_name hv hlast) rfl
  | @comment v last _ hv =>
    rw [extensionOf_comment hv] at hextension
    obtain rfl : last = .closed := by simpa using hextension
    exact .comment hv fun _ _ => rfl
  | line => exact nomatch hextension
  | @slashedName v last _ hurl hdepth hv =>
    exact .slashedName hurl hdepth hv fun d hd => Option.some.inj hd ▸ IdentifierState.step_break
      (IdentifierState.ne_escape_of_slashes hv hlast) rfl
  | sign hc hkind => exact .sign hc hkind fun _ d hd => Option.some.inj hd ▸ ⟨by decide, nofun⟩

/-- No block is open where none was opened. -/
theorem depth_afterAll {cores : List (TokenKind × List Char)} (hdepth : state.depth = 0)
    (hcores : ∀ core ∈ cores, core.1 ≠ .leftBrace) : (state.afterAll cores).depth = 0 := by
  induction cores generalizing state with
  | nil => exact hdepth
  | cons core cores ih =>
    obtain ⟨hcore, hcores⟩ := List.forall_mem_cons.1 hcores
    refine ih ?_ hcores
    cases hk : core.1 <;> simp_all [ScanState.after]

/-- **A comma parts the lexemes of a text.** The scanner is in its first state behind the comma. -/
theorem coresFrom_comma
    (hextension : ∀ core ∈ (coresFrom (.start false) cs).getLast?, extensionOf core.1 core.2 = none)
    (hlast : cs.getLast? ≠ some '\\')
    (hbrace : ∀ core ∈ coresFrom (.start false) cs, core.1 ≠ .leftBrace)
    (hnest : nest false [] ((coresFrom (.start false) cs).map Prod.fst) = some []) :
    coresFrom (.start false) (cs ++ ',' :: ds) =
      coresFrom (.start false) cs ++ (.comma, [',']) :: coresFrom (.start false) ds := by
  have hfirst : coresFrom (.start false) (coreChars (coresFrom (.start false) cs) ++ []) =
      coresFrom (.start false) cs ++ [] := by
    rw [List.append_nil, List.append_nil, coreChars_coresFrom]
  have hread :
      ∀ core ∈ (coresFrom (.start false) cs).getLast?, ∀ {state}, Reads state core.1 core.2 [] →
      Reads state core.1 core.2 (',' :: ds) := by
    intro core hmem state hread
    refine hread.before_comma (hextension core hmem) fun hbackslash => hlast ?_
    obtain ⟨init, hinit⟩ := List.getLast?_eq_some_iff.1 hmem
    rw [← coreChars_coresFrom (.start false) cs, hinit]
    simp [List.getLast?_append, hbackslash]
  have hboth := coresFrom_replace hfirst hread
  have hcomma : TokenKind.ofChar? ',' = some .comma := rfl
  rw [coreChars_coresFrom, coresFrom_sign (by decide) hcomma (by decide)] at hboth
  have hstate : ((ScanState.start false).afterAll (coresFrom (.start false) cs)).after .comma
      [','] = .start false := by
    refine ScanState.eq_of (depth_afterAll rfl hbrace) (Bool.eq_false_iff.2 fun hurl => ?_) rfl
    exact inUrl_of_nest hnest (by decide) hurl rfl
  rw [hboth, hstate]

end

/-! ## Texts between commas -/

/-- A text that is accepted as a simple selector and can stand between commas. -/
structure IsEntry (options : ParseOptions) (text : String) (tree : Node SourceInfo) : Prop where
  read : parse text { options with context := .simpleSelector } = .ok tree
  openEnd : ∀ token ∈ Context.simpleSelector.tokens text, token.kind ≠ .comma ∧
    token.kind ≠ .leftBrace
  extensions : (TokenTable.ofText text false).extensions = []
  unmarked : byteOrderMark ∉ text.toList
  unescaped : text.toList.getLast? ≠ some '\\'

instance (options : ParseOptions) (text : String) (tree : Node SourceInfo) :
    Decidable (IsEntry options text tree) :=
  decidable_of_iff (parse text { options with context := .simpleSelector } = .ok tree ∧
      (∀ token ∈ Context.simpleSelector.tokens text, token.kind ≠ .comma ∧
        token.kind ≠ .leftBrace) ∧
      (TokenTable.ofText text false).extensions = [] ∧ byteOrderMark ∉ text.toList ∧
      text.toList.getLast? ≠ some '\\')
    ⟨fun h => ⟨h.1, h.2.1, h.2.2.1, h.2.2.2.1, h.2.2.2.2⟩,
      fun h => ⟨h.read, h.openEnd, h.extensions, h.unmarked, h.unescaped⟩⟩

/-- Where no byte order mark comes first, the lexemes are those of the whole text. -/
theorem Context.map_core_tokens {context : Context} (hcontext : context.startsInBlock = false)
    {text : String} (hmark : ∀ c ∈ text.toList.head?, c ≠ byteOrderMark) :
    (context.tokens text).map Token.core = coresFrom (.start false) text.toList := by
  have hcores := (TokenTable.scans_ofText text context.startsInBlock).cores
  rw [withoutMark_eq_self hmark, hcontext] at hcores
  rw [Context.tokens, hcontext, hcores]

namespace IsEntry

variable {options : ParseOptions} {text : String} {tree : Node SourceInfo} {ds : List Char}

theorem head?_ne_mark (h : IsEntry options text tree) :
    ∀ c ∈ text.toList.head?, c ≠ byteOrderMark :=
  fun _ hc hmark => h.unmarked (hmark ▸ List.mem_of_mem_head? hc)

theorem map_core_tokens (h : IsEntry options text tree) :
    (Context.simpleSelector.tokens text).map Token.core = coresFrom (.start false) text.toList :=
  Context.map_core_tokens rfl h.head?_ne_mark

theorem not_endsSelector (h : IsEntry options text tree) :
    ∀ token ∈ Context.simpleSelector.tokens text, ¬EndsSelector false token := fun token hmem =>
  not_or.2 (h.openEnd token hmem)

/-- The text is read to its end. -/
theorem exists_read (hpositions : options.positions = false) (h : IsEntry options text tree) :
    ∃ node s',
    simpleSelector (.upTo ((Context.simpleSelector.tokens text).length + 1)) false
      { rest := Context.simpleSelector.tokens text } = .ok node s' ∧ s'.rest = [] ∧
      node.bare = tree := by
  have hpositions : ({ options with context := .simpleSelector } : ParseOptions).positions =
    false := hpositions
  obtain ⟨node, s', hread, hbare⟩ := (parse_eq_ok hpositions).1 h.read
  exact ⟨node, s', hread, rest_of_simpleSelector hread h.not_endsSelector, hbare⟩

theorem nest_eq (hpositions : options.positions = false) (h : IsEntry options text tree) :
    nest false [] ((Context.simpleSelector.tokens text).map Token.kind) = some [] := by
  obtain ⟨node, s', hread, hrest, -⟩ := h.exists_read hpositions
  have hread : Context.production .simpleSelector (Context.simpleSelector.tokens text).length
    { rest := Context.simpleSelector.tokens text } = .ok node s' := hread
  have hknown : Known false (Context.simpleSelector.tokens text) := known_tokens nofun
  exact nest_of_rest_eq_nil hknown hread hrest

/-- What the entry is read of. -/
theorem exists_listEntry (hpositions : options.positions = false) (h : IsEntry options text tree) :
    ∃ entry : ListEntry, entry.tokens = Context.simpleSelector.tokens text ∧
      entry.tree.bare = tree := by
  obtain ⟨node, s', hread, -, hbare⟩ := h.exists_read hpositions
  exact ⟨⟨_, node, spelled_tokens _ text, parensClose_of_nest (h.nest_eq hpositions),
    h.not_endsSelector, s', hread⟩, rfl, hbare⟩

theorem coresFrom_append (hpositions : options.positions = false) (h : IsEntry options text tree) :
    coresFrom (.start false) (text.toList ++ ',' :: ds) =
      (Context.simpleSelector.tokens text).map Token.core ++ (.comma, [',']) :: coresFrom
        (.start false) ds := by
  have hcores := h.map_core_tokens
  rw [hcores]
  refine coresFrom_comma (fun core hmem => ?_) h.unescaped (fun core hmem => ?_) ?_
  · rw [← hcores] at hmem
    obtain ⟨token, htoken, rfl⟩ := List.mem_map.1 (List.mem_of_mem_getLast? hmem)
    have hextensions := h.extensions
    rw [TokenTable.extensions_ofText, List.filterMap_eq_nil_iff] at hextensions
    exact Option.map_eq_none_iff.1 (hextensions token htoken)
  · rw [← hcores] at hmem
    obtain ⟨token, htoken, rfl⟩ := List.mem_map.1 hmem
    exact (h.openEnd token htoken).2
  · rw [← hcores, List.map_map]
    exact h.nest_eq hpositions

end IsEntry

/-- The tokens of the texts with commas between them. -/
theorem exists_lists {options : ParseOptions} (hpositions : options.positions = false)
    {texts : List String}
    {trees : List (Node SourceInfo)} (h : List.Forall₂ (IsEntry options) texts trees)
    (hne : texts ≠ []) {tokens : List Token}
    (htokens : tokens.map Token.core = coresFrom (.start false)
      ([','].intercalate (texts.map String.toList))) :
    ∃ entries, Lists entries tokens ∧ entries.map (fun entry => entry.tree.bare) = trees := by
  induction h generalizing tokens with
  | nil => exact absurd rfl hne
  | @cons text tree texts trees hentry hlater ih =>
    obtain ⟨entry, hfirst, hbare⟩ := hentry.exists_listEntry hpositions
    cases hlater with
    | nil =>
      rw [List.map_cons, List.map_nil, List.intercalate_singleton, ← hentry.map_core_tokens,
        ← hfirst] at htokens
      exact ⟨[entry], .last htokens, by rw [List.map_singleton, hbare]⟩
    | cons _ _ =>
      rw [List.map_cons, List.map_cons, List.intercalate_cons_cons, List.append_assoc,
        List.singleton_append, hentry.coresFrom_append hpositions, ← hfirst] at htokens
      obtain ⟨front, back, rfl, hfront, hback⟩ := List.map_eq_append_iff.1 htokens
      obtain ⟨comma, rest, rfl, hcomma, hrest⟩ := List.map_eq_cons_iff.1 hback
      obtain ⟨entries, hlists, hbares⟩ := ih nofun hrest
      exact ⟨entry :: entries, .more hfront (congrArg Prod.fst hcomma)
        hlists, by rw [List.map_cons, hbare, hbares]⟩

/-- Nor does the list start with a byte order mark. -/
theorem head?_intercalate_ne_mark {options : ParseOptions} {texts : List String}
    {trees : List (Node SourceInfo)} (h : List.Forall₂ (IsEntry options) texts trees) :
    ∀ c ∈ ([','].intercalate (texts.map String.toList)).head?, c ≠ byteOrderMark := by
  cases h with
  | nil => exact nofun
  | @cons text tree texts trees hentry hlater =>
    cases hlater with
    | nil =>
      rw [List.map_singleton, List.intercalate_singleton]
      exact hentry.head?_ne_mark
    | cons _ _ =>
      rw [List.map_cons, List.map_cons, List.intercalate_cons_cons, List.append_assoc,
        List.singleton_append]
      cases htext : text.toList with
      | nil => exact fun c hc => Option.some.inj hc ▸ by decide
      | cons d cs => exact fun c hc => hentry.head?_ne_mark c (by rw [htext]; exact hc)

/-- **Selector lists are read comma by comma, all or nothing.** Each of the texts is accepted as a
simple selector, holds no comma and no brace, makes use of no extension and ends outside of escapes.
Then the list of the texts holds their trees in order, or nothing if one of them is blank. -/
theorem parse_intercalate {options : ParseOptions} (hcontext : options.context = .selector)
    (hpositions : options.positions = false) {texts : List String} {trees : List (Node SourceInfo)}
    (hne : texts ≠ []) (h : List.Forall₂ (IsEntry options) texts trees) :
    parse (",".intercalate texts) options =
      .ok (.sequence none .selector
        (if trees.any fun tree => tree.children.isEmpty then [] else trees)) := by
  have htext : (",".intercalate texts).toList = [','].intercalate (texts.map String.toList) :=
    String.toList_intercalate
  have htokens : (Context.selector.tokens (",".intercalate texts)).map Token.core =
      coresFrom (.start false) ([','].intercalate (texts.map String.toList)) := by
    rw [← htext]
    exact Context.map_core_tokens rfl (htext ▸ head?_intercalate_ne_mark h)
  obtain ⟨entries, hlists, rfl⟩ := exists_lists hpositions h hne htokens
  obtain ⟨tree, s', hread, hbare⟩ := selector_of_lists hlists (Nat.lt_succ_self _)
  refine (parse_eq_ok hpositions).2 ⟨tree, s', ?_, hbare⟩
  rw [hcontext]
  exact hread

/-- Three selectors with an escape, a link and a blank before the commas are kept; nothing is kept
where a comment is all that stands between two commas. -/
theorem parse_intercalate_blank :
    let name (text : String) : Node SourceInfo :=
      .sequence none .simpleSelector [.leaf none .identifier text]
    let link : Node SourceInfo := .sequence none .simpleSelector
      [.leaf none .classSelector "b", .leaf none .combinator ">",
        .wrapper none .url (.leaf none .raw "//c")]
    List.Forall₂ (IsEntry { context := .selector }) ["a\\2c", ".b>:url(//c)", "d "]
      [name "a\\2c", link, name "d"] ∧
      parse (",".intercalate ["a\\2c", ".b>:url(//c)", "d "]) { context := .selector } =
        .ok (.sequence none .selector [name "a\\2c", link, name "d"]) ∧
      List.Forall₂ (IsEntry { context := .selector }) ["a", "/* b */", "c"]
        [name "a", .sequence none .simpleSelector [], name "c"] ∧
      parse (",".intercalate ["a", "/* b */", "c"]) { context := .selector } =
        .ok (.sequence none .selector []) := by
  intro name link
  have hkept : List.Forall₂ (IsEntry { context := .selector }) ["a\\2c", ".b>:url(//c)", "d "]
      [name "a\\2c", link, name "d"] := by decide +kernel
  have hdropped : List.Forall₂ (IsEntry { context := .selector }) ["a", "/* b */", "c"]
      [name "a", .sequence none .simpleSelector [], name "c"] := by decide +kernel
  exact ⟨hkept, parse_intercalate rfl rfl (List.cons_ne_nil _ _) hkept, hdropped,
    parse_intercalate rfl rfl (List.cons_ne_nil _ _) hdropped⟩

end StyleTree
