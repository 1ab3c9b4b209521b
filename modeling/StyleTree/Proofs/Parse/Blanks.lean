import Mathlib.Data.List.Forall2
import StyleTree.Proofs.Grammar.ProgressRule
import StyleTree.Proofs.Parse.Shape

/-! Runs of blanks stand for each other. Where the tokens of two texts differ only in the text of
their blanks, the texts are parsed to the same tree or refused for the same cause
(`sameResult_of_blanks`). Only an `expression(…)` and a filter block keep the blanks inside as they
stand. -/

namespace StyleTree

open StyleTree.Parser StyleTree.Grammar

/-- The same kind, and the same text except for blanks. -/
structure Token.SameButBlank (token token' : Token) : Prop where
  kind : token'.kind = token.kind
  text : token.kind ≠ .whitespace → token'.text = token.text

instance (token token' : Token) : Decidable (token.SameButBlank token') :=
  decidable_of_iff (token'.kind = token.kind ∧
    (token.kind ≠ .whitespace → token'.text = token.text))
    ⟨fun h => ⟨h.1, h.2⟩, fun h => ⟨h.kind, h.text⟩⟩

/-- The same tree, or errors that say the same. -/
inductive SameResult :
    Except SyntaxError (Node SourceInfo) → Except SyntaxError (Node SourceInfo) → Prop
  | parsed {node : Node SourceInfo} : SameResult (.ok node) (.ok node)
  | refused {error error' : SyntaxError} :
  error'.message = error.message → SameResult (.error error) (.error error')

theorem Token.SameButBlank.face_eq {token token' : Token} (h : token.SameButBlank token') :
    Likeness.blanks.face token' = Likeness.blanks.face token := by
  by_cases hk : token.kind = .whitespace
  · simp [Likeness.face, Likeness.hides, h.kind, hk]
  · rw [Likeness.face, Likeness.face, h.kind, h.text hk]

theorem map_face_eq {tokens tokens' : List Token}
    (h : List.Forall₂ Token.SameButBlank tokens tokens') :
    tokens'.map Likeness.blanks.face = tokens.map Likeness.blanks.face := by
  induction h with
  | nil => rfl
  | cons hface _ ih => rw [List.map_cons, List.map_cons, hface.face_eq, ih]

/-- The tokens of a text that spells neither a script nor a filter block look like those of every
text that differs in its blanks. -/
theorem near_of_sameButBlank {context : Context} {text : String} {tokens' : List Token}
    (h : List.Forall₂ Token.SameButBlank (context.tokens text) tokens')
    (hwords : ∀ token ∈ context.tokens text, token.kind = .ident →
      token.spells "expression" = false ∧ token.spells "progid" = false) :
    Likeness.blanks.Near (context.tokens text) tokens' where
  faces := ⟨_, tokens', (List.append_nil _).symm, (List.append_nil _).symm, map_face_eq h⟩
  blank := nofun
  short := Nat.le_refl _
  spelled := spelled_tokens context text
  words _ := by
    have hscans := TokenTable.scans_ofText text context.startsInBlock
    exact ⟨lacksWord_of_scans hscans (by decide) (by decide) (by decide)
      fun token hmem hk => (hwords token hmem hk).1,
      lacksWord_of_scans hscans (by decide) (by decide) (by decide)
        fun token hmem hk => (hwords token hmem hk).2⟩
  closed h := absurd rfl h

/-- **Runs of blanks are interchangeable.** Two texts whose tokens differ only in the text of their
blanks, none of which spells `expression` or `progid`, give the same tree or the same message. -/
theorem sameResult_of_blanks {text text' : String} {options : ParseOptions}
    (hpositions : options.positions = false)
    (htokens : List.Forall₂ Token.SameButBlank (options.context.tokens text)
      (options.context.tokens text'))
    (hwords : ∀ token ∈ options.context.tokens text, token.kind = .ident →
      token.spells "expression" = false ∧ token.spells "progid" = false) :
    SameResult (parse text options) (parse text' options) := by
  have hnear := near_of_sameButBlank htokens hwords
  have hmirrors := mirrors_production (L := .blanks) options.context htokens.length_eq.le
  cases hrun : options.context.production (options.context.tokens text).length
      { rest := options.context.tokens text } with
  | ok tree s' =>
    obtain ⟨tree', t', hrun', hbare, -⟩ :=
      hmirrors.follows (t := { rest := options.context.tokens text' })
      trivial hnear (.inl rfl) hrun (.inl rfl)
    rw [(parse_eq_ok hpositions).2 ⟨tree, s', hrun, rfl⟩,
      (parse_eq_ok hpositions).2 ⟨tree', t', hrun', hbare⟩]
    exact .parsed
  | error failure s' =>
    have hunstuck :=
      (settles_production options.context (options.context.tokens text).length).unstuck
      (s := { rest := options.context.tokens text }) (Nat.lt_succ_self _) trivial hrun
    obtain ⟨failure', t', hrun', hcause⟩ :=
      hmirrors.fails (t := { rest := options.context.tokens text' })
      rfl trivial hnear hrun hunstuck
    obtain ⟨error, herror, hmessage⟩ := parse_of_error hrun
    obtain ⟨error', herror', hmessage'⟩ := parse_of_error hrun'
    rw [herror, herror']
    exact .refused (by rw [hmessage, hmessage', hcause])

/-- Blanks between parts, in an expression and in a value can be spaces, tabs or line ends. -/
theorem sameResult_of_blanks_sheet :
    SameResult (parse "@m a b \x7b + c [d = 'x']\x7be: 1px 2\x7d\x7d" {})
      (parse "@m\ta \n b\t\t\x7b\n+  c\r\n[d\t=\n'x']\x7be:\x0c1px\t\n2\x7d\x7d" {}) := by
  exact sameResult_of_blanks rfl (by decide +kernel) (by decide +kernel)

end StyleTree
