import StyleTree.Proofs.Grammar.Component

/-! Words that tokens spell together. A name can span several tokens, so a reader may see a word
that no single token spells. Tokens of a text never do so with a word of letters: where it starts,
the scanner takes all of it as one identifier (`spellsWhole_of_scans`, `lacksWord_of_scans`).
Reading keeps this, also where an identifier is cut before an escape (`LacksWord.of_suffix`,
`LacksWord.cut`). -/

namespace StyleTree

open StyleTree.Parser StyleTree.Grammar

/-- No tokens in a row spell the word, in any case. -/
def LacksWord (word : String) (tokens : List Token) : Prop :=
  ∀ part, part <:+: tokens → (tokenChars part).map Text.lowerChar ≠ word.toList

/-- Tokens that start with an escape do not start as a word of letters does. -/
theorem lower_tokenChars_ne {token : Token} {part : List Token} {word : String}
    (htoken : token.text.toList.head? = some '\\') (hword : word.toList.all isLetter = true) :
    (tokenChars (token :: part)).map Text.lowerChar ≠ word.toList := by
  intro hspells
  obtain ⟨w, hw⟩ := List.head?_eq_some_iff.1 htoken
  have hmem : Text.lowerChar '\\' ∈ word.toList := by
    rw [← hspells, tokenChars_cons, hw]
    exact List.mem_map_of_mem (by simp)
  exact (isLetter_of_lowerChar (List.all_eq_true.1 hword _ hmem)).2 rfl

namespace LacksWord

variable {word : String} {tokens tokens' : List Token} {token : Token}

theorem of_suffix (h : LacksWord word tokens) (hsuffix : tokens' <:+ tokens) :
    LacksWord word tokens' :=
  fun part hpart => h part (hpart.trans hsuffix.isInfix)

/-- Tokens that start with an escape spell no word of letters. -/
theorem cut (h : LacksWord word tokens) (hword : word.toList.all isLetter = true)
    (htoken : token.text.toList.head? = some '\\') (hne : word ≠ "") :
    LacksWord word (token :: tokens) := by
  rintro part hpart hspells
  rcases List.infix_cons_iff.1 hpart with hprefix | hinfix
  · obtain ⟨rest, hrest⟩ := hprefix
    cases part with
    | nil => exact hne (String.toList_inj.1 hspells.symm)
    | cons first part =>
      obtain ⟨rfl, -⟩ := List.cons.inj hrest
      exact lower_tokenChars_ne htoken hword hspells
  · exact h part hinfix hspells

/-- A name that is read of the tokens is not the word. -/
theorem sameLetters_eq_false (h : LacksWord word tokens)
    (hword : word.toList.map Text.lowerChar = word.toList) {front : List Token} {name : String}
    (hfront : tokens = front ++ tokens') (hname : name.toList = tokenChars front) :
    Text.sameLetters name word = false := by
  rw [Bool.eq_false_iff]
  intro hsame
  refine h front (hfront ▸ (List.prefix_append front tokens').isInfix) ?_
  rw [← hname]
  exact letters_of_sameLetters hsame hword

/-- None of the tokens is the word. -/
theorem spells_eq_false (h : LacksWord word tokens)
    (hword : word.toList.map Text.lowerChar = word.toList) (hmem : token ∈ tokens) :
    token.spells word = false := by
  obtain ⟨front, back, rfl⟩ := List.append_of_mem hmem
  exact (h.of_suffix (List.suffix_append front _)).sameLetters_eq_false hword
    (List.singleton_append).symm (by simp)

end LacksWord

/-- A lexeme that starts with a letter is an identifier, and goes on over letters. -/
theorem Reads.of_letter {state : ScanState} {kind : TokenKind} {c : Char} {v rest : List Char}
    (h : Reads state kind (c :: v) rest) (hc : CharClass.ofChar c = .identifier)
    (hv : ∀ d ∈ c :: v, CharClass.ofChar d = .identifier ∧ d ≠ '\\') :
    kind = .ident ∧ ∀ d ∈ rest.head?, ¬(CharClass.ofChar d = .identifier ∧ d ≠ '\\') := by
  have hstep : ∀ {d}, CharClass.ofChar d = .identifier ∧ d ≠ '\\' →
      IdentifierState.step .plain d = some .plain := by
    rintro d ⟨hclass, hslash⟩
    simp [IdentifierState.step, IdentifierState.stepPlain, hslash, endsIdentifier, hclass]
  cases h with
  | blanks hc' => cases hc.symm.trans hc'
  | digits hc' => cases hc.symm.trans hc'
  | quoted hc' => cases hc.symm.trans hc'
  | comment => cases hc
  | line => cases hc
  | slashedName => cases hc
  | sign hc' => cases hc.symm.trans hc'
  | @name _ _ last _ _ hrun hstops =>
    refine ⟨rfl, fun d hd hletter => ?_⟩
    have hplain : ∀ w : List Char, (∀ d ∈ w, CharClass.ofChar d = .identifier ∧ d ≠ '\\') →
        w.foldlM IdentifierState.step .plain = some .plain := by
      intro w hw
      induction w with
      | nil => rfl
      | cons d w ih =>
        rw [List.foldlM_cons, hstep (hw d (.head _))]
        exact ih fun d hmem => hw d (.tail _ hmem)
    rw [if_neg (hv c (.head _)).2, hplain v fun d hmem => hv d (.tail _ hmem)] at hrun
    obtain rfl := Option.some.inj hrun
    cases (hstep hletter).symm.trans (hstops d hd)

/-- The tokens spell the word, in any case, only where a single identifier does. -/
def SpellsWhole (word : String) (tokens : List Token) : Prop :=
  ∀ part, part <:+: tokens → (tokenChars part).map Text.lowerChar = word.toList →
    ∃ token, part = [token] ∧ token.kind = .ident

/-- In a text, the identifier at the first letter of a word goes on over all of it. -/
theorem spellsWhole_of_scans {p : Place} {tokens : List Token} (hp : p.Scans tokens) {word : String}
    (hword : word.toList.all isLetter = true) (hne : word ≠ "") : SpellsWhole word tokens := by
  rintro part ⟨before, after, hsplit⟩ hspells
  rw [List.append_assoc] at hsplit
  obtain ⟨cs, -, hp₁⟩ := (hsplit ▸ hp).append
  cases part with
  | nil => exact absurd (String.toList_inj.1 hspells.symm) hne
  | cons token part =>
    have hletter : ∀ d ∈ tokenChars (token :: part), CharClass.ofChar d = .identifier ∧ d ≠ '\\' :=
      fun d hd =>
        isLetter_of_lowerChar (List.all_eq_true.1 hword _ (hspells ▸ List.mem_map_of_mem hd))
    obtain ⟨cs', -, hread, hp₂⟩ := hp₁.cons
    obtain ⟨c, v, htext⟩ := List.exists_cons_of_ne_nil hread.ne_nil
    rw [htext] at hread
    obtain ⟨hkind, hstops⟩ := hread.of_letter (hletter c (by simp [htext])).1 fun d hd =>
      hletter d (by rw [tokenChars_cons, htext]; exact List.mem_append_left _ hd)
    cases part with
    | nil => exact ⟨token, rfl, hkind⟩
    | cons next part =>
      -- The identifier would have gone on over the first letter of the next token.
      obtain ⟨cs'', hcs', hnext, -⟩ := hp₂.cons
      obtain ⟨d, w, hd⟩ := List.exists_cons_of_ne_nil hnext.ne_nil
      have hcs'' : cs' = next.text.toList ++ cs'' := hcs'
      rw [hd] at hcs''
      exact absurd (hletter d (by simp [hd])) (hstops d (by rw [hcs'']; rfl))

/-- The tokens of a text spell a word of letters only where one of them does. -/
theorem lacksWord_of_scans {p : Place} {tokens : List Token} (hp : p.Scans tokens) {word : String}
    (hword : word.toList.all isLetter = true) (hne : word ≠ "")
    (hlower : word.toList.map Text.lowerChar = word.toList)
    (htokens : ∀ token ∈ tokens, token.kind = .ident → token.spells word = false) :
    LacksWord word tokens := by
  intro part hpart hspells
  obtain ⟨token, rfl, hk⟩ := spellsWhole_of_scans hp hword hne part hpart hspells
  have hmem : token ∈ tokens := hpart.subset (.head _)
  refine Bool.false_ne_true ((htokens token hmem hk).symm.trans (decide_eq_true ?_))
  rw [hlower, ← hspells, tokenChars_cons, tokenChars_nil, List.append_nil]

end StyleTree
