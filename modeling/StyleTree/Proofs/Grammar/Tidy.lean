import StyleTree.Grammar.Parser

/-! Conditions on the tokens of a text, and which of them hold of the tokens that are left after
reading. `Balanced` describes what a reader reads: whole pairs of parentheses. A condition that
speaks of each token, or of the depth of parentheses, thus passes on to what is left
(`Balanced.noComments`, `Balanced.bangsEnd`, `Balanced.colonsNested`). -/

namespace StyleTree

open StyleTree.Parser

/-- No token is a comment. -/
def NoComments (tokens : List Token) : Prop :=
  ∀ token ∈ tokens, token.kind ≠ .comment

/-- The tokens after an exclamation mark go on with the word `important`, and after it a value ends;
gaps may stand before the word and after it. -/
def flagEnds (tokens : List Token) : Bool :=
  match tokens.dropWhile isGap with
  | [] => false
  | word :: rest => word.kind = .ident && word.spells "important" &&
    (rest.dropWhile isGap).head?.all fun token =>
      token.kind = .semicolon || token.kind = .rightBrace || token.kind = .rightParen

/-- Every exclamation mark starts a flag that ends a value. -/
def bangsEnd : List Token → Bool
  | [] => true
  | token :: tokens => (token.kind ≠ .exclamationMark || flagEnds tokens) && bangsEnd tokens

/-- No colon stands outside of parentheses, after `depth` opening ones. -/
def colonsNested : Nat → List Token → Bool
  | _, [] => true
  | depth, token :: tokens =>
    match token.kind with
    | .leftParen => colonsNested (depth + 1) tokens
    | .rightParen => colonsNested (depth - 1) tokens
    | .colon => 0 < depth && colonsNested depth tokens
    | _ => colonsNested depth tokens

/-- The second list is left of the first after reading tokens with their parentheses in pairs. An
identifier with an escape can be shortened from the front. -/
inductive Balanced : List Token → List Token → Prop where
  | refl {tokens} : Balanced tokens tokens
  | token {token tokens} : token.kind ≠ .leftParen → token.kind ≠ .rightParen →
    Balanced (token :: tokens) tokens
  | cut {token token' tokens} : token.kind = .ident → '\\' ∈ token.text.toList →
    token'.kind = .ident → Balanced (token :: tokens) (token' :: tokens)
  | group {opening closing tokens rest} : opening.kind = .leftParen → closing.kind = .rightParen →
    Balanced tokens (closing :: rest) → Balanced (opening :: tokens) rest
  | trans {tokens tokens₁ tokens₂} : Balanced tokens tokens₁ → Balanced tokens₁ tokens₂ →
    Balanced tokens tokens₂

namespace Balanced

variable {tokens rest : List Token}

theorem of_forall {front : List Token}
    (h : ∀ token ∈ front, token.kind ≠ .leftParen ∧ token.kind ≠ .rightParen) :
    Balanced (front ++ rest) rest := by
  induction front with
  | nil => exact .refl
  | cons token front ih =>
    have ⟨hl, hr⟩ := h token (.head _)
    exact .trans (.token hl hr) (ih fun token hmem => h token (.tail _ hmem))

/-- What holds of the kind of each token, and of identifiers, holds of what is left. -/
theorem forall_kind {P : TokenKind → Prop} (h : Balanced tokens rest) (hident : P .ident)
    (htokens : ∀ token ∈ tokens, P token.kind) : ∀ token ∈ rest, P token.kind := by
  induction h with
  | refl => exact htokens
  | token => exact fun token hmem => htokens token (.tail _ hmem)
  | cut _ _ hk' =>
    intro token hmem
    rcases List.mem_cons.1 hmem with rfl | hmem
    · rwa [hk']
    · exact htokens token (.tail _ hmem)
  | group _ _ _ ih =>
    exact fun token hmem => ih (fun token hmem => htokens token (.tail _ hmem)) token (.tail _ hmem)
  | trans _ _ ih₁ ih₂ => exact ih₂ (ih₁ htokens)

theorem noComments (h : Balanced tokens rest) (hc : NoComments tokens) : NoComments rest :=
  h.forall_kind (P := fun kind => kind ≠ .comment) (by decide) hc

theorem bangsEnd (h : Balanced tokens rest) (hb : bangsEnd tokens = true) :
    StyleTree.bangsEnd rest = true := by
  have tail : ∀ {token tokens}, StyleTree.bangsEnd (token :: tokens) = true →
      StyleTree.bangsEnd tokens = true := fun h => (Bool.and_eq_true_iff.1 h).2
  induction h with
  | refl => exact hb
  | token => exact tail hb
  | cut hk _ hk' => simp [StyleTree.bangsEnd, hk', tail hb]
  | group _ _ _ ih => exact tail (ih (tail hb))
  | trans _ _ ih₁ ih₂ => exact ih₂ (ih₁ hb)

/-- Where there are no escapes, what is left is a part of the list. -/
theorem suffix (h : Balanced tokens rest) (hplain : ∀ token ∈ tokens, '\\' ∉ token.text.toList) :
    rest <:+ tokens := by
  induction h with
  | refl => exact List.suffix_refl _
  | token => exact List.suffix_cons _ _
  | cut _ hescape _ => exact absurd hescape (hplain _ (.head _))
  | group _ _ _ ih =>
    have hsuffix := ih fun token hmem => hplain token (.tail _ hmem)
    exact ((List.suffix_cons _ _).trans hsuffix).trans (List.suffix_cons _ _)
  | trans _ _ ih₁ ih₂ =>
    have hsuffix := ih₁ hplain
    exact (ih₂ fun token hmem => hplain token (hsuffix.subset hmem)).trans hsuffix

/-- Reading whole pairs of parentheses leaves the depth as it was. -/
theorem colonsNested (h : Balanced tokens rest) {depth : Nat}
    (hc : colonsNested depth tokens = true) : StyleTree.colonsNested depth rest = true := by
  induction h generalizing depth with
  | refl => exact hc
  | @token token tokens hl hr =>
    rw [StyleTree.colonsNested] at hc
    split at hc
    next hk => exact absurd hk hl
    next hk => exact absurd hk hr
    next => exact (Bool.and_eq_true_iff.1 hc).2
    next => exact hc
  | cut hk _ hk' =>
    simp only [StyleTree.colonsNested, hk] at hc
    simpa only [StyleTree.colonsNested, hk'] using hc
  | group ho hcl _ ih =>
    simp only [StyleTree.colonsNested, ho] at hc
    have := ih hc
    simpa only [StyleTree.colonsNested, hcl, Nat.add_sub_cancel] using this
  | trans _ _ ih₁ ih₂ => exact ih₂ (ih₁ hc)

end Balanced
end StyleTree
