import Mathlib.Data.List.Forall2
import StyleTree.Grammar.Filter
import StyleTree.Proofs.Grammar.Value

/-! Filter values: rows of `progid:…(…)` blocks. Each block is kept as it stands, from its first
word to its closing parenthesis, and whether one stands somewhere is seen in its own tokens
(`IsProgid`). So a filter value is read again without the gaps between its blocks
(`filterValue_runs`). -/

namespace StyleTree

open StyleTree.Parser

/-- Tokens up to a closing parenthesis that are kept as they stand are scanned again before any
text. -/
theorem Place.Scans.verbatim_closing {p : Place} {front rest : List Token} {closing : Token}
    (h : p.Scans (front ++ closing :: rest)) (hk : closing.kind = .rightParen) :
    ∃ p' : Place, p'.Scans rest ∧ p'.firm = p.firm ∧ p'.state.afterUrl = false ∧
      ∀ cs, p.Follow (tokenChars (front ++ [closing]) ++ cs) ∧
        ∀ tokens, (p.put (tokenChars (front ++ [closing]) ++ cs)).Scans tokens →
          ∃ front' rest', tokens = front' ++ rest' ∧
            front'.map Token.core = (front ++ [closing]).map Token.core ∧
            (p'.put cs).Scans rest' := by
  obtain ⟨cs', htext, hp₁⟩ := h.append
  obtain ⟨cs₁, htext₁, hp', hstate, hsign⟩ := rereads_sign (c := ')') hp₁ hk rfl rfl (by decide)
  have hcs' : cs' = ')' :: cs₁ := htext₁
  have hclosing : closing.text.toList = [')'] := by
    obtain ⟨_, -, hread, -⟩ := hp₁.cons
    rw [hk] at hread
    exact hread.eq_char rfl
  have hchars : ∀ cs, tokenChars (front ++ [closing]) ++ cs = tokenChars front ++ (')' :: cs) := by
    simp [hclosing]
  have hfollow : ∀ cs, (p.afterAll front cs').Follow (')' :: cs) :=
    fun cs => (hsign 0).follow cs trivial
  have hlast : ∀ cs, ∀ token ∈ front.getLast?,
      (token.kind ≠ .unknown ∧ token.kind ≠ .comment) ∨ cs'.head? = (')' :: cs).head? :=
    fun _ _ _ => .inr (by rw [hcs']; rfl)
  refine ⟨_, hp', rfl, by rw [← hstate]; rfl, fun cs => ?_⟩
  rw [hchars]
  obtain ⟨hf, hscan⟩ := h.verbatim htext (hlast cs) (hfollow cs)
  refine ⟨hf, fun tokens hs => ?_⟩
  obtain ⟨front', rest', rfl, hcore, hrest'⟩ := hscan tokens hs
  obtain ⟨closing', rest'', rfl, hclosing', hs''⟩ := hrest'.of_sign rfl rfl (by decide)
  refine ⟨front' ++ [closing'], rest'', by simp, ?_, ?_⟩
  · have hlast : closing'.core = closing.core := by
      rw [hclosing', ← hk, ← hclosing]
      rfl
    rw [List.map_append, List.map_append, hcore, List.map_singleton, List.map_singleton, hlast]
  · rw [hstate] at hs''
    exact hs''

namespace Grammar

variable {p : Place} {s s' : ParserState} {tokens tokens' front front' rest rest' : List Token}
  {tree : Tree} {nodes : List Tree}

/-! ## Blocks -/

theorem gapLength_append {gap : List Token} (hgap : ∀ token ∈ gap, isGap token = true)
    (hrest : NoGap rest) : gapLength (gap ++ rest) = gap.length := by
  rw [gapLength, (takeWhile_eq_of_ends hgap hrest).1]

theorem gapLength_split (tokens : List Token) : ∃ gap rest, tokens = gap ++ rest ∧
    (∀ token ∈ gap, isGap token = true) ∧ NoGap rest :=
  ⟨tokens.takeWhile isGap, tokens.dropWhile isGap, List.takeWhile_append_dropWhile.symm,
    fun _ hmem => List.mem_takeWhile_imp hmem, noGap_dropWhile tokens⟩

theorem drop_gapLength (tokens : List Token) :
    tokens.drop (gapLength tokens) = tokens.dropWhile isGap :=
  drop_length_takeWhile isGap tokens

/-- The token is of the given spelling or kind. -/
def Fits : String ⊕ TokenKind → Token → Prop
  | .inl word, token => token.spells word = true
  | .inr kind, token => token.kind = kind

theorem fits_congr {item : String ⊕ TokenKind} {token token' : Token} (h : token'.core = token.core)
    (hfits : Fits item token) : Fits item token' := by
  cases item with
  | inl word =>
    have hfits : token.spells word = true := hfits
    rwa [Token.spells, ← Token.text_eq_of_core h] at hfits
  | inr kind => exact (Token.kind_eq_of_core h).trans hfits

/-- A pattern is matched token by token. -/
theorem startsWith_iff {pattern : List (String ⊕ TokenKind)} :
    startsWith pattern tokens = true ↔
      ∃ front rest, tokens = front ++ rest ∧ List.Forall₂ Fits pattern front := by
  induction pattern generalizing tokens with
  | nil => exact ⟨fun _ => ⟨[], tokens, rfl, .nil⟩, fun _ => by cases tokens <;> rfl⟩
  | cons item pattern ih =>
    have hstep : ∀ token tokens, startsWith (item :: pattern) (token :: tokens) = true ↔
        Fits item token ∧ startsWith pattern tokens = true := by
      intro token tokens
      cases item <;> simp [startsWith, Fits]
    constructor
    · intro h
      cases tokens with
      | nil => cases item <;> exact nomatch h
      | cons token tokens =>
        obtain ⟨hfits, h⟩ := (hstep token tokens).1 h
        obtain ⟨front, rest, rfl, hfront⟩ := ih.1 h
        exact ⟨token :: front, rest, rfl, .cons hfits hfront⟩
    · rintro ⟨_, rest, rfl, hfront⟩
      cases hfront with
      | @cons _ token _ front hfits hfront =>
        exact (hstep token (front ++ rest)).2 ⟨hfits, ih.2 ⟨front, rest, rfl, hfront⟩⟩

/-- The name after the colon of a block. -/
def progidName : List (String ⊕ TokenKind) :=
  [.inl "dximagetransform", .inr .fullStop, .inl "microsoft", .inr .fullStop, .inr .ident]

/-- The tokens of a block up to its opening parenthesis: the pattern of its name with gaps in two
places. -/
inductive IsHead : List Token → Prop where
  | mk {first colon opening : Token} {gap name gap' : List Token} : first.spells "progid" = true →
    isGap first = false → colon.kind = .colon → (∀ token ∈ gap, isGap token = true) →
    List.Forall₂ Fits progidName name → NoGap name → (∀ token ∈ gap', isGap token = true) →
    opening.kind = .leftParen → IsHead (first :: colon :: (gap ++ (name ++ (gap' ++ [opening]))))

theorem noGap_append (h : NoGap front) (hne : front ≠ []) (rest : List Token) :
    NoGap (front ++ rest) := by
  cases front with
  | nil => exact absurd rfl hne
  | cons token front => exact h

theorem noGap_of_kind {token : Token} (h : isGap token = false) : NoGap (token :: rest) :=
  fun token' hmem => by simpa [← Option.some.inj hmem] using h

theorem IsHead.noGap (h : IsHead front) : NoGap (front ++ rest) := by
  cases h with
  | mk _ hgap => exact noGap_of_kind hgap

/-- Where the block ends is looked up after its head. -/
theorem progidLength?_eq (h : IsHead front) (tokens : List Token) :
    progidLength? (front ++ tokens) =
      if balancedLength 0 tokens < tokens.length then
        some (front.length + balancedLength 0 tokens + 1)
      else none := by
  cases h with
  | @mk first colon opening gap name gap' hfirst _ hcolon hgap hname hnoGap hgap' hopening =>
    have hlen : name.length = 5 := hname.length_eq.symm
    have hne : name ≠ [] := List.ne_nil_of_length_pos (by omega)
    have hgaps : gapLength (gap ++ (name ++ (gap' ++ (opening :: tokens)))) = gap.length :=
      gapLength_append hgap (noGap_append hnoGap hne _)
    have hgaps' : gapLength (gap' ++ (opening :: tokens)) = gap'.length :=
      gapLength_append hgap' (noGap_of_kind (by simp [isGap, hopening]))
    have hpattern : startsWith progidName (name ++ (gap' ++ opening :: tokens)) = true :=
      startsWith_iff.2 ⟨name, _, rfl, hname⟩
    rw [progidName] at hpattern
    have hparen : startsWith [.inr .leftParen] (opening :: tokens) = true := by
      simp [startsWith, hopening]
    -- The lookups go by offsets from the front; each is the length of the tokens before it.
    have hdrop : ∀ {a b : List Token} {k}, a.length = k → (a ++ b).drop k = b := by
      rintro a b _ rfl
      exact List.drop_left
    generalize hall : first :: colon :: (gap ++ (name ++ (gap' ++ [opening]))) ++ tokens = all
    have h₀ : all.drop 2 = gap ++ (name ++ (gap' ++ (opening :: tokens))) := by simp [← hall]
    have h₁ : all.drop (2 + gap.length) = name ++ (gap' ++ (opening :: tokens)) := by
      rw [← List.drop_drop, h₀, hdrop rfl]
    have h₂ : all.drop (2 + gap.length + 5) = gap' ++ (opening :: tokens) := by
      rw [← List.drop_drop, h₁, hdrop hlen]
    have h₃ : all.drop (2 + gap.length + 5 + gap'.length) = opening :: tokens := by
      rw [← List.drop_drop, h₂, hdrop rfl]
    have h₄ : all.drop (2 + gap.length + 5 + gap'.length + 1) = tokens := by
      rw [← List.drop_drop, h₃]
      rfl
    have hfirst' : startsWith [.inl "progid", .inr .colon] all = true := by
      rw [← hall]
      simp [startsWith, hfirst, hcolon]
    have hlength : all.length = 2 + gap.length + 5 + gap'.length + 1 + tokens.length := by
      simp [← hall, hlen]
      omega
    simp only [progidLength?, hfirst', h₀, hgaps, h₁, hpattern, h₂, hgaps', h₃, hparen, h₄, hlength,
      Bool.not_true, Bool.false_eq_true, if_false, Nat.add_lt_add_iff_left]
    congr 2
    simp [hlen]
    omega

theorem forall₂_pair {a b : String ⊕ TokenKind} (h : List.Forall₂ Fits [a, b] front) :
    ∃ first second, front = [first, second] ∧ Fits a first ∧ Fits b second := by
  cases h with
  | @cons _ first _ _ hfirst h =>
    cases h with
    | @cons _ second _ _ hsecond h =>
      cases h
      exact ⟨first, second, rfl, hfirst, hsecond⟩

theorem balancedLength_lt {depth : Nat} (h : balancedLength depth tokens < tokens.length) :
    ∃ inside closing rest, tokens = inside ++ closing :: rest ∧ closing.kind = .rightParen ∧
      balancedLength depth tokens = inside.length := by
  induction tokens generalizing depth with
  | nil => exact nomatch h
  | cons token tokens ih =>
    have key : ∀ {d}, balancedLength depth (token :: tokens) = balancedLength d tokens + 1 →
        ∃ inside closing rest, token :: tokens = inside ++ closing :: rest ∧
          closing.kind = .rightParen ∧ balancedLength depth (token :: tokens) = inside.length := by
      intro d heq
      rw [heq, List.length_cons, Nat.add_lt_add_iff_right] at h
      obtain ⟨inside, closing, rest, rfl, hk, hlength⟩ := ih h
      exact ⟨token :: inside, closing, rest, rfl, hk, by rw [heq, hlength, List.length_cons]⟩
    by_cases hr : token.kind = .rightParen
    · cases depth with
      | zero => exact ⟨[], token, tokens, rfl, hr, balancedLength_closing hr⟩
      | succ depth => exact key (balancedLength_right hr)
    · by_cases hl : token.kind = .leftParen
      · exact key (balancedLength_left hl)
      · exact key (balancedLength_other hl hr)

theorem isHead_of_progidLength? {count : Nat} (hgap : NoGap tokens)
    (h : progidLength? tokens = some count) :
    ∃ front rest, tokens = front ++ rest ∧ IsHead front := by
  rw [progidLength?] at h
  split at h
  next => exact nomatch h
  next hstart =>
    obtain ⟨_, tokens₁, rfl, hfits⟩ := startsWith_iff.1 (by simpa using hstart)
    obtain ⟨first, colon, rfl, hfirst, hcolon⟩ := forall₂_pair hfits
    obtain ⟨gap, tokens₂, rfl, hgaps, hnoGap⟩ := gapLength_split tokens₁
    have h₁ : ([first, colon] ++ (gap ++ tokens₂)).drop 2 = gap ++ tokens₂ := rfl
    have h₂ : ([first, colon] ++ (gap ++ tokens₂)).drop (2 + gap.length) = tokens₂ := by
      rw [← List.drop_drop, h₁, List.drop_left]
    simp only [h₁, gapLength_append hgaps hnoGap, h₂] at h
    split at h
    next => exact nomatch h
    next hpattern =>
      obtain ⟨name, tokens₃, rfl, hname⟩ := startsWith_iff.1 (by simpa using hpattern)
      obtain ⟨gap', tokens₄, rfl, hgaps', hnoGap'⟩ := gapLength_split tokens₃
      have hlen : name.length = 5 := hname.length_eq.symm
      have h₃ : ([first, colon] ++ (gap ++ (name ++ (gap' ++ tokens₄)))).drop (2 + gap.length + 5) =
          gap' ++ tokens₄ := by
        rw [← List.drop_drop, h₂, ← hlen, List.drop_left]
      have h₄ : ([first, colon] ++ (gap ++ (name ++ (gap' ++ tokens₄)))).drop
          (2 + gap.length + 5 + gap'.length) = tokens₄ := by
        rw [← List.drop_drop, h₃, List.drop_left]
      simp only [h₃, gapLength_append hgaps' hnoGap', h₄] at h
      split at h
      next => exact nomatch h
      next hparen =>
        obtain ⟨_, tokens₅, rfl, hfits⟩ := startsWith_iff.1 (by simpa using hparen)
        cases hfits with
        | @cons _ opening _ _ hopening hfits =>
          cases hfits
          have hnoGap₀ : NoGap name := by
            cases hname
            exact hnoGap
          refine ⟨first :: colon :: (gap ++ (name ++ (gap' ++ [opening]))), tokens₅, by simp, ?_⟩
          exact .mk hfirst (hgap first rfl) hcolon hgaps hname hnoGap₀ hgaps' hopening

/-- The tokens of a block. -/
def IsProgid (tokens : List Token) : Prop :=
  ∃ front inside closing, tokens = front ++ (inside ++ [closing]) ∧ IsHead front ∧
    closing.kind = .rightParen ∧ ∀ rest, balancedLength 0
      (inside ++ closing :: rest) = inside.length

theorem progidLength?_iff {count : Nat} (hgap : NoGap tokens) :
    progidLength? tokens = some count ↔
      ∃ front rest, tokens = front ++ rest ∧ IsProgid front ∧ front.length = count := by
  constructor
  · intro h
    obtain ⟨front, rest, rfl, hhead⟩ := isHead_of_progidLength? hgap h
    rw [progidLength?_eq hhead] at h
    split at h
    next hlt =>
      obtain ⟨inside, closing, rest, rfl, hk, hlength⟩ := balancedLength_lt hlt
      refine ⟨front ++ (inside ++ [closing]), rest, by simp,
        ⟨front, inside, closing, rfl, hhead, hk, fun rest' => ?_⟩, ?_⟩
      · exact balancedLength_congr hlength rfl hk hk
      · rw [hlength] at h
        simpa [Nat.add_assoc] using h
    next => exact nomatch h
  · rintro ⟨_, rest, rfl, ⟨front, inside, closing, rfl, hhead, hk, hlength⟩, rfl⟩
    have hlt : inside.length < (inside ++ closing :: rest).length := by simp
    simp only [List.append_assoc, List.singleton_append]
    rw [progidLength?_eq hhead, hlength, if_pos hlt]
    simp [Nat.add_assoc]

theorem isGap_congr (hcore : tokens'.map Token.core = tokens.map Token.core)
    (h : ∀ token ∈ tokens, isGap token = true) : ∀ token ∈ tokens', isGap token = true := by
  intro token hmem
  obtain ⟨other, hother, heq⟩ := List.mem_map.1 (hcore ▸ List.mem_map_of_mem hmem)
  rw [isGap, ← Token.kind_eq_of_core heq]
  exact h other hother

theorem forall₂_fits_congr {pattern : List (String ⊕ TokenKind)}
    (h : List.Forall₂ Fits pattern tokens)
    (hcore : tokens'.map Token.core = tokens.map Token.core) :
    List.Forall₂ Fits pattern tokens' := by
  induction h generalizing tokens' with
  | nil => rw [List.map_eq_nil_iff.1 hcore]; exact .nil
  | cons hfits _ ih =>
    obtain ⟨token', tokens', rfl, htoken, hrest⟩ := List.map_eq_cons_iff.1 hcore
    exact .cons (fits_congr htoken hfits) (ih hrest)

theorem IsHead.congr (h : IsHead front) (hcore : front'.map Token.core = front.map Token.core) :
    IsHead front' := by
  cases h with
  | @mk first colon opening gap name gap' hfirst hnot hcolon hgap hname hnoGap hgap' hopening =>
    simp only [List.map_cons, List.map_append, List.map_nil] at hcore
    obtain ⟨first₁, _, rfl, hfirst₁, hcore⟩ := List.map_eq_cons_iff.1 hcore
    obtain ⟨colon₁, _, rfl, hcolon₁, hcore⟩ := List.map_eq_cons_iff.1 hcore
    obtain ⟨gap₁, _, rfl, hgap₁, hcore⟩ := List.map_eq_append_iff.1 hcore
    obtain ⟨name₁, _, rfl, hname₁, hcore⟩ := List.map_eq_append_iff.1 hcore
    obtain ⟨gap₂, _, rfl, hgap₂, hcore⟩ := List.map_eq_append_iff.1 hcore
    obtain ⟨opening₁, rfl, hopening₁⟩ := List.map_eq_singleton_iff.1 hcore
    have hhead : name₁.head?.map Token.core = name.head?.map Token.core := by
      rw [← List.head?_map, hname₁, List.head?_map]
    have hfirst₂ : Fits (.inl "progid") first₁ := fits_congr hfirst₁ hfirst
    refine .mk hfirst₂ ?_ ((Token.kind_eq_of_core hcolon₁).trans hcolon) (isGap_congr hgap₁ hgap)
      (forall₂_fits_congr hname hname₁) (fun token hmem => ?_) (isGap_congr hgap₂ hgap')
      ((Token.kind_eq_of_core hopening₁).trans hopening)
    · rwa [isGap, Token.kind_eq_of_core hfirst₁]
    · rw [Option.mem_def.1 hmem, Option.map_some] at hhead
      obtain ⟨other, hother, heq⟩ := Option.map_eq_some_iff.1 hhead.symm
      rw [isGap, ← Token.kind_eq_of_core heq]
      exact hnoGap other hother

/-- A block is seen in the kinds and texts of its tokens. -/
theorem IsProgid.congr (h : IsProgid tokens)
    (hcore : tokens'.map Token.core = tokens.map Token.core) :
    IsProgid tokens' := by
  obtain ⟨front, inside, closing, rfl, hhead, hk, hlength⟩ := h
  simp only [List.map_append, List.map_cons, List.map_nil] at hcore
  obtain ⟨front₁, _, rfl, hfront₁, hcore⟩ := List.map_eq_append_iff.1 hcore
  obtain ⟨inside₁, _, rfl, hinside₁, hcore⟩ := List.map_eq_append_iff.1 hcore
  obtain ⟨closing₁, rfl, hclosing₁⟩ := List.map_eq_singleton_iff.1 hcore
  have hk₁ := (Token.kind_eq_of_core hclosing₁).trans hk
  refine ⟨front₁, inside₁, closing₁, rfl, hhead.congr hfront₁, hk₁, fun rest => ?_⟩
  exact balancedLength_congr (hlength rest) (map_kind_congr hinside₁) hk hk₁

/-- A token that spells a word is an identifier. -/
theorem ident_of_spells {word : String} {token : Token} {d : Char} {w : List Char}
    (hp : p.Scans tokens) (hmem : token ∈ tokens) (h : token.spells word = true)
    (hword : word.toList.map Text.lowerChar = d :: w) (hd : CharClass.ofChar d = .identifier ∧
      CharClass.ofChar (Char.ofNat (d.toNat - 32)) = .identifier) : token.kind = .ident := by
  obtain ⟨front, rest, rfl⟩ := List.append_of_mem hmem
  obtain ⟨_, -, hp⟩ := hp.append
  obtain ⟨cs, -, hread, -⟩ := hp.cons
  have hletters : token.text.toList.map Text.lowerChar = d :: w := (of_decide_eq_true h).trans hword
  obtain ⟨c, v, htext, hc, -⟩ := List.map_eq_cons_iff.1 hletters
  have hclass : CharClass.ofChar c = .identifier := by
    rcases eq_or_of_lowerChar hc with rfl | rfl
    · exact hd.1
    · exact hd.2
  rw [htext] at hread
  generalize token.kind = kind at hread
  cases hread with
  | name | slashedName => rfl
  | blanks hc | digits hc | quoted hc | sign hc => rw [hclass] at hc; exact nomatch hc
  | comment | line => exact nomatch hclass

theorem IsHead.balanced (h : IsHead front) (hp : p.Scans (front ++ rest)) :
    ∃ opening, opening.kind = .leftParen ∧ Balanced (front ++ rest) (opening :: rest) := by
  cases h with
  | @mk first colon opening gap name gap' hfirst _ hcolon hgap hname _ hgap' hopening =>
    simp only [progidName, List.forall₂_cons_left_iff, List.forall₂_nil_left_iff] at hname
    obtain ⟨a, _, ha, ⟨b, _, hb, ⟨c, _, hc, ⟨d, _, hd, ⟨e, _, he, rfl, rfl⟩, rfl⟩, rfl⟩, rfl⟩,
      rfl⟩ := hname
    have hfirst := ident_of_spells hp (by simp) hfirst (d := 'p') rfl (by decide)
    have ha := ident_of_spells hp (by simp) ha (d := 'd') rfl (by decide)
    have hc := ident_of_spells hp (by simp) hc (d := 'm') rfl (by decide)
    have hgaps : ∀ {gap : List Token}, (∀ token ∈ gap, isGap token = true) →
        ∀ token ∈ gap, token.kind ≠ .leftParen ∧ token.kind ≠ .rightParen := by
      intro gap hgap token hmem
      rcases Bool.or_eq_true_iff.1 (hgap token hmem) with hk | hk <;> simp [of_decide_eq_true hk]
    refine ⟨opening, hopening, ?_⟩
    have hbalanced : Balanced ((first :: colon :: (gap ++ ([a, b, c, d, e] ++ gap'))) ++
        opening :: rest) (opening :: rest) := by
      refine .of_forall fun token hmem => ?_
      simp only [List.mem_cons, List.mem_append, List.not_mem_nil, or_false] at hmem
      rcases hmem with rfl | rfl | hmem | (rfl | rfl | rfl | rfl | rfl) | hmem
      · simp [hfirst]
      · simp [hcolon]
      · exact hgaps hgap token hmem
      · simp [ha]
      · simp [show token.kind = .fullStop from hb]
      · simp [hc]
      · simp [show token.kind = .fullStop from hd]
      · simp [show token.kind = .ident from he]
      · exact hgaps hgap' token hmem
    simpa using hbalanced

theorem IsProgid.balanced (h : IsProgid tokens) (hp : p.Scans (tokens ++ rest)) :
    Balanced (tokens ++ rest) rest := by
  obtain ⟨front, inside, closing, rfl, hhead, hk, hlength⟩ := h
  simp only [List.append_assoc, List.singleton_append] at hp ⊢
  obtain ⟨opening, hopening, hbalanced⟩ := hhead.balanced hp
  have hdrop : (inside ++ closing :: rest).drop
      (balancedLength 0 (inside ++ closing :: rest)) = closing :: rest := by
    rw [hlength, List.drop_left]
  exact .trans hbalanced (.group hopening hk (balanced_balancedLength hdrop))

/-- A block is scanned again before any text. -/
theorem IsProgid.scans (h : IsProgid front) (hp : p.Scans (front ++ rest)) :
    ∃ p' : Place, p'.Scans rest ∧ p'.firm = p.firm ∧ p'.state.afterUrl = false ∧
      ∀ cs tokens, (p.put (tokenChars front ++ cs)).Scans tokens → ∃ front' rest',
        tokens = front' ++ rest' ∧ front'.map Token.core = front.map Token.core ∧ IsProgid front' ∧
          (p'.put cs).Scans rest' := by
  obtain ⟨head, inside, closing, hfront, -, hk, -⟩ := id h
  have hlast : front = head ++ inside ++ [closing] := by rw [hfront, List.append_assoc]
  rw [hlast, List.append_assoc] at hp
  obtain ⟨p', hp', hfirm, hurl, hscan⟩ := hp.verbatim_closing hk
  refine ⟨p', hp', hfirm, hurl, fun cs tokens hs => ?_⟩
  rw [hlast] at hs
  obtain ⟨front', rest', htokens, hcore, hrest'⟩ := (hscan cs).2 tokens hs
  rw [← hlast] at hcore
  exact ⟨front', rest', htokens, hcore, h.congr hcore, hrest'⟩

/-! ## Rows of blocks -/

/-- One round of a filter value. -/
def progidPart (_ : Token) : Parser Item := do
  match nextProgid? (← get).rest with
  | some count => add (progid count)
  | none => stop

/-- The flag at the end of a filter value, if there is one. -/
def optionalFlag : Parser Bool := do
  let important ← isAt .exclamationMark
  if important then importantFlag
  return important

theorem filterValue_eq : filterValue = (do
    let info ← here
    let blocks ← many progidPart
    skipGaps
    let important ← optionalFlag
    return .sequence info (.value important) blocks) := by
  simp only [filterValue, optionalFlag, bind_assoc, pure_bind, ite_bind]
  rfl

theorem progidPart_eq_stop {token : Token} (h : nextProgid? s.rest = none) :
    progidPart token s = .ok .stop s := by
  simp [progidPart, h, stop]

theorem eq_of_progidPart_stop {token : Token} (h : progidPart token s = .ok .stop s') : s' = s := by
  cases hnext : nextProgid? s.rest with
  | none => exact (EStateM.Result.ok.inj ((progidPart_eq_stop hnext).symm.trans h)).2.symm
  | some count =>
    simp only [progidPart, get_bind_run, hnext] at h
    exact absurd h add_ne_stop

theorem progidPart_run (token : Token) (hs : s.rest.dropWhile isGap = front ++ rest)
    (hfront : IsProgid front) : ∃ info start, progidPart token s =
      .ok (.next [.wrapper info .progid (.leaf start .raw (Text.concat (front.map Token.text)))] ())
        { s with rest := rest.dropWhile isGap } := by
  have hnext : nextProgid? s.rest = some front.length := by
    rw [nextProgid?, drop_gapLength]
    exact (progidLength?_iff (noGap_dropWhile _)).2 ⟨front, rest, hs, hfront, rfl⟩
  refine ⟨s.rest.head?.map Token.start, (front ++ rest).head?.map Token.start, ?_⟩
  simp only [progidPart, get_bind_run, hnext, add, progid, bind_assoc, here_bind_run,
    skipGaps_bind_run, takeMany_bind_run, hs, List.take_left, List.drop_left,
    pure_bind_run, run_pure]

theorem isProgid_of_progidPart {token : Token} {st : Unit}
    (h : progidPart token s = .ok (.next nodes st) s') :
    ∃ front rest, s.rest.dropWhile isGap = front ++ rest ∧ IsProgid front := by
  cases hnext : nextProgid? s.rest with
  | none => exact nomatch (progidPart_eq_stop hnext).symm.trans h
  | some count =>
    rw [nextProgid?, drop_gapLength] at hnext
    obtain ⟨front, rest, hs, hfront, -⟩ := (progidLength?_iff (noGap_dropWhile _)).1 hnext
    exact ⟨front, rest, hs, hfront⟩

theorem IsProgid.noGap (h : IsProgid front) : NoGap (front ++ rest) := by
  obtain ⟨head, inside, closing, rfl, hhead, -⟩ := h
  rw [List.append_assoc]
  exact hhead.noGap

theorem IsProgid.length_pos (h : IsProgid front) : 0 < front.length := by
  obtain ⟨head, inside, closing, rfl, -⟩ := h
  simp only [List.length_append, List.length_singleton]
  omega

/-- No block starts with a break. -/
theorem nextProgid?_of_isBreak {cs : List Char} (hcs : ∀ d ∈ cs.head?, isBreak d = true)
    (hs : (p.put cs).Scans tokens) : NoGap tokens ∧ nextProgid? tokens = none := by
  cases cs with
  | nil =>
    obtain rfl := hs.eq_nil rfl
    exact ⟨by simp [NoGap], rfl⟩
  | cons c cs =>
    obtain ⟨kind, hc, hsign, hslash⟩ : ∃ kind, CharClass.ofChar c = .punctuator ∧
        TokenKind.ofChar? c = some kind ∧ c ≠ '/' := by
      rcases isBreak_iff.1 (hcs c rfl) with rfl | rfl | rfl | rfl | rfl | rfl | rfl | rfl <;>
        exact ⟨_, rfl, rfl, by decide⟩
    have hgap := hs.noGap_of_sign hc hsign hslash
    obtain ⟨token, rest, rfl, hcore, -⟩ := hs.of_sign hc hsign hslash
    refine ⟨hgap, ?_⟩
    have hspells : token.spells "progid" = false := by
      have htext : token.text.toList = [c] := congrArg Prod.snd hcore
      rw [Token.spells, Text.sameLetters, htext]
      exact decide_eq_false fun h => by cases congrArg List.length h
    rw [nextProgid?, drop_gapLength, hgap.dropWhile_eq, progidLength?]
    simp [startsWith, hspells]

theorem progidPart_closing {cs : List Char} (hcs : ∀ d ∈ cs.head?, isBreak d = true)
    (hs : (p.put cs).Scans s.rest) : LoopsTo (fun _ => progidPart) () s [] () s := by
  cases hrest : s.rest with
  | nil => exact .done hrest
  | cons token rest => exact .stop hrest (progidPart_eq_stop (nextProgid?_of_isBreak hcs hs).2)

/-- The rounds of a filter value read its blocks again, without the gaps between them. -/
theorem progidPart_rounds {st last : Unit} (h : Rounds (fun _ => progidPart) st s nodes last s')
    (hp : p.Scans s.rest) (hc : NoComments s.rest) (hurl : p.state.afterUrl = false) :
    ∃ p' : Place, p'.Scans (s'.rest.dropWhile isGap) ∧ p'.firm = p.firm ∧
      Balanced s.rest (s'.rest.dropWhile isGap) ∧ p'.state.afterUrl = false ∧
      ∀ cs, (∀ d ∈ cs.head?, isBreak d = true) →
        ∀ s₁ : ParserState, (p.put (rowChars nodes ++ cs)).Scans s₁.rest → NoGap s₁.rest ∧
          ∃ nodes' s₂, LoopsTo (fun _ => progidPart) () s₁ nodes' () s₂ ∧
            nodes'.map Node.bare = nodes.map Node.bare ∧ (p'.put cs).Scans s₂.rest ∧
            s₂.rest.length ≤ s₁.rest.length := by
  induction h generalizing p with
  | @done st s hs =>
    refine ⟨p, by rwa [hs] at hp ⊢, rfl, by rw [hs]; exact .refl, hurl, fun cs hcs s₁ hs₁ => ?_⟩
    exact ⟨(nextProgid?_of_isBreak hcs hs₁).1, [], s₁, progidPart_closing hcs hs₁, rfl, hs₁,
      Nat.le_refl _⟩
  | @stop st s s' token rest hs hround =>
    obtain rfl := eq_of_progidPart_stop hround
    obtain ⟨p₁, hp₁, -, hfirm₁, hbalanced₁, hstate₁, -⟩ := hp.skipGaps hc
    replace hstate₁ := hstate₁ hurl
    refine ⟨p₁, hp₁, hfirm₁, hbalanced₁, by rw [hstate₁, hurl], fun cs hcs s₁ hs₁ => ?_⟩
    exact ⟨(nextProgid?_of_isBreak hcs hs₁).1, [], s₁, progidPart_closing hcs hs₁, rfl,
      by rwa [Place.put, hstate₁], Nat.le_refl _⟩
  | @next st s token rest items st₁ s₁ later last s' hs hround hrounds ih =>
    obtain ⟨p₁, hp₁, -, hfirm₁, hbalanced₁, hstate₁, -⟩ := hp.skipGaps hc
    replace hstate₁ := hstate₁ hurl
    obtain ⟨front, rest₁, hfront, hprogid⟩ := isProgid_of_progidPart hround
    obtain ⟨info, start, hrun⟩ := progidPart_run token hfront hprogid
    obtain ⟨hnext, rfl⟩ := EStateM.Result.ok.inj (hround.symm.trans hrun)
    obtain ⟨rfl, -⟩ := Round.next.inj hnext
    have hc₁ := hbalanced₁.noComments hc
    rw [hfront] at hp₁ hbalanced₁ hc₁
    obtain ⟨p₂, hp₂, hfirm₂, hurl₂, hscan⟩ := hprogid.scans hp₁
    have hbalanced₂ := hprogid.balanced hp₁
    have hc₂ := hbalanced₂.noComments hc₁
    obtain ⟨p₃, hp₃, -, hfirm₃, hbalanced₃, hstate₃, -⟩ := hp₂.skipGaps hc₂
    replace hstate₃ := hstate₃ hurl₂
    obtain ⟨p', hp', hfirm', hbalanced', hurl', hrow⟩ :=
      ih hp₃ (hbalanced₃.noComments hc₂) (by rw [hstate₃, hurl₂])
    refine ⟨p', hp', hfirm'.trans (hfirm₃.trans (hfirm₂.trans hfirm₁)),
      .trans hbalanced₁ (.trans hbalanced₂ (.trans hbalanced₃ hbalanced')), hurl',
      fun cs hcs s₂ hs₂ => ?_⟩
    have hchars : rowChars ([Node.wrapper info .progid (.leaf start .raw
        (Text.concat (front.map Token.text)))] ++ later) ++ cs =
        tokenChars front ++ (rowChars later ++ cs) := by
      simp [Node.leafMarks, toList_concat_text]
    rw [hchars, Place.put, ← hstate₁] at hs₂
    obtain ⟨front', rest', hs₂', hcore, hprogid', hrest'⟩ := hscan _ _ hs₂
    rw [Place.put, ← hstate₃] at hrest'
    obtain ⟨hgap, nodes', s₃, hloops, hbare, hs₃, hle⟩ :=
      hrow cs hcs { s₂ with rest := rest' } hrest'
    have hgap₂ : NoGap s₂.rest := hs₂' ▸ hprogid'.noGap
    have hlt : rest'.length < s₂.rest.length := by
      have := hprogid'.length_pos
      rw [hs₂', List.length_append]
      omega
    obtain ⟨token', rest₂, hrest₂⟩ : ∃ token' rest₂, s₂.rest = token' :: rest₂ :=
      List.exists_cons_of_ne_nil (List.ne_nil_of_length_pos (Nat.zero_lt_of_lt hlt))
    obtain ⟨info', start', hrun'⟩ :=
      progidPart_run token' (by rw [hgap₂.dropWhile_eq, hs₂']) hprogid'
    rw [hgap.dropWhile_eq] at hrun'
    refine ⟨hgap₂, _, s₃, .cons hrest₂ hrun' hlt hloops, ?_, hs₃,
      Nat.le_trans hle (Nat.le_of_lt hlt)⟩
    simp [hbare, map_text_congr hcore]

/-- Whether blocks are read is seen ahead. -/
theorem progidPart_rounds_ne_nil {st last : Unit}
    (h : Rounds (fun _ => progidPart) st s nodes last s') :
    nodes ≠ [] ↔ (nextProgid? s.rest).isSome = true := by
  cases hnext : nextProgid? s.rest with
  | none =>
    cases h with
    | done | stop => simp
    | next _ hround => exact nomatch (progidPart_eq_stop hnext).symm.trans hround
  | some count =>
    cases h with
    | done hs => rw [hs] at hnext; exact nomatch hnext
    | stop _ hround =>
      simp only [progidPart, get_bind_run, hnext] at hround
      exact absurd hround add_ne_stop
    | next _ hround =>
      obtain ⟨front, rest, hfront, hprogid⟩ := isProgid_of_progidPart hround
      obtain ⟨info, start, hrun⟩ := progidPart_run _ hfront hprogid
      obtain ⟨hitems, -⟩ := EStateM.Result.ok.inj (hround.symm.trans hrun)
      obtain ⟨rfl, -⟩ := Round.next.inj hitems
      simp

/-! ## Filter values -/

theorem optionalFlag_runs {important : Bool} (hp : p.Scans s.rest) (htidy : Tidy .value s.rest)
    (hurl : p.state.afterUrl = false) (h : optionalFlag s = .ok important s') :
    ∃ (p' : Place) (w : List Char), w = (if important then "!important".toList else []) ∧
      p'.Scans s'.rest ∧ p'.firm = p.firm ∧ Balanced s.rest s'.rest ∧ p'.state.afterUrl = false ∧
      ∀ cs, (∀ d ∈ cs.head?, closesValue true d = true) →
        (∀ d ∈ (w ++ cs).head?, isBreak d = true) ∧
        ∀ s₁ : ParserState, (p.put (w ++ cs)).Scans s₁.rest →
          ∃ s₂, optionalFlag s₁ = .ok important s₂ ∧ (p'.put cs).Scans s₂.rest ∧
            s₂.rest.length ≤ s₁.rest.length := by
  rw [optionalFlag, isAt_bind_run] at h
  by_cases hbang : s.rest.head?.map Token.kind = some .exclamationMark
  · simp only [hbang, decide_true, if_true] at h
    obtain ⟨⟨⟩, s₁, hflag, h⟩ := bind_eq_ok.1 h
    obtain ⟨rfl, rfl⟩ := EStateM.Result.ok.inj h
    obtain ⟨token, hmem, hk⟩ := Option.map_eq_some_iff.1 hbang
    obtain ⟨rest, hs⟩ := List.head?_eq_some_iff.1 hmem
    obtain ⟨p', hp', hfirm', hbalanced', hurl', -, hrereads⟩ :=
      importantFlag_rereads hp htidy hs hk hflag
    refine ⟨p', _, rfl, hp', hfirm', hbalanced', hurl', fun cs hcs => ⟨?_, fun s₂ hs₂ => ?_⟩⟩
    · rw [if_pos rfl, toList_important]
      simp [isBreak]
    · rw [if_pos rfl] at hs₂
      obtain ⟨⟨⟩, s₃, hrun, -, hs₃, hlt⟩ :=
        (hrereads (s₂.rest.length + 1)).run cs s₂ hcs hs₂ (Nat.lt_succ_self _)
      rw [toList_important] at hs₂
      obtain ⟨bang, rest₂, hrest₂, hcore, -⟩ := hs₂.of_sign rfl rfl (by decide)
      have hk' : bang.kind = .exclamationMark := congrArg Prod.fst hcore
      refine ⟨s₃, ?_, hs₃, Nat.le_of_lt hlt⟩
      simp only [optionalFlag, isAt_bind_run, hrest₂, List.head?_cons, Option.map_some, hk',
        decide_true, if_true, bind_of_ok hrun, run_pure]
  · simp only [hbang, decide_false, Bool.false_eq_true, if_false] at h
    obtain ⟨rfl, rfl⟩ := EStateM.Result.ok.inj h
    refine ⟨p, [], rfl, hp, rfl, .refl, hurl, fun cs hcs => ⟨?_, fun s₂ hs₂ => ?_⟩⟩
    · exact fun d hd => isBreak_of_closesValue (hcs d hd)
    · have hends := endsValue_of_scans hs₂ hcs
      have hnot : s₂.rest.head?.map Token.kind ≠ some .exclamationMark := by
        intro hbang
        obtain ⟨token, hmem, hk⟩ := Option.map_eq_some_iff.1 hbang
        rcases hends token hmem with h | h | ⟨-, h⟩ <;> cases hk.symm.trans h
      refine ⟨s₂, ?_, hs₂, Nat.le_refl _⟩
      rw [optionalFlag, isAt_bind_run, decide_eq_false hnot]
      rfl

/-- A filter value is read again before what ends a value, and it is seen again whether blocks stand
there. -/
theorem filterValue_runs (hp : p.Scans s.rest) (htidy : Tidy .value s.rest)
    (hurl : p.state.afterUrl = false) (h : filterValue s = .ok tree s') :
    ∃ p' : Place, p'.Scans s'.rest ∧ p'.firm = p.firm ∧ Balanced s.rest s'.rest ∧
      p'.state.afterUrl = false ∧ ∀ cs (s₁ : ParserState),
        (∀ d ∈ cs.head?, closesValue true d = true) → (p.put (tree.compact ++ cs)).Scans s₁.rest →
          (nextProgid? s₁.rest).isSome = (nextProgid? s.rest).isSome ∧
          ∃ tree' s₂, filterValue s₁ = .ok tree' s₂ ∧ tree'.bare = tree.bare ∧
            (p'.put cs).Scans s₂.rest ∧ s₂.rest.length ≤ s₁.rest.length := by
  rw [filterValue_eq, here_bind_run] at h
  obtain ⟨blocks, s₁, hmany, h⟩ := bind_eq_ok.1 h
  rw [skipGaps_bind_run] at h
  obtain ⟨important, s₂, hflag, h⟩ := bind_eq_ok.1 h
  obtain ⟨rfl, rfl⟩ := EStateM.Result.ok.inj h
  obtain ⟨p₁, hp₁, hfirm₁, hbalanced₁, hurl₁, hrow⟩ :=
    progidPart_rounds (rounds_of_many hmany) hp htidy.noComments hurl
  obtain ⟨p', w, hw, hp', hfirm', hbalanced', hurl', hend⟩ :=
    optionalFlag_runs (s := ⟨s₁.rest.dropWhile isGap, s₁.discarded⟩) hp₁
      (hbalanced₁.tidy htidy) hurl₁ hflag
  refine ⟨p', hp', hfirm'.trans hfirm₁, .trans hbalanced₁ hbalanced', hurl',
    fun cs s₃ hcs hs₃ => ?_⟩
  obtain ⟨hbreak, hrunFlag⟩ := hend cs hcs
  rw [compact_value, ← hw, List.append_assoc] at hs₃
  obtain ⟨-, blocks', s₄, hloops, hbare, hs₄, hle₄⟩ := hrow _ hbreak s₃ hs₃
  have hgap₄ : NoGap s₄.rest := (nextProgid?_of_isBreak hbreak hs₄).1
  obtain ⟨s₅, hflag', hs₅, hle₅⟩ := hrunFlag s₄ hs₄
  have hblocks : blocks' ≠ [] ↔ blocks ≠ [] := by
    rw [Ne, Ne, ← List.map_eq_nil_iff (f := Node.bare), hbare, List.map_eq_nil_iff]
  have hmany' := hloops.many_eq
  refine ⟨?_, .sequence (s₃.rest.head?.map Token.start) (.value important) blocks', s₅, ?_, ?_, hs₅,
    Nat.le_trans hle₅ hle₄⟩
  · rw [Bool.eq_iff_iff, ← progidPart_rounds_ne_nil (rounds_of_many hmany'), hblocks,
      progidPart_rounds_ne_nil (rounds_of_many hmany)]
  · rw [filterValue_eq, here_bind_run, bind_of_ok hmany', skipGaps_bind_run, hgap₄.dropWhile_eq,
      bind_of_ok hflag', run_pure]
  · simp only [Node.bare_sequence, hbare]

end Grammar
end StyleTree
