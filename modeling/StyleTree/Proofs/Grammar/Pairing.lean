import StyleTree.Proofs.Grammar.ProgressRule
import StyleTree.Proofs.Grammar.Taking

/-! Brackets come in pairs. `nest` runs over brackets with the stack of those that are due; what a
production takes leaves the stack as it was (`Paired`). Parentheses pair up in every text that is
read. A link, a script and a filter block keep what stands inside up to a parenthesis, so the other
brackets are counted only where no name spells one of these (`Known`). -/

namespace StyleTree

open StyleTree.Parser StyleTree.Grammar

/-! ## Brackets -/

namespace TokenKind

/-- The bracket that closes an opening one. -/
def closing? : TokenKind → Option TokenKind
  | .leftParen => some .rightParen
  | .leftBracket => some .rightBracket
  | .leftBrace => some .rightBrace
  | _ => none

/-- Whether the kind is counted as a bracket: a parenthesis, or with `all` any bracket. -/
def isCounted (all : Bool) : TokenKind → Bool
  | .leftParen | .rightParen => true
  | .leftBracket | .rightBracket | .leftBrace | .rightBrace => all
  | _ => false

/-- Whether the kind is no bracket that is counted; unless `wide`, it does not end a statement
either. -/
def isFree (all wide : Bool) : TokenKind → Bool
  | .leftParen | .rightParen => false
  | .leftBracket | .rightBracket | .leftBrace => !all
  | .rightBrace => !all && wide
  | .semicolon => wide
  | _ => true

theorem isCounted_of_isFree {all wide : Bool} {kind : TokenKind} (h : kind.isFree all wide = true) :
    kind.isCounted all = false := by
  cases kind <;> simp_all [isFree, isCounted]

theorem isFree_of_char? {all wide : Bool} {kind : TokenKind} (h : kind.char? = none) :
    kind.isFree all wide = true := by
  cases kind <;> simp_all [isFree, char?]

end TokenKind

/-- One kind on a stack of due closing brackets. -/
def nestStep (all : Bool) (due : List TokenKind) (kind : TokenKind) : Option (List TokenKind) :=
  if kind.isCounted all then
    match kind.closing? with
    | some closing => some (closing :: due)
    | none => if due.head? = some kind then some due.tail else none
  else some due

/-- What is due after the kinds, or nothing if a bracket closes another one than is due. -/
def nest (all : Bool) (due kinds : List TokenKind) : Option (List TokenKind) :=
  kinds.foldlM (nestStep all) due

theorem nest_append (all : Bool) (due kinds later : List TokenKind) :
    nest all due (kinds ++ later) = (nest all due kinds).bind fun due => nest all due later :=
  List.foldlM_append

theorem nest_cons (all : Bool) (due : List TokenKind) (kind : TokenKind) (kinds : List TokenKind) :
    nest all due (kind :: kinds) = (nestStep all due kind).bind fun due => nest all due kinds :=
  List.foldlM_cons

theorem nestStep_of_not_counted {all : Bool} {kind : TokenKind} (due : List TokenKind)
    (h : kind.isCounted all = false) :
    nestStep all due kind = some due := by
  rw [nestStep, h]
  rfl

/-- A bracket that closes another one leaves what was due before. -/
theorem nestStep_pair (all : Bool) (due : List TokenKind) {opening closing : TokenKind}
    (h : opening.closing? = some closing) :
    ∃ due', nestStep all due opening = some due' ∧ nestStep all due' closing = some due := by
  cases opening
  case leftParen | leftBracket | leftBrace =>
    obtain rfl := Option.some.inj h
    cases all <;> exact ⟨_, rfl, rfl⟩
  all_goals exact nomatch h

theorem solid_of_closing? {opening closing : TokenKind} (h : opening.closing? = some closing) :
    (closing ≠ .whitespace ∧ closing ≠ .comment) ∧ closing ≠ .semicolon := by
  cases opening
  case leftParen | leftBracket | leftBrace =>
    obtain rfl := Option.some.inj h
    decide
  all_goals exact nomatch h

theorem length_of_nestStep {due due' : List TokenKind} {kind : TokenKind}
    (h : nestStep false due kind = some due') :
    due'.length + [kind].count .rightParen = due.length + [kind].count .leftParen := by
  cases kind
  case leftParen =>
    obtain rfl := Option.some.inj h
    rfl
  case rightParen =>
    obtain ⟨hhead, hdue⟩ := Option.ite_none_right_eq_some.1 h
    obtain ⟨due, rfl⟩ := List.head?_eq_some_iff.1 hhead
    obtain rfl := Option.some.inj hdue
    rfl
  all_goals
    obtain rfl := Option.some.inj h
    rfl

/-- What is due is what was opened and not closed. -/
theorem length_of_nest {due due' kinds : List TokenKind} (h : nest false due kinds = some due') :
    due'.length + kinds.count .rightParen = due.length + kinds.count .leftParen := by
  induction kinds generalizing due with
  | nil =>
    obtain rfl := Option.some.inj h
    rfl
  | cons kind kinds ih =>
    rw [nest_cons, Option.bind_eq_some_iff] at h
    obtain ⟨due₁, hstep, h⟩ := h
    have hhead := length_of_nestStep hstep
    have hlater := ih h
    rw [← List.singleton_append, List.count_append, List.count_append]
    omega

/-- The tokens up to the parenthesis that closes so many open ones. -/
theorem nest_balancedLength {depth : Nat} (tokens : List Token)
    (h : balancedLength depth tokens < tokens.length) (due : List TokenKind) :
    nest false (List.replicate depth .rightParen ++ due)
      ((tokens.take (balancedLength depth tokens)).map Token.kind) = some due := by
  induction tokens generalizing depth with
  | nil => exact nomatch h
  | cons token tokens ih =>
    by_cases hright : token.kind = .rightParen
    · cases depth with
      | zero =>
        rw [balancedLength_closing hright]
        rfl
      | succ depth =>
        rw [balancedLength_right hright, List.length_cons, Nat.add_lt_add_iff_right] at h
        rw [balancedLength_right hright, List.take_succ_cons, List.map_cons, nest_cons, hright]
        exact ih h
    · by_cases hleft : token.kind = .leftParen
      · rw [balancedLength_left hleft, List.length_cons, Nat.add_lt_add_iff_right] at h
        rw [balancedLength_left hleft, List.take_succ_cons, List.map_cons, nest_cons, hleft]
        exact ih h
      · rw [balancedLength_other hleft hright, List.length_cons, Nat.add_lt_add_iff_right] at h
        rw [balancedLength_other hleft hright, List.take_succ_cons, List.map_cons, nest_cons,
          nestStep_of_not_counted _ (by cases hk : token.kind <;> simp_all [TokenKind.isCounted])]
        exact ih h

/-! ## Tokens with their brackets in pairs -/

/-- Whether the token ends a statement. -/
def endsStatement (token : Token) : Bool :=
  token.kind = .semicolon || token.kind = .rightBrace

/-- The last of the tokens that is no gap. -/
def lastSolid? (tokens : List Token) : Option Token :=
  (tokens.filter fun token => !isGap token).getLast?

/-- Every bracket that is counted closes the last one that is open. Unless `wide`, the tokens do not
end as a statement does. -/
structure Paired (all wide : Bool) (front : List Token) : Prop where
  nested : ∀ due, nest all due (front.map Token.kind) = some due
  inner : wide = false → ∀ token ∈ lastSolid? front, endsStatement token = false

namespace Paired

variable {all wide : Bool} {front more : List Token}

theorem nil : Paired all wide [] :=
  ⟨fun _ => rfl, nofun⟩

theorem append (h : Paired all wide front) (hmore : Paired all wide more) :
    Paired all wide (front ++ more) where
  nested due := by rw [List.map_append, nest_append, h.nested, Option.bind_some, hmore.nested]
  inner hwide token hlast := by
    rw [lastSolid?, List.filter_append, List.getLast?_append, Option.mem_def,
      Option.or_eq_some_iff] at hlast
    rcases hlast with hlast | ⟨-, hlast⟩
    · exact hmore.inner hwide token hlast
    · exact h.inner hwide token hlast

theorem widen (h : Paired all wide front) : Paired all true front :=
  ⟨h.nested, nofun⟩

theorem of_free (h : ∀ token ∈ front, token.kind.isFree all wide = true) :
    Paired all wide front where
  nested due := by
    induction front with
    | nil => rfl
    | cons token front ih =>
      rw [List.map_cons, nest_cons,
        nestStep_of_not_counted due (TokenKind.isCounted_of_isFree (h token (.head _)))]
      exact ih fun token hmem => h token (.tail _ hmem)
  inner := by
    rintro rfl token hlast
    have hfree := h token (List.mem_of_mem_filter (List.mem_of_getLast? hlast))
    cases hk : token.kind <;> simp_all [endsStatement, TokenKind.isFree]

/-- A bracket, what stands inside, and the bracket that closes it. -/
theorem group {opening closing : Token} (hclosing : opening.kind.closing? = some closing.kind)
    (hwide : wide = true ∨ closing.kind ≠ .rightBrace) (h : Paired all true front) :
    Paired all wide (opening :: (front ++ [closing])) where
  nested due := by
    obtain ⟨due₁, hopens, hcloses⟩ := nestStep_pair all due hclosing
    rw [List.map_cons, List.map_append, nest_cons, hopens, Option.bind_some, nest_append, h.nested,
      Option.bind_some]
    exact (nest_cons ..).trans (by rw [hcloses]; rfl)
  inner hnarrow token hlast := by
    obtain ⟨hgap, hsemicolon⟩ := solid_of_closing? hclosing
    have hsolid : ([closing].filter fun token => !isGap token) = [closing] := by
      simp [isGap, hgap]
    rw [lastSolid?, ← List.cons_append, List.filter_append, hsolid, List.getLast?_concat] at hlast
    obtain rfl := Option.some.inj hlast
    simp [endsStatement, hsemicolon, hwide.resolve_left (by simp [hnarrow])]

end Paired

/-! ## Readers -/

/-- What is known of the tokens. Where all brackets are counted, no name spells a link, a script or
a filter. -/
structure Known (all : Bool) (tokens : List Token) : Prop where
  spelled : Spelled tokens
  words : all = true → LacksWord "url" tokens ∧ LacksWord "expression" tokens ∧
    LacksWord "progid" tokens

instance {all : Bool} : Kept (Known all) where
  suffix h hsuffix := ⟨h.spelled.of_suffix hsuffix, fun hall =>
    ⟨(h.words hall).1.of_suffix hsuffix, (h.words hall).2.1.of_suffix hsuffix,
      (h.words hall).2.2.of_suffix hsuffix⟩⟩
  cut {token _ tokens} h _ hk htext := by
    have hsuffix := List.suffix_cons token tokens
    refine ⟨fun other hmem => ?_, fun hall => ?_⟩
    · rcases List.mem_cons.1 hmem with rfl | hmem
      · exact Token.isSpelled_of_ident hk
      · exact h.spelled other (.tail _ hmem)
    · obtain ⟨hurl, hscript, hfilter⟩ := h.words hall
      exact ⟨(hurl.of_suffix hsuffix).cut (by decide) htext (by decide),
        (hscript.of_suffix hsuffix).cut (by decide) htext (by decide),
        (hfilter.of_suffix hsuffix).cut (by decide) htext (by decide)⟩

namespace Parser

variable {α β σ : Type} {all wide : Bool} {P Q : List Token → Prop} {x y : Parser α}
    {f : α → Parser β}

/-- From tokens with the property `P`, the reader takes tokens with their brackets in pairs. -/
abbrev PairsIf (all wide : Bool) (P : List Token → Prop) (x : Parser α) : Prop :=
  TakingIf (Known all) P x fun _ front => Paired all wide front

/-- The reader takes tokens with their brackets in pairs. -/
abbrev Pairs (all wide : Bool) (x : Parser α) : Prop :=
  PairsIf all wide (fun _ => True) x

/-- The reader takes tokens with their brackets in pairs and then the bracket that was due. -/
abbrev ClosesIf (all : Bool) (closing : TokenKind) (P : List Token → Prop) (x : Parser α) : Prop :=
  TakingIf (Known all) P x fun _ front =>
    ∃ inside last, front = inside ++ [last] ∧ last.kind = closing ∧
    Paired all true inside

namespace TakingIf

theorem step (hx : PairsIf all wide P x) (hf : ∀ a, Pairs all wide (f a)) :
    PairsIf all wide P (x >>= f) :=
  hx.bind fun a _ hfront => (hf a).imp fun _ _ hmore => hfront.append hmore

/-- Something is known of the tokens that the first reader leaves. -/
theorem stepIf (hx : PairsIf all wide P x) (hQ : ∀ s a s', P s.rest → x s = .ok a s' → Q s'.rest)
    (hf : ∀ a, PairsIf all wide Q (f a)) : PairsIf all wide P (x >>= f) :=
  hx.bindIf hQ fun a _ hfront => (hf a).imp fun _ _ hmore => hfront.append hmore

/-- Two ways to read what comes first, and what comes after. -/
theorem either {c : Prop} [Decidable c] (hx : c → PairsIf all wide P x)
    (hy : ¬ c → PairsIf all wide P y) (hf : ∀ a, Pairs all wide (f a)) :
    PairsIf all wide P (if c then x >>= f else y >>= f) :=
  .ite (fun h => (hx h).step hf) fun h => (hy h).step hf

theorem widen (hx : PairsIf all wide P x) : PairsIf all true P x :=
  hx.imp fun _ _ h => h.widen

/-- An opening bracket comes first. -/
theorem group {x : Parser Unit} {f : Unit → Parser β} {opening closing : TokenKind}
    (hx : TakingIf (Known all) P x fun _ front => ∃ token, front = [token] ∧ token.kind = opening)
    (hclosing : opening.closing? = some closing) (hwide : wide = true ∨ closing ≠ .rightBrace)
    (hf : ClosesIf all closing (fun _ => True) (f ())) : PairsIf all wide P (x >>= f) := by
  refine hx.bind fun _ front hfront => hf.imp fun _ more hmore => ?_
  obtain ⟨token, rfl, rfl⟩ := hfront
  obtain ⟨inside, last, rfl, rfl, hinside⟩ := hmore
  exact .group hclosing hwide hinside

theorem stepInside {closing : TokenKind} (hx : PairsIf all true P x)
    (hf : ∀ a, ClosesIf all closing (fun _ => True) (f a)) :
    ClosesIf all closing P (x >>= f) := by
  refine hx.bind fun a front hfront => (hf a).imp fun _ more hmore => ?_
  obtain ⟨inside, last, rfl, hk, hinside⟩ := hmore
  exact ⟨front ++ inside, last, by rw [List.append_assoc], hk, hfront.append hinside⟩

/-- The bracket that is due comes last. -/
theorem last {closing : TokenKind} {b : β} :
    ClosesIf all closing P (expect closing >>= fun _ => Pure.pure b) := by
  refine (taking_expect closing).bind fun _ front hfront => .pure ?_
  obtain ⟨token, rfl, hk⟩ := hfront
  exact ⟨[], token, rfl, hk, .nil⟩

end TakingIf

/-! ### Readers of tokens -/

theorem pairs_expect {kind : TokenKind} (hk : kind.isFree all wide = true) :
    PairsIf all wide P (expect kind) := by
  refine (taking_expect kind).imp fun _ front hfront => ?_
  obtain ⟨token, rfl, rfl⟩ := hfront
  exact .of_free fun token hmem => List.mem_singleton.1 hmem ▸ hk

theorem pairs_expectWord (word : String) : PairsIf all wide P (expectWord word) :=
  (taking_expectWord word).imp fun _ _ hfront => hfront ▸ .nil

theorem paired_take {tokens : List Token}
    (h : ∀ kind ∈ tokens.head?.map Token.kind, kind.isFree all wide = true) :
    Paired all wide (tokens.take 1) := by
  cases tokens with
  | nil => exact .nil
  | cons token tokens => exact .of_free fun token hmem => List.mem_singleton.1 hmem ▸ h _ rfl

theorem pairsIf_advance
    (hP : ∀ tokens, P tokens → ∀ kind ∈ tokens.head?.map Token.kind, kind.isFree all wide = true) :
    PairsIf all wide P advance := by
  refine takingIf_advance.imp fun _ front hfront => ?_
  obtain ⟨tokens, -, hat, rfl⟩ := hfront
  exact paired_take (hP tokens hat)

theorem pairsIf_take
    (hP : ∀ tokens, P tokens → ∀ kind ∈ tokens.head?.map Token.kind, kind.isFree all wide = true) :
    PairsIf all wide P take := by
  refine takingIf_take.imp fun _ front hfront => ?_
  obtain ⟨tokens, -, hat, rfl⟩ := hfront
  exact paired_take (hP tokens hat)

theorem pairs_takeIf {kind : TokenKind} (hk : kind.isFree all wide = true) :
    PairsIf all wide P (takeIf kind) :=
  .isAt fun at? =>
    .ite (fun hat => pairsIf_take fun tokens h => by simp [h.2.2 hat, hk]) fun _ => .pure .nil

theorem pairsIf_takeMany {count : Nat}
    (hP : ∀ tokens, P tokens → ∀ token ∈ tokens.take count, token.kind.isFree all wide = true) :
    PairsIf all wide P (takeMany count) := by
  refine (takingIf_takeMany count).imp fun _ front hfront => ?_
  obtain ⟨tokens, -, hat, rfl⟩ := hfront
  exact .of_free (hP tokens hat)

theorem pairs_takeWhile {p : Token → Bool}
    (hp : ∀ token, p token = true → token.kind.isFree all wide = true) :
    PairsIf all wide P (Parser.takeWhile p) :=
  (takingIf_takeWhile p).imp fun _ _ hfront => .of_free fun token hmem =>
    hp token (hfront token hmem)

theorem isFree_of_isGap {token : Token} (h : isGap token = true) :
    token.kind.isFree all wide = true := by
  rcases Bool.or_eq_true_iff.1 h with hk | hk <;> rw [of_decide_eq_true hk] <;> rfl

theorem pairs_skipGaps : PairsIf all wide P skipGaps :=
  taking_skipGaps.imp fun _ _ hfront => .of_free fun token hmem =>
    isFree_of_isGap (hfront token hmem)

/-! ### Loops -/

theorem pairs_loop {round : σ → Token → Parser (Round σ α)} {st : σ}
    (hround : ∀ st token, PairsIf all wide (fun tokens => tokens.head? = some token)
      (round st token)) :
    PairsIf all wide P (loop round st) := by
  refine taking_loop (fun _ _ _ front => Paired all wide front) (fun _ => .nil) fun st token =>
    (hround st token).imp fun result front hfront => ?_
  cases result with
  | stop => exact hfront
  | next => exact fun _ _ _ hmore => hfront.append hmore

theorem pairs_many {round : Token → Parser Item}
    (hround : ∀ token, PairsIf all wide (fun tokens => tokens.head? = some token) (round token)) :
    PairsIf all wide P (many round) :=
  (pairs_loop fun _ => hround).step fun _ => .pure .nil

theorem pairs_separated {endsAt : Token → Bool} {entry : Parser Tree} {between : Parser Unit}
    (hentry : Pairs all wide entry) (hbetween : Pairs all wide between) :
    PairsIf all wide P (separated endsAt entry between) := by
  refine pairs_loop fun due token => .ite (fun _ => .pure .nil) fun _ =>
    hentry.always.step fun node => .isAt fun comma =>
    .ite (fun hcomma => ?_) fun _ => .pure .nil
  exact (pairsIf_advance fun tokens h => by simp [h.2.2 hcomma, TokenKind.isFree]).step fun _ =>
    hbetween.step fun _ => .pure .nil

end Parser
end StyleTree
