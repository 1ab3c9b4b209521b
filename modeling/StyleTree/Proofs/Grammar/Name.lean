import StyleTree.Grammar.Name
import StyleTree.Proofs.Grammar.Run
import StyleTree.Proofs.Token.Follow

/-!
# Names and numbers as runs of tokens

Names and numbers are read as they stand. For each reader of such a run, the tokens that it reads
are described on their own, together with what it has to see after them: `readName_eq_ok`,
`numberLength?_congr`.
-/

namespace StyleTree.Grammar
open StyleTree.Parser

theorem concat_append (texts texts' : List String) :
    Text.concat (texts ++ texts') = Text.concat texts ++ Text.concat texts' := by
  simp [Text.concat]

theorem concat_cons (text : String) (texts : List String) :
    Text.concat (text :: texts) = text ++ Text.concat texts := by
  simp [Text.concat]

/-! ## Names -/

/-- The tokens of a name: hyphens, an identifier, and tokens that can go on a name. -/
def IsName (custom : Bool) (tokens : List Token) : Prop :=
  ∃ hyphens first more, tokens = hyphens ++ first :: more ∧
    hyphens.length ≤ (if custom then 2 else 1) ∧ (∀ token ∈ hyphens, token.kind = .hyphenMinus) ∧
    (first.kind = .lowLine ∨ first.kind = .ident) ∧ ∀ token ∈ more, isNamePart token = true

/-- The next token does not go on a name. -/
def EndsName (tokens : List Token) : Prop :=
  ∀ token ∈ tokens.head?, isNamePart token = false

theorem takeWhile_eq_of_ends {α : Type} {p : α → Bool} {front back : List α}
    (hfront : ∀ a ∈ front, p a = true) (hback : ∀ a ∈ back.head?, p a = false) :
    (front ++ back).takeWhile p = front ∧ (front ++ back).dropWhile p = back := by
  induction front with
  | nil =>
    cases back with
    | nil => simp
    | cons a back => simp [hback a (by simp)]
  | cons a front ih =>
    have ih := ih fun a ha => hfront a (.tail _ ha)
    simp [hfront a (.head _), ih]

theorem head?_dropWhile_not {α : Type} {p : α → Bool} {l : List α} :
    ∀ a ∈ (l.dropWhile p).head?, p a = false := by
  intro a ha
  have := List.head?_dropWhile_not p l
  rw [Option.mem_def.1 ha] at this
  simpa using this

/-- What is read of a name after its hyphens. -/
def nameAfter (hyphens : String) : Parser String := do
  match ← kind? with
  | some .lowLine | some .ident =>
    let first ← take
    let rest ← Parser.takeWhile isNamePart
    return hyphens ++ first ++ rest
  | _ => fail (.expected .ident)

/-- The hyphens that a name can start with. -/
private def hyphensOf (custom : Bool) (tokens : List Token) : List Token :=
  (tokens.take (if custom then 2 else 1)).takeWhile fun token => token.kind = .hyphenMinus

private theorem readName_eq_nameAfter {custom : Bool} {s : ParserState}
    (hne : ∀ token ∈ s.rest, token.text ≠ "") :
    readName custom s = nameAfter (Text.concat ((hyphensOf custom s.rest).map Token.text))
      { s with rest := s.rest.drop (hyphensOf custom s.rest).length } := by
  obtain ⟨rest, discarded⟩ := s
  have takeIf_run : ∀ rest, takeIf .hyphenMinus ⟨rest, discarded⟩ =
      if rest.head?.map Token.kind = some .hyphenMinus then take ⟨rest, discarded⟩
      else .ok "" ⟨rest, discarded⟩ := fun _ => takeIf_eq _
  cases rest with
  | nil => cases custom <;> rfl
  | cons hyphen rest =>
    have htext : hyphen.text ≠ "" := hne hyphen (.head _)
    by_cases hk : hyphen.kind = .hyphenMinus
    · have hfirst : takeIf .hyphenMinus ⟨hyphen :: rest, discarded⟩ =
          .ok hyphen.text ⟨rest, discarded⟩ := by simp [takeIf_run, hk]
      unfold readName
      rw [bind_of_ok hfirst]
      cases custom with
      | false =>
        have hy : hyphensOf false (hyphen :: rest) = [hyphen] := by simp [hyphensOf, hk]
        rw [hy]
        show nameAfter (hyphen.text ++ "") ⟨rest, discarded⟩ = _
        simp [Text.concat]
      | true =>
        simp only [htext, ne_eq, not_false_eq_true, decide_true, Bool.and_true, if_true]
        by_cases hk' : rest.head?.map Token.kind = some .hyphenMinus
        · obtain ⟨second, rest, rfl⟩ : ∃ second rest', rest = second :: rest' := by
            cases rest with
            | nil => simp at hk'
            | cons second rest => exact ⟨second, rest, rfl⟩
          have hsecond : takeIf .hyphenMinus ⟨second :: rest, discarded⟩ =
              .ok second.text ⟨rest, discarded⟩ := by rw [takeIf_run, if_pos hk']; rfl
          have hy : hyphensOf true (hyphen :: second :: rest) = [hyphen, second] := by
            simp only [List.head?_cons, Option.map_some, Option.some.injEq] at hk'
            simp [hyphensOf, hk, hk']
          rw [bind_of_ok hsecond, hy]
          show nameAfter (hyphen.text ++ second.text) ⟨rest, discarded⟩ = _
          simp [Text.concat]
        · have hsecond : takeIf .hyphenMinus ⟨rest, discarded⟩ = .ok "" ⟨rest, discarded⟩ := by
            rw [takeIf_run, if_neg hk']
          have hy : hyphensOf true (hyphen :: rest) = [hyphen] := by
            cases rest <;> simp_all [hyphensOf]
          rw [bind_of_ok hsecond, hy]
          show nameAfter (hyphen.text ++ "") ⟨rest, discarded⟩ = _
          simp [Text.concat]
    · have hfirst : takeIf .hyphenMinus ⟨hyphen :: rest, discarded⟩ =
          .ok "" ⟨hyphen :: rest, discarded⟩ := by simp [takeIf_run, hk]
      unfold readName
      rw [bind_of_ok hfirst]
      have hnone : hyphensOf custom (hyphen :: rest) = [] := by
        cases custom <;> simp [hyphensOf, hk]
      simp only [ne_eq, not_true_eq_false, decide_false, Bool.and_false, Bool.false_eq_true,
        if_false, pure_bind_run, hnone]
      rfl

theorem nameAfter_eq_ok {hyphens name : String} {s s' : ParserState} :
    nameAfter hyphens s = .ok name s' ↔
    ∃ first more, s.rest = first :: more ++ s'.rest ∧ s'.discarded = s.discarded ∧
      name = hyphens ++ Text.concat ((first :: more).map Token.text) ∧
      (first.kind = .lowLine ∨ first.kind = .ident) ∧
      (∀ token ∈ more, isNamePart token = true) ∧ EndsName s'.rest := by
  have run : ∀ {first rest}, s.rest = first :: rest →
      (first.kind = .lowLine ∨ first.kind = .ident) → nameAfter hyphens s =
        .ok (hyphens ++ first.text ++ Text.concat ((rest.takeWhile isNamePart).map Token.text))
          { s with rest := rest.dropWhile isNamePart } := by
    intro first rest hrest hkind
    rcases hkind with hk | hk <;>
      simp only [nameAfter, kind?_bind_run, hrest, hk, List.head?_cons, Option.map_some,
        take_bind_run, List.tail_cons, Option.getD_some, takeWhile_bind_run, run_pure]
  constructor
  · intro h
    cases hrest : s.rest with
    | nil => simp [nameAfter, hrest] at h
    | cons first rest =>
      have hkind : first.kind = .lowLine ∨ first.kind = .ident := by
        simp only [nameAfter, kind?_bind_run, hrest] at h
        cases hk : first.kind <;> simp [hk] at h ⊢
      obtain ⟨rfl, rfl⟩ := EStateM.Result.ok.inj ((run hrest hkind).symm.trans h)
      refine ⟨first, rest.takeWhile isNamePart, ?_, rfl, ?_, hkind, ?_, head?_dropWhile_not⟩
      · simp [List.takeWhile_append_dropWhile]
      · simp [concat_cons, String.append_assoc]
      · exact fun token hmem => List.mem_takeWhile_imp hmem
  · rintro ⟨first, more, hrest, hdiscarded, rfl, hkind, hmore, hends⟩
    obtain ⟨htake, hdrop⟩ := takeWhile_eq_of_ends hmore hends
    have hs' : ({ s with rest := s'.rest } : ParserState) = s' := by
      cases s'; simp_all
    have hrest' : s.rest = first :: (more ++ s'.rest) := hrest
    rw [run hrest' hkind, htake, hdrop, hs', List.map_cons, concat_cons, String.append_assoc]

/-- A name is read as it stands. -/
theorem readName_eq_ok {custom : Bool} {name : String} {s s' : ParserState}
    (hne : ∀ token ∈ s.rest, token.text ≠ "") :
    readName custom s = .ok name s' ↔
      ∃ tokens, s.rest = tokens ++ s'.rest ∧ s'.discarded = s.discarded ∧
        name = Text.concat (tokens.map Token.text) ∧ IsName custom tokens ∧ EndsName s'.rest := by
  rw [readName_eq_nameAfter hne, nameAfter_eq_ok]
  constructor
  · rintro ⟨first, more, hrest, hd, rfl, hfirst, hmore, hends⟩
    have hprefix : hyphensOf custom s.rest <+: s.rest :=
      (List.takeWhile_prefix _).trans (List.take_prefix _ _)
    refine ⟨hyphensOf custom s.rest ++ first :: more, ?_, hd, ?_, ?_, hends⟩
    · rw [List.append_assoc, ← hrest]
      exact (List.prefix_iff_eq_append.1 hprefix).symm
    · rw [List.map_append, concat_append]
    · refine ⟨_, first, more, rfl, ?_, fun token hmem => ?_, hfirst, hmore⟩
      · exact ((List.takeWhile_prefix _).length_le).trans (by rw [List.length_take]; omega)
      · simpa using List.mem_takeWhile_imp hmem
  · rintro ⟨tokens, hrest, hd, rfl, ⟨hyphens, first, more, rfl, hlen, hall, hfirst, hmore⟩, hends⟩
    have hnot : first.kind ≠ .hyphenMinus := by rcases hfirst with h | h <;> simp [h]
    have hhyphens : hyphensOf custom s.rest = hyphens := by
      rw [hyphensOf, hrest, List.append_assoc, List.take_append, List.take_of_length_le hlen]
      refine (takeWhile_eq_of_ends (by simpa using hall) ?_).1
      intro token hmem
      cases hn : (if custom then 2 else 1) - hyphens.length with
      | zero => simp [hn] at hmem
      | succ n => simp [hn] at hmem; simp [← hmem, hnot]
    refine ⟨first, more, ?_, hd, ?_, hfirst, hmore, hends⟩
    · rw [hhyphens, hrest]; simp
    · rw [hhyphens, List.map_append, concat_append]

/-! ## Names with a namespace -/

/-- What is read of a name after its namespace: a colon and another name, if they belong to it. -/
def nameEnd (info : Option Nat) (name : String) (colon : Bool) : Parser Tree := do
  if colon && (← isAt .colon) then
    let sign ← take
    return .leaf info .identifier (name ++ (sign ++ (← readName false)))
  else return .leaf info .identifier (name ++ "")

/-- What is read of a name after its base: a bar and a name, if the base is a namespace. -/
def nameFrom (info : Option Nat) (colon : Bool) (base : String) : Parser Tree := do
  if (← isAt .verticalLine) && !(← lookupKind 1 .equals) then
    let bar ← take
    match ← kind? with
    | some .hyphenMinus | some .ident | some .lowLine =>
      nameEnd info (base ++ (bar ++ (← readName false))) colon
    | some .asterisk => nameEnd info (base ++ (bar ++ (← take))) false
    | _ => nameEnd info (base ++ bar) colon
  else nameEnd info (base ++ "") colon

/-- What is read of a name after its bar. -/
def nameAfterBar (info : Option Nat) (colon : Bool) (base bar : String) : Parser Tree := do
  match ← kind? with
  | some .hyphenMinus | some .ident | some .lowLine =>
    nameEnd info (base ++ (bar ++ (← readName false))) colon
  | some .asterisk => nameEnd info (base ++ (bar ++ (← take))) false
  | _ => nameEnd info (base ++ bar) colon

theorem qualifiedName_eq {s : ParserState} {first : Token} {rest : List Token} (colon : Bool)
    (hs : s.rest = first :: rest) : qualifiedName colon s =
      (if first.kind = .asterisk then
        take >>= nameFrom (some first.start) (colon && first.kind ≠ .asterisk)
      else if first.kind = .verticalLine && !decide (rest.head?.map Token.kind = some .equals) then
        nameFrom (some first.start) (colon && first.kind ≠ .asterisk) ""
      else readName false >>= nameFrom (some first.start) (colon && first.kind ≠ .asterisk)) s := by
  have hnext : s.rest[1]?.map Token.kind = rest.head?.map Token.kind := by
    rw [hs, List.getElem?_cons_succ, List.head?_eq_getElem?]
  rw [qualifiedName, current?_bind_run, hs, List.head?_cons]
  dsimp only
  rw [here_bind_run, lookupKind_bind_run, hnext, hs]
  rfl

/-! ## Numbers -/

theorem countIf_le_length (kind : TokenKind) (tokens : List Token) :
    countIf kind tokens ≤ tokens.length := by
  cases tokens <;> simp [countIf]; split <;> omega

theorem add_countIf_drop_le {n : Nat} {kind : TokenKind} {tokens : List Token}
    (h : n ≤ tokens.length) : n + countIf kind (tokens.drop n) ≤ tokens.length := by
  have := countIf_le_length kind (tokens.drop n)
  rw [List.length_drop] at this
  omega

theorem numberLength?_le {tokens : List Token} {n : Nat} (h : numberLength? tokens = some n) :
    n ≤ tokens.length := by
  simp only [numberLength?, Option.ite_none_left_eq_some, Option.some.injEq] at h
  rw [← h.2]
  have h₁ := countIf_le_length .hyphenMinus tokens
  exact add_countIf_drop_le (add_countIf_drop_le (add_countIf_drop_le h₁))

theorem numberLength?_pos {tokens : List Token} {n : Nat} (h : numberLength? tokens = some n) :
    0 < n := by
  simp only [numberLength?, Option.ite_none_left_eq_some, Option.some.injEq, Bool.and_eq_true,
    decide_eq_true_eq] at h
  omega

private theorem mem_take_add_countIf {n : Nat} {kind : TokenKind} {tokens : List Token}
    {token : Token} (h : token ∈ tokens.take (n + countIf kind (tokens.drop n))) :
    token ∈ tokens.take n ∨ token.kind = kind := by
  rw [List.take_add, List.mem_append] at h
  refine h.imp_right fun hmem => ?_
  cases hdrop : tokens.drop n with
  | nil => simp [hdrop] at hmem
  | cons first rest =>
    rw [hdrop, countIf] at hmem
    split at hmem
    next hkind =>
      obtain rfl : token = first := by simpa using hmem
      simpa using hkind
    next => simp at hmem

/-- A number is made of a hyphen, digits and a full stop. -/
theorem numberLength?_kinds {tokens : List Token} {n : Nat} (h : numberLength? tokens = some n) :
    ∀ token ∈ tokens.take n,
      token.kind = .hyphenMinus ∨ token.kind = .number ∨ token.kind = .fullStop := by
  simp only [numberLength?, Option.ite_none_left_eq_some, Option.some.injEq] at h
  intro token hmem
  rw [← h.2] at hmem
  rcases mem_take_add_countIf hmem with hmem | hkind
  · rcases mem_take_add_countIf hmem with hmem | hkind
    · rcases mem_take_add_countIf hmem with hmem | hkind
      · have hmem' : token ∈ tokens.take (0 + countIf .hyphenMinus (tokens.drop 0)) := by
          simpa using hmem
        rcases mem_take_add_countIf hmem' with hmem | hkind
        · simp at hmem
        · exact .inl hkind
      · exact .inr (.inl hkind)
    · exact .inr (.inr hkind)
  · exact .inr (.inl hkind)

theorem numberLength?_congr {tokens tokens' : List Token}
    (h : tokens.map Token.kind = tokens'.map Token.kind) :
    numberLength? tokens = numberLength? tokens' := by
  have key : ∀ n kind, countIf kind (tokens.drop n) = countIf kind (tokens'.drop n) := by
    intro n kind
    simp only [countIf, ← List.head?_map, List.map_drop, h]
  have key' : ∀ kind, countIf kind tokens = countIf kind tokens' := fun kind => by
    simpa using key 0 kind
  simp only [numberLength?, key, key']

/-- Where counting stands in the tokens of the number, or right after them, it sees the same. -/
private theorem countIf_drop_congr {front back back' : List Token} {n : Nat} {kind : TokenKind}
    (hn : n ≤ front.length) (hkind : kind.isNeutral = false)
    (hpeek : (peek (back.map Token.kind)).1 = (peek (back'.map Token.kind)).1) :
    countIf kind ((front ++ back).drop n) = countIf kind ((front ++ back').drop n) := by
  rw [List.drop_append_of_le_length hn, List.drop_append_of_le_length hn]
  cases front.drop n with
  | cons token front => rfl
  | nil =>
    have : back.head?.map Token.kind = some kind ↔ back'.head?.map Token.kind = some kind := by
      rw [← List.head?_map, ← List.head?_map, head?_eq_some_iff_peek hkind,
        head?_eq_some_iff_peek hkind, hpeek]
    simp only [List.nil_append, countIf, this]

/-- A number is still one before tokens that look the same. -/
theorem numberLength?_append_congr {front back back' : List Token}
    (h : numberLength? (front ++ back) = some front.length)
    (hpeek : (peek (back.map Token.kind)).1 = (peek (back'.map Token.kind)).1) :
    numberLength? (front ++ back') = some front.length := by
  have key : ∀ n kind, n ≤ front.length → kind.isNeutral = false →
      countIf kind ((front ++ back).drop n) = countIf kind ((front ++ back').drop n) :=
    fun n kind hn hkind => countIf_drop_congr hn hkind hpeek
  simp only [numberLength?, Option.ite_none_left_eq_some, Option.some.injEq] at h ⊢
  obtain ⟨hsome, hall⟩ := h
  have hsign := key 0 .hyphenMinus (Nat.zero_le _) rfl
  simp only [List.drop_zero] at hsign
  have hwhole := key (countIf .hyphenMinus (front ++ back)) .number (by omega) rfl
  have hpoint := key (countIf .hyphenMinus (front ++ back) +
    countIf .number ((front ++ back).drop (countIf .hyphenMinus (front ++ back)))) .fullStop
    (by omega) rfl
  rw [← hsign, ← hwhole, ← hpoint, ← key _ _ (by omega) rfl]
  exact ⟨hsome, hall⟩

theorem numberLength?_plus {token : Token} {tokens : List Token} (h : token.kind = .plus) :
    numberLength? (token :: tokens) = none := by
  simp [numberLength?, countIf, h]

/-- Whether a hyphen starts a number is seen in what comes after it. -/
theorem numberLength?_hyphen {token : Token} {tokens : List Token} (h : token.kind = .hyphenMinus) :
    numberLength? (token :: tokens) = none ↔
      (peek (tokens.map Token.kind)).1 ≠ some .number ∧
      (peek (tokens.map Token.kind)).2 = false := by
  rw [ne_eq, ← head?_eq_some_iff_peek rfl]
  match tokens with
  | [] => simp [numberLength?, countIf, h, peek]
  | [first] =>
    by_cases h₁ : first.kind = .number <;> by_cases h₂ : first.kind = .fullStop <;>
      simp_all [numberLength?, countIf, peek]
  | first :: second :: rest =>
    by_cases h₁ : first.kind = .number
    · simp [numberLength?, countIf, h, h₁]
    · by_cases h₂ : first.kind = .fullStop <;> by_cases h₃ : second.kind = .number <;>
        simp_all [numberLength?, countIf, peek]

end StyleTree.Grammar
