import StyleTree.Proofs.Grammar.Leaf

/-! Ranges of characters such as `U+0-7F` or `u+4??`. A range is kept as it stands; where it ends is
seen in the token after it, unless six places are filled already. `IsRange` describes its tokens,
and `unicodeRange_of_isRange`, `isRange_of_unicodeRange` and `IsRange.congr` together say that it is
read again. -/

namespace StyleTree.Grammar

open StyleTree.Parser

variable {s s' : ParserState} {tokens tokens' rest rest' : List Token}

/-! ## Hexadecimal digits -/

/-- The tokens hold one to six hexadecimal digits. -/
def IsHexDigits (tokens : List Token) : Prop :=
  (∀ token ∈ tokens, isHexPart token = true) ∧
    (let digits := Text.concat (tokens.map Token.text)
     ¬(Text.byteLength digits.toList = 0 || 6 < Text.byteLength digits.toList ||
      !digits.toList.all isHex) = true)

/-- The next token goes on no digits. -/
def EndsHex (tokens : List Token) : Prop :=
  ∀ token ∈ tokens.head?, isHexPart token = false

theorem endsHex_iff : EndsHex tokens ↔ tokens.head?.map Token.kind ≠ some .number ∧
    tokens.head?.map Token.kind ≠ some .ident := by
  cases tokens <;> simp [EndsHex, isHexPart]

theorem hexDigits_of_isHexDigits (h : IsHexDigits tokens) (hs : s.rest = tokens ++ rest)
    (hends : EndsHex rest) :
    hexDigits s = .ok (Text.concat (tokens.map Token.text)) { s with rest } := by
  obtain ⟨htake, hdrop⟩ := takeWhile_eq_of_ends h.1 hends
  have hdigits := h.2
  simp only [hexDigits, takeWhile_bind_run, hs, htake, hdrop, if_neg hdigits, run_pure]

theorem isHexDigits_of_hexDigits {digits : String} (h : hexDigits s = .ok digits s') :
    ∃ tokens, s.rest = tokens ++ s'.rest ∧ IsHexDigits tokens ∧ EndsHex s'.rest ∧
      s' = { s with rest := s'.rest } ∧ digits = Text.concat (tokens.map Token.text) := by
  simp only [hexDigits, takeWhile_bind_run] at h
  split at h
  · exact (fail_ne_ok.1 h).elim
  next hdigits =>
    obtain ⟨rfl, rfl⟩ := EStateM.Result.ok.inj h
    refine ⟨s.rest.takeWhile isHexPart, ?_, ⟨?_, hdigits⟩, head?_dropWhile_not, rfl, rfl⟩
    · exact List.takeWhile_append_dropWhile.symm
    · exact fun token hmem => List.mem_takeWhile_imp hmem

theorem IsHexDigits.congr (h : IsHexDigits tokens)
    (hcore : tokens'.map Token.core = tokens.map Token.core) : IsHexDigits tokens' := by
  refine ⟨fun token hmem => ?_, ?_⟩
  · have hk : token.kind ∈ tokens.map Token.kind := map_kind_congr hcore ▸ List.mem_map_of_mem hmem
    obtain ⟨other, hother, hk⟩ := List.mem_map.1 hk
    have := h.1 other hother
    rwa [isHexPart, ← hk]
  · rw [map_text_congr hcore]
    exact h.2

theorem endsHex_congr (h : peek (tokens.map Token.kind) = peek (tokens'.map Token.kind))
    (hends : EndsHex tokens) : EndsHex tokens' := by
  rw [endsHex_iff] at hends ⊢
  exact ⟨fun hk => hends.1 ((head?_kind_iff_of_peek_eq h rfl).2 hk),
    fun hk => hends.2 ((head?_kind_iff_of_peek_eq h rfl).2 hk)⟩

/-! ## Ranges -/

/-- The places that digits leave for question marks. -/
def roomAfter (digits : List Token) : Nat :=
  6 - Text.byteLength (Text.concat (digits.map Token.text)).toList

/-- The tokens of a range before the given ones. -/
inductive IsRange : List Token → List Token → Prop where
  | marks {sign plus digits marks rest} : sign.kind = .ident → plus.kind = .plus →
    IsHexDigits digits → (∀ mark ∈ marks, mark.kind = .questionMark) →
    marks.length ≤ roomAfter digits →
    (marks.length = roomAfter digits ∨ rest.head?.map Token.kind ≠ some .questionMark) →
    (marks = [] → EndsHex rest ∧ rest.head?.map Token.kind ≠ some .hyphenMinus) →
    IsRange (sign :: plus :: (digits ++ marks)) rest
  | between {sign plus first hyphen last rest} : sign.kind = .ident → plus.kind = .plus →
    IsHexDigits first → hyphen.kind = .hyphenMinus → IsHexDigits last → EndsHex rest →
    IsRange (sign :: plus :: (first ++ hyphen :: last)) rest

/-- The question marks that are read in the given room. -/
def marksOf (room : Nat) (tokens : List Token) : List Token :=
  (tokens.take room).takeWhile fun token => token.kind = .questionMark

theorem marksOf_append {room : Nat} {marks : List Token}
    (hmarks : ∀ mark ∈ marks, mark.kind = .questionMark) (hroom : marks.length ≤ room)
    (hends : marks.length = room ∨ rest.head?.map Token.kind ≠ some .questionMark) :
    marksOf room (marks ++ rest) = marks := by
  rw [marksOf, List.take_append, List.take_of_length_le hroom]
  refine (takeWhile_eq_of_ends (by simpa using hmarks) fun token hmem => ?_).1
  rcases hends with hends | hends
  · simp [hends] at hmem
  · have hhead : rest.head? = some token := by
      cases hn : room - marks.length with
      | zero => simp [hn] at hmem
      | succ n => cases rest <;> simp_all
    simpa [hhead] using hends

/-- What is read of a range after its digits. -/
private def rangeAfter (info : Option Nat) (sign first : String) : Parser Tree := do
  let room := 6 - Text.byteLength first.toList
  let marks := ((← get).rest.take room).takeWhile fun token => token.kind = .questionMark
  let wildcards ← takeMany marks.length
  let last ←
    if marks.isEmpty && (← isAt .hyphenMinus) then
      let hyphen ← take
      pure (hyphen ++ (← hexDigits))
    else pure ""
  return .leaf info .identifier (sign ++ first ++ wildcards ++ last)

private theorem unicodeRange_eq {sign plus : Token} (hs : s.rest = sign :: plus :: rest) :
    unicodeRange s = (hexDigits >>= fun first =>
      rangeAfter (some sign.start) (sign.text ++ plus.text) first) { s with rest } := by
  simp only [unicodeRange, here_bind_run, takeMany_bind_run, hs]
  simp [Text.concat, rangeAfter]

/-- A range is read as one identifier. -/
theorem unicodeRange_of_isRange (h : IsRange tokens rest) (hs : s.rest = tokens ++ rest) :
    unicodeRange s = .ok (.leaf (s.rest.head?.map Token.start) .identifier
      (Text.concat (tokens.map Token.text))) { s with rest } := by
  cases h with
  | @marks sign plus digits marks _ _ _ hdigits hmarks hroom hfull hnone =>
    have hs' : s.rest = sign :: plus :: (digits ++ (marks ++ rest)) := by simp [hs]
    have hends : EndsHex (marks ++ rest) := by
      cases marks with
      | nil => exact (hnone rfl).1
      | cons mark marks => simp [EndsHex, isHexPart, hmarks mark (.head _)]
    rw [unicodeRange_eq hs', bind_of_ok (hexDigits_of_isHexDigits hdigits rfl hends)]
    have hmarksOf := marksOf_append hmarks hroom hfull
    rw [marksOf, roomAfter] at hmarksOf
    simp only [rangeAfter, get_bind_run, hmarksOf, takeMany_bind_run, isAt_bind_run]
    have hlast : (marks.isEmpty &&
        decide (((marks ++ rest).drop marks.length).head?.map Token.kind = some .hyphenMinus)) =
        false := by
      cases marks with
      | nil => simpa using (hnone rfl).2
      | cons mark marks => rfl
    rw [hlast]
    simp [hs', Text.concat, String.append_assoc]
  | @between sign plus first hyphen last _ _ _ hfirst hhyphen hlast hends =>
    have hs' : s.rest = sign :: plus :: (first ++ (hyphen :: (last ++ rest))) := by simp [hs]
    have hends' : EndsHex (hyphen :: (last ++ rest)) := by simp [EndsHex, isHexPart, hhyphen]
    rw [unicodeRange_eq hs', bind_of_ok (hexDigits_of_isHexDigits hfirst rfl hends')]
    have hmarksOf : marksOf (roomAfter first) ([] ++ hyphen :: (last ++ rest)) = [] :=
      marksOf_append (by simp) (Nat.zero_le _) (.inr (by simp [hhyphen]))
    rw [marksOf, roomAfter, List.nil_append] at hmarksOf
    have hrun := hexDigits_of_isHexDigits (s := { s with rest := last ++ rest }) hlast rfl hends
    simp only [rangeAfter, get_bind_run, hmarksOf, takeMany_bind_run, isAt_bind_run]
    simp [hhyphen, hrun, hs', Text.concat, String.append_assoc]

theorem marksOf_spec (room : Nat) (tokens : List Token) :
    ∃ rest, tokens = marksOf room tokens ++ rest ∧
    (∀ mark ∈ marksOf room tokens, mark.kind = .questionMark) ∧
    (marksOf room tokens).length ≤ room ∧
    ((marksOf room tokens).length = room ∨ rest.head?.map Token.kind ≠ some .questionMark) := by
  induction room generalizing tokens with
  | zero => exact ⟨tokens, by simp [marksOf]⟩
  | succ room ih =>
    cases tokens with
    | nil => exact ⟨[], by simp [marksOf]⟩
    | cons token tokens =>
      by_cases hk : token.kind = .questionMark
      · obtain ⟨rest, htokens, hmarks, hroom, hends⟩ := ih tokens
        have hcons : marksOf (room + 1) (token :: tokens) = token :: marksOf room tokens := by
          simp [marksOf, hk]
        rw [hcons]
        refine ⟨rest, by simp [← htokens], ?_, by simpa using hroom, by simpa using hends⟩
        simpa [hk] using hmarks
      · exact ⟨token :: tokens, by simp [marksOf, hk]⟩

/-- What is read as a range has the tokens of one. -/
theorem isRange_of_unicodeRange {tree : Tree} {sign plus : Token}
    (hs : s.rest = sign :: plus :: rest) (hsign : sign.kind = .ident) (hplus : plus.kind = .plus)
    (h : unicodeRange s = .ok tree s') :
    ∃ tokens, s.rest = tokens ++ s'.rest ∧ IsRange tokens s'.rest := by
  have key : ∀ tokens rest, s.rest = tokens ++ rest → IsRange tokens rest →
      ∃ tokens, s.rest = tokens ++ s'.rest ∧ IsRange tokens s'.rest := by
    intro tokens rest hs hrange
    rw [unicodeRange_of_isRange hrange hs, EStateM.Result.ok.injEq] at h
    obtain ⟨-, rfl⟩ := h
    exact ⟨tokens, hs, hrange⟩
  have hrun := h
  rw [unicodeRange_eq hs] at hrun
  obtain ⟨first, s₁, hfirst, hrun⟩ := bind_eq_ok.1 hrun
  obtain ⟨digits, hdigits, hhex, hends, hs₁, rfl⟩ := isHexDigits_of_hexDigits hfirst
  obtain ⟨rest₂, hrest₂, hmarks, hroom, hfull⟩ := marksOf_spec (roomAfter digits) s₁.rest
  simp only at hdigits
  have hs' : s.rest = sign :: plus :: (digits ++ s₁.rest) := by rw [hs, hdigits]
  by_cases hlast : marksOf (roomAfter digits) s₁.rest = [] ∧
      rest₂.head?.map Token.kind = some .hyphenMinus
  · obtain ⟨hnone, hhyphen⟩ := hlast
    obtain ⟨hyphen, hmem, hk⟩ := Option.map_eq_some_iff.1 hhyphen
    obtain ⟨rest₃, rfl⟩ := List.head?_eq_some_iff.1 hmem
    rw [hnone, List.nil_append] at hrest₂
    rw [marksOf, roomAfter, hrest₂] at hnone
    simp only [rangeAfter, get_bind_run, hnone, takeMany_bind_run, isAt_bind_run, List.length_nil,
      List.drop_zero, hrest₂, List.head?_cons, Option.map_some, hk, List.isEmpty_nil, decide_true,
      Bool.and_true, if_true, take_bind_run, List.tail_cons] at hrun
    simp only [bind_eq_ok, run_pure] at hrun
    obtain ⟨_, s₃, hdigits₂, -⟩ := hrun
    obtain ⟨last, hlast, hhex₂, hends₂, -, -⟩ := isHexDigits_of_hexDigits hdigits₂
    simp only at hlast
    refine key _ _ ?_ (.between hsign hplus hhex hk hhex₂ hends₂)
    simp [hs', hrest₂, hlast]
  · refine key _ rest₂ ?_ (.marks hsign hplus hhex hmarks hroom hfull fun hnone => ?_)
    · rw [hs', hrest₂]
      simp [← hrest₂]
    · rw [hnone, List.nil_append] at hrest₂
      exact ⟨hrest₂ ▸ hends, fun hk => hlast ⟨hnone, hk⟩⟩

theorem IsRange.congr (h : IsRange tokens rest)
    (hcore : tokens'.map Token.core = tokens.map Token.core)
    (hpeek : peek (rest.map Token.kind) = peek (rest'.map Token.kind)) : IsRange tokens' rest' := by
  cases h with
  | @marks sign plus digits marks _ hsign hplus hdigits hmarks hroom hfull hnone =>
    simp only [List.map_cons, List.map_append, List.map_eq_cons_iff,
      List.map_eq_append_iff] at hcore
    obtain ⟨sign', _, rfl, hsign', plus', _, rfl, hplus', digits', marks', rfl, hd, hm⟩ := hcore
    have hlength : marks'.length = marks.length := by simpa using congrArg List.length hm
    have hroom' : roomAfter digits' = roomAfter digits := by
      rw [roomAfter, roomAfter, map_text_congr hd]
    refine .marks (by rw [Token.kind_eq_of_core hsign', hsign])
      (by rw [Token.kind_eq_of_core hplus', hplus]) (hdigits.congr hd) (fun mark hmem => ?_)
      (by omega) ?_ (fun hnil => ?_)
    · have hk : mark.kind ∈ marks.map Token.kind := map_kind_congr hm ▸ List.mem_map_of_mem hmem
      obtain ⟨other, hother, hk⟩ := List.mem_map.1 hk
      rw [← hk, hmarks other hother]
    · rw [hlength, hroom']
      exact hfull.imp_right fun hne hk => hne ((head?_kind_iff_of_peek_eq hpeek rfl).2 hk)
    · subst hnil
      obtain ⟨hends, hhyphen⟩ := hnone (List.map_eq_nil_iff.1 hm.symm)
      exact ⟨endsHex_congr hpeek hends,
        fun hk => hhyphen ((head?_kind_iff_of_peek_eq hpeek rfl).2 hk)⟩
  | @between sign plus first hyphen last _ hsign hplus hfirst hhyphen hlast hends =>
    simp only [List.map_cons, List.map_append, List.map_eq_cons_iff,
      List.map_eq_append_iff] at hcore
    obtain ⟨sign', _, rfl, hsign', plus', _, rfl, hplus', first', _, rfl, hf, hyphen', last', rfl,
      hh, hl⟩ := hcore
    exact .between (by rw [Token.kind_eq_of_core hsign', hsign])
      (by rw [Token.kind_eq_of_core hplus', hplus]) (hfirst.congr hf)
      (by rw [Token.kind_eq_of_core hh, hhyphen]) (hlast.congr hl) (endsHex_congr hpeek hends)

theorem IsHexDigits.kinds (h : IsHexDigits tokens) :
    ∀ token ∈ tokens, token.kind = .number ∨ token.kind = .ident := by
  intro token hmem
  simpa [isHexPart] using h.1 token hmem

theorem IsRange.kinds (h : IsRange tokens rest) : ∀ token ∈ tokens,
    token.kind = .ident ∨ token.kind = .plus ∨ token.kind = .number ∨
      token.kind = .questionMark ∨ token.kind = .hyphenMinus := by
  intro token hmem
  cases h with
  | marks hsign hplus hdigits hmarks =>
    simp only [List.mem_cons, List.mem_append] at hmem
    rcases hmem with rfl | rfl | hmem | hmem
    · exact .inl hsign
    · exact .inr (.inl hplus)
    · rcases hdigits.kinds token hmem with hk | hk <;> simp [hk]
    · simp [hmarks token hmem]
  | between hsign hplus hfirst hhyphen hlast =>
    simp only [List.mem_cons, List.mem_append] at hmem
    rcases hmem with rfl | rfl | hmem | rfl | hmem
    · exact .inl hsign
    · exact .inr (.inl hplus)
    · rcases hfirst.kinds token hmem with hk | hk <;> simp [hk]
    · simp [hhyphen]
    · rcases hlast.kinds token hmem with hk | hk <;> simp [hk]

/-- A range is read again from its text. -/
theorem unicodeRange_reprints {p : Place} {tree : Tree} {sign plus : Token} (hp : p.Scans s.rest)
    (hs : s.rest = sign :: plus :: rest) (hsign : sign.kind = .ident) (hplus : plus.kind = .plus)
    (h : unicodeRange s = .ok tree s') : Reprints p s tree s' fun _ => unicodeRange := by
  obtain ⟨tokens, hs', hrange⟩ := isRange_of_unicodeRange hs hsign hplus h
  rw [unicodeRange_of_isRange hrange hs', EStateM.Result.ok.injEq] at h
  obtain ⟨rfl, -⟩ := h
  refine reprints_of_verbatim _ hp hs' ?_ ?_ ?_ ?_
  · cases hrange <;> simp
  · intro token hmem
    rcases hrange.kinds token hmem with hk | hk | hk | hk | hk <;> simp [hk]
  · simp [Node.leafMarks, toList_concat_text]
  · intro _ s₁ front rest' hs₁ hcore hpeek _
    refine ⟨_, unicodeRange_of_isRange (hrange.congr hcore hpeek) hs₁, ?_⟩
    rw [Node.bare_leaf, Node.bare_leaf, map_text_congr hcore]

end StyleTree.Grammar
