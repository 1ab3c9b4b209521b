import StyleTree.Proofs.Grammar.Filter
import StyleTree.Proofs.Grammar.Placement
import StyleTree.Proofs.Grammar.Selector
import StyleTree.Proofs.Grammar.Taking

/-! What is written of a tree are the letters it was read from (`letters`): blanks come and go, and
the names of some functions change their case. `WritesIf passed flat P w x out` says that where `w`
is read already and `x` reads on, `out` of the value has the letters of both. The lemmas go through
the productions of components and values, which are written as they are read unless there are
comments, flags, or functions in a selector (`Clear`). -/

namespace StyleTree

open StyleTree.Parser StyleTree.Grammar

/-! ## Letters -/

/-- The characters without blanks and those that are passed over, with ASCII capitals as small
letters. -/
def letters (passed cs : List Char) : List Char :=
  (cs.map Text.lowerChar).filter fun c => !isBlank c && !passed.contains c

section
variable {passed cs cs' : List Char}

@[simp] theorem letters_nil (passed : List Char) : letters passed [] = [] := rfl

theorem letters_append (passed cs cs' : List Char) :
    letters passed (cs ++ cs') = letters passed cs ++ letters passed cs' := by
  simp [letters]

theorem letters_cons (passed : List Char) (c : Char) (cs : List Char) :
    letters passed (c :: cs) = letters passed [c] ++ letters passed cs :=
  letters_append passed [c] cs

/-- The case of the characters does not matter. -/
theorem letters_congr (h : cs.map Text.lowerChar = cs'.map Text.lowerChar) :
    letters passed cs = letters passed cs' := by
  rw [letters, h, letters]

theorem lowerChar_of_isBlank {c : Char} (h : isBlank c = true) : Text.lowerChar c = c := by
  unfold isBlank CharClass.ofChar at h
  split at h <;> first | rfl | simp at h

theorem letters_of_blanks (h : ∀ c ∈ cs, isBlank c = true) : letters passed cs = [] := by
  refine List.filter_eq_nil_iff.2 fun c hmem => ?_
  obtain ⟨d, hd, rfl⟩ := List.mem_map.1 hmem
  rw [lowerChar_of_isBlank (h d hd), h d hd]
  simp

@[simp] theorem letters_space (passed : List Char) : letters passed [' '] = [] :=
  letters_of_blanks fun _ hmem => List.mem_singleton.1 hmem ▸ rfl

end

/-! ## Tokens without marks -/

/-- The tokens are spelled as their kinds say, there are no comments and flags among them, and if
`flat`, no parenthesis or square bracket opens. -/
structure Clear (flat : Bool) (tokens : List Token) : Prop where
  spelled : Spelled tokens
  blank : ∀ token ∈ tokens, token.kind = .whitespace → ∀ c ∈ token.text.toList, isBlank c = true
  unmarked : ∀ token ∈ tokens, token.kind ≠ .comment ∧ token.kind ≠ .exclamationMark
  level : flat = true → ∀ token ∈ tokens, token.kind ≠ .leftParen ∧ token.kind ≠ .leftBracket

instance {flat : Bool} : Kept (Clear flat) where
  suffix h hsuffix :=
    ⟨h.spelled.of_suffix hsuffix, fun token hmem => h.blank token (hsuffix.mem hmem),
      fun token hmem => h.unmarked token (hsuffix.mem hmem),
      fun hflat token hmem => h.level hflat token (hsuffix.mem hmem)⟩
  cut {token escape tokens} h _ hk _ := by
    constructor
    case spelled =>
      exact List.forall_mem_cons.2
        ⟨Token.isSpelled_of_ident hk, fun other hmem => h.spelled other (.tail _ hmem)⟩
    case blank =>
      exact List.forall_mem_cons.2 ⟨fun hblank => absurd (hk.symm.trans hblank) nofun,
        fun other hmem => h.blank other (.tail _ hmem)⟩
    case unmarked =>
      exact List.forall_mem_cons.2 ⟨by simp [hk], fun other hmem => h.unmarked other (.tail _ hmem)⟩
    case level =>
      exact fun hflat =>
        List.forall_mem_cons.2 ⟨by simp [hk], fun other hmem => h.level hflat other (.tail _ hmem)⟩

/-- Gaps among the tokens have no letters. -/
theorem Clear.letters_of_gaps {passed : List Char} {flat : Bool} {tokens front : List Token}
    (h : Clear flat tokens) (hsub : front ⊆ tokens) (hgap : ∀ token ∈ front, isGap token = true) :
    letters passed (tokenChars front) = [] := by
  induction front with
  | nil => rfl
  | cons token front ih =>
    obtain ⟨hmem, hsub⟩ := List.cons_subset.1 hsub
    rw [tokenChars_cons, letters_append, ih hsub fun other hother => hgap other (.tail _ hother),
      List.append_nil]
    rcases Bool.or_eq_true_iff.1 (hgap token (.head _)) with hk | hk
    · exact letters_of_blanks (h.blank token hmem (of_decide_eq_true hk))
    · exact absurd (of_decide_eq_true hk) (h.unmarked token hmem).1

/-- Neither a parenthesis nor a square bracket opens. -/
theorem Clear.head?_ne {tokens : List Token} (h : Clear true tokens) :
    tokens.head?.map Token.kind ≠ some .leftParen ∧
    tokens.head?.map Token.kind ≠ some .leftBracket := by
  cases tokens with
  | nil => exact ⟨nofun, nofun⟩
  | cons token tokens => simpa using h.level rfl token (.head _)

namespace Parser

variable {α β σ τ : Type} {passed w v : List Char} {flat : Bool} {P Q : List Token → Prop}
  {x y : Parser α}
  {f : α → Parser β} {out : α → List Char} {put : β → List Char} {kind : TokenKind} {token : Token}

/-- Where `w` is read already and the reader goes on from tokens with the property `P`, `out` of its
value has the letters of both. -/
abbrev WritesIf (passed : List Char) (flat : Bool) (P : List Token → Prop) (w : List Char)
    (x : Parser α) (out : α → List Char) : Prop :=
  TakingIf (Clear flat) P x fun a front =>
    letters passed (out a) = letters passed (w ++ tokenChars front)

/-- Where `w` is read already and the reader goes on, `out` of its value has the letters of both. -/
abbrev Writes (passed : List Char) (flat : Bool) (w : List Char) (x : Parser α)
    (out : α → List Char) : Prop :=
  WritesIf passed flat (fun _ => True) w x out

namespace TakingIf

/-- The value has the letters of what is read already. -/
theorem told {a : α} (h : letters passed (out a) = letters passed w) :
    WritesIf passed flat P w (Pure.pure a) out :=
  .pure (by rw [h, tokenChars_nil, List.append_nil])

/-- The value is written as it is read. -/
theorem written {a : α} (h : out a = w) : WritesIf passed flat P w (Pure.pure a) out :=
  told (by rw [h])

/-- Something is known of the tokens that the first reader leaves. -/
theorem nextIf (hx : WritesIf passed flat P [] x out)
    (hQ : ∀ s a s', P s.rest → x s = .ok a s' → Q s'.rest)
    (hf : ∀ a, WritesIf passed flat Q (w ++ out a) (f a) put) :
    WritesIf passed flat P w (x >>= f) put := by
  refine hx.bindIf hQ fun a front hfront => (hf a).imp fun b more hmore => ?_
  rw [hmore, tokenChars_append, letters_append, letters_append, letters_append, letters_append,
    hfront, List.append_assoc]
  rfl

theorem next (hx : WritesIf passed flat P [] x out)
    (hf : ∀ a, Writes passed flat (w ++ out a) (f a) put) :
    WritesIf passed flat P w (x >>= f) put :=
  hx.nextIf (fun _ _ _ _ _ => trivial) hf

/-- Two ways to read what comes first, and what comes after. -/
theorem fork {c : Prop} [Decidable c] (hx : c → WritesIf passed flat P [] x out)
    (hy : ¬ c → WritesIf passed flat P [] y out)
    (hf : ∀ a, Writes passed flat (w ++ out a) (f a) put) :
    WritesIf passed flat P w (if c then x >>= f else y >>= f) put :=
  .ite (fun h => (hx h).next hf) fun h => (hy h).next hf

end TakingIf

/-! ### Readers of tokens -/

theorem kind_at (hk : token.kind = kind) : ∀ tokens : List Token, tokens.head? = some token →
    tokens.head?.map Token.kind = some kind :=
  fun _ hhead => by rw [hhead, Option.map_some, hk]

/-- A reader whose tokens are known by their text. -/
theorem writes_of_spanning (h : Spanning x fun a v => out a = v) :
    WritesIf passed flat P [] x out :=
  (taking_of_spanning h fun _ hK => hK.spelled).imp fun _ _ h => by rw [h, List.nil_append]

theorem writes_take : WritesIf passed flat P [] take String.toList :=
  writes_of_spanning spanning_take

theorem writes_takeIf : WritesIf passed flat P [] (takeIf kind) String.toList :=
  writes_of_spanning (spanning_takeIf kind)

theorem writes_takeMany (count : Nat) : WritesIf passed flat P [] (takeMany count) String.toList :=
  writes_of_spanning (spanning_takeMany count)

theorem writes_takeWhile (p : Token → Bool) :
    WritesIf passed flat P [] (Parser.takeWhile p) String.toList :=
  writes_of_spanning (spanning_takeWhile p)

theorem writes_expect {c : Char} (hc : kind.char? = some c) :
    WritesIf passed flat P [] (expect kind) fun _ => [c] :=
  writes_of_spanning fun s a s' hs h => (spanning_expect hc s a s' hs h).imp fun _ hfront =>
    ⟨hfront.1, hfront.2.symm⟩

theorem writes_expectWord (word : String) :
    WritesIf passed flat P [] (expectWord word) fun _ => [] :=
  (taking_expectWord word).imp fun _ _ hfront => by rw [hfront]; rfl

/-- A token that is not there is not expected. -/
theorem takingIf_absent {K : List Token → Prop} {r : β → List Token → Prop} {f : Unit → Parser β}
    (h : ∀ tokens, K tokens → P tokens → tokens.head?.map Token.kind ≠ some kind) :
    TakingIf K P (expect kind >>= f) r := by
  intro s b s' hK hP hs
  obtain ⟨_, s₁, hexpect, -⟩ := bind_eq_ok.1 hs
  obtain ⟨token, rest, hrest, hk, -⟩ := expect_eq_ok.1 hexpect
  exact absurd (by rw [hrest, List.head?_cons, Option.map_some, hk]) (h s.rest hK hP)

theorem writesIf_advance (hP : ∀ tokens, Clear flat tokens → P tokens →
    letters passed (tokenChars (tokens.take 1)) = letters passed w) :
    WritesIf passed flat P [] advance fun _ => w := by
  refine takingIf_advance.imp fun _ front hfront => ?_
  obtain ⟨tokens, hK, hat, rfl⟩ := hfront
  exact (hP tokens hK hat).symm

theorem writesIf_token (hP : ∀ tokens, P tokens → tokens.head? = some token) :
    WritesIf passed flat P [] advance fun _ => token.text.toList := by
  refine writesIf_advance fun tokens _ hat => ?_
  obtain ⟨rest, rfl⟩ := List.head?_eq_some_iff.1 (hP tokens hat)
  rw [List.take_succ_cons, List.take_zero, tokenChars_cons, tokenChars_nil, List.append_nil]

theorem writesIf_sign {c : Char} (hP : ∀ tokens, P tokens → tokens.head?.map Token.kind = some kind)
    (hc : kind.char? = some c) : WritesIf passed flat P [] advance fun _ => [c] := by
  refine writesIf_advance fun tokens hK hat => ?_
  obtain ⟨token, hhead, rfl⟩ := Option.map_eq_some_iff.1 (hP tokens hat)
  obtain ⟨rest, rfl⟩ := List.head?_eq_some_iff.1 hhead
  rw [List.take_succ_cons, List.take_zero, tokenChars_cons, tokenChars_nil, List.append_nil,
    (hK.spelled token (.head _)).sign c hc]

theorem writesIf_blank (hP : ∀ tokens, P tokens → tokens.head?.map Token.kind = some .whitespace) :
    WritesIf passed flat P [] advance fun _ => [] := by
  refine writesIf_advance fun tokens hK hat => ?_
  obtain ⟨token, hhead, hk⟩ := Option.map_eq_some_iff.1 (hP tokens hat)
  obtain ⟨rest, rfl⟩ := List.head?_eq_some_iff.1 hhead
  rw [List.take_succ_cons, List.take_zero, tokenChars_cons, tokenChars_nil, List.append_nil,
    letters_of_blanks (hK.blank token (.head _) hk), letters_nil]

theorem writes_skipGaps : WritesIf passed flat P [] skipGaps fun _ => [] := by
  rintro s _ _ hK - ⟨⟩
  refine ⟨Kept.suffix hK (List.dropWhile_suffix _), _, takes_takeWhile isGap s.rest, ?_⟩
  exact (hK.letters_of_gaps (List.takeWhile_subset _)
    fun token hmem => List.mem_takeWhile_imp hmem).symm

/-- There is no comment and no flag to read. -/
theorem takingIf_marked {r : α → List Token → Prop}
    (h : token.kind = .comment ∨ token.kind = .exclamationMark) :
    TakingIf (Clear flat) (fun tokens => tokens.head? = some token) x r := by
  refine .absurd fun tokens hK hhead => ?_
  obtain ⟨hcomment, hflag⟩ := hK.unmarked token (List.mem_of_mem_head? hhead)
  exact h.elim hcomment hflag

/-- The unit of a dimension is written as it is read, also where it ends before an escape. -/
theorem writesIf_readUnit (hP : ∀ tokens, P tokens → tokens.head? = some token)
    (hk : token.kind = .ident) :
    WritesIf passed flat P [] (readUnit token) String.toList := by
  refine (takingIf_readUnit hP hk).imp fun unit front hfront => ?_
  obtain ⟨token', rfl, -, rfl⟩ := hfront
  rw [tokenChars_cons, tokenChars_nil, List.append_nil, List.nil_append]

/-! ### Loops -/

/-- What is written of the nodes that a round adds has the letters of the tokens it takes. `keep` of
the state of the loop stays as it is. -/
def Round.Writes (passed : List Char) (keep : σ → τ) (st : σ) (front : List Token) :
    Round σ Tree → Prop
  | .stop => letters passed (tokenChars front) = []
  | .next nodes st' =>
    keep st' = keep st ∧ letters passed (rowChars nodes) = letters passed (tokenChars front)

theorem writes_loop (keep : σ → τ) {round : σ → Token → Parser (Round σ Tree)} {st : σ}
    (hround : ∀ st token, TakingIf (Clear flat) (fun tokens => tokens.head? = some token)
      (round st token)
      fun result front => result.Writes passed keep st front) :
    TakingIf (Clear flat) P (loop round st) fun result front =>
      keep result.2 = keep st ∧ letters passed (rowChars result.1) = letters passed
        (tokenChars front) := by
  refine taking_loop (fun st nodes last front => keep last = keep st ∧
    letters passed (rowChars nodes) = letters passed (tokenChars front))
      (fun _ => ⟨rfl, rfl⟩) fun st token =>
      (hround st token).imp fun result front hfront => ?_
  cases result with
  | stop => exact ⟨rfl, hfront.symm⟩
  | next =>
    intro later last more hmore
    refine ⟨hmore.1.trans hfront.1, ?_⟩
    rw [rowChars_append, letters_append, hfront.2, hmore.2, tokenChars_append, letters_append]

theorem writes_many {round : Token → Parser Item}
    (hround : ∀ token, TakingIf (Clear flat) (fun tokens => tokens.head? = some token) (round token)
      fun result front => result.Writes passed id () front) :
      WritesIf passed flat P [] (many round) rowChars :=
  (writes_loop id fun _ => hround).bind fun _ _ h =>
    .pure (by rw [h.2, List.append_nil, List.nil_append])

/-- A part is read. -/
theorem writes_part {keep : σ → τ} {st st' : σ} {read : Parser Tree} (hst : keep st' = keep st)
    (h : WritesIf passed flat P [] read Node.compact) :
    TakingIf (Clear flat) P (do return Round.next [← read] st')
      fun result front => result.Writes passed keep st front :=
  h.bind fun node front hnode => .pure ⟨hst, by simpa using hnode⟩

/-- A token without letters is passed over. -/
theorem writesIf_pass {keep : σ → τ} {st st' : σ} (hst : keep st' = keep st)
    (h : WritesIf passed flat P [] advance fun _ => []) :
    TakingIf (Clear flat) P (do advance; return Round.next [] st')
      fun result front => result.Writes passed keep st front :=
  h.bind fun _ front hfront => .pure ⟨hst, by simpa using hfront⟩

theorem writes_stop {keep : σ → τ} {st : σ} :
    TakingIf (Clear flat) P (Pure.pure .stop : Parser (Round σ Tree))
      fun result front => result.Writes passed keep st front :=
  .pure rfl

/-- What is written of entries that are read from a state on: one that is due is there, unless it is
missing at the end. -/
def EntriesWritten (passed : List Char) (due : Bool) (nodes : List Tree) (last : Bool)
    (front : List Token) : Prop :=
  last = false → (nodes ≠ [] ↔ due = true) ∧ letters passed (entriesChars nodes) = letters passed
    (tokenChars front)

theorem EntriesWritten.nil (due : Bool) : EntriesWritten passed due [] due [] :=
  fun hdue => ⟨by simp [hdue], rfl⟩

theorem writes_separatedRound {endsAt : Token → Bool} {entry : Parser Tree} {between : Parser Unit}
    {due : Bool} (hentry : Writes passed flat [] entry Node.compact)
    (hbetween : Writes passed flat [] between fun _ => []) :
    TakingIf (Clear flat) P (separatedRound endsAt entry between due token)
      fun result front => result.Joins (EntriesWritten passed) due front := by
  refine .ite (fun _ => .pure (.nil due)) fun hdue => ?_
  obtain rfl : due = true := by
    cases due <;> simp_all
  refine hentry.always.bind fun node front hnode => .isAt fun comma =>
    .ite (fun hcomma => ?_) fun _ => .pure ?_
  · -- After a comma, another entry is due.
    have hsign :
        WritesIf passed flat (fun tokens =>
          True ∧ (tokens.head?.map Token.kind = some .comma ↔ comma = true)) []
        advance fun _ => [','] := writesIf_sign (fun _ h => h.2.2 hcomma) rfl
    refine hsign.bind fun _ sign hsign =>
      hbetween.bind fun _ gap hgap => .pure fun later last more hmore hmissing => ?_
    obtain ⟨hne, hmore⟩ := hmore hmissing
    obtain ⟨entry', later, rfl⟩ := List.exists_cons_of_ne_nil (hne.2 rfl)
    refine ⟨by simp, ?_⟩
    rw [List.nil_append] at hnode hsign hgap
    rw [List.singleton_append, entriesChars_cons_cons, letters_append, letters_cons, hmore]
    simp only [tokenChars_append, letters_append, hnode, ← hsign, ← hgap, letters_nil,
      List.nil_append, List.append_nil, List.append_assoc]
  · intro later last more hmore hmissing
    obtain ⟨hnone, hmore⟩ := hmore hmissing
    obtain rfl : later = [] := by simpa using hnone
    refine ⟨by simp, ?_⟩
    rw [List.append_nil, List.append_nil, entriesChars_singleton, hnode, tokenChars_append,
      List.nil_append, letters_append, ← hmore]
    simp [entriesChars]

/-- Entries are written with commas between them, if none is missing at the end. -/
theorem writes_separated {endsAt : Token → Bool} {entry : Parser Tree} {between : Parser Unit}
    (hentry : Writes passed flat [] entry Node.compact)
    (hbetween : Writes passed flat [] between fun _ => []) :
    TakingIf (Clear flat) P (separated endsAt entry between) fun result front =>
      result.2 = false → letters passed (entriesChars result.1) = letters passed
        (tokenChars front) := by
  have hloop : TakingIf (Clear flat) P (separated endsAt entry between) fun result front =>
      EntriesWritten passed true result.1 result.2 front :=
    taking_loop (EntriesWritten passed) .nil fun _ _ => writes_separatedRound hentry hbetween
  exact hloop.imp fun _ _ h hmissing => (h hmissing).2

end Parser
end StyleTree
