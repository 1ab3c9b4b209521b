import Mathlib.Data.List.DropRight
import Mathlib.Data.List.Infix
import StyleTree.Proofs.Parse.Reading
import StyleTree.Proofs.Token.Seam
import StyleTree.Proofs.Token.Tiling

/-! What the tokens before a token say about it. The scanner keeps the number of open blocks and
whether it is inside of `url(`; both can be told from the tokens read so far (`blockDepth`,
`InUrl`), and from nothing else in the text. So the history of a token decides how two slashes are
read, and the text of a token alone decides which extension it makes use of (`Token.extension?`).
The main statement is `TokenTable.followsHistory_ofText`. -/

namespace StyleTree

/-! ## The state of the scanner -/

/-- The number of blocks that some tokens leave open, where a closing brace closes a block if one is
open. -/
def blockDepth (inBlock : Bool) (tokens : List Token) : Nat :=
  tokens.foldl
    (fun depth token =>
      match token.kind with
      | .leftBrace => depth + 1
      | .rightBrace => depth - 1
      | _ => depth)
    (if inBlock then 1 else 0)

/-- The tokens end with the name `url`, in any case. -/
def EndsWithUrl (tokens : List Token) : Prop :=
  ∃ before name, tokens = before ++ [name] ∧ name.kind = .ident ∧ name.spells "url" = true

/-- The last parenthesis among the tokens is an opening one, and it is directly after the name
`url`. -/
def InUrl (tokens : List Token) : Prop :=
  ∃ before parenthesis after, tokens = before ++ parenthesis :: after ∧ EndsWithUrl before ∧
    parenthesis.kind = .leftParen ∧ ∀ token ∈ after, token.kind ≠ .leftParen ∧
    token.kind ≠ .rightParen

/-- The state of the scanner after tokens of a text. -/
def ScanState.past (inBlock : Bool) (tokens : List Token) : ScanState :=
  (ScanState.start inBlock).afterAll (tokens.map Token.core)

section
variable {inBlock : Bool} {tokens : List Token} {token : Token}

theorem past_concat (inBlock : Bool) (tokens : List Token) (token : Token) :
    ScanState.past inBlock (tokens ++ [token]) =
      (ScanState.past inBlock tokens).after token.kind token.text.toList := by
  rw [ScanState.past, List.map_append, ScanState.afterAll_append]
  rfl

theorem blockDepth_concat (inBlock : Bool) (tokens : List Token) (token : Token) :
    blockDepth inBlock (tokens ++ [token]) =
      match token.kind with
      | .leftBrace => blockDepth inBlock tokens + 1
      | .rightBrace => blockDepth inBlock tokens - 1
      | _ => blockDepth inBlock tokens := by
  rw [blockDepth, List.foldl_append]
  rfl

/-- The scanner counts the braces among the tokens. -/
theorem past_depth (inBlock : Bool) (tokens : List Token) :
    (ScanState.past inBlock tokens).depth = blockDepth inBlock tokens := by
  induction tokens using List.reverseRecOn with
  | nil => rfl
  | append_singleton tokens token ih =>
    rw [past_concat, blockDepth_concat, ← ih]
    cases token.kind <;> rfl

theorem isUrlName_iff : ScanState.isUrlName token.kind token.text.toList = true ↔
    token.kind = .ident ∧ token.spells "url" = true := by
  have hname : "url".toList.map Text.lowerChar = ['u', 'r', 'l'] := rfl
  rw [ScanState.isUrlName, Token.spells, Text.sameLetters, hname, Bool.and_eq_true,
    decide_eq_true_iff]

theorem endsWithUrl_concat :
    EndsWithUrl (tokens ++ [token]) ↔ token.kind = .ident ∧ token.spells "url" = true := by
  constructor
  · rintro ⟨before, name, htokens, hname⟩
    obtain ⟨-, hlast⟩ := List.append_inj' htokens rfl
    obtain rfl := List.singleton_inj.1 hlast
    exact hname
  · intro hname
    exact ⟨tokens, token, rfl, hname⟩

/-- The scanner knows whether the last token is `url`. -/
theorem past_afterUrl (inBlock : Bool) :
    (ScanState.past inBlock tokens).afterUrl = true ↔ EndsWithUrl tokens := by
  induction tokens using List.reverseRecOn with
  | nil =>
    refine ⟨nofun, ?_⟩
    rintro ⟨before, name, htokens, -⟩
    simp at htokens
  | append_singleton tokens token _ =>
    rw [past_concat, endsWithUrl_concat, ← isUrlName_iff]
    rfl

theorem inUrl_concat : InUrl (tokens ++ [token]) ↔ token.kind = .leftParen ∧ EndsWithUrl tokens ∨
    token.kind ≠ .leftParen ∧ token.kind ≠ .rightParen ∧ InUrl tokens := by
  constructor
  · rintro ⟨before, parenthesis, after, htokens, hurl, hleft, hafter⟩
    rcases List.eq_nil_or_concat after with rfl | ⟨after, last, rfl⟩
    · obtain ⟨rfl, hlast⟩ := List.append_inj' htokens rfl
      obtain rfl := List.singleton_inj.1 hlast
      exact .inl ⟨hleft, hurl⟩
    · rw [List.concat_eq_append, ← List.cons_append, ← List.append_assoc] at htokens
      obtain ⟨rfl, hlast⟩ := List.append_inj' htokens rfl
      obtain rfl := List.singleton_inj.1 hlast
      obtain ⟨hne, hne'⟩ := hafter token (by simp)
      refine .inr ⟨hne, hne', before, parenthesis, after, rfl, hurl, hleft, fun other hmem => ?_⟩
      exact hafter other (by simp [hmem])
  · rintro (⟨hleft, hurl⟩ | ⟨hne, hne', before, parenthesis, after, rfl, hurl, hleft, hafter⟩)
    · exact ⟨tokens, token, [], rfl, hurl, hleft, nofun⟩
    · refine ⟨before, parenthesis, after ++ [token], by simp, hurl, hleft, ?_⟩
      exact List.forall_mem_append.2 ⟨hafter, by simpa using ⟨hne, hne'⟩⟩

/-- The scanner knows whether it is inside of `url(`. -/
theorem past_inUrl : (ScanState.past inBlock tokens).inUrl = true ↔ InUrl tokens := by
  induction tokens using List.reverseRecOn with
  | nil =>
    refine ⟨nofun, ?_⟩
    rintro ⟨before, parenthesis, after, htokens, -⟩
    simp at htokens
  | append_singleton tokens token ih =>
    rw [past_concat, inUrl_concat, ← ih, ← past_afterUrl inBlock]
    cases token.kind <;> simp [ScanState.after]

end

/-! ## Strings and comments without an end -/

/-- The number of backslashes at the end. -/
def backslashes (v : List Char) : Nat :=
  (v.rtakeWhile (· = '\\')).length

/-- Where characters follow an opening quote, the last of them is the quote that closes the string:
it is not escaped, as the number of backslashes right before it is even. -/
def closesString (quote : Char) (v : List Char) : Bool :=
  v.getLast? = some quote && backslashes v.dropLast % 2 = 0

theorem backslashes_concat (v : List Char) (c : Char) :
    backslashes (v ++ [c]) = if c = '\\' then backslashes v + 1 else 0 := by
  rw [backslashes, List.rtakeWhile_concat]
  split
  next hc => rw [if_pos (of_decide_eq_true hc), List.length_append]; rfl
  next hc => rw [if_neg fun h => hc (decide_eq_true h)]; rfl

theorem closesString_concat (quote : Char) (v : List Char) (c : Char) :
    closesString quote (v ++ [c]) = (decide (c = quote) && decide (backslashes v % 2 = 0)) := by
  simp [closesString]

/-- What the reader of a string has read when it is in a state. -/
inductive StringReads (quote : Char) (v : List Char) : StringState → Prop
  | inside : backslashes v % 2 = 0 → closesString quote v = false → StringReads quote v .inside
  | escaped : backslashes v % 2 = 1 → closesString quote v = false → StringReads quote v .escaped
  | closed : closesString quote v = true → StringReads quote v .closed

theorem StringReads.concat {quote c : Char} {v : List Char} {state last : StringState}
    (hquote : quote ≠ '\\') (h : StringReads quote v state)
    (hstep : StringState.step quote state c = some last) :
    StringReads quote (v ++ [c]) last := by
  cases h with
  | inside heven _ =>
    rw [StringState.step] at hstep
    split at hstep
    next hc =>
      obtain rfl := Option.some.inj hstep
      have hne : c ≠ quote := fun heq => hquote (heq.symm.trans hc)
      apply StringReads.escaped
      · rw [backslashes_concat, if_pos hc]
        omega
      · simp [closesString_concat, hne]
    next hc =>
      have hnone : backslashes (v ++ [c]) = 0 := by rw [backslashes_concat, if_neg hc]
      split at hstep
      next heq =>
        obtain rfl := Option.some.inj hstep
        apply StringReads.closed
        rw [closesString_concat, decide_eq_true heq, decide_eq_true heven, Bool.and_self]
      next hne =>
        obtain rfl := Option.some.inj hstep
        apply StringReads.inside
        · rw [hnone]
        · rw [closesString_concat, decide_eq_false hne, Bool.false_and]
  | escaped hodd _ =>
    obtain rfl := Option.some.inj hstep
    apply StringReads.inside
    · rw [backslashes_concat]
      split <;> omega
    · have hescaped : ¬backslashes v % 2 = 0 := by omega
      rw [closesString_concat, decide_eq_false hescaped, Bool.and_false]
  | closed => cases hstep

theorem stringReads_of_foldlM {quote : Char} {v : List Char} {last : StringState}
    (hquote : quote ≠ '\\') (h : v.foldlM (StringState.step quote) .inside = some last) :
    StringReads quote v last := by
  induction v using List.reverseRecOn generalizing last with
  | nil =>
    obtain rfl := Option.some.inj h
    exact .inside rfl rfl
  | append_singleton v c ih =>
    rw [List.foldlM_append] at h
    obtain ⟨state, hstate, hstep⟩ := Option.bind_eq_some_iff.1 h
    exact (ih hstate).concat hquote (by simpa using hstep)

/-- What the reader of a comment has read, after the opening mark, when it is in a state. -/
inductive CommentReads (v : List Char) : CommentState → Prop
  | body : v.getLast? ≠ some '*' → ¬['*', '/'] <:+: v → CommentReads v .body
  | asterisk : v.getLast? = some '*' → ¬['*', '/'] <:+: v → CommentReads v .asterisk
  | closed : ['*', '/'] <:+: v → CommentReads v .closed

theorem mark_infix_concat {v : List Char} {c : Char} :
    ['*', '/'] <:+: v ++ [c] ↔ c = '/' ∧ v.getLast? = some '*' ∨ ['*', '/'] <:+: v := by
  rw [List.infix_concat_iff, List.suffix_concat_iff]
  apply or_congr_left
  constructor
  · rintro (hnil | ⟨front, hmark, hsuffix⟩)
    · exact nomatch hnil
    · have hmark : ['*'] ++ ['/'] = front ++ [c] := hmark
      obtain ⟨rfl, hc⟩ := List.append_inj' hmark rfl
      exact ⟨(List.singleton_inj.1 hc).symm, List.singleton_suffix_iff_getLast?_eq_some.1 hsuffix⟩
  · rintro ⟨rfl, hlast⟩
    exact .inr ⟨['*'], rfl, List.singleton_suffix_iff_getLast?_eq_some.2 hlast⟩

theorem CommentReads.concat {c : Char} {v : List Char} {state last : CommentState}
    (h : CommentReads v state) (hstep : CommentState.step state c = some last) :
    CommentReads (v ++ [c]) last := by
  cases h with
  | body hlast hopen =>
    have hopen' : ¬['*', '/'] <:+: v ++ [c] := by
      rw [mark_infix_concat]
      rintro (⟨-, hasterisk⟩ | hclosed)
      · exact hlast hasterisk
      · exact hopen hclosed
    rw [CommentState.step] at hstep
    split at hstep
    next hc =>
      obtain rfl := Option.some.inj hstep
      exact .asterisk (by simp [hc]) hopen'
    next hc =>
      obtain rfl := Option.some.inj hstep
      exact .body (by simp [hc]) hopen'
  | asterisk hlast hopen =>
    rw [CommentState.step] at hstep
    split at hstep
    next hc =>
      obtain rfl := Option.some.inj hstep
      exact .closed (mark_infix_concat.2 (.inl ⟨hc, hlast⟩))
    next hslash =>
      have hopen' : ¬['*', '/'] <:+: v ++ [c] := by
        rw [mark_infix_concat]
        rintro (⟨hc, -⟩ | hclosed)
        · exact hslash hc
        · exact hopen hclosed
      split at hstep
      next hc =>
        obtain rfl := Option.some.inj hstep
        exact .asterisk (by simp [hc]) hopen'
      next hc =>
        obtain rfl := Option.some.inj hstep
        exact .body (by simp [hc]) hopen'
  | closed => cases hstep

theorem commentReads_of_foldlM {v : List Char} {last : CommentState}
    (h : v.foldlM CommentState.step .body = some last) : CommentReads v last := by
  induction v using List.reverseRecOn generalizing last with
  | nil =>
    obtain rfl := Option.some.inj h
    exact .body nofun (by simp)
  | append_singleton v c ih =>
    rw [List.foldlM_append] at h
    obtain ⟨state, hstate, hstep⟩ := Option.bind_eq_some_iff.1 h
    exact (ih hstate).concat (by simpa using hstep)

/-! ## Extensions -/

/-- The extension that a lexeme makes use of. -/
def extensionOf : TokenKind → List Char → Option ExtensionKind
  | .unknown, _ => some .lineComment
  | .string, quote :: v => if closesString quote v then none else some .unterminatedString
  | .comment, w => if ['*', '/'] <:+: w.drop 2 then none else some .unterminatedComment
  | _, _ => none

/-- The extension that a token makes use of: a token of unknown kind is a line of its own, a string
may have no quote that closes it, and a comment may have no closing mark after the opening one. -/
def Token.extension? (token : Token) : Option ExtensionKind :=
  extensionOf token.kind token.text.toList

section
variable {state : ScanState} {kind : TokenKind} {w rest : List Char}

theorem extensionOf_of_char? {c : Char} (h : kind.char? = some c) (w : List Char) :
    extensionOf kind w = none := by
  cases kind <;> first | rfl | exact nomatch h

theorem ne_backslash_of_string {c : Char} (h : CharClass.ofChar c = .string) : c ≠ '\\' := by
  rintro rfl
  exact nomatch h

theorem extensionOf_string {quote : Char} {v : List Char} {last : StringState}
    (hquote : CharClass.ofChar quote = .string)
    (h : v.foldlM (StringState.step quote) .inside = some last) :
    extensionOf .string (quote :: v) =
      if last = .closed then none else some .unterminatedString := by
  rw [extensionOf]
  cases stringReads_of_foldlM (ne_backslash_of_string hquote) h with
  | inside _ hopen => rw [hopen]; rfl
  | escaped _ hopen => rw [hopen]; rfl
  | closed hclosed => rw [hclosed]; rfl

theorem extensionOf_comment {v : List Char} {last : CommentState}
    (h : v.foldlM CommentState.step .body = some last) :
    extensionOf .comment ('/' :: '*' :: v) =
      if last = .closed then none else some .unterminatedComment := by
  rw [extensionOf]
  cases commentReads_of_foldlM h with
  | body _ hopen => exact if_neg hopen
  | asterisk _ hopen => exact if_neg hopen
  | closed hclosed => exact if_pos hclosed

/-- The scanner notes the extension that the lexeme makes use of. -/
theorem extension_readLexeme (state : ScanState) (c : Char) (cs : List Char) :
    (readLexeme state c cs).1.extension =
      extensionOf (readLexeme state c cs).1.kind (readLexeme state c cs).1.chars := by
  unfold readLexeme
  split
  · rfl
  · rfl
  · next hc => exact (extensionOf_string hc (takeRun_spec ..).1).symm
  · rfl
  · next hc =>
    unfold readPunctuator
    split
    · exact (extensionOf_comment (takeRun_spec ..).1).symm
    · split
      · rfl
      · split <;> rfl
    · obtain ⟨kind, hkind⟩ := ofChar?_isSome_of_punctuator hc
      rw [hkind]
      exact (extensionOf_of_char? (char?_of_ofChar? hkind) _).symm

theorem Stops.eq_nil {σ : Type} {step : σ → Char → Option σ} {last : σ} (h : Stops step last rest)
    (hgo : ∀ c, step last c ≠ none) : rest = [] := by
  cases rest with
  | nil => rfl
  | cons c rest => exact absurd (h c rfl) (hgo c)

theorem StringState.step_ne_none {quote : Char} {last : StringState} (h : last ≠ .closed)
    (c : Char) :
    StringState.step quote last c ≠ none := by
  cases last with
  | inside =>
    rw [step]
    split
    · exact Option.some_ne_none _
    · split <;> exact Option.some_ne_none _
  | escaped => exact Option.some_ne_none _
  | closed => exact absurd rfl h

theorem CommentState.step_ne_none {last : CommentState} (h : last ≠ .closed) (c : Char) :
    CommentState.step last c ≠ none := by
  cases last with
  | body =>
    rw [step]
    split <;> exact Option.some_ne_none _
  | asterisk =>
    rw [step]
    split
    · exact Option.some_ne_none _
    · split <;> exact Option.some_ne_none _
  | closed => exact absurd rfl h

/-- A string or a comment without an end goes on to the end of the text. -/
theorem Reads.rest_eq_nil {extension : ExtensionKind} (h : Reads state kind w rest)
    (hextension : extensionOf kind w = some extension) (hline : extension ≠ .lineComment) :
    rest = [] := by
  cases h with
  | quoted hc hv hrest =>
    rw [extensionOf_string hc hv] at hextension
    split at hextension
    next => exact nomatch hextension
    next hopen => exact hrest.eq_nil (StringState.step_ne_none hopen)
  | comment hv hrest =>
    rw [extensionOf_comment hv] at hextension
    split at hextension
    next => exact nomatch hextension
    next hopen => exact hrest.eq_nil (CommentState.step_ne_none hopen)
  | line => exact absurd (Option.some.inj hextension).symm hline
  | sign hc hsign =>
    rw [extensionOf_of_char? (char?_of_ofChar? hsign)] at hextension
    exact nomatch hextension
  | _ => exact nomatch hextension

/-! ## Two slashes -/

theorem takeWhile_of_stops {p : Char → Bool} (hw : ∀ c ∈ w, p c = true)
    (hrest : Stops (stepWhile p) () rest) :
    (w ++ rest).takeWhile p = w := by
  rw [List.takeWhile_append_of_pos hw]
  cases rest with
  | nil => rw [List.takeWhile_nil, List.append_nil]
  | cons c rest =>
    have hc : ¬p c = true := by
      rw [stepWhile_eq_none.1 (hrest c rfl)]
      exact Bool.false_ne_true
    rw [List.takeWhile_cons_of_neg hc, List.append_nil]

/-- Two slashes are a lexeme and the start of the next one inside of `url(`. Elsewhere they open a
line of their own, up to the next line end, or a name, if a block is open. -/
theorem Reads.of_slashes (h : Reads state kind w rest) (hslashes : ['/', '/'] <+: w ++ rest) :
    (state.inUrl = true → kind = .solidus ∧ w = ['/']) ∧
      (state.inUrl = false → state.depth = 0 →
        kind = .unknown ∧ w = (w ++ rest).takeWhile fun c => !isNewline c) ∧
      (state.inUrl = false → state.depth ≠ 0 → kind = .ident) := by
  obtain ⟨later, hlater⟩ := hslashes
  cases h with
  | blanks hc | digits hc | quoted hc | name hc =>
    obtain ⟨rfl, -⟩ := List.cons.inj hlater
    exact nomatch hc
  | comment =>
    obtain ⟨-, htail⟩ := List.cons.inj hlater
    obtain ⟨hmark, -⟩ := List.cons.inj htail
    exact nomatch hmark
  | @line v _ hurl hdepth hv hrest =>
    have hline : ∀ c ∈ '/' :: '/' :: v, (!isNewline c) = true :=
      List.forall_mem_cons.2 ⟨rfl, List.forall_mem_cons.2 ⟨rfl, foldlM_stepWhile.1 hv⟩⟩
    refine ⟨fun h => ?_, fun _ _ => ⟨rfl, (takeWhile_of_stops hline hrest).symm⟩,
      fun _ h => absurd hdepth h⟩
    rw [hurl] at h
    exact nomatch h
  | slashedName hurl hdepth =>
    refine ⟨fun h => ?_, fun _ h => absurd h hdepth, fun _ _ => rfl⟩
    rw [hurl] at h
    exact nomatch h
  | sign _ hsign hnext =>
    obtain ⟨rfl, htail⟩ := List.cons.inj hlater
    obtain rfl : rest = '/' :: later := htail.symm
    have hurl : state.inUrl = true := (hnext rfl '/' rfl).2 rfl
    rw [hurl]
    exact ⟨fun _ => ⟨(Option.some.inj hsign).symm, rfl⟩, nofun, nofun⟩

/-- Only two slashes open a lexeme of unknown kind. -/
theorem Reads.of_unknown (h : Reads state .unknown w rest) :
    ['/', '/'] <+: w ++ rest ∧ state.inUrl = false ∧ state.depth = 0 := by
  cases h with
  | line hurl hdepth => exact ⟨List.prefix_append ['/', '/'] _, hurl, hdepth⟩
  | sign _ hsign => exact nomatch char?_of_ofChar? hsign

end

/-! ## The tokens of a text -/

theorem Tiles.pairwise_start {offset : Nat} {cs : List Char} {tokens : List Token}
    (h : Tiles offset cs tokens) :
    tokens.Pairwise fun token next => token.start < next.start := by
  induction h with
  | nil => exact .nil
  | @cons token cs tokens hne h ih =>
    apply List.Pairwise.cons _ ih
    intro next hmem
    obtain ⟨before, -, -, hstart⟩ := h.exists_append next hmem
    have hlt := (Tiles.cons hne h).start_lt_stop token (.head _)
    omega

/-- A token of a text is read in the state that the tokens before it lead to, and the text goes on
with it and the tokens after it. -/
theorem TokenTable.reads_of_append {text : String} {inBlock : Bool} {front rest : List Token}
    {token : Token} (h : (ofText text inBlock).tokens.toList = front ++ token :: rest) :
    Reads (.past inBlock front) token.kind token.text.toList (tokenChars rest) ∧
      Text.dropBytes token.start text.toList = token.text.toList ++ tokenChars rest := by
  have hscans := scans_ofText text inBlock
  have htiles := tiles_ofText text inBlock
  rw [h] at hscans htiles
  obtain ⟨cs, hcs, hscan⟩ := hscans.append
  obtain ⟨cs', rfl, hread, hrest⟩ := hscan.cons
  have hchars : cs' = tokenChars rest := hrest.text_eq
  subst hchars
  refine ⟨hread, ?_⟩
  obtain ⟨mark, hmark, hsize⟩ := exists_mark text.toList
  obtain ⟨cs, -, hlater⟩ := htiles.of_append
  obtain ⟨hstart, -⟩ := hlater.of_cons
  have htext :
      text.toList = mark ++ tokenChars front ++ (token.text.toList ++ tokenChars rest) := by
    rw [List.append_assoc]
    exact hmark.trans (congrArg (mark ++ ·) hcs)
  rw [htext, hstart, ← hsize, ← Text.byteLength_append]
  exact (cutBytes_append _ _).2

/-- The history of a text: how two slashes are read follows from the tokens before them, and the
extensions follow from the tokens. -/
structure TokenTable.FollowsHistory (table : TokenTable) (inBlock : Bool) : Prop where
  /-- Where a token starts at two slashes, it is a slash inside of `url(`. Elsewhere it is a line up
  to the next line end, if no block is open, and a name otherwise. -/
  slashes : ∀ front token rest, table.tokens.toList = front ++ token :: rest →
    ['/', '/'] <+: Text.dropBytes token.start table.text.toList →
      (InUrl front → token.kind = .solidus ∧ token.text = "/") ∧
      (¬InUrl front → blockDepth inBlock front = 0 → token.kind = .unknown ∧
        token.text.toList =
          (Text.dropBytes token.start table.text.toList).takeWhile fun c => !isNewline c) ∧
      (¬InUrl front → blockDepth inBlock front ≠ 0 → token.kind = .ident)
  unknown : ∀ front token rest, table.tokens.toList = front ++ token :: rest →
    token.kind = .unknown →
    ['/', '/'] <+: Text.dropBytes token.start table.text.toList ∧ ¬InUrl front ∧
    blockDepth inBlock front = 0
  /-- There is one extension for each token that makes use of one, where the token starts. -/
  extensions : table.extensions =
    table.tokens.toList.filterMap fun token => token.extension?.map (⟨·, token.start⟩)
  increasing : table.extensions.Pairwise fun extension next => extension.offset < next.offset
  /-- Only the last token is without an end. -/
  atEnd : ∀ extension ∈ table.extensions, extension.kind ≠ .lineComment →
    ∃ token ∈ table.tokens.toList.getLast?, extension = ⟨extension.kind, token.start⟩

theorem Lexeme.extension?_token (lexeme : Lexeme) (offset : Nat) :
    (lexeme.token offset).extension? = extensionOf lexeme.kind lexeme.chars := by
  rw [Token.extension?, Lexeme.token, String.toList_ofList]

namespace TokenTable

variable {text : String} {inBlock : Bool} {front rest : List Token} {token : Token}

theorem extensions_ofText (text : String) (inBlock : Bool) :
    (ofText text inBlock).extensions = (ofText text inBlock).tokens.toList.filterMap fun token =>
      token.extension?.map (⟨·, token.start⟩) := by
  rw [toList_tokens_ofText, List.filterMap_map]
  apply List.filterMap_congr
  rintro ⟨offset, lexeme⟩ hmem
  obtain ⟨state, c, cs, hlexeme⟩ := exists_of_mem_scanFrom hmem
  obtain rfl : lexeme = (readLexeme state c cs).1 := hlexeme
  show _ = (Lexeme.token _ offset).extension?.map _
  rw [Lexeme.extension?_token, ← extension_readLexeme]
  rfl

/-- After a string or a comment without an end there is no token. -/
theorem rest_eq_nil {extension : ExtensionKind}
    (h : (ofText text inBlock).tokens.toList = front ++ token :: rest)
    (hextension : token.extension? = some extension) (hline : extension ≠ .lineComment) :
    rest = [] := by
  have htiles := tiles_ofText text inBlock
  rw [h] at htiles
  obtain ⟨cs, -, hlater⟩ := htiles.of_append
  obtain ⟨-, -, cs, -, hrest⟩ := hlater.of_cons
  rw [hrest.eq_nil_iff, ← hrest.chars_eq]
  exact (reads_of_append h).1.rest_eq_nil hextension hline

theorem past_inUrl_eq_false (h : ¬InUrl front) : (ScanState.past inBlock front).inUrl = false := by
  rw [← Bool.not_eq_true, past_inUrl]
  exact h

/-- **Slashes and extensions follow the history of tokens.** -/
theorem followsHistory_ofText (text : String) (inBlock : Bool) :
    (ofText text inBlock).FollowsHistory inBlock where
  slashes front token rest htokens hslashes := by
    obtain ⟨hread, hdrop⟩ := reads_of_append htokens
    change ['/', '/'] <+: Text.dropBytes token.start text.toList at hslashes
    rw [hdrop] at hslashes
    obtain ⟨hin, hline, hname⟩ := hread.of_slashes hslashes
    rw [past_depth] at hline hname
    refine ⟨fun hurl => ?_, fun hurl hdepth => ?_,
      fun hurl hdepth => hname (past_inUrl_eq_false hurl) hdepth⟩
    · obtain ⟨hkind, htext⟩ := hin (past_inUrl.2 hurl)
      exact ⟨hkind, String.toList_inj.1 htext⟩
    · show _ ∧ _ = (Text.dropBytes token.start text.toList).takeWhile _
      rw [hdrop]
      exact hline (past_inUrl_eq_false hurl) hdepth
  unknown front token rest htokens hkind := by
    obtain ⟨hread, hdrop⟩ := reads_of_append htokens
    rw [hkind] at hread
    obtain ⟨hslashes, hurl, hdepth⟩ := hread.of_unknown
    rw [past_depth] at hdepth
    refine ⟨?_, fun hin => ?_, hdepth⟩
    · show _ <+: Text.dropBytes token.start text.toList
      rwa [hdrop]
    · rw [past_inUrl.2 hin] at hurl
      exact nomatch hurl
  extensions := extensions_ofText text inBlock
  increasing := by
    rw [extensions_ofText]
    apply (tiles_ofText text inBlock).pairwise_start.filterMap
    intro token next hlt extension hextension extension' hextension'
    obtain ⟨_, -, rfl⟩ := Option.map_eq_some_iff.1 hextension
    obtain ⟨_, -, rfl⟩ := Option.map_eq_some_iff.1 hextension'
    exact hlt
  atEnd extension hmem hline := by
    rw [extensions_ofText] at hmem
    obtain ⟨token, htoken, hextension⟩ := List.mem_filterMap.1 hmem
    obtain ⟨kind, hkind, rfl⟩ := Option.map_eq_some_iff.1 hextension
    obtain ⟨front, rest, htokens⟩ := List.append_of_mem htoken
    obtain rfl := rest_eq_nil htokens hkind hline
    refine ⟨token, ?_, rfl⟩
    rw [htokens, List.getLast?_concat]
    rfl

/-- Two slashes open a line, a name inside of a block, and nothing after `url(`. -/
example : (ofText "//a\n\x7b//a\x7durl(//" false).tokens.toList.map Token.kind =
    [.unknown, .whitespace, .leftBrace, .ident, .rightBrace, .ident, .leftParen, .solidus,
      .solidus] := by decide

end TokenTable
end StyleTree
