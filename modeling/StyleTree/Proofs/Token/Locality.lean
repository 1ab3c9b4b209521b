import StyleTree.Proofs.Token.History

/-! Scanning is local. A lexeme does not change when the text is cut off after it, and a lexeme
alone is read as it is read among others: the tokens before it matter only by whether a block is
open. So the tokens of a text up to a boundary are the tokens of the text up to there, and the text
of a token has this one token (`scansLocally`). -/

namespace StyleTree

/-! ## Tokens from their kinds and texts -/

namespace Tiles

variable {offset : Nat} {cs cs' : List Char} {tokens tokens' front rest : List Token}

/-- Tokens that tile from the same offset on and differ at most in their offsets are the same. -/
theorem eq_of_core (h : Tiles offset cs tokens) (h' : Tiles offset cs' tokens')
    (hcore : tokens.map Token.core = tokens'.map Token.core) : tokens = tokens' := by
  induction h generalizing cs' tokens' with
  | nil => exact (List.map_eq_nil_iff.1 hcore.symm).symm
  | @cons token cs tokens hne h ih =>
    obtain ⟨token', tokens', rfl, htoken, hrest⟩ := List.map_eq_cons_iff.1 hcore.symm
    obtain ⟨hstart, -, cs', -, hlater⟩ := h'.of_cons
    have hkind := Token.kind_eq_of_core htoken
    have htext := Token.text_eq_of_core htoken
    have heq : token' = token := by
      cases token
      cases token'
      simp_all
    subst heq
    rw [ih hlater hrest.symm]

/-- The front tokens tile the characters up to their end. -/
theorem of_front (h : Tiles offset cs (front ++ rest)) : Tiles offset (tokenChars front) front := by
  induction front generalizing offset cs with
  | nil => exact .nil offset
  | cons token front ih =>
    obtain ⟨rfl, hne, cs, -, hlater⟩ := h.of_cons
    exact .cons hne (ih hlater)

theorem stop_le (h : Tiles offset cs tokens) :
    ∀ token ∈ tokens, token.stop ≤ offset + Text.byteLength cs := by
  intro token hmem
  obtain ⟨before, after, rfl, hstart⟩ := h.exists_append token hmem
  rw [Token.stop, hstart, Text.byteLength_append, Text.byteLength_append]
  omega

theorem lt_stop (h : Tiles offset cs tokens) : ∀ token ∈ tokens, offset < token.stop := by
  intro token hmem
  obtain ⟨before, -, -, hstart⟩ := h.exists_append token hmem
  have hlt := h.start_lt_stop token hmem
  omega

/-- The tokens up to the end of the front ones are the front ones. -/
theorem filter_stop_le (h : Tiles offset cs (front ++ rest)) :
    (front ++ rest).filter (fun token =>
      decide (token.stop ≤ offset + Text.byteLength (tokenChars front))) =
      front := by
  obtain ⟨cs, -, hrest⟩ := h.of_append
  have hfront : front.filter (fun token =>
      decide (token.stop ≤ offset + Text.byteLength (tokenChars front))) = front :=
    List.filter_eq_self.2 fun token hmem => decide_eq_true (h.of_front.stop_le token hmem)
  have hnone : rest.filter (fun token =>
      decide (token.stop ≤ offset + Text.byteLength (tokenChars front))) = [] := by
    apply List.filter_eq_nil_iff.2
    intro token hmem
    have hlt := hrest.lt_stop token hmem
    rw [decide_eq_true_iff]
    omega
  rw [List.filter_append, hfront, hnone, List.append_nil]

end Tiles

/-- A lexeme alone is read as it is read among others, if a block is open in both states or in
none. -/
theorem Reads.alone {state state' : ScanState} {kind : TokenKind} {w rest : List Char}
    (h : Reads state kind w rest) (hdepth : state'.depth = 0 ↔ state.depth = 0)
    (hurl : state'.inUrl = false) :
    Reads state' kind w [] := by
  cases h with
  | blanks hc hv => exact .blanks hc hv nofun
  | digits hc hv => exact .digits hc hv nofun
  | quoted hc hv => exact .quoted hc hv nofun
  | name hc hv => exact .name hc hv nofun
  | comment hv => exact .comment hv nofun
  | line _ hzero hv => exact .line hurl (hdepth.2 hzero) hv nofun
  | slashedName _ hne hv => exact .slashedName hurl (fun hzero => hne (hdepth.1 hzero)) hv nofun
  | sign hc hkind => exact .sign hc hkind fun _ => nofun

/-- The mark and some characters after it are a text with the same mark. -/
theorem exists_cut_mark {cs ds : List Char} (h : ds <+: withoutMark cs) :
    ∃ mark, mark ++ ds <+: cs ∧
    Text.byteLength mark = originOf cs ∧ originOf (mark ++ ds) = originOf cs ∧
    withoutMark (mark ++ ds) = ds := by
  cases cs with
  | nil =>
    obtain rfl := List.prefix_nil.1 h
    exact ⟨[], h, rfl, rfl, rfl⟩
  | cons c cs =>
    by_cases hc : c = byteOrderMark
    · rw [withoutMark, if_pos hc] at h
      refine ⟨[c], (List.prefix_cons_inj c).2 h, ?_, rfl, ?_⟩
      · rw [originOf, if_pos hc, Text.byteLength_cons, Text.byteLength_nil, Nat.add_zero]
      · rw [List.singleton_append, withoutMark, if_pos hc]
    · rw [withoutMark, if_neg hc] at h
      refine ⟨[], h, by rw [originOf, if_neg hc]; rfl, ?_⟩
      rw [List.nil_append]
      cases ds with
      | nil => exact ⟨by rw [originOf, originOf, if_neg hc], rfl⟩
      | cons d ds =>
        obtain ⟨rfl, -⟩ := List.cons_prefix_cons.1 h
        exact ⟨rfl, by rw [withoutMark, if_neg hc]⟩

namespace TokenTable

variable {text : String} {inBlock : Bool} {front rest : List Token} {token : Token}

/-- A place where a token starts or ends. -/
def IsBoundary (table : TokenTable) (position : Nat) : Prop :=
  ∃ token ∈ table.tokens.toList, position = token.start ∨ position = token.stop

theorem exists_of_isBoundary {position : Nat} (h : (ofText text inBlock).IsBoundary position) :
    ∃ front rest, (ofText text inBlock).tokens.toList = front ++ rest ∧
      position = originOf text.toList + Text.byteLength (tokenChars front) := by
  obtain ⟨token, hmem, hposition⟩ := h
  obtain ⟨front, rest, htokens⟩ := List.append_of_mem hmem
  have htiles := tiles_ofText text inBlock
  rw [htokens] at htiles
  obtain ⟨cs, -, hlater⟩ := htiles.of_append
  obtain ⟨hstart, -⟩ := hlater.of_cons
  rcases hposition with rfl | rfl
  · exact ⟨front, token :: rest, htokens, hstart⟩
  · refine ⟨front ++ [token], rest, by simp [htokens], ?_⟩
    simp [Token.stop, hstart, Nat.add_assoc]

/-- The tokens of the text up to the end of some tokens are these tokens. -/
theorem tokens_slice (h : (ofText text inBlock).tokens.toList = front ++ rest) :
    (ofText (Text.slice text 0 (originOf text.toList + Text.byteLength (tokenChars front)))
      inBlock).tokens.toList =
      front := by
  have hcores := (scans_ofText text inBlock).cores
  have htiles := tiles_ofText text inBlock
  rw [h] at hcores htiles
  obtain ⟨cs, hcs, -⟩ := htiles.of_append
  obtain ⟨mark, ⟨later, hlater⟩, hsize, horigin, hchars⟩ :=
    exists_cut_mark (hcs ▸ List.prefix_append _ cs)
  have hslice : Text.slice text 0 (originOf text.toList + Text.byteLength (tokenChars front)) =
      String.ofList (mark ++ tokenChars front) := by
    have hslice := @slice_eq text [] (mark ++ tokenChars front) later hlater.symm
    rwa [Text.byteLength_nil, Nat.zero_add, Text.byteLength_append, hsize] at hslice
  have hcut := tiles_ofText (String.ofList (mark ++ tokenChars front)) inBlock
  rw [String.toList_ofList, horigin, hchars] at hcut
  have hcores' := (scans_ofText (String.ofList (mark ++ tokenChars front)) inBlock).cores
  rw [String.toList_ofList, hchars] at hcores'
  rw [List.map_append, hcs] at hcores
  rw [hslice]
  exact hcut.eq_of_core htiles.of_front (hcores'.trans (coresFrom_truncate hcores.symm))

/-- The text of a token has this one token. -/
theorem tokens_alone (h : (ofText text inBlock).tokens.toList = front ++ token :: rest)
    (hmark : token.text.toList.head? ≠ some byteOrderMark) :
    (ofText token.text (0 < blockDepth inBlock front)).tokens.toList =
      [{ token with start := 0 }] := by
  obtain ⟨hread, -⟩ := reads_of_append h
  have hself : withoutMark token.text.toList = token.text.toList :=
    withoutMark_eq_self fun c hc heq => hmark (heq ▸ hc)
  have horigin : originOf token.text.toList = 0 := (originOf_eq _).trans (if_neg hmark)
  have htiles := tiles_ofText token.text (0 < blockDepth inBlock front)
  have hcores := (scans_ofText token.text (0 < blockDepth inBlock front)).cores
  rw [hself] at htiles hcores
  rw [horigin] at htiles
  have hone : Tiles 0 (token.text.toList ++ []) [{ token with start := 0 }] :=
    @Tiles.cons { token with start := 0 } _ _ hread.ne_nil (.nil _)
  apply htiles.eq_of_core hone
  have hdepth : (ScanState.start (0 < blockDepth inBlock front)).depth = 0 ↔
      (ScanState.past inBlock front).depth = 0 := by
    rw [past_depth]
    rcases Nat.eq_zero_or_pos (blockDepth inBlock front) with hzero | hpos
    · rw [hzero]
      exact iff_of_true rfl rfl
    · rw [decide_eq_true hpos]
      exact iff_of_false Nat.one_ne_zero hpos.ne'
  have halone := (hread.alone hdepth rfl).coresFrom_append
  rw [List.append_nil] at halone
  exact hcores.trans halone

end TokenTable

/-- What the scanner makes of a piece of a text follows from the piece. -/
structure ScansLocally (text : String) (inBlock : Bool) : Prop where
  /-- The text up to a boundary has the tokens that end up to there. -/
  upTo : ∀ position, (TokenTable.ofText text inBlock).IsBoundary position →
    (TokenTable.ofText (Text.slice text 0 position) inBlock).tokens.toList =
      (TokenTable.ofText text inBlock).tokens.toList.filter fun token => token.stop ≤ position
  /-- The text of a token has this one token, if it is read in a block where the token stands in
  one. -/
  alone : ∀ front token rest, (TokenTable.ofText text inBlock).tokens.toList =
    front ++ token :: rest → token.text.toList.head? ≠ some '\ufeff' →
      (TokenTable.ofText token.text (0 < blockDepth inBlock front)).tokens.toList =
        [{ token with start := 0 }]

/-- **Scanning is local**, for every text. -/
theorem scansLocally (text : String) (inBlock : Bool) : ScansLocally text inBlock where
  upTo position hboundary := by
    obtain ⟨front, rest, htokens, rfl⟩ := TokenTable.exists_of_isBoundary hboundary
    have htiles := tiles_ofText text inBlock
    rw [htokens] at htiles
    rw [TokenTable.tokens_slice htokens, htokens, htiles.filter_stop_le]
  alone _ _ _ := TokenTable.tokens_alone

end StyleTree
