import Mathlib.Data.List.Chain
import StyleTree.Proofs.Grammar.Place
import StyleTree.Proofs.Token.Bytewise

/-!
# Tokens tile the text

The tokens of a text follow each other without gaps, from the byte order mark to the end of the
text, and none is empty. Each starts and ends between two characters, also where the scanner is
taken to step over bytes (`byteSpans`). The main statement is `TokenTable.ofText_tiles`.
-/

namespace StyleTree

/-- The tokens cut characters, whose first byte is at an offset, into pieces that are not empty. -/
inductive Tiles : Nat → List Char → List Token → Prop
  | nil (offset : Nat) : Tiles offset [] []
  | cons {token : Token} {cs : List Char} {tokens : List Token} (hne : token.text.toList ≠ [])
    (h : Tiles token.stop cs tokens) :
    Tiles token.start (token.text.toList ++ cs) (token :: tokens)

theorem tiles_scanFrom {rounds : Nat} {state : ScanState} {offset : Nat} {cs : List Char}
    (h : cs.length ≤ rounds) :
    Tiles offset cs ((scanFrom rounds state offset cs).map fun entry => entry.2.token entry.1) := by
  induction rounds generalizing state offset cs with
  | zero =>
    obtain rfl : cs = [] := List.length_eq_zero_iff.1 (by omega)
    exact .nil offset
  | succ rounds ih =>
    cases cs with
    | nil => exact .nil offset
    | cons c cs =>
      have hlt := readLexeme_length_lt state c cs
      have hne := (reads_readLexeme state c cs).ne_nil
      have happend := readLexeme_append state c cs
      simp only [scanFrom, List.map_cons]
      generalize readLexeme state c cs = result at hlt hne happend
      simp only [List.length_cons] at h hlt
      have hlength : result.2.length ≤ rounds := by omega
      have htext : (result.1.token offset).text.toList = result.1.chars := by simp [Lexeme.token]
      have hstop : (result.1.token offset).stop = offset + Text.byteLength result.1.chars := by
        rw [Token.stop, htext]
        rfl
      have hcs : c :: cs = (result.1.token offset).text.toList ++ result.2 := by
        rw [htext, happend]
      rw [hcs]
      change Tiles (result.1.token offset).start _ _
      apply Tiles.cons
      · rwa [htext]
      · rw [hstop]
        exact ih hlength

namespace Tiles

variable {offset : Nat} {cs : List Char} {tokens : List Token}

theorem start_lt_stop (h : Tiles offset cs tokens) :
    ∀ token ∈ tokens, token.start < token.stop := by
  induction h with
  | nil => simp
  | @cons token cs tokens hne _ ih =>
    refine List.forall_mem_cons.2 ⟨?_, ih⟩
    obtain ⟨c, w, hw⟩ := List.exists_cons_of_ne_nil hne
    have hpos := c.utf8Size_pos
    rw [Token.stop, hw, Text.byteLength_cons]
    omega

theorem start_head? (h : Tiles offset cs tokens) :
    ∀ token ∈ tokens.head?, token.start = offset := by
  cases h with
  | nil => simp
  | cons => simp

theorem eq_nil_iff (h : Tiles offset cs tokens) : tokens = [] ↔ cs = [] := by
  cases h with
  | nil => simp
  | cons hne => simp [hne]

theorem isChain (h : Tiles offset cs tokens) :
    tokens.IsChain fun token next => token.stop = next.start := by
  induction h with
  | nil => exact .nil
  | @cons token cs tokens hne h ih =>
    cases tokens with
    | nil => exact .singleton token
    | cons next tokens => exact .cons_cons (h.start_head? next rfl).symm ih

theorem stop_getLast? (h : Tiles offset cs tokens) :
    ∀ token ∈ tokens.getLast?, token.stop = offset + Text.byteLength cs := by
  induction h with
  | nil => simp
  | @cons token cs tokens hne h ih =>
    intro last hlast
    cases tokens with
    | nil =>
      obtain rfl : token = last := by simpa using hlast
      rw [h.eq_nil_iff.1 rfl, List.append_nil, Token.stop]
    | cons next tokens =>
      rw [List.getLast?_cons_cons] at hlast
      rw [ih last hlast, Text.byteLength_append, Token.stop, Nat.add_assoc]

theorem flatMap_text (h : Tiles offset cs tokens) :
    tokens.flatMap (fun token => token.text.toList) = cs := by
  induction h with
  | nil => rfl
  | cons _ _ ih => rw [List.flatMap_cons, ih]

/-- Each token is a piece of the characters, at the offset of its first byte. -/
theorem exists_append (h : Tiles offset cs tokens) : ∀ token ∈ tokens, ∃ before after,
    cs = before ++ token.text.toList ++ after ∧ token.start = offset + Text.byteLength before := by
  induction h with
  | nil => simp
  | @cons token cs tokens hne h ih =>
    refine List.forall_mem_cons.2 ⟨⟨[], cs, rfl, rfl⟩, fun other hother => ?_⟩
    obtain ⟨before, after, rfl, hstart⟩ := ih other hother
    refine ⟨token.text.toList ++ before, after, by simp, ?_⟩
    rw [hstart, Text.byteLength_append, Token.stop, Nat.add_assoc]

theorem of_cons {token : Token} (h : Tiles offset cs (token :: tokens)) :
    token.start = offset ∧ token.text.toList ≠ [] ∧
      ∃ cs', cs = token.text.toList ++ cs' ∧ Tiles token.stop cs' tokens := by
  cases h with
  | cons hne h => exact ⟨rfl, hne, _, rfl, h⟩

theorem of_append {front : List Token} (h : Tiles offset cs (front ++ tokens)) :
    ∃ cs', cs = tokenChars front ++ cs' ∧
      Tiles (offset + Text.byteLength (tokenChars front)) cs' tokens := by
  induction front generalizing offset cs with
  | nil => exact ⟨cs, rfl, h⟩
  | cons token front ih =>
    obtain ⟨rfl, -, cs', rfl, hrest⟩ := h.of_cons
    obtain ⟨cs', rfl, htiles⟩ := ih hrest
    refine ⟨cs', by simp, ?_⟩
    rwa [tokenChars_cons, Text.byteLength_append, ← Nat.add_assoc]

theorem chars_eq (h : Tiles offset cs tokens) : tokenChars tokens = cs := by
  induction h with
  | nil => rfl
  | cons _ _ ih => rw [tokenChars_cons, ih]

end Tiles

/-! ## The byte ranges of the tokens -/

/-- Kinds and lengths of tokens in a row, as ranges from an offset on. -/
def spansFrom : Nat → List (TokenKind × Nat) → List (TokenKind × Nat × Nat)
  | _, [] => []
  | start, (kind, length) :: rest =>
    (kind, start, start + length) :: spansFrom (start + length) rest

/-- The kinds and ranges of the tokens that the scanner finds when it is fed the bytes of the
encoded text, one at a time. -/
def byteSpans (text : String) (inBlock : Bool) : List (TokenKind × Nat × Nat) :=
  let origin := originOf text.toList
  let bytes := text.toByteArray.data.toList.drop origin
  let lexemes := coresFrom (ScanState.start inBlock) (bytes.map byteChar)
  spansFrom origin (lexemes.map fun lexeme => (lexeme.1, lexeme.2.length))

theorem Tiles.spansFrom_eq {offset : Nat} {cs : List Char} {tokens : List Token}
    (h : Tiles offset cs tokens) :
    tokens.map (fun token => (token.kind, token.start, token.stop)) =
      spansFrom offset (tokens.map fun token =>
        (token.kind, Text.byteLength token.text.toList)) := by
  induction h with
  | nil => rfl
  | cons _ _ ih => rw [List.map_cons, ih]; rfl

theorem originOf_eq (cs : List Char) : originOf cs = if cs.head? = some '\ufeff' then 3 else 0 := by
  cases cs with
  | nil => rfl
  | cons c cs =>
    by_cases h : c = '\ufeff'
    · subst h; rfl
    · simp [originOf, byteOrderMark, h]

/-- The byte order mark, if there is one, and what follows it. -/
theorem exists_mark (cs : List Char) :
    ∃ mark, cs = mark ++ withoutMark cs ∧ Text.byteLength mark = originOf cs := by
  cases cs with
  | nil => exact ⟨[], rfl, rfl⟩
  | cons c cs =>
    by_cases h : c = byteOrderMark
    · exact ⟨[c], by simp [withoutMark, h], by simp [originOf, h]⟩
    · exact ⟨[], by simp [withoutMark, h], by simp [originOf, h]⟩

theorem toList_toByteArray (text : String) :
    text.toByteArray.data.toList = text.toList.flatMap String.utf8EncodeChar := by
  conv => lhs; rw [← String.ofList_toList (s := text)]
  rw [String.toByteArray_ofList, List.utf8Encode, List.toList_data_toByteArray]

theorem length_utf8Encode (cs : List Char) :
    (cs.flatMap String.utf8EncodeChar).length = Text.byteLength cs := by
  induction cs with
  | nil => rfl
  | cons c cs ih =>
    rw [List.flatMap_cons, List.length_append, String.length_utf8EncodeChar, ih,
      Text.byteLength_cons]

theorem byteLength_toList (text : String) : Text.byteLength text.toList = text.utf8ByteSize := by
  rw [← length_utf8Encode, ← toList_toByteArray]
  rfl

theorem isValid_of_append {text : String} {before after : List Char}
    (h : text.toList = before ++ after) :
    String.Pos.Raw.IsValid text ⟨Text.byteLength before⟩ := by
  rw [String.Pos.Raw.isValid_iff_exists_append]
  refine ⟨String.ofList before, String.ofList after, ?_, ?_⟩
  · rw [← String.ofList_append, ← h, String.ofList_toList]
  · rw [String.rawEndPos, ← byteLength_toList, String.toList_ofList]

theorem cutBytes_append (cs ds : List Char) :
    Text.takeBytes (Text.byteLength cs) (cs ++ ds) = cs ∧
      Text.dropBytes (Text.byteLength cs) (cs ++ ds) = ds := by
  induction cs with
  | nil => cases ds <;> exact ⟨rfl, rfl⟩
  | cons c cs ih =>
    obtain ⟨n, hn⟩ : ∃ n, Text.byteLength (c :: cs) = n + 1 :=
      Nat.exists_eq_add_one.2 (by have := c.utf8Size_pos; rw [Text.byteLength_cons]; omega)
    have hrest : n + 1 - c.utf8Size = Text.byteLength cs := by
      rw [← hn, Text.byteLength_cons]
      omega
    rw [hn, List.cons_append, Text.takeBytes, Text.dropBytes, hrest, ih.1]
    exact ⟨rfl, ih.2⟩

/-- The mark is no blank. -/
theorem trimEnd_cons_mark (cs : List Char) :
    Text.trimEnd (byteOrderMark :: cs) = byteOrderMark :: Text.trimEnd cs := by
  rw [Text.trimEnd, Text.trimEnd, List.reverse_cons, List.dropWhile_append]
  split
  next hnil => simp_all [show isBlank byteOrderMark = false by decide]
  next => simp

/-- At the end of input, blanks are trimmed from the whole text. -/
theorem TokenTable.lastNonSpace_size (text : String) (inBlock : Bool) :
    (ofText text inBlock).lastNonSpace (ofText text inBlock).size =
      Text.byteLength (Text.trimEnd text.toList) := by
  show Text.byteLength (Text.trimEnd (Text.takeBytes (Text.byteLength text.toList) text.toList)) = _
  have hall := (cutBytes_append text.toList []).1
  rw [List.append_nil] at hall
  rw [hall]

theorem slice_eq {text : String} {before w after : List Char}
    (h : text.toList = before ++ w ++ after) :
    Text.slice text (Text.byteLength before) (Text.byteLength before + Text.byteLength w) =
      String.ofList w := by
  rw [Text.slice, h, ← Text.byteLength_append, (cutBytes_append ..).1, (cutBytes_append ..).2]

theorem tiles_ofText (text : String) (inBlock : Bool) :
    Tiles (originOf text.toList) (withoutMark text.toList)
      (TokenTable.ofText text inBlock).tokens.toList := by
  rw [TokenTable.toList_tokens_ofText]
  exact tiles_scanFrom (Nat.le_refl _)

theorem drop_originOf (cs : List Char) : (cs.flatMap String.utf8EncodeChar).drop (originOf cs) =
    (withoutMark cs).flatMap String.utf8EncodeChar := by
  obtain ⟨mark, hmark, horigin⟩ := exists_mark cs
  have hbytes : cs.flatMap String.utf8EncodeChar = mark.flatMap String.utf8EncodeChar ++
      (withoutMark cs).flatMap String.utf8EncodeChar := by
    rw [← List.flatMap_append, ← hmark]
  rw [hbytes, List.drop_left' ((length_utf8Encode mark).trans horigin)]

/-- The bytes after the mark are those of the characters after it. -/
theorem map_byteChar_drop_originOf (text : String) :
    (text.toByteArray.data.toList.drop (originOf text.toList)).map byteChar =
      bytewise (withoutMark text.toList) := by
  rw [toList_toByteArray, drop_originOf, List.map_flatMap]
  rfl

theorem map_ofText_eq_byteSpans (text : String) (inBlock : Bool) :
    (TokenTable.ofText text inBlock).tokens.toList.map
        (fun token => (token.kind, token.start, token.stop)) = byteSpans text inBlock := by
  have hcores : (lexemesOf text inBlock).map (fun entry => (entry.2.kind, entry.2.chars)) =
      coresFrom (ScanState.start inBlock) (withoutMark text.toList) :=
    map_scanFrom (Nat.le_refl _)
  rw [(tiles_ofText text inBlock).spansFrom_eq, TokenTable.toList_tokens_ofText, byteSpans]
  simp only [map_byteChar_drop_originOf, coresFrom_bytewise, ← hcores, List.map_map]
  congr 1
  refine List.map_congr_left fun entry _ => ?_
  simp [Lexeme.token, length_bytewise]

/-- The tokens of a table tile a text: they start after the byte order mark, none is empty, each
starts where the one before ends, and the last ends where the text does. Each starts and ends
between two characters and holds the text between them, so together they hold the text without its
mark. -/
structure TokenTable.TilesText (table : TokenTable) (text : String) : Prop where
  origin : table.origin = if text.toList.head? = some '\ufeff' then 3 else 0
  nonempty : ∀ token ∈ table.tokens.toList, token.start < token.stop
  first : ∀ token ∈ table.tokens.toList.head?, token.start = table.origin
  adjacent : table.tokens.toList.IsChain fun token next => token.stop = next.start
  last : ∀ token ∈ table.tokens.toList.getLast?, token.stop = text.utf8ByteSize
  empty_iff : table.tokens.toList = [] ↔ table.origin = text.utf8ByteSize
  boundary : ∀ token ∈ table.tokens.toList, String.Pos.Raw.IsValid text ⟨token.start⟩ ∧
    String.Pos.Raw.IsValid text ⟨token.stop⟩ ∧
    Text.slice text token.start token.stop = token.text
  concat : Text.concat (table.tokens.toList.map Token.text) =
    String.ofList (withoutMark text.toList)

/-- **The tokens tile the text**, and the scanner finds the same ranges when it steps over bytes. -/
theorem TokenTable.ofText_tiles (text : String) (inBlock : Bool) :
    (ofText text inBlock).TilesText text ∧ (ofText text inBlock).tokens.toList.map
      (fun token => (token.kind, token.start, token.stop)) = byteSpans text inBlock := by
  have htiles := tiles_ofText text inBlock
  obtain ⟨mark, hmark, horigin⟩ := exists_mark text.toList
  have hsize : originOf text.toList + Text.byteLength (withoutMark text.toList) =
      text.utf8ByteSize := by
    rw [← byteLength_toList, ← horigin, ← Text.byteLength_append, ← hmark]
  refine ⟨⟨originOf_eq text.toList, htiles.start_lt_stop, htiles.start_head?,
    htiles.isChain, ?_, ?_, ?_, ?_⟩, map_ofText_eq_byteSpans text inBlock⟩
  · rw [← hsize]
    exact htiles.stop_getLast?
  · rw [htiles.eq_nil_iff, ← hsize]
    show _ ↔ originOf text.toList = _
    cases withoutMark text.toList with
    | nil => simp
    | cons c cs =>
      have hpos := c.utf8Size_pos
      rw [Text.byteLength_cons]
      simp only [reduceCtorEq, false_iff]
      omega
  · intro token htoken
    obtain ⟨before, after, hcs, hstart⟩ := htiles.exists_append token htoken
    have htext : text.toList = (mark ++ before) ++ token.text.toList ++ after := by
      rw [hmark, hcs]
      simp
    have hstart : token.start = Text.byteLength (mark ++ before) := by
      rw [hstart, Text.byteLength_append, horigin]
    have hstop : token.stop = Text.byteLength (mark ++ before ++ token.text.toList) := by
      rw [Text.byteLength_append, ← hstart, Token.stop]
    refine ⟨?_, ?_, ?_⟩
    · rw [hstart]
      exact isValid_of_append (htext.trans (List.append_assoc ..))
    · rw [hstop]
      exact isValid_of_append htext
    · rw [hstop, hstart, Text.byteLength_append (mark ++ before), slice_eq htext,
        String.ofList_toList]
  · rw [Text.concat, List.flatMap_map, htiles.flatMap_text]

end StyleTree
