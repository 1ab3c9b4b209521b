import StyleTree.Proofs.Grammar.MotionRule
import StyleTree.Proofs.Parse.Positions

/-! Where parsing stops. A production fails at the first token that it has left, and what it has
left is an end of the tokens of the text, unless a unit is cut before an escape (`Leftover`). So the
error of a text stands between two characters of it: at the start of a token, where a unit is cut,
or at the end of the text without its blanks; and the range that is shown for it is one character,
or nothing at the end of the text (`located_of_parse_error`). -/

namespace StyleTree

open StyleTree.Parser StyleTree.Grammar

/-! ## What is left of the tokens -/

/-- A unit that is cut before an escape: what is left of the identifier after a number. -/
structure CutUnit (tokens : List Token) (ident : Token) (unit escape : List Char)
    (after : List Token) : Prop where
  number : ∃ before number, tokens = before ++ (number ++ ident :: after) ∧
    numberLength? (number ++ ident :: after) = some number.length
  kind : ident.kind = .ident
  text : ident.text.toList = unit ++ escape
  unit : unit ≠ []
  escape : escape.head? = some '\\'

/-- What can be left of tokens: an end of them, or one that starts within a unit. -/
inductive Leftover (tokens : List Token) : List Token → Prop
  | suffix {rest : List Token} (h : rest <:+ tokens) : Leftover tokens rest
  | cut {ident : Token} {unit escape : List Char} {after : List Token}
    (h : CutUnit tokens ident unit escape after) :
    Leftover tokens (ident.after unit escape :: after)

namespace Leftover

variable {tokens rest number after : List Token} {token : Token} {unit escape : List Char}

theorem of_cons (h : Leftover tokens (token :: rest)) : Leftover tokens rest := by
  cases h with
  | suffix h => exact .suffix ((List.suffix_cons token rest).trans h)
  | @cut ident unit escape after h =>
    obtain ⟨before, number, rfl, -⟩ := h.number
    exact .suffix ⟨before ++ number ++ [ident], by simp⟩

/-- An identifier starts no number, so no unit is cut twice. -/
theorem of_cut (h : Leftover tokens (number ++ token :: after))
    (hnumber : numberLength? (number ++ token :: after) = some number.length)
    (hk : token.kind = .ident) (htext : token.text.toList = unit ++ escape) (hunit : unit ≠ [])
    (hescape : escape.head? = some '\\') :
    Leftover tokens (token.after unit escape :: after) := by
  refine .cut ⟨?_, hk, htext, hunit, hescape⟩
  generalize htokens : number ++ token :: after = rest at h
  cases h with
  | suffix h =>
    obtain ⟨before, rfl⟩ := h
    exact ⟨before, number, by rw [htokens], hnumber⟩
  | @cut ident unit' escape' _ h =>
    have hident : (ident.after unit' escape').kind = .ident := h.kind
    rw [htokens] at hnumber
    simp [numberLength?, countIf, hident] at hnumber

end Leftover

/-- The tokens stay where they are, and the first run leaves what can be left of them. -/
def Motion.along (tokens : List Token) : Motion where
  move start := start
  move_add _ _ := rfl
  Left := Leftover tokens
  left_of_cons := Leftover.of_cons
  left_cut := Leftover.of_cut

/-- A production that fails on the tokens of a text fails at the first of those it has left. -/
theorem leftover_of_production {context : Context} {size : Nat} {tokens : List Token}
    {failure : Failure} {s' : ParserState}
    (h : context.production size { rest := tokens } = .error failure s') :
    Leftover tokens s'.rest ∧ failure.offset = s'.rest.head?.map Token.start :=
  (moves_production (M := .along tokens) (P := fun _ => True) context size).fails trivial
    (.suffix (List.suffix_refl tokens)) h

/-! ## Places in the text -/

/-- The offset is that of a place between two characters of the text, after its byte order mark. -/
structure IsPlace (text : String) (offset : Nat) : Prop where
  origin_le : originOf text.toList ≤ offset
  split : ∃ before after, text.toList = before ++ after ∧ offset = Text.byteLength before

theorem isPlace_of_append {text : String} {before after : List Char}
    (h : withoutMark text.toList = before ++ after) :
    IsPlace text (originOf text.toList + Text.byteLength before) := by
  obtain ⟨mark, hmark, horigin⟩ := exists_mark text.toList
  refine ⟨Nat.le_add_right .., mark ++ before, after, ?_, ?_⟩
  · rw [List.append_assoc, ← h, ← hmark]
  · rw [Text.byteLength_append, horigin]

theorem isPlace_of_suffix {text : String} {inBlock : Bool} {token : Token} {rest : List Token}
    (h : token :: rest <:+ (TokenTable.ofText text inBlock).tokens.toList) :
    IsPlace text token.start := by
  obtain ⟨before, htokens⟩ := h
  have htiles := tiles_ofText text inBlock
  rw [← htokens] at htiles
  obtain ⟨cs, hcs, hrest⟩ := htiles.of_append
  rw [hrest.of_cons.1]
  exact isPlace_of_append hcs

theorem isPlace_of_cut {text : String} {inBlock : Bool} {ident : Token} {unit escape : List Char}
    {after : List Token}
    (h : CutUnit (TokenTable.ofText text inBlock).tokens.toList ident unit escape after) :
    IsPlace text (ident.start + Text.byteLength unit) := by
  obtain ⟨before, number, htokens, -⟩ := h.number
  have htiles := tiles_ofText text inBlock
  rw [htokens, ← List.append_assoc] at htiles
  have hescape : escape ≠ [] := by
    have := h.escape
    rintro rfl
    cases this
  obtain ⟨hstart, cs, hcs, -⟩ := htiles.of_cut h.text hescape
  rw [hstart]
  exact isPlace_of_append hcs

/-- The blanks at the end of a text come after its byte order mark. -/
theorem isPlace_trimEnd (text : String) :
    IsPlace text (Text.byteLength (Text.trimEnd text.toList)) := by
  refine ⟨?_, Text.trimEnd text.toList, (text.toList.reverse.takeWhile isBlank).reverse, ?_, rfl⟩
  · cases hcs : text.toList with
    | nil => exact Nat.zero_le _
    | cons c cs =>
      rw [originOf]
      split
      next hmark =>
        rw [hmark, trimEnd_cons_mark, Text.byteLength_cons]
        exact Nat.le_add_right ..
      next => exact Nat.zero_le _
  · rw [Text.trimEnd, ← List.reverse_append, List.takeWhile_append_dropWhile, List.reverse_reverse]

/-! ## The range of an error -/

/-- What is shown of a text for an error at an offset is the character that starts there, and
nothing if none does. -/
structure ShowsCharacter (error : SyntaxError) (text : String) : Prop where
  whole : error.location.offset < text.utf8ByteSize →
    ∃ before c after, text.toList = before ++ c :: after ∧
    error.location.offset = Text.byteLength before ∧
      error.range text = (Text.byteLength before, Text.byteLength (before ++ [c]))
  empty_iff : (error.range text).1 = (error.range text).2 ↔
    error.location.offset = text.utf8ByteSize

theorem showsCharacter_of_isPlace {text : String} {error : SyntaxError}
    (h : IsPlace text error.location.offset) : ShowsCharacter error text := by
  obtain ⟨before, after, htext, hoffset⟩ := h.split
  have hsize : text.utf8ByteSize = Text.byteLength before + Text.byteLength after := by
    rw [← byteLength_toList, htext, Text.byteLength_append]
  have hstart : min error.location.offset (Text.byteLength text.toList) =
      Text.byteLength before := by
    rw [byteLength_toList, hsize, hoffset]
    omega
  have hrest : Text.dropBytes (Text.byteLength before) text.toList = after := by
    rw [htext]
    exact (cutBytes_append before after).2
  cases after with
  | nil =>
    have hrange : error.range text = (Text.byteLength before, Text.byteLength before) := by
      simp only [SyntaxError.range, hstart, hrest, Nat.add_zero]
    rw [Text.byteLength_nil, Nat.add_zero] at hsize
    refine ⟨fun hlt => absurd hlt (by omega), ?_⟩
    rw [hrange]
    exact ⟨fun _ => by omega, fun _ => rfl⟩
  | cons c after =>
    have hrange : error.range text = (Text.byteLength before, Text.byteLength (before ++ [c])) := by
      simp only [SyntaxError.range, hstart, hrest, Text.byteLength_append, Text.byteLength_cons,
        Text.byteLength_nil, Nat.add_zero]
    have hpos := c.utf8Size_pos
    rw [Text.byteLength_cons] at hsize
    refine ⟨fun _ => ⟨before, c, after, htext, hoffset, hrange⟩, ?_⟩
    rw [hrange, Text.byteLength_append, Text.byteLength_cons]
    omega

/-! ## The location of an error -/

/-- Where parsing stops: at a token, where a unit is cut before an escape, or at the end of input,
which counts without the blanks there. -/
inductive StopsAt (text : String) (tokens : List Token) : List Token → Nat → Prop
  | token {token : Token} {rest : List Token} (h : token :: rest <:+ tokens) :
    StopsAt text tokens (token :: rest) token.start
  | unit {ident : Token} {unit escape : List Char} {after : List Token}
    (h : CutUnit tokens ident unit escape after) :
    StopsAt text tokens (ident.after unit escape :: after) (ident.start + Text.byteLength unit)
  | input : StopsAt text tokens [] (Text.byteLength (Text.trimEnd text.toList))

/-- The error of a text stands at a place of it: where the production of the context stopped. -/
structure Located (text : String) (options : ParseOptions) (error : SyntaxError) : Prop where
  origin_le : (if text.toList.head? = some '\ufeff' then 3 else 0) ≤ error.location.offset
  le_size : error.location.offset ≤ text.utf8ByteSize
  boundary : String.Pos.Raw.IsValid text ⟨error.location.offset⟩
  location : error.location = (options.linesOf text).location error.location.offset
  stops : ∃ failure s', options.context.production (options.context.tokens text).length
      { rest := options.context.tokens text } = .error failure s' ∧
    error.message = failure.cause.message ∧
      StopsAt text (options.context.tokens text) s'.rest error.location.offset
  shows : ShowsCharacter error text

theorem isPlace_of_stopsAt {text : String} {context : Context} {rest : List Token} {offset : Nat}
    (h : StopsAt text (context.tokens text) rest offset) : IsPlace text offset := by
  cases h with
  | token h => exact isPlace_of_suffix h
  | unit h => exact isPlace_of_cut h
  | input => exact isPlace_trimEnd text

theorem stopsAt_of_leftover (text : String) (inBlock : Bool) {tokens rest : List Token}
    {failure : Failure} (h : Leftover tokens rest)
    (hoffset : failure.offset = rest.head?.map Token.start) :
    StopsAt text tokens rest (failure.reportOffset (TokenTable.ofText text inBlock)) := by
  rw [Failure.reportOffset, hoffset, TokenTable.lastNonSpace_size]
  cases rest with
  | nil => exact .input
  | cons token rest =>
    cases h with
    | suffix h => exact .token h
    | cut h => exact .unit h

/-- **Errors are located exactly**: between two characters of the text, on the line and column of
the line table, at the token where parsing stopped, where a unit was cut, or at the end of the text
without its blanks. -/
theorem located_of_parse_error {text : String} {options : ParseOptions} {error : SyntaxError}
    (h : parse text options = .error error) : Located text options error := by
  rw [parse_eq] at h
  cases hrun : options.context.production (options.context.tokens text).length
      { rest := options.context.tokens text } with
  | ok tree s' => rw [hrun] at h; cases h
  | error failure s' =>
    rw [hrun] at h
    obtain rfl := Except.error.inj h
    obtain ⟨hleft, hoffset⟩ := leftover_of_production hrun
    have hstops := stopsAt_of_leftover text options.context.startsInBlock hleft hoffset
    have hplace := isPlace_of_stopsAt hstops
    obtain ⟨before, after, htext, hbefore⟩ := hplace.split
    have hlocation := LineTable.location_offset (options.linesOf text)
      (failure.reportOffset (TokenTable.ofText text options.context.startsInBlock))
    refine ⟨?_, ?_, ?_, ?_, ⟨failure, s', hrun, rfl, ?_⟩, showsCharacter_of_isPlace ?_⟩
    · rw [hlocation, ← originOf_eq]
      exact hplace.origin_le
    · rw [hlocation, hbefore, ← byteLength_toList, htext, Text.byteLength_append]
      exact Nat.le_add_right ..
    · rw [hlocation, hbefore]
      exact isValid_of_append htext
    · rw [hlocation]
    · rwa [hlocation]
    · rwa [hlocation]

/-- A parenthesis that closes nothing is where parsing stops; a text that ends too early is reported
where its last word ends. -/
theorem located_of_unclosed :
    parse "a\x7bb:c)\x7d" {} = .error ⟨"Unexpected input", ⟨5, 1, 6⟩⟩ ∧
      Located "a\x7bb:c)\x7d" {} ⟨"Unexpected input", ⟨5, 1, 6⟩⟩ ∧
    parse "a\x7b\n b:c \n" {} = .error ⟨"`\x7d` is expected", ⟨7, 2, 5⟩⟩ ∧
      Located "a\x7b\n b:c \n" {} ⟨"`\x7d` is expected", ⟨7, 2, 5⟩⟩ := by
  have htoken : parse "a\x7bb:c)\x7d" {} = .error ⟨"Unexpected input", ⟨5, 1, 6⟩⟩ := by
    decide +kernel
  have hinput : parse "a\x7b\n b:c \n" {} = .error ⟨"`\x7d` is expected", ⟨7, 2, 5⟩⟩ := by
    decide +kernel
  exact ⟨htoken, located_of_parse_error htoken, hinput, located_of_parse_error hinput⟩

end StyleTree
