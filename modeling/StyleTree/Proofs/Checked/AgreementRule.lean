import StyleTree.Proofs.Checked.AgreementSelector
import StyleTree.Proofs.Grammar.Declaration

/-! The machine does what the readers do, for rules. It looks ahead for a filter block by walking
over the tokens, and finds the one that closes the block; a body of an at-rule is told from the
tokens in the same way. Style sheets nest in at-rules, and each loop over rules goes on with fewer
tokens. -/

namespace StyleTree

open StyleTree.Parser StyleTree.Grammar

variable {p : Source} {total : Nat} {before : List Char} {tokens rest : List Token} {token : Token}
  {c : Machine} {n k : Nat} {inner : Nested}

/-! ## Looking ahead for a filter block -/

namespace Machine

theorem run_get : (get : Action Machine) c = some (.ok (c, c)) :=
  rfl

theorem Stands.head?_ahead (hc : c.Stands total tokens) (k : Nat) :
    c.tokens[c.position + k]? = (tokens.drop k).head?.map Token.span := by
  rw [List.head?_drop, hc.lookup?]

theorem run_gapsEnd (hc : c.Stands total tokens) (k : Nat) :
    c.gapsEnd k c = some (.ok (k + gapLength (tokens.drop k), c)) := by
  generalize hrest : tokens.drop k = rest
  have hlook := hc.head?_ahead k
  rw [hrest] at hlook
  induction rest generalizing k with
  | nil =>
    rw [gapsEnd, hlook]
    rfl
  | cons token rest ih =>
    have htail : tokens.drop (k + 1) = rest := by rw [← List.tail_drop, hrest, List.tail_cons]
    rw [gapsEnd, hlook]
    simp only [List.head?_cons, Option.map_some]
    by_cases hgap : token.span.kind = .whitespace ∨ token.span.kind = .comment
    · have hlook' := hc.head?_ahead (k + 1)
      rw [htail] at hlook'
      have hlength : gapLength (token :: rest) = gapLength rest + 1 := by
        rw [gapLength, List.takeWhile_cons, if_pos (by simpa [isGap] using hgap)]
        rfl
      rw [if_pos hgap, ih (k + 1) htail hlook', hlength, Nat.add_assoc, Nat.add_comm 1]
    · have hlength : gapLength (token :: rest) = 0 := by
        rw [gapLength, List.takeWhile_cons, if_neg (by simpa [isGap] using hgap)]
        rfl
      rw [if_neg hgap, hlength]
      rfl

theorem run_wordAt (hplaced : Placed p before tokens) (hc : c.Stands total tokens) (k : Nat)
    (word : String) :
    wordAt p k word c = some (.ok ((tokens[k]?).any fun token => token.spells word, c)) := by
  rw [wordAt, run_bind, run_lookup? hc]
  cases htoken : tokens[k]? with
  | none => rfl
  | some token => exact run_spells hplaced (List.mem_of_getElem? htoken) word

/-- The machine finds the parenthesis that closes those that are open. -/
theorem run_closingAt (hc : c.Stands total tokens) (k depth : Nat) : c.closingAt k (depth + 1) c =
    some (.ok (if k + balancedLength depth (tokens.drop k) < tokens.length
      then some (c.position + (k + balancedLength depth (tokens.drop k))) else none, c)) := by
  generalize hrest : tokens.drop k = rest
  have hlook := hc.head?_ahead k
  rw [hrest] at hlook
  induction rest generalizing k depth with
  | nil =>
    rw [List.drop_eq_nil_iff] at hrest
    rw [closingAt, hlook, balancedLength, if_neg (by omega)]
    rfl
  | cons token rest ih =>
    have htail : tokens.drop (k + 1) = rest := by rw [← List.tail_drop, hrest, List.tail_cons]
    have hlt : k < tokens.length := by
      by_contra hle
      rw [List.drop_eq_nil_of_le (Nat.le_of_not_lt hle)] at hrest
      cases hrest
    have hlook' := hc.head?_ahead (k + 1)
    rw [htail] at hlook'
    have hnext : ∀ {d}, balancedLength depth (token :: rest) = balancedLength d rest + 1 →
        c.closingAt (k + 1) (d + 1) c =
          some (.ok (if k + balancedLength depth (token :: rest) < tokens.length
          then some (c.position + (k + balancedLength depth (token :: rest))) else none, c)) := by
      intro d hlength
      rw [ih (k + 1) d htail hlook', hlength, Nat.add_assoc k 1, Nat.add_comm 1]
    rw [closingAt, hlook]
    simp only [List.head?_cons, Option.map_some, Token.span_kind]
    cases hk : token.kind with
    | leftParen => exact hnext (balancedLength_left hk)
    | rightParen =>
      simp only [run_bind, run_minus (Nat.le_add_left 1 depth), Nat.add_sub_cancel]
      cases depth with
      | zero =>
        rw [balancedLength_closing hk, if_pos rfl, if_pos (show k + 0 < _ from hlt)]
        rfl
      | succ depth =>
        rw [if_neg (Nat.succ_ne_zero depth)]
        exact hnext (balancedLength_right hk)
    | _ => exact hnext (balancedLength_other (by simp [hk]) (by simp [hk]))

end Machine

/-! ### The block that follows -/

/-- The place of the parenthesis that opens a block, if the tokens start with the head of one. -/
def progidOpening? (tokens : List Token) : Option Nat :=
  if !startsWith [.inl "progid", .inr .colon] tokens then none
  else
    let name := 2 + gapLength (tokens.drop 2)
    if !startsWith progidName (tokens.drop name) then none
    else
      let opening := name + 5 + gapLength (tokens.drop (name + 5))
      if !startsWith [.inr .leftParen] (tokens.drop opening) then none else some opening

theorem progidLength?_eq_opening (tokens : List Token) : progidLength? tokens =
    (progidOpening? tokens).bind fun opening =>
      let closing := opening + 1 + balancedLength 0 (tokens.drop (opening + 1))
      if closing < tokens.length then some (closing + 1) else none := by
  have hbind : ∀ (started : Bool) (found : Option Nat) (f : Nat → Option Nat),
      (if !started then none else found).bind f = if !started then none else found.bind f := by
    intro started found f
    cases started <;> rfl
  rw [progidOpening?, progidName]
  simp only [hbind]
  rfl

theorem startsWith_word (word : String) (pattern : List (String ⊕ TokenKind)) (k : Nat) :
    startsWith (.inl word :: pattern) (tokens.drop k) =
      ((tokens[k]?).any (fun token => token.spells word) && startsWith pattern
        (tokens.drop (k + 1))) := by
  rw [← List.head?_drop, ← List.tail_drop]
  cases tokens.drop k <;> rfl

theorem startsWith_kind (kind : TokenKind) (pattern : List (String ⊕ TokenKind)) (k : Nat) :
    startsWith (.inr kind :: pattern) (tokens.drop k) =
      (decide (tokens[k]?.map Token.kind = some kind) && startsWith pattern
        (tokens.drop (k + 1))) := by
  rw [← List.head?_drop, ← List.tail_drop]
  cases tokens.drop k with
  | nil => rfl
  | cons token rest => simp [startsWith]

theorem startsWith_nil : startsWith [] tokens = true := by
  cases tokens <;> rfl

/-- A block is opened by a parenthesis. -/
theorem progidOpening?_spec {opening : Nat} (h : progidOpening? tokens = some opening) :
    ∃ token, tokens[opening]? = some token ∧ token.kind = .leftParen := by
  simp only [progidOpening?, Option.ite_none_left_eq_some, Option.some.injEq] at h
  obtain ⟨-, -, hparen, rfl⟩ := h
  rw [startsWith_kind, startsWith_nil, Bool.and_true] at hparen
  simpa using hparen

namespace Machine

/-- The machine looks for the head of a block behind whitespace and comments. -/
theorem run_progidOpening (hplaced : Placed p before tokens) (hc : c.Stands total tokens) :
    progidOpening p c =
      some (.ok ((progidOpening? (tokens.drop (gapLength tokens))).map
        (gapLength tokens + ·), c)) := by
  have hstart := run_gapsEnd hc 0
  rw [Nat.zero_add, List.drop_zero] at hstart
  generalize gapLength tokens = k at hstart ⊢
  have hhead : startsWith [.inl "progid", .inr .colon] (tokens.drop k) =
      ((tokens[k]?).any (fun token => token.spells "progid") && decide
        (tokens[k + 1]?.map Token.kind = some .colon)) := by
    rw [startsWith_word, startsWith_kind, startsWith_nil, Bool.and_true]
  have hname : ∀ i, startsWith progidName (tokens.drop i) =
      ((tokens[i]?).any (fun token => token.spells "dximagetransform") &&
        decide (tokens[i + 1]?.map Token.kind = some .fullStop) &&
        (tokens[i + 2]?).any (fun token => token.spells "microsoft") &&
        decide (tokens[i + 3]?.map Token.kind = some .fullStop) &&
        decide (tokens[i + 4]?.map Token.kind = some .ident)) := by
    intro i
    rw [progidName]
    simp only [startsWith_word, startsWith_kind, startsWith_nil, Bool.and_true, Bool.and_assoc]
  have hparen : ∀ i, startsWith [.inr .leftParen] (tokens.drop i) =
      decide (tokens[i]?.map Token.kind = some .leftParen) := by
    intro i
    rw [startsWith_kind, startsWith_nil, Bool.and_true]
  have hdrop : ∀ i, (tokens.drop k).drop i = tokens.drop (k + i) := fun i => List.drop_drop
  rw [progidOpening, progidOpening?]
  simp only [run_bind, run_get, hstart, run_wordAt hplaced hc, run_lookupKind hc]
  rw [← hhead]
  cases startsWith [.inl "progid", .inr .colon] (tokens.drop k) with
  | false => rfl
  | true =>
    simp only [Bool.not_true, Bool.false_eq_true, if_false, run_bind, run_get, run_gapsEnd hc,
      run_wordAt hplaced hc, run_lookupKind hc, hdrop]
    generalize gapLength (tokens.drop (k + 2)) = g
    rw [Nat.add_assoc k 2 g, ← hname]
    cases startsWith progidName (tokens.drop (k + (2 + g))) with
    | false => rfl
    | true =>
      simp only [Bool.not_true, Bool.false_eq_true, if_false, run_bind, run_get, run_gapsEnd hc,
        run_lookupKind hc]
      rw [Nat.add_assoc k (2 + g) 5]
      generalize gapLength (tokens.drop (k + (2 + g + 5))) = g'
      rw [Nat.add_assoc k (2 + g + 5) g', ← hparen]
      cases startsWith [.inr .leftParen] (tokens.drop (k + (2 + g + 5 + g'))) <;> rfl

/-- The machine finds the parenthesis that closes the block that follows. -/
theorem run_progidEnd (hplaced : Placed p before tokens) (hc : c.Stands total tokens) :
    progidEnd p c =
    some (.ok ((nextProgid? tokens).map
      fun count => total - tokens.length + gapLength tokens + (count - 1), c)) := by
  have hposition : total - tokens.length = c.position := by
    have := hc.position
    omega
  rw [hposition, progidEnd, run_bind, run_progidOpening hplaced hc, nextProgid?,
    progidLength?_eq_opening]
  cases hopening : progidOpening? (tokens.drop (gapLength tokens)) with
  | none => rfl
  | some opening =>
    obtain ⟨token, htoken, hk⟩ := progidOpening?_spec hopening
    have hlook : c.tokens[c.position + (gapLength tokens + opening)]? = some token.span := by
      rw [hc.lookup?, ← List.getElem?_drop, htoken]
      rfl
    have hclosing : c.closingAt (gapLength tokens + opening) 0 c =
        c.closingAt (gapLength tokens + opening + 1) (0 + 1) c := by
      rw [closingAt, hlook]
      simp only [Token.span_kind, hk]
    have hlength := List.length_drop (l := tokens) (i := gapLength tokens)
    simp only [Option.map_some, Option.bind_some, run_bind, run_get, hclosing, run_closingAt hc,
      List.drop_drop]
    rw [← Nat.add_assoc (gapLength tokens)]
    generalize balancedLength 0 (tokens.drop (gapLength tokens + opening + 1)) = count
    split
    next h =>
      rw [if_pos (by omega)]
      simp only [Option.map_some, Nat.add_sub_cancel]
      congr 4
      omega
    next h =>
      rw [if_neg (by omega)]
      rfl

end Machine

/-! ## Filter blocks -/

/-- A block that follows ends with a parenthesis. -/
theorem nextProgid?_spec {count : Nat} (h : nextProgid? tokens = some count) :
    ∃ body closing rest, tokens.dropWhile isGap = body ++ closing :: rest ∧
      closing.kind = .rightParen ∧
      count = body.length + 1 := by
  rw [nextProgid?, drop_gapLength] at h
  obtain ⟨_, rest, hrest, ⟨front, inside, closing, rfl, -, hk, -⟩, rfl⟩ :=
    (progidLength?_iff (noGap_dropWhile tokens)).1 h
  exact ⟨front ++ inside, closing, rest, by rw [hrest]; simp, hk, by simp [Nat.add_assoc]⟩

/-- The machine steps to the token at an index, and the reader takes those before it. -/
theorem agrees_stepTo {stop : Nat} {body : List Token} (hstop : stop + rest.length = total) :
    Agrees p total before (body ++ rest) (takeMany body.length) (Machine.stepTo stop)
      fun text _ w tokens => text.toList = w ∧ tokens = rest := by
  refine (agrees_takeMany (P := fun _ tokens count _ => stop + tokens.length = total + count)
    (fun {_ token tokens _ c} h hc => ?_)
      (fun {_ token tokens count _} _ h => ⟨(), ?_, fun c hc => ?_⟩) ?_ ?_).imp ?_
  · have := hc.position
    exact Machine.run_stepIf_not (by omega)
  · rw [List.length_cons] at h
    omega
  · have := hc.position
    exact Machine.run_stepIf (by omega) hc
  · rw [List.length_append]
    omega
  · rw [List.length_append]
    omega
  · rintro text _ w tokens ⟨htext, rfl, -⟩
    exact ⟨htext, List.drop_left⟩

/-- Tokens and the one after them. -/
theorem takeMany_concat_run {α : Type} (f : String → Parser α) (body : List Token)
    (discarded : List (Option Nat)) :
    (takeMany (body.length + 1) >>= f) ⟨body ++ token :: rest, discarded⟩ =
      (takeMany body.length >>= fun text => Parser.take >>= fun last => f (text ++ last))
        ⟨body ++ token :: rest, discarded⟩ := by
  have htake : (body ++ token :: rest).take (body.length + 1) = body ++ [token] := by
    rw [List.take_length_add_append]
    rfl
  have hdrop : (body ++ token :: rest).drop (body.length + 1) = rest := by
    rw [List.drop_length_add_append]
    rfl
  rw [takeMany_bind_run, takeMany_bind_run, take_bind_run]
  simp [htake, hdrop, Text.concat]

/-- The machine cuts out the block up to the parenthesis that closes it. -/
theorem agrees_progid {count : Nat} (h : nextProgid? tokens = some count) :
    Agrees p total before tokens (progid count)
      (Machine.progid p (total - tokens.length + gapLength tokens + (count - 1))) p.Resolves := by
  obtain ⟨body, closing, rest, hrest, hk, rfl⟩ := nextProgid?_spec h
  refine .within fun hle => ?_
  have hlength := congrArg List.length (List.takeWhile_append_dropWhile (p := isGap) (l := tokens))
  rw [List.length_append, ← gapLength, hrest] at hlength
  rw [progid, Machine.progid, Agrees.here_left, Agrees.info_right]
  refine .gaps fun w => ?_
  rw [Agrees.here_left, Agrees.info_right, Agrees.offset_right, hrest]
  refine .left (y := takeMany body.length >>= fun text => Parser.take >>= fun last =>
    skipGaps >>= fun _ =>
    return .wrapper (tokens.head?.map Token.start) .progid
      (.leaf ((body ++ closing :: rest).head?.map Token.start) .raw (text ++ last)))
    (takeMany_concat_run _ body) ((agrees_stepTo ?_).bind ?_)
  · simp only [List.length_append] at hlength
    omega
  rintro text _ w' _ ⟨htext, rfl⟩
  refine .placed fun hplaced => ?_
  rw [Agrees.current?_right, Agrees.expect_right hk]
  refine .take ?_
  have hslice : before ++ w ++ w' ++ closing.text.toList =
      before ++ w ++ (w' ++ closing.text.toList) := by simp
  simp only [List.head?_cons, Option.map_some, Option.getD_some, Token.span_stop]
  rw [Agrees.slice_read rfl hplaced.stop_eq hslice]
  refine .gaps fun w'' => .pure ?_
  rw [← htext, ← String.toList_append, String.ofList_toList]
  rfl

theorem agrees_progidRound (items : List Tree) :
    RoundAgrees p total before (token :: tokens) p.Collects items (progidPart token)
      (Machine.progidRound p (items.map p.tree) token.span) := by
  rw [progidPart, Machine.progidRound]
  refine Agrees.get fun _ =>
    (Agrees.right_iff fun c hplaced hc => Machine.run_progidEnd hplaced hc).2 ?_
  cases hcount : nextProgid? (token :: tokens) with
  | none => exact RoundAgrees.stop
  | some count => exact RoundAgrees.add (agrees_progid hcount)

theorem agrees_progids : Agrees p total before tokens (many progidPart) (Machine.progids p [])
    fun nodes nodes' _ _ => nodes' = nodes.map p.tree :=
  agrees_many (Machine.repeatWhile_eq _) (fun _ => roundSettles_progidPart)
    (fun _ => agrees_progidRound _)
    (Nat.lt_succ_self _)

theorem agrees_filterValue :
    Agrees p total before tokens filterValue (Machine.filterValue p) p.Resolves := by
  rw [filterValue_eq, Machine.filterValue, Agrees.here_left, Agrees.info_right]
  refine agrees_progids.bind ?_
  rintro nodes _ w rest rfl
  refine .gaps fun w' => ?_
  rw [optionalFlag, bind_assoc, Agrees.isAt_left, Agrees.isAt_right]
  by_cases hsign :
    decide ((rest.dropWhile isGap).head?.map Token.kind = some .exclamationMark) = true
  · simp only [hsign, if_true, bind_assoc, pure_bind]
    refine agrees_importantFlag.bind ?_
    rintro _ _ w'' rest' rfl
    refine .pure ?_
    rw [Source.Resolves, Source.tree_sequence]
  · simp only [hsign, pure_bind]
    refine .pure ?_
    rw [Source.Resolves, Source.tree_sequence]

/-! ## Declarations -/

theorem agrees_property :
    Agrees p total before tokens property (Machine.property p) p.Resolves := by
  rw [property, Machine.property, Agrees.here_left, Agrees.info_right, Agrees.offset_right,
    Machine.hacks]
  refine (Agrees.skipWhile (fun h => Machine.run_stepIf_not ?_)
    (fun h hc => Machine.run_stepIf ?_ hc)).bind ?_
  · simpa [and_assoc] using h
  · simpa [or_assoc] using h
  rintro marks _ w rest ⟨rfl, -⟩
  refine (agrees_identEnd true).bind ?_
  rintro name stop w' rest' ⟨rfl, hstop⟩
  rw [Agrees.slice_read rfl hstop (List.append_assoc ..), ← String.toList_append,
    String.ofList_toList]
  exact .gaps fun w => .pure rfl

/-! ### Names that end in `filter` -/

/-- A word of single bytes ends a text exactly if it ends its bytes. -/
theorem suffix_bytewise {w : List Char} (hw : ∀ c ∈ w, isWide c = false) (cs : List Char) :
    w <:+ bytewise cs ↔ w <:+ cs := by
  constructor
  · induction cs using List.reverseRecOn generalizing w with
    | nil => exact id
    | append_singleton cs c ih =>
      rintro ⟨front, h⟩
      rw [bytewise_append, bytewise_cons, bytewise_nil, List.append_nil] at h
      rcases List.eq_nil_or_concat w with rfl | ⟨w, d, rfl⟩
      · exact List.nil_suffix
      rw [List.concat_eq_append] at hw h ⊢
      rw [← List.append_assoc] at h
      cases hc : isWide c with
      | true =>
        -- The last byte of the word would be one of a wide character.
        obtain ⟨e, es, hencode, hwide⟩ := encode_of_isWide hc
        have hlast := congrArg List.getLast? h
        rw [hencode, List.getLast?_concat,
          List.getLast?_append_of_ne_nil _ (List.cons_ne_nil e es)] at hlast
        have := hwide d (List.mem_of_getLast? hlast.symm)
        rw [hw d (by simp)] at this
        cases this
      | false =>
        rw [encode_of_not_isWide hc] at h
        obtain ⟨hfront, hd⟩ := List.append_inj' h rfl
        obtain ⟨front', hcs⟩ :=
          ih (fun c hmem => hw c (List.mem_append_left _ hmem)) ⟨front, hfront⟩
        exact ⟨front', by rw [← hcs, List.append_assoc, hd]⟩
  · rintro ⟨front, rfl⟩
    exact ⟨bytewise front, by rw [bytewise_append, bytewise_eq_self hw]⟩

/-- The bytes of a text end in a word of single bytes, in any case, exactly if the text does. -/
theorem suffix_lowerChar_bytewise {w : List Char} (hw : ∀ c ∈ w, isWide c = false)
    (cs : List Char) :
    w <:+ (bytewise cs).map Text.lowerChar ↔ w <:+ cs.map Text.lowerChar := by
  rw [List.suffix_map_iff, List.suffix_map_iff]
  refine exists_congr fun v => and_congr_left fun hv =>
    suffix_bytewise (not_isWide_of_lowerChar hv.symm hw) cs

theorem byteChar_lowerByte (byte : UInt8) :
    byteChar (Machine.lowerByte byte) = Text.lowerChar (byteChar byte) := by
  have hle : ∀ c d : Char, c ≤ d ↔ c.toNat ≤ d.toNat := fun c d => UInt32.le_iff_toNat_le
  have hbounds : (65 ≤ byte ∧ byte ≤ 90) ↔ ('A' ≤ byteChar byte && byteChar byte ≤ 'Z') = true := by
    rw [Bool.and_eq_true, decide_eq_true_eq, decide_eq_true_eq, hle, hle, toNat_byteChar,
      UInt8.le_iff_toNat_le, UInt8.le_iff_toNat_le]
    exact Iff.rfl
  rw [Machine.lowerByte, Text.lowerChar]
  by_cases hupper : 65 ≤ byte ∧ byte ≤ 90
  · have hsum : (byte + 32).toNat = byte.toNat + 32 := by
      have := UInt8.le_iff_toNat_le.1 hupper.2
      rw [UInt8.toNat_add]
      exact Nat.mod_eq_of_lt (Nat.lt_of_le_of_lt (Nat.add_le_add_right this 32) (by decide))
    rw [if_pos hupper, if_pos (hbounds.1 hupper), toNat_byteChar, byteChar, hsum]
  · rw [if_neg hupper, if_neg (mt hbounds.2 hupper)]

theorem byteChar_injective : Function.Injective byteChar := by
  intro a b h
  rw [← UInt8.toNat_inj, ← toNat_byteChar, ← toNat_byteChar, h]

namespace Machine

/-- The machine compares the last bytes of a name. -/
theorem run_endsWithFilter (name : String) : endsWithFilter name c =
    some (.ok ("filter".toList.isSuffixOf (name.toList.map Text.lowerChar), c)) := by
  have hnarrow : ∀ d ∈ "filter".toList, isWide d = false := by simp [isWide]
  have hbytes : name.toByteArray.data.toList.map byteChar = bytewise name.toList := by
    rw [toList_toByteArray, bytewise, List.map_flatMap]
  have hfilter : "filter".toByteArray.data.toList.map byteChar = "filter".toList := by
    rw [toList_toByteArray, List.map_flatMap]
    exact bytewise_eq_self hnarrow
  have hends : ∀ last : List UInt8, last.map lowerByte = "filter".toByteArray.data.toList ↔
      (last.map byteChar).map Text.lowerChar = "filter".toList := by
    intro last
    have hlower : (last.map lowerByte).map byteChar = (last.map byteChar).map Text.lowerChar := by
      rw [List.map_map, List.map_map]
      exact List.map_congr_left fun byte _ => byteChar_lowerByte byte
    rw [← byteChar_injective.list_map.eq_iff, hlower, hfilter]
  have hsuffix : "filter".toList.isSuffixOf (name.toList.map Text.lowerChar) = true ↔
      6 ≤ name.toByteArray.data.toList.length ∧
        (name.toByteArray.data.toList.drop (name.toByteArray.data.toList.length - 6)).map
          lowerByte =
          "filter".toByteArray.data.toList := by
    rw [List.isSuffixOf_iff_suffix, ← suffix_lowerChar_bytewise hnarrow, ← hbytes, hends,
      List.map_drop, List.map_drop, List.suffix_iff_eq_drop, List.length_map, List.length_map,
      eq_comm]
    refine ⟨fun h => ⟨?_, h⟩, And.right⟩
    have := congrArg List.length h
    rw [List.length_drop, List.length_map, List.length_map] at this
    change _ = 6 at this
    omega
  rw [Bool.eq_iff_iff.2 (hsuffix.trans decide_eq_true_iff.symm)]
  unfold endsWithFilter
  by_cases hsize : 6 ≤ name.toByteArray.data.toList.length
  · simp only [hsize, if_true, run_bind, run_minus hsize, true_and]
    rfl
  · simp only [hsize, if_false, false_and, decide_false]
    rfl

theorem run_isFilter (name : Tree) :
    isFilter (p.tree name) c = some (.ok (Grammar.isFilter name, c)) := by
  cases name with
  | leaf info kind text => cases kind <;> first | rfl | exact run_endsWithFilter text
  | _ => rfl

end Machine

/-! ### Lists of declarations -/

theorem agrees_declared (hinner : NestedAgrees p total n inner) (hn : tokens.length < n + 1)
    (filter : Bool) :
    Agrees p total before tokens (valueOf inner filter) (Machine.declared p filter) p.Resolves := by
  rw [valueOf, Machine.declared]
  refine .get fun _ => ?_
  dsimp only
  cases filter with
  | false => exact agrees_value hinner false hn
  | true =>
    rw [if_pos rfl, Bool.true_and]
    refine (Agrees.right_iff fun c hplaced hc => Machine.run_progidEnd hplaced hc).2 ?_
    cases nextProgid? tokens with
    | none => exact agrees_value hinner false hn
    | some count => exact agrees_filterValue

theorem agrees_declaration (hinner : NestedAgrees p total n inner) (hn : tokens.length < n + 1) :
    Agrees p total before tokens (declaration inner) (Machine.declaration p) p.Resolves := by
  rw [declaration_eq, propertyColon, Machine.declaration, Agrees.here_left, Agrees.info_right,
    bind_assoc]
  refine (agrees_property.reads settles_property (Nat.lt_succ_self _)).bind ?_
  rintro name _ w rest ⟨rfl, hlt⟩
  rw [bind_assoc]
  refine .expect fun colon rest' hrest _ => ?_
  rw [hrest, List.length_cons] at hlt
  rw [pure_bind]
  refine (Agrees.right_iff fun c _ _ => Machine.run_isFilter name).2 ?_
  refine (agrees_declared hinner (by omega) _).bind ?_
  rintro node _ w' rest'' rfl
  exact .pure rfl

theorem agrees_declarationRound (hinner : NestedAgrees p total n inner)
    (hn : (token :: tokens).length < n + 1) (items : List Tree) :
    RoundAgrees p total before (token :: tokens) p.Collects items (declarationPart inner token)
      (Machine.declarationRound p (items.map p.tree) token.span) := by
  rw [declarationPart, Machine.declarationRound, Token.span_kind]
  cases token.kind with
  | rightBrace => exact RoundAgrees.stop
  | whitespace | comment | semicolon => exact RoundAgrees.skip
  | _ => exact RoundAgrees.add (agrees_declaration hinner hn)

theorem agrees_declarations (hinner : NestedAgrees p total n inner) (hn : tokens.length < n + 1) :
    Agrees p total before tokens (declarations inner) (Machine.declarations p [])
      fun nodes nodes' _ _ => nodes' = nodes.map p.tree :=
  agrees_many (Machine.repeatWhile_eq _) (fun _ => roundSettles_declarationPart hinner.settles)
    (fun hn => agrees_declarationRound hinner hn _) hn

theorem agrees_block (hinner : NestedAgrees p total n inner) (hn : tokens.length < n + 1) :
    Agrees p total before tokens (block inner) (Machine.block p) p.Resolves := by
  rw [block, Machine.block, Agrees.here_left, Agrees.info_right]
  refine (agrees_declarations hinner hn).bind ?_
  rintro nodes _ w rest rfl
  refine .pure ?_
  rw [Source.Resolves, Source.tree_sequence]

theorem agrees_blockWithBrackets (hinner : NestedAgrees p total n inner)
    (hn : tokens.length < n + 1) :
    Agrees p total before tokens (bracedBlock inner) (Machine.blockWithBrackets p) p.Resolves := by
  rw [bracedBlock, Machine.blockWithBrackets, Agrees.here_left, Agrees.info_right]
  refine .expect fun opening rest htokens _ => ?_
  rw [htokens, List.length_cons] at hn
  refine (agrees_declarations hinner (by omega)).bind ?_
  rintro nodes _ w rest' rfl
  refine .expect fun closing rest'' _ _ => .pure ?_
  rw [Source.Resolves, Source.tree_sequence]

/-! ## Rules -/

theorem agrees_ruleset (hinner : NestedAgrees p total n inner) (hn : tokens.length < n + 1) :
    Agrees p total before tokens (ruleset inner) (Machine.ruleset p) p.Resolves := by
  rw [ruleset, Machine.ruleset, Agrees.here_left, Agrees.info_right]
  refine ((agrees_selector hinner hn).reads (settles_selector hinner.settles) hn).bind ?_
  rintro head _ w rest ⟨rfl, hle⟩
  refine (agrees_blockWithBrackets hinner (by omega)).bind ?_
  rintro body _ w' rest' rfl
  exact .pure rfl

/-- The machine has collected the parts of an at-rule expression. -/
structure ExpressionParts (p : Source) (parts : List Tree) (started : Bool)
    (nodes : List (Node SourceInfo)) (_ : List Token) : Prop where
  nodes : nodes = parts.map p.tree
  started : started = !parts.isEmpty

theorem agrees_expressionRound (hinner : NestedAgrees p total n inner)
    (hn : (token :: tokens).length < n + 1)
    {parts : List Tree} {started : Bool} {nodes : List (Node SourceInfo)}
    (hst : ExpressionParts p parts started nodes (token :: tokens)) :
    RoundAgrees p total before (token :: tokens) (ExpressionParts p) parts
      (expressionPart inner started token) (Machine.expressionRound p nodes token.span) := by
  obtain ⟨rfl, hstarted⟩ := hst
  have hpart : ∀ {read : Parser Tree} {m : Action (Node SourceInfo)},
      Agrees p total before (token :: tokens) read m p.Resolves →
        RoundAgrees p total before (token :: tokens) (ExpressionParts p) parts
          (do return .next [← read] true)
          (do return some (parts.map p.tree ++ [← m])) := fun hread =>
    .next hread fun node _ _ _ hnode => ⟨by rw [hnode]; simp, by simp⟩
  have hskip : RoundAgrees p total before (token :: tokens) (ExpressionParts p) parts
      (do advance; return .next [] started) (do Machine.advance; return some (parts.map p.tree)) :=
    .advance ⟨rfl, hstarted⟩
  rw [expressionPart, Machine.expressionRound, Token.span_kind]
  cases hk : token.kind with
  | semicolon | leftBrace => exact RoundAgrees.stop
  | whitespace =>
    dsimp only
    rw [hstarted, List.isEmpty_map]
    cases hempty : parts.isEmpty with
    | true =>
      rw [hstarted, hempty] at hskip
      exact hskip
    | false => exact hpart agrees_space
  | comment => exact hskip
  | comma => exact hpart (agrees_tokenLeaf .operator)
  | colon => exact hpart (agrees_pseudo hinner hn)
  | leftParen => exact hpart (agrees_brackets hinner hn)
  | _ => exact hpart (agrees_component hinner hn)

theorem agrees_atruleExpression (hinner : NestedAgrees p total n inner)
    (hn : tokens.length < n + 1) :
    Agrees p total before tokens (atruleExpression inner) (Machine.atruleExpression p)
      p.Resolves := by
  have hloop : Agrees p total before tokens (loop (expressionPart inner) false)
      (Machine.expressionParts p [])
      fun result nodes _ rest => ExpressionParts p result.1 result.2 nodes rest :=
    agrees_loop (Machine.repeatWhile_eq _)
      (fun started _ => roundSettles_expressionPart hinner.settles started)
      (fun hn hst => agrees_expressionRound hinner hn hst) ⟨rfl, rfl⟩ hn
  rw [atruleExpression, Machine.atruleExpression, Agrees.here_left, Agrees.info_right]
  refine hloop.bind ?_
  rintro ⟨parts, started⟩ _ w rest ⟨rfl, -⟩
  refine .pure ?_
  rw [Source.Resolves, Source.trimSpaces_map, Source.tree_sequence]

theorem Machine.run_isBlockFrom (hc : c.Stands total tokens) (k : Nat) :
    c.isBlockFrom k c = some (.ok (holdsDeclarations (tokens.drop k), c)) := by
  generalize hrest : tokens.drop k = rest
  have hlook := hc.head?_ahead k
  rw [hrest] at hlook
  induction rest generalizing k with
  | nil =>
    rw [isBlockFrom, hlook]
    rfl
  | cons token rest ih =>
    have htail : tokens.drop (k + 1) = rest := by rw [← List.tail_drop, hrest, List.tail_cons]
    have hlook' := hc.head?_ahead (k + 1)
    rw [htail] at hlook'
    have hnext := ih (k + 1) htail hlook'
    rw [isBlockFrom, hlook, holdsDeclarations]
    simp only [List.head?_cons, Option.map_some, Token.span_kind]
    cases token.kind with
    | rightBrace | leftBrace | commercialAt => rfl
    | _ => exact hnext

theorem Machine.run_isBlock (hc : c.Stands total tokens) :
    isBlock c = some (.ok (holdsDeclarations tokens, c)) := by
  rw [isBlock, run_bind, run_get]
  exact run_isBlockFrom hc 0

/-! ## Comments -/

theorem exists_of_comment (hplaced : Placed p before (token :: tokens))
    (hk : token.kind = .comment) :
    ∃ body, token.text.toList = '/' :: '*' :: body := by
  obtain ⟨body, hbody⟩ := (hplaced.spelled token (.head _)).comment hk
  exact ⟨body, hbody.symm⟩

theorem Machine.fromThird_of_comment {text : String} {body : List Char}
    (h : text.toList = '/' :: '*' :: body) :
    fromThird text = String.ofList body := by
  have hvalid : String.Pos.Raw.IsValid text ⟨2⟩ :=
    isValid_of_append (show text.toList = ['/', '*'] ++ body from h)
  have hdrop : Text.dropBytes 2 ('/' :: '*' :: body) = body := (cutBytes_append ['/', '*'] body).2
  rw [fromThird, if_pos hvalid, h, hdrop]

theorem agrees_comment (hk : token.kind = .comment) :
    Agrees p total before (token :: tokens) (comment token) (Machine.comment p) p.Resolves := by
  refine .placed fun hplaced => ?_
  obtain ⟨body, hbody⟩ := exists_of_comment hplaced hk
  rw [comment, Machine.comment, Agrees.here_left, Agrees.info_right, Agrees.currentText_right]
  refine .advance (.pure ?_)
  show _ = p.tree _
  simp only [List.head?_cons, Option.map_some, Option.getD_some, Machine.fromThird_of_comment hbody,
    Machine.withoutClosing, commentText, hbody, String.toList_ofList]
  rfl

/-- An exclamation mark starts a text exactly if it starts its bytes. -/
theorem head?_utf8Encode (cs : List Char) :
    (cs.flatMap String.utf8EncodeChar).head? = some 33 ↔ cs.head? = some '!' := by
  constructor
  · intro h
    have hmark : '!' ∈ (bytewise cs).head? := by
      rw [bytewise, ← List.map_flatMap, List.head?_map, h]
      rfl
    obtain ⟨c, hc, rfl | ⟨-, hwide⟩⟩ := head?_bytewise hmark
    · exact hc
    · exact absurd hwide (by decide)
  · intro h
    cases cs with
    | nil => cases h
    | cons c cs =>
      obtain rfl := Option.some.inj h
      rfl

/-- The third byte of a comment is looked up in the whole text. -/
theorem Machine.run_keeps (hplaced : Placed p before (token :: tokens))
    (hk : token.kind = .comment) :
    keeps p token.span c = some (.ok (isKept token, c)) := by
  obtain ⟨body, hbody⟩ := exists_of_comment hplaced hk
  have hsize : token.start + 2 < 2 ^ 32 := by
    have := hplaced.tail.size_lt
    rw [Text.byteLength_append, ← hplaced.start_eq, hbody] at this
    have hopening : Text.byteLength ('/' :: '*' :: body) = 2 + Text.byteLength body :=
      Text.byteLength_append ['/', '*'] body
    omega
  have hbyte : byteAt p (token.start + 2) =
      ((body ++ tokenChars tokens).flatMap String.utf8EncodeChar).head? := by
    have htext : p.text.toList = (before ++ ['/', '*']) ++ (body ++ tokenChars tokens) := by
      rw [hplaced.text, tokenChars_cons, hbody]
      simp
    have hlength : ((before ++ ['/', '*']).flatMap String.utf8EncodeChar).length =
        token.start + 2 := by
      rw [length_utf8Encode, Text.byteLength_append, hplaced.start_eq]
      rfl
    rw [byteAt, toList_toByteArray, htext, List.flatMap_append, ← hlength,
      List.getElem?_append_right Nat.le.refl, Nat.sub_self, List.head?_eq_getElem?]
  have hkept : byteAt p (token.start + 2) = some 33 ↔ isKept token = true := by
    rw [hbyte, head?_utf8Encode, isKept, hbody, decide_eq_true_iff]
    cases body with
    | nil =>
      have hend := hplaced.openEnd [] token tokens rfl hk (by rw [hbody]; rfl)
      rw [hend]
      simp
    | cons d body => rfl
  rw [keeps, run_bind, Token.span_start, run_size hsize,
    Bool.eq_iff_iff.2 (hkept.symm.trans decide_eq_true_iff.symm)]
  rfl

/-! ## Style sheets -/

section
variable {sheet : Parser Tree}

theorem Source.tree_atrule (info : Option Nat) (name : String) (expression body : Option Tree) :
    p.tree (.atrule info name expression body) =
      .atrule (info.bind p.info) name (expression.map p.tree) (body.map p.tree) := by
  cases expression <;> cases body <;> rfl

theorem agrees_atruleBody (hinner : NestedAgrees p total n inner)
    (hsheet : ∀ {before tokens}, tokens.length < n →
      Agrees p total before tokens sheet (Machine.stylesheet p true) p.Resolves)
    (hn : tokens.length < n + 1) :
    Agrees p total before tokens (atruleBody inner sheet) (Machine.atruleBody p)
      fun body body' _ _ => body' = body.map p.tree := by
  rw [atruleBody, Machine.atruleBody, Agrees.kind?_left, Agrees.kind?_right]
  cases tokens with
  | nil => exact .pure rfl
  | cons token rest =>
    rw [List.length_cons] at hn
    simp only [List.head?_cons, Option.map_some]
    cases token.kind with
    | semicolon => exact .advance (.pure rfl)
    | leftBrace =>
      have hclose : ∀ {read : Parser Tree} {m : Action (Node SourceInfo)},
          Agrees p total (before ++ token.text.toList) rest read m p.Resolves →
            Agrees p total (before ++ token.text.toList) rest
              (do let node ← read; expect .rightBrace; return some node)
              (do let node ← m; Machine.expect p .rightBrace; return some node)
              fun body body' _ _ => body' = body.map p.tree := by
        intro read m hread
        refine hread.bind ?_
        rintro node _ w rest₁ rfl
        exact .expect fun closing rest₂ _ _ => .pure rfl
      refine .advance (.get fun _ => (Agrees.right_iff fun _ _ hc => Machine.run_isBlock hc).2 ?_)
      exact .ite (fun _ => hclose (agrees_block hinner (by omega))) fun _ =>
        hclose (hsheet (by omega))
    | _ => exact .fail

theorem agrees_atrule (hinner : NestedAgrees p total n inner)
    (hsheet : ∀ {before tokens}, tokens.length < n →
      Agrees p total before tokens sheet (Machine.stylesheet p true) p.Resolves)
    (hn : tokens.length < n + 1) :
    Agrees p total before tokens (atrule inner sheet) (Machine.atrule p) p.Resolves := by
  rw [atrule, Machine.atrule]
  refine .expect fun sign rest htokens _ => ?_
  rw [htokens, List.length_cons] at hn
  rw [Agrees.here_left, Agrees.info_right]
  refine ((agrees_readIdent false).reads (settles_readName false) (Nat.lt_succ_self _)).bind ?_
  rintro name _ w rest₁ ⟨rfl, hlt⟩
  refine ((agrees_atruleExpression hinner (by omega)).reads
    (settles_atruleExpression hinner.settles) (by omega)).bind ?_
  rintro expression _ w₁ rest₂ ⟨rfl, hle⟩
  refine (agrees_atruleBody hinner hsheet (by omega)).bind ?_
  rintro body _ w₂ rest₃ rfl
  refine .pure ?_
  rw [Source.Resolves, Source.tree_atrule]
  rfl

theorem Machine.rulesLoop_eq {nested : Bool} (nodes : List (Node SourceInfo)) :
    Machine.rulesLoop p nested nodes =
    Machine.once (Machine.rulesRound p nested nodes) (Machine.rulesLoop p nested) nodes := by
  rw [rulesLoop]
  exact eq_once rfl (fun _ => rfl) (fun _ => rfl) fun _ _ => rfl

theorem agrees_rulesRound (hinner : NestedAgrees p total n inner)
    (hsheet : ∀ {before tokens}, tokens.length < n →
      Agrees p total before tokens sheet (Machine.stylesheet p true) p.Resolves)
    (hn : (token :: tokens).length < n + 1) (nested : Bool) (items : List Tree) :
    RoundAgrees p total before (token :: tokens) p.Collects items
      (rulePart inner sheet nested token)
      (Machine.rulesRound p nested (items.map p.tree) token.span) := by
  rw [rulePart, Machine.rulesRound, Token.span_kind]
  cases hk : token.kind with
  | whitespace => exact RoundAgrees.skip
  | comment =>
    refine (Agrees.right_iff fun c hplaced _ => Machine.run_keeps hplaced hk).2 ?_
    exact RoundAgrees.ite (fun _ => .skip) fun _ => .add (agrees_comment hk)
  | unknown => exact RoundAgrees.add (agrees_tokenLeaf .unknown)
  | commercialAt => exact RoundAgrees.add (agrees_atrule hinner hsheet hn)
  | rightBrace => exact RoundAgrees.ite (fun _ => .stop) fun _ => .fail
  | _ => exact RoundAgrees.add (agrees_ruleset hinner hn)

theorem agrees_stylesheet (hinner : NestedAgrees p total n inner) (hsettles : Settles n 0 sheet)
    (hsheet : ∀ {before tokens}, tokens.length < n →
      Agrees p total before tokens sheet (Machine.stylesheet p true) p.Resolves) (nested : Bool)
    (hn : tokens.length < n + 1) :
    Agrees p total before tokens (styleSheet inner sheet nested) (Machine.stylesheet p nested)
      p.Resolves := by
  rw [styleSheet, Machine.stylesheet, Agrees.here_left, Agrees.info_right]
  refine (agrees_many Machine.rulesLoop_eq
    (fun _ => roundSettles_rulePart hinner.settles hsettles nested)
    (fun hn => agrees_rulesRound hinner hsheet hn nested _) hn).bind ?_
  rintro nodes _ w rest rfl
  refine .pure ?_
  rw [Source.Resolves, Source.tree_sequence]

end

/-! ## Productions -/

theorem NestedAgrees.weaken {m : Nat} (h : NestedAgrees p total n inner) (hm : m ≤ n) :
    NestedAgrees p total m inner where
  settles := h.settles.weaken hm
  component := fun scope hn => h.component scope (hn.trans_le hm)
  brackets := fun scope hn => h.brackets scope (hn.trans_le hm)
  fallback := fun hn => h.fallback (hn.trans_le hm)
  negated := fun hn => h.negated (hn.trans_le hm)
  entered := h.entered.weaken hm Nat.le.refl
  left := h.left

/-- The rules in the bodies of at-rules, to any depth. -/
theorem agrees_nestedSheet (hinner : NestedAgrees p total n inner) {depth : Nat} (h : depth ≤ n)
    (hn : tokens.length < depth) :
    Agrees p total before tokens (nestedSheet inner depth) (Machine.stylesheet p true)
      p.Resolves := by
  induction depth generalizing before tokens with
  | zero => cases hn
  | succ depth ih =>
    have hle := Nat.le_of_succ_le h
    exact agrees_stylesheet (hinner.weaken hle) (settles_nestedSheet hinner.settles hle)
      (fun hn => ih hle hn) true hn

/-- **The machine does what the readers do in every context.** -/
theorem agrees_production (context : Context) {size : Nat} (hn : tokens.length < size + 1) :
    Agrees p total before tokens (context.production size) (Machine.production p context)
      p.Resolves := by
  have hdeep : NestedAgrees p total (size + 1) (.upTo (size + 1)) := nestedAgrees_upTo (size + 1)
  have hinner := hdeep.weaken (Nat.le_succ size)
  have hsheet : ∀ {before tokens}, tokens.length < size → Agrees p total before tokens
      (nestedSheet (.upTo (size + 1)) (size + 1)) (Machine.stylesheet p true) p.Resolves :=
    fun hn => agrees_nestedSheet hdeep Nat.le.refl (Nat.lt_of_lt_of_le hn (Nat.le_succ size))
  have hsettles :=
    (settles_nestedSheet hdeep.settles Nat.le.refl).weaken (Nat.le_succ size) Nat.le.refl
  cases context with
  | stylesheet => exact agrees_stylesheet hinner hsettles hsheet false hn
  | atrule => exact agrees_atrule hinner hsheet hn
  | atruleExpression => exact agrees_atruleExpression hinner hn
  | ruleset => exact agrees_ruleset hinner hn
  | selector => exact agrees_selector hinner hn
  | simpleSelector => exact agrees_simpleSelector hinner false hn
  | block => exact agrees_block hinner hn
  | declaration => exact agrees_declaration hinner hn
  | property => exact agrees_property
  | value => exact agrees_value hinner false hn

end StyleTree
