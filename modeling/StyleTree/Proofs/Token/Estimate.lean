import StyleTree.Proofs.Token.History

/-! Room for the tokens of a text. The scanner makes room for one token more than the text has
changes of class, where each quote and each punctuator counts as a change. Not every token starts at
a change: there is none between a blank that an escape takes in, or that ends a line of its own, and
the blanks after it, which are a token. But a lexeme that the next one follows without a change
holds a second change (`Reads.seam`), and this change pays for the start of the next one
(`Reads.classChanges_lt`). So there are never more tokens than changes (`length_coresFrom_le`), and
the table of tokens never has to grow. The main statement is `TokenTable.fitsEstimate_ofText`. -/

namespace StyleTree

/-! ## Changes of class -/

/-- The character is counted as a change after one of class `previous`. -/
def StartsChange (previous : Option CharClass) (c : Char) : Prop :=
  previous = some (CharClass.ofChar c) → (CharClass.ofChar c).standsAlone = true

section
variable {previous : Option CharClass} {cls : CharClass} {c : Char} {cs v w : List Char}

theorem classChanges_cons_of_startsChange (h : StartsChange previous c) (cs : List Char) :
    classChanges previous (c :: cs) = 1 + classChanges (some (CharClass.ofChar c)) cs := by
  have hcounted :
      (decide (previous ≠ some (CharClass.ofChar c)) || (CharClass.ofChar c).standsAlone) =
        true := by
    rw [Bool.or_eq_true, decide_eq_true_iff, ← imp_iff_not_or]
    exact h
  rw [classChanges, if_pos hcounted]

theorem classChanges_cons_of_not_startsChange (h : ¬StartsChange previous c) (cs : List Char) :
    classChanges previous (c :: cs) = classChanges (some (CharClass.ofChar c)) cs := by
  obtain ⟨hsame, halone⟩ := Classical.not_imp.1 h
  simp [classChanges, hsame, halone]

theorem startsChange_none (c : Char) : StartsChange none c :=
  nofun

theorem StartsChange.of_ne (h : cls ≠ CharClass.ofChar c) : StartsChange (some cls) c :=
  fun hsame => absurd (Option.some.inj hsame) h

/-- After a quote or a punctuator, every character is a change. -/
theorem StartsChange.of_standsAlone (h : cls.standsAlone = true) (c : Char) :
    StartsChange (some cls) c := by
  intro hsame
  rwa [← Option.some.inj hsame]

/-- The changes of a text in two parts, where the second part goes on after the last class of the
first one. -/
theorem classChanges_append (previous : Option CharClass) (w rest : List Char) :
    classChanges previous (w ++ rest) = classChanges previous w +
      classChanges ((w.getLast?.map CharClass.ofChar).or previous) rest := by
  induction w generalizing previous with
  | nil => exact (Nat.zero_add _).symm
  | cons c w ih =>
    have hlast : ((c :: w).getLast?.map CharClass.ofChar).or previous =
        (w.getLast?.map CharClass.ofChar).or (some (CharClass.ofChar c)) := by
      rw [List.getLast?_cons]
      cases w.getLast? <;> rfl
    rw [List.cons_append, classChanges, classChanges, ih, hlast, Nat.add_assoc]

theorem classChanges_eq_of_startsChange (h : ∀ c ∈ cs.head?, StartsChange previous c) :
    classChanges previous cs = classChanges none cs := by
  cases cs with
  | nil => rfl
  | cons c cs =>
    rw [classChanges_cons_of_startsChange (h c rfl),
      classChanges_cons_of_startsChange (startsChange_none c)]

/-- What comes before a text changes at most whether its first character is counted. -/
theorem classChanges_none_le (previous : Option CharClass) (cs : List Char) :
    classChanges none cs ≤ 1 + classChanges previous cs := by
  cases cs with
  | nil => exact Nat.zero_le _
  | cons c cs =>
    rw [classChanges_cons_of_startsChange (startsChange_none c)]
    by_cases hc : StartsChange previous c
    · rw [classChanges_cons_of_startsChange hc]
      omega
    · rw [classChanges_cons_of_not_startsChange hc]

theorem classChanges_pos (h : cs ≠ []) : 0 < classChanges none cs := by
  obtain ⟨c, cs, rfl⟩ := List.exists_cons_of_ne_nil h
  rw [classChanges_cons_of_startsChange (startsChange_none c)]
  omega

/-- Characters of one class hold no change, unless each stands alone. -/
theorem classChanges_append_of_forall (halone : cls.standsAlone = false)
    (hw : ∀ c ∈ w, CharClass.ofChar c = cls) (rest : List Char) :
    classChanges (some cls) (w ++ rest) = classChanges (some cls) rest := by
  induction w with
  | nil => rfl
  | cons c w ih =>
    obtain ⟨rfl, hw⟩ := List.forall_mem_cons.1 hw
    have hsame : ¬StartsChange (some (CharClass.ofChar c)) c := fun h => by
      rw [h rfl] at halone
      exact nomatch halone
    rw [List.cons_append, classChanges_cons_of_not_startsChange hsame, ih hw]

/-- Where there is no change, every character has the class of the one before. -/
theorem forall_of_classChanges_eq_zero (h : classChanges (some cls) cs = 0) :
    ∀ c ∈ cs, CharClass.ofChar c = cls := by
  induction cs with
  | nil => exact nofun
  | cons c cs ih =>
    by_cases hc : StartsChange (some cls) c
    · rw [classChanges_cons_of_startsChange hc] at h
      omega
    · rw [classChanges_cons_of_not_startsChange hc] at h
      obtain ⟨hsame, -⟩ := Classical.not_imp.1 hc
      obtain rfl := Option.some.inj hsame
      exact List.forall_mem_cons.2 ⟨rfl, ih h⟩

/-- A text whose last character is of another class than the first one holds two changes. -/
theorem two_le_classChanges {last : Char} (hlast : last ∈ (c :: v).getLast?)
    (hne : CharClass.ofChar last ≠ CharClass.ofChar c) : 2 ≤ classChanges none (c :: v) := by
  rw [classChanges_cons_of_startsChange (startsChange_none c)]
  have hinner : classChanges (some (CharClass.ofChar c)) v ≠ 0 := by
    intro hzero
    rcases List.mem_cons.1 (List.mem_of_getLast? hlast) with rfl | hmem
    · exact hne rfl
    · exact hne (forall_of_classChanges_eq_zero hzero last hmem)
  omega

/-- So does a text that starts with a quote or a punctuator and goes on. -/
theorem two_le_classChanges_of_standsAlone (hc : (CharClass.ofChar c).standsAlone = true) (d : Char)
    (v : List Char) : 2 ≤ classChanges none (c :: d :: v) := by
  rw [classChanges_cons_of_startsChange (startsChange_none c),
    classChanges_cons_of_startsChange (.of_standsAlone hc d)]
  omega

end

/-! ## Each lexeme pays for itself -/

/-- What follows a text starts with a change. -/
def ChangesAt (w rest : List Char) : Prop :=
  ∀ last ∈ w.getLast?, ∀ d ∈ rest.head?, StartsChange (some (CharClass.ofChar last)) d

theorem IdentifierState.endsIdentifier_of_stepPlain {c : Char} (h : stepPlain c = none) :
    endsIdentifier c = true := by
  rw [stepPlain] at h
  split at h
  next => cases h
  next =>
    split at h
    next hends => exact hends
    next => cases h

/-- Whatever a name ends with, only a blank, a quote or a punctuator can follow. -/
theorem IdentifierState.endsIdentifier_of_step {last : IdentifierState} {c : Char}
    (h : last.step c = none) :
    endsIdentifier c = true := by
  cases last with
  | plain => exact endsIdentifier_of_stepPlain h
  | escape => exact absurd h (step_escape_ne_none c)
  | slashes | carriageReturn =>
    rw [step] at h
    split at h
    · cases h
    · exact endsIdentifier_of_stepPlain h
  | hex digits =>
    rw [step] at h
    split at h
    · cases h
    · split at h
      · cases h
      · split at h
        · cases h
        · exact endsIdentifier_of_stepPlain h

theorem standsAlone_of_endsIdentifier {c : Char} (h : endsIdentifier c = true)
    (hblank : CharClass.ofChar c ≠ .whitespace) : (CharClass.ofChar c).standsAlone = true := by
  rw [endsIdentifier] at h
  cases hclass : CharClass.ofChar c with
  | whitespace => exact absurd hclass hblank
  | identifier | number => rw [hclass] at h; cases h
  | string | punctuator => rfl

/-- A run of characters of one class ends at a change. -/
theorem ChangesAt.of_run {cls : CharClass} {c : Char} {v rest : List Char}
    (hc : CharClass.ofChar c = cls)
    (hv : v.foldlM (stepWhile fun d => CharClass.ofChar d = cls) () = some ())
    (hrest : Stops (stepWhile fun d => CharClass.ofChar d = cls) () rest) :
    ChangesAt (c :: v) rest := by
  intro last hlast d hd
  have hrun : ∀ e ∈ c :: v, CharClass.ofChar e = cls :=
    List.forall_mem_cons.2 ⟨hc, fun e he => of_decide_eq_true (foldlM_stepWhile.1 hv e he)⟩
  have hend : CharClass.ofChar d ≠ cls := of_decide_eq_false (stepWhile_eq_none.1 (hrest d hd))
  have hlast := hrun last (List.mem_of_getLast? hlast)
  exact .of_ne fun hsame => hend (hsame.symm.trans hlast)

section
variable {state : ScanState} {kind : TokenKind} {w rest : List Char}

/-- The lexeme after a lexeme starts with a change, or else the lexeme holds two changes. -/
theorem Reads.seam (h : Reads state kind w rest) : ChangesAt w rest ∨ 2 ≤ classChanges none w := by
  cases h with
  | blanks hc hv hrest => exact .inl (.of_run hc hv hrest)
  | digits hc hv hrest => exact .inl (.of_run hc hv hrest)
  | @quoted _ v _ _ hc hv hrest =>
    cases v with
    | nil =>
      -- A quote alone is a string without an end, and nothing follows it.
      obtain rfl := Option.some.inj hv
      obtain rfl := hrest.eq_nil (StringState.step_ne_none nofun)
      exact .inl fun _ _ _ => nofun
    | cons d v => exact .inr (two_le_classChanges_of_standsAlone (by rw [hc]; rfl) d v)
  | @name c v _ _ hc _ hrest =>
    by_cases hblank : ∃ last ∈ (c :: v).getLast?, CharClass.ofChar last = .whitespace
    · -- The name ends with a blank that an escape takes in, so its class changes after the first
      -- character.
      obtain ⟨last, hlast, hclass⟩ := hblank
      exact .inr (two_le_classChanges hlast (by rw [hc, hclass]; nofun))
    · refine .inl fun last hlast d hd => ?_
      by_cases hnext : CharClass.ofChar d = .whitespace
      · exact .of_ne fun hsame => hblank ⟨last, hlast, hsame.trans hnext⟩
      · exact fun _ =>
          standsAlone_of_endsIdentifier (IdentifierState.endsIdentifier_of_step (hrest d hd)) hnext
  | comment | line | slashedName => exact .inr (two_le_classChanges_of_standsAlone rfl _ _)
  | sign hc =>
    refine .inl fun last hlast d _ => ?_
    obtain rfl := List.mem_singleton.1 (List.mem_of_getLast? hlast)
    exact .of_standsAlone (by rw [hc]; rfl) d

/-- A lexeme takes up a change: a text holds more of them than what follows its first lexeme. -/
theorem Reads.classChanges_lt (h : Reads state kind w rest) :
    classChanges none rest < classChanges none (w ++ rest) := by
  rw [classChanges_append, Option.or_none]
  have hlast := List.getLast?_eq_some_getLast h.ne_nil
  rcases h.seam with hseam | htwo
  · have hrest : classChanges (w.getLast?.map CharClass.ofChar) rest = classChanges none rest := by
      rw [hlast]
      exact classChanges_eq_of_startsChange (hseam _ hlast)
    have hpos := classChanges_pos h.ne_nil
    omega
  · have hrest := classChanges_none_le (w.getLast?.map CharClass.ofChar) rest
    omega

end

/-- There are never more lexemes than changes of class. -/
theorem length_coresFrom_le (state : ScanState) (cs : List Char) :
    (coresFrom state cs).length ≤ classChanges none cs := by
  generalize hcores : coresFrom state cs = cores
  induction cores generalizing state cs with
  | nil => exact Nat.zero_le _
  | cons core cores ih =>
    obtain ⟨rest, rfl, hread, hrest⟩ := coresFrom_eq_cons hcores
    calc (core :: cores).length
      _ = cores.length + 1 := rfl
      _ ≤ classChanges none rest + 1 := Nat.succ_le_succ (ih _ rest hrest.symm)
      _ ≤ classChanges none (core.2 ++ rest) := hread.classChanges_lt

/-! ## The estimate over bytes -/

/-- The changes are the same where the bytes of the encoded text are counted. -/
theorem classChanges_bytewise (previous : Option CharClass) (cs : List Char) :
    classChanges previous (bytewise cs) = classChanges previous cs := by
  induction cs generalizing previous with
  | nil => rfl
  | cons c cs ih =>
    rw [bytewise_cons]
    by_cases hc : isWide c
    · -- The first byte stands for the character, and the others are of its class.
      obtain ⟨d, ds, hencode, hwide⟩ := encode_of_isWide hc
      obtain ⟨hd, hds⟩ := List.forall_mem_cons.1 hwide
      rw [hencode, List.cons_append, classChanges, classChanges, ofChar_of_isWide hc,
        ofChar_of_isWide hd,
        classChanges_append_of_forall rfl fun e he => ofChar_of_isWide (hds e he), ih]
    · rw [encode_of_not_isWide (by simpa using hc), List.singleton_append, classChanges,
        classChanges, ih]

/-- The estimate over the bytes of the encoded text from an offset on, each of which has a class of
its own. -/
def byteEstimate (text : String) (origin : Nat) : Nat :=
  estimateTokenCount ((text.toByteArray.data.toList.drop origin).map byteChar)

theorem byteEstimate_eq (text : String) :
    byteEstimate text (originOf text.toList) = estimateTokenCount (withoutMark text.toList) := by
  rw [byteEstimate, map_byteChar_drop_originOf, estimateTokenCount, classChanges_bytewise,
    estimateTokenCount]

/-! ## A table that never grows -/

/-- Adds a token to a table that has room for `capacity` tokens. There is no result where it would
have to grow. -/
def pushWithin (capacity : Nat) (tokens : Array Token) (token : Token) : Option (Array Token) :=
  if tokens.size < capacity then some (tokens.push token) else none

/-- Scans a text into a table that has room for `capacity` tokens from the start and does not
grow. -/
def scanWithin (capacity : Nat) (text : String) (inBlock : Bool) : Option (Array Token) :=
  (lexemesOf text inBlock).foldlM
    (fun tokens (offset, lexeme) => pushWithin capacity tokens (lexeme.token offset))
    (Array.emptyWithCapacity capacity)

theorem foldlM_pushWithin {capacity : Nat} {table : Array Token} {tokens : List Token}
    (h : table.size ≤ capacity) :
    tokens.foldlM (pushWithin capacity) table =
      if table.size + tokens.length ≤ capacity then some (table ++ tokens.toArray) else none := by
  induction tokens generalizing table with
  | nil => rw [List.length_nil, Nat.add_zero, if_pos h, Array.append_empty]; rfl
  | cons token tokens ih =>
    rw [List.foldlM_cons, List.length_cons]
    by_cases hroom : table.size < capacity
    · have hpush : pushWithin capacity table token = some (table.push token) := if_pos hroom
      have hsize : (table.push token).size = table.size + 1 := Array.size_push token
      have htable : table.push token ++ tokens.toArray = table ++ (token :: tokens).toArray := by
        simp
      rw [hpush, Option.bind_eq_bind, Option.bind_some, ih (by omega), htable, hsize,
        Nat.add_right_comm, Nat.add_assoc]
    · have hfull : pushWithin capacity table token = none := if_neg hroom
      rw [hfull, if_neg (by omega)]
      rfl

namespace TokenTable

variable (text : String) (inBlock : Bool)

/-- The table takes in all tokens of the text if it has room for them, and is full before the last
one otherwise. -/
theorem scanWithin_eq (capacity : Nat) : scanWithin capacity text inBlock =
    if (ofText text inBlock).tokens.size ≤ capacity then some (ofText text inBlock).tokens
      else none := by
  have hfold : scanWithin capacity text inBlock =
      (ofText text inBlock).tokens.toList.foldlM (pushWithin capacity) #[] := by
    rw [toList_tokens_ofText, List.foldlM_map]
    rfl
  rw [hfold, foldlM_pushWithin (Nat.zero_le capacity), Array.size_empty, Nat.zero_add,
    Array.length_toList, Array.empty_append, Array.toArray_toList]

theorem size_tokens_le :
    (ofText text inBlock).tokens.size ≤ classChanges none (withoutMark text.toList) := by
  have hcores := congrArg List.length (scans_ofText text inBlock).cores
  rw [List.length_map, Array.length_toList] at hcores
  rw [hcores]
  exact length_coresFrom_le _ _

/-- The tokens of a table fit into the room that is estimated from the bytes of a text. -/
structure FitsEstimate (table : TokenTable) (text : String) (inBlock : Bool) : Prop where
  origin : table.origin = if text.toList.head? = some '\ufeff' then 3 else 0
  size_le : table.tokens.size ≤ byteEstimate text table.origin
  /-- It makes no difference whether the estimate is over bytes or over characters. -/
  bytes : byteEstimate text table.origin = estimateTokenCount (withoutMark text.toList)
  /-- A table of that room holds every token when the scanner adds it. -/
  filled : scanWithin (byteEstimate text table.origin) text inBlock = some table.tokens

/-- **The estimate is an upper bound**, for every text, inside of a block or outside. -/
theorem fitsEstimate_ofText : (ofText text inBlock).FitsEstimate text inBlock := by
  have hbytes : byteEstimate text (ofText text inBlock).origin =
      estimateTokenCount (withoutMark text.toList) :=
    byteEstimate_eq text
  have hsize : (ofText text inBlock).tokens.size ≤
      byteEstimate text (ofText text inBlock).origin := by
    have hle := size_tokens_le text inBlock
    rw [hbytes, estimateTokenCount]
    omega
  have hfilled := (scanWithin_eq text inBlock _).trans (if_pos hsize)
  exact ⟨originOf_eq text.toList, hsize, hbytes, hfilled⟩

/-- The second blank starts a token where the class does not change; the first one is a part of the
escape. -/
example : (ofText "\\41  b" false).tokens.toList.map Token.text = ["\\41 ", " ", "b"] ∧
    classChanges none "\\41  b".toList = 4 := by decide

end TokenTable
end StyleTree
