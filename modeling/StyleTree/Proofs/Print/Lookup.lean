import StyleTree.Parse
import StyleTree.Proofs.Print.Mappings
import StyleTree.Proofs.Token.Tiling

/-!
# Looking up where text comes from

A reader of a source map takes for the origin of a byte what the last mapping at or before it says.
That is the position of the group that wrote the byte if the tree is `Traceable`: positioned text at
the line and column of the last positioned text before directly follows text of the same position.
Otherwise no mapping is added where one is due, and some byte is looked up wrongly
(`Node.originsRead_eq_iff`).
-/

namespace StyleTree

/-! ## The places of bytes -/

namespace OutputPosition

/-- The place after a byte. -/
def pushByte (position : OutputPosition) (byte : UInt8) : OutputPosition :=
  if byte = 10 then ⟨position.line + 1, 0⟩ else ⟨position.line, position.column + 1⟩

/-- The places of bytes that are written from a place on. -/
def placesFrom (position : OutputPosition) : List UInt8 → List OutputPosition
  | [] => []
  | byte :: bytes => position :: placesFrom (position.pushByte byte) bytes

theorem lt_pushByte (position : OutputPosition) (byte : UInt8) :
    position < position.pushByte byte := by
  rw [pushByte]
  split
  · exact .inl (Nat.lt_succ_self _)
  · exact .inr ⟨rfl, Nat.lt_succ_self _⟩

theorem length_placesFrom (position : OutputPosition) (bytes : List UInt8) :
    (position.placesFrom bytes).length = bytes.length := by
  induction bytes generalizing position with
  | nil => rfl
  | cons byte bytes ih => simp [placesFrom, ih]

theorem placesFrom_append (position : OutputPosition) (bytes bytes' : List UInt8) :
    position.placesFrom (bytes ++ bytes') =
      position.placesFrom bytes ++ (bytes.foldl pushByte position).placesFrom bytes' := by
  induction bytes generalizing position with
  | nil => rfl
  | cons byte bytes ih => simp [placesFrom, ih]

theorem le_foldl_pushByte (position : OutputPosition) (bytes : List UInt8) :
    position ≤ bytes.foldl pushByte position := by
  induction bytes generalizing position with
  | nil => exact position.le_refl
  | cons byte bytes ih => exact le_trans (le_of_lt (position.lt_pushByte byte)) (ih _)

theorem bounds_of_mem_placesFrom {position place : OutputPosition} {bytes : List UInt8}
    (h : place ∈ position.placesFrom bytes) :
    position ≤ place ∧ place < bytes.foldl pushByte position := by
  induction bytes generalizing position with
  | nil => simp [placesFrom] at h
  | cons byte bytes ih =>
    rcases List.mem_cons.1 h with rfl | h
    · exact ⟨place.le_refl, lt_of_lt_of_le (place.lt_pushByte byte) (le_foldl_pushByte _ _)⟩
    · obtain ⟨hle, hlt⟩ := ih h
      exact ⟨le_trans (le_of_lt (position.lt_pushByte byte)) hle, hlt⟩

theorem foldl_pushByte_of_ne {bytes : List UInt8} (h : ∀ byte ∈ bytes, byte ≠ 10)
    (position : OutputPosition) :
    bytes.foldl pushByte position = ⟨position.line, position.column + bytes.length⟩ := by
  induction bytes generalizing position with
  | nil => rfl
  | cons byte bytes ih =>
    obtain ⟨hbyte, h⟩ := List.forall_mem_cons.1 h
    rw [List.foldl_cons, ih h, pushByte, if_neg hbyte, List.length_cons]
    congr 1
    simp only
    omega

/-- No byte of another character is that of a line feed. -/
theorem ne_of_mem_encode {c : Char} (hc : c ≠ '\n') :
    ∀ byte ∈ String.utf8EncodeChar c, byte ≠ 10 := by
  rintro byte hbyte rfl
  have hmem : byteChar 10 ∈ (String.utf8EncodeChar c).map byteChar := List.mem_map_of_mem hbyte
  cases hwide : isWide c with
  | false =>
    rw [encode_of_not_isWide hwide, List.mem_singleton] at hmem
    exact hc (hmem.symm.trans (by decide))
  | true =>
    obtain ⟨d, ds, hencode, hall⟩ := encode_of_isWide hwide
    rw [hencode] at hmem
    exact absurd (hall _ hmem) (by decide)

theorem foldl_pushByte_encode (position : OutputPosition) (c : Char) :
    (String.utf8EncodeChar c).foldl pushByte position = position.push c := by
  rw [push]
  split
  · rename_i hc
    subst hc
    rfl
  · rename_i hc
    rw [foldl_pushByte_of_ne (ne_of_mem_encode hc), String.length_utf8EncodeChar]

theorem foldl_pushByte_encodeAll (position : OutputPosition) (cs : List Char) :
    (cs.flatMap String.utf8EncodeChar).foldl pushByte position = position.advance cs := by
  induction cs generalizing position with
  | nil => rfl
  | cons c cs ih => rw [List.flatMap_cons, List.foldl_append, foldl_pushByte_encode, ih]; rfl

end OutputPosition

/-! ## What a reader of the map finds -/

/-- What the last mapping at or before a place says, and `current` where there is none. -/
def originFrom (current : Option SourcePosition) (mappings : List Mapping)
    (place : OutputPosition) : Option SourcePosition :=
  ((mappings.filter fun mapping => mapping.generated ≤ place).getLast?.map Mapping.origin).getD
    current

theorem originFrom_eq_current {current : Option SourcePosition} {mappings : List Mapping}
    {place : OutputPosition} (h : ∀ mapping ∈ mappings, place < mapping.generated) :
    originFrom current mappings place = current := by
  have hnone : mappings.filter (fun mapping => mapping.generated ≤ place) = [] := by
    rw [List.filter_eq_nil_iff]
    intro mapping hmapping
    simpa using OutputPosition.not_le_of_lt (h mapping hmapping)
  rw [originFrom, hnone]
  rfl

theorem originFrom_append {current : Option SourcePosition} {mappings mappings' : List Mapping}
    {place : OutputPosition} (h : ∀ mapping ∈ mappings, mapping.generated ≤ place) :
    originFrom current (mappings ++ mappings') place =
      originFrom ((mappings.getLast?.map Mapping.origin).getD current) mappings' place := by
  have hall : mappings.filter (fun mapping => mapping.generated ≤ place) = mappings := by
    rw [List.filter_eq_self]
    intro mapping hmapping
    simpa using h mapping hmapping
  rw [originFrom, originFrom, List.filter_append, hall, List.getLast?_append]
  cases (mappings'.filter fun mapping => mapping.generated ≤ place).getLast? <;> rfl

/-- The origin of the text at a place: what the last mapping at or before it says. -/
def SourceMap.originAt (map : SourceMap) (place : OutputPosition) : Option SourcePosition :=
  (map.mappings.filter fun mapping => mapping.generated ≤ place).getLast?.bind Mapping.origin

theorem SourceMap.originAt_eq (map : SourceMap) : map.originAt = originFrom none map.mappings := by
  funext place
  rw [originAt, originFrom]
  cases (map.mappings.filter fun mapping => mapping.generated ≤ place).getLast? <;> rfl

/-! ## Text that takes up an earlier position -/

/-- The source position of the group that writes the fragment. -/
def Fragment.origin (fragment : Fragment SourceInfo) : Option SourcePosition :=
  fragment.owner.map SourceInfo.position

/-- The origins of the bytes of fragments in a row. -/
def byteOrigins (fragments : List (Fragment SourceInfo)) : List (Option SourcePosition) :=
  fragments.flatMap fun fragment =>
    List.replicate (Text.byteLength fragment.text.toList) fragment.origin

/-- The position of the last positioned fragment. -/
def lastOrigin (fragments : List (Fragment SourceInfo)) : Option SourcePosition :=
  (fragments.filterMap Fragment.origin).getLast?

theorem lastOrigin_concat (fragments : List (Fragment SourceInfo))
    (fragment : Fragment SourceInfo) :
    lastOrigin (fragments ++ [fragment]) = fragment.origin.or (lastOrigin fragments) := by
  rw [lastOrigin, List.filterMap_append, List.getLast?_append]
  cases horigin : fragment.origin <;> simp [horigin, lastOrigin]

/-- If the fragment is at the line and column of the last positioned one before it, it follows a
fragment of its own position. -/
def TakesUp (before : List (Fragment SourceInfo)) (fragment : Fragment SourceInfo) : Prop :=
  ∀ origin ∈ fragment.origin, ∀ last ∈ lastOrigin before,
    last.line = origin.line → last.column = origin.column →
      before.getLast?.bind Fragment.origin = some origin

/-- Each of the fragments takes up the position it follows, after those before. -/
def TraceableAfter (before fragments : List (Fragment SourceInfo)) : Prop :=
  ∀ i (h : i < fragments.length), TakesUp (before ++ fragments.take i) (fragments.get ⟨i, h⟩)

theorem traceableAfter_cons {before fragments : List (Fragment SourceInfo)}
    {fragment : Fragment SourceInfo} : TraceableAfter before (fragment :: fragments) ↔
      TakesUp before fragment ∧ TraceableAfter (before ++ [fragment]) fragments := by
  refine ⟨fun h => ⟨?_, fun i hi => ?_⟩, fun h i hi => ?_⟩
  · simpa using h 0 (Nat.zero_lt_succ _)
  · simpa using h (i + 1) (Nat.succ_lt_succ hi)
  · cases i with
    | zero => simpa using h.1
    | succ i => simpa using h.2 i (Nat.lt_of_succ_lt_succ hi)

/-- Whoever leaves positioned text and comes back to its line and column comes back to no other
text, and never after text without position. -/
def Node.Traceable (node : Node SourceInfo) : Prop :=
  TraceableAfter [] node.pieces

/-- The state of the map after fragments that a reader finds the positions of. -/
structure MapState.Knows (state : MapState) (before : List (Fragment SourceInfo)) : Prop where
  last : state.last = (lastOrigin before).map fun origin => (origin.line, origin.column)
  active : state.active = (before.getLast?.bind Fragment.origin).isSome

theorem MapState.Knows.after {state : MapState} {before : List (Fragment SourceInfo)}
    (h : state.Knows before) (fragment : Fragment SourceInfo) :
    (state.after fragment.owner fragment.text.toList).Knows (before ++ [fragment]) where
  last := by
    rw [lastOrigin_concat, Fragment.origin]
    cases howner : fragment.owner with
    | none => simpa [MapState.after] using h.last
    | some info => simp [MapState.after]
  active := by simp [MapState.after, Fragment.origin]

/-- A reader that knows the position of the text before finds that of the next fragment unless a
mapping is missing. -/
theorem MapState.Knows.origin_eq_iff {state : MapState} {before : List (Fragment SourceInfo)}
    (h : state.Knows before) (fragment : Fragment SourceInfo) :
    ((state.mapping? fragment.owner).map Mapping.origin).getD
        (before.getLast?.bind Fragment.origin) = fragment.origin ↔
      TakesUp before fragment := by
  cases horigin : fragment.owner.map SourceInfo.position with
  | none =>
    have hactive := h.active
    have htakes : TakesUp before fragment := by
      simp [TakesUp, Fragment.origin, horigin]
    have hmapping : (state.mapping? fragment.owner).map Mapping.origin =
        if state.active then some none else none := by
      rw [mapping?, horigin]
      cases state.active <;> rfl
    rw [hmapping, hactive, show fragment.origin = none from horigin]
    cases before.getLast?.bind Fragment.origin <;> simp [htakes]
  | some origin =>
    have hlast : state.last = some (origin.line, origin.column) ↔
        ∃ last ∈ lastOrigin before, last.line = origin.line ∧ last.column = origin.column := by
      simp [h.last]
    simp only [TakesUp, mapping?, Fragment.origin, horigin, Option.mem_some_iff, forall_eq']
    split
    · rename_i hsame
      obtain ⟨last, hmem, hline, hcolumn⟩ := hlast.1 hsame
      exact ⟨fun heq _ _ _ _ => heq, fun hall => hall last hmem hline hcolumn⟩
    · rename_i hother
      refine ⟨fun _ last hmem hline hcolumn => ?_, fun _ => rfl⟩
      exact absurd (hlast.2 ⟨last, hmem, hline, hcolumn⟩) hother

theorem byteLength_ne_zero {cs : List Char} (h : cs ≠ []) : Text.byteLength cs ≠ 0 := by
  cases cs with
  | nil => exact absurd rfl h
  | cons c cs =>
    have hpos := c.utf8Size_pos
    rw [Text.byteLength_cons]
    omega

theorem byteOrigins_cons (fragment : Fragment SourceInfo)
    (fragments : List (Fragment SourceInfo)) : byteOrigins (fragment :: fragments) =
      List.replicate (Text.byteLength fragment.text.toList) fragment.origin ++
        byteOrigins fragments := rfl

section

variable (state : MapState) (current : Option SourcePosition) (fragment : Fragment SourceInfo)
  (fragments : List (Fragment SourceInfo))

/-- From a fragment on, a reader takes what the fragment's mapping says, if it has one. -/
theorem originFrom_mappingsFrom_cons {place : OutputPosition} (h : state.position ≤ place) :
    originFrom current (mappingsFrom state (fragment :: fragments)) place =
      originFrom (((state.mapping? fragment.owner).map Mapping.origin).getD current)
        (mappingsFrom (state.after fragment.owner fragment.text.toList) fragments) place := by
  rw [mappingsFrom, originFrom_append]
  · cases state.mapping? fragment.owner <;> rfl
  · intro mapping hmapping
    rw [MapState.generated_of_mapping? (Option.mem_toList.1 hmapping)]
    exact h

theorem map_originFrom_fragment :
    (state.position.placesFrom (fragment.text.toList.flatMap String.utf8EncodeChar)).map
        (originFrom current (mappingsFrom state (fragment :: fragments))) =
      List.replicate (Text.byteLength fragment.text.toList)
        (((state.mapping? fragment.owner).map Mapping.origin).getD current) := by
  rw [List.eq_replicate_iff, List.length_map, OutputPosition.length_placesFrom, length_utf8Encode]
  refine ⟨rfl, fun origin horigin => ?_⟩
  obtain ⟨place, hplace, rfl⟩ := List.mem_map.1 horigin
  obtain ⟨hle, hlt⟩ := OutputPosition.bounds_of_mem_placesFrom hplace
  rw [OutputPosition.foldl_pushByte_encodeAll] at hlt
  rw [originFrom_mappingsFrom_cons _ _ _ _ hle, originFrom_eq_current]
  intro mapping hmapping
  exact OutputPosition.lt_of_lt_of_le hlt (le_of_mem_mappingsFrom hmapping)

theorem map_originFrom_rest (bytes : List UInt8) :
    ((state.position.advance fragment.text.toList).placesFrom bytes).map
        (originFrom current (mappingsFrom state (fragment :: fragments))) =
      ((state.after fragment.owner fragment.text.toList).position.placesFrom bytes).map
        (originFrom (((state.mapping? fragment.owner).map Mapping.origin).getD current)
          (mappingsFrom (state.after fragment.owner fragment.text.toList) fragments)) := by
  refine List.map_congr_left fun place hplace => ?_
  apply originFrom_mappingsFrom_cons
  exact OutputPosition.le_trans (OutputPosition.le_advance _ _)
    (OutputPosition.bounds_of_mem_placesFrom hplace).1

end

/-- Fragments are looked up one by one: the induction of the main result. -/
theorem map_originFrom_eq_iff {fragments before : List (Fragment SourceInfo)} {state : MapState}
    (hne : ∀ fragment ∈ fragments, fragment.text.toList ≠ []) (h : state.Knows before) :
    (state.position.placesFrom ((fragments.flatMap (·.text.toList)).flatMap
        String.utf8EncodeChar)).map
        (originFrom (before.getLast?.bind Fragment.origin) (mappingsFrom state fragments)) =
      byteOrigins fragments ↔ TraceableAfter before fragments := by
  induction fragments generalizing state before with
  | nil => simp [OutputPosition.placesFrom, byteOrigins, TraceableAfter]
  | cons fragment fragments ih =>
    obtain ⟨hfragment, hne⟩ := List.forall_mem_cons.1 hne
    rw [traceableAfter_cons, ← h.origin_eq_iff, ← ih hne (h.after fragment), byteOrigins_cons,
      List.flatMap_cons, List.flatMap_append, OutputPosition.placesFrom_append,
      OutputPosition.foldl_pushByte_encodeAll, List.map_append, map_originFrom_fragment,
      map_originFrom_rest]
    have hpos := byteLength_ne_zero hfragment
    refine ⟨fun heq => ?_, fun ⟨hsame, heq⟩ => ?_⟩
    · obtain ⟨hsame, heq⟩ := List.append_inj heq (by simp)
      have hsame := (List.replicate_inj.1 hsame).2.resolve_left hpos
      refine ⟨hsame, ?_⟩
      rw [hsame] at heq
      simpa using heq
    · rw [hsame]
      simpa using heq

/-- **A lookup is exact just in traceable trees**: every byte of the text is looked up as the source
position of the innermost group that writes it. -/
theorem Node.originsRead_eq_iff (node : Node SourceInfo) :
    (OutputPosition.placesFrom {} node.toMappedCss.text.toByteArray.data.toList).map
        node.toMappedCss.map.originAt = byteOrigins node.pieces ↔ node.Traceable := by
  rw [toList_toByteArray, SourceMap.originAt_eq, node.mappings_toMappedCss]
  have htext : node.toMappedCss.text.toList = node.pieces.flatMap (·.text.toList) := by
    rw [toMappedCss, Text.concat, String.toList_ofList, List.flatMap_map]
    rfl
  rw [htext]
  exact map_originFrom_eq_iff (fun fragment => Node.text_ne_nil_of_mem_pieces)
    (⟨rfl, rfl⟩ : MapState.Knows {} [])

/-- The closing brace of the at-rule is its own text, but no mapping leads back to the at-rule after
the rule set, which has no position: the brace is looked up as text from no source. -/
theorem originsRead_ne_of_empty_ruleset :
    let info := fun offset column => some (⟨"a.css", offset, 1, column⟩ : SourceInfo)
    let node : Node SourceInfo := .sequence (info 0 1) .styleSheet
      [.atrule (info 1 2) "m" (some (.sequence (info 2 3) .atruleExpression []))
        (some (.sequence (info 3 4) .styleSheet
          [.pair (info 3 4) .ruleset (.sequence (info 3 4) .selector [])
            (.sequence (info 3 4) .block [])]))]
    parse "@m\x7b\x7b\x7d\x7d" { positions := true, filename := "a.css" } = .ok node ∧
      (OutputPosition.placesFrom {} node.toMappedCss.text.toByteArray.data.toList).map
        node.toMappedCss.map.originAt ≠ byteOrigins node.pieces := by
  decide +kernel

end StyleTree
