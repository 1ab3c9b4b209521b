import Mathlib.Algebra.Group.Basic
import Mathlib.Algebra.Group.Int.Defs
import StyleTree.Proofs.Print.Mappings
import StyleTree.Proofs.Print.Vlq

/-!
# Reading version 3 mappings

A reader of the written mappings, `SourceMap.decodeMappings`: a semicolon starts the next line and
sets the column back, a comma is passed over, and a run of other characters is a segment of one or
four numbers, each relative to the number that the reader has last seen in its place. What the
library writes for the source map of a tree is read back as its mappings
(`SourceMap.decodeMappings_encodeMappings`).
-/

namespace StyleTree.SourceMap

/-! ## The reader -/

/-- What the numbers of the next segment are relative to. -/
structure DecodeState where
  line : Nat := 1
  column : Int := 0
  source : Int := 0
  /-- Counts from 0. -/
  originLine : Int := 0
  originColumn : Int := 0

/-- The mapping that the numbers of a segment stand for, and the state after them. -/
def decodeSegment (sources : List String) (state : DecodeState) :
    List Int → Option (Mapping × DecodeState)
  | [column] => do
    let next := { state with column := state.column + column }
    let column ← next.column.toNat?
    return (⟨⟨state.line, column⟩, none⟩, next)
  | [column, source, line, originColumn] => do
    let next := { state with
      column := state.column + column
      source := state.source + source
      originLine := state.originLine + line
      originColumn := state.originColumn + originColumn }
    let column ← next.column.toNat?
    let source ← sources[← next.source.toNat?]?
    let line ← (next.originLine + 1).toNat?
    let originColumn ← next.originColumn.toNat?
    return (⟨⟨state.line, column⟩, some ⟨source, line, originColumn⟩⟩, next)
  | _ => none

/-- Whether the character ends a segment. -/
def isSeparator (c : Char) : Bool :=
  c = ';' || c = ','

/-- Reads the mappings from a state on. -/
def decodeFrom (sources : List String) (state : DecodeState) (cs : List Char) :
    Option (List Mapping) :=
  match cs with
  | [] => some []
  | c :: cs =>
    if c = ';' then decodeFrom sources { state with line := state.line + 1, column := 0 } cs
    else if c = ',' then decodeFrom sources state cs
    else do
      let numbers ← Vlq.decodeAll (c :: cs.takeWhile (!isSeparator ·))
      let (mapping, state) ← decodeSegment sources state numbers
      let mappings ← decodeFrom sources state (cs.dropWhile (!isSeparator ·))
      return mapping :: mappings
termination_by cs.length
decreasing_by
  all_goals simp only [List.length_cons]
  · omega
  · omega
  · have := (List.dropWhile_suffix (l := cs) (!isSeparator ·)).length_le
    omega

/-- The mappings that a text stands for, by the names of the sources; `none` if it is no such
text. -/
def decodeMappings (sources : List String) (text : String) : Option (List Mapping) :=
  decodeFrom sources {} text.toList

/-! ## One segment -/

/-- The numbers of a mapping's segment. -/
def numbers (map : SourceMap) (state : EncodeState) (mapping : Mapping) : List Int :=
  (mapping.generated.column - state.column : Int) ::
    match mapping.origin with
    | none => []
    | some origin =>
      [((map.sources.idxOf? origin.source).getD 0 : Nat) - state.source,
        origin.line - 1 - state.originLine, origin.column - state.originColumn]

theorem segment_fst (map : SourceMap) (state : EncodeState) (mapping : Mapping) :
    (map.segment state mapping).1 = (map.numbers state mapping).flatMap Vlq.encode := by
  unfold segment numbers
  cases mapping.origin <;> simp [delta]

/-- The state of a reader that has read what was written. -/
def EncodeState.decoded (state : EncodeState) : DecodeState where
  line := state.line
  column := state.column
  source := state.source
  originLine := state.originLine
  originColumn := state.originColumn

theorem toNat?_natCast (n : Nat) : (n : Int).toNat? = some n := rfl

theorem getElem?_idxOf? {sources : List String} {name : String} (h : name ∈ sources) :
    sources[(sources.idxOf? name).getD 0]? = some name := by
  cases hindex : sources.idxOf? name with
  | none => exact absurd h (List.idxOf?_eq_none_iff.1 hindex)
  | some index =>
    obtain ⟨hlt, hname, -⟩ := List.idxOf?_eq_some_iff.1 hindex
    simp [hlt, hname]

theorem decodeSegment_numbers {map : SourceMap} {state : EncodeState} {mapping : Mapping}
    (hline : mapping.generated.line = state.line)
    (hsource : ∀ origin, mapping.origin = some origin → origin.source ∈ map.sources) :
    decodeSegment map.sources state.decoded (map.numbers state mapping) =
      some (mapping, (map.segment state mapping).2.decoded) := by
  obtain ⟨⟨line, column⟩, origin⟩ := mapping
  obtain rfl : line = state.line := hline
  cases origin with
  | none =>
    simp [numbers, decodeSegment, EncodeState.decoded, segment, toNat?_natCast]
  | some origin =>
    have hname := getElem?_idxOf? (hsource origin rfl)
    simp [numbers, decodeSegment, EncodeState.decoded, segment, toNat?_natCast, hname]

/-! ## The segments of a map -/

theorem isSeparator_of_mem_segment (map : SourceMap) (state : EncodeState) (mapping : Mapping) :
    ∀ c ∈ (map.segment state mapping).1, isSeparator c = false := by
  have hall : (Vlq.alphabet.all fun c => !isSeparator c) = true := by decide
  have halphabet : ∀ c ∈ Vlq.alphabet, isSeparator c = false := by simpa using hall
  intro c hc
  rw [segment_fst] at hc
  obtain ⟨value, -, hc⟩ := List.mem_flatMap.1 hc
  exact halphabet c (Vlq.mem_alphabet_of_mem_encode hc)

theorem segment_ne_nil (map : SourceMap) (state : EncodeState) (mapping : Mapping) :
    (map.segment state mapping).1 ≠ [] := by
  rw [segment_fst, numbers, List.flatMap_cons]
  exact List.append_ne_nil_of_left_ne_nil (Vlq.encode_ne_nil _) _

/-- A segment is read up to the next separator. -/
theorem decodeFrom_segment {map : SourceMap} {state : EncodeState} {mapping : Mapping}
    {rest : List Char} (hline : mapping.generated.line = state.line)
    (hsource : ∀ origin, mapping.origin = some origin → origin.source ∈ map.sources)
    (hrest : ∀ c ∈ rest.head?, isSeparator c) :
    decodeFrom map.sources state.decoded ((map.segment state mapping).1 ++ rest) =
      (decodeFrom map.sources (map.segment state mapping).2.decoded rest).map (mapping :: ·) := by
  have hplain := map.isSeparator_of_mem_segment state mapping
  have hnumbers : Vlq.decodeAll (map.segment state mapping).1 =
      some (map.numbers state mapping) := by
    rw [segment_fst, Vlq.decodeAll_flatMap_encode]
  have hdecode := decodeSegment_numbers hline hsource
  obtain ⟨c, cs, hcs⟩ := List.exists_cons_of_ne_nil (map.segment_ne_nil state mapping)
  rw [hcs] at hplain hnumbers ⊢
  have hc : ¬c = ';' ∧ ¬c = ',' := by
    simpa [isSeparator] using hplain c (by simp)
  have htail : ∀ d ∈ cs, (!isSeparator d) = true := fun d hd => by simp [hplain d (by simp [hd])]
  have hstop : rest.takeWhile (!isSeparator ·) = [] ∧ rest.dropWhile (!isSeparator ·) = rest := by
    cases rest with
    | nil => exact ⟨rfl, rfl⟩
    | cons d rest => simp [hrest d (by simp)]
  rw [List.cons_append, decodeFrom, if_neg hc.1, if_neg hc.2, List.takeWhile_append_of_pos htail,
    List.dropWhile_append_of_pos htail, hstop.1, hstop.2, List.append_nil, hnumbers]
  simp only [Option.bind_eq_bind, Option.bind_some, hdecode, Option.map_eq_bind]
  rfl

theorem decodeFrom_comma (sources : List String) (state : DecodeState) (rest : List Char) :
    decodeFrom sources state (',' :: rest) = decodeFrom sources state rest := by
  rw [decodeFrom, if_neg (by decide), if_pos rfl]

theorem decodeFrom_semicolons (sources : List String) (state : DecodeState) (count : Nat)
    (rest : List Char) : decodeFrom sources state (List.replicate (count + 1) ';' ++ rest) =
      decodeFrom sources { state with line := state.line + (count + 1), column := 0 } rest := by
  induction count generalizing state with
  | zero => simp [decodeFrom]
  | succ count ih =>
    rw [List.replicate_succ, List.cons_append, decodeFrom, if_pos rfl, ih]
    congr 2
    simp only
    omega

/-- The mapping can be written next: it stands on the line of the state or on a later one, and after
the mapping before. -/
def EncodeState.Before (state : EncodeState) (mapping : Mapping) : Prop :=
  state.line ≤ mapping.generated.line ∧
    ∀ previous ∈ state.previous, previous.generated < mapping.generated

theorem segment_previous (map : SourceMap) (state : EncodeState) (mapping : Mapping) :
    (map.segment state mapping).2.previous = some mapping := by
  unfold segment
  cases mapping.origin <;> rfl

theorem segment_line (map : SourceMap) (state : EncodeState) (mapping : Mapping) :
    (map.segment state mapping).2.line = state.line := by
  unfold segment
  cases mapping.origin <;> rfl

theorem before_segment {map : SourceMap} {state : EncodeState} {mapping next : Mapping}
    (hline : mapping.generated.line = state.line) (h : mapping.generated < next.generated) :
    (map.segment state mapping).2.Before next := by
  refine ⟨?_, ?_⟩
  · rw [segment_line, ← hline]
    rcases h with h | h
    · exact Nat.le_of_lt h
    · exact Nat.le_of_eq h.1
  · rintro previous hprevious
    rw [segment_previous] at hprevious
    cases hprevious
    exact h

theorem EncodeState.Before.previous_ne {state : EncodeState} {mapping : Mapping}
    (h : state.Before mapping) : state.previous ≠ some mapping := by
  intro hsame
  exact OutputPosition.not_le_of_lt (h.2 mapping hsame) (OutputPosition.le_refl _)

/-- Once a segment is written, the rest starts with a separator. -/
theorem isSeparator_of_mem_head?_segments (map : SourceMap) {state : EncodeState}
    {mappings : List Mapping} (hbefore : ∀ mapping ∈ mappings, state.Before mapping)
    (hprevious : state.previous.isSome) :
    ∀ c ∈ (map.segments state mappings).head?, isSeparator c := by
  cases mappings with
  | nil => simp [segments]
  | cons mapping mappings =>
    obtain hmapping := hbefore mapping List.mem_cons_self
    rw [segments]
    split
    · rename_i hline
      obtain ⟨count, hcount⟩ : ∃ count, mapping.generated.line - state.line = count + 1 :=
        ⟨mapping.generated.line - state.line - 1, by have := hmapping.1; omega⟩
      rw [hcount, List.replicate_succ]
      simp [isSeparator]
    · rw [if_neg hmapping.previous_ne]
      simp [isSeparator]

theorem decodeFrom_segments {map : SourceMap} {state : EncodeState} {mappings : List Mapping}
    (hbefore : ∀ mapping ∈ mappings, state.Before mapping)
    (hsorted : mappings.Pairwise fun mapping next => mapping.generated < next.generated)
    (hsource : ∀ mapping ∈ mappings, ∀ origin, mapping.origin = some origin →
      origin.source ∈ map.sources) :
    decodeFrom map.sources state.decoded (map.segments state mappings) = some mappings := by
  induction mappings generalizing state with
  | nil => simp [segments, decodeFrom]
  | cons mapping mappings ih =>
    obtain ⟨hmapping, -⟩ := List.forall_mem_cons.1 hbefore
    obtain ⟨hafter, hsorted⟩ := List.pairwise_cons.1 hsorted
    obtain ⟨hname, hsource⟩ := List.forall_mem_cons.1 hsource
    -- Both branches write the segment from a state on the mapping's line.
    have hstep : ∀ start : EncodeState, mapping.generated.line = start.line →
        decodeFrom map.sources start.decoded ((map.segment start mapping).1 ++
          map.segments (map.segment start mapping).2 mappings) = some (mapping :: mappings) := by
      intro start hline
      have hnext : ∀ next ∈ mappings, (map.segment start mapping).2.Before next :=
        fun next hnext => before_segment hline (hafter next hnext)
      have hrest := map.isSeparator_of_mem_head?_segments hnext (by simp [segment_previous])
      rw [decodeFrom_segment hline hname hrest, ih hnext hsorted hsource]
      rfl
    rw [segments]
    split
    · rename_i hline
      have hle := hmapping.1
      obtain ⟨count, hcount⟩ : ∃ count, mapping.generated.line - state.line = count + 1 :=
        ⟨mapping.generated.line - state.line - 1, by omega⟩
      simp only [hcount, List.append_assoc]
      rw [decodeFrom_semicolons, ← hcount]
      have hmax : state.line + (mapping.generated.line - state.line) =
          max state.line mapping.generated.line := by omega
      rw [show state.decoded.line = state.line from rfl, hmax]
      exact hstep { state with column := 0, line := max state.line mapping.generated.line }
        (by simp [Nat.max_eq_right hle])
    · rename_i hline
      rw [if_neg hmapping.previous_ne]
      have hsame := hstep state (by simpa using hline)
      cases state.previous.isSome with
      | false => exact hsame
      | true => exact (decodeFrom_comma _ _ _).trans hsame

/-- What is written for the map of a tree is read back as its mappings, with the names of their
sources. -/
theorem decodeMappings_encodeMappings (node : Node SourceInfo) :
    decodeMappings node.toMappedCss.map.sources node.toMappedCss.map.encodeMappings =
      some node.toMappedCss.map.mappings := by
  rw [decodeMappings, encodeMappings, String.toList_ofList]
  have hstart : (EncodeState.decoded {}) = {} := rfl
  rw [← hstart]
  apply decodeFrom_segments
  · intro mapping hmapping
    rw [node.mappings_toMappedCss] at hmapping
    refine ⟨?_, by simp⟩
    rcases le_of_mem_mappingsFrom hmapping with h | h
    · exact Nat.le_of_lt h
    · exact Nat.le_of_eq h.1
  · rw [node.mappings_toMappedCss]
    exact pairwise_mappingsFrom _ fun fragment => Node.text_ne_nil_of_mem_pieces
  · intro mapping hmapping origin horigin
    exact source_mem_sources hmapping horigin

end StyleTree.SourceMap
