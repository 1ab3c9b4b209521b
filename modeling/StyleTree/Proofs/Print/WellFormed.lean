import Mathlib.Data.List.DropRight
import StyleTree.Proofs.Print.Compact
import StyleTree.Proofs.Print.Lookup

/-!
# Well-formed source maps

The place that the map keeps while the text grows is that of the end of the text: its line is one
more than the line feeds in it, its column is the bytes after the last of them
(`OutputPosition.advance_eq_atEnd`). So each mapping stands before the fragment it was added for and
says whose text starts there (`Starts`), and the list of sources names each source that a mapping
points at once, in the order of the first mappings (`Node.wellFormed_toMappedCss`).
-/

namespace StyleTree

/-! ## The place of the end of a text -/

namespace OutputPosition

/-- The place of the end of a text. -/
def atEnd (cs : List Char) : OutputPosition where
  line := 1 + cs.count '\n'
  column := Text.byteLength (cs.rtakeWhile (· ≠ '\n'))

theorem atEnd_concat (cs : List Char) (c : Char) : atEnd (cs ++ [c]) = (atEnd cs).push c := by
  rw [push]
  by_cases hc : c = '\n'
  · subst hc
    rw [if_pos rfl, atEnd, List.rtakeWhile_concat_neg _ _ _ (by simp)]
    simp [atEnd, Nat.add_assoc]
  · rw [if_neg hc, atEnd, List.rtakeWhile_concat_pos _ _ _ (by simpa using hc)]
    simp [atEnd, List.count_append, hc]

theorem advance_eq_atEnd (cs : List Char) : advance {} cs = atEnd cs := by
  induction cs using List.reverseRecOn with
  | nil => rfl
  | append_singleton cs c ih =>
    rw [atEnd_concat, ← ih, advance, advance, List.foldl_append]
    rfl

theorem advance_append (position : OutputPosition) (cs cs' : List Char) :
    position.advance (cs ++ cs') = (position.advance cs).advance cs' := by
  rw [advance, advance, advance, List.foldl_append]

end OutputPosition

/-! ## Where a mapping stands -/

/-- The mapping stands where the text of a fragment starts, and it says whose text that is. -/
structure Starts (mapping : Mapping) (before : List (Fragment SourceInfo))
    (fragment : Fragment SourceInfo) : Prop where
  generated : mapping.generated = .atEnd (Node.fragmentChars before)
  origin : mapping.origin = fragment.origin

theorem MapState.origin_of_mapping? {state : MapState} {fragment : Fragment SourceInfo}
    {mapping : Mapping} (h : state.mapping? fragment.owner = some mapping) :
    mapping.origin = fragment.origin := by
  rw [Fragment.origin]
  cases horigin : fragment.owner.map SourceInfo.position <;> simp only [mapping?, horigin] at h <;>
    split at h <;> cases h <;> rfl

/-- What is added for fragments that follow others starts one of them. -/
theorem starts_of_mem_mappingsFrom (before : List (Fragment SourceInfo)) {state : MapState}
    {fragments : List (Fragment SourceInfo)} {mapping : Mapping}
    (hstate : state.position = .atEnd (Node.fragmentChars before))
    (h : mapping ∈ mappingsFrom state fragments) :
    ∃ front fragment after, fragments = front ++ fragment :: after ∧
      Starts mapping (before ++ front) fragment := by
  induction fragments generalizing state before with
  | nil => simp [mappingsFrom] at h
  | cons fragment fragments ih =>
    rcases List.mem_append.1 h with h | h
    · have h := Option.mem_toList.1 h
      refine ⟨[], fragment, fragments, rfl, ?_, MapState.origin_of_mapping? h⟩
      rw [MapState.generated_of_mapping? h, hstate, List.append_nil]
    · have hnext : (state.after fragment.owner fragment.text.toList).position =
          .atEnd (Node.fragmentChars (before ++ [fragment])) := by
        rw [Node.fragmentChars_append, ← OutputPosition.advance_eq_atEnd,
          OutputPosition.advance_append, OutputPosition.advance_eq_atEnd, ← hstate]
        simp [MapState.after, Node.fragmentChars]
      obtain ⟨front, found, after, rfl, hstarts⟩ := ih _ hnext h
      exact ⟨fragment :: front, found, after, rfl, by simpa using hstarts⟩

/-- Before the first positioned text nothing is mapped. -/
theorem origin_of_head_mappingsFrom {state : MapState} {fragments : List (Fragment SourceInfo)}
    {mapping : Mapping} (hstate : state.active = false)
    (h : (mappingsFrom state fragments).head? = some mapping) (hlast : state.last = none) :
    mapping.origin.isSome := by
  induction fragments generalizing state with
  | nil => simp [mappingsFrom] at h
  | cons fragment fragments ih =>
    cases howner : fragment.owner.map SourceInfo.position with
    | none =>
      have hnone : state.mapping? fragment.owner = none := by
        simp [MapState.mapping?, howner, hstate]
      rw [mappingsFrom, hnone] at h
      refine ih ?_ h ?_
      · simpa [MapState.after] using howner
      · simpa [MapState.after, howner] using hlast
    | some origin =>
      have hsome : state.mapping? fragment.owner = some ⟨state.position, some origin⟩ := by
        simp [MapState.mapping?, howner, hlast]
      rw [mappingsFrom, hsome] at h
      cases h
      rfl

/-! ## The list of sources -/

/-- Names without their repetitions stand in the order of their first occurrences. -/
theorem pairwise_eraseDups {α : Type} [BEq α] [LawfulBEq α] (as : List α) :
    as.eraseDups.Pairwise fun a b => as.idxOf a < as.idxOf b := by
  induction as using List.reverseRecOn with
  | nil => simp
  | append_singleton as a ih =>
    have hstay : ∀ b ∈ as.eraseDups, (as ++ [a]).idxOf b = as.idxOf b := fun b hb =>
      List.idxOf_append_of_mem (List.mem_eraseDups.1 hb)
    have hold : as.eraseDups.Pairwise fun b c => (as ++ [a]).idxOf b < (as ++ [a]).idxOf c := by
      refine ih.imp_of_mem fun hb hc hlt => ?_
      rwa [hstay _ hb, hstay _ hc]
    rw [List.eraseDups_append]
    by_cases ha : a ∈ as
    · simpa [List.removeAll, ha] using hold
    · have hnew : (as ++ [a]).idxOf a = as.length := by
        rw [List.idxOf_append_of_notMem ha, List.idxOf_cons_self, Nat.add_zero]
      have hlast : ([a].removeAll as).eraseDups = [a] := by
        simp [List.removeAll, ha, List.eraseDups_cons]
      rw [hlast]
      refine List.pairwise_append.2 ⟨hold, by simp, fun b hb c hc => ?_⟩
      rw [List.mem_singleton.1 hc, hstay b hb, hnew]
      exact List.idxOf_lt_length_of_mem (List.mem_eraseDups.1 hb)

/-- The names of the sources that mappings point at, one for each mapping with an origin. -/
def sourceNames (mappings : List Mapping) : List String :=
  mappings.filterMap fun mapping => mapping.origin.map SourcePosition.source

/-! ## The map of a tree -/

/-- The source map of a tree is about the text of the tree, its mappings stand in order where text
of their groups starts, and it lists its sources once, in the order of their first use. -/
structure Node.WellMapped (node : Node SourceInfo) (mapped : MappedText) : Prop where
  text : mapped.text = node.toCss
  /-- Each mapping starts a fragment that is not empty: what is before it is a proper front of the
  text. -/
  starts : ∀ mapping ∈ mapped.map.mappings, ∃ before fragment after,
    node.pieces = before ++ fragment :: after ∧ Starts mapping before fragment
  front : ∀ mapping ∈ mapped.map.mappings, ∃ front rest,
    node.toCss.toList = front ++ rest ∧ rest ≠ [] ∧ mapping.generated = .atEnd front
  increasing : mapped.map.mappings.Pairwise fun mapping next => mapping.generated < next.generated
  first : ∀ mapping, mapped.map.mappings.head? = some mapping → mapping.origin.isSome
  mem_sources : ∀ source, source ∈ mapped.map.sources ↔ source ∈ sourceNames mapped.map.mappings
  nodup : mapped.map.sources.Nodup
  inOrder : mapped.map.sources.Pairwise fun source source' =>
    (sourceNames mapped.map.mappings).idxOf source < (sourceNames mapped.map.mappings).idxOf source'

namespace Node

variable (node : Node SourceInfo)

/-- Fragments without text do not show. -/
theorem fragmentChars_pieces : fragmentChars node.pieces = node.compact := by
  rw [compact_eq, pieces]
  induction node.fragments none with
  | nil => rfl
  | cons fragment fragments ih =>
    rw [List.filter_cons]
    split
    · simpa [fragmentChars] using ih
    · rename_i hempty
      have hempty : fragment.text = "" := by simpa using hempty
      simpa [fragmentChars, hempty] using ih

theorem starts_of_mem_mappings {mapping : Mapping} (h : mapping ∈ node.toMappedCss.map.mappings) :
    ∃ before fragment after,
      node.pieces = before ++ fragment :: after ∧ Starts mapping before fragment := by
  rw [mappings_toMappedCss] at h
  simpa using starts_of_mem_mappingsFrom [] rfl h

theorem text_toMappedCss : node.toMappedCss.text = node.toCss := by
  refine String.toList_injective ?_
  rw [show node.toCss.toList = node.compact from rfl, ← fragmentChars_pieces, toMappedCss,
    Text.concat, String.toList_ofList]
  rfl

/-- **Source maps are well formed and leave the text alone.** Whatever the tree, the text with the
map is the compact text; each mapping stands at the true place of the end of a proper front of it,
where text of the group starts whose position it carries, or of a group without position; the places
go up strictly; the first mapping has an origin; and the sources are the names that occur in the
mappings, each once, in the order of their first use. -/
theorem wellMapped_toMappedCss : node.WellMapped node.toMappedCss where
  text := node.text_toMappedCss
  starts _ := node.starts_of_mem_mappings
  front mapping h := by
    obtain ⟨before, fragment, after, hpieces, hstarts⟩ := node.starts_of_mem_mappings h
    refine ⟨fragmentChars before, fragmentChars (fragment :: after), ?_, ?_, hstarts.generated⟩
    · rw [← fragmentChars_append, ← hpieces, fragmentChars_pieces]
      rfl
    · have hmem : fragment ∈ node.pieces := by simp [hpieces]
      exact List.append_ne_nil_of_left_ne_nil (text_ne_nil_of_mem_pieces hmem) _
  increasing := pairwise_mappingsFrom _ fun _ => text_ne_nil_of_mem_pieces
  first _ h := origin_of_head_mappingsFrom rfl h rfl
  mem_sources _ := List.mem_eraseDups
  nodup := (pairwise_eraseDups _).imp fun hlt heq => absurd (heq ▸ hlt) (Nat.lt_irrefl _)
  inOrder := pairwise_eraseDups _

end Node
end StyleTree
