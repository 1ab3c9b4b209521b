import StyleTree.Print.SourceMap

/-!
# The order of the mappings

Places in written text are ordered by line and then by column. Text moves the place on, so the
mappings of fragments that are not empty stand in strictly increasing order
(`pairwise_mappingsFrom`), and each points at a source that the map lists (`source_mem_sources`).
-/

namespace StyleTree

namespace OutputPosition

instance : LT OutputPosition where
  lt p q := p.line < q.line ∨ p.line = q.line ∧ p.column < q.column

instance : LE OutputPosition where
  le p q := p.line < q.line ∨ p.line = q.line ∧ p.column ≤ q.column

theorem lt_iff {p q : OutputPosition} :
    p < q ↔ p.line < q.line ∨ p.line = q.line ∧ p.column < q.column := Iff.rfl

theorem le_iff {p q : OutputPosition} :
    p ≤ q ↔ p.line < q.line ∨ p.line = q.line ∧ p.column ≤ q.column := Iff.rfl

instance (p q : OutputPosition) : Decidable (p < q) :=
  inferInstanceAs (Decidable (_ ∨ _))

instance (p q : OutputPosition) : Decidable (p ≤ q) :=
  inferInstanceAs (Decidable (_ ∨ _))

variable {p q r : OutputPosition}

theorem le_refl (p : OutputPosition) : p ≤ p :=
  .inr ⟨rfl, Nat.le_refl _⟩

theorem le_of_lt (h : p < q) : p ≤ q := by
  rw [lt_iff] at h
  rw [le_iff]
  omega

theorem lt_of_lt_of_le (h : p < q) (h' : q ≤ r) : p < r := by
  rw [lt_iff] at h ⊢
  rw [le_iff] at h'
  omega

theorem le_trans (h : p ≤ q) (h' : q ≤ r) : p ≤ r := by
  rw [le_iff] at h h' ⊢
  omega

theorem not_le_of_lt (h : p < q) : ¬q ≤ p := by
  rw [lt_iff] at h
  rw [le_iff]
  omega

theorem lt_push (p : OutputPosition) (c : Char) : p < p.push c := by
  rw [push]
  split
  · exact .inl (Nat.lt_succ_self _)
  · exact .inr ⟨rfl, Nat.lt_add_of_pos_right c.utf8Size_pos⟩

theorem le_advance (p : OutputPosition) (cs : List Char) : p ≤ p.advance cs := by
  induction cs generalizing p with
  | nil => exact p.le_refl
  | cons c cs ih => exact le_trans (le_of_lt (p.lt_push c)) (ih (p.push c))

theorem lt_advance (p : OutputPosition) {cs : List Char} (h : cs ≠ []) : p < p.advance cs := by
  cases cs with
  | nil => exact absurd rfl h
  | cons c cs => exact lt_of_lt_of_le (p.lt_push c) ((p.push c).le_advance cs)

end OutputPosition

/-- A mapping stands where the text does when it is added. -/
theorem MapState.generated_of_mapping? {state : MapState} {owner : Option SourceInfo}
    {mapping : Mapping} (h : state.mapping? owner = some mapping) :
    mapping.generated = state.position := by
  unfold mapping? at h
  split at h <;> split at h <;> cases h <;> rfl

theorem le_of_mem_mappingsFrom {state : MapState} {fragments : List (Fragment SourceInfo)}
    {mapping : Mapping} (h : mapping ∈ mappingsFrom state fragments) :
    state.position ≤ mapping.generated := by
  induction fragments generalizing state with
  | nil => simp [mappingsFrom] at h
  | cons fragment fragments ih =>
    rcases List.mem_append.1 h with h | h
    · rw [MapState.generated_of_mapping? (Option.mem_toList.1 h)]
      exact OutputPosition.le_refl _
    · exact OutputPosition.le_trans (OutputPosition.le_advance _ _) (ih h)

theorem pairwise_mappingsFrom (state : MapState) {fragments : List (Fragment SourceInfo)}
    (h : ∀ fragment ∈ fragments, fragment.text.toList ≠ []) :
    (mappingsFrom state fragments).Pairwise fun mapping next =>
      mapping.generated < next.generated := by
  induction fragments generalizing state with
  | nil => exact .nil
  | cons fragment fragments ih =>
    obtain ⟨hne, h⟩ := List.forall_mem_cons.1 h
    refine List.pairwise_append.2 ⟨?_, ih _ h, fun mapping hmapping next hnext => ?_⟩
    · cases state.mapping? fragment.owner <;> simp
    · rw [MapState.generated_of_mapping? (Option.mem_toList.1 hmapping)]
      exact OutputPosition.lt_of_lt_of_le (OutputPosition.lt_advance _ hne)
        (le_of_mem_mappingsFrom hnext)

/-- The fragments of a tree that are not empty. -/
def Node.pieces (node : Node SourceInfo) : List (Fragment SourceInfo) :=
  (node.fragments none).filter fun fragment => !fragment.text.isEmpty

theorem Node.text_ne_nil_of_mem_pieces {node : Node SourceInfo} {fragment : Fragment SourceInfo}
    (h : fragment ∈ node.pieces) : fragment.text.toList ≠ [] := by
  obtain ⟨-, h⟩ := List.mem_filter.1 h
  simpa using h

theorem Node.mappings_toMappedCss (node : Node SourceInfo) :
    node.toMappedCss.map.mappings = mappingsFrom {} node.pieces := rfl

theorem source_mem_sources {fragments : List (Fragment SourceInfo)} {mapping : Mapping}
    {origin : SourcePosition} (h : mapping ∈ (SourceMap.ofFragments fragments).mappings)
    (horigin : mapping.origin = some origin) :
    origin.source ∈ (SourceMap.ofFragments fragments).sources := by
  refine List.mem_eraseDups.2 (List.mem_filterMap.2 ⟨mapping, h, ?_⟩)
  rw [horigin]
  rfl

end StyleTree
