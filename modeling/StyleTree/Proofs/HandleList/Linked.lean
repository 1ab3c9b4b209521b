import StyleTree.HandleList.Basic
import Mathlib.Algebra.Group.Nat.Defs
import Mathlib.Data.List.Nodup

/-! The links of a `HandleList`. `HandleList.Linked` says that a list of cell numbers is the order
of the elements: the links of every cell point to its neighbours in that order, and the remaining
cells are the free ones. `Linked.insertBetween` and `Linked.remove` say what the two writers of the
links do to the order, and what they leave alone.

Every cell of a linked list has a number, so there are at most `2 ^ 32` of them. An insertion keeps
the links in order while there is a number left. -/

namespace StyleTree
namespace HandleList

variable {α : Type}

/-! ## Writing one link -/

theorem cell?_modifyCell (list : HandleList α) (index : UInt32) (f : ListCell α → ListCell α)
    (k : UInt32) : (list.modifyCell index f).cell? k =
      (list.cell? k).map fun cell => if index = k then f cell else cell := by
  simp only [cell?, modifyCell, Array.getElem?_modify, UInt32.toNat_inj]
  split <;> simp

@[simp] theorem id_modifyCell (list : HandleList α) (index : UInt32)
    (f : ListCell α → ListCell α) : (list.modifyCell index f).id = list.id := rfl

@[simp] theorem size_cells_modifyCell (list : HandleList α) (index : UInt32)
    (f : ListCell α → ListCell α) : (list.modifyCell index f).cells.size = list.cells.size := by
  simp [modifyCell]

theorem cell?_setNext (list : HandleList α) (index target : Option UInt32) (k : UInt32) :
    (list.setNext index target).cell? k =
      (list.cell? k).map fun cell =>
        if index = some k then { cell with next := target } else cell := by
  cases index with
  | none => simp [setNext, cell?]
  | some i => simp [setNext, cell?_modifyCell]

theorem cell?_setPrev (list : HandleList α) (index target : Option UInt32) (k : UInt32) :
    (list.setPrev index target).cell? k =
      (list.cell? k).map fun cell =>
        if index = some k then { cell with prev := target } else cell := by
  cases index with
  | none => simp [setPrev, cell?]
  | some i => simp [setPrev, cell?_modifyCell]

@[simp] theorem size_cells_setNext (list : HandleList α) (index target : Option UInt32) :
    (list.setNext index target).cells.size = list.cells.size := by
  cases index <;> simp [setNext, modifyCell]

@[simp] theorem size_cells_setPrev (list : HandleList α) (index target : Option UInt32) :
    (list.setPrev index target).cells.size = list.cells.size := by
  cases index <;> simp [setPrev, modifyCell]

theorem setNext_frame (list : HandleList α) (index target : Option UInt32) :
    (list.setNext index target).id = list.id ∧ (list.setNext index target).free = list.free ∧
      (list.setNext index target).size = list.size ∧
      (list.setNext index target).tail = list.tail ∧
      (list.setNext index target).head = if index = none then target else list.head := by
  cases index <;> simp [setNext, modifyCell]

theorem setPrev_frame (list : HandleList α) (index target : Option UInt32) :
    (list.setPrev index target).id = list.id ∧ (list.setPrev index target).free = list.free ∧
      (list.setPrev index target).size = list.size ∧
      (list.setPrev index target).head = list.head ∧
      (list.setPrev index target).tail = if index = none then target else list.tail := by
  cases index <;> simp [setPrev, modifyCell]

/-- Two cells become neighbours, or the one that there is becomes an end of the list. -/
def join (list : HandleList α) (prev next : Option UInt32) (after before : Option UInt32) :
    HandleList α :=
  (list.setNext prev after).setPrev next before

theorem cell?_join (list : HandleList α) (prev next after before : Option UInt32) (k : UInt32) :
    (list.join prev next after before).cell? k = (list.cell? k).map fun cell =>
      { cell with next := if prev = some k then after else cell.next
                  prev := if next = some k then before else cell.prev } := by
  simp only [join, cell?_setPrev, cell?_setNext, Option.map_map]
  congr 1
  funext cell
  by_cases h : prev = some k <;> by_cases h' : next = some k <;> simp [h, h']

theorem join_frame (list : HandleList α) (prev next after before : Option UInt32) :
    (list.join prev next after before).id = list.id ∧
      (list.join prev next after before).free = list.free ∧
      (list.join prev next after before).size = list.size ∧
      (list.join prev next after before).cells.size = list.cells.size ∧
      (list.join prev next after before).head = (if prev = none then after else list.head) ∧
      (list.join prev next after before).tail = if next = none then before else list.tail := by
  obtain ⟨hid, hfree, hsize, htail, hhead⟩ := list.setNext_frame prev after
  obtain ⟨hid', hfree', hsize', hhead', htail'⟩ :=
    (list.setNext prev after).setPrev_frame next before
  refine ⟨hid'.trans hid, hfree'.trans hfree, hsize'.trans hsize, by simp [join],
    hhead'.trans hhead, ?_⟩
  rw [join, htail', htail]

/-! ## The order of the elements -/

/-- The cells in `order` hold the elements, front to back: every link points to the neighbour in
`order`, and the cells outside of `order` are free, each once in `free`. Every cell has a number. -/
structure Linked (list : HandleList α) (order : List UInt32) : Prop where
  head_eq : list.head = order.head?
  tail_eq : list.tail = order.getLast?
  size_eq : list.size = order.length
  cell : ∀ before i after, order = before ++ i :: after → ∃ value generation,
    list.cell? i = some ⟨some value, before.getLast?, after.head?, generation⟩
  perm : ((order ++ list.free).map UInt32.toNat).Perm (List.range list.cells.size)
  blank : ∀ i ∈ list.free, ∃ generation, list.cell? i = some ⟨none, none, none, generation⟩

namespace Linked

variable {list : HandleList α} {order : List UInt32}

theorem empty (id : UInt32) : (HandleList.empty id : HandleList α).Linked [] where
  head_eq := rfl
  tail_eq := rfl
  size_eq := rfl
  cell before i after h := by simp at h
  perm := by simp [HandleList.empty]
  blank i hi := by simp [HandleList.empty] at hi

theorem nodup_append (H : list.Linked order) : (order ++ list.free).Nodup :=
  (H.perm.nodup_iff.2 List.nodup_range).of_map _

theorem nodup (H : list.Linked order) : order.Nodup :=
  (List.nodup_append.1 H.nodup_append).1

theorem notMem_free (H : list.Linked order) {i : UInt32} (hi : i ∈ order) : i ∉ list.free :=
  fun hf => (List.nodup_append.1 H.nodup_append).2.2 i hi i hf rfl

theorem lt_size_iff (H : list.Linked order) {i : UInt32} :
    i.toNat < list.cells.size ↔ i ∈ order ∨ i ∈ list.free := by
  rw [← List.mem_range, ← H.perm.mem_iff,
    List.mem_map_of_injective fun _ _ => UInt32.toNat_inj.1, List.mem_append]

theorem size_cells_le (H : list.Linked order) : list.cells.size ≤ 2 ^ 32 := by
  by_contra hlt
  have hmem : 2 ^ 32 ∈ (order ++ list.free).map UInt32.toNat :=
    H.perm.mem_iff.2 (List.mem_range.2 (Nat.not_le.1 hlt))
  obtain ⟨i, -, hi⟩ := List.mem_map.1 hmem
  have := i.toNat_lt
  omega

theorem length_add_free (H : list.Linked order) :
    order.length + list.free.length = list.cells.size := by
  simpa using H.perm.length_eq

theorem cell_of_mem (H : list.Linked order) {i : UInt32} (hi : i ∈ order) :
    ∃ value prev next generation, list.cell? i = some ⟨some value, prev, next, generation⟩ := by
  obtain ⟨before, after, rfl⟩ := List.append_of_mem hi
  obtain ⟨value, generation, h⟩ := H.cell before i after rfl
  exact ⟨value, _, _, generation, h⟩

/-- The cells outside of the order hold no value and no links. -/
theorem cell_of_notMem (H : list.Linked order) {i : UInt32} (hi : i ∉ order) {cell : ListCell α}
    (h : list.cell? i = some cell) : ∃ generation, cell = ⟨none, none, none, generation⟩ := by
  have hlt : i.toNat < list.cells.size := (Array.getElem?_eq_some_iff.1 h).1
  obtain ⟨generation, hblank⟩ := H.blank i ((H.lt_size_iff.1 hlt).resolve_left hi)
  exact ⟨generation, Option.some.inj (h.symm.trans hblank)⟩

/-- The live cells are those in the order. -/
theorem mem_order_iff (H : list.Linked order) {i : UInt32} :
    i ∈ order ↔ (list.valueAt? i).isSome := by
  constructor
  · intro hi
    obtain ⟨value, prev, next, generation, h⟩ := H.cell_of_mem hi
    simp [valueAt?, h]
  · intro h
    by_contra hi
    obtain ⟨value, hvalue⟩ := Option.isSome_iff_exists.1 h
    obtain ⟨cell, hcell, hsome⟩ := Option.bind_eq_some_iff.1 hvalue
    obtain ⟨generation, rfl⟩ := H.cell_of_notMem hi hcell
    simp at hsome

end Linked

/-! ## Taking a cell -/

/-- The cell that the next element goes into. -/
def nextCell (list : HandleList α) : UInt32 :=
  list.free.headD (UInt32.ofNat list.cells.size)

theorem allocate_fst (list : HandleList α) (value : α) (prev next : Option UInt32) :
    (list.allocate value prev next).1 = list.nextCell := by
  cases h : list.free <;> simp [allocate, nextCell, h]

theorem size_allocate (list : HandleList α) (value : α) (prev next : Option UInt32) :
    (list.allocate value prev next).2.size = list.size + 1 := by
  cases h : list.free <;> simp [allocate, h]

/-- A new cell has a number of its own while there is one left. -/
theorem Linked.toNat_nextCell {list : HandleList α} {order : List UInt32} (H : list.Linked order)
    (hroom : list.size < 2 ^ 32) (hfree : list.free = []) :
    list.nextCell.toNat = list.cells.size := by
  have hsize : list.cells.size = list.size := by
    rw [H.size_eq, ← H.length_add_free, hfree, List.length_nil, Nat.add_zero]
  rw [nextCell, hfree, List.headD_nil, UInt32.toNat_ofNat_of_lt']
  rwa [hsize]

theorem Linked.nextCell_notMem {list : HandleList α} {order : List UInt32} (H : list.Linked order)
    (hroom : list.size < 2 ^ 32) : list.nextCell ∉ order := by
  intro hmem
  cases hfree : list.free with
  | nil =>
    have hlt := H.lt_size_iff.2 (.inl hmem)
    rw [H.toNat_nextCell hroom hfree] at hlt
    exact Nat.lt_irrefl _ hlt
  | cons i free => exact H.notMem_free hmem (by simp [nextCell, hfree])

/-- A new cell was filled, and all else but the free cells is as before. -/
structure Fills (list : HandleList α) (order : List UInt32) (value : α) (prev next : Option UInt32)
    (list' : HandleList α) : Prop where
  cell : ∃ generation, list'.cell? list.nextCell = some ⟨some value, prev, next, generation⟩ ∧
    (list.free = [] → generation = 0)
  others : ∀ k, k ≠ list.nextCell → list'.cell? k = list.cell? k
  perm : ((list.nextCell :: (order ++ list'.free)).map UInt32.toNat).Perm
    (List.range list'.cells.size)
  free_subset : ∀ i ∈ list'.free, i ∈ list.free
  size_cells : list'.cells.size = max list.cells.size (order.length + 1)
  size_eq : list'.size = list.size + 1
  head_eq : list'.head = list.head
  tail_eq : list'.tail = list.tail
  id_eq : list'.id = list.id

theorem Linked.fills_allocate {list : HandleList α} {order : List UInt32} (H : list.Linked order)
    (hroom : list.size < 2 ^ 32) (value : α) (prev next : Option UInt32) :
    list.Fills order value prev next (list.allocate value prev next).2 := by
  have hlength := H.length_add_free
  cases hfree : list.free with
  | nil =>
    have hsize : list.cells.size = order.length := by simpa [hfree] using hlength.symm
    have hperm : (order.map UInt32.toNat).Perm (List.range list.cells.size) := by
      simpa [hfree] using H.perm
    have hnext := H.toNat_nextCell hroom hfree
    constructor <;> simp only [HandleList.allocate, cell?, hnext, hfree]
    · exact ⟨0, by simp, by simp⟩
    · intro k hk
      have hne : k.toNat ≠ list.cells.size := fun h => hk (UInt32.toNat_inj.1 (h.trans hnext.symm))
      simp [Array.getElem?_push, hne]
    · rw [Array.size_push, List.range_succ, List.append_nil, List.map_cons, hnext]
      exact (hperm.cons _).trans (List.perm_append_singleton _ _).symm
    · simp
    · simp [hsize]
  | cons i free =>
    obtain ⟨generation, hcell⟩ := H.blank i (by simp [hfree])
    have hnext : list.nextCell = i := by simp [nextCell, hfree]
    have hperm : ((i :: (order ++ free)).map UInt32.toNat).Perm (List.range list.cells.size) := by
      have hperm := H.perm
      rw [hfree] at hperm
      exact (List.perm_middle.symm.map _).trans hperm
    have hothers : ∀ fill : ListCell α → ListCell α, ∀ k, k ≠ i →
        (list.modifyCell i fill).cell? k = list.cell? k := by
      intro fill k hk
      simp [cell?_modifyCell, Ne.symm hk]
    constructor <;> simp only [HandleList.allocate, hnext, hfree]
    · refine ⟨generation, ?_, by simp⟩
      exact (cell?_modifyCell ..).trans (by simp [hcell])
    · exact hothers _
    · simpa using hperm
    · exact fun j hj => List.mem_cons_of_mem i hj
    · simp only [hfree, List.length_cons] at hlength
      simp only [size_cells_modifyCell]
      omega
    · rfl
    · rfl
    · rfl

/-! ## The two writers of the links -/

/-- The element in a cell, with its handle. -/
def entryAt? (list : HandleList α) (index : UInt32) : Option (Handle × α) :=
  (list.cell? index).bind fun cell => cell.value.map (⟨list.id, index, cell.generation⟩, ·)

/-- Relinking the neighbours keeps the elements. -/
theorem entryAt?_join (list : HandleList α) (prev next after before : Option UInt32) (k : UInt32) :
    (list.join prev next after before).entryAt? k = list.entryAt? k := by
  simp only [entryAt?, cell?_join, (list.join_frame prev next after before).1]
  cases list.cell? k <;> rfl

theorem insertBetween_eq (list : HandleList α) (value : α) (prev next : Option UInt32) :
    (list.insertBetween value prev next).2 = (list.allocate value prev next).2.join prev next
      (some list.nextCell) (some list.nextCell) := by
  simp [insertBetween, join, ← allocate_fst list value prev next]

/-- An insertion answers with the handle of the cell that was filled. -/
theorem insertBetween_fst (list : HandleList α) (value : α) (prev next : Option UInt32) :
    (list.insertBetween value prev next).1 =
      (list.insertBetween value prev next).2.handleAt list.nextCell := by
  rw [insertBetween, ← allocate_fst list value prev next]

theorem size_insertBetween (list : HandleList α) (value : α) (prev next : Option UInt32) :
    (list.insertBetween value prev next).2.size = list.size + 1 := by
  obtain ⟨-, -, hsize, -⟩ := (list.allocate value prev next).2.join_frame prev next
    (some list.nextCell) (some list.nextCell)
  rw [insertBetween_eq, hsize, size_allocate]

/-- An element of two lists in a row is in the first or in the second. -/
theorem append_eq_append_cons_iff {before after before' after' : List UInt32} {i : UInt32} :
    before ++ after = before' ++ i :: after' ↔
      (∃ mid, before = before' ++ i :: mid ∧ after' = mid ++ after) ∨
        ∃ mid, after = mid ++ i :: after' ∧ before' = before ++ mid := by
  constructor
  · intro h
    rcases List.append_eq_append_iff.1 h with ⟨mid, rfl, hmid⟩ | ⟨mid, rfl, hmid⟩
    · exact .inr ⟨mid, hmid, rfl⟩
    · rcases List.cons_eq_append_iff.1 hmid with ⟨rfl, rfl⟩ | ⟨mid', rfl, rfl⟩
      · exact .inr ⟨[], rfl, by simp⟩
      · exact .inl ⟨mid', rfl, rfl⟩
  · rintro (⟨mid, rfl, rfl⟩ | ⟨mid, rfl, rfl⟩) <;> simp

theorem getLast?_eq_some_iff_of_nodup {before mid : List UInt32} {i : UInt32}
    (h : (before ++ i :: mid).Nodup) : (before ++ i :: mid).getLast? = some i ↔ mid = [] := by
  refine ⟨fun hlast => ?_, by rintro rfl; simp⟩
  rcases List.eq_nil_or_concat mid with hmid | ⟨mid, j, rfl⟩
  · exact hmid
  · have hj : j = i := by simpa [List.getLast?_append, List.getLast?_cons] using hlast
    subst hj
    simp [List.nodup_append] at h

theorem head?_eq_some_iff_of_nodup {mid after : List UInt32} {i : UInt32}
    (h : (mid ++ i :: after).Nodup) : (mid ++ i :: after).head? = some i ↔ mid = [] := by
  refine ⟨fun hhead => ?_, by rintro rfl; simp⟩
  cases mid with
  | nil => rfl
  | cons j mid =>
    have hj : j = i := by simpa using hhead
    subst hj
    simp at h

/-! ## Joining what stands apart -/

theorem cell?_join_of_ne {list : HandleList α} {prev next after before : Option UInt32} {k : UInt32}
    (hprev : prev ≠ some k) (hnext : next ≠ some k) :
    (list.join prev next after before).cell? k = list.cell? k := by
  rw [cell?_join]
  simp [hprev, hnext]

/-- Of the elements in front, only the last one has a new neighbour. -/
theorem cell_join_front {list : HandleList α} {before mid tail tail' : List UInt32} {i : UInt32}
    {value : Option α} {generation : UInt32} {next after back : Option UInt32}
    (hnodup : (before ++ i :: mid).Nodup) (hnext : next ≠ some i) (hafter : after = tail'.head?)
    (h : list.cell? i = some ⟨value, before.getLast?, (mid ++ tail).head?, generation⟩) :
    (list.join (before ++ i :: mid).getLast? next after back).cell? i =
      some ⟨value, before.getLast?, (mid ++ tail').head?, generation⟩ := by
  subst hafter
  rw [cell?_join, h]
  simp only [Option.map_some, getLast?_eq_some_iff_of_nodup hnodup, if_neg hnext]
  cases mid <;> simp

/-- Of the elements behind, only the first one has a new neighbour. -/
theorem cell_join_back {list : HandleList α} {front front' mid after : List UInt32} {i : UInt32}
    {value : Option α} {generation : UInt32} {prev ahead back : Option UInt32}
    (hnodup : (mid ++ i :: after).Nodup) (hprev : prev ≠ some i) (hback : back = front'.getLast?)
    (h : list.cell? i = some ⟨value, (front ++ mid).getLast?, after.head?, generation⟩) :
    (list.join prev (mid ++ i :: after).head? ahead back).cell? i =
      some ⟨value, (front' ++ mid).getLast?, after.head?, generation⟩ := by
  subst hback
  rw [cell?_join, h]
  simp only [Option.map_some, head?_eq_some_iff_of_nodup hnodup, if_neg hprev]
  rcases List.eq_nil_or_concat mid with rfl | ⟨mid, j, rfl⟩ <;> simp

/-- An element put between two neighbours stands between them, in a cell that held none, and no
other element moves. -/
theorem Linked.insertBetween {list : HandleList α} {before after : List UInt32}
    (H : list.Linked (before ++ after)) (hroom : list.size < 2 ^ 32) (value : α) :
    let list' := (list.insertBetween value before.getLast? after.head?).2
    list'.Linked (before ++ list.nextCell :: after) ∧ list'.id = list.id ∧
      list'.cells.size = max list.cells.size ((before ++ after).length + 1) ∧
      (∃ generation, list'.entryAt? list.nextCell =
        some (⟨list.id, list.nextCell, generation⟩, value) ∧ (list.free = [] → generation = 0)) ∧
      ∀ k, k ≠ list.nextCell → list'.entryAt? k = list.entryAt? k := by
  have hnew := H.nextCell_notMem hroom
  obtain ⟨hnodup, hnodup', hdisjoint⟩ := List.nodup_append.1 H.nodup
  have hF := H.fills_allocate hroom value before.getLast? after.head?
  obtain ⟨generation, hcell, hgen⟩ := hF.cell
  rw [List.mem_append, not_or] at hnew
  simp only [insertBetween_eq]
  generalize (list.allocate value before.getLast? after.head?).2 = filled at hF hcell
  obtain ⟨hid, hfree, hsize, hcells, hhead, htail⟩ :=
    filled.join_frame before.getLast? after.head? (some list.nextCell) (some list.nextCell)
  refine ⟨⟨?_, ?_, ?_, ?_, ?_, ?_⟩, hid.trans hF.id_eq, hcells.trans hF.size_cells,
    ⟨generation, ?_, hgen⟩, ?_⟩
  · rw [hhead, hF.head_eq, H.head_eq]
    cases before <;> simp
  · rw [htail, hF.tail_eq, H.tail_eq]
    cases after <;> simp
  · rw [hsize, hF.size_eq, H.size_eq, List.length_append, List.length_append, List.length_cons]
    omega
  · intro before' i after' h
    rcases append_eq_append_cons_iff.1 h with ⟨mid, rfl, rfl⟩ | ⟨mid, hmid, rfl⟩
    · obtain ⟨old, generation, hi⟩ := H.cell before' i (mid ++ after) (by simp)
      have hne : i ≠ list.nextCell := by rintro rfl; simp at hnew
      have hafter : after.head? ≠ some i :=
        fun h => hdisjoint i (by simp) i (List.mem_of_head? h) rfl
      exact ⟨old, generation, cell_join_front hnodup hafter rfl ((hF.others i hne).trans hi)⟩
    · rcases List.cons_eq_append_iff.1 hmid with ⟨rfl, hi⟩ | ⟨mid, rfl, rfl⟩
      · obtain ⟨rfl, rfl⟩ := List.cons.inj hi
        have hbefore : before.getLast? ≠ some list.nextCell :=
          fun h => hnew.1 (List.mem_of_getLast? h)
        have hafter : after'.head? ≠ some list.nextCell := fun h => hnew.2 (List.mem_of_head? h)
        refine ⟨value, generation, ?_⟩
        rw [cell?_join_of_ne hbefore hafter, hcell, List.append_nil]
      · obtain ⟨old, generation, hi⟩ := H.cell (before ++ mid) i after' (by simp)
        have hne : i ≠ list.nextCell := by rintro rfl; simp at hnew
        have hbefore : before.getLast? ≠ some i :=
          fun h => hdisjoint i (List.mem_of_getLast? h) i (by simp) rfl
        have hback : some list.nextCell = (before ++ [list.nextCell]).getLast? := by simp
        rw [List.append_cons before]
        exact ⟨old, generation, cell_join_back hnodup' hbefore hback ((hF.others i hne).trans hi)⟩
  · rw [hfree, hcells]
    exact ((List.perm_middle.append_right _).map _).trans (by simpa using hF.perm)
  · intro i hi
    rw [hfree] at hi
    have hlive : i ∉ before ++ after := fun h => H.notMem_free h (hF.free_subset i hi)
    have hne : i ≠ list.nextCell := by
      rintro rfl
      have hnodup := (hF.perm.nodup_iff.2 List.nodup_range).of_map UInt32.toNat
      exact (List.nodup_cons.1 hnodup).1 (by simp [hi])
    have hbefore : before.getLast? ≠ some i :=
      fun h => hlive (List.mem_append_left _ (List.mem_of_getLast? h))
    have hafter : after.head? ≠ some i :=
      fun h => hlive (List.mem_append_right _ (List.mem_of_head? h))
    obtain ⟨generation, hblank⟩ := H.blank i (hF.free_subset i hi)
    exact ⟨generation, (cell?_join_of_ne hbefore hafter).trans ((hF.others i hne).trans hblank)⟩
  · rw [entryAt?_join]
    simp [entryAt?, hcell, hF.id_eq]
  · intro k hk
    rw [entryAt?_join]
    simp [entryAt?, hF.others k hk, hF.id_eq]

/-- A good handle names the entry of its cell. -/
theorem resolve?_eq_some_iff {list : HandleList α} {handle : Handle} {cell : ListCell α} :
    list.resolve? handle = some cell ↔ list.cell? handle.index = some cell ∧
      ∃ value, cell.value = some value ∧ list.entryAt? handle.index = some (handle, value) := by
  obtain ⟨id, index, generation⟩ := handle
  simp only [resolve?, entryAt?]
  by_cases hid : id = list.id
  · cases hcell : list.cell? index with
    | none => simp
    | some other =>
      cases hvalue : other.value with
      | none => simp [hvalue, Option.filter]
      | some value =>
        by_cases hgen : other.generation = generation
        · simp [hid, hgen, hvalue, Option.filter]
          rintro rfl
          exact hvalue
        · simp [hid, hgen, hvalue, Option.filter]
  · simp only [hid, if_false]
    cases list.cell? index with
    | none => simp
    | some other => cases other.value <;> simp [Ne.symm hid]

/-- The list with a cell emptied that its neighbours still point to. -/
def vacate (list : HandleList α) (index : UInt32) : HandleList α :=
  list.modifyCell index fun cell => ⟨none, none, none, cell.generation + 1⟩

theorem cell?_vacate {list : HandleList α} {index : UInt32} {cell : ListCell α}
    (h : list.cell? index = some cell) (k : UInt32) : (list.vacate index).cell? k =
      if index = k then some ⟨none, none, none, cell.generation + 1⟩ else list.cell? k := by
  rw [vacate, cell?_modifyCell]
  by_cases hk : index = k
  · subst hk
    simp [h]
  · simp [hk]

theorem remove_eq {list : HandleList α} {handle : Handle} {cell : ListCell α}
    (h : list.resolve? handle = some cell) : list.remove handle =
      (cell.value, { (list.vacate handle.index).join cell.prev cell.next cell.next cell.prev with
        free := handle.index :: list.free, size := list.size - 1 }) := by
  obtain ⟨-, hfree, hsize, -⟩ :=
    (list.vacate handle.index).join_frame cell.prev cell.next cell.next cell.prev
  change _ = list.free at hfree
  change _ = list.size at hsize
  rw [← hfree, ← hsize, remove, h]
  rfl

/-- Removal takes one element out of the order, frees its cell and moves no other element. -/
theorem Linked.remove {list : HandleList α} {before after : List UInt32} {handle : Handle}
    {cell : ListCell α} (H : list.Linked (before ++ handle.index :: after))
    (h : list.resolve? handle = some cell) :
    let list' := (list.remove handle).2
    list'.Linked (before ++ after) ∧ list'.id = list.id ∧
      list'.cells.size = list.cells.size ∧
      ∀ k, k ≠ handle.index → list'.entryAt? k = list.entryAt? k := by
  obtain ⟨hcell, -⟩ := resolve?_eq_some_iff.1 h
  obtain ⟨value, generation, hcell'⟩ := H.cell before handle.index after rfl
  obtain ⟨hbefore, hcons, hdisjoint⟩ := List.nodup_append.1 H.nodup
  obtain ⟨hindex, hafter⟩ := List.nodup_cons.1 hcons
  obtain rfl : cell = ⟨some value, before.getLast?, after.head?, generation⟩ :=
    Option.some.inj (hcell.symm.trans hcell')
  obtain ⟨hid, -, -, hsize, hhead, htail⟩ :=
    (list.vacate handle.index).join_frame before.getLast? after.head? after.head? before.getLast?
  have hkept : ∀ k, handle.index ≠ k → (list.vacate handle.index).cell? k = list.cell? k :=
    fun k hk => (cell?_vacate hcell k).trans (if_neg hk)
  rw [remove_eq h]
  refine ⟨⟨?_, ?_, ?_, ?_, ?_, ?_⟩, hid, ?_, ?_⟩
  · rw [hhead, show (list.vacate handle.index).head = list.head from rfl, H.head_eq]
    cases before <;> simp
  · rw [htail, show (list.vacate handle.index).tail = list.tail from rfl, H.tail_eq]
    cases after with
    | nil => simp
    | cons j after => simp [List.getLast?_cons]
  · simp [H.size_eq]
  · intro before' i after' horder
    rcases append_eq_append_cons_iff.1 horder with ⟨mid, rfl, rfl⟩ | ⟨mid, rfl, rfl⟩
    · obtain ⟨old, generation, hi⟩ := H.cell before' i (mid ++ handle.index :: after) (by simp)
      have hne : handle.index ≠ i := fun h => hdisjoint i (by simp) handle.index (by simp) h.symm
      have hnext : after.head? ≠ some i :=
        fun h => hdisjoint i (by simp) i (List.mem_cons_of_mem _ (List.mem_of_head? h)) rfl
      exact ⟨old, generation, cell_join_front hbefore hnext rfl ((hkept i hne).trans hi)⟩
    · obtain ⟨old, generation, hi⟩ := H.cell (before ++ handle.index :: mid) i after' (by simp)
      have hne : handle.index ≠ i := by rintro rfl; simp at hindex
      have hprev : before.getLast? ≠ some i :=
        fun h => hdisjoint i (List.mem_of_getLast? h) i (by simp) rfl
      rw [List.append_cons] at hi
      exact ⟨old, generation, cell_join_back hafter hprev rfl ((hkept i hne).trans hi)⟩
  · have hperm := H.perm
    rw [hsize, show (list.vacate handle.index).cells.size = list.cells.size by
      simp [vacate]]
    refine .trans (.map _ ?_) hperm
    rw [List.append_assoc, List.append_assoc]
    exact List.perm_middle.append_left before
  · intro i hi
    have hlive : i ∉ before ++ after := by
      rcases List.mem_cons.1 hi with rfl | hi
      · intro hmem
        rcases List.mem_append.1 hmem with hmem | hmem
        · exact hdisjoint _ hmem handle.index (by simp) rfl
        · exact hindex hmem
      · exact fun hmem => H.notMem_free (by
          rcases List.mem_append.1 hmem with hmem | hmem <;> simp [hmem]) hi
    have hprev : before.getLast? ≠ some i :=
      fun h => hlive (List.mem_append_left _ (List.mem_of_getLast? h))
    have hnext : after.head? ≠ some i :=
      fun h => hlive (List.mem_append_right _ (List.mem_of_head? h))
    have hjoin : ((list.vacate handle.index).join before.getLast? after.head? after.head?
        before.getLast?).cell? i = (list.vacate handle.index).cell? i :=
      cell?_join_of_ne hprev hnext
    rcases List.mem_cons.1 hi with rfl | hi
    · exact ⟨generation + 1, hjoin.trans ((cell?_vacate hcell _).trans (if_pos rfl))⟩
    · obtain ⟨generation, hblank⟩ := H.blank i hi
      have hne : handle.index ≠ i := by rintro rfl; exact H.notMem_free (by simp) hi
      exact ⟨generation, hjoin.trans ((hkept i hne).trans hblank)⟩
  · rw [hsize]
    simp [vacate]
  · intro k hk
    have hentry := (list.vacate handle.index).entryAt?_join before.getLast? after.head? after.head?
      before.getLast? k
    refine Eq.trans hentry ?_
    rw [entryAt?, hkept k hk.symm]
    rfl

/-! ## Writing the elements -/

theorem Linked.modifyCell {list : HandleList α} {order : List UInt32} (H : list.Linked order)
    (index : UInt32) (f : α → α) :
    (list.modifyCell index fun cell => { cell with value := cell.value.map f }).Linked order where
  head_eq := H.head_eq
  tail_eq := H.tail_eq
  size_eq := H.size_eq
  cell before i after h := by
    obtain ⟨value, generation, hi⟩ := H.cell before i after h
    by_cases hk : index = i
    · exact ⟨f value, generation, by simp [cell?_modifyCell, hk, hi]⟩
    · exact ⟨value, generation, by simp [cell?_modifyCell, hk, hi]⟩
  perm := by simpa [HandleList.modifyCell] using H.perm
  blank i hi := by
    obtain ⟨generation, h⟩ := H.blank i hi
    refine ⟨generation, ?_⟩
    by_cases hk : index = i <;> simp [cell?_modifyCell, hk, h]

theorem entryAt?_modifyCell (list : HandleList α) (index : UInt32) (f : α → α) (k : UInt32) :
    (list.modifyCell index fun cell => { cell with value := cell.value.map f }).entryAt? k =
      (list.entryAt? k).map fun entry => if index = k then (entry.1, f entry.2) else entry := by
  by_cases hk : index = k
  · subst hk
    simp only [entryAt?, cell?_modifyCell, if_true]
    cases list.cell? index with
    | none => rfl
    | some cell => cases hv : cell.value <;> simp [hv]
  · simp [entryAt?, cell?_modifyCell, hk]

end HandleList
end StyleTree
