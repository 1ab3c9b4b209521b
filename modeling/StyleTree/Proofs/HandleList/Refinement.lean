import Mathlib.Data.List.Infix
import StyleTree.Proofs.HandleList.Visits

/-! Lists with handles behave as plain sequences. `Pool.Acts` says what each operation does to
sequences of elements with handles, without cells and links. `Pool.run_refines` shows that after any
run the links are sound (`HandleList.Sound`), that every further operation acts on the sequences as
`Pool.Acts` says, and that a list never has more cells than elements it once held.

All this holds of runs in which no list has more elements than there are numbers for cells
(`Pool.Fits`). With one element more the links are not in order any longer
(`HandleList.Valid.append_full`). -/

namespace StyleTree
namespace HandleList

variable {α : Type}

/-- The links, the free cells and the count of a list agree with the sequence that is met by
following `next` from `head`. -/
structure Sound (list : HandleList α) : Prop where
  /-- The walk ends, at a cell without successor. -/
  follows : list.Follows list.head list.indices
  length_indices : list.indices.length = list.size
  tail_eq : list.tail = list.indices.getLast?
  next_iff_prev : ∀ i j, (list.cell? i).bind ListCell.next = some j ↔
    (list.cell? j).bind ListCell.prev = some i
  mem_indices : ∀ i, i ∈ list.indices ↔ (list.valueAt? i).isSome
  nodup_free : list.free.Nodup
  mem_free : ∀ i, i ∈ list.free ↔ i.toNat < list.cells.size ∧ list.valueAt? i = none
  size_add_free : list.size + list.free.length = list.cells.size
  /-- Every cell has a number. -/
  size_cells_le : list.cells.size ≤ 2 ^ 32
  head_lt : ∀ i, list.head = some i → i.toNat < list.cells.size
  tail_lt : ∀ i, list.tail = some i → i.toNat < list.cells.size
  link_lt : ∀ cell ∈ list.cells, ∀ i, cell.next = some i ∨ cell.prev = some i →
    i.toNat < list.cells.size
  /-- Elements, handles and the entries are met in one order, and no handle is met twice. -/
  toList_eq : list.toList = list.entries.map Prod.snd
  handles_eq : list.handles = list.entries.map Prod.fst
  nodup_handles : list.handles.Nodup
  length_entries : list.entries.length = list.size
  /-- A handle is good exactly if it is met, and then it gives the element it is met with. -/
  get?_eq : ∀ handle value, list.get? handle = some value ↔ (handle, value) ∈ list.entries
  contains_iff : ∀ handle, list.contains handle ↔ handle ∈ list.handles
  size_pos : ∀ handle, list.contains handle → 0 < list.size

namespace Linked

variable {list : HandleList α} {order : List UInt32}

theorem next_eq_some_iff (H : list.Linked order) {i j : UInt32} :
    (list.cell? i).bind ListCell.next = some j ↔
      ∃ before after, order = before ++ i :: j :: after := by
  constructor
  · intro h
    obtain ⟨cell, hcell, hnext⟩ := Option.bind_eq_some_iff.1 h
    by_cases hi : i ∈ order
    · obtain ⟨before, after, rfl⟩ := List.append_of_mem hi
      obtain ⟨value, generation, hcell'⟩ := H.cell before i after rfl
      obtain rfl := Option.some.inj (hcell.symm.trans hcell')
      obtain ⟨after, rfl⟩ := List.head?_eq_some_iff.1 hnext
      exact ⟨before, after, rfl⟩
    · obtain ⟨generation, rfl⟩ := H.cell_of_notMem hi hcell
      simp at hnext
  · rintro ⟨before, after, rfl⟩
    obtain ⟨value, generation, hcell⟩ := H.cell before i (j :: after) rfl
    simp [hcell]

theorem prev_eq_some_iff (H : list.Linked order) {i j : UInt32} :
    (list.cell? j).bind ListCell.prev = some i ↔
      ∃ before after, order = before ++ i :: j :: after := by
  constructor
  · intro h
    obtain ⟨cell, hcell, hprev⟩ := Option.bind_eq_some_iff.1 h
    by_cases hj : j ∈ order
    · obtain ⟨before, after, rfl⟩ := List.append_of_mem hj
      obtain ⟨value, generation, hcell'⟩ := H.cell before j after rfl
      obtain rfl := Option.some.inj (hcell.symm.trans hcell')
      obtain ⟨before, rfl⟩ := List.getLast?_eq_some_iff.1 hprev
      exact ⟨before, after, by simp⟩
    · obtain ⟨generation, rfl⟩ := H.cell_of_notMem hj hcell
      simp at hprev
  · rintro ⟨before, after, rfl⟩
    obtain ⟨value, generation, hcell⟩ := H.cell (before ++ [i]) j after (by simp)
    simp [hcell]

theorem lt_of_mem (H : list.Linked order) {i : UInt32} (hi : i ∈ order) :
    i.toNat < list.cells.size :=
  H.lt_size_iff.2 (.inl hi)

/-- Every cell is that of a number. -/
theorem exists_number (H : list.Linked order) {cell : ListCell α} (h : cell ∈ list.cells) :
    ∃ i, list.cell? i = some cell := by
  obtain ⟨k, hk, rfl⟩ := Array.mem_iff_getElem.1 h
  have hlt : k < UInt32.size := Nat.lt_of_lt_of_le hk H.size_cells_le
  exact ⟨UInt32.ofNat k, by simp [cell?, UInt32.toNat_ofNat_of_lt' hlt, hk]⟩

theorem mem_free_iff (H : list.Linked order) {i : UInt32} :
    i ∈ list.free ↔ i.toNat < list.cells.size ∧ list.valueAt? i = none := by
  rw [H.lt_size_iff, ← Option.not_isSome_iff_eq_none, ← H.mem_order_iff]
  constructor
  · exact fun hi => ⟨.inr hi, fun h => H.notMem_free h hi⟩
  · exact fun ⟨h, hi⟩ => h.resolve_left hi

theorem get?_eq_some_iff (H : list.Linked order) {handle : Handle} {value : α} :
    list.get? handle = some value ↔ (handle, value) ∈ list.entries := by
  constructor
  · intro h
    obtain ⟨cell, hcell, hvalue⟩ := Option.bind_eq_some_iff.1 h
    obtain ⟨hat, value', hvalue', hentry⟩ := resolve?_eq_some_iff.1 hcell
    obtain rfl := Option.some.inj (hvalue.symm.trans hvalue')
    rw [H.entries_eq]
    refine List.mem_filterMap.2 ⟨handle.index, H.mem_order_iff.2 ?_, hentry⟩
    simp [valueAt?, hat, hvalue]
  · intro h
    obtain ⟨front, back, hsplit⟩ := List.append_of_mem h
    obtain ⟨before, after, -, -, -, -, hresolve⟩ := H.split hsplit
    simp [get?, hresolve]

theorem contains_iff (H : list.Linked order) {handle : Handle} :
    list.contains handle ↔ handle ∈ list.handles := by
  rw [contains, H.handles_eq, ← not_iff_not, ← H.resolve?_eq_none_iff,
    Option.not_isSome_iff_eq_none]

end Linked

theorem Valid.sound {list : HandleList α} (H : list.Valid) : list.Sound where
  follows := H.follows
  length_indices := H.size_eq.symm
  tail_eq := H.tail_eq
  next_iff_prev i j := H.next_eq_some_iff.trans H.prev_eq_some_iff.symm
  mem_indices i := H.mem_order_iff
  nodup_free := (List.nodup_append.1 H.nodup_append).2.1
  mem_free i := H.mem_free_iff
  size_add_free := by rw [H.size_eq, H.length_add_free]
  size_cells_le := H.size_cells_le
  head_lt i h := H.lt_of_mem (List.mem_of_head? (H.head_eq.symm.trans h))
  tail_lt i h := H.lt_of_mem (List.mem_of_getLast? (H.tail_eq.symm.trans h))
  link_lt cell hcell i h := by
    obtain ⟨k, hat⟩ := H.exists_number hcell
    rcases h with h | h
    · obtain ⟨before, after, horder⟩ := H.next_eq_some_iff.1
        (show (list.cell? k).bind ListCell.next = some i by simp [hat, h])
      exact H.lt_of_mem (by simp [horder])
    · obtain ⟨before, after, horder⟩ := H.prev_eq_some_iff.1
        (show (list.cell? k).bind ListCell.prev = some i by simp [hat, h])
      exact H.lt_of_mem (by simp [horder])
  toList_eq := H.toList_eq
  handles_eq := H.handles_eq
  nodup_handles := by
    have hnodup := H.nodup
    rw [← H.map_index_entries] at hnodup
    rw [H.handles_eq]
    refine List.Nodup.of_map Handle.index ?_
    rw [List.map_map]
    exact hnodup
  length_entries := H.size_eq_length.symm
  get?_eq handle value := H.get?_eq_some_iff
  contains_iff handle := H.contains_iff
  size_pos handle h := by
    rw [H.size_eq_length]
    obtain ⟨entry, hentry, -⟩ := List.mem_map.1 (H.handles_eq ▸ H.contains_iff.1 h)
    exact List.length_pos_of_mem hentry

/-! ## One element too many -/

/-- A list with all the cells that have numbers has no free ones. -/
theorem Valid.isFull {list : HandleList α} (H : list.Valid) (hfull : list.size = 2 ^ 32) :
    list.free = [] ∧ ∀ i, i ∈ list.indices := by
  have hlength := H.length_add_free
  have hle := H.size_cells_le
  rw [← H.size_eq, hfull] at hlength
  have hfree : list.free = [] := List.eq_nil_of_length_eq_zero (by omega)
  refine ⟨hfree, fun i => ?_⟩
  have hlt : i.toNat < list.cells.size := Nat.lt_of_lt_of_le i.toNat_lt (by omega)
  simpa [hfree] using H.lt_size_iff.1 hlt

/-- The element after the last number takes the number of an element that is there already, and
then the links lead from every cell to another. -/
theorem Valid.append_full {list : HandleList α} (H : list.Valid) (hfull : list.size = 2 ^ 32)
    (value : α) :
    (∃ handle ∈ list.handles, (list.append value).1 = some handle) ∧
      (list.append value).2.head ≠ none ∧
      ∀ i, ∃ j, ((list.append value).2.cell? i).bind ListCell.next = some j := by
  obtain ⟨hfree, hall⟩ := H.isFull hfull
  have hcells : list.cells.size = 2 ^ 32 := by
    rw [← H.length_add_free, ← H.size_eq, hfull, hfree, List.length_nil, Nat.add_zero]
  have hjoin : (list.append value).2 = (list.allocate value list.tail none).2.join list.tail none
      (some list.nextCell) (some list.nextCell) := list.insertBetween_eq value list.tail none
  -- Every number names the cell it named before; the cell that is added has none.
  have hkept : ∀ i, (list.allocate value list.tail none).2.cell? i = list.cell? i := by
    intro i
    have hlt : i.toNat < list.cells.size := hcells ▸ i.toNat_lt
    simp [allocate, hfree, cell?, Array.getElem?_push, Nat.ne_of_lt hlt]
  have hframe : (list.allocate value list.tail none).2.id = list.id ∧
      (list.allocate value list.tail none).2.head = list.head := by
    simp [allocate, hfree]
  obtain ⟨hid, -, -, -, hhead, -⟩ := (list.allocate value list.tail none).2.join_frame list.tail
    none (some list.nextCell) (some list.nextCell)
  rw [← hjoin] at hid hhead
  refine ⟨?_, ?_, fun i => ?_⟩
  · obtain ⟨generation, _, -, hhandle, -⟩ := Linked.entryAt?_of_mem H (hall list.nextCell)
    refine ⟨_, List.mem_filterMap.2 ⟨_, hall list.nextCell, hhandle⟩, ?_⟩
    rw [append, insertBetween_fst, ← hhandle, ← append]
    simp only [handleAt, hid, hframe.1]
    rw [hjoin, cell?_join, hkept, Option.map_map]
    rfl
  · rw [hhead, hframe.2, H.head_eq]
    obtain ⟨first, order, horder⟩ := List.exists_cons_of_ne_nil (List.ne_nil_of_mem (hall 0))
    split <;> simp [horder]
  · obtain ⟨before, after, horder⟩ := List.append_of_mem (hall i)
    obtain ⟨old, generation, hcell⟩ := H.cell before i after horder
    rw [hjoin, cell?_join, hkept, hcell, Option.map_some, Option.bind_some]
    by_cases hlast : list.tail = some i
    · exact ⟨list.nextCell, if_pos hlast⟩
    · cases after with
      | nil => exact absurd (by rw [H.tail_eq, horder, List.getLast?_concat]) hlast
      | cons j after => exact ⟨j, if_neg hlast⟩

/-- Where every cell leads to another, following the links does not end. -/
theorem Follows.start_eq_none {list : HandleList α} {start : Option UInt32} {order : List UInt32}
    (h : list.Follows start order) (hnext : ∀ i, ∃ j, (list.cell? i).bind ListCell.next = some j) :
    start = none := by
  induction h with
  | nil => rfl
  | @cons index cell _ hcell _ ih =>
    obtain ⟨j, hj⟩ := hnext index
    rw [hcell, Option.bind_some, ih] at hj
    exact nomatch hj

/-- Two lists in order are equal exactly if their sequences of elements are. -/
theorem Valid.sameElements_iff [DecidableEq α] {list other : HandleList α} (H : list.Valid)
    (H' : other.Valid) :
    list.sameElements other ↔ list.entries.map Prod.snd = other.entries.map Prod.snd := by
  rw [sameElements, H.toList_eq, H'.toList_eq, Bool.and_eq_true, decide_eq_true_iff,
    decide_eq_true_iff, and_iff_right_iff_imp, H.size_eq_length, H'.size_eq_length]
  intro h
  simpa using congrArg List.length h

end HandleList

namespace Pool

variable {α : Type}

/-! ## Sequences of elements with handles -/

/-- The elements of each list with their handles. -/
def entries (pool : Pool α) : List (List (Handle × α)) :=
  pool.lists.toList.map HandleList.entries

/-- What an operation answers and what it makes of the sequences. An insertion gives the new element
a handle of its own; an operation with a handle that is not in the sequence changes nothing. -/
inductive Acts (seqs : List (List (Handle × α))) :
    Op α → Reply α → List (List (Handle × α)) → Prop
  | new (id values) :
    Acts seqs (.new values) (.list seqs.length) (seqs ++ [HandleList.labelled id values])
  | copy (id index) :
    Acts seqs (.copy index) (.list seqs.length)
      (seqs ++ [HandleList.labelled id ((seqs.getD index []).map Prod.snd)])
  | append (index value handle) :
    Acts seqs (.append index value) (.handle (some handle))
      (seqs.set index (seqs.getD index [] ++ [(handle, value)]))
  | prepend (index value handle) :
    Acts seqs (.prepend index value) (.handle (some handle))
      (seqs.set index ((handle, value) :: seqs.getD index []))
  | insertBefore {index front handle old back} (value new)
    (h : seqs.getD index [] = front ++ (handle, old) :: back) :
    Acts seqs (.insertBefore index handle value) (.handle (some new))
      (seqs.set index (front ++ (new, value) :: (handle, old) :: back))
  | insertBefore_refused {index handle} (value) (h : handle ∉ (seqs.getD index []).map Prod.fst) :
    Acts seqs (.insertBefore index handle value) (.handle none) seqs
  | insertAfter {index front handle old back} (value new)
    (h : seqs.getD index [] = front ++ (handle, old) :: back) :
    Acts seqs (.insertAfter index handle value) (.handle (some new))
      (seqs.set index (front ++ (handle, old) :: (new, value) :: back))
  | insertAfter_refused {index handle} (value) (h : handle ∉ (seqs.getD index []).map Prod.fst) :
    Acts seqs (.insertAfter index handle value) (.handle none) seqs
  | remove {index front handle old back} (h : seqs.getD index [] = front ++ (handle, old) :: back) :
    Acts seqs (.remove index handle) (.value (some old)) (seqs.set index (front ++ back))
  | remove_refused {index handle} (h : handle ∉ (seqs.getD index []).map Prod.fst) :
    Acts seqs (.remove index handle) (.value none) seqs
  | popBack {index front handle old} (h : seqs.getD index [] = front ++ [(handle, old)]) :
    Acts seqs (.popBack index) (.value (some old)) (seqs.set index front)
  | popBack_empty {index} (h : seqs.getD index [] = []) :
    Acts seqs (.popBack index) (.value none) seqs
  | popFront {index handle old back} (h : seqs.getD index [] = (handle, old) :: back) :
    Acts seqs (.popFront index) (.value (some old)) (seqs.set index back)
  | popFront_empty {index} (h : seqs.getD index [] = []) :
    Acts seqs (.popFront index) (.value none) seqs
  | write {index front handle old back} (value)
    (h : seqs.getD index [] = front ++ (handle, old) :: back) :
    Acts seqs (.write index handle value) (.value (some old))
      (seqs.set index (front ++ (handle, value) :: back))
  | write_refused {index handle} (value) (h : handle ∉ (seqs.getD index []).map Prod.fst) :
    Acts seqs (.write index handle value) (.value none) seqs
  /-- The elements are handed over in order, and each is replaced by what the visitor makes of it
  after those before. -/
  | visitEach (index visit) :
    Acts seqs (.visitEach index visit) (.values ((seqs.getD index []).map Prod.snd))
      (seqs.set index ((seqs.getD index []).mapIdx fun place entry =>
        (entry.1, visit (((seqs.getD index []).take place).map Prod.snd) entry.2)))
  | extend (index) {values : List α} {handles : List Handle}
    (h : handles.length = values.length) :
    Acts seqs (.extend index values) .nothing
      (seqs.set index (seqs.getD index [] ++ handles.zip values))
  | clear (index) : Acts seqs (.clear index) .nothing (seqs.set index [])
  | take (index) :
    Acts seqs (.take index) (.values ((seqs.getD index []).map Prod.snd)) (seqs.set index [])

/-- Whether the operation empties the list at a place, cells and all. -/
def Op.resets (op : Op α) (index : Nat) : Bool :=
  match op with
  | .clear other | .take other => other = index
  | _ => false

/-- The largest number of elements that the list at a place had since it was last emptied, over a
run from a pool where that number was `high`. -/
def peak (index : Nat) (pool : Pool α) (high : Nat) : List (Op α) → Nat
  | [] => high
  | op :: ops =>
    let pool' := (pool.step op).2
    peak index pool' (max (if op.resets index then 0 else high) (pool'.getList index).size) ops

theorem run_append (pool : Pool α) (ops ops' : List (Op α)) :
    pool.run (ops ++ ops') = (pool.run ops).run ops' :=
  List.foldl_append

/-- No list has more elements, at any time of a run, than there are numbers for cells. -/
def Fits (pool : Pool α) (ops : List (Op α)) : Prop :=
  ∀ before, before <+: ops → ∀ list ∈ (pool.run before).lists, list.size ≤ 2 ^ 32

instance (pool : Pool α) (ops : List (Op α)) : Decidable (pool.Fits ops) :=
  decidable_of_iff
    (∀ before ∈ ops.inits, ∀ list ∈ (pool.run before).lists.toList, list.size ≤ 2 ^ 32)
    (by simp [Fits])

theorem Fits.left {pool : Pool α} {ops ops' : List (Op α)} (h : pool.Fits (ops ++ ops')) :
    pool.Fits ops :=
  fun before hbefore => h before (hbefore.trans (List.prefix_append ..))

theorem Fits.right {pool : Pool α} {ops ops' : List (Op α)} (h : pool.Fits (ops ++ ops')) :
    (pool.run ops).Fits ops' := by
  intro before hbefore
  have hrun := h (ops ++ before) ((List.prefix_append_right_inj ops).2 hbefore)
  rwa [run_append] at hrun

theorem Fits.head {pool : Pool α} {op : Op α} {ops : List (Op α)} (h : pool.Fits (op :: ops)) :
    pool.Fits [op] :=
  fun before hbefore => h before (hbefore.trans (List.prefix_append [op] ops))

theorem Fits.tail {pool : Pool α} {op : Op α} {ops : List (Op α)} (h : pool.Fits (op :: ops)) :
    (pool.step op).2.Fits ops :=
  fun before hbefore => h (op :: before) (List.cons_prefix_cons.2 ⟨rfl, hbefore⟩)

/-! ## One operation -/

/-- The links of every list are in order. -/
def Valid (pool : Pool α) : Prop :=
  ∀ index, (pool.getList index).Valid

/-- An operation keeps the links in order, acts on the sequences, and takes a new cell only where
the list had never been that long. -/
structure Refines (pool : Pool α) (op : Op α) : Prop where
  valid : (pool.step op).2.Valid
  acts : Acts pool.entries op (pool.step op).1 (pool.step op).2.entries
  size_cells : ∀ index, ((pool.step op).2.getList index).cells.size =
    max (if op.resets index then 0 else (pool.getList index).cells.size)
      ((pool.step op).2.getList index).size

theorem getD_entries (pool : Pool α) (index : Nat) :
    pool.entries.getD index [] = (pool.getList index).entries := by
  rw [entries, getList, List.getD_eq_getElem?_getD, List.getElem?_map, Array.getElem?_toList]
  cases pool.lists[index]? with
  | none => simp [HandleList.entries_empty]
  | some list => rfl

theorem entries_setList (pool : Pool α) (index : Nat) (list : HandleList α) :
    (pool.setList index list).entries = pool.entries.set index list.entries := by
  simp [entries, setList]

theorem getList_setList (pool : Pool α) (index : Nat) (list : HandleList α) (other : Nat) :
    ((index = other → pool.getList other = .empty 0) ∧
        (pool.setList index list).getList other = pool.getList other) ∨
      index = other ∧ (pool.setList index list).getList other = list := by
  simp only [getList, setList, Array.getElem?_setIfInBounds]
  by_cases h : index = other
  · subst h
    by_cases hlt : index < pool.lists.size
    · exact .inr ⟨rfl, by simp [hlt]⟩
    · exact .inl (by simp [hlt])
  · exact .inl (by simp [h])

@[simp] theorem setList_getList (pool : Pool α) (index : Nat) :
    pool.setList index (pool.getList index) = pool := by
  have hlists : pool.lists.setIfInBounds index (pool.getList index) = pool.lists := by
    refine Array.ext_getElem? fun i => ?_
    rw [Array.getElem?_setIfInBounds]
    by_cases h : index = i
    · subst h
      by_cases hlt : index < pool.lists.size <;> simp [hlt, getList]
    · simp [h]
  rw [setList, hlists]

/-! ## Room for new elements -/

theorem Fits.size_le {pool : Pool α} {op : Op α} (h : pool.Fits [op]) (index : Nat)
    {list : HandleList α} (hlist : (pool.step op).2.lists[index]? = some list) :
    list.size ≤ 2 ^ 32 :=
  h [op] (List.prefix_refl _) list (Array.mem_of_getElem? hlist)

/-- A list has room for what an operation puts into it. -/
theorem Fits.size_le_of_setList {pool : Pool α} {op : Op α} (h : pool.Fits [op]) {index : Nat}
    {list : HandleList α} (hstep : (pool.step op).2 = pool.setList index list)
    (hlt : index < pool.lists.size) : list.size ≤ 2 ^ 32 :=
  h.size_le index (by simp [hstep, setList, hlt])

/-- Where one element is put in there was a number left for a cell. -/
theorem Fits.size_lt_of_setList {pool : Pool α} {op : Op α} (h : pool.Fits [op]) {index : Nat}
    {list : HandleList α} (hstep : (pool.step op).2 = pool.setList index list)
    (hsize : list.size = (pool.getList index).size + 1) : (pool.getList index).size < 2 ^ 32 := by
  by_cases hlt : index < pool.lists.size
  · have := h.size_le_of_setList hstep hlt
    omega
  · simp [getList, hlt, HandleList.empty]

theorem Fits.length_le_of_addList {pool : Pool α} {op : Op α} (h : pool.Fits [op])
    {values : List α} (hstep : (pool.step op).2 = pool.addList values) :
    values.length ≤ 2 ^ 32 := by
  have hlist : (pool.step op).2.lists[pool.lists.size]? = some (.ofList pool.nextId values) := by
    simp [hstep, addList]
  simpa using h.size_le pool.lists.size hlist

section

variable {pool : Pool α} {index : Nat} {handle : Handle} {value : α} {values : List α}

theorem Fits.append (h : pool.Fits [.append index value]) : (pool.getList index).size < 2 ^ 32 :=
  h.size_lt_of_setList rfl (HandleList.size_append ..)

theorem Fits.prepend (h : pool.Fits [.prepend index value]) : (pool.getList index).size < 2 ^ 32 :=
  h.size_lt_of_setList rfl (HandleList.size_prepend ..)

theorem Fits.insertBefore (h : pool.Fits [.insertBefore index handle value])
    (hgood : (pool.getList index).resolve? handle ≠ none) : (pool.getList index).size < 2 ^ 32 :=
  h.size_lt_of_setList rfl (HandleList.size_insertBefore hgood value)

theorem Fits.insertAfter (h : pool.Fits [.insertAfter index handle value])
    (hgood : (pool.getList index).resolve? handle ≠ none) : (pool.getList index).size < 2 ^ 32 :=
  h.size_lt_of_setList rfl (HandleList.size_insertAfter hgood value)

theorem Fits.extend (h : pool.Fits [.extend index values]) (hlt : index < pool.lists.size) :
    (pool.getList index).size + values.length ≤ 2 ^ 32 := by
  simpa using h.size_le_of_setList rfl hlt

end

/-! ## What an operation leaves -/

/-- An operation that replaces one list by a list grown from it. -/
theorem refines_of_grows {pool : Pool α} {op : Op α} {index : Nat} {list : HandleList α}
    {reply : Reply α} (H : pool.Valid) (hgrows : (pool.getList index).Grows list)
    (hstep : (pool.step op).2 = pool.setList index list) (hresets : op.resets = fun _ => false)
    (hreply : (pool.step op).1 = reply)
    (hacts : Acts pool.entries op reply (pool.entries.set index list.entries)) :
    pool.Refines op where
  valid other := by
    rw [hstep]
    rcases pool.getList_setList index list other with ⟨-, h⟩ | ⟨-, h⟩
    · rw [h]
      exact H other
    · rw [h]
      exact hgrows.valid
  acts := by rwa [hreply, hstep, entries_setList]
  size_cells other := by
    rw [hstep, hresets]
    rcases pool.getList_setList index list other with ⟨-, h⟩ | ⟨rfl, h⟩
    · rw [h]
      exact (H other).grows_self.size_cells
    · rw [h]
      exact hgrows.size_cells

/-- An operation that leaves every list as it was. -/
theorem refines_of_unchanged {pool : Pool α} {op : Op α} {reply : Reply α} (H : pool.Valid)
    (hstep : pool.step op = (reply, pool)) (hresets : op.resets = fun _ => false)
    (hacts : Acts pool.entries op reply pool.entries) : pool.Refines op where
  valid := by rwa [hstep]
  acts := by rwa [hstep]
  size_cells index := by
    rw [hstep, hresets]
    exact (H index).grows_self.size_cells

/-- An operation that adds a list of given values. -/
theorem refines_of_addList {pool : Pool α} {op : Op α} {values : List α} (H : pool.Valid)
    (hroom : values.length ≤ 2 ^ 32) (hstep : (pool.step op).2 = pool.addList values)
    (hresets : op.resets = fun _ => false) (hacts : Acts pool.entries op (pool.step op).1
      (pool.entries ++ [HandleList.labelled pool.nextId values])) : pool.Refines op := by
  have hempty : (HandleList.empty pool.nextId : HandleList α).size + values.length ≤ 2 ^ 32 := by
    simpa [HandleList.empty] using hroom
  have hgrows := ((HandleList.valid_empty pool.nextId).entries_extend hempty).1
  have hget : ∀ index, (pool.addList values).getList index = pool.getList index ∨
      index = pool.lists.size ∧ (pool.addList values).getList index =
        .ofList pool.nextId values := by
    intro index
    simp only [getList, addList, Array.getElem?_push]
    by_cases h : index = pool.lists.size
    · exact .inr ⟨h, by simp [h]⟩
    · exact .inl (by simp [h])
  refine ⟨fun index => ?_, ?_, fun index => ?_⟩
  · rw [hstep]
    rcases hget index with h | ⟨-, h⟩
    · rw [h]
      exact H index
    · rw [h]
      exact hgrows.valid
  · rw [hstep, show (pool.addList values).entries = pool.entries ++
      [HandleList.labelled pool.nextId values] by
        simp [entries, addList, HandleList.entries_ofList _ hroom]]
    exact hacts
  · rw [hstep, hresets]
    rcases hget index with h | ⟨rfl, h⟩
    · rw [h]
      exact (H index).grows_self.size_cells
    · rw [h]
      rw [show pool.getList pool.lists.size = .empty 0 by simp [getList]]
      exact hgrows.size_cells

/-- An operation that leaves an empty list. -/
theorem refines_of_resetList {pool : Pool α} {op : Op α} {index : Nat} (H : pool.Valid)
    (hstep : (pool.step op).2 = pool.resetList index)
    (hresets : op.resets = fun other => decide (index = other))
    (hacts : Acts pool.entries op (pool.step op).1 (pool.entries.set index [])) :
    pool.Refines op := by
  have hget := pool.getList_setList index (.empty pool.nextId)
  refine ⟨fun other => ?_, ?_, fun other => ?_⟩
  · rw [hstep]
    rcases hget other with ⟨-, h⟩ | ⟨-, h⟩
    · rw [show (pool.resetList index).getList other = pool.getList other from h]
      exact H other
    · rw [show (pool.resetList index).getList other = .empty pool.nextId from h]
      exact HandleList.valid_empty _
  · rw [hstep, show (pool.resetList index).entries = pool.entries.set index [] by
      rw [← HandleList.entries_empty pool.nextId, ← entries_setList]
      rfl]
    exact hacts
  · rw [hstep, hresets]
    rcases hget other with ⟨hempty, h⟩ | ⟨rfl, h⟩
    · rw [show (pool.resetList index).getList other = pool.getList other from h]
      by_cases hother : index = other
      · simp [hempty hother, HandleList.empty]
      · simpa [hother] using (H other).grows_self.size_cells
    · rw [show (pool.resetList index).getList index = .empty pool.nextId from h]
      simp [HandleList.empty]

/-- A handle splits the sequence at its element, or is refused. -/
theorem Valid.split_or_refused {pool : Pool α} (H : pool.Valid) (index : Nat) (handle : Handle) :
    (∃ front old back, (pool.getList index).entries = front ++ (handle, old) :: back ∧
        (pool.getList index).resolve? handle ≠ none) ∨
      (pool.getList index).resolve? handle = none ∧
        handle ∉ (pool.entries.getD index []).map Prod.fst := by
  by_cases hmem : handle ∈ (pool.getList index).entries.map Prod.fst
  · obtain ⟨entry, hentry, rfl⟩ := List.mem_map.1 hmem
    obtain ⟨front, back, hsplit⟩ := List.append_of_mem hentry
    refine .inl ⟨front, entry.2, back, hsplit, fun hnone => ?_⟩
    exact ((H index).resolve?_eq_none_iff entry.1).1 hnone (List.mem_map_of_mem hentry)
  · exact .inr ⟨((H index).resolve?_eq_none_iff handle).2 hmem, by rwa [getD_entries]⟩

/-- Every operation on lists in order, with a good handle or not. -/
theorem Valid.refines {pool : Pool α} (H : pool.Valid) {op : Op α} (hfits : pool.Fits [op]) :
    pool.Refines op := by
  have hlength : pool.lists.size = pool.entries.length := by simp [entries]
  cases op with
  | new values =>
    refine refines_of_addList H (hfits.length_le_of_addList rfl) rfl rfl ?_
    rw [step, hlength]
    exact .new ..
  | copy index =>
    refine refines_of_addList H (hfits.length_le_of_addList rfl) rfl rfl ?_
    rw [step, hlength, (H index).toList_eq, ← getD_entries]
    exact .copy ..
  | append index value =>
    obtain ⟨hgrows, -, handle, hhandle, -, -, hentries⟩ :=
      (H index).entries_append hfits.append value
    refine refines_of_grows H hgrows rfl rfl (congrArg Reply.handle hhandle) ?_
    rw [hentries, ← getD_entries]
    exact .append ..
  | prepend index value =>
    obtain ⟨hgrows, handle, hhandle, hentries⟩ := (H index).entries_prepend hfits.prepend value
    refine refines_of_grows H hgrows rfl rfl (congrArg Reply.handle hhandle) ?_
    rw [hentries, ← getD_entries]
    exact .prepend ..
  | insertBefore index handle value =>
    rcases H.split_or_refused index handle with ⟨front, old, back, hsplit, hgood⟩ | ⟨hnone, hmem⟩
    · obtain ⟨hgrows, new, hnew, hentries⟩ :=
        (H index).entries_insertBefore hsplit (hfits.insertBefore hgood) value
      refine refines_of_grows H hgrows rfl rfl (congrArg Reply.handle hnew) ?_
      rw [hentries]
      exact .insertBefore value new ((getD_entries ..).trans hsplit)
    · exact refines_of_unchanged H (by simp [step, HandleList.insertBefore_of_resolve? hnone]) rfl
        (.insertBefore_refused value hmem)
  | insertAfter index handle value =>
    rcases H.split_or_refused index handle with ⟨front, old, back, hsplit, hgood⟩ | ⟨hnone, hmem⟩
    · obtain ⟨hgrows, new, hnew, hentries⟩ :=
        (H index).entries_insertAfter hsplit (hfits.insertAfter hgood) value
      refine refines_of_grows H hgrows rfl rfl (congrArg Reply.handle hnew) ?_
      rw [hentries]
      exact .insertAfter value new ((getD_entries ..).trans hsplit)
    · exact refines_of_unchanged H (by simp [step, HandleList.insertAfter_of_resolve? hnone]) rfl
        (.insertAfter_refused value hmem)
  | remove index handle =>
    rcases H.split_or_refused index handle with ⟨front, old, back, hsplit, -⟩ | ⟨hnone, hmem⟩
    · obtain ⟨hgrows, hold, hentries⟩ := (H index).entries_remove hsplit
      refine refines_of_grows H hgrows rfl rfl (congrArg Reply.value hold) ?_
      rw [hentries]
      exact .remove ((getD_entries ..).trans hsplit)
    · exact refines_of_unchanged H (by simp [step, HandleList.remove_of_resolve? hnone]) rfl
        (.remove_refused hmem)
  | popBack index =>
    rcases List.eq_nil_or_concat (pool.getList index).entries with hnil | ⟨front, entry, hsplit⟩
    · exact refines_of_unchanged H (by simp [step, (H index).popBack_of_nil hnil]) rfl
        (.popBack_empty ((getD_entries ..).trans hnil))
    · rw [List.concat_eq_append] at hsplit
      obtain ⟨hgrows, hold, hentries⟩ := (H index).entries_popBack hsplit
      refine refines_of_grows H hgrows rfl rfl (congrArg Reply.value hold) ?_
      rw [hentries]
      exact .popBack ((getD_entries ..).trans hsplit)
  | popFront index =>
    cases hsplit : (pool.getList index).entries with
    | nil =>
      exact refines_of_unchanged H (by simp [step, (H index).popFront_of_nil hsplit]) rfl
        (.popFront_empty ((getD_entries ..).trans hsplit))
    | cons entry back =>
      obtain ⟨hgrows, hold, hentries⟩ := (H index).entries_popFront hsplit
      refine refines_of_grows H hgrows rfl rfl (congrArg Reply.value hold) ?_
      rw [hentries]
      exact .popFront ((getD_entries ..).trans hsplit)
  | write index handle value =>
    rcases H.split_or_refused index handle with ⟨front, old, back, hsplit, -⟩ | ⟨hnone, hmem⟩
    · obtain ⟨hgrows, hold, hentries⟩ := (H index).entries_write hsplit value
      refine refines_of_grows H hgrows rfl rfl (congrArg Reply.value hold) ?_
      rw [hentries]
      exact .write value ((getD_entries ..).trans hsplit)
    · exact refines_of_unchanged H (by simp [step, HandleList.write_of_resolve? hnone]) rfl
        (.write_refused value hmem)
  | visitEach index visit =>
    obtain ⟨list, hvisit, hgrows, hentries⟩ := (H index).entries_visitEach_remember visit
    have hstep : pool.step (.visitEach index visit) =
        (.values ((pool.getList index).entries.map Prod.snd), pool.setList index list) := by
      simp only [step, hvisit]
    refine refines_of_grows H hgrows (congrArg Prod.snd hstep) rfl (congrArg Prod.fst hstep) ?_
    rw [hentries, ← getD_entries]
    exact .visitEach ..
  | extend index values =>
    by_cases hlt : index < pool.lists.size
    · obtain ⟨hgrows, handles, hhandles, hentries⟩ :=
        (H index).entries_extend (hfits.extend hlt)
      refine refines_of_grows H hgrows rfl rfl rfl ?_
      rw [hentries, ← getD_entries]
      exact .extend index hhandles
    · -- There is no list at the place, and any handles will do.
      have hstep : pool.step (.extend index values) = (.nothing, pool) := by
        simp [step, setList, Array.setIfInBounds, hlt]
      have hacts : Acts pool.entries (.extend index values) .nothing
          (pool.entries.set index (pool.entries.getD index [] ++
            (values.map fun _ => ⟨0, 0, 0⟩).zip values)) := .extend index (List.length_map ..)
      rw [List.set_eq_of_length_le (by omega)] at hacts
      exact refines_of_unchanged H hstep rfl hacts
  | clear index => exact refines_of_resetList H rfl rfl (.clear index)
  | take index =>
    refine refines_of_resetList H rfl rfl ?_
    rw [step, (H index).toList_eq, ← getD_entries]
    exact .take index

/-! ## Every run -/

theorem valid_empty : ({} : Pool α).Valid := by
  intro index
  rw [show ({} : Pool α).getList index = .empty 0 by simp [getList]]
  exact HandleList.valid_empty 0

theorem Valid.run {pool : Pool α} (H : pool.Valid) {ops : List (Op α)} (hfits : pool.Fits ops) :
    (pool.run ops).Valid := by
  induction ops generalizing pool with
  | nil => exact H
  | cons op ops ih => exact ih (H.refines hfits.head).valid hfits.tail

theorem Valid.size_cells_run {pool : Pool α} (H : pool.Valid) (index : Nat) {ops : List (Op α)}
    (hfits : pool.Fits ops) : ((pool.run ops).getList index).cells.size =
      peak index pool (pool.getList index).cells.size ops := by
  induction ops generalizing pool with
  | nil => rfl
  | cons op ops ih =>
    have hrefines := H.refines hfits.head
    rw [peak, ← hrefines.size_cells index]
    exact ih hrefines.valid hfits.tail

/-- **Lists with handles are sequences.** After any run in which no list has more than `2 ^ 32`
elements at once, every list is sound and has as many cells as the most elements it had since it was
last emptied; any further operation that leaves no more elements in a list answers and acts as on
plain sequences of elements with handles; and lists are equal exactly if their elements are,
whatever cells they stand in. -/
theorem run_refines [DecidableEq α] (ops : List (Op α)) (hfits : ({} : Pool α).Fits ops) :
    let pool := ({} : Pool α).run ops
    (∀ index, (pool.getList index).Sound ∧
        (pool.getList index).cells.size = peak index {} 0 ops) ∧
      (∀ op, pool.Fits [op] → Acts pool.entries op (pool.step op).1 (pool.step op).2.entries) ∧
      ∀ index other, (pool.getList index).sameElements (pool.getList other) ↔
        (pool.getList index).entries.map Prod.snd = (pool.getList other).entries.map Prod.snd := by
  have H := valid_empty.run hfits
  refine ⟨fun index => ⟨(H index).sound, ?_⟩, fun op hop => (H.refines hop).acts,
    fun index other => (H index).sameElements_iff (H other)⟩
  exact valid_empty.size_cells_run index hfits

/-- Cells that are used again. -/
def reorder : List (Op Nat) :=
  [.new [1, 2], .popFront 0, .append 0 3, .prepend 0 4]

/-- A visitor that counts what it was handed. -/
def number : Op Nat :=
  .visitEach 0 fun seen value => 10 * value + seen.length

theorem run_refines_reorder : ({} : Pool Nat).Fits reorder ∧
    (({} : Pool Nat).run reorder).Fits [number] ∧
    Acts [[(⟨1, 2, 0⟩, 4), (⟨1, 1, 0⟩, 2), (⟨1, 0, 1⟩, 3)]] number (.values [4, 2, 3])
      [[(⟨1, 2, 0⟩, 40), (⟨1, 1, 0⟩, 21), (⟨1, 0, 1⟩, 32)]] := by
  have hfits : ({} : Pool Nat).Fits reorder := by decide
  have hnumber : (({} : Pool Nat).run reorder).Fits [number] := by decide
  exact ⟨hfits, hnumber, (run_refines reorder hfits).2.1 number hnumber⟩

/-! ## A list with more elements than numbers -/

/-- A list with `n` elements, one appended after the other. -/
def fill (n : Nat) : List (Op Unit) :=
  .new [] :: List.replicate n (.append 0 ())

theorem fill_succ (n : Nat) : fill (n + 1) = fill n ++ [.append 0 ()] := by
  rw [fill, fill, List.replicate_succ', List.cons_append]

theorem run_fill (n : Nat) : ({} : Pool Unit).run (fill n) =
    { nextId := 2, lists := #[.ofList 1 (List.replicate n ())] } := by
  induction n with
  | zero => rfl
  | succ n ih =>
    rw [fill_succ, run_append, ih, List.replicate_succ', HandleList.ofList, HandleList.ofList,
      HandleList.extend, HandleList.extend, List.foldl_append]
    rfl

theorem getList_fill_succ (n : Nat) : (({} : Pool Unit).run (fill (n + 1))).getList 0 =
    (((({} : Pool Unit).run (fill n)).getList 0).append ()).2 := by
  rw [fill_succ, run_append, run_fill]
  rfl

theorem size_fill (n : Nat) : ((({} : Pool Unit).run (fill n)).getList 0).size = n := by
  simp [run_fill, getList]

theorem fits_fill {n : Nat} (h : n ≤ 2 ^ 32) : ({} : Pool Unit).Fits (fill n) := by
  intro before hbefore list hlist
  rcases List.prefix_cons_iff.1 hbefore with rfl | ⟨rest, rfl, later, hrest⟩
  · simp [Pool.run] at hlist
  · obtain ⟨hlength, hrest, -⟩ := List.append_eq_replicate_iff.1 hrest
    rw [hrest, ← fill, run_fill] at hlist
    obtain rfl : list = .ofList 1 (List.replicate rest.length ()) := by simpa using hlist
    rw [HandleList.size_ofList, List.length_replicate]
    omega

/-- With one element more than there are numbers, the links lead from each cell to another and never
to an end. -/
theorem not_follows_fill : ¬∃ order,
    ((({} : Pool Unit).run (fill (2 ^ 32 + 1))).getList 0).Follows
      ((({} : Pool Unit).run (fill (2 ^ 32 + 1))).getList 0).head order := by
  rintro ⟨order, hfollows⟩
  have H := valid_empty.run (fits_fill (Nat.le_refl (2 ^ 32))) 0
  obtain ⟨-, hhead, hnext⟩ := H.append_full (size_fill (2 ^ 32)) ()
  rw [getList_fill_succ (2 ^ 32)] at hfollows
  exact hhead (hfollows.start_eq_none hnext)

end Pool
end StyleTree
