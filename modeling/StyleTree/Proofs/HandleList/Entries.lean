import StyleTree.Proofs.HandleList.Linked

/-! The elements of a `HandleList` as a plain sequence. `HandleList.entries` is the sequence of the
elements with their handles, met by following the links from the first cell on. Each operation is
described by what it does to that sequence; `HandleList.Valid` is the invariant they all keep. -/

namespace StyleTree
namespace HandleList

variable {α : Type}

/-- The cells met by following `next` until it points nowhere. -/
inductive Follows (list : HandleList α) : Option UInt32 → List UInt32 → Prop
  | nil : Follows list none []
  | cons {index cell order} (hcell : list.cell? index = some cell)
    (hnext : Follows list cell.next order) : Follows list (some index) (index :: order)

/-- The elements with their handles, in order. -/
def entries (list : HandleList α) : List (Handle × α) :=
  list.indices.filterMap list.entryAt?

/-- The links are in order. -/
def Valid (list : HandleList α) : Prop :=
  list.Linked list.indices

/-! ## The order is found by following the links -/

theorem Follows.follow_eq {list : HandleList α} {start : Option UInt32} {order : List UInt32}
    (h : list.Follows start order) {count : Nat} (hcount : order.length ≤ count) :
    list.follow count start = order := by
  induction h generalizing count with
  | nil => cases count <;> rfl
  | cons hcell _ ih =>
    cases count with
    | zero => simp at hcount
    | succ count => simp [follow, hcell, ih (by simpa using hcount)]

namespace Linked

variable {list : HandleList α} {order : List UInt32}

theorem follows_after (H : list.Linked order) (before : List UInt32) {after : List UInt32}
    (horder : order = before ++ after) : list.Follows after.head? after := by
  induction after generalizing before with
  | nil => exact .nil
  | cons i after ih =>
    obtain ⟨value, generation, hcell⟩ := H.cell before i after horder
    exact .cons hcell (ih (before ++ [i]) (by simp [horder]))

theorem follows (H : list.Linked order) : list.Follows list.head order := by
  rw [H.head_eq]
  exact H.follows_after [] rfl

theorem indices_eq (H : list.Linked order) : list.indices = order :=
  H.follows.follow_eq (by have := H.length_add_free; omega)

theorem valid (H : list.Linked order) : list.Valid := by
  rw [Valid, H.indices_eq]
  exact H

theorem entries_eq (H : list.Linked order) : list.entries = order.filterMap list.entryAt? := by
  rw [entries, H.indices_eq]

theorem entryAt?_of_mem (H : list.Linked order) {i : UInt32} (hi : i ∈ order) :
    ∃ generation value, list.entryAt? i = some (⟨list.id, i, generation⟩, value) ∧
      list.handleAt i = some ⟨list.id, i, generation⟩ ∧ list.valueAt? i = some value := by
  obtain ⟨value, prev, next, generation, hcell⟩ := H.cell_of_mem hi
  exact ⟨generation, value, by simp [entryAt?, hcell], by simp [handleAt, hcell],
    by simp [valueAt?, hcell]⟩

/-- The handles stand in the order of the entries. -/
theorem handles_eq (H : list.Linked order) : list.handles = list.entries.map Prod.fst := by
  rw [handles, entries, H.indices_eq, List.map_filterMap]
  refine List.filterMap_congr fun i hi => ?_
  obtain ⟨generation, value, hentry, hhandle, -⟩ := H.entryAt?_of_mem hi
  simp [hentry, hhandle]

/-- The values stand in the order of the entries. -/
theorem toList_eq (H : list.Linked order) : list.toList = list.entries.map Prod.snd := by
  rw [toList, entries, H.indices_eq, List.map_filterMap]
  refine List.filterMap_congr fun i hi => ?_
  obtain ⟨generation, value, hentry, -, hvalue⟩ := H.entryAt?_of_mem hi
  simp [hentry, hvalue]

theorem map_index_entries (H : list.Linked order) :
    list.entries.map (fun entry => entry.1.index) = order := by
  rw [H.entries_eq, List.map_filterMap]
  calc order.filterMap (fun i => (list.entryAt? i).map fun entry => entry.1.index)
      = order.filterMap some := List.filterMap_congr fun i hi => by
        obtain ⟨generation, value, hentry, -, -⟩ := H.entryAt?_of_mem hi
        simp [hentry]
    _ = order := List.filterMap_some

theorem length_entries (H : list.Linked order) : list.entries.length = order.length := by
  rw [← congrArg List.length H.map_index_entries, List.length_map]

/-- An entry is that of the cell its handle names. -/
theorem entryAt?_of_mem_entries (H : list.Linked order) {handle : Handle} {value : α}
    (h : (handle, value) ∈ list.entries) :
    handle.index ∈ order ∧ list.entryAt? handle.index = some (handle, value) := by
  rw [H.entries_eq] at h
  obtain ⟨i, hi, hentry⟩ := List.mem_filterMap.1 h
  obtain ⟨generation, value', hentry', -, -⟩ := H.entryAt?_of_mem hi
  obtain ⟨rfl, rfl⟩ := Prod.mk.inj (Option.some.inj (hentry'.symm.trans hentry))
  exact ⟨hi, hentry⟩

/-- The order splits where the sequence does, and the cell there has its neighbours in it. -/
theorem split (H : list.Linked order) {front back : List (Handle × α)} {handle : Handle} {value : α}
    (h : list.entries = front ++ (handle, value) :: back) :
    ∃ before after, order = before ++ handle.index :: after ∧
      before.filterMap list.entryAt? = front ∧ after.filterMap list.entryAt? = back ∧
      list.entryAt? handle.index = some (handle, value) ∧
      list.resolve? handle =
        some ⟨some value, before.getLast?, after.head?, handle.generation⟩ := by
  have horder := H.map_index_entries
  have hkept : ∀ es : List (Handle × α), (∀ e ∈ es, e ∈ list.entries) →
      (es.map fun e => e.1.index).filterMap list.entryAt? = es := by
    intro es hes
    rw [List.filterMap_map]
    calc es.filterMap (fun e => list.entryAt? e.1.index) = es.filterMap some :=
          List.filterMap_congr fun e he => (H.entryAt?_of_mem_entries (hes e he)).2
      _ = es := List.filterMap_some
  obtain ⟨-, hentry⟩ := H.entryAt?_of_mem_entries (show (handle, value) ∈ list.entries by simp [h])
  rw [h, List.map_append, List.map_cons] at horder
  obtain ⟨old, generation, hcell⟩ := H.cell _ _ _ horder.symm
  have hold : handle = ⟨list.id, handle.index, generation⟩ ∧ value = old := by
    simpa [entryAt?, hcell, eq_comm] using hentry
  refine ⟨_, _, horder.symm, hkept front fun e he => by simp [h, he],
    hkept back fun e he => by simp [h, he], hentry, resolve?_eq_some_iff.2 ⟨?_, value, rfl, hentry⟩⟩
  rw [hcell, hold.1, hold.2]

/-- A handle is good exactly if it stands in the sequence. -/
theorem resolve?_eq_none_iff (H : list.Linked order) (handle : Handle) :
    list.resolve? handle = none ↔ handle ∉ list.entries.map Prod.fst := by
  constructor
  · intro h hmem
    obtain ⟨⟨_, value⟩, hentry, rfl⟩ := List.mem_map.1 hmem
    obtain ⟨front, back, hsplit⟩ := List.append_of_mem hentry
    obtain ⟨before, after, -, -, -, -, hresolve⟩ := H.split hsplit
    simp [h] at hresolve
  · intro h
    by_contra hsome
    obtain ⟨cell, hcell⟩ := Option.ne_none_iff_exists'.1 hsome
    obtain ⟨hat, value, hvalue, hentry⟩ := resolve?_eq_some_iff.1 hcell
    have hmem : handle.index ∈ order := by
      rw [H.mem_order_iff]
      simp [valueAt?, hat, hvalue]
    rw [H.entries_eq] at h
    exact h (List.mem_map.2 ⟨_, List.mem_filterMap.2 ⟨_, hmem, hentry⟩, rfl⟩)

end Linked

/-! ## The number of elements -/

section

variable (list : HandleList α)

@[simp] theorem size_append (value : α) : (list.append value).2.size = list.size + 1 :=
  list.size_insertBetween ..

@[simp] theorem size_prepend (value : α) : (list.prepend value).2.size = list.size + 1 :=
  list.size_insertBetween ..

variable {list} in
theorem size_insertBefore {handle : Handle} (h : list.resolve? handle ≠ none) (value : α) :
    (list.insertBefore handle value).2.size = list.size + 1 := by
  obtain ⟨cell, hcell⟩ := Option.ne_none_iff_exists'.1 h
  rw [insertBefore, hcell]
  exact list.size_insertBetween ..

variable {list} in
theorem size_insertAfter {handle : Handle} (h : list.resolve? handle ≠ none) (value : α) :
    (list.insertAfter handle value).2.size = list.size + 1 := by
  obtain ⟨cell, hcell⟩ := Option.ne_none_iff_exists'.1 h
  rw [insertAfter, hcell]
  exact list.size_insertBetween ..

@[simp] theorem size_extend (values : List α) :
    (list.extend values).size = list.size + values.length := by
  induction values generalizing list with
  | nil => rfl
  | cons value values ih =>
    rw [show list.extend (value :: values) = (list.append value).2.extend values from rfl, ih,
      size_append, List.length_cons]
    omega

@[simp] theorem size_ofList (id : UInt32) (values : List α) :
    (ofList id values).size = values.length := by
  simp [ofList, empty]

end

/-! ## What the operations do to the sequence -/

/-- A list that takes the place of another has as many cells as either of them ever needed. -/
structure Grows (list list' : HandleList α) : Prop where
  valid : list'.Valid
  size_cells : list'.cells.size = max list.cells.size list'.size

theorem Valid.grows_self {list : HandleList α} (H : list.Valid) : list.Grows list where
  valid := H
  size_cells := by
    have hlength := H.length_add_free
    have hsize := H.size_eq
    omega

theorem Grows.trans {list list' list'' : HandleList α} (h : list.Grows list')
    (h' : list'.Grows list'') (hsize : list'.size ≤ list''.size) : list.Grows list'' where
  valid := h'.valid
  size_cells := by
    have hcells := h.size_cells
    have hcells' := h'.size_cells
    omega

theorem filterMap_entryAt?_congr {list list' : HandleList α} {order : List UInt32} {new : UInt32}
    (hframe : ∀ k, k ≠ new → list'.entryAt? k = list.entryAt? k) (hnew : new ∉ order) :
    order.filterMap list'.entryAt? = order.filterMap list.entryAt? :=
  List.filterMap_congr fun k hk => hframe k fun h => hnew (h ▸ hk)

/-- A value put between two neighbours stands between them in the sequence. -/
theorem Linked.entries_insertBetween {list : HandleList α} {before after : List UInt32}
    (H : list.Linked (before ++ after)) (hroom : list.size < 2 ^ 32) (value : α) :
    let result := list.insertBetween value before.getLast? after.head?
    list.Grows result.2 ∧ result.2.id = list.id ∧ ∃ handle, result.1 = some handle ∧
      handle.list = list.id ∧ (list.free = [] → handle.index = UInt32.ofNat list.cells.size ∧
        handle.generation = 0 ∧ result.2.free = []) ∧
      result.2.entries = before.filterMap list.entryAt? ++
        (handle, value) :: after.filterMap list.entryAt? := by
  obtain ⟨H', hid, hcells, ⟨generation, hentry, hgeneration⟩, hframe⟩ := H.insertBetween hroom value
  have hnew := H.nextCell_notMem hroom
  rw [List.mem_append, not_or] at hnew
  refine ⟨⟨H'.valid, ?_⟩, hid, ⟨list.id, list.nextCell, generation⟩, ?_, rfl, ?_, ?_⟩
  · rw [hcells, H'.size_eq]
    simp [Nat.add_assoc]
  · obtain ⟨generation', value', hentry', hhandle, -⟩ := H'.entryAt?_of_mem (i := list.nextCell)
      (by simp)
    obtain ⟨hh, -⟩ := Prod.mk.inj (Option.some.inj (hentry.symm.trans hentry'))
    rw [hh, ← hhandle, ← allocate_fst list value before.getLast? after.head?]
    rfl
  · intro hfree
    refine ⟨by simp [nextCell, hfree], hgeneration hfree, ?_⟩
    have h := H'.length_add_free
    have h' := H.length_add_free
    rw [hcells] at h
    simp [hfree] at h h'
    exact List.eq_nil_of_length_eq_zero (by omega)
  · rw [H'.entries_eq, List.filterMap_append, List.filterMap_cons_some hentry,
      filterMap_entryAt?_congr hframe hnew.1, filterMap_entryAt?_congr hframe hnew.2]

namespace Valid

variable {list : HandleList α}

theorem entries_append (H : list.Valid) (hroom : list.size < 2 ^ 32) (value : α) :
    list.Grows (list.append value).2 ∧ (list.append value).2.id = list.id ∧
      ∃ handle, (list.append value).1 = some handle ∧ handle.list = list.id ∧
        (list.free = [] → handle.index = UInt32.ofNat list.cells.size ∧
          handle.generation = 0 ∧ (list.append value).2.free = []) ∧
        (list.append value).2.entries = list.entries ++ [(handle, value)] := by
  have h : list.Linked (list.indices ++ []) := by rw [List.append_nil]; exact H
  simpa [append, ← H.tail_eq, ← H.entries_eq] using h.entries_insertBetween hroom value

theorem entries_prepend (H : list.Valid) (hroom : list.size < 2 ^ 32) (value : α) :
    list.Grows (list.prepend value).2 ∧ ∃ handle, (list.prepend value).1 = some handle ∧
      (list.prepend value).2.entries = (handle, value) :: list.entries := by
  have h : list.Linked ([] ++ list.indices) := H
  obtain ⟨hgrows, -, handle, hhandle, -, -, hentries⟩ := h.entries_insertBetween hroom value
  simp only [List.getLast?_nil, ← H.head_eq, List.filterMap_nil, List.nil_append,
    ← H.entries_eq] at hgrows hhandle hentries
  exact ⟨hgrows, handle, hhandle, hentries⟩

theorem entries_insertBefore (H : list.Valid) {front back : List (Handle × α)} {handle : Handle}
    {old : α} (h : list.entries = front ++ (handle, old) :: back) (hroom : list.size < 2 ^ 32)
    (value : α) : list.Grows (list.insertBefore handle value).2 ∧ ∃ new,
      (list.insertBefore handle value).1 = some new ∧
      (list.insertBefore handle value).2.entries =
        front ++ (new, value) :: (handle, old) :: back := by
  obtain ⟨before, after, horder, rfl, rfl, hentry, hresolve⟩ := H.split h
  have hlinked : list.Linked (before ++ handle.index :: after) := by rw [← horder]; exact H
  obtain ⟨hgrows, -, new, hnew, -, -, hentries⟩ := hlinked.entries_insertBetween hroom value
  rw [List.filterMap_cons_some hentry] at hentries
  rw [insertBefore, hresolve]
  exact ⟨hgrows, new, hnew, hentries⟩

theorem entries_insertAfter (H : list.Valid) {front back : List (Handle × α)} {handle : Handle}
    {old : α} (h : list.entries = front ++ (handle, old) :: back) (hroom : list.size < 2 ^ 32)
    (value : α) : list.Grows (list.insertAfter handle value).2 ∧ ∃ new,
      (list.insertAfter handle value).1 = some new ∧
      (list.insertAfter handle value).2.entries =
        front ++ (handle, old) :: (new, value) :: back := by
  obtain ⟨before, after, horder, rfl, rfl, hentry, hresolve⟩ := H.split h
  have hlinked : list.Linked ((before ++ [handle.index]) ++ after) := by
    rw [List.append_assoc, List.singleton_append, ← horder]
    exact H
  obtain ⟨hgrows, -, new, hnew, -, -, hentries⟩ := hlinked.entries_insertBetween hroom value
  rw [List.getLast?_concat] at hgrows hnew hentries
  rw [List.filterMap_append, List.filterMap_cons_some hentry, List.filterMap_nil,
    List.append_assoc, List.singleton_append] at hentries
  rw [insertAfter, hresolve]
  exact ⟨hgrows, new, hnew, hentries⟩

theorem entries_remove (H : list.Valid) {front back : List (Handle × α)} {handle : Handle}
    {old : α} (h : list.entries = front ++ (handle, old) :: back) :
    list.Grows (list.remove handle).2 ∧ (list.remove handle).1 = some old ∧
      (list.remove handle).2.entries = front ++ back := by
  obtain ⟨before, after, horder, rfl, rfl, hentry, hresolve⟩ := H.split h
  have hlinked : list.Linked (before ++ handle.index :: after) := by rw [← horder]; exact H
  obtain ⟨H', -, hcells, hframe⟩ := hlinked.remove hresolve
  have hsize := H'.size_eq
  have hlength := hlinked.length_add_free
  rw [List.length_append, List.length_cons] at hlength
  rw [List.length_append] at hsize
  obtain ⟨hbefore, hafter, hdisjoint⟩ := List.nodup_append.1 hlinked.nodup
  refine ⟨⟨H'.valid, by omega⟩, by simp [remove_eq hresolve], ?_⟩
  rw [H'.entries_eq, List.filterMap_append,
    filterMap_entryAt?_congr hframe fun hmem => hdisjoint _ hmem handle.index (by simp) rfl,
    filterMap_entryAt?_congr hframe (List.nodup_cons.1 hafter).1]

theorem head?_eq (H : list.Valid) : list.head? = list.entries.head?.map Prod.fst := by
  rw [head?, H.head_eq, entries]
  cases horder : list.indices with
  | nil => rfl
  | cons i order =>
    obtain ⟨generation, value, hentry, hhandle, -⟩ := Linked.entryAt?_of_mem H (i := i)
      (by simp [horder])
    simp [List.filterMap_cons_some hentry, hhandle]

theorem tail?_eq (H : list.Valid) : list.tail? = list.entries.getLast?.map Prod.fst := by
  rw [tail?, H.tail_eq, entries]
  rcases List.eq_nil_or_concat list.indices with horder | ⟨order, i, horder⟩
  · simp [horder]
  · rw [List.concat_eq_append] at horder
    obtain ⟨generation, value, hentry, hhandle, -⟩ := Linked.entryAt?_of_mem H (i := i)
      (by simp [horder])
    simp [horder, List.filterMap_cons_some hentry, hhandle]

theorem entries_popBack (H : list.Valid) {front : List (Handle × α)} {handle : Handle} {old : α}
    (h : list.entries = front ++ [(handle, old)]) :
    list.Grows list.popBack.2 ∧ list.popBack.1 = some old ∧ list.popBack.2.entries = front := by
  have htail : list.tail? = some handle := by simp [H.tail?_eq, h]
  rw [popBack, htail]
  simpa using H.entries_remove h

theorem entries_popFront (H : list.Valid) {back : List (Handle × α)} {handle : Handle} {old : α}
    (h : list.entries = (handle, old) :: back) :
    list.Grows list.popFront.2 ∧ list.popFront.1 = some old ∧ list.popFront.2.entries = back := by
  have hhead : list.head? = some handle := by simp [H.head?_eq, h]
  rw [popFront, hhead]
  exact H.entries_remove (show list.entries = [] ++ (handle, old) :: back from h)

end Valid

theorem write_eq {list : HandleList α} {handle : Handle} {cell : ListCell α}
    (h : list.resolve? handle = some cell) (value : α) : list.write handle value =
      (cell.value, list.modifyCell handle.index fun cell =>
        { cell with value := cell.value.map fun _ => value }) := by
  obtain ⟨hcell, old, hold, -⟩ := resolve?_eq_some_iff.1 h
  simp only [write, h, modifyCell]
  congr 2
  refine Array.ext_getElem? fun k => ?_
  rw [cell?] at hcell
  by_cases hk : handle.index.toNat = k
  · subst hk
    simp [Array.getElem?_modify, hcell, hold]
  · simp [Array.getElem?_modify, hk]

namespace Valid

variable {list : HandleList α}

theorem entries_write (H : list.Valid) {front back : List (Handle × α)} {handle : Handle}
    {old : α} (h : list.entries = front ++ (handle, old) :: back) (value : α) :
    list.Grows (list.write handle value).2 ∧ (list.write handle value).1 = some old ∧
      (list.write handle value).2.entries = front ++ (handle, value) :: back := by
  obtain ⟨before, after, horder, rfl, rfl, hentry, hresolve⟩ := H.split h
  have hlinked : list.Linked (before ++ handle.index :: after) := by rw [← horder]; exact H
  have H' := hlinked.modifyCell handle.index fun _ => value
  have hframe : ∀ k, k ≠ handle.index → (list.modifyCell handle.index fun cell =>
      { cell with value := cell.value.map fun _ => value }).entryAt? k = list.entryAt? k := by
    intro k hk
    simp [entryAt?_modifyCell, hk.symm]
  have hentry' : (list.modifyCell handle.index fun cell =>
      { cell with value := cell.value.map fun _ => value }).entryAt? handle.index =
        some (handle, value) := by
    simp [entryAt?_modifyCell, hentry]
  obtain ⟨hbefore, hafter, hdisjoint⟩ := List.nodup_append.1 hlinked.nodup
  rw [write_eq hresolve]
  refine ⟨⟨H'.valid, ?_⟩, rfl, ?_⟩
  · simpa [modifyCell] using (grows_self H).size_cells
  · rw [H'.entries_eq, List.filterMap_append, List.filterMap_cons_some hentry',
      filterMap_entryAt?_congr hframe fun hmem => hdisjoint _ hmem handle.index (by simp) rfl,
      filterMap_entryAt?_congr hframe (List.nodup_cons.1 hafter).1]

theorem size_eq_length (H : list.Valid) : list.size = list.entries.length := by
  rw [H.size_eq, H.length_entries]

theorem entries_extend (H : list.Valid) {values : List α}
    (hroom : list.size + values.length ≤ 2 ^ 32) :
    list.Grows (list.extend values) ∧ ∃ handles : List Handle, handles.length = values.length ∧
      (list.extend values).entries = list.entries ++ handles.zip values := by
  induction values generalizing list with
  | nil => exact ⟨grows_self H, [], rfl, by simp [extend]⟩
  | cons value values ih =>
    rw [List.length_cons] at hroom
    have hsize := list.size_append value
    obtain ⟨hgrows, -, handle, -, -, -, hentries⟩ := H.entries_append (by omega) value
    obtain ⟨hgrows', handles, hlength, hentries'⟩ := ih hgrows.valid (by omega)
    rw [hentries, List.append_assoc, List.singleton_append] at hentries'
    exact ⟨hgrows.trans hgrows' (by simp), handle :: handles, by simp [hlength], hentries'⟩

end Valid

/-- The values in order, in the first cells of a list that has freed none. -/
def labelled (id : UInt32) (values : List α) : List (Handle × α) :=
  values.mapIdx fun index value => (⟨id, UInt32.ofNat index, 0⟩, value)

theorem Valid.entries_extend_labelled {list : HandleList α} (H : list.Valid)
    (hfree : list.free = []) (old : List α) {values : List α}
    (hroom : (old ++ values).length ≤ 2 ^ 32) (h : list.entries = labelled list.id old) :
    (list.extend values).entries = labelled list.id (old ++ values) := by
  induction values generalizing list old with
  | nil => simpa [extend] using h
  | cons value values ih =>
    have hsize : list.size = old.length := by
      rw [H.size_eq_length, h, labelled, List.length_mapIdx]
    have hcells : list.cells.size = old.length := by
      rw [← H.length_add_free, hfree, ← H.size_eq, hsize, List.length_nil, Nat.add_zero]
    rw [List.length_append, List.length_cons] at hroom
    obtain ⟨hgrows, hid, ⟨_, index, generation⟩, -, rfl, hfresh, hentries⟩ :=
      H.entries_append (by omega) value
    obtain ⟨rfl, rfl, hfree'⟩ := hfresh hfree
    have hlabelled : (list.append value).2.entries =
        labelled (list.append value).2.id (old ++ [value]) := by
      rw [hentries, h, hid]
      simp [labelled, hcells]
    rw [show list.extend (value :: values) = (list.append value).2.extend values from rfl,
      ih hgrows.valid hfree' _ (by simp; omega) hlabelled, hid, List.append_assoc]
    rfl

theorem valid_empty (id : UInt32) : (empty id : HandleList α).Valid :=
  (Linked.empty id).valid

theorem entries_empty (id : UInt32) : (empty id : HandleList α).entries = [] :=
  (Linked.empty id).entries_eq

/-- A list made of values depends on its number and the values only. -/
theorem entries_ofList (id : UInt32) {values : List α} (hroom : values.length ≤ 2 ^ 32) :
    (ofList id values).entries = labelled id values :=
  (valid_empty id).entries_extend_labelled rfl [] hroom (entries_empty id)

/-! ## What is refused -/

section

variable {list : HandleList α} {handle : Handle}

theorem insertBefore_of_resolve? (h : list.resolve? handle = none) (value : α) :
    list.insertBefore handle value = (none, list) := by
  simp [insertBefore, h]

theorem insertAfter_of_resolve? (h : list.resolve? handle = none) (value : α) :
    list.insertAfter handle value = (none, list) := by
  simp [insertAfter, h]

theorem remove_of_resolve? (h : list.resolve? handle = none) :
    list.remove handle = (none, list) := by
  simp [remove, h]

theorem write_of_resolve? (h : list.resolve? handle = none) (value : α) :
    list.write handle value = (none, list) := by
  simp [write, h]

theorem Valid.popBack_of_nil (H : list.Valid) (h : list.entries = []) :
    list.popBack = (none, list) := by
  have htail : list.tail? = none := by simp [H.tail?_eq, h]
  simp [popBack, htail]

theorem Valid.popFront_of_nil (H : list.Valid) (h : list.entries = []) :
    list.popFront = (none, list) := by
  have hhead : list.head? = none := by simp [H.head?_eq, h]
  simp [popFront, hhead]

end

end HandleList
end StyleTree
