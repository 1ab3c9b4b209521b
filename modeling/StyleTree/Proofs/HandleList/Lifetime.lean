import Mathlib.Algebra.Group.Nat.Defs
import StyleTree.Proofs.HandleList.Generations
import StyleTree.Proofs.HandleList.Insertions

/-! How long a handle is good. `Pool.handles_of_run` is the main statement: a handle names the
element it was given for, in its own list and as long as the element is there, and nothing else
before or after.

The number of a list is drawn once and the generation of a cell counts how often it was freed
(`Pool.Numbered`). A handle whose list was emptied or whose cell was freed since is `Pool.Stale`,
and stays so; the invariant `Pool.Tracked` says that each handle that was given either names its
element or is stale. -/

namespace StyleTree

namespace HandleList

variable {α : Type}

theorem list_eq_of_contains {list : HandleList α} {handle : Handle} (h : list.contains handle) :
    handle.list = list.id := by
  by_contra hne
  simp [contains, resolve?, hne] at h

theorem freedBy_of_contains {list : HandleList α} {handle : Handle} (h : list.contains handle) :
    list.freedBy handle = some handle.index :=
  if_pos h

end HandleList

namespace Pool

variable {α : Type}

/-! ## Numbers and generations -/

theorem lt_of_contains {pool : Pool α} {place : Nat} {handle : Handle}
    (h : (pool.getList place).contains handle) : place < pool.lists.size := by
  by_contra hlt
  simp [getList, Nat.not_lt.1 hlt, HandleList.contains, HandleList.resolve?, HandleList.cell?,
    HandleList.empty] at h

theorem getList_setList_of_ne {pool : Pool α} {place other : Nat} (h : place ≠ other)
    (list : HandleList α) : (pool.setList place list).getList other = pool.getList other := by
  simp [getList, setList, h]

theorem getList_of_size_le {pool : Pool α} {place : Nat} (h : pool.lists.size ≤ place) :
    pool.getList place = .empty 0 := by
  simp [getList, h]

/-- What an operation does to numbers and generations: it works on one list, of which it frees at
most one cell, or it draws a number for a list without freed cells. -/
inductive Shape (pool : Pool α) (op : Op α) (pool' : Pool α) : Prop
  | works (place : Nat) (freed : Option UInt32) (hdraws : op.drawsId = false)
    (hnext : pool'.nextId = pool.nextId) (hsize : pool'.lists.size = pool.lists.size)
    (hfreed : pool.freedCell? op = freed.map ((pool.getList place).id, ·))
    (hlt : freed.isSome → place < pool.lists.size)
    (hplace : (pool.getList place).Ages freed (pool'.getList place))
    (hothers : ∀ other, place ≠ other → pool'.getList other = pool.getList other)
  | draws (place : Nat) (hdraws : op.drawsId = true) (hnext : pool'.nextId = pool.nextId + 1)
    (hfreed : pool.freedCell? op = none)
    (hplace : place < pool'.lists.size →
      (HandleList.empty pool.nextId).Ages none (pool'.getList place))
    (hothers : ∀ other, place ≠ other → pool'.getList other = pool.getList other ∧
      (other < pool'.lists.size ↔ other < pool.lists.size))

theorem Shape.of_setList {pool : Pool α} {op : Op α} {place : Nat} {list : HandleList α}
    {freed : Option UInt32} (hdraws : op.drawsId = false)
    (hfreed : pool.freedCell? op = freed.map ((pool.getList place).id, ·))
    (h : (pool.getList place).Ages freed list) (hlt : freed.isSome → place < pool.lists.size) :
    pool.Shape op (pool.setList place list) := by
  refine .works place freed hdraws rfl (by simp [setList]) hfreed hlt ?_
    fun other hne => getList_setList_of_ne hne list
  by_cases hplace : place < pool.lists.size
  · have hget : (pool.setList place list).getList place = list := by
      simp [getList, setList, hplace]
    rw [hget]
    exact h
  · have hget : (pool.setList place list).getList place = pool.getList place := by
      simp [getList, setList, hplace]
    rw [hget, Option.not_isSome_iff_eq_none.1 fun hsome => hplace (hlt hsome)]
    exact .refl _

/-- What frees no cell. -/
theorem Shape.of_kept {pool : Pool α} {op : Op α} {place : Nat} {list : HandleList α}
    (hdraws : op.drawsId = false) (hfreed : pool.freedCell? op = none)
    (h : (pool.getList place).Ages none list) : pool.Shape op (pool.setList place list) :=
  .of_setList hdraws (by rw [hfreed]; rfl) h (by simp)

theorem Shape.of_remove {pool : Pool α} {op : Op α} {place : Nat} {handle : Handle}
    {list : HandleList α} (hdraws : op.drawsId = false)
    (hfreed : pool.freedCell? op = some (handle.list, handle.index))
    (hcontains : (pool.getList place).contains handle)
    (h : (pool.getList place).Ages ((pool.getList place).freedBy handle) list) :
    pool.Shape op (pool.setList place list) := by
  refine .of_setList hdraws ?_ h fun _ => lt_of_contains hcontains
  rw [hfreed, HandleList.freedBy_of_contains hcontains, HandleList.list_eq_of_contains hcontains]
  rfl

theorem Shape.of_addList {pool : Pool α} {op : Op α} (values : List α) (hdraws : op.drawsId = true)
    (hfreed : pool.freedCell? op = none) : pool.Shape op (pool.addList values) := by
  refine .draws pool.lists.size hdraws rfl hfreed (fun _ => ?_) fun other hne => ?_
  · have hget : (pool.addList values).getList pool.lists.size = .ofList pool.nextId values := by
      simp [getList, addList]
    rw [hget]
    exact HandleList.ages_ofList pool.nextId values
  · refine ⟨by simp [getList, addList, Array.getElem?_push, Ne.symm hne], ?_⟩
    simp only [addList, Array.size_push]
    omega

theorem Shape.of_resetList {pool : Pool α} {op : Op α} (place : Nat) (hdraws : op.drawsId = true)
    (hfreed : pool.freedCell? op = none) : pool.Shape op (pool.resetList place) := by
  refine .draws place hdraws rfl hfreed (fun hlt => ?_) fun other hne => ?_
  · have hget : (pool.resetList place).getList place = .empty pool.nextId := by
      have hlt : place < pool.lists.size := by simpa [resetList, setList] using hlt
      simp [resetList, getList, setList, hlt]
    rw [hget]
    exact .refl _
  · exact ⟨getList_setList_of_ne hne _, by simp [resetList, setList]⟩

theorem Valid.contains_of_tail? {pool : Pool α} (H : pool.Valid) {place : Nat} {handle : Handle}
    (h : (pool.getList place).tail? = some handle) : (pool.getList place).contains handle := by
  rw [(H place).sound.contains_iff, (H place).sound.handles_eq]
  rw [(H place).tail?_eq] at h
  obtain ⟨entry, hentry, rfl⟩ := Option.map_eq_some_iff.1 h
  exact List.mem_map_of_mem (List.mem_of_getLast? hentry)

theorem Valid.contains_of_head? {pool : Pool α} (H : pool.Valid) {place : Nat} {handle : Handle}
    (h : (pool.getList place).head? = some handle) : (pool.getList place).contains handle := by
  rw [(H place).sound.contains_iff, (H place).sound.handles_eq]
  rw [(H place).head?_eq] at h
  obtain ⟨entry, hentry, rfl⟩ := Option.map_eq_some_iff.1 h
  exact List.mem_map_of_mem (List.mem_of_head? hentry)

theorem Valid.shape_step {pool : Pool α} (H : pool.Valid) (op : Op α) :
    pool.Shape op (pool.step op).2 := by
  cases op with
  | new values => exact .of_addList values rfl rfl
  | copy index => exact .of_addList _ rfl rfl
  | append index value =>
    exact .of_kept rfl rfl ((pool.getList index).ages_append value)
  | prepend index value =>
    exact .of_kept rfl rfl ((pool.getList index).ages_prepend value)
  | insertBefore index handle value =>
    exact .of_kept rfl rfl ((pool.getList index).ages_insertBefore handle value)
  | insertAfter index handle value =>
    exact .of_kept rfl rfl ((pool.getList index).ages_insertAfter handle value)
  | remove index handle =>
    have hages := (pool.getList index).ages_remove handle
    by_cases h : (pool.getList index).contains handle
    · exact .of_remove rfl (if_pos h) h hages
    · rw [HandleList.freedBy, if_neg h] at hages
      exact .of_kept rfl (by simp [freedCell?, h]) hages
  | popBack index =>
    have hages := (pool.getList index).ages_popBack
    cases h : (pool.getList index).tail? with
    | none =>
      rw [h] at hages
      exact .of_kept rfl (by simp [freedCell?, h]) hages
    | some handle =>
      rw [h] at hages
      exact .of_remove rfl (by simp [freedCell?, h]) (H.contains_of_tail? h) hages
  | popFront index =>
    have hages := (pool.getList index).ages_popFront
    cases h : (pool.getList index).head? with
    | none =>
      rw [h] at hages
      exact .of_kept rfl (by simp [freedCell?, h]) hages
    | some handle =>
      rw [h] at hages
      exact .of_remove rfl (by simp [freedCell?, h]) (H.contains_of_head? h) hages
  | write index handle value =>
    exact .of_kept rfl rfl ((pool.getList index).ages_write handle value)
  | visitEach index visit =>
    exact .of_kept rfl rfl ((pool.getList index).ages_visitEach (remember visit) [])
  | extend index values =>
    exact .of_kept rfl rfl ((pool.getList index).ages_extend values)
  | clear index => exact .of_resetList index rfl rfl
  | take index => exact .of_resetList index rfl rfl

/-- The lists have different numbers, of those that were drawn, and the generation of each cell
counts how often it was freed. -/
structure Numbered (pool : Pool α) (drawn : Nat) (freed : List (UInt32 × UInt32)) : Prop where
  nextId_eq : pool.nextId = UInt32.ofNat (drawn + 1)
  id_le : ∀ place < pool.lists.size, (pool.getList place).id.toNat ≤ drawn
  id_inj : ∀ place < pool.lists.size, ∀ other < pool.lists.size,
    (pool.getList place).id = (pool.getList other).id → place = other
  freed_le : ∀ cell ∈ freed, cell.1.toNat ≤ drawn
  generation_eq : ∀ place < pool.lists.size, ∀ index, (pool.getList place).generationAt index =
    UInt32.ofNat (freed.count ((pool.getList place).id, index))

/-- The number of identities that a run draws. -/
def drawnIds (ops : List (Op α)) : Nat :=
  ops.countP Op.drawsId

theorem drawnIds_cons (op : Op α) (ops : List (Op α)) :
    drawnIds (op :: ops) = drawnIds [op] + drawnIds ops := by
  rw [drawnIds, drawnIds, drawnIds, ← List.countP_append]
  rfl

theorem Numbered.toNat_nextId {pool : Pool α} {drawn : Nat} {freed : List (UInt32 × UInt32)}
    (N : pool.Numbered drawn freed) (h : drawn + 1 < 2 ^ 32) : pool.nextId.toNat = drawn + 1 := by
  rw [N.nextId_eq, UInt32.toNat_ofNat_of_lt' (by simpa [UInt32.size] using h)]

/-- A bound on how often each cell is freed holds of the cells freed before. -/
theorem count_lt_of_append {freed later : List (UInt32 × UInt32)}
    (h : ∀ cell, (freed ++ later).count cell < 2 ^ 32) (cell : UInt32 × UInt32) :
    freed.count cell < 2 ^ 32 :=
  Nat.lt_of_le_of_lt ((List.prefix_append freed later).sublist.count_le cell) (h cell)

theorem count_toList_map (cell : Option UInt32) (id id' : UInt32) (index : UInt32) :
    (cell.map (id, ·)).toList.count (id', index) =
      if cell = some index ∧ id = id' then 1 else 0 := by
  cases cell with
  | none => simp
  | some other => simp [List.count_singleton, and_comm]

/-- The number of a list is not the next one to be drawn. -/
theorem Numbered.ne_nextId {pool : Pool α} {drawn : Nat} {freed : List (UInt32 × UInt32)}
    (N : pool.Numbered drawn freed) (h : drawn + 1 < 2 ^ 32) {id : UInt32}
    (hle : id.toNat ≤ drawn) :
    id ≠ pool.nextId := by
  rintro rfl
  rw [N.toNat_nextId h] at hle
  omega

theorem Numbered.works {pool pool' : Pool α} {drawn place : Nat} {freed : List (UInt32 × UInt32)}
    {cell : Option UInt32} (N : pool.Numbered drawn freed) (hnext : pool'.nextId = pool.nextId)
    (hsize : pool'.lists.size = pool.lists.size) (hlt : cell.isSome → place < pool.lists.size)
    (hplace : (pool.getList place).Ages cell (pool'.getList place))
    (hothers : ∀ other, place ≠ other → pool'.getList other = pool.getList other) :
    pool'.Numbered drawn (freed ++ (cell.map ((pool.getList place).id, ·)).toList) := by
  have hid : ∀ other, (pool'.getList other).id = (pool.getList other).id := by
    intro other
    by_cases h : place = other
    · exact h ▸ hplace.id_eq
    · rw [hothers other h]
  refine ⟨hnext.trans N.nextId_eq, ?_, ?_, ?_, ?_⟩
  · intro other hother
    rw [hid]
    exact N.id_le other (hsize ▸ hother)
  · intro p hp q hq h
    rw [hid, hid] at h
    exact N.id_inj p (hsize ▸ hp) q (hsize ▸ hq) h
  · intro c hc
    rcases List.mem_append.1 hc with hc | hc
    · exact N.freed_le c hc
    · obtain ⟨index, hindex, rfl⟩ := Option.map_eq_some_iff.1 (Option.mem_toList.1 hc)
      exact N.id_le place (hlt (by simp [hindex]))
  · intro other hother index
    rw [hsize] at hother
    rw [hid, List.count_append, count_toList_map, UInt32.ofNat_add, ← N.generation_eq other hother]
    by_cases h : place = other
    · subst h
      rw [hplace.generationAt_eq]
      by_cases hcell : cell = some index <;> simp [hcell]
    · have hne : ¬(cell = some index ∧ (pool.getList place).id = (pool.getList other).id) :=
        fun ⟨hcell, heq⟩ => h (N.id_inj place (hlt (by simp [hcell])) other hother heq)
      rw [hothers other h, if_neg hne]
      simp

theorem Numbered.draws {pool pool' : Pool α} {drawn place : Nat} {freed : List (UInt32 × UInt32)}
    (N : pool.Numbered drawn freed) (hdrawn : drawn + 1 < 2 ^ 32)
    (hnext : pool'.nextId = pool.nextId + 1)
    (hplace : place < pool'.lists.size →
      (HandleList.empty pool.nextId).Ages none (pool'.getList place))
    (hothers : ∀ other, place ≠ other → pool'.getList other = pool.getList other ∧
      (other < pool'.lists.size ↔ other < pool.lists.size)) : pool'.Numbered (drawn + 1) freed := by
  have hid : place < pool'.lists.size → (pool'.getList place).id = pool.nextId :=
    fun hlt => (hplace hlt).id_eq
  have hold : ∀ other < pool'.lists.size, place ≠ other →
      (pool'.getList other).id ≠ pool.nextId := by
    intro other hother h
    obtain ⟨hget, hlt⟩ := hothers other h
    rw [hget]
    exact N.ne_nextId hdrawn (N.id_le other (hlt.1 hother))
  refine ⟨?_, ?_, ?_, fun cell hcell => Nat.le_succ_of_le (N.freed_le cell hcell), ?_⟩
  · rw [hnext, N.nextId_eq, UInt32.ofNat_add (drawn + 1)]
    rfl
  · intro other hother
    by_cases h : place = other
    · subst h
      rw [hid hother]
      exact Nat.le_of_eq (N.toNat_nextId hdrawn)
    · obtain ⟨hget, hlt⟩ := hothers other h
      rw [hget]
      exact Nat.le_succ_of_le (N.id_le other (hlt.1 hother))
  · intro p hp q hq heq
    by_cases h : place = p <;> by_cases h' : place = q
    · exact h.symm.trans h'
    · exact absurd (heq.symm.trans (by rw [← h, hid (h ▸ hp)])) (hold q hq h')
    · exact absurd (heq.trans (by rw [← h', hid (h' ▸ hq)])) (hold p hp h)
    · obtain ⟨hget, hlt⟩ := hothers p h
      obtain ⟨hget', hlt'⟩ := hothers q h'
      rw [hget, hget'] at heq
      exact N.id_inj p (hlt.1 hp) q (hlt'.1 hq) heq
  · intro other hother index
    by_cases h : place = other
    · subst h
      -- No cell of the new number was freed before.
      have hcount : freed.count (pool.nextId, index) = 0 :=
        List.count_eq_zero.2 fun hmem => N.ne_nextId hdrawn (N.freed_le _ hmem) rfl
      rw [(hplace hother).generationAt_eq, hid hother, hcount]
      simp
    · obtain ⟨hget, hlt⟩ := hothers other h
      rw [hget]
      exact N.generation_eq other (hlt.1 hother) index

theorem Numbered.step {pool : Pool α} {drawn : Nat} {freed : List (UInt32 × UInt32)}
    (H : pool.Valid) (N : pool.Numbered drawn freed) (op : Op α)
    (hdrawn : drawn + drawnIds [op] < 2 ^ 32) :
    (pool.step op).2.Numbered (drawn + drawnIds [op]) (freed ++ (pool.freedCell? op).toList) := by
  have hshape := H.shape_step op
  generalize (pool.step op).2 = pool' at hshape
  cases hshape with
  | works place cell hdraws hnext hsize hfreed hlt hplace hothers =>
    have hzero : drawnIds [op] = 0 := by simp [drawnIds, hdraws]
    rw [hzero, Nat.add_zero, hfreed]
    exact N.works hnext hsize hlt hplace hothers
  | draws place hdraws hnext hfreed hplace hothers =>
    have hone : drawnIds [op] = 1 := by simp [drawnIds, hdraws]
    rw [hone] at hdrawn ⊢
    rw [hfreed, Option.toList_none, List.append_nil]
    exact N.draws hdrawn hnext hplace hothers

/-! ## Stale handles -/

/-- A handle of a number that was drawn, whose list is gone or has freed the cell since. -/
def Stale (pool : Pool α) (drawn : Nat) (freed : List (UInt32 × UInt32)) (handle : Handle) : Prop :=
  handle.list.toNat ≤ drawn ∧ ∀ place < pool.lists.size, (pool.getList place).id = handle.list →
    handle.generation.toNat < freed.count (handle.list, handle.index)

theorem lt_of_mem_entries {pool : Pool α} {place : Nat} {entry : Handle × α}
    (h : entry ∈ (pool.getList place).entries) : place < pool.lists.size := by
  by_contra hlt
  rw [getList_of_size_le (Nat.not_lt.1 hlt), HandleList.entries_empty] at h
  simp at h

section

variable {pool : Pool α} {drawn : Nat} {freed : List (UInt32 × UInt32)}

theorem Numbered.handle_of_mem (H : pool.Valid) (N : pool.Numbered drawn freed) {place : Nat}
    {entry : Handle × α} (h : entry ∈ (pool.getList place).entries)
    (hfreed : ∀ cell, freed.count cell < 2 ^ 32) : entry.1.list = (pool.getList place).id ∧
      entry.1.generation.toNat = freed.count (entry.1.list, entry.1.index) := by
  obtain ⟨hlist, hgeneration⟩ := (H place).handle_of_mem h
  refine ⟨hlist, ?_⟩
  rw [hgeneration, N.generation_eq place (lt_of_mem_entries h), hlist]
  exact UInt32.toNat_ofNat_of_lt' (hfreed _)

theorem Stale.notMem {handle : Handle} (hstale : pool.Stale drawn freed handle) (H : pool.Valid)
    (N : pool.Numbered drawn freed) (hfreed : ∀ cell, freed.count cell < 2 ^ 32) (place : Nat) :
    handle ∉ (pool.getList place).entries.map Prod.fst := by
  intro hmem
  obtain ⟨entry, hentry, rfl⟩ := List.mem_map.1 hmem
  obtain ⟨hlist, hgeneration⟩ := N.handle_of_mem H hentry hfreed
  have hlt := hstale.2 place (lt_of_mem_entries hentry) hlist.symm
  omega

/-- A stale handle stays stale: the number of its list is not drawn again, and cells only age. -/
theorem Stale.step {handle : Handle} (hstale : pool.Stale drawn freed handle) (H : pool.Valid)
    (N : pool.Numbered drawn freed) (op : Op α) (hdrawn : drawn + drawnIds [op] < 2 ^ 32) :
    (pool.step op).2.Stale (drawn + drawnIds [op]) (freed ++ (pool.freedCell? op).toList)
      handle := by
  refine ⟨Nat.le_add_right_of_le hstale.1, fun place hlt hid => ?_⟩
  have hold : place < pool.lists.size ∧ (pool.getList place).id = handle.list := by
    have hshape := H.shape_step op
    generalize (pool.step op).2 = pool' at hshape hlt hid
    cases hshape with
    | works place' cell hdraws hnext hsize hfreed hlt' hplace hothers =>
      refine ⟨hsize ▸ hlt, ?_⟩
      by_cases h : place' = place
      · rw [← hid, ← h, hplace.id_eq]
      · rw [← hid, hothers place h]
    | draws place' hdraws hnext hfreed hplace hothers =>
      by_cases h : place' = place
      · subst h
        have hne := N.ne_nextId (by simpa [drawnIds, hdraws] using hdrawn) hstale.1
        exact absurd (hid.symm.trans (hplace hlt).id_eq) hne
      · obtain ⟨hget, hsize⟩ := hothers place h
        exact ⟨hsize.1 hlt, hget ▸ hid⟩
  rw [List.count_append]
  exact Nat.lt_add_right _ (hstale.2 place hold.1 hold.2)

theorem Valid.contains_of_mem (H : pool.Valid) {place : Nat} {entry : Handle × α}
    (h : entry ∈ (pool.getList place).entries) : (pool.getList place).contains entry.1 := by
  rw [(H place).sound.contains_iff, (H place).sound.handles_eq]
  exact List.mem_map_of_mem h

/-- An element is taken out by freeing its cell or by emptying its list. -/
theorem Valid.freedCell?_of_takesOut (H : pool.Valid) {op : Op α} {place : Nat} {entry : Handle × α}
    (hentry : entry ∈ (pool.getList place).entries) (h : op.takesOut pool place entry.1) :
    pool.freedCell? op = some (entry.1.list, entry.1.index) ∨
      op.drawsId = true ∧ (pool.step op).2 = pool.resetList place := by
  cases op with
  | remove index handle =>
    obtain ⟨rfl, rfl⟩ : index = place ∧ handle = entry.1 := by simpa [Op.takesOut] using h
    exact .inl (if_pos (H.contains_of_mem hentry))
  | popBack index =>
    obtain ⟨rfl, hlast⟩ : index = place ∧ (pool.getList place).handles.getLast? = some entry.1 := by
      simpa [Op.takesOut] using h
    rw [(H index).sound.handles_eq, List.getLast?_map, ← (H index).tail?_eq] at hlast
    exact .inl (by simp [freedCell?, hlast])
  | popFront index =>
    obtain ⟨rfl, hfirst⟩ : index = place ∧ (pool.getList place).handles.head? = some entry.1 := by
      simpa [Op.takesOut] using h
    rw [(H index).sound.handles_eq, List.head?_map, ← (H index).head?_eq] at hfirst
    exact .inl (by simp [freedCell?, hfirst])
  | clear index | take index =>
    obtain rfl : index = place := by simpa [Op.takesOut] using h
    exact .inr ⟨rfl, rfl⟩
  | _ => simp [Op.takesOut] at h

/-- The handle of an element that is taken out becomes stale. -/
theorem Numbered.stale_of_takesOut (H : pool.Valid) (N : pool.Numbered drawn freed) (op : Op α)
    (hdrawn : drawn + drawnIds [op] < 2 ^ 32) (hfreed : ∀ cell, freed.count cell < 2 ^ 32)
    {place : Nat} {entry : Handle × α} (hentry : entry ∈ (pool.getList place).entries)
    (htakes : op.takesOut pool place entry.1) :
    (pool.step op).2.Stale (drawn + drawnIds [op]) (freed ++ (pool.freedCell? op).toList)
      entry.1 := by
  obtain ⟨hlist, hgeneration⟩ := N.handle_of_mem H hentry hfreed
  have hlt := lt_of_mem_entries hentry
  have hle : entry.1.list.toNat ≤ drawn := hlist ▸ N.id_le place hlt
  refine ⟨Nat.le_add_right_of_le hle, fun other hother hid => ?_⟩
  rcases H.freedCell?_of_takesOut hentry htakes with hcell | ⟨hdraws, hstep⟩
  · rw [List.count_append, hcell, hgeneration]
    simp
  · -- The emptied list has a new number, and no other list had the old one.
    exfalso
    rw [hstep] at hother hid
    have hother : other < pool.lists.size := by simpa [resetList, setList] using hother
    by_cases h : place = other
    · subst h
      have hget : (pool.resetList place).getList place = .empty pool.nextId := by
        simp [resetList, getList, setList, hother]
      rw [hget] at hid
      exact N.ne_nextId (by simpa [drawnIds, hdraws] using hdrawn) hle hid.symm
    · rw [show (pool.resetList place).getList other = pool.getList other from
        getList_setList_of_ne h _, hlist] at hid
      exact h (N.id_inj other hother place hlt hid).symm

end

/-! ## Every run -/

/-- Each handle that was given names its element or is stale, and no two are the same. -/
structure Tracked (pool : Pool α) (drawn : Nat) (freed : List (UInt32 × UInt32))
    (issued : List (Insertion α)) : Prop where
  valid : pool.Valid
  numbered : pool.Numbered drawn freed
  live_or_stale : ∀ insertion ∈ issued,
    insertion.handle ∈ (pool.getList insertion.place).entries.map Prod.fst ∨
      pool.Stale drawn freed insertion.handle
  issued_of_live : ∀ place, ∀ entry ∈ (pool.getList place).entries,
    ∃ insertion ∈ issued, insertion.place = place ∧ insertion.handle = entry.1
  nodup : (issued.map Insertion.handle).Nodup

theorem Tracked.empty : ({} : Pool α).Tracked 0 [] [] where
  valid := valid_empty
  numbered := ⟨rfl, by simp, by simp, by simp, by simp⟩
  live_or_stale := by simp
  issued_of_live place entry hentry := absurd (lt_of_mem_entries hentry) (by simp)
  nodup := List.nodup_nil

theorem Insertion.mem_at {place : Nat} {insertions : List (Insertion α)} {entry : Handle × α} :
    entry ∈ Insertion.at place insertions ↔
      ∃ insertion ∈ insertions, insertion.place = place ∧
        (insertion.handle, insertion.value) = entry := by
  rw [Insertion.at, List.mem_filterMap]
  refine exists_congr fun insertion => and_congr_right fun _ => ?_
  by_cases h : insertion.place = place <;> simp [h]

/-- An operation puts elements into one list only. -/
theorem insertions_place (pool : Pool α) (op : Op α) :
    ∃ place, ∀ insertion ∈ pool.insertions op, insertion.place = place := by
  have hof : ∀ place (entries : List (Handle × α)),
      ∀ insertion ∈ Insertion.ofEntries place entries, insertion.place = place := by
    intro place entries insertion hmem
    obtain ⟨entry, -, rfl⟩ := List.mem_map.1 hmem
    rfl
  unfold insertions
  split
  split
  · next place _ _ _ => exact ⟨place, by split <;> simp⟩
  · next place _ _ _ => exact ⟨place, by split <;> simp⟩
  · next place _ _ _ _ => exact ⟨place, by split <;> simp⟩
  · next place _ _ _ _ => exact ⟨place, by split <;> simp⟩
  · next place _ _ => exact ⟨place, hof place _⟩
  · exact ⟨pool.lists.size, hof _ _⟩
  · exact ⟨pool.lists.size, hof _ _⟩
  · exact ⟨0, by simp⟩

theorem Insertion.map_fst_at {place : Nat} {insertions : List (Insertion α)}
    (h : ∀ insertion ∈ insertions, insertion.place = place) :
    (Insertion.at place insertions).map Prod.fst = insertions.map Insertion.handle := by
  rw [Insertion.at, List.map_filterMap, ← List.filterMap_eq_map]
  refine List.filterMap_congr fun insertion hmem => ?_
  simp [h insertion hmem]

section

variable {pool : Pool α} {drawn : Nat} {freed : List (UInt32 × UInt32)}
    {issued : List (Insertion α)}

theorem mem_entries_step (H : pool.Valid) {op : Op α} (hfits : pool.Fits [op]) {place : Nat}
    {entry : Handle × α} :
    entry ∈ ((pool.step op).2.getList place).entries ↔
      (∃ old, (entry.1, old) ∈ (pool.getList place).entries ∧
        op.carries pool place entry.1 old = some entry.2) ∨
      ∃ insertion ∈ pool.insertions op, insertion.place = place ∧
        (insertion.handle, insertion.value) = entry := by
  rw [(H.perm_step hfits place).mem_iff, List.mem_append, Insertion.mem_at]
  refine or_congr_left ?_
  rw [carriedOver, List.mem_filterMap]
  constructor
  · rintro ⟨⟨handle, old⟩, hold, hcarries⟩
    obtain ⟨value, hvalue, rfl⟩ := Option.map_eq_some_iff.1 hcarries
    exact ⟨old, hold, hvalue⟩
  · rintro ⟨old, hold, hcarries⟩
    exact ⟨_, hold, by simp [hcarries]⟩

/-- A handle that was given before is kept with its element, or is stale now. -/
theorem Tracked.kept_or_stale (T : pool.Tracked drawn freed issued) (op : Op α)
    (hdrawn : drawn + drawnIds [op] < 2 ^ 32) (hfreed : ∀ cell, freed.count cell < 2 ^ 32)
    {insertion : Insertion α} (hmem : insertion ∈ issued) :
    (∃ old value, (insertion.handle, old) ∈ (pool.getList insertion.place).entries ∧
      op.carries pool insertion.place insertion.handle old = some value) ∨
    (pool.step op).2.Stale (drawn + drawnIds [op]) (freed ++ (pool.freedCell? op).toList)
      insertion.handle := by
  rcases T.live_or_stale insertion hmem with hlive | hstale
  · obtain ⟨⟨handle, old⟩, hentry, rfl⟩ := List.mem_map.1 hlive
    by_cases htakes : op.takesOut pool insertion.place insertion.handle
    · exact .inr (T.numbered.stale_of_takesOut T.valid op hdrawn hfreed hentry htakes)
    · exact .inl ⟨old, op.rewrites pool insertion.place insertion.handle old, hentry, by
        simp [Op.carries, htakes]⟩
  · exact .inr (hstale.step T.valid T.numbered op hdrawn)

/-- The elements that are kept and the new ones have different handles. -/
theorem Valid.nodup_carriedOver (H : pool.Valid) {op : Op α} (hfits : pool.Fits [op])
    (place : Nat) :
    ((pool.carriedOver op place).map Prod.fst ++
      (Insertion.at place (pool.insertions op)).map Prod.fst).Nodup := by
  rw [← List.map_append, ← ((H.perm_step hfits place).map Prod.fst).nodup_iff,
    ← ((H.refines hfits).valid place).sound.handles_eq]
  exact ((H.refines hfits).valid place).sound.nodup_handles

/-- An operation gives new elements handles that no element ever had. -/
theorem Tracked.handle_ne (T : pool.Tracked drawn freed issued) {op : Op α}
    (hfits : pool.Fits [op]) (hdrawn : drawn + drawnIds [op] < 2 ^ 32)
    (hfreed : ∀ cell, (freed ++ (pool.freedCell? op).toList).count cell < 2 ^ 32)
    {insertion new : Insertion α} (hmem : insertion ∈ issued) (hnew : new ∈ pool.insertions op) :
    insertion.handle ≠ new.handle := by
  intro heq
  have H' := (T.valid.refines hfits).valid
  have N' := T.numbered.step T.valid op hdrawn
  have hentry : (insertion.handle, new.value) ∈ ((pool.step op).2.getList new.place).entries :=
    (mem_entries_step T.valid hfits).2 (.inr ⟨new, hnew, rfl, by rw [heq]⟩)
  rcases T.kept_or_stale op hdrawn (count_lt_of_append hfreed) hmem with
    ⟨old, value, hold, hcarries⟩ | hstale
  · have hkept : (insertion.handle, value) ∈ ((pool.step op).2.getList insertion.place).entries :=
      (mem_entries_step T.valid hfits).2 (.inl ⟨old, hold, hcarries⟩)
    -- Both elements are in the list of the handle's number, so in one list.
    have hsame : insertion.place = new.place :=
      N'.id_inj _ (lt_of_mem_entries hkept) _ (lt_of_mem_entries hentry)
        ((N'.handle_of_mem H' hkept hfreed).1.symm.trans (N'.handle_of_mem H' hentry hfreed).1)
    have hdisjoint := (List.nodup_append.1 (T.valid.nodup_carriedOver hfits new.place)).2.2
    refine hdisjoint insertion.handle ?_ insertion.handle ?_ rfl
    · rw [← hsame]
      refine List.mem_map.2 ⟨(insertion.handle, value), ?_, rfl⟩
      exact List.mem_filterMap.2 ⟨_, hold, by simp [hcarries]⟩
    · exact List.mem_map.2 ⟨_, Insertion.mem_at.2 ⟨new, hnew, rfl, rfl⟩, heq.symm⟩
  · exact hstale.notMem H' N' hfreed new.place (List.mem_map.2 ⟨_, hentry, rfl⟩)

theorem Tracked.step (T : pool.Tracked drawn freed issued) {op : Op α}
    (hfits : pool.Fits [op]) (hdrawn : drawn + drawnIds [op] < 2 ^ 32)
    (hfreed : ∀ cell, (freed ++ (pool.freedCell? op).toList).count cell < 2 ^ 32) :
    (pool.step op).2.Tracked (drawn + drawnIds [op]) (freed ++ (pool.freedCell? op).toList)
      (issued ++ pool.insertions op) := by
  have H := T.valid
  refine ⟨(H.refines hfits).valid, T.numbered.step H op hdrawn, ?_, ?_, ?_⟩
  · intro insertion hmem
    rcases List.mem_append.1 hmem with hmem | hmem
    · rcases T.kept_or_stale op hdrawn (count_lt_of_append hfreed) hmem with
        ⟨old, value, hentry, hcarries⟩ | hstale
      · exact .inl (List.mem_map.2
          ⟨(insertion.handle, value),
            (mem_entries_step H hfits).2 (.inl ⟨old, hentry, hcarries⟩), rfl⟩)
      · exact .inr hstale
    · exact .inl (List.mem_map.2 ⟨(insertion.handle, insertion.value),
        (mem_entries_step H hfits).2 (.inr ⟨insertion, hmem, rfl, rfl⟩), rfl⟩)
  · intro other entry hentry
    rcases (mem_entries_step H hfits).1 hentry with ⟨old, hkept, -⟩ | ⟨insertion, hmem, hother, rfl⟩
    · obtain ⟨insertion, hmem, h⟩ := T.issued_of_live other _ hkept
      exact ⟨insertion, List.mem_append_left _ hmem, h⟩
    · exact ⟨insertion, List.mem_append_right _ hmem, hother, rfl⟩
  · obtain ⟨place, hplace⟩ := pool.insertions_place op
    rw [List.map_append]
    refine List.nodup_append.2 ⟨T.nodup, ?_, ?_⟩
    · rw [← Insertion.map_fst_at hplace]
      exact (List.nodup_append.1 (H.nodup_carriedOver hfits place)).2.1
    · intro _ hissued _ hnew
      obtain ⟨insertion, hmem, rfl⟩ := List.mem_map.1 hissued
      obtain ⟨new, hmem', rfl⟩ := List.mem_map.1 hnew
      exact T.handle_ne hfits hdrawn hfreed hmem hmem'

theorem Tracked.run (T : pool.Tracked drawn freed issued) {ops : List (Op α)}
    (hfits : pool.Fits ops) (hdrawn : drawn + drawnIds ops < 2 ^ 32)
    (hfreed : ∀ cell, (freed ++ pool.freedCells ops).count cell < 2 ^ 32) :
    (pool.run ops).Tracked (drawn + drawnIds ops) (freed ++ pool.freedCells ops)
      (issued ++ pool.issued ops) := by
  induction ops generalizing pool drawn freed issued with
  | nil => simpa [drawnIds, freedCells, Pool.issued, Pool.run] using T
  | cons op ops ih =>
    rw [drawnIds_cons, ← Nat.add_assoc] at hdrawn ⊢
    rw [freedCells, ← List.append_assoc] at hfreed ⊢
    rw [Pool.issued, ← List.append_assoc]
    exact ih (T.step hfits.head (by omega) (count_lt_of_append hfreed)) hfits.tail hdrawn hfreed

/-- The element of a handle that was given before, after one more operation. -/
theorem Tracked.get?_step (T : pool.Tracked drawn freed issued) {op : Op α}
    (hfits : pool.Fits [op]) (hdrawn : drawn + drawnIds [op] < 2 ^ 32)
    (hfreed : ∀ cell, (freed ++ (pool.freedCell? op).toList).count cell < 2 ^ 32)
    {insertion : Insertion α} (hmem : insertion ∈ issued) :
    ((pool.step op).2.getList insertion.place).get? insertion.handle =
      ((pool.getList insertion.place).get? insertion.handle).bind fun value =>
        op.carries pool insertion.place insertion.handle value := by
  refine Option.ext fun value => ?_
  rw [((T.valid.refines hfits).valid _).sound.get?_eq, mem_entries_step T.valid hfits,
    Option.bind_eq_some_iff]
  constructor
  · rintro (⟨old, hold, hcarries⟩ | ⟨new, hmem', -, heq⟩)
    · exact ⟨old, ((T.valid _).sound.get?_eq ..).2 hold, hcarries⟩
    · exact absurd (congrArg Prod.fst heq).symm (T.handle_ne hfits hdrawn hfreed hmem hmem')
  · rintro ⟨old, hold, hcarries⟩
    exact .inl ⟨old, ((T.valid _).sound.get?_eq ..).1 hold, hcarries⟩

theorem Tracked.get?_run (T : pool.Tracked drawn freed issued) {ops : List (Op α)}
    (hfits : pool.Fits ops) (hdrawn : drawn + drawnIds ops < 2 ^ 32)
    (hfreed : ∀ cell, (freed ++ pool.freedCells ops).count cell < 2 ^ 32)
    {insertion : Insertion α} (hmem : insertion ∈ issued) :
    ((pool.run ops).getList insertion.place).get? insertion.handle =
      fate insertion.place insertion.handle pool
        ((pool.getList insertion.place).get? insertion.handle) ops := by
  induction ops generalizing pool drawn freed issued with
  | nil => rfl
  | cons op ops ih =>
    rw [drawnIds_cons, ← Nat.add_assoc] at hdrawn
    rw [freedCells, ← List.append_assoc] at hfreed
    have hdrawn' : drawn + drawnIds [op] < 2 ^ 32 := by omega
    rw [fate, ← T.get?_step hfits.head hdrawn' (count_lt_of_append hfreed) hmem]
    exact ih (T.step hfits.head hdrawn' (count_lt_of_append hfreed)) hfits.tail hdrawn hfreed
      (List.mem_append_left _ hmem)

end

/-- All that takes a handle answers that the list at the place has no such element, and changes
nothing. -/
structure Refuses (pool : Pool α) (place : Nat) (handle : Handle) : Prop where
  contains_eq : (pool.getList place).contains handle = false
  get?_eq : (pool.getList place).get? handle = none
  next?_eq : (pool.getList place).next? handle = none
  prev?_eq : (pool.getList place).prev? handle = none
  insertBefore_eq : ∀ value, pool.step (.insertBefore place handle value) = (.handle none, pool)
  insertAfter_eq : ∀ value, pool.step (.insertAfter place handle value) = (.handle none, pool)
  remove_eq : pool.step (.remove place handle) = (.value none, pool)
  write_eq : ∀ value, pool.step (.write place handle value) = (.value none, pool)

theorem refuses_of_not_contains {pool : Pool α} {place : Nat} {handle : Handle}
    (h : ¬(pool.getList place).contains handle) : pool.Refuses place handle := by
  have hnone : (pool.getList place).resolve? handle = none := by
    simpa [HandleList.contains] using h
  constructor
  · simpa using h
  · simp [HandleList.get?, hnone]
  · simp [HandleList.next?, hnone]
  · simp [HandleList.prev?, hnone]
  · simp [step, HandleList.insertBefore_of_resolve? hnone]
  · simp [step, HandleList.insertAfter_of_resolve? hnone]
  · simp [step, HandleList.remove_of_resolve? hnone]
  · simp [step, HandleList.write_of_resolve? hnone]

theorem issued_append (pool : Pool α) (ops ops' : List (Op α)) :
    pool.issued (ops ++ ops') = pool.issued ops ++ (pool.run ops).issued ops' := by
  induction ops generalizing pool with
  | nil => rfl
  | cons op ops ih => rw [List.cons_append, issued, issued, ih, List.append_assoc]; rfl

theorem freedCells_append (pool : Pool α) (ops ops' : List (Op α)) :
    pool.freedCells (ops ++ ops') = pool.freedCells ops ++ (pool.run ops).freedCells ops' := by
  induction ops generalizing pool with
  | nil => rfl
  | cons op ops ih => rw [List.cons_append, freedCells, freedCells, ih, List.append_assoc]; rfl

/-- What a run leaves is tracked, and so is each state on the way. -/
theorem tracked_run {ops : List (Op α)} (hfits : ({} : Pool α).Fits ops)
    (hdrawn : drawnIds ops < 2 ^ 32)
    (hfreed : ∀ cell, (({} : Pool α).freedCells ops).count cell < 2 ^ 32)
    {before after : List (Op α)} (h : ops = before ++ after) :
    (({} : Pool α).run before).Tracked (drawnIds before)
      (({} : Pool α).freedCells before) (({} : Pool α).issued before) := by
  subst h
  rw [drawnIds, List.countP_append] at hdrawn
  rw [freedCells_append] at hfreed
  simpa using Tracked.empty.run hfits.left (by rw [drawnIds]; omega) (count_lt_of_append hfreed)

/-- A handle that a list accepts was given for an element of that list. -/
theorem Tracked.issued_of_contains {pool : Pool α} {drawn : Nat} {freed : List (UInt32 × UInt32)}
    {issued : List (Insertion α)} (T : pool.Tracked drawn freed issued) {place : Nat}
    {handle : Handle} (h : (pool.getList place).contains handle) :
    ∃ insertion ∈ issued, insertion.place = place ∧ insertion.handle = handle := by
  rw [(T.valid place).sound.contains_iff, (T.valid place).sound.handles_eq] at h
  obtain ⟨entry, hentry, rfl⟩ := List.mem_map.1 h
  exact T.issued_of_live place entry hentry

/-- **Handles are safe.** In a run that draws fewer than `2 ^ 32` identities, frees no cell `2 ^ 32`
times and never has more than `2 ^ 32` elements in one list, each insertion gives a handle of its
own. The handle names the inserted element in the list it was put into, with the value last written,
until the element is taken out, and then never again; at no time does it name an element of another
list. What a list accepts was given for an element of that list, and all other handles are
refused. -/
theorem handles_of_run (ops : List (Op α)) (hfits : ({} : Pool α).Fits ops)
    (hdrawn : drawnIds ops < 2 ^ 32)
    (hfreed : ∀ cell, (({} : Pool α).freedCells ops).count cell < 2 ^ 32) :
    let run (ops : List (Op α)) := ({} : Pool α).run ops
    ((({} : Pool α).issued ops).map Insertion.handle).Nodup ∧
      (∀ before op after, ops = before ++ op :: after →
        ∀ insertion ∈ (run before).insertions op,
          let value := fate insertion.place insertion.handle (run (before ++ [op]))
            (some insertion.value) after
          ((run ops).getList insertion.place).get? insertion.handle = value ∧
          (value = none → (run ops).Refuses insertion.place insertion.handle) ∧
          ∀ time place, place ≠ insertion.place →
            (run (ops.take time)).Refuses place insertion.handle) ∧
      ∀ place handle, ((run ops).getList place).contains handle ∧
          (∃ insertion ∈ ({} : Pool α).issued ops, insertion.place = place ∧
            insertion.handle = handle) ∨
        (run ops).Refuses place handle := by
  have T := tracked_run hfits hdrawn hfreed (List.append_nil ops).symm
  refine ⟨T.nodup, ?_, ?_⟩
  · intro before op after hops insertion hmem
    have hops' : ops = before ++ [op] ++ after := by simp [hops]
    have Told := tracked_run hfits hdrawn hfreed hops
    have Tnew := tracked_run hfits hdrawn hfreed hops'
    have hissued : insertion ∈ ({} : Pool α).issued (before ++ [op]) := by
      rw [issued_append]
      exact List.mem_append_right _ (by simpa [Pool.issued] using hmem)
    have hissued' : insertion ∈ ({} : Pool α).issued ops := by
      rw [hops', issued_append]
      exact List.mem_append_left _ hissued
    have hfits' : ({} : Pool α).Fits (before ++ [op] ++ after) := hops' ▸ hfits
    have hstart : ((({} : Pool α).run (before ++ [op])).getList insertion.place).get?
        insertion.handle = some insertion.value := by
      rw [(Tnew.valid _).sound.get?_eq, run_append]
      exact (mem_entries_step Told.valid hfits'.left.right).2 (.inr ⟨insertion, hmem, rfl, rfl⟩)
    have hget := Tnew.get?_run hfits'.right (by
      rw [hops', drawnIds, List.countP_append] at hdrawn
      exact hdrawn) (by
      rw [hops', freedCells_append] at hfreed
      exact hfreed) hissued
    rw [hstart, ← run_append, ← hops'] at hget
    refine ⟨hget, fun hnone => refuses_of_not_contains fun hcontains => ?_, ?_⟩
    · rw [hnone] at hget
      rw [(T.valid _).sound.contains_iff, (T.valid _).sound.handles_eq] at hcontains
      obtain ⟨⟨_, value⟩, hentry, rfl⟩ := List.mem_map.1 hcontains
      rw [((T.valid _).sound.get?_eq ..).2 hentry] at hget
      exact nomatch hget
    · intro time place hplace
      refine refuses_of_not_contains fun hcontains => hplace ?_
      have Ttime := tracked_run hfits hdrawn hfreed (List.take_append_drop time ops).symm
      obtain ⟨other, hother, rfl, hhandle⟩ := Ttime.issued_of_contains hcontains
      have hother' : other ∈ ({} : Pool α).issued ops := by
        rw [← List.take_append_drop time ops, issued_append]
        exact List.mem_append_left _ hother
      rw [List.inj_on_of_nodup_map T.nodup hother' hissued' hhandle]
  · intro place handle
    by_cases h : ((({} : Pool α).run ops).getList place).contains handle
    · exact .inl ⟨h, T.issued_of_contains h⟩
    · exact .inr (refuses_of_not_contains h)

/-- Cells that are used again, a list that is copied and one that is emptied. -/
def reuse : List (Op Nat) :=
  [.new [1, 2], .append 0 3, .remove 0 ⟨1, 0, 0⟩, .append 0 4, .write 0 ⟨1, 2, 0⟩ 9, .copy 0,
    .popFront 0, .clear 1, .append 1 5]

theorem handles_of_run_reuse : ({} : Pool Nat).Fits reuse ∧ drawnIds reuse < 2 ^ 32 ∧
    (∀ cell, (({} : Pool Nat).freedCells reuse).count cell < 2 ^ 32) ∧
    ((({} : Pool Nat).run reuse).getList 0).get? ⟨1, 2, 0⟩ = some 9 ∧
    (({} : Pool Nat).run reuse).Refuses 0 ⟨1, 0, 0⟩ ∧
    (({} : Pool Nat).run reuse).Refuses 1 ⟨1, 2, 0⟩ := by
  have hfits : ({} : Pool Nat).Fits reuse := by decide
  have hdrawn : drawnIds reuse < 2 ^ 32 := by decide
  have hfreed : ∀ cell, (({} : Pool Nat).freedCells reuse).count cell < 2 ^ 32 := by
    intro cell
    refine Nat.lt_of_le_of_lt List.count_le_length ?_
    decide
  have hfirst := (handles_of_run reuse hfits hdrawn hfreed).2.1 [] (.new [1, 2]) _ rfl
    ⟨0, ⟨1, 0, 0⟩, 1⟩ (by decide)
  have hthird := (handles_of_run reuse hfits hdrawn hfreed).2.1 [.new [1, 2]] (.append 0 3) _ rfl
    ⟨0, ⟨1, 2, 0⟩, 3⟩ (by decide)
  exact ⟨hfits, hdrawn, hfreed, hthird.1.trans (by decide), hfirst.2.1 (by decide),
    hthird.2.2 reuse.length 1 (by decide)⟩

/-! ## A list with more elements than numbers -/

theorem drawnIds_fill (n : Nat) : drawnIds (fill n) = 1 := by
  rw [drawnIds, fill, List.countP_cons, List.countP_replicate]
  rfl

theorem freedCells_replicate_append (pool : Pool Unit) (n : Nat) :
    pool.freedCells (List.replicate n (.append 0 ())) = [] := by
  induction n generalizing pool with
  | zero => rfl
  | succ n ih =>
    rw [List.replicate_succ, freedCells, ih]
    rfl

theorem freedCells_fill (pool : Pool Unit) (n : Nat) : pool.freedCells (fill n) = [] := by
  rw [fill, freedCells, freedCells_replicate_append]
  rfl

theorem count_freedCells_fill (pool : Pool Unit) (n : Nat) (cell : UInt32 × UInt32) :
    (pool.freedCells (fill n)).count cell < 2 ^ 32 := by
  rw [freedCells_fill]
  exact Nat.two_pow_pos 32

/-- The insertion into a list without a number left gives a handle that was given before. -/
theorem not_nodup_issued_fill {n : Nat} (hfull : n = 2 ^ 32) :
    ¬((({} : Pool Unit).issued (fill (n + 1))).map Insertion.handle).Nodup := by
  intro h
  have hdrawn : drawnIds (fill n) < 2 ^ 32 := drawnIds_fill n ▸ Nat.one_lt_two_pow (by decide)
  have T := tracked_run (fits_fill (Nat.le_of_eq hfull)) hdrawn (count_freedCells_fill {} n)
    (List.append_nil (fill n)).symm
  obtain ⟨⟨handle, hmem, hanswer⟩, -⟩ := (T.valid 0).append_full ((size_fill n).trans hfull) ()
  rw [(T.valid 0).handles_eq] at hmem
  obtain ⟨entry, hentry, rfl⟩ := List.mem_map.1 hmem
  obtain ⟨insertion, hissued, -, hhandle⟩ := T.issued_of_live 0 entry hentry
  have hnew : (⟨0, entry.1, ()⟩ : Insertion Unit) ∈
      (({} : Pool Unit).run (fill n)).insertions (.append 0 ()) := by
    have hlt : 0 < (({} : Pool Unit).run (fill n)).lists.size := by simp [run_fill]
    simp only [insertions, step, hanswer, if_pos hlt, List.mem_singleton]
  rw [fill_succ, issued_append, List.map_append] at h
  refine (List.nodup_append.1 h).2.2 _ (List.mem_map_of_mem hissued) entry.1 ?_ hhandle
  exact List.mem_map.2 ⟨_, List.mem_append_left _ hnew, rfl⟩

/-- With one element more than there are numbers for cells, two insertions give the same handle. -/
theorem not_nodup_fill : drawnIds (fill (2 ^ 32 + 1)) < 2 ^ 32 ∧
    (∀ cell, (({} : Pool Unit).freedCells (fill (2 ^ 32 + 1))).count cell < 2 ^ 32) ∧
    ¬((({} : Pool Unit).issued (fill (2 ^ 32 + 1))).map Insertion.handle).Nodup := by
  refine ⟨?_, count_freedCells_fill {} _, not_nodup_issued_fill rfl⟩
  rw [drawnIds_fill]
  exact Nat.one_lt_two_pow (by decide)

end Pool
end StyleTree
