import StyleTree.Proofs.HandleList.Visits

/-! The generations of the cells of a `HandleList`. Of the operations only the removal of an element
changes a generation, that of the cell it frees; a cell that is not there yet counts as one of
generation 0, which it gets when it is made. `HandleList.Ages` says so of two lists, and every
operation ages the list it works on. -/

namespace StyleTree
namespace HandleList

variable {α : Type}

/-- How often the cell was freed, modulo the word size. -/
def generationAt (list : HandleList α) (index : UInt32) : UInt32 :=
  ((list.cell? index).map ListCell.generation).getD 0

/-- The second list is the first one after an operation that frees the given cell, if any. -/
structure Ages (list : HandleList α) (freed : Option UInt32) (list' : HandleList α) : Prop where
  id_eq : list'.id = list.id
  generationAt_eq : ∀ index, list'.generationAt index =
    list.generationAt index + if freed = some index then 1 else 0

theorem Ages.refl (list : HandleList α) : list.Ages none list :=
  ⟨rfl, by simp⟩

theorem Ages.trans {list list' list'' : HandleList α} {freed : Option UInt32}
    (h : list.Ages none list') (h' : list'.Ages freed list'') : list.Ages freed list'' where
  id_eq := h'.id_eq.trans h.id_eq
  generationAt_eq index := by rw [h'.generationAt_eq, h.generationAt_eq]; simp

/-- A change of cells that keeps their generations. -/
theorem Ages.of_cells {list list' : HandleList α} (hid : list'.id = list.id)
    (hcells : ∀ index, (list'.cell? index).map ListCell.generation =
      (list.cell? index).map ListCell.generation) : list.Ages none list' where
  id_eq := hid
  generationAt_eq index := by simp [generationAt, hcells]

theorem ages_modifyCell (list : HandleList α) (index : UInt32) {f : ListCell α → ListCell α}
    (hf : ∀ cell, (f cell).generation = cell.generation) :
    list.Ages none (list.modifyCell index f) := by
  refine .of_cells rfl fun k => ?_
  rw [cell?_modifyCell, Option.map_map]
  refine congrArg (Option.map · _) (funext fun cell => ?_)
  rw [Function.comp_apply]
  split
  · exact hf cell
  · rfl

theorem ages_setNext (list : HandleList α) (index target : Option UInt32) :
    list.Ages none (list.setNext index target) := by
  cases index with
  | none => exact .of_cells rfl fun _ => rfl
  | some index => exact list.ages_modifyCell index fun _ => rfl

theorem ages_setPrev (list : HandleList α) (index target : Option UInt32) :
    list.Ages none (list.setPrev index target) := by
  cases index with
  | none => exact .of_cells rfl fun _ => rfl
  | some index => exact list.ages_modifyCell index fun _ => rfl

theorem ages_join (list : HandleList α) (prev next after before : Option UInt32) :
    list.Ages none (list.join prev next after before) :=
  (list.ages_setNext prev after).trans (ages_setPrev _ next before)

theorem ages_allocate (list : HandleList α) (value : α) (prev next : Option UInt32) :
    list.Ages none (list.allocate value prev next).2 := by
  unfold allocate
  split
  · next index free _ =>
    exact ⟨rfl, (list.ages_modifyCell index
      (f := fun cell => { cell with value := some value, prev, next }) fun _ =>
        rfl).generationAt_eq⟩
  · refine ⟨rfl, fun index => ?_⟩
    simp only [generationAt, cell?, Array.getElem?_push]
    split
    · next h => simp [h]
    · simp

theorem ages_insertBetween (list : HandleList α) (value : α) (prev next : Option UInt32) :
    list.Ages none (list.insertBetween value prev next).2 := by
  rw [insertBetween_eq]
  exact (list.ages_allocate value prev next).trans (ages_join ..)

theorem ages_append (list : HandleList α) (value : α) : list.Ages none (list.append value).2 :=
  list.ages_insertBetween ..

theorem ages_prepend (list : HandleList α) (value : α) : list.Ages none (list.prepend value).2 :=
  list.ages_insertBetween ..

theorem ages_insertBefore (list : HandleList α) (handle : Handle) (value : α) :
    list.Ages none (list.insertBefore handle value).2 := by
  unfold insertBefore
  split
  · exact .refl list
  · exact list.ages_insertBetween ..

theorem ages_insertAfter (list : HandleList α) (handle : Handle) (value : α) :
    list.Ages none (list.insertAfter handle value).2 := by
  unfold insertAfter
  split
  · exact .refl list
  · exact list.ages_insertBetween ..

/-- The cell that the removal of an element frees. -/
def freedBy (list : HandleList α) (handle : Handle) : Option UInt32 :=
  if list.contains handle then some handle.index else none

theorem ages_remove (list : HandleList α) (handle : Handle) :
    list.Ages (list.freedBy handle) (list.remove handle).2 := by
  cases h : list.resolve? handle with
  | none => simpa [freedBy, contains, remove, h] using Ages.refl list
  | some cell =>
    obtain ⟨hcell, -⟩ := resolve?_eq_some_iff.1 h
    have hjoin := (list.vacate handle.index).ages_join cell.prev cell.next cell.next cell.prev
    have hfreed : list.freedBy handle = some handle.index := by simp [freedBy, contains, h]
    rw [remove_eq h, hfreed]
    refine ⟨hjoin.id_eq, fun index => (hjoin.generationAt_eq index).trans ?_⟩
    simp only [generationAt, cell?_vacate hcell, Option.some.injEq]
    by_cases hindex : handle.index = index
    · subst hindex
      simp [hcell]
    · simp [hindex]

theorem ages_popBack (list : HandleList α) :
    list.Ages (list.tail?.bind list.freedBy) list.popBack.2 := by
  unfold popBack
  split
  · next h => simpa [h] using Ages.refl list
  · next handle h => simpa [h] using list.ages_remove handle

theorem ages_popFront (list : HandleList α) :
    list.Ages (list.head?.bind list.freedBy) list.popFront.2 := by
  unfold popFront
  split
  · next h => simpa [h] using Ages.refl list
  · next handle h => simpa [h] using list.ages_remove handle

theorem ages_write (list : HandleList α) (handle : Handle) (value : α) :
    list.Ages none (list.write handle value).2 := by
  unfold write
  split
  · exact .refl list
  · exact list.ages_modifyCell handle.index fun _ => rfl

theorem ages_foldlM_visitAt {σ : Type} (visit : α → StateM σ α) (todo : List UInt32)
    (list : HandleList α) (state : σ) :
    list.Ages none ((todo.foldlM (visitAt visit) list).run state).1 := by
  induction todo generalizing list state with
  | nil => exact .refl list
  | cons index todo ih =>
    obtain ⟨list', state', hvisit⟩ := exists_run (list.visitAt visit index) state
    rw [List.foldlM_cons, run_bind_of_run hvisit]
    refine .trans ?_ (ih list' state')
    unfold visitAt at hvisit
    split at hvisit
    · obtain ⟨rfl, -⟩ := Prod.mk.inj hvisit
      exact .refl list
    · next value _ =>
      obtain ⟨value', state'', hvalue⟩ := exists_run (visit value) state
      rw [run_bind_of_run hvalue] at hvisit
      obtain ⟨rfl, -⟩ := Prod.mk.inj hvisit
      exact list.ages_modifyCell index fun _ => rfl

theorem ages_visitEach {σ : Type} (list : HandleList α) (visit : α → StateM σ α) (state : σ) :
    list.Ages none ((list.visitEach visit).run state).1 :=
  ages_foldlM_visitAt visit list.indices list state

theorem ages_extend (list : HandleList α) (values : List α) :
    list.Ages none (list.extend values) := by
  induction values generalizing list with
  | nil => exact .refl list
  | cons value values ih => exact (list.ages_append value).trans (ih _)

theorem ages_ofList (id : UInt32) (values : List α) : (empty id).Ages none (ofList id values) :=
  ages_extend _ values

@[simp] theorem generationAt_empty (id : UInt32) (index : UInt32) :
    (empty id : HandleList α).generationAt index = 0 := rfl

/-- The handle of an element carries the number of its list and the generation of its cell. -/
theorem Valid.handle_of_mem {list : HandleList α} (H : list.Valid) {entry : Handle × α}
    (h : entry ∈ list.entries) :
    entry.1.list = list.id ∧ entry.1.generation = list.generationAt entry.1.index := by
  obtain ⟨-, hentry⟩ := Linked.entryAt?_of_mem_entries H h
  obtain ⟨cell, hcell, hvalue⟩ := Option.bind_eq_some_iff.1 hentry
  obtain ⟨value, -, hpair⟩ := Option.map_eq_some_iff.1 hvalue
  have hhandle := congrArg Prod.fst hpair
  simp only at hhandle
  exact ⟨by rw [← hhandle], by rw [generationAt, hcell, ← hhandle]; rfl⟩

end HandleList
end StyleTree
