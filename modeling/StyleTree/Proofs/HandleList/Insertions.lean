import StyleTree.Proofs.HandleList.Refinement

/-! Elements over a run. `Pool.issued` lists the insertions of a run with the handles they gave, and
`Pool.fate` says what becomes of an element. One operation keeps the elements of a list that it does
not take out and adds those that it inserts (`Pool.Valid.perm_step`). -/

namespace StyleTree
namespace Pool

variable {α : Type}

/-! ## What a run does -/

/-- An element that was put into the list at a place, with its handle. -/
structure Insertion (α : Type) where
  place : Nat
  handle : Handle
  value : α
  deriving DecidableEq, Repr

/-- The insertions of elements with their handles into the list at a place. -/
def Insertion.ofEntries (place : Nat) (entries : List (Handle × α)) : List (Insertion α) :=
  entries.map fun entry => ⟨place, entry.1, entry.2⟩

/-- The elements that an operation puts into a list of the pool. -/
def insertions (pool : Pool α) (op : Op α) : List (Insertion α) :=
  let (reply, pool') := pool.step op
  match op, reply with
  | .append place value, .handle (some handle) | .prepend place value, .handle (some handle)
  | .insertBefore place _ value, .handle (some handle)
  | .insertAfter place _ value, .handle (some handle) =>
    if place < pool.lists.size then [⟨place, handle, value⟩] else []
  | .extend place _, _ =>
    Insertion.ofEntries place ((pool'.getList place).entries.drop (pool.getList place).size)
  | .new _, _ | .copy _, _ =>
    Insertion.ofEntries pool.lists.size (pool'.getList pool.lists.size).entries
  | _, _ => []

/-- The insertions of a run, in order. -/
def issued (pool : Pool α) : List (Op α) → List (Insertion α)
  | [] => []
  | op :: ops => pool.insertions op ++ issued (pool.step op).2 ops

/-- Whether the operation draws an identity. -/
def Op.drawsId : Op α → Bool
  | .new _ | .copy _ | .clear _ | .take _ => true
  | _ => false

/-- The cell that an operation frees, with the number of its list. -/
def freedCell? (pool : Pool α) (op : Op α) : Option (UInt32 × UInt32) :=
  match op with
  | .remove place handle =>
    if (pool.getList place).contains handle then some (handle.list, handle.index) else none
  | .popBack place => (pool.getList place).tail?.map fun handle => (handle.list, handle.index)
  | .popFront place => (pool.getList place).head?.map fun handle => (handle.list, handle.index)
  | _ => none

/-- The cells that a run frees, in order and as often as they are freed. -/
def freedCells (pool : Pool α) : List (Op α) → List (UInt32 × UInt32)
  | [] => []
  | op :: ops => (pool.freedCell? op).toList ++ freedCells (pool.step op).2 ops

/-- Whether the operation takes the element of the handle out of the list at a place. -/
def Op.takesOut (pool : Pool α) (place : Nat) (handle : Handle) : Op α → Bool
  | .remove place' handle' => place' = place && handle' = handle
  | .popBack place' => place' = place && (pool.getList place).handles.getLast? = some handle
  | .popFront place' => place' = place && (pool.getList place).handles.head? = some handle
  | .clear place' | .take place' => place' = place
  | _ => false

/-- The elements in front of that of the handle in the list at a place. -/
def inFront (pool : Pool α) (place : Nat) (handle : Handle) : List α :=
  ((pool.getList place).entries.takeWhile fun entry => entry.1 ≠ handle).map Prod.snd

/-- What the operation makes of the element of the handle in the list at a place. -/
def Op.rewrites (pool : Pool α) (place : Nat) (handle : Handle) (value : α) : Op α → α
  | .write place' handle' value' => if place' = place ∧ handle' = handle then value' else value
  | .visitEach place' visit =>
    if place' = place then visit (pool.inFront place handle) value else value
  | _ => value

/-- The element of the handle in the list at a place after an operation, `none` once it is gone. -/
def Op.carries (pool : Pool α) (place : Nat) (handle : Handle) (value : α) (op : Op α) : Option α :=
  if op.takesOut pool place handle then none else some (op.rewrites pool place handle value)

/-- What becomes of an element over a run: its value as it was last written, `none` from the
operation on that takes it out. -/
def fate (place : Nat) (handle : Handle) (pool : Pool α) (value : Option α) : List (Op α) → Option α
  | [] => value
  | op :: ops =>
    fate place handle (pool.step op).2 (value.bind fun value => op.carries pool place handle value)
      ops

/-! ## What an operation makes of the sequences -/

/-- The place of the list that the operation works on. -/
def Op.target? : Op α → Option Nat
  | .new _ | .copy _ => none
  | .append place _ | .prepend place _ | .insertBefore place _ _ | .insertAfter place _ _
  | .remove place _ | .popBack place | .popFront place | .write place _ _ | .visitEach place _
  | .extend place _ | .clear place | .take place => some place

theorem Op.carries_of_ne {op : Op α} {place : Nat} (h : op.target? ≠ some place) (pool : Pool α)
    (handle : Handle) (value : α) : op.carries pool place handle value = some value := by
  cases op <;> simp_all [target?, carries, takesOut, rewrites]

/-- The elements that a list at a place keeps in an operation. -/
def carriedOver (pool : Pool α) (op : Op α) (place : Nat) : List (Handle × α) :=
  (pool.getList place).entries.filterMap fun entry =>
    (op.carries pool place entry.1 entry.2).map (entry.1, ·)

/-- The elements of insertions into the list at a place. -/
def Insertion.at (place : Nat) (insertions : List (Insertion α)) : List (Handle × α) :=
  insertions.filterMap fun insertion =>
    if insertion.place = place then some (insertion.handle, insertion.value) else none

theorem Insertion.at_ofEntries (place place' : Nat) (entries : List (Handle × α)) :
    Insertion.at place (Insertion.ofEntries place' entries) =
      if place' = place then entries else [] := by
  rw [Insertion.at, ofEntries, List.filterMap_map]
  by_cases h : place' = place <;> simp [h]

theorem carriedOver_of_forall {pool : Pool α} {op : Op α} {place : Nat}
    (h : ∀ handle ∈ (pool.getList place).entries.map Prod.fst, ∀ value,
      op.carries pool place handle value = some value) :
    pool.carriedOver op place = (pool.getList place).entries := by
  rw [carriedOver, List.filterMap_congr fun entry hentry => ?_, List.filterMap_some]
  rw [h _ (List.mem_map_of_mem hentry)]
  rfl

/-- An operation on one element keeps the others. -/
theorem carriedOver_of_split {pool : Pool α} {op : Op α} {place : Nat} (H : pool.Valid)
    {front back : List (Handle × α)} {entry : Handle × α}
    (hsplit : (pool.getList place).entries = front ++ entry :: back)
    (h : ∀ handle value, handle ≠ entry.1 → op.carries pool place handle value = some value) :
    pool.carriedOver op place =
      front ++ ((op.carries pool place entry.1 entry.2).map (entry.1, ·)).toList ++ back := by
  have hnodup := (H place).sound.nodup_handles
  rw [(H place).sound.handles_eq, hsplit, List.map_append, List.map_cons] at hnodup
  obtain ⟨-, hback, hfront⟩ := List.nodup_append.1 hnodup
  have hkeep : ∀ entries : List (Handle × α), entry.1 ∉ entries.map Prod.fst →
      entries.filterMap (fun entry => (op.carries pool place entry.1 entry.2).map (entry.1, ·)) =
        entries := by
    intro entries hentry
    rw [List.filterMap_congr fun x hx => ?_, List.filterMap_some]
    rw [h _ _ fun heq => hentry (heq ▸ List.mem_map_of_mem hx)]
    rfl
  rw [carriedOver, hsplit, List.filterMap_append, List.filterMap_cons,
    hkeep front fun hmem => hfront _ hmem entry.1 (by simp) rfl,
    hkeep back (List.nodup_cons.1 hback).1]
  cases op.carries pool place entry.1 entry.2 <;> simp

/-- An operation that replaces one list. -/
theorem perm_of_setList {pool : Pool α} {op : Op α} (place : Nat) (list : HandleList α)
    (hstep : (pool.step op).2 = pool.setList place list)
    (hplace : place < pool.lists.size → list.entries.Perm
      (pool.carriedOver op place ++ Insertion.at place (pool.insertions op)))
    (htarget : op.target? = some place)
    (hinsertions : ∀ insertion ∈ pool.insertions op,
      insertion.place = place ∧ place < pool.lists.size) (other : Nat) :
    ((pool.step op).2.getList other).entries.Perm
      (pool.carriedOver op other ++ Insertion.at other (pool.insertions op)) := by
  rw [hstep]
  by_cases h : place = other
  · subst h
    by_cases hlt : place < pool.lists.size
    · have hget : (pool.setList place list).getList place = list := by
        simp [getList, setList, hlt]
      rw [hget]
      exact hplace hlt
    · have hnil : pool.insertions op = [] :=
        List.eq_nil_iff_forall_not_mem.2 fun x hx => hlt (hinsertions x hx).2
      have hget : (pool.setList place list).getList place = .empty 0 ∧
          pool.getList place = .empty 0 := by
        simp [getList, setList, Nat.not_lt.1 hlt]
      rw [hget.1, carriedOver, hget.2, HandleList.entries_empty, hnil]
      exact .refl []
  · have hget : (pool.setList place list).getList other = pool.getList other := by
      simp [getList, setList, h]
    have hnil : Insertion.at other (pool.insertions op) = [] := by
      refine List.filterMap_eq_nil_iff.2 fun x hx => if_neg ?_
      rw [(hinsertions x hx).1]
      exact h
    rw [hget,
      carriedOver_of_forall fun handle _ =>
        Op.carries_of_ne (by simpa [htarget] using h) pool handle,
      hnil, List.append_nil]

/-- An operation that puts one element into a list, between the others. -/
theorem perm_of_insert {pool : Pool α} {op : Op α} (place : Nat) (list : HandleList α)
    {front back : List (Handle × α)} {handle : Handle} {value : α}
    (hstep : (pool.step op).2 = pool.setList place list)
    (hinsertions : pool.insertions op =
      if place < pool.lists.size then [⟨place, handle, value⟩] else [])
    (htarget : op.target? = some place)
    (hcarries : ∀ handle value, op.carries pool place handle value = some value)
    (hsplit : (pool.getList place).entries = front ++ back)
    (hentries : list.entries = front ++ (handle, value) :: back) (other : Nat) :
    ((pool.step op).2.getList other).entries.Perm
      (pool.carriedOver op other ++ Insertion.at other (pool.insertions op)) := by
  refine perm_of_setList place list hstep (fun hlt => ?_) htarget ?_ other
  · rw [carriedOver_of_forall fun handle _ => hcarries handle, hinsertions, if_pos hlt, hentries,
      hsplit]
    simpa [Insertion.at] using List.perm_middle.trans (List.perm_append_singleton _ _).symm
  · intro insertion hmem
    rw [hinsertions] at hmem
    by_cases hlt : place < pool.lists.size
    · rw [if_pos hlt, List.mem_singleton] at hmem
      exact ⟨by rw [hmem], hlt⟩
    · simp [hlt] at hmem

/-- An operation that replaces one list without putting elements into it. -/
theorem perm_of_no_insertions {pool : Pool α} {op : Op α} (place : Nat) (list : HandleList α)
    (hstep : (pool.step op).2 = pool.setList place list) (hinsertions : pool.insertions op = [])
    (htarget : op.target? = some place)
    (hentries : list.entries = pool.carriedOver op place) (other : Nat) :
    ((pool.step op).2.getList other).entries.Perm
      (pool.carriedOver op other ++ Insertion.at other (pool.insertions op)) := by
  refine perm_of_setList place list hstep (fun _ => ?_) htarget ?_ other
  · rw [hentries, hinsertions]
    simp [Insertion.at]
  · simp [hinsertions]

/-- An operation that adds a list. -/
theorem perm_of_addList {pool : Pool α} {op : Op α} {values : List α}
    (hstep : (pool.step op).2 = pool.addList values)
    (hinsertions : pool.insertions op = Insertion.ofEntries pool.lists.size
      ((pool.addList values).getList pool.lists.size).entries)
    (htarget : op.target? = none) (other : Nat) :
    ((pool.step op).2.getList other).entries.Perm
      (pool.carriedOver op other ++ Insertion.at other (pool.insertions op)) := by
  rw [hstep, carriedOver_of_forall fun handle _ => Op.carries_of_ne (by simp [htarget]) pool handle,
    hinsertions, Insertion.at_ofEntries]
  by_cases h : pool.lists.size = other
  · subst h
    have hget : pool.getList pool.lists.size = .empty 0 := by simp [getList]
    rw [if_pos rfl, hget, HandleList.entries_empty, List.nil_append]
  · have hget : (pool.addList values).getList other = pool.getList other := by
      simp [getList, addList, Array.getElem?_push, Ne.symm h]
    rw [if_neg h, hget, List.append_nil]

/-- An operation that empties a list. -/
theorem perm_of_resetList {pool : Pool α} {op : Op α} (place : Nat)
    (hstep : (pool.step op).2 = pool.resetList place) (hinsertions : pool.insertions op = [])
    (hplace : ∀ handle value, op.carries pool place handle value = none)
    (htarget : op.target? = some place) (other : Nat) :
    ((pool.step op).2.getList other).entries.Perm
      (pool.carriedOver op other ++ Insertion.at other (pool.insertions op)) := by
  rw [hstep, hinsertions]
  have hget := pool.getList_setList place (.empty pool.nextId) other
  by_cases h : place = other
  · subst h
    have hnil : (pool.resetList place).getList place = .empty 0 ∨
        (pool.resetList place).getList place = .empty pool.nextId := by
      rcases hget with ⟨hempty, hget⟩ | ⟨-, hget⟩
      · exact .inl (hget.trans (hempty rfl))
      · exact .inr hget
    have hcarried : pool.carriedOver op place = [] := by simp [carriedOver, hplace]
    rw [hcarried]
    rcases hnil with hnil | hnil <;> rw [hnil, HandleList.entries_empty] <;> exact .refl []
  · rcases hget with ⟨-, hget⟩ | ⟨rfl, -⟩
    · rw [show (pool.resetList place).getList other = pool.getList other from hget,
        carriedOver_of_forall fun handle _ =>
          Op.carries_of_ne (by simpa [htarget] using h) pool handle]
      simp [Insertion.at]
    · exact absurd rfl h

theorem takeWhile_handle_ne {entries : List (Handle × α)} (h : (entries.map Prod.fst).Nodup)
    {index : Nat} (hlt : index < entries.length) :
    (entries.takeWhile fun entry => entry.1 ≠ entries[index].1) = entries.take index := by
  induction entries generalizing index with
  | nil => simp at hlt
  | cons entry entries ih =>
    obtain ⟨hentry, hnodup⟩ := List.nodup_cons.1 h
    cases index with
    | zero => simp
    | succ index =>
      have hlt' : index < entries.length := by simpa using hlt
      have hne : entry.1 ≠ entries[index].1 :=
        fun heq => hentry (heq ▸ List.mem_map_of_mem (List.getElem_mem hlt'))
      rw [List.getElem_cons_succ, List.takeWhile_cons_of_pos (by simpa using hne), ih hnodup hlt',
        List.take_succ_cons]

/-- The elements in front of one are those of smaller index. -/
theorem Valid.mapIdx_entries {pool : Pool α} (H : pool.Valid) (place : Nat)
    (visit : List α → α → α) :
    ((pool.getList place).entries.mapIdx fun index entry =>
      (entry.1, visit (((pool.getList place).entries.take index).map Prod.snd) entry.2)) =
    (pool.getList place).entries.map fun entry =>
      (entry.1, visit (pool.inFront place entry.1) entry.2) := by
  have hnodup := (H place).sound.nodup_handles
  rw [(H place).sound.handles_eq] at hnodup
  refine List.ext_getElem (by simp) fun index h h' => ?_
  rw [List.getElem_mapIdx, List.getElem_map, inFront, takeWhile_handle_ne hnodup]

/-- After an operation a list holds what it kept and what was put into it. -/
theorem Valid.perm_step {pool : Pool α} (H : pool.Valid) {op : Op α} (hfits : pool.Fits [op])
    (place : Nat) :
    ((pool.step op).2.getList place).entries.Perm
      (pool.carriedOver op place ++ Insertion.at place (pool.insertions op)) := by
  cases op with
  | new values => exact perm_of_addList rfl rfl rfl place
  | copy index => exact perm_of_addList rfl rfl rfl place
  | append index value =>
    obtain ⟨-, -, handle, hhandle, -, -, hentries⟩ := (H index).entries_append hfits.append value
    refine perm_of_insert index _ rfl ?_ rfl (fun _ _ => rfl)
      (List.append_nil _).symm hentries place
    simp [insertions, step, hhandle]
  | prepend index value =>
    obtain ⟨-, handle, hhandle, hentries⟩ := (H index).entries_prepend hfits.prepend value
    refine perm_of_insert index _ rfl ?_ rfl (fun _ _ => rfl)
      (List.nil_append _).symm hentries place
    simp [insertions, step, hhandle]
  | insertBefore index handle value =>
    rcases H.split_or_refused index handle with ⟨front, old, back, hsplit, hgood⟩ | ⟨hnone, -⟩
    · obtain ⟨-, new, hnew, hentries⟩ :=
        (H index).entries_insertBefore hsplit (hfits.insertBefore hgood) value
      refine perm_of_insert index _ rfl ?_ rfl (fun _ _ => rfl) hsplit hentries place
      simp [insertions, step, hnew]
    · refine perm_of_no_insertions index ((pool.getList index).insertBefore handle value).2
        rfl ?_ rfl ?_
        place
      · simp [insertions, step, HandleList.insertBefore_of_resolve? hnone]
      · rw [carriedOver_of_forall fun _ _ _ => rfl, HandleList.insertBefore_of_resolve? hnone]
  | insertAfter index handle value =>
    rcases H.split_or_refused index handle with ⟨front, old, back, hsplit, hgood⟩ | ⟨hnone, -⟩
    · obtain ⟨-, new, hnew, hentries⟩ :=
        (H index).entries_insertAfter hsplit (hfits.insertAfter hgood) value
      rw [← List.singleton_append, ← List.append_assoc] at hsplit hentries
      refine perm_of_insert index _ rfl ?_ rfl (fun _ _ => rfl) hsplit hentries place
      simp [insertions, step, hnew]
    · refine perm_of_no_insertions index ((pool.getList index).insertAfter handle value).2
        rfl ?_ rfl ?_
        place
      · simp [insertions, step, HandleList.insertAfter_of_resolve? hnone]
      · rw [carriedOver_of_forall fun _ _ _ => rfl, HandleList.insertAfter_of_resolve? hnone]
  | remove index handle =>
    refine perm_of_no_insertions index ((pool.getList index).remove handle).2 rfl rfl rfl ?_ place
    have hkeep : ∀ handle' value, handle' ≠ handle →
        (Op.remove index handle).carries pool index handle' value = some value := by
      intro handle' value h
      simp [Op.carries, Op.takesOut, Op.rewrites, Ne.symm h]
    rcases H.split_or_refused index handle with ⟨front, old, back, hsplit, -⟩ | ⟨hnone, hmem⟩
    · obtain ⟨-, -, hentries⟩ := (H index).entries_remove hsplit
      rw [hentries, carriedOver_of_split H hsplit hkeep]
      simp [Op.carries, Op.takesOut]
    · rw [getD_entries] at hmem
      rw [carriedOver_of_forall fun handle' h value =>
        hkeep handle' value fun heq => hmem (heq ▸ h)]
      rw [HandleList.remove_of_resolve? hnone]
  | popBack index =>
    refine perm_of_no_insertions index (pool.getList index).popBack.2 rfl rfl rfl ?_ place
    have hhandles := (H index).sound.handles_eq
    rcases List.eq_nil_or_concat (pool.getList index).entries with hnil | ⟨front, entry, hsplit⟩
    · simp [(H index).popBack_of_nil hnil, carriedOver, hnil]
    · rw [List.concat_eq_append] at hsplit
      obtain ⟨-, -, hentries⟩ := (H index).entries_popBack hsplit
      have hlast : (pool.getList index).handles.getLast? = some entry.1 := by
        simp [hhandles, hsplit]
      rw [hentries, carriedOver_of_split H hsplit fun handle' value h => by
        simp [Op.carries, Op.takesOut, Op.rewrites, hlast, Ne.symm h]]
      simp [Op.carries, Op.takesOut, hlast]
  | popFront index =>
    refine perm_of_no_insertions index (pool.getList index).popFront.2 rfl rfl rfl ?_ place
    have hhandles := (H index).sound.handles_eq
    cases hsplit : (pool.getList index).entries with
    | nil =>
      simp [(H index).popFront_of_nil hsplit, carriedOver, hsplit]
    | cons entry back =>
      obtain ⟨-, -, hentries⟩ := (H index).entries_popFront hsplit
      have hfirst : (pool.getList index).handles.head? = some entry.1 := by
        simp [hhandles, hsplit]
      rw [hentries, carriedOver_of_split H (List.nil_append (entry :: back) ▸ hsplit)
        fun handle' value h => by
          simp [Op.carries, Op.takesOut, Op.rewrites, hfirst, Ne.symm h]]
      simp [Op.carries, Op.takesOut, hfirst]
  | write index handle value =>
    refine perm_of_no_insertions index ((pool.getList index).write handle value).2 rfl rfl
      rfl ?_ place
    have hkeep : ∀ handle' old, handle' ≠ handle →
        (Op.write index handle value).carries pool index handle' old = some old := by
      intro handle' old h
      simp [Op.carries, Op.takesOut, Op.rewrites, Ne.symm h]
    rcases H.split_or_refused index handle with ⟨front, old, back, hsplit, -⟩ | ⟨hnone, hmem⟩
    · obtain ⟨-, -, hentries⟩ := (H index).entries_write hsplit value
      rw [hentries, carriedOver_of_split H hsplit hkeep]
      simp [Op.carries, Op.takesOut, Op.rewrites]
    · rw [getD_entries] at hmem
      rw [carriedOver_of_forall fun handle' h value =>
        hkeep handle' value fun heq => hmem (heq ▸ h)]
      rw [HandleList.write_of_resolve? hnone]
  | visitEach index visit =>
    obtain ⟨list, hvisit, -, hentries⟩ := (H index).entries_visitEach_remember visit
    refine perm_of_no_insertions index list ?_ rfl rfl ?_ place
    · simp only [step, hvisit]
    · rw [hentries, H.mapIdx_entries, carriedOver, ← List.filterMap_eq_map]
      simp [Op.carries, Op.takesOut, Op.rewrites]
  | extend index values =>
    refine perm_of_setList index ((pool.getList index).extend values) rfl ?_ rfl ?_ place
    · intro hlt
      obtain ⟨-, handles, hlength, hentries⟩ := (H index).entries_extend (hfits.extend hlt)
      have hget : ((pool.step (.extend index values)).2.getList index) =
          (pool.getList index).extend values := by
        simp [step, getList, setList, hlt]
      rw [carriedOver_of_forall fun _ _ _ => rfl, insertions]
      simp only
      rw [hget, Insertion.at_ofEntries, if_pos rfl, (H index).size_eq_length, hentries,
        List.drop_left]
    · intro insertion hmem
      have hlt : index < pool.lists.size := by
        by_contra hlt
        simp [insertions, Insertion.ofEntries, step, getList, setList, Nat.not_lt.1 hlt,
          HandleList.entries_empty] at hmem
      obtain ⟨entry, -, rfl⟩ := List.mem_map.1 hmem
      exact ⟨rfl, hlt⟩
  | clear index =>
    refine perm_of_resetList index rfl rfl (fun handle value => ?_) rfl place
    simp [Op.carries, Op.takesOut]
  | take index =>
    refine perm_of_resetList index rfl rfl (fun handle value => ?_) rfl place
    simp [Op.carries, Op.takesOut]

end Pool
end StyleTree
