import StyleTree.HandleList.Pool
import StyleTree.Proofs.HandleList.Entries

/-! The walk that hands over the elements of a list. `HandleList.Valid.run_visitEach` says that it
is the run of the visitor over the elements in order: what the visitor makes of them stands in their
places, the handles stay, and the state is the one after the last visit. A visitor that remembers
what it was handed (`Pool.remember`) tells the order of the visits. -/

namespace StyleTree

/-! ## Runs with a state -/

section
variable {σ α β γ : Type}

theorem exists_run (x : StateM σ α) (state : σ) : ∃ a state', x.run state = (a, state') :=
  ⟨_, _, rfl⟩

theorem run_bind_of_run {x : StateM σ α} {state state' : σ} {a : α}
    (h : x.run state = (a, state')) (f : α → StateM σ β) :
    (x >>= f).run state = (f a).run state' := by
  rw [StateT.run_bind, h]
  rfl

theorem run_mapM_cons {f : α → StateM σ β} {a : α} {as : List α} {state state' state'' : σ}
    {b : β} {bs : List β} (h : (f a).run state = (b, state'))
    (hrest : (as.mapM f).run state' = (bs, state'')) :
    ((a :: as).mapM f).run state = (b :: bs, state'') := by
  rw [List.mapM_cons, run_bind_of_run h, run_bind_of_run hrest]
  rfl

theorem run_mapM_append {f : α → StateM σ β} {as as' : List α} {state state' state'' : σ}
    {bs bs' : List β} (h : (as.mapM f).run state = (bs, state'))
    (hrest : (as'.mapM f).run state' = (bs', state'')) :
    ((as ++ as').mapM f).run state = (bs ++ bs', state'') := by
  rw [List.mapM_append, run_bind_of_run h, run_bind_of_run hrest]
  rfl

/-- What is seen of each result of a row depends on nothing but what it is the result for. -/
theorem map_run_mapM {f : α → StateM σ β} {g : β → γ} {k : α → γ} {as : List α}
    (h : ∀ a ∈ as, ∀ state, g ((f a).run state).1 = k a) (state : σ) :
    ((as.mapM f).run state).1.map g = as.map k := by
  induction as generalizing state with
  | nil => rfl
  | cons a as ih =>
    obtain ⟨ha, has⟩ := List.forall_mem_cons.1 h
    obtain ⟨b, state', hb⟩ := exists_run (f a) state
    obtain ⟨bs, state'', hbs⟩ := exists_run (as.mapM f) state'
    have hhead := ha state
    have htail := ih has state'
    rw [hb] at hhead
    rw [hbs] at htail
    rw [run_mapM_cons hb hbs, List.map_cons, List.map_cons, hhead, htail]

end

/-! ## The walk -/

namespace HandleList

variable {σ α : Type}

/-- Handing over the element of a handle is writing what the visitor makes of it. -/
theorem run_visitAt {list : HandleList α} {front back : List (Handle × α)} {handle : Handle}
    {old value : α} {visit : α → StateM σ α} {state state' : σ} (H : list.Valid)
    (hentries : list.entries = front ++ (handle, old) :: back)
    (hvisit : (visit old).run state = (value, state')) :
    (list.visitAt visit handle.index).run state = ((list.write handle value).2, state') := by
  obtain ⟨before, after, -, -, -, -, hresolve⟩ := H.split hentries
  obtain ⟨hcell, -⟩ := resolve?_eq_some_iff.1 hresolve
  rw [visitAt, valueAt?, hcell, write, hresolve]
  exact run_bind_of_run hvisit _

/-- The walk through the elements that are still to come, after those in `front`. -/
theorem Valid.run_foldlM_visitAt {list : HandleList α} (H : list.Valid)
    (front todo : List (Handle × α)) (hentries : list.entries = front ++ todo)
    (visit : α → StateM σ α) (state : σ) :
    ∃ (list' : HandleList α) (values : List α) (state' : σ),
      ((todo.map Prod.snd).mapM visit).run state = (values, state') ∧
      ((todo.map fun entry => entry.1.index).foldlM (visitAt visit) list).run state =
        (list', state') ∧
      list.Grows list' ∧ values.length = todo.length ∧
      list'.entries = front ++ (todo.map Prod.fst).zip values := by
  induction todo generalizing front list state with
  | nil => exact ⟨list, [], state, rfl, rfl, H.grows_self, rfl, hentries⟩
  | cons entry todo ih =>
    obtain ⟨handle, old⟩ := entry
    obtain ⟨value, state₁, hvisit⟩ := exists_run (visit old) state
    obtain ⟨hgrows, -, hentries'⟩ := H.entries_write hentries value
    obtain ⟨list', values, state₂, hvisits, hlist, hgrows', hlength, hresult⟩ :=
      ih hgrows.valid (front ++ [(handle, value)])
        (by rw [hentries', List.append_assoc, List.singleton_append]) state₁
    have hsize : (list.write handle value).2.size ≤ list'.size := by
      rw [hgrows.valid.size_eq_length, hgrows'.valid.size_eq_length, hentries', hresult]
      simp [hlength]
    refine ⟨list', value :: values, state₂, run_mapM_cons hvisit hvisits, ?_,
      hgrows.trans hgrows' hsize, congrArg (· + 1) hlength, ?_⟩
    · rw [List.map_cons, List.foldlM_cons, run_bind_of_run (run_visitAt H hentries hvisit), hlist]
    · rw [hresult, List.map_cons, List.zip_cons_cons, List.append_assoc, List.singleton_append]

/-- Handing the elements of a list to a visitor is handing them over in order. What it makes of them
stands in their places. -/
theorem Valid.entries_visitEach {list : HandleList α} (H : list.Valid) (visit : α → StateM σ α)
    (state : σ) :
    ∃ (list' : HandleList α) (values : List α) (state' : σ),
      ((list.entries.map Prod.snd).mapM visit).run state = (values, state') ∧
      (list.visitEach visit).run state = (list', state') ∧ list.Grows list' ∧
      values.length = list.entries.length ∧
      list'.entries = (list.entries.map Prod.fst).zip values := by
  obtain ⟨list', values, state', hvisits, hlist, hgrows, hlength, hentries⟩ :=
    H.run_foldlM_visitAt [] list.entries rfl visit state
  refine ⟨list', values, state', hvisits, ?_, hgrows, hlength, hentries⟩
  rw [visitEach, ← hlist, H.map_index_entries]

theorem Valid.run_visitEach {list : HandleList α} (H : list.Valid) (visit : α → StateM σ α)
    (state : σ) :
    ∃ (list' : HandleList α) (values : List α) (state' : σ),
      (list.toList.mapM visit).run state = (values, state') ∧
      (list.visitEach visit).run state = (list', state') ∧ list'.Valid ∧
      list'.toList = values ∧ list'.handles = list.handles := by
  obtain ⟨list', values, state', hvisits, hlist, hgrows, hlength, hentries⟩ :=
    H.entries_visitEach visit state
  refine ⟨list', values, state', ?_, hlist, hgrows.valid, ?_, ?_⟩
  · rw [H.toList_eq, hvisits]
  · rw [hgrows.valid.toList_eq, hentries, List.map_snd_zip (by simp [hlength])]
  · rw [hgrows.valid.handles_eq, hentries, List.map_fst_zip (by simp [hlength]), H.handles_eq]

/-! ## Remembering visitors -/

theorem run_mapM_remember (visit : List α → α → α) (values seen : List α) :
    (values.mapM (Pool.remember visit)).run seen =
      (values.mapIdx fun index value => visit (seen ++ values.take index) value,
        seen ++ values) := by
  induction values generalizing seen with
  | nil =>
    rw [List.append_nil]
    rfl
  | cons value values ih =>
    have hvisit : (Pool.remember visit value).run seen = (visit seen value, seen ++ [value]) := rfl
    rw [run_mapM_cons hvisit (ih _)]
    simp [List.mapIdx_cons]

/-- A visitor that remembers what it was handed was handed the elements in order, and made of each
what it makes of it after those before. -/
theorem Valid.entries_visitEach_remember {list : HandleList α} (H : list.Valid)
    (visit : List α → α → α) :
    ∃ list' : HandleList α,
      (list.visitEach (Pool.remember visit)).run [] = (list', list.entries.map Prod.snd) ∧
      list.Grows list' ∧ list'.entries = list.entries.mapIdx fun index entry =>
        (entry.1, visit ((list.entries.take index).map Prod.snd) entry.2) := by
  obtain ⟨list', values, seen, hvisits, hlist, hgrows, hlength, hentries⟩ :=
    H.entries_visitEach (Pool.remember visit) []
  obtain ⟨rfl, rfl⟩ := Prod.mk.inj ((run_mapM_remember visit _ []).symm.trans hvisits)
  refine ⟨list', hlist, hgrows, hentries.trans ?_⟩
  refine List.ext_getElem (by simp) fun index h h' => ?_
  simp

end HandleList
end StyleTree
