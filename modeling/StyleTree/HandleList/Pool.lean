import StyleTree.HandleList.Basic

/-!
# Several lists at once

A `Pool` holds lists that are numbered in the order in which their identities were drawn. A list
draws a new identity when it is made, copied, cleared or emptied by taking its elements, so a handle
of one list is never good in another.

Main definitions: `Pool.Op`, `Pool.step`, `Pool.run`.
-/

namespace StyleTree

/-- Lists with identities drawn from one counter. -/
structure Pool (α : Type) where
  /-- The identity that is drawn next. -/
  nextId : UInt32 := 1
  lists : Array (HandleList α) := #[]

namespace Pool

/-- An operation on the lists of a pool. Lists are named by their place in the pool. -/
inductive Op (α : Type) where
  | new (values : List α)
  | copy (list : Nat)
  | append (list : Nat) (value : α)
  | prepend (list : Nat) (value : α)
  | insertBefore (list : Nat) (handle : Handle) (value : α)
  | insertAfter (list : Nat) (handle : Handle) (value : α)
  | remove (list : Nat) (handle : Handle)
  | popBack (list : Nat)
  | popFront (list : Nat)
  | write (list : Nat) (handle : Handle) (value : α)
  /-- Hands over every element. What the visitor makes of one may depend on those it was handed
  before. -/
  | visitEach (list : Nat) (visit : List α → α → α)
  | extend (list : Nat) (values : List α)
  | clear (list : Nat)
  /-- Takes the elements out; an empty list is left. -/
  | take (list : Nat)

/-- Changes every element by itself. -/
def Op.modifyEach {α : Type} (list : Nat) (f : α → α) : Op α :=
  .visitEach list fun _ => f

/-- What an operation answers. -/
inductive Reply (α : Type) where
  | nothing
  /-- The place of a new list. -/
  | list (index : Nat)
  | handle (handle : Option Handle)
  | value (value : Option α)
  | values (values : List α)

variable {α : Type}

/-- The list at a place; places outside of the pool hold an empty list that no handle names. -/
def getList (pool : Pool α) (index : Nat) : HandleList α :=
  pool.lists[index]?.getD (.empty 0)

/-- The pool with another list at a place. -/
def setList (pool : Pool α) (index : Nat) (list : HandleList α) : Pool α :=
  { pool with lists := pool.lists.setIfInBounds index list }

/-- The pool with a new list of the given values. -/
def addList (pool : Pool α) (values : List α) : Pool α :=
  { nextId := pool.nextId + 1, lists := pool.lists.push (.ofList pool.nextId values) }

/-- The pool with an empty list of a new identity at a place. -/
def resetList (pool : Pool α) (index : Nat) : Pool α :=
  { pool.setList index (.empty pool.nextId) with nextId := pool.nextId + 1 }

/-- Hands an element to a visitor that remembers what it was handed. -/
def remember (visit : List α → α → α) (value : α) : StateM (List α) α := do
  let seen ← get
  set (seen ++ [value])
  return visit seen value

/-- One operation. -/
def step (pool : Pool α) : Op α → Reply α × Pool α
  | .new values => (.list pool.lists.size, pool.addList values)
  | .copy index => (.list pool.lists.size, pool.addList (pool.getList index).toList)
  | .append index value =>
    let (handle, list) := (pool.getList index).append value
    (.handle handle, pool.setList index list)
  | .prepend index value =>
    let (handle, list) := (pool.getList index).prepend value
    (.handle handle, pool.setList index list)
  | .insertBefore index handle value =>
    let (handle, list) := (pool.getList index).insertBefore handle value
    (.handle handle, pool.setList index list)
  | .insertAfter index handle value =>
    let (handle, list) := (pool.getList index).insertAfter handle value
    (.handle handle, pool.setList index list)
  | .remove index handle =>
    let (value, list) := (pool.getList index).remove handle
    (.value value, pool.setList index list)
  | .popBack index =>
    let (value, list) := (pool.getList index).popBack
    (.value value, pool.setList index list)
  | .popFront index =>
    let (value, list) := (pool.getList index).popFront
    (.value value, pool.setList index list)
  | .write index handle value =>
    let (value, list) := (pool.getList index).write handle value
    (.value value, pool.setList index list)
  | .visitEach index visit =>
    let (list, seen) := ((pool.getList index).visitEach (remember visit)).run []
    (.values seen, pool.setList index list)
  | .extend index values => (.nothing, pool.setList index ((pool.getList index).extend values))
  | .clear index => (.nothing, pool.resetList index)
  | .take index => (.values (pool.getList index).toList, pool.resetList index)

/-- Operations in a row. -/
def run (pool : Pool α) (ops : List (Op α)) : Pool α :=
  ops.foldl (fun pool op => (pool.step op).2) pool

end Pool
end StyleTree
