/-!
# Lists with stable handles

A `HandleList` is a doubly linked list whose cells live in an array. A `Handle` names one element of
one list. It stays good while other elements come and go, and it is refused once its element is
removed: a removal raises the generation of the cell, and a cleared list takes a new number.

Freed cells are used again, the one freed last first. Cells are named by 32-bit numbers, so a list
works as one as long as it has at most `2 ^ 32` cells; a cell made after that takes the number of an
older one.

Main definitions: `HandleList.insertBetween` and `HandleList.remove`, which all changes of the links
go through, and `HandleList.toList`, the elements in order.
-/

namespace StyleTree

/-- The name of an element: the number of its list, and its cell with the generation it had. -/
structure Handle where
  list : UInt32
  index : UInt32
  generation : UInt32
  deriving DecidableEq, Repr

/-- The cell and generation of a handle. -/
def Handle.label (handle : Handle) : String :=
  toString handle.index.toNat ++ "#" ++ toString handle.generation.toNat

/-- A cell of the array. It holds no value while it is free. -/
structure ListCell (α : Type) where
  value : Option α
  prev : Option UInt32 := none
  next : Option UInt32 := none
  /-- How often the cell was freed, modulo the word size. -/
  generation : UInt32 := 0
  deriving Repr

/-- A doubly linked list in an array of cells. -/
structure HandleList (α : Type) where
  id : UInt32
  cells : Array (ListCell α) := #[]
  /-- The free cells, the one freed last first. -/
  free : List UInt32 := []
  head : Option UInt32 := none
  tail : Option UInt32 := none
  size : Nat := 0
  deriving Repr

namespace HandleList

variable {α : Type}

/-- The list of the given number without elements. -/
def empty (id : UInt32) : HandleList α :=
  { id }

/-- Whether there are no elements. -/
def isEmpty (list : HandleList α) : Bool :=
  list.head.isNone

/-- The cell of a number. -/
def cell? (list : HandleList α) (index : UInt32) : Option (ListCell α) :=
  list.cells[index.toNat]?

/-- The handle of the element in a cell. -/
def handleAt (list : HandleList α) (index : UInt32) : Option Handle :=
  (list.cell? index).map fun cell => ⟨list.id, index, cell.generation⟩

/-- The cell that a handle names, if the handle is good. -/
def resolve? (list : HandleList α) (handle : Handle) : Option (ListCell α) :=
  if handle.list = list.id then
    (list.cell? handle.index).filter fun cell =>
      cell.generation = handle.generation && cell.value.isSome
  else none

/-- Whether the handle names an element of the list. -/
def contains (list : HandleList α) (handle : Handle) : Bool :=
  (list.resolve? handle).isSome

/-- The element that the handle names. -/
def get? (list : HandleList α) (handle : Handle) : Option α :=
  (list.resolve? handle).bind ListCell.value

/-- The handle of the element after the given one. -/
def next? (list : HandleList α) (handle : Handle) : Option Handle :=
  (list.resolve? handle).bind fun cell => cell.next.bind list.handleAt

/-- The handle of the element before the given one. -/
def prev? (list : HandleList α) (handle : Handle) : Option Handle :=
  (list.resolve? handle).bind fun cell => cell.prev.bind list.handleAt

/-- The handle of the first element. -/
def head? (list : HandleList α) : Option Handle :=
  list.head.bind list.handleAt

/-- The handle of the last element. -/
def tail? (list : HandleList α) : Option Handle :=
  list.tail.bind list.handleAt

/-- The value in a cell. -/
def valueAt? (list : HandleList α) (index : UInt32) : Option α :=
  (list.cell? index).bind ListCell.value

/-- The first element. -/
def first? (list : HandleList α) : Option α :=
  list.head.bind list.valueAt?

/-- The last element. -/
def last? (list : HandleList α) : Option α :=
  list.tail.bind list.valueAt?

/-! ## Order -/

/-- The cells met from `start` on by following the links; the first argument bounds their number. -/
def follow (list : HandleList α) : Nat → Option UInt32 → List UInt32
  | 0, _ => []
  | _, none => []
  | count + 1, some index =>
    index :: list.follow count ((list.cell? index).bind ListCell.next)

/-- The cells of the elements in order. -/
def indices (list : HandleList α) : List UInt32 :=
  list.follow list.cells.size list.head

/-- The elements in order. -/
def toList (list : HandleList α) : List α :=
  list.indices.filterMap list.valueAt?

/-- The handles of the elements in order. -/
def handles (list : HandleList α) : List Handle :=
  list.indices.filterMap list.handleAt

/-- The elements in order, each with the number of elements from it on. -/
def countdown (list : HandleList α) : List (Nat × α) :=
  list.toList.mapIdx fun index value => (list.size - index, value)

/-- The elements in brackets, with commas between them. -/
def listing (list : HandleList α) (element : α → String) : String :=
  "[" ++ ", ".intercalate (list.toList.map element) ++ "]"

/-- Whether two lists have the same elements in the same order. -/
def sameElements [DecidableEq α] (list other : HandleList α) : Bool :=
  list.size = other.size && list.toList = other.toList

/-! ## Changes -/

/-- Changes a cell. -/
def modifyCell (list : HandleList α) (index : UInt32) (f : ListCell α → ListCell α) :
    HandleList α :=
  { list with cells := list.cells.modify index.toNat f }

/-- Makes `target` follow the given cell, or come first. -/
def setNext (list : HandleList α) (index target : Option UInt32) : HandleList α :=
  match index with
  | some index => list.modifyCell index fun cell => { cell with next := target }
  | none => { list with head := target }

/-- Makes `target` precede the given cell, or come last. -/
def setPrev (list : HandleList α) (index target : Option UInt32) : HandleList α :=
  match index with
  | some index => list.modifyCell index fun cell => { cell with prev := target }
  | none => { list with tail := target }

/-- Puts a value into a free cell, or into a new one, whose number is cut to the word size. -/
def allocate (list : HandleList α) (value : α) (prev next : Option UInt32) :
    UInt32 × HandleList α :=
  match list.free with
  | index :: free =>
    let fill (cell : ListCell α) : ListCell α := { cell with value := some value, prev, next }
    (index, { list.modifyCell index fill with free, size := list.size + 1 })
  | [] =>
    (UInt32.ofNat list.cells.size,
      { list with cells := list.cells.push { value := some value, prev, next }
                  size := list.size + 1 })

/-- Inserts a value between two neighbouring cells; `none` stands for an end of the list. -/
def insertBetween (list : HandleList α) (value : α) (prev next : Option UInt32) :
    Option Handle × HandleList α :=
  let (index, list) := list.allocate value prev next
  let list := (list.setNext prev (some index)).setPrev next (some index)
  (list.handleAt index, list)

/-- Adds a value at the end. -/
def append (list : HandleList α) (value : α) : Option Handle × HandleList α :=
  list.insertBetween value list.tail none

/-- Adds a value at the front. -/
def prepend (list : HandleList α) (value : α) : Option Handle × HandleList α :=
  list.insertBetween value none list.head

/-- Inserts a value before an element. -/
def insertBefore (list : HandleList α) (handle : Handle) (value : α) :
    Option Handle × HandleList α :=
  match list.resolve? handle with
  | none => (none, list)
  | some cell => list.insertBetween value cell.prev (some handle.index)

/-- Inserts a value after an element. -/
def insertAfter (list : HandleList α) (handle : Handle) (value : α) :
    Option Handle × HandleList α :=
  match list.resolve? handle with
  | none => (none, list)
  | some cell => list.insertBetween value (some handle.index) cell.next

/-- Removes an element and gives it. -/
def remove (list : HandleList α) (handle : Handle) : Option α × HandleList α :=
  match list.resolve? handle with
  | none => (none, list)
  | some cell =>
    let freed (cell : ListCell α) : ListCell α :=
      { value := none, prev := none, next := none, generation := cell.generation + 1 }
    let list := list.modifyCell handle.index freed
    let list := (list.setNext cell.prev cell.next).setPrev cell.next cell.prev
    (cell.value, { list with free := handle.index :: list.free, size := list.size - 1 })

/-- Removes the last element and gives it. -/
def popBack (list : HandleList α) : Option α × HandleList α :=
  match list.tail? with
  | none => (none, list)
  | some handle => list.remove handle

/-- Removes the first element and gives it. -/
def popFront (list : HandleList α) : Option α × HandleList α :=
  match list.head? with
  | none => (none, list)
  | some handle => list.remove handle

/-- Replaces an element and gives the one before. -/
def write (list : HandleList α) (handle : Handle) (value : α) : Option α × HandleList α :=
  match list.resolve? handle with
  | none => (none, list)
  | some cell =>
    (cell.value, list.modifyCell handle.index fun cell => { cell with value := some value })

section
variable {m : Type → Type} [Monad m]

/-- Hands the element in a cell to a visitor and leaves what it makes of it. -/
def visitAt (visit : α → m α) (list : HandleList α) (index : UInt32) : m (HandleList α) :=
  match list.valueAt? index with
  | none => pure list
  | some value => do
    let value ← visit value
    return list.modifyCell index fun cell => { cell with value := some value }

/-- Hands every element to a visitor, front to back. -/
def visitEach (visit : α → m α) (list : HandleList α) : m (HandleList α) :=
  list.indices.foldlM (visitAt visit) list

end

/-- Adds values at the end. -/
def extend (list : HandleList α) (values : List α) : HandleList α :=
  values.foldl (fun list value => (list.append value).2) list

/-- The list of the given number and values. -/
def ofList (id : UInt32) (values : List α) : HandleList α :=
  (empty id).extend values

end HandleList
end StyleTree
