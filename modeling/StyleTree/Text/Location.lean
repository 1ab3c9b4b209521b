import StyleTree.Text.Bytes

/-!
# Locations in a text

A location is a byte offset together with the line and the column it falls on. A `LineTable`
holds the offset at which each line starts and resolves offsets against it. Lines end after a
line feed, a form feed or a carriage return, and a carriage return with a line feed after it ends
one line only.

A text can be a fragment of a larger document. The table therefore takes the line and the column
of the first character: every line number is moved by the first, and the columns of the first
line by the second. Lines and columns are 32-bit words, and their sums wrap around.

Main definitions: `Location`, `LineTable.ofText`, `LineTable.location`.
-/

namespace StyleTree

/-- A number as a word. -/
instance natCoeWord : Coe Nat UInt32 := ⟨UInt32.ofNat⟩

/-- A word as a number. -/
instance wordCoeNat : Coe UInt32 Nat := ⟨UInt32.toNat⟩

/-- A resolved position. Lines and columns count from 1, columns in bytes. -/
structure Location where
  offset : Nat
  line : UInt32
  column : UInt32
  deriving DecidableEq, Repr, Inhabited

/-- The offsets right after each line end, for characters whose first byte is at `offset`. -/
def lineEnds (offset : Nat) : List Char → List Nat
  | [] => []
  | '\r' :: '\n' :: cs => (offset + 2) :: lineEnds (offset + 2) cs
  | c :: cs =>
    let next := offset + c.utf8Size
    if isNewline c then next :: lineEnds next cs else lineEnds next cs

/-- The start offset of every line, with the line and column at which the text stands. -/
structure LineTable where
  /-- Where the first line starts. -/
  origin : Nat
  /-- Where the later lines start, in increasing order. -/
  laterStarts : List Nat
  firstLine : UInt32
  firstColumn : UInt32
  deriving Repr

namespace LineTable

/-- The table of a text whose first line starts at byte `origin`; line ends before it do not
count. -/
def ofText (text : String) (origin : Nat) (firstLine firstColumn : UInt32) : LineTable where
  origin
  laterStarts :=
    lineEnds (Text.byteLength (Text.takeBytes origin text.toList))
      (Text.dropBytes origin text.toList)
  firstLine
  firstColumn

/-- The number of lines. -/
def lineCount (table : LineTable) : Nat :=
  table.laterStarts.length + 1

/-- The location of an offset: its line is the last one that starts at or before it. -/
def location (table : LineTable) (offset : Nat) : Location :=
  match (table.laterStarts.takeWhile (· ≤ offset)).getLast? with
  | none => ⟨offset, table.firstLine, .ofNat (offset - table.origin) + table.firstColumn⟩
  | some start =>
    let index := (table.laterStarts.takeWhile (· ≤ offset)).length
    ⟨offset, table.firstLine + .ofNat index, .ofNat (offset - start) + 1⟩

@[simp] theorem location_offset (table : LineTable) (offset : Nat) :
    (table.location offset).offset = offset := by
  unfold location; split <;> rfl

end LineTable
end StyleTree
