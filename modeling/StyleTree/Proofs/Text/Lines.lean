import Mathlib.Algebra.Group.Nat.Defs
import StyleTree.Proofs.Token.Tiling

/-! Lines and columns. A line terminator is known by its last byte: a line feed, a form feed, or a
carriage return with no line feed after it (`closesLine`). The table of lines finds the ends of the
terminators between its origin and an offset (`takeWhile_laterStarts`), so the line of an offset
counts them and its column counts from the last of them (`LineTable.counts_ofText`). A terminator
can be told from the bytes at and after its end, so the count goes on where a text is cut, also
between a carriage return and a line feed (`LineTable.location_fragment`). -/

namespace StyleTree

/-! ## Line terminators among bytes -/

/-- The bytes of the encoded text. -/
def Text.bytes (text : String) : List UInt8 :=
  text.toByteArray.data.toList

/-- The byte at an index is the last one of a line terminator: a line feed, a form feed, or a
carriage return that no line feed follows. -/
def closesLine (bytes : List UInt8) (index : Nat) : Bool :=
  bytes[index]? = some 0x0a || bytes[index]? = some 0x0c ||
    bytes[index]? = some 0x0d && bytes[index + 1]? ≠ some 0x0a

/-- The ends of the line terminators that lie between two offsets. A carriage return with a line
feed is one terminator, and it lies before an offset if both do. -/
def lineStops (bytes : List UInt8) (start stop : Nat) : List Nat :=
  ((List.range' start (stop - start)).filter (closesLine bytes)).map (· + 1)

section
variable {bytes : List UInt8} {start middle stop : Nat}

theorem mem_lineStops {position : Nat} : position ∈ lineStops bytes start stop ↔
    ∃ index, start ≤ index ∧ index < stop ∧ closesLine bytes index = true ∧
      index + 1 = position := by
  simp only [lineStops, List.mem_map, List.mem_filter, List.mem_range'_1]
  constructor
  · rintro ⟨index, ⟨⟨hstart, hstop⟩, hclose⟩, rfl⟩
    exact ⟨index, hstart, by omega, hclose, rfl⟩
  · rintro ⟨index, hstart, hstop, hclose, rfl⟩
    exact ⟨index, ⟨⟨hstart, by omega⟩, hclose⟩, rfl⟩

theorem lineStops_eq_nil
    (h : ∀ index, start ≤ index → index < stop → closesLine bytes index = false) :
    lineStops bytes start stop = [] := by
  apply List.eq_nil_iff_forall_not_mem.2
  intro position hmem
  obtain ⟨index, hstart, hstop, hclose, -⟩ := mem_lineStops.1 hmem
  rw [h index hstart hstop] at hclose
  exact nomatch hclose

theorem lineStops_of_le (h : stop ≤ start) : lineStops bytes start stop = [] :=
  lineStops_eq_nil fun index hstart hstop => by omega

theorem lineStops_append (hstart : start ≤ middle) (hstop : middle ≤ stop) :
    lineStops bytes start stop = lineStops bytes start middle ++ lineStops bytes middle stop := by
  have hrange : List.range' start (stop - start) =
      List.range' start (middle - start) ++ List.range' middle (stop - middle) := by
    have happend := @List.range'_append_1 start (middle - start) (stop - middle)
    rw [Nat.add_sub_cancel' hstart] at happend
    rw [happend]
    congr 1
    omega
  rw [lineStops, hrange, List.filter_append, List.map_append]
  rfl

/-- Bytes that close no line can be left out at the start. -/
theorem lineStops_skip (hle : start ≤ middle)
    (h : ∀ index, start ≤ index → index < middle → closesLine bytes index = false) :
    lineStops bytes start stop = lineStops bytes middle stop := by
  rcases Nat.le_total middle stop with hstop | hstop
  · rw [lineStops_append hle hstop, lineStops_eq_nil h, List.nil_append]
  · rw [lineStops_of_le hstop]
    apply lineStops_eq_nil
    intro index hindex hlt
    exact h index hindex (by omega)

/-- The first line terminator ends right after the byte at `middle`. -/
theorem lineStops_next (hle : start ≤ middle) (hlt : middle < stop)
    (h : ∀ index, start ≤ index → index < middle → closesLine bytes index = false)
    (hclose : closesLine bytes middle = true) :
    lineStops bytes start stop = (middle + 1) :: lineStops bytes (middle + 1) stop := by
  have hone : lineStops bytes middle (middle + 1) = [middle + 1] := by
    simp [lineStops, hclose]
  rw [lineStops_skip hle h, lineStops_append (Nat.le_succ middle) hlt, hone, List.singleton_append]

theorem closesLine_of_length_le {index : Nat} (h : bytes.length ≤ index) :
    closesLine bytes index = false := by
  simp [closesLine, List.getElem?_eq_none h]

theorem closesLine_append_right (front : List UInt8) (index : Nat) :
    closesLine (front ++ bytes) (front.length + index) = closesLine bytes index := by
  have hget : ∀ index, (front ++ bytes)[front.length + index]? = bytes[index]? := by
    intro index
    rw [List.getElem?_append_right (Nat.le_add_right _ _), Nat.add_sub_cancel_left]
  rw [closesLine, closesLine, hget, Nat.add_assoc, hget]

/-- What closes a line does not depend on the bytes before it. -/
theorem lineStops_append_right (front : List UInt8) (start stop : Nat) :
    lineStops (front ++ bytes) (front.length + start) (front.length + stop) =
      (lineStops bytes start stop).map (front.length + ·) := by
  have hcloses : closesLine (front ++ bytes) ∘ (front.length + ·) = closesLine bytes := by
    funext index
    exact closesLine_append_right front index
  rw [lineStops, lineStops, Nat.add_sub_add_left, ← List.map_add_range', List.filter_map, hcloses,
    List.map_map, List.map_map]
  rfl

theorem le_of_getLast?_lineStops {position : Nat}
    (h : (lineStops bytes start stop).getLast? = some position) :
    start < position ∧ position ≤ stop := by
  obtain ⟨index, hstart, hstop, -, rfl⟩ := mem_lineStops.1 (List.mem_of_getLast? h)
  omega

theorem length_lineStops_le : (lineStops bytes start stop).length ≤ stop - start := by
  rw [lineStops, List.length_map]
  exact (List.length_filter_le _ _).trans (by rw [List.length_range'])

end

/-! ## Line terminators among characters -/

/-- A byte below 128 encodes a character of its own. -/
theorem eq_byteChar_of_mem_encode {c : Char} {byte : UInt8} (hmem : byte ∈ String.utf8EncodeChar c)
    (hlt : byte.toNat < 128) : c = byteChar byte := by
  have hmem := List.mem_map_of_mem (f := byteChar) hmem
  by_cases hwide : isWide c
  · obtain ⟨d, ds, hencode, hall⟩ := encode_of_isWide hwide
    rw [hencode] at hmem
    have hwide := hall _ hmem
    rw [isWide, toNat_byteChar, decide_eq_true_iff] at hwide
    omega
  · rw [encode_of_not_isWide (by simpa using hwide)] at hmem
    exact (List.mem_singleton.1 hmem).symm

theorem isNewline_iff {c : Char} : isNewline c = true ↔ c = '\n' ∨ c = '\r' ∨ c = '\x0c' := by
  simp [isNewline, or_assoc]

/-- No byte of a character that is not a line end closes a line. -/
theorem closesLine_of_not_newline {c : Char} (hc : isNewline c = false) (front rest : List UInt8)
    {index : Nat} (hindex : index < c.utf8Size) :
    closesLine (front ++ (String.utf8EncodeChar c ++ rest)) (front.length + index) = false := by
  have hget : (String.utf8EncodeChar c ++ rest)[index]? = (String.utf8EncodeChar c)[index]? :=
    List.getElem?_append_left (by rwa [String.length_utf8EncodeChar])
  have hne : ∀ byte : UInt8, byte.toNat < 128 → isNewline (byteChar byte) = true →
      (String.utf8EncodeChar c)[index]? ≠ some byte := by
    intro byte hlt hnewline hbyte
    rw [← eq_byteChar_of_mem_encode (List.mem_of_getElem? hbyte) hlt, hc] at hnewline
    exact nomatch hnewline
  rw [closesLine_append_right, closesLine, hget]
  simp [hne 0x0a (by decide) (by decide), hne 0x0c (by decide) (by decide),
    hne 0x0d (by decide) (by decide)]

/-- The first byte, if it is below 128, encodes the first character. -/
theorem head?_of_encode {cs : List Char} {byte : UInt8}
    (hbyte : (cs.flatMap String.utf8EncodeChar)[0]? = some byte) (hlt : byte.toNat < 128) :
    cs.head? = some (byteChar byte) := by
  cases cs with
  | nil => exact nomatch hbyte
  | cons c cs =>
    have hpos : 0 < (String.utf8EncodeChar c).length := by
      rw [String.length_utf8EncodeChar]
      exact c.utf8Size_pos
    rw [List.flatMap_cons, List.getElem?_append_left hpos] at hbyte
    rw [← eq_byteChar_of_mem_encode (List.mem_of_getElem? hbyte) hlt, List.head?_cons]

/-- A line end closes a line, unless it is a carriage return before a line feed. -/
theorem closesLine_of_newline {c : Char} {cs : List Char} (hc : isNewline c = true)
    (hnext : c = '\r' → cs.head? ≠ some '\n') (front : List UInt8) :
    closesLine (front ++ (c :: cs).flatMap String.utf8EncodeChar) front.length = true := by
  have hfirst : closesLine (front ++ (c :: cs).flatMap String.utf8EncodeChar) (front.length + 0) =
      closesLine ((c :: cs).flatMap String.utf8EncodeChar) 0 := closesLine_append_right front 0
  rw [Nat.add_zero] at hfirst
  rw [hfirst, List.flatMap_cons]
  rcases isNewline_iff.1 hc with rfl | rfl | rfl
  · rfl
  · have hfeed : (cs.flatMap String.utf8EncodeChar)[0]? ≠ some 0x0a :=
      fun hfeed => hnext rfl (head?_of_encode hfeed (by decide))
    have hencode : String.utf8EncodeChar '\r' = [0x0d] := rfl
    simp only [closesLine, hencode, List.singleton_append, List.getElem?_cons_zero,
      List.getElem?_cons_succ]
    simp [hfeed]
  · rfl

/-- The first of the later lines starts where the first terminator ends. -/
theorem takeWhile_cons_lineStops {bytes : List UInt8} {start last stop : Nat} {starts : List Nat}
    (hle : start ≤ last)
    (hopen : ∀ index, start ≤ index → index < last → closesLine bytes index = false)
    (hclose : closesLine bytes last = true)
    (hstarts : starts.takeWhile (fun start => decide (start ≤ stop)) = lineStops bytes
      (last + 1) stop) :
    ((last + 1) :: starts).takeWhile (fun start => decide (start ≤ stop)) =
      lineStops bytes start stop := by
  by_cases hlt : last < stop
  · rw [List.takeWhile_cons_of_pos (by rw [decide_eq_true_iff]; omega), hstarts,
      lineStops_next hle hlt hopen hclose]
  · rw [List.takeWhile_cons_of_neg (by rw [decide_eq_true_iff]; omega), lineStops_eq_nil]
    intro index hstart hstop
    exact hopen index hstart (by omega)

theorem utf8Size_of_newline {c : Char} (h : isNewline c = true) : c.utf8Size = 1 := by
  rcases isNewline_iff.1 h with rfl | rfl | rfl <;> rfl

/-- The line ends up to an offset are those of the bytes. -/
theorem takeWhile_lineEnds (front : List UInt8) (cs : List Char) (stop : Nat) :
    (lineEnds front.length cs).takeWhile (fun start => decide (start ≤ stop)) =
      lineStops (front ++ cs.flatMap String.utf8EncodeChar) front.length stop := by
  generalize hoffset : front.length = offset
  fun_induction lineEnds offset cs generalizing front with
  | case1 offset =>
    rw [lineStops_eq_nil]
    · rfl
    · intro index hstart _
      exact closesLine_of_length_le (by simp [hoffset, hstart])
  | case2 offset cs ih =>
    subst hoffset
    have hih := ih (front ++ [0x0d, 0x0a]) (by simp)
    have hbytes : front ++ ('\r' :: '\n' :: cs).flatMap String.utf8EncodeChar =
        front ++ [0x0d, 0x0a] ++ cs.flatMap String.utf8EncodeChar := by
      rw [List.append_assoc]
      rfl
    have hcloses : ∀ index, closesLine (front ++ [0x0d, 0x0a] ++ cs.flatMap String.utf8EncodeChar)
        (front.length + index) = closesLine
          ([0x0d, 0x0a] ++ cs.flatMap String.utf8EncodeChar) index := by
      intro index
      rw [List.append_assoc, closesLine_append_right]
    rw [hbytes]
    apply takeWhile_cons_lineStops (Nat.le_succ _) _ (hcloses 1) hih
    intro index hstart hlast
    obtain rfl : index = front.length := by omega
    exact hcloses 0
  | case3 offset c cs hcrlf next hnewline ih =>
    subst hoffset
    have hnext : next = front.length + 1 := by
      show front.length + c.utf8Size = _
      rw [utf8Size_of_newline hnewline]
    have hih := ih (front ++ String.utf8EncodeChar c) (by simp [String.length_utf8EncodeChar, next])
    rw [List.append_assoc, ← List.flatMap_cons, hnext] at hih
    rw [hnext]
    apply takeWhile_cons_lineStops (Nat.le_refl _) _ _ hih
    · intro index hstart hlast
      omega
    · apply closesLine_of_newline hnewline
      rintro rfl hhead
      cases cs with
      | nil => exact nomatch hhead
      | cons d cs => exact hcrlf cs rfl (by rw [Option.some.inj hhead])
  | case4 offset c cs hcrlf next hnewline ih =>
    subst hoffset
    have hih := ih (front ++ String.utf8EncodeChar c) (by simp [String.length_utf8EncodeChar, next])
    rw [List.append_assoc, ← List.flatMap_cons] at hih
    rw [hih]
    symm
    apply lineStops_skip (Nat.le_add_right _ _)
    intro index hstart hlast
    obtain ⟨position, rfl⟩ := Nat.exists_eq_add_of_le hstart
    exact closesLine_of_not_newline (by simpa using hnewline) front _ (by omega)

/-- Where the characters stand does not matter but for the offsets. -/
theorem lineEnds_add (size offset : Nat) (cs : List Char) :
    lineEnds (offset + size) cs = (lineEnds offset cs).map (· + size) := by
  fun_induction lineEnds offset cs with
  | case1 => rfl
  | case2 offset cs ih => rw [lineEnds, Nat.add_right_comm, ih]; rfl
  | case3 offset c cs hcrlf next hnewline ih =>
    rw [lineEnds, if_pos hnewline, Nat.add_right_comm, ih]
    · rfl
    · exact hcrlf
  | case4 offset c cs hcrlf next hnewline ih =>
    rw [lineEnds, if_neg hnewline, Nat.add_right_comm, ih]
    exact hcrlf

/-- Each line ends behind the end of the one before it. -/
theorem pairwise_lineEnds (offset : Nat) (cs : List Char) :
    (offset :: lineEnds offset cs).Pairwise (· < ·) := by
  have hcons : ∀ {first next : Nat} {stops : List Nat}, first < next →
      (next :: stops).Pairwise (· < ·) → (first :: next :: stops).Pairwise (· < ·) := by
    intro first next stops hlt hnext
    apply List.Pairwise.cons _ hnext
    rintro stop (_ | ⟨_, hmem⟩)
    · exact hlt
    · exact hlt.trans (List.rel_of_pairwise_cons hnext hmem)
  fun_induction lineEnds offset cs with
  | case1 offset => exact List.pairwise_singleton _ _
  | case2 offset cs ih => exact hcons (by omega) ih
  | case3 offset c cs hcrlf next hnewline ih =>
    exact hcons (Nat.lt_add_of_pos_right c.utf8Size_pos) ih
  | case4 offset c cs hcrlf next hnewline ih =>
    obtain ⟨hlt, hpairwise⟩ := List.pairwise_cons.1 ih
    apply List.Pairwise.cons _ hpairwise
    intro stop hmem
    exact (Nat.lt_add_of_pos_right c.utf8Size_pos).trans (hlt stop hmem)

/-! ## The table of a text -/

namespace Text

theorem bytes_eq (text : String) : bytes text = text.toList.flatMap String.utf8EncodeChar :=
  toList_toByteArray text

theorem bytes_append (p t : String) : bytes (p ++ t) = bytes p ++ bytes t := by
  rw [bytes_eq, bytes_eq, bytes_eq, String.toList_append, List.flatMap_append]

/-- Where an offset cuts a character, no line is closed between the offset and the end of the
character. -/
theorem closesLine_of_cut {size : Nat} {cs : List Char} {index : Nat} (hsize : size ≤ index)
    (hindex : index < byteLength (takeBytes size cs)) :
    closesLine (cs.flatMap String.utf8EncodeChar) index = false := by
  fun_induction takeBytes size cs generalizing index with
  | case1 => exact absurd hindex (Nat.not_lt_zero _)
  | case2 => exact absurd hindex (Nat.not_lt_zero _)
  | case3 size c cs ih =>
    rw [List.flatMap_cons]
    by_cases hfirst : index < c.utf8Size
    · have hnewline : isNewline c = false := by
        rw [← Bool.not_eq_true]
        intro hnewline
        rw [utf8Size_of_newline hnewline] at hfirst
        omega
      simpa using closesLine_of_not_newline hnewline [] (cs.flatMap String.utf8EncodeChar) hfirst
    · obtain ⟨later, rfl⟩ := Nat.exists_eq_add_of_le (Nat.le_of_not_lt hfirst)
      rw [byteLength_cons] at hindex
      rw [← String.length_utf8EncodeChar c, closesLine_append_right]
      exact ih (by omega) (by omega)

/-- An offset behind the end of the text leaves nothing. -/
theorem dropBytes_eq_nil {size : Nat} {cs : List Char} (h : byteLength (takeBytes size cs) < size) :
    dropBytes size cs = [] := by
  fun_induction takeBytes size cs with
  | case1 => exact absurd h (Nat.not_lt_zero _)
  | case2 size => cases size <;> rfl
  | case3 size c cs ih =>
    rw [byteLength_cons] at h
    rw [dropBytes]
    exact ih (by omega)

end Text

/-! ## Lines and columns as numbers -/

/-- The number of the line that an offset is on, where the first line has the given number. -/
def lineAt (bytes : List UInt8) (origin line offset : Nat) : Nat :=
  line + (lineStops bytes origin offset).length

/-- The column of an offset. It counts the bytes from the last line terminator on. Where there is
none, it counts from the origin, where the text has the given column. -/
def columnAt (bytes : List UInt8) (origin column offset : Nat) : Nat :=
  match (lineStops bytes origin offset).getLast? with
  | none => offset - origin + column
  | some start => offset - start + 1

section
variable {bytes : List UInt8} {origin offset offset' : Nat}

/-- No number is larger than the given one and the distance from the origin together. -/
theorem lineAt_le (bytes : List UInt8) (origin line offset : Nat) :
    lineAt bytes origin line offset ≤ line + (offset - origin) :=
  Nat.add_le_add_left length_lineStops_le line

theorem columnAt_le (bytes : List UInt8) (origin column offset : Nat) :
    columnAt bytes origin column offset ≤ column + (offset - origin) := by
  rw [columnAt]
  cases hlast : (lineStops bytes origin offset).getLast? with
  | none => exact Nat.le_of_eq (Nat.add_comm _ _)
  | some start =>
    have hstart := le_of_getLast?_lineStops hlast
    show offset - start + 1 ≤ _
    omega

/-- A larger offset is on a later line, or on the same line at a later column. -/
theorem lineAt_lt_or_columnAt_lt (line column : Nat) (horigin : origin ≤ offset)
    (hlt : offset < offset') :
    lineAt bytes origin line offset < lineAt bytes origin line offset' ∨
      lineAt bytes origin line offset = lineAt bytes origin line offset' ∧
        columnAt bytes origin column offset < columnAt bytes origin column offset' := by
  have hstops : lineStops bytes origin offset' =
      lineStops bytes origin offset ++ lineStops bytes offset offset' :=
    lineStops_append horigin (Nat.le_of_lt hlt)
  rw [lineAt, lineAt, columnAt, columnAt, hstops]
  cases hlater : lineStops bytes offset offset' with
  | cons stop stops =>
    left
    rw [List.length_append, List.length_cons]
    omega
  | nil =>
    right
    rw [List.append_nil]
    refine ⟨rfl, ?_⟩
    cases hlast : (lineStops bytes origin offset).getLast? with
    | none =>
      show offset - origin + column < offset' - origin + column
      omega
    | some start =>
      have hle := (le_of_getLast?_lineStops hlast).2
      show offset - start + 1 < offset' - start + 1
      omega

/-- The line and the column of an offset fit in words. -/
structure NumbersFit (bytes : List UInt8) (origin : Nat) (line column : UInt32)
    (offset : Nat) : Prop where
  line_lt : lineAt bytes origin line.toNat offset < 2 ^ 32
  column_lt : columnAt bytes origin column.toNat offset < 2 ^ 32

end

/-- The location is on an earlier line, or on the same line at an earlier column. -/
def Location.Before (first second : Location) : Prop :=
  first.line < second.line ∨ first.line = second.line ∧ first.column < second.column

namespace LineTable

/-- The lines that start up to an offset start where the terminators between the origin and the
offset end. -/
theorem takeWhile_laterStarts (text : String) (origin stop : Nat) (line column : UInt32) :
    (ofText text origin line column).laterStarts.takeWhile (fun start => decide (start ≤ stop)) =
      lineStops (Text.bytes text) origin stop := by
  have hcut := Text.takeBytes_append_dropBytes origin text.toList
  have hends :=
    takeWhile_lineEnds ((Text.takeBytes origin text.toList).flatMap String.utf8EncodeChar)
    (Text.dropBytes origin text.toList) stop
  rw [← List.flatMap_append, hcut, length_utf8Encode, ← Text.bytes_eq] at hends
  refine hends.trans ?_
  rcases Nat.lt_or_ge (Text.byteLength (Text.takeBytes origin text.toList))
    origin with hbehind | hle
  · -- The origin is behind the text, so nothing is left on either side.
    have hbytes : ∀ index, Text.byteLength (Text.takeBytes origin text.toList) ≤ index →
        closesLine (Text.bytes text) index = false := by
      intro index hindex
      apply closesLine_of_length_le
      rw [Text.dropBytes_eq_nil hbehind, List.append_nil] at hcut
      rwa [Text.bytes_eq, length_utf8Encode, ← hcut]
    apply lineStops_skip (Nat.le_of_lt hbehind)
    intro index hindex _
    exact hbytes index hindex
  · symm
    apply lineStops_skip hle
    intro index hindex hlt
    rw [Text.bytes_eq]
    exact Text.closesLine_of_cut hindex hlt

theorem location_line (table : LineTable) (offset : Nat) : (table.location offset).line =
    table.firstLine + .ofNat (table.laterStarts.takeWhile (· ≤ offset)).length := by
  unfold location
  split
  next hlast => rw [List.getLast?_eq_none_iff.1 hlast]; exact (UInt32.add_zero _).symm
  next => rfl

/-- Each line starts behind the one before it. -/
theorem pairwise_starts (text : String) (origin : Nat) (line column : UInt32) :
    (origin :: (ofText text origin line column).laterStarts).Pairwise (· < ·) := by
  have hends := pairwise_lineEnds (Text.byteLength (Text.takeBytes origin text.toList))
    (Text.dropBytes origin text.toList)
  rcases Nat.lt_or_ge (Text.byteLength (Text.takeBytes origin text.toList))
    origin with hbehind | hle
  · have hnone : (ofText text origin line column).laterStarts = [] := by
      rw [ofText, Text.dropBytes_eq_nil hbehind]
      rfl
    rw [hnone]
    exact List.pairwise_singleton _ _
  · obtain ⟨hlt, hpairwise⟩ := List.pairwise_cons.1 hends
    apply List.Pairwise.cons _ hpairwise
    intro start hmem
    exact Nat.lt_of_le_of_lt hle (hlt start hmem)

variable {text : String} {origin offset offset' : Nat} {line column : UInt32}

theorem line_location (offset : Nat) : ((ofText text origin line column).location offset).line =
    line + .ofNat (lineStops (Text.bytes text) origin offset).length := by
  rw [location_line, takeWhile_laterStarts]
  rfl

/-- On the first line, columns count from the origin. -/
theorem column_location_first (h : lineStops (Text.bytes text) origin offset = []) :
    ((ofText text origin line column).location offset).column =
      .ofNat (offset - origin) + column := by
  rw [location, takeWhile_laterStarts, h]
  rfl

/-- On a later line, columns count from the last line terminator. -/
theorem column_location_later {start : Nat}
    (h : (lineStops (Text.bytes text) origin offset).getLast? = some start) :
    ((ofText text origin line column).location offset).column = .ofNat (offset - start) + 1 := by
  rw [location, takeWhile_laterStarts, h]

theorem line_location_eq_ofNat (offset : Nat) :
    ((ofText text origin line column).location offset).line =
      .ofNat (lineAt (Text.bytes text) origin line.toNat offset) := by
  rw [line_location, lineAt, UInt32.ofNat_add, UInt32.ofNat_toNat]

theorem column_location_eq_ofNat (offset : Nat) :
    ((ofText text origin line column).location offset).column =
      .ofNat (columnAt (Text.bytes text) origin column.toNat offset) := by
  rw [columnAt]
  cases hlast : (lineStops (Text.bytes text) origin offset).getLast? with
  | none =>
    dsimp only
    rw [column_location_first (List.getLast?_eq_none_iff.1 hlast), UInt32.ofNat_add,
      UInt32.ofNat_toNat]
  | some start => exact (column_location_later hlast).trans (UInt32.ofNat_add _ 1).symm

/-- Where the numbers fit in words, nothing wraps around. -/
theorem toNat_line_location (h : NumbersFit (Text.bytes text) origin line column offset) :
    ((ofText text origin line column).location offset).line.toNat =
      lineAt (Text.bytes text) origin line.toNat offset := by
  rw [line_location_eq_ofNat, UInt32.toNat_ofNat_of_lt' h.line_lt]

theorem toNat_column_location (h : NumbersFit (Text.bytes text) origin line column offset) :
    ((ofText text origin line column).location offset).column.toNat =
      columnAt (Text.bytes text) origin column.toNat offset := by
  rw [column_location_eq_ofNat, UInt32.toNat_ofNat_of_lt' h.column_lt]

/-- Of two offsets, the first is on an earlier line or at an earlier column, if the numbers of the
second fit in words. -/
theorem before_location (horigin : origin ≤ offset) (hlt : offset < offset')
    (hfit : NumbersFit (Text.bytes text) origin line column offset') :
    ((ofText text origin line column).location offset).Before
      ((ofText text origin line column).location offset') := by
  rw [Location.Before, line_location_eq_ofNat, line_location_eq_ofNat, column_location_eq_ofNat,
    column_location_eq_ofNat]
  rcases lineAt_lt_or_columnAt_lt line.toNat column.toNat horigin hlt with hline | ⟨hline, hcolumn⟩
  · exact .inl ((UInt32.ofNat_lt_iff_lt (hline.trans hfit.line_lt) hfit.line_lt).2 hline)
  · refine .inr ⟨by rw [hline], ?_⟩
    exact (UInt32.ofNat_lt_iff_lt (hcolumn.trans hfit.column_lt) hfit.column_lt).2 hcolumn

/-- Lines and columns do not go back. -/
theorem location_le (horigin : origin ≤ offset) (hle : offset ≤ offset')
    (hfit : NumbersFit (Text.bytes text) origin line column offset') :
    ((ofText text origin line column).location offset).line <
        ((ofText text origin line column).location offset').line ∨
      ((ofText text origin line column).location offset).line =
          ((ofText text origin line column).location offset').line ∧
        ((ofText text origin line column).location offset).column ≤
          ((ofText text origin line column).location offset').column := by
  rcases Nat.eq_or_lt_of_le hle with rfl | hlt
  · exact .inr ⟨rfl, UInt32.le_refl _⟩
  · exact (before_location horigin hlt hfit).imp_right (And.imp_right UInt32.le_of_lt)

end LineTable

/-- A table resolves the offsets of some bytes: the line of an offset counts the line terminators
between the origin and the offset, and its column counts the bytes from the last of them on. Where
there is none, it counts from the origin, where the text has the given column. Both are words, so
the numbers are the true ones where they fit. -/
structure LineTable.Counts (table : LineTable) (bytes : List UInt8) (origin : Nat)
    (line column : UInt32) : Prop where
  /-- The lines start one behind the other, so there is one last line that starts up to an
  offset. -/
  starts : (table.origin :: table.laterStarts).Pairwise (· < ·)
  line_eq : ∀ offset, (table.location offset).line =
    .ofNat (lineAt bytes origin line.toNat offset)
  column_eq : ∀ offset, (table.location offset).column =
    .ofNat (columnAt bytes origin column.toNat offset)
  /-- No number is larger than the given one and the distance from the origin together. -/
  bounded : ∀ offset,
    lineAt bytes origin line.toNat offset ≤ line.toNat + (offset - origin) ∧
      columnAt bytes origin column.toNat offset ≤ column.toNat + (offset - origin)
  exact : ∀ offset, NumbersFit bytes origin line column offset →
    (table.location offset).line.toNat = lineAt bytes origin line.toNat offset ∧
      (table.location offset).column.toNat = columnAt bytes origin column.toNat offset
  increasing : ∀ offset offset', origin ≤ offset → offset < offset' →
    NumbersFit bytes origin line column offset' →
      (table.location offset).Before (table.location offset')

/-- **Lines and columns count the line terminators**, for every text, origin and offset. -/
theorem LineTable.counts_ofText (text : String) (origin : Nat) (line column : UInt32) :
    (ofText text origin line column).Counts (Text.bytes text) origin line column where
  starts := pairwise_starts text origin line column
  line_eq := line_location_eq_ofNat
  column_eq := column_location_eq_ofNat
  bounded _ := ⟨lineAt_le .., columnAt_le ..⟩
  exact _ hfit := ⟨toNat_line_location hfit, toNat_column_location hfit⟩
  increasing _ _ := before_location

/-- Between a carriage return and a line feed, the line goes on. -/
example : (LineTable.ofText "a\r\r\nb" 0 1 5).location 3 = ⟨3, 2, 2⟩ ∧
    (LineTable.ofText "a\r\r\nb" 0 1 5).location 4 = ⟨4, 3, 1⟩ := by decide

/-- **A fragment has the lines and columns of the whole document**, if its table is given the line
and the column at which it stands there, also where the cut is between a carriage return and a line
feed. -/
theorem LineTable.location_fragment (p t : String) (line column : UInt32) (offset : Nat) :
    let whole := ofText (p ++ t) 0 line column
    let seam := whole.location p.utf8ByteSize
    let fragment := ofText t 0 seam.line seam.column
    (fragment.location offset).line = (whole.location (p.utf8ByteSize + offset)).line ∧
      (fragment.location offset).column = (whole.location (p.utf8ByteSize + offset)).column := by
  have hstops : lineStops (Text.bytes (p ++ t)) 0 (p.utf8ByteSize + offset) =
      lineStops (Text.bytes (p ++ t)) 0 p.utf8ByteSize ++
        (lineStops (Text.bytes t) 0 offset).map (p.utf8ByteSize + ·) := by
    rw [lineStops_append (Nat.zero_le _) (Nat.le_add_right _ offset)]
    congr 1
    rw [Text.bytes_append]
    exact lineStops_append_right (Text.bytes p) 0 offset
  intro whole seam fragment
  constructor
  · rw [line_location, line_location, line_location, hstops, List.length_append, List.length_map,
      UInt32.ofNat_add, UInt32.add_assoc]
  · cases hlast : (lineStops (Text.bytes t) 0 offset).getLast? with
    | some start =>
      have hwhole : (lineStops (Text.bytes (p ++ t)) 0 (p.utf8ByteSize + offset)).getLast? =
          some (p.utf8ByteSize + start) := by
        rw [hstops, List.getLast?_append, List.getLast?_map, hlast]
        rfl
      rw [column_location_later hlast, column_location_later hwhole, Nat.add_sub_add_left]
    | none =>
      -- The first line of the fragment is the rest of a line of the document.
      have hnone := List.getLast?_eq_none_iff.1 hlast
      rw [hnone, List.map_nil, List.append_nil] at hstops
      rw [column_location_first hnone]
      cases hlast : (lineStops (Text.bytes (p ++ t)) 0 p.utf8ByteSize).getLast? with
      | none =>
        have hnone := List.getLast?_eq_none_iff.1 hlast
        rw [column_location_first hnone, column_location_first (hstops.trans hnone),
          ← UInt32.add_assoc, ← UInt32.ofNat_add]
        congr 2
        omega
      | some start =>
        have hstart := le_of_getLast?_lineStops hlast
        rw [column_location_later hlast, column_location_later (hstops ▸ hlast),
          ← UInt32.add_assoc, ← UInt32.ofNat_add]
        congr 2
        omega

end StyleTree
