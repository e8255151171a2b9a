import JJS.LineInfo.Codec

/-!
# JJS.LineInfo.Create

The writer of the line info, `js-parser-line-info-create.c`: `parser_line_info_append` collects records
in pages of numbers while the parser runs, and `parser_line_info_generate` turns them into chunks. Its
loop runs twice, first to compute the length (`write` is false) and then to write the bytes.

`generate_records` says what is left of the two passes over the pages: the loop adds just the records
that pass the guards of the source (`stored` and `kept`), in their order.
-/

namespace JJS
namespace LineInfo

/-- A call of `parser_line_info_append`, with the byte code size at that time. -/
structure Record where
  position : Nat
  line : Counter
  column : Counter
deriving DecidableEq

/-! ## Collecting -/

/-- `parser_line_info_data_t` and its pages: the bytes in use of the pages before the last one, and of
the last one. The first byte of a page counts them and itself. -/
structure Data where
  pages : List (List Byte)
  lastPage : List Byte
  position : Nat
  line : Counter
  column : Counter

/-- `PARSER_STACK_PAGE_SIZE`. -/
def parserStackPageSize : Nat := 128 - 8

/-- `parser_line_info_append_number`. -/
def parserLineInfoAppendNumber (d : Data) (value : Nat) : Data :=
  let buffer := parserLineInfoEncodeVlq value
  if (1 + d.lastPage.length) + buffer.length ≤ parserStackPageSize then
    { d with lastPage := d.lastPage ++ buffer }
  else { d with pages := d.pages ++ [d.lastPage], lastPage := buffer }

/-- `value` with the bit `ECMA_LINE_INFO_HAS_LINE`. -/
def withLineBit (value : Nat) (hasLine : Bool) : Nat := value * 2 + if hasLine then 1 else 0

/-- The data of the first call, before its record is stored. -/
def newData : Data := ⟨[], [], 0, 1#32, 1#32⟩

/-- The part of `parser_line_info_append` that stores the record. -/
def storeRecord (d : Data) (r : Record) : Data :=
  let hasLine := decide (r.line ≠ d.line)
  let d1 := parserLineInfoAppendNumber d (withLineBit (r.position - d.position) hasLine)
  let d2 := if hasLine then parserLineInfoAppendNumber d1 (parserLineInfoDifferenceGet r.line d.line) else d1
  let d3 := parserLineInfoAppendNumber d2 (parserLineInfoDifferenceGet r.column d.column)
  { d3 with position := r.position, line := r.line, column := r.column }

/-- `parser_line_info_append`. -/
def parserLineInfoAppend (d : Option Data) (r : Record) : Option Data :=
  match d with
  | none => some (storeRecord newData r)
  | some d =>
    if d.position = r.position ∨ (d.line = r.line ∧ d.column = r.column) then some d
    else some (storeRecord d r)

/-- `parser_line_info_iterator_get`: the next number, and the pages from there on. -/
def parserLineInfoIteratorGet : List (List Byte) → Option (Nat × List (List Byte))
  | [] => none
  | page :: pages =>
    match ecmaLineInfoDecodeVlq page with
    | none => none
    | some (value, rest) => some (value, if rest = [] then pages else rest :: pages)

/-! ## Byte code offsets -/

/-- `PARSER_CBC_STREAM_PAGE_SIZE`. -/
def parserCbcStreamPageSize : Nat := 64 - 8

/-- The byte code pages: the relative offsets that post processing left in the bytes of each page. -/
abbrev CodePages := Nat → Nat → Byte

/-- `relative_offset & CBC_LOWER_SEVEN_BIT_MASK`. -/
def relativeOffset (code : CodePages) (page i : Nat) : Nat := (code page i).toNat % 128

/-- `iterator_byte_code_page_p`, `iterator_byte_code_page_offset` and `iterator_byte_code_base`. -/
structure CodePosition where
  page : Nat
  pageOffset : Nat
  base : Nat
deriving DecidableEq

/-- The loop that goes on to the page of the position; each round takes a page off the offset. -/
def nextPages (code : CodePages) : Nat → CodePosition → CodePosition
  | 0, p => p
  | rounds + 1, p =>
    if parserCbcStreamPageSize ≤ p.pageOffset then
      nextPages code rounds ⟨p.page + 1, p.pageOffset - parserCbcStreamPageSize,
        p.base + relativeOffset code p.page (parserCbcStreamPageSize - 1)⟩
    else p

/-- `iterator_byte_code_offset`. -/
def byteCodeOffset (code : CodePages) (p : CodePosition) : Nat :=
  if 0 < p.pageOffset then p.base + relativeOffset code p.page (p.pageOffset - 1) else p.base

/-! ## Generating -/

/-- `ECMA_LINE_INFO_COLUMN_DEFAULT`. -/
def columnDefault : Counter := 127#32

/-- `ECMA_LINE_INFO_STREAM_VALUE_COUNT_MAX`. -/
def streamValueCountMax : Nat := 48

/-- `ECMA_LINE_INFO_STREAM_SIZE_MIN`. -/
def streamSizeMin : Nat := 2 * 48 - 1

/-- `PARSER_LINE_INFO_STREAM_SIZE_LIMIT`. -/
def streamSizeLimit : Nat := streamSizeMin + 255 - (2 * 6 + 1)

/-- The variables of a run that belong to the chunks and streams it makes. The pointer `block_size_p` is
an index into the bytes. -/
structure Output where
  blockSize : Option Nat
  blockByteCodeOffset : Nat
  blockPrevLine : Counter
  streamByteCodeOffset : Nat
  streamCurrentLine : Counter
  streamCurrentColumn : Counter
  streamPrevLine : Counter
  streamPrevColumn : Counter
  streamSize : Nat
  streamValueCount : Nat
  dst : List Byte
  totalLength : Nat

def initialOutput : Output :=
  ⟨none, 0, 1#32, 0, 1#32, columnDefault, 1#32, columnDefault, 0, 0, [], 0⟩

/-- The line, if it changes, and the column of an item. -/
def lineColumnBytes (prevLine prevColumn line column : Counter) : List Byte :=
  if prevLine ≠ line then
    parserLineInfoEncodeSmall (parserLineInfoDifferenceGet line prevLine) ++
      parserLineInfoEncodeSmall (parserLineInfoDifferenceGet column columnDefault)
  else parserLineInfoEncodeSmall (parserLineInfoDifferenceGet column prevColumn)

/-- Start a new chunk. -/
def startChunk (write : Bool) (o : Output) (line column : Counter) : Output :=
  let lineBytes := parserLineInfoEncodeVlq (parserLineInfoDifferenceGet line o.blockPrevLine)
  { o with
    blockSize := some (if write then (o.dst ++ lineBytes).length else 0)
    blockPrevLine := line
    streamCurrentLine := line
    streamCurrentColumn := column
    streamPrevLine := line
    streamPrevColumn := columnDefault
    streamSize := 0
    streamValueCount := 0
    dst := if write then o.dst ++ lineBytes ++ [byte 0] else o.dst
    totalLength := if write then o.totalLength else o.totalLength + (lineBytes.length + 1) }

/-- The bit that the last item of a chunk gets: `block_buffer[0] & ECMA_LINE_INFO_HAS_LINE`. -/
def copiedBit (value : Nat) : Byte := ((parserLineInfoEncodeSmall value).headD (byte 0)) &&& 1#8

/-- Finalize the current chunk. -/
def finalizeChunk (write : Bool) (o : Output) (block value : Nat) (lineColumn : List Byte) (offset : Nat) : Output :=
  let streamSize := o.streamSize + (1 + lineColumn.length)
  let sizeBytes := parserLineInfoEncodeVlq (offset - o.blockByteCodeOffset)
  { o with
    blockByteCodeOffset := offset
    streamSize := streamSize
    dst := if write then
        o.dst.set block (byte (streamSize - streamSizeMin)) ++ copiedBit value :: lineColumn ++ sizeBytes
      else o.dst
    totalLength := if write then o.totalLength else o.totalLength + streamSize + sizeBytes.length }

/-- The rest of a round of the loop, for a record at the byte code offset that is not skipped. -/
def addRecord (write : Bool) (o : Output) (offset : Nat) (line column : Counter) : Output :=
  match o.blockSize with
  | none => startChunk write o line column
  | some block =>
    let hasLine := decide (o.streamPrevLine ≠ o.streamCurrentLine)
    let value := withLineBit (offset - o.streamByteCodeOffset) hasLine
    let offsetBytes := parserLineInfoEncodeSmall value
    let lineColumn := lineColumnBytes o.streamPrevLine o.streamPrevColumn o.streamCurrentLine o.streamCurrentColumn
    let o1 := { o with
      streamByteCodeOffset := offset
      streamPrevLine := o.streamCurrentLine
      streamPrevColumn := o.streamCurrentColumn
      streamCurrentLine := line
      streamCurrentColumn := column
      streamValueCount := o.streamValueCount + 1 }
    if o1.streamValueCount < streamValueCountMax ∧
        o.streamSize + offsetBytes.length + lineColumn.length ≤ streamSizeLimit then
      { o1 with
        streamSize := o.streamSize + (offsetBytes.length + lineColumn.length)
        dst := if write then o.dst ++ (offsetBytes ++ lineColumn) else o.dst }
    else startChunk write (finalizeChunk write o1 block value lineColumn offset) line column

/-- Finalize the last stream; `none` when there is no chunk to write the size of. -/
def finalizeLast (write : Bool) (o : Output) : Option Output :=
  let hasLine := decide (o.streamPrevLine ≠ o.streamCurrentLine)
  let lineColumn := lineColumnBytes o.streamPrevLine o.streamPrevColumn o.streamCurrentLine o.streamCurrentColumn
  if write then
    match o.blockSize with
    | none => none
    | some block => some { o with dst := o.dst.set block (byte 0) ++ byte (withLineBit 0 hasLine) :: lineColumn }
  else some { o with totalLength := o.totalLength + (o.streamSize + 1) + lineColumn.length }

/-- The variables of a run. -/
structure Run where
  iterator : List (List Byte)
  position : CodePosition
  lastByteCodeOffset : Nat
  prevLine : Counter
  prevColumn : Counter
  line : Counter
  column : Counter
  output : Output

def initialRun (pages : List (List Byte)) : Run :=
  ⟨pages, ⟨0, 0, 0⟩, 2 ^ 32 - 1, 0#32, 0#32, 1#32, 1#32, initialOutput⟩

/-- Decode the line information of the next record. -/
def nextRecord (code : CodePages) (s : Run) : Option Run :=
  match parserLineInfoIteratorGet s.iterator with
  | none => none
  | some (value, it) =>
    let pageOffset := s.position.pageOffset + value / 2
    let line? :=
      if value % 2 = 1 then
        match parserLineInfoIteratorGet it with
        | none => none
        | some (diff, it) => some (ecmaLineInfoDifferenceUpdate s.line diff, it)
      else some (s.line, it)
    match line? with
    | none => none
    | some (line, it) =>
      match parserLineInfoIteratorGet it with
      | none => none
      | some (diff, it) =>
        some { s with
          iterator := it
          position := nextPages code pageOffset { s.position with pageOffset := pageOffset }
          line := line
          column := ecmaLineInfoDifferenceUpdate s.column diff }

/-- A round of the loop. -/
def round (code : CodePages) (write : Bool) (s : Run) : Option Run :=
  match nextRecord code s with
  | none => none
  | some s =>
    let offset := byteCodeOffset code s.position
    if offset = s.lastByteCodeOffset ∨ (s.line = s.prevLine ∧ s.column = s.prevColumn) then some s
    else some { s with
      prevLine := s.line
      prevColumn := s.column
      lastByteCodeOffset := offset
      output := addRecord write s.output offset s.line s.column }

/-- The loop of a run, until the pages end. -/
def rounds (code : CodePages) (write : Bool) : Nat → Run → Option Run
  | 0, _ => none
  | fuel + 1, s =>
    match round code write s with
    | none => none
    | some s => if s.iterator = [] then some s else rounds code write fuel s

/-- A run; each round takes a byte off the pages. -/
def runOnce (code : CodePages) (write : Bool) (pages : List (List Byte)) : Option Output :=
  match rounds code write (pages.flatten.length) (initialRun pages) with
  | none => none
  | some s => finalizeLast write s.output

/-- The block that `parser_line_info_generate` allocates, and the bytes it writes to it. -/
structure Generated where
  allocated : Nat
  bytes : List Byte

/-- `parser_line_info_generate`. -/
def parserLineInfoGenerate (code : CodePages) (d : Data) : Option Generated :=
  let pages := d.pages ++ [d.lastPage]
  match runOnce code false pages with
  | none => none
  | some first =>
    match runOnce code true pages with
    | none => none
    | some second =>
      let total := parserLineInfoEncodeVlq first.totalLength
      some ⟨first.totalLength + total.length, total ++ second.dst⟩

/-- The line info of a sequence of calls. -/
def lineInfoOf (code : CodePages) (calls : List Record) : Option Generated :=
  match calls.foldl parserLineInfoAppend none with
  | none => none
  | some d => parserLineInfoGenerate code d

end LineInfo
end JJS
