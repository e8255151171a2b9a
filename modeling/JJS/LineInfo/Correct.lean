import JJS.LineInfo.Get

/-!
# JJS.LineInfo.Correct

The line info survives encoding, with two exceptions. The writer adds the records that its guards keep
(`lineInfoOf_eq`), and the reader finds the record of them that covers an offset. So the location of an
offset is that of the call that covers it, when the guards keep the locations of the calls
(`GuardsAgree`) and no item that closes a chunk gets the bit of another one (`ClosingBitsCopied`).
-/

namespace JJS
namespace LineInfo

/-! ## The pages of numbers -/

/-- The pages hold the numbers, and no page is empty. -/
def HoldsNumbers (pages : List (List Byte)) (ns : List Nat) : Prop :=
  ∃ groups : List (List Nat), (∀ g ∈ groups, g ≠ []) ∧ ns = groups.flatten ∧
    pages = groups.map fun g => g.flatMap parserLineInfoEncodeVlq

theorem flatMap_encodeVlq_ne_nil {g : List Nat} (h : g ≠ []) : g.flatMap parserLineInfoEncodeVlq ≠ [] := by
  cases g with
  | nil => exact absurd rfl h
  | cons n g =>
    intro hnil
    have hlen := (length_encodeVlq n).1
    rw [List.flatMap_cons, List.append_eq_nil_iff] at hnil
    rw [hnil.1] at hlen
    exact absurd hlen (by decide)

theorem holdsNumbers_nil {pages : List (List Byte)} (h : HoldsNumbers pages []) : pages = [] := by
  obtain ⟨groups, hne, hns, rfl⟩ := h
  cases groups with
  | nil => rfl
  | cons g groups =>
    have hg := hne g List.mem_cons_self
    rw [List.flatten_cons] at hns
    exact absurd (List.append_eq_nil_iff.mp hns.symm).1 hg

theorem holdsNumbers_ne_nil {pages : List (List Byte)} {n : Nat} {ns : List Nat}
    (h : HoldsNumbers pages (n :: ns)) : pages ≠ [] := by
  obtain ⟨groups, -, hns, rfl⟩ := h
  cases groups with
  | nil => cases hns
  | cons g groups => exact List.cons_ne_nil _ _

theorem iteratorGet_holds {pages : List (List Byte)} {n : Nat} {ns : List Nat} (hn : n < 2 ^ 32)
    (h : HoldsNumbers pages (n :: ns)) :
    ∃ rest, parserLineInfoIteratorGet pages = some (n, rest) ∧ HoldsNumbers rest ns := by
  obtain ⟨groups, hne, hns, rfl⟩ := h
  cases groups with
  | nil => cases hns
  | cons g groups =>
    have hrest : ∀ g ∈ groups, g ≠ [] := fun x hx => hne x (List.mem_cons_of_mem g hx)
    cases g with
    | nil => exact absurd rfl (hne [] List.mem_cons_self)
    | cons m g =>
      rw [List.flatten_cons, List.cons_append, List.cons.injEq] at hns
      obtain ⟨rfl, rfl⟩ := hns
      simp only [List.map_cons, List.flatMap_cons, parserLineInfoIteratorGet, decodeVlq_encodeVlq hn]
      refine ⟨_, rfl, ?_⟩
      cases g with
      | nil =>
        rw [List.flatMap_nil, if_pos rfl]
        exact ⟨groups, hrest, rfl, rfl⟩
      | cons m' g =>
        rw [if_neg (flatMap_encodeVlq_ne_nil (List.cons_ne_nil _ _))]
        refine ⟨(m' :: g) :: groups, ?_, rfl, rfl⟩
        intro x hx
        cases hx with
        | head => exact List.cons_ne_nil _ _
        | tail _ hx => exact hrest x hx

/-- The data of the parser hold the numbers; the last page is empty only before the first one. -/
def DataHolds (d : Data) (ns : List Nat) : Prop :=
  ∃ (groups : List (List Nat)) (last : List Nat), (∀ g ∈ groups, g ≠ []) ∧ (last = [] → ns = []) ∧
    ns = groups.flatten ++ last ∧ (d.pages = groups.map fun g => g.flatMap parserLineInfoEncodeVlq) ∧
    d.lastPage = last.flatMap parserLineInfoEncodeVlq

theorem dataHolds_appendNumber {d : Data} {ns : List Nat} (h : DataHolds d ns) (n : Nat) :
    DataHolds (parserLineInfoAppendNumber d n) (ns ++ [n]) := by
  obtain ⟨groups, last, hne, hempty, rfl, hpages, hlast⟩ := h
  unfold parserLineInfoAppendNumber
  simp only
  split
  · refine ⟨groups, last ++ [n], hne, ?_, by rw [List.append_assoc], hpages, ?_⟩
    · intro hnil; exact absurd hnil (by simp)
    · simp [hlast]
  · rename_i hfull
    have hlast_ne : last ≠ [] := by
      intro hnil
      have hlen := (length_encodeVlq n).2
      rw [hlast, hnil] at hfull
      refine hfull ?_
      simp only [List.flatMap_nil, List.length_nil, parserStackPageSize]
      omega
    refine ⟨groups ++ [last], [n], ?_, ?_, by simp, by simp [hpages, hlast], by simp⟩
    · intro g hg
      rw [List.mem_append, List.mem_singleton] at hg
      cases hg with
      | inl hg => exact hne g hg
      | inr hg => rw [hg]; exact hlast_ne
    · intro hnil; cases hnil

theorem dataHolds_pages {d : Data} {ns : List Nat} (h : DataHolds d ns) (hns : ns ≠ []) :
    HoldsNumbers (d.pages ++ [d.lastPage]) ns := by
  obtain ⟨groups, last, hne, hempty, rfl, hpages, hlast⟩ := h
  have hlast_ne : last ≠ [] := fun hnil => hns (hempty hnil)
  refine ⟨groups ++ [last], ?_, by simp, by simp [hpages, hlast]⟩
  intro g hg
  rw [List.mem_append, List.mem_singleton] at hg
  cases hg with
  | inl hg => exact hne g hg
  | inr hg => rw [hg]; exact hlast_ne

/-! ## The stored records -/

/-- The numbers of a record that is stored after another one. -/
def recordNumbers (prev r : Record) : List Nat :=
  withLineBit (r.position - prev.position) (decide (r.line ≠ prev.line)) ::
    ((if r.line ≠ prev.line then [parserLineInfoDifferenceGet r.line prev.line] else []) ++
      [parserLineInfoDifferenceGet r.column prev.column])

def numbersAfter (prev : Record) : List Record → List Nat
  | [] => []
  | r :: rs => recordNumbers prev r ++ numbersAfter r rs

/-- The calls of `parser_line_info_append` that store a record, after `prev` was stored. -/
def storedAfter (prev : Record) : List Record → List Record
  | [] => []
  | r :: rs =>
    if prev.position = r.position ∨ (prev.line = r.line ∧ prev.column = r.column) then storedAfter prev rs
    else r :: storedAfter r rs

def Data.last (d : Data) : Record := ⟨d.position, d.line, d.column⟩

theorem dataHolds_storeRecord {d : Data} {ns : List Nat} (h : DataHolds d ns) (r : Record) :
    DataHolds (storeRecord d r) (ns ++ recordNumbers d.last r) ∧ (storeRecord d r).last = r := by
  refine ⟨?_, rfl⟩
  have h1 := dataHolds_appendNumber h (withLineBit (r.position - d.position) (decide (r.line ≠ d.line)))
  simp only [storeRecord, recordNumbers, Data.last]
  by_cases hline : r.line = d.line
  · have h2 := dataHolds_appendNumber h1 (parserLineInfoDifferenceGet r.column d.column)
    simpa [hline, DataHolds] using h2
  · have h2 := dataHolds_appendNumber (dataHolds_appendNumber h1 (parserLineInfoDifferenceGet r.line d.line))
      (parserLineInfoDifferenceGet r.column d.column)
    simpa [hline, DataHolds] using h2

theorem foldl_append (rs : List Record) : ∀ {d : Data} {ns : List Nat}, DataHolds d ns →
    ∃ d', rs.foldl parserLineInfoAppend (some d) = some d' ∧
      DataHolds d' (ns ++ numbersAfter d.last (storedAfter d.last rs)) := by
  induction rs with
  | nil => intro d ns h; exact ⟨d, rfl, by simpa [storedAfter, numbersAfter] using h⟩
  | cons r rs ih =>
    intro d ns h
    rw [List.foldl_cons]
    have hcond : (d.last.position = r.position ∨ (d.last.line = r.line ∧ d.last.column = r.column)) =
        (d.position = r.position ∨ (d.line = r.line ∧ d.column = r.column)) := rfl
    simp only [parserLineInfoAppend, storedAfter, hcond]
    by_cases hskip : d.position = r.position ∨ (d.line = r.line ∧ d.column = r.column)
    · simp only [if_pos hskip]
      exact ih h
    · simp only [if_neg hskip]
      obtain ⟨hstore, hlast⟩ := dataHolds_storeRecord h r
      obtain ⟨d', hd, hholds⟩ := ih hstore
      rw [hlast] at hholds
      exact ⟨d', hd, by simpa [numbersAfter] using hholds⟩

/-- The record that the first one is encoded after. -/
def origin : Record := ⟨0, 1#32, 1#32⟩

/-- The numbers that the calls leave in the pages. -/
theorem append_calls (r : Record) (rs : List Record) :
    ∃ d, (r :: rs).foldl parserLineInfoAppend none = some d ∧
      HoldsNumbers (d.pages ++ [d.lastPage]) (numbersAfter origin (r :: storedAfter r rs)) := by
  have hnew : DataHolds newData [] := ⟨[], [], by simp, fun _ => rfl, rfl, rfl, rfl⟩
  obtain ⟨hstore, hlast⟩ := dataHolds_storeRecord hnew r
  obtain ⟨d, hd, hholds⟩ := foldl_append rs hstore
  rw [hlast] at hholds
  refine ⟨d, hd, dataHolds_pages hholds ?_⟩
  simp [numbersAfter, recordNumbers]

/-! ## The offsets of the records -/

/-- The byte code before a page. -/
def pageBase (code : CodePages) : Nat → Nat
  | 0 => 0
  | page + 1 => pageBase code page + relativeOffset code page (parserCbcStreamPageSize - 1)

/-- The final offset of a position, as the byte code pages give it. -/
def finalOffset (code : CodePages) (position : Nat) : Nat :=
  byteCodeOffset code ⟨position / parserCbcStreamPageSize, position % parserCbcStreamPageSize,
    pageBase code (position / parserCbcStreamPageSize)⟩

theorem nextPages_eq (code : CodePages) (rounds : Nat) : ∀ {page pageOffset : Nat}, pageOffset ≤ rounds →
    nextPages code rounds ⟨page, pageOffset, pageBase code page⟩ =
      ⟨page + pageOffset / parserCbcStreamPageSize, pageOffset % parserCbcStreamPageSize,
        pageBase code (page + pageOffset / parserCbcStreamPageSize)⟩ := by
  have hsize : parserCbcStreamPageSize = 56 := rfl
  induction rounds with
  | zero =>
    intro page pageOffset h
    have h0 : pageOffset = 0 := by omega
    rw [h0]
    rfl
  | succ rounds ih =>
    intro page pageOffset h
    rw [nextPages]
    by_cases hle : parserCbcStreamPageSize ≤ pageOffset
    · have hbase : pageBase code page + relativeOffset code page (parserCbcStreamPageSize - 1) =
          pageBase code (page + 1) := rfl
      have hdiv : page + 1 + (pageOffset - parserCbcStreamPageSize) / parserCbcStreamPageSize =
          page + pageOffset / parserCbcStreamPageSize := by rw [hsize] at hle ⊢; omega
      have hmod : (pageOffset - parserCbcStreamPageSize) % parserCbcStreamPageSize =
          pageOffset % parserCbcStreamPageSize := by rw [hsize] at hle ⊢; omega
      simp only [if_pos hle, hbase]
      rw [ih (by rw [hsize] at hle ⊢; omega), hdiv, hmod]
    · simp only [if_neg hle]
      rw [Nat.div_eq_of_lt (by omega), Nat.mod_eq_of_lt (by omega), Nat.add_zero]

/-- The position of the iterator in the byte code pages. -/
def codePosition (code : CodePages) (position : Nat) : CodePosition :=
  ⟨position / parserCbcStreamPageSize, position % parserCbcStreamPageSize,
    pageBase code (position / parserCbcStreamPageSize)⟩

theorem nextPages_codePosition (code : CodePages) {p q : Nat} (h : p ≤ q) :
    nextPages code (p % parserCbcStreamPageSize + (q - p))
      { codePosition code p with pageOffset := p % parserCbcStreamPageSize + (q - p) } = codePosition code q := by
  have hsize : parserCbcStreamPageSize = 56 := rfl
  have hdiv : p / parserCbcStreamPageSize + (p % parserCbcStreamPageSize + (q - p)) / parserCbcStreamPageSize =
      q / parserCbcStreamPageSize := by rw [hsize]; omega
  have hmod : (p % parserCbcStreamPageSize + (q - p)) % parserCbcStreamPageSize =
      q % parserCbcStreamPageSize := by rw [hsize]; omega
  simp only [codePosition]
  rw [nextPages_eq code _ (Nat.le_refl _), hdiv, hmod]

theorem relativeOffset_le (code : CodePages) (page i : Nat) : relativeOffset code page i ≤ 127 := by
  unfold relativeOffset
  omega

theorem finalOffset_le (code : CodePages) (position : Nat) : finalOffset code position ≤ 127 * (position / 56 + 1) := by
  have hbase : ∀ n, pageBase code n ≤ 127 * n := by
    intro n
    induction n with
    | zero => exact Nat.le_refl 0
    | succ n ih =>
      have := relativeOffset_le code n (parserCbcStreamPageSize - 1)
      rw [pageBase]
      omega
  have h1 := hbase (position / parserCbcStreamPageSize)
  have h2 := relativeOffset_le code (position / parserCbcStreamPageSize) (position % parserCbcStreamPageSize - 1)
  have hsize : parserCbcStreamPageSize = 56 := rfl
  simp only [finalOffset, byteCodeOffset]
  rw [hsize] at h1 h2 ⊢
  split <;> omega

/-! ## The rounds of the loop -/

def place (code : CodePages) (r : Record) : Place := ⟨finalOffset code r.position, r.line, r.column⟩

/-- The records that the loop adds: no other one with the offset, or with the line and the column, of the
one before. -/
def keptAfter (offset : Nat) (line column : Counter) : List Place → List Place
  | [] => []
  | k :: ks =>
    if k.offset = offset ∨ (k.line = line ∧ k.column = column) then keptAfter offset line column ks
    else k :: keptAfter k.offset k.line k.column ks

def addPlace (write : Bool) (o : Output) (k : Place) : Output := addRecord write o k.offset k.line k.column

/-- The run stands after the stored record `prev`. -/
def RunAt (code : CodePages) (s : Run) (prev : Record) : Prop :=
  s.position = codePosition code prev.position ∧ s.line = prev.line ∧ s.column = prev.column

theorem nextRecord_eq {code : CodePages} {s : Run} {prev r : Record} {rs : List Record} (h : RunAt code s prev)
    (hle : prev.position ≤ r.position) (hlt : r.position < 2 ^ 31)
    (hns : HoldsNumbers s.iterator (numbersAfter prev (r :: rs))) :
    ∃ it, nextRecord code s = some { s with
        iterator := it
        position := codePosition code r.position
        line := r.line
        column := r.column } ∧ HoldsNumbers it (numbersAfter r rs) := by
  obtain ⟨hpos, hline, hcolumn⟩ := h
  rw [numbersAfter, recordNumbers, List.cons_append] at hns
  obtain ⟨it1, hget1, hns1⟩ := iteratorGet_holds (withLineBit_lt _ (by omega)) hns
  have hoffset : s.position.pageOffset = prev.position % parserCbcStreamPageSize := by rw [hpos]; rfl
  have hnext : nextPages code (s.position.pageOffset + (r.position - prev.position))
      { s.position with pageOffset := s.position.pageOffset + (r.position - prev.position) } =
      codePosition code r.position := by
    rw [hoffset, hpos]
    exact nextPages_codePosition code hle
  have hbit := withLineBit_mod (r.position - prev.position) (decide (r.line ≠ prev.line))
  simp only [nextRecord, hget1, withLineBit_div, hnext]
  by_cases hsame : r.line = prev.line
  · have heven : ¬ withLineBit (r.position - prev.position) (decide (r.line ≠ prev.line)) % 2 = 1 := by
      simpa [hsame] using hbit
    simp only [hsame, ne_eq, not_true_eq_false, if_false, List.nil_append] at hns1
    obtain ⟨it2, hget2, hns2⟩ := iteratorGet_holds (differenceGet_lt _ _) hns1
    simp only [if_neg heven, hget2, hcolumn, differenceUpdate_get]
    exact ⟨it2, by rw [hline, hsame], hns2⟩
  · have hodd : withLineBit (r.position - prev.position) (decide (r.line ≠ prev.line)) % 2 = 1 := by
      simpa [hsame] using hbit
    simp only [ne_eq, hsame, not_false_eq_true, if_true, List.cons_append, List.nil_append] at hns1
    obtain ⟨it2, hget2, hns2⟩ := iteratorGet_holds (differenceGet_lt _ _) hns1
    obtain ⟨it3, hget3, hns3⟩ := iteratorGet_holds (differenceGet_lt _ _) hns2
    simp only [if_pos hodd, hget2, hget3, hline, hcolumn, differenceUpdate_get]
    exact ⟨it3, rfl, hns3⟩

/-- Positions that do not decrease, below the limit. -/
def PositionsFrom (position : Nat) : List Record → Prop
  | [] => True
  | r :: rs => position ≤ r.position ∧ r.position < 2 ^ 31 ∧ PositionsFrom r.position rs

/-- The loop adds the kept records one after the other. -/
theorem rounds_eq {code : CodePages} (write : Bool) (rs : List Record) : ∀ (s : Run) (prev : Record) {r : Record} {fuel : Nat},
    RunAt code s prev → PositionsFrom prev.position (r :: rs) →
    HoldsNumbers s.iterator (numbersAfter prev (r :: rs)) → rs.length < fuel →
    ∃ s', rounds code write fuel s = some s' ∧
      s'.output = (keptAfter s.lastByteCodeOffset s.prevLine s.prevColumn ((r :: rs).map (place code))).foldl
        (addPlace write) s.output := by
  induction rs with
  | nil =>
    intro s prev r fuel hrun hpos hns hfuel
    obtain ⟨f, rfl⟩ : ∃ f, fuel = f + 1 := ⟨fuel - 1, by omega⟩
    obtain ⟨it, hnext, hit⟩ := nextRecord_eq hrun hpos.1 hpos.2.1 hns
    have hend : it = [] := holdsNumbers_nil hit
    have hoff : byteCodeOffset code (codePosition code r.position) = (place code r).offset := rfl
    simp only [rounds, round, hnext, hend, hoff, List.map_cons, List.map_nil, keptAfter]
    by_cases hskip : (place code r).offset = s.lastByteCodeOffset ∨ r.line = s.prevLine ∧ r.column = s.prevColumn
    · have hskip' : (place code r).offset = s.lastByteCodeOffset ∨ (place code r).line = s.prevLine ∧
          (place code r).column = s.prevColumn := hskip
      simp only [if_pos hskip, if_pos hskip', if_true]
      exact ⟨_, rfl, rfl⟩
    · have hskip' : ¬ ((place code r).offset = s.lastByteCodeOffset ∨ (place code r).line = s.prevLine ∧
          (place code r).column = s.prevColumn) := hskip
      simp only [if_neg hskip, if_neg hskip', if_true]
      exact ⟨_, rfl, rfl⟩
  | cons r' rs ih =>
    intro s prev r fuel hrun hpos hns hfuel
    obtain ⟨f, rfl⟩ : ∃ f, fuel = f + 1 := ⟨fuel - 1, by omega⟩
    obtain ⟨it, hnext, hit⟩ := nextRecord_eq hrun hpos.1 hpos.2.1 hns
    have hmore : it ≠ [] := holdsNumbers_ne_nil hit
    have hoff : byteCodeOffset code (codePosition code r.position) = (place code r).offset := rfl
    rw [List.length_cons] at hfuel
    rw [rounds, round, hnext, List.map_cons, keptAfter]
    simp only [hoff]
    by_cases hskip : (place code r).offset = s.lastByteCodeOffset ∨ r.line = s.prevLine ∧ r.column = s.prevColumn
    · have hskip' : (place code r).offset = s.lastByteCodeOffset ∨ (place code r).line = s.prevLine ∧
          (place code r).column = s.prevColumn := hskip
      simp only [if_pos hskip, if_pos hskip', if_neg hmore]
      exact ih _ r ⟨rfl, rfl, rfl⟩ hpos.2.2 hit (by omega)
    · have hskip' : ¬ ((place code r).offset = s.lastByteCodeOffset ∨ (place code r).line = s.prevLine ∧
          (place code r).column = s.prevColumn) := hskip
      simp only [if_neg hskip, if_neg hskip', if_neg hmore, List.foldl_cons]
      exact ih _ r ⟨rfl, rfl, rfl⟩ hpos.2.2 hit (by omega)

/-! ## The bytes of the output -/

/-- The stream of the output is at item `i`. -/
def AtItem (o : Output) (i : Item) : Prop :=
  o.streamPrevLine = i.prevLine ∧ o.streamPrevColumn = i.prevColumn ∧ o.streamByteCodeOffset = i.start ∧
    o.streamCurrentLine = i.record.line ∧ o.streamCurrentColumn = i.record.column

/-- The output after an item that fits. -/
theorem addPlace_fits (write : Bool) {o : Output} {i : Item} {b : Nat} {k : Place} (h : AtItem o i)
    (hblock : o.blockSize = some b) (hfits : i.Fits o.streamSize o.streamValueCount k) :
    ∃ o', addPlace write o k = o' ∧ AtItem o' (i.next k) ∧ o'.blockSize = some b ∧
      o'.blockByteCodeOffset = o.blockByteCodeOffset ∧ o'.blockPrevLine = o.blockPrevLine ∧
      o'.streamSize = o.streamSize + (i.bytes k).length ∧ o'.streamValueCount = o.streamValueCount + 1 ∧
      o'.dst = (if write then o.dst ++ i.bytes k else o.dst) ∧ o'.totalLength = o.totalLength := by
  obtain ⟨h1, h2, h3, h4, h5⟩ := h
  have hlen : (i.bytes k).length = (parserLineInfoEncodeSmall (i.value k)).length + i.lineColumn.length := by
    rw [Item.bytes, List.length_append]
  have hcond : o.streamValueCount + 1 < streamValueCountMax ∧
      o.streamSize + (parserLineInfoEncodeSmall (i.value k)).length + i.lineColumn.length ≤ streamSizeLimit :=
    ⟨hfits.1, by have := hfits.2; omega⟩
  refine ⟨_, rfl, ?_⟩
  simp only [addPlace, addRecord, hblock, h1, h2, h3, h4, h5]
  simp only [Item.value, Item.lineColumn] at hcond hlen
  rw [if_pos hcond]
  exact ⟨⟨rfl, rfl, rfl, rfl, rfl⟩, rfl, rfl, rfl, by rw [hlen], rfl, rfl, rfl⟩

/-- The bytes from the last item of a chunk to the line of the next one. -/
def closingBytes (i : Item) (k : Place) (block : Nat) (blockLine : Counter) : List Byte :=
  copiedBit (i.value k) :: (i.lineColumn ++ (parserLineInfoEncodeVlq (k.offset - block) ++
    parserLineInfoEncodeVlq (parserLineInfoDifferenceGet k.line blockLine)))

/-- The output after an item that closes its chunk. -/
theorem addPlace_closes (write : Bool) {o : Output} {i : Item} {b : Nat} {k : Place} (h : AtItem o i)
    (hblock : o.blockSize = some b) (hfits : ¬ i.Fits o.streamSize o.streamValueCount k) :
    ∃ o', addPlace write o k = o' ∧ AtItem o' (.first k k.offset) ∧ o'.blockByteCodeOffset = k.offset ∧
      o'.blockPrevLine = k.line ∧ o'.streamSize = 0 ∧ o'.streamValueCount = 0 ∧
      (write = true → o'.blockSize = some (o.dst.length +
          (closingBytes i k o.blockByteCodeOffset o.blockPrevLine).length) ∧
        o'.dst = o.dst.set b (byte (o.streamSize + (1 + i.lineColumn.length) - streamSizeMin)) ++
          (closingBytes i k o.blockByteCodeOffset o.blockPrevLine ++ [byte 0])) ∧
      (write = false → o'.blockSize = some 0 ∧ o'.totalLength = o.totalLength + o.streamSize +
        (closingBytes i k o.blockByteCodeOffset o.blockPrevLine).length + 1) := by
  obtain ⟨h1, h2, h3, h4, h5⟩ := h
  have hlen : (i.bytes k).length = (parserLineInfoEncodeSmall (i.value k)).length + i.lineColumn.length := by
    rw [Item.bytes, List.length_append]
  have hcond : ¬ (o.streamValueCount + 1 < streamValueCountMax ∧
      o.streamSize + (parserLineInfoEncodeSmall (i.value k)).length + i.lineColumn.length ≤ streamSizeLimit) := by
    intro hc
    exact hfits ⟨hc.1, by have := hc.2; omega⟩
  refine ⟨_, rfl, ?_⟩
  simp only [addPlace, addRecord, hblock, h1, h2, h3, h4, h5]
  simp only [Item.value, Item.lineColumn] at hcond
  rw [if_neg hcond]
  refine ⟨⟨rfl, rfl, rfl, rfl, rfl⟩, rfl, rfl, rfl, rfl, ?_, ?_⟩
  · intro hw
    subst hw
    constructor
    · simp [startChunk, finalizeChunk, closingBytes, Item.lineColumn]
    · simp [startChunk, finalizeChunk, closingBytes, Item.value, Item.lineColumn]
  · intro hw
    subst hw
    refine ⟨rfl, ?_⟩
    simp only [startChunk, finalizeChunk, closingBytes, Item.lineColumn, Bool.false_eq_true, if_false,
      List.length_cons, List.length_append]
    omega

theorem set_at {pre rest : List Byte} {x y : Byte} : (pre ++ x :: rest).set pre.length y = pre ++ y :: rest := by
  rw [List.set_append_right _ _ (Nat.le_refl _), Nat.sub_self]
  rfl

/-- The second run writes the bytes of the chunks, and sets the size of each chunk when it is known. -/
theorem write_chunkTail (ks : List Place) : ∀ (pre stream : List Byte) {o : Output} {i : Item} {x : Byte},
    AtItem o i → o.blockSize = some pre.length → o.dst = pre ++ x :: stream → o.streamSize = stream.length →
    ∃ o', finalizeLast true (ks.foldl (addPlace true) o) = some o' ∧
      o'.dst = pre ++ (byte (chunkTail o.blockByteCodeOffset o.blockPrevLine o.streamSize o.streamValueCount i ks).1 ::
        (stream ++
          ((chunkTail o.blockByteCodeOffset o.blockPrevLine o.streamSize o.streamValueCount i ks).2.1 ++
            (chunkTail o.blockByteCodeOffset o.blockPrevLine o.streamSize o.streamValueCount i ks).2.2))) := by
  induction ks with
  | nil =>
    intro pre stream o i x hat hblock hdst _
    obtain ⟨h1, h2, h3, h4, h5⟩ := hat
    simp only [List.foldl_nil, finalizeLast, if_true, hblock, hdst, set_at, h1, h2, h4, h5, chunkTail]
    refine ⟨_, rfl, ?_⟩
    simp [Item.lineColumn]
  | cons k ks ih =>
    intro pre stream o i x hat hblock hdst hsize
    rw [List.foldl_cons]
    simp only [chunkTail]
    by_cases hfits : i.Fits o.streamSize o.streamValueCount k
    · obtain ⟨o1, ho1, hat1, hblock1, hoff1, hline1, hsize1, hcount1, hdst1, -⟩ :=
        addPlace_fits true hat hblock hfits
      rw [ho1]
      simp only [if_pos hfits]
      rw [if_pos rfl, hdst, List.append_assoc, List.cons_append] at hdst1
      obtain ⟨o', ho', hfinal⟩ := ih pre _ hat1 hblock1 hdst1 (by rw [hsize1, hsize, List.length_append])
      rw [hoff1, hline1, hsize1, hcount1] at hfinal
      exact ⟨o', ho', by rw [hfinal]; simp⟩
    · obtain ⟨o1, ho1, hat1, hoff1, hline1, hsize1, hcount1, hwrite1, -⟩ :=
        addPlace_closes true hat hblock hfits
      obtain ⟨hblock1, hdst1⟩ := hwrite1 rfl
      rw [ho1]
      simp only [if_neg hfits]
      -- the next chunk begins after the bytes of this one
      have hdst2 : o1.dst = (pre ++ (byte (o.streamSize + (1 + i.lineColumn.length) - streamSizeMin) ::
          (stream ++ closingBytes i k o.blockByteCodeOffset o.blockPrevLine))) ++ [byte 0] := by
        rw [hdst1, hdst, set_at]
        simp
      obtain ⟨o', ho', hfinal⟩ := ih _ [] hat1 (by rw [hblock1, hdst]; simp; omega) hdst2 hsize1
      rw [hoff1, hline1, hsize1, hcount1] at hfinal
      refine ⟨o', ho', ?_⟩
      rw [hfinal]
      simp [closingBytes]

/-- The first run counts them. -/
theorem count_chunkTail (ks : List Place) : ∀ {o : Output} {i : Item} {b : Nat},
    AtItem o i → o.blockSize = some b →
    ∃ o', finalizeLast false (ks.foldl (addPlace false) o) = some o' ∧
      o'.totalLength = o.totalLength + o.streamSize +
        (chunkTail o.blockByteCodeOffset o.blockPrevLine o.streamSize o.streamValueCount i ks).2.1.length +
        (chunkTail o.blockByteCodeOffset o.blockPrevLine o.streamSize o.streamValueCount i ks).2.2.length := by
  induction ks with
  | nil =>
    intro o i b hat _
    obtain ⟨h1, h2, h3, h4, h5⟩ := hat
    refine ⟨_, rfl, ?_⟩
    simp only [List.foldl_nil, h1, h2, h4, h5, chunkTail, Item.lineColumn, List.length_cons, List.length_nil]
    omega
  | cons k ks ih =>
    intro o i b hat hblock
    rw [List.foldl_cons]
    simp only [chunkTail]
    by_cases hfits : i.Fits o.streamSize o.streamValueCount k
    · obtain ⟨o1, ho1, hat1, hblock1, hoff1, hline1, hsize1, hcount1, -, htotal1⟩ :=
        addPlace_fits false hat hblock hfits
      rw [ho1]
      simp only [if_pos hfits]
      obtain ⟨o', ho', hfinal⟩ := ih hat1 hblock1
      rw [hoff1, hline1, hsize1, hcount1, htotal1] at hfinal
      refine ⟨o', ho', ?_⟩
      rw [hfinal, List.length_append]
      omega
    · obtain ⟨o1, ho1, hat1, hoff1, hline1, hsize1, hcount1, -, hcounted1⟩ :=
        addPlace_closes false hat hblock hfits
      obtain ⟨hblock1, htotal1⟩ := hcounted1 rfl
      rw [ho1]
      simp only [if_neg hfits]
      obtain ⟨o', ho', hfinal⟩ := ih hat1 hblock1
      rw [hoff1, hline1, hsize1, hcount1, htotal1] at hfinal
      refine ⟨o', ho', ?_⟩
      rw [hfinal]
      simp only [closingBytes, List.length_append, List.length_cons]
      omega

/-! ## The whole buffer -/

theorem length_le_flatten {pages : List (List Byte)} {ns : List Nat} (h : HoldsNumbers pages ns) :
    ns.length ≤ pages.flatten.length := by
  obtain ⟨groups, -, rfl, rfl⟩ := h
  have hflat : (groups.map fun g => g.flatMap parserLineInfoEncodeVlq).flatten =
      groups.flatten.flatMap parserLineInfoEncodeVlq := by
    induction groups with
    | nil => rfl
    | cons g gs ih => simp only [List.map_cons, List.flatten_cons, List.flatMap_append, ih]
  rw [hflat]
  induction groups.flatten with
  | nil => exact Nat.le_refl 0
  | cons n ns ih =>
    have := (length_encodeVlq n).1
    rw [List.flatMap_cons, List.length_append, List.length_cons]
    omega

theorem length_numbersAfter (rs : List Record) : ∀ (prev : Record), rs.length ≤ (numbersAfter prev rs).length := by
  induction rs with
  | nil => intro prev; exact Nat.le_refl 0
  | cons r rs ih =>
    intro prev
    have := ih r
    simp only [numbersAfter, recordNumbers, List.length_append, List.length_cons]
    omega

/-- The records of the calls that the guards keep. -/
def kept (code : CodePages) : List Record → List Place
  | [] => []
  | r :: rs => keptAfter (2 ^ 32 - 1) 0#32 0#32 ((r :: storedAfter r rs).map (place code))

theorem positionsFrom_mono {p q : Nat} (h : p ≤ q) : ∀ {rs : List Record}, PositionsFrom q rs → PositionsFrom p rs := by
  intro rs hrs
  cases rs with
  | nil => trivial
  | cons r rs => exact ⟨Nat.le_trans h hrs.1, hrs.2⟩

theorem positionsFrom_stored (rs : List Record) : ∀ {prev : Record}, PositionsFrom prev.position rs →
    PositionsFrom prev.position (storedAfter prev rs) := by
  induction rs with
  | nil => intro prev _; trivial
  | cons r rs ih =>
    intro prev h
    rw [storedAfter]
    split
    · exact ih (positionsFrom_mono h.1 h.2.2)
    · exact ⟨h.1, h.2.1, ih h.2.2⟩

theorem runOnce_eq {code : CodePages} {r : Record} {rs : List Record} (hpos : PositionsFrom 0 (r :: rs))
    {pages : List (List Byte)} (h : HoldsNumbers pages (numbersAfter origin (r :: storedAfter r rs))) (write : Bool) :
    runOnce code write pages = finalizeLast write ((kept code (r :: rs)).foldl (addPlace write) initialOutput) := by
  have hfuel : (storedAfter r rs).length < pages.flatten.length := by
    have h1 := length_le_flatten h
    have h2 := length_numbersAfter (r :: storedAfter r rs) origin
    rw [List.length_cons] at h2
    omega
  obtain ⟨s, hs, houtput⟩ := rounds_eq write (storedAfter r rs) (initialRun pages) origin
    ⟨rfl, rfl, rfl⟩ ⟨hpos.1, hpos.2.1, positionsFrom_stored rs hpos.2.2⟩ h hfuel
  rw [runOnce, hs]
  simp only [houtput]
  rfl

/-- The block that is generated for the calls, from the kept records. -/
theorem lineInfoOf_eq (code : CodePages) {r : Record} {rs : List Record} (hpos : PositionsFrom 0 (r :: rs)) :
    lineInfoOf code (r :: rs) = match kept code (r :: rs) with
      | [] => none
      | k :: ks => some ⟨(chunkBytes 1#32 0 k ks).length +
          (parserLineInfoEncodeVlq (chunkBytes 1#32 0 k ks).length).length,
          parserLineInfoEncodeVlq (chunkBytes 1#32 0 k ks).length ++ chunkBytes 1#32 0 k ks⟩ := by
  obtain ⟨d, hd, hholds⟩ := append_calls r rs
  rw [lineInfoOf, hd]
  simp only [parserLineInfoGenerate]
  rw [runOnce_eq hpos hholds, runOnce_eq hpos hholds]
  cases kept code (r :: rs) with
  | nil => rfl
  | cons k ks =>
    simp only [List.foldl_cons]
    obtain ⟨first, hfirst, htotal⟩ := count_chunkTail ks (o := addPlace false initialOutput k) (i := .first k 0)
      (b := 0) ⟨rfl, rfl, rfl, rfl, rfl⟩ rfl
    obtain ⟨second, hsecond, hdst⟩ := write_chunkTail ks
      (parserLineInfoEncodeVlq (parserLineInfoDifferenceGet k.line 1#32)) [] (o := addPlace true initialOutput k)
      (i := .first k 0) (x := byte 0) ⟨rfl, rfl, rfl, rfl, rfl⟩ rfl rfl rfl
    have hlen : first.totalLength = (chunkBytes 1#32 0 k ks).length := by
      rw [htotal, length_chunkBytes]
      simp only [addPlace, addRecord, initialOutput, startChunk, Bool.false_eq_true, if_false]
      omega
    have hbytes : second.dst = chunkBytes 1#32 0 k ks := hdst
    simp only [hfirst, hsecond, hlen, hbytes]

/-! ## The records in their order -/

/-- The largest `PARSER_MAXIMUM_CODE_SIZE` that `js-parser-limits.h` accepts. -/
def parserMaximumCodeSize : Nat := 16777215

/-- Calls of the parser: the byte code only grows, up to its limit, and the byte code pages map the
positions monotonically. -/
structure ValidCalls (code : CodePages) (calls : List Record) : Prop where
  ne : calls ≠ []
  positions : (calls.map Record.position).Pairwise (· ≤ ·)
  limit : ∀ r ∈ calls, r.position ≤ parserMaximumCodeSize
  offsets : (calls.map fun r => finalOffset code r.position).Pairwise (· ≤ ·)

instance (code : CodePages) (calls : List Record) : Decidable (ValidCalls code calls) :=
  decidable_of_iff (calls ≠ [] ∧ (calls.map Record.position).Pairwise (· ≤ ·) ∧
    (∀ r ∈ calls, r.position ≤ parserMaximumCodeSize) ∧
    (calls.map fun r => finalOffset code r.position).Pairwise (· ≤ ·))
    ⟨fun ⟨h1, h2, h3, h4⟩ => ⟨h1, h2, h3, h4⟩, fun h => ⟨h.ne, h.positions, h.limit, h.offsets⟩⟩

theorem positionsFrom_of_pairwise (rs : List Record) : ∀ {p : Nat}, (∀ r ∈ rs, p ≤ r.position) →
    (rs.map Record.position).Pairwise (· ≤ ·) → (∀ r ∈ rs, r.position ≤ parserMaximumCodeSize) →
    PositionsFrom p rs := by
  induction rs with
  | nil => intro p _ _ _; trivial
  | cons r rs ih =>
    intro p hp hpair hlimit
    rw [List.map_cons, List.pairwise_cons] at hpair
    have hmax := hlimit r List.mem_cons_self
    unfold parserMaximumCodeSize at hmax
    refine ⟨hp r List.mem_cons_self, by omega, ih ?_ hpair.2 fun x hx => hlimit x (List.mem_cons_of_mem r hx)⟩
    intro x hx
    exact hpair.1 _ (List.mem_map_of_mem hx)

theorem storedAfter_sublist (rs : List Record) : ∀ (prev : Record), (storedAfter prev rs).Sublist rs := by
  induction rs with
  | nil => intro prev; exact List.Sublist.slnil
  | cons r rs ih =>
    intro prev
    rw [storedAfter]
    split
    · exact (ih prev).cons r
    · exact (ih r).cons_cons r

/-- Offsets that do not decrease, below the limit. -/
def OffsetsFrom (offset : Nat) : List Place → Prop
  | [] => True
  | k :: ks => offset ≤ k.offset ∧ k.offset < 2 ^ 31 ∧ OffsetsFrom k.offset ks

theorem offsetsFrom_mono {p q : Nat} (h : p ≤ q) : ∀ {ks : List Place}, OffsetsFrom q ks → OffsetsFrom p ks := by
  intro ks hks
  cases ks with
  | nil => trivial
  | cons k ks => exact ⟨Nat.le_trans h hks.1, hks.2⟩

theorem ordered_mono {p q : Nat} (h : p ≤ q) : ∀ {ks : List Place}, Ordered q ks → Ordered p ks := by
  intro ks hks
  cases ks with
  | nil => trivial
  | cons k ks => exact ⟨Nat.lt_of_le_of_lt h hks.1, hks.2⟩

theorem offsetsFrom_of_pairwise (ks : List Place) : ∀ {p : Nat}, (∀ k ∈ ks, p ≤ k.offset) →
    (ks.map Place.offset).Pairwise (· ≤ ·) → (∀ k ∈ ks, k.offset < 2 ^ 31) → OffsetsFrom p ks := by
  induction ks with
  | nil => intro p _ _ _; trivial
  | cons k ks ih =>
    intro p hp hpair hlimit
    rw [List.map_cons, List.pairwise_cons] at hpair
    refine ⟨hp k List.mem_cons_self, hlimit k List.mem_cons_self,
      ih ?_ hpair.2 fun x hx => hlimit x (List.mem_cons_of_mem k hx)⟩
    intro x hx
    exact hpair.1 _ (List.mem_map_of_mem hx)

/-- The kept records have increasing offsets, and each changes the location. -/
theorem keptAfter_ordered (ks : List Place) : ∀ {r : Place}, OffsetsFrom r.offset ks →
    Ordered r.offset (keptAfter r.offset r.line r.column ks) ∧
      Changes r (keptAfter r.offset r.line r.column ks) := by
  induction ks with
  | nil => intro r _; exact ⟨trivial, trivial⟩
  | cons k ks ih =>
    intro r h
    rw [keptAfter]
    split
    · exact ih (offsetsFrom_mono h.1 h.2.2)
    · rename_i hkeep
      obtain ⟨hord, hch⟩ := ih h.2.2
      have hoff := h.1
      refine ⟨⟨?_, h.2.1, hord⟩, ?_, hch⟩
      · have hne : k.offset ≠ r.offset := fun heq => hkeep (.inl heq)
        omega
      · intro hloc
        rw [location, location, Prod.mk.injEq] at hloc
        exact hkeep (.inr hloc)

/-- The first kept record, and the ones after it. -/
theorem keptAfter_split (ks : List Place) : ∀ {offset : Nat} {line column : Counter} {k : Place} {rest : List Place},
    keptAfter offset line column ks = k :: rest → OffsetsFrom 0 ks →
    Ordered 0 rest ∧ Changes k rest := by
  induction ks with
  | nil => intro offset line column k rest h; cases h
  | cons k' ks ih =>
    intro offset line column k rest h hoff
    rw [keptAfter] at h
    split at h
    · exact ih h (offsetsFrom_mono (Nat.zero_le _) hoff.2.2)
    · rw [List.cons.injEq] at h
      obtain ⟨rfl, rfl⟩ := h
      obtain ⟨hord, hch⟩ := keptAfter_ordered ks hoff.2.2
      exact ⟨ordered_mono (Nat.zero_le _) hord, hch⟩

theorem ValidCalls.kept_ordered {code : CodePages} {calls : List Record} (h : ValidCalls code calls) {k : Place}
    {ks : List Place} (hkept : kept code calls = k :: ks) : Ordered 0 ks ∧ Changes k ks := by
  cases calls with
  | nil => exact absurd rfl h.ne
  | cons r rs =>
    have hsub : (r :: storedAfter r rs).Sublist (r :: rs) := (storedAfter_sublist rs r).cons_cons r
    refine keptAfter_split _ hkept (offsetsFrom_of_pairwise _ (fun _ _ => Nat.zero_le _) ?_ ?_)
    · have hmap := hsub.map fun c : Record => finalOffset code c.position
      rw [List.map_map]
      exact List.Pairwise.sublist hmap h.offsets
    · intro x hx
      obtain ⟨c, hc, rfl⟩ := List.mem_map.mp hx
      have hmax := h.limit c (hsub.subset hc)
      have hle := finalOffset_le code c.position
      unfold parserMaximumCodeSize at hmax
      simp only [place]
      omega

/-! ## The main result -/

/-- The call that covers an offset: the last one whose final offset is not greater, the first one of several
with one offset; the first call covers what is before it. -/
def coverCall (code : CodePages) (offset : Nat) : Record → List Record → Record
  | r, [] => r
  | r, k :: ks =>
    if finalOffset code k.position ≤ offset ∧ finalOffset code k.position ≠ finalOffset code r.position then
      coverCall code offset k ks
    else coverCall code offset r ks

def locationAt (code : CodePages) (calls : List Record) (offset : Nat) : Counter × Counter :=
  match calls with
  | [] => (0#32, 0#32)
  | r :: rs => ((coverCall code offset r rs).line, (coverCall code offset r rs).column)

/-- The buffer has the computed length, and the reader finds the location of every offset in it. -/
def LineInfoExact (code : CodePages) (calls : List Record) : Prop :=
  ∃ g, lineInfoOf code calls = some g ∧ g.bytes.length = g.allocated ∧
    ∀ offset, ecmaLineInfoGet g.bytes offset = some (locationAt code calls offset)

/-- The guards of the writer keep a record with the location of every offset. -/
def GuardsAgree (code : CodePages) (calls : List Record) : Prop :=
  match kept code calls with
  | [] => False
  | k :: ks => ∀ offset, location (cover offset k ks) = locationAt code calls offset

/-- Every item that closes a chunk gets its own bit. -/
def ClosingBitsCopied (code : CodePages) (calls : List Record) : Prop :=
  match kept code calls with
  | [] => True
  | k :: ks => BitsCopied 0 0 (.first k 0) ks

theorem decodeVlqFrom_skip {b : Byte} (hb : b.toNat < 128) (rest groups : List Byte) :
    ∀ (value : Nat), (∀ x ∈ groups, 128 ≤ x.toNat) →
      ∃ w, decodeVlqFrom value (groups ++ b :: rest) = some (w, rest) := by
  induction groups with
  | nil => intro value _; exact ⟨_, by rw [List.nil_append, decodeVlqFrom, if_pos hb]⟩
  | cons x groups ih =>
    intro value h
    have hx := h x List.mem_cons_self
    obtain ⟨w, hw⟩ := ih ((value * 128 + x.toNat % 128) % 2 ^ 32) fun y hy => h y (List.mem_cons_of_mem x hy)
    exact ⟨w, by rw [List.cons_append, decodeVlqFrom, if_neg (by omega), hw]⟩

/-- The total length is skipped, whatever it is. -/
theorem decodeVlq_skip (value : Nat) (rest : List Byte) :
    ∃ w, ecmaLineInfoDecodeVlq (parserLineInfoEncodeVlq value ++ rest) = some (w, rest) := by
  have hgroups : ∀ n v, ∀ x ∈ vlqGroups n v, 128 ≤ x.toNat := by
    intro n
    induction n with
    | zero => intro v x hx; cases hx
    | succ n ih =>
      intro v x hx
      rw [vlqGroups] at hx
      split at hx
      · cases hx
      · rw [List.mem_append, List.mem_singleton] at hx
        cases hx with
        | inl hx => exact ih _ x hx
        | inr hx => rw [hx, toNat_byte (by omega)]; omega
  rw [ecmaLineInfoDecodeVlq, encodeVlq_eq, List.append_assoc, List.singleton_append]
  exact decodeVlqFrom_skip (by rw [toNat_byte (by omega)]; omega) rest _ 0 (hgroups _ _)

theorem ecmaLineInfoGet_eq (total : Nat) (chunks : List Byte) (offset : Nat) :
    ecmaLineInfoGet (parserLineInfoEncodeVlq total ++ chunks) offset =
      getFrom offset (parserLineInfoEncodeVlq total ++ chunks).length
        (parserLineInfoEncodeVlq total ++ chunks).length chunks 1#32 0 := by
  obtain ⟨w, hw⟩ := decodeVlq_skip total chunks
  rw [ecmaLineInfoGet, hw]
  rfl

/-- The line info is exact when the guards keep the locations and the bits are copied; if one of the two
fails alone it is not. -/
theorem lineInfo_exact_when (code : CodePages) (calls : List Record) (h : ValidCalls code calls) :
    (ClosingBitsCopied code calls ∧ GuardsAgree code calls → LineInfoExact code calls) ∧
      (LineInfoExact code calls → (ClosingBitsCopied code calls ↔ GuardsAgree code calls)) := by
  cases calls with
  | nil => exact absurd rfl h.ne
  | cons r rs =>
    have hpos : PositionsFrom 0 (r :: rs) :=
      positionsFrom_of_pairwise _ (fun _ _ => Nat.zero_le _) h.positions h.limit
    have heq := lineInfoOf_eq code hpos
    unfold ClosingBitsCopied GuardsAgree LineInfoExact
    cases hkept : kept code (r :: rs) with
    | nil =>
      rw [hkept] at heq
      refine ⟨fun hc => absurd hc.2 id, fun hex => ?_⟩
      obtain ⟨g, hg, -⟩ := hex
      rw [heq] at hg
      cases hg
    | cons k ks =>
      rw [hkept] at heq
      obtain ⟨hord, hch⟩ := h.kept_ordered hkept
      have hlen : (chunkBytes 1#32 0 k ks).length ≤
          (parserLineInfoEncodeVlq (chunkBytes 1#32 0 k ks).length ++ chunkBytes 1#32 0 k ks).length := by
        rw [List.length_append]
        omega
      constructor
      · intro hc
        refine ⟨_, heq, by rw [List.length_append, Nat.add_comm], ?_⟩
        intro offset
        rw [ecmaLineInfoGet_eq, getFrom_chunkBytes ks.length (Nat.le_refl _) hord (Nat.zero_le _) hc.1 hlen hlen,
          hc.2 offset]
      · intro hex
        obtain ⟨g, hg, -, hget⟩ := hex
        rw [heq, Option.some_inj] at hg
        subst hg
        constructor
        · intro hbits offset
          have hoff := hget offset
          rw [ecmaLineInfoGet_eq,
            getFrom_chunkBytes ks.length (Nat.le_refl _) hord (Nat.zero_le _) hbits hlen hlen] at hoff
          exact Option.some.inj hoff
        · intro hagree
          by_contra hbits
          obtain ⟨offset, -, hwrong⟩ := getFrom_not_copied ks.length 1#32 (Nat.le_refl _) hord hch hbits
          have hoff := hget offset
          rw [ecmaLineInfoGet_eq, ← hagree offset] at hoff
          exact hwrong _ _ hoff

/-- Byte code pages that keep every byte. -/
def idCode : CodePages := fun _ i => byte (i + 1)

/-- Two calls, three bytes apart. -/
def twoCalls : List Record := [⟨0, 1#32, 1#32⟩, ⟨3, 2#32, 5#32⟩]

theorem lineInfo_exact_two_calls : LineInfoExact idCode twoCalls := by
  have hkept : kept idCode twoCalls = [⟨0, 1#32, 1#32⟩, ⟨3, 2#32, 5#32⟩] := by decide +kernel
  have hoffset : finalOffset idCode 3 = 3 := by decide +kernel
  have hstart : finalOffset idCode 0 = 0 := by decide +kernel
  refine (lineInfo_exact_when idCode twoCalls (by decide +kernel)).1 ⟨?_, ?_⟩
  · unfold ClosingBitsCopied
    rw [hkept]
    have hfits : (Item.first ⟨0, 1#32, 1#32⟩ 0).Fits 0 0 ⟨3, 2#32, 5#32⟩ := by decide +kernel
    simp only [BitsCopied, if_pos hfits]
  · unfold GuardsAgree
    rw [hkept]
    intro offset
    simp only [twoCalls, cover, locationAt, coverCall, hoffset, hstart]
    split
    · rw [if_neg (by omega)]
      rfl
    · rw [if_pos (by omega)]
      rfl

/-- Forty-eight calls two bytes apart, each on the next line, and one call 200 bytes after them. -/
def lostLineCalls : List Record :=
  (List.range 48).map (fun i => ⟨2 * i, BitVec.ofNat 32 (i + 1), 1#32⟩) ++ [⟨294, 60#32, 1#32⟩]

theorem lineInfo_not_exact : ValidCalls idCode lostLineCalls ∧ ¬LineInfoExact idCode lostLineCalls := by
  have hwrong : ((lineInfoOf idCode lostLineCalls).bind fun g => ecmaLineInfoGet g.bytes 100) = some (47#32, 2#32) := by
    decide +kernel
  have hright : locationAt idCode lostLineCalls 100 = (48#32, 1#32) := by
    decide +kernel
  refine ⟨by decide +kernel, ?_⟩
  intro h
  obtain ⟨g, hg, -, hget⟩ := h
  rw [hg, Option.bind_some, hget 100, hright] at hwrong
  cases hwrong

end LineInfo
end JJS
