import JJS.LineInfo.Create

/-!
# JJS.LineInfo.Get

The reader of the line info, `ecma_line_info_get`: it skips chunks by their byte code size and then
reads the items of one chunk.

The writer is described here without its pointers: `chunkTail` is what it still writes for the records
that are left. `itemLoop_chunkTail` and `get_chunk` say that the reader finds in it the record that covers
an offset, as long as the last item of each chunk has the bit that it should have.
-/

namespace JJS
namespace LineInfo

/-- The first loop of `ecma_line_info_get`: the line and the end offset before the chunk of the offset,
and the bytes of its stream. -/
def chunkLoop (offset : Nat) : Nat → List Byte → Counter → Nat → Option (Counter × Nat × List Byte)
  | 0, _, _, _ => none
  | fuel + 1, src, line, endOffset =>
    match ecmaLineInfoDecodeVlq src with
    | none => none
    | some (value, src) =>
      let line := ecmaLineInfoDifferenceUpdate line value
      match src with
      | [] => none
      | size :: stream =>
        if size.toNat = 0 then some (line, endOffset, stream)
        else
          match ecmaLineInfoDecodeVlq ((size :: stream).drop (size.toNat + (streamSizeMin + 1))) with
          | none => none
          | some (increase, next) =>
            let nextEndOffset := (endOffset + increase) % 2 ^ 32
            if offset < nextEndOffset then some (line, endOffset, stream)
            else chunkLoop offset fuel next line nextEndOffset

/-- The line and the column of an item, from the bytes after its end offset. -/
def decodeItem (hasLine : Bool) (src : List Byte) (line column : Counter) :
    Option (Counter × Counter × List Byte) :=
  let line? :=
    if hasLine then
      match ecmaLineInfoDecodeSmall src with
      | none => none
      | some (value, src) => some (ecmaLineInfoDifferenceUpdate line value, columnDefault, src)
    else some (line, column, src)
  match line? with
  | none => none
  | some (line, column, src) =>
    match ecmaLineInfoDecodeSmall src with
    | none => none
    | some (value, src) => some (line, ecmaLineInfoDifferenceUpdate column value, src)

/-- The second loop of `ecma_line_info_get`. -/
def itemLoop (offset : Nat) : Nat → List Byte → Counter → Counter → Nat → Option (Counter × Counter)
  | 0, _, _, _, _ => none
  | fuel + 1, src, line, column, endOffset =>
    match ecmaLineInfoDecodeSmall src with
    | none => none
    | some (value, src) =>
      match decodeItem (value % 2 == 1) src line column with
      | none => none
      | some (line, column, src) =>
        let endOffsetIncrease := value / 2
        let endOffset := (endOffset + endOffsetIncrease) % 2 ^ 32
        if endOffsetIncrease ≠ 0 ∧ endOffset ≤ offset then itemLoop offset fuel src line column endOffset
        else some (line, column)

/-- `ecma_line_info_get`; each round of a loop takes a byte off the buffer. -/
def ecmaLineInfoGet (buffer : List Byte) (offset : Nat) : Option (Counter × Counter) :=
  match ecmaLineInfoDecodeVlq buffer with
  | none => none
  | some (_, src) =>
    match chunkLoop offset buffer.length src 1#32 0 with
    | none => none
    | some (line, endOffset, stream) => itemLoop offset buffer.length stream line columnDefault endOffset

/-! ## The bytes of the chunks -/

/-- A record with the offset that its position has in the final byte code. -/
structure Place where
  offset : Nat
  line : Counter
  column : Counter
deriving DecidableEq

/-- The state of the writer at an item of a stream: the line, the column and the offset before it, and its
record. -/
structure Item where
  prevLine : Counter
  prevColumn : Counter
  start : Nat
  record : Place

namespace Item

/-- The end offset with its bit, when the item ends where `k` begins. -/
def value (i : Item) (k : Place) : Nat :=
  withLineBit (k.offset - i.start) (decide (i.prevLine ≠ i.record.line))

def lineColumn (i : Item) : List Byte := lineColumnBytes i.prevLine i.prevColumn i.record.line i.record.column

def bytes (i : Item) (k : Place) : List Byte := parserLineInfoEncodeSmall (i.value k) ++ i.lineColumn

/-- The item after this one in the stream. -/
def next (i : Item) (k : Place) : Item := ⟨i.record.line, i.record.column, k.offset, k⟩

/-- The first item of a chunk. -/
def first (k : Place) (start : Nat) : Item := ⟨k.line, columnDefault, start, k⟩

/-- The item goes to the stream of `size` bytes and `count` items, and does not close the chunk. -/
def Fits (i : Item) (size count : Nat) (k : Place) : Prop :=
  count + 1 < streamValueCountMax ∧ size + (i.bytes k).length ≤ streamSizeLimit

instance (i : Item) (size count : Nat) (k : Place) : Decidable (i.Fits size count k) :=
  inferInstanceAs (Decidable (_ ∧ _))

/-- The bit that is copied to the item when it closes a chunk is its own: the end offset has one byte, or
it has two and no line follows, or it has more and a line follows. -/
def BitCopied (i : Item) (k : Place) : Prop :=
  i.value k < encodeTwoByteMin ∨ if i.value k < encodeVlqMin then i.prevLine = i.record.line
    else i.prevLine ≠ i.record.line

instance (i : Item) (k : Place) : Decidable (i.BitCopied k) :=
  inferInstanceAs (Decidable (_ ∨ ite _ _ _))

end Item

/-- What is written from item `i` on for it and the records `ks`, when the current stream has `size` bytes
and `count` items so far and the chunk begins at the line `blockLine` and the offset `block`: the size byte
of the current chunk, the bytes of its stream that are still to come, and the bytes after it. -/
def chunkTail (block : Nat) (blockLine : Counter) (size count : Nat) (i : Item) :
    List Place → Nat × List Byte × List Byte
  | [] => (0, byte (withLineBit 0 (decide (i.prevLine ≠ i.record.line))) :: i.lineColumn, [])
  | k :: ks =>
    if i.Fits size count k then
      let tail := chunkTail block blockLine (size + (i.bytes k).length) (count + 1) (i.next k) ks
      (tail.1, i.bytes k ++ tail.2.1, tail.2.2)
    else
      let next := chunkTail k.offset k.line 0 0 (.first k k.offset) ks
      (size + (1 + i.lineColumn.length) - streamSizeMin, copiedBit (i.value k) :: i.lineColumn,
        parserLineInfoEncodeVlq (k.offset - block) ++
          (parserLineInfoEncodeVlq (parserLineInfoDifferenceGet k.line blockLine) ++
            (byte next.1 :: (next.2.1 ++ next.2.2))))

/-- The bytes of the chunks for the records from `r` on, after a chunk that begins at `blockLine`. -/
def chunkBytes (blockLine : Counter) (start : Nat) (r : Place) (ks : List Place) : List Byte :=
  let tail := chunkTail start r.line 0 0 (.first r start) ks
  parserLineInfoEncodeVlq (parserLineInfoDifferenceGet r.line blockLine) ++ (byte tail.1 :: (tail.2.1 ++ tail.2.2))

/-- The record that covers an offset, of records with increasing offsets. -/
def cover (offset : Nat) : Place → List Place → Place
  | r, [] => r
  | r, k :: ks => if offset < k.offset then r else cover offset k ks

/-- The last item of every chunk but the last one gets its own bit. -/
def BitsCopied (size count : Nat) (i : Item) : List Place → Prop
  | [] => True
  | k :: ks =>
    if i.Fits size count k then BitsCopied (size + (i.bytes k).length) (count + 1) (i.next k) ks
    else i.BitCopied k ∧ BitsCopied 0 0 (.first k k.offset) ks

/-- The item that closes the current chunk, with the records after it. -/
def closing (size count : Nat) (i : Item) : List Place → Option (Item × Place × List Place)
  | [] => none
  | k :: ks =>
    if i.Fits size count k then closing (size + (i.bytes k).length) (count + 1) (i.next k) ks
    else some (i, k, ks)

/-! ## Reading an item -/

theorem withLineBit_mod (v : Nat) (b : Bool) : (withLineBit v b % 2 == 1) = b := by
  cases b with
  | false => simp [withLineBit]
  | true => simp [withLineBit]

theorem withLineBit_div (v : Nat) (b : Bool) : withLineBit v b / 2 = v := by
  unfold withLineBit
  split <;> omega

theorem withLineBit_lt {v : Nat} (b : Bool) (h : v < 2 ^ 31) : withLineBit v b < 2 ^ 32 := by
  unfold withLineBit
  split <;> omega

theorem decodeItem_lineColumn (i : Item) (rest : List Byte) :
    decodeItem (decide (i.prevLine ≠ i.record.line)) (i.lineColumn ++ rest) i.prevLine i.prevColumn =
      some (i.record.line, i.record.column, rest) := by
  unfold Item.lineColumn lineColumnBytes decodeItem
  by_cases h : i.prevLine = i.record.line
  · simp only [h, ne_eq, not_true_eq_false, decide_false, Bool.false_eq_true, if_false]
    rw [decodeSmall_encodeSmall (differenceGet_lt _ _)]
    simp only [differenceUpdate_get]
  · simp only [ne_eq, h, not_false_eq_true, decide_true, if_true]
    rw [List.append_assoc, decodeSmall_encodeSmall (differenceGet_lt _ _)]
    simp only [differenceUpdate_get]
    rw [decodeSmall_encodeSmall (differenceGet_lt _ _)]
    simp only [differenceUpdate_get]

/-- One round of the second loop at an item that ends where `k` begins. -/
theorem itemLoop_item {offset fuel : Nat} {i : Item} {k : Place} (rest : List Byte) (hlt : i.start < k.offset)
    (hk : k.offset < 2 ^ 31) :
    itemLoop offset (fuel + 1) (i.bytes k ++ rest) i.prevLine i.prevColumn i.start =
      if k.offset ≤ offset then itemLoop offset fuel rest i.record.line i.record.column k.offset
      else some (i.record.line, i.record.column) := by
  have hv : i.value k < 2 ^ 32 := withLineBit_lt _ (by omega)
  have hend : (i.start + (k.offset - i.start)) % 2 ^ 32 = k.offset := by
    rw [Nat.add_sub_cancel' (by omega), Nat.mod_eq_of_lt (by omega)]
  rw [Item.bytes, List.append_assoc, itemLoop, decodeSmall_encodeSmall hv]
  simp only
  rw [Item.value, withLineBit_mod, withLineBit_div, hend]
  rw [decodeItem_lineColumn]
  simp only [ne_eq, show ¬ k.offset - i.start = 0 by omega, not_false_eq_true, true_and]

/-- The last item of a chunk, when its bit is its own. -/
theorem itemLoop_last {offset fuel : Nat} {i : Item} {b : Byte} (rest : List Byte)
    (hb : b = byte (withLineBit 0 (decide (i.prevLine ≠ i.record.line)))) :
    itemLoop offset (fuel + 1) (b :: (i.lineColumn ++ rest)) i.prevLine i.prevColumn i.start =
      some (i.record.line, i.record.column) := by
  have hsmall : byte (withLineBit 0 (decide (i.prevLine ≠ i.record.line))) :: (i.lineColumn ++ rest) =
      parserLineInfoEncodeSmall (withLineBit 0 (decide (i.prevLine ≠ i.record.line))) ++ (i.lineColumn ++ rest) := by
    cases decide (i.prevLine ≠ i.record.line) with
    | false => rfl
    | true => rfl
  rw [hb, hsmall, itemLoop, decodeSmall_encodeSmall (withLineBit_lt _ (by decide))]
  simp only [withLineBit_mod, withLineBit_div]
  rw [decodeItem_lineColumn]
  simp

/-! ## Reading a chunk -/

/-- The offsets of the records increase, from `start` on. -/
def Ordered (start : Nat) : List Place → Prop
  | [] => True
  | k :: ks => start < k.offset ∧ k.offset < 2 ^ 31 ∧ Ordered k.offset ks

def location (r : Place) : Counter × Counter := (r.line, r.column)

theorem length_lineColumn (i : Item) : 1 ≤ i.lineColumn.length ∧ i.lineColumn.length ≤ 12 := by
  unfold Item.lineColumn lineColumnBytes
  have h1 := length_encodeSmall (parserLineInfoDifferenceGet i.record.line i.prevLine)
  have h2 := length_encodeSmall (parserLineInfoDifferenceGet i.record.column columnDefault)
  have h3 := length_encodeSmall (parserLineInfoDifferenceGet i.record.column i.prevColumn)
  split
  · rw [List.length_append]; omega
  · omega

theorem length_bytes (i : Item) (k : Place) : i.lineColumn.length + 1 ≤ (i.bytes k).length ∧
    (i.bytes k).length ≤ i.lineColumn.length + 6 := by
  have h := length_encodeSmall (i.value k)
  rw [Item.bytes, List.length_append]
  omega

theorem copiedBit_eq_iff (i : Item) (k : Place) :
    copiedBit (i.value k) = byte (withLineBit 0 (decide (i.prevLine ≠ i.record.line))) ↔ i.BitCopied k := by
  have hmod := withLineBit_mod (k.offset - i.start) (decide (i.prevLine ≠ i.record.line))
  have hval : i.value k = withLineBit (k.offset - i.start) (decide (i.prevLine ≠ i.record.line)) := rfl
  rw [← hval] at hmod
  rw [← hmod, Item.BitCopied, copiedBit, parserLineInfoEncodeSmall]
  have hline : i.prevLine = i.record.line ↔ i.value k % 2 = 0 := by
    by_cases h : i.prevLine = i.record.line
    · simp [Item.value, withLineBit, h]
    · simp [Item.value, withLineBit, h]
  rw [ne_eq, hline]
  generalize i.value k = v
  have hbit : (if v % 2 = 1 then 1 else 0) = v % 2 := by split <;> omega
  have hright : byte (withLineBit 0 (v % 2 == 1)) = byte (v % 2) := by
    simp only [withLineBit, beq_iff_eq, hbit, Nat.zero_mul, Nat.zero_add]
  rw [hright]
  have hand : ∀ n, byte n &&& 1#8 = byte (n % 2) := by
    intro n
    apply BitVec.eq_of_toNat_eq
    simp only [byte, BitVec.toNat_and, BitVec.toNat_ofNat]
    rw [show 1 % 2 ^ 8 = 2 ^ 1 - 1 by decide, Nat.and_two_pow_sub_one_eq_mod]
    omega
  have hinj : ∀ n, byte (n % 2) = byte (v % 2) ↔ n % 2 = v % 2 := by
    intro n
    constructor
    · intro h
      have := congrArg BitVec.toNat h
      rwa [toNat_byte (by omega), toNat_byte (by omega)] at this
    · intro h; rw [h]
  split
  · rename_i h
    simp [h, hand]
  · rename_i h
    simp only [h, false_or]
    split
    · simp only [List.headD_cons, hand, hinj]; omega
    · simp only [List.headD_cons, hand, hinj]; omega

/-- The items of a chunk: the reader ends at the record that covers the offset. -/
theorem itemLoop_chunkTail (offset block : Nat) (blockLine : Counter) (rest : List Byte) (ks : List Place) :
    ∀ {size count fuel : Nat} {i : Item}, Ordered i.start ks →
      (chunkTail block blockLine size count i ks).2.1.length ≤ fuel →
      (∀ c k after, closing size count i ks = some (c, k, after) → offset < k.offset ∧ c.BitCopied k) →
      itemLoop offset fuel ((chunkTail block blockLine size count i ks).2.1 ++ rest) i.prevLine i.prevColumn
        i.start = some (location (cover offset i.record ks)) := by
  induction ks with
  | nil =>
    intro size count fuel i _ hfuel _
    obtain ⟨f, rfl⟩ : ∃ f, fuel = f + 1 := ⟨fuel - 1, by simp [chunkTail] at hfuel; omega⟩
    exact itemLoop_last rest rfl
  | cons k ks ih =>
    intro size count fuel i hord hfuel hclose
    simp only [chunkTail] at hfuel ⊢
    simp only [closing] at hclose
    by_cases hfits : i.Fits size count k
    · simp only [if_pos hfits] at hfuel hclose ⊢
      have hlen := length_bytes i k
      rw [List.length_append] at hfuel
      obtain ⟨f, rfl⟩ : ∃ f, fuel = f + 1 := ⟨fuel - 1, by omega⟩
      rw [List.append_assoc, itemLoop_item _ hord.1 hord.2.1, cover]
      by_cases hk : offset < k.offset
      · rw [if_neg (by omega), if_pos hk]; rfl
      · rw [if_pos (by omega), if_neg hk]
        exact ih (i := i.next k) hord.2.2 (by omega) hclose
    · simp only [if_neg hfits] at hfuel hclose ⊢
      obtain ⟨hlt, hbit⟩ := hclose i k ks rfl
      obtain ⟨f, rfl⟩ : ∃ f, fuel = f + 1 := ⟨fuel - 1, by simp at hfuel; omega⟩
      rw [cover, if_pos hlt]
      exact itemLoop_last rest ((copiedBit_eq_iff i k).mpr hbit)

/-- A stream that is not closed yet: every item has two bytes at least, and the next one fits. -/
def OpenStream (size count : Nat) : Prop := 2 * count ≤ size ∧ size ≤ streamSizeLimit ∧ count < streamValueCountMax

theorem openStream_next {size count : Nat} {i : Item} {k : Place} (h : OpenStream size count)
    (hfits : i.Fits size count k) : OpenStream (size + (i.bytes k).length) (count + 1) := by
  have h1 := length_bytes i k
  have h2 := length_lineColumn i
  refine ⟨?_, hfits.2, hfits.1⟩
  have := h.1
  omega

/-- A chunk that is not closed is the last one. -/
theorem chunkTail_last (block : Nat) (blockLine : Counter) (ks : List Place) : ∀ {size count : Nat} {i : Item},
    closing size count i ks = none → (chunkTail block blockLine size count i ks).1 = 0 ∧
      (chunkTail block blockLine size count i ks).2.2 = [] := by
  induction ks with
  | nil => intro size count i _; exact ⟨rfl, rfl⟩
  | cons k ks ih =>
    intro size count i h
    simp only [closing] at h
    simp only [chunkTail]
    by_cases hfits : i.Fits size count k
    · simp only [if_pos hfits] at h ⊢
      exact ih h
    · rw [if_neg hfits] at h; cases h

/-- The size byte of a chunk that is closed, and what follows it. -/
theorem chunkTail_closed (block : Nat) (blockLine : Counter) (ks : List Place) :
    ∀ {size count : Nat} {i c : Item} {k : Place} {after : List Place}, OpenStream size count →
      closing size count i ks = some (c, k, after) →
      (chunkTail block blockLine size count i ks).1 + streamSizeMin =
          size + (chunkTail block blockLine size count i ks).2.1.length ∧
        0 < (chunkTail block blockLine size count i ks).1 ∧ (chunkTail block blockLine size count i ks).1 < 256 ∧
        (chunkTail block blockLine size count i ks).2.2 =
          parserLineInfoEncodeVlq (k.offset - block) ++ chunkBytes blockLine k.offset k after := by
  induction ks with
  | nil => intro size count i c k after _ h; cases h
  | cons k' ks ih =>
    intro size count i c k after hopen h
    simp only [closing] at h
    simp only [chunkTail]
    by_cases hfits : i.Fits size count k'
    · simp only [if_pos hfits] at h ⊢
      obtain ⟨h1, h2, h3, h4⟩ := ih (openStream_next hopen hfits) h
      refine ⟨?_, h2, h3, h4⟩
      rw [h1, List.length_append, Nat.add_assoc]
    · simp only [if_neg hfits, Option.some_inj, Prod.mk.injEq] at h ⊢
      obtain ⟨-, rfl, rfl⟩ := h
      have h1 := length_bytes i k'
      have h2 := length_lineColumn i
      obtain ⟨hlow, hhigh, hcount⟩ := hopen
      have hfull : streamValueCountMax ≤ count + 1 ∨ streamSizeLimit < size + (i.bytes k').length := by
        by_contra hno
        exact hfits ⟨by omega, by omega⟩
      unfold streamSizeLimit streamSizeMin streamValueCountMax at *
      refine ⟨?_, by omega, by omega, rfl⟩
      rw [List.length_cons]
      omega

/-- The records from the closing of the chunk on. -/
theorem closing_cover (offset : Nat) (ks : List Place) :
    ∀ {size count : Nat} {i c : Item} {k : Place} {after : List Place},
      closing size count i ks = some (c, k, after) → Ordered i.start ks →
      i.start < k.offset ∧ k.offset < 2 ^ 31 ∧ Ordered k.offset after ∧ after.length < ks.length ∧
        (k.offset ≤ offset → cover offset i.record ks = cover offset k after) := by
  induction ks with
  | nil => intro size count i c k after h _; cases h
  | cons k' ks ih =>
    intro size count i c k after h hord
    simp only [closing] at h
    by_cases hfits : i.Fits size count k'
    · simp only [if_pos hfits] at h
      obtain ⟨h1, h2, h3, h4, h5⟩ := ih h hord.2.2
      have hstart : k'.offset < k.offset := h1
      have hfirst := hord.1
      refine ⟨by omega, h2, h3, by rw [List.length_cons]; omega, ?_⟩
      intro hoff
      rw [cover, if_neg (by omega)]
      exact h5 hoff
    · simp only [if_neg hfits, Option.some_inj, Prod.mk.injEq] at h
      obtain ⟨-, rfl, rfl⟩ := h
      refine ⟨hord.1, hord.2.1, hord.2.2, by rw [List.length_cons]; omega, ?_⟩
      intro hoff
      rw [cover, if_neg (by omega)]

theorem bitsCopied_iff (ks : List Place) : ∀ {size count : Nat} {i : Item},
    BitsCopied size count i ks ↔ ∀ c k after, closing size count i ks = some (c, k, after) →
      c.BitCopied k ∧ BitsCopied 0 0 (.first k k.offset) after := by
  induction ks with
  | nil =>
    intro size count i
    constructor
    · intro _ c k after h; cases h
    · intro _; trivial
  | cons k' ks ih =>
    intro size count i
    simp only [BitsCopied, closing]
    by_cases hfits : i.Fits size count k'
    · simp only [if_pos hfits]
      exact ih
    · simp only [if_neg hfits, Option.some_inj, Prod.mk.injEq]
      constructor
      · rintro h c k after ⟨rfl, rfl, rfl⟩; exact h
      · intro h; exact h i k' ks ⟨rfl, rfl, rfl⟩

/-! ## Reading the chunks -/

/-- The two loops of `ecma_line_info_get`, after the total length. -/
def getFrom (offset fuel itemFuel : Nat) (src : List Byte) (line : Counter) (endOffset : Nat) :
    Option (Counter × Counter) :=
  match chunkLoop offset fuel src line endOffset with
  | none => none
  | some (line, endOffset, stream) => itemLoop offset itemFuel stream line columnDefault endOffset

/-- A chunk that is not closed is read to its end. -/
theorem getFrom_last {offset fuel itemFuel start : Nat} {line : Counter} {r : Place} {ks : List Place}
    (h : closing 0 0 (.first r start) ks = none) :
    getFrom offset (fuel + 1) itemFuel (chunkBytes line start r ks) line start =
      itemLoop offset itemFuel (chunkTail start r.line 0 0 (.first r start) ks).2.1 r.line columnDefault start := by
  obtain ⟨h1, h2⟩ := chunkTail_last start r.line ks h
  rw [getFrom, chunkBytes, chunkLoop, decodeVlq_encodeVlq (differenceGet_lt _ _)]
  simp only [differenceUpdate_get, h1, h2, List.append_nil]
  rfl

/-- A chunk that is closed is read when the offset is before its end, else skipped. -/
theorem getFrom_closed {offset fuel itemFuel start : Nat} {line : Counter} {r k : Place} {ks after : List Place}
    {c : Item} (h : closing 0 0 (.first r start) ks = some (c, k, after)) (hord : Ordered start ks) :
    getFrom offset (fuel + 1) itemFuel (chunkBytes line start r ks) line start =
      if offset < k.offset then
        itemLoop offset itemFuel ((chunkTail start r.line 0 0 (.first r start) ks).2.1 ++
          (parserLineInfoEncodeVlq (k.offset - start) ++ chunkBytes r.line k.offset k after)) r.line columnDefault start
      else getFrom offset fuel itemFuel (chunkBytes r.line k.offset k after) r.line k.offset := by
  have hopen : OpenStream 0 0 := ⟨Nat.le_refl 0, Nat.zero_le _, by decide⟩
  obtain ⟨h1, h2, h3, h4⟩ := chunkTail_closed start r.line ks hopen h
  obtain ⟨hlt, hk, -⟩ := closing_cover offset ks h hord
  have hstart : start < k.offset := hlt
  generalize htail : chunkTail start r.line 0 0 (.first r start) ks = tail at h1 h2 h3 h4
  have hbyte : (byte tail.1).toNat = tail.1 := toNat_byte h3
  have hdrop : (byte tail.1 :: (tail.2.1 ++ tail.2.2)).drop (tail.1 + (streamSizeMin + 1)) = tail.2.2 := by
    rw [show tail.1 + (streamSizeMin + 1) = tail.2.1.length + 1 by omega, List.drop_succ_cons, List.drop_left]
  have hend : (start + (k.offset - start)) % 2 ^ 32 = k.offset := by
    rw [Nat.add_sub_cancel' (by omega), Nat.mod_eq_of_lt (by omega)]
  rw [getFrom, chunkBytes, htail, chunkLoop, decodeVlq_encodeVlq (differenceGet_lt _ _)]
  simp only [differenceUpdate_get, hbyte]
  rw [if_neg (by omega), hdrop, h4, decodeVlq_encodeVlq (by omega)]
  simp only [hend]
  by_cases hoff : offset < k.offset
  · simp only [if_pos hoff]
  · simp only [if_neg hoff]
    rfl

theorem length_chunkBytes (line : Counter) (start : Nat) (r : Place) (ks : List Place) :
    (chunkBytes line start r ks).length = (parserLineInfoEncodeVlq (parserLineInfoDifferenceGet r.line line)).length + 1 +
      (chunkTail start r.line 0 0 (.first r start) ks).2.1.length +
      (chunkTail start r.line 0 0 (.first r start) ks).2.2.length := by
  simp only [chunkBytes, List.length_append, List.length_cons]
  omega

/-- The reader finds the record that covers the offset. -/
theorem getFrom_chunkBytes {offset itemFuel : Nat} (n : Nat) :
    ∀ {fuel start : Nat} {line : Counter} {r : Place} {ks : List Place}, ks.length ≤ n → Ordered start ks →
      start ≤ offset → BitsCopied 0 0 (.first r start) ks → (chunkBytes line start r ks).length ≤ fuel →
      (chunkBytes line start r ks).length ≤ itemFuel →
      getFrom offset fuel itemFuel (chunkBytes line start r ks) line start = some (location (cover offset r ks)) := by
  induction n with
  | zero =>
    intro fuel start line r ks hlen hord hoff _ hfuel hitem
    have hks : ks = [] := List.length_eq_zero_iff.mp (by omega)
    subst hks
    rw [length_chunkBytes] at hfuel hitem
    obtain ⟨f, rfl⟩ : ∃ f, fuel = f + 1 := ⟨fuel - 1, by omega⟩
    rw [getFrom_last rfl]
    rw [← List.append_nil (chunkTail start r.line 0 0 (.first r start) []).2.1]
    exact itemLoop_chunkTail offset start r.line [] [] (i := .first r start) hord (by omega)
      (by intro c k after h; cases h)
  | succ n ih =>
    intro fuel start line r ks hlen hord hoff hbits hfuel hitem
    have hsize := length_chunkBytes line start r ks
    obtain ⟨f, rfl⟩ : ∃ f, fuel = f + 1 := ⟨fuel - 1, by omega⟩
    cases hclose : closing 0 0 (.first r start) ks with
    | none =>
      rw [getFrom_last hclose]
      rw [← List.append_nil (chunkTail start r.line 0 0 (.first r start) ks).2.1]
      exact itemLoop_chunkTail offset start r.line [] ks (i := .first r start) hord (by omega)
        (by intro c k after h; rw [hclose] at h; cases h)
    | some closed =>
      obtain ⟨c, k, after⟩ := closed
      obtain ⟨hlt, hk, hord', hshort, hcover⟩ := closing_cover offset ks hclose hord
      obtain ⟨hbit, hbits'⟩ := (bitsCopied_iff ks).mp hbits c k after hclose
      rw [getFrom_closed hclose hord]
      by_cases hin : offset < k.offset
      · rw [if_pos hin]
        refine itemLoop_chunkTail offset start r.line _ ks (i := .first r start) hord (by omega) ?_
        intro c' k' after' h
        rw [hclose] at h
        cases h
        exact ⟨hin, hbit⟩
      · have hsame : cover offset r ks = cover offset k after := hcover (by omega)
        rw [if_neg hin, hsame]
        have hopen : OpenStream 0 0 := ⟨Nat.le_refl 0, Nat.zero_le _, by decide⟩
        obtain ⟨-, -, -, h4⟩ := chunkTail_closed start r.line ks hopen hclose
        rw [h4, List.length_append] at hsize
        exact ih (by omega) hord' (by omega) hbits' (by omega) (by omega)

/-! ## A bit that is not copied -/

/-- Each record changes the line or the column. -/
def Changes : Place → List Place → Prop
  | _, [] => True
  | r, k :: ks => location k ≠ location r ∧ Changes k ks

/-- With the wrong bit the reader ends at another line, if it ends at all. -/
theorem decodeItem_wrong {i : Item} (hdiff : location i.record ≠ (i.prevLine, i.prevColumn)) {rest src : List Byte}
    {line column : Counter}
    (h : decodeItem (!decide (i.prevLine ≠ i.record.line)) (i.lineColumn ++ rest) i.prevLine i.prevColumn =
      some (line, column, src)) : line ≠ i.record.line := by
  unfold Item.lineColumn lineColumnBytes decodeItem at h
  by_cases hline : i.prevLine = i.record.line
  · have hcol : i.record.column ≠ i.prevColumn := by
      intro heq
      exact hdiff (by rw [location, heq, hline])
    simp only [hline, ne_eq, not_true_eq_false, decide_false, Bool.not_false, if_true, if_false] at h
    rw [decodeSmall_encodeSmall (differenceGet_lt _ _)] at h
    simp only at h
    split at h
    · cases h
    · cases h; exact differenceUpdate_ne hcol
  · simp only [ne_eq, hline, not_false_eq_true, decide_true, Bool.not_true, Bool.false_eq_true, if_false, if_true] at h
    split at h
    · cases h
    · cases h; exact hline

theorem itemLoop_wrong {offset fuel : Nat} {i : Item} {k : Place} {rest : List Byte} (hbit : ¬ i.BitCopied k)
    (hdiff : location i.record ≠ (i.prevLine, i.prevColumn)) :
    itemLoop offset fuel (copiedBit (i.value k) :: (i.lineColumn ++ rest)) i.prevLine i.prevColumn i.start ≠
      some (location i.record) := by
  -- there are two bits, so the copied one is the other one
  have hcopied : copiedBit (i.value k) = byte (withLineBit 0 (!decide (i.prevLine ≠ i.record.line))) := by
    have hne := mt (copiedBit_eq_iff i k).mp hbit
    have hand : ∀ b : Byte, b &&& 1#8 = byte 0 ∨ b &&& 1#8 = byte 1 := by decide +kernel
    unfold copiedBit at hne ⊢
    rcases hand ((parserLineInfoEncodeSmall (i.value k)).headD (byte 0)) with h | h
    · rw [h] at hne ⊢
      cases hd : decide (i.prevLine ≠ i.record.line) with
      | false => rw [hd] at hne; exact absurd rfl hne
      | true => rfl
    · rw [h] at hne ⊢
      cases hd : decide (i.prevLine ≠ i.record.line) with
      | false => rfl
      | true => rw [hd] at hne; exact absurd rfl hne
  have hsmall : ∀ b : Bool, byte (withLineBit 0 b) :: (i.lineColumn ++ rest) =
      parserLineInfoEncodeSmall (withLineBit 0 b) ++ (i.lineColumn ++ rest) := by
    intro b
    cases b with
    | false => rfl
    | true => rfl
  cases fuel with
  | zero => intro h; cases h
  | succ fuel =>
    intro h
    rw [hcopied, hsmall, itemLoop, decodeSmall_encodeSmall (withLineBit_lt _ (by decide))] at h
    simp only [withLineBit_mod, withLineBit_div] at h
    split at h
    · cases h
    · rename_i line column src hdec
      simp only [ne_eq, not_true_eq_false, false_and, if_false, Option.some_inj, location, Prod.mk.injEq] at h
      exact decodeItem_wrong hdiff hdec h.1

/-- The item that closes a chunk is not its first one, so it changes the location. -/
theorem closing_changes (ks : List Place) : ∀ {size count : Nat} {i c : Item} {k : Place} {after : List Place},
    closing size count i ks = some (c, k, after) → Changes i.record ks → (count = 0 → size = 0) →
    (0 < count → location i.record ≠ (i.prevLine, i.prevColumn)) →
    location c.record ≠ (c.prevLine, c.prevColumn) ∧ Changes k after := by
  induction ks with
  | nil => intro size count i c k after h; cases h
  | cons k' ks ih =>
    intro size count i c k after h hch hzero hpos
    simp only [closing] at h
    have h1 := length_bytes i k'
    have h2 := length_lineColumn i
    by_cases hfits : i.Fits size count k'
    · simp only [if_pos hfits] at h
      refine ih h hch.2 (by omega) ?_
      intro _
      exact hch.1
    · simp only [if_neg hfits, Option.some_inj, Prod.mk.injEq] at h
      obtain ⟨rfl, rfl, rfl⟩ := h
      refine ⟨hpos ?_, hch.2⟩
      by_contra h0
      have hcount : count = 0 := by omega
      have hsize := hzero hcount
      refine hfits ⟨by rw [hcount]; decide, ?_⟩
      unfold streamSizeLimit streamSizeMin
      omega

theorem itemLoop_not_copied {block : Nat} {blockLine : Counter} {rest : List Byte} (ks : List Place) :
    ∀ {size count fuel : Nat} {i c : Item} {k : Place} {after : List Place},
      closing size count i ks = some (c, k, after) → Ordered i.start ks → ¬ c.BitCopied k →
      location c.record ≠ (c.prevLine, c.prevColumn) →
      itemLoop (k.offset - 1) fuel ((chunkTail block blockLine size count i ks).2.1 ++ rest) i.prevLine i.prevColumn
        i.start ≠ some (location (cover (k.offset - 1) i.record ks)) := by
  induction ks with
  | nil => intro size count fuel i c k after h; cases h
  | cons k' ks ih =>
    intro size count fuel i c k after h hord hbit hdiff
    simp only [closing] at h
    simp only [chunkTail]
    by_cases hfits : i.Fits size count k'
    · simp only [if_pos hfits] at h ⊢
      obtain ⟨hlt, -⟩ := closing_cover 0 ks h hord.2.2
      have hnext : k'.offset < k.offset := hlt
      cases fuel with
      | zero => intro h; cases h
      | succ fuel =>
        rw [List.append_assoc, itemLoop_item _ hord.1 hord.2.1, if_pos (by omega), cover, if_neg (by omega)]
        exact ih (i := i.next k') h hord.2.2 hbit hdiff
    · simp only [if_neg hfits, Option.some_inj, Prod.mk.injEq] at h ⊢
      obtain ⟨rfl, rfl, rfl⟩ := h
      have hfirst := hord.1
      rw [cover, if_pos (by omega)]
      exact itemLoop_wrong hbit hdiff

/-- A chunk whose last item has the wrong bit is read wrongly. -/
theorem getFrom_not_copied (n : Nat) : ∀ (line : Counter) {start : Nat} {r : Place} {ks : List Place},
    ks.length ≤ n → Ordered start ks → Changes r ks → ¬ BitsCopied 0 0 (.first r start) ks →
    ∃ offset, start ≤ offset ∧ ∀ fuel itemFuel,
      getFrom offset fuel itemFuel (chunkBytes line start r ks) line start ≠ some (location (cover offset r ks)) := by
  induction n with
  | zero =>
    intro line start r ks hlen _ _ hbits
    have hks : ks = [] := List.length_eq_zero_iff.mp (by omega)
    subst hks
    exact absurd trivial hbits
  | succ n ih =>
    intro line start r ks hlen hord hch hbits
    rw [bitsCopied_iff] at hbits
    push Not at hbits
    obtain ⟨c, k, after, hclose, hbit⟩ := hbits
    obtain ⟨hlt, hk, hord', hshort, -⟩ := closing_cover 0 ks hclose hord
    obtain ⟨hdiff, hch'⟩ := closing_changes ks hclose hch (fun _ => rfl) (fun h => absurd h (by decide))
    have hstart : start < k.offset := hlt
    by_cases hok : c.BitCopied k
    · obtain ⟨offset, hoff, hwrong⟩ := ih r.line (by omega) hord' hch' (hbit hok)
      refine ⟨offset, by omega, ?_⟩
      intro fuel itemFuel
      have hsame : cover offset r ks = cover offset k after := (closing_cover offset ks hclose hord).2.2.2.2 hoff
      cases fuel with
      | zero => intro h; cases h
      | succ fuel =>
        rw [getFrom_closed hclose hord, if_neg (by omega), hsame]
        exact hwrong fuel itemFuel
    · refine ⟨k.offset - 1, by omega, ?_⟩
      intro fuel itemFuel
      cases fuel with
      | zero => intro h; cases h
      | succ fuel =>
        rw [getFrom_closed hclose hord, if_pos (by omega)]
        exact itemLoop_not_copied ks hclose hord hok hdiff

end LineInfo
end JJS
