import JJS.ParserStack.Runs

/-!
# JJS.ParserStack.ClassFields

The fields of a class, which the parser pushes while it reads the class and pops when it makes the functions that initialise
them (`parser_reverse_class_fields`, `js-parser-util.c`). A record is the location of a field, if any, and a byte with its
type. The records are put into a buffer and written back over the same bytes of the stack: the instance fields on top, the
static ones below them, both in the order of the source (`reverse_class_fields`).
-/

namespace JJS
namespace ParserStack

open Outcome (Ensures)

/-! ## The source -/

/-- `PARSER_CLASS_FIELD_END`. -/
def parserClassFieldEnd : Byte := 1#8

/-- `PARSER_CLASS_FIELD_NORMAL`. -/
def parserClassFieldNormal : Byte := 2#8

/-- `PARSER_CLASS_FIELD_INITIALIZED`. -/
def parserClassFieldInitialized : Byte := 4#8

/-- `PARSER_CLASS_FIELD_STATIC`. -/
def parserClassFieldStatic : Byte := 8#8

def hasFlag (classFieldType flag : Byte) : Bool := classFieldType &&& flag ≠ 0#8

/-- `sizeof (scanner_location_t)`: a pointer, and a line and a column of 32 bits. -/
def sizeofScannerLocation (pointer64 : Bool) : Nat := if pointer64 then 16 else 12

/-- `sizeof (scanner_range_t)`: a pointer and a location. -/
def sizeofScannerRange (pointer64 : Bool) : Nat := if pointer64 then 24 else 16

/-- `parser_get_class_field_info_size`. -/
def parserGetClassFieldInfoSize (pointer64 : Bool) (classFieldType : Byte) : Nat :=
  if hasFlag classFieldType parserClassFieldInitialized then sizeofScannerRange pointer64 + 1
  else if hasFlag classFieldType parserClassFieldNormal then sizeofScannerLocation pointer64 + 1
  else 1

section Reverse

variable (pointer64 : Bool)

/-- The loop that copies the records to the buffer, from the top on. -/
def copyLoop (fieldsSize : Nat) : Nat → ParserContext → Iterator → List Byte → Bool →
    Except Failure (ParserContext × List Byte × Bool)
  | 0, _, _, _, _ => .error .undefined
  | rounds + 1, context, iterator, data, hasFields => do
    let size := parserStackPageSize pointer64
    let classFieldType ← parserStackIteratorReadUint8 size context iterator
    let infoSize := parserGetClassFieldInfoSize pointer64 classFieldType
    -- a copy must not leave the buffer
    if data.length + infoSize ≤ fieldsSize then
      let bytes ← parserStackIteratorRead size context iterator infoSize
      let iterator ← parserStackIteratorSkip size context iterator infoSize
      let data := data ++ bytes
      let (context, hasFields) : ParserContext × Bool :=
        if hasFlag classFieldType parserClassFieldStatic then (context, hasFields)
        else ({ context with stackTopUint8 := classFieldType }, true)
      if data.length < fieldsSize then copyLoop fieldsSize rounds context iterator data hasFields
      else pure (context, data, hasFields)
    else throw .undefined

/-- The loop that writes the instance fields, from the end of the buffer on. -/
def instanceLoop : Nat → ParserContext → Iterator → List Byte → Nat → Bool →
    Except Failure (ParserContext × Iterator × List Byte × Bool)
  | 0, _, _, _, _, _ => .error .undefined
  | rounds + 1, context, iterator, data, current, hasStaticFields => do
    let size := parserStackPageSize pointer64
    let classFieldType := data.getD (current - 1) 0#8
    let infoSize := parserGetClassFieldInfoSize pointer64 classFieldType
    if infoSize ≤ current then
      if hasFlag classFieldType parserClassFieldStatic then
        let data := if hasStaticFields then data else data.set (current - 1) (classFieldType ||| parserClassFieldEnd)
        let current := current - infoSize
        if 0 < current then instanceLoop rounds context iterator data current true
        else pure (context, iterator, data, true)
      else
        let current := current - infoSize
        let context ← parserStackIteratorWrite size context iterator ((data.drop current).take infoSize)
        let iterator ← parserStackIteratorSkip size context iterator infoSize
        if 0 < current then instanceLoop rounds context iterator data current hasStaticFields
        else pure (context, iterator, data, hasStaticFields)
    else throw .undefined

/-- The loop that writes the static fields. -/
def staticLoop : Nat → ParserContext → Iterator → List Byte → Nat → Except Failure ParserContext
  | 0, _, _, _, _ => .error .undefined
  | rounds + 1, context, iterator, data, current => do
    let size := parserStackPageSize pointer64
    let classFieldType := data.getD (current - 1) 0#8
    let infoSize := parserGetClassFieldInfoSize pointer64 classFieldType
    if infoSize ≤ current then
      let current := current - infoSize
      if hasFlag classFieldType parserClassFieldStatic then
        let context ← parserStackIteratorWrite size context iterator ((data.drop current).take infoSize)
        let iterator ← parserStackIteratorSkip size context iterator infoSize
        if 0 < current then staticLoop rounds context iterator data current else pure context
      else if 0 < current then staticLoop rounds context iterator data current else pure context
    else throw .undefined

/-- `parser_reverse_class_fields`; `alloc` is whether there is memory for the buffer. Each loop has a round for every byte
of the buffer. -/
def parserReverseClassFields (alloc : Bool) (context : ParserContext) (fieldsSize : Nat) :
    Except Failure ParserContext := do
  if !alloc then throw .outOfMemory
  else if hasFlag context.stackTopUint8 parserClassFieldEnd then throw .undefined
  else
    let (context, data, hasFields) ←
      copyLoop pointer64 fieldsSize fieldsSize context (parserStackIteratorInit context) [] false
    let iterator := parserStackIteratorInit context
    if hasFields then
      let (context, iterator, data, hasStaticFields) ←
        instanceLoop pointer64 fieldsSize context iterator data fieldsSize false
      if hasStaticFields then staticLoop pointer64 fieldsSize context iterator data fieldsSize else pure context
    else
      let classFieldType := data.getD (fieldsSize - 1) 0#8
      if hasFlag classFieldType parserClassFieldStatic then
        staticLoop pointer64 fieldsSize { context with stackTopUint8 := classFieldType } iterator data fieldsSize
      else throw .undefined

/-- A record is popped, as `parser_parse_class_fields` does it: its type, and the bytes of the location. -/
def popClassField (context : ParserContext) : Except Failure ((Byte × List Byte) × ParserContext) := do
  let size := parserStackPageSize pointer64
  let classFieldType := context.stackTopUint8
  let context ← parserStackPopUint8 size context
  if hasFlag classFieldType parserClassFieldInitialized then
    let (context, range) ← parserStackPop size context (sizeofScannerRange pointer64)
    pure ((classFieldType, range), context)
  else if hasFlag classFieldType parserClassFieldNormal then
    let (context, location) ← parserStackPop size context (sizeofScannerLocation pointer64)
    pure ((classFieldType, location), context)
  else pure ((classFieldType, []), context)

/-- So many records are popped. -/
def popClassFields : Nat → ParserContext → Except Failure (List (Byte × List Byte) × ParserContext)
  | 0, context => pure ([], context)
  | count + 1, context => do
    let (field, context) ← popClassField pointer64 context
    let (fields, context) ← popClassFields count context
    pure (field :: fields, context)

end Reverse

/-! ## Records -/

/-- A record on the stack, with as many bytes as its type says. -/
structure ClassField (pointer64 : Bool) where
  type : Byte
  info : List Byte
  size : info.length + 1 = parserGetClassFieldInfoSize pointer64 type

/-- The end flag is no part of the other flags. -/
theorem hasFlag_of_end (type : Byte) :
    ∀ flag ∈ [parserClassFieldNormal, parserClassFieldInitialized, parserClassFieldStatic],
      hasFlag (type ||| parserClassFieldEnd) flag = hasFlag type flag := by
  revert type
  decide

theorem infoSize_of_end (pointer64 : Bool) (type : Byte) :
    parserGetClassFieldInfoSize pointer64 (type ||| parserClassFieldEnd) = parserGetClassFieldInfoSize pointer64 type := by
  rw [parserGetClassFieldInfoSize, parserGetClassFieldInfoSize, hasFlag_of_end type _ (by decide),
    hasFlag_of_end type _ (by decide)]

namespace ClassField

variable {pointer64 : Bool}

def bytes (field : ClassField pointer64) : List Byte := field.info ++ [field.type]

def isStatic (field : ClassField pointer64) : Bool := hasFlag field.type parserClassFieldStatic

/-- The record with the end flag. -/
def withEnd (field : ClassField pointer64) : ClassField pointer64 where
  type := field.type ||| parserClassFieldEnd
  info := field.info
  size := by rw [infoSize_of_end, field.size]

/-- The end flag on the first of the records. -/
def markEnd : List (ClassField pointer64) → List (ClassField pointer64)
  | [] => []
  | field :: fields => field.withEnd :: fields

/-- The end flag on the first static one. -/
def markStatic : List (ClassField pointer64) → List (ClassField pointer64)
  | [] => []
  | field :: fields => if field.isStatic then field.withEnd :: fields else field :: markStatic fields

/-- The bytes of records, the first record on top. -/
def stackBytes : List (ClassField pointer64) → List Byte
  | [] => []
  | field :: fields => stackBytes fields ++ field.bytes

def instances (fields : List (ClassField pointer64)) : List (ClassField pointer64) := fields.filter fun field => !field.isStatic

def statics (fields : List (ClassField pointer64)) : List (ClassField pointer64) := fields.filter isStatic

/-- The order of initialisation; the static fields begin with the end flag when there are instance fields. -/
def ordered (fields : List (ClassField pointer64)) : List (ClassField pointer64) :=
  instances fields ++ if instances fields = [] then statics fields else markEnd (statics fields)

@[simp] theorem isStatic_withEnd (field : ClassField pointer64) : field.withEnd.isStatic = field.isStatic :=
  hasFlag_of_end field.type _ (by decide)

theorem length_bytes (field : ClassField pointer64) :
    field.bytes.length = parserGetClassFieldInfoSize pointer64 field.type := by
  rw [bytes, List.length_append, ← field.size]
  rfl

theorem length_bytes_pos (field : ClassField pointer64) : 0 < field.bytes.length := by
  rw [bytes, List.length_append]
  exact Nat.succ_pos _

@[simp] theorem length_bytes_withEnd (field : ClassField pointer64) : field.withEnd.bytes.length = field.bytes.length := by
  rw [bytes, bytes, List.length_append, List.length_append]
  rfl

/-- A record is shorter than a page. -/
theorem length_bytes_lt (field : ClassField pointer64) : field.bytes.length < parserStackPageSize pointer64 := by
  rw [length_bytes, parserGetClassFieldInfoSize]
  cases pointer64 <;> simp only [sizeofScannerRange, sizeofScannerLocation, parserStackPageSize] <;> split <;>
    (try split) <;> decide

theorem stackBytes_append (a b : List (ClassField pointer64)) : stackBytes (a ++ b) = stackBytes b ++ stackBytes a := by
  induction a with
  | nil => rw [List.nil_append, stackBytes, List.append_nil]
  | cons field fields ih => rw [List.cons_append, stackBytes, ih, stackBytes, List.append_assoc]

theorem length_stackBytes_reverse (fields : List (ClassField pointer64)) :
    (stackBytes fields.reverse).length = (stackBytes fields).length := by
  induction fields with
  | nil => rfl
  | cons field fields ih =>
    rw [List.reverse_cons, stackBytes_append, List.length_append, ih, stackBytes, stackBytes, stackBytes, List.nil_append,
      List.length_append, Nat.add_comm]

theorem length_stackBytes_split (fields : List (ClassField pointer64)) :
    (stackBytes (instances fields)).length + (stackBytes (statics fields)).length = (stackBytes fields).length := by
  induction fields with
  | nil => rfl
  | cons field fields ih =>
    rw [stackBytes, List.length_append, ← ih]
    cases hstatic : field.isStatic with
    | true =>
      rw [instances, List.filter_cons_of_neg (by simp [hstatic]), statics, List.filter_cons_of_pos hstatic, stackBytes,
        List.length_append, ← instances, ← statics]
      omega
    | false =>
      rw [instances, List.filter_cons_of_pos (by simp [hstatic]), statics, List.filter_cons_of_neg (by simp [hstatic]),
        stackBytes, List.length_append, ← instances, ← statics]
      omega

theorem statics_markStatic (fields : List (ClassField pointer64)) :
    statics (markStatic fields) = markEnd (statics fields) := by
  induction fields with
  | nil => rfl
  | cons field fields ih =>
    rw [markStatic]
    cases hstatic : field.isStatic with
    | true =>
      rw [if_pos rfl, statics, statics, List.filter_cons_of_pos (by rw [isStatic_withEnd, hstatic]),
        List.filter_cons_of_pos hstatic, markEnd]
    | false =>
      rw [if_neg Bool.false_ne_true, statics, statics, List.filter_cons_of_neg (by simp [hstatic]),
        List.filter_cons_of_neg (by simp [hstatic]), ← statics, ← statics, ih]

theorem length_stackBytes_markEnd (fields : List (ClassField pointer64)) :
    (stackBytes (markEnd fields)).length = (stackBytes fields).length := by
  cases fields with
  | nil => rfl
  | cons field fields => rw [markEnd, stackBytes, List.length_append, length_bytes_withEnd, stackBytes, List.length_append]

theorem length_stackBytes_markStatic (fields : List (ClassField pointer64)) :
    (stackBytes (markStatic fields)).length = (stackBytes fields).length := by
  induction fields with
  | nil => rfl
  | cons field fields ih =>
    rw [markStatic]
    split
    · rw [stackBytes, List.length_append, length_bytes_withEnd, stackBytes, List.length_append]
    · rw [stackBytes, List.length_append, ih, stackBytes, List.length_append]

/-! ## The buffer -/

variable {fields : List (ClassField pointer64)} {field : ClassField pointer64} {tail : List Byte}

/-- The type of a record is the last of its bytes. -/
theorem buffer_type (lower tail : List Byte) (field : ClassField pointer64) :
    (lower ++ field.bytes ++ tail).getD ((lower ++ field.bytes).length - 1) 0#8 = field.type := by
  rw [bytes, ← List.append_assoc, List.length_append, List.length_singleton, Nat.add_sub_cancel, List.append_assoc,
    List.getD_eq_getElem?_getD, List.getElem?_append_right (Nat.le_refl _), Nat.sub_self]
  rfl

theorem buffer_bytes (lower tail : List Byte) (field : ClassField pointer64) :
    ((lower ++ field.bytes ++ tail).drop lower.length).take (parserGetClassFieldInfoSize pointer64 field.type) =
      field.bytes := by
  rw [List.append_assoc, List.drop_left, ← length_bytes, List.take_left]

theorem buffer_mark (lower tail : List Byte) (field : ClassField pointer64) :
    (lower ++ field.bytes ++ tail).set ((lower ++ field.bytes).length - 1) (field.type ||| parserClassFieldEnd) =
      lower ++ field.withEnd.bytes ++ tail := by
  rw [bytes, ← List.append_assoc, List.length_append, List.length_singleton, Nat.add_sub_cancel, List.append_assoc,
    List.set_append_right _ _ (Nat.le_refl _), Nat.sub_self, bytes, ← List.append_assoc, List.append_assoc]
  simp only [withEnd, List.append_assoc]
  rfl

end ClassField

open ClassField

/-! ## The loops -/

variable {pointer64 : Bool} {context : ParserContext} {ids : List Nat} {iterator : Iterator} {base above : List Byte}

/-- `stack_top_uint8` after the records that are read from the top on. -/
def lastInstance (top : Byte) (fields : List (ClassField pointer64)) : Byte :=
  fields.foldl (fun top field => if field.isStatic then top else field.type) top

/-- A record is on top of what an iterator has left. -/
theorem IteratorAt.record {field : ClassField pointer64} {l : List Byte}
    (h : IteratorAt (parserStackPageSize pointer64) context ids iterator (l ++ field.bytes) above) :
    parserStackIteratorReadUint8 (parserStackPageSize pointer64) context iterator = .ok field.type ∧
      parserStackIteratorRead (parserStackPageSize pointer64) context iterator field.bytes.length = .ok field.bytes ∧
      ∃ iterator', parserStackIteratorSkip (parserStackPageSize pointer64) context iterator field.bytes.length =
          .ok iterator' ∧
        IteratorAt (parserStackPageSize pointer64) context ids iterator' l (field.bytes ++ above) := by
  have hpos := field.length_bytes_pos
  have hsize := field.length_bytes_lt
  have hlength : field.bytes.length ≤ (l ++ field.bytes).length := by
    rw [List.length_append]
    omega
  have hleft : (l ++ field.bytes).length - field.bytes.length = l.length := by
    rw [List.length_append, Nat.add_sub_cancel]
  obtain ⟨iterator', hskip, hat⟩ := h.skip hpos hsize hlength
  rw [hleft, List.take_left, List.drop_left] at hat
  refine ⟨h.readUint8 (by omega) ?_, ?_, iterator', hskip, hat⟩
  · rw [ClassField.bytes, ← List.append_assoc, List.getLast?_concat]
  · rw [h.read hpos hsize hlength, hleft, List.drop_left]

/-- The buffer has the records from the top on, and `stack_top_uint8` is the type of the last instance field. -/
theorem copyLoop_spec : ∀ (fields : List (ClassField pointer64)) (context : ParserContext) (iterator : Iterator)
    (data above : List Byte) (hasFields : Bool) (rounds : Nat), fields ≠ [] → fields.length ≤ rounds →
    IteratorAt (parserStackPageSize pointer64) context ids iterator (base ++ stackBytes fields) above →
    copyLoop pointer64 (data.length + (stackBytes fields).length) rounds context iterator data hasFields =
      .ok ({ context with stackTopUint8 := lastInstance context.stackTopUint8 fields },
        data ++ stackBytes fields.reverse, hasFields || fields.any fun field => !field.isStatic) := by
  intro fields
  induction fields with
  | nil => exact fun _ _ _ _ _ _ hne => absurd rfl hne
  | cons field fields ih =>
    intro context iterator data above hasFields rounds _ hrounds hat
    obtain ⟨rounds, rfl⟩ : ∃ r, rounds = r + 1 := ⟨rounds - 1, by rw [List.length_cons] at hrounds; omega⟩
    rw [stackBytes, ← List.append_assoc] at hat
    obtain ⟨htype, hread, iterator', hskip, hat'⟩ := hat.record
    have hpos := field.length_bytes_pos
    have htotal : data.length + (stackBytes (field :: fields)).length =
        (data ++ field.bytes).length + (stackBytes fields).length := by
      rw [stackBytes, List.length_append, List.length_append]
      omega
    have hreverse : data ++ stackBytes (field :: fields).reverse = data ++ field.bytes ++ stackBytes fields.reverse := by
      rw [List.reverse_cons, stackBytes_append, stackBytes, stackBytes, List.nil_append, List.append_assoc]
    have hroom : data.length + field.bytes.length ≤ data.length + (stackBytes (field :: fields)).length := by
      rw [stackBytes, List.length_append]
      omega
    have hpair : (if hasFlag field.type parserClassFieldStatic then (context, hasFields)
        else ({ context with stackTopUint8 := field.type }, true)) =
        ({ context with stackTopUint8 := lastInstance context.stackTopUint8 [field] }, hasFields || !field.isStatic) := by
      rw [lastInstance, List.foldl_cons, List.foldl_nil, ← ClassField.isStatic]
      cases field.isStatic with
      | true => rw [if_pos rfl, if_pos rfl, Bool.not_true, Bool.or_false]
      | false => rw [if_neg Bool.false_ne_true, if_neg Bool.false_ne_true, Bool.not_false, Bool.or_true]
    rw [copyLoop]
    simp only [htype, bind, Except.bind, ← field.length_bytes, if_pos hroom, hread, hskip, hpair]
    cases fields with
    | nil =>
      have hend : ¬(data ++ field.bytes).length < data.length + (stackBytes [field]).length := by
        rw [htotal, stackBytes, List.length_nil]
        omega
      rw [if_neg hend, hreverse, List.any_cons, List.any_nil, Bool.or_false, List.reverse_nil, stackBytes, List.append_nil]
      rfl
    | cons next rest =>
      have hmore : (data ++ field.bytes).length < data.length + (stackBytes (field :: next :: rest)).length := by
        have hnext := next.length_bytes_pos
        have hrest : (stackBytes (next :: rest)).length = (stackBytes rest).length + next.bytes.length := by
          rw [stackBytes, List.length_append]
        omega
      rw [if_pos hmore, htotal, hreverse, ih { context with stackTopUint8 := lastInstance context.stackTopUint8 [field] }
        iterator' (data ++ field.bytes) (field.bytes ++ above) _ rounds (List.cons_ne_nil next rest) (by rw [List.length_cons] at hrounds; omega) hat', Bool.or_assoc]
      rfl

/-- A record of the buffer is written below what was written before. -/
theorem IteratorAt.writeRecord {field : ClassField pointer64} {l : List Byte}
    (h : IteratorAt (parserStackPageSize pointer64) context ids iterator l above) (hlength : field.bytes.length ≤ l.length) :
    ∃ pages iterator', parserStackIteratorWrite (parserStackPageSize pointer64) context iterator field.bytes =
        .ok { context with pages := pages } ∧
      parserStackIteratorSkip (parserStackPageSize pointer64) { context with pages := pages } iterator field.bytes.length =
        .ok iterator' ∧
      IteratorAt (parserStackPageSize pointer64) { context with pages := pages } ids iterator'
        (l.take (l.length - field.bytes.length)) (field.bytes ++ above) := by
  have hpos := field.length_bytes_pos
  have hsize := field.length_bytes_lt
  obtain ⟨pages, hwrite, hat, -⟩ := h.write hpos hsize hlength
  obtain ⟨-, -, iterator', hskip, hat'⟩ := hat.record
  exact ⟨pages, iterator', hwrite, hskip, hat'⟩

/-- What the iterator has left when records were written. -/
theorem take_less {l : List Byte} {a b : Nat} (h : a + b ≤ l.length) :
    (l.take (l.length - a)).take ((l.take (l.length - a)).length - b) = l.take (l.length - (b + a)) := by
  rw [List.length_take, List.take_take]
  congr 1
  omega

/-- The instance fields are written in order, and the first static one gets the end flag in the buffer. -/
theorem instanceLoop_spec : ∀ (fields : List (ClassField pointer64)) (context : ParserContext) (iterator : Iterator)
    (l above tail : List Byte) (hasStaticFields : Bool) (rounds : Nat), fields ≠ [] → fields.length ≤ rounds →
    IteratorAt (parserStackPageSize pointer64) context ids iterator l above →
    (stackBytes (instances fields)).length ≤ l.length →
    ∃ pages iterator', instanceLoop pointer64 rounds context iterator (stackBytes fields ++ tail) (stackBytes fields).length
        hasStaticFields =
          .ok ({ context with pages := pages }, iterator',
            stackBytes (if hasStaticFields then fields else markStatic fields) ++ tail,
            hasStaticFields || fields.any isStatic) ∧
      IteratorAt (parserStackPageSize pointer64) { context with pages := pages } ids iterator'
        (l.take (l.length - (stackBytes (instances fields)).length)) (stackBytes (instances fields) ++ above) := by
  intro fields
  induction fields with
  | nil => exact fun _ _ _ _ _ _ _ hne => absurd rfl hne
  | cons field fields ih =>
    intro context iterator l above tail hasStaticFields rounds _ hrounds hat hlength
    obtain ⟨rounds, rfl⟩ : ∃ r, rounds = r + 1 := ⟨rounds - 1, by rw [List.length_cons] at hrounds; omega⟩
    rw [List.length_cons] at hrounds
    have hpos := field.length_bytes_pos
    have hcurrent : (stackBytes fields ++ field.bytes).length - field.bytes.length = (stackBytes fields).length := by
      rw [List.length_append, Nat.add_sub_cancel]
    have hroom : field.bytes.length ≤ (stackBytes fields ++ field.bytes).length := by
      rw [List.length_append]
      omega
    rw [instanceLoop, stackBytes, buffer_type]
    simp only [← field.length_bytes, if_pos hroom, hcurrent]
    cases hstatic : field.isStatic with
    | true =>
      have hinstances : instances (field :: fields) = instances fields :=
        List.filter_cons_of_neg (by rw [hstatic]; exact Bool.false_ne_true)
      have hflag : hasFlag field.type parserClassFieldStatic = true := hstatic
      rw [hinstances] at hlength ⊢
      rw [if_pos hflag]
      -- the rest of the buffer, with or without a new end flag
      obtain ⟨tail', hbuffer, hmarked⟩ : ∃ tail',
          (if hasStaticFields = true then stackBytes fields ++ field.bytes ++ tail
            else (stackBytes fields ++ field.bytes ++ tail).set ((stackBytes fields ++ field.bytes).length - 1)
              (field.type ||| parserClassFieldEnd)) = stackBytes fields ++ tail' ∧
          stackBytes (if hasStaticFields = true then field :: fields else markStatic (field :: fields)) ++ tail =
            stackBytes fields ++ tail' := by
        cases hasStaticFields with
        | true =>
          refine ⟨field.bytes ++ tail, ?_, ?_⟩
          · rw [if_pos rfl, List.append_assoc]
          · rw [if_pos rfl, stackBytes, List.append_assoc]
        | false =>
          refine ⟨field.withEnd.bytes ++ tail, ?_, ?_⟩
          · rw [if_neg Bool.false_ne_true, buffer_mark, List.append_assoc]
          · rw [if_neg Bool.false_ne_true, markStatic, if_pos hstatic, stackBytes, List.append_assoc]
      rw [hbuffer, hmarked, List.any_cons, hstatic, Bool.true_or, Bool.or_true]
      cases fields with
      | nil =>
        refine ⟨context.pages, iterator, rfl, ?_⟩
        rw [show instances ([] : List (ClassField pointer64)) = [] from rfl, stackBytes, List.length_nil, Nat.sub_zero,
          List.take_length]
        exact hat
      | cons next rest =>
        have hmore : 0 < (stackBytes (next :: rest)).length := by
          have hnext := next.length_bytes_pos
          rw [stackBytes, List.length_append]
          omega
        rw [if_pos hmore]
        exact ih context iterator l above tail' true rounds (List.cons_ne_nil next rest) (by omega) hat hlength
    | false =>
      have hinstances : instances (field :: fields) = field :: instances fields :=
        List.filter_cons_of_pos (by rw [hstatic]; rfl)
      rw [hinstances, stackBytes, List.length_append] at hlength
      have hplain : ¬hasFlag field.type parserClassFieldStatic = true := by
        rw [← ClassField.isStatic, hstatic]
        exact Bool.false_ne_true
      obtain ⟨pages, iterator', hwrite, hskip, hat'⟩ := hat.writeRecord (show field.bytes.length ≤ l.length by omega)
      have hmarked : stackBytes (if hasStaticFields = true then field :: fields else markStatic (field :: fields)) ++ tail =
          stackBytes (if hasStaticFields = true then fields else markStatic fields) ++ (field.bytes ++ tail) := by
        rw [markStatic, hstatic, if_neg Bool.false_ne_true]
        split
        · rw [stackBytes, List.append_assoc]
        · rw [stackBytes, List.append_assoc]
      have hwritten := buffer_bytes (stackBytes fields) tail field
      rw [← field.length_bytes] at hwritten
      rw [if_neg hplain, hinstances, stackBytes, hwritten, hmarked, List.any_cons, hstatic, Bool.false_or]
      simp only [bind, Except.bind, hwrite, hskip]
      cases fields with
      | nil =>
        refine ⟨pages, iterator', ?_, ?_⟩
        · rw [List.any_nil, Bool.or_false]
          cases hasStaticFields <;> rfl
        · rw [show instances ([] : List (ClassField pointer64)) = [] from rfl, stackBytes, List.nil_append]
          exact hat'
      | cons next rest =>
        have hmore : 0 < (stackBytes (next :: rest)).length := by
          have hnext := next.length_bytes_pos
          rw [stackBytes, List.length_append]
          omega
        have hleft : (stackBytes (instances (next :: rest))).length ≤ (l.take (l.length - field.bytes.length)).length := by
          rw [List.length_take]
          omega
        obtain ⟨pages', iterator'', hloop, hat''⟩ := ih { context with pages := pages } iterator' _ _ (field.bytes ++ tail)
          hasStaticFields rounds (List.cons_ne_nil next rest) (by omega) hat' hleft
        rw [take_less (by omega), ← List.append_assoc] at hat''
        rw [if_pos hmore, List.append_assoc, hloop, List.length_append]
        exact ⟨pages', iterator'', rfl, hat''⟩

/-- The static fields are written in order. -/
theorem staticLoop_spec : ∀ (fields : List (ClassField pointer64)) (context : ParserContext) (iterator : Iterator)
    (l above tail : List Byte) (rounds : Nat), fields ≠ [] → fields.length ≤ rounds →
    IteratorAt (parserStackPageSize pointer64) context ids iterator l above →
    (stackBytes (statics fields)).length ≤ l.length →
    ∃ pages iterator', staticLoop pointer64 rounds context iterator (stackBytes fields ++ tail) (stackBytes fields).length =
        .ok { context with pages := pages } ∧
      IteratorAt (parserStackPageSize pointer64) { context with pages := pages } ids iterator'
        (l.take (l.length - (stackBytes (statics fields)).length)) (stackBytes (statics fields) ++ above) := by
  intro fields
  induction fields with
  | nil => exact fun _ _ _ _ _ _ hne => absurd rfl hne
  | cons field fields ih =>
    intro context iterator l above tail rounds _ hrounds hat hlength
    obtain ⟨rounds, rfl⟩ : ∃ r, rounds = r + 1 := ⟨rounds - 1, by rw [List.length_cons] at hrounds; omega⟩
    rw [List.length_cons] at hrounds
    have hpos := field.length_bytes_pos
    have hcurrent : (stackBytes fields ++ field.bytes).length - field.bytes.length = (stackBytes fields).length := by
      rw [List.length_append, Nat.add_sub_cancel]
    have hroom : field.bytes.length ≤ (stackBytes fields ++ field.bytes).length := by
      rw [List.length_append]
      omega
    rw [staticLoop, stackBytes, buffer_type]
    simp only [← field.length_bytes, if_pos hroom, hcurrent]
    cases hstatic : field.isStatic with
    | false =>
      have hstatics : statics (field :: fields) = statics fields :=
        List.filter_cons_of_neg (by rw [hstatic]; exact Bool.false_ne_true)
      have hplain : ¬hasFlag field.type parserClassFieldStatic = true := by
        rw [← ClassField.isStatic, hstatic]
        exact Bool.false_ne_true
      rw [hstatics] at hlength ⊢
      rw [if_neg hplain]
      cases fields with
      | nil =>
        refine ⟨context.pages, iterator, rfl, ?_⟩
        rw [show statics ([] : List (ClassField pointer64)) = [] from rfl, stackBytes, List.length_nil, Nat.sub_zero,
          List.take_length]
        exact hat
      | cons next rest =>
        have hmore : 0 < (stackBytes (next :: rest)).length := by
          have hnext := next.length_bytes_pos
          rw [stackBytes, List.length_append]
          omega
        rw [if_pos hmore, List.append_assoc]
        exact ih context iterator l above _ rounds (List.cons_ne_nil next rest) (by omega) hat hlength
    | true =>
      have hstatics : statics (field :: fields) = field :: statics fields := List.filter_cons_of_pos hstatic
      rw [hstatics, stackBytes, List.length_append] at hlength
      obtain ⟨pages, iterator', hwrite, hskip, hat'⟩ := hat.writeRecord (show field.bytes.length ≤ l.length by omega)
      have hwritten := buffer_bytes (stackBytes fields) tail field
      rw [← field.length_bytes] at hwritten
      have hflag : hasFlag field.type parserClassFieldStatic = true := hstatic
      rw [if_pos hflag, hstatics, stackBytes, hwritten]
      simp only [bind, Except.bind, hwrite, hskip]
      cases fields with
      | nil =>
        refine ⟨pages, iterator', rfl, ?_⟩
        rw [show statics ([] : List (ClassField pointer64)) = [] from rfl, stackBytes, List.nil_append]
        exact hat'
      | cons next rest =>
        have hmore : 0 < (stackBytes (next :: rest)).length := by
          have hnext := next.length_bytes_pos
          rw [stackBytes, List.length_append]
          omega
        have hleft : (stackBytes (statics (next :: rest))).length ≤ (l.take (l.length - field.bytes.length)).length := by
          rw [List.length_take]
          omega
        obtain ⟨pages', iterator'', hloop, hat''⟩ := ih { context with pages := pages } iterator' _ _ (field.bytes ++ tail)
          rounds (List.cons_ne_nil next rest) (by omega) hat' hleft
        rw [take_less (by omega), ← List.append_assoc] at hat''
        rw [if_pos hmore, List.append_assoc, hloop, List.length_append]
        exact ⟨pages', iterator'', rfl, hat''⟩

/-! ## Reversal -/

/-- Fields that are pushed one after another. -/
theorem stackBytes_reverse (fields : List (ClassField pointer64)) :
    stackBytes fields.reverse = fields.flatMap ClassField.bytes := by
  induction fields with
  | nil => rfl
  | cons field fields ih =>
    rw [List.reverse_cons, stackBytes_append, ih, List.flatMap_cons, stackBytes, stackBytes, List.nil_append]

theorem length_le_stackBytes (fields : List (ClassField pointer64)) : fields.length ≤ (stackBytes fields).length := by
  induction fields with
  | nil => exact Nat.le_refl 0
  | cons field fields ih =>
    have hpos := field.length_bytes_pos
    rw [List.length_cons, stackBytes, List.length_append]
    omega

theorem lastInstance_reverse (top : Byte) (fields : List (ClassField pointer64)) :
    lastInstance top fields.reverse = ((instances fields).head?.map ClassField.type).getD top := by
  induction fields with
  | nil => rfl
  | cons field fields ih =>
    have happend : lastInstance top (fields.reverse ++ [field]) =
        if field.isStatic then lastInstance top fields.reverse else field.type := by
      rw [lastInstance, List.foldl_append]
      rfl
    rw [List.reverse_cons, happend, ih]
    cases hstatic : field.isStatic with
    | true =>
      rw [if_pos rfl, instances, instances, List.filter_cons_of_neg (by rw [hstatic]; exact Bool.false_ne_true)]
    | false =>
      rw [if_neg Bool.false_ne_true, instances, List.filter_cons_of_pos (by rw [hstatic]; rfl)]
      rfl

/-- The last byte on the stack is the type of the record on top. -/
theorem getLast_stackBytes (lower : List Byte) (field : ClassField pointer64) (fields : List (ClassField pointer64)) :
    (lower ++ stackBytes (field :: fields)).getLast? = some field.type := by
  rw [stackBytes, ClassField.bytes, ← List.append_assoc, ← List.append_assoc, List.getLast?_concat]

/-- Bytes that were written through an iterator are on the stack. -/
theorem IteratorAt.stackOk {context' : ParserContext} {stack l : List Byte}
    (h : StackOk (parserStackPageSize pointer64) context ids stack) (hfree : context'.freePage = context.freePage)
    (hlive : context'.live = context.live)
    (hat : IteratorAt (parserStackPageSize pointer64) context' ids iterator l above)
    (htop : (l ++ above).getLast? = some context'.stackTopUint8) :
    StackOk (parserStackPageSize pointer64) context' ids (l ++ above) where
  linked := hat.linked
  nodup := h.nodup
  freeUnused := by
    rw [hfree]
    exact h.freeUnused
  live := by
    rw [hlive]
    exact h.live
  freeLive := by
    rw [hfree, hlive]
    exact h.freeLive
  top b hb := by
    rw [htop] at hb
    exact Option.some.inj hb

theorem any_instance_iff (fields : List (ClassField pointer64)) :
    (fields.any fun field => !field.isStatic) = true ↔ instances fields ≠ [] := by
  rw [List.any_eq_true, Ne, instances, List.filter_eq_nil_iff]
  simp only [not_forall, not_not, exists_prop]

theorem any_static_iff (fields : List (ClassField pointer64)) : fields.any isStatic = true ↔ statics fields ≠ [] := by
  rw [List.any_eq_true, Ne, statics, List.filter_eq_nil_iff]
  simp only [not_forall, not_not, exists_prop]

/-- The records take the place of the ones that were pushed. -/
theorem reverse_spec {fields : List (ClassField pointer64)} (hne : fields ≠ [])
    (hopen : ∀ field ∈ fields, hasFlag field.type parserClassFieldEnd = false)
    (h : StackOk (parserStackPageSize pointer64) context ids (base ++ fields.flatMap ClassField.bytes)) :
    ∃ context', parserReverseClassFields pointer64 true context (fields.flatMap ClassField.bytes).length = .ok context' ∧
      StackOk (parserStackPageSize pointer64) context' ids (base ++ stackBytes (ordered fields)) := by
  rw [← stackBytes_reverse] at h ⊢
  have hlength := length_stackBytes_reverse fields
  have hrounds := length_le_stackBytes fields
  have hsplit := length_stackBytes_split fields
  have hreverse : fields.reverse ≠ [] := fun hnil => hne (List.reverse_eq_nil_iff.mp hnil)
  have hstack : (base ++ stackBytes fields.reverse).length = base.length + (stackBytes fields).length := by
    rw [List.length_append, hlength]
  have hfree : hasFlag context.stackTopUint8 parserClassFieldEnd = false := by
    obtain ⟨field, rest, hcons⟩ := List.exists_cons_of_ne_nil hreverse
    have hlast := getLast_stackBytes base field rest
    rw [← hcons] at hlast
    rw [h.top _ hlast]
    exact hopen field (List.mem_reverse.mp (by rw [hcons]; exact List.mem_cons_self))
  have hinit := iterator_init h.toHolds
  have hcopy := copyLoop_spec fields.reverse context (parserStackIteratorInit context) [] [] false
    (stackBytes fields).length hreverse (by rw [List.length_reverse]; exact hrounds) hinit
  rw [List.length_nil, Nat.zero_add, hlength, List.nil_append, List.reverse_reverse, Bool.false_or, List.any_reverse] at hcopy
  rw [parserReverseClassFields, Bool.not_true, if_neg Bool.false_ne_true, hfree, if_neg Bool.false_ne_true, hlength]
  simp only [bind, Except.bind, hcopy]
  -- what the loops leave of the stack is its base
  have hbase : ∀ n, n = (stackBytes fields).length → (base ++ stackBytes fields.reverse).take
      ((base ++ stackBytes fields.reverse).length - n) = base := by
    intro n hn
    rw [hstack, hn, Nat.add_sub_cancel, List.take_left]
  cases hinstances : instances fields with
  | nil =>
    have hnone : ¬(fields.any fun field => !field.isStatic) = true := by
      rw [any_instance_iff, hinstances]
      exact fun hnil => hnil rfl
    have hstatics : statics fields = fields := by
      rw [statics, List.filter_eq_self]
      intro field hfield
      have hnot := List.filter_eq_nil_iff.mp hinstances field hfield
      simpa using hnot
    obtain ⟨field, rest, hcons⟩ := List.exists_cons_of_ne_nil hne
    have htype : (stackBytes fields).getD ((stackBytes fields).length - 1) 0#8 = field.type := by
      have hbuffer := buffer_type (stackBytes rest) [] field
      rw [List.append_nil] at hbuffer
      rw [hcons]
      exact hbuffer
    have hstatic : hasFlag field.type parserClassFieldStatic = true := by
      have hin : field ∈ statics fields := by
        rw [hstatics, hcons]
        exact List.mem_cons_self
      exact (List.mem_filter.mp hin).2
    rw [if_neg hnone, htype, if_pos hstatic]
    obtain ⟨pages, iterator', hloop, hat⟩ := staticLoop_spec fields { context with stackTopUint8 := field.type }
      (parserStackIteratorInit context) _ [] [] (stackBytes fields).length hne hrounds hinit
      (by rw [hstatics, hstack]; omega)
    rw [hstatics, hbase _ rfl, List.append_nil] at hat
    rw [List.append_nil] at hloop
    refine ⟨_, hloop, ?_⟩
    rw [ordered, hinstances, if_pos rfl, List.nil_append, hstatics]
    refine hat.stackOk h rfl rfl ?_
    rw [hcons]
    exact getLast_stackBytes base field rest
  | cons field rest =>
    have hsome : (fields.any fun field => !field.isStatic) = true := by
      rw [any_instance_iff, hinstances]
      exact List.cons_ne_nil field rest
    have htop : lastInstance context.stackTopUint8 fields.reverse = field.type := by
      rw [lastInstance_reverse, hinstances]
      rfl
    rw [if_pos hsome, htop]
    obtain ⟨pages, iterator', hloop, hat⟩ := instanceLoop_spec fields { context with stackTopUint8 := field.type }
      (parserStackIteratorInit context) _ [] [] false (stackBytes fields).length hne hrounds hinit (by rw [hstack]; omega)
    rw [List.append_nil] at hat
    rw [List.append_nil, if_neg Bool.false_ne_true, List.append_nil, Bool.false_or] at hloop
    simp only [parserStackIteratorInit] at hloop
    simp only [parserStackIteratorInit, hloop]
    by_cases hany : fields.any isStatic = true
    · have hmarked : markStatic fields ≠ [] := by
        intro hnil
        have hzero := length_stackBytes_markStatic fields
        rw [hnil, stackBytes, List.length_nil] at hzero
        have hpos := List.length_pos_of_ne_nil hne
        omega
      have hrounds' : (markStatic fields).length ≤ (stackBytes fields).length := by
        rw [← length_stackBytes_markStatic]
        exact length_le_stackBytes _
      have hstatics : (stackBytes (statics (markStatic fields))).length = (stackBytes (statics fields)).length := by
        rw [statics_markStatic, length_stackBytes_markEnd]
      obtain ⟨pages', iterator'', hloop', hat'⟩ := staticLoop_spec (markStatic fields) _ iterator' _ _ []
        (stackBytes fields).length hmarked hrounds' hat (by rw [List.length_take, hstatics, hstack]; omega)
      rw [List.append_nil, length_stackBytes_markStatic] at hloop'
      rw [hstatics, take_less (by rw [hstack]; omega), hbase _ (by omega), ← stackBytes_append, statics_markStatic] at hat'
      rw [if_pos hany]
      refine ⟨_, hloop', ?_⟩
      rw [ordered, if_neg (by rw [hinstances]; exact List.cons_ne_nil field rest)]
      refine hat'.stackOk h rfl rfl ?_
      rw [hinstances]
      exact getLast_stackBytes base field _
    · have hstatics : statics fields = [] := by
        by_contra hne'
        exact hany ((any_static_iff fields).mpr hne')
      rw [hstatics, stackBytes, List.length_nil, Nat.add_zero] at hsplit
      rw [hbase _ hsplit] at hat
      rw [if_neg hany]
      refine ⟨_, rfl, ?_⟩
      rw [ordered, hstatics, markEnd, ite_self, List.append_nil]
      refine hat.stackOk h rfl rfl ?_
      rw [hinstances]
      exact getLast_stackBytes base field rest

/-! ## Popping -/

theorem popClassField_spec {field : ClassField pointer64} (hne : base ≠ [])
    (h : StackOk (parserStackPageSize pointer64) context ids (base ++ field.bytes)) :
    ∃ context' ids', popClassField pointer64 context = .ok ((field.type, field.info), context') ∧
      StackOk (parserStackPageSize pointer64) context' ids' base := by
  have hpositive := List.length_pos_of_ne_nil hne
  have hsize := pageSize_gt pointer64
  have htype : context.stackTopUint8 = field.type := by
    refine h.top _ ?_
    rw [ClassField.bytes, ← List.append_assoc, List.getLast?_concat]
  have hbytes : base ++ field.bytes = base ++ field.info ++ [field.type] := by
    rw [ClassField.bytes, List.append_assoc]
  have hlong : 1 < (base ++ field.bytes).length := by
    rw [hbytes, List.length_append, List.length_append, List.length_singleton]
    omega
  obtain ⟨context₁, ids₁, hpop₁, hok₁⟩ := popUint8_spec h hlong hsize
  rw [hbytes, List.length_append, List.length_singleton, Nat.add_sub_cancel, List.take_left] at hok₁
  -- the location, when there is one
  have hinfo : ∀ n, 0 < n → n < parserStackPageSize pointer64 → field.info.length = n →
      ∃ context₂ ids₂, parserStackPop (parserStackPageSize pointer64) context₁ n = .ok (context₂, field.info) ∧
        StackOk (parserStackPageSize pointer64) context₂ ids₂ base := by
    intro n hn hn' heq
    obtain ⟨context₂, ids₂, hpop₂, hok₂⟩ := pop_spec hok₁ hn hn' (by rw [List.length_append]; omega)
    rw [List.length_append, heq, Nat.add_sub_cancel, List.take_left] at hok₂
    rw [List.length_append, heq, Nat.add_sub_cancel, List.drop_left] at hpop₂
    exact ⟨context₂, ids₂, hpop₂, hok₂⟩
  have hfield := field.size
  rw [parserGetClassFieldInfoSize] at hfield
  rw [popClassField, htype]
  simp only [hpop₁, bind, Except.bind]
  by_cases hinitialized : hasFlag field.type parserClassFieldInitialized = true
  · rw [if_pos hinitialized] at hfield ⊢
    obtain ⟨context₂, ids₂, hpop₂, hok₂⟩ := hinfo (sizeofScannerRange pointer64) (by cases pointer64 <;> decide)
      (by cases pointer64 <;> decide) (by omega)
    rw [hpop₂]
    exact ⟨context₂, ids₂, rfl, hok₂⟩
  · rw [if_neg hinitialized] at hfield ⊢
    by_cases hnormal : hasFlag field.type parserClassFieldNormal = true
    · rw [if_pos hnormal] at hfield ⊢
      obtain ⟨context₂, ids₂, hpop₂, hok₂⟩ := hinfo (sizeofScannerLocation pointer64) (by cases pointer64 <;> decide)
        (by cases pointer64 <;> decide) (by omega)
      rw [hpop₂]
      exact ⟨context₂, ids₂, rfl, hok₂⟩
    · rw [if_neg hnormal] at hfield ⊢
      have hnil : field.info = [] := List.eq_nil_of_length_eq_zero (by omega)
      rw [hnil, List.append_nil] at hok₁
      rw [hnil]
      exact ⟨context₁, ids₁, rfl, hok₁⟩

theorem popClassFields_spec (hne : base ≠ []) : ∀ (fields : List (ClassField pointer64)) (context : ParserContext)
    (ids : List Nat), StackOk (parserStackPageSize pointer64) context ids (base ++ stackBytes fields) →
    ∃ context' ids', popClassFields pointer64 fields.length context =
        .ok (fields.map fun field => (field.type, field.info), context') ∧
      StackOk (parserStackPageSize pointer64) context' ids' base := by
  intro fields
  induction fields with
  | nil =>
    intro context ids h
    rw [stackBytes, List.append_nil] at h
    exact ⟨context, ids, rfl, h⟩
  | cons field fields ih =>
    intro context ids h
    rw [stackBytes, ← List.append_assoc] at h
    have hlower : base ++ stackBytes fields ≠ [] := List.append_ne_nil_of_left_ne_nil hne _
    obtain ⟨context₁, ids₁, hpop, hok⟩ := popClassField_spec hlower h
    obtain ⟨context₂, ids₂, hrest, hok'⟩ := ih context₁ ids₁ hok
    refine ⟨context₂, ids₂, ?_, hok'⟩
    rw [List.length_cons, popClassFields]
    simp only [hpop, bind, Except.bind, hrest]
    rfl

/-- Fields are pushed in the order of the source, over a byte with the end flag. After the reversal the instance fields are
popped in this order, and the static ones after them. Nothing of the records is changed but for the end flag of the first
static field, which is set when there are instance fields; what is below them stays. -/
theorem reverse_class_fields {base : List Byte} {fields : List (ClassField pointer64)} (hne : fields ≠ [])
    (hopen : ∀ field ∈ fields, hasFlag field.type parserClassFieldEnd = false)
    (hreached : Reached (parserStackPageSize pointer64) context
      (base ++ [parserClassFieldEnd] ++ fields.flatMap ClassField.bytes)) :
    ∃ context' ids', parserReverseClassFields pointer64 true context (fields.flatMap ClassField.bytes).length = .ok context' ∧
      StackOk (parserStackPageSize pointer64) context' ids'
        (base ++ [parserClassFieldEnd] ++ stackBytes (ordered fields)) ∧
      (stackBytes (ordered fields)).length = (fields.flatMap ClassField.bytes).length ∧
      (ordered fields).head?.map ClassField.type = some context'.stackTopUint8 ∧
      ∃ context'' ids'', popClassFields pointer64 fields.length context' =
          .ok ((ordered fields).map fun field => (field.type, field.info), context'') ∧
        StackOk (parserStackPageSize pointer64) context'' ids'' (base ++ [parserClassFieldEnd]) := by
  obtain ⟨ids, hok⟩ := hreached.ok (pageSize_gt pointer64)
  obtain ⟨context', hreverse, hok'⟩ := reverse_spec hne hopen hok
  have hcount : (ordered fields).length = fields.length := by
    have hfilter := @List.length_eq_length_filter_add _ fields isStatic
    rw [ordered, List.length_append, instances]
    split
    · rw [statics]
      omega
    · have hmarked : (markEnd (statics fields)).length = (statics fields).length := by
        cases statics fields <;> rfl
      rw [hmarked, statics]
      omega
  have hbytes : (stackBytes (ordered fields)).length = (fields.flatMap ClassField.bytes).length := by
    rw [← stackBytes_reverse, length_stackBytes_reverse, ← length_stackBytes_split fields, ordered, stackBytes_append,
      List.length_append, Nat.add_comm]
    split
    · rfl
    · rw [length_stackBytes_markEnd]
  obtain ⟨context'', ids'', hpop, hok''⟩ := popClassFields_spec (List.append_ne_nil_of_right_ne_nil base
    (List.cons_ne_nil parserClassFieldEnd [])) (ordered fields) context' ids hok'
  rw [hcount] at hpop
  refine ⟨context', ids, hreverse, hok', hbytes, ?_, context'', ids'', hpop, hok''⟩
  cases hordered : ordered fields with
  | nil =>
    rw [hordered, List.length_nil] at hcount
    exact absurd (List.eq_nil_of_length_eq_zero hcount.symm) hne
  | cons field rest =>
    have hlast := getLast_stackBytes (base ++ [parserClassFieldEnd]) field rest
    rw [hordered] at hok'
    rw [hok'.top _ hlast]
    rfl

/-- A static field and an instance field with computed names. -/
def computedFields : List (ClassField true) := [⟨parserClassFieldStatic, [], rfl⟩, ⟨0#8, [], rfl⟩]

theorem reverse_class_fields_computed :
    ∃ context context' ids', parserReverseClassFields true true context 2 = .ok context' ∧
      StackOk (parserStackPageSize true) context' ids' [1#8, 9#8, 0#8] := by
  obtain ⟨context₁, hreached₁⟩ := (Reached.init (parserStackInit (parserStackPageSize true)
    ⟨fun _ => ⟨none, fun _ => 0#8⟩, [], none, 0, none, 0#8⟩)).pushByte (pageSize_gt true) parserClassFieldEnd
  obtain ⟨context₂, hreached₂⟩ := hreached₁.pushByte (pageSize_gt true) 8#8
  obtain ⟨context₃, hreached₃⟩ := hreached₂.pushByte (pageSize_gt true) 0#8
  obtain ⟨context', ids', hreverse, hok, -⟩ := @reverse_class_fields true context₃ [] computedFields
    (List.cons_ne_nil _ _) (by decide) hreached₃
  exact ⟨context₃, context', ids', hreverse, hok⟩

end ParserStack
end JJS
