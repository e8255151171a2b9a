import JJS.Strings.Units

/-!
# JJS.Strings.ToUtf8

CESU-8 to UTF-8: the size of the result and the conversion (`lit-strings.c`), and the conversion between encodings for
the platform (`jjs-util.c`). What is converted is the code points of the string, a pair of surrogates joined and any
other surrogate on its own.

The conversion returns the number of bytes as one byte.
-/

namespace JJS
namespace Strings

open Utf8 Lit

/-! ## The routines -/

/-- `lit_convert_surrogate_pair_to_code_point`. -/
def litConvertSurrogatePairToCodePoint (highSurrogate lowSurrogate : CodeUnit) : CodePoint :=
  ((highSurrogate - 0xd800#16).setWidth 32 <<< 10) + 0x10000#32 ||| (lowSurrogate - 0xdc00#16).setWidth 32

/-- `lit_read_code_point_from_cesu8`. -/
def litReadCodePointFromCesu8 (s : List Byte) : Option (Nat × CodePoint) := do
  let (size, codeUnit) ← litReadCodeUnitFromCesu8 s
  if litIsHighSurrogate codeUnit ∧ (s.drop size).isEmpty = false then do
    let (nextSize, nextCodeUnit) ← litReadCodeUnitFromCesu8 (s.drop size)
    if litIsLowSurrogate nextCodeUnit then
      some (size + nextSize, litConvertSurrogatePairToCodePoint codeUnit nextCodeUnit)
    else some (size, codeUnit.setWidth 32)
  else some (size, codeUnit.setWidth 32)

/-- The loop of `lit_get_utf8_size_of_cesu8_string`. The first argument bounds the number of steps. -/
def utf8SizeLoop : Nat → CodeUnit → Nat → List Byte → Option Nat
  | _, _, size, [] => some size
  | 0, _, _, _ :: _ => none
  | steps + 1, prev, size, b :: s => do
    let (readSize, ch) ← litReadCodeUnitFromCesu8 (b :: s)
    let size := if litIsLowSurrogate ch ∧ litIsHighSurrogate prev then (size + 2 ^ 32 - 2) % 2 ^ 32 else size
    utf8SizeLoop steps ch size ((b :: s).drop readSize)

/-- `lit_get_utf8_size_of_cesu8_string`. -/
def litGetUtf8SizeOfCesu8String (s : List Byte) : Option Nat := utf8SizeLoop s.length 0#16 s.length s

/-- The loop of `lit_convert_cesu8_string_to_utf8_string`, with what has been written. The first argument bounds the
number of steps. -/
def convertToUtf8Loop (utf8Size : Nat) : Nat → List Byte → List Byte → Option (List Byte)
  | _, written, [] => some written
  | 0, _, _ :: _ => none
  | steps + 1, written, b :: s => do
    let (readSize, cp) ← litReadCodePointFromCesu8 (b :: s)
    let encodedSize := if 0x10000#32 ≤ cp then 4 else readSize
    if utf8Size < written.length + encodedSize then some written
    else do
      let encoded ← if 0x10000#32 ≤ cp then litCodePointToUtf8 cp else some ((b :: s).take encodedSize)
      convertToUtf8Loop utf8Size steps (written ++ encoded) ((b :: s).drop readSize)

/-- `lit_convert_cesu8_string_to_utf8_string`: what is written, and the value that is returned. -/
def litConvertCesu8StringToUtf8String (s : List Byte) (utf8Size : Nat) : Option (List Byte × Nat) := do
  let written ← convertToUtf8Loop utf8Size s.length [] s
  some (written, written.length % 2 ^ 8)

/-- `lit_peek_wchar_from_cesu8`, for the rest of the buffer from `index` on. The outer null case is a read outside the
buffer. -/
def litPeekWcharFromCesu8 (size index : Nat) : List Byte → Option (Option (Nat × CodeUnit))
  | [] => some none
  | c :: rest =>
    if c &&& 0x80#8 = 0x00#8 then some (some (1, (c &&& 0x7f#8).setWidth 16))
    else if c &&& 0xe0#8 = 0xc0#8 then extra 2 ((c &&& 0x1f#8).setWidth 32) rest
    else if c &&& 0xf0#8 = 0xe0#8 then extra 3 ((c &&& 0x0f#8).setWidth 32) rest
    else some none
where
  /-- The loop over the extra bytes. -/
  extra (bytesCount : Nat) (ret : CodePoint) (rest : List Byte) : Option (Option (Nat × CodeUnit)) :=
    if size < (index + bytesCount) % 2 ^ 32 then some none
    else if rest.length + 1 < bytesCount then none
    else
      let ret := (rest.take (bytesCount - 1)).foldl addExtraByte ret
      if 0xffff#32 < ret then some none else some (some (bytesCount, ret.setWidth 16))

/-- The code units that `lit_peek_wchar_from_cesu8` gives one after the other. -/
def peekCodeUnits (size : Nat) : Nat → Nat → List Byte → Option (List CodeUnit)
  | 0, _, _ => none
  | steps + 1, index, s =>
    match litPeekWcharFromCesu8 size index s with
    | none => none
    | some none => some []
    | some (some (advance, ch)) => do
      let rest ← peekCodeUnits size steps ((index + advance) % 2 ^ 32) (s.drop advance)
      some (ch :: rest)

/-- `jjs_encoding_t`. -/
inductive Encoding where
  | none
  | ascii
  | cesu8
  | utf8
  | utf16
deriving DecidableEq, Repr

/-- The part of `jjs_status_t` that a conversion returns. -/
inductive Status where
  | ok
  | badAlloc
  | malformedCesu8
  | unsupportedEncoding
deriving DecidableEq, Repr

/-- What the destination points to, and its size. -/
inductive Converted where
  | bytes (content : List Byte) (size : Nat)
  | units (content : List CodeUnit) (size : Nat)
deriving DecidableEq, Repr

/-- `jjs_util_convert`, when the allocator finds room for the sizes in `allocates`. There is no prefix for long file
names. -/
def jjsUtilConvert (allocates : Nat → Bool) (source : List Byte) (sourceEncoding destEncoding : Encoding)
    (addNullTerminator : Bool) : Option (Status × Option Converted) :=
  let terminator : Nat := if addNullTerminator then 1 else 0
  match sourceEncoding, destEncoding with
  | .ascii, .utf8 | .ascii, .ascii =>
    let allocatedSize := (source.length + terminator) % 2 ^ 32
    if allocates allocatedSize then
      some (.ok, some (.bytes (source ++ List.replicate terminator 0#8) allocatedSize))
    else some (.badAlloc, .none)
  | .ascii, .utf16 =>
    let allocatedSize := (source.length + terminator) % 2 ^ 32 * 2 % 2 ^ 32
    if allocates allocatedSize then
      some (.ok, some (.units ((source.map fun b => b.setWidth 16) ++ List.replicate terminator 0#16) allocatedSize))
    else some (.badAlloc, .none)
  | .cesu8, .utf8 => do
    let utf8Size ← litGetUtf8SizeOfCesu8String source
    if utf8Size = 0 then some (.malformedCesu8, .none)
    else
      let allocatedSize := (source.length + terminator) % 2 ^ 32
      if allocates allocatedSize then do
        let (utf8, written) ← litConvertCesu8StringToUtf8String source utf8Size
        if written ≠ utf8Size then some (.malformedCesu8, .none)
        else some (.ok, some (.bytes (utf8 ++ List.replicate terminator 0#8) allocatedSize))
      else some (.badAlloc, .none)
  | .cesu8, .utf16 => do
    let result ← peekCodeUnits source.length (source.length + 1) 0 source
    let allocatedSize := (result.length + terminator) % 2 ^ 32 * 2 % 2 ^ 32
    if allocates allocatedSize then
      some (.ok, some (.units (result ++ List.replicate terminator 0#16) allocatedSize))
    else some (.badAlloc, .none)
  | _, _ => some (.unsupportedEncoding, .none)

/-! ## Code points -/

/-- The code point of a pair of surrogates. -/
def pairPoint (u v : CodeUnit) : Point :=
  ⟨0x10000 + (u.toNat - 0xD800) % 0x400 * 0x400 + (v.toNat - 0xDC00) % 0x400, by omega⟩

/-- The code points of UTF-16, with the surrogates that are not in a pair. -/
def points : List CodeUnit → List Point
  | [] => []
  | [u] => [unitPoint u]
  | u :: v :: us => if litIsHighSurrogate u ∧ litIsLowSurrogate v then pairPoint u v :: points us else unitPoint u :: points (v :: us)

/-- The UTF-8 encoding of code points. -/
def utf8 (cs : List Point) : List Byte := (cs.map Point.encode).flatten

theorem utf8_nil : utf8 [] = [] := rfl

theorem utf8_cons (c : Point) (cs : List Point) : utf8 (c :: cs) = c.encode ++ utf8 cs := rfl

theorem utf8_append (cs ds : List Point) : utf8 (cs ++ ds) = utf8 cs ++ utf8 ds := by
  rw [utf8, List.map_append, List.flatten_append]
  rfl

/-- The longest prefix that fits in so many bytes. -/
structure LongestPrefix (n : Nat) (cs pre : List Point) : Prop where
  isPrefix : pre <+: cs
  fits : (utf8 pre).length ≤ n
  longest : ∀ q : List Point, q <+: cs → (utf8 q).length ≤ n → q <+: pre

/-- Code points as long as they fit. -/
def fitting : Nat → List Point → List Point
  | _, [] => []
  | n, c :: cs => if c.encode.length ≤ n then c :: fitting (n - c.encode.length) cs else []

theorem longestPrefix_fitting (n : Nat) (cs : List Point) : LongestPrefix n cs (fitting n cs) := by
  induction cs generalizing n with
  | nil => exact ⟨List.nil_prefix, Nat.zero_le n, fun q hq _ => hq⟩
  | cons c cs ih =>
    rw [fitting]
    split
    · rename_i hc
      have hrest := ih (n - c.encode.length)
      refine ⟨List.cons_prefix_cons.mpr ⟨rfl, hrest.isPrefix⟩, ?_, ?_⟩
      · have hfits := hrest.fits
        rw [utf8_cons, List.length_append]
        omega
      · intro q hq hlen
        cases q with
        | nil => exact List.nil_prefix
        | cons d q =>
          obtain ⟨rfl, hq'⟩ := List.cons_prefix_cons.mp hq
          rw [utf8_cons, List.length_append] at hlen
          exact List.cons_prefix_cons.mpr ⟨rfl, hrest.longest q hq' (by omega)⟩
    · rename_i hc
      refine ⟨List.nil_prefix, Nat.zero_le n, ?_⟩
      intro q hq hlen
      cases q with
      | nil => exact List.nil_prefix
      | cons d q =>
        obtain ⟨rfl, _⟩ := List.cons_prefix_cons.mp hq
        rw [utf8_cons, List.length_append] at hlen
        omega

theorem LongestPrefix.eq_fitting {n : Nat} {cs pre : List Point} (h : LongestPrefix n cs pre) : pre = fitting n cs := by
  have hfit := longestPrefix_fitting n cs
  have h1 := hfit.longest pre h.isPrefix h.fits
  have h2 := h.longest _ hfit.isPrefix hfit.fits
  exact h1.eq_of_length (Nat.le_antisymm h1.length_le h2.length_le)

theorem fitting_all {n : Nat} {cs : List Point} (h : (utf8 cs).length ≤ n) : fitting n cs = cs := by
  have hfit := longestPrefix_fitting n cs
  have hall := hfit.longest cs (List.prefix_refl cs) h
  exact hfit.isPrefix.eq_of_length (Nat.le_antisymm hfit.isPrefix.length_le hall.length_le)

theorem utf8_of_not_long {u : CodeUnit} : ¬IsLong (unitPoint u) := by
  have hu : (unitPoint u).val < 2 ^ 16 := u.isLt
  rw [IsLong]
  omega

theorem isLong_pairPoint (u v : CodeUnit) : IsLong (pairPoint u v) := by
  rw [IsLong, pairPoint]
  dsimp only
  omega

theorem length_encode_of_long {c : Point} (h : IsLong c) : c.encode.length = 4 := by
  rw [IsLong] at h
  rw [Point.encode, encode, if_neg (by omega), if_neg (by omega), if_neg (by omega)]
  rfl

theorem units_pairPoint {u v : CodeUnit} (hu : IsHighUnit u) (hv : IsLowUnit v) : (pairPoint u v).units = [u, v] := by
  obtain ⟨hu1, hu2⟩ := hu
  obtain ⟨hv1, hv2⟩ := hv
  have hlong := isLong_pairPoint u v
  rw [IsLong] at hlong
  have hhigh : 0xD800 + ((pairPoint u v).val - 0x10000) / 0x400 = u.toNat := by
    rw [pairPoint]
    dsimp only
    omega
  have hlow : 0xDC00 + ((pairPoint u v).val - 0x10000) % 0x400 = v.toNat := by
    rw [pairPoint]
    dsimp only
    omega
  rw [Point.units, if_neg (by omega), hhigh, hlow, BitVec.ofNat_toNat, BitVec.ofNat_toNat, BitVec.setWidth_eq,
    BitVec.setWidth_eq]

/-- The code points are those of the code units. -/
theorem units_points (us : List CodeUnit) : units (points us) = us := by
  induction us using points.induct with
  | case1 => rfl
  | case2 u => rw [points, units, List.flatMap_cons, List.flatMap_nil, unitPoint_units, List.append_nil]
  | case3 u v us hpair ih =>
    rw [points, if_pos hpair, units, List.flatMap_cons,
      units_pairPoint ((litIsHighSurrogate_iff u).mp hpair.1) ((litIsLowSurrogate_iff v).mp hpair.2)]
    rw [units] at ih
    rw [ih]
    rfl
  | case4 u v us hpair ih =>
    rw [points, if_neg hpair, units, List.flatMap_cons, unitPoint_units]
    rw [units] at ih
    rw [ih]
    rfl

theorem length_utf8_points (us : List CodeUnit) : (cesu8 us).length = (utf8 (points us)).length + added (points us) := by
  have h := length_cesu8_units (points us)
  rw [units_points, Nat.add_comm] at h
  exact h

/-! ## Reading code points -/

section

variable {u v : CodeUnit} {us : List CodeUnit}

theorem toNat_surrogatePair (hu : IsHighUnit u) (hv : IsLowUnit v) :
    (litConvertSurrogatePairToCodePoint u v).toNat = (pairPoint u v).val := by
  obtain ⟨hu1, hu2⟩ := hu
  obtain ⟨hv1, hv2⟩ := hv
  have hhigh : ((u - 0xd800#16).setWidth 32 : CodePoint).toNat = u.toNat - 0xD800 := by
    rw [BitVec.toNat_setWidth, BitVec.toNat_sub_of_le (by rw [BitVec.le_def]; exact hu1)]
    show (u.toNat - 0xD800) % 2 ^ 32 = _
    omega
  have hlow : ((v - 0xdc00#16).setWidth 32 : CodePoint).toNat = v.toNat - 0xDC00 := by
    rw [BitVec.toNat_setWidth, BitVec.toNat_sub_of_le (by rw [BitVec.le_def]; exact hv1)]
    show (v.toNat - 0xDC00) % 2 ^ 32 = _
    omega
  have hten : v.toNat - 0xDC00 < 2 ^ 10 := by omega
  have hbase : (((u - 0xd800#16).setWidth 32 <<< 10) + 0x10000#32 : CodePoint).toNat = 2 ^ 10 * (u.toNat - 0xD800 + 64) := by
    rw [BitVec.toNat_add, BitVec.toNat_shiftLeft, hhigh, Nat.shiftLeft_eq]
    show ((u.toNat - 0xD800) * 2 ^ 10 % 2 ^ 32 + 0x10000) % 2 ^ 32 = _
    omega
  rw [litConvertSurrogatePairToCodePoint, BitVec.toNat_or, hbase, hlow, ← Nat.two_pow_add_eq_or_of_lt hten, pairPoint]
  dsimp only
  omega

theorem toNat_unit (u : CodeUnit) : (u.setWidth 32 : CodePoint).toNat = (unitPoint u).val := by
  have hu := u.isLt
  rw [BitVec.toNat_setWidth]
  exact Nat.mod_eq_of_lt (by omega)

theorem readCodePoint_pair (hu : litIsHighSurrogate u = true) (hv : litIsLowSurrogate v = true) :
    litReadCodePointFromCesu8 (cesu8 (u :: v :: us)) =
      some ((encode u.toNat).length + (encode v.toNat).length, litConvertSurrogatePairToCodePoint u v) := by
  have hread := litReadCodeUnitFromCesu8_append u (cesu8 (v :: us))
  have hread' := litReadCodeUnitFromCesu8_append v (cesu8 us)
  have hne : (cesu8 (v :: us)).isEmpty = false :=
    List.isEmpty_eq_false_iff.mpr (cesu8_ne_nil (List.cons_ne_nil v us))
  rw [← cesu8_cons] at hread'
  rw [cesu8_cons, litReadCodePointFromCesu8, hread, Option.bind_eq_bind, Option.bind_some]
  dsimp only
  rw [List.drop_left, if_pos ⟨hu, hne⟩, hread', Option.bind_some]
  dsimp only
  rw [if_pos hv]

theorem readCodePoint_unit (h : ∀ v vs, us = v :: vs → ¬(litIsHighSurrogate u = true ∧ litIsLowSurrogate v = true)) :
    litReadCodePointFromCesu8 (cesu8 (u :: us)) = some ((encode u.toNat).length, u.setWidth 32) := by
  have hread := litReadCodeUnitFromCesu8_append u (cesu8 us)
  rw [cesu8_cons, litReadCodePointFromCesu8, hread, Option.bind_eq_bind, Option.bind_some]
  dsimp only
  rw [List.drop_left]
  split
  · rename_i hhigh
    cases us with
    | nil => cases hhigh.2
    | cons v us =>
      have hread' := litReadCodeUnitFromCesu8_append v (cesu8 us)
      have hlow : ¬litIsLowSurrogate v = true := fun hv => h v us rfl ⟨hhigh.1, hv⟩
      rw [← cesu8_cons] at hread'
      rw [hread', Option.bind_some]
      dsimp only
      rw [if_neg hlow]
  · rfl

end

/-! ## The conversion -/

/-- One step of the loop, at a code point of the string. -/
theorem convertLoop_step {n steps : Nat} {written s : List Byte} {size : Nat} {cp : CodePoint} {c : Point} (r : List Byte)
    (hs : s ≠ []) (hread : litReadCodePointFromCesu8 s = some (size, cp)) (hcp : cp.toNat = c.val)
    (hshort : ¬IsLong c → size = c.encode.length ∧ s.take size = c.encode) (hrest : s.drop size = r) :
    convertToUtf8Loop n (steps + 1) written s =
      if n < written.length + c.encode.length then some written
      else convertToUtf8Loop n steps (written ++ c.encode) r := by
  have hc := c.isLt
  have hge : 0x10000#32 ≤ cp ↔ IsLong c := by
    rw [BitVec.le_def, hcp, IsLong]
    rfl
  obtain ⟨b, t, rfl⟩ := List.exists_cons_of_ne_nil hs
  rw [convertToUtf8Loop, hread, Option.bind_eq_bind, Option.bind_some]
  dsimp only
  rw [hrest]
  by_cases hlong : IsLong c
  · rw [if_pos (hge.mpr hlong), if_pos (hge.mpr hlong), length_encode_of_long hlong, litCodePointToUtf8_eq (by omega),
      Option.bind_eq_bind, Option.bind_some, hcp]
    rfl
  · obtain ⟨hsize, htake⟩ := hshort hlong
    rw [if_neg (fun h => hlong (hge.mp h)), if_neg (fun h => hlong (hge.mp h)), Option.bind_eq_bind,
      Option.bind_some, htake, hsize]

/-- What one step writes begins the longest prefix that fits. -/
theorem convertLoop_next {n steps : Nat} {written s : List Byte} {size : Nat} {cp : CodePoint} {c : Point} {cs : List Point}
    (r : List Byte) (hs : s ≠ []) (hread : litReadCodePointFromCesu8 s = some (size, cp)) (hcp : cp.toNat = c.val)
    (hshort : ¬IsLong c → size = c.encode.length ∧ s.take size = c.encode) (hrest : s.drop size = r)
    (hnext : (written ++ c.encode).length ≤ n → convertToUtf8Loop n steps (written ++ c.encode) r =
      some (written ++ c.encode ++ utf8 (fitting (n - (written ++ c.encode).length) cs)))
    (hn : written.length ≤ n) :
    convertToUtf8Loop n (steps + 1) written s = some (written ++ utf8 (fitting (n - written.length) (c :: cs))) := by
  rw [convertLoop_step r hs hread hcp hshort hrest, fitting]
  split
  · rename_i hover
    rw [if_neg (by omega), utf8_nil, List.append_nil]
  · rename_i hroom
    rw [List.length_append] at hnext
    rw [if_pos (by omega), hnext (by omega), utf8_cons, List.append_assoc, Nat.sub_sub]

theorem convertLoop_points {n steps : Nat} {us : List CodeUnit} {written : List Byte} (h : us.length ≤ steps)
    (hn : written.length ≤ n) :
    convertToUtf8Loop n steps written (cesu8 us) =
      some (written ++ utf8 (fitting (n - written.length) (points us))) := by
  induction us using points.induct generalizing steps written with
  | case1 =>
    rw [points, fitting, utf8_nil, List.append_nil]
    cases steps with
    | zero => rfl
    | succ steps => rfl
  | case2 u =>
    rw [List.length_singleton] at h
    cases steps with
    | zero => omega
    | succ steps =>
      have hunit : litReadCodePointFromCesu8 (cesu8 [u]) = some ((encode u.toNat).length, u.setWidth 32) :=
        readCodePoint_unit (fun v vs heq => by cases heq)
      rw [points]
      refine convertLoop_next [] (cesu8_ne_nil (List.cons_ne_nil u [])) hunit (toNat_unit u) ?_ ?_ ?_ hn
      · intro _
        exact ⟨rfl, List.take_left⟩
      · exact List.drop_left
      · intro _
        rw [fitting, utf8_nil, List.append_nil]
        cases steps with
        | zero => rfl
        | succ steps => rfl
  | case3 u v us hpair ih =>
    rw [List.length_cons, List.length_cons] at h
    cases steps with
    | zero => omega
    | succ steps =>
      rw [points, if_pos hpair]
      refine convertLoop_next (cesu8 us) (cesu8_ne_nil (List.cons_ne_nil u (v :: us))) (readCodePoint_pair hpair.1 hpair.2)
        (toNat_surrogatePair ((litIsHighSurrogate_iff u).mp hpair.1) ((litIsLowSurrogate_iff v).mp hpair.2)) ?_ ?_ ?_ hn
      · intro hshort
        exact absurd (isLong_pairPoint u v) hshort
      · rw [cesu8_cons, cesu8_cons, ← List.append_assoc, ← List.length_append, List.drop_left]
      · intro hroom
        exact ih (by omega) hroom
  | case4 u v us hpair ih =>
    rw [List.length_cons] at h
    cases steps with
    | zero => omega
    | succ steps =>
      have hunit : litReadCodePointFromCesu8 (cesu8 (u :: v :: us)) = some ((encode u.toNat).length, u.setWidth 32) := by
        apply readCodePoint_unit
        intro v' vs heq
        cases heq
        exact hpair
      rw [points, if_neg hpair]
      refine convertLoop_next (cesu8 (v :: us)) (cesu8_ne_nil (List.cons_ne_nil u (v :: us))) hunit (toNat_unit u) ?_ ?_ ?_ hn
      · intro _
        exact ⟨rfl, List.take_left⟩
      · exact List.drop_left
      · intro hroom
        exact ih (by omega) hroom

/-- The longest prefix that fits is written, and its size is returned as one byte. -/
theorem convert_points (us : List CodeUnit) (n : Nat) :
    litConvertCesu8StringToUtf8String (cesu8 us) n =
      some (utf8 (fitting n (points us)), (utf8 (fitting n (points us))).length % 2 ^ 8) := by
  have hloop := @convertLoop_points n (cesu8 us).length us [] (length_le_cesu8 us) (Nat.zero_le n)
  rw [List.nil_append, List.length_nil, Nat.sub_zero] at hloop
  rw [litConvertCesu8StringToUtf8String, hloop]
  rfl

/-! ## The size -/

/-- The low surrogates that directly follow a high one. -/
def adjacentPairs (prev : CodeUnit) : List CodeUnit → Nat
  | [] => 0
  | u :: us => (if litIsLowSurrogate u ∧ litIsHighSurrogate prev then 1 else 0) + adjacentPairs u us

theorem not_high_of_low {u : CodeUnit} (h : litIsLowSurrogate u = true) : ¬litIsHighSurrogate u = true := by
  intro hhigh
  have hl := ((litIsLowSurrogate_iff u).mp h).1
  have hh := ((litIsHighSurrogate_iff u).mp hhigh).2
  omega

/-- Adjacent pairs are the ones that are joined from the left on. -/
theorem adjacentPairs_points {prev : CodeUnit} (us : List CodeUnit) (h : ¬litIsHighSurrogate prev = true) :
    2 * adjacentPairs prev us = added (points us) := by
  induction us using points.induct generalizing prev with
  | case1 => rfl
  | case2 u =>
    rw [points, added_cons, if_neg utf8_of_not_long, adjacentPairs, if_neg (fun hc => h hc.2), adjacentPairs]
    rfl
  | case3 u v us hpair ih =>
    have hrest := ih (not_high_of_low hpair.2)
    rw [points, if_pos hpair, added_cons, if_pos (isLong_pairPoint u v), adjacentPairs, if_neg (fun hc => h hc.2),
      adjacentPairs, if_pos ⟨hpair.2, hpair.1⟩]
    omega
  | case4 u v us hpair ih =>
    have hnext : adjacentPairs prev (u :: v :: us) = adjacentPairs prev (v :: us) := by
      have hu : ¬(litIsLowSurrogate u = true ∧ litIsHighSurrogate prev = true) := fun hc => h hc.2
      have hv : ¬(litIsLowSurrogate v = true ∧ litIsHighSurrogate prev = true) := fun hc => h hc.2
      have huv : ¬(litIsLowSurrogate v = true ∧ litIsHighSurrogate u = true) := fun hc => hpair ⟨hc.2, hc.1⟩
      rw [adjacentPairs, adjacentPairs, adjacentPairs, if_neg hu, if_neg hv, if_neg huv, Nat.zero_add]
    rw [points, if_neg hpair, added_cons, if_neg utf8_of_not_long, Nat.zero_add, hnext]
    exact ih h

theorem utf8SizeLoop_cesu8 {steps size : Nat} {prev : CodeUnit} {us : List CodeUnit} (h : us.length ≤ steps)
    (hsize : size < 2 ^ 32) (hpairs : 2 * adjacentPairs prev us ≤ size) :
    utf8SizeLoop steps prev size (cesu8 us) = some (size - 2 * adjacentPairs prev us) := by
  induction us generalizing steps size prev with
  | nil =>
    cases steps with
    | zero => rfl
    | succ steps => rfl
  | cons u us ih =>
    rw [List.length_cons] at h
    cases steps with
    | zero => omega
    | succ steps =>
      have hread := litReadCodeUnitFromCesu8_append u (cesu8 us)
      have hdrop : (cesu8 (u :: us)).drop (encode u.toNat).length = cesu8 us := List.drop_left
      rw [← cesu8_cons] at hread
      obtain ⟨b, s, hs⟩ := List.exists_cons_of_ne_nil (cesu8_ne_nil (List.cons_ne_nil u us))
      rw [hs] at hread hdrop
      rw [hs, utf8SizeLoop, hread, Option.bind_eq_bind, Option.bind_some]
      dsimp only
      rw [adjacentPairs] at hpairs ⊢
      rw [hdrop]
      split
      · rename_i hpair
        rw [if_pos hpair] at hpairs
        have hless : (size + 2 ^ 32 - 2) % 2 ^ 32 = size - 2 := by omega
        have hsum : size - 2 - 2 * adjacentPairs u us = size - 2 * (1 + adjacentPairs u us) := by omega
        rw [hless, ih (by omega) (by omega) (by omega), hsum]
      · rename_i hpair
        rw [if_neg hpair] at hpairs
        rw [ih (by omega) hsize (by omega), Nat.zero_add]

/-- The predicted size is that of the UTF-8 encoding. -/
theorem litGetUtf8Size_cesu8 {us : List CodeUnit} (h : (cesu8 us).length < 2 ^ 32) :
    litGetUtf8SizeOfCesu8String (cesu8 us) = some (utf8 (points us)).length := by
  have hpairs := @adjacentPairs_points 0#16 us (by decide)
  have hlen := length_utf8_points us
  rw [litGetUtf8SizeOfCesu8String, utf8SizeLoop_cesu8 (length_le_cesu8 us) h (by omega)]
  congr 1
  omega

/-! ## The claim of the conversion -/

/-- The longest prefix that fits is written, and the size that is returned is the number of bytes written. -/
def WritesPrefix (us : List CodeUnit) (n : Nat) : Prop :=
  ∃ pre, LongestPrefix n (points us) pre ∧
    litConvertCesu8StringToUtf8String (us.flatMap litCodeUnitToUtf8) n = some (utf8 pre, (utf8 pre).length)

/-- With the predicted size the whole string is written, and the size is returned. -/
def WritesAll (us : List CodeUnit) : Prop :=
  ∃ n, litGetUtf8SizeOfCesu8String (us.flatMap litCodeUnitToUtf8) = some n ∧
    litConvertCesu8StringToUtf8String (us.flatMap litCodeUnitToUtf8) n = some (utf8 (points us), n)

/-- The conversion for the platform succeeds when there is room. -/
def Succeeds (us : List CodeUnit) : Prop :=
  ∀ addNullTerminator, ∃ dest,
    jjsUtilConvert (fun _ => true) (us.flatMap litCodeUnitToUtf8) .cesu8 .utf8 addNullTerminator = some (.ok, some dest)

theorem writesPrefix_iff (us : List CodeUnit) (n : Nat) :
    WritesPrefix us n ↔ (utf8 (fitting n (points us))).length < 256 := by
  rw [WritesPrefix, flatMap_litCodeUnitToUtf8, convert_points]
  constructor
  · intro h
    obtain ⟨pre, hpre, heq⟩ := h
    rw [hpre.eq_fitting] at heq
    have hcount := (Prod.mk.inj (Option.some.inj heq)).2
    omega
  · intro h
    have hcount : (utf8 (fitting n (points us))).length % 2 ^ 8 = (utf8 (fitting n (points us))).length :=
      Nat.mod_eq_of_lt h
    refine ⟨_, longestPrefix_fitting n (points us), ?_⟩
    rw [hcount]

theorem writesAll_iff {us : List CodeUnit} (hfits : (cesu8 us).length < 2 ^ 32) :
    WritesAll us ↔ (utf8 (points us)).length < 256 := by
  rw [WritesAll, flatMap_litCodeUnitToUtf8, litGetUtf8Size_cesu8 hfits]
  constructor
  · intro h
    obtain ⟨n, hn, heq⟩ := h
    rw [← Option.some.inj hn, convert_points, fitting_all (Nat.le_refl _)] at heq
    have hcount := (Prod.mk.inj (Option.some.inj heq)).2
    omega
  · intro h
    have hcount : (utf8 (points us)).length % 2 ^ 8 = (utf8 (points us)).length := Nat.mod_eq_of_lt h
    refine ⟨_, rfl, ?_⟩
    rw [convert_points, fitting_all (Nat.le_refl _), hcount]

theorem length_utf8_pos {us : List CodeUnit} (hne : us ≠ []) : 0 < (utf8 (points us)).length := by
  have hpoints : points us ≠ [] := by
    intro hnil
    have hunits := units_points us
    rw [hnil] at hunits
    exact hne hunits.symm
  obtain ⟨c, cs, hcs⟩ := List.exists_cons_of_ne_nil hpoints
  have hpos := length_encode_pos c.val
  rw [hcs, utf8_cons, List.length_append, Point.encode]
  omega

theorem succeeds_iff {us : List CodeUnit} (hfits : (cesu8 us).length < 2 ^ 32) (hne : us ≠ []) :
    Succeeds us ↔ (utf8 (points us)).length < 256 := by
  have hpos := length_utf8_pos hne
  have hconvert : ∀ addNullTerminator, jjsUtilConvert (fun _ => true) (us.flatMap litCodeUnitToUtf8) .cesu8 .utf8
      addNullTerminator =
      if (utf8 (points us)).length % 2 ^ 8 ≠ (utf8 (points us)).length then some (.malformedCesu8, none)
      else some (.ok, some (.bytes (utf8 (points us) ++ List.replicate (if addNullTerminator then 1 else 0) 0#8)
        (((cesu8 us).length + if addNullTerminator then 1 else 0) % 2 ^ 32))) := by
    intro addNullTerminator
    rw [jjsUtilConvert, flatMap_litCodeUnitToUtf8, litGetUtf8Size_cesu8 hfits]
    dsimp only
    rw [Option.bind_eq_bind, Option.bind_some, if_neg (Nat.ne_of_gt hpos), if_pos rfl, convert_points,
      fitting_all (Nat.le_refl _), Option.bind_eq_bind, Option.bind_some]
  rw [Succeeds]
  constructor
  · intro h
    obtain ⟨dest, hdest⟩ := h false
    rw [hconvert] at hdest
    split at hdest
    · cases hdest
    · rename_i heq
      have hmod := Classical.not_not.mp heq
      omega
  · intro h addNullTerminator
    have hcount : (utf8 (points us)).length % 2 ^ 8 = (utf8 (points us)).length := Nat.mod_eq_of_lt h
    rw [hconvert, if_neg (fun hne => hne hcount)]
    exact ⟨_, rfl⟩

/-- The conversion is complete and reports its size just below 256 bytes: for the longest prefix that fits in a buffer,
for the whole string, and on the way to the platform. -/
theorem convert_iff (us : List CodeUnit) (hfits : (cesu8 us).length < 2 ^ 32) :
    (∀ n, WritesPrefix us n ↔ (utf8 (fitting n (points us))).length < 256) ∧
      (WritesAll us ↔ (utf8 (points us)).length < 256) ∧
      (us ≠ [] → (Succeeds us ↔ (utf8 (points us)).length < 256)) :=
  ⟨writesPrefix_iff us, writesAll_iff hfits, succeeds_iff hfits⟩

theorem convert_pair : WritesAll [0xd83d#16, 0xde00#16] :=
  (convert_iff [0xd83d#16, 0xde00#16] (by decide)).2.1.mpr (by decide)

theorem utf8_replicate (n : Nat) : utf8 (points (List.replicate n 0x61#16)) = List.replicate n 0x61#8 := by
  induction n with
  | zero => rfl
  | succ n ih =>
    have hpoints : points (0x61#16 :: List.replicate n 0x61#16) = unitPoint 0x61#16 :: points (List.replicate n 0x61#16) := by
      cases n with
      | zero => rfl
      | succ n => rw [List.replicate_succ, points, if_neg (by decide)]
    rw [List.replicate_succ, hpoints, utf8_cons, ih]
    rfl

/-- For a string of 256 letters, 0 is returned, and the conversion fails. -/
theorem long_string_not_converted :
    ¬((∀ n, WritesPrefix (List.replicate 256 0x61#16) n) ∧ WritesAll (List.replicate 256 0x61#16) ∧
      Succeeds (List.replicate 256 0x61#16)) := by
  intro h
  have hfits : (cesu8 (List.replicate 256 0x61#16)).length < 2 ^ 32 := by
    rw [length_cesu8_replicate]
    decide
  have hlt := (writesAll_iff hfits).mp h.2.1
  rw [utf8_replicate, List.length_replicate] at hlt
  omega

end Strings
end JJS
