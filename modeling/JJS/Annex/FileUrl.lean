import JJS.Jmem.Scratch
import JJS.Lib.Percent
import JJS.Strings.Scalars

/-!
# JJS.Annex.FileUrl

File URLs of absolute paths (`annex-path.c`), for a POSIX build with its assertions compiled out. The path is CESU-8;
its code points are written as UTF-8 into a buffer of the scratch allocator, every byte outside a fixed set of ASCII
characters escaped.

The capacity of the buffer is the size of the path times three and the prefix, in 32 bits. A path whose size fits gets
the URL of its UTF-8 encoding, and no two paths get the same one (`fileUrl_iff`); a longer one is written outside the
buffer.
-/

namespace JJS
namespace Annex

open Utf8 Lit Strings
open Jmem (Scratch.Config Scratch.Allocator Scratch.alloc)

/-! ## The routines -/

/-- An `ecma_value_t`: a string with its characters, or anything else. -/
inductive Value where
  | string (chars : List Byte)
  | other

/-- A write outside the buffer; the language says nothing about what follows. -/
inductive Fault where
  | overrun

/-- Bytes are written behind those that are written already. -/
def write (capacity : Nat) (encoded bytes : List Byte) : Except Fault (List Byte) :=
  if encoded.length + bytes.length ≤ capacity then .ok (encoded ++ bytes) else .error .overrun

/-- `s_annex_to_hex_char`. -/
def annexToHexChar : List Byte :=
  [0x30#8, 0x31#8, 0x32#8, 0x33#8, 0x34#8, 0x35#8, 0x36#8, 0x37#8, 0x38#8, 0x39#8, 0x41#8, 0x42#8, 0x43#8, 0x44#8,
    0x45#8, 0x46#8]

/-- The percent sign and two digits, as `annex_encode_char` and the loop of `annex_encode_path` write them. -/
def hexEscape (c : Byte) : List Byte :=
  [0x25#8, annexToHexChar.getD ((c >>> 4) &&& 0x0f#8).toNat 0#8, annexToHexChar.getD (c &&& 0x0f#8).toNat 0#8]

/-- `isalnum`, in the locale of C. -/
def isalnum (c : Byte) : Bool :=
  (decide (0x30#8 ≤ c) && decide (c ≤ 0x39#8)) || (decide (0x41#8 ≤ c) && decide (c ≤ 0x5a#8)) ||
    (decide (0x61#8 ≤ c) && decide (c ≤ 0x7a#8))

/-- The cases of `annex_encode_char`: `-`, `.`, `_`, `~`, `:`, `&`, `=`, `;` and `/`. -/
def plainChars : List Byte := [0x2d#8, 0x2e#8, 0x5f#8, 0x7e#8, 0x3a#8, 0x26#8, 0x3d#8, 0x3b#8, 0x2f#8]

/-- `annex_encode_char`. -/
def annexEncodeChar (c : Byte) : List Byte :=
  if isalnum c then [c]
  else if plainChars.contains c then [c]
  else hexEscape c

/-- What is written for the UTF-8 encoding of a code point. -/
def encodeOctets (octets : List Byte) : List Byte :=
  match octets with
  | [c] => annexEncodeChar c
  | octets => octets.flatMap hexEscape

/-- The loop of `annex_encode_path`, with what is written. The first argument bounds the number of steps; the result is
null for `has_error`. -/
def encodePathLoop (capacity : Nat) : Nat → List Byte → List Byte → Except Fault (Option (List Byte))
  | _, [], encoded => .ok (some encoded)
  | 0, _ :: _, _ => .ok none
  | steps + 1, b :: s, encoded =>
    match readPairedCodePoint (b :: s) with
    | none => .ok none
    | some (codePoint, s) =>
      match litCodePointToUtf8 codePoint with
      | none => .ok none
      | some octets => do
        let encoded ← write capacity encoded (encodeOctets octets)
        encodePathLoop capacity steps s encoded

/-- `encoded_capacity`. -/
def encodedCapacity (prefixLen pathLen : BitVec 32) : BitVec 32 := prefixLen + pathLen * 3#32

section

variable (cfg : Jmem.Scratch.Config) (fallback : BitVec 32 → Nat) (allocator : Jmem.Scratch.Allocator)

/-- `annex_encode_path`. -/
def annexEncodePath (path urlPrefix : List Byte) : Except Fault (Option (List Byte)) :=
  let capacity := encodedCapacity (BitVec.ofNat 32 urlPrefix.length) (BitVec.ofNat 32 path.length)
  if (Jmem.Scratch.alloc cfg fallback allocator capacity).1 = 0 then .ok none
  else do
    let encoded ← write capacity.toNat [] urlPrefix
    encodePathLoop capacity.toNat path.length path encoded

/-- `FILE_URL_ENCODE_PREFIX_NIX`: `file://`. -/
def fileUrlEncodePrefixNix : List Byte := [0x66#8, 0x69#8, 0x6c#8, 0x65#8, 0x3a#8, 0x2f#8, 0x2f#8]

/-- `jjsp_path_is_separator`. -/
def jjspPathIsSeparator (ch : Byte) : Bool := ch == 0x2f#8

/-- `annex_path_to_file_url`. The result is null for `ECMA_VALUE_EMPTY`. -/
def annexPathToFileUrl : Value → Except Fault (Option (List Byte))
  | .other => .ok none
  | .string [] => .ok none
  | .string (b :: path) =>
    if jjspPathIsSeparator b then annexEncodePath cfg fallback allocator (b :: path) fileUrlEncodePrefixNix else .ok none

end

/-! ## Escapes -/

/-- The characters that stand for themselves in a file URL. -/
def unescaped (c : Byte) : Bool := isalnum c || plainChars.contains c

theorem hexEscape_eq (c : Byte) : hexEscape c = Percent.escape c := by
  have key : ∀ c : Byte, hexEscape c = Percent.escape c := by decide +kernel
  exact key c

theorem annexEncodeChar_eq (c : Byte) : annexEncodeChar c = Percent.encodeByte unescaped c := by
  rw [annexEncodeChar, hexEscape_eq, Percent.encodeByte, unescaped]
  cases isalnum c with
  | true => rfl
  | false =>
    cases plainChars.contains c with
    | true => rfl
    | false => rfl

theorem unescaped_ascii (c : Byte) (h : unescaped c = true) : c.toNat < 0x80 := by
  have key : ∀ c : Byte, unescaped c = true → c.toNat < 0x80 := by decide +kernel
  exact key c h

theorem unescaped_sign : unescaped Percent.sign = false := by decide

theorem encodeOctets_eq (c : Point) : encodeOctets c.encode = Percent.encode unescaped c.encode := by
  have hcharacter : ∀ octets, encodeOctets octets = Percent.encodeCharacter unescaped octets := by
    intro octets
    have hescape : octets.flatMap hexEscape = octets.flatMap Percent.escape :=
      List.flatMap_congr fun b _ => hexEscape_eq b
    cases octets with
    | nil => rfl
    | cons b octets =>
      cases octets with
      | nil => exact annexEncodeChar_eq b
      | cons c octets => exact hescape
  rw [hcharacter, Percent.encodeCharacter_eq unescaped_ascii]

/-! ## The loop -/

/-- What is written for code points. -/
def urlText (cs : List Point) : List Byte := Percent.encode unescaped (utf8 cs)

theorem urlText_nil : urlText [] = [] := rfl

theorem urlText_cons (c : Point) (cs : List Point) : urlText (c :: cs) = encodeOctets c.encode ++ urlText cs := by
  rw [urlText, utf8_cons, Percent.encode_append, encodeOctets_eq]
  rfl

theorem write_eq {capacity : Nat} {encoded bytes : List Byte} :
    (encoded.length + bytes.length ≤ capacity → write capacity encoded bytes = .ok (encoded ++ bytes)) ∧
      (¬encoded.length + bytes.length ≤ capacity → write capacity encoded bytes = .error .overrun) :=
  ⟨fun h => if_pos h, fun h => if_neg h⟩

/-- The loop writes the code points up to the first lone surrogate, if they fit. -/
theorem encodePathLoop_eq {capacity steps : Nat} {us : List CodeUnit} {encoded : List Byte}
    (hsteps : (cesu8 us).length ≤ steps) (hbelow : encoded.length ≤ capacity) :
    encodePathLoop capacity steps (cesu8 us) encoded =
      if encoded.length + (urlText (scalars us)).length ≤ capacity then
        .ok (if scalars us = points us then some (encoded ++ urlText (points us)) else none)
      else .error .overrun := by
  generalize hcs : points us = cs
  induction cs generalizing us steps encoded with
  | nil =>
    have hus := points_nil hcs
    have hscalars : scalars us = [] := by rw [scalars, hcs]; rfl
    have hfits : encoded.length + (urlText []).length ≤ capacity := hbelow
    rw [hscalars, if_pos rfl, hus, if_pos hfits, urlText_nil, List.append_nil, cesu8_nil, encodePathLoop]
  | cons c cs ih =>
    obtain ⟨hscalar, hlone⟩ := readPaired_points hcs
    have hne : cesu8 us ≠ [] := by
      intro hnil
      cases us with
      | nil => cases hcs
      | cons u us => exact cesu8_ne_nil (List.cons_ne_nil u us) hnil
    have hpos := List.length_pos_iff.mpr hne
    obtain ⟨b, s, hs⟩ := List.exists_cons_of_ne_nil hne
    obtain ⟨steps, rfl⟩ : ∃ n, steps = n + 1 := ⟨steps - 1, by omega⟩
    by_cases hc : IsScalar c
    · obtain ⟨cp, vs, hread, hcp, hvs⟩ := hscalar hc
      have hle : cp.toNat ≤ 0x10FFFF := by
        have hlt := c.isLt
        omega
      have hencode : litCodePointToUtf8 cp = some c.encode := by
        rw [litCodePointToUtf8_eq hle, hcp]
        rfl
      have hpoints : points us = c :: points vs := by rw [hcs, hvs]
      have hscalars := scalars_cons hpoints hc
      have hrest := length_rest hpoints
      have hstep : encodePathLoop capacity (steps + 1) (cesu8 us) encoded =
          (write capacity encoded (encodeOctets c.encode)).bind fun encoded =>
            encodePathLoop capacity steps (cesu8 vs) encoded := by
        rw [hs] at hread ⊢
        rw [encodePathLoop, hread]
        dsimp only
        rw [hencode]
        rfl
      rw [hstep, hscalars, urlText_cons, List.length_append]
      by_cases hfits : encoded.length + (encodeOctets c.encode).length ≤ capacity
      · have happend : (encoded ++ encodeOctets c.encode).length = encoded.length + (encodeOctets c.encode).length :=
          List.length_append
        rw [write_eq.1 hfits, Except.bind, ih (by omega) (by omega) hvs, happend, Nat.add_assoc, urlText_cons,
          List.append_assoc]
        have hsame : (c :: scalars vs = c :: cs) ↔ (scalars vs = cs) := by
          constructor
          · intro h
            exact (List.cons.inj h).2
          · intro h
            rw [h]
        rw [if_congr hsame rfl rfl]
      · rw [write_eq.2 hfits, if_neg (by omega)]
        rfl
    · have hnone := hlone hc
      have hfits : encoded.length + (urlText []).length ≤ capacity := hbelow
      rw [hs] at hnone ⊢
      rw [encodePathLoop, hnone, scalars_lone hcs hc, if_pos hfits, if_neg (List.cons_ne_nil c cs).symm]

/-! ## URLs of paths -/

/-- The size of the escapes of code points. -/
def escapedSize (cs : List Point) : Nat := ((utf8 cs).map fun b => if unescaped b then 1 else 3).sum

theorem length_urlText (cs : List Point) : (urlText cs).length = escapedSize cs := by
  rw [urlText, escapedSize, Percent.encode, List.length_flatMap]
  exact congrArg (fun f => (List.map f (utf8 cs)).sum) (funext Percent.length_encodeByte)

/-- The code points of a string take no more bytes in UTF-8 than in CESU-8. -/
theorem escapedSize_le (us : List CodeUnit) : escapedSize (scalars us) ≤ (cesu8 us).length * 3 := by
  have hinit : scalars us <+: points us := List.takeWhile_prefix _
  obtain ⟨rest, hrest⟩ := hinit
  have hlen := length_utf8_points us
  have hurl : (Percent.encode unescaped (utf8 (scalars us))).length ≤ (utf8 (scalars us)).length * 3 :=
    Percent.length_encode_le _
  rw [← hrest, utf8_append, List.length_append] at hlen
  rw [← length_urlText, urlText]
  omega

section

variable (cfg : Jmem.Scratch.Config) (fallback : BitVec 32 → Nat) (allocator : Jmem.Scratch.Allocator)

/-- The capacity of the buffer for a path. -/
def capacityOf (path : List CodeUnit) : BitVec 32 := encodedCapacity 7#32 (BitVec.ofNat 32 (cesu8 path).length)

theorem toNat_capacityOf (path : List CodeUnit) : (capacityOf path).toNat = (7 + (cesu8 path).length * 3) % 2 ^ 32 := by
  rw [capacityOf, encodedCapacity, BitVec.toNat_add, BitVec.toNat_mul, BitVec.toNat_ofNat]
  show (7 + (cesu8 path).length % 2 ^ 32 * 3 % 2 ^ 32) % 2 ^ 32 = _
  omega

/-- The allocator has a buffer for the path. -/
def Granted (path : List CodeUnit) : Prop := (Jmem.Scratch.alloc cfg fallback allocator (capacityOf path)).1 ≠ 0

instance (path : List CodeUnit) : Decidable (Granted cfg fallback allocator path) :=
  inferInstanceAs (Decidable ((Jmem.Scratch.alloc cfg fallback allocator (capacityOf path)).1 ≠ 0))

/-- An absolute path. -/
def Absolute (path : List CodeUnit) : Prop := path.head? = some 0x2f#16

/-- The URL of an absolute path whose surrogates are in pairs decodes to the UTF-8 encoding of the path, no other path
has the same URL, other paths have none, and nothing is written outside the buffer. -/
def FileUrlExact (path : List CodeUnit) : Prop :=
  ∃ result, annexPathToFileUrl cfg fallback allocator (.string (cesu8 path)) = .ok result ∧
    (result = none ↔ ¬(Absolute path ∧ Paired path)) ∧
    ∀ url, result = some url →
      url.length ≤ (capacityOf path).toNat ∧
      (∃ text, url = fileUrlEncodePrefixNix ++ text ∧ (∀ b ∈ text, b.toNat < 0x80) ∧
        Percent.decode text = some (utf8 (points path))) ∧
      ∀ fallback' allocator' other,
        annexPathToFileUrl cfg fallback' allocator' (.string (cesu8 other)) = .ok (some url) → other = path

/-- An absolute path needs a buffer that its code points before the first lone surrogate fit in; without one, only a
path with a lone surrogate has the result that it should have. -/
def Fits (path : List CodeUnit) : Prop :=
  Absolute path →
    (Granted cfg fallback allocator path ∧ 7 + escapedSize (scalars path) ≤ (capacityOf path).toNat) ∨
      (¬Granted cfg fallback allocator path ∧ ¬Paired path)

variable {cfg fallback allocator} {path : List CodeUnit}

theorem separator_iff {u : CodeUnit} {us : List CodeUnit} {b : Byte} {s : List Byte} (h : cesu8 (u :: us) = b :: s) :
    jjspPathIsSeparator b = true ↔ u = 0x2f#16 := by
  rw [jjspPathIsSeparator, beq_iff_eq]
  rw [cesu8_cons] at h
  constructor
  · intro hb
    have hslash : b.toNat < 0x80 := by rw [hb]; decide
    have hascii : (unitPoint u).encode = [b] := (Point.encode_of_ascii hslash h.symm).1
    have hval := (unitPoint u).value_encode
    rw [hascii, hb] at hval
    exact BitVec.eq_of_toNat_eq hval.symm
  · intro hu
    rw [hu] at h
    exact (List.cons.inj h).1.symm

/-- What the function does for a path that is not absolute. -/
theorem fileUrl_relative (h : ¬Absolute path) :
    annexPathToFileUrl cfg fallback allocator (.string (cesu8 path)) = .ok none := by
  cases path with
  | nil => rfl
  | cons u us =>
    have hne : cesu8 (u :: us) ≠ [] := cesu8_ne_nil (List.cons_ne_nil u us)
    obtain ⟨b, s, hs⟩ := List.exists_cons_of_ne_nil hne
    have hsep : ¬jjspPathIsSeparator b = true := by
      intro hb
      exact h (by rw [Absolute, (separator_iff hs).mp hb]; rfl)
    rw [hs, annexPathToFileUrl, if_neg hsep]

theorem fileUrl_absolute (h : Absolute path) :
    annexPathToFileUrl cfg fallback allocator (.string (cesu8 path)) =
      if Granted cfg fallback allocator path then
        if 7 + escapedSize (scalars path) ≤ (capacityOf path).toNat then
          .ok (if scalars path = points path then some (fileUrlEncodePrefixNix ++ urlText (points path)) else none)
        else .error .overrun
      else .ok none := by
  cases path with
  | nil => cases h
  | cons u us =>
    have hu : u = 0x2f#16 := Option.some.inj h
    have hne : cesu8 (u :: us) ≠ [] := cesu8_ne_nil (List.cons_ne_nil u us)
    obtain ⟨b, s, hs⟩ := List.exists_cons_of_ne_nil hne
    have hpath : annexPathToFileUrl cfg fallback allocator (.string (cesu8 (u :: us))) =
        annexEncodePath cfg fallback allocator (cesu8 (u :: us)) fileUrlEncodePrefixNix := by
      rw [hs, annexPathToFileUrl, if_pos ((separator_iff hs).mpr hu)]
    have hcapacity : encodedCapacity (BitVec.ofNat 32 fileUrlEncodePrefixNix.length)
        (BitVec.ofNat 32 (cesu8 (u :: us)).length) = capacityOf (u :: us) := rfl
    rw [hpath, annexEncodePath, hcapacity]
    by_cases hgranted : Granted cfg fallback allocator (u :: us)
    · rw [if_neg hgranted, if_pos hgranted]
      by_cases hfits : 7 ≤ (capacityOf (u :: us)).toNat
      · have hwrite : write (capacityOf (u :: us)).toNat [] fileUrlEncodePrefixNix = .ok fileUrlEncodePrefixNix :=
          write_eq.1 hfits
        have hloop := encodePathLoop_eq (Nat.le_refl (cesu8 (u :: us)).length) (show
          fileUrlEncodePrefixNix.length ≤ _ from hfits)
        rw [length_urlText] at hloop
        rw [hwrite]
        exact hloop
      · have hwrite : write (capacityOf (u :: us)).toNat [] fileUrlEncodePrefixNix = .error .overrun :=
          write_eq.2 hfits
        rw [hwrite, if_neg (by omega)]
        rfl
    · rw [if_pos (Decidable.not_not.mp hgranted), if_neg hgranted]

/-- The URL of a path, when there is one. -/
theorem fileUrl_some {url : List Byte}
    (h : annexPathToFileUrl cfg fallback allocator (.string (cesu8 path)) = .ok (some url)) :
    Absolute path ∧ Paired path ∧ url = fileUrlEncodePrefixNix ++ urlText (points path) ∧
      url.length ≤ (capacityOf path).toNat := by
  by_cases habs : Absolute path
  · rw [fileUrl_absolute habs] at h
    split at h
    · split at h
      · rename_i hfits
        split at h
        · rename_i hall
          cases h
          have hsize := length_urlText (scalars path)
          refine ⟨habs, (paired_iff_scalars path).mpr hall, rfl, ?_⟩
          rw [List.length_append, ← hall, hsize]
          exact hfits
        · cases h
      · cases h
    · cases h
  · rw [fileUrl_relative habs] at h
    cases h

theorem decode_urlText (cs : List Point) : Percent.decode (urlText cs) = some (utf8 cs) :=
  Percent.decode_encode unescaped_sign _

/-- The UTF-8 encoding determines the path. -/
theorem utf8_points_inj {us vs : List CodeUnit} (h : utf8 (points us) = utf8 (points vs)) : us = vs := by
  have hseq : ∀ us : List CodeUnit, ∀ c ∈ (points us).map Point.encode, Sequence 0x90 c := by
    intro us c hc
    obtain ⟨p, -, rfl⟩ := List.mem_map.mp hc
    exact p.sequence
  have hmap := flatten_inj (hseq us) (hseq vs) h
  have hpoints : points us = points vs := by
    refine List.map_injective_iff.mpr ?_ hmap
    intro p q hpq
    have hval := p.value_encode
    rw [hpq, q.value_encode] at hval
    exact Fin.ext hval.symm
  rw [← units_points us, ← units_points vs, hpoints]

theorem fileUrl_inj {url : List Byte} {fallback' : BitVec 32 → Nat} {allocator' : Jmem.Scratch.Allocator}
    {other : List CodeUnit} (h : annexPathToFileUrl cfg fallback allocator (.string (cesu8 path)) = .ok (some url))
    (h' : annexPathToFileUrl cfg fallback' allocator' (.string (cesu8 other)) = .ok (some url)) : other = path := by
  obtain ⟨-, -, hurl, -⟩ := fileUrl_some h
  obtain ⟨-, -, hurl', -⟩ := fileUrl_some h'
  rw [hurl] at hurl'
  have htext := List.append_cancel_left hurl'
  have hdecode := decode_urlText (points path)
  rw [htext, decode_urlText] at hdecode
  exact utf8_points_inj (Option.some.inj hdecode)

/-- What the function returns is right; it remains that it returns at all. -/
theorem fileUrlExact_iff_result : FileUrlExact cfg fallback allocator path ↔
    ∃ result, annexPathToFileUrl cfg fallback allocator (.string (cesu8 path)) = .ok result ∧
      (result = none ↔ ¬(Absolute path ∧ Paired path)) := by
  constructor
  · intro h
    obtain ⟨result, hresult, hnone, -⟩ := h
    exact ⟨result, hresult, hnone⟩
  · intro h
    obtain ⟨result, hresult, hnone⟩ := h
    refine ⟨result, hresult, hnone, ?_⟩
    intro url hurl
    rw [hurl] at hresult
    obtain ⟨-, -, htext, hlen⟩ := fileUrl_some hresult
    refine ⟨hlen, ⟨_, htext, ?_, decode_urlText _⟩, fun fallback' allocator' other h' => fileUrl_inj hresult h'⟩
    intro b hb
    exact Percent.encode_ascii unescaped_ascii hb

end

/-- A path has the right URL when the buffer for it is large enough. -/
theorem fileUrl_iff (cfg : Jmem.Scratch.Config) (fallback : BitVec 32 → Nat) (allocator : Jmem.Scratch.Allocator)
    (path : List CodeUnit) : FileUrlExact cfg fallback allocator path ↔ Fits cfg fallback allocator path := by
  rw [fileUrlExact_iff_result, Fits]
  by_cases habs : Absolute path
  · rw [fileUrl_absolute habs, paired_iff_scalars]
    by_cases hgranted : Granted cfg fallback allocator path
    · rw [if_pos hgranted]
      by_cases hfits : 7 + escapedSize (scalars path) ≤ (capacityOf path).toNat
      · rw [if_pos hfits]
        refine ⟨fun _ _ => .inl ⟨hgranted, hfits⟩, fun _ => ⟨_, rfl, ?_⟩⟩
        by_cases hall : scalars path = points path
        · rw [if_pos hall]
          constructor
          · intro hnone
            cases hnone
          · intro hnot
            exact absurd ⟨habs, hall⟩ hnot
        · rw [if_neg hall]
          exact ⟨fun _ hboth => hall hboth.2, fun _ => rfl⟩
      · rw [if_neg hfits]
        constructor
        · intro h
          obtain ⟨_, hresult, -⟩ := h
          cases hresult
        · intro h
          cases h habs with
          | inl hboth => exact absurd hboth.2 hfits
          | inr hboth => exact absurd hgranted hboth.1
    · rw [if_neg hgranted]
      constructor
      · intro h _
        obtain ⟨result, hresult, hnone⟩ := h
        cases hresult
        exact .inr ⟨hgranted, fun hall => hnone.mp rfl ⟨habs, hall⟩⟩
      · intro h
        cases h habs with
        | inl hboth => exact absurd hboth.1 hgranted
        | inr hboth => exact ⟨none, rfl, fun _ hgood => hboth.2 hgood.2, fun _ => rfl⟩
  · rw [fileUrl_relative habs]
    exact ⟨fun _ h => absurd h habs, fun _ => ⟨none, rfl, fun _ hgood => habs hgood.1, fun _ => rfl⟩⟩

/-- The size of a path may be anything below a third of the numbers of 32 bits. -/
theorem fileUrl_short {cfg : Jmem.Scratch.Config} {fallback : BitVec 32 → Nat} {allocator : Jmem.Scratch.Allocator}
    {path : List CodeUnit} (hgranted : Granted cfg fallback allocator path) (hshort : 7 + (cesu8 path).length * 3 < 2 ^ 32) :
    FileUrlExact cfg fallback allocator path := by
  rw [fileUrl_iff]
  intro _
  have hsize := escapedSize_le path
  refine .inl ⟨hgranted, ?_⟩
  rw [toNat_capacityOf, Nat.mod_eq_of_lt hshort]
  omega

/-- An absolute path of 1431655764 bytes, for which the capacity is 3. -/
def longPath : List CodeUnit := 0x2f#16 :: List.replicate 1431655763 0x61#16

theorem length_longPath : (cesu8 longPath).length = 1431655764 := by
  have hrest := length_cesu8_replicate 1431655763 0x61#16
  rw [longPath, cesu8_cons, List.length_append, hrest]
  rfl

/-- The prefix alone is longer than the buffer of that path. -/
theorem longPath_overrun :
    ¬FileUrlExact ⟨0, 0#32, true, fun h => absurd rfl h⟩ (fun _ => 0x1000) ⟨0, 0#32, 0, 0#32, []⟩ longPath := by
  have hcapacity : capacityOf longPath = 3#32 := by
    apply BitVec.eq_of_toNat_eq
    rw [toNat_capacityOf, length_longPath]
    rfl
  have hgranted : Granted ⟨0, 0#32, true, fun h => absurd rfl h⟩ (fun _ => 0x1000) ⟨0, 0#32, 0, 0#32, []⟩ longPath := by
    rw [Granted, hcapacity]
    decide
  have habs : Absolute longPath := rfl
  have hfits : ∀ n, ¬7 + n ≤ (3#32).toNat := by
    intro n
    show ¬7 + n ≤ 3
    omega
  rw [fileUrlExact_iff_result, fileUrl_absolute habs, if_pos hgranted, hcapacity, if_neg (hfits _)]
  intro h
  obtain ⟨_, hresult, -⟩ := h
  cases hresult

end Annex
end JJS
