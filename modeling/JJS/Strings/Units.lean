import JJS.Strings.Cesu8
import Mathlib.Data.List.GetD

/-!
# JJS.Strings.Units

The code units of a CESU-8 string: what the readers return from the front and from the back, the length, the code unit
at an index, and the order of strings. UTF-16 that is converted to CESU-8 is read back as it was, when the measured
size fits in 32 bits.
-/

namespace JJS
namespace Strings

open Utf8 Lit

/-! ## From the front -/

theorem readCodeUnits_cesu8 {steps : Nat} {us : List CodeUnit} (h : us.length ≤ steps) :
    readCodeUnits steps (cesu8 us) = some us := by
  induction us generalizing steps with
  | nil =>
    cases steps with
    | zero => rfl
    | succ steps => rfl
  | cons u us ih =>
    rw [List.length_cons] at h
    cases steps with
    | zero => omega
    | succ steps =>
      have hread := litReadCodeUnitFromCesu8_append u (cesu8 us)
      have hdrop : (encode u.toNat ++ cesu8 us).drop (encode u.toNat).length = cesu8 us := List.drop_left
      rw [cesu8_cons]
      cases hs : encode u.toNat ++ cesu8 us with
      | nil =>
        have hpos := length_encode_pos u.toNat
        have hlen := congrArg List.length hs
        rw [List.length_append, List.length_nil] at hlen
        omega
      | cons b s =>
        rw [hs] at hread hdrop
        rw [readCodeUnits, hread, Option.bind_eq_bind, Option.bind_some]
        dsimp only
        rw [hdrop, ih (by omega)]
        rfl

theorem codeUnitAt_cesu8 (us : List CodeUnit) (offset : Nat) : litUtf8StringCodeUnitAt (cesu8 us) offset = us[offset]? := by
  induction us generalizing offset with
  | nil =>
    cases offset with
    | zero => rfl
    | succ offset => rfl
  | cons u us ih =>
    have hread := litReadCodeUnitFromCesu8_append u (cesu8 us)
    cases offset with
    | zero =>
      rw [cesu8_cons, litUtf8StringCodeUnitAt, hread]
      rfl
    | succ offset =>
      rw [cesu8_cons, litUtf8StringCodeUnitAt, hread, Option.bind_eq_bind, Option.bind_some, List.getElem?_cons_succ,
        ← ih offset]
      dsimp only
      rw [List.drop_left]

/-- Strings are compared by their code units. -/
theorem compareLoop_cesu8 {steps : Nat} (us vs : List CodeUnit) (h : us.length < steps) :
    compareRelationalLoop steps (cesu8 us) (cesu8 vs) = some (decide (us < vs)) := by
  induction us generalizing vs steps with
  | nil =>
    cases steps with
    | zero => cases h
    | succ steps =>
      cases vs with
      | nil => rfl
      | cons v vs =>
        have hne : cesu8 (v :: vs) ≠ [] := cesu8_ne_nil (List.cons_ne_nil v vs)
        rw [cesu8_nil, compareRelationalLoop, List.isEmpty_eq_false_iff.mpr hne]
        · rfl
        · exact Nat.succ_ne_zero steps
  | cons u us ih =>
    have hne : cesu8 (u :: us) ≠ [] := cesu8_ne_nil (List.cons_ne_nil u us)
    rw [List.length_cons] at h
    cases steps with
    | zero => omega
    | succ steps =>
      cases vs with
      | nil =>
        obtain ⟨b, s, hs⟩ := List.exists_cons_of_ne_nil hne
        have hnot : ¬u :: us < [] := List.not_lt_nil _
        rw [hs, cesu8_nil, compareRelationalLoop, decide_eq_false hnot]
        exact Nat.succ_ne_zero steps
      | cons v vs =>
        have hne' : cesu8 (v :: vs) ≠ [] := cesu8_ne_nil (List.cons_ne_nil v vs)
        have hread := litReadCodeUnitFromCesu8_append u (cesu8 us)
        have hread' := litReadCodeUnitFromCesu8_append v (cesu8 vs)
        have hdrop : (cesu8 (u :: us)).drop (encode u.toNat).length = cesu8 us := List.drop_left
        have hdrop' : (cesu8 (v :: vs)).drop (encode v.toNat).length = cesu8 vs := List.drop_left
        rw [← cesu8_cons] at hread hread'
        obtain ⟨a, s, hs⟩ := List.exists_cons_of_ne_nil hne
        obtain ⟨b, t, ht⟩ := List.exists_cons_of_ne_nil hne'
        rw [hs] at hread hdrop
        rw [ht] at hread' hdrop'
        rw [hs, ht, compareRelationalLoop, hread, hread', Option.bind_eq_bind, Option.bind_some]
        dsimp only
        rw [Option.bind_some]
        dsimp only
        rw [hdrop, hdrop']
        by_cases hlt : u < v
        · rw [if_pos hlt, decide_eq_true (List.cons_lt_cons_iff.mpr (Or.inl hlt))]
        · rw [if_neg hlt]
          by_cases hgt : v < u
          · have hnot : ¬u :: us < v :: vs := by
              rw [List.cons_lt_cons_iff]
              intro hcons
              cases hcons with
              | inl hl => exact hlt hl
              | inr hr => exact BitVec.lt_irrefl u (by rw [← hr.1] at hgt; exact hgt)
            rw [if_pos hgt, decide_eq_false hnot]
          · have heq : u = v := BitVec.le_antisymm (BitVec.not_lt.mp hgt) (BitVec.not_lt.mp hlt)
            have hiff : u :: us < v :: vs ↔ us < vs := by
              rw [List.cons_lt_cons_iff]
              constructor
              · intro hcons
                exact (hcons.resolve_left hlt).2
              · intro hrest
                exact Or.inr ⟨heq, hrest⟩
            rw [if_neg hgt, ih vs (by omega), decide_eq_decide.mpr hiff]

/-! ## From the back -/

/-- Only the bytes behind the first one of a code unit are extra bytes. -/
theorem encode_bytes (u : CodeUnit) : ∃ c t, encode u.toNat = c :: t ∧ ¬Cont c ∧ ∀ b ∈ t, Cont b := by
  have hseq : Sequence 0x90 (encode u.toNat) := (unitPoint u).sequence
  generalize encode u.toNat = s at hseq
  cases hseq with
  | one ha =>
    refine ⟨_, _, rfl, ?_, ?_⟩
    · intro hc
      have := hc.1
      omega
    · intro b hb
      cases hb
  | @two c b ha ha' hb =>
    refine ⟨_, _, rfl, ?_, ?_⟩
    · intro hc
      have := hc.2
      omega
    · intro x hx
      rw [List.mem_singleton.mp hx]
      exact hb
  | @three c b d ha ha' hb hd _ =>
    refine ⟨_, _, rfl, ?_, ?_⟩
    · intro hc
      have := hc.2
      omega
    · intro x hx
      cases List.mem_cons.mp hx with
      | inl h => rw [h]; exact hb
      | inr h => rw [List.mem_singleton.mp h]; exact hd
  | @four c b d e ha ha' hb hd he _ _ =>
    refine ⟨_, _, rfl, ?_, ?_⟩
    · intro hc
      have := hc.2
      omega
    · intro x hx
      cases List.mem_cons.mp hx with
      | inl h => rw [h]; exact hb
      | inr h =>
        cases List.mem_cons.mp h with
        | inl h => rw [h]; exact hd
        | inr h => rw [List.mem_singleton.mp h]; exact he

/-- From inside a code unit or from its end, the cursor goes back to its first byte. -/
theorem litUtf8Decr_bytes {p : List Byte} {c : Byte} {t : List Byte} (r : List Byte) (hc : ¬Cont c)
    (ht : ∀ b ∈ t, Cont b) (k : Nat) (hk : k ≤ t.length) :
    litUtf8Decr (p ++ c :: t ++ r) (p.length + 1 + k) = some p.length := by
  induction k with
  | zero =>
    have hget : (p ++ c :: t ++ r).getD p.length 0#8 = c := by
      rw [List.append_assoc, List.getD_append_right _ _ _ _ (Nat.le_refl _), Nat.sub_self]
      rfl
    rw [Nat.add_zero, litUtf8Decr, hget, if_neg]
    exact fun h => hc ((isExtraByte_iff c).mp h)
  | succ k ih =>
    have hlt : k < t.length := hk
    have hget : (p ++ c :: t ++ r).getD (p.length + 1 + k) 0#8 = t[k] := by
      rw [List.append_assoc, List.getD_append_right _ _ _ _ (by omega), Nat.add_assoc, Nat.add_sub_cancel_left,
        Nat.add_comm 1 k, List.cons_append, List.getD_cons_succ, List.getD_append _ _ _ _ hlt,
        List.getD_eq_getElem _ _ hlt]
    rw [← Nat.add_assoc, litUtf8Decr, hget, if_pos ((isExtraByte_iff _).mpr (ht _ (List.getElem_mem hlt)))]
    exact ih (Nat.le_of_lt hlt)

theorem litCesu8ReadPrev_cesu8 (us : List CodeUnit) (u : CodeUnit) (r : List Byte) :
    litCesu8ReadPrev (cesu8 (us ++ [u]) ++ r) (cesu8 (us ++ [u])).length = some ((cesu8 us).length, u) := by
  obtain ⟨c, t, hencode, hc, ht⟩ := encode_bytes u
  have hsnoc : cesu8 (us ++ [u]) = cesu8 us ++ encode u.toNat := by
    rw [cesu8_append, cesu8_cons, cesu8_nil, List.append_nil]
  have hdecr := litUtf8Decr_bytes r hc ht t.length (Nat.le_refl _) (p := cesu8 us)
  have hlen : (cesu8 us).length + 1 + t.length = (cesu8 us ++ encode u.toNat).length := by
    rw [List.length_append, hencode, List.length_cons]
    omega
  rw [hlen, ← hencode] at hdecr
  rw [hsnoc, litCesu8ReadPrev, hdecr, Option.bind_eq_bind, Option.bind_some, List.append_assoc, List.drop_left,
    litReadCodeUnitFromCesu8_append]
  rfl

theorem readCodeUnitsBack_cesu8 {steps : Nat} (us : List CodeUnit) (r : List Byte) (h : us.length ≤ steps) :
    readCodeUnitsBack (cesu8 us ++ r) steps (cesu8 us).length = some us.reverse := by
  induction us using List.reverseRecOn generalizing steps r with
  | nil =>
    cases steps with
    | zero => rfl
    | succ steps => rfl
  | append_singleton us u ih =>
    have hread := litCesu8ReadPrev_cesu8 us u r
    have hsnoc : cesu8 (us ++ [u]) = cesu8 us ++ encode u.toNat := by
      rw [cesu8_append, cesu8_cons, cesu8_nil, List.append_nil]
    have hpos := length_encode_pos u.toNat
    have hlen := congrArg List.length hsnoc
    rw [List.length_append, List.length_singleton] at h
    rw [List.length_append] at hlen
    cases steps with
    | zero => omega
    | succ steps =>
      cases hp : (cesu8 (us ++ [u])).length with
      | zero => omega
      | succ position =>
        rw [hp] at hread
        have hrest := @ih steps (encode u.toNat ++ r) (by omega)
        rw [← List.append_assoc, ← hsnoc] at hrest
        rw [readCodeUnitsBack, hread, Option.bind_eq_bind, Option.bind_some]
        dsimp only
        rw [hrest, List.reverse_append]
        rfl

/-! ## The claim of the format -/

/-- A valid string is the encoding of one sequence of code units, and the readers agree on it. -/
structure ReadsAs (s : List Byte) (us : List CodeUnit) : Prop where
  unique : ∀ vs : List CodeUnit, s = vs.flatMap litCodeUnitToUtf8 → vs = us
  forward : readCodeUnits s.length s = some us
  backward : readCodeUnitsBack s s.length s.length = some us.reverse
  length : litUtf8StringLength s = us.length
  at_offset : ∀ offset, litUtf8StringCodeUnitAt s offset = us[offset]?
  order : ∀ vs : List CodeUnit, litCompareUtf8StringsRelational s (vs.flatMap litCodeUnitToUtf8) = some (decide (us < vs))

theorem readsAs_cesu8 (us : List CodeUnit) : ReadsAs (cesu8 us) us where
  unique := by
    intro vs hvs
    rw [flatMap_litCodeUnitToUtf8] at hvs
    exact (cesu8_inj hvs).symm
  forward := readCodeUnits_cesu8 (length_le_cesu8 us)
  backward := by
    have hback := readCodeUnitsBack_cesu8 us [] (length_le_cesu8 us)
    rw [List.append_nil] at hback
    exact hback
  length := litUtf8StringLength_cesu8 us
  at_offset := codeUnitAt_cesu8 us
  order := by
    intro vs
    rw [flatMap_litCodeUnitToUtf8]
    exact compareLoop_cesu8 us vs (Nat.lt_succ_of_le (length_le_cesu8 us))

/-- UTF-16 code units are read back from the CESU-8 string that they are converted to. -/
def ReadBack (us : List CodeUnit) : Prop :=
  let out := litConvertUtf16StringToCesu8String us (litUtf16AsCesu8Measure us).2
  readCodeUnits out.length out = some us

/-- Whatever the size of the buffer, it holds encodings of code units, and no more than fit. -/
theorem convert_cesu8 (size : Nat) (cps : List CodePoint) (vs : List CodeUnit) (h : (cesu8 vs).length ≤ size) :
    ∃ ws, cps.foldl (fun out cp =>
      if out.length + (litCodePointToCesu8 cp).length ≤ size then out ++ litCodePointToCesu8 cp else out) (cesu8 vs) =
        cesu8 ws ∧ (cesu8 ws).length ≤ size := by
  induction cps generalizing vs with
  | nil => exact ⟨vs, rfl, h⟩
  | cons cp cps ih =>
    have hunits : ∃ us, litCodePointToCesu8 cp = cesu8 us := by
      rw [litCodePointToCesu8]
      split
      · exact ⟨[_], by rw [litCodeUnitToUtf8_eq, cesu8_cons, cesu8_nil, List.append_nil]⟩
      · exact ⟨[_, _], by rw [litCodeUnitToUtf8_eq, litCodeUnitToUtf8_eq, cesu8_cons, cesu8_cons, cesu8_nil, List.append_nil]⟩
    obtain ⟨us, hus⟩ := hunits
    rw [List.foldl_cons]
    split
    · rename_i hfits
      rw [hus, ← cesu8_append]
      apply ih
      rw [cesu8_append, List.length_append, ← hus]
      exact hfits
    · exact ih vs h

theorem readBack_iff (us : List CodeUnit) : ReadBack us ↔ (cesu8 us).length < 2 ^ 32 := by
  rw [ReadBack, measure_size]
  constructor
  · intro h
    obtain ⟨ws, hws, hsize⟩ := convert_cesu8 ((cesu8 us).length % 2 ^ 32) (utf16CodePoints us) [] (Nat.zero_le _)
    have hout : litConvertUtf16StringToCesu8String us ((cesu8 us).length % 2 ^ 32) = cesu8 ws := hws
    rw [hout, readCodeUnits_cesu8 (length_le_cesu8 ws)] at h
    rw [Option.some.inj h] at hsize
    exact Nat.lt_of_le_of_lt hsize (Nat.mod_lt _ (by decide))
  · intro h
    have hout : litConvertUtf16StringToCesu8String us (cesu8 us).length = cesu8 us := by
      have heq := @convert_eq (cesu8 us).length (utf16CodePoints us) []
        (by rw [cesu8_utf16CodePoints, List.length_nil, Nat.zero_add])
      rw [cesu8_utf16CodePoints, List.nil_append] at heq
      exact heq
    rw [Nat.mod_eq_of_lt h, hout]
    exact readCodeUnits_cesu8 (length_le_cesu8 us)

/-- CESU-8 is a faithful encoding of UTF-16: for a byte string and for code units. -/
structure Faithful (s : List Byte) (us : List CodeUnit) : Prop where
  accepts : Accepts s
  reads : ∀ vs : List CodeUnit, s = vs.flatMap litCodeUnitToUtf8 → ReadsAs s vs
  readBack : ReadBack us

/-- The encoding is faithful if and only if the byte string is not cut off at the end of 4 GiB, and the size of the
encoded code units fits in 32 bits. -/
theorem faithful_iff (s : List Byte) (us : List CodeUnit) (hs : s.length < 2 ^ 32) :
    Faithful s us ↔ ¬EndsInside s ∧ (cesu8 us).length < 2 ^ 32 := by
  constructor
  · intro h
    exact ⟨(accepts_iff hs).mp h.accepts, (readBack_iff us).mp h.readBack⟩
  · intro h
    refine ⟨(accepts_iff hs).mpr h.1, ?_, (readBack_iff us).mpr h.2⟩
    intro vs hvs
    rw [hvs, flatMap_litCodeUnitToUtf8]
    exact readsAs_cesu8 vs

/-- Only the two greatest sizes leave room for a character that is cut off. -/
theorem not_endsInside {s : List Byte} (h : s.length < 2 ^ 32 - 2) : ¬EndsInside s := by
  intro hinside
  obtain ⟨us, r, rfl, c, t, extra, rfl, hlead, _, _, hend⟩ := hinside
  rw [List.length_append, List.length_cons] at h
  cases hlead with
  | inl htwo =>
    have := htwo.1
    omega
  | inr hthree =>
    have := hthree.1
    omega

theorem lone_surrogate_faithful : Faithful [0xed#8, 0xa0#8, 0x80#8] [0xd800#16] :=
  (faithful_iff _ _ (by decide)).mpr ⟨not_endsInside (by decide), by decide⟩

theorem length_cesu8_replicate (n : Nat) (u : CodeUnit) :
    (cesu8 (List.replicate n u)).length = n * (encode u.toNat).length := by
  induction n with
  | zero => rw [Nat.zero_mul]; rfl
  | succ n ih => rw [List.replicate_succ, cesu8_cons, List.length_append, ih, Nat.succ_mul, Nat.add_comm]

/-- The size of 1431655766 code units of three bytes each is measured as two. -/
theorem long_text_not_faithful : ¬Faithful [] (List.replicate 1431655766 0xffff#16) := by
  intro h
  have hlt := (readBack_iff _).mp h.readBack
  have hlen : (encode (0xffff#16 : CodeUnit).toNat).length = 3 := by decide
  rw [length_cesu8_replicate, hlen] at hlt
  omega

end Strings
end JJS
