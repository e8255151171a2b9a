import JJS.Lib.Outcome
import JJS.Regexp.Token
import JJS.Strings.Units

/-!
# JJS.Regexp.Scan

The scanner that counts the groups, on code units. It goes over the whole pattern with its own idea of escapes and
classes. `Scans` compares what it finds in front of a part of the pattern with what it finds behind it.
-/

namespace JJS
namespace Regexp

open Utf8 Lit Strings Outcome

/-! ## The scanner -/

/-- `re_count_groups` on code units. -/
def scanUnits : Bool → List CodeUnit → Nat
  | _, [] => 0
  | isCharClass, u :: us =>
    if u = 0x5c#16 then
      match us with
      | [] => 0
      | _ :: rest => scanUnits isCharClass rest
    else if u = 0x5b#16 then scanUnits true us
    else if u = 0x5d#16 then scanUnits false us
    else if u = 0x28#16 then
      match us with
      | [] => 0
      | v :: rest =>
        if v ≠ 0x3f#16 ∧ isCharClass = false then scanUnits isCharClass (v :: rest) + 1
        else scanUnits isCharClass (v :: rest)
    else scanUnits isCharClass us

/-- A code unit that the scanner goes over. -/
def Plain (u : CodeUnit) : Prop := u ≠ 0x5c#16 ∧ u ≠ 0x5b#16 ∧ u ≠ 0x5d#16 ∧ u ≠ 0x28#16

section

variable {isCharClass : Bool}

theorem scanUnits_plain {u : CodeUnit} (h : Plain u) (us : List CodeUnit) :
    scanUnits isCharClass (u :: us) = scanUnits isCharClass us := by
  rw [scanUnits.eq_def]
  dsimp only
  rw [if_neg h.1, if_neg h.2.1, if_neg h.2.2.1, if_neg h.2.2.2]

theorem scanUnits_escape (u : CodeUnit) (us : List CodeUnit) :
    scanUnits isCharClass (0x5c#16 :: u :: us) = scanUnits isCharClass us := by
  rw [scanUnits, if_pos rfl]

theorem scanUnits_open (us : List CodeUnit) : scanUnits isCharClass (0x5b#16 :: us) = scanUnits true us := by
  rw [scanUnits.eq_def]
  dsimp only
  rw [if_neg (by decide), if_pos rfl]

theorem scanUnits_close (us : List CodeUnit) : scanUnits isCharClass (0x5d#16 :: us) = scanUnits false us := by
  rw [scanUnits.eq_def]
  dsimp only
  rw [if_neg (by decide), if_neg (by decide), if_pos rfl]

theorem scanUnits_paren (v : CodeUnit) (us : List CodeUnit) :
    scanUnits isCharClass (0x28#16 :: v :: us) =
      scanUnits isCharClass (v :: us) + if v ≠ 0x3f#16 ∧ isCharClass = false then 1 else 0 := by
  rw [scanUnits.eq_def]
  dsimp only
  rw [if_neg (by decide), if_neg (by decide), if_neg (by decide), if_pos rfl]
  split
  · rfl
  · rfl

/-! ### The scanner on bytes -/

/-- The scanner goes over the bytes of characters that are not ASCII. -/
theorem countGroups_above {bytes : List Byte} (h : ∀ b ∈ bytes, 0x80 ≤ b.toNat) (steps : Nat) (r : List Byte) :
    countGroupsLoop (steps + bytes.length) isCharClass (bytes ++ r) = countGroupsLoop steps isCharClass r := by
  induction bytes with
  | nil => rfl
  | cons b bytes ih =>
    have hb := h b List.mem_cons_self
    have hne : ∀ c : Byte, c.toNat < 0x80 → b ≠ c := by
      intro c hc hbc
      rw [hbc] at hb
      omega
    rw [List.length_cons, ← Nat.add_assoc, List.cons_append, countGroupsLoop.eq_def]
    dsimp only
    rw [if_neg (hne _ (by decide)), if_neg (hne _ (by decide)), if_neg (hne _ (by decide)), if_neg (hne _ (by decide))]
    exact ih fun c hc => h c (List.mem_cons_of_mem b hc)

theorem encode_ascii {u : CodeUnit} (h : u.toNat < 0x80) : encode u.toNat = [u.setWidth 8] := by
  rw [encode, if_pos h]
  rfl

theorem encode_above {u : CodeUnit} (h : 0x80 ≤ u.toNat) : ∀ b ∈ encode u.toNat, 0x80 ≤ b.toNat := by
  have hseq : Sequence 0x90 (encode u.toNat) := (unitPoint u).sequence
  have hvalue := (unitPoint u).value_encode
  rw [unitPoint_encode] at hvalue
  generalize hs : encode u.toNat = s at hseq
  rw [hs] at hvalue
  intro b hb
  cases hseq with
  | one ha =>
    rw [value] at hvalue
    have : u.toNat = _ := hvalue.symm
    omega
  | two ha ha' hb' =>
    simp only [List.mem_cons, List.not_mem_nil, or_false] at hb
    cases hb with
    | inl h => rw [h]; omega
    | inr h => rw [h]; exact hb'.1
  | three ha ha' hb' hd he =>
    simp only [List.mem_cons, List.not_mem_nil, or_false] at hb
    rcases hb with h | h | h
    · rw [h]; omega
    · rw [h]; exact hb'.1
    · rw [h]; exact hd.1
  | four ha ha' hb' hd he _ _ =>
    simp only [List.mem_cons, List.not_mem_nil, or_false] at hb
    rcases hb with h | h | h | h
    · rw [h]; omega
    · rw [h]; exact hb'.1
    · rw [h]; exact hd.1
    · rw [h]; exact he.1

/-- The first byte of a code unit tells its size. -/
theorem charSize_encode {u : CodeUnit} {e : Byte} {t : List Byte} (h : encode u.toNat = e :: t) :
    litGetUnicodeCharSizeByUtf8FirstByte e = (encode u.toNat).length := by
  have hseq : Sequence 0x90 (encode u.toNat) := (unitPoint u).sequence
  have hlen := length_encode_le u
  obtain ⟨h1, h2, h3⟩ := lead_masks e
  rw [litGetUnicodeCharSizeByUtf8FirstByte]
  rw [h] at hseq hlen ⊢
  cases hseq with
  | one ha => rw [if_pos (h1.mpr ha)]; rfl
  | two ha ha' hb => rw [if_neg (by rw [h1]; omega), if_pos (h2.mpr (by omega))]; rfl
  | three ha ha' hb hd he => rw [if_neg (by rw [h1]; omega), if_neg (by rw [h2]; omega)]; rfl
  | four _ _ _ _ _ _ _ => simp at hlen

/-- The scanner finds the same on the bytes as on the code units. -/
theorem countGroups_cesu8 {steps : Nat} (us : List CodeUnit) (h : (cesu8 us).length ≤ steps) :
    countGroupsLoop steps isCharClass (cesu8 us) = scanUnits isCharClass us := by
  induction hn : us.length using Nat.strong_induction_on generalizing us steps isCharClass with
  | _ n ih =>
    cases us with
    | nil => cases steps <;> rfl
    | cons u us =>
      rw [cesu8_cons] at h ⊢
      rw [List.length_cons] at hn
      by_cases hu : u.toNat < 0x80
      · have hencode := encode_ascii hu
        rw [hencode, List.singleton_append] at h ⊢
        rw [List.length_cons] at h
        obtain ⟨steps, rfl⟩ : ∃ k, steps = k + 1 := ⟨steps - 1, by omega⟩
        have hrest : ∀ b, countGroupsLoop steps b (cesu8 us) = scanUnits b us :=
          fun b => ih us.length (by omega) us (by omega) rfl
        have hbyte : ∀ k : Nat, k < 0x80 → (u.setWidth 8 = BitVec.ofNat 8 k ↔ u = BitVec.ofNat 16 k) := by
          intro k hk
          constructor
          · intro hb
            have := congrArg BitVec.toNat hb
            rw [BitVec.toNat_setWidth, BitVec.toNat_ofNat] at this
            apply BitVec.eq_of_toNat_eq
            rw [BitVec.toNat_ofNat]
            omega
          · intro hb
            rw [hb]
            apply BitVec.eq_of_toNat_eq
            rw [BitVec.toNat_setWidth, BitVec.toNat_ofNat, BitVec.toNat_ofNat]
            omega
        have hesc := hbyte 0x5c (by decide)
        have hopen := hbyte 0x5b (by decide)
        have hclose := hbyte 0x5d (by decide)
        have hparen := hbyte 0x28 (by decide)
        rw [countGroupsLoop.eq_def]
        dsimp only
        by_cases h1 : u = 0x5c#16
        · rw [if_pos (hesc.mpr h1), h1]
          cases us with
          | nil => rfl
          | cons v us =>
            rw [scanUnits_escape]
            obtain ⟨e, t, he, _, _⟩ := encode_bytes v
            have hsize := charSize_encode he
            rw [List.length_cons] at hn
            rw [cesu8_cons, List.length_append] at h
            have hdrop : (e :: (t ++ cesu8 us)).drop (litGetUnicodeCharSizeByUtf8FirstByte e) = cesu8 us := by
              rw [hsize, ← List.cons_append, ← he, List.drop_left]
            rw [cesu8_cons, he, List.cons_append]
            dsimp only
            rw [hdrop]
            exact ih us.length (by omega) us (by omega) rfl
        rw [if_neg (fun hc => h1 (hesc.mp hc))]
        by_cases h2 : u = 0x5b#16
        · rw [if_pos (hopen.mpr h2), h2, scanUnits_open, hrest]
        rw [if_neg (fun hc => h2 (hopen.mp hc))]
        by_cases h3 : u = 0x5d#16
        · rw [if_pos (hclose.mpr h3), h3, scanUnits_close, hrest]
        rw [if_neg (fun hc => h3 (hclose.mp hc))]
        by_cases h4 : u = 0x28#16
        · rw [if_pos (hparen.mpr h4), h4]
          cases us with
          | nil => rfl
          | cons v us =>
            obtain ⟨e, t, he, _, _⟩ := encode_bytes v
            have hquestion : e = 0x3f#8 ↔ v = 0x3f#16 := by
              by_cases hv : v.toNat < 0x80
              · rw [encode_ascii hv, List.cons.injEq] at he
                rw [← he.1]
                constructor
                · intro hb
                  have := congrArg BitVec.toNat hb
                  rw [BitVec.toNat_setWidth] at this
                  apply BitVec.eq_of_toNat_eq
                  show v.toNat = 0x3f
                  have h3f : (0x3f#8).toNat = 0x3f := rfl
                  omega
                · intro hb
                  rw [hb]
                  rfl
              · have habove := encode_above (show 0x80 ≤ v.toNat by omega) e (by rw [he]; exact List.mem_cons_self)
                constructor
                · intro hb
                  rw [hb] at habove
                  exact absurd habove (by decide)
                · intro hb
                  rw [hb] at hv
                  exact absurd hv (by decide)
            have hrest' := hrest isCharClass
            rw [cesu8_cons, he, List.cons_append] at hrest' ⊢
            dsimp only
            rw [scanUnits_paren, hrest']
            by_cases hv : e = 0x3f#8
            · rw [if_neg (fun hc => hc.1 hv), if_neg (fun hc => hc.1 (hquestion.mp hv)), Nat.add_zero]
            · cases isCharClass with
              | true =>
                rw [if_neg (fun hc => Bool.noConfusion hc.2), if_neg (fun hc => Bool.noConfusion hc.2), Nat.add_zero]
              | false => rw [if_pos ⟨hv, rfl⟩, if_pos ⟨fun hc => hv (hquestion.mpr hc), rfl⟩]
        rw [if_neg (fun hc => h4 (hparen.mp hc)), scanUnits_plain ⟨h1, h2, h3, h4⟩, hrest]
      · have hplain : Plain u := by
          refine ⟨?_, ?_, ?_, ?_⟩ <;> (intro hc; rw [hc] at hu; exact hu (by decide))
        rw [List.length_append] at h
        rw [scanUnits_plain hplain, ← Nat.sub_add_cancel (show (encode u.toNat).length ≤ steps by omega),
          countGroups_above (encode_above (by omega))]
        exact ih us.length (by omega) us (by omega) rfl

end

/-- `re_count_groups`, of the bytes of code units. -/
theorem reCountGroups_cesu8 (us : List CodeUnit) : reCountGroups (cesu8 us) = scanUnits false us :=
  countGroups_cesu8 us (Nat.le_refl _)

/-! ## Parts of a pattern -/

theorem cesu8_eq_cons {b : Byte} {s : List Byte} {us : List CodeUnit} (hb : b.toNat < 0x80) (h : b :: s = cesu8 us) :
    ∃ us', us = b.setWidth 16 :: us' ∧ s = cesu8 us' := by
  cases us with
  | nil => cases h
  | cons u us =>
    rw [cesu8_cons] at h
    by_cases hu : u.toNat < 0x80
    · rw [encode_ascii hu, List.singleton_append, List.cons.injEq] at h
      refine ⟨us, ?_, h.2⟩
      congr 1
      apply BitVec.eq_of_toNat_eq
      rw [h.1, BitVec.toNat_setWidth, BitVec.toNat_setWidth]
      omega
    · obtain ⟨e, t, he, _, _⟩ := encode_bytes u
      have habove := encode_above (show 0x80 ≤ u.toNat by omega) e (by rw [he]; exact List.mem_cons_self)
      rw [he, List.cons_append, List.cons.injEq] at h
      rw [h.1] at hb
      omega

theorem cesu8_ascii {b : Byte} (hb : b.toNat < 0x80) (us : List CodeUnit) :
    cesu8 (b.setWidth 16 :: us) = b :: cesu8 us := by
  have hu : (b.setWidth 16).toNat = b.toNat := by rw [BitVec.toNat_setWidth]; omega
  rw [cesu8_cons, encode_ascii (by omega), List.singleton_append]
  congr 1
  apply BitVec.eq_of_toNat_eq
  rw [BitVec.toNat_setWidth, BitVec.toNat_setWidth]
  omega

/-- The part of the pattern between two positions: how many groups the scanner finds in it, and whether it is in a
class in front of it and behind it. -/
def Scans (n : Nat) (front behind : Bool) (s s' : List Byte) : Prop :=
  ∀ us, s = cesu8 us → ∃ us', s' = cesu8 us' ∧ scanUnits front us = scanUnits behind us' + n

namespace Scans

variable {n m : Nat} {a b c : Bool} {s s' s'' : List Byte}

theorem refl : Scans 0 a a s s := fun us h => ⟨us, h, rfl⟩

theorem trans (h : Scans n a b s s') (h' : Scans m b c s' s'') : Scans (m + n) a c s s'' := by
  intro us hus
  obtain ⟨us', hus', hscan⟩ := h us hus
  obtain ⟨us'', hus'', hscan'⟩ := h' us' hus'
  refine ⟨us'', hus'', ?_⟩
  rw [hscan, hscan', Nat.add_assoc]

/-- A byte that the scanner goes over. -/
theorem plain {e : Byte} (he : e.toNat < 0x80) (h : Plain (e.setWidth 16)) : Scans 0 a a (e :: s) s := by
  intro us hus
  obtain ⟨us', rfl, hs⟩ := cesu8_eq_cons he hus
  exact ⟨us', hs, scanUnits_plain h us'⟩

/-- A byte that is read again. -/
theorem back {e : Byte} (he : e.toNat < 0x80) (h : Plain (e.setWidth 16)) : Scans 0 a a s (e :: s) := by
  intro us hus
  exact ⟨e.setWidth 16 :: us, by rw [cesu8_ascii he, hus], (scanUnits_plain h us).symm⟩

/-- An escaped byte. -/
theorem escape {e : Byte} (he : e.toNat < 0x80) : Scans 0 a a (0x5c#8 :: e :: s) s := by
  intro us hus
  obtain ⟨us', rfl, hs⟩ := cesu8_eq_cons (by decide) hus
  obtain ⟨us'', rfl, hs'⟩ := cesu8_eq_cons he hs
  exact ⟨us'', hs', scanUnits_escape _ us''⟩

end Scans

/-- `lit_cesu8_read_next` reads a code unit. -/
theorem readInput_cesu8 {s rest : List Byte} {ch : CodeUnit} (h : readInput s = .ok (ch, rest)) {us : List CodeUnit}
    (hus : s = cesu8 us) : ∃ us', us = ch :: us' ∧ rest = cesu8 us' := by
  rw [hus] at h
  cases us with
  | nil => cases h
  | cons u us =>
    rw [cesu8_cons, readInput, litReadCodeUnitFromCesu8_append] at h
    dsimp only at h
    rw [List.drop_left] at h
    cases h
    exact ⟨us, rfl, rfl⟩

end Regexp
end JJS
