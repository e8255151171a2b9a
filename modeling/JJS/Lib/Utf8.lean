import Mathlib.Data.List.Flatten
import Mathlib.Data.List.Chain
import Mathlib.Algebra.GroupWithZero.Nat

/-!
# JJS.Lib.Utf8

UTF-8 encodings of code points, surrogates included. `encode` is the shortest form. `Sequence m` are the
byte sequences of the shape of one character, where `m` is the least second byte after `0xF0`: with
`m = 0x90` these are exactly the encodings (`sequence_encode`, `Sequence.exists_encode`), and a smaller `m` lets
overlong sequences of four bytes in. Whatever `m` is, a string has at most one split into such
sequences (`Sequence.append_inj`, `flatten_inj`).
-/

namespace Utf8

abbrev Byte := BitVec 8

/-- The shortest encoding of a code point. -/
def encode (c : Nat) : List Byte :=
  if c < 0x80 then [BitVec.ofNat 8 c]
  else if c < 0x800 then [BitVec.ofNat 8 (0xC0 + c / 0x40), BitVec.ofNat 8 (0x80 + c % 0x40)]
  else if c < 0x10000 then
    [BitVec.ofNat 8 (0xE0 + c / 0x1000), BitVec.ofNat 8 (0x80 + c / 0x40 % 0x40), BitVec.ofNat 8 (0x80 + c % 0x40)]
  else
    [BitVec.ofNat 8 (0xF0 + c / 0x40000), BitVec.ofNat 8 (0x80 + c / 0x1000 % 0x40),
      BitVec.ofNat 8 (0x80 + c / 0x40 % 0x40), BitVec.ofNat 8 (0x80 + c % 0x40)]

/-- A continuation byte. -/
def Cont (b : Byte) : Prop := 0x80 ≤ b.toNat ∧ b.toNat ≤ 0xBF

/-- One character, with `m` as the least second byte after `0xF0`. -/
inductive Sequence (m : Nat) : List Byte → Prop where
  | one {a : Byte} : a.toNat < 0x80 → Sequence m [a]
  | two {a b : Byte} : 0xC2 ≤ a.toNat → a.toNat < 0xE0 → Cont b → Sequence m [a, b]
  | three {a b c : Byte} : 0xE0 ≤ a.toNat → a.toNat < 0xF0 → Cont b → Cont c →
      (a.toNat = 0xE0 → 0xA0 ≤ b.toNat) → Sequence m [a, b, c]
  | four {a b c d : Byte} : 0xF0 ≤ a.toNat → a.toNat ≤ 0xF4 → Cont b → Cont c → Cont d →
      (a.toNat = 0xF0 → m ≤ b.toNat) → (a.toNat = 0xF4 → b.toNat ≤ 0x8F) → Sequence m [a, b, c, d]

theorem Sequence.ne_nil {m : Nat} {s : List Byte} (h : Sequence m s) : s ≠ [] := by
  cases h <;> simp

theorem Sequence.mono {m m' : Nat} (hm : m ≤ m') {s : List Byte} (h : Sequence m' s) : Sequence m s := by
  cases h with
  | one ha => exact .one ha
  | two h1 h2 hb => exact .two h1 h2 hb
  | three h1 h2 hb hc he => exact .three h1 h2 hb hc he
  | four h1 h2 hb hc hd h0 h4 => exact .four h1 h2 hb hc hd (fun h => Nat.le_trans hm (h0 h)) h4

/-- The first byte gives the length, so a character can be taken off in one way only. -/
theorem Sequence.append_inj {m : Nat} {s t r u : List Byte} (hs : Sequence m s) (ht : Sequence m t) (h : s ++ r = t ++ u) :
    s = t ∧ r = u := by
  have hlen : s.length = t.length := by
    cases hs <;> cases ht <;> simp at h <;> simp <;> (obtain ⟨rfl, -⟩ := h; omega)
  exact List.append_inj h hlen

/-- A string splits into characters in one way only. -/
theorem flatten_inj {m : Nat} {cs ds : List (List Byte)} (hc : ∀ c ∈ cs, Sequence m c) (hd : ∀ d ∈ ds, Sequence m d)
    (h : cs.flatten = ds.flatten) : cs = ds := by
  induction cs generalizing ds with
  | nil =>
    cases ds with
    | nil => rfl
    | cons d ds =>
      exfalso
      have hnil : d = [] ∧ ds.flatten = [] := by simpa using h.symm
      exact (hd d (by simp)).ne_nil hnil.1
  | cons c cs ih =>
    cases ds with
    | nil =>
      exfalso
      have hnil : c = [] ∧ cs.flatten = [] := by simpa using h
      exact (hc c (by simp)).ne_nil hnil.1
    | cons d ds =>
      rw [List.flatten_cons, List.flatten_cons] at h
      obtain ⟨hcd, hrest⟩ := (hc c (by simp)).append_inj (hd d (by simp)) h
      have := ih (fun x hx => hc x (by simp [hx])) (fun x hx => hd x (by simp [hx])) hrest
      rw [hcd, this]

/-! ## Encodings -/

theorem toNat_ofNat {n : Nat} (h : n < 256) : (BitVec.ofNat 8 n).toNat = n := by
  rw [BitVec.toNat_ofNat]
  exact Nat.mod_eq_of_lt h

theorem sequence_encode {c : Nat} (h : c ≤ 0x10FFFF) : Sequence 0x90 (encode c) := by
  have cont : ∀ n, n < 0x40 → Cont (BitVec.ofNat 8 (0x80 + n)) := by
    intro n hn
    rw [Cont, toNat_ofNat (by omega)]
    omega
  unfold encode
  split
  · exact .one (by rw [toNat_ofNat (by omega)]; omega)
  · split
    · exact .two (by rw [toNat_ofNat (by omega)]; omega) (by rw [toNat_ofNat (by omega)]; omega) (cont _ (by omega))
    · split
      · refine .three ?_ ?_ (cont _ (by omega)) (cont _ (by omega)) ?_
        · rw [toNat_ofNat (by omega)]; omega
        · rw [toNat_ofNat (by omega)]; omega
        · rw [toNat_ofNat (by omega), toNat_ofNat (by omega)]; omega
      · refine .four ?_ ?_ (cont _ (by omega)) (cont _ (by omega)) (cont _ (by omega)) ?_ ?_
        · rw [toNat_ofNat (by omega)]; omega
        · rw [toNat_ofNat (by omega)]; omega
        · rw [toNat_ofNat (by omega), toNat_ofNat (by omega)]; omega
        · rw [toNat_ofNat (by omega), toNat_ofNat (by omega)]; omega

theorem ofNat_eq {n : Nat} {b : Byte} (h : n = b.toNat) : BitVec.ofNat 8 n = b :=
  BitVec.eq_of_toNat_eq (by rw [h, toNat_ofNat b.isLt])

/-- The code point that a sequence of the shape of a character stands for. -/
def value : List Byte → Nat
  | [a] => a.toNat
  | [a, b] => a.toNat % 0x20 * 0x40 + b.toNat % 0x40
  | [a, b, c] => (a.toNat % 0x10 * 0x40 + b.toNat % 0x40) * 0x40 + c.toNat % 0x40
  | [a, b, c, d] => ((a.toNat % 0x08 * 0x40 + b.toNat % 0x40) * 0x40 + c.toNat % 0x40) * 0x40 + d.toNat % 0x40
  | _ => 0

/-- A sequence that is not overlong is the encoding of its code point. -/
theorem Sequence.encode_value {s : List Byte} (h : Sequence 0x90 s) : value s ≤ 0x10FFFF ∧ encode (value s) = s := by
  cases h with
  | one ha =>
    refine ⟨by simp only [value]; omega, ?_⟩
    rw [encode, value, if_pos ha, ofNat_eq rfl]
  | @two a b h1 h2 hb =>
    obtain ⟨hb1, hb2⟩ := hb
    have hv : value [a, b] = (a.toNat - 0xC0) * 0x40 + (b.toNat - 0x80) := by simp only [value]; omega
    refine ⟨by omega, ?_⟩
    rw [hv, encode, if_neg (by omega), if_pos (by omega), ofNat_eq (b := a) (by omega), ofNat_eq (b := b) (by omega)]
  | @three a b c h1 h2 hb hc he =>
    obtain ⟨hb1, hb2⟩ := hb
    obtain ⟨hc1, hc2⟩ := hc
    have hv : value [a, b, c] = (a.toNat - 0xE0) * 0x1000 + (b.toNat - 0x80) * 0x40 + (c.toNat - 0x80) := by
      simp only [value]; omega
    refine ⟨by omega, ?_⟩
    rw [hv, encode, if_neg (by omega), if_neg (by omega), if_pos (by omega), ofNat_eq (b := a) (by omega),
      ofNat_eq (b := b) (by omega), ofNat_eq (b := c) (by omega)]
  | @four a b c d h1 h2 hb hc hd h0 h4 =>
    obtain ⟨hb1, hb2⟩ := hb
    obtain ⟨hc1, hc2⟩ := hc
    obtain ⟨hd1, hd2⟩ := hd
    have hv : value [a, b, c, d] = (a.toNat - 0xF0) * 0x40000 + (b.toNat - 0x80) * 0x1000 +
        (c.toNat - 0x80) * 0x40 + (d.toNat - 0x80) := by
      simp only [value]; omega
    refine ⟨by omega, ?_⟩
    rw [hv, encode, if_neg (by omega), if_neg (by omega), if_neg (by omega), ofNat_eq (b := a) (by omega),
      ofNat_eq (b := b) (by omega), ofNat_eq (b := c) (by omega), ofNat_eq (b := d) (by omega)]

/-- Code points are determined by their encodings. -/
theorem value_encode {c : Nat} (h : c ≤ 0x10FFFF) : value (encode c) = c := by
  unfold encode
  split
  · simp only [value]; rw [toNat_ofNat (by omega)]
  · split
    · simp only [value]; rw [toNat_ofNat (by omega), toNat_ofNat (by omega)]; omega
    · split
      · simp only [value]; rw [toNat_ofNat (by omega), toNat_ofNat (by omega), toNat_ofNat (by omega)]; omega
      · simp only [value]
        rw [toNat_ofNat (by omega), toNat_ofNat (by omega), toNat_ofNat (by omega), toNat_ofNat (by omega)]; omega

/-! ## Strings -/

/-- A code point. -/
abbrev Point := Fin 0x110000

/-- A literal of a code point has the same instance everywhere. -/
instance Point.neZero : NeZero 0x110000 := ⟨by decide⟩

def Point.encode (c : Point) : List Byte := Utf8.encode c.val

theorem Point.sequence (c : Point) : Sequence 0x90 c.encode :=
  sequence_encode (by have := c.isLt; omega)

theorem Point.value_encode (c : Point) : value c.encode = c.val :=
  Utf8.value_encode (by have := c.isLt; omega)

/-- Only the surrogates have three bytes and a value among them. -/
theorem Point.length_of_surrogate {c : Point} (h1 : 0xD800 ≤ c.val) (h2 : c.val ≤ 0xDFFF) : c.encode.length = 3 := by
  rw [Point.encode, Utf8.encode, if_neg (by omega), if_neg (by omega), if_pos (by omega)]
  rfl

theorem exists_points {cs : List (List Byte)} (h : ∀ c ∈ cs, Sequence 0x90 c) :
    ∃ cps : List Point, cps.map Point.encode = cs := by
  induction cs with
  | nil => exact ⟨[], rfl⟩
  | cons c cs ih =>
    obtain ⟨cps, hcps⟩ := ih (fun x hx => h x (by simp [hx]))
    obtain ⟨hmax, henc⟩ := (h c (by simp)).encode_value
    refine ⟨⟨value c, by omega⟩ :: cps, ?_⟩
    rw [List.map_cons, hcps, Point.encode, henc]

/-- A concatenation of shortest-form encodings. -/
def WellFormed (s : List Byte) : Prop := ∃ cps : List Point, s = (cps.map Point.encode).flatten

def Point.IsHigh (c : Point) : Prop := 0xD800 ≤ c.val ∧ c.val ≤ 0xDBFF

def Point.IsLow (c : Point) : Prop := 0xDC00 ≤ c.val ∧ c.val ≤ 0xDFFF

/-- The same, and no high surrogate is directly followed by a low one. -/
def WellFormedStrict (s : List Byte) : Prop :=
  ∃ cps : List Point, s = (cps.map Point.encode).flatten ∧ cps.IsChain fun a b => ¬ (a.IsHigh ∧ b.IsLow)

theorem wellFormed_iff {s : List Byte} :
    WellFormed s ↔ ∃ cs : List (List Byte), s = cs.flatten ∧ ∀ c ∈ cs, Sequence 0x90 c := by
  constructor
  · intro h
    obtain ⟨cps, rfl⟩ := h
    refine ⟨_, rfl, ?_⟩
    intro c hc
    obtain ⟨p, -, rfl⟩ := List.mem_map.mp hc
    exact p.sequence
  · intro h
    obtain ⟨cs, rfl, hcs⟩ := h
    obtain ⟨cps, rfl⟩ := exists_points hcs
    exact ⟨cps, rfl⟩

theorem WellFormed.cases {s : List Byte} (h : WellFormed s) :
    s = [] ∨ ∃ (c : Point) (r : List Byte), s = c.encode ++ r ∧ WellFormed r := by
  obtain ⟨cps, rfl⟩ := h
  cases cps with
  | nil => exact .inl rfl
  | cons c cps => exact .inr ⟨c, _, rfl, cps, rfl⟩

/-- An ASCII byte is a character. -/
theorem Point.encode_of_ascii {c : Point} {b : Byte} {r s : List Byte} (hb : b.toNat < 0x80)
    (h : b :: s = c.encode ++ r) : c.encode = [b] ∧ r = s := by
  have hseq := c.sequence.append_inj (Sequence.one hb) h.symm
  exact hseq

theorem WellFormed.tail {b : Byte} {s : List Byte} (hb : b.toNat < 0x80) (h : WellFormed (b :: s)) :
    WellFormed s := by
  cases h.cases with
  | inl hnil => cases hnil
  | inr hcons =>
    obtain ⟨c, r, hs, hr⟩ := hcons
    rw [← (Point.encode_of_ascii hb hs).2]
    exact hr

theorem WellFormed.of_append {l s : List Byte} (hl : ∀ b ∈ l, b.toNat < 0x80) (h : WellFormed (l ++ s)) :
    WellFormed s := by
  induction l with
  | nil => exact h
  | cons b l ih => exact ih (fun x hx => hl x (by simp [hx])) (h.tail (hl b (by simp)))

theorem wellFormed_ascii {s : List Byte} (h : ∀ b ∈ s, b.toNat < 0x80) : WellFormed s := by
  refine wellFormed_iff.mpr ⟨s.map fun b => [b], ?_, ?_⟩
  · induction s with
    | nil => rfl
    | cons b s ih =>
      rw [List.map_cons, List.flatten_cons, ← ih fun x hx => h x (by simp [hx])]
      rfl
  · intro c hc
    obtain ⟨b, hb, rfl⟩ := List.mem_map.mp hc
    exact .one (h b hb)

/-! ## Code units -/

/-- A code unit of UTF-16. -/
abbrev CodeUnit := BitVec 16

/-- The encodings of the code units, surrogates on their own. -/
def cesu8 (us : List CodeUnit) : List Byte := us.flatMap fun u => encode u.toNat

/-- The code units of a code point: itself, or a pair of surrogates. -/
def Point.units (c : Point) : List CodeUnit :=
  if c.val < 0x10000 then [BitVec.ofNat 16 c.val]
  else [BitVec.ofNat 16 (0xD800 + (c.val - 0x10000) / 0x400), BitVec.ofNat 16 (0xDC00 + (c.val - 0x10000) % 0x400)]

@[simp] theorem cesu8_nil : cesu8 [] = [] := rfl

@[simp] theorem cesu8_cons (u : CodeUnit) (us : List CodeUnit) : cesu8 (u :: us) = encode u.toNat ++ cesu8 us := rfl

@[simp] theorem cesu8_append (us vs : List CodeUnit) : cesu8 (us ++ vs) = cesu8 us ++ cesu8 vs :=
  List.flatMap_append

theorem length_encode_pos (n : Nat) : 0 < (encode n).length := by
  rw [encode]
  split
  · exact Nat.succ_pos _
  · split
    · exact Nat.succ_pos _
    · split
      · exact Nat.succ_pos _
      · exact Nat.succ_pos _

theorem length_le_cesu8 (us : List CodeUnit) : us.length ≤ (cesu8 us).length := by
  induction us with
  | nil => exact Nat.le_refl 0
  | cons u us ih =>
    have hpos := length_encode_pos u.toNat
    rw [cesu8_cons, List.length_append, List.length_cons]
    omega

theorem Point.cesu8_units {c : Point} (h : c.val < 0x10000) : cesu8 c.units = c.encode := by
  rw [Point.units, if_pos h, cesu8_cons, cesu8_nil, List.append_nil, BitVec.toNat_ofNat, Nat.mod_eq_of_lt (by omega)]
  rfl

/-- The code unit as a code point. -/
def unitPoint (u : CodeUnit) : Point := ⟨u.toNat, Nat.lt_of_lt_of_le u.isLt (by decide)⟩

theorem unitPoint_encode (u : CodeUnit) : (unitPoint u).encode = encode u.toNat := rfl

theorem unitPoint_units (u : CodeUnit) : (unitPoint u).units = [u] := by
  have hlt : (unitPoint u).val < 0x10000 := u.isLt
  have hu : BitVec.ofNat 16 (unitPoint u).val = u := by
    show BitVec.ofNat 16 u.toNat = u
    rw [BitVec.ofNat_toNat, BitVec.setWidth_eq]
  rw [Point.units, if_pos hlt, hu]

theorem cesu8_inj {us vs : List CodeUnit} (h : cesu8 us = cesu8 vs) : us = vs := by
  have hseq : ∀ us : List CodeUnit, ∀ c ∈ us.map fun u => encode u.toNat, Sequence 0x90 c := by
    intro us c hc
    obtain ⟨u, -, rfl⟩ := List.mem_map.mp hc
    exact (unitPoint u).sequence
  have hmap := flatten_inj (hseq us) (hseq vs) (by rw [← List.flatMap_def, ← List.flatMap_def]; exact h)
  refine List.map_injective_iff.mpr ?_ hmap
  intro u v huv
  have hval := (unitPoint u).value_encode
  have hval' := (unitPoint v).value_encode
  rw [unitPoint_encode] at hval hval'
  have huv : encode u.toNat = encode v.toNat := huv
  rw [huv, hval'] at hval
  exact BitVec.eq_of_toNat_eq hval.symm

def IsHighUnit (u : CodeUnit) : Prop := 0xD800 ≤ u.toNat ∧ u.toNat ≤ 0xDBFF

def IsLowUnit (u : CodeUnit) : Prop := 0xDC00 ≤ u.toNat ∧ u.toNat ≤ 0xDFFF

theorem length_encode_surrogate {u : CodeUnit} (h : IsHighUnit u ∨ IsLowUnit u) : (encode u.toNat).length = 3 := by
  have hle : 0x800 ≤ u.toNat := by
    cases h with
    | inl hhigh => exact Nat.le_trans (by decide) hhigh.1
    | inr hlow => exact Nat.le_trans (by decide) hlow.1
  have hlt := u.isLt
  rw [encode, if_neg (by omega), if_neg (by omega), if_pos (by omega)]
  rfl

/-- Surrogates occur in pairs only. -/
inductive Paired : List CodeUnit → Prop where
  | nil : Paired []
  | unit {u : CodeUnit} {us : List CodeUnit} : ¬ IsHighUnit u → ¬ IsLowUnit u → Paired us → Paired (u :: us)
  | pair {u v : CodeUnit} {us : List CodeUnit} : IsHighUnit u → IsLowUnit v → Paired us → Paired (u :: v :: us)

theorem Paired.append {us vs : List CodeUnit} (hu : Paired us) (hv : Paired vs) : Paired (us ++ vs) := by
  induction hu with
  | nil => exact hv
  | unit h1 h2 _ ih => exact .unit h1 h2 ih
  | pair h1 h2 _ ih => exact .pair h1 h2 ih

end Utf8
