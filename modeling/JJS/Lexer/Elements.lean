import JJS.Lexer.ParseString
import JJS.Lib.StringLiteral

/-!
# JJS.Lexer.Elements

What the first pass over a literal reads, on the encodings of code points: a round in cooked mode reads an element of
the literal (`parseStringRound_cooked`), and the loop reads the elements up to the end (`parseStringLoop_cooked`).
-/

namespace JJS
namespace Lexer

open Utf8 Lit Strings StringLiteral

/-! ## Bytes of code points -/

section

variable {c : Point} {s : List Point} {b : Byte} {t : List Byte}

theorem encode_ascii (h : c.val < 0x80) : c.encode = [BitVec.ofNat 8 c.val] := by
  rw [Point.encode, encode, if_pos h]

/-- A byte of a longer character is not an ASCII one. -/
theorem encode_wide (h : 0x80 ≤ c.val) : ∃ b t, c.encode = b :: t ∧ 0xC2 ≤ b.toNat ∧ (∀ x ∈ t, isExtraByte x = true) ∧
    (0xF0 ≤ b.toNat ↔ IsLong c) := by
  have hval := c.value_encode
  have hseq := c.sequence
  rw [IsLong]
  generalize c.encode = e at hval hseq
  cases hseq with
  | one ha =>
    rw [value] at hval
    omega
  | @two a b h1 h2 hb =>
    rw [value] at hval
    refine ⟨a, [b], rfl, h1, ?_, by omega⟩
    intro x hx
    rw [List.mem_singleton.mp hx]
    exact (isExtraByte_iff b).mpr hb
  | @three a b d h1 h2 hb hd he =>
    rw [value] at hval
    refine ⟨a, [b, d], rfl, by omega, ?_, by omega⟩
    intro x hx
    cases List.mem_cons.mp hx with
    | inl hx => rw [hx]; exact (isExtraByte_iff b).mpr hb
    | inr hx => rw [List.mem_singleton.mp hx]; exact (isExtraByte_iff d).mpr hd
  | @four a b d e h1 h4 hb hd he hm _ =>
    obtain ⟨hb1, hb2⟩ := hb
    obtain ⟨hd1, hd2⟩ := hd
    obtain ⟨he1, he2⟩ := he
    rw [value] at hval
    refine ⟨a, [b, d, e], rfl, by omega, ?_, ?_⟩
    · intro x hx
      rw [isExtraByte_iff]
      simp only [List.mem_cons, List.not_mem_nil, or_false] at hx
      rcases hx with rfl | rfl | rfl
      · exact ⟨hb1, hb2⟩
      · exact ⟨hd1, hd2⟩
      · exact ⟨he1, he2⟩
    · have := hm
      omega

/-- The first byte of a code point, and whether it is an ASCII one. -/
theorem encode_first (c : Point) : ∃ b t, c.encode = b :: t ∧ (∀ x ∈ t, isExtraByte x = true) ∧
    isExtraByte b = false ∧ (c.val < 0x80 → b.toNat = c.val ∧ t = []) ∧ (0x80 ≤ c.val → 0x80 ≤ b.toNat) ∧
    (0xF0 ≤ b.toNat ↔ IsLong c) := by
  have hextra : ∀ b : Byte, b.toNat < 0x80 ∨ 0xC2 ≤ b.toNat → isExtraByte b = false := by
    intro b hb
    refine Bool.eq_false_iff.mpr fun h => ?_
    obtain ⟨h1, h2⟩ := (isExtraByte_iff b).mp h
    omega
  by_cases h : c.val < 0x80
  · have hb : (BitVec.ofNat 8 c.val).toNat = c.val := toNat_ofNat (by omega)
    refine ⟨_, [], encode_ascii h, fun x hx => ?_, hextra _ (by omega), fun _ => ⟨hb, rfl⟩, fun _ => by omega, ?_⟩
    · cases hx
    · rw [IsLong]
      omega
  · obtain ⟨b, t, he, hb, ht, hlong⟩ := encode_wide (Nat.le_of_not_lt h)
    exact ⟨b, t, he, ht, hextra b (Or.inr hb), fun h' => absurd h' h, fun _ => by omega, hlong⟩

theorem utf8_suffix {s s' : List Point} (h : s <:+ s') : ∃ w, utf8 s' = w ++ utf8 s := by
  obtain ⟨p, rfl⟩ := h
  exact ⟨utf8 p, utf8_append p s⟩

theorem utf8_inj {s s' : List Point} (h : utf8 s = utf8 s') : s = s' := by
  have hseq : ∀ s : List Point, ∀ c ∈ s.map Point.encode, Sequence 0x90 c := by
    intro s c hc
    obtain ⟨p, -, rfl⟩ := List.mem_map.mp hc
    exact p.sequence
  refine List.map_injective_iff.mpr ?_ (flatten_inj (hseq s) (hseq s') h)
  intro a b hab
  have ha := a.value_encode
  rw [hab, b.value_encode] at ha
  exact Fin.ext ha.symm

theorem takeWhile_extra (ht : ∀ x ∈ t, isExtraByte x = true) (s : List Point) :
    (t ++ utf8 s).takeWhile isExtraByte = t ∧ (t ++ utf8 s).dropWhile isExtraByte = utf8 s := by
  have hrest : (utf8 s).takeWhile isExtraByte = [] ∧ (utf8 s).dropWhile isExtraByte = utf8 s := by
    cases s with
    | nil => exact ⟨rfl, rfl⟩
    | cons c s =>
      obtain ⟨b, t, he, -, hb, -⟩ := encode_first c
      rw [utf8_cons, he, List.cons_append, List.takeWhile_cons, List.dropWhile_cons, hb]
      exact ⟨rfl, rfl⟩
  rw [List.takeWhile_append_of_pos ht, List.dropWhile_append_of_pos ht, hrest.1, hrest.2, List.append_nil]
  exact ⟨rfl, rfl⟩

theorem first_eq (he : c.encode = b :: t) {n : Nat} (hn : n < 0x80) : b = BitVec.ofNat 8 n ↔ c.val = n := by
  obtain ⟨b', t', he', -, -, hascii, hwide, -⟩ := encode_first c
  rw [he] at he'
  cases he'
  rw [eq_toNat (by omega)]
  by_cases h : c.val < 0x80
  · rw [(hascii h).1]
  · have := hwide (Nat.le_of_not_lt h)
    omega

theorem first_ge (he : c.encode = b :: t) {n : Nat} (hn : n < 0x80) : BitVec.ofNat 8 n ≤ b ↔ n ≤ c.val := by
  obtain ⟨b', t', he', -, -, hascii, hwide, -⟩ := encode_first c
  rw [he] at he'
  cases he'
  rw [ge_toNat (by omega)]
  by_cases h : c.val < 0x80
  · rw [(hascii h).1]
  · have := hwide (Nat.le_of_not_lt h)
    omega

theorem first_le (he : c.encode = b :: t) {n : Nat} (hn : n < 0x80) : b ≤ BitVec.ofNat 8 n ↔ c.val ≤ n := by
  obtain ⟨b', t', he', -, -, hascii, hwide, -⟩ := encode_first c
  rw [he] at he'
  cases he'
  rw [le_toNat (by omega)]
  by_cases h : c.val < 0x80
  · rw [(hascii h).1]
  · have := hwide (Nat.le_of_not_lt h)
    omega

theorem first_long (he : c.encode = b :: t) : 0xf0#8 ≤ b ↔ IsLong c := by
  obtain ⟨b', t', he', -, -, -, -, hlong⟩ := encode_first c
  rw [he] at he'
  cases he'
  rw [ge_toNat (by decide)]
  exact hlong

theorem tail_extra (he : c.encode = b :: t) : ∀ x ∈ t, isExtraByte x = true := by
  obtain ⟨b', t', he', ht, -⟩ := encode_first c
  rw [he] at he'
  cases he'
  exact ht

theorem tail_ascii (he : c.encode = b :: t) (h : c.val < 0x80) : t = [] := by
  obtain ⟨b', t', he', -, -, hascii, -⟩ := encode_first c
  rw [he] at he'
  cases he'
  exact (hascii h).2

/-- The next byte is an ASCII one just when the next code point is. -/
theorem head_iff {n : Nat} (hn : n < 0x80) (s : List Point) : (utf8 s).head? = some (BitVec.ofNat 8 n) ↔ Next n s := by
  cases s with
  | nil => exact ⟨fun h => (Option.some_ne_none _ h.symm).elim, fun h => h.elim⟩
  | cons c s =>
    obtain ⟨b, t, he, -⟩ := encode_first c
    rw [utf8_cons, he, List.cons_append, List.head?_cons, Option.some.injEq, first_eq he hn, Next]

theorem tail_utf8 {n : Nat} (hn : n < 0x80) (h : Next n s) : (utf8 s).tail = utf8 s.tail := by
  cases s with
  | nil => cases h
  | cons c s =>
    rw [Next] at h
    rw [utf8_cons, encode_ascii (by omega)]
    rfl

theorem isNewlineLsPs_iff (he : c.encode = b :: t) (s : List Point) :
    isNewlineLsPs (b :: (t ++ utf8 s)) = true ↔ c.val = 0x2028 ∨ c.val = 0x2029 := by
  have hval := c.value_encode
  have hseq := c.sequence
  have hbit : ∀ d : Byte, d ||| 0x1#8 = 0xa9#8 ↔ d.toNat = 0xa8 ∨ d.toNat = 0xa9 := by decide +kernel
  have hshort : ∀ {m : Nat} {bs : List Byte}, Sequence m bs → bs ≠ [] → ∀ r : List Byte, bs.length < 3 →
      isNewlineLsPs (bs ++ r) = false := by
    intro m bs hbs hne r hlen
    refine Bool.eq_false_iff.mpr fun h => ?_
    cases hbs with
    | @one a ha =>
      match r with
      | [] => cases h
      | [_] => cases h
      | x :: y :: r =>
        simp only [List.cons_append, List.nil_append, isNewlineLsPs, Bool.and_eq_true, beq_iff_eq] at h
        rw [h.1.1] at ha
        exact absurd ha (by decide)
    | @two a b h1 h2 hb =>
      match r with
      | [] => cases h
      | x :: r =>
        simp only [List.cons_append, List.nil_append, isNewlineLsPs, Bool.and_eq_true, beq_iff_eq] at h
        rw [h.1.1] at h2
        exact absurd h2 (by decide)
    | three => simp at hlen
    | four => simp at hlen
  rw [he] at hval hseq
  rw [← List.cons_append]
  generalize b :: t = bs at hval hseq
  cases hseq with
  | one ha =>
    rw [hshort (Sequence.one (m := 0) ha) (by simp) _ (by simp)]
    rw [value] at hval
    simp
    omega
  | two h1 h2 hb =>
    rw [hshort (Sequence.two (m := 0) h1 h2 hb) (by simp) _ (by simp)]
    obtain ⟨hb1, hb2⟩ := hb
    rw [value] at hval
    simp
    omega
  | @three a b d h1 h2 hb hd he =>
    obtain ⟨hb1, hb2⟩ := hb
    obtain ⟨hd1, hd2⟩ := hd
    rw [value] at hval
    simp only [List.cons_append, List.nil_append, isNewlineLsPs, Bool.and_eq_true, beq_iff_eq]
    rw [hbit, eq_toNat (by decide), eq_toNat (by decide)]
    omega
  | @four a b d e h1 h4 hb hd he hm _ =>
    obtain ⟨hb1, hb2⟩ := hb
    rw [value] at hval
    simp only [List.cons_append, List.nil_append, isNewlineLsPs, Bool.and_eq_true, beq_iff_eq]
    rw [hbit, eq_toNat (by decide), eq_toNat (by decide)]
    have := hm
    omega

end

/-! ## Sizes -/

theorem cesu8_units_short {c : Point} (h : ¬IsLong c) : cesu8 c.units = c.encode := by
  rw [IsLong] at h
  exact Point.cesu8_units (by omega)

theorem length_units_long {c : Point} (h : IsLong c) : (cesu8 c.units).length = 6 ∧ c.encode.length = 4 := by
  refine ⟨?_, length_encode_of_long h⟩
  rw [IsLong] at h
  have hsur : ∀ n, 0xD800 ≤ n → n < 0xE000 → (encode n).length = 3 := by
    intro n h1 h2
    rw [encode, if_neg (by omega), if_neg (by omega), if_pos (by omega)]
    rfl
  have hc := c.isLt
  rw [Point.units, if_neg (by omega), cesu8_cons, cesu8_cons, cesu8_nil, List.append_nil, List.length_append,
    BitVec.toNat_ofNat, BitVec.toNat_ofNat, hsur _ (by omega) (by omega), hsur _ (by omega) (by omega)]

theorem lf_units : cesu8 lf.units = [0x0a#8] := by decide

theorem encode_lf {c : Point} (h : c.val = 0x0a) : c = lf := Fin.ext h

theorem utf8_skipLineFeed (s : List Point) :
    utf8 (skipLineFeed s) = if (utf8 s).head? = some 0x0a#8 then (utf8 s).tail else utf8 s := by
  cases s with
  | nil => rfl
  | cons c s =>
    rw [skipLineFeed]
    have hhead : (utf8 (c :: s)).head? = some 0x0a#8 ↔ c.val = 0x0a := head_iff (by decide) (c :: s)
    by_cases hc : c.val = 0x0a
    · rw [if_pos hc, if_pos (hhead.mpr hc), tail_utf8 (by decide : 0x0a < 0x80) (show Next 0x0a (c :: s) from hc)]
      rfl
    · rw [if_neg hc, if_neg (fun h => hc (hhead.mp h))]

/-! ## Plain characters -/

/-- What a plain character stands for, and what follows it. -/
def plainUnits (c : Point) : List CodeUnit := if c.val = 0x0d then lf.units else c.units

def plainRest (c : Point) (s : List Point) : List Point := if c.val = 0x0d then skipLineFeed s else s

/-- A part of the text is read: the length counts the code units it stands for, and when no escape is noted they are
the text. -/
structure Read (scan scan' : Scan) (s rest : List Point) (us : List CodeUnit) : Prop where
  source : scan'.source = utf8 rest
  length : scan'.length = scan.length + (cesu8 us).length
  flags : scan'.statusFlags = .hasEscape ∨ scan'.statusFlags = scan.statusFlags ∧ utf8 s = cesu8 us ++ utf8 rest

/-- The same for the raw length, which is the number of bytes that are read and its adjustment. -/
structure RawRead (scan scan' : Scan) (s rest : List Point) (us : List CodeUnit) : Prop where
  source : scan'.source = utf8 rest
  adjust : ((utf8 s).length : Int) + scan'.rawLengthAdjust =
    (utf8 rest).length + (cesu8 us).length + scan.rawLengthAdjust
  flags : scan'.statusFlags = .hasEscape ∨ scan'.statusFlags = scan.statusFlags ∧ utf8 s = cesu8 us ++ utf8 rest

theorem skipCharacter_read {scan : Scan} {c : Point} {b : Byte} {t : List Byte} (he : c.encode = b :: t)
    (h : ¬IsLong c) (s : List Point) :
    Read scan (scan.skipCharacter (t ++ utf8 s)) (c :: s) s c.units ∧
      RawRead scan (scan.skipCharacter (t ++ utf8 s)) (c :: s) s c.units := by
  obtain ⟨htake, hdrop⟩ := takeWhile_extra (tail_extra he) s
  have hunits := cesu8_units_short h
  have htext : utf8 (c :: s) = cesu8 c.units ++ utf8 s := by
    rw [hunits]
    rfl
  refine ⟨⟨hdrop, ?_, Or.inr ⟨rfl, htext⟩⟩, ⟨hdrop, ?_, Or.inr ⟨rfl, htext⟩⟩⟩
  · rw [Scan.skipCharacter]
    dsimp only
    rw [htake, hunits, he, List.length_cons]
    omega
  · rw [htext, List.length_append]
    dsimp only [Scan.skipCharacter]
    omega

/-- A round on a plain character. -/
theorem plainRound_read {q : Byte} {scan scan' : Scan} {c : Point} {s : List Point} {b : Byte} {t : List Byte}
    (he : c.encode = b :: t) (h : plainRound q scan b (t ++ utf8 s) = .ok (.next scan')) :
    (c.val = 0x0d ∨ c.val = 0x0a → q = 0x60#8) ∧ Read scan scan' (c :: s) (plainRest c s) (plainUnits c) ∧
      RawRead scan scan' (c :: s) (plainRest c s) (plainUnits c) := by
  rw [plainRound] at h
  simp only [isNewlineLsPs_iff he, first_long he, first_eq he (show 0x09 < 0x80 by decide), first_eq he (show 0x0d < 0x80 by decide),
    first_eq he (show 0x0a < 0x80 by decide)] at h
  have hself : c.val ≠ 0x0d → plainUnits c = c.units ∧ plainRest c s = s := by
    intro hc
    exact ⟨if_neg hc, if_neg hc⟩
  have hread : ∀ scan1 : Scan, scan1.length = scan.length → scan1.rawLengthAdjust = scan.rawLengthAdjust →
      scan1.statusFlags = scan.statusFlags → ¬IsLong c → c.val ≠ 0x0d →
      Read scan (scan1.skipCharacter (t ++ utf8 s)) (c :: s) (plainRest c s) (plainUnits c) ∧
        RawRead scan (scan1.skipCharacter (t ++ utf8 s)) (c :: s) (plainRest c s) (plainUnits c) := by
    intro scan1 h1 h2 h3 hlong hc
    obtain ⟨hr, hw⟩ := @skipCharacter_read scan1 _ _ _ he hlong s
    rw [(hself hc).1, (hself hc).2]
    refine ⟨⟨hr.source, ?_, ?_⟩, ⟨hw.source, ?_, ?_⟩⟩
    · rw [hr.length, h1]
    · rw [← h3]
      exact hr.flags
    · rw [hw.adjust, h2]
    · rw [← h3]
      exact hw.flags
  split at h
  · rename_i hlong
    obtain ⟨h6, h4⟩ := length_units_long hlong
    rw [IsLong] at hlong
    cases h
    have hdrop : (t ++ utf8 s).drop 3 = utf8 s := by
      rw [he, List.length_cons] at h4
      rw [show 3 = t.length by omega, List.drop_left]
    rw [(hself (by omega)).1, (hself (by omega)).2]
    refine ⟨fun _ => by omega, ⟨hdrop, ?_, Or.inl rfl⟩, ⟨hdrop, ?_, Or.inl rfl⟩⟩
    · rw [h6]
    · rw [utf8_cons, List.length_append, h4, h6]
      dsimp only
      omega
  rename_i hlong
  have hshort := cesu8_units_short hlong
  split at h
  · cases h
    exact ⟨fun _ => by omega, hread _ rfl rfl rfl hlong (by omega)⟩
  split at h
  · rename_i hnl
    cases h
    have hlen : c.encode.length = 3 := by
      rw [Point.encode, encode, if_neg (by omega), if_neg (by omega), if_pos (by omega)]
      rfl
    have hdrop : (t ++ utf8 s).drop 2 = utf8 s := by
      rw [he, List.length_cons] at hlen
      rw [show 2 = t.length by omega, List.drop_left]
    have htext : utf8 (c :: s) = cesu8 c.units ++ utf8 s := by
      rw [hshort]
      rfl
    rw [(hself (by omega)).1, (hself (by omega)).2]
    refine ⟨fun _ => by omega, ⟨hdrop, ?_, Or.inr ⟨rfl, htext⟩⟩, ⟨hdrop, ?_, Or.inr ⟨rfl, htext⟩⟩⟩
    · rw [hshort, hlen]
    · rw [htext, List.length_append]
      dsimp only [Scan.newline]
      omega
  split at h
  · rename_i hq
    split at h
    · rename_i hcr
      have ht := tail_ascii he (by omega)
      have hlen : ∀ s : List Point, (utf8 (c :: s)).length = (utf8 s).length + 1 := by
        intro s
        rw [utf8_cons, he, ht]
        rfl
      have hskip := utf8_skipLineFeed s
      rw [ht, List.nil_append] at h
      rw [plainUnits, plainRest, if_pos hcr, if_pos hcr]
      split at h
      · rename_i hlf
        rw [if_pos hlf] at hskip
        have hpos : (utf8 s).length = (utf8 s).tail.length + 1 := by
          cases hs : utf8 s with
          | nil => rw [hs] at hlf; cases hlf
          | cons b r => rfl
        cases h
        refine ⟨fun _ => hq, ⟨hskip.symm, ?_, Or.inl rfl⟩, ⟨hskip.symm, ?_, Or.inl rfl⟩⟩
        · rw [lf_units]
          rfl
        · rw [lf_units, hskip, hlen, hpos]
          dsimp only [List.length_singleton]
          omega
      · rename_i hlf
        rw [if_neg hlf] at hskip
        cases h
        refine ⟨fun _ => hq, ⟨hskip.symm, ?_, Or.inl rfl⟩, ⟨hskip.symm, ?_, Or.inl rfl⟩⟩
        · rw [lf_units]
          rfl
        · rw [lf_units, hskip, hlen]
          dsimp only [List.length_singleton, Scan.newline]
          omega
    split at h
    · rename_i hcr hlf
      have ht := tail_ascii he (by omega)
      rw [ht, List.nil_append] at h
      have htext : utf8 (c :: s) = cesu8 c.units ++ utf8 s := by
        rw [hshort]
        rfl
      rw [(hself hcr).1, (hself hcr).2]
      cases h
      refine ⟨fun _ => hq, ⟨rfl, ?_, Or.inr ⟨rfl, htext⟩⟩, ⟨rfl, ?_, Or.inr ⟨rfl, htext⟩⟩⟩
      · rw [hshort, he, ht]
        rfl
      · rw [htext, List.length_append]
        dsimp only [Scan.newline]
        omega
    · rename_i hcr hlf
      cases h
      exact ⟨fun _ => hq, hread _ rfl rfl rfl hlong hcr⟩
  split at h
  · cases h
  · rename_i hnot
    cases h
    exact ⟨fun hn => absurd hn hnot, hread _ rfl rfl rfl hlong fun hc => hnot (Or.inl hc)⟩

/-! ## Line terminators -/

def IsNewline (c : Point) : Prop := c.val = 0x0d ∨ c.val = 0x0a ∨ c.val = 0x2028 ∨ c.val = 0x2029

instance (c : Point) : Decidable (IsNewline c) :=
  inferInstanceAs (Decidable (c.val = 0x0d ∨ c.val = 0x0a ∨ c.val = 0x2028 ∨ c.val = 0x2029))

theorem lineTerminator_eq (c : Point) (s : List Point) :
    lineTerminator (c :: s) = if IsNewline c then some (plainRest c s) else none := by
  rw [lineTerminator, plainRest]
  by_cases h : c.val = 0x0d
  · rw [if_pos h, if_pos (show IsNewline c from Or.inl h), if_pos h]
  · rw [if_neg h, if_neg h]
    by_cases hnl : c.val = 0x0a ∨ c.val = 0x2028 ∨ c.val = 0x2029
    · rw [if_pos hnl, if_pos (show IsNewline c from Or.inr hnl)]
    · rw [if_neg hnl, if_neg (c := IsNewline c)]
      intro hor
      cases hor with
      | inl h' => exact h h'
      | inr h' => exact hnl h'

/-- The newline after a backslash is skipped, and it counts in the raw length as what it is in the raw value. -/
theorem lineContinuation_newline {c : Point} (hc : IsNewline c) (s : List Point) :
    ∃ adjust, lineContinuation (utf8 (c :: s)) = some (utf8 (plainRest c s), adjust) ∧
      ((utf8 (c :: s)).length : Int) + adjust = (utf8 (plainRest c s)).length + (cesu8 (plainUnits c)).length := by
  obtain ⟨b, t, he, -⟩ := encode_first c
  have hne : utf8 (c :: s) = b :: (t ++ utf8 s) := by
    rw [utf8_cons, he]
    rfl
  rw [hne, lineContinuation, plainRest, plainUnits]
  simp only [first_eq he (show 0x0d < 0x80 by decide), first_eq he (show 0x0a < 0x80 by decide)]
  by_cases hcr : c.val = 0x0d
  · have ht := tail_ascii he (by omega)
    have hskip := utf8_skipLineFeed s
    rw [if_pos hcr, if_pos hcr, if_pos hcr, ht, List.nil_append, lf_units]
    by_cases hlf : (utf8 s).head? = some 0x0a#8
    · rw [if_pos hlf] at hskip ⊢
      refine ⟨-1, by rw [hskip], ?_⟩
      rw [hskip]
      cases hs : utf8 s with
      | nil => rw [hs] at hlf; cases hlf
      | cons x r =>
        simp only [List.length_cons, List.tail_cons, List.length_nil]
        omega
    · rw [if_neg hlf] at hskip ⊢
      refine ⟨0, by rw [hskip], ?_⟩
      rw [hskip, List.length_cons, List.length_singleton]
      omega
  · rw [if_neg hcr, if_neg hcr, if_neg hcr]
    have hshort : ¬IsLong c := by
      rw [IsNewline] at hc
      rw [IsLong]
      omega
    have hlen : (cesu8 c.units).length = t.length + 1 := by
      rw [cesu8_units_short hshort, he, List.length_cons]
    by_cases hlf : c.val = 0x0a
    · have ht := tail_ascii he (by omega)
      rw [if_pos hlf]
      refine ⟨0, by rw [ht]; rfl, ?_⟩
      rw [hlen, ht, List.nil_append, List.length_cons]
      simp
    · have hls : c.val = 0x2028 ∨ c.val = 0x2029 := by
        rw [IsNewline] at hc
        omega
      have htwo : t.length = 2 := by
        have : c.encode.length = 3 := by
          rw [Point.encode, encode, if_neg (by omega), if_neg (by omega), if_pos (by omega)]
          rfl
        rw [he, List.length_cons] at this
        omega
      rw [if_neg hlf, if_pos ((isNewlineLsPs_iff he s).mpr hls)]
      refine ⟨0, by rw [← htwo, List.drop_left], ?_⟩
      rw [hlen, List.length_cons, List.length_append]
      omega

theorem lineContinuation_none {c : Point} (hc : ¬IsNewline c) (s : List Point) : lineContinuation (utf8 (c :: s)) = none := by
  obtain ⟨b, t, he, -⟩ := encode_first c
  have hne : utf8 (c :: s) = b :: (t ++ utf8 s) := by
    rw [utf8_cons, he]
    rfl
  rw [IsNewline] at hc
  rw [hne, lineContinuation]
  simp only [first_eq he (show 0x0d < 0x80 by decide), first_eq he (show 0x0a < 0x80 by decide), isNewlineLsPs_iff he]
  rw [if_neg (by omega), if_neg (by omega), if_neg (by omega)]

/-! ## Digits -/

theorem hexByte_eq {c : Point} {b : Byte} {t : List Byte} (he : c.encode = b :: t) : hexByte b = hexDigit c := by
  have hlow : ∀ b : Byte, b.toNat < 0x80 → hexByte b =
      if 0x30 ≤ b.toNat ∧ b.toNat ≤ 0x39 then some (b.toNat - 0x30)
      else if 0x61 ≤ b.toNat ∧ b.toNat ≤ 0x66 then some (b.toNat - 0x61 + 10)
      else if 0x41 ≤ b.toNat ∧ b.toNat ≤ 0x46 then some (b.toNat - 0x41 + 10)
      else none := by decide +kernel
  have hhigh : ∀ b : Byte, 0x80 ≤ b.toNat → hexByte b = none := by decide +kernel
  obtain ⟨b', t', he', -, -, hascii, hwide, -⟩ := encode_first c
  rw [he] at he'
  cases he'
  rw [hexDigit]
  by_cases h : c.val < 0x80
  · rw [hlow b (by rw [(hascii h).1]; exact h), (hascii h).1]
  · rw [hhigh b (hwide (Nat.le_of_not_lt h)), if_neg (by omega), if_neg (by omega), if_neg (by omega)]

theorem hexDigit_ascii {c : Point} {d : Nat} (h : hexDigit c = some d) : c.val < 0x80 ∧ d < 16 := by
  rw [hexDigit] at h
  split at h
  · cases h
    omega
  split at h
  · cases h
    omega
  split at h
  · cases h
    omega
  · cases h

theorem utf8_ascii {c : Point} (h : c.val < 0x80) (s : List Point) : utf8 (c :: s) = BitVec.ofNat 8 c.val :: utf8 s := by
  rw [utf8_cons, encode_ascii h]
  rfl

theorem lexerHexToCodePoint_eq {k n : Nat} {s : List Point} {m : Nat} (h : lexerHexToCodePoint k n (utf8 s) = some m) :
    ∃ rest, hexDigits k n s = some (m, rest) ∧ (utf8 s).drop k = utf8 rest ∧ m < (n + 1) * 16 ^ k := by
  induction k generalizing n s with
  | zero =>
    cases h
    exact ⟨s, rfl, rfl, by omega⟩
  | succ k ih =>
    cases s with
    | nil => cases h
    | cons c s =>
      obtain ⟨b, t, he, -⟩ := encode_first c
      rw [utf8_cons, he, List.cons_append, lexerHexToCodePoint, hexByte_eq he] at h
      rw [hexDigits]
      cases hd : hexDigit c with
      | none =>
        rw [hd] at h
        cases h
      | some d =>
        obtain ⟨hc, hlt⟩ := hexDigit_ascii hd
        rw [hd, tail_ascii he hc] at h
        obtain ⟨rest, hrest, hdrop, hm⟩ := ih h
        refine ⟨rest, hrest, ?_, ?_⟩
        · rw [utf8_ascii hc, List.drop_succ_cons]
          exact hdrop
        · calc m < (n * 16 + d + 1) * 16 ^ k := hm
            _ ≤ ((n + 1) * 16) * 16 ^ k := Nat.mul_le_mul_right _ (by omega)
            _ = (n + 1) * 16 ^ (k + 1) := by rw [Nat.mul_assoc, ← Nat.pow_succ']

theorem lexerHexInBracesToCodePoint_eq {n length length' : Nat} {s : List Point} {m : Nat}
    (h : lexerHexInBracesToCodePoint n length (utf8 s) = some (m, length')) :
    ∃ rest, bracedDigits n s = some (m, rest) ∧ length < length' ∧ (utf8 s).drop (length' - length + 1) = utf8 rest ∧
      m < 0x110000 := by
  induction s generalizing n length with
  | nil => cases h
  | cons c s ih =>
    obtain ⟨b, t, he, -⟩ := encode_first c
    rw [utf8_cons, he, List.cons_append, lexerHexInBracesToCodePoint, hexByte_eq he] at h
    rw [bracedDigits]
    cases hd : hexDigit c with
    | none =>
      rw [hd] at h
      cases h
    | some d =>
      obtain ⟨hc, -⟩ := hexDigit_ascii hd
      rw [hd, tail_ascii he hc, List.nil_append] at h
      dsimp only at h ⊢
      split at h
      · cases h
      rename_i hmax
      cases hs : utf8 s with
      | nil =>
        rw [hs] at h
        cases h
      | cons x r =>
        rw [hs] at h
        dsimp only at h
        have hhead := head_iff (show 0x7d < 0x80 by decide) s
        rw [hs, List.head?_cons, Option.some.injEq] at hhead
        rw [utf8_ascii hc]
        split at h
        · rename_i hne
          rw [← hs] at h
          obtain ⟨rest, hrest, hlt, hdrop, hm⟩ := ih h
          refine ⟨rest, ?_, by omega, ?_, hm⟩
          · rw [if_neg (fun hnext => hne (hhead.mpr hnext))]
            exact hrest
          · rw [show length' - length + 1 = (length' - (length + 1) + 1) + 1 by omega, List.drop_succ_cons]
            exact hdrop
        · rename_i heq
          have hnext := hhead.mp (Decidable.not_not.mp heq)
          have htail := tail_utf8 (by decide : 0x7d < 0x80) hnext
          cases h
          refine ⟨s.tail, if_pos hnext, Nat.lt_succ_self _, ?_, by omega⟩
          rw [← htail, Nat.add_sub_cancel_left, List.drop_succ_cons, List.drop_one]

theorem litCodePointGetCesu8Length_eq (c : Point) : litCodePointGetCesu8Length c.val = (cesu8 c.units).length := by
  rw [litCodePointGetCesu8Length]
  by_cases h : IsLong c
  · rw [(length_units_long h).1]
    rw [IsLong] at h
    rw [if_neg (by omega), if_neg (by omega), if_neg (by omega)]
  · rw [cesu8_units_short h, Point.encode, encode]
    rw [IsLong] at h
    split
    · rfl
    split
    · rfl
    · rw [if_pos (by omega), if_pos (by omega)]
      rfl

theorem octalCount_eq (k n : Nat) (s : List Point) :
    (utf8 s).drop (octalCount k (utf8 s)) = utf8 (octalDigits k n s).2 ∧
      n * 8 ^ octalCount k (utf8 s) ≤ (octalDigits k n s).1 ∧
      (octalDigits k n s).1 < (n + 1) * 8 ^ octalCount k (utf8 s) ∧ octalCount k (utf8 s) ≤ k := by
  induction k generalizing n s with
  | zero => exact ⟨rfl, by simp [octalCount, octalDigits], by simp [octalCount, octalDigits], Nat.le_refl _⟩
  | succ k ih =>
    cases s with
    | nil => exact ⟨rfl, by simp [utf8_nil, octalCount, octalDigits], by simp [utf8_nil, octalCount, octalDigits], Nat.zero_le _⟩
    | cons c s =>
      obtain ⟨b, t, he, -⟩ := encode_first c
      have hdigit : isOctalDigit b = true ↔ 0x30 ≤ c.val ∧ c.val ≤ 0x37 := by
        rw [isOctalDigit, Bool.and_eq_true, decide_eq_true_eq, decide_eq_true_eq, first_ge he (by decide),
          first_le he (by decide)]
      have htext : utf8 (c :: s) = b :: (t ++ utf8 s) := by
        rw [utf8_cons, he]
        rfl
      rw [octalDigits]
      by_cases hd : 0x30 ≤ c.val ∧ c.val ≤ 0x37
      · obtain ⟨hdrop, hlow, hhigh, hk⟩ := ih (n * 8 + (c.val - 0x30)) s
        rw [if_pos hd, htext, octalCount, if_pos (hdigit.mpr hd), tail_ascii he (by omega), List.nil_append]
        refine ⟨?_, ?_, ?_, by omega⟩
        · rw [List.drop_succ_cons]
          exact hdrop
        · calc n * 8 ^ (octalCount k (utf8 s) + 1) = (n * 8) * 8 ^ octalCount k (utf8 s) := by
                rw [Nat.pow_succ', Nat.mul_assoc]
            _ ≤ (n * 8 + (c.val - 0x30)) * 8 ^ octalCount k (utf8 s) := Nat.mul_le_mul_right _ (by omega)
            _ ≤ _ := hlow
        · calc _ < (n * 8 + (c.val - 0x30) + 1) * 8 ^ octalCount k (utf8 s) := hhigh
            _ ≤ ((n + 1) * 8) * 8 ^ octalCount k (utf8 s) := Nat.mul_le_mul_right _ (by omega)
            _ = (n + 1) * 8 ^ (octalCount k (utf8 s) + 1) := by rw [Nat.mul_assoc, ← Nat.pow_succ']
      · rw [if_neg hd, htext, octalCount, if_neg (fun h => hd (hdigit.mp h))]
        exact ⟨rfl, by simp, by simp, by omega⟩

end Lexer
end JJS
