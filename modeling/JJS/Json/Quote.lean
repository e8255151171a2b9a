import JJS.Json.Lexeme
import JJS.Json.Stringify

/-!
# JJS.Json.Quote

What `ecma_builtin_json_quote` writes: the text of the code units one after the other (`quoted`), where a
surrogate pair is kept and a lone surrogate is escaped. The text is a string body of the grammar that stands for
the same code units (`quote_literal`), and its own code units are clean (`Clean`): surrogates in pairs only, and no
control characters.
-/

namespace JJS
namespace Json

open Utf8 Lit Ecma404

/-- The text of a code unit that is not part of a surrogate pair. -/
def quoteUnit (u : CodeUnit) : Str :=
  if u = 0x5c#16 ∨ u = 0x22#16 then [0x5c#8, u.setWidth 8]
  else if u < 0x20#16 ∨ (litIsHighSurrogate u || litIsLowSurrogate u) then escapeText u
  else encode u.toNat

/-- The text of the code units. -/
def quoted : List CodeUnit → Str
  | [] => []
  | [u] => quoteUnit u
  | u :: v :: us =>
    if litIsHighSurrogate u && litIsLowSurrogate v then encode u.toNat ++ (encode v.toNat ++ quoted us)
    else quoteUnit u ++ quoted (v :: us)

/-! ## The loop -/

theorem encode_ne_nil (u : CodeUnit) : encode u.toNat ≠ [] := (unitPoint u).sequence.ne_nil

theorem encode_low {u : CodeUnit} (h : u < 0x80#16) : encode u.toNat = [u.setWidth 8] := by
  have hlt : u.toNat < 0x80 := h
  rw [encode, if_pos hlt, BitVec.ofNat_toNat]

theorem quoteLoop_read {fuel size : Nat} {B R s : List Byte} {c : CodeUnit}
    (h : litReadCodeUnitFromCesu8 s = some (size, c)) :
    quoteLoop (fuel + 1) B R s =
      if litIsHighSurrogate c && lowAhead (s.drop size) then
        quoteLoop fuel B (R ++ s.take size ++ (s.drop size).take 3) ((s.drop size).drop 3)
      else if c = 0x5c#16 ∨ c = 0x22#16 then
        quoteLoop fuel (B ++ (R ++ s.take size).take ((R ++ s.take size).length - 1) ++ [0x5c#8, c.setWidth 8]) []
          (s.drop size)
      else if c < 0x20#16 ∨ (litIsHighSurrogate c || litIsLowSurrogate c) then
        quoteLoop fuel (B ++ (R ++ s.take size).take ((R ++ s.take size).length -
          if litIsHighSurrogate c || litIsLowSurrogate c then 3 else 1) ++ escapeText c) [] (s.drop size)
      else quoteLoop fuel B (R ++ s.take size) (s.drop size) := by
  cases s with
  | nil => cases h
  | cons b s =>
    rw [quoteLoop, h]

theorem lowAhead_cesu8 (v : CodeUnit) (us : List CodeUnit) : lowAhead (cesu8 (v :: us)) = litIsLowSurrogate v := by
  rw [lowAhead, cesu8_cons, litReadCodeUnitFromCesu8_append]

theorem quoteLoop_pair {fuel : Nat} {B R : List Byte} {u v : CodeUnit} {us : List CodeUnit}
    (hu : litIsHighSurrogate u = true) (hv : litIsLowSurrogate v = true) :
    quoteLoop (fuel + 1) B R (cesu8 (u :: v :: us)) =
      quoteLoop fuel B (R ++ (encode u.toNat ++ encode v.toNat)) (cesu8 us) := by
  have hlow : lowAhead (cesu8 (v :: us)) = true := by rw [lowAhead_cesu8, hv]
  have hlen := length_encode_surrogate (.inr ((litIsLowSurrogate_iff v).mp hv))
  rw [cesu8_cons, quoteLoop_read (litReadCodeUnitFromCesu8_append u _), List.drop_left, List.take_left, hu, hlow]
  simp only [Bool.and_self, if_true]
  rw [cesu8_cons, ← hlen, List.take_left, List.drop_left, List.append_assoc]

theorem quoteLoop_unit (fuel : Nat) (B R : List Byte) {u : CodeUnit} {us : List CodeUnit}
    (h : ¬ (litIsHighSurrogate u && lowAhead (cesu8 us)) = true) :
    ∃ B' R', quoteLoop (fuel + 1) B R (cesu8 (u :: us)) = quoteLoop fuel B' R' (cesu8 us) ∧
      B' ++ R' = B ++ R ++ quoteUnit u := by
  have hdrop : ∀ n, n = (encode u.toNat).length → (R ++ encode u.toNat).take ((R ++ encode u.toNat).length - n) = R := by
    intro n hn
    rw [List.length_append, hn, Nat.add_sub_cancel, List.take_left]
  rw [cesu8_cons, quoteLoop_read (litReadCodeUnitFromCesu8_append u _), List.drop_left, List.take_left, if_neg h, quoteUnit]
  by_cases h1 : u = 0x5c#16 ∨ u = 0x22#16
  · have hlen : 1 = (encode u.toNat).length := by
      rcases h1 with rfl | rfl <;> rfl
    rw [if_pos h1, if_pos h1, hdrop 1 hlen]
    exact ⟨_, [], rfl, by simp⟩
  rw [if_neg h1, if_neg h1]
  by_cases h2 : u < 0x20#16 ∨ (litIsHighSurrogate u || litIsLowSurrogate u) = true
  · rw [if_pos h2, if_pos h2, hdrop]
    · exact ⟨_, [], rfl, by simp⟩
    · by_cases hsur : (litIsHighSurrogate u || litIsLowSurrogate u) = true
      · rw [if_pos hsur, length_encode_surrogate]
        simpa [litIsHighSurrogate_iff, litIsLowSurrogate_iff] using hsur
      · have hlt : u < 0x80#16 := by
          have h20 := h2.resolve_right hsur
          bv_omega
        rw [if_neg hsur, encode_low hlt]
        rfl
  · rw [if_neg h2, if_neg h2]
    exact ⟨_, _, rfl, by simp⟩

theorem quoteLoop_eq (us : List CodeUnit) (fuel : Nat) (B R : List Byte) (hf : us.length ≤ fuel) :
    quoteLoop fuel B R (cesu8 us) = some (B ++ R ++ quoted us) := by
  induction us using quoted.induct generalizing fuel B R with
  | case1 => cases fuel <;> simp [quoteLoop, quoted]
  | case2 u =>
    cases fuel with
    | zero => simp at hf
    | succ fuel =>
      have hunit : ∀ u, ¬ (litIsHighSurrogate u && lowAhead (cesu8 [])) = true := by
        intro u
        have hlow : lowAhead (cesu8 []) = false := rfl
        rw [hlow, Bool.and_false]
        exact Bool.false_ne_true
      obtain ⟨B', R', hstep, hcat⟩ := quoteLoop_unit fuel B R (hunit u)
      rw [hstep, cesu8_nil, quoted, ← hcat]
      cases fuel <;> rfl
  | case3 u v us hpair ih =>
    cases fuel with
    | zero => simp at hf
    | succ fuel =>
      rw [Bool.and_eq_true] at hpair
      rw [quoteLoop_pair hpair.1 hpair.2, ih fuel _ _ (by simp at hf; omega), quoted, if_pos (by simp [hpair])]
      simp
  | case4 u v us hpair ih =>
    cases fuel with
    | zero => simp at hf
    | succ fuel =>
      obtain ⟨B', R', hstep, hcat⟩ := quoteLoop_unit fuel B R (lowAhead_cesu8 v us ▸ hpair)
      rw [hstep, ih fuel _ _ (by simp at hf ⊢; omega), hcat, quoted, if_neg hpair, List.append_assoc]

theorem quote_eq (us : List CodeUnit) : quote (cesu8 us) = some (0x22#8 :: (quoted us ++ [0x22#8])) := by
  rw [quote, quoteLoop_eq us _ _ _ (length_le_cesu8 us)]
  simp

/-! ## The text is a string body -/

theorem hexDigit_escapeDigit {d : Nat} (h : d < 16) : hexDigit (escapeDigit d) = some d := by
  have key : ∀ d : Fin 16, hexDigit (escapeDigit d.val) = some d.val := by decide
  exact key ⟨d, h⟩

theorem body_hex {s : List Byte} {us : List CodeUnit} (u : CodeUnit) (h : StringBody s us) :
    StringBody (litCharUnicodeEscape u ++ s) (u :: us) := by
  have hlt := u.isLt
  have hsum : ((u.toNat / 2 ^ (3 * 4) % 16 * 16 + u.toNat / 2 ^ (2 * 4) % 16) * 16 + u.toNat / 2 ^ (1 * 4) % 16) * 16 +
      u.toNat / 2 ^ (0 * 4) % 16 = u.toNat := by omega
  have hmod : ∀ n, n % 16 < 16 := fun n => Nat.mod_lt n (by decide)
  have hbody := StringBody.hex (hexDigit_escapeDigit (hmod (u.toNat / 2 ^ (3 * 4))))
    (hexDigit_escapeDigit (hmod (u.toNat / 2 ^ (2 * 4)))) (hexDigit_escapeDigit (hmod (u.toNat / 2 ^ (1 * 4))))
    (hexDigit_escapeDigit (hmod (u.toNat / 2 ^ (0 * 4)))) h
  rw [hsum, BitVec.ofNat_toNat, BitVec.setWidth_eq] at hbody
  exact hbody

theorem body_escapeText {s : List Byte} {us : List CodeUnit} (u : CodeUnit) (h : StringBody s us) :
    StringBody (escapeText u ++ s) (u :: us) := by
  unfold escapeText
  split
  · rename_i hu
    rw [hu]
    exact .escape (by decide) h
  split
  · rename_i hu
    rw [hu]
    exact .escape (by decide) h
  split
  · rename_i hu
    rw [hu]
    exact .escape (by decide) h
  split
  · rename_i hu
    rw [hu]
    exact .escape (by decide) h
  split
  · rename_i hu
    rw [hu]
    exact .escape (by decide) h
  · exact body_hex u h

theorem body_char {s : List Byte} {us : List CodeUnit} {u : CodeUnit} (h1 : 0x20 ≤ u.toNat) (h2 : u.toNat ≠ 0x22)
    (h3 : u.toNat ≠ 0x5c) (h : StringBody s us) : StringBody (encode u.toNat ++ s) (u :: us) := by
  have hbody := StringBody.char (c := unitPoint u) h1 h2 h3 h
  rw [unitPoint_encode, unitPoint_units] at hbody
  exact hbody

theorem body_unit {s : List Byte} {us : List CodeUnit} (u : CodeUnit) (h : StringBody s us) :
    StringBody (quoteUnit u ++ s) (u :: us) := by
  unfold quoteUnit
  split
  · rename_i hu
    rcases hu with rfl | rfl
    · exact .escape (by decide) h
    · exact .escape (by decide) h
  · rename_i hu
    split
    · exact body_escapeText u h
    · rename_i hctl
      have h1 : ¬ u < 0x20#16 := fun h => hctl (.inl h)
      refine body_char ?_ ?_ ?_ h
      · bv_omega
      · intro heq
        exact hu (.inr (BitVec.eq_of_toNat_eq heq))
      · intro heq
        exact hu (.inl (BitVec.eq_of_toNat_eq heq))

theorem body_surrogate {s : List Byte} {us : List CodeUnit} {u : CodeUnit} (hu : IsHighUnit u ∨ IsLowUnit u)
    (h : StringBody s us) : StringBody (encode u.toNat ++ s) (u :: us) := by
  have hle : 0xD800 ≤ u.toNat := by
    rcases hu with ⟨h1, -⟩ | ⟨h1, -⟩
    · exact h1
    · omega
  exact body_char (by omega) (by omega) (by omega) h

theorem quoted_body (us : List CodeUnit) : StringBody (quoted us) us := by
  induction us using quoted.induct with
  | case1 => exact .nil
  | case2 u =>
    rw [quoted, ← List.append_nil (quoteUnit u)]
    exact body_unit u .nil
  | case3 u v us hpair ih =>
    rw [Bool.and_eq_true] at hpair
    rw [quoted, if_pos (by simp [hpair])]
    exact body_surrogate (.inl ((litIsHighSurrogate_iff u).mp hpair.1))
      (body_surrogate (.inr ((litIsLowSurrogate_iff v).mp hpair.2)) ih)
  | case4 u v us hpair ih =>
    rw [quoted, if_neg hpair]
    exact body_unit u ih

/-- A string is quoted to a literal that stands for it. -/
theorem quote_literal (us : List CodeUnit) : ∃ q, quote (cesu8 us) = some q ∧ StringLiteral q us :=
  ⟨_, quote_eq us, quoted us, quoted_body us, rfl⟩

/-! ## The text is clean -/

/-- The bytes of a text of paired code units; control characters are `ok`. -/
def Clean (ok : Byte → Prop) (s : List Byte) : Prop :=
  ∃ us, s = cesu8 us ∧ Paired us ∧ ∀ u ∈ us, u.toNat < 0x20 → ok (BitVec.ofNat 8 u.toNat)

variable {ok : Byte → Prop}

theorem clean_nil : Clean ok [] := ⟨[], rfl, .nil, by simp⟩

theorem Clean.append {s t : List Byte} (hs : Clean ok s) (ht : Clean ok t) : Clean ok (s ++ t) := by
  obtain ⟨us, rfl, hu, hok⟩ := hs
  obtain ⟨vs, rfl, hv, hok'⟩ := ht
  refine ⟨us ++ vs, (cesu8_append us vs).symm, hu.append hv, ?_⟩
  intro u hmem
  cases List.mem_append.mp hmem with
  | inl h => exact hok u h
  | inr h => exact hok' u h

/-- A code unit that is no surrogate and no control character. -/
theorem clean_unit {u : CodeUnit} (h1 : ¬ IsHighUnit u) (h2 : ¬ IsLowUnit u) (h3 : 0x20 ≤ u.toNat) :
    Clean ok (encode u.toNat) := by
  refine ⟨[u], by simp, .unit h1 h2 .nil, ?_⟩
  intro v hv hlt
  rw [List.mem_singleton.mp hv] at hlt
  omega

theorem clean_ascii {s : List Byte} (h : ∀ b ∈ s, b.toNat < 0x80 ∧ (b.toNat < 0x20 → ok b)) : Clean ok s := by
  induction s with
  | nil => exact clean_nil
  | cons b s ih =>
    obtain ⟨hb, hok⟩ := h b (by simp)
    have h16 : (b.setWidth 16).toNat = b.toNat := by
      rw [BitVec.toNat_setWidth, Nat.mod_eq_of_lt (by omega)]
    have henc : encode (b.setWidth 16).toNat = [b] := by
      rw [h16, encode, if_pos hb, ofNat_eq rfl]
    have hone : Clean ok [b] := by
      refine ⟨[b.setWidth 16], by rw [cesu8_cons, cesu8_nil, henc]; rfl, .unit ?_ ?_ .nil, ?_⟩
      · intro hhigh
        have := hhigh.1
        omega
      · intro hlow
        have := hlow.1
        omega
      · intro v hv hlt
        rw [List.mem_singleton.mp hv, h16] at hlt ⊢
        rw [ofNat_eq rfl]
        exact hok hlt
    exact hone.append (ih fun x hx => h x (by simp [hx]))

theorem clean_printable {s : List Byte} (h : ∀ b ∈ s, Printable b) : Clean ok s :=
  clean_ascii fun b hb => ⟨(h b hb).2, fun hlt => absurd (h b hb).1 (by omega)⟩

theorem clean_escapeText (u : CodeUnit) : Clean ok (escapeText u) := by
  have hdigit : ∀ n, Printable (escapeDigit (n % 16)) := by
    have key : ∀ d : Fin 16, Printable (escapeDigit d.val) := by decide
    intro n
    exact key ⟨n % 16, Nat.mod_lt n (by decide)⟩
  apply clean_printable
  unfold escapeText
  split
  · decide
  split
  · decide
  split
  · decide
  split
  · decide
  split
  · decide
  · intro b hb
    simp only [litCharUnicodeEscape, List.map_cons, List.map_nil, List.mem_cons, List.not_mem_nil, or_false] at hb
    rcases hb with rfl | rfl | rfl | rfl | rfl | rfl
    · decide
    · decide
    · exact hdigit _
    · exact hdigit _
    · exact hdigit _
    · exact hdigit _

theorem clean_quoteUnit (u : CodeUnit) : Clean ok (quoteUnit u) := by
  unfold quoteUnit
  split
  · rename_i hu
    rcases hu with rfl | rfl
    · exact clean_printable (by decide)
    · exact clean_printable (by decide)
  · split
    · exact clean_escapeText u
    · rename_i hctl
      have h1 : ¬ u < 0x20#16 := fun h => hctl (.inl h)
      have h2 : ¬ (litIsHighSurrogate u || litIsLowSurrogate u) = true := fun h => hctl (.inr h)
      rw [Bool.or_eq_true, litIsHighSurrogate_iff, litIsLowSurrogate_iff] at h2
      exact clean_unit (fun h => h2 (.inl h)) (fun h => h2 (.inr h)) (by bv_omega)

theorem clean_pair {u v : CodeUnit} (hu : IsHighUnit u) (hv : IsLowUnit v) :
    Clean ok (encode u.toNat ++ encode v.toNat) := by
  refine ⟨[u, v], by simp, .pair hu hv .nil, ?_⟩
  intro x hx hlt
  have h1 := hu.1
  have h2 := hv.1
  rcases List.mem_cons.mp hx with rfl | hx
  · omega
  · rw [List.mem_singleton.mp hx] at hlt
    omega

theorem clean_quoted (us : List CodeUnit) : Clean ok (quoted us) := by
  induction us using quoted.induct with
  | case1 => exact clean_nil
  | case2 u => exact clean_quoteUnit u
  | case3 u v us hpair ih =>
    rw [Bool.and_eq_true] at hpair
    rw [quoted, if_pos (by simp [hpair]), ← List.append_assoc]
    exact (clean_pair ((litIsHighSurrogate_iff u).mp hpair.1) ((litIsLowSurrogate_iff v).mp hpair.2)).append ih
  | case4 u v us hpair ih =>
    rw [quoted, if_neg hpair]
    exact (clean_quoteUnit u).append ih

theorem clean_quote {us : List CodeUnit} {q : Str} (h : quote (cesu8 us) = some q) : Clean ok q := by
  rw [quote_eq] at h
  cases h
  have hmark : Clean ok [0x22#8] := clean_printable (by decide)
  exact hmark.append ((clean_quoted us).append hmark)

end Json
end JJS
