import JJS.Lib.Utf8

/-!
# JJS.Lib.StringLiteral

The string literals and template parts of ECMAScript, over code points. An `Element` is a character, an escape or a
line continuation; `element` reads one. `cooked` reads a literal or a part of a template up to its end and gives its
string value (SV, TV), and `raw` gives the raw value (TRV) of a part of a template. A template with an escape that only
strings have has no TV.
-/

namespace StringLiteral

open Utf8

/-- What a literal is made of, with the code point that it stands for. -/
inductive Element where
  | character (c : Point)
  | lineFeed
  | escape (c : Point)
  | legacy (c : Point)
  | continuation
deriving DecidableEq

/-- The line feed. -/
def lf : Point := 0x0a

def Element.units : Element → List CodeUnit
  | .character c | .escape c | .legacy c => c.units
  | .lineFeed => lf.units
  | .continuation => []

def Element.IsLegacy : Element → Prop
  | .legacy _ => True
  | _ => False

instance (e : Element) : Decidable e.IsLegacy := by
  cases e with
  | legacy c => exact isTrue trivial
  | character c => exact isFalse id
  | lineFeed => exact isFalse id
  | escape c => exact isFalse id
  | continuation => exact isFalse id

/-- The next code point is the given one. -/
def Next (n : Nat) : List Point → Prop
  | [] => False
  | c :: _ => c.val = n

instance (n : Nat) : (s : List Point) → Decidable (Next n s)
  | [] => isFalse id
  | c :: _ => inferInstanceAs (Decidable (c.val = n))

/-- A line feed after a carriage return belongs to it. -/
def skipLineFeed : List Point → List Point
  | [] => []
  | c :: s => if c.val = 0x0a then s else c :: s

/-- What follows a line terminator. -/
def lineTerminator : List Point → Option (List Point)
  | [] => none
  | c :: s =>
    if c.val = 0x0d then some (skipLineFeed s)
    else if c.val = 0x0a ∨ c.val = 0x2028 ∨ c.val = 0x2029 then some s
    else none

/-! ## Escapes -/

def IsDecimalDigit (c : Point) : Prop := 0x30 ≤ c.val ∧ c.val ≤ 0x39

instance (c : Point) : Decidable (IsDecimalDigit c) := inferInstanceAs (Decidable (0x30 ≤ c.val ∧ c.val ≤ 0x39))

/-- A decimal digit comes next. -/
def NextIsDigit : List Point → Prop
  | [] => False
  | c :: _ => IsDecimalDigit c

instance : (s : List Point) → Decidable (NextIsDigit s)
  | [] => isFalse id
  | c :: _ => inferInstanceAs (Decidable (IsDecimalDigit c))

/-- The value of a hexadecimal digit. -/
def hexDigit (c : Point) : Option Nat :=
  if 0x30 ≤ c.val ∧ c.val ≤ 0x39 then some (c.val - 0x30)
  else if 0x61 ≤ c.val ∧ c.val ≤ 0x66 then some (c.val - 0x61 + 10)
  else if 0x41 ≤ c.val ∧ c.val ≤ 0x46 then some (c.val - 0x41 + 10)
  else none

/-- So many hexadecimal digits, after digits with the given value. -/
def hexDigits : Nat → Nat → List Point → Option (Nat × List Point)
  | 0, n, s => some (n, s)
  | _ + 1, _, [] => none
  | k + 1, n, c :: s =>
    match hexDigit c with
    | some d => hexDigits k (n * 16 + d) s
    | none => none

/-- Hexadecimal digits up to a right brace. -/
def bracedDigits : Nat → List Point → Option (Nat × List Point)
  | _, [] => none
  | n, c :: s =>
    match hexDigit c with
    | none => none
    | some d => if Next 0x7d s then some (n * 16 + d, s.tail) else bracedDigits (n * 16 + d) s

/-- A code point, where the number is one. -/
def codePoint (r : Nat × List Point) : Option (Element × List Point) :=
  if h : r.1 < 0x110000 then some (.escape ⟨r.1, h⟩, r.2) else none

/-- Octal digits, at most so many, after digits with the given value. -/
def octalDigits : Nat → Nat → List Point → Nat × List Point
  | 0, n, s => (n, s)
  | _ + 1, n, [] => (n, [])
  | k + 1, n, c :: s => if 0x30 ≤ c.val ∧ c.val ≤ 0x37 then octalDigits k (n * 8 + (c.val - 0x30)) s else (n, c :: s)

/-- Up to two digits after the first one when it is at most three, else up to one. -/
def legacyOctal (c : Point) (s : List Point) : Element × List Point :=
  let r := octalDigits (if c.val ≤ 0x33 then 2 else 1) (c.val - 0x30) s
  (.legacy (Fin.ofNat 0x110000 r.1), r.2)

/-- What a character stands for after a backslash. -/
def singleEscape (c : Point) : Point :=
  if c.val = 0x62 then 0x08 else if c.val = 0x74 then 0x09 else if c.val = 0x6e then 0x0a
  else if c.val = 0x76 then 0x0b else if c.val = 0x66 then 0x0c else if c.val = 0x72 then 0x0d else c

/-- What follows a backslash. -/
def escape : List Point → Option (Element × List Point)
  | [] => none
  | c :: s =>
    match lineTerminator (c :: s) with
    | some rest => some (.continuation, rest)
    | none =>
      if c.val = 0x30 ∧ ¬ NextIsDigit s then some (.escape 0, s)
      else if 0x30 ≤ c.val ∧ c.val ≤ 0x37 then some (legacyOctal c s)
      else if c.val = 0x38 ∨ c.val = 0x39 then some (.legacy c, s)
      else if c.val = 0x78 then (hexDigits 2 0 s).bind codePoint
      else if c.val = 0x75 then
        if Next 0x7b s then (bracedDigits 0 s.tail).bind codePoint else (hexDigits 4 0 s).bind codePoint
      else some (.escape (singleEscape c), s)

/-! ## Literals -/

/-- The grave accent delimits templates. -/
def IsTemplate (delimiter : Point) : Prop := delimiter.val = 0x60

instance (delimiter : Point) : Decidable (IsTemplate delimiter) := inferInstanceAs (Decidable (delimiter.val = 0x60))

/-- An element of a literal. -/
def element (delimiter : Point) : List Point → Option (Element × List Point)
  | [] => none
  | c :: s =>
    if c.val = 0x5c then escape s
    else if c.val = 0x0d then if IsTemplate delimiter then some (.lineFeed, skipLineFeed s) else none
    else if c.val = 0x0a then if IsTemplate delimiter then some (.character c, s) else none
    else some (.character c, s)

/-- The text behind the end, where the literal ends here. -/
def ending (delimiter : Point) : List Point → Option (List Point)
  | [] => none
  | c :: s =>
    if c = delimiter then some s
    else if IsTemplate delimiter ∧ c.val = 0x24 ∧ Next 0x7b s then some s.tail
    else none

/-! ## What is left is the end of the text -/

section

variable {delimiter c : Point} {s rest : List Point} {e : Element}

theorem skipLineFeed_suffix (s : List Point) : skipLineFeed s <:+ s := by
  cases s with
  | nil => exact List.suffix_refl _
  | cons c s =>
    rw [skipLineFeed]
    split
    · exact List.suffix_cons c s
    · exact List.suffix_refl _

theorem lineTerminator_suffix (h : lineTerminator (c :: s) = some rest) : rest <:+ s := by
  rw [lineTerminator] at h
  split at h
  · cases h
    exact skipLineFeed_suffix s
  split at h
  · cases h
    exact List.suffix_refl _
  · cases h

theorem hexDigits_suffix {k n : Nat} {r : Nat × List Point} (h : hexDigits k n s = some r) : r.2 <:+ s := by
  induction k generalizing n s with
  | zero =>
    cases h
    exact List.suffix_refl _
  | succ k ih =>
    cases s with
    | nil => cases h
    | cons c s =>
      rw [hexDigits] at h
      split at h
      · exact (ih h).trans (List.suffix_cons c s)
      · cases h

theorem bracedDigits_suffix {n : Nat} {r : Nat × List Point} (h : bracedDigits n s = some r) : r.2 <:+ s := by
  induction s generalizing n with
  | nil => cases h
  | cons c s ih =>
    rw [bracedDigits] at h
    split at h
    · cases h
    split at h
    · cases h
      exact (List.tail_suffix s).trans (List.suffix_cons c s)
    · exact (ih h).trans (List.suffix_cons c s)

theorem octalDigits_suffix (k n : Nat) (s : List Point) : (octalDigits k n s).2 <:+ s := by
  induction k generalizing n s with
  | zero => exact List.suffix_refl _
  | succ k ih =>
    cases s with
    | nil => exact List.suffix_refl _
    | cons c s =>
      rw [octalDigits]
      split
      · exact (ih _ s).trans (List.suffix_cons c s)
      · exact List.suffix_refl _

theorem codePoint_eq {r : Nat × List Point} (h : codePoint r = some (e, rest)) :
    rest = r.2 ∧ ∃ c : Point, e = .escape c ∧ c.val = r.1 := by
  rw [codePoint] at h
  split at h
  · cases h
    exact ⟨rfl, _, rfl, rfl⟩
  · cases h

theorem escape_suffix (h : escape (c :: s) = some (e, rest)) : rest <:+ s := by
  rw [escape] at h
  split at h
  · rename_i hline
    cases h
    exact lineTerminator_suffix hline
  split at h
  · cases h
    exact List.suffix_refl _
  split at h
  · cases h
    exact octalDigits_suffix _ _ s
  split at h
  · cases h
    exact List.suffix_refl _
  split at h
  · obtain ⟨r, hr, hc⟩ := Option.bind_eq_some_iff.mp h
    rw [(codePoint_eq hc).1]
    exact hexDigits_suffix hr
  split at h
  · split at h
    · obtain ⟨r, hr, hc⟩ := Option.bind_eq_some_iff.mp h
      rw [(codePoint_eq hc).1]
      exact (bracedDigits_suffix hr).trans (List.tail_suffix s)
    · obtain ⟨r, hr, hc⟩ := Option.bind_eq_some_iff.mp h
      rw [(codePoint_eq hc).1]
      exact hexDigits_suffix hr
  · cases h
    exact List.suffix_refl _

theorem element_suffix (h : element delimiter (c :: s) = some (e, rest)) : rest <:+ s := by
  rw [element] at h
  split at h
  · cases s with
    | nil => cases h
    | cons d s => exact (escape_suffix h).trans (List.suffix_cons d s)
  split at h
  · split at h
    · cases h
      exact skipLineFeed_suffix s
    · cases h
  split at h
  · split at h
    · cases h
      exact List.suffix_refl _
    · cases h
  · cases h
    exact List.suffix_refl _

theorem element_length (h : element delimiter s = some (e, rest)) : rest.length < s.length := by
  cases s with
  | nil => cases h
  | cons c s => exact Nat.lt_succ_of_le (element_suffix h).length_le

end

/-! ## Values -/

/-- The elements up to the end of the literal, and the text behind it. -/
def elements (delimiter : Point) (s : List Point) : Option (List Element × List Point) :=
  match ending delimiter s with
  | some rest => some ([], rest)
  | none =>
    match h : element delimiter s with
    | none => none
    | some (e, s') => (elements delimiter s').map fun r => (e :: r.1, r.2)
termination_by s.length
decreasing_by exact element_length h

theorem elements_ending {delimiter : Point} {s rest : List Point} (h : ending delimiter s = some rest) :
    elements delimiter s = some ([], rest) := by
  rw [elements, h]

theorem elements_element {delimiter : Point} {s s' : List Point} {e : Element} (hend : ending delimiter s = none)
    (h : element delimiter s = some (e, s')) :
    elements delimiter s = (elements delimiter s').map fun r => (e :: r.1, r.2) := by
  rw [elements, hend]
  dsimp only
  split
  · rename_i hnone
    rw [h] at hnone
    cases hnone
  · rename_i hsome
    rw [h] at hsome
    cases hsome
    rfl

theorem elements_none {delimiter : Point} {s : List Point} (hend : ending delimiter s = none)
    (h : element delimiter s = none) : elements delimiter s = none := by
  rw [elements, hend]
  dsimp only
  split
  · rfl
  · rename_i hsome
    rw [h] at hsome
    cases hsome

/-- A template with an octal escape, or with an escaped eight or nine, has no value. -/
def Valueless (delimiter : Point) (es : List Element) : Prop := IsTemplate delimiter ∧ ∃ e ∈ es, e.IsLegacy

instance (delimiter : Point) (es : List Element) : Decidable (Valueless delimiter es) :=
  inferInstanceAs (Decidable (IsTemplate delimiter ∧ ∃ e ∈ es, e.IsLegacy))

/-- The string value or template value, and the text behind the end. -/
def cooked (delimiter : Point) (s : List Point) : Option (List CodeUnit × List Point) :=
  match elements delimiter s with
  | none => none
  | some (es, rest) => if Valueless delimiter es then none else some (es.flatMap Element.units, rest)

/-- What a character stands for in the raw value: line terminators are normalised. -/
def rawUnits (c : Point) (s : List Point) : List CodeUnit :=
  if c.val = 0x0d then if Next 0x0a s then [] else lf.units else c.units

/-- The template raw value, and the text behind the end. -/
def raw : List Point → Option (List CodeUnit × List Point)
  | [] => none
  | c :: s =>
    if c.val = 0x60 then some ([], s)
    else if c.val = 0x24 ∧ Next 0x7b s then some ([], s.tail)
    else if c.val = 0x5c then
      match s with
      | [] => none
      | d :: s => (raw s).map fun r => (c.units ++ (rawUnits d s ++ r.1), r.2)
    else (raw s).map fun r => (rawUnits c s ++ r.1, r.2)

section

variable {c d : Point} {s : List Point}

theorem raw_accent (h : c.val = 0x60) : raw (c :: s) = some ([], s) := by
  rw [raw.eq_def]
  exact if_pos h

theorem raw_substitution (h : c.val = 0x24) (hnext : Next 0x7b s) : raw (c :: s) = some ([], s.tail) := by
  rw [raw.eq_def]
  dsimp only
  rw [if_neg (by omega), if_pos ⟨h, hnext⟩]

theorem raw_escaped (h : c.val = 0x5c) :
    raw (c :: d :: s) = (raw s).map fun r => (c.units ++ (rawUnits d s ++ r.1), r.2) := by
  rw [raw.eq_def]
  dsimp only
  rw [if_neg (by omega), if_neg (by omega), if_pos h]

theorem raw_backslash (h : c.val = 0x5c) : raw [c] = none := by
  rw [raw.eq_def]
  dsimp only
  rw [if_neg (by omega), if_neg (by omega), if_pos h]

theorem raw_plain (h1 : c.val ≠ 0x60) (h2 : c.val ≠ 0x5c) (h3 : ¬ (c.val = 0x24 ∧ Next 0x7b s)) :
    raw (c :: s) = (raw s).map fun r => (rawUnits c s ++ r.1, r.2) := by
  rw [raw.eq_def]
  dsimp only
  rw [if_neg h1, if_neg h3, if_neg h2]

end

/-! ## The two values of a part of a template end at the same place -/

/-- Where the raw value ends. -/
def rawEnd (s : List Point) : Option (List Point) := (raw s).map Prod.snd

section

variable {c d : Point} {s rest : List Point} {e : Element}

theorem rawEnd_plain (h1 : c.val ≠ 0x60) (h2 : c.val ≠ 0x5c) (h3 : ¬ (c.val = 0x24 ∧ Next 0x7b s)) :
    rawEnd (c :: s) = rawEnd s := by
  rw [rawEnd, raw_plain h1 h2 h3, Option.map_map]
  rfl

theorem rawEnd_escaped (h : c.val = 0x5c) : rawEnd (c :: d :: s) = rawEnd s := by
  rw [rawEnd, raw_escaped h, Option.map_map]
  rfl

theorem rawEnd_skipLineFeed (s : List Point) : rawEnd (skipLineFeed s) = rawEnd s := by
  cases s with
  | nil => rfl
  | cons c s =>
    rw [skipLineFeed]
    split
    · exact (rawEnd_plain (by omega) (by omega) (by omega)).symm
    · rfl

theorem hexDigit_range {n : Nat} (h : hexDigit c = some n) :
    0x30 ≤ c.val ∧ c.val ≤ 0x39 ∨ 0x41 ≤ c.val ∧ c.val ≤ 0x46 ∨ 0x61 ≤ c.val ∧ c.val ≤ 0x66 := by
  rw [hexDigit] at h
  split at h
  · omega
  split at h
  · omega
  split at h
  · omega
  · cases h

theorem rawEnd_hexDigits {k n : Nat} {r : Nat × List Point} (h : hexDigits k n s = some r) : rawEnd s = rawEnd r.2 := by
  induction k generalizing n s with
  | zero =>
    cases h
    rfl
  | succ k ih =>
    cases s with
    | nil => cases h
    | cons c s =>
      rw [hexDigits] at h
      split at h
      · rename_i d hd
        have hrange := hexDigit_range hd
        rw [rawEnd_plain (by omega) (by omega) (by omega)]
        exact ih h
      · cases h

theorem rawEnd_next {n : Nat} (hn : 0x7b ≤ n) (h : Next n s) : rawEnd s = rawEnd s.tail := by
  cases s with
  | nil => rfl
  | cons c s =>
    rw [Next] at h
    exact rawEnd_plain (by omega) (by omega) (by omega)

theorem rawEnd_bracedDigits {n : Nat} {r : Nat × List Point} (h : bracedDigits n s = some r) :
    rawEnd s = rawEnd r.2 := by
  induction s generalizing n with
  | nil => cases h
  | cons c s ih =>
    rw [bracedDigits] at h
    split at h
    · cases h
    rename_i d hd
    have hrange := hexDigit_range hd
    rw [rawEnd_plain (by omega) (by omega) (by omega)]
    split at h
    · rename_i hnext
      cases h
      exact rawEnd_next (by decide) hnext
    · exact ih h

theorem rawEnd_octalDigits (k n : Nat) (s : List Point) : rawEnd s = rawEnd (octalDigits k n s).2 := by
  induction k generalizing n s with
  | zero => rfl
  | succ k ih =>
    cases s with
    | nil => rfl
    | cons c s =>
      rw [octalDigits]
      split
      · rw [rawEnd_plain (by omega) (by omega) (by omega)]
        exact ih _ s
      · rfl

theorem rawEnd_lineTerminator (h : lineTerminator (d :: s) = some rest) : rawEnd s = rawEnd rest := by
  rw [lineTerminator] at h
  split at h
  · cases h
    exact (rawEnd_skipLineFeed s).symm
  split at h
  · cases h
    rfl
  · cases h

theorem rawEnd_escape (hc : c.val = 0x5c) (h : escape s = some (e, rest)) : rawEnd (c :: s) = rawEnd rest := by
  cases s with
  | nil => cases h
  | cons d s =>
    rw [rawEnd_escaped hc]
    rw [escape] at h
    split at h
    · rename_i hline
      cases h
      exact rawEnd_lineTerminator hline
    split at h
    · cases h
      rfl
    split at h
    · cases h
      exact rawEnd_octalDigits _ _ s
    split at h
    · cases h
      rfl
    split at h
    · obtain ⟨r, hr, hp⟩ := Option.bind_eq_some_iff.mp h
      rw [(codePoint_eq hp).1]
      exact rawEnd_hexDigits hr
    split at h
    · split at h
      · rename_i hnext
        obtain ⟨r, hr, hp⟩ := Option.bind_eq_some_iff.mp h
        rw [(codePoint_eq hp).1, rawEnd_next (by decide) hnext]
        exact rawEnd_bracedDigits hr
      · obtain ⟨r, hr, hp⟩ := Option.bind_eq_some_iff.mp h
        rw [(codePoint_eq hp).1]
        exact rawEnd_hexDigits hr
    · cases h
      rfl

theorem rawEnd_element {delimiter : Point} (ht : IsTemplate delimiter) (hend : ending delimiter s = none)
    (h : element delimiter s = some (e, rest)) : rawEnd s = rawEnd rest := by
  cases s with
  | nil => cases h
  | cons c s =>
    rw [ending] at hend
    split at hend
    · cases hend
    rename_i hne
    split at hend
    · cases hend
    rename_i hopen
    have hne : c.val ≠ 0x60 := fun h => hne (Fin.ext (h.trans ht.symm))
    have hopen : ¬ (c.val = 0x24 ∧ Next 0x7b s) := fun h => hopen ⟨ht, h⟩
    rw [element] at h
    split at h
    · rename_i hc
      exact rawEnd_escape hc h
    rename_i hc
    rw [rawEnd_plain hne hc hopen]
    split at h
    · cases h
      exact (rawEnd_skipLineFeed s).symm
    split at h
    · cases h
      rfl
    · cases h
      rfl

theorem raw_ending {delimiter : Point} (ht : IsTemplate delimiter) (h : ending delimiter s = some rest) :
    raw s = some ([], rest) := by
  cases s with
  | nil => cases h
  | cons c s =>
    rw [ending] at h
    split at h
    · rename_i hc
      cases h
      exact raw_accent (by rw [hc]; exact ht)
    split at h
    · rename_i hopen
      cases h
      exact raw_substitution hopen.2.1 hopen.2.2
    · cases h

/-- The raw value ends where the elements end. -/
theorem rawEnd_elements {delimiter : Point} (ht : IsTemplate delimiter) {es : List Element}
    (h : elements delimiter s = some (es, rest)) : rawEnd s = some rest := by
  induction s using elements.induct delimiter generalizing es with
  | case1 s rest' hend =>
    rw [elements_ending hend] at h
    cases h
    rw [rawEnd, raw_ending ht hend]
    rfl
  | case2 s hend helem =>
    rw [elements_none hend helem] at h
    cases h
  | case3 s hend e' s' helem ih =>
    rw [elements_element hend helem] at h
    obtain ⟨r, hr, heq⟩ := Option.map_eq_some_iff.mp h
    cases heq
    rw [rawEnd_element ht hend helem]
    exact ih hr

end

/-! ## Nothing behind the end is read -/

section

variable {delimiter c : Point} {a b r : List Point} {e : Element}

/-- What leaves more than `r` of `c :: (a ++ r)` has not come to the end of `a`. -/
theorem ne_nil_of_length (h : (b ++ r).length ≤ (a ++ r).length) (hb : b ≠ []) : a ≠ [] := by
  intro ha
  rw [ha, List.nil_append, List.length_append] at h
  have := List.length_pos_iff.mpr hb
  omega

theorem next_append {n : Nat} (ha : a ≠ []) : Next n (a ++ r) ↔ Next n a := by
  cases a with
  | nil => exact absurd rfl ha
  | cons c a => exact Iff.rfl

theorem nextIsDigit_append (ha : a ≠ []) : NextIsDigit (a ++ r) ↔ NextIsDigit a := by
  cases a with
  | nil => exact absurd rfl ha
  | cons c a => exact Iff.rfl

theorem skipLineFeed_append (h : skipLineFeed (a ++ r) = b ++ r) (hb : b ≠ []) : skipLineFeed a = b := by
  have ha : a ≠ [] := ne_nil_of_length (by rw [← h]; exact (skipLineFeed_suffix _).length_le) hb
  cases a with
  | nil => exact absurd rfl ha
  | cons c a =>
    rw [List.cons_append, skipLineFeed] at h
    rw [skipLineFeed]
    split
    · rename_i hc
      rw [if_pos hc] at h
      exact List.append_cancel_right h
    · rename_i hc
      rw [if_neg hc] at h
      exact List.append_cancel_right (show (c :: a) ++ r = b ++ r from h)

theorem lineTerminator_append (hb : b ≠ []) : lineTerminator (c :: (a ++ r)) = some (b ++ r) →
    lineTerminator (c :: a) = some b := by
  intro h
  rw [lineTerminator] at h ⊢
  split
  · rename_i hc
    rw [if_pos hc, Option.some.injEq] at h
    rw [skipLineFeed_append h hb]
  · rename_i hc
    rw [if_neg hc] at h
    split
    · rename_i hnl
      rw [if_pos hnl, Option.some.injEq] at h
      rw [List.append_cancel_right h]
    · rename_i hnl
      rw [if_neg hnl] at h
      cases h

theorem hexDigits_append {k n m : Nat} (hb : b ≠ []) (h : hexDigits k n (a ++ r) = some (m, b ++ r)) :
    hexDigits k n a = some (m, b) := by
  induction k generalizing n a with
  | zero =>
    rw [hexDigits, Option.some.injEq, Prod.mk.injEq] at h
    rw [hexDigits, h.1, List.append_cancel_right h.2]
  | succ k ih =>
    have ha : a ≠ [] := ne_nil_of_length (hexDigits_suffix h).length_le hb
    cases a with
    | nil => exact absurd rfl ha
    | cons c a =>
      rw [List.cons_append, hexDigits] at h
      rw [hexDigits]
      split at h
      · exact ih h
      · cases h

theorem bracedDigits_append {n m : Nat} (hb : b ≠ []) (h : bracedDigits n (a ++ r) = some (m, b ++ r)) :
    bracedDigits n a = some (m, b) := by
  induction a generalizing n with
  | nil => exact absurd rfl (ne_nil_of_length (bracedDigits_suffix h).length_le hb)
  | cons c a ih =>
    rw [List.cons_append, bracedDigits] at h
    rw [bracedDigits]
    split at h
    · cases h
    rename_i d hd
    have ha : a ≠ [] := by
      split at h
      · rw [Option.some.injEq, Prod.mk.injEq] at h
        exact ne_nil_of_length (by rw [← h.2, List.length_tail]; omega) hb
      · exact ne_nil_of_length (bracedDigits_suffix h).length_le hb
    simp only [next_append ha] at h
    split
    · rename_i hnext
      rw [if_pos hnext, Option.some.injEq, Prod.mk.injEq, List.tail_append_of_ne_nil ha] at h
      rw [h.1, List.append_cancel_right h.2]
    · rename_i hnext
      rw [if_neg hnext] at h
      exact ih h

theorem octalDigits_append {k n m : Nat} (hb : b ≠ []) (h : octalDigits k n (a ++ r) = (m, b ++ r)) :
    octalDigits k n a = (m, b) := by
  induction k generalizing n a with
  | zero =>
    rw [octalDigits, Prod.mk.injEq] at h
    rw [octalDigits, h.1, List.append_cancel_right h.2]
  | succ k ih =>
    have hlen := (octalDigits_suffix (k + 1) n (a ++ r)).length_le
    rw [h] at hlen
    have ha : a ≠ [] := ne_nil_of_length hlen hb
    cases a with
    | nil => exact absurd rfl ha
    | cons c a =>
      rw [List.cons_append, octalDigits] at h
      rw [octalDigits]
      split
      · rename_i hc
        rw [if_pos hc] at h
        exact ih h
      · rename_i hc
        rw [if_neg hc, Prod.mk.injEq] at h
        rw [h.1, List.append_cancel_right (show (c :: a) ++ r = b ++ r from h.2)]

theorem escape_append (hb : b ≠ []) (h : escape (a ++ r) = some (e, b ++ r)) : escape a = some (e, b) := by
  cases a with
  | nil =>
    cases r with
    | nil => cases h
    | cons c r =>
      have hlen := (escape_suffix h).length_le
      rw [List.length_append, List.length_cons] at hlen
      omega
  | cons c a =>
    have ha : a ≠ [] := ne_nil_of_length (escape_suffix h).length_le hb
    have hpoint : ∀ {x : Nat × List Point}, codePoint x = some (e, b ++ r) →
        x.2 = b ++ r ∧ codePoint (x.1, b) = some (e, b) := by
      intro x hx
      obtain ⟨hrest, -⟩ := codePoint_eq hx
      rw [codePoint] at hx ⊢
      split at hx
      · rename_i hlt
        rw [Option.some.injEq, Prod.mk.injEq] at hx
        exact ⟨hrest.symm, by rw [dif_pos hlt, hx.1]⟩
      · cases hx
    have hdigits : ∀ {k n : Nat} {a : List Point}, (hexDigits k n (a ++ r)).bind codePoint = some (e, b ++ r) →
        (hexDigits k n a).bind codePoint = some (e, b) := by
      intro k n a h
      obtain ⟨x, hx, hc⟩ := Option.bind_eq_some_iff.mp h
      obtain ⟨hrest, hc⟩ := hpoint hc
      rw [hexDigits_append (m := x.1) hb (by rw [hx, ← hrest])]
      exact hc
    rw [List.cons_append, escape] at h
    rw [escape]
    cases hline : lineTerminator (c :: (a ++ r)) with
    | some rest =>
      rw [hline] at h
      cases h
      rw [lineTerminator_append hb hline]
    | none =>
      have hline' : lineTerminator (c :: a) = none := by
        rw [lineTerminator] at hline ⊢
        split at hline
        · cases hline
        split at hline
        · cases hline
        · rename_i h1 h2
          rw [if_neg h1, if_neg h2]
      rw [hline] at h
      rw [hline']
      dsimp only at h ⊢
      simp only [nextIsDigit_append ha, next_append ha] at h
      rw [List.tail_append_of_ne_nil ha] at h
      split
      · rename_i hc
        rw [if_pos hc, Option.some.injEq, Prod.mk.injEq] at h
        rw [h.1, List.append_cancel_right h.2]
      rename_i h1
      rw [if_neg h1] at h
      split
      · rename_i hc
        rw [if_pos hc, legacyOctal, Option.some.injEq, Prod.mk.injEq] at h
        have hoct := octalDigits_append (m := (octalDigits (if c.val ≤ 0x33 then 2 else 1) (c.val - 0x30) (a ++ r)).1) hb
          (Prod.ext rfl h.2)
        rw [legacyOctal, hoct, ← h.1]
      rename_i h2
      rw [if_neg h2] at h
      split
      · rename_i hc
        rw [if_pos hc, Option.some.injEq, Prod.mk.injEq] at h
        rw [h.1, List.append_cancel_right h.2]
      rename_i h3
      rw [if_neg h3] at h
      split
      · rename_i hc
        rw [if_pos hc] at h
        exact hdigits h
      rename_i h4
      rw [if_neg h4] at h
      split
      · rename_i hc
        rw [if_pos hc] at h
        split
        · rename_i hnext
          rw [if_pos hnext] at h
          obtain ⟨x, hx, hp⟩ := Option.bind_eq_some_iff.mp h
          obtain ⟨hrest, hp⟩ := hpoint hp
          rw [bracedDigits_append (m := x.1) hb (by rw [hx, ← hrest])]
          exact hp
        · rename_i hnext
          rw [if_neg hnext] at h
          exact hdigits h
      · rename_i h5
        rw [if_neg h5, Option.some.injEq, Prod.mk.injEq] at h
        rw [h.1, List.append_cancel_right h.2]

theorem element_append (hb : b ≠ []) (h : element delimiter (a ++ r) = some (e, b ++ r)) :
    element delimiter a = some (e, b) := by
  have ha : a ≠ [] := ne_nil_of_length (Nat.le_of_lt (element_length h)) hb
  cases a with
  | nil => exact absurd rfl ha
  | cons c a =>
    rw [List.cons_append, element] at h
    rw [element]
    split
    · rename_i hc
      rw [if_pos hc] at h
      exact escape_append hb h
    rename_i hc
    rw [if_neg hc] at h
    split
    · rename_i hcr
      rw [if_pos hcr] at h
      split
      · rename_i ht
        rw [if_pos ht, Option.some.injEq, Prod.mk.injEq] at h
        rw [h.1, skipLineFeed_append h.2 hb]
      · rename_i ht
        rw [if_neg ht] at h
        cases h
    rename_i hcr
    rw [if_neg hcr] at h
    split
    · rename_i hlf
      rw [if_pos hlf] at h
      split
      · rename_i ht
        rw [if_pos ht, Option.some.injEq, Prod.mk.injEq] at h
        rw [h.1, List.append_cancel_right h.2]
      · rename_i ht
        rw [if_neg ht] at h
        cases h
    · rename_i hlf
      rw [if_neg hlf, Option.some.injEq, Prod.mk.injEq] at h
      rw [h.1, List.append_cancel_right h.2]

theorem ending_suffix {s rest : List Point} (h : ending delimiter s = some rest) :
    ∃ c t, s = c :: t ∧ rest <:+ t := by
  cases s with
  | nil => cases h
  | cons c s =>
    refine ⟨c, s, rfl, ?_⟩
    rw [ending] at h
    split at h
    · cases h
      exact List.suffix_refl _
    split at h
    · cases h
      exact List.tail_suffix s
    · cases h

theorem ending_append (h : ending delimiter (a ++ r) = some r) (ha : a ≠ []) : ending delimiter a = some [] := by
  cases a with
  | nil => exact absurd rfl ha
  | cons c a =>
    rw [List.cons_append, ending] at h
    rw [ending]
    split
    · rename_i hc
      rw [if_pos hc, Option.some.injEq] at h
      rw [List.append_left_eq_self.mp h]
    · rename_i hc
      rw [if_neg hc] at h
      have ha : a ≠ [] := by
        intro ha
        rw [ha] at h
        split at h
        · rename_i hopen
          rw [List.nil_append, Option.some.injEq] at h
          have hlen := congrArg List.length h
          rw [List.length_tail] at hlen
          cases r with
          | nil => exact hopen.2.2
          | cons d r =>
            rw [List.length_cons] at hlen
            omega
        · cases h
      simp only [next_append ha] at h
      rw [List.tail_append_of_ne_nil ha] at h
      split
      · rename_i hopen
        rw [if_pos hopen, Option.some.injEq] at h
        rw [List.append_left_eq_self.mp h]
      · rename_i hopen
        rw [if_neg hopen] at h
        cases h

theorem ending_none_append (h : ending delimiter (a ++ r) = none) : ending delimiter a = none := by
  cases a with
  | nil => rfl
  | cons c a =>
    rw [List.cons_append, ending] at h
    rw [ending]
    split at h
    · cases h
    rename_i hc
    split at h
    · cases h
    · rename_i hopen
      rw [if_neg hc, if_neg]
      intro hn
      refine hopen ⟨hn.1, hn.2.1, ?_⟩
      cases a with
      | nil => exact hn.2.2.elim
      | cons d a => exact hn.2.2

/-- The elements of a literal are those of its text. -/
theorem elements_append {s rest : List Point} {es : List Element} (h : elements delimiter s = some (es, rest)) :
    ∃ literal, s = literal ++ rest ∧ literal ≠ [] ∧ elements delimiter literal = some (es, []) := by
  induction s using elements.induct delimiter generalizing es with
  | case1 s rest' hend =>
    rw [elements_ending hend] at h
    cases h
    obtain ⟨c, t, rfl, literal, rfl⟩ := ending_suffix hend
    exact ⟨c :: literal, rfl, List.cons_ne_nil c literal, elements_ending (ending_append hend (List.cons_ne_nil c literal))⟩
  | case2 s hend helem =>
    rw [elements_none hend helem] at h
    cases h
  | case3 s hend e s' helem ih =>
    rw [elements_element hend helem] at h
    obtain ⟨r, hr, heq⟩ := Option.map_eq_some_iff.mp h
    cases heq
    obtain ⟨literal, hl, hne, hes⟩ := ih hr
    obtain ⟨p, hp⟩ : s' <:+ s := by
      cases s with
      | nil => cases helem
      | cons c s => exact (element_suffix helem).trans (List.suffix_cons c s)
    have htext : s = (p ++ literal) ++ r.2 := by rw [← hp, hl, List.append_assoc]
    refine ⟨p ++ literal, htext, fun hnil => hne (List.append_eq_nil_iff.mp hnil).2, ?_⟩
    rw [elements_element (ending_none_append (r := r.2) (by rw [← htext]; exact hend))
      (element_append (r := r.2) hne (by rw [← htext, ← hl]; exact helem)), hes]
    rfl

theorem rawUnits_append (ha : a ≠ []) : rawUnits c (a ++ r) = rawUnits c a := by
  rw [rawUnits, rawUnits]
  simp only [next_append ha]

/-- The raw value of a part of a template is the one of its text. -/
theorem raw_append {s rest : List Point} {us : List CodeUnit} (h : raw s = some (us, rest)) :
    ∃ literal, s = literal ++ rest ∧ literal ≠ [] ∧ raw literal = some (us, []) := by
  induction hn : s.length using Nat.strong_induction_on generalizing s us with
  | _ n ih =>
    cases s with
    | nil => cases h
    | cons c s =>
      rw [List.length_cons] at hn
      by_cases h1 : c.val = 0x60
      · rw [raw_accent h1] at h
        cases h
        exact ⟨[c], rfl, List.cons_ne_nil c [], raw_accent h1⟩
      by_cases h2 : c.val = 0x24 ∧ Next 0x7b s
      · rw [raw_substitution h2.1 h2.2] at h
        cases h
        cases s with
        | nil => exact h2.2.elim
        | cons d s => exact ⟨[c, d], rfl, List.cons_ne_nil c [d], raw_substitution h2.1 h2.2⟩
      by_cases h3 : c.val = 0x5c
      · cases s with
        | nil =>
          rw [raw_backslash h3] at h
          cases h
        | cons d s =>
          rw [raw_escaped h3] at h
          obtain ⟨r, hr, heq⟩ := Option.map_eq_some_iff.mp h
          cases heq
          obtain ⟨literal, hl, hne, hraw⟩ := ih s.length (by rw [List.length_cons] at hn; omega) hr rfl
          refine ⟨c :: d :: literal, by rw [hl]; rfl, List.cons_ne_nil c _, ?_⟩
          rw [raw_escaped h3, hraw, hl, rawUnits_append hne]
          rfl
      · rw [raw_plain h1 h3 h2] at h
        obtain ⟨r, hr, heq⟩ := Option.map_eq_some_iff.mp h
        cases heq
        obtain ⟨literal, hl, hne, hraw⟩ := ih s.length (by omega) hr rfl
        have hopen : ¬(c.val = 0x24 ∧ Next 0x7b literal) := by
          rw [hl] at h2
          intro hn
          exact h2 ⟨hn.1, (next_append hne).mpr hn.2⟩
        refine ⟨c :: literal, by rw [hl]; rfl, List.cons_ne_nil c _, ?_⟩
        rw [raw_plain h1 h3 hopen, hraw, hl, rawUnits_append hne]
        rfl

end

end StringLiteral
