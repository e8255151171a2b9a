import JJS.Json.Lexeme

/-!
# JJS.Json.Exact

`ecma_builtin_json_parse_buffer` against the grammar. The parser accepts the texts of the grammar in which
the integer after a minus may be missing (`LooseNumeral`), with the tree that they denote, unless such a minus
is the last byte of the buffer (`parseBuffer_value_iff`). So it is exact just on the texts that do not need a
bare minus to be accepted (`parse_exact_iff`).
-/

namespace JJS
namespace Json

open Utf8 OrderedMap Lit Ecma404

variable {ν : Type} {toNumber : List Byte → ν}

/-- The grammar with the numerals of the source. -/
abbrev LooseDerives (toNumber : List Byte → ν) : Goal Str ν → List Byte → Prop :=
  Derives LooseNumeral toNumber cesu8

/-! ## What is accepted is derived -/

/-- A value in front of the text. -/
def ReadsValue (toNumber : List Byte → ν) (s : List Byte) (t : Value ν) (r : List Byte) : Prop :=
  ∃ w b, White w ∧ LooseDerives toNumber (.value t) b ∧ s = w ++ (b ++ r) ∧ WellFormed r ∧ Guarded b r

/-- The rest of an array, up to its bracket. -/
def ReadsElements (toNumber : List Byte → ν) (array : List (Value ν)) (s : List Byte) (t : Value ν) (r : List Byte) :
    Prop :=
  ∃ ts body, LooseDerives toNumber (.elements ts) body ∧ t = .array (array ++ ts) ∧ s = body ++ 0x5d#8 :: r ∧
    WellFormed r

/-- The rest of an object, up to its brace. -/
def ReadsMembers (toNumber : List Byte → ν) (object : List (Str × Value ν)) (s : List Byte) (t : Value ν)
    (r : List Byte) : Prop :=
  ∃ ms body, LooseDerives toNumber (.members ms) body ∧ t = .object (define object ms) ∧ s = body ++ 0x7d#8 :: r ∧
    WellFormed r

section

variable {fuel : Nat} {s r : List Byte} {t : Value ν}

theorem parseValue_step
    (ihe : ∀ {array s t r}, WellFormed s → parseElements toNumber fuel array (parseNextToken toNumber true s) = .ok (t, r) →
      ReadsElements toNumber array s t r)
    (ihm : ∀ {object s t r}, WellFormed s → parseMembers toNumber fuel object (parseNextToken toNumber true s) = .ok (t, r) →
      ReadsMembers toNumber object s t r)
    (hs : WellFormed s) (h : parseValue toNumber (fuel + 1) (parseNextToken toNumber true s) = .ok (t, r)) :
    ReadsValue toNumber s t r := by
  cases htok : parseNextToken toNumber true s with
  | mk tok s' =>
    rw [htok] at h
    rcases parseNextToken_sound hs htok with rfl | ⟨rfl, -⟩ | ⟨w, lex, hw, hlex, rfl, hwf, hg⟩
    · simp [parseValue] at h
    · simp [parseValue] at h
    cases hlex with
    | number hn =>
      simp only [parseValue] at h
      cases h
      exact ⟨w, lex, hw, .number hn, rfl, hwf, hg⟩
    | string hstr =>
      simp only [parseValue] at h
      cases h
      exact ⟨w, lex, hw, .string hstr, rfl, hwf, hg⟩
    | null =>
      simp only [parseValue] at h
      cases h
      exact ⟨w, _, hw, .null, rfl, hwf, hg⟩
    | true =>
      simp only [parseValue] at h
      cases h
      exact ⟨w, _, hw, .true, rfl, hwf, hg⟩
    | false =>
      simp only [parseValue] at h
      cases h
      exact ⟨w, _, hw, .false, rfl, hwf, hg⟩
    | leftSquare =>
      simp only [parseValue] at h
      split at h
      · rename_i s'' hnext
        cases h
        rcases parseNextToken_sound hwf hnext with hinv | ⟨hdone, -⟩ | ⟨w', lex, hw', hlex, rfl, hwf', -⟩
        · cases hinv
        · cases hdone
        cases hlex
        refine ⟨w, 0x5b#8 :: (w' ++ [0x5d#8]), hw, .emptyArray hw', by simp, hwf', ?_⟩
        intro hbare
        cases hbare
      · obtain ⟨ts, body, hbody, rfl, rfl, hr⟩ := ihe hwf h
        refine ⟨w, 0x5b#8 :: (body ++ [0x5d#8]), hw, .array hbody, by simp, hr, ?_⟩
        intro hbare
        cases hbare
    | leftBrace =>
      simp only [parseValue] at h
      split at h
      · rename_i s'' hnext
        cases h
        rcases parseNextToken_sound hwf hnext with hinv | ⟨hdone, -⟩ | ⟨w', lex, hw', hlex, rfl, hwf', -⟩
        · cases hinv
        · cases hdone
        cases hlex
        refine ⟨w, 0x7b#8 :: (w' ++ [0x7d#8]), hw, .emptyObject hw', by simp, hwf', ?_⟩
        intro hbare
        cases hbare
      · obtain ⟨ms, body, hbody, rfl, rfl, hr⟩ := ihm hwf h
        refine ⟨w, 0x7b#8 :: (body ++ [0x7d#8]), hw, .object hbody, by simp, hr, ?_⟩
        intro hbare
        cases hbare
    | rightBrace => simp [parseValue] at h
    | rightSquare => simp [parseValue] at h
    | comma => simp [parseValue] at h
    | colon => simp [parseValue] at h

/-- The delimiter that the loops ask for after a value. -/
theorem reads_delimiter {tok : Token ν} {parseString : Bool} {b : Byte} (hs : WellFormed s)
    (hb : ∀ lex, Lexeme toNumber tok lex → lex = [b]) (hinv : tok ≠ .invalid) (hdone : tok ≠ .done)
    (h : parseNextToken toNumber parseString s = (tok, r)) : ∃ w, White w ∧ s = w ++ b :: r ∧ WellFormed r := by
  rcases parseNextToken_sound hs h with rfl | ⟨rfl, -⟩ | ⟨w, lex, hw, hlex, rfl, hwf, -⟩
  · exact absurd rfl hinv
  · exact absurd rfl hdone
  · exact ⟨w, hw, by rw [hb lex hlex]; rfl, hwf⟩

theorem parseElements_step {array : List (Value ν)}
    (ihv : ∀ {s t r}, WellFormed s → parseValue toNumber fuel (parseNextToken toNumber true s) = .ok (t, r) →
      ReadsValue toNumber s t r)
    (ihe : ∀ {array s t r}, WellFormed s → parseElements toNumber fuel array (parseNextToken toNumber true s) = .ok (t, r) →
      ReadsElements toNumber array s t r)
    (hs : WellFormed s) (h : parseElements toNumber (fuel + 1) array (parseNextToken toNumber true s) = .ok (t, r)) :
    ReadsElements toNumber array s t r := by
  rw [parseElements] at h
  split at h
  · cases h
  · rename_i value s1 hvalue
    obtain ⟨w, b, hw, hb, rfl, hs1, -⟩ := ihv hs hvalue
    split at h
    · rename_i s2 hnext
      cases h
      obtain ⟨w', hw', rfl, hwf⟩ := reads_delimiter hs1 (by intro lex hlex; cases hlex; rfl) (by simp) (by simp) hnext
      exact ⟨[value], w ++ (b ++ w'), .element hw hb hw', rfl, by simp, hwf⟩
    · rename_i s2 hnext
      obtain ⟨w', hw', rfl, hwf⟩ := reads_delimiter hs1 (by intro lex hlex; cases hlex; rfl) (by simp) (by simp) hnext
      obtain ⟨ts, body, hbody, rfl, rfl, hr⟩ := ihe hwf h
      exact ⟨value :: ts, w ++ (b ++ (w' ++ 0x2c#8 :: body)), .elements hw hb hw' hbody, by simp, by simp, hr⟩
    · cases h

theorem parseMembers_step {object : List (Str × Value ν)}
    (ihv : ∀ {s t r}, WellFormed s → parseValue toNumber fuel (parseNextToken toNumber true s) = .ok (t, r) →
      ReadsValue toNumber s t r)
    (ihm : ∀ {object s t r}, WellFormed s → parseMembers toNumber fuel object (parseNextToken toNumber true s) = .ok (t, r) →
      ReadsMembers toNumber object s t r)
    (hs : WellFormed s) (h : parseMembers toNumber (fuel + 1) object (parseNextToken toNumber true s) = .ok (t, r)) :
    ReadsMembers toNumber object s t r := by
  cases htok : parseNextToken toNumber true s with
  | mk tok s0 =>
    rw [htok, parseMembers.eq_def] at h
    simp only [] at h
    split at h
    · rename_i name
      rcases parseNextToken_sound hs htok with hinv | ⟨hdone, -⟩ | ⟨w, lex, hw, hlex, rfl, hs0, -⟩
      · cases hinv
      · cases hdone
      cases hlex with
      | string hk =>
        split at h
        · rename_i s1 hcolon
          obtain ⟨w1, hw1, rfl, hs1⟩ :=
            reads_delimiter hs0 (by intro lex hlex; cases hlex; rfl) (by simp) (by simp) hcolon
          split at h
          · cases h
          · rename_i value s2 hvalue
            obtain ⟨w2, b, hw2, hb, rfl, hs2, -⟩ := ihv hs1 hvalue
            split at h
            · rename_i s3 hnext
              cases h
              obtain ⟨w', hw', rfl, hwf⟩ :=
                reads_delimiter hs2 (by intro lex hlex; cases hlex; rfl) (by simp) (by simp) hnext
              exact ⟨[(_, value)], w ++ (lex ++ (w1 ++ 0x3a#8 :: (w2 ++ (b ++ w')))),
                .member hw hk hw1 hw2 hb hw', rfl, by simp, hwf⟩
            · rename_i s3 hnext
              obtain ⟨w', hw', rfl, hwf⟩ :=
                reads_delimiter hs2 (by intro lex hlex; cases hlex; rfl) (by simp) (by simp) hnext
              obtain ⟨ms, body, hbody, rfl, rfl, hr⟩ := ihm hwf h
              exact ⟨(_, value) :: ms, w ++ (lex ++ (w1 ++ 0x3a#8 :: (w2 ++ (b ++ (w' ++ 0x2c#8 :: body))))),
                .members hw hk hw1 hw2 hb hw' hbody, rfl, by simp, hr⟩
            · cases h
        · cases h
    · cases h

/-- The three loops at once, by induction on the bound of their recursion. -/
theorem parse_sound (fuel : Nat) :
    (∀ {s t r}, WellFormed s → parseValue toNumber fuel (parseNextToken toNumber true s) = .ok (t, r) →
      ReadsValue toNumber s t r) ∧
    (∀ {array s t r}, WellFormed s → parseElements toNumber fuel array (parseNextToken toNumber true s) = .ok (t, r) →
      ReadsElements toNumber array s t r) ∧
    (∀ {object s t r}, WellFormed s → parseMembers toNumber fuel object (parseNextToken toNumber true s) = .ok (t, r) →
      ReadsMembers toNumber object s t r) := by
  induction fuel with
  | zero =>
    refine ⟨?_, ?_, ?_⟩
    · intro s t r _ h
      cases h
    · intro array s t r _ h
      cases h
    · intro object s t r _ h
      cases h
  | succ fuel ih =>
    obtain ⟨ihv, ihe, ihm⟩ := ih
    exact ⟨parseValue_step ihe ihm, parseElements_step ihv ihe, parseMembers_step ihv ihm⟩

/-! ## The bound on the recursion is never reached -/

theorem Lexeme.ne_nil {tok : Token ν} {lex : List Byte} (h : Lexeme toNumber tok lex) : lex ≠ [] := by
  cases h with
  | string hs =>
    obtain ⟨body, -, rfl⟩ := hs
    simp
  | number hn =>
    obtain ⟨c, n', rfl, -⟩ := head_looseNumeral hn
    simp
  | _ => simp

/-- A token takes a byte off the text. -/
theorem length_of_token {tok : Token ν} {parseString : Bool} (hs : WellFormed s) (hinv : tok ≠ .invalid)
    (hdone : tok ≠ .done) (h : parseNextToken toNumber parseString s = (tok, r)) :
    r.length < s.length ∧ WellFormed r := by
  rcases parseNextToken_sound hs h with rfl | ⟨rfl, -⟩ | ⟨w, lex, -, hlex, rfl, hwf, -⟩
  · exact absurd rfl hinv
  · exact absurd rfl hdone
  · have hpos := List.length_pos_iff.mpr hlex.ne_nil
    refine ⟨?_, hwf⟩
    simp only [List.length_append]
    omega

theorem ReadsValue.length_le (h : ReadsValue toNumber s t r) : r.length ≤ s.length ∧ WellFormed r := by
  obtain ⟨w, b, -, -, rfl, hwf, -⟩ := h
  refine ⟨?_, hwf⟩
  simp only [List.length_append]
  omega

theorem parse_no_fuel (toNumber : List Byte → ν) (fuel : Nat) :
    (∀ {s : List Byte}, WellFormed s → 2 * s.length + 2 ≤ fuel →
      parseValue toNumber fuel (parseNextToken toNumber true s) ≠ .error .fuel) ∧
    (∀ {array : List (Value ν)} {s : List Byte}, WellFormed s → 2 * s.length + 3 ≤ fuel →
      parseElements toNumber fuel array (parseNextToken toNumber true s) ≠ .error .fuel) ∧
    (∀ {object : List (Str × Value ν)} {s : List Byte}, WellFormed s → 2 * s.length + 3 ≤ fuel →
      parseMembers toNumber fuel object (parseNextToken toNumber true s) ≠ .error .fuel) := by
  induction fuel with
  | zero =>
    refine ⟨?_, ?_, ?_⟩
    · intro s _ hle
      omega
    · intro array s _ hle
      omega
    · intro object s _ hle
      omega
  | succ fuel ih =>
    obtain ⟨ihv, ihe, ihm⟩ := ih
    refine ⟨?_, ?_, ?_⟩
    · intro s hs hle
      cases htok : parseNextToken toNumber true s with
      | mk tok s' =>
        cases tok with
        | leftSquare =>
          obtain ⟨hlt, hwf⟩ := length_of_token hs (by simp) (by simp) htok
          simp only [parseValue]
          split
          · simp
          · exact ihe hwf (by omega)
        | leftBrace =>
          obtain ⟨hlt, hwf⟩ := length_of_token hs (by simp) (by simp) htok
          simp only [parseValue]
          split
          · simp
          · exact ihm hwf (by omega)
        | _ => simp [parseValue]
    · intro array s hs hle
      have hval := ihv hs (by omega)
      rw [parseElements]
      split
      · rename_i e he
        rw [he] at hval
        simpa using hval
      · rename_i value s1 hvalue
        obtain ⟨hle1, hs1⟩ := ((parse_sound fuel).1 hs hvalue).length_le
        split
        · simp
        · rename_i s2 hnext
          obtain ⟨hlt, hwf⟩ := length_of_token hs1 (by simp) (by simp) hnext
          exact ihe hwf (by omega)
        · simp
    · intro object s hs hle
      cases htok : parseNextToken toNumber true s with
      | mk tok s0 =>
        rw [parseMembers.eq_def]
        simp only []
        split
        · obtain ⟨hlt0, hs0⟩ := length_of_token hs (by simp) (by simp) htok
          split
          · rename_i s1 hcolon
            obtain ⟨hlt1, hs1⟩ := length_of_token hs0 (by simp) (by simp) hcolon
            have hval := ihv hs1 (by omega)
            split
            · rename_i e he
              rw [he] at hval
              simpa using hval
            · rename_i value s2 hvalue
              obtain ⟨hle2, hs2⟩ := ((parse_sound fuel).1 hs1 hvalue).length_le
              split
              · simp
              · rename_i s3 hnext
                obtain ⟨hlt3, hwf⟩ := length_of_token hs2 (by simp) (by simp) hnext
                exact ihm hwf (by omega)
              · simp
          · simp
        · simp

end

/-! ## What is derived is accepted -/

/-- White space and the delimiters end a numeral. -/
theorem numeralEnd_byte {b : Byte} (h : IsSpace b ∨ b = 0x2c#8 ∨ b = 0x5d#8 ∨ b = 0x7d#8) :
    ¬ IsDigit b ∧ b ≠ 0x2e#8 ∧ b ≠ 0x65#8 ∧ b ≠ 0x45#8 := by
  rcases h with (rfl | rfl | rfl | rfl) | rfl | rfl | rfl <;> decide

theorem numeralEnd_white {w r : List Byte} {b : Byte} (hw : White w) (hb : b = 0x2c#8 ∨ b = 0x5d#8 ∨ b = 0x7d#8) :
    NumeralEnd (w ++ b :: r) := by
  intro c hc
  cases w with
  | nil =>
    cases hc
    exact numeralEnd_byte (.inr hb)
  | cons d w =>
    cases hc
    exact numeralEnd_byte (.inl (hw c (by simp)))

theorem numeralEnd_of_white {w : List Byte} (hw : White w) : NumeralEnd w := by
  intro c hc
  cases w with
  | nil => cases hc
  | cons d w =>
    cases hc
    exact numeralEnd_byte (.inl (hw c (by simp)))

theorem white_nil : White [] := by
  intro b hb
  cases hb

/-- What the parser does with a derived text, for each kind of goal. -/
def Parses (toNumber : List Byte → ν) : Goal Str ν → List Byte → Prop
  | .value t, b => ∀ w r fuel, White w → NumeralEnd r → Guarded b r → b.length ≤ fuel →
      parseValue toNumber fuel (parseNextToken toNumber true (w ++ (b ++ r))) = .ok (t, r)
  | .elements ts, s => ∀ r fuel array, s.length + 1 ≤ fuel →
      parseElements toNumber fuel array (parseNextToken toNumber true (s ++ 0x5d#8 :: r)) = .ok (.array (array ++ ts), r)
  | .members ms, s => ∀ r fuel object, s.length + 1 ≤ fuel →
      parseMembers toNumber fuel object (parseNextToken toNumber true (s ++ 0x7d#8 :: r)) =
        .ok (.object (define object ms), r)

/-- A token that is a value on its own. -/
theorem parses_token {tok : Token ν} {t : Value ν} {b : List Byte} (hlex : Lexeme toNumber tok b)
    (hallow : Allowed true tok) (hfollow : ∀ r, NumeralEnd r → Guarded b r → Follows b r tok)
    (hvalue : ∀ fuel r, parseValue toNumber (fuel + 1) (tok, r) = .ok (t, r)) : Parses toNumber (.value t) b := by
  intro w r fuel hw hr hg hle
  have hpos := List.length_pos_iff.mpr hlex.ne_nil
  cases fuel with
  | zero => omega
  | succ fuel => rw [parseNextToken_complete toNumber true r hw hlex hallow (hfollow r hr hg), hvalue]

theorem parses_empty {w : List Byte} {tok close : Token ν} {b c : Byte} {t : Value ν} (hw' : White w)
    (hb : Lexeme toNumber tok [b]) (hc : Lexeme toNumber close [c]) (htok : Allowed true tok) (hclose : Allowed true close)
    (hft : ∀ r, Follows [b] r tok) (hfc : ∀ r, Follows [c] r close)
    (hvalue : ∀ fuel s r, parseNextToken toNumber true s = (close, r) →
      parseValue toNumber (fuel + 1) (tok, s) = .ok (t, r)) :
    Parses toNumber (.value t) (b :: (w ++ [c])) := by
  intro w0 r fuel hw hr hg hle
  cases fuel with
  | zero => simp at hle
  | succ fuel =>
    have hopen := parseNextToken_complete toNumber true (w ++ c :: r) hw hb htok (hft _)
    have hnext := parseNextToken_complete toNumber true (r) hw' hc hclose (hfc r)
    have hlist : w0 ++ (b :: (w ++ [c]) ++ r) = w0 ++ ([b] ++ (w ++ c :: r)) := by simp
    rw [hlist, hopen]
    exact hvalue _ _ _ hnext

/-- No bracket begins an element and no brace a member. -/
theorem parseElements_rightSquare {fuel : Nat} {array : List (Value ν)} {s : List Byte} {p : Value ν × List Byte} :
    parseElements toNumber fuel array (.rightSquare, s) ≠ .ok p := by
  cases fuel with
  | zero => simp [parseElements]
  | succ fuel =>
    rw [parseElements]
    cases fuel with
    | zero => simp [parseValue]
    | succ fuel => simp [parseValue]

theorem parseMembers_rightBrace {fuel : Nat} {object : List (Str × Value ν)} {s : List Byte} {p : Value ν × List Byte} :
    parseMembers toNumber fuel object (.rightBrace, s) ≠ .ok p := by
  cases fuel with
  | zero => simp [parseMembers]
  | succ fuel => simp [parseMembers]

theorem derives_parses {g : Goal Str ν} {s : List Byte} (h : LooseDerives toNumber g s) : Parses toNumber g s := by
  induction h with
  | null => exact parses_token .null trivial (fun _ _ _ => trivial) (fun _ _ => by rw [parseValue])
  | true => exact parses_token .true trivial (fun _ _ _ => trivial) (fun _ _ => by rw [parseValue])
  | false => exact parses_token .false trivial (fun _ _ _ => trivial) (fun _ _ => by rw [parseValue])
  | number hn => exact parses_token (.number hn) trivial (fun _ hr hg => ⟨hr, hg⟩) (fun _ _ => by rw [parseValue])
  | string hs => exact parses_token (.string hs) rfl (fun _ _ _ => trivial) (fun _ _ => by rw [parseValue])
  | emptyArray hw =>
    refine parses_empty hw .leftSquare .rightSquare trivial trivial (fun _ => trivial) (fun _ => trivial) ?_
    intro fuel s r hnext
    rw [parseValue.eq_def]
    simp only [hnext]
  | emptyObject hw =>
    refine parses_empty hw .leftBrace .rightBrace trivial trivial (fun _ => trivial) (fun _ => trivial) ?_
    intro fuel s r hnext
    rw [parseValue.eq_def]
    simp only [hnext]
  | @array ts body _ ih =>
    intro w r fuel hw hr hg hle
    cases fuel with
    | zero => simp at hle
    | succ fuel =>
      have hopen := parseNextToken_complete toNumber true (body ++ 0x5d#8 :: r) hw
        .leftSquare trivial trivial
      have hrest := ih r fuel [] (by simp at hle; omega)
      have hlist : w ++ (0x5b#8 :: (body ++ [0x5d#8]) ++ r) = w ++ ([0x5b#8] ++ (body ++ 0x5d#8 :: r)) := by simp
      rw [hlist, hopen, parseValue.eq_def]
      simp only []
      split
      · rename_i s' hnext
        rw [hnext] at hrest
        exact absurd hrest parseElements_rightSquare
      · exact hrest
  | @object ms body _ ih =>
    intro w r fuel hw hr hg hle
    cases fuel with
    | zero => simp at hle
    | succ fuel =>
      have hopen := parseNextToken_complete toNumber true (body ++ 0x7d#8 :: r) hw
        .leftBrace trivial trivial
      have hrest := ih r fuel [] (by simp at hle; omega)
      have hlist : w ++ (0x7b#8 :: (body ++ [0x7d#8]) ++ r) = w ++ ([0x7b#8] ++ (body ++ 0x7d#8 :: r)) := by simp
      rw [hlist, hopen, parseValue.eq_def]
      simp only []
      split
      · rename_i s' hnext
        rw [hnext] at hrest
        exact absurd hrest parseMembers_rightBrace
      · exact hrest
  | @element t w b w' hw _ hw' ih =>
    intro r fuel array hle
    cases fuel with
    | zero => omega
    | succ fuel =>
      have hvalue := ih w (w' ++ 0x5d#8 :: r) fuel hw (numeralEnd_white hw' (by simp)) (fun _ => by simp)
        (by simp at hle; omega)
      have hnext := parseNextToken_complete toNumber false (r) hw' .rightSquare trivial trivial
      have hlist : w ++ (b ++ w') ++ 0x5d#8 :: r = w ++ (b ++ (w' ++ 0x5d#8 :: r)) := by simp
      rw [List.singleton_append] at hnext
      rw [hlist, parseElements, hvalue]
      simp only [hnext]
  | @elements t ts w b w' body hw _ hw' _ ihv ihe =>
    intro r fuel array hle
    cases fuel with
    | zero => omega
    | succ fuel =>
      have hvalue := ihv w (w' ++ 0x2c#8 :: (body ++ 0x5d#8 :: r)) fuel hw (numeralEnd_white hw' (by simp))
        (fun _ => by simp) (by simp at hle; omega)
      have hnext := parseNextToken_complete toNumber false (body ++ 0x5d#8 :: r) hw'
        .comma trivial trivial
      have hlist : w ++ (b ++ (w' ++ 0x2c#8 :: body)) ++ 0x5d#8 :: r =
          w ++ (b ++ (w' ++ 0x2c#8 :: (body ++ 0x5d#8 :: r))) := by simp
      rw [List.singleton_append] at hnext
      rw [hlist, parseElements, hvalue]
      simp only [hnext]
      rw [ihe r fuel (array ++ [t]) (by simp at hle; omega), List.append_assoc, List.singleton_append]
  | @member t us w k w1 w2 b w' hw hk hw1 hw2 _ hw' ih =>
    intro r fuel object hle
    cases fuel with
    | zero => omega
    | succ fuel =>
      have hname := parseNextToken_complete toNumber true
        (w1 ++ 0x3a#8 :: (w2 ++ (b ++ (w' ++ 0x7d#8 :: r)))) hw (.string hk) rfl trivial
      have hcolon := parseNextToken_complete toNumber false
        (w2 ++ (b ++ (w' ++ 0x7d#8 :: r))) hw1 .colon trivial trivial
      have hvalue := ih w2 (w' ++ 0x7d#8 :: r) fuel hw2 (numeralEnd_white hw' (by simp)) (fun _ => by simp)
        (by simp at hle; omega)
      have hnext := parseNextToken_complete toNumber false (r) hw' .rightBrace trivial trivial
      have hlist : w ++ (k ++ (w1 ++ 0x3a#8 :: (w2 ++ (b ++ w')))) ++ 0x7d#8 :: r =
          w ++ (k ++ (w1 ++ 0x3a#8 :: (w2 ++ (b ++ (w' ++ 0x7d#8 :: r))))) := by simp
      rw [List.singleton_append] at hcolon hnext
      rw [hlist, hname, parseMembers, hcolon]
      simp only [hvalue, hnext]
      rfl
  | @members t us ms w k w1 w2 b w' body hw hk hw1 hw2 _ hw' _ ihv ihm =>
    intro r fuel object hle
    cases fuel with
    | zero => omega
    | succ fuel =>
      have hname := parseNextToken_complete toNumber true
        (w1 ++ 0x3a#8 :: (w2 ++ (b ++ (w' ++ 0x2c#8 :: (body ++ 0x7d#8 :: r))))) hw (.string hk) rfl trivial
      have hcolon := parseNextToken_complete toNumber false
        (w2 ++ (b ++ (w' ++ 0x2c#8 :: (body ++ 0x7d#8 :: r)))) hw1 .colon trivial trivial
      have hvalue := ihv w2 (w' ++ 0x2c#8 :: (body ++ 0x7d#8 :: r)) fuel hw2 (numeralEnd_white hw' (by simp))
        (fun _ => by simp) (by simp at hle; omega)
      have hnext := parseNextToken_complete toNumber false (body ++ 0x7d#8 :: r) hw'
        .comma trivial trivial
      have hlist : w ++ (k ++ (w1 ++ 0x3a#8 :: (w2 ++ (b ++ (w' ++ 0x2c#8 :: body))))) ++ 0x7d#8 :: r =
          w ++ (k ++ (w1 ++ 0x3a#8 :: (w2 ++ (b ++ (w' ++ 0x2c#8 :: (body ++ 0x7d#8 :: r)))))) := by simp
      rw [List.singleton_append] at hcolon hnext
      rw [hlist, hname, parseMembers, hcolon]
      simp only [hvalue, hnext]
      rw [ihm r fuel _ (by simp at hle; omega)]
      rfl

/-! ## Texts -/

theorem getLast_digits {l ds : List Byte} {b : Byte} (hds : Digits ds) (h : (l ++ ds).getLast? = some b) : IsDigit b := by
  rw [List.getLast?_append_of_ne_nil _ hds.1] at h
  exact hds.2 b (List.mem_of_getLast? h)

theorem last_looseNumeral {n : List Byte} (hn : LooseNumeral n) (h : n.getLast? = some 0x2d#8) : n = [0x2d#8] := by
  obtain ⟨sign, i, f, e, hsign, hi, hf, he, rfl⟩ := hn
  have hnot : ∀ {l ds : List Byte}, Digits ds → (l ++ ds).getLast? ≠ some 0x2d#8 := by
    intro l ds hds hlast
    exact absurd (getLast_digits hds hlast) (by decide)
  cases he with
  | inr hcons =>
    obtain ⟨c, sg, ds, -, -, hds, rfl⟩ := hcons
    rw [show sign ++ (i ++ (f ++ c :: (sg ++ ds))) = sign ++ (i ++ (f ++ c :: sg)) ++ ds by simp] at h
    exact absurd h (hnot hds)
  | inl he0 =>
    subst he0
    cases hf with
    | inr hcons =>
      obtain ⟨ds, hds, rfl⟩ := hcons
      rw [show sign ++ (i ++ (0x2e#8 :: ds ++ [])) = sign ++ (i ++ [0x2e#8]) ++ ds by simp] at h
      exact absurd h (hnot hds)
    | inl hf0 =>
      subst hf0
      rw [List.append_nil, List.append_nil] at h ⊢
      rcases hi with (hzero | hpos) | ⟨rfl, rfl⟩
      · rw [hzero, List.getLast?_append_of_ne_nil _ (by simp)] at h
        cases h
      · exact absurd h (hnot hpos.1)
      · rfl

/-- Only a bare minus ends a value with a minus. -/
theorem last_value {t : Value ν} {b : List Byte} (hb : LooseDerives toNumber (.value t) b)
    (h : b.getLast? = some 0x2d#8) : b = [0x2d#8] := by
  have close : ∀ {c d : Byte} {l : List Byte}, (c :: (l ++ [d])).getLast? = some 0x2d#8 → d = 0x2d#8 := by
    intro c d l hlast
    rw [← List.cons_append, List.getLast?_concat] at hlast
    exact Option.some.inj hlast
  cases hb with
  | null => cases h
  | true => cases h
  | false => cases h
  | number hn => exact last_looseNumeral hn h
  | string hs =>
    obtain ⟨body, -, rfl⟩ := hs
    cases close h
  | emptyArray _ => cases close h
  | array _ => cases close h
  | emptyObject _ => cases close h
  | object _ => cases close h

theorem numeral_ne_minus : ¬ Numeral [0x2d#8] := by
  intro h
  obtain ⟨sign, i, f, e, hsign, hi, -, -, hs⟩ := h
  obtain ⟨d, hd, hdigit⟩ := head_integer (s := f ++ e) hi
  cases hsign with
  | inl h0 =>
    rw [h0, List.nil_append] at hs
    rw [← hs] at hd
    cases hd
    exact absurd hdigit (by decide)
  | inr h1 =>
    rw [h1, List.singleton_append] at hs
    have hnil := (List.cons.inj hs).2
    rw [← hnil] at hd
    cases hd

/-- A value that the standard derives is no bare minus. -/
theorem derives_ne_minus {t : Value ν} {b : List Byte} (hb : Derives Numeral toNumber cesu8 (.value t) b) :
    b ≠ [0x2d#8] := by
  intro hbare
  cases hb with
  | number hn => exact numeral_ne_minus (hbare ▸ hn)
  | string hs =>
    obtain ⟨body, -, rfl⟩ := hs
    cases hbare
  | _ => cases hbare

/-- The last byte of a text is the one of its value, or white space. -/
theorem last_text {w b w' : List Byte} (hw' : White w') (h : (w ++ (b ++ w')).getLast? = some 0x2d#8) (hb : b ≠ []) :
    w' = [] ∧ b.getLast? = some 0x2d#8 := by
  by_cases hnil : w' = []
  · subst hnil
    rw [List.append_nil, List.getLast?_append_of_ne_nil _ hb] at h
    exact ⟨rfl, h⟩
  · rw [← List.append_assoc, List.getLast?_append_of_ne_nil _ hnil] at h
    exact absurd (hw' _ (List.mem_of_getLast? h)) (by decide)

theorem derives_ne_nil {t : Value ν} {b : List Byte} (hb : LooseDerives toNumber (.value t) b) : b ≠ [] := by
  cases hb with
  | number hn =>
    obtain ⟨c, n', rfl, -⟩ := head_looseNumeral hn
    simp
  | string hs =>
    obtain ⟨body, -, rfl⟩ := hs
    simp
  | _ => simp

theorem parseBuffer_complete {s : List Byte} {v : Value ν} (h : Text LooseNumeral toNumber cesu8 v s)
    (hlast : s.getLast? ≠ some 0x2d#8) : parseBuffer toNumber s = .value v := by
  obtain ⟨w, b, w', hw, hb, hw', rfl⟩ := h
  have hg : Guarded b w' := by
    intro hbare hnil
    apply hlast
    rw [hbare, hnil, List.append_nil, List.getLast?_append_of_ne_nil _ (by simp)]
    rfl
  have hvalue := derives_parses hb w w' (2 * (w ++ (b ++ w')).length + 3) hw (numeralEnd_of_white hw') hg
    (by simp only [List.length_append]; omega)
  rw [parseBuffer, hvalue]
  simp only [parseNextToken_done toNumber hw']

theorem parseBuffer_sound {s : List Byte} {v : Value ν} (hs : WellFormed s) (h : parseBuffer toNumber s = .value v) :
    Text LooseNumeral toNumber cesu8 v s ∧ s.getLast? ≠ some 0x2d#8 := by
  unfold parseBuffer at h
  split at h
  · rename_i v' r hvalue
    split at h
    · rename_i r' hdone
      cases h
      obtain ⟨w, b, hw, hb, rfl, hr, hg⟩ := (parse_sound _).1 hs hvalue
      rcases parseNextToken_sound hr hdone with hinv | ⟨-, hwhite⟩ | ⟨w', lex, -, hlex, -⟩
      · cases hinv
      · refine ⟨⟨w, b, r, hw, hb, hwhite, rfl⟩, ?_⟩
        intro hlast
        obtain ⟨rfl, hblast⟩ := last_text hwhite hlast (derives_ne_nil hb)
        exact hg (last_value hb hblast) rfl
      · cases hlex
    · cases h
  · cases h
  · cases h

/-- What the parser accepts, and the value it returns. -/
theorem parseBuffer_value_iff {s : List Byte} (hs : WellFormed s) (v : Value ν) :
    parseBuffer toNumber s = .value v ↔
      Text LooseNumeral toNumber cesu8 v s ∧ s.getLast? ≠ some 0x2d#8 :=
  ⟨parseBuffer_sound hs, fun h => parseBuffer_complete h.1 h.2⟩

/-- The parser returns a value or a syntax error. -/
theorem parseBuffer_total (toNumber : List Byte → ν) {s : List Byte} (hs : WellFormed s) :
    (∃ v, parseBuffer toNumber s = .value v) ∨ parseBuffer toNumber s = .syntaxError := by
  have hfuel := (parse_no_fuel toNumber (2 * s.length + 3)).1 hs (by omega)
  unfold parseBuffer
  split
  · split
    · exact .inl ⟨_, rfl⟩
    · exact .inr rfl
  · exact .inr rfl
  · rename_i heq
    exact absurd heq hfuel

/-! ## Exactness -/

/-- The parser accepts just the texts of the standard, with the trees they denote. -/
def ParseExact (toNumber : List Byte → ν) (s : List Byte) : Prop :=
  (∀ v, parseBuffer toNumber s = .value v ↔ Text Numeral toNumber cesu8 v s) ∧
    (parseBuffer toNumber s = .syntaxError ↔ ¬ ∃ v, Text Numeral toNumber cesu8 v s)

/-- The text is one of the standard but for minus signs without an integer, and does not end with one. -/
def NeedsBareMinus (toNumber : List Byte → ν) (s : List Byte) : Prop :=
  (∃ v, Text LooseNumeral toNumber cesu8 v s) ∧ (¬ ∃ v, Text Numeral toNumber cesu8 v s) ∧
    s.getLast? ≠ some 0x2d#8

theorem text_numeral {s : List Byte} {v : Value ν} (h : Text Numeral toNumber cesu8 v s) :
    Text LooseNumeral toNumber cesu8 v s ∧ s.getLast? ≠ some 0x2d#8 := by
  refine ⟨h.mono fun _ => looseNumeral_of_numeral, ?_⟩
  obtain ⟨w, b, w', hw, hb, hw', rfl⟩ := h
  have hloose := hb.mono fun _ => looseNumeral_of_numeral
  intro hlast
  obtain ⟨-, hblast⟩ := last_text hw' hlast (derives_ne_nil hloose)
  exact derives_ne_minus hb (last_value hloose hblast)

theorem parseBuffer_of_text {s : List Byte} {v : Value ν} (h : Text Numeral toNumber cesu8 v s) :
    parseBuffer toNumber s = .value v :=
  parseBuffer_complete (text_numeral h).1 (text_numeral h).2

/-- On every well-formed text, the parser is exact unless the text needs a bare minus. -/
theorem parse_exact_iff {s : List Byte} (hs : WellFormed s) : ParseExact toNumber s ↔ ¬ NeedsBareMinus toNumber s := by
  constructor
  · intro h hbare
    obtain ⟨⟨v, hv⟩, hno, hlast⟩ := hbare
    exact hno ⟨v, (h.1 v).mp ((parseBuffer_value_iff hs v).mpr ⟨hv, hlast⟩)⟩
  · intro h
    have hvalue : ∀ v, parseBuffer toNumber s = .value v ↔ Text Numeral toNumber cesu8 v s := by
      intro v
      constructor
      · intro hv
        obtain ⟨hloose, hlast⟩ := (parseBuffer_value_iff hs v).mp hv
        by_cases hex : ∃ v', Text Numeral toNumber cesu8 v' s
        · obtain ⟨v', hv'⟩ := hex
          have heq := parseBuffer_of_text hv'
          rw [hv] at heq
          cases heq
          exact hv'
        · exact absurd ⟨⟨v, hloose⟩, hex, hlast⟩ h
      · exact parseBuffer_of_text
    refine ⟨hvalue, ?_⟩
    constructor
    · intro herr hex
      obtain ⟨v, hv⟩ := hex
      rw [parseBuffer_of_text hv] at herr
      cases herr
    · intro hno
      cases parseBuffer_total toNumber hs with
      | inl hval =>
        obtain ⟨v, hv⟩ := hval
        exact absurd ⟨v, (hvalue v).mp hv⟩ hno
      | inr herr => exact herr

theorem parse_exact_array : ParseExact id [0x5b#8, 0x31#8, 0x5d#8] := by
  have hone : Numeral [0x31#8] := by
    refine ⟨[], [0x31#8], [], [], .inl rfl, .inr ⟨⟨by simp, ?_⟩, by simp⟩, .inl rfl, .inl rfl, rfl⟩
    intro d hd
    rw [List.mem_singleton.mp hd]
    decide
  have hwf : WellFormed [0x5b#8, 0x31#8, 0x5d#8] := wellFormed_ascii (by decide)
  refine (parse_exact_iff hwf).mpr ?_
  intro hbare
  refine hbare.2.1 ⟨.array [.number [0x31#8]], [], [0x5b#8, 0x31#8, 0x5d#8], [], white_nil, ?_, white_nil, rfl⟩
  exact .array (.element white_nil (.number hone) white_nil)

/-- `-.5` is accepted. -/
theorem parse_not_exact : ¬ ∀ s : List Byte, WellFormed s → ParseExact id s := by
  intro h
  have hexact := h [0x2d#8, 0x2e#8, 0x35#8] (wellFormed_ascii (by decide))
  have hparse : parseBuffer id [0x2d#8, 0x2e#8, 0x35#8] = .value (.number [0x2d#8, 0x2e#8, 0x35#8]) := rfl
  obtain ⟨w, b, w', hw, hb, -, hs⟩ := (hexact.1 _).mp hparse
  cases hb with
  | number hn =>
    obtain ⟨sign, i, f, e, hsign, hi, -, -, hb⟩ := hn
    obtain ⟨d, hd, hdigit⟩ := head_integer (s := f ++ e) hi
    cases hsign with
    | inl h0 =>
      rw [h0, List.nil_append] at hb
      rw [← hb] at hd
      cases hd
      exact absurd hdigit (by decide)
    | inr h1 =>
      rw [h1, List.singleton_append] at hb
      rw [← (List.cons.inj hb).2] at hd
      cases hd
      exact absurd hdigit (by decide)

end Json
end JJS
