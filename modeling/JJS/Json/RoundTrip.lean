import JJS.Json.Exact
import JJS.Json.Quote

/-!
# JJS.Json.RoundTrip

`JSON.stringify` followed by `JSON.parse`. The serializers append to the result the text of the value, whatever
they revert on the way (`serializeProperty_spec`): a text of the grammar, with the tree of the value, in which the
properties without a value are left out. The parser then reads that tree (`parse_stringify`).
-/

namespace JJS
namespace Json

open Utf8 Lit Ecma404

variable {ν : Type}

/-! ## Trees -/

mutual

/-- The tree of a value. A property that is undefined is no member. -/
def Node.tree : Node ν → Value ν
  | .undefined => .null
  | .null => .null
  | .bool b => .bool b
  | .number x => .number x
  | .string us => .string (cesu8 us)
  | .array vs => .array (treeElements vs)
  | .object ms => .object (treeMembers ms)

def treeElements : List (Node ν) → List (Value ν)
  | [] => []
  | v :: vs => v.tree :: treeElements vs

def treeMembers : List (List CodeUnit × Node ν) → List (Str × Value ν)
  | [] => []
  | (_, .undefined) :: ms => treeMembers ms
  | (key, v) :: ms => (cesu8 key, v.tree) :: treeMembers ms

end

/-- A JSON tree: the numbers are integers, no two properties of an object have one key, and only properties may
be undefined. -/
inductive IsTree (integer : ν → Prop) : Node ν → Prop where
  | null : IsTree integer .null
  | bool (b : Bool) : IsTree integer (.bool b)
  | number {x : ν} : integer x → IsTree integer (.number x)
  | string (us : List CodeUnit) : IsTree integer (.string us)
  | array {vs : List (Node ν)} : (∀ v ∈ vs, IsTree integer v) → IsTree integer (.array vs)
  | object {ms : List (List CodeUnit × Node ν)} : (∀ m ∈ ms, m.2 ≠ .undefined → IsTree integer m.2) →
      (ms.map Prod.fst).Nodup → IsTree integer (.object ms)

theorem keys_treeMembers (ms : List (List CodeUnit × Node ν)) :
    ((treeMembers ms).map Prod.fst).Sublist (ms.map fun m => cesu8 m.1) := by
  induction ms with
  | nil => simp [treeMembers]
  | cons m ms ih =>
    obtain ⟨key, v⟩ := m
    cases v with
    | undefined => exact .cons _ ih
    | _ => exact ih.cons_cons _

theorem nodup_treeMembers {ms : List (List CodeUnit × Node ν)} (h : (ms.map Prod.fst).Nodup) :
    ((treeMembers ms).map Prod.fst).Nodup := by
  refine (keys_treeMembers ms).nodup ?_
  have hmap : (ms.map fun m => cesu8 m.1) = (ms.map Prod.fst).map cesu8 := by simp
  rw [hmap]
  exact h.map fun _ _ => cesu8_inj

/-! ## Contexts -/

@[simp] theorem append_append (c : Context) (s t : Str) : (c.append s).append t = c.append (s ++ t) := by
  simp [Context.append]

@[simp] theorem append_indent (c : Context) (s : Str) : (c.append s).indent = c.indent := rfl

@[simp] theorem append_gap (c : Context) (s : Str) : (c.append s).gap = c.gap := rfl

@[simp] theorem append_result (c : Context) (s : Str) : (c.append s).result = c.result ++ s := rfl

@[simp] theorem append_ifGap (c : Context) (s t : Str) : (c.append s).ifGap t = c.ifGap t := rfl

theorem append_revert (c : Context) (s t : Str) : (c.append (s ++ t)).revert (c.result ++ s).length = c.append s := by
  simp only [Context.append, Context.revert, ← List.append_assoc, List.take_left]

theorem append_revert_all (c : Context) (s : Str) : (c.append s).revert c.result.length = c := by
  simp only [Context.append, Context.revert, List.take_left]

/-- The brackets around a text; the indent is as before. -/
theorem opened_closed (c : Context) (b d : Byte) (s : Str) :
    ((c.opened b).append s).closed d c.indent.length = c.append (b :: (s ++ [d])) := by
  simp [Context.opened, Context.closed, Context.append]

theorem white_opened {c : Context} {b : Byte} (hi : White c.indent) (hg : White c.gap) : White (c.opened b).indent := by
  intro x hx
  cases List.mem_append.mp hx with
  | inl h => exact hi x h
  | inr h => exact hg x h

theorem opened_indent_take (c : Context) (b : Byte) : (c.opened b).indent.take c.indent.length = c.indent :=
  List.take_left

/-- White space is written only with a gap. -/
def SpaceWithGap (gap : Str) (b : Byte) : Prop := gap ≠ [] ∧ IsSpace b

theorem white_ifGap (c : Context) {w : Str} (hw : White w) : White (c.ifGap w) := by
  unfold Context.ifGap
  split
  · exact hw
  · exact white_nil

theorem clean_ifGap (c : Context) {w : Str} (hw : White w) : Clean (SpaceWithGap c.gap) (c.ifGap w) := by
  unfold Context.ifGap
  split
  · rename_i hgap
    refine clean_ascii fun b hb => ⟨ascii_of_isSpace (hw b hb), fun _ => ⟨hgap, hw b hb⟩⟩
  · exact clean_nil

/-! ## Serializing -/

section

variable {numberToString : ν → Option Str} {toNumber : List Byte → ν}

/-- The text of a value is appended to the result. -/
def Writes (numberToString : ν → Option Str) (toNumber : List Byte → ν) (v : Node ν) : Prop :=
  ∀ c : Context, White c.indent → White c.gap →
    ∃ text, serializeProperty numberToString v c = some (true, c.append text) ∧
      Derives Numeral toNumber cesu8 (.value v.tree) text ∧ Clean (SpaceWithGap c.gap) text

theorem writes_printable {v : Node ν} (text : Str) (hser : ∀ c, serializeProperty numberToString v c = some (true, c.append text))
    (hd : Derives Numeral toNumber cesu8 (.value v.tree) text) (hp : ∀ b ∈ text, Printable b) :
    Writes numberToString toNumber v :=
  fun c _ _ => ⟨text, hser c, hd, clean_printable hp⟩

theorem text_ne_nil {t : Value ν} {b : List Byte} (hb : Derives Numeral toNumber cesu8 (.value t) b) : b ≠ [] :=
  derives_ne_nil (hb.mono fun _ => looseNumeral_of_numeral)

/-- The loop over the elements leaves a comma behind, and `last_prop` before it. -/
theorem serializeElements_spec {vs : List (Node ν)} (hne : vs ≠ []) (ih : ∀ v ∈ vs, Writes numberToString toNumber v)
    (c : Context) (lastProp : Nat) (hi : White c.indent) (hg : White c.gap) :
    ∃ b, serializeElements numberToString vs c.indent.length lastProp c =
        some ((c.result ++ b).length, c.append (b ++ [0x2c#8])) ∧
      (∀ w', White w' → Derives Numeral toNumber cesu8 (.elements (treeElements vs)) (b ++ w')) ∧
      Clean (SpaceWithGap c.gap) b ∧ b ≠ [] := by
  induction vs generalizing c lastProp with
  | nil => exact absurd rfl hne
  | cons v vs ihvs =>
    have hw := white_ifGap c hi
    have hcw := clean_ifGap c hi
    obtain ⟨text, hser, hd, hclean⟩ := ih v (by simp) (c.append (c.ifGap c.indent)) hi hg
    have htext := text_ne_nil hd
    rw [serializeElements, List.take_length, hser]
    simp only [if_true, append_append, append_result]
    cases vs with
    | nil =>
      refine ⟨c.ifGap c.indent ++ text, ?_, ?_, hcw.append hclean, by simp [htext]⟩
      · simp [serializeElements]
      · intro w' hw'
        rw [List.append_assoc]
        exact .element hw hd hw'
    | cons v' vs =>
      obtain ⟨b, hloop, hb, hbc, -⟩ := ihvs (by simp) (fun x hx => ih x (by simp [hx]))
        (c.append (c.ifGap c.indent ++ text ++ [0x2c#8])) _ hi hg
      refine ⟨c.ifGap c.indent ++ (text ++ 0x2c#8 :: b), ?_, ?_, ?_, by simp [htext]⟩
      · rw [append_indent] at hloop
        rw [hloop]
        simp
      · intro w' hw'
        have helems := Derives.elements hw hd white_nil (hb w' hw')
        rw [treeElements]
        simpa using helems
      · have hcomma : Clean (SpaceWithGap c.gap) [0x2c#8] := clean_printable (by decide)
        exact hcw.append (hclean.append (hcomma.append hbc))

/-- What a member adds to the text: its name and its value, between white space of the context. -/
theorem member_derives (c : Context) (ms : List (Str × Value ν)) {q text : Str} {key : List CodeUnit} {t : Value ν}
    (hi : White c.indent) (hq : StringLiteral q key) (hd : Derives Numeral toNumber cesu8 (.value t) text) :
    (∀ w', White w' → Derives Numeral toNumber cesu8 (.members [(cesu8 key, t)])
      (c.ifGap c.indent ++ (q ++ 0x3a#8 :: (c.ifGap [0x20#8] ++ text)) ++ w')) ∧
    (∀ r, Derives Numeral toNumber cesu8 (.members ms) r → Derives Numeral toNumber cesu8 (.members ((cesu8 key, t) :: ms))
      (c.ifGap c.indent ++ (q ++ 0x3a#8 :: (c.ifGap [0x20#8] ++ text)) ++ 0x2c#8 :: r)) := by
  have hw := white_ifGap c hi
  have hs : White (c.ifGap [0x20#8]) := white_ifGap c (by unfold White; decide)
  constructor
  · intro w' hw'
    have h := Derives.member hw hq white_nil hs hd hw'
    simpa using h
  · intro r hr
    have h := Derives.members hw hq white_nil hs hd white_nil hr
    simpa using h

/-- The loop over the members: every member that has a value is followed by a comma, the others leave nothing. -/
theorem serializeMembers_spec {ms : List (List CodeUnit × Node ν)}
    (ih : ∀ m ∈ ms, m.2 ≠ .undefined → Writes numberToString toNumber m.2)
    (c : Context) (hi : White c.indent) (hg : White c.gap) :
    ∃ body, serializeMembers numberToString ms c.indent.length c.result.length c =
        some ((c.result ++ body).length, c.append body) ∧
      (treeMembers ms = [] ∧ body = [] ∨
        ∃ b, body = b ++ [0x2c#8] ∧ Clean (SpaceWithGap c.gap) b ∧
          ∀ w', White w' → Derives Numeral toNumber cesu8 (.members (treeMembers ms)) (b ++ w')) := by
  induction ms generalizing c with
  | nil => exact ⟨[], by simp [serializeMembers, Context.append], .inl ⟨by simp [treeMembers], rfl⟩⟩
  | cons m ms ihms =>
    obtain ⟨key, v⟩ := m
    obtain ⟨q, hquote, hq⟩ := quote_literal key
    have hms := fun x (hx : x ∈ ms) => ih x (List.mem_cons_of_mem _ hx)
    rw [serializeMembers.eq_def]
    simp only [hquote, List.take_length, append_append, append_ifGap]
    by_cases hv : v = .undefined
    · -- the text of the name is reverted
      obtain ⟨body, hloop, hbody⟩ := ihms hms c hi hg
      subst hv
      refine ⟨body, ?_, ?_⟩
      · simp only [serializeProperty]
        rw [append_revert_all, hloop]
      · simpa only [treeMembers] using hbody
    · obtain ⟨text, hser, hd, hctext⟩ := ih (key, v) (by simp) hv
        (c.append (c.ifGap c.indent ++ (q ++ ([0x3a#8] ++ c.ifGap [0x20#8])))) hi hg
      have htree : treeMembers ((key, v) :: ms) = (cesu8 key, v.tree) :: treeMembers ms := by
        cases v with
        | undefined => exact absurd rfl hv
        | _ => simp only [treeMembers]
      obtain ⟨body, hloop, hbody⟩ := ihms hms
        (c.append (c.ifGap c.indent ++ (q ++ 0x3a#8 :: (c.ifGap [0x20#8] ++ text)) ++ [0x2c#8])) hi hg
      obtain ⟨hone, hcons⟩ := member_derives c (treeMembers ms) hi hq hd
      have hcm : Clean (SpaceWithGap c.gap) (c.ifGap c.indent ++ (q ++ 0x3a#8 :: (c.ifGap [0x20#8] ++ text))) := by
        have hcolon : Clean (SpaceWithGap c.gap) [0x3a#8] := clean_printable (by decide)
        have hspace := clean_ifGap c (w := [0x20#8]) (by unfold White; decide)
        exact (clean_ifGap c hi).append ((clean_quote hquote).append (hcolon.append (hspace.append hctext)))
      have hcomma : Clean (SpaceWithGap c.gap) [0x2c#8] := clean_printable (by decide)
      refine ⟨c.ifGap c.indent ++ (q ++ 0x3a#8 :: (c.ifGap [0x20#8] ++ text)) ++ [0x2c#8] ++ body, ?_, .inr ?_⟩
      · simp only [List.append_assoc, List.cons_append, List.nil_append, append_append, append_result, append_indent,
          List.length_append, List.length_cons, List.length_nil] at hser hloop ⊢
        rw [hser]
        simp only [append_append, append_result, List.append_assoc, List.cons_append, List.length_append,
          List.length_cons] at hloop ⊢
        exact hloop
      · rw [htree]
        rcases hbody with ⟨hnil, rfl⟩ | ⟨b, rfl, hclean, hb⟩
        · refine ⟨_, List.append_nil _, hcm, ?_⟩
          rw [hnil]
          exact hone
        · refine ⟨c.ifGap c.indent ++ (q ++ 0x3a#8 :: (c.ifGap [0x20#8] ++ text)) ++ 0x2c#8 :: b, by simp,
            hcm.append (hcomma.append hclean), ?_⟩
          intro w' hw'
          rw [List.append_assoc, List.cons_append]
          exact hcons _ (hb w' hw')

/-- The serializers append the text of the value and leave the rest of the context as it was. -/
theorem serializeProperty_spec {integer : ν → Prop}
    (hnum : ∀ x, integer x → ∃ s, numberToString x = some s ∧ Numeral s ∧ toNumber s = x)
    {v : Node ν} (hv : IsTree integer v) : Writes numberToString toNumber v := by
  induction hv with
  | null => exact writes_printable _ (fun c => by rw [serializeProperty]) .null (by decide)
  | bool b =>
    cases b with
    | true => exact writes_printable _ (fun c => by rw [serializeProperty]) .true (by decide)
    | false => exact writes_printable _ (fun c => by rw [serializeProperty]) .false (by decide)
  | @number x hx =>
    obtain ⟨s, hs, hnumeral, hback⟩ := hnum x hx
    refine writes_printable s ?_ ?_ (printable_looseNumeral (looseNumeral_of_numeral hnumeral))
    · intro c
      simp only [serializeProperty, hs]
    · have hd : Derives Numeral toNumber cesu8 (.value (.number (toNumber s))) s := .number hnumeral
      rw [hback] at hd
      exact hd
  | string us =>
    intro c hi hg
    obtain ⟨q, hquote, hq⟩ := quote_literal us
    refine ⟨q, ?_, .string hq, clean_quote hquote⟩
    rw [serializeProperty, hquote]
    rfl
  | @array vs _ ih =>
    intro c hi hg
    have ho := white_opened (b := 0x5b#8) hi hg
    have hopen : Clean (SpaceWithGap c.gap) [0x5b#8] := clean_printable (by decide)
    have hclose : Clean (SpaceWithGap c.gap) [0x5d#8] := clean_printable (by decide)
    by_cases hne : vs = []
    · subst hne
      refine ⟨0x5b#8 :: ([] ++ [0x5d#8]), ?_, .emptyArray white_nil, hopen.append hclose⟩
      rw [← opened_closed]
      simp [serializeProperty, serializeElements, Context.append, Context.revert]
    · obtain ⟨b, hloop, hb, hclean, hbne⟩ := serializeElements_spec hne ih (c.opened 0x5b#8)
        (c.opened 0x5b#8).result.length ho hg
      have hw := white_ifGap c hi
      refine ⟨0x5b#8 :: ((b ++ c.ifGap c.indent) ++ [0x5d#8]), ?_, .array (hb _ hw),
        hopen.append ((hclean.append (clean_ifGap c hi)).append hclose)⟩
      have hlast : ((c.opened 0x5b#8).result ++ b).length ≠ (c.opened 0x5b#8).result.length := by
        have hpos := List.length_pos_iff.mpr hbne
        rw [List.length_append]
        omega
      rw [serializeProperty, ← opened_closed]
      simp only [hloop]
      rw [if_pos hlast, append_revert]
      simp only [append_ifGap, append_indent, opened_indent_take, append_append]
      rfl
  | @object ms _ hnodup ih =>
    intro c hi hg
    have ho := white_opened (b := 0x7b#8) hi hg
    have hopen : Clean (SpaceWithGap c.gap) [0x7b#8] := clean_printable (by decide)
    have hclose : Clean (SpaceWithGap c.gap) [0x7d#8] := clean_printable (by decide)
    have hdefine : define [] (treeMembers ms) = treeMembers ms := by
      rw [define_of_nodup (by simpa using nodup_treeMembers hnodup), List.nil_append]
    obtain ⟨body, hloop, hbody⟩ := serializeMembers_spec ih (c.opened 0x7b#8) ho hg
    rw [Node.tree]
    rcases hbody with ⟨hnil, rfl⟩ | ⟨b, rfl, hclean, hb⟩
    · refine ⟨0x7b#8 :: ([] ++ [0x7d#8]), ?_, ?_, hopen.append hclose⟩
      · rw [serializeProperty, ← opened_closed]
        simp only [hloop, List.append_nil]
        rw [if_neg (by simp)]
      · rw [hnil]
        exact .emptyObject white_nil
    · have hw := white_ifGap c hi
      have hobject := Derives.object (hb _ hw)
      rw [hdefine] at hobject
      refine ⟨0x7b#8 :: ((b ++ c.ifGap c.indent) ++ [0x7d#8]), ?_, hobject,
        hopen.append ((hclean.append (clean_ifGap c hi)).append hclose)⟩
      · have hlast : ((c.opened 0x7b#8).result ++ (b ++ [0x2c#8])).length ≠ (c.opened 0x7b#8).result.length := by
          simp
        have hback : ((c.opened 0x7b#8).result ++ (b ++ [0x2c#8])).length - 1 = ((c.opened 0x7b#8).result ++ b).length := by
          simp
        rw [serializeProperty, ← opened_closed]
        simp only [hloop]
        rw [if_pos hlast, hback, append_revert]
        simp only [append_ifGap, append_indent, opened_indent_take, append_append]
        rfl

/-- The text has no lone surrogate, and a control character in it is white space that the gap brought in. -/
def CleanText (gap text : Str) : Prop :=
  ∃ us, text = cesu8 us ∧ Paired us ∧
    ∀ u ∈ us, u.toNat < 0x20 → gap ≠ [] ∧ IsSpace (BitVec.ofNat 8 u.toNat)

/-- Every JSON tree is written as a clean JSON text, and read back from it. -/
theorem parse_stringify {integer : ν → Prop} {gap : Str} {v : Node ν}
    (hnum : ∀ x, integer x → ∃ s, numberToString x = some s ∧ Numeral s ∧ toNumber s = x)
    (hgap : White gap) (hv : IsTree integer v) :
    ∃ text, stringify numberToString gap v = some (some text) ∧ Text Numeral toNumber cesu8 v.tree text ∧
      CleanText gap text ∧ parseBuffer toNumber text = .value v.tree := by
  have hindent : White (if gap ≠ [] then [0x0a#8] else []) := by
    split
    · unfold White
      decide
    · exact white_nil
  obtain ⟨text, hser, hd, hclean⟩ := serializeProperty_spec hnum hv
    ⟨[], if gap ≠ [] then [0x0a#8] else [], gap⟩ hindent hgap
  have htext : Text Numeral toNumber cesu8 v.tree text := ⟨[], text, [], white_nil, hd, white_nil, by simp⟩
  refine ⟨text, ?_, htext, hclean, parseBuffer_of_text htext⟩
  rw [stringify, hser]
  rfl

/-- An object with an undefined property between a lone surrogate and an array, with a gap of one tab. -/
theorem parse_stringify_object :
    ∃ text, stringify (fun x : Nat => some [BitVec.ofNat 8 (0x30 + x)]) [0x09#8]
        (.object [([0x61#16], .string [0xd800#16]), ([0x62#16], .undefined), ([], .array [.number 7])]) =
        some (some text) ∧
      parseBuffer (fun s => (s.head?.getD 0x30#8).toNat - 0x30) text =
        .value (.object [([0x61#8], .string (cesu8 [0xd800#16])), ([], .array [.number 7])]) := by
  have hnum : ∀ x : Nat, x = 7 → ∃ s, some [BitVec.ofNat 8 (0x30 + x)] = some s ∧ Numeral s ∧
      (s.head?.getD 0x30#8).toNat - 0x30 = x := by
    intro x hx
    subst hx
    refine ⟨_, rfl, ⟨[], [0x37#8], [], [], .inl rfl, .inr ⟨⟨by simp, ?_⟩, by simp⟩, .inl rfl, .inl rfl, rfl⟩, rfl⟩
    intro d hd
    rw [List.mem_singleton.mp hd]
    decide
  have htree : IsTree (fun x : Nat => x = 7)
      (.object [([0x61#16], .string [0xd800#16]), ([0x62#16], .undefined), ([], .array [.number 7])]) := by
    refine .object ?_ (by decide)
    intro m hm hdef
    simp only [List.mem_cons, List.not_mem_nil, or_false] at hm
    rcases hm with rfl | rfl | rfl
    · exact .string _
    · exact absurd rfl hdef
    · refine .array fun v hv => ?_
      rw [List.mem_singleton.mp hv]
      exact .number rfl
  have hgap : White [0x09#8] := by
    unfold White
    decide
  obtain ⟨text, hstr, -, -, hparse⟩ := parse_stringify hnum hgap htree
  exact ⟨text, hstr, hparse⟩

end

end Json
end JJS
