import JJS.Lib.Utf8
import JJS.Lib.OrderedMap

/-!
# JJS.Lib.Ecma404

The grammar of ECMA-404 over bytes, with the tree that a text denotes. The grammar is parametric in the
numerals `N`, in what a numeral stands for (`num`) and in how a string of code units is represented
(`str`); `Numeral` are the numerals of the standard.

`Derives` has one constructor for each production. A `Goal` is what a production derives: a value, the
elements of an array or the members of an object.
-/

namespace Ecma404

open Utf8 OrderedMap

/-- A JSON tree. -/
inductive Tree (σ ν : Type) where
  | null
  | bool (b : Bool)
  | number (x : ν)
  | string (s : σ)
  | array (elements : List (Tree σ ν))
  | object (members : List (σ × Tree σ ν))

/-! ## Tokens -/

def IsSpace (b : Byte) : Prop := b = 0x20#8 ∨ b = 0x09#8 ∨ b = 0x0a#8 ∨ b = 0x0d#8

instance (b : Byte) : Decidable (IsSpace b) :=
  inferInstanceAs (Decidable (b = 0x20#8 ∨ b = 0x09#8 ∨ b = 0x0a#8 ∨ b = 0x0d#8))

def White (w : List Byte) : Prop := ∀ b ∈ w, IsSpace b

def IsDigit (b : Byte) : Prop := 0x30 ≤ b.toNat ∧ b.toNat ≤ 0x39

instance (b : Byte) : Decidable (IsDigit b) := inferInstanceAs (Decidable (0x30 ≤ b.toNat ∧ b.toNat ≤ 0x39))

def Digits (ds : List Byte) : Prop := ds ≠ [] ∧ ∀ d ∈ ds, IsDigit d

/-- Zero, or digits that do not begin with zero. -/
def IntegerPart (s : List Byte) : Prop := s = [0x30#8] ∨ Digits s ∧ s.head? ≠ some 0x30#8

def FractionPart (s : List Byte) : Prop := s = [] ∨ ∃ ds, Digits ds ∧ s = 0x2e#8 :: ds

def ExponentPart (s : List Byte) : Prop :=
  s = [] ∨ ∃ e sign ds, (e = 0x65#8 ∨ e = 0x45#8) ∧ (sign = [] ∨ sign = [0x2b#8] ∨ sign = [0x2d#8]) ∧
    Digits ds ∧ s = e :: (sign ++ ds)

/-- An optional minus, an integer, an optional fraction and an optional exponent. -/
def Numeral (s : List Byte) : Prop :=
  ∃ sign i f e, (sign = [] ∨ sign = [0x2d#8]) ∧ IntegerPart i ∧ FractionPart f ∧ ExponentPart e ∧
    s = sign ++ (i ++ (f ++ e))

/-- The escapes of one character after the reverse solidus, and what they stand for. -/
def simpleEscapes : List (Byte × CodeUnit) :=
  [(0x22#8, 0x22#16), (0x5c#8, 0x5c#16), (0x2f#8, 0x2f#16), (0x62#8, 0x08#16), (0x66#8, 0x0c#16),
    (0x6e#8, 0x0a#16), (0x72#8, 0x0d#16), (0x74#8, 0x09#16)]

/-- The value of a hexadecimal digit, in either case. -/
def hexDigit (b : Byte) : Option Nat :=
  if 0x30 ≤ b.toNat ∧ b.toNat ≤ 0x39 then some (b.toNat - 0x30)
  else if 0x61 ≤ b.toNat ∧ b.toNat ≤ 0x66 then some (b.toNat - 0x61 + 10)
  else if 0x41 ≤ b.toNat ∧ b.toNat ≤ 0x46 then some (b.toNat - 0x41 + 10)
  else none

/-- What stands between the quotation marks, and the code units it stands for. -/
inductive StringBody : List Byte → List CodeUnit → Prop where
  | nil : StringBody [] []
  | char {c : Point} {s : List Byte} {us : List CodeUnit} : 0x20 ≤ c.val → c.val ≠ 0x22 → c.val ≠ 0x5c →
      StringBody s us → StringBody (c.encode ++ s) (c.units ++ us)
  | escape {b : Byte} {u : CodeUnit} {s : List Byte} {us : List CodeUnit} : (b, u) ∈ simpleEscapes →
      StringBody s us → StringBody (0x5c#8 :: b :: s) (u :: us)
  | hex {h1 h2 h3 h4 : Byte} {d1 d2 d3 d4 : Nat} {s : List Byte} {us : List CodeUnit} :
      hexDigit h1 = some d1 → hexDigit h2 = some d2 → hexDigit h3 = some d3 → hexDigit h4 = some d4 →
      StringBody s us → StringBody (0x5c#8 :: 0x75#8 :: h1 :: h2 :: h3 :: h4 :: s)
        (BitVec.ofNat 16 (((d1 * 16 + d2) * 16 + d3) * 16 + d4) :: us)

/-- A string between its quotation marks. -/
def StringLiteral (s : List Byte) (us : List CodeUnit) : Prop :=
  ∃ body, StringBody body us ∧ s = 0x22#8 :: (body ++ [0x22#8])

/-! ## Values -/

/-- What a production derives. -/
inductive Goal (σ ν : Type) where
  | value (t : Tree σ ν)
  | elements (ts : List (Tree σ ν))
  | members (ms : List (σ × Tree σ ν))

section

variable {σ ν : Type} [DecidableEq σ]

/-- Members in their order; a name that comes again takes the later value. -/
def define (object members : List (σ × Tree σ ν)) : List (σ × Tree σ ν) :=
  members.foldl (fun o m => Table.setEntries o m.1 m.2) object

/-- Without repeated names the members are the object. -/
theorem define_of_nodup {object members : List (σ × Tree σ ν)} (h : ((object ++ members).map Prod.fst).Nodup) :
    define object members = object ++ members := by
  induction members generalizing object with
  | nil => simp [define]
  | cons m ms ih =>
    have hnot : m.1 ∉ object.map Prod.fst := by
      intro hmem
      rw [List.map_append, List.nodup_append] at h
      exact h.2.2 m.1 hmem m.1 (by simp) rfl
    have hset : Table.setEntries object m.1 m.2 = object ++ [m] := by
      rw [Table.setEntries, if_neg hnot]
    rw [← List.singleton_append, ← List.append_assoc] at h
    have hrest := ih h
    rw [define, List.foldl_cons, hset]
    rw [define, List.append_assoc] at hrest
    exact hrest

variable (N : List Byte → Prop) (num : List Byte → ν) (str : List CodeUnit → σ)

inductive Derives : Goal σ ν → List Byte → Prop where
  | null : Derives (.value .null) [0x6e#8, 0x75#8, 0x6c#8, 0x6c#8]
  | true : Derives (.value (.bool true)) [0x74#8, 0x72#8, 0x75#8, 0x65#8]
  | false : Derives (.value (.bool false)) [0x66#8, 0x61#8, 0x6c#8, 0x73#8, 0x65#8]
  | number {s : List Byte} : N s → Derives (.value (.number (num s))) s
  | string {s : List Byte} {us : List CodeUnit} : StringLiteral s us → Derives (.value (.string (str us))) s
  | emptyArray {w : List Byte} : White w → Derives (.value (.array [])) (0x5b#8 :: (w ++ [0x5d#8]))
  | array {ts : List (Tree σ ν)} {s : List Byte} : Derives (.elements ts) s →
      Derives (.value (.array ts)) (0x5b#8 :: (s ++ [0x5d#8]))
  | emptyObject {w : List Byte} : White w → Derives (.value (.object [])) (0x7b#8 :: (w ++ [0x7d#8]))
  | object {ms : List (σ × Tree σ ν)} {s : List Byte} : Derives (.members ms) s →
      Derives (.value (.object (define [] ms))) (0x7b#8 :: (s ++ [0x7d#8]))
  | element {t : Tree σ ν} {w s w' : List Byte} : White w → Derives (.value t) s → White w' →
      Derives (.elements [t]) (w ++ (s ++ w'))
  | elements {t : Tree σ ν} {ts : List (Tree σ ν)} {w s w' r : List Byte} : White w → Derives (.value t) s →
      White w' → Derives (.elements ts) r → Derives (.elements (t :: ts)) (w ++ (s ++ (w' ++ 0x2c#8 :: r)))
  | member {t : Tree σ ν} {us : List CodeUnit} {w k w1 w2 s w' : List Byte} : White w → StringLiteral k us →
      White w1 → White w2 → Derives (.value t) s → White w' →
      Derives (.members [(str us, t)]) (w ++ (k ++ (w1 ++ 0x3a#8 :: (w2 ++ (s ++ w')))))
  | members {t : Tree σ ν} {us : List CodeUnit} {ms : List (σ × Tree σ ν)} {w k w1 w2 s w' r : List Byte} :
      White w → StringLiteral k us → White w1 → White w2 → Derives (.value t) s → White w' →
      Derives (.members ms) r →
      Derives (.members ((str us, t) :: ms)) (w ++ (k ++ (w1 ++ 0x3a#8 :: (w2 ++ (s ++ (w' ++ 0x2c#8 :: r))))))

/-- A JSON text: one value between white space. -/
def Text (t : Tree σ ν) (s : List Byte) : Prop :=
  ∃ w b w', White w ∧ Derives N num str (.value t) b ∧ White w' ∧ s = w ++ (b ++ w')

variable {N num str} {M : List Byte → Prop}

theorem Derives.mono (hNM : ∀ s, N s → M s) {g : Goal σ ν} {s : List Byte} (h : Derives N num str g s) :
    Derives M num str g s := by
  induction h with
  | null => exact .null
  | true => exact .true
  | false => exact .false
  | number hn => exact .number (hNM _ hn)
  | string hs => exact .string hs
  | emptyArray hw => exact .emptyArray hw
  | array _ ih => exact .array ih
  | emptyObject hw => exact .emptyObject hw
  | object _ ih => exact .object ih
  | element hw _ hw' ih => exact .element hw ih hw'
  | elements hw _ hw' _ iht ihr => exact .elements hw iht hw' ihr
  | member hw hk hw1 hw2 _ hw' ih => exact .member hw hk hw1 hw2 ih hw'
  | members hw hk hw1 hw2 _ hw' _ iht ihr => exact .members hw hk hw1 hw2 iht hw' ihr

theorem Text.mono (hNM : ∀ s, N s → M s) {t : Tree σ ν} {s : List Byte} (h : Text N num str t s) :
    Text M num str t s := by
  obtain ⟨w, b, w', hw, hb, hw', rfl⟩ := h
  exact ⟨w, b, w', hw, hb.mono hNM, hw', rfl⟩

end

end Ecma404
