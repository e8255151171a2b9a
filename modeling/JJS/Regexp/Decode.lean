import JJS.Regexp.Valid

/-!
# JJS.Regexp.Decode

The finished byte code as the matcher reads it. A term is read from one position to another when every operand is read
as the value that was encoded, and every offset leads from the position behind it to the end of what it skips. Every
pattern that is accepted is read so, from its first byte to its end (`reCompileBytecode_reads`).
-/

namespace JJS
namespace Regexp

open Utf8 Lit Strings Outcome

/-! ## What is read -/

/-- Several items that are read one behind the other. -/
inductive ReadsAll {α : Type} (read : Nat → α → Nat → Prop) : Nat → List α → Nat → Prop
  | nil {bc : Nat} : ReadsAll read bc [] bc
  | cons {bc bc' bc'' : Nat} {x : α} {xs : List α} (head : read bc x bc') (tail : ReadsAll read bc' xs bc'') :
    ReadsAll read bc (x :: xs) bc''

section

variable (code : List Byte) (unicode : Bool)

/-- An operand that is there under a condition. -/
def ReadsValueIf (condition : Prop) (bc : Nat) (value : BitVec 32) (bc' : Nat) : Prop :=
  condition ∧ getValue code bc = some (value, bc') ∨ ¬condition ∧ bc' = bc

/-- The contents of a character class, behind the opcode. -/
structure ReadsClass (bc : Nat) (cls : CharClass) (bc' : Nat) : Prop where
  contents : ∃ b1 b2 b3 b4 b5, getByte code bc = some (cls.classFlags, b1) ∧
    isInverted cls.classFlags = cls.inverted ∧ (cls.classFlags &&& 0x07#8).toNat = cls.escapes.length ∧
    ReadsValueIf code (hasChars cls.classFlags = true) b1 (BitVec.ofNat 32 cls.chars.length) b2 ∧
    ReadsValueIf code (hasRanges cls.classFlags = true) b2 (BitVec.ofNat 32 cls.ranges.length) b3 ∧
    (hasChars cls.classFlags = true ↔ cls.chars ≠ []) ∧ (hasRanges cls.classFlags = true ↔ cls.ranges ≠ []) ∧
    ReadsAll (fun b e b' => getByte code b = some (ClassEscape.toByte e, b')) b3 cls.escapes b4 ∧
    ReadsAll (fun b cp b' => getChar code b unicode = some (cp, b')) b4 cls.chars b5 ∧
    ReadsAll (fun b (r : CodePoint × CodePoint) b' =>
      ∃ b₀, getChar code b unicode = some (r.1, b₀) ∧ getChar code b₀ unicode = some (r.2, b')) b5 cls.ranges bc'

/-- An atom, without its iterator. -/
inductive ReadsAtom : Nat → Atom → Nat → Prop
  | byte {bc b1 bc' : Nat} {b : Byte} (opcode : getOpcode code bc = some (.byte, b1))
      (value : getByte code b1 = some (b, bc')) : ReadsAtom bc (.byte b) bc'
  | char {bc b1 bc' : Nat} {cp : CodePoint} (opcode : getOpcode code bc = some (.char, b1))
      (value : getChar code b1 unicode = some (cp, bc')) : ReadsAtom bc (.char cp) bc'
  | classEscape {bc b1 bc' : Nat} {e : ClassEscape} (opcode : getOpcode code bc = some (.classEscape, b1))
      (value : getByte code b1 = some (e.toByte, bc')) : ReadsAtom bc (.classEscape e) bc'
  | charClass {bc b1 bc' : Nat} {cls : CharClass} (opcode : getOpcode code bc = some (.charClass, b1))
      (contents : ReadsClass code unicode b1 cls bc') : ReadsAtom bc (.charClass cls) bc'
  | period {bc bc' : Nat}
      (opcode : getOpcode code bc = some ((if unicode then .unicodePeriod else .period), bc')) :
      ReadsAtom bc .period bc'

/-- The start of a group, up to its body. With a minimum of zero there is the distance from there to the end of the
group. -/
structure ReadsGroupStart (bc : Nat) (g : Group) (bc' groupEnd : Nat) : Prop where
  operands : ∃ b1 b2 b3 b4 b5, getOpcode code bc = some (reGetGroupStartOpcode g.isCapturing, b1) ∧
    getValue code b1 = some (BitVec.ofNat 32 g.idx, b2) ∧
    ReadsValueIf code (g.isCapturing = false) b2 (BitVec.ofNat 32 g.captureStart) b3 ∧
    getValue code b3 = some (BitVec.ofNat 32 g.captureCount, b4) ∧
    getValue code b4 = some (g.quantifier.qmin, b5) ∧
    ∃ offset, ReadsValueIf code (g.quantifier.qmin = 0#32) b5 offset bc' ∧
      (g.quantifier.qmin = 0#32 → bc' + offset.toNat = groupEnd)

/-- The end of a group. -/
structure ReadsGroupEnd (bc : Nat) (g : Group) (bc' : Nat) : Prop where
  operands : ∃ b1 b2 b3, getOpcode code bc = some (reGetGroupEndOpcode g.quantifier.greedy g.isCapturing, b1) ∧
    getValue code b1 = some (BitVec.ofNat 32 g.idx, b2) ∧ getValue code b2 = some (g.quantifier.qmin, b3) ∧
    getValue code b3 = some (g.quantifier.qmax + qmaxOffset, bc')

/-- The start of a lookahead, up to its body, with the distance from there to behind the lookahead. -/
structure ReadsLookahead (bc : Nat) (l : Lookahead) (bc' lookaheadEnd : Nat) : Prop where
  operands : ∃ b1 b2 b3 b4 offset,
    getOpcode code bc = some ((if l.negative then .assertLookaheadNeg else .assertLookaheadPos), b1) ∧
    getByte code b1 = some ((if l.optional then 0#8 else 1#8), b2) ∧
    getValue code b2 = some (BitVec.ofNat 32 l.captureStart, b3) ∧
    getValue code b3 = some (BitVec.ofNat 32 l.captureCount, b4) ∧
    getValue code b4 = some (offset, bc') ∧ bc' + offset.toNat = lookaheadEnd

mutual

/-- A term, from its opcode to behind it. -/
inductive ReadsTerm : Nat → Term → Nat → Prop
  | assertion {bc bc' : Nat} {a : Assertion} (opcode : getOpcode code bc = some (a.opcode, bc')) :
      ReadsTerm bc (.assertion a) bc'
  | atom {bc bc' : Nat} {atom : Atom} {q : Quantifier} (once : q.qmin = 1#32 ∧ q.qmax = 1#32)
      (reads : ReadsAtom code unicode bc atom bc') : ReadsTerm bc (.atom atom q) bc'
  | iterator {bc b1 b2 b3 b4 b5 bc' : Nat} {atom : Atom} {q : Quantifier} {offset : BitVec 32}
      (notOnce : ¬(q.qmin = 1#32 ∧ q.qmax = 1#32))
      (opcode : getOpcode code bc = some ((if q.greedy then .greedyIterator else .lazyIterator), b1))
      (qmin : getValue code b1 = some (q.qmin, b2)) (qmax : getValue code b2 = some (q.qmax + qmaxOffset, b3))
      (iteratorEnd : getValue code b3 = some (offset, b4)) (reads : ReadsAtom code unicode b4 atom b5)
      (close : getOpcode code b5 = some (.iteratorEnd, bc')) (leads : b4 + offset.toNat = bc') :
      ReadsTerm bc (.atom atom q) bc'
  | backreference {bc b1 bc' : Nat} {idx : BitVec 32} (opcode : getOpcode code bc = some (.backreference, b1))
      (value : getValue code b1 = some (idx, bc')) : ReadsTerm bc (.backreference idx) bc'
  | group {bc b1 b2 bc' : Nat} {g : Group} {body : List (List Term)} (start : ReadsGroupStart code bc g b1 b2)
      (reads : ReadsAlts b1 body b2) (close : ReadsGroupEnd code b2 g bc') : ReadsTerm bc (.group g body) bc'
  | lookahead {bc b1 b2 bc' : Nat} {l : Lookahead} {body : List (List Term)}
      (start : ReadsLookahead code bc l b1 bc') (reads : ReadsAlts b1 body b2)
      (close : getOpcode code b2 = some (.assertEnd, bc')) : ReadsTerm bc (.lookahead l body) bc'

/-- An alternative. -/
inductive ReadsTerms : Nat → List Term → Nat → Prop
  | nil {bc : Nat} : ReadsTerms bc [] bc
  | cons {bc bc' bc'' : Nat} {term : Term} {terms : List Term} (head : ReadsTerm bc term bc')
      (tail : ReadsTerms bc' terms bc'') : ReadsTerms bc (term :: terms) bc''

/-- A body. An alternative that is not the only one has the distance to the next one, or to the end of the last one. -/
inductive ReadsAlts : Nat → List (List Term) → Nat → Prop
  | nil {bc : Nat} : ReadsAlts bc [] bc
  | single {bc bc' : Nat} {terms : List Term} (reads : ReadsTerms bc terms bc') : ReadsAlts bc [terms] bc'
  | start {bc b1 b2 b3 bc' : Nat} {terms other : List Term} {alts : List (List Term)} {offset : BitVec 32}
      (opcode : getOpcode code bc = some (.alternativeStart, b1)) (value : getValue code b1 = some (offset, b2))
      (reads : ReadsTerms b2 terms b3) (leads : b2 + offset.toNat = b3) (rest : ReadsNext b3 (other :: alts) bc') :
      ReadsAlts bc (terms :: other :: alts) bc'

/-- The alternatives behind the first one. -/
inductive ReadsNext : Nat → List (List Term) → Nat → Prop
  | nil {bc : Nat} : ReadsNext bc [] bc
  | cons {bc b1 b2 b3 bc' : Nat} {terms : List Term} {alts : List (List Term)} {offset : BitVec 32}
      (opcode : getOpcode code bc = some (.alternativeNext, b1)) (value : getValue code b1 = some (offset, b2))
      (reads : ReadsTerms b2 terms b3) (leads : b2 + offset.toNat = b3) (rest : ReadsNext b3 alts bc') :
      ReadsNext bc (terms :: alts) bc'

end

end

/-! ## What was written is read -/

section

variable {tables : CaseTables} {unicode : Bool} {captures nonCaptures : Nat} {code : List Byte} {bc bc' : Nat}
  {rest : List Byte}

theorem opcode_front {op : Opcode} (h : At code bc (op.toByte :: rest)) :
    getOpcode code bc = some (op, bc + 1) ∧ At code (bc + 1) rest := ⟨getOpcode_at h, (at_cons_iff.mp h).2⟩

theorem byte_front {b : Byte} (h : At code bc (b :: rest)) :
    getByte code bc = some (b, bc + 1) ∧ At code (bc + 1) rest := ⟨getByte_at h, (at_cons_iff.mp h).2⟩

theorem value_front {value : BitVec 32} (h : At code bc (encodeValue value ++ rest)) :
    ∃ b, getValue code bc = some (value, b) ∧ b = bc + (encodeValue value).length ∧ At code b rest :=
  ⟨_, getValue_at (at_append_iff.mp h).1, rfl, (at_append_iff.mp h).2⟩

theorem valueIf_front {condition : Prop} [Decidable condition] {value : BitVec 32}
    (h : At code bc ((if condition then encodeValue value else []) ++ rest)) :
    ∃ b, ReadsValueIf code condition bc value b ∧
      b = bc + (if condition then encodeValue value else []).length ∧ At code b rest := by
  by_cases hc : condition
  · rw [if_pos hc] at h ⊢
    obtain ⟨b, hvalue, hb, hrest⟩ := value_front h
    exact ⟨b, Or.inl ⟨hc, hvalue⟩, hb, hrest⟩
  · rw [if_neg hc] at h ⊢
    exact ⟨bc, Or.inr ⟨hc, rfl⟩, rfl, h⟩

theorem char_front {cp : CodePoint} (hcp : IsStored unicode cp) (h : At code bc (encodeChar unicode cp ++ rest)) :
    ∃ b, getChar code bc unicode = some (cp, b) ∧ b = bc + (encodeChar unicode cp).length ∧ At code b rest := by
  have hread := getChar_stored (at_append_iff.mp h).1
  rw [hcp] at hread
  exact ⟨_, hread, rfl, (at_append_iff.mp h).2⟩

/-- A size that is written in the code is the size. -/
theorem toNat_sizeValue (hcode : code.length < 2 ^ 32) {bytes : List Byte} (h : At code bc bytes) :
    (sizeValue bytes).toNat = bytes.length := by
  have hle := h.length_le
  rw [List.length_drop] at hle
  rw [sizeValue, BitVec.toNat_ofNat]
  omega

/-- Items are read one behind the other. -/
theorem readsAll_front {α : Type} {read : Nat → α → Nat → Prop} {bytes : α → List Byte} {items : List α}
    (hread : ∀ x ∈ items, ∀ b r, At code b (bytes x ++ r) →
      ∃ b', read b x b' ∧ b' = b + (bytes x).length ∧ At code b' r)
    (h : At code bc (items.flatMap bytes ++ rest)) :
    ∃ b, ReadsAll read bc items b ∧ b = bc + (items.flatMap bytes).length ∧ At code b rest := by
  induction items generalizing bc with
  | nil => exact ⟨bc, ReadsAll.nil, rfl, h⟩
  | cons x items ih =>
    rw [List.flatMap_cons, List.append_assoc] at h
    obtain ⟨b, hx, hb, hrest⟩ := hread x List.mem_cons_self _ _ h
    obtain ⟨b', hall, hb', hrest'⟩ := ih (fun y hy => hread y (List.mem_cons_of_mem x hy)) hrest
    refine ⟨b', ReadsAll.cons hx hall, ?_, hrest'⟩
    rw [List.flatMap_cons, List.length_append, hb', hb, Nat.add_assoc]

theorem class_front {cls : CharClass} (hstored : (Atom.charClass cls).Stored unicode)
    (h : At code bc (cls.bytes unicode ++ rest)) :
    ∃ b, ReadsClass code unicode bc cls b ∧ b = bc + (cls.bytes unicode).length ∧ At code b rest := by
  obtain ⟨hchars, hranges, hinverted, hescapes⟩ := cls.bits
  have hcond : ∀ {α : Type} [DecidableEq α] {items : List α} {flag : Bool}, flag = !decide (items = []) →
      ((if items = [] then [] else encodeValue (BitVec.ofNat 32 items.length)) =
        if flag = true then encodeValue (BitVec.ofNat 32 items.length) else []) ∧ (flag = true ↔ items ≠ []) := by
    intro α _ items flag hflag
    by_cases hitems : items = []
    · rw [hflag, decide_eq_true hitems, if_pos hitems, if_neg (by decide)]
      exact ⟨rfl, by simp [hitems]⟩
    · rw [hflag, decide_eq_false hitems, if_neg hitems, if_pos (by decide)]
      exact ⟨rfl, by simp [hitems]⟩
  have hcharsIff := hcond hchars
  have hrangesIff := hcond hranges
  have hbytes : cls.bytes unicode = cls.classFlags ::
      ((if hasChars cls.classFlags = true then encodeValue (BitVec.ofNat 32 cls.chars.length) else []) ++
        ((if hasRanges cls.classFlags = true then encodeValue (BitVec.ofNat 32 cls.ranges.length) else []) ++
          (cls.escapes.flatMap (fun e => [ClassEscape.toByte e]) ++ (cls.chars.flatMap (encodeChar unicode) ++
            cls.ranges.flatMap fun r => encodeChar unicode r.1 ++ encodeChar unicode r.2)))) := by
    have hmap : cls.escapes.flatMap (fun e => [ClassEscape.toByte e]) = cls.escapes.map ClassEscape.toByte :=
      List.map_eq_flatMap.symm
    rw [CharClass.bytes, CharClass.counts, hcharsIff.1, hrangesIff.1, List.append_assoc, hmap]
  have hlength := congrArg List.length hbytes
  rw [List.length_cons, List.length_append, List.length_append, List.length_append, List.length_append] at hlength
  rw [hbytes, List.cons_append, List.append_assoc, List.append_assoc, List.append_assoc, List.append_assoc] at h
  obtain ⟨hflags, h1⟩ := byte_front h
  obtain ⟨b2, hread2, hb2, h2⟩ := valueIf_front h1
  obtain ⟨b3, hread3, hb3, h3⟩ := valueIf_front h2
  have hescape : ∀ e ∈ cls.escapes, ∀ b back, At code b ([ClassEscape.toByte e] ++ back) →
      ∃ b', getByte code b = some (e.toByte, b') ∧ b' = b + [ClassEscape.toByte e].length ∧ At code b' back := by
    intro e _ b back hb
    obtain ⟨hread, hback⟩ := byte_front hb
    exact ⟨b + 1, hread, rfl, hback⟩
  have hchar : ∀ c ∈ cls.chars, ∀ b back, At code b (encodeChar unicode c ++ back) →
      ∃ b', getChar code b unicode = some (c, b') ∧ b' = b + (encodeChar unicode c).length ∧ At code b' back := by
    intro c hc b back hb
    exact char_front (hstored.1 c hc) hb
  have hrange : ∀ r ∈ cls.ranges, ∀ b back,
      At code b ((encodeChar unicode r.1 ++ encodeChar unicode r.2) ++ back) →
      ∃ b', (∃ b₀, getChar code b unicode = some (r.1, b₀) ∧ getChar code b₀ unicode = some (r.2, b')) ∧
        b' = b + (encodeChar unicode r.1 ++ encodeChar unicode r.2).length ∧ At code b' back := by
    intro r hr b back hb
    rw [List.append_assoc] at hb
    obtain ⟨b₀, hstart, hb₀, hrest⟩ := char_front (hstored.2 r hr).1 hb
    obtain ⟨b', hstop, hb', hback⟩ := char_front (hstored.2 r hr).2 hrest
    refine ⟨b', ⟨b₀, hstart, hstop⟩, ?_, hback⟩
    rw [List.length_append, hb', hb₀, Nat.add_assoc]
  obtain ⟨b4, hread4, hb4, h4⟩ := readsAll_front hescape h3
  obtain ⟨b5, hread5, hb5, h5⟩ := readsAll_front hchar h4
  obtain ⟨b6, hread6, hb6, h6⟩ := readsAll_front hrange h5
  refine ⟨b6, ⟨⟨bc + 1, b2, b3, b4, b5, hflags, hinverted, hescapes, hread2, hread3, hcharsIff.2, hrangesIff.2, hread4,
    hread5, hread6⟩⟩, ?_, h6⟩
  omega

theorem atom_front {atom : Atom} (hstored : atom.Stored unicode) (h : At code bc (atom.bytes unicode ++ rest)) :
    ∃ b, ReadsAtom code unicode bc atom b ∧ b = bc + (atom.bytes unicode).length ∧ At code b rest := by
  cases atom with
  | byte b =>
    have h' : At code bc (Opcode.byte.toByte :: b :: rest) := h
    obtain ⟨hop, h1⟩ := opcode_front h'
    obtain ⟨hbyte, h2⟩ := byte_front h1
    exact ⟨_, .byte hop hbyte, rfl, h2⟩
  | char cp =>
    have h' : At code bc (Opcode.char.toByte :: (encodeChar unicode cp ++ rest)) := h
    obtain ⟨hop, h1⟩ := opcode_front h'
    obtain ⟨b, hchar, hb, h2⟩ := char_front hstored h1
    refine ⟨b, .char hop hchar, ?_, h2⟩
    rw [Atom.bytes, List.length_cons]
    omega
  | classEscape escape =>
    have h' : At code bc (Opcode.classEscape.toByte :: escape.toByte :: rest) := h
    obtain ⟨hop, h1⟩ := opcode_front h'
    obtain ⟨hbyte, h2⟩ := byte_front h1
    exact ⟨_, .classEscape hop hbyte, rfl, h2⟩
  | charClass cls =>
    have h' : At code bc (Opcode.charClass.toByte :: (cls.bytes unicode ++ rest)) := h
    obtain ⟨hop, h1⟩ := opcode_front h'
    obtain ⟨b, hclass, hb, h2⟩ := class_front hstored h1
    refine ⟨b, .charClass hop hclass, ?_, h2⟩
    rw [Atom.bytes, List.length_cons]
    omega
  | period =>
    obtain ⟨hop, h1⟩ := opcode_front h
    exact ⟨_, .period hop, rfl, h1⟩

/-- An atom with its iterator: the distance leads behind it. -/
theorem iterator_front (hcode : code.length < 2 ^ 32) {atom : Atom} {q : Quantifier} (hstored : atom.Stored unicode)
    (h : At code bc (q.iteratorBytes (atom.bytes unicode) ++ rest)) :
    ∃ b, ReadsTerm code unicode bc (.atom atom q) b ∧ b = bc + (q.iteratorBytes (atom.bytes unicode)).length ∧
      At code b rest := by
  rw [Quantifier.iteratorBytes] at h ⊢
  by_cases honce : q.qmin = 1#32 ∧ q.qmax = 1#32
  · rw [if_pos honce] at h ⊢
    obtain ⟨b, hatom, hb, hrest⟩ := atom_front hstored h
    exact ⟨b, .atom honce hatom, hb, hrest⟩
  · rw [if_neg honce] at h ⊢
    rw [List.cons_append, List.append_assoc, List.append_assoc, List.append_assoc] at h
    obtain ⟨hop, h1⟩ := opcode_front h
    obtain ⟨b2, hqmin, hb2, h2⟩ := value_front h1
    obtain ⟨b3, hqmax, hb3, h3⟩ := value_front h2
    obtain ⟨b4, hoffset, hb4, h4⟩ := value_front h3
    have hsize := toNat_sizeValue hcode (at_append_iff.mp h4).1
    rw [List.append_assoc] at h4
    obtain ⟨b5, hatom, hb5, h5⟩ := atom_front hstored h4
    obtain ⟨hclose, h6⟩ := opcode_front h5
    rw [List.length_append, List.length_singleton] at hsize
    refine ⟨b5 + 1, .iterator honce hop hqmin hqmax hoffset hatom hclose (by omega), ?_, h6⟩
    rw [List.length_cons, List.length_append, List.length_append, List.length_append, List.length_append,
      List.length_singleton]
    omega

/-- The start of a group is read up to its body, from where the distance leads behind the body. -/
theorem groupStart_front (hcode : code.length < 2 ^ 32) {g : Group} {body : List Byte}
    (h : At code bc (g.startBytes body ++ (body ++ rest))) :
    ∃ b, ReadsGroupStart code bc g b (b + body.length) ∧ b = bc + (g.startBytes body).length ∧
      At code b (body ++ rest) := by
  have hcond : (if g.isCapturing = true then [] else encodeValue (BitVec.ofNat 32 g.captureStart)) =
      if g.isCapturing = false then encodeValue (BitVec.ofNat 32 g.captureStart) else [] := by
    cases g.isCapturing <;> rfl
  rw [Group.startBytes, hcond] at h ⊢
  rw [List.cons_append, List.append_assoc, List.append_assoc, List.append_assoc, List.append_assoc] at h
  obtain ⟨hop, h1⟩ := opcode_front h
  obtain ⟨b2, hidx, hb2, h2⟩ := value_front h1
  obtain ⟨b3, hstart, hb3, h3⟩ := valueIf_front h2
  obtain ⟨b4, hcount, hb4, h4⟩ := value_front h3
  obtain ⟨b5, hqmin, hb5, h5⟩ := value_front h4
  obtain ⟨b6, hoffset, hb6, h6⟩ := valueIf_front h5
  have hsize := toNat_sizeValue hcode (at_append_iff.mp h6).1
  refine ⟨b6, ⟨⟨bc + 1, b2, b3, b4, b5, hop, hidx, hstart, hcount, hqmin, _, hoffset, ?_⟩⟩, ?_, h6⟩
  · intro _
    rw [hsize]
  · rw [List.length_cons, List.length_append, List.length_append, List.length_append, List.length_append]
    omega

theorem groupEnd_front {g : Group} (h : At code bc (g.endBytes ++ rest)) :
    ∃ b, ReadsGroupEnd code bc g b ∧ b = bc + g.endBytes.length ∧ At code b rest := by
  rw [Group.endBytes] at h ⊢
  rw [List.cons_append, List.append_assoc, List.append_assoc] at h
  obtain ⟨hop, h1⟩ := opcode_front h
  obtain ⟨b2, hidx, hb2, h2⟩ := value_front h1
  obtain ⟨b3, hqmin, hb3, h3⟩ := value_front h2
  obtain ⟨b4, hqmax, hb4, h4⟩ := value_front h3
  refine ⟨b4, ⟨⟨bc + 1, b2, b3, hop, hidx, hqmin, hqmax⟩⟩, ?_, h4⟩
  rw [List.length_cons, List.length_append, List.length_append]
  omega

/-- The start of a lookahead is read up to its body, from where the distance leads behind the end of the lookahead. -/
theorem lookahead_front (hcode : code.length < 2 ^ 32) {l : Lookahead} {body : List Byte}
    (h : At code bc (l.bytes body ++ rest)) :
    ∃ b, ReadsLookahead code bc l b (b + (body.length + 1)) ∧ b + (body.length + 1) = bc + (l.bytes body).length ∧
      At code b (body ++ Opcode.assertEnd.toByte :: rest) := by
  rw [Lookahead.bytes] at h ⊢
  rw [List.cons_append, List.cons_append, List.append_assoc, List.append_assoc, List.append_assoc] at h
  obtain ⟨hop, h1⟩ := opcode_front h
  obtain ⟨hoptional, h2⟩ := byte_front h1
  obtain ⟨b3, hstart, hb3, h3⟩ := value_front h2
  obtain ⟨b4, hcount, hb4, h4⟩ := value_front h3
  obtain ⟨b5, hoffset, hb5, h5⟩ := value_front h4
  have hsize := toNat_sizeValue hcode (at_append_iff.mp h5).1
  rw [List.length_append, List.length_singleton] at hsize
  rw [List.append_assoc] at h5
  refine ⟨b5, ⟨⟨bc + 1, bc + 1 + 1, b3, b4, _, hop, hoptional, hstart, hcount, hoffset, by rw [hsize]⟩⟩, ?_, h5⟩
  rw [List.length_cons, List.length_cons, List.length_append, List.length_append, List.length_append,
    List.length_append, List.length_singleton]
  omega

mutual

/-- A term is read from its opcode to behind it. -/
theorem term_front (htables : tables.OfUnits) (hcode : code.length < 2 ^ 32) (bc : Nat) (rest : List Byte) (term : Term)
    (hvalid : term.Valid tables unicode captures nonCaptures) (h : At code bc (term.bytes unicode ++ rest)) :
    ∃ b, ReadsTerm code unicode bc term b ∧ b = bc + (term.bytes unicode).length ∧ At code b rest := by
  match term with
  | .assertion a =>
    rw [Term.bytes] at h ⊢
    obtain ⟨hop, h1⟩ := opcode_front h
    exact ⟨_, .assertion hop, rfl, h1⟩
  | .atom atom q =>
    rw [Term.Valid] at hvalid
    rw [Term.bytes] at h ⊢
    exact iterator_front hcode (hvalid htables) h
  | .backreference idx =>
    rw [Term.bytes] at h ⊢
    rw [List.cons_append] at h
    obtain ⟨hop, h1⟩ := opcode_front h
    obtain ⟨b, hvalue, hb, h2⟩ := value_front h1
    refine ⟨b, .backreference hop hvalue, ?_, h2⟩
    rw [List.length_cons]
    omega
  | .group g body =>
    rw [Term.Valid] at hvalid
    rw [Term.bytes, Group.bytes] at h ⊢
    rw [List.append_assoc, List.append_assoc] at h
    obtain ⟨b1, hstart, hb1, h1⟩ := groupStart_front hcode h
    obtain ⟨b2, hbody, hb2, h2⟩ := alts_front htables hcode b1 _ body hvalid.2 h1
    obtain ⟨b3, hend, hb3, h3⟩ := groupEnd_front h2
    rw [← hb2] at hstart
    refine ⟨b3, .group hstart hbody hend, ?_, h3⟩
    rw [List.length_append, List.length_append]
    omega
  | .lookahead l body =>
    rw [Term.Valid] at hvalid
    rw [Term.bytes] at h ⊢
    obtain ⟨b1, hstart, hb1, h1⟩ := lookahead_front hcode h
    obtain ⟨b2, hbody, hb2, h2⟩ := alts_front htables hcode b1 _ body hvalid.2 h1
    obtain ⟨hclose, h3⟩ := opcode_front h2
    rw [show b1 + ((altsBytes unicode body).length + 1) = b2 + 1 by omega] at hstart hb1
    exact ⟨b2 + 1, .lookahead hstart hbody hclose, hb1, h3⟩

theorem terms_front (htables : tables.OfUnits) (hcode : code.length < 2 ^ 32) (bc : Nat) (rest : List Byte)
    (terms : List Term) (hvalid : termsValid tables unicode captures nonCaptures terms)
    (h : At code bc (termsBytes unicode terms ++ rest)) :
    ∃ b, ReadsTerms code unicode bc terms b ∧ b = bc + (termsBytes unicode terms).length ∧ At code b rest := by
  match terms with
  | [] =>
    rw [termsBytes] at h ⊢
    exact ⟨bc, .nil, rfl, h⟩
  | term :: terms =>
    rw [termsValid] at hvalid
    rw [termsBytes] at h ⊢
    rw [List.append_assoc] at h
    obtain ⟨b1, hterm, hb1, h1⟩ := term_front htables hcode bc _ term hvalid.1 h
    obtain ⟨b2, hterms, hb2, h2⟩ := terms_front htables hcode b1 rest terms hvalid.2 h1
    refine ⟨b2, .cons hterm hterms, ?_, h2⟩
    rw [List.length_append]
    omega

/-- A body is read, and every distance in it leads to the next alternative. -/
theorem alts_front (htables : tables.OfUnits) (hcode : code.length < 2 ^ 32) (bc : Nat) (rest : List Byte)
    (alts : List (List Term)) (hvalid : altsValid tables unicode captures nonCaptures alts)
    (h : At code bc (altsBytes unicode alts ++ rest)) :
    ∃ b, ReadsAlts code unicode bc alts b ∧ b = bc + (altsBytes unicode alts).length ∧ At code b rest := by
  match alts with
  | [] =>
    rw [altsBytes] at h ⊢
    exact ⟨bc, .nil, rfl, h⟩
  | [terms] =>
    rw [altsValid] at hvalid
    rw [altsBytes] at h ⊢
    obtain ⟨b, hterms, hb, hrest⟩ := terms_front htables hcode bc rest terms hvalid.1 h
    exact ⟨b, .single hterms, hb, hrest⟩
  | terms :: other :: alts =>
    rw [altsValid] at hvalid
    rw [altsBytes, alternativeBytes] at h ⊢
    rw [List.append_assoc, List.cons_append, List.append_assoc] at h
    obtain ⟨hop, h1⟩ := opcode_front h
    obtain ⟨b2, hvalue, hb2, h2⟩ := value_front h1
    have hsize := toNat_sizeValue hcode (at_append_iff.mp h2).1
    obtain ⟨b3, hterms, hb3, h3⟩ := terms_front htables hcode b2 _ terms hvalid.1 h2
    obtain ⟨b4, hnext, hb4, h4⟩ := next_front htables hcode b3 rest (other :: alts) hvalid.2 h3
    refine ⟨b4, .start hop hvalue hterms (by rw [hsize, hb3]) hnext, ?_, h4⟩
    rw [List.length_append, List.length_cons, List.length_append]
    omega

theorem next_front (htables : tables.OfUnits) (hcode : code.length < 2 ^ 32) (bc : Nat) (rest : List Byte)
    (alts : List (List Term)) (hvalid : altsValid tables unicode captures nonCaptures alts)
    (h : At code bc (nextBytes unicode alts ++ rest)) :
    ∃ b, ReadsNext code unicode bc alts b ∧ b = bc + (nextBytes unicode alts).length ∧ At code b rest := by
  match alts with
  | [] =>
    rw [nextBytes] at h ⊢
    exact ⟨bc, .nil, rfl, h⟩
  | terms :: alts =>
    rw [altsValid] at hvalid
    rw [nextBytes, alternativeBytes] at h ⊢
    rw [List.append_assoc, List.cons_append, List.append_assoc] at h
    obtain ⟨hop, h1⟩ := opcode_front h
    obtain ⟨b2, hvalue, hb2, h2⟩ := value_front h1
    have hsize := toNat_sizeValue hcode (at_append_iff.mp h2).1
    obtain ⟨b3, hterms, hb3, h3⟩ := terms_front htables hcode b2 _ terms hvalid.1 h2
    obtain ⟨b4, hnext, hb4, h4⟩ := next_front htables hcode b3 rest alts hvalid.2 h3
    refine ⟨b4, .cons hop hvalue hterms (by rw [hsize, hb3]) hnext, ?_, h4⟩
    rw [List.length_append, List.length_cons, List.length_append]
    omega

end

/-! ## Whole patterns -/

/-- The byte code of every accepted pattern is read as its tree, up to the end. -/
theorem reCompileBytecode_reads {heap : Heap} {flags : Flags} {us : List CodeUnit} {compiled : CompiledCode}
    (htables : tables.OfUnits) (h : reCompileBytecode tables heap (cesu8 us) flags = .ok compiled) :
    ∃ alts p n, parseTree tables (cesu8 us) flags = .ok (alts, p) ∧ alts ≠ [] ∧
      ReadsAlts compiled.code flags.unicode 0 alts n ∧
      getOpcode compiled.code n = some (.eof, compiled.code.length) := by
  obtain ⟨alts, p, htree, hne, hcompiled, hlt, -, -, -⟩ := reCompileBytecode_layout h
  have hat : At compiled.code 0 (altsBytes flags.unicode alts ++ [Opcode.eof.toByte]) := by
    rw [hcompiled, At, List.drop_zero]
  obtain ⟨n, hreads, hn, heof⟩ := alts_front htables hlt 0 _ alts (parseTree_valid htree) hat
  refine ⟨alts, p, n, htree, hne, hreads, ?_⟩
  rw [getOpcode_at heof, hcompiled, List.length_append, List.length_singleton]
  rw [Nat.zero_add] at hn
  rw [hn]

end

/-- The pattern `(?:a+|b)*`. -/
def nestedPattern : List CodeUnit := [0x28#16, 0x3f#16, 0x3a#16, 0x61#16, 0x2b#16, 0x7c#16, 0x62#16, 0x29#16, 0x2a#16]

/-- Its byte code: a group with a minimum of zero, around two alternatives with an iterator in the first one. -/
def nestedCode : CompiledCode where
  code := [5#8, 0#8, 1#8, 0#8, 0#8, 13#8, 1#8, 7#8, 10#8, 1#8, 0#8, 3#8, 26#8, 97#8, 12#8, 2#8, 2#8, 26#8, 98#8, 7#8,
    0#8, 0#8, 0#8, 0#8]
  capturesCount := 1
  nonCapturesCount := 1
  flags := {}

theorem reCompileBytecode_reads_nested :
    ∃ alts p n, parseTree asciiTables (cesu8 nestedPattern) {} = .ok (alts, p) ∧ alts ≠ [] ∧
      ReadsAlts nestedCode.code false 0 alts n ∧ getOpcode nestedCode.code n = some (.eof, nestedCode.code.length) :=
  @reCompileBytecode_reads asciiTables wideHeap {} nestedPattern nestedCode asciiTables_ofUnits rfl

end Regexp
end JJS
