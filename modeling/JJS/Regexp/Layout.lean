import JJS.Regexp.Count

/-!
# JJS.Regexp.Layout

The compiler leaves the layout of the tree. Every insertion is in front of code that is finished: the sizes that are
stored in it are sizes of parts behind it, which no later insertion falls into (`parseLoop_follows`).
-/

namespace JJS
namespace Regexp

open Utf8 Lit Strings Outcome

/-! ## Writing in front of finished code -/

/-- The compiler with the parser of the tree, and the code that is there. -/
def TreeParser.compiler (p : TreeParser) (heap : Heap) (bytecode : List Byte) : Compiler :=
  { p with heap, bytecode }

@[simp] theorem TreeParser.compiler_toLexer (p : TreeParser) (heap : Heap) (code : List Byte) :
    (p.compiler heap code).toLexer = p.toLexer := rfl

@[simp] theorem TreeParser.compiler_bytecode (p : TreeParser) (heap : Heap) (code : List Byte) :
    (p.compiler heap code).bytecode = code := rfl

/-- What insertions may fail with. -/
def Failure.OutOfMemory (e : Failure) : Prop := e = .outOfMemory

section

variable {p : TreeParser} {heap : Heap} {front body : List Byte}

theorem reAppendBytes_layout (p : TreeParser) (heap : Heap) (code bytes : List Byte) :
    Ensures Failure.OutOfMemory ((p.compiler heap code).reAppendBytes bytes)
      fun c => c = p.compiler heap (code ++ bytes) ∧ (code ++ bytes).length < 2 ^ 32 := by
  rw [Compiler.reAppendBytes]
  split
  · rename_i h
    refine ⟨rfl, ?_⟩
    rw [List.length_append]
    exact heap.allocates_lt _ h
  · rfl

theorem reInsertBytes_layout (p : TreeParser) (heap : Heap) (front body bytes : List Byte) :
    Ensures Failure.OutOfMemory ((p.compiler heap (front ++ body)).reInsertBytes front.length bytes)
      fun c => c = p.compiler heap (front ++ (bytes ++ body)) ∧ (front ++ (bytes ++ body)).length < 2 ^ 32 := by
  rw [Compiler.reInsertBytes]
  split
  · rename_i h
    rw [TreeParser.compiler_bytecode, List.take_left, List.drop_left]
    refine ⟨rfl, ?_⟩
    have hlt := heap.allocates_lt _ h
    rw [TreeParser.compiler_bytecode, List.length_append] at hlt
    rw [List.length_append, List.length_append]
    omega
  · rfl

theorem reInsertValueIf_layout {condition : Prop} [Decidable condition] (p : TreeParser) (heap : Heap)
    (front body : List Byte) (value : BitVec 32) :
    Ensures Failure.OutOfMemory ((p.compiler heap (front ++ body)).reInsertValueIf condition front.length value)
      fun c => c = p.compiler heap (front ++ ((if condition then encodeValue value else []) ++ body)) := by
  rw [Compiler.reInsertValueIf]
  by_cases h : condition
  · rw [if_pos h, if_pos h]
    exact (reInsertBytes_layout p heap front body (encodeValue value)).mono fun _ hc => hc.1
  · rw [if_neg h, if_neg h]
    rfl

theorem sizeFrom_layout : (p.compiler heap (front ++ body)).sizeFrom front.length = sizeValue body := by
  rw [Compiler.sizeFrom, Compiler.bytecodeSize, TreeParser.compiler_bytecode, List.length_append,
    Nat.add_sub_cancel_left, sizeValue]

/-! ## Groups, iterators, lookaheads and alternatives -/

/-- `re_insert_into_group`, around a body that is there. -/
theorem reInsertIntoGroup_layout (p : TreeParser) (heap : Heap) (front body : List Byte) (idx captureStart : Nat)
    (isCapturing : Bool) (h : isCapturing = true ∨ body ≠ []) :
    Ensures Failure.OutOfMemory
      (reInsertIntoGroup (p.compiler heap (front ++ body)) front.length idx captureStart isCapturing)
      fun c => c = p.compiler heap (front ++ Group.bytes ⟨isCapturing, idx, captureStart,
        p.capturesCount - captureStart, p.token.quantifier⟩ body) := by
  have hbody : ¬((!isCapturing) = true ∧ (p.compiler heap (front ++ body)).bytecodeSize = front.length) := by
    intro ⟨hc, hsize⟩
    rw [Compiler.bytecodeSize, TreeParser.compiler_bytecode, List.length_append] at hsize
    rcases h with h | h
    · rw [h] at hc
      cases hc
    · exact h (List.length_eq_zero_iff.mp (by omega))
  rw [reInsertIntoGroup, if_neg hbody, sizeFrom_layout]
  refine Ensures.bind (reInsertValueIf_layout p heap front body _) ?_
  rintro _ rfl
  refine Ensures.bind (reInsertBytes_layout p heap front _ _) ?_
  rintro _ ⟨rfl, -⟩
  refine Ensures.bind (reInsertBytes_layout p heap front _ _) ?_
  rintro _ ⟨rfl, -⟩
  refine Ensures.bind (reInsertValueIf_layout p heap front _ _) ?_
  rintro _ rfl
  refine Ensures.bind (reInsertBytes_layout p heap front _ _) ?_
  rintro _ ⟨rfl, -⟩
  refine Ensures.bind (reInsertBytes_layout p heap front _ _) ?_
  rintro _ ⟨rfl, -⟩
  refine Ensures.bind (reAppendBytes_layout p heap _ _) ?_
  rintro _ ⟨rfl, -⟩
  refine Ensures.bind (reAppendBytes_layout p heap _ _) ?_
  rintro _ ⟨rfl, -⟩
  refine Ensures.bind (reAppendBytes_layout p heap _ _) ?_
  rintro _ ⟨rfl, -⟩
  refine (reAppendBytes_layout p heap _ _).mono ?_
  rintro _ ⟨rfl, -⟩
  rw [Group.bytes, Group.startBytes, Group.endBytes]
  cases isCapturing with
  | false =>
    simp only [TreeParser.compiler, Token.quantifier, reduceIte, Bool.false_eq_true, List.append_assoc,
      List.cons_append, List.nil_append]
    rfl
  | true =>
    simp only [TreeParser.compiler, Token.quantifier, reduceIte, Bool.true_eq_false, List.append_assoc,
      List.cons_append, List.nil_append]
    rfl

/-- `re_insert_atom_iterator`. -/
theorem reInsertAtomIterator_layout (p : TreeParser) (heap : Heap) (front body : List Byte) :
    Ensures Failure.OutOfMemory (reInsertAtomIterator (p.compiler heap (front ++ body)) front.length)
      fun c => c = p.compiler heap (front ++ p.token.quantifier.iteratorBytes body) := by
  rw [reInsertAtomIterator, TreeParser.compiler_toLexer, Quantifier.iteratorBytes]
  by_cases hone : p.token.qmin = 1#32 ∧ p.token.qmax = 1#32
  · have hone' : p.token.quantifier.qmin = 1#32 ∧ p.token.quantifier.qmax = 1#32 := hone
    rw [if_pos hone', if_pos hone]
    rfl
  · have hone' : ¬(p.token.quantifier.qmin = 1#32 ∧ p.token.quantifier.qmax = 1#32) := hone
    rw [if_neg hone', if_neg hone]
    refine Ensures.bind (reAppendBytes_layout p heap _ _) ?_
    rintro _ ⟨rfl, -⟩
    rw [List.append_assoc, sizeFrom_layout]
    refine Ensures.bind (reInsertBytes_layout p heap front _ _) ?_
    rintro _ ⟨rfl, -⟩
    refine Ensures.bind (reInsertBytes_layout p heap front _ _) ?_
    rintro _ ⟨rfl, -⟩
    refine Ensures.bind (reInsertBytes_layout p heap front _ _) ?_
    rintro _ ⟨rfl, -⟩
    refine (reInsertBytes_layout p heap front _ _).mono ?_
    rintro _ ⟨rfl, -⟩
    rfl

/-- `re_insert_assertion_lookahead`. -/
theorem reInsertAssertionLookahead_layout (p : TreeParser) (heap : Heap) (front body : List Byte) (captureStart : Nat)
    (negative : Bool) :
    Ensures Failure.OutOfMemory
      (reInsertAssertionLookahead (p.compiler heap (front ++ body)) front.length captureStart negative)
      fun c => c = p.compiler heap (front ++ Lookahead.bytes
        ⟨negative, decide (p.token.qmin = 0#32), captureStart, p.capturesCount - captureStart⟩ body) := by
  rw [reInsertAssertionLookahead]
  refine Ensures.bind (reAppendBytes_layout p heap _ _) ?_
  rintro _ ⟨rfl, -⟩
  rw [List.append_assoc, sizeFrom_layout]
  refine Ensures.bind (reInsertBytes_layout p heap front _ _) ?_
  rintro _ ⟨rfl, -⟩
  refine Ensures.bind (reInsertBytes_layout p heap front _ _) ?_
  rintro _ ⟨rfl, -⟩
  refine Ensures.bind (reInsertBytes_layout p heap front _ _) ?_
  rintro _ ⟨rfl, -⟩
  refine Ensures.bind (reInsertBytes_layout p heap front _ _) ?_
  rintro _ ⟨rfl, -⟩
  refine (reInsertBytes_layout p heap front _ _).mono ?_
  rintro _ ⟨rfl, -⟩
  rw [Lookahead.bytes]
  simp only [decide_eq_true_eq]
  rfl

/-- The alternatives that are done: each has an opcode, as another one follows. -/
def doneBytes (unicode : Bool) : List (List Term) → List Byte
  | [] => []
  | terms :: alts => alternativeBytes .alternativeStart (termsBytes unicode terms) ++ nextBytes unicode alts

theorem group_bytes (unicode : Bool) (group : Group) (body : List (List Term)) :
    (Term.group group body).bytes unicode = group.bytes (altsBytes unicode body) := by
  rw [Term.bytes]

theorem termsBytes_append (unicode : Bool) (terms terms' : List Term) :
    termsBytes unicode (terms ++ terms') = termsBytes unicode terms ++ termsBytes unicode terms' := by
  induction terms with
  | nil => rw [List.nil_append, termsBytes, List.nil_append]
  | cons t terms ih => rw [List.cons_append, termsBytes, termsBytes, ih, List.append_assoc]

theorem termsBytes_single (unicode : Bool) (term : Term) : termsBytes unicode [term] = term.bytes unicode := by
  rw [termsBytes, termsBytes, List.append_nil]

theorem altsBytes_single (unicode : Bool) (terms : List Term) : altsBytes unicode [terms] = termsBytes unicode terms := by
  rw [altsBytes.eq_def]

theorem nextBytes_append (unicode : Bool) (alts : List (List Term)) (terms : List Term) :
    nextBytes unicode (alts ++ [terms]) =
      nextBytes unicode alts ++ alternativeBytes .alternativeNext (termsBytes unicode terms) := by
  induction alts with
  | nil => rw [List.nil_append, nextBytes, nextBytes, nextBytes, List.append_nil, List.nil_append]
  | cons t alts ih => rw [List.cons_append, nextBytes, nextBytes, ih, List.append_assoc]

/-- The opcode of an alternative tells whether it is the first one. -/
def alternativeOpcode (done : List (List Term)) : Opcode :=
  if done.isEmpty then .alternativeStart else .alternativeNext

theorem doneBytes_append (unicode : Bool) (done : List (List Term)) (terms : List Term) :
    doneBytes unicode (done ++ [terms]) =
      doneBytes unicode done ++ alternativeBytes (alternativeOpcode done) (termsBytes unicode terms) := by
  cases done with
  | nil =>
    rw [List.nil_append, doneBytes, doneBytes, nextBytes, List.append_nil, List.nil_append]
    rfl
  | cons t alts =>
    rw [List.cons_append, doneBytes, doneBytes, nextBytes_append, List.append_assoc]
    rfl

theorem altsBytes_done (unicode : Bool) {done : List (List Term)} (h : done ≠ []) (terms : List Term) :
    altsBytes unicode (done ++ [terms]) = doneBytes unicode (done ++ [terms]) := by
  cases done with
  | nil => exact absurd rfl h
  | cons t alts =>
    cases alts with
    | nil => rfl
    | cons t' alts => rfl

/-- An alternative gets its opcode. -/
theorem insertAlternative_layout (p : TreeParser) (heap : Heap) (front : List Byte) (unicode : Bool)
    (done : List (List Term)) (terms : List Term) :
    Ensures Failure.OutOfMemory
      (insertAlternative (p.compiler heap (front ++ (doneBytes unicode done ++ termsBytes unicode terms)))
        ⟨(front ++ doneBytes unicode done).length, done.isEmpty⟩)
      fun c => c = p.compiler heap (front ++ doneBytes unicode (done ++ [terms])) := by
  rw [← List.append_assoc, insertAlternative, sizeFrom_layout]
  refine Ensures.bind (reInsertBytes_layout p heap _ _ _) ?_
  rintro _ ⟨rfl, -⟩
  refine (reInsertBytes_layout p heap _ _ _).mono ?_
  rintro _ ⟨rfl, -⟩
  rw [doneBytes_append, List.append_assoc]
  rfl

/-- The end of the alternatives. -/
theorem finishAlternatives_layout (p : TreeParser) (heap : Heap) (front : List Byte) (unicode : Bool)
    (done : List (List Term)) (terms : List Term) :
    Ensures Failure.OutOfMemory
      (finishAlternatives (p.compiler heap (front ++ (doneBytes unicode done ++ termsBytes unicode terms)))
        ⟨(front ++ doneBytes unicode done).length, done.isEmpty⟩)
      fun c => c = p.compiler heap (front ++ altsBytes unicode (done ++ [terms])) := by
  rw [finishAlternatives]
  cases done with
  | nil => rfl
  | cons t alts =>
    rw [altsBytes_done unicode (List.cons_ne_nil t alts)]
    exact insertAlternative_layout p heap front unicode (t :: alts) terms

/-! ## Character classes -/

variable (tables : CaseTables)

/-- A character of a class as it is written. -/
def classChar (flags : Flags) (cp : CodePoint) : List Byte :=
  encodeChar flags.unicode (ecmaRegexpCanonicalize tables cp flags)

/-- The characters and ranges of a class. -/
def ClassContent.bytes (flags : Flags) (content : ClassContent) : List Byte :=
  content.chars.flatMap (classChar tables flags) ++
    content.ranges.flatMap fun r => classChar tables flags r.1 ++ classChar tables flags r.2

/-- The variables of the class, with the numbers of characters and ranges. -/
def ClassState.counting (s : ClassState) (content : ClassContent) : ClassState :=
  { s with rangeCount := content.ranges.length, charCount := content.chars.length }

variable {tables} {flags : Flags}

theorem classAddValid_layout (hflags : p.flags = flags) (s : ClassState) (content : ClassContent) (cp : CodePoint) :
    Ensures Failure.OutOfMemory
      (classAddValid tables front.length cp (s.counting content) (p.compiler heap (front ++ content.bytes tables flags)))
      fun r => r = (s.counting (content.addValid cp),
        p.compiler heap (front ++ (content.addValid cp).bytes tables flags)) := by
  rw [classAddValid, ClassContent.addValid]
  by_cases hcp : cp = reInvalidCp
  · rw [if_pos hcp, if_pos hcp]
    rfl
  · rw [if_neg hcp, if_neg hcp, reClassAddChar]
    refine Ensures.bind (reInsertBytes_layout p heap front _ _) ?_
    rintro _ ⟨rfl, -⟩
    rw [ClassContent.bytes, ClassContent.bytes, List.flatMap_cons, List.append_assoc]
    subst hflags
    rfl

/-- The dash is no escape. -/
theorem reClassAddChar_layout (hflags : p.flags = flags) (s : ClassState) (content : ClassContent) :
    Ensures Failure.OutOfMemory
      (reClassAddChar tables front.length 0x2d#32 (s.counting content)
        (p.compiler heap (front ++ content.bytes tables flags)))
      fun r => r = (s.counting (content.addValid 0x2d#32),
        p.compiler heap (front ++ (content.addValid 0x2d#32).bytes tables flags)) := by
  have h := @classAddValid_layout p heap front tables flags hflags s content 0x2d#32
  rw [classAddValid, if_neg (by decide)] at h
  exact h

theorem reClassAddRange_layout (hflags : p.flags = flags) (content : ClassContent) (start stop : CodePoint) :
    Ensures Failure.OutOfMemory
      (reClassAddRange tables (p.compiler heap (front ++ content.bytes tables flags)) start stop)
      fun c => c = p.compiler heap
        (front ++ ClassContent.bytes tables flags { content with ranges := content.ranges ++ [(start, stop)] }) := by
  rw [reClassAddRange]
  refine Ensures.bind (reAppendBytes_layout p heap _ _) ?_
  rintro _ ⟨rfl, -⟩
  refine (reAppendBytes_layout p heap _ _).mono ?_
  rintro _ ⟨rfl, -⟩
  subst hflags
  rw [ClassContent.bytes, ClassContent.bytes, List.flatMap_append, List.flatMap_singleton, List.append_assoc,
    List.append_assoc, List.append_assoc]
  rfl

/-- Nothing that is read depends on the numbers of characters and ranges. -/
theorem classAtom_counting (s : ClassState) (content : ClassContent) (l : Lexer) :
    classAtom (s.counting content) l =
      (classAtom s l).bind fun t => .ok (t.1, t.2.1.counting content, t.2.2) := by
  rw [classAtom.eq_def, classAtom.eq_def]
  split
  · rfl
  · split
    · split
      · rfl
      · split
        · rfl
        · split
          · rfl
          · split
            · rfl
            · cases reParseCharEscape _ with
              | error e => rfl
              | ok m =>
                show (if m.token.type = .classEscape then _ else _) = Except.bind (if m.token.type = .classEscape then _ else _) _
                split
                · split
                  · rfl
                  · rfl
                · rfl
    · split
      · cases readInput _ with
        | error e => rfl
        | ok r =>
          show (if litIsHighSurrogate r.1 = true ∧ r.2 ≠ [] then _ else _) =
            Except.bind (if litIsHighSurrogate r.1 = true ∧ r.2 ≠ [] then _ else _) _
          split
          · cases readInput _ with
            | error e => rfl
            | ok r' =>
              show (if litIsLowSurrogate r'.1 = true then _ else _) =
                Except.bind (if litIsLowSurrogate r'.1 = true then _ else _) _
              split
              · rfl
              · rfl
          · rfl
      · cases readInput _ with
        | error e => rfl
        | ok r => rfl

/-- The loop of `re_parse_char_class`. -/
theorem classLoop_follows {steps : Nat} {s : ClassState} {content : ClassContent} {us : List CodeUnit}
    (hflags : p.flags = flags) (hp : p.inputCurr = cesu8 us) :
    Follows Failure.OutOfMemory
      (fun r t => r = (t.1.counting t.2.1,
        TreeParser.compiler { p with toLexer := t.2.2 } heap (front ++ t.2.1.bytes tables flags)))
      (classLoop tables front.length steps (s.counting content)
        (p.compiler heap (front ++ content.bytes tables flags)))
      (treeClassLoop steps s content p.toLexer) := by
  induction steps generalizing s content p us with
  | zero => exact follows_error _
  | succ steps ih =>
    rw [classLoop.eq_def, treeClassLoop.eq_def]
    dsimp only
    rw [TreeParser.compiler_toLexer]
    cases hcurr : p.inputCurr with
    | nil => exact follows_error _
    | cons b rest =>
      dsimp only
      by_cases hb : b = 0x5d#8
      · rw [if_pos hb, if_pos hb]
        by_cases hrange : s.isRange = true
        · rw [if_pos (show (s.counting content).isRange = true from hrange), if_pos hrange]
          refine Follows.ahead (classAddValid_layout hflags s content s.start) ?_
          rintro _ rfl
          refine Follows.ahead (reClassAddChar_layout hflags s _) ?_
          rintro _ rfl
          exact follows_ok rfl
        · rw [if_neg (show ¬(s.counting content).isRange = true from hrange), if_neg hrange]
          exact follows_ok rfl
      · rw [if_neg hb, if_neg hb, classAtom_counting]
        cases hatom : classAtom s p.toLexer with
        | error e => exact follows_error e
        | ok t =>
          obtain ⟨current, s₁, l₁⟩ := t
          cases us with
          | nil =>
            rw [hp] at hcurr
            cases hcurr
          | cons u us =>
            have hread := (classAtom_reads hp (cesu8_eq_closing (hcurr.symm.trans hp) hb) hatom).passed
            obtain ⟨us₁, hl₁⟩ := hread.cesu8 hp
            have hflags₁ : l₁.flags = flags := hread.flags.trans hflags
            show Follows _ _ (if (s₁.counting content).isRange = true then _ else _)
              (if s₁.isRange = true then _ else _)
            by_cases hrange : s₁.isRange = true
            · rw [if_pos (show (s₁.counting content).isRange = true from hrange), if_pos hrange]
              show Follows _ _ (if s₁.start ≠ reInvalidCp ∧ current ≠ reInvalidCp then _ else _) _
              dsimp only
              by_cases hboth : s₁.start ≠ reInvalidCp ∧ current ≠ reInvalidCp
              · rw [if_pos hboth, if_pos hboth]
                by_cases horder : current < s₁.start
                · rw [if_pos horder, if_pos (show current < (s₁.counting content).start from horder)]
                  exact follows_error _
                · rw [if_neg horder, if_neg (show ¬current < (s₁.counting content).start from horder)]
                  refine Follows.ahead
                    (reClassAddRange_layout (p := { p with toLexer := l₁ }) hflags₁ content s₁.start current) ?_
                  rintro _ rfl
                  have hcounting : ({ s₁.counting content with
                        isRange := false, rangeCount := content.ranges.length + 1 } : ClassState) =
                      ClassState.counting { s₁ with isRange := false }
                        { content with ranges := content.ranges ++ [(s₁.start, current)] } := by
                    rw [ClassState.counting, ClassState.counting, List.length_append]
                    rfl
                  have hrest := @ih { p with toLexer := l₁ } { s₁ with isRange := false }
                    { content with ranges := content.ranges ++ [(s₁.start, current)] } us₁ hflags₁ hl₁
                  rw [← hcounting] at hrest
                  exact hrest
              · rw [if_neg hboth, if_neg hboth]
                show Follows _ _ (if l₁.flags.unicode = true then _ else _) _
                by_cases hunicode : l₁.flags.unicode = true
                · rw [if_pos hunicode, if_pos hunicode]
                  exact follows_error _
                · rw [if_neg hunicode, if_neg hunicode]
                  refine Follows.ahead (@classAddValid_layout { p with toLexer := l₁ } heap front tables flags hflags₁
                    { s₁ with isRange := false } content (if s₁.start = reInvalidCp then current else s₁.start)) ?_
                  rintro _ rfl
                  refine Follows.ahead (@reClassAddChar_layout { p with toLexer := l₁ } heap front tables flags hflags₁
                    { s₁ with isRange := false } _) ?_
                  rintro _ rfl
                  exact @ih { p with toLexer := l₁ } _ _ us₁ hflags₁ hl₁
            · rw [if_neg (show ¬(s₁.counting content).isRange = true from hrange), if_neg hrange]
              dsimp only [TreeParser.compiler]
              cases hdash : behindByte 0x2d#8 l₁.inputCurr with
              | some r =>
                have hbyte : Passed 0 true true l₁ { l₁ with inputCurr := r } := Passed.byte (by decide) hdash
                obtain ⟨us₂, hl₂⟩ := hbyte.cesu8 hl₁
                exact @ih { p with toLexer := { l₁ with inputCurr := r } } { s₁ with start := current, isRange := true }
                  content us₂ hflags₁ hl₂
              | none =>
                refine Follows.ahead
                  (@classAddValid_layout { p with toLexer := l₁ } heap front tables flags hflags₁ s₁ content current) ?_
                rintro _ rfl
                exact @ih { p with toLexer := l₁ } s₁ _ us₁ hflags₁ hl₁

/-- The escapes that were found are written in front of the characters. -/
theorem insertEscapes_layout (found : List ClassEscape) (escapes : List ClassEscape) (count : Nat) (body : List Byte) :
    Ensures Failure.OutOfMemory
      (insertEscapes front.length found escapes count (p.compiler heap (front ++ body)))
      fun r => r = (count + (escapes.filter found.contains).length,
        p.compiler heap (front ++ ((escapes.filter found.contains).reverse.map ClassEscape.toByte ++ body))) := by
  induction escapes generalizing count body with
  | nil => rfl
  | cons escape escapes ih =>
    rw [insertEscapes]
    by_cases hfound : found.contains escape = true
    · rw [if_pos hfound, List.filter_cons_of_pos hfound]
      refine Ensures.bind (reInsertBytes_layout p heap front body _) ?_
      rintro _ ⟨rfl, -⟩
      refine (ih _ _).mono ?_
      rintro _ rfl
      rw [List.reverse_cons, List.map_append, List.append_assoc, List.length_cons, Nat.add_assoc, Nat.add_comm 1]
      rfl
    · rw [if_neg hfound, List.filter_cons_of_neg hfound]
      exact ih _ _

theorem flatMap_length_le {α : Type} {items : List α} {f : α → List Byte} (h : ∀ x, f x ≠ []) :
    items.length ≤ (items.flatMap f).length := by
  induction items with
  | nil => exact Nat.le_refl _
  | cons x items ih =>
    have := List.length_pos_iff.mpr (h x)
    rw [List.flatMap_cons, List.length_append, List.length_cons]
    omega

theorem encodeChar_ne_nil (unicode : Bool) (cp : CodePoint) : encodeChar unicode cp ≠ [] := by
  intro h
  have hlen := length_encodeChar unicode cp
  rw [h] at hlen
  cases unicode <;> cases hlen

/-- A class that fits in the byte code is stored. -/
theorem stored_of_length {content : ClassContent} {flags : Flags} (hescapes : content.escapes.length < 8)
    (h : (content.bytes tables flags).length < 2 ^ 32) : ∃ cls, content.stored tables flags = some cls := by
  rw [ClassContent.bytes, List.length_append] at h
  have hchars := @flatMap_length_le _ content.chars (classChar tables flags) fun _ => encodeChar_ne_nil _ _
  have hranges := @flatMap_length_le _ content.ranges (fun r => classChar tables flags r.1 ++ classChar tables flags r.2)
    fun r => List.append_ne_nil_of_left_ne_nil (encodeChar_ne_nil _ _) _
  rw [ClassContent.stored]
  dsimp only
  rw [dif_pos]
  · exact ⟨_, rfl⟩
  · rw [List.length_map, List.length_map]
    exact ⟨hescapes, by omega, by omega⟩

/-- The class as it is stored, and what is stored. -/
theorem stored_eq {content : ClassContent} {flags : Flags} {cls : CharClass}
    (h : content.stored tables flags = some cls) :
    cls.inverted = content.inverted ∧ cls.escapes = content.escapes ∧
      cls.chars = content.chars.map (fun cp => ecmaRegexpCanonicalize tables cp flags) ∧
      cls.ranges = content.ranges.map (fun r =>
        (ecmaRegexpCanonicalize tables r.1 flags, ecmaRegexpCanonicalize tables r.2 flags)) := by
  rw [ClassContent.stored] at h
  dsimp only at h
  split at h
  · cases h
    exact ⟨rfl, rfl, rfl, rfl⟩
  · cases h

theorem stored_bytes {content : ClassContent} {flags : Flags} {cls : CharClass}
    (h : content.stored tables flags = some cls) :
    (cls.chars.flatMap (encodeChar flags.unicode) ++
      cls.ranges.flatMap fun r => encodeChar flags.unicode r.1 ++ encodeChar flags.unicode r.2) =
      content.bytes tables flags := by
  obtain ⟨-, -, hchars, hranges⟩ := stored_eq h
  rw [hchars, hranges, List.flatMap_map, List.flatMap_map]
  rfl

theorem counts_eq {α : Type} {items : List α} {n : Nat} (h : items.length = n) [DecidableEq α] :
    (if 0 < n then encodeValue (BitVec.ofNat 32 n) else []) =
      if items = [] then [] else encodeValue (BitVec.ofNat 32 items.length) := by
  cases items with
  | nil =>
    cases h
    rfl
  | cons x items =>
    rw [if_pos (by rw [← h]; exact Nat.succ_pos _), if_neg (List.cons_ne_nil x items), h]

/-- The term of a class that is read up to its quantifier. -/
def storeClass (tables : CaseTables) (p : TreeParser) (r : ClassContent × Lexer) : Except Failure (Term × TreeParser) :=
  match r.1.stored tables r.2.flags with
  | some cls => (withQuantifier r.2).bind fun l =>
      .ok (.atom (.charClass cls) l.token.quantifier, { p with toLexer := l })
  | none => .error .outOfMemory

/-- `re_parse_char_class`. -/
theorem reParseCharClass_follows {us : List CodeUnit} (hflags : p.flags = flags) (hp : p.inputCurr = cesu8 us) :
    Follows Failure.OutOfMemory
      (fun c (t : Term × TreeParser) => ∃ cls, t.1 = .atom (.charClass cls) t.2.token.quantifier ∧
        c = t.2.compiler heap (front ++ (Atom.charClass cls).bytes flags.unicode))
      (reParseCharClass tables (p.compiler heap front))
      ((treeClass p.toLexer).bind (storeClass tables p)) := by
  have hescapes : ∀ found : List ClassEscape, (ClassEscape.all.filter found.contains).length < 8 := by
    intro found
    exact Nat.lt_of_le_of_lt (List.length_filter_le _ _) (by decide)
  generalize hinput : (behindByte 0x5e#8 p.inputCurr).getD p.inputCurr = input
  have hpassed : Passed 0 true true p.toLexer { p.toLexer with inputCurr := input } := by
    rw [← hinput]
    cases hcaret : behindByte 0x5e#8 p.inputCurr with
    | none => exact Passed.refl
    | some r => exact Passed.byte (by decide) hcaret
  obtain ⟨us₁, hl₁⟩ := hpassed.cesu8 hp
  have hstart : ClassState.Valid p.flags.unicode initialClassState := Or.inr rfl
  have hloop := @classLoop_follows { p with toLexer := { p.toLexer with inputCurr := input } } heap front tables flags
    (input.length + 1) initialClassState ⟨(behindByte 0x5e#8 p.inputCurr).isSome, [], [], []⟩ us₁ hflags hl₁
  rw [ClassContent.bytes, List.flatMap_nil, List.flatMap_nil, List.append_nil, List.append_nil] at hloop
  rw [reParseCharClass, treeClass, TreeParser.compiler_toLexer]
  dsimp only
  rw [hinput, show (p.compiler heap front).bytecodeSize = front.length from rfl]
  show Follows _ _ _ (((treeClassLoop _ _ _ _).bind _).bind _)
  rw [bind_bind]
  refine Follows.bind hloop ?_
  rintro _ ⟨s, content, l⟩ hok rfl
  obtain ⟨hclass, -, hinverted⟩ := treeClassLoop_reads hl₁ rfl hstart
    ⟨fun _ h => (List.not_mem_nil h).elim, fun _ h => (List.not_mem_nil h).elim⟩ hok
  dsimp only
  refine Follows.ahead (insertEscapes_layout _ _ _ _) ?_
  rintro _ rfl
  dsimp only
  refine Follows.ahead (reInsertValueIf_layout _ _ _ _ _) ?_
  rintro _ rfl
  refine Follows.ahead (reInsertValueIf_layout _ _ _ _ _) ?_
  rintro _ rfl
  refine Follows.ahead (reInsertBytes_layout _ _ _ _ _) ?_
  rintro _ ⟨rfl, -⟩
  refine Follows.ahead (reInsertBytes_layout _ _ _ _ _) ?_
  rintro _ ⟨rfl, hlt⟩
  have hflags₁ : l.flags = flags := hclass.flags.trans hflags
  have hsize : (content.bytes tables flags).length < 2 ^ 32 := by
    simp only [List.length_append] at hlt
    omega
  obtain ⟨cls, hcls⟩ := @stored_of_length tables
    { content with escapes := (ClassEscape.all.filter s.foundEscapes.contains).reverse } flags
    (by rw [List.length_reverse]; exact hescapes _) hsize
  show Follows _ _ _ (storeClass tables p
    ({ content with escapes := (ClassEscape.all.filter s.foundEscapes.contains).reverse }, l))
  rw [storeClass]
  dsimp only
  rw [hflags₁, hcls]
  refine Follows.same ?_
  intro l₂ _
  refine follows_ok ⟨cls, rfl, ?_⟩
  obtain ⟨hcinverted, hcescapes, hcchars, hcranges⟩ := stored_eq hcls
  have hbytes : cls.bytes flags.unicode = cls.classFlags :: (cls.counts ++ (cls.escapes.map ClassEscape.toByte ++
      content.bytes tables flags)) := by
    rw [CharClass.bytes, stored_bytes hcls]
    rfl
  have hchars : cls.chars.length = content.chars.length := by rw [hcchars, List.length_map]
  have hranges : cls.ranges.length = content.ranges.length := by rw [hcranges, List.length_map]
  have hcounts : cls.counts = (if 0 < content.chars.length then encodeValue (BitVec.ofNat 32 content.chars.length) else []) ++
      if 0 < content.ranges.length then encodeValue (BitVec.ofNat 32 content.ranges.length) else [] := by
    rw [CharClass.counts, counts_eq hchars, counts_eq hranges]
  have hclassFlags : cls.classFlags = (if (behindByte 0x5e#8 p.inputCurr).isSome then 0x80#8 else 0#8) |||
      (if 0 < content.ranges.length then 0x40#8 else 0#8) ||| (if 0 < content.chars.length then 0x20#8 else 0#8) |||
      BitVec.ofNat 8 (0 + (ClassEscape.all.filter s.foundEscapes.contains).length) := by
    have hbit : ∀ {α : Type} [DecidableEq α] {items : List α} {n : Nat} (bit : Byte), items.length = n →
        (if items = [] then 0#8 else bit) = if 0 < n then bit else 0#8 := by
      intro α _ items n bit hn
      cases items with
      | nil =>
        cases hn
        rfl
      | cons x items => rw [if_neg (List.cons_ne_nil x items), if_pos (by rw [← hn]; exact Nat.succ_pos _)]
    rw [CharClass.classFlags, hcinverted, hcescapes, List.length_reverse, Nat.zero_add, hbit 0x40#8 hranges,
      hbit 0x20#8 hchars]
    rw [show content.inverted = (behindByte 0x5e#8 p.inputCurr).isSome from hinverted]
  rw [Atom.bytes, hbytes, hclassFlags, hcounts, hcescapes, List.append_assoc]
  rfl

/-! ## Alternatives -/

/-- An atom is written with its iterator. -/
theorem iterator_follows (p : TreeParser) (heap : Heap) (front : List Byte) (unicode : Bool) (atom : Atom) :
    Follows Failure.OutOfMemory
      (fun c (t : Term × TreeParser) => c = t.2.compiler heap (front ++ t.1.bytes unicode))
      (reInsertAtomIterator (p.compiler heap (front ++ atom.bytes unicode)) front.length)
      (.ok (.atom atom p.token.quantifier, p)) := by
  refine Follows.last (reInsertAtomIterator_layout p heap front (atom.bytes unicode)) ?_
  intro c hc
  rw [Term.bytes]
  exact hc

/-- An assertion is one opcode. -/
theorem assertion_follows (p : TreeParser) (heap : Heap) (front : List Byte) (unicode : Bool) (assertion : Assertion) :
    Follows Failure.OutOfMemory
      (fun c (t : Term × TreeParser) => c = t.2.compiler heap (front ++ t.1.bytes unicode))
      ((p.compiler heap front).reAppendOpcode assertion.opcode) (.ok (.assertion assertion, p)) := by
  refine Follows.last (reAppendBytes_layout p heap front [assertion.opcode.toByte]) ?_
  intro c hc
  rw [Term.bytes]
  exact hc.1

/-- The bytes of a character that stands for itself. -/
theorem appendChar_layout (hflags : p.flags = flags) :
    Ensures Failure.OutOfMemory (appendChar tables (p.compiler heap front))
      fun c => c = p.compiler heap (front ++ (charAtom tables p.toLexer).bytes flags.unicode) := by
  subst hflags
  rw [appendChar, charAtom, TreeParser.compiler_toLexer]
  by_cases hascii : p.token.value ≤ 0x7f#32 ∧ p.flags.ignoreCase = false
  · rw [if_pos hascii, if_pos hascii]
    refine Ensures.bind (reAppendBytes_layout p heap front _) ?_
    rintro _ ⟨rfl, -⟩
    refine (reAppendBytes_layout p heap _ _).mono ?_
    rintro _ ⟨rfl, -⟩
    rw [List.append_assoc]
    rfl
  · rw [if_neg hascii, if_neg hascii]
    refine Ensures.bind (reAppendBytes_layout p heap front _) ?_
    rintro _ ⟨rfl, -⟩
    refine (reAppendBytes_layout p heap _ _).mono ?_
    rintro _ ⟨rfl, -⟩
    rw [List.append_assoc]
    rfl

theorem appendAtom_follows {us : List CodeUnit} (hflags : p.flags = flags) (hp : p.inputCurr = cesu8 us)
    (hescape : p.token.type = .classEscape → ∃ e : ClassEscape, p.token.value = e.toByte.setWidth 32) :
    Follows Failure.OutOfMemory
      (fun c (t : Term × TreeParser) => c = t.2.compiler heap (front ++ t.1.bytes flags.unicode))
      (appendAtom tables (p.compiler heap front) front.length) (treeAtom tables p) := by
  rw [appendAtom, treeAtom, TreeParser.compiler_toLexer]
  cases htype : p.token.type with
  | period =>
    refine Follows.ahead (reAppendBytes_layout p heap front _) ?_
    rintro _ ⟨rfl, -⟩
    subst hflags
    exact iterator_follows p heap front p.flags.unicode .period
  | assertStart => exact assertion_follows p heap front _ .lineStart
  | assertEnd => exact assertion_follows p heap front _ .lineEnd
  | assertWordBoundary => exact assertion_follows p heap front _ .wordBoundary
  | assertNotWordBoundary => exact assertion_follows p heap front _ .notWordBoundary
  | backreference =>
    refine Follows.ahead (reAppendBytes_layout p heap front _) ?_
    rintro _ ⟨rfl, -⟩
    refine Follows.ahead (reAppendBytes_layout p heap (front ++ [Opcode.backreference.toByte])
      (encodeValue p.token.value)) ?_
    rintro _ ⟨rfl, -⟩
    have hbytes : front ++ [Opcode.backreference.toByte] ++ encodeValue p.token.value =
        front ++ (Term.backreference p.token.value).bytes flags.unicode := by
      rw [Term.bytes, List.append_assoc]
      rfl
    rw [hbytes]
    show Follows _ _ (if p.token.qmin ≠ 1#32 ∨ p.token.qmax ≠ 1#32 then _ else _) _
    by_cases hquantifier : p.token.qmin ≠ 1#32 ∨ p.token.qmax ≠ 1#32
    · rw [if_pos hquantifier]
      dsimp only
      rw [if_pos hquantifier]
      have hne : (Term.backreference p.token.value).bytes flags.unicode ≠ [] := by
        rw [Term.bytes]
        exact List.cons_ne_nil _ _
      have hgroup := reInsertIntoGroup_layout { p with nonCapturesCount := p.nonCapturesCount + 1 } heap front _
        p.nonCapturesCount p.capturesCount false (Or.inr hne)
      rw [Nat.sub_self] at hgroup
      refine Follows.last hgroup ?_
      rintro _ rfl
      dsimp only
      rw [group_bytes, altsBytes_single, termsBytes_single]
    · rw [if_neg hquantifier]
      dsimp only
      rw [if_neg hquantifier]
      exact follows_ok rfl
  | classEscape =>
    obtain ⟨e, he⟩ := hescape htype
    have hbyte : p.token.value.setWidth 8 = e.toByte := by
      rw [he]
      exact BitVec.setWidth_setWidth_of_le _ (by decide)
    refine Follows.ahead (reAppendBytes_layout p heap front _) ?_
    rintro _ ⟨rfl, -⟩
    refine Follows.ahead (reAppendBytes_layout p heap (front ++ [Opcode.classEscape.toByte])
      [p.token.value.setWidth 8]) ?_
    rintro _ ⟨rfl, -⟩
    dsimp only
    rw [hbyte, ofByte_toByte_escape, List.append_assoc]
    exact iterator_follows p heap front flags.unicode (.classEscape e)
  | charClass =>
    have hclass := @reParseCharClass_follows p heap front tables flags us hflags hp
    show Follows _ _ _ ((treeClass p.toLexer).bind (storeClass tables p))
    rw [← bind_ok ((treeClass p.toLexer).bind (storeClass tables p))]
    refine Follows.bind hclass ?_
    rintro _ ⟨term, p'⟩ _ ⟨cls, hterm, rfl⟩
    dsimp only at hterm
    rw [hterm]
    exact iterator_follows p' heap front flags.unicode (.charClass cls)
  | eof | char | alternative | startCaptureGroup | startNonCaptureGroup | endGroup | assertLookahead =>
    refine Follows.ahead (appendChar_layout hflags) ?_
    rintro _ rfl
    exact iterator_follows p heap front flags.unicode (charAtom tables p.toLexer)

theorem Term.bytes_ne_nil (unicode : Bool) (term : Term) : term.bytes unicode ≠ [] := by
  cases term with
  | assertion assertion =>
    rw [Term.bytes]
    exact List.cons_ne_nil _ _
  | atom atom quantifier =>
    have hatom : atom.bytes unicode ≠ [] := by cases atom <;> exact List.cons_ne_nil _ _
    rw [Term.bytes, Quantifier.iteratorBytes]
    split
    · exact hatom
    · exact List.cons_ne_nil _ _
  | backreference idx =>
    rw [Term.bytes]
    exact List.cons_ne_nil _ _
  | group group body =>
    rw [Term.bytes, Group.bytes, Group.startBytes]
    exact List.cons_ne_nil _ _
  | lookahead lookahead body =>
    rw [Term.bytes, Lookahead.bytes]
    exact List.cons_ne_nil _ _

/-- Only a body of one empty alternative has no byte code. -/
theorem altsBytes_eq_nil {unicode : Bool} {alts : List (List Term)} (h : alts ≠ []) :
    altsBytes unicode alts = [] ↔ alts = [[]] := by
  constructor
  · intro hnil
    cases alts with
    | nil => exact absurd rfl h
    | cons terms alts =>
      cases alts with
      | nil =>
        rw [altsBytes_single] at hnil
        cases terms with
        | nil => rfl
        | cons term terms =>
          rw [termsBytes] at hnil
          exact absurd (List.append_eq_nil_iff.mp hnil).1 (term.bytes_ne_nil unicode)
      | cons terms' alts =>
        rw [altsBytes, alternativeBytes] at hnil
        cases hnil
  · rintro rfl
    rw [altsBytes_single, termsBytes]

/-- A group around its body; a non-capturing one without code is left out. -/
theorem group_layout (p : TreeParser) (heap : Heap) (front : List Byte) (unicode : Bool) (idx captureStart : Nat)
    (isCapturing : Bool) {body : List (List Term)} (hbody : body ≠ []) :
    Ensures Failure.OutOfMemory
      (reInsertIntoGroup (p.compiler heap (front ++ altsBytes unicode body)) front.length idx captureStart isCapturing)
      fun c => c = p.compiler heap (front ++ termsBytes unicode (groupTerms
        ⟨isCapturing, idx, captureStart, p.capturesCount - captureStart, p.token.quantifier⟩ body)) := by
  by_cases hempty : isCapturing = false ∧ body = [[]]
  · obtain ⟨rfl, rfl⟩ := hempty
    have hnone : groupTerms ⟨false, idx, captureStart, p.capturesCount - captureStart, p.token.quantifier⟩ [[]] = [] :=
      rfl
    rw [hnone, altsBytes_single, termsBytes, List.append_nil, reInsertIntoGroup, if_pos ⟨rfl, rfl⟩]
    rfl
  · have hcode : isCapturing = true ∨ altsBytes unicode body ≠ [] := by
      cases isCapturing with
      | true => exact Or.inl rfl
      | false => exact Or.inr fun hnil => hempty ⟨rfl, (altsBytes_eq_nil hbody).mp hnil⟩
    have hterms : ∀ group : Group, group.isCapturing = isCapturing → groupTerms group body = [.group group body] := by
      intro group hgroup
      rw [groupTerms.eq_def]
      split
      · rename_i hc
        exact absurd ⟨hgroup.symm.trans hc, rfl⟩ hempty
      · rfl
    rw [hterms _ rfl, termsBytes_single, group_bytes]
    exact reInsertIntoGroup_layout p heap front _ idx captureStart isCapturing hcode

/-- The end of the pattern has an opcode. -/
def eofBytes (expectEof : Bool) : List Byte := if expectEof then [Opcode.eof.toByte] else []

/-- The loop of `re_parse_alternative` leaves the layout of the tree. -/
theorem parseLoop_follows {steps : Nat} {expectEof : Bool} {done : List (List Term)} {terms : List Term}
    {us : List CodeUnit} (hflags : p.flags = flags) (hp : p.inputCurr = cesu8 us) :
    Follows Failure.OutOfMemory
      (fun c (t : List (List Term) × TreeParser) => t.1 ≠ [] ∧
        c = t.2.compiler heap (front ++ (altsBytes flags.unicode t.1 ++ eofBytes expectEof)) ∧
        (expectEof = true → c.bytecode.length < 2 ^ 32))
      (parseLoop tables steps expectEof ⟨(front ++ doneBytes flags.unicode done).length, done.isEmpty⟩
        (p.compiler heap (front ++ (doneBytes flags.unicode done ++ termsBytes flags.unicode terms))))
      (treeLoop tables steps expectEof done terms p) := by
  induction steps generalizing expectEof done terms p us front with
  | zero => exact follows_error _
  | succ steps ih =>
    rw [parseLoop.eq_def, treeLoop.eq_def]
    dsimp only
    rw [TreeParser.compiler_toLexer]
    refine Follows.same ?_
    intro l htoken
    have hadvance := reParseNextToken_advances hp htoken
    obtain ⟨us₁, hl⟩ := hadvance.passed.cesu8 hp
    have hflags₁ : l.flags = flags := hadvance.flags.trans hflags
    generalize hcode : front ++ (doneBytes flags.unicode done ++ termsBytes flags.unicode terms) = code
    -- the body of a group begins behind the code that is there
    have hbody : ∀ q : TreeParser, q.flags = flags → (∃ vs, q.inputCurr = cesu8 vs) →
        Follows Failure.OutOfMemory
          (fun c (t : List (List Term) × TreeParser) => t.1 ≠ [] ∧
            c = t.2.compiler heap (code ++ altsBytes flags.unicode t.1))
          (parseLoop tables steps false ⟨code.length, true⟩ (q.compiler heap code))
          (treeLoop tables steps false [] [] q) := by
      rintro q hq ⟨vs, hvs⟩
      have h := @ih q code false [] [] vs hq hvs
      rw [doneBytes, termsBytes, List.append_nil, List.append_nil, List.append_nil] at h
      refine h.mono ?_
      rintro _ t - ⟨hne, rfl, -⟩
      refine ⟨hne, ?_⟩
      rw [eofBytes, if_neg Bool.false_ne_true, List.append_nil]
    -- the alternative goes on behind the terms of the token
    have hrest : ∀ (q : TreeParser) (extra : List Term), q.flags = flags → (∃ vs, q.inputCurr = cesu8 vs) →
        Follows Failure.OutOfMemory
          (fun c (t : List (List Term) × TreeParser) => t.1 ≠ [] ∧
            c = t.2.compiler heap (front ++ (altsBytes flags.unicode t.1 ++ eofBytes expectEof)) ∧
            (expectEof = true → c.bytecode.length < 2 ^ 32))
          (parseLoop tables steps expectEof ⟨(front ++ doneBytes flags.unicode done).length, done.isEmpty⟩
            (q.compiler heap (code ++ termsBytes flags.unicode extra)))
          (treeLoop tables steps expectEof done (terms ++ extra) q) := by
      rintro q extra hq ⟨vs, hvs⟩
      have h := @ih q front expectEof done (terms ++ extra) vs hq hvs
      rw [termsBytes_append, ← List.append_assoc (doneBytes _ _), ← List.append_assoc front, hcode] at h
      exact h
    cases htype : l.token.type with
    | startCaptureGroup =>
      refine Follows.bind (hbody { p with toLexer := l, capturesCount := p.capturesCount + 1 } hflags₁ ⟨us₁, hl⟩) ?_
      rintro _ ⟨body, p₁⟩ hloop ⟨hne, rfl⟩
      obtain ⟨⟨n, hread, -⟩, -⟩ := treeLoop_reads hl hloop
      refine Follows.same ?_
      intro l₂ hquantifier
      have hpassed := hread.trans (Passed.quantifier hquantifier)
      refine Follows.ahead (group_layout { p₁ with toLexer := l₂ } heap code flags.unicode p.capturesCount
        p.capturesCount true hne) ?_
      rintro _ rfl
      exact hrest { p₁ with toLexer := l₂ } _ (hpassed.flags.trans hflags₁) (hpassed.cesu8 hl)
    | startNonCaptureGroup =>
      refine Follows.bind (hbody { p with toLexer := l, nonCapturesCount := p.nonCapturesCount + 1 } hflags₁ ⟨us₁, hl⟩) ?_
      rintro _ ⟨body, p₁⟩ hloop ⟨hne, rfl⟩
      obtain ⟨⟨n, hread, -⟩, -⟩ := treeLoop_reads hl hloop
      refine Follows.same ?_
      intro l₂ hquantifier
      have hpassed := hread.trans (Passed.quantifier hquantifier)
      refine Follows.ahead (group_layout { p₁ with toLexer := l₂ } heap code flags.unicode p.nonCapturesCount
        p.capturesCount false hne) ?_
      rintro _ rfl
      exact hrest { p₁ with toLexer := l₂ } _ (hpassed.flags.trans hflags₁) (hpassed.cesu8 hl)
    | assertLookahead =>
      refine Follows.bind (hbody { p with toLexer := l } hflags₁ ⟨us₁, hl⟩) ?_
      rintro _ ⟨body, p₁⟩ hloop ⟨-, rfl⟩
      obtain ⟨⟨n, hread, -⟩, -⟩ := treeLoop_reads hl hloop
      refine Follows.same ?_
      intro l₂ hquantifier
      have hpassed := hread.trans (lookaheadQuantifier_passed hquantifier)
      refine Follows.ahead (reInsertAssertionLookahead_layout { p₁ with toLexer := l₂ } heap code
        (altsBytes flags.unicode body) p.capturesCount (decide (l.token.value ≠ 0#32))) ?_
      rintro _ rfl
      have hterm := hrest { p₁ with toLexer := l₂ }
        [.lookahead ⟨decide (l.token.value ≠ 0#32), decide (l₂.token.qmin = 0#32), p.capturesCount,
          p₁.capturesCount - p.capturesCount⟩ body] (hpassed.flags.trans hflags₁) (hpassed.cesu8 hl)
      rw [termsBytes_single, Term.bytes] at hterm
      exact hterm
    | alternative =>
      rw [← hcode]
      refine Follows.ahead (insertAlternative_layout { p with toLexer := l } heap front flags.unicode done terms) ?_
      rintro _ rfl
      have hrest := @ih { p with toLexer := l } front expectEof (done ++ [terms]) [] us₁ hflags₁ hl
      rw [termsBytes, List.append_nil] at hrest
      have hfirst : (done ++ [terms]).isEmpty = false := by
        cases done <;> rfl
      rw [hfirst] at hrest
      exact hrest
    | endGroup =>
      cases expectEof with
      | true => exact follows_error _
      | false =>
        rw [← hcode]
        refine Follows.last (finishAlternatives_layout { p with toLexer := l } heap front flags.unicode done terms) ?_
        rintro _ rfl
        refine ⟨by simp, ?_, fun h => absurd h Bool.false_ne_true⟩
        rw [eofBytes, if_neg Bool.false_ne_true, List.append_nil]
    | eof =>
      cases expectEof with
      | false => exact follows_error _
      | true =>
        rw [← hcode]
        refine Follows.ahead (finishAlternatives_layout { p with toLexer := l } heap front flags.unicode done terms) ?_
        rintro _ rfl
        refine Follows.last (reAppendBytes_layout { p with toLexer := l } heap _ _) ?_
        rintro _ ⟨rfl, hlt⟩
        refine ⟨by simp, ?_, fun _ => hlt⟩
        rw [eofBytes, if_pos rfl, List.append_assoc]
    | period | assertStart | assertEnd | assertWordBoundary | assertNotWordBoundary | backreference | classEscape |
        charClass | char =>
      have hatom := @appendAtom_follows { p with toLexer := l } heap code tables flags us₁ hflags₁ hl hadvance.classEscape
      refine Follows.bind hatom ?_
      rintro _ ⟨term, p₁⟩ hterm rfl
      obtain ⟨hread, -⟩ := treeAtom_reads hl hterm
      have h := hrest p₁ [term] (hread.flags.trans hflags₁) (hread.cesu8 hl)
      rw [termsBytes_single] at h
      exact h

/-- The compiled pattern is the layout of its tree. -/
theorem reCompileBytecode_follows (heap : Heap) (flags : Flags) (us : List CodeUnit) :
    Follows Failure.OutOfMemory
      (fun compiled (t : List (List Term) × TreeParser) => t.1 ≠ [] ∧
        compiled = ⟨altsBytes flags.unicode t.1 ++ [Opcode.eof.toByte], t.2.capturesCount, t.2.nonCapturesCount, flags⟩ ∧
        compiled.code.length < 2 ^ 32)
      (reCompileBytecode tables heap (cesu8 us) flags) (parseTree tables (cesu8 us) flags) := by
  rw [reCompileBytecode, parseTree]
  by_cases hheap : heap.allocates sizeOfCompiledCode = true
  · rw [if_pos hheap]
    have h := @parseLoop_follows
      { inputStart := cesu8 us, inputCurr := cesu8 us, groupsCount := none, flags,
        token := { type := .eof, value := 0#32, qmin := 1#32, qmax := 1#32, greedy := true },
        capturesCount := 1, nonCapturesCount := 0 }
      heap (List.replicate sizeOfCompiledCode 0#8) tables flags ((cesu8 us).length + 1) true [] [] us rfl rfl
    rw [doneBytes, termsBytes, List.append_nil, List.append_nil] at h
    rw [← bind_ok (treeLoop _ _ _ _ _ _)]
    refine Follows.bind h ?_
    rintro _ ⟨alts, p⟩ - ⟨hne, rfl, hlt⟩
    have hcode : (List.replicate sizeOfCompiledCode 0#8 ++ (altsBytes flags.unicode alts ++ eofBytes true)).drop
        sizeOfCompiledCode = altsBytes flags.unicode alts ++ [Opcode.eof.toByte] :=
      List.drop_left' List.length_replicate
    refine follows_ok ⟨hne, ?_, ?_⟩
    · show CompiledCode.mk _ _ _ _ = _
      rw [TreeParser.compiler_bytecode, hcode]
      rfl
    · show (List.drop _ _).length < _
      rw [List.length_drop]
      exact Nat.lt_of_le_of_lt (Nat.sub_le _ _) (hlt rfl)
  · rw [if_neg hheap]
    exact Or.inl rfl

/-- An accepted pattern has a tree, of which the byte code is the layout. -/
theorem reCompileBytecode_layout {us : List CodeUnit} {compiled : CompiledCode}
    (h : reCompileBytecode tables heap (cesu8 us) flags = .ok compiled) :
    ∃ alts p, parseTree tables (cesu8 us) flags = .ok (alts, p) ∧ alts ≠ [] ∧
      compiled.code = altsBytes flags.unicode alts ++ [Opcode.eof.toByte] ∧ compiled.code.length < 2 ^ 32 ∧
      compiled.capturesCount = p.capturesCount ∧ compiled.nonCapturesCount = p.nonCapturesCount ∧
      compiled.flags = flags := by
  have hfollows := @reCompileBytecode_follows tables heap flags us
  rw [h] at hfollows
  obtain ⟨⟨alts, p⟩, htree, hne, rfl, hlt⟩ := hfollows
  exact ⟨alts, p, htree, hne, rfl, hlt, rfl, rfl, rfl⟩

end

end Regexp
end JJS
