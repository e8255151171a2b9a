import JJS.VmStack.Basic
import Mathlib.Data.List.Nodup
import Mathlib.Data.Nat.Bitwise

/-!
# JJS.VmStack.Contexts

Well-formed contexts on the stack, what each of them holds, and what a walk through one of them visits.

A context is its descriptor with the values below it. The number of values goes with the type; a context of variable
length says it in the descriptor, and has at least one.
-/

namespace JJS
namespace VmStack

/-! ## Contexts -/

namespace ContextType

/-- How many words a context of a fixed length has. -/
def stackAllocation : ContextType → Nat
  | .finallyJump | .finallyThrow | .finallyReturn => parserFinallyContextStackAllocation
  | .tryContext | .catchContext | .block | .withContext => parserWithContextStackAllocation
  | .forIn => parserForInContextStackAllocation
  | .forOf | .forAwaitOf => parserForOfContextStackAllocation
  | .iterator | .objInit | .objInitRest => 0

/-- Which of its values a context of a fixed length holds, from the top: the exception or the result, the object of a
for-in loop, and the value, the iterator and the `next` method of a for-of loop. The others are positions in the code, an
index and a pointer to a collection. -/
def heldValues : ContextType → List Nat
  | .finallyThrow | .finallyReturn => [0]
  | .forIn => [2]
  | .forOf | .forAwaitOf => [0, 1, 2]
  | _ => []

end ContextType

/-- A context as the virtual machine makes it. -/
structure Context where
  type : ContextType
  hasLexEnv : Bool
  closeIterator : Bool
  endOffset : Nat
  values : List Nat
  fixedLength : type.isVariableLength = false → values.length + 1 = type.stackAllocation
  variableLength : type.isVariableLength = true → values ≠ [] ∧ endOffset = values.length + 1
  fits : endOffset < 2 ^ 25

namespace Context

/-- The flags of a context, and its type. -/
def low (c : Context) : Nat :=
  c.type.code ||| (if c.hasLexEnv then vmContextHasLexEnv else 0) |||
    (if c.closeIterator then vmContextCloseIterator else 0)

/-- The descriptor of a context. -/
def descriptor (c : Context) : Nat :=
  vmCreateContext c.type c.endOffset ||| (if c.hasLexEnv then vmContextHasLexEnv else 0) |||
    (if c.closeIterator then vmContextCloseIterator else 0)

/-- The words of a context from the top down. -/
def words (c : Context) : List Nat := c.descriptor :: c.values

/-- A value of a context with `base` words below the context. -/
def valueAt (c : Context) (base k : Nat) : Option Place :=
  c.values[k]?.map fun value => .value (base + (c.values.length - 1 - k)) value

end Context

/-- The values of a context of variable length, with `base` words below them. -/
def itemsFrom (base : Nat) : List Nat → List Place
  | [] => []
  | value :: rest => .item (base + rest.length) value :: itemsFrom base rest

/-- The values that a context holds, with their positions. -/
def Context.held (c : Context) (base : Nat) : List Place :=
  if c.type.isVariableLength then itemsFrom base c.values else c.type.heldValues.filterMap (c.valueAt base)

/-! ## Descriptors -/

theorem shiftLeft_and (offset : Nat) {low : Nat} (h : low < 2 ^ 7) : offset <<< 7 &&& low = 0 := by
  apply Nat.eq_of_testBit_eq
  intro i
  rw [Nat.testBit_and, Nat.testBit_shiftLeft, Nat.zero_testBit]
  rcases Nat.lt_or_ge i 7 with hi | hi
  · have hnot : decide (7 ≤ i) = false := decide_eq_false (by omega)
    rw [hnot]
    rfl
  · have hpow : 2 ^ 7 ≤ 2 ^ i := Nat.pow_le_pow_right (by omega) hi
    rw [Nat.testBit_lt_two_pow (Nat.lt_of_lt_of_le h hpow), Bool.and_false]

namespace Context

variable (c : Context)

theorem low_lt : c.low < 2 ^ 7 := by
  unfold low
  cases c.type <;> cases c.hasLexEnv <;> cases c.closeIterator <;> decide

theorem descriptor_eq : c.descriptor = c.endOffset <<< 7 ||| c.low := by
  have hoffset : c.endOffset <<< 7 < 2 ^ 32 := by
    rw [Nat.shiftLeft_eq]
    have hfits := c.fits
    omega
  have hcode : c.type.code < 2 ^ 32 := Nat.lt_trans c.type.code_lt (by decide)
  unfold descriptor low vmCreateContext
  rw [Nat.mod_eq_of_lt (Nat.or_lt_two_pow hcode hoffset), Nat.or_comm c.type.code, Nat.or_assoc, Nat.or_assoc,
    Nat.or_assoc]

@[simp] theorem vmGetContextType_descriptor : vmGetContextType c.descriptor = some c.type := by
  have hlow : c.low &&& 0x1f = c.type.code := by
    unfold low
    cases c.type <;> cases c.hasLexEnv <;> cases c.closeIterator <;> decide
  rw [vmGetContextType, descriptor_eq, Nat.and_or_distrib_right, shiftLeft_and _ (by decide), hlow, Nat.zero_or,
    ContextType.ofCode_code]

@[simp] theorem vmGetContextEnd_descriptor : vmGetContextEnd c.descriptor = c.endOffset := by
  rw [vmGetContextEnd, descriptor_eq, Nat.shiftRight_or_distrib, Nat.shiftLeft_shiftRight,
    Nat.shiftRight_eq_div_pow c.low, Nat.div_eq_of_lt c.low_lt, Nat.or_zero]

@[simp] theorem descriptor_hasLexEnv : (c.descriptor &&& vmContextHasLexEnv ≠ 0) ↔ c.hasLexEnv = true := by
  have hlow : (c.low &&& vmContextHasLexEnv ≠ 0) ↔ c.hasLexEnv = true := by
    unfold low
    cases c.type <;> cases c.hasLexEnv <;> cases c.closeIterator <;> decide
  rw [descriptor_eq, Nat.and_or_distrib_right, shiftLeft_and _ (by decide), Nat.zero_or]
  exact hlow

end Context

/-! ## The values of a context -/

variable {σ : Type} {visit : σ → Place → Option σ} {c : Context} {below : List Nat}

/-- A walk that ends with a state, behind the words that it leaves. -/
def leaving {β : Type} (left : β) (result : Option σ) : Option (β × σ) := result.map fun s => (left, s)

theorem leaving_bind {β γ : Type} (left : β) (result : Option σ) (next : β × σ → Option γ) :
    (leaving left result).bind next = result.bind fun s => next (left, s) := by
  cases result <;> rfl

theorem leaving_eq_some {β : Type} {left left' : β} {result : Option σ} {s : σ}
    (h : leaving left result = some (left', s)) : left' = left ∧ result = some s := by
  cases result with
  | none => cases h
  | some s' =>
    obtain ⟨rfl, rfl⟩ := Prod.mk.inj (Option.some.inj h)
    exact ⟨rfl, rfl⟩

theorem visitItems_append : ∀ {values : List Nat} (s : σ), values ≠ [] →
    visitItems visit below.length (values ++ below) s =
      leaving below ((itemsFrom below.length values).foldlM visit s)
  | [], _, hne => absurd rfl hne
  | [value], s, _ => by
    simp only [List.singleton_append, visitItems, itemsFrom, List.foldlM_cons, List.foldlM_nil, List.length_nil,
      Nat.add_zero, Nat.lt_irrefl, if_false]
    cases visit s (.item below.length value) <;> rfl
  | value :: next :: rest, s, _ => by
    have hmore : below.length < (next :: rest ++ below).length := by
      rw [List.length_append, List.length_cons]
      omega
    have hposition : (next :: rest ++ below).length = below.length + (next :: rest).length := by
      rw [List.length_append, Nat.add_comm]
    rw [List.cons_append, visitItems, itemsFrom, List.foldlM_cons, hposition]
    cases visit s (.item (below.length + (next :: rest).length) value) with
    | none => rfl
    | some s =>
      rw [← hposition]
      show (if below.length < (next :: rest ++ below).length then _ else _) = _
      rw [if_pos hmore]
      exact visitItems_append s (List.cons_ne_nil next rest)

theorem freeItems_append : ∀ (values : List Nat) (s : σ),
    freeItems visit values.length (values ++ below) s = leaving below ((itemsFrom below.length values).foldlM visit s)
  | [], _ => rfl
  | value :: rest, s => by
    have hposition : (rest ++ below).length = below.length + rest.length := by
      rw [List.length_append, Nat.add_comm]
    rw [List.cons_append, List.length_cons, freeItems, itemsFrom, List.foldlM_cons, hposition]
    cases visit s (.item (below.length + rest.length) value) with
    | none => rfl
    | some s => exact freeItems_append rest s

theorem visitValue_words (k : Nat) (s : σ) (hk : k < c.values.length) :
    visitValue visit (c.words ++ below) (k + 2) s = (c.valueAt below.length k).bind (visit s) := by
  have hget : (c.words ++ below)[k + 1]? = c.values[k]? := by
    rw [Context.words, List.cons_append, List.getElem?_cons_succ, List.getElem?_append_left hk]
  have hposition : (c.words ++ below).length - (k + 2) = below.length + (c.values.length - 1 - k) := by
    rw [List.length_append, Context.words, List.length_cons]
    omega
  rw [visitValue, if_neg (Nat.succ_ne_zero _), Nat.add_sub_assoc (by decide) k, hget, hposition, Context.valueAt]
  cases c.values[k]? <;> rfl

/-! ## Walks through a context -/

/-- The offsets of a context of a fixed length lead to the values it holds, and what is left of them is its length. -/
theorem visitOffsets_eq (type : ContextType) (hfixed : type.isVariableLength = false) (stack : List Nat) (s : σ) :
    ∃ offsets, vmGetContextValueOffsets type = some offsets ∧ visitOffsets visit stack 8 offsets s =
      leaving type.stackAllocation (type.heldValues.foldlM (fun s k => visitValue visit stack (k + 2) s) s) := by
  cases type with
  | finallyJump | tryContext | catchContext | block | withContext => exact ⟨_, rfl, rfl⟩
  | finallyThrow | finallyReturn =>
    refine ⟨_, rfl, ?_⟩
    show (visitValue visit stack 2 s).bind _ = leaving _ ((visitValue visit stack 2 s).bind _)
    cases visitValue visit stack 2 s <;> rfl
  | forIn =>
    refine ⟨_, rfl, ?_⟩
    show (visitValue visit stack 4 s).bind _ = leaving _ ((visitValue visit stack 4 s).bind _)
    cases visitValue visit stack 4 s <;> rfl
  | forOf | forAwaitOf =>
    refine ⟨_, rfl, ?_⟩
    show (visitValue visit stack 2 s).bind _ = leaving _ ((visitValue visit stack 2 s).bind _)
    cases visitValue visit stack 2 s with
    | none => rfl
    | some s =>
      show (visitValue visit stack 3 s).bind _ = leaving _ ((visitValue visit stack 3 s).bind _)
      cases visitValue visit stack 3 s with
      | none => rfl
      | some s =>
        show (visitValue visit stack 4 s).bind _ = leaving _ ((visitValue visit stack 4 s).bind _)
        cases visitValue visit stack 4 s <;> rfl
  | iterator | objInit | objInitRest => cases hfixed

namespace Context

theorem heldValues_lt (c : Context) (hfixed : c.type.isVariableLength = false) :
    ∀ k ∈ c.type.heldValues, k < c.values.length := by
  have hlength := c.fixedLength hfixed
  cases htype : c.type <;> rw [htype] at hlength <;> intro k hk <;>
    simp [ContextType.heldValues, ContextType.stackAllocation, parserFinallyContextStackAllocation,
      parserForInContextStackAllocation, parserForOfContextStackAllocation] at hk hlength <;> omega

/-- The values that a context of a fixed length holds are visited at their offsets. -/
theorem foldlM_held (c : Context) (hfixed : c.type.isVariableLength = false) (s : σ) :
    (c.held below.length).foldlM visit s =
      c.type.heldValues.foldlM (fun s k => visitValue visit (c.words ++ below) (k + 2) s) s := by
  have hlt := c.heldValues_lt hfixed
  rw [held, if_neg (by simp [hfixed])]
  revert hlt s
  generalize c.type.heldValues = indices
  induction indices with
  | nil => intro s _; rfl
  | cons k rest ih =>
    intro s hlt
    have hk : k < c.values.length := hlt k List.mem_cons_self
    rw [List.foldlM_cons, visitValue_words k s hk]
    have hvalue : c.valueAt below.length k = some (.value (below.length + (c.values.length - 1 - k)) c.values[k]) := by
      rw [valueAt, List.getElem?_eq_getElem hk]
      rfl
    rw [List.filterMap_cons_some hvalue, List.foldlM_cons, hvalue]
    show (visit s _).bind _ = (visit s _).bind _
    congr 1
    funext s
    exact ih s fun k hk => hlt k (List.mem_cons_of_mem _ hk)

end Context

/-- What `vm_ref_lex_env_chain` and `ecma_gc_mark_executable_object` visit of a context are the values it holds, and
they go on behind it. -/
theorem visitContext_words (c : Context) (below : List Nat) (s : σ) :
    visitContext visit (c.words ++ below) s = leaving below ((c.held below.length).foldlM visit s) := by
  have hhead : (c.words ++ below).head? = some c.descriptor := rfl
  unfold visitContext
  rw [hhead, Option.bind_eq_bind, Option.bind_some, Context.vmGetContextType_descriptor, Option.bind_eq_bind,
    Option.bind_some, Context.vmGetContextEnd_descriptor]
  cases hvariable : c.type.isVariableLength with
  | true =>
    obtain ⟨hne, hend⟩ := c.variableLength hvariable
    have hlength : (c.words ++ below).length = c.endOffset + below.length := by
      rw [List.length_append, Context.words, List.length_cons, hend]
    have htail : (c.words ++ below).tail = c.values ++ below := rfl
    rw [if_pos rfl, hlength, if_neg (by omega), Nat.add_sub_cancel_left, htail, visitItems_append s hne, Context.held,
      if_pos hvariable]
  | false =>
    obtain ⟨offsets, hoffsets, hvisit⟩ := @visitOffsets_eq σ visit c.type hvariable (c.words ++ below) s
    have hsize : c.words.length = c.type.stackAllocation := c.fixedLength hvariable
    have hdrop : (c.words ++ below).drop c.type.stackAllocation = below := by
      rw [← hsize, List.drop_left]
    rw [if_neg Bool.false_ne_true, hoffsets, Option.bind_eq_bind, Option.bind_some, hvisit, c.foldlM_held hvariable,
      leaving_bind]
    have hinside : ¬ (c.words ++ below).length < c.type.stackAllocation := by
      rw [List.length_append, hsize]
      omega
    simp only [if_neg hinside, hdrop]
    exact Option.map_eq_bind.symm

/-! ## Lexical environments -/

namespace Context

/-- The lexical environment that a context owns: the current one, when it is reached. -/
def ownLexEnv (c : Context) (lexEnvs : List Nat) : List Place :=
  if c.hasLexEnv then lexEnvs.head?.toList.map .lexEnv else []

/-- The lexical environments around a context. -/
def outerLexEnvs (c : Context) (lexEnvs : List Nat) : List Nat := if c.hasLexEnv then lexEnvs.tail else lexEnvs

end Context

/-- A context with a lexical environment has another one around it. -/
theorem visitLexEnv_descriptor (c : Context) {lexEnvs : List Nat} (h : c.hasLexEnv = true → 1 < lexEnvs.length) (s : σ) :
    visitLexEnv visit c.descriptor lexEnvs s =
      leaving (c.outerLexEnvs lexEnvs) ((c.ownLexEnv lexEnvs).foldlM visit s) := by
  rw [visitLexEnv.eq_def, Context.outerLexEnvs, Context.ownLexEnv]
  by_cases hhas : c.hasLexEnv = true
  · rw [if_pos (c.descriptor_hasLexEnv.mpr hhas), if_pos hhas, if_pos hhas]
    match lexEnvs, h hhas with
    | lexEnv :: next :: outer, _ =>
      show (visit s (.lexEnv lexEnv)).map _ = leaving _ ((visit s (.lexEnv lexEnv)).bind _)
      cases visit s (.lexEnv lexEnv) <;> rfl
  · rw [if_neg fun hset => hhas (c.descriptor_hasLexEnv.mp hset), if_neg hhas, if_neg hhas]
    rfl

/-! ## Leaving a context -/

namespace Context

/-- What a for-in context has beside the object: the names that are left, and their collection. -/
def names (collections : Nat → List Nat) (c : Context) : List Place :=
  if c.type = .forIn then
    let collection := c.values.getD 0 0
    (((collections collection).zipIdx.drop (c.values.getD 1 0)).map fun entry => .name collection entry.2 entry.1) ++
      [.collection collection]
  else []

/-- What is released when a context is left. -/
def released (collections : Nat → List Nat) (c : Context) (base : Nat) : List Place := c.names collections ++ c.held base

end Context

theorem vmMinusEqualU16_eq {base value : Nat} (hvalue : value ≤ base) (hbase : base < 2 ^ 16) :
    vmMinusEqualU16 base value = base - value := by
  rw [vmMinusEqualU16, Nat.mod_eq_of_lt (Nat.lt_of_le_of_lt hvalue hbase)]
  omega

variable {collections : Nat → List Nat} {lexEnvs : List Nat}

/-- A frame with these words in its contexts. -/
def frameOf (lexEnvs contexts : List Nat) : Frame := ⟨lexEnvs, contexts.length, contexts⟩

theorem pop_words (c : Context) (hdepth : (c.words ++ below).length < 2 ^ 16) :
    (frameOf lexEnvs (c.words ++ below)).pop c.words.length = frameOf lexEnvs below := by
  have hle : c.words.length ≤ (c.words ++ below).length := by
    rw [List.length_append]
    omega
  have hleft : (c.words ++ below).length - c.words.length = below.length := by
    rw [List.length_append, Nat.add_sub_cancel_left]
  rw [Frame.pop, frameOf, vmMinusEqualU16_eq hle hdepth, hleft, List.drop_left, frameOf]

theorem abortVariableLength_words (c : Context) (hvariable : c.type.isVariableLength = true)
    (hdepth : (c.words ++ below).length < 2 ^ 16) (s : σ) :
    vmStackContextAbortVariableLength visit (frameOf lexEnvs (c.words ++ below)) 0 s =
      leaving (frameOf lexEnvs below) ((c.held below.length).foldlM visit s) := by
  obtain ⟨-, hend⟩ := c.variableLength hvariable
  have hlength : (c.words ++ below).length = c.endOffset + below.length := by
    rw [List.length_append, Context.words, List.length_cons, hend]
  have hleft : (c.words ++ below).length - c.endOffset = below.length := by omega
  have hcount : c.endOffset - 1 = c.values.length := by omega
  rw [vmStackContextAbortVariableLength]
  show Option.bind (some c.descriptor) _ = _
  rw [Option.bind_some]
  simp only [Context.vmGetContextEnd_descriptor]
  rw [if_neg (by omega), if_pos trivial, hcount]
  show Option.bind (freeItems visit c.values.length (c.values ++ below) s) _ = _
  rw [freeItems_append, leaving_bind, Context.held, if_pos hvariable]
  show Option.bind _ (fun s => some ((⟨lexEnvs, vmMinusEqualU16 (c.words ++ below).length c.endOffset, below⟩ : Frame), s)) = _
  rw [vmMinusEqualU16_eq (by omega) hdepth, hleft]
  exact Option.map_eq_bind.symm

/-- A context of a fixed length that is left after the values that it holds. -/
theorem leaveFixed (c : Context) (hfixed : c.type.isVariableLength = false)
    (hdepth : (c.words ++ below).length < 2 ^ 16) (result : Option σ) :
    (result.bind fun s => some ((frameOf lexEnvs (c.words ++ below)).pop c.type.stackAllocation, s)) =
      leaving (frameOf lexEnvs below) result := by
  have hsize : c.words.length = c.type.stackAllocation := c.fixedLength hfixed
  rw [← hsize, pop_words c hdepth]
  exact Option.map_eq_bind.symm

theorem freeNames_words (c : Context) (htype : c.type = .forIn) (s : σ) :
    freeNames collections visit (c.words ++ below) s = (c.names collections).foldlM visit s := by
  have hlength : c.values.length = 3 := by
    have hfixed := c.fixedLength (by rw [htype]; rfl)
    rw [htype] at hfixed
    exact Nat.succ.inj hfixed
  have hcollection : (c.words ++ below)[1]? = some (c.values.getD 0 0) := by
    rw [Context.words, List.cons_append, List.getElem?_cons_succ, List.getElem?_append_left (by omega),
      List.getD_eq_getElem?_getD, List.getElem?_eq_getElem (by omega)]
    rfl
  have hindex : (c.words ++ below)[2]? = some (c.values.getD 1 0) := by
    rw [Context.words, List.cons_append, List.getElem?_cons_succ, List.getElem?_append_left (by omega),
      List.getD_eq_getElem?_getD, List.getElem?_eq_getElem (by omega)]
    rfl
  rw [freeNames, hcollection, hindex, Context.names, if_pos htype, List.foldlM_append, List.foldlM_map]
  show Option.bind (List.foldlM _ s _) _ = Option.bind (List.foldlM _ s _) _
  congr 1
  funext s
  show visit s _ = (visit s _).bind some
  exact (Option.bind_fun_some _).symm

/-- `vm_stack_context_abort` releases what a context owns and holds. -/
theorem vmStackContextAbort_words (c : Context) (hlexEnvs : c.hasLexEnv = true → 1 < lexEnvs.length)
    (hdepth : (c.words ++ below).length < 2 ^ 16) (s : σ) :
    vmStackContextAbort collections visit (frameOf lexEnvs (c.words ++ below)) s =
      leaving (frameOf (c.outerLexEnvs lexEnvs) below)
        ((c.ownLexEnv lexEnvs ++ c.released collections below.length).foldlM visit s) := by
  have hframe (hnames : c.type ≠ .forIn) (s : σ) :
      (c.released collections below.length).foldlM visit s = (c.held below.length).foldlM visit s := by
    rw [Context.released, Context.names, if_neg hnames, List.nil_append]
  rw [vmStackContextAbort]
  show Option.bind (some c.descriptor) _ = _
  rw [Option.bind_some]
  show Option.bind (visitLexEnv visit c.descriptor lexEnvs s) _ = _
  rw [visitLexEnv_descriptor c hlexEnvs, leaving_bind, List.foldlM_append]
  cases (c.ownLexEnv lexEnvs).foldlM visit s with
  | none => rfl
  | some s =>
    show Option.bind (vmGetContextType c.descriptor) _ = leaving _ ((c.released collections below.length).foldlM visit s)
    rw [Context.vmGetContextType_descriptor, Option.bind_some]
    have hleave (hfixed : c.type.isVariableLength = false) (result : Option σ) :
        (result.bind fun s =>
            some ((frameOf (c.outerLexEnvs lexEnvs) (c.words ++ below)).pop c.type.stackAllocation, s)) =
          leaving (frameOf (c.outerLexEnvs lexEnvs) below) result :=
      leaveFixed c hfixed hdepth result
    cases htype : c.type with
    | finallyThrow | finallyReturn =>
      rw [hframe (by rw [htype]; exact ContextType.noConfusion), c.foldlM_held (by rw [htype]; rfl), ← hleave (by rw [htype]; rfl),
        htype]
      show Option.bind (visitValue visit (c.words ++ below) 2 s) _ =
        Option.bind (Option.bind (visitValue visit (c.words ++ below) 2 s) _) _
      cases visitValue visit (c.words ++ below) 2 s <;> rfl
    | finallyJump | tryContext | catchContext | block | withContext =>
      rw [hframe (by rw [htype]; exact ContextType.noConfusion), c.foldlM_held (by rw [htype]; rfl), ← hleave (by rw [htype]; rfl),
        htype]
      rfl
    | iterator | objInit | objInitRest =>
      rw [hframe (by rw [htype]; exact ContextType.noConfusion)]
      exact abortVariableLength_words c (by rw [htype]; rfl) hdepth s
    | forOf | forAwaitOf =>
      rw [hframe (by rw [htype]; exact ContextType.noConfusion), c.foldlM_held (by rw [htype]; rfl), ← hleave (by rw [htype]; rfl),
        htype]
      show Option.bind (visitValue visit (c.words ++ below) 2 s) _ =
        Option.bind (Option.bind (visitValue visit (c.words ++ below) 2 s) _) _
      cases visitValue visit (c.words ++ below) 2 s with
      | none => rfl
      | some s =>
        show Option.bind (visitValue visit (c.words ++ below) 3 s) _ =
          Option.bind (Option.bind (visitValue visit (c.words ++ below) 3 s) _) _
        cases visitValue visit (c.words ++ below) 3 s with
        | none => rfl
        | some s =>
          show Option.bind (visitValue visit (c.words ++ below) 4 s) _ =
            Option.bind (Option.bind (visitValue visit (c.words ++ below) 4 s) _) _
          cases visitValue visit (c.words ++ below) 4 s <;> rfl
    | forIn =>
      rw [Context.released, List.foldlM_append, ← freeNames_words c htype, ← hleave (by rw [htype]; rfl)]
      show Option.bind (freeNames collections visit (c.words ++ below) s) _ =
        Option.bind (Option.bind (freeNames collections visit (c.words ++ below) s) _) _
      cases freeNames collections visit (c.words ++ below) s with
      | none => rfl
      | some s =>
        rw [Option.bind_some, Option.bind_some, c.foldlM_held (by rw [htype]; rfl), htype]
        show Option.bind (visitValue visit (c.words ++ below) 4 s) _ =
          Option.bind (Option.bind (visitValue visit (c.words ++ below) 4 s) _) _
        cases visitValue visit (c.words ++ below) 4 s <;> rfl

/-! ## All contexts -/

/-- The words of the contexts, from the top down. -/
def layout (contexts : List Context) : List Nat := contexts.flatMap Context.words

/-- The values that the contexts hold. -/
def heldValues : List Context → List Place
  | [] => []
  | c :: below => c.held (layout below).length ++ heldValues below

/-- The lexical environments that the contexts own, each with the places of its context. -/
def placesOf (of : Context → Nat → List Place) : List Context → List Nat → List Place
  | [], _ => []
  | c :: below, lexEnvs =>
    c.ownLexEnv lexEnvs ++ of c (layout below).length ++ placesOf of below (c.outerLexEnvs lexEnvs)

/-- The lexical environments that the contexts own, and the values that they hold. -/
def places : List Context → List Nat → List Place := placesOf Context.held

/-- What is released when all contexts are left. -/
def releasedPlaces (collections : Nat → List Nat) : List Context → List Nat → List Place :=
  placesOf (Context.released collections)

/-- How many of the contexts have a lexical environment. -/
def countLexEnvs (contexts : List Context) : Nat := contexts.countP fun c => c.hasLexEnv

theorem layout_cons (c : Context) (contexts : List Context) : layout (c :: contexts) = c.words ++ layout contexts := rfl

theorem layout_length_pos (c : Context) (contexts : List Context) : 0 < (layout (c :: contexts)).length := by
  rw [layout_cons, Context.words, List.cons_append, List.length_cons]
  omega

theorem length_le_layout (contexts : List Context) : contexts.length ≤ (layout contexts).length := by
  induction contexts with
  | nil => exact Nat.le_refl 0
  | cons c contexts ih =>
    rw [layout_cons, List.length_append, List.length_cons, Context.words, List.length_cons]
    omega

/-- The lexical environments suffice for the contexts below a context as well. -/
theorem enough_outer {c : Context} {contexts : List Context} (h : countLexEnvs (c :: contexts) < lexEnvs.length) :
    (c.hasLexEnv = true → 1 < lexEnvs.length) ∧ countLexEnvs contexts < (c.outerLexEnvs lexEnvs).length ∧
      (c.outerLexEnvs lexEnvs).drop (countLexEnvs contexts) = lexEnvs.drop (countLexEnvs (c :: contexts)) := by
  have hcount : countLexEnvs (c :: contexts) = countLexEnvs contexts + if c.hasLexEnv then 1 else 0 := List.countP_cons
  rw [hcount] at h ⊢
  rw [Context.outerLexEnvs]
  cases hhas : c.hasLexEnv with
  | true =>
    rw [hhas] at h
    simp only [if_true] at h ⊢
    refine ⟨fun _ => by omega, ?_, ?_⟩
    · rw [List.length_tail]
      omega
    · rw [List.drop_tail]
  | false =>
    rw [hhas] at h
    simp only [Bool.false_eq_true, if_false, Nat.add_zero] at h ⊢
    exact ⟨fun h => h.elim, h, trivial⟩

/-- `vm_ref_lex_env_chain` visits what the contexts own and hold, and ends at `context_end_p`. -/
theorem visitLexEnvChain_layout (visit : σ → Place → Option σ) (contexts : List Context) (hne : contexts ≠ [])
    (rounds : Nat) (hrounds : contexts.length ≤ rounds) (lexEnvs : List Nat)
    (henough : countLexEnvs contexts < lexEnvs.length) (s : σ) :
    visitLexEnvChain visit rounds lexEnvs (layout contexts) s = leaving [] ((places contexts lexEnvs).foldlM visit s) := by
  induction contexts generalizing rounds lexEnvs s with
  | nil => exact absurd rfl hne
  | cons c contexts ih =>
    cases rounds with
    | zero => exact absurd hrounds (Nat.not_succ_le_zero _)
    | succ rounds =>
      obtain ⟨hown, hrest, -⟩ := enough_outer henough
      rw [visitLexEnvChain, layout_cons, places, placesOf, List.foldlM_append, List.foldlM_append]
      show Option.bind (some c.descriptor) _ = _
      rw [Option.bind_some, visitLexEnv_descriptor c hown]
      cases (c.ownLexEnv lexEnvs).foldlM visit s with
      | none => rfl
      | some s =>
        show Option.bind (visitContext visit (c.words ++ layout contexts) s) _ =
          leaving [] (Option.bind (Option.bind (some s) _) _)
        rw [visitContext_words, Option.bind_some]
        cases (c.held (layout contexts).length).foldlM visit s with
        | none => rfl
        | some s =>
          show (if 0 < (layout contexts).length then _ else _) = leaving [] ((places contexts _).foldlM visit s)
          cases contexts with
          | nil => rfl
          | cons next contexts =>
            rw [if_pos (layout_length_pos next contexts)]
            exact ih (List.cons_ne_nil _ _) rounds (Nat.le_of_succ_le_succ hrounds) _ hrest s

/-- The loop of `ecma_gc_mark_executable_object` comes by the values that the contexts hold. -/
theorem markContexts_layout (visit : σ → Place → Option σ) (contexts : List Context) (hne : contexts ≠ [])
    (rounds : Nat) (hrounds : contexts.length ≤ rounds) (s : σ) :
    markContexts visit rounds (layout contexts) s = leaving [] ((heldValues contexts).foldlM (markPlace visit) s) := by
  induction contexts generalizing rounds s with
  | nil => exact absurd rfl hne
  | cons c contexts ih =>
    cases rounds with
    | zero => exact absurd hrounds (Nat.not_succ_le_zero _)
    | succ rounds =>
      rw [markContexts, layout_cons, heldValues, List.foldlM_append]
      show Option.bind (visitContext (markPlace visit) (c.words ++ layout contexts) s) _ = _
      rw [visitContext_words]
      cases (c.held (layout contexts).length).foldlM (markPlace visit) s with
      | none => rfl
      | some s =>
        show (if 0 < (layout contexts).length then _ else _) = leaving [] ((heldValues contexts).foldlM _ s)
        cases contexts with
        | nil => rfl
        | cons next contexts =>
          rw [if_pos (layout_length_pos next contexts)]
          exact ih (List.cons_ne_nil _ _) rounds (Nat.le_of_succ_le_succ hrounds) s

/-- Repeated `vm_stack_context_abort` releases what the contexts own and hold, and ends with no context. -/
theorem abortContexts_layout (visit : σ → Place → Option σ) (contexts : List Context) (rounds : Nat)
    (hrounds : contexts.length ≤ rounds) (lexEnvs : List Nat) (henough : countLexEnvs contexts < lexEnvs.length)
    (hdepth : (layout contexts).length < 2 ^ 16) (s : σ) :
    abortContexts collections visit rounds (frameOf lexEnvs (layout contexts)) s =
      leaving (frameOf (lexEnvs.drop (countLexEnvs contexts)) [])
        ((releasedPlaces collections contexts lexEnvs).foldlM visit s) := by
  induction contexts generalizing rounds lexEnvs s with
  | nil => cases rounds <;> rfl
  | cons c contexts ih =>
    cases rounds with
    | zero => exact absurd hrounds (Nat.not_succ_le_zero _)
    | succ rounds =>
      obtain ⟨hown, hrest, hdrop⟩ := enough_outer henough
      have hnot : ¬ (layout (c :: contexts)).length = 0 := Nat.ne_of_gt (layout_length_pos c contexts)
      have hwords : (c.words ++ layout contexts).length < 2 ^ 16 := hdepth
      have hbelow : (layout contexts).length < 2 ^ 16 := by
        rw [List.length_append] at hwords
        omega
      rw [abortContexts, releasedPlaces, placesOf, List.foldlM_append]
      show (if (layout (c :: contexts)).length = 0 then _ else _) = _
      rw [if_neg hnot, layout_cons, vmStackContextAbort_words c hown hwords]
      cases (c.ownLexEnv lexEnvs ++ c.released collections (layout contexts).length).foldlM visit s with
      | none => rfl
      | some s =>
        show abortContexts collections visit rounds (frameOf _ (layout contexts)) s = leaving _ (List.foldlM visit s _)
        rw [ih rounds (Nat.le_of_succ_le_succ hrounds) _ hrest hbelow s, hdrop, releasedPlaces]

end VmStack
end JJS
