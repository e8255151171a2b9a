import JJS.Promise.Basic
import Mathlib.Data.List.Count
import Mathlib.Data.List.Flatten
import Mathlib.Data.List.Induction
import Mathlib.Data.List.Perm.Basic

/-!
# JJS.Promise.Runs

Every promise settles once, and every reaction on it gets one job.

The invariant counts the rights to settle a promise: a settlement under way, a thenable job in the queue, the
engine's own right, and the resolving functions while `ECMA_PROMISE_ALREADY_RESOLVED` is clear. A pending
promise has exactly one of them and a settled promise has none (`Fits`), so a settlement always finds its
promise pending. `act_inv` is the step lemma, `run_inv` the run lemma.

That the flag belongs to the promise and not to the pair shows in `repeated_call_iff`: a function of a pair that
was called before has no effect exactly when no thenable job has cleared the flag in the meantime.
-/

namespace JJS
namespace Promise

open LinkedQueue

/-! ## Reading a trace -/

/-- The reactions that were registered on a promise. -/
def registered (p : Nat) (es : List Event) : List Reaction :=
  es.filterMap fun
    | .registered q r => if q = p then some r else none
    | _ => none

/-- The jobs that were enqueued for reactions of a promise. -/
def enqueuedFor (p : Nat) (es : List Event) : List Job :=
  es.filterMap fun
    | .enqueued (some q) job => if q = p then some job else none
    | _ => none

def enqueued (es : List Event) : List Job :=
  es.filterMap fun
    | .enqueued _ job => some job
    | _ => none

def started (es : List Event) : List Job :=
  es.filterMap fun
    | .started job => some job
    | _ => none

/-- What an event says about the resolving functions of `p`: one of them was called, or a thenable job has
cleared the flag. -/
def flagAfter (p : Nat) (flag : Bool) : Event → Bool
  | .called _ q => if q = p then true else flag
  | .started (.thenable q _ _) => if q = p then false else flag
  | _ => flag

/-- A resolving function of `p` was called, and no thenable job of `p` has started since. -/
def calledSince (p : Nat) (es : List Event) : Bool := es.foldl (flagAfter p) false

section Append

variable (p : Nat) (es fs : List Event)

theorem registered_append : registered p (es ++ fs) = registered p es ++ registered p fs := List.filterMap_append

theorem enqueuedFor_append : enqueuedFor p (es ++ fs) = enqueuedFor p es ++ enqueuedFor p fs := List.filterMap_append

theorem enqueued_append : enqueued (es ++ fs) = enqueued es ++ enqueued fs := List.filterMap_append

theorem started_append : started (es ++ fs) = started es ++ started fs := List.filterMap_append

theorem calledSince_append : calledSince p (es ++ fs) = fs.foldl (flagAfter p) (calledSince p es) := List.foldl_append

end Append

theorem enqueuedFor_map (p q : Nat) (jobs : List Job) :
    enqueuedFor q (jobs.map (Event.enqueued (some p))) = if p = q then jobs else [] := by
  by_cases h : p = q
  · rw [if_pos h]
    simp [enqueuedFor, List.filterMap_map, h]
  · rw [if_neg h]
    simp [enqueuedFor, List.filterMap_map, h]

theorem enqueued_map (s : Option Nat) (jobs : List Job) : enqueued (jobs.map (Event.enqueued s)) = jobs := by
  induction jobs with
  | nil => rfl
  | cons j js ih =>
    rw [enqueued] at ih
    rw [List.map_cons, enqueued, List.filterMap_cons, ih]

theorem other_map (s : Option Nat) (jobs : List Job) :
    (∀ p, registered p (jobs.map (Event.enqueued s)) = []) ∧ started (jobs.map (Event.enqueued s)) = [] ∧
      ∀ p flag, (jobs.map (Event.enqueued s)).foldl (flagAfter p) flag = flag := by
  induction jobs with
  | nil => exact ⟨fun _ => rfl, rfl, fun _ _ => rfl⟩
  | cons j js ih => exact ih

/-! ## Reaction lists -/

theorem takeHandler_words (absent : Handler) (f : Option Nat) (rest : List Word) :
    takeHandler f.isSome absent (f.toList.map .handler ++ rest) = some (f.elim absent .function, rest) := by
  cases f <;> rfl

/-- The loop reads back what was registered: one job for each reaction, in their order. -/
theorem triggerLoop_words (value : Value) (isReject : Bool) (rs : List Reaction) :
    ∀ fuel, (rs.flatMap Reaction.words).length ≤ fuel →
      triggerLoop value isReject fuel (rs.flatMap Reaction.words) = some (rs.map (Reaction.job value !isReject)) := by
  induction rs with
  | nil => intro fuel _; cases fuel <;> rfl
  | cons r rs ih =>
    intro fuel hfuel
    rw [List.flatMap_cons] at hfuel ⊢
    rw [List.length_append] at hfuel
    cases r with
    | await executable =>
      have hone : (Reaction.await executable).words.length = 1 := rfl
      obtain ⟨n, rfl⟩ : ∃ n, fuel = n + 1 := ⟨fuel - 1, by omega⟩
      simp only [Reaction.words, List.singleton_append, triggerLoop, if_true]
      rw [ih n (by omega), Option.map_some, List.map_cons, Reaction.job, Bool.not_not]
    | «then» capability onFulfilled onRejected =>
      have hone : 1 ≤ (Reaction.then capability onFulfilled onRejected).words.length := by
        rw [Reaction.words, List.length_cons]; omega
      obtain ⟨n, rfl⟩ : ∃ n, fuel = n + 1 := ⟨fuel - 1, by omega⟩
      simp only [Reaction.words, List.cons_append, triggerLoop, Bool.false_eq_true, if_false, List.map_append,
        List.append_assoc]
      rw [takeHandler_words]
      simp only [Option.bind_some]
      rw [takeHandler_words]
      simp only [Option.bind_some]
      rw [ih n (by omega), Option.map_some, List.map_cons, Reaction.job]
      cases isReject <;> rfl

/-! ## The queue -/

/-- Jobs are taken from the queue in the order in which they were enqueued. -/
structure InOrder (queue : Queue Job) (es : List Event) : Prop where
  linked : Linked queue (started es).length
  items : queue.items = enqueued es
  order : started es = (enqueued es).take (started es).length

variable {c : Context} {es : List Event}

theorem InOrder.toList_eq {queue : Queue Job} (h : InOrder queue es) :
    toList queue = (enqueued es).drop (started es).length := by
  rw [h.linked.toList_eq, h.items]

theorem InOrder.length_le {queue : Queue Job} (h : InOrder queue es) :
    (started es).length ≤ (enqueued es).length := by
  have hlen := congrArg List.length h.order
  rw [List.length_take] at hlen
  omega

theorem InOrder.enqueueAll (jobs : List Job) : ∀ {queue : Queue Job} {es : List Event}, InOrder queue es →
    ∀ {fs : List Event}, enqueued fs = jobs → started fs = [] →
    ∃ queue', enqueueAll queue jobs = some queue' ∧ InOrder queue' (es ++ fs) ∧
      toList queue' = toList queue ++ jobs := by
  induction jobs with
  | nil =>
    intro queue es h fs hf hs
    refine ⟨queue, rfl, ⟨?_, ?_, ?_⟩, (List.append_nil _).symm⟩
    · rw [started_append, hs, List.append_nil]; exact h.linked
    · rw [enqueued_append, hf, List.append_nil]; exact h.items
    · rw [started_append, enqueued_append, hs, hf, List.append_nil, List.append_nil]; exact h.order
  | cons job jobs ih =>
    intro queue es h fs hf hs
    obtain ⟨q1, hq1, hlinked, hitems⟩ := h.linked.enqueue job
    have hle := h.length_le
    have hone : enqueued (es ++ [.enqueued none job]) = enqueued es ++ [job] := by rw [enqueued_append]; rfl
    have hstart : started (es ++ [.enqueued none job]) = started es := by
      rw [started_append]
      exact List.append_nil _
    have h1 : InOrder q1 (es ++ [.enqueued none job]) := by
      refine ⟨by rw [hstart]; exact hlinked, by rw [hitems, h.items, hone], ?_⟩
      rw [hstart, hone, List.take_append_of_le_length hle]
      exact h.order
    obtain ⟨q2, hq2, h2, hlist⟩ := ih h1 (enqueued_map none jobs) (other_map none jobs).2.1
    refine ⟨q2, ?_, ⟨?_, ?_, ?_⟩, ?_⟩
    · simp only [Promise.enqueueAll, ecmaEnqueueJob]
      rw [hq1]
      exact hq2
    · have := h2.linked
      rwa [started_append, hstart, (other_map none jobs).2.1, ← hs, ← started_append] at this
    · have := h2.items
      rwa [enqueued_append, hone, enqueued_map, List.append_assoc, List.singleton_append, ← hf,
        ← enqueued_append] at this
    · rw [started_append, hs, List.append_nil, enqueued_append, List.take_append_of_le_length hle]
      exact h.order
    · have htake : toList q1 = toList queue ++ [job] := by
        rw [h1.toList_eq, h.toList_eq, hstart, hone, List.drop_append_of_le_length hle]
      rw [hlist, htake, List.append_assoc, List.singleton_append]

theorem InOrder.enqueue {queue : Queue Job} (h : InOrder queue es) (job : Job) (fs : List Event)
    (hf : enqueued fs = [job]) (hs : started fs = []) :
    ∃ queue', ecmaEnqueueJob queue job = some queue' ∧ InOrder queue' (es ++ fs) ∧
      toList queue' = toList queue ++ [job] := by
  obtain ⟨queue', hq, hrest⟩ := InOrder.enqueueAll [job] h hf hs
  refine ⟨queue', ?_, hrest⟩
  rw [Promise.enqueueAll] at hq
  cases hone : ecmaEnqueueJob queue job with
  | none => rw [hone] at hq; cases hq
  | some q1 =>
    rw [hone] at hq
    exact hq

/-- Events that put nothing in the queue and take nothing from it. -/
theorem InOrder.quiet {queue : Queue Job} (h : InOrder queue es) {fs : List Event} (hf : enqueued fs = [])
    (hs : started fs = []) : InOrder queue (es ++ fs) := by
  obtain ⟨queue', hq, hinv, -⟩ := InOrder.enqueueAll [] h hf hs
  cases hq
  exact hinv

/-- The head of the queue is the next job that was enqueued. -/
theorem InOrder.dequeue {queue : Queue Job} (h : InOrder queue es) :
    (LinkedQueue.dequeue queue = none ∧ toList queue = []) ∨
    ∃ job queue', LinkedQueue.dequeue queue = some (job, queue') ∧ InOrder queue' (es ++ [.started job]) ∧
      toList queue = job :: toList queue' := by
  have hle := h.length_le
  have hitems := congrArg List.length h.items
  by_cases hn : (started es).length < queue.items.length
  · obtain ⟨job, queue', hq, hjob, hlinked, hitems'⟩ := h.linked.dequeue hn
    have hone : started (es ++ [.started job]) = started es ++ [job] := by rw [started_append]; rfl
    have hsame : enqueued (es ++ [.started job]) = enqueued es := by
      rw [enqueued_append]
      exact List.append_nil _
    rw [h.items] at hjob
    have h' : InOrder queue' (es ++ [.started job]) := by
      refine ⟨by rw [hone, List.length_append]; exact hlinked, by rw [hitems', h.items, hsame], ?_⟩
      have hget : (started es).length < (enqueued es).length := by omega
      rw [hone, hsame, List.length_append, List.length_singleton, List.take_add_one, ← h.order, hjob]
      rfl
    refine .inr ⟨job, queue', hq, h', ?_⟩
    have hget : (started es).length < (enqueued es).length := by omega
    rw [h.toList_eq, h'.toList_eq, hone, hsame, List.length_append, List.length_singleton,
      List.drop_eq_getElem_cons hget]
    rw [List.getElem?_eq_getElem hget, Option.some_inj] at hjob
    rw [hjob]
  · refine .inl ⟨h.linked.dequeue_none (by omega), ?_⟩
    rw [h.toList_eq, List.drop_eq_nil_iff]
    omega

/-! ## Rights to settle -/

def isThenable (p : Nat) : Job → Bool
  | .thenable q _ _ => q == p
  | _ => false

/-- Settlements under way, thenable jobs in the queue, and the right of the engine. -/
def rights (c : Context) (p : Nat) : Nat :=
  c.frames.countP (fun f => f.promise == p) + (toList c.queue).countP (isThenable p) + c.owned.count p

/-- What a promise has to agree with. -/
structure View where
  rights : Nat
  paired : Bool
  registered : List Reaction
  enqueued : List Job
  called : Bool

def view (c : Context) (es : List Event) (p : Nat) : View :=
  ⟨rights c p, decide (p ∈ c.pairs), registered p es, enqueuedFor p es, calledSince p es⟩

def View.absent : View := ⟨0, false, [], [], false⟩

/-- A pending promise has one right to settle it, counting its resolving functions while the flag is clear, and
a settled promise has none. -/
structure Fits (v : View) (p : PromiseObject) : Prop where
  flag : p.alreadyResolved = v.called
  rights : v.rights + (if v.paired && !p.alreadyResolved then 1 else 0) = if p.pending then 1 else 0
  pending : p.pending = true → p.fulfilled = false ∧ p.result = .undefined ∧
    p.reactions = v.registered.flatMap Reaction.words ∧ v.enqueued = []
  settled : p.pending = false → p.reactions = [] ∧
    v.enqueued = v.registered.map (Reaction.job p.result p.fulfilled)

def FitsAt (v : View) : Option PromiseObject → Prop
  | some p => Fits v p
  | none => v = .absent

structure Inv (c : Context) (es : List Event) : Prop where
  queue : InOrder c.queue es
  promise : ∀ p : Nat, FitsAt (view c es p) c.promises[p]?

/-- State and result of a settled promise stay. -/
def Keeps (c c' : Context) : Prop :=
  ∀ (p : Nat) (promise : PromiseObject), c.promises[p]? = some promise →
    ∃ promise' : PromiseObject, c'.promises[p]? = some promise' ∧ (promise.pending = false →
      promise'.pending = false ∧ promise'.fulfilled = promise.fulfilled ∧ promise'.result = promise.result)

theorem Keeps.refl (c : Context) : Keeps c c := fun _ promise h => ⟨promise, h, fun hp => ⟨hp, rfl, rfl⟩⟩

theorem Keeps.trans {c c' c'' : Context} (h : Keeps c c') (h' : Keeps c' c'') : Keeps c c'' := by
  intro p promise hp
  obtain ⟨promise', hp', hkeep⟩ := h p promise hp
  obtain ⟨promise'', hp'', hkeep'⟩ := h' p promise' hp'
  refine ⟨promise'', hp'', ?_⟩
  intro hpend
  obtain ⟨h1, h2, h3⟩ := hkeep hpend
  obtain ⟨h1', h2', h3'⟩ := hkeep' h1
  exact ⟨h1', h2'.trans h2, h3'.trans h3⟩

/-- An act that succeeds, keeps the invariant and keeps what is settled. -/
def Good (c : Context) (es : List Event) (out : Outcome) : Prop :=
  ∃ c' fs, out = some (c', fs) ∧ Inv c' (es ++ fs) ∧ Keeps c c'

/-- An act that touches one promise. -/
theorem Inv.update {c' : Context} {fs : List Event} (h : Inv c es) (p : Nat) {promise promise' : PromiseObject}
    (hp : c.promises[p]? = some promise) (hset : c'.promises = c.promises.set p promise')
    (hqueue : InOrder c'.queue (es ++ fs)) (hviews : ∀ q, q ≠ p → view c' (es ++ fs) q = view c es q)
    (hfits : Fits (view c' (es ++ fs) p) promise')
    (hkeep : promise.pending = false → promise'.pending = false ∧ promise'.fulfilled = promise.fulfilled ∧
      promise'.result = promise.result) :
    Inv c' (es ++ fs) ∧ Keeps c c' := by
  have hlt : p < c.promises.length := (List.getElem?_eq_some_iff.mp hp).1
  have hself : c'.promises[p]? = some promise' := by
    rw [hset, List.getElem?_set_self hlt]
  have hother : ∀ q, q ≠ p → c'.promises[q]? = c.promises[q]? := by
    intro q hq
    rw [hset, List.getElem?_set_ne (Ne.symm hq)]
  refine ⟨⟨hqueue, ?_⟩, ?_⟩
  · intro q
    by_cases hq : q = p
    · rw [hq, hself]
      exact hfits
    · rw [hother q hq, hviews q hq]
      exact h.promise q
  · intro q pr hpr
    by_cases hq : q = p
    · rw [hq, hp, Option.some_inj] at hpr
      rw [hq, ← hpr]
      exact ⟨promise', hself, hkeep⟩
    · refine ⟨pr, ?_, fun hpend => ⟨hpend, rfl, rfl⟩⟩
      rw [hother q hq]
      exact hpr

/-- An act that touches no promise. -/
theorem Inv.same {c' : Context} {fs : List Event} (h : Inv c es) (hset : c'.promises = c.promises)
    (hqueue : InOrder c'.queue (es ++ fs)) (hviews : ∀ q, view c' (es ++ fs) q = view c es q) :
    Inv c' (es ++ fs) ∧ Keeps c c' := by
  refine ⟨⟨hqueue, ?_⟩, ?_⟩
  · intro q
    rw [hset, hviews q]
    exact h.promise q
  · intro q pr hpr
    exact ⟨pr, by rw [hset]; exact hpr, fun hpend => ⟨hpend, rfl, rfl⟩⟩

theorem countP_append_ne (fs : List Frame) (f : Frame) (q : Nat) :
    (fs ++ [f]).countP (fun f => f.promise == q) =
      fs.countP (fun f => f.promise == q) + if f.promise = q then 1 else 0 := by
  rw [List.countP_append, List.countP_singleton]
  simp only [beq_iff_eq]

theorem countP_eraseIdx {fs : List Frame} {n : Nat} {f : Frame} (h : fs[n]? = some f) (q : Nat) :
    (fs.eraseIdx n).countP (fun f => f.promise == q) + (if f.promise = q then 1 else 0) =
      fs.countP (fun f => f.promise == q) := by
  obtain ⟨hn, hf⟩ := List.getElem?_eq_some_iff.mp h
  have hperm : (f :: fs.eraseIdx n).Perm fs := by
    rw [← hf]
    exact List.getElem_cons_eraseIdx_perm hn
  rw [← hperm.countP_eq, List.countP_cons]
  simp only [beq_iff_eq]

theorem countP_reactions (q : Nat) (rs : List Reaction) (value : Value) (fulfilled : Bool) :
    (rs.map (Reaction.job value fulfilled)).countP (isThenable q) = 0 := by
  rw [List.countP_eq_zero]
  intro job hjob
  obtain ⟨r, -, rfl⟩ := List.mem_map.mp hjob
  cases r <;> simp [Reaction.job, isThenable]

/-! ## Settlements -/

/-- A promise with a settlement under way, a thenable job or the engine's right is pending, and its resolving
functions are blocked. -/
theorem Fits.pending_of_rights {v : View} {p : PromiseObject} (h : Fits v p) (hr : 0 < v.rights) :
    p.pending = true ∧ v.rights = 1 ∧ (v.paired && !p.alreadyResolved) = false := by
  have hsum := h.rights
  cases hp : p.pending with
  | false =>
    rw [hp] at hsum
    simp only [Bool.false_eq_true, if_false] at hsum
    omega
  | true =>
    rw [hp] at hsum
    cases ho : (v.paired && !p.alreadyResolved) with
    | false => exact ⟨rfl, by simpa [ho] using hsum, rfl⟩
    | true =>
      rw [ho] at hsum
      simp only [if_true] at hsum
      omega

/-- `c₁` is `c` without one right to settle `p`. -/
structure Spent (c c₁ : Context) (p : Nat) : Prop where
  promises : c₁.promises = c.promises
  pairs : c₁.pairs = c.pairs
  queue : c₁.queue = c.queue
  rights : ∀ q, rights c₁ q + (if p = q then 1 else 0) = rights c q

/-- The end of a settlement whose right is used up. -/
theorem settle_good {c₁ : Context} {p : Nat} (h : Inv c es) (hspent : Spent c c₁ p) (value : Value)
    (isReject : Bool) : Good c es (settle c₁ p value isReject) := by
  obtain ⟨hpromises, hpairs, hqueue, hrights⟩ := hspent
  have hat := h.promise p
  have hown := hrights p
  rw [if_pos rfl] at hown
  cases hp : c.promises[p]? with
  | none =>
    rw [hp] at hat
    have hzero : rights c p = 0 := congrArg View.rights hat
    omega
  | some promise =>
    rw [hp] at hat
    have hfits : Fits (view c es p) promise := hat
    have hr : (view c es p).rights = rights c p := rfl
    obtain ⟨hpend, hone, hblocked⟩ := hfits.pending_of_rights (by omega)
    obtain ⟨hfulfilled, hresult, hreactions, henq⟩ := hfits.pending hpend
    have htrigger : ecmaPromiseTriggerReactions promise.reactions value isReject =
        some ((registered p es).map (Reaction.job value !isReject)) := by
      rw [hreactions]
      exact triggerLoop_words value isReject _ _ (Nat.le_refl _)
    obtain ⟨hreg, hstart, hflag⟩ := other_map (some p) ((registered p es).map (Reaction.job value !isReject))
    obtain ⟨queue', hq, hinorder, hlist⟩ := InOrder.enqueueAll ((registered p es).map (Reaction.job value !isReject))
      h.queue (enqueued_map (some p) _) hstart
    have hthen : ∀ q, (toList queue').countP (isThenable q) = (toList c.queue).countP (isThenable q) := by
      intro q
      rw [hlist, List.countP_append, countP_reactions, Nat.add_zero]
    have hout : settle c₁ p value isReject = some ({ c₁ with
        promises := c.promises.set p ⟨false, !isReject, promise.alreadyResolved,
          promise.unhandledReject || (isReject && promise.reactions.isEmpty), value, []⟩
        queue := queue' }, ((registered p es).map (Reaction.job value !isReject)).map (Event.enqueued (some p))) := by
      simp [settle, hpromises, hp, ecmaPromiseSetState, hpend, ecmaPromiseSetResult, hresult, htrigger, hqueue, hq,
        hfulfilled]
    refine ⟨_, _, hout, h.update p hp rfl hinorder ?_ ?_ ?_⟩
    · intro q hqp
      have hsame := hrights q
      rw [if_neg (Ne.symm hqp), Nat.add_zero] at hsame
      simp only [view, rights, hthen, hpairs, registered_append, enqueuedFor_append, calledSince_append, hreg, hflag,
        List.append_nil]
      rw [enqueuedFor_map, if_neg (Ne.symm hqp), List.append_nil]
      rw [rights, rights, hqueue] at hsame
      rw [hsame]
    · have hzero : rights c₁ p = 0 := by omega
      refine ⟨?_, ?_, ?_, ?_⟩
      · simp only [view, calledSince_append, hflag]
        exact hfits.flag
      · have hblocked' : (decide (p ∈ c.pairs) && !promise.alreadyResolved) = false := hblocked
        rw [rights, hqueue] at hzero
        simp only [view, rights, hthen, hpairs, hblocked', hzero]
        rfl
      · intro hfalse
        cases hfalse
      · intro _
        refine ⟨rfl, ?_⟩
        have henq' : enqueuedFor p es = [] := henq
        simp only [view, registered_append, enqueuedFor_append, hreg, List.append_nil, henq', List.nil_append]
        rw [enqueuedFor_map, if_pos rfl]
    · intro hsettled
      rw [hpend] at hsettled
      cases hsettled

/-- A promise with a right to settle it exists. -/
theorem Inv.exists_of_rights {p : Nat} (h : Inv c es) (hr : 0 < rights c p) :
    ∃ promise, c.promises[p]? = some promise ∧ Fits (view c es p) promise := by
  have hat := h.promise p
  cases hp : c.promises[p]? with
  | none =>
    rw [hp] at hat
    have hzero : rights c p = 0 := congrArg View.rights hat
    omega
  | some promise =>
    rw [hp] at hat
    exact ⟨promise, rfl, hat⟩

/-- A settlement that turns into a thenable job. -/
theorem thenable_good {c₁ : Context} {p : Nat} (h : Inv c es) (hspent : Spent c c₁ p) (value : Value) (f : Nat) :
    Good c es ((ecmaEnqueueJob c₁.queue (.thenable p value f)).map fun queue =>
      ({ c₁ with queue := queue }, [.enqueued none (.thenable p value f)])) := by
  obtain ⟨hpromises, hpairs, hqueue, hrights⟩ := hspent
  obtain ⟨queue', hq, hinorder, hlist⟩ := h.queue.enqueue (.thenable p value f)
    [.enqueued none (.thenable p value f)] rfl rfl
  rw [hqueue, hq, Option.map_some]
  refine ⟨_, _, rfl, h.same hpromises hinorder ?_⟩
  intro q
  have hsame := hrights q
  have hcount : (toList queue').countP (isThenable q) =
      (toList c.queue).countP (isThenable q) + if p = q then 1 else 0 := by
    rw [hlist, List.countP_append, List.countP_singleton]
    simp only [isThenable, beq_iff_eq]
  rw [rights, hqueue] at hsame
  simp only [view, rights, hcount, hpairs, registered_append, enqueuedFor_append, calledSince_append]
  have hsum : List.countP (fun f => f.promise == q) c₁.frames +
      ((toList c.queue).countP (isThenable q) + if p = q then 1 else 0) + List.count q c₁.owned = rights c q := by
    omega
  rw [hsum]
  simp [registered, enqueuedFor, flagAfter, rights]

theorem finish_good (h : Inv c es) (n : Nat) (got : Then) : Good c es (c.act (.finish n got)) := by
  rw [Context.act]
  cases hf : c.frames[n]? with
  | none => exact ⟨c, [], rfl, h.same rfl (h.queue.quiet rfl rfl) (by intro q; rw [List.append_nil])⟩
  | some frame =>
    have hspent : Spent c { c with frames := c.frames.eraseIdx n } frame.promise := by
      refine ⟨rfl, rfl, rfl, ?_⟩
      intro q
      have hcount := countP_eraseIdx hf q
      simp only [rights]
      omega
    cases frame with
    | reject p reason => exact settle_good h hspent reason true
    | fulfill p value =>
      simp only [Frame.finish, ecmaFulfillPromise]
      split
      · exact settle_good h hspent .typeError true
      · split
        · cases got with
          | error e => exact settle_good h hspent e true
          | callable f => exact thenable_good h hspent value f
          | other => exact settle_good h hspent value false
        · exact settle_good h hspent value false

theorem frameOf_promise (p : Nat) (resolve : Bool) (value : Value) : (frameOf p resolve value).promise = p := by
  cases resolve <;> rfl

theorem settleOwned_good (h : Inv c es) (p : Nat) (resolve : Bool) (value : Value) :
    Good c es (c.act (.settleOwned p resolve value)) := by
  rw [Context.act]
  split
  · rename_i hmem
    have hcount : 0 < c.owned.count p := List.count_pos_iff.mpr hmem
    have hr : 0 < rights c p := by rw [rights]; omega
    obtain ⟨promise, hp, hfits⟩ := h.exists_of_rights hr
    obtain ⟨hpend, -, -⟩ := hfits.pending_of_rights hr
    have hout : begin { c with owned := c.owned.erase p } (frameOf p resolve value) =
        some ({ c with owned := c.owned.erase p, frames := c.frames ++ [frameOf p resolve value] }, []) := by
      simp only [begin, frameOf_promise, hp, Option.bind_some, hpend, if_true]
    refine ⟨_, _, hout, h.same rfl (h.queue.quiet rfl rfl) ?_⟩
    · intro q
      have hrights : List.countP (fun f => f.promise == q) (c.frames ++ [frameOf p resolve value]) +
          (toList c.queue).countP (isThenable q) + List.count q (c.owned.erase p) = rights c q := by
        rw [countP_append_ne, frameOf_promise, rights, List.count_erase]
        by_cases hpq : p = q
        · subst hpq
          simp only [beq_self_eq_true, if_true]
          omega
        · have hbeq : (p == q) = false := by simpa using hpq
          rw [if_neg hpq, hbeq]
          simp
      simp only [view, rights, List.append_nil]
      rw [hrights]
      rfl
  · exact ⟨c, [], rfl, h.same rfl (h.queue.quiet rfl rfl) (by intro q; rw [List.append_nil])⟩

/-- A call of a resolving function: the flag decides. -/
theorem call_eq (h : Inv c es) {pair p : Nat} (hpair : c.pairs[pair]? = some p) (resolve : Bool) (value : Value) :
    ∃ promise, c.promises[p]? = some promise ∧ Fits (view c es p) promise ∧
      c.act (.call pair resolve value) = if promise.alreadyResolved then some (c, [.called pair p])
        else some ({ c with
          promises := c.promises.set p { promise with alreadyResolved := true }
          frames := c.frames ++ [frameOf p resolve value] }, [.called pair p]) := by
  have hmem : p ∈ c.pairs := List.mem_of_getElem? hpair
  have hat := h.promise p
  cases hp : c.promises[p]? with
  | none =>
    rw [hp] at hat
    have hfalse : decide (p ∈ c.pairs) = false := congrArg View.paired hat
    simp [hmem] at hfalse
  | some promise =>
    rw [hp] at hat
    have hfits : Fits (view c es p) promise := hat
    refine ⟨promise, rfl, hfits, ?_⟩
    simp only [Context.act, hpair, withChecks, frameOf_promise, hp, Option.bind_some]
    cases hflag : promise.alreadyResolved with
    | true => rfl
    | false =>
      have hsum := hfits.rights
      have hpaired : (view c es p).paired = true := by simp [view, hmem]
      have hpend : promise.pending = true := by
        rw [hpaired, hflag] at hsum
        cases hb : promise.pending with
        | true => rfl
        | false =>
          rw [hb] at hsum
          simp only [Bool.not_false, Bool.and_self, if_true, Bool.false_eq_true, if_false] at hsum
          omega
      have hlt : p < c.promises.length := (List.getElem?_eq_some_iff.mp hp).1
      simp only [Bool.false_eq_true, if_false, begin, frameOf_promise, List.getElem?_set_self hlt, Option.bind_some,
        hpend, if_true, Option.map_some]

theorem call_good (h : Inv c es) (pair : Nat) (resolve : Bool) (value : Value) :
    Good c es (c.act (.call pair resolve value)) := by
  cases hpair : c.pairs[pair]? with
  | none =>
    refine ⟨c, [], ?_, h.same rfl (h.queue.quiet rfl rfl) (by intro q; rw [List.append_nil])⟩
    simp only [Context.act, hpair]
  | some p =>
    have hmem : p ∈ c.pairs := List.mem_of_getElem? hpair
    obtain ⟨promise, hp, hfits, heq⟩ := call_eq h hpair resolve value
    have hcalled : ∀ q, calledSince q (es ++ [.called pair p]) = if p = q then true else calledSince q es := by
      intro q
      rw [calledSince_append]
      rfl
    have hreg : ∀ q, registered q (es ++ [.called pair p]) = registered q es := by
      intro q
      rw [registered_append]
      exact List.append_nil _
    have henq : ∀ q, enqueuedFor q (es ++ [.called pair p]) = enqueuedFor q es := by
      intro q
      rw [enqueuedFor_append]
      exact List.append_nil _
    rw [heq]
    cases hflag : promise.alreadyResolved with
    | true =>
      refine ⟨c, [.called pair p], rfl, h.same rfl (h.queue.quiet rfl rfl) ?_⟩
      intro q
      simp only [view, hcalled, hreg, henq]
      split
      · rename_i hpq
        have hset : calledSince p es = true := hfits.flag.symm.trans hflag
        rw [← hpq, hset]
      · rfl
    | false =>
      refine ⟨_, _, rfl, h.update p hp rfl (h.queue.quiet rfl rfl) ?_ ?_ ?_⟩
      · intro q hq
        simp only [view, rights, hcalled, hreg, henq, countP_append_ne, frameOf_promise, if_neg (Ne.symm hq),
          Nat.add_zero]
      · have hsum := hfits.rights
        refine ⟨?_, ?_, ?_, ?_⟩
        · simp only [view, hcalled, if_true]
        · simp only [view, rights, hmem, decide_true, hflag, Bool.not_false, Bool.and_self, if_true] at hsum
          simp only [view, rights, countP_append_ne, frameOf_promise, if_true, Bool.not_true, Bool.and_false,
            Bool.false_eq_true, if_false]
          omega
        · intro hpend
          simp only [view, hreg, henq]
          exact hfits.pending hpend
        · intro hpend
          simp only [view, hreg, henq]
          exact hfits.settled hpend
      · intro hpend
        exact ⟨hpend, rfl, rfl⟩

theorem register_good (h : Inv c es) (p : Nat) (r : Reaction) : Good c es (register c p r) := by
  have hat := h.promise p
  rw [register]
  cases hp : c.promises[p]? with
  | none => exact ⟨c, [], rfl, h.same rfl (h.queue.quiet rfl rfl) (by intro q; rw [List.append_nil])⟩
  | some promise =>
    rw [hp] at hat
    have hfits : Fits (view c es p) promise := hat
    simp only
    cases hpend : promise.pending with
    | true =>
      obtain ⟨hfulfilled, hresult, hreactions, henq⟩ := hfits.pending hpend
      refine ⟨_, _, rfl, h.update p hp rfl (h.queue.quiet rfl rfl) ?_ ?_ ?_⟩
      · intro q hq
        simp only [view, registered_append, enqueuedFor_append, calledSince_append]
        simp [registered, enqueuedFor, flagAfter, rights, Ne.symm hq]
      · have hreg : registered p (es ++ [.registered p r]) = registered p es ++ [r] := by
          rw [registered_append]
          simp [registered]
        refine ⟨?_, ?_, ?_, ?_⟩
        · simp only [view, calledSince_append]
          exact hfits.flag
        · have hsum := hfits.rights
          rw [hpend] at hsum
          exact hsum
        · intro _
          refine ⟨hfulfilled, hresult, ?_, ?_⟩
          · have hwords : promise.reactions = (registered p es).flatMap Reaction.words := hreactions
            simp only [view, hreg, hwords, List.flatMap_append, List.flatMap_singleton]
          · simp only [view, enqueuedFor_append]
            exact (List.append_nil _).trans henq
        · intro hfalse
          cases hfalse
      · intro hfalse
        rw [hpend] at hfalse
        cases hfalse
    | false =>
      obtain ⟨hreactions, henq⟩ := hfits.settled hpend
      obtain ⟨queue', hq, hinorder, hlist⟩ := h.queue.enqueue (r.job promise.result promise.fulfilled)
        [.registered p r, .enqueued (some p) (r.job promise.result promise.fulfilled)] rfl rfl
      have hthen : ∀ q, (toList queue').countP (isThenable q) = (toList c.queue).countP (isThenable q) := by
        intro q
        have hzero := countP_reactions q [r] promise.result promise.fulfilled
        rw [hlist, List.countP_append]
        simp only [List.map_cons, List.map_nil] at hzero
        rw [hzero, Nat.add_zero]
      simp only [Bool.false_eq_true, if_false, hq, Option.map_some]
      refine ⟨_, _, rfl, h.update p hp rfl hinorder ?_ ?_ ?_⟩
      · intro q hqp
        simp only [view, rights, hthen, registered_append, enqueuedFor_append, calledSince_append]
        simp [registered, enqueuedFor, flagAfter, Ne.symm hqp]
      · refine ⟨?_, ?_, ?_, ?_⟩
        · simp only [view, calledSince_append]
          exact hfits.flag
        · have hsum := hfits.rights
          rw [hpend] at hsum
          simp only [view, rights, hthen]
          exact hsum
        · intro htrue
          cases htrue
        · intro _
          have henq' : enqueuedFor p es = (registered p es).map (Reaction.job promise.result promise.fulfilled) := henq
          refine ⟨hreactions, ?_⟩
          simp only [view, registered_append, enqueuedFor_append, henq']
          simp [registered, enqueuedFor]
      · intro _
        exact ⟨rfl, rfl, rfl⟩

theorem enqueueOther_good (h : Inv c es) {job : Job} (hjob : ∀ q, isThenable q job = false) :
    Good c es (enqueueOther c job) := by
  obtain ⟨queue', hq, hinorder, hlist⟩ := h.queue.enqueue job [.enqueued none job] rfl rfl
  rw [enqueueOther, hq, Option.map_some]
  refine ⟨_, _, rfl, h.same rfl hinorder ?_⟩
  intro q
  have hthen : (toList queue').countP (isThenable q) = (toList c.queue).countP (isThenable q) := by
    rw [hlist, List.countP_append, List.countP_singleton, hjob q]
    simp
  simp only [view, rights, hthen, registered_append, enqueuedFor_append, calledSince_append]
  simp [registered, enqueuedFor, flagAfter]

/-- A job that is not a thenable job leaves the promises alone. -/
theorem otherJob_good (h : Inv c es) {job : Job} {queue' : Queue Job} (hjob : ∀ q, isThenable q job = false)
    (hinorder : InOrder queue' (es ++ [.started job])) (hlist : toList c.queue = job :: toList queue') :
    Good c es (some ({ c with queue := queue' }, [.started job])) := by
  refine ⟨_, _, rfl, h.same rfl hinorder ?_⟩
  intro q
  have hthen : (toList c.queue).countP (isThenable q) = (toList queue').countP (isThenable q) := by
    rw [hlist, List.countP_cons, hjob q]
    simp
  have hflag : flagAfter q (calledSince q es) (.started job) = calledSince q es := by
    cases job with
    | thenable p v f =>
      have hp := hjob p
      simp [isThenable] at hp
    | _ => rfl
  simp only [view, rights, hthen, registered_append, enqueuedFor_append, calledSince_append, List.foldl_cons,
    List.foldl_nil, hflag]
  simp [registered, enqueuedFor]

theorem runJob_good (h : Inv c es) : Good c es (runJob c) := by
  rw [runJob]
  cases h.queue.dequeue with
  | inl hempty =>
    rw [hempty.1]
    exact ⟨c, [], rfl, h.same rfl (h.queue.quiet rfl rfl) (by intro q; rw [List.append_nil])⟩
  | inr hsome =>
    obtain ⟨job, queue', hq, hinorder, hlist⟩ := hsome
    rw [hq]
    cases job with
    | thenable p value f =>
      have hcount : ∀ q, (toList c.queue).countP (isThenable q) =
          (toList queue').countP (isThenable q) + if p = q then 1 else 0 := by
        intro q
        rw [hlist, List.countP_cons]
        simp only [isThenable, beq_iff_eq]
      have hr : 0 < rights c p := by
        rw [rights, hcount p, if_pos rfl]
        omega
      obtain ⟨promise, hp, hfits⟩ := h.exists_of_rights hr
      obtain ⟨hpend, hone, -⟩ := hfits.pending_of_rights hr
      simp only [hp, Option.map_some]
      refine ⟨_, _, rfl, h.update p hp rfl hinorder ?_ ?_ ?_⟩
      · intro q hqp
        simp only [view, rights, hcount q, if_neg (Ne.symm hqp), Nat.add_zero, registered_append, enqueuedFor_append,
          calledSince_append]
        simp [registered, enqueuedFor, flagAfter, hqp, Ne.symm hqp]
      · obtain ⟨hfulfilled, hresult, hreactions, henq⟩ := hfits.pending hpend
        refine ⟨?_, ?_, ?_, ?_⟩
        · simp [view, calledSince_append, flagAfter]
        · have hone' : rights c p = 1 := hone
          rw [rights, hcount p, if_pos rfl] at hone'
          simp only [view, rights, List.mem_append, List.mem_singleton, or_true, decide_true, Bool.not_false,
            Bool.and_self, if_true, hpend]
          omega
        · intro _
          simp only [view, registered_append, enqueuedFor_append]
          refine ⟨hfulfilled, hresult, ?_, ?_⟩
          · rw [hreactions]
            simp [view, registered]
          · exact (List.append_nil _).trans henq
        · intro hfalse
          cases hpend.symm.trans hfalse
      · intro hfalse
        rw [hpend] at hfalse
        cases hfalse
    | reaction capability handler argument => exact otherJob_good h (fun _ => rfl) hinorder hlist
    | asyncReaction executable argument rejected => exact otherJob_good h (fun _ => rfl) hinorder hlist
    | asyncGenerator executable => exact otherJob_good h (fun _ => rfl) hinorder hlist
    | microtask callback => exact otherJob_good h (fun _ => rfl) hinorder hlist

theorem create_good (h : Inv c es) (owned : Bool) : Good c es (c.act (.create owned)) := by
  have habsent : view c es c.promises.length = .absent := by
    have hat := h.promise c.promises.length
    rwa [List.getElem?_eq_none (Nat.le_refl _)] at hat
  have hrights : rights c c.promises.length = 0 := congrArg View.rights habsent
  have hpaired : decide (c.promises.length ∈ c.pairs) = false := congrArg View.paired habsent
  have hreg : registered c.promises.length es = [] := congrArg View.registered habsent
  have henq : enqueuedFor c.promises.length es = [] := congrArg View.enqueued habsent
  have hcalled : calledSince c.promises.length es = false := congrArg View.called habsent
  have hsum : rights (if owned then { c with owned := c.promises.length :: c.owned }
      else { c with pairs := c.pairs ++ [c.promises.length] }) c.promises.length = if owned then 1 else 0 := by
    rw [rights] at hrights
    cases owned with
    | true =>
      simp only [if_true, rights, List.count_cons_self]
      omega
    | false =>
      simp only [Bool.false_eq_true, if_false, rights]
      exact hrights
  refine ⟨_, _, rfl, ⟨h.queue.quiet rfl rfl, ?_⟩, ?_⟩
  · intro q
    by_cases hq : q = c.promises.length
    · subst hq
      rw [List.getElem?_append_right (Nat.le_refl _), Nat.sub_self, List.append_nil]
      refine ⟨hcalled.symm, ?_, ?_, ?_⟩
      · cases owned with
        | true =>
          have hone : rights { c with owned := c.promises.length :: c.owned } c.promises.length = 1 := hsum
          simp only [rights] at hone
          simp only [view, rights, if_true, hone, hpaired]
          rfl
        | false =>
          have hzero : rights { c with pairs := c.pairs ++ [c.promises.length] } c.promises.length = 0 := hsum
          simp only [rights] at hzero
          simp only [view, rights, Bool.false_eq_true, if_false, hzero]
          simp [ecmaOpCreatePromiseObject]
      · intro _
        refine ⟨rfl, rfl, ?_, henq⟩
        simp only [view, hreg]
        rfl
      · intro hfalse
        cases hfalse
    · have hget : (c.promises ++ [ecmaOpCreatePromiseObject])[q]? = c.promises[q]? := by
        by_cases hlt : q < c.promises.length
        · exact List.getElem?_append_left hlt
        · have hlen : (c.promises ++ [ecmaOpCreatePromiseObject]).length = c.promises.length + 1 := List.length_append
          rw [List.getElem?_eq_none (by omega), List.getElem?_eq_none (by omega)]
      have hview : view { c with
          promises := c.promises ++ [ecmaOpCreatePromiseObject]
          pairs := if owned then c.pairs else c.pairs ++ [c.promises.length]
          owned := if owned then c.promises.length :: c.owned else c.owned } (es ++ []) q = view c es q := by
        rw [List.append_nil]
        cases owned with
        | true => simp [view, rights, List.count_cons_of_ne (Ne.symm hq)]
        | false => simp [view, rights, hq]
      rw [hview, hget]
      exact h.promise q
  · intro q promise hq
    refine ⟨promise, ?_, fun hpend => ⟨hpend, rfl, rfl⟩⟩
    have hlt : q < c.promises.length := (List.getElem?_eq_some_iff.mp hq).1
    simp only
    rw [List.getElem?_append_left hlt]
    exact hq

/-- Every act succeeds, keeps the invariant and keeps what is settled. -/
theorem act_inv (h : Inv c es) (a : Act) : Good c es (c.act a) := by
  cases a with
  | create owned => exact create_good h owned
  | call pair resolve value => exact call_good h pair resolve value
  | settleOwned p resolve value => exact settleOwned_good h p resolve value
  | finish n got => exact finish_good h n got
  | register p r => exact register_good h p r
  | enqueueAsyncGenerator executable => exact enqueueOther_good h fun _ => rfl
  | enqueueMicrotask callback => exact enqueueOther_good h fun _ => rfl
  | runJob => exact runJob_good h

/-! ## Whole runs -/

theorem inv_new : Inv .new [] := by
  refine ⟨⟨linked_empty, rfl, rfl⟩, ?_⟩
  intro p
  rfl

theorem run_snoc {acts : List Act} {a : Act} {c' : Context} {fs : List Event} (hrun : run acts = some (c, es))
    (hact : c.act a = some (c', fs)) : run (acts ++ [a]) = some (c', es ++ fs) := by
  rw [run] at hrun
  simp only [run, List.foldl_append, hrun, List.foldl_cons, List.foldl_nil, Option.bind_some, hact, Option.map_some]

/-- A run goes on from every state that it reaches. -/
theorem run_inv (pre post : List Act) :
    ∃ c₀ es₀ c es, run pre = some (c₀, es₀) ∧ run (pre ++ post) = some (c, es) ∧ Inv c₀ es₀ ∧ Inv c es ∧
      Keeps c₀ c := by
  have hone : ∀ acts : List Act, ∃ c es, run acts = some (c, es) ∧ Inv c es := by
    intro acts
    induction acts using List.reverseRecOn with
    | nil => exact ⟨_, _, rfl, inv_new⟩
    | append_singleton acts a ih =>
      obtain ⟨c, es, hrun, hinv⟩ := ih
      obtain ⟨c', fs, hact, hinv', -⟩ := act_inv hinv a
      exact ⟨c', es ++ fs, run_snoc hrun hact, hinv'⟩
  obtain ⟨c₀, es₀, hpre, hinv₀⟩ := hone pre
  refine ⟨c₀, es₀, ?_⟩
  induction post using List.reverseRecOn with
  | nil => exact ⟨c₀, es₀, hpre, by rw [List.append_nil]; exact hpre, hinv₀, hinv₀, Keeps.refl c₀⟩
  | append_singleton post a ih =>
    obtain ⟨c, es, -, hrun, -, hinv, hkeep⟩ := ih
    obtain ⟨c', fs, hact, hinv', hkeep'⟩ := act_inv hinv a
    refine ⟨c', es ++ fs, hpre, ?_, hinv₀, hinv', hkeep.trans hkeep'⟩
    rw [← List.append_assoc]
    exact run_snoc hrun hact

/-- In every run no assertion fails; a promise that is settled keeps its state and its result in every later
state; the jobs of the reactions of a promise are none while it is pending and then one for each reaction, in
the order of registration and with the handler of the outcome; and the jobs that were started, followed by
those in the queue, are the jobs that were enqueued. -/
theorem promise_settles_once (acts : List Act) :
    ∃ c es, run acts = some (c, es) ∧
      (∀ pre, pre <+: acts → ∃ c₀ es₀, run pre = some (c₀, es₀) ∧ Keeps c₀ c) ∧
      (∀ p promise, c.promises[p]? = some promise → enqueuedFor p es =
        if promise.pending then [] else (registered p es).map (Reaction.job promise.result promise.fulfilled)) ∧
      started es ++ toList c.queue = enqueued es := by
  obtain ⟨-, -, c, es, -, hrun, -, hinv, -⟩ := run_inv [] acts
  refine ⟨c, es, hrun, ?_, ?_, ?_⟩
  · intro pre hpre
    obtain ⟨post, rfl⟩ := hpre
    obtain ⟨c₀, es₀, c', es', hpre, hrun', -, -, hkeep⟩ := run_inv pre post
    rw [List.nil_append, hrun', Option.some_inj, Prod.mk.injEq] at hrun
    obtain ⟨rfl, rfl⟩ := hrun
    exact ⟨c₀, es₀, hpre, hkeep⟩
  · intro p promise hp
    have hat := hinv.promise p
    rw [hp] at hat
    have hfits : Fits (view c es p) promise := hat
    cases hpend : promise.pending with
    | true => exact (hfits.pending hpend).2.2.2
    | false => exact (hfits.settled hpend).2
  · rw [hinv.queue.toList_eq]
    have horder := hinv.queue.order
    calc started es ++ (enqueued es).drop (started es).length
        = (enqueued es).take (started es).length ++ (enqueued es).drop (started es).length := by rw [← horder]
      _ = enqueued es := List.take_append_drop _ _

/-! ## Pairs of resolving functions -/

/-- After the first call of a function of a pair, calls of its functions change nothing. -/
def PairLaw (acts : List Act) : Prop :=
  ∀ pre pair resolve value post, acts = pre ++ .call pair resolve value :: post →
    ∀ c es, run pre = some (c, es) → (∃ q, .called pair q ∈ es) →
    ∀ c' es', c.act (.call pair resolve value) = some (c', es') → c' = c

/-- No function of a pair that was called before is called between the start of a thenable job of its promise
and the next call of any resolving function of that promise. -/
def NoLateCall (acts : List Act) : Prop :=
  ∀ pre pair resolve value post, acts = pre ++ .call pair resolve value :: post →
    ∀ c es, run pre = some (c, es) → (∃ q, .called pair q ∈ es) →
    ∀ p, c.pairs[pair]? = some p → calledSince p es = true

theorem repeated_call_iff (h : Inv c es) {pair p : Nat} (hpair : c.pairs[pair]? = some p) (resolve : Bool)
    (value : Value) :
    (∀ c' es', c.act (.call pair resolve value) = some (c', es') → c' = c) ↔ calledSince p es = true := by
  obtain ⟨promise, -, hfits, heq⟩ := call_eq h hpair resolve value
  have hflag : promise.alreadyResolved = calledSince p es := hfits.flag
  rw [heq, hflag]
  cases calledSince p es with
  | true =>
    refine ⟨fun _ => rfl, fun _ c' es' hact => ?_⟩
    rw [if_pos rfl, Option.some_inj, Prod.mk.injEq] at hact
    exact hact.1.symm
  | false =>
    refine ⟨fun hsame => ?_, fun hfalse => by cases hfalse⟩
    have hframes := congrArg (fun c => c.frames.length) (hsame _ _ (if_neg Bool.false_ne_true))
    simp only [List.length_append, List.length_singleton] at hframes
    omega

/-- Only the first call of a pair counts in just the runs without late calls. -/
theorem pair_law_iff (acts : List Act) : PairLaw acts ↔ NoLateCall acts := by
  constructor
  · intro h pre pair resolve value post hacts c es hrun hcalled p hpair
    obtain ⟨c₀, es₀, -, -, hpre, -, hinv, -, -⟩ := run_inv pre []
    rw [hrun, Option.some_inj, Prod.mk.injEq] at hpre
    obtain ⟨rfl, rfl⟩ := hpre
    exact (repeated_call_iff hinv hpair resolve value).mp (h pre pair resolve value post hacts c es hrun hcalled)
  · intro h pre pair resolve value post hacts c es hrun hcalled
    obtain ⟨c₀, es₀, -, -, hpre, -, hinv, -, -⟩ := run_inv pre []
    rw [hrun, Option.some_inj, Prod.mk.injEq] at hpre
    obtain ⟨rfl, rfl⟩ := hpre
    cases hpair : c.pairs[pair]? with
    | none =>
      intro c' es' hact
      simp only [Context.act, hpair, Option.some_inj, Prod.mk.injEq] at hact
      exact hact.1.symm
    | some p =>
      exact (repeated_call_iff hinv hpair resolve value).mpr (h pre pair resolve value post hacts c es hrun hcalled p hpair)

/-- The executor resolves its promise with a thenable; when the thenable job has called `then`, which does not
call back, the executor's `resolve` is called again with a number. -/
def lateCallRun : List Act :=
  [.create false, .call 0 true (.object 1), .finish 0 (.callable 7), .runJob, .call 0 true (.primitive 5),
    .finish 0 .other]

theorem pair_law_not : ((run lateCallRun).map fun out => out.1.promises) =
    some [⟨false, true, true, false, .primitive 5, []⟩] ∧ ¬ PairLaw lateCallRun := by
  refine ⟨by decide +kernel, ?_⟩
  intro h
  have hsame := h [.create false, .call 0 true (.object 1), .finish 0 (.callable 7), .runJob] 0 true (.primitive 5)
    [.finish 0 .other] rfl _ _ rfl ⟨0, List.mem_cons_self⟩ _ _ rfl
  have hframes := congrArg (fun c => c.frames.length) hsame
  cases hframes

end Promise
end JJS
