import JJS.Lib.LinkedQueue

/-!
# JJS.Promise.Basic

Promises with their reactions (`ecma-promise-object.c`) and the job queue (`ecma-jobqueue.c`).

A run is any interleaving of calls of resolving functions, `then` and `await` registrations and job
executions. Where the code runs code that it does not know (the getter of `then` and the callbacks of the host
while a promise is settled, the handlers and the `then` functions that jobs call), other acts of the run may
come in between: a settlement that has passed its checks is kept as a frame until it is finished.

An assertion that fails, and a reaction list that cannot be read, make an act fail.
-/

namespace JJS
namespace Promise

open LinkedQueue

/-! ## Values -/

/-- `ecma_value_t`, as far as promises look at it. `typeError` is the error that `ecma_fulfill_promise` raises
for a promise that is resolved with itself. -/
inductive Value where
  | undefined
  | promise (p : Nat)
  | object (o : Nat)
  | primitive (n : Nat)
  | typeError
deriving DecidableEq

/-- `ecma_is_value_object`. -/
def Value.isObject : Value → Bool
  | .promise _ | .object _ | .typeError => true
  | .undefined | .primitive _ => false

/-- The handler of a reaction job: `ECMA_VALUE_TRUE`, `ECMA_VALUE_FALSE` or a function. -/
inductive Handler where
  | identity
  | thrower
  | function (f : Nat)
deriving DecidableEq

/-- `ecma_job_queue_item_type_t` with the fields of each job. -/
inductive Job where
  | reaction (capability : Nat) (handler : Handler) (argument : Value)
  | asyncReaction (executable : Nat) (argument : Value) (rejected : Bool)
  | asyncGenerator (executable : Nat)
  | thenable (promise : Nat) (thenable : Value) (function : Nat)
  | microtask (callback : Nat)
deriving DecidableEq

/-- An item of a reaction list: an object with the three bits of its pointer tag, or a handler. -/
inductive Word where
  | tagged (object : Nat) (first second third : Bool)
  | handler (f : Nat)
deriving DecidableEq

/-- `ecma_promise_object_t`; the flags are those of `ecma_promise_flags_t`. -/
structure PromiseObject where
  pending : Bool
  fulfilled : Bool
  alreadyResolved : Bool
  unhandledReject : Bool
  result : Value
  reactions : List Word
deriving DecidableEq

/-- What `ecma_op_create_promise_object` makes. -/
def ecmaOpCreatePromiseObject : PromiseObject := ⟨true, false, false, false, .undefined, []⟩

/-- A settlement that is under way. -/
inductive Frame where
  | fulfill (promise : Nat) (value : Value)
  | reject (promise : Nat) (reason : Value)
deriving DecidableEq

def Frame.promise : Frame → Nat
  | .fulfill p _ => p
  | .reject p _ => p

/-- The promises, the promise of each pair of resolving functions, the promises that only the engine itself can
settle so far (those of async functions, async generators and imports), the settlements under way and the job
queue. -/
structure Context where
  promises : List PromiseObject
  pairs : List Nat
  owned : List Nat
  frames : List Frame
  queue : Queue Job

def Context.new : Context := ⟨[], [], [], [], LinkedQueue.empty⟩

/-- A reaction as it was registered. -/
inductive Reaction where
  | then (capability : Nat) (onFulfilled onRejected : Option Nat)
  | await (executable : Nat)
deriving DecidableEq

/-- What an observer of a run sees. -/
inductive Event where
  | registered (promise : Nat) (reaction : Reaction)
  | enqueued (promise : Option Nat) (job : Job)
  | started (job : Job)
  | called (pair promise : Nat)
deriving DecidableEq

abbrev Outcome := Option (Context × List Event)

/-! ## Settling -/

/-- `ecma_promise_set_state`. -/
def ecmaPromiseSetState (p : PromiseObject) (isFulfilled : Bool) : Option PromiseObject :=
  if p.pending then some { p with pending := !p.pending, fulfilled := p.fulfilled ^^ isFulfilled } else none

/-- `ecma_promise_set_result`. -/
def ecmaPromiseSetResult (p : PromiseObject) (result : Value) : Option PromiseObject :=
  if p.result = .undefined then some { p with result := result } else none

/-- The handler after a tagged object, if its bit is set. -/
def takeHandler (bit : Bool) (absent : Handler) (words : List Word) : Option (Handler × List Word) :=
  if bit then
    match words with
    | .handler f :: rest => some (.function f, rest)
    | _ => none
  else some (absent, words)

/-- The loop of `ecma_promise_trigger_reactions`: the jobs in the order in which they are enqueued. -/
def triggerLoop (value : Value) (isReject : Bool) : Nat → List Word → Option (List Job)
  | _, [] => some []
  | 0, _ :: _ => none
  | _ + 1, .handler _ :: _ => none
  | fuel + 1, .tagged object first second third :: words =>
    if third then
      (triggerLoop value isReject fuel words).map (.asyncReaction object value isReject :: ·)
    else
      (takeHandler first .identity words).bind fun (onFulfilled, words) =>
      (takeHandler second .thrower words).bind fun (onRejected, words) =>
      (triggerLoop value isReject fuel words).map
        (.reaction object (if isReject then onRejected else onFulfilled) value :: ·)

/-- `ecma_promise_trigger_reactions`. -/
def ecmaPromiseTriggerReactions (reactions : List Word) (value : Value) (isReject : Bool) : Option (List Job) :=
  triggerLoop value isReject reactions.length reactions

/-- `ecma_enqueue_job`. -/
def ecmaEnqueueJob (queue : Queue Job) (job : Job) : Option (Queue Job) := enqueue queue job

def enqueueAll (queue : Queue Job) : List Job → Option (Queue Job)
  | [] => some queue
  | job :: jobs => (ecmaEnqueueJob queue job).bind fun queue => enqueueAll queue jobs

/-- The end of `ecma_fulfill_promise` and `ecma_reject_promise`: state, result and reactions. A rejection
without reactions is marked. -/
def settle (c : Context) (p : Nat) (value : Value) (isReject : Bool) : Outcome :=
  (c.promises[p]?).bind fun promise =>
  (ecmaPromiseSetState promise !isReject).bind fun promise =>
  (ecmaPromiseSetResult promise value).bind fun promise =>
  (ecmaPromiseTriggerReactions promise.reactions value isReject).bind fun jobs =>
  (enqueueAll c.queue jobs).map fun queue =>
    ({ c with
        promises := c.promises.set p { promise with
          reactions := []
          unhandledReject := promise.unhandledReject || (isReject && promise.reactions.isEmpty) }
        queue := queue }, jobs.map (.enqueued (some p)))

/-- `ecma_reject_promise`. -/
def ecmaRejectPromise (c : Context) (p : Nat) (reason : Value) : Outcome := settle c p reason true

/-- What reading `then` of a value gives: an exception, a function, or something else. -/
inductive Then where
  | error (e : Value)
  | callable (f : Nat)
  | other

/-- `ecma_fulfill_promise`; `got` is the `then` of an object. -/
def ecmaFulfillPromise (c : Context) (p : Nat) (value : Value) (got : Then) : Outcome :=
  if value = .promise p then ecmaRejectPromise c p .typeError
  else if value.isObject then
    match got with
    | .error e => ecmaRejectPromise c p e
    | .callable f =>
      (ecmaEnqueueJob c.queue (.thenable p value f)).map fun queue =>
        ({ c with queue := queue }, [.enqueued none (.thenable p value f)])
    | .other => settle c p value false
  else settle c p value false

/-- `ECMA_PROMISE_IS_PENDING` is asserted before a settlement, which is then under way. -/
def begin (c : Context) (frame : Frame) : Outcome :=
  (c.promises[frame.promise]?).bind fun promise =>
    if promise.pending then some ({ c with frames := c.frames ++ [frame] }, []) else none

/-- `ecma_reject_promise_with_checks` and `ecma_fulfill_promise_with_checks`: nothing happens when
`ECMA_PROMISE_ALREADY_RESOLVED` is set. -/
def withChecks (c : Context) (frame : Frame) : Outcome :=
  (c.promises[frame.promise]?).bind fun promise =>
    if promise.alreadyResolved then some (c, [])
    else begin { c with promises := c.promises.set frame.promise { promise with alreadyResolved := true } } frame

/-- `ecma_reject_promise_with_checks`. -/
def ecmaRejectPromiseWithChecks (c : Context) (p : Nat) (reason : Value) : Outcome := withChecks c (.reject p reason)

/-- `ecma_fulfill_promise_with_checks`. -/
def ecmaFulfillPromiseWithChecks (c : Context) (p : Nat) (value : Value) : Outcome := withChecks c (.fulfill p value)

/-- The settlement under way is finished. -/
def Frame.finish (c : Context) (got : Then) : Frame → Outcome
  | .fulfill p value => ecmaFulfillPromise c p value got
  | .reject p reason => ecmaRejectPromise c p reason

/-! ## Registering -/

/-- `[ capability, (on_fulfilled), (on_rejected) ]` with the tag bits, or the executable object with its third
bit. -/
def Reaction.words : Reaction → List Word
  | .then capability onFulfilled onRejected =>
    .tagged capability onFulfilled.isSome onRejected.isSome false ::
      (onFulfilled.toList ++ onRejected.toList).map .handler
  | .await executable => [.tagged executable false false true]

/-- The job of a reaction on a settled promise. -/
def Reaction.job (value : Value) (fulfilled : Bool) : Reaction → Job
  | .then capability onFulfilled onRejected =>
    .reaction capability
      (if fulfilled then onFulfilled.elim .identity .function else onRejected.elim .thrower .function) value
  | .await executable => .asyncReaction executable value !fulfilled

def Reaction.isThen : Reaction → Bool
  | .then .. => true
  | .await _ => false

/-- `ecma_promise_perform_then` and `ecma_promise_async_then`. A rejection counts as handled from then on; only
`ecma_promise_perform_then` does not look at the mark of a fulfilled promise. -/
def register (c : Context) (p : Nat) (r : Reaction) : Outcome :=
  match c.promises[p]? with
  | none => some (c, [])
  | some promise =>
    if promise.pending then
      some ({ c with promises := c.promises.set p { promise with reactions := promise.reactions ++ r.words } },
        [.registered p r])
    else
      (ecmaEnqueueJob c.queue (r.job promise.result promise.fulfilled)).map fun queue =>
        ({ c with
            promises := c.promises.set p { promise with
              unhandledReject := promise.unhandledReject && promise.fulfilled && r.isThen }
            queue := queue },
          [.registered p r, .enqueued (some p) (r.job promise.result promise.fulfilled)])

/-- `ecma_promise_perform_then`. A handler that is not callable is absent. -/
def ecmaPromisePerformThen (c : Context) (p : Nat) (onFulfilled onRejected : Option Nat) (capability : Nat) : Outcome :=
  register c p (.then capability onFulfilled onRejected)

/-- `ecma_promise_async_then`. -/
def ecmaPromiseAsyncThen (c : Context) (p : Nat) (executable : Nat) : Outcome := register c p (.await executable)

/-! ## Jobs -/

/-- One round of `ecma_process_all_enqueued_jobs`: the head of the queue is taken. What the job calls are
further acts; `ecma_process_promise_resolve_thenable_job` clears the flag and makes a new pair first. -/
def runJob (c : Context) : Outcome :=
  match dequeue c.queue with
  | none => some (c, [])
  | some (.thenable p thenable function, queue) =>
    (c.promises[p]?).map fun promise =>
      ({ c with
          promises := c.promises.set p { promise with alreadyResolved := false }
          pairs := c.pairs ++ [p]
          queue := queue }, [.started (.thenable p thenable function)])
  | some (job, queue) => some ({ c with queue := queue }, [.started job])

/-! ## Runs -/

/-- The acts of a run. `call` is a call of a resolving function of a pair: by a script, by the host, or because
the executor or the `then` function raised an error. `settleOwned` is the one settlement of a promise that the
engine owns. -/
inductive Act where
  | create (owned : Bool)
  | call (pair : Nat) (resolve : Bool) (value : Value)
  | settleOwned (promise : Nat) (resolve : Bool) (value : Value)
  | finish (frame : Nat) (got : Then)
  | register (promise : Nat) (reaction : Reaction)
  | enqueueAsyncGenerator (executable : Nat)
  | enqueueMicrotask (callback : Nat)
  | runJob

def frameOf (p : Nat) (resolve : Bool) (value : Value) : Frame :=
  if resolve then .fulfill p value else .reject p value

def enqueueOther (c : Context) (job : Job) : Outcome :=
  (ecmaEnqueueJob c.queue job).map fun queue => ({ c with queue := queue }, [.enqueued none job])

def Context.act (c : Context) : Act → Outcome
  | .create owned =>
    some ({ c with
        promises := c.promises ++ [ecmaOpCreatePromiseObject]
        pairs := if owned then c.pairs else c.pairs ++ [c.promises.length]
        owned := if owned then c.promises.length :: c.owned else c.owned }, [])
  | .call pair resolve value =>
    match c.pairs[pair]? with
    | none => some (c, [])
    | some p => (withChecks c (frameOf p resolve value)).map fun (c, es) => (c, .called pair p :: es)
  | .settleOwned p resolve value =>
    if p ∈ c.owned then begin { c with owned := c.owned.erase p } (frameOf p resolve value) else some (c, [])
  | .finish n got =>
    match c.frames[n]? with
    | none => some (c, [])
    | some frame => frame.finish { c with frames := c.frames.eraseIdx n } got
  | .register p r => register c p r
  | .enqueueAsyncGenerator executable => enqueueOther c (.asyncGenerator executable)
  | .enqueueMicrotask callback => enqueueOther c (.microtask callback)
  | .runJob => runJob c

/-- The context after a run, and its events. -/
def run : List Act → Outcome
  | acts => acts.foldl (fun out a => out.bind fun (c, es) => (c.act a).map fun (c', es') => (c', es ++ es'))
      (some (.new, []))

end Promise
end JJS
