import LazyEffects.Config
import LazyEffects.Trampoline

/-!
# Client code

A session is a dialogue between the library and its client. The client hands over code: the
functions in its effects, tasks, completion callbacks and error handlers. The library sees such
code as a *code* drawn from `Codes`, and when it is called, as a `Script`: a computation that works
on the client's own memory and puts requests to the library, each of which is answered before the
script goes on.

A request that ends in a panic is answered with the payload. A script that does not stop the panic
passes it on.

* `Request` and `Reply` are what can be asked and answered;
* `Client` says what the client's codes do.
-/

namespace LazyEffects

/-- An event loop of a session. -/
@[ext]
structure LoopId where
  index : Nat
  deriving DecidableEq, Repr, Inhabited

/-- A recording host of a session. -/
@[ext]
structure QueueId where
  index : Nat
  deriving DecidableEq, Repr, Inhabited

/-- A worker of a session. -/
@[ext]
structure WorkerId where
  index : Nat
  deriving DecidableEq, Repr, Inhabited

/-- A cell in which the outcome of a run is left for the one who waits for it. -/
@[ext]
structure CellId where
  index : Nat
  deriving DecidableEq, Repr, Inhabited

/-- A run, by its number in the session. -/
structure RunId where
  index : Nat
  deriving DecidableEq, Repr, Inhabited

/-- What tasks are deferred to. A host is named, not owned: a name may outlive what it names. -/
inductive Host where
  /-- An event loop. -/
  | eventLoop (l : LoopId)
  /-- A host that only records its tasks, which are then run or dropped by hand. -/
  | recording (q : QueueId)
  /-- A host that drops every task at once. -/
  | discarding
  /-- A worker on a thread of its own. -/
  | worker (w : WorkerId)
  deriving DecidableEq, Repr

/-- The codes of everything a client hands to the library. -/
structure Codes where
  signature : Signature
  Task : Type
  Completion : Type
  Handler : Type

variable {K : Codes}

/-- What receives the failures of the runs that a client starts. -/
inductive ErrorHandler (K : Codes) where
  /-- Report an event, and nothing else. -/
  | log
  | client (h : K.Handler)

/-- A host, a configuration and an error handler. -/
structure Runtime (K : Codes) where
  host : Host
  config : Config
  onError : ErrorHandler K

/-- Where the outcome of a run goes. Only the library sends it to a cell. -/
inductive Recipient (K : Codes) where
  /-- A result goes to the one, a failure to the other. -/
  | callbacks (onDone : K.Completion) (onError : ErrorHandler K)
  /-- Leave the outcome in a cell. -/
  | cell (c : CellId)

/-- What stays the same about a run while it is evaluated. -/
structure Run (K : Codes) where
  id : RunId
  /-- The declared type of the result. -/
  result : K.signature.Ty
  recipient : Recipient K
  host : Host
  config : Config

/-- A run in flight that has not been reported, with its evaluation. -/
structure Fiber (K : Codes) where
  run : Run K
  trampoline : Trampoline K.signature

/-- A unit of deferred work. -/
inductive Task (K : Codes) where
  /-- Run the next slice of a run. -/
  | resume (f : Fiber K)
  | client (t : K.Task)
  /-- Mark a cell, for one who waits until the task has run. -/
  | signal (c : CellId)

/-- An evaluation that is driven by polling it. -/
structure Future (K : Codes) where
  config : Config
  trampoline : Trampoline K.signature
  /-- The declared type of the result. -/
  result : K.signature.Ty

/-- The outcome of a run as a value: its result or the failure. -/
abbrev RunResult (K : Codes) := Except RunError K.signature.Value

/-- What client code may ask of the library. -/
inductive Request (K : Codes) where
  /-- Make an event loop, owned by the asker. -/
  | openLoop
  /-- Become one more owner of an event loop. -/
  | shareLoop (l : LoopId)
  /-- Give up one ownership of an event loop. With the last one its tasks are dropped. -/
  | releaseLoop (l : LoopId)
  /-- How many tasks an event loop holds and how many it has run. -/
  | inspectLoop (l : LoopId)
  /-- Run the earliest due task of an event loop. -/
  | turn (l : LoopId)
  /-- Run tasks of an event loop until none remains. -/
  | runUntilIdle (l : LoopId)
  /-- Run an effect on an event loop, pump it, and answer the outcome. -/
  | blockOn (l : LoopId) (config : Config) (program : Program K.signature)
  /-- Make a recording host. -/
  | openQueue
  /-- The delays asked for by the tasks of a recording host. -/
  | queuedDelays (q : QueueId)
  /-- Run a task of a recording host, by its place. -/
  | fire (q : QueueId) (place : Nat)
  /-- Drop a task of a recording host, by its place. -/
  | discard (q : QueueId) (place : Nat)
  /-- Drop all tasks of a recording host. -/
  | discardAll (q : QueueId)
  /-- Make a runtime. -/
  | newRuntime (host : Host) (config : Config) (onError : ErrorHandler K)
  /-- Start a run. -/
  | start (runtime : Runtime K) (program : Program K.signature) (onDone : K.Completion)
  /-- Defer a task. -/
  | defer (host : Host) (delay : Duration) (task : K.Task)
  /-- Run one slice of a bare evaluation. -/
  | slice (catching : Bool) (budget : Nat) (t : Trampoline K.signature)
  /-- Poll a future once. -/
  | poll (f : Future K)
  /-- Drive a future until it is ready. -/
  | runAsync (f : Future K)
  /-- Make a worker, owned by the asker. -/
  | openWorker
  /-- How many tasks a worker has run. -/
  | workerTurns (w : WorkerId)
  /-- Run an effect on a worker and answer the outcome. -/
  | blockOnWorker (w : WorkerId) (config : Config) (program : Program K.signature)
  /-- Submit a task without effect to a worker and wait until it has run. -/
  | awaitWorker (w : WorkerId)
  /-- Stop a worker and wait for it to end. -/
  | stopWorker (w : WorkerId)

/-- What the library answers. -/
inductive Reply (K : Codes) where
  | done
  | flag (b : Bool)
  | count (n : Nat)
  | openedLoop (l : LoopId)
  | openedQueue (q : QueueId)
  | openedWorker (w : WorkerId)
  | loopState (pending turns : Nat)
  | delays (ds : List Duration)
  | runtime (r : Runtime K)
  | settled (r : RunResult K)
  /-- A slice of a bare evaluation is over. -/
  | sliced (a : Answer K.signature) (t : Trampoline K.signature)
  /-- A future is not ready. -/
  | pending (f : Future K)

/-- Client code in execution: it is over, works on the client's memory and goes on with what the
memory then is, or asks and goes on with the answer. -/
inductive Script (K : Codes) (M : Type) (α : Type) where
  | done (a : α)
  | update (f : M → M) (next : M → Script K M α)
  | ask (r : Request K) (next : Except Payload (Reply K) → Script K M α)

namespace Script

variable {M α β : Type}

/-- Go on with `f` when the script is over. -/
def bind (s : Script K M α) (f : α → Script K M β) : Script K M β :=
  match s with
  | done a => f a
  | update g next => update g fun memory => (next memory).bind f
  | ask r next => ask r fun answer => (next answer).bind f

instance : Monad (Script K M) where
  pure := done
  bind := bind

theorem bind_done (s : Script K M α) : s.bind done = s := by
  induction s with
  | done => rfl
  | update g next ih => simp [bind, ih]
  | ask r next ih => simp [bind, ih]

theorem bind_assoc {γ : Type} (s : Script K M α) (f : α → Script K M β)
    (g : β → Script K M γ) : (s.bind f).bind g = s.bind fun a => (f a).bind g := by
  induction s with
  | done => rfl
  | update h next ih => simp [bind, ih]
  | ask r next ih => simp [bind, ih]

instance : LawfulMonad (Script K M) :=
  .mk' (Script K M) bind_done (fun _ _ => rfl) bind_assoc

/-- Work on the client's memory. -/
def modify (f : M → M) : Script K M Unit := update f fun _ => done ()

/-- Look something up in the client's memory. -/
def read (f : M → α) : Script K M α := update id fun memory => done (f memory)

/-- Put a request and go on with its answer. -/
def request (r : Request K) : Script K M (Except Payload (Reply K)) := ask r done

end Script

/-- How client code that answers nothing ends: it returns or panics. -/
abbrev Ending := Except Payload Unit

/-- What the codes of a client do, on a memory of type `M`.

A task may own what someone notices the end of, such as an event loop. It gives it up when it runs,
or when it is dropped. A run has callbacks for that: one of them is called when the run is over,
whichever way it ends. -/
structure Client (K : Codes) (M : Type) where
  thunk : K.signature.Thunk → Script K M (Outcome K.signature K.signature.Value)
  transform : K.signature.Transform → K.signature.Value →
    Script K M (Outcome K.signature K.signature.Value)
  continuation : K.signature.Continuation → K.signature.Value →
    Script K M (Outcome K.signature (Effect K.signature))
  task : K.Task → Script K M Ending
  /-- What goes with a task that is dropped and not run. -/
  discard : K.Task → Script K M Ending
  completion : K.Completion → K.signature.Value → Stats → Script K M Ending
  handler : K.Handler → RunError → Script K M Ending
  /-- What it makes of an event that the library reports. -/
  observe : Event → M → M

/-- The functions of a client as a trampoline calls them: each call is a script. -/
def Client.functions {M : Type} (client : Client K M) : Functions K.signature (Script K M) where
  thunk := client.thunk
  transform := client.transform
  continuation := client.continuation
  observe e := Script.modify (client.observe e)

end LazyEffects
