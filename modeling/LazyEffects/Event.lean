import LazyEffects.Duration
import LazyEffects.Effect
import LazyEffects.Failure

/-!
# Diagnostic events

What the library reports about its own work, beside what it hands to callbacks. Each event has a
level, a target (the part of the library it comes from), a message and fields.

* `Event.visited` and `Event.suspended` come from the trampoline;
* `Event.runStarted` to `Event.runUnhandled` mark the life of a run;
* the others come from the hosts.
-/

namespace LazyEffects

/-- How severe an event is. -/
inductive Level where
  | error
  | warn
  | info
  | debug
  | trace
  deriving DecidableEq, Repr, Inhabited

namespace Level

/-- The rank of a level: the more severe, the smaller. -/
def rank : Level → Nat
  | error => 0
  | warn => 1
  | info => 2
  | debug => 3
  | trace => 4

def label : Level → String
  | error => "error"
  | warn => "warn"
  | info => "info"
  | debug => "debug"
  | trace => "trace"

end Level

/-- A diagnostic event, by its cause. -/
inductive Event where
  /-- A node is about to be processed, with `stack` frames pending. -/
  | visited (kind : NodeKind) (stack : Nat)
  /-- A slice ended because its budget was used up. -/
  | suspended (steps suspensions stack : Nat)
  /-- A runtime was made with a budget of zero. -/
  | budgetRaised
  | runStarted (root : NodeKind)
  | runCompleted (steps suspensions : Nat)
  | runFailed (cause : RunError)
  /-- The pending rest of a run was dropped. -/
  | runDropped
  /-- A failure reached the default error handler. -/
  | runUnhandled (cause : RunError)
  | asyncCompleted (steps suspensions : Nat)
  /-- An event loop accepted a task; `pending` counts it. -/
  | taskDeferred (delay : Duration) (pending : Nat)
  /-- An event loop starts a task. -/
  | taskStarted (turn : Nat)
  /-- A task was deferred to an event loop that is gone. -/
  | loopGone
  /-- A worker starts a task. -/
  | workerTaskStarted (turn : Nat)
  /-- A worker stops while tasks wait for their time. -/
  | workerStopping (dropped : Nat)
  /-- A worker that had died of a panic was joined. -/
  | workerPanicked
  /-- A task was deferred to a worker that is gone. -/
  | workerGone
  deriving DecidableEq, Repr

/-- The value of a field of an event. -/
inductive FieldValue where
  | number (n : Nat)
  | text (t : String)
  deriving DecidableEq, Repr

namespace Event

def level : Event → Level
  | visited .. => .trace
  | suspended .. => .debug
  | budgetRaised => .warn
  | runStarted _ => .debug
  | runCompleted .. => .debug
  | runFailed _ => .debug
  | runDropped => .debug
  | runUnhandled _ => .error
  | asyncCompleted .. => .debug
  | taskDeferred .. => .trace
  | taskStarted _ => .trace
  | loopGone => .warn
  | workerTaskStarted _ => .trace
  | workerStopping _ => .debug
  | workerPanicked => .warn
  | workerGone => .warn

def target : Event → String
  | visited .. | suspended .. => "effectron::runtime::trampoline"
  | budgetRaised | runStarted _ | runCompleted .. | runFailed _ | runDropped | runUnhandled _ =>
    "effectron::runtime"
  | asyncCompleted .. => "effectron::runtime::async"
  | taskDeferred .. | taskStarted _ | loopGone => "effectron::scheduler::event_loop"
  | workerTaskStarted _ | workerStopping _ | workerPanicked | workerGone =>
    "effectron::scheduler::worker"

def message : Event → String
  | visited .. => "step"
  | suspended .. => "step budget exhausted, suspending"
  | budgetRaised => "step_budget of 0 would never progress, using 1"
  | runStarted _ => "starting run"
  | runCompleted .. => "run completed"
  | runFailed _ => "run failed"
  | runDropped => "run dropped before completion"
  | runUnhandled _ => "effect run failed"
  | asyncCompleted .. => "async run completed"
  | taskDeferred .. => "task deferred"
  | taskStarted _ => "running task"
  | loopGone => "event loop is gone, dropping task"
  | workerTaskStarted _ => "running task"
  | workerStopping _ => "worker stopping with pending tasks"
  | workerPanicked => "worker thread panicked"
  | workerGone => "worker host is gone, dropping task"

/-- The fields of an event, by name. -/
def fields : Event → List (String × FieldValue)
  | visited kind stack => [("kind", .text kind.label), ("stack", .number stack)]
  | suspended steps suspensions stack =>
    [("stack", .number stack), ("steps", .number steps), ("suspensions", .number suspensions)]
  | runStarted root => [("root", .text root.label)]
  | runCompleted steps suspensions | asyncCompleted steps suspensions =>
    [("steps", .number steps), ("suspensions", .number suspensions)]
  | runFailed cause | runUnhandled cause => [("err", .text cause.message)]
  | taskDeferred delay pending => [("delay", .text delay.text), ("pending", .number pending)]
  | taskStarted turn | workerTaskStarted turn => [("turn", .number turn)]
  | workerStopping dropped => [("dropped", .number dropped)]
  | budgetRaised | runDropped | loopGone | workerPanicked | workerGone => []

end Event

end LazyEffects
