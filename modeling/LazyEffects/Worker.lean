import LazyEffects.TimerQueue

/-!
# The worker

A worker is a thread that runs deferred tasks one after the other. Tasks reach it as messages
through a channel that keeps their order; it moves them to a queue of timers of its own and runs
those that are due. It looks at its channel only when no task in the queue is due.

The functions here are the single moves of the two sides: `Worker.send` on the side of those who
submit, and `Worker.popDue`, `Worker.receive`, `Worker.close` and `Worker.crash` on the side of
the thread. A schedule is any sequence of them.
-/

namespace LazyEffects

/-- What travels through the channel of a worker. -/
inductive Message (τ : Type) where
  | submit (due : Instant) (task : τ)
  | shutdown

/-- The task in a message. -/
def Message.task? {τ : Type} : Message τ → Option τ
  | submit _ task => some task
  | shutdown => none

/-- Where the thread of a worker stands. -/
inductive WorkerPhase where
  /-- It takes messages and runs tasks. -/
  | running
  /-- It has taken the order to stop and drops the tasks in its queue. -/
  | stopping
  /-- It has ended, and messages are refused. -/
  | exited
  /-- It has died of a panic, and messages are refused. -/
  | crashed
  deriving DecidableEq, Repr

/-- A worker with its channel. -/
structure Worker (τ : Type) where
  /-- The messages on their way, oldest first. -/
  channel : List (Message τ)
  /-- The tasks that wait for their time. -/
  timers : TimerQueue τ
  /-- The number of tasks started. -/
  turns : Nat
  phase : WorkerPhase

namespace Worker

variable {τ : Type}

/-- A worker just started. -/
def spawned : Worker τ := ⟨[], .empty, 0, .running⟩

instance : Inhabited (Worker τ) := ⟨spawned⟩

/-- Messages are accepted as long as the thread holds the other end of the channel. -/
def accepts (w : Worker τ) : Bool :=
  w.phase = .running ∨ w.phase = .stopping

/-- Put a message into the channel. -/
def send (w : Worker τ) (message : Message τ) : Worker τ :=
  { w with channel := w.channel ++ [message] }

/-- Take the task to run at `now`: the one ahead of all others in the queue, if it is due. -/
def popDue (w : Worker τ) (now : Instant) : Option (τ × Worker τ) :=
  match w.timers.popDue now with
  | some (task, timers) => some (task, { w with timers, turns := w.turns + 1 })
  | none => none

/-- Take the oldest message from the channel: a task joins the queue, the order to stop ends the
work. -/
def receive (w : Worker τ) : Option (Worker τ) :=
  match w.channel with
  | [] => none
  | .submit due task :: channel =>
    some { w with channel, timers := w.timers.push due task }
  | .shutdown :: channel => some { w with channel, phase := .stopping }

/-- Give up the tasks in the queue. -/
def dropTimers (w : Worker τ) : List τ × Worker τ :=
  (w.timers.tasks, { w with timers := .empty })

/-- End in order: the tasks still in the channel are given up. -/
def close (w : Worker τ) : List τ × Worker τ :=
  (w.channel.filterMap Message.task?, { w with channel := [], phase := .exited })

/-- Die of a panic: every task in the queue and in the channel is lost. -/
def crash (w : Worker τ) : Worker τ :=
  { w with channel := [], timers := .empty, phase := .crashed }

end Worker

end LazyEffects
