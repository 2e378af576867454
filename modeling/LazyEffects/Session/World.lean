import LazyEffects.Session.Code
import LazyEffects.Worker

/-!
# The objects of a session

Everything in a session that lies still while something else acts: the clock, the event loops with
their queues, the recording hosts, the workers, the cells for outcomes, and the client's memory.

* `World.release` gives up an ownership of an event loop, and with the last one its tasks.
-/

namespace LazyEffects

variable {K : Codes} {M : Type}

/-- A clock. Between two readings an amount of time passes that `drift` gives. -/
structure Clock where
  now : Instant
  readings : Nat
  /-- The time that passes before each reading, by its number. -/
  drift : Nat → Nat
  /-- The last point in time that there is. -/
  last : Instant

namespace Clock

/-- A clock on which time passes only while someone waits. Its seconds are counted in 64 bits, one
of them for the sign. -/
def still : Clock where
  now := 0
  readings := 0
  drift _ := 0
  last := 9223372036854775807999999999

/-- Read the clock. -/
def read (c : Clock) : Instant × Clock :=
  let now := c.now + c.drift c.readings
  (now, { c with now, readings := c.readings + 1 })

/-- Wait until `due` has come. -/
def sleepUntil (c : Clock) (due : Instant) : Clock := { c with now := max c.now due }

/-- By its next reading, the clock ends before `delay` has passed. -/
def endsWithin (c : Clock) (delay : Duration) : Bool := c.last < c.read.1 + delay.nanos

end Clock

/-- An event loop: a queue of tasks that is pumped by its owners. Without owner it is gone. -/
structure EventLoop (K : Codes) where
  queue : TimerQueue (Task K)
  /-- The number of tasks started. -/
  turns : Nat
  owners : Nat

namespace EventLoop

/-- A new event loop with one owner. -/
def opened : EventLoop K := ⟨.empty, 0, 1⟩

instance : Inhabited (EventLoop K) := ⟨opened⟩

end EventLoop

/-- What is left in a cell. -/
inductive Cell (K : Codes) where
  | vacant
  /-- The task that was to mark the cell has run. -/
  | signalled
  | settled (r : RunResult K)

/-- The objects of a session. -/
structure World (K : Codes) (M : Type) where
  clock : Clock
  loops : Array (EventLoop K)
  /-- The tasks of each recording host with the delays asked for, oldest first. -/
  queues : Array (List (Duration × Task K))
  workers : Array (Worker (Task K))
  cells : Array (Cell K)
  /-- The number of runs started. -/
  runs : Nat
  memory : M

namespace World

/-- A session in which nothing has happened. -/
def initial (clock : Clock) (memory : M) : World K M := ⟨clock, #[], #[], #[], #[], 0, memory⟩

/-- Hand an event to the client. -/
def observe (client : Client K M) (e : Event) (w : World K M) : World K M :=
  { w with memory := client.observe e w.memory }

/-- Read the clock. -/
def readClock (w : World K M) : Instant × World K M :=
  let (now, clock) := w.clock.read
  (now, { w with clock })

/-- Wait until `due` has come. -/
def sleepUntil (w : World K M) (due : Instant) : World K M :=
  { w with clock := w.clock.sleepUntil due }

/-! ### Event loops -/

/-- The event loop of that name, if it has an owner. -/
def loop? (w : World K M) (l : LoopId) : Option (EventLoop K) :=
  w.loops[l.index]?.filter (0 < ·.owners)

/-- Put an event loop in the place of the one of that name. -/
def setLoop (w : World K M) (l : LoopId) (s : EventLoop K) : World K M :=
  { w with loops := w.loops.setIfInBounds l.index s }

/-- Add an event loop. -/
def openLoop (w : World K M) : LoopId × World K M :=
  (⟨w.loops.size⟩, { w with loops := w.loops.push .opened })

/-- Add an owner to an event loop. -/
def share (w : World K M) (l : LoopId) : World K M :=
  match w.loop? l with
  | some s => w.setLoop l { s with owners := s.owners + 1 }
  | none => w

/-- Take an owner from an event loop. If it was the last, the loop is gone, and its tasks are
given up. -/
def release (w : World K M) (l : LoopId) : List (Task K) × World K M :=
  match w.loop? l with
  | some s =>
    if s.owners = 1 then (s.queue.tasks, w.setLoop l { s with owners := 0, queue := .empty })
    else ([], w.setLoop l { s with owners := s.owners - 1 })
  | none => ([], w)

/-- Take the task of an event loop that is to run now. -/
def popLoop (w : World K M) (l : LoopId) : Option (Task K × Nat) × World K M :=
  match w.loop? l with
  | none => (none, w)
  | some s =>
    let (now, w) := w.readClock
    match s.queue.popDue now with
    | some (task, queue) =>
      (some (task, s.turns + 1), w.setLoop l { s with queue, turns := s.turns + 1 })
    | none => (none, w)

/-- The due time for which an event loop waits when nothing is due. -/
def nextDue (w : World K M) (l : LoopId) : Option Instant :=
  (w.loop? l).bind (·.queue.nextDue)

/-! ### Recording hosts -/

/-- The tasks of a recording host. -/
def queue (w : World K M) (q : QueueId) : List (Duration × Task K) :=
  w.queues[q.index]?.getD []

/-- There is a recording host of that name. -/
def hasQueue (w : World K M) (q : QueueId) : Bool := q.index < w.queues.size

def setQueue (w : World K M) (q : QueueId) (tasks : List (Duration × Task K)) : World K M :=
  { w with queues := w.queues.setIfInBounds q.index tasks }

/-- Add a recording host. -/
def openQueue (w : World K M) : QueueId × World K M :=
  (⟨w.queues.size⟩, { w with queues := w.queues.push [] })

/-- Take a task from a recording host, by its place. -/
def takeQueued (w : World K M) (q : QueueId) (place : Nat) : Option (Task K × World K M) :=
  match (w.queue q)[place]? with
  | some (_, task) => some (task, w.setQueue q ((w.queue q).eraseIdx place))
  | none => none

/-! ### Workers -/

/-- The worker of that name. -/
def worker? (w : World K M) (i : WorkerId) : Option (Worker (Task K)) := w.workers[i.index]?

def setWorker (w : World K M) (i : WorkerId) (s : Worker (Task K)) : World K M :=
  { w with workers := w.workers.setIfInBounds i.index s }

/-- Add a worker. -/
def openWorker (w : World K M) : WorkerId × World K M :=
  (⟨w.workers.size⟩, { w with workers := w.workers.push .spawned })

/-! ### Cells -/

/-- Add a cell. -/
def openCell (w : World K M) : CellId × World K M :=
  (⟨w.cells.size⟩, { w with cells := w.cells.push .vacant })

/-- What is left in a cell. -/
def cell (w : World K M) (c : CellId) : Cell K := w.cells[c.index]?.getD .vacant

def setCell (w : World K M) (c : CellId) (content : Cell K) : World K M :=
  { w with cells := w.cells.setIfInBounds c.index content }

/-- Something has been left in the cell that is wanted, if one is. -/
def isFilled (w : World K M) : Option CellId → Bool
  | none => false
  | some c =>
    match w.cell c with
    | .vacant => false
    | .signalled | .settled _ => true

/-- A number for a run that starts. -/
def nextRun (w : World K M) : RunId × World K M :=
  (⟨w.runs⟩, { w with runs := w.runs + 1 })

/-! ### Deferral -/

/-- A task with that delay cannot be handed to the host, because there is no such point in time as
its due time. An event loop that is gone computes none. -/
def overflows (w : World K M) : Host → Duration → Bool
  | .eventLoop l, delay => (w.loop? l).isSome && w.clock.endsWithin delay
  | .worker _, delay => w.clock.endsWithin delay
  | .recording _, _ | .discarding, _ => false

end World

end LazyEffects
