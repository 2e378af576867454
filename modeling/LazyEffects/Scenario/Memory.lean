import LazyEffects.Scenario.Record

/-!
# The memory of a scenario

The named objects of a session, the journal, and what collecting receivers have received.
-/

namespace LazyEffects.Scenario

/-- Things with names, in the order of their names. -/
abbrev Names (α : Type) := List (String × α)

namespace Names

variable {α : Type}

def get? (names : Names α) (id : String) : Option α := names.lookup id

def erase (names : Names α) (id : String) : Names α := names.filter (·.1 != id)

/-- Give `a` the name `id`, which may have been the name of something else. -/
def insert (names : Names α) (id : String) (a : α) : Names α :=
  let others := names.erase id
  others.takeWhile (·.1 < id) ++ (id, a) :: others.dropWhile (·.1 < id)

end Names

/-- What a scenario remembers. -/
structure Memory where
  /-- The records since the journal was last taken, the newest first. -/
  journal : List Record
  /-- The least severe level of events that are recorded. -/
  verbosity : Option Level
  /-- The event loops owned. -/
  loops : Names LoopId
  /-- The event loops as hosts. These names outlive the ownership. -/
  handles : Names LoopId
  /-- The recording hosts. -/
  queues : Names QueueId
  /-- The names of discarding hosts. -/
  discarding : Names Unit
  runtimes : Names (Runtime codes)
  futures : Names (Future codes)
  worker : Option WorkerId
  /-- How often each recording error handler has been called. -/
  calls : Array Nat
  /-- The results collected, the latest first. -/
  results : List (Json × Stats)
  /-- The failures collected, the latest first. -/
  failures : List RunError
  /-- What the experiment has found. -/
  answer : Json

namespace Memory

/-- The memory of a scenario that has not begun. -/
def initial (verbosity : Option Level) : Memory where
  journal := []
  verbosity
  loops := []
  handles := []
  queues := []
  discarding := []
  runtimes := []
  futures := []
  worker := none
  calls := #[]
  results := []
  failures := []
  answer := .null

/-- Add a record to the journal. -/
def record (r : Record) (m : Memory) : Memory := { m with journal := r :: m.journal }

/-- Record an event, if it is severe enough. -/
def observe (e : Event) (m : Memory) : Memory :=
  match m.verbosity with
  | some least => if e.level.rank ≤ least.rank then m.record (.event e) else m
  | none => m

/-- Host of that name: an event loop, else one of the others. -/
def host? (m : Memory) (id : String) : Option Host :=
  (m.handles.get? id).map Host.eventLoop <|> (m.queues.get? id).map Host.recording <|>
    (m.discarding.get? id).map fun _ => Host.discarding

end Memory

end LazyEffects.Scenario
