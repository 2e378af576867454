import LazyEffects.Scenario.Behaviour
import LazyEffects.Session.Machine

/-!
# Experiments

An experiment puts a scenario to the library and shows what can be seen of it: results, failures,
counters and the journal. Time passes only while someone waits.

* `inspect` looks at an effect without running it;
* `runOnLoop`, `runBlocking` and `runPolled` run an effect on the three kinds of hosts that the
  caller drives, and `runSlices` drives a bare trampoline;
* `runSession` takes steps on named objects and `runWorker` steps on one worker;
* `runTimers` works on a queue of timers.
-/

namespace LazyEffects.Scenario

/-- More moves than any experiment that ends within a lifetime takes. -/
def moves : Nat := 1 <<< 62

/-- What `main` answers as the client of a new session. -/
def explore (verbosity : Option Level) (main : Act Json) : Json :=
  let world : World codes Memory := .initial .still (.initial verbosity)
  let main : Act Unit := do
    let answer ← main
    Act.modify fun m => { m with answer }
  ((Machine.initial world main.run).run client moves).world.memory.answer

/-- Take the records out of the journal. -/
def takeJournal : Act (List Record) := do
  let records ← Act.read (·.journal)
  Act.modify fun m => { m with journal := [] }
  return records.reverse

/-- The journal since it was last taken, as it was written. -/
def takeLog : Act Json := return .arr ((← takeJournal).map Record.toJson)

/-- The journal since it was last taken, sorted. -/
def takeSortedLog : Act Json := return .arr (Record.sorted (← takeJournal))

/-- What `act` answers, or the panic that came out of it. -/
def shown (act : Act StepResult) : Act Json := do
  match ← act.attempt with
  | .ok r => return r.toJson
  | .error p => return panicJson p

/-! ### Effects -/

/-- What can be seen of an effect that is not run. -/
def inspect (r : Recipe) (withText : Bool) : Json :=
  let e := (r.build .null).root
  let texts :=
    if withText then
      [("debug", .str e.text), ("pretty", .str e.prettyText), ("node", .str e.chain)]
    else []
  .obj ([("kind", .str e.kind.label), ("depth", .int e.depth), ("log", .arr [])] ++ texts)

/-- Thread a value through functions from left to right. -/
def thread (x : Json) : List (List Instruction) → Act Json
  | [] => return x
  | f :: fs => do thread (← Instruction.applyAll .null x f) fs

/-- Thread a value through functions twice, and compare. -/
def runPipe (verbosity : Option Level) (x : Json) (fs : List (List Instruction)) : Json :=
  explore verbosity do
    match ← Act.attempt (do return (← thread x fs, ← thread x fs)) with
    | .ok (a, b) =>
      return .obj [("value", a), ("same", .bool (a == b)), ("log", ← takeLog)]
    | .error p => return panicJson p

/-! ### Runs -/

/-- A program with the type of its result. -/
abbrev Plan := Program typedCodes.erase

/-- The results that have been collected. -/
def collected : Act (List (String × Json)) := do
  let results ← Act.read (·.results)
  let failures ← Act.read (·.failures)
  return [
    ("done", .arr <| results.reverse.map fun (v, stats) =>
      .obj [("value", v), ("stats", statsJson stats)]),
    ("errors", .arr <| failures.reverse.map (outcomeJson ∘ .error))]

/-- A new event loop. -/
def newLoop : Act LoopId := do
  match ← Act.ask .openLoop with
  | .openedLoop l => return l
  | _ => return ⟨0⟩

/-- The counters of an event loop. -/
def loopCounters (l : LoopId) : Act (List (String × Json)) := do
  match ← Act.ask (.inspectLoop l) with
  | .loopState pending turns => return [("pending", .int pending), ("turns", .int turns)]
  | _ => return []

/-- Start a run on a new event loop and pump the loop until it is idle. -/
def startAndPump (config : Config) (program : Plan) :
    Act (List (String × Json) × List (String × Json)) := do
  let l ← newLoop
  let start : Act StepResult := do
    match ← Act.ask (.newRuntime (.eventLoop l) config (.client .collect)) with
    | .runtime rt => askFor (.start rt program .collect)
    | _ => return .ok
  let start ← shown start
  let idle ← shown (askFor (.runUntilIdle l))
  return ([("run", start), ("idle", idle)], ← loopCounters l)

/-- A run on an event loop, with callbacks. -/
def runOnLoop (verbosity : Option Level) (config : Config) (program : Plan) : Json :=
  explore verbosity do
    let (ends, counters) ← startAndPump config program
    return .obj (ends ++ (← collected) ++ counters ++ [("log", ← takeLog)])

/-- A run on an event loop that is pumped for the caller. -/
def runBlocking (verbosity : Option Level) (config : Config) (program : Plan) : Json :=
  explore verbosity do
    let l ← newLoop
    let result ← shown (askFor (.blockOn l config program))
    return .obj ([("result", result)] ++ (← loopCounters l) ++ [("log", ← takeLog)])

/-- The outcome of a run that is driven by polling. -/
def awaitPolled (config : Config) (program : Plan) : Act Json :=
  shown (askFor (.runAsync ⟨config, .start program.root, program.result⟩))

/-- A run that is driven by polling. -/
def runPolled (verbosity : Option Level) (config : Config) (program : Plan) : Json :=
  explore verbosity do
    let result ← awaitPolled config program
    return .obj [("result", result), ("log", ← takeLog)]

/-- How a slice of a bare evaluation ended. -/
def answerJson : Answer typedCodes.erase → Json
  | .completed v => .obj [("value", valueJson v)]
  | .suspended => .str "suspended"
  | .failed e => outcomeJson (.error e)
  | .unwound p => panicJson p

/-- Slices of a bare evaluation with these budgets. `reports` are those of earlier slices, the
latest first. -/
def slices (catching : Bool) (t : Trampoline typedCodes.erase) (reports : List Json) :
    List Nat → Act (List Json)
  | [] => return reports.reverse
  | budget :: budgets => do
    match ← Act.ask (.slice catching budget t) with
    | .sliced a t =>
      let report := .obj
        [("r", answerJson a), ("stats", statsJson t.stats), ("log", ← takeLog)]
      slices catching t (report :: reports) budgets
    | _ => return reports.reverse

/-- A bare evaluation, slice by slice. -/
def runSlices (verbosity : Option Level) (catching : Bool) (budgets : List Nat) (r : Recipe) :
    Json :=
  explore verbosity do
    return .obj [("slices", .arr (← slices catching (.start r.program.root) [] budgets))]

/-! ### Chains over several types -/

/-- A stage of a chain that changes types. -/
inductive Link where
  | map (input output : Ty)
  | flatMap (input output : Ty)

/-- A chain of stages over a leaf. Nothing makes consecutive stages agree on types. -/
def chainEffect (leaf : Ty) (value : Int64) (links : List Link) : Effect typedCodes.erase :=
  links.foldl (fun e link => match link with
      | .map a b => .map e ⟨a, b, .reweigh a b⟩
      | .flatMap a b => .flatMap e ⟨a, b, .reweigh a b⟩)
    (.sync ⟨leaf, .constant (leaf.ofNumber value)⟩)

/-- The hosts on which a chain is run. -/
inductive Place where
  | eventLoop
  | blocking
  | polled
  | worker
  deriving DecidableEq, Repr

/-- A worker of its own. -/
def newWorker : Act WorkerId := do
  match ← Act.ask .openWorker with
  | .openedWorker w => return w
  | _ => return ⟨0⟩

/-- A run of a chain. -/
def runChain (place : Place) (config : Config) (program : Plan) : Json :=
  explore none do
    match place with
    | .blocking => shown (askFor (.blockOn (← newLoop) config program))
    | .polled => awaitPolled config program
    | .worker => shown (askFor (.blockOnWorker (← newWorker) config program))
    | .eventLoop =>
      let (_, counters) ← startAndPump config program
      return .obj ((← collected) ++ counters.filter (·.1 = "turns"))

/-! ### Sessions -/

/-- What the objects of a session look like. -/
def stateJson : Act Json := do
  let loops ← Act.read (·.loops)
  let queues ← Act.read (·.queues)
  let loopStates ← loops.mapM fun (id, l) => do return (id, Json.obj (← loopCounters l))
  let queueStates ← queues.mapM fun (id, q) => do
    match ← Act.ask (.queuedDelays q) with
    | .delays ds =>
      let shownDelays := ds.map fun d => Json.str (toString d.millis)
      return (id, Json.obj [("delays", .arr shownDelays)])
    | _ => return (id, Json.null)
  return .obj (loopStates ++ queueStates)

/-- The records of a step are in order, except for those that the drop of an event loop makes. -/
def Step.takeLog : Step → Act Json
  | .dropLoop _ => takeSortedLog
  | _ => Scenario.takeLog

/-- Take steps, and show after each what it answered and what there is to see. `reports` are those
of earlier steps, the latest first. -/
def takeSteps (reports : List Json) : List Step → Act (List Json)
  | [] => return reports.reverse
  | step :: steps => do
    let r ← shown step.perform
    let log ← step.takeLog
    let report := .obj [("r", r), ("log", log), ("state", ← stateJson)]
    takeSteps (report :: reports) steps

/-- Put requests of which the answers do not matter, up to the first panic. -/
def askAll (rs : List (Request codes)) : Act Unit := rs.forM fun r => do let _ ← Act.ask r

/-- Give up everything: no name is known any more while tasks are dropped. -/
def dropEverything : Act Unit := do
  let queues ← Act.read (·.queues)
  let loops ← Act.read (·.loops)
  Act.modify fun m =>
    { m with futures := [], runtimes := [], queues := [], loops := [], handles := [],
             discarding := [] }
  let _ ← Act.attempt do
    askAll (queues.map fun (_, q) => .discardAll q)
    askAll (loops.map fun (_, l) => .releaseLoop l)

/-- A session of steps on named objects. -/
def runSession (verbosity : Option Level) (steps : List Step) : Json :=
  explore verbosity do
    let reports ← takeSteps [] steps
    dropEverything
    return .obj [("steps", .arr reports), ("end", ← takeSortedLog)]

/-! ### A worker -/

/-- A step on a worker. -/
inductive WorkerStep where
  | blockOn (config : Config) (r : Recipe)
  /-- Defer tasks with these names and wait until they have run. -/
  | defer (names : List Json)
  | turns
  /-- Start a run and do not wait for it. -/
  | run (name : Json) (config : Config) (r : Recipe)
  /-- Defer a task for a time that does not come. -/
  | farDefer
  /-- Stop the worker. -/
  | stop
  | unknown

/-- Do `act`, if there is still a worker. -/
def whilePresent (act : Act StepResult) : Act StepResult :=
  onFound (·.worker) fun _ => act

/-- Take a step on the worker `w`. Its handle may outlive it. -/
def WorkerStep.perform (w : WorkerId) : WorkerStep → Act StepResult
  | .blockOn config r => whilePresent <| askFor (.blockOnWorker w config r.program)
  | .defer names => whilePresent do
    askAll (names.map fun name => .defer (.worker w) .zero (.mk name [] none))
    askFor (.awaitWorker w)
  | .turns => whilePresent <| askFor (.workerTurns w)
  | .run name config r => do
    match ← Act.ask (.newRuntime (.worker w) config (.client (← newComplaints none []))) with
    | .runtime rt => askFor (.start rt r.program (.journal (.mk name true [] none)))
    | _ => return .ok
  | .farDefer =>
    askFor (.defer (.worker w) (.ofMillis 3600000) (.mk (.str "far") [] none))
  | .stop => whilePresent do
    Act.modify fun m => { m with worker := none }
    askFor (.stopWorker w)
  | .unknown => return .unknown

/-- The records of a step are in order, except for those that the end of the worker makes. -/
def WorkerStep.takeLog : WorkerStep → Act Json
  | .stop => takeSortedLog
  | _ => Scenario.takeLog

/-- The number of tasks that the worker has started, as long as there is one. -/
def turnsJson : Act Json := do
  match ← Act.read (·.worker) with
  | none => return .null
  | some w => return (← askFor (.workerTurns w)).toJson

/-- Take steps on the worker `w`, and show after each what it answered. `reports` are those of
earlier steps, the latest first. -/
def takeWorkerSteps (w : WorkerId) (reports : List Json) : List WorkerStep → Act (List Json)
  | [] => return reports.reverse
  | step :: steps => do
    let r ← shown (step.perform w)
    let log ← step.takeLog
    let report := .obj [("r", r), ("log", log), ("turns", ← turnsJson)]
    takeWorkerSteps w (report :: reports) steps

/-- A session of steps on one worker. -/
def runWorker (verbosity : Option Level) (steps : List WorkerStep) : Json :=
  explore verbosity do
    let w ← newWorker
    Act.modify fun m => { m with worker := some w }
    let reports ← takeWorkerSteps w [] steps
    let _ ← shown (WorkerStep.stop.perform w)
    return .obj [("steps", .arr reports), ("end", ← takeSortedLog)]

/-! ### Timers -/

/-- An operation on a queue of timers. -/
inductive TimerStep where
  | push (due : Instant) (name : Json)
  | pop (now : Instant)

/-- The queue after an operation, and what the operation answers. -/
def TimerStep.perform (q : TimerQueue Json) : TimerStep → Json × TimerQueue Json
  | .push due name => (.null, q.push due name)
  | .pop now =>
    match q.popDue now with
    | some (name, q) => (name, q)
    | none => (.bool false, q)

/-- Operations on a queue of timers, with its counters after each. -/
def runTimers (steps : List TimerStep) : Json :=
  let (_, reports) := steps.foldl (fun (q, reports) step =>
      let (r, q) := step.perform q
      (q, .obj [("r", r), ("len", .int q.size), ("empty", .bool q.isEmpty),
        ("next", q.nextDue.elim .null .int)] :: reports))
    ((.empty : TimerQueue Json), [])
  .obj [("steps", .arr reports.reverse)]

end LazyEffects.Scenario
