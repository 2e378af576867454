import LazyEffects.Session.World

/-!
# The machine of a session

A session runs on one thread of control. At every moment one thing is being done (`Focus`), and
below it lie the activities that wait for it to be over (`Activity`): client code that has put a
request, a loop that is being pumped, a queue whose tasks are being dropped. `Machine.step` is the
next move. It is total, and every move is small: the only unbounded thing is the number of moves.

A panic is an answer like any other. It travels down through the waiting activities: client code
gets to see it, a pump passes it on, and a worker dies of it.

* Between slices a run that has not been reported is held by exactly one `Task.resume`, and during a
  slice by exactly one activity or focus with the role `Role.slice`.
* A run is reported at the moments at which the focus is `Focus.complete` or `Focus.report`.
* A panic that leaves a slice takes the run with it: the run is not reported.
* Tasks that are dropped while a panic travels are forgotten, and what they own with them; those
  dropped otherwise give up what they own, and have their runs reported as abandoned.
-/

namespace LazyEffects

variable {K : Codes} {M : Type}

/-- What a script in execution is for. -/
inductive Role (K : Codes) where
  /-- A task, a completion callback or an error handler. -/
  | body
  /-- A slice of a run, which is given as it was before the slice. -/
  | slice (f : Fiber K)
  /-- A slice of a bare evaluation. -/
  | bare
  /-- A slice of a future, which is given as it was before the slice. -/
  | poll (f : Future K)

/-- What a script in a role ends with. -/
abbrev Role.Ending : Role K → Type
  | body => LazyEffects.Ending
  | slice _ => Answer K.signature × Trampoline K.signature
  | bare => Answer K.signature × Trampoline K.signature
  | poll _ => Answer K.signature × Trampoline K.signature

/-- Something that waits until what it has started is over. -/
inductive Activity (K : Codes) (M : Type) where
  /-- Client code that has put a request. -/
  | code (role : Role K) (next : Except Payload (Reply K) → Script K M role.Ending)
  /-- Answers that something was done. -/
  | affirming
  /-- Answers `r`, which was known before. -/
  | replying (r : Reply K)
  /-- Reports `e` afterwards. -/
  | noting (e : Event)
  /-- Pumps an event loop, having run `executed` tasks before the one that is running. -/
  | pumping (l : LoopId) (executed : Nat)
  /-- Starts to pump an event loop afterwards. -/
  | thenPump (l : LoopId)
  /-- Holds an ownership of an event loop until then. -/
  | sharing (l : LoopId)
  /-- Answers the outcome that is left in a cell. -/
  | reporting (c : CellId)
  /-- Answers whether a cell has been marked. -/
  | reportingSignal (c : CellId)
  /-- Drops the tasks `rest` afterwards. -/
  | dropping (rest : List (Task K))
  /-- Drives a future. -/
  | driving
  /-- Waits for the thread of a worker afterwards: until the cell is filled, or until it ends. -/
  | thenWork (w : WorkerId) (wanted : Option CellId)
  /-- The thread of a worker runs a task while someone waits for it. -/
  | working (w : WorkerId) (wanted : Option CellId)
  /-- The thread of a worker drops the tasks of its queue. -/
  | stopping (w : WorkerId) (wanted : Option CellId)
  /-- Someone waits until the thread of a worker has ended. -/
  | joining (w : WorkerId)

/-- What is being done. -/
inductive Focus (K : Codes) (M : Type) where
  | script (role : Role K) (s : Script K M role.Ending)
  | request (r : Request K)
  /-- Something is over; the topmost activity learns how it ended. -/
  | answer (a : Except Payload (Reply K))
  /-- Run the next slice of a run. -/
  | resume (f : Fiber K)
  | begin (t : Task K)
  /-- Report a run by handing over its result. -/
  | complete (run : Run K) (v : K.signature.Value) (stats : Stats)
  /-- Report a run by handing over its failure. -/
  | report (run : Run K) (e : RunError)
  | defer (host : Host) (delay : Duration) (task : Task K)
  /-- Drop tasks, one after the other. -/
  | drop (tasks : List (Task K))
  /-- Go on pumping an event loop that has run `executed` tasks. -/
  | pump (l : LoopId) (executed : Nat)
  | poll (f : Future K)
  /-- Let the thread of a worker go on until the cell is filled, or until it ends. -/
  | work (w : WorkerId) (wanted : Option CellId)

/-- A session in progress. -/
structure Machine (K : Codes) (M : Type) where
  world : World K M
  /-- The waiting activities, the topmost first. -/
  control : List (Activity K M)
  focus : Focus K M

namespace Machine

/-- Do `focus` next. -/
def go (m : Machine K M) (world : World K M) (focus : Focus K M) : Machine K M :=
  { m with world, focus }

/-- Do `focus` next, and come back to the activities `above` when it is over. -/
def call (m : Machine K M) (above : List (Activity K M)) (world : World K M)
    (focus : Focus K M) : Machine K M :=
  { world, control := above ++ m.control, focus }

/-- Answer `r` to the topmost activity. -/
def reply (m : Machine K M) (world : World K M) (r : Reply K) : Machine K M :=
  m.go world (.answer (.ok r))

section

variable (m : Machine K M) (above : List (Activity K M)) (w : World K M) (focus : Focus K M)
  (r : Reply K)

@[simp] theorem go_world : (m.go w focus).world = w := rfl

@[simp] theorem go_control : (m.go w focus).control = m.control := rfl

@[simp] theorem go_focus : (m.go w focus).focus = focus := rfl

@[simp] theorem reply_world : (m.reply w r).world = w := rfl

@[simp] theorem reply_control : (m.reply w r).control = m.control := rfl

@[simp] theorem reply_focus : (m.reply w r).focus = .answer (.ok r) := rfl

@[simp] theorem call_world : (m.call above w focus).world = w := rfl

@[simp] theorem call_control : (m.call above w focus).control = above ++ m.control := rfl

@[simp] theorem call_focus : (m.call above w focus).focus = focus := rfl

end

variable (client : Client K M)

/-! ### Runs -/

/-- Report a budget of zero, which is raised to one. -/
def noteBudget (config : Config) (w : World K M) : World K M :=
  if config.stepBudget = 0 then w.observe client .budgetRaised else w

/-- Start a run: its first slice is next. -/
def launch (m : Machine K M) (above : List (Activity K M)) (w : World K M) (host : Host)
    (config : Config) (recipient : Recipient K) (program : Program K.signature) : Machine K M :=
  let (id, w) := w.nextRun
  m.call above (w.observe client (.runStarted program.root.kind)) <|
    .resume ⟨⟨id, program.result, recipient, host, config⟩, .start program.root⟩

/-- Hand over a result. -/
def complete (m : Machine K M) (run : Run K) (v : K.signature.Value) (stats : Stats) :
    Machine K M :=
  match run.recipient with
  | .callbacks c _ => m.go m.world (.script .body (client.completion c v stats))
  | .cell c => m.reply (m.world.setCell c (.settled (.ok v))) .done

/-- What follows a slice of a run. -/
def afterSlice (m : Machine K M) (f : Fiber K) (a : Answer K.signature)
    (t : Trampoline K.signature) : Machine K M :=
  match a with
  | .suspended =>
    m.go m.world (.defer f.run.host f.run.config.resumeDelay (.resume ⟨f.run, t⟩))
  | .completed v =>
    let w := m.world.observe client (.runCompleted t.stats.steps t.stats.suspensions)
    m.go w <|
      if K.signature.typeOf v = f.run.result then .complete f.run v t.stats
      else .report f.run (.typeMismatch (K.signature.typeName f.run.result))
  | .failed e => m.go (m.world.observe client (.runFailed e)) (.report f.run e)
  | .unwound p => m.go m.world (.answer (.error p))

/-- What follows a slice of a future. -/
def afterPoll (m : Machine K M) (f : Future K) (a : Answer K.signature)
    (t : Trampoline K.signature) : Machine K M :=
  match a with
  | .suspended => m.reply m.world (.pending { f with trampoline := t })
  | .completed v =>
    let w := m.world.observe client (.asyncCompleted t.stats.steps t.stats.suspensions)
    m.reply w <| .settled <|
      if K.signature.typeOf v = f.result then .ok v
      else .error (.typeMismatch (K.signature.typeName f.result))
  | .failed e => m.reply m.world (.settled (.error e))
  | .unwound p => m.go m.world (.answer (.error p))

/-- What follows a script. -/
def finish (m : Machine K M) : (role : Role K) → role.Ending → Machine K M
  | .body, .ok () => m.reply m.world .done
  | .body, .error p => m.go m.world (.answer (.error p))
  | .slice f, (a, t) => m.afterSlice client f a t
  | .bare, (a, t) => m.reply m.world (.sliced a t)
  | .poll f, (a, t) => m.afterPoll client f a t

/-- Hand over a failure. -/
def report (m : Machine K M) (run : Run K) (e : RunError) : Machine K M :=
  match run.recipient with
  | .callbacks _ .log => m.reply (m.world.observe client (.runUnhandled e)) .done
  | .callbacks _ (.client h) => m.go m.world (.script .body (client.handler h e))
  | .cell c => m.reply (m.world.setCell c (.settled (.error e))) .done

/-! ### Tasks -/

/-- Run a task. -/
def begin (m : Machine K M) (t : Task K) : Machine K M :=
  match t with
  | .resume f => m.go m.world (.resume f)
  | .client t => m.go m.world (.script .body (client.task t))
  | .signal c => m.reply (m.world.setCell c .signalled) .done

/-- Hand a task to a host. A host that is gone drops it. -/
def handOver (m : Machine K M) (host : Host) (delay : Duration) (task : Task K) : Machine K M :=
  match host with
  | .eventLoop l =>
    match m.world.loop? l with
    | some s =>
      let (now, w) := m.world.readClock
      let queue := s.queue.push (now + delay.nanos) task
      let w := w.setLoop l { s with queue }
      m.reply (w.observe client (.taskDeferred delay queue.size)) .done
    | none => m.go (m.world.observe client .loopGone) (.drop [task])
  | .recording q =>
    if m.world.hasQueue q then
      m.reply (m.world.setQueue q (m.world.queue q ++ [(delay, task)])) .done
    else m.go m.world (.drop [task])
  | .discarding => m.go m.world (.drop [task])
  | .worker i =>
    let (now, w) := m.world.readClock
    match (w.worker? i).filter (·.accepts) with
    | some s => m.reply (w.setWorker i (s.send (.submit (now + delay.nanos) task))) .done
    | none => m.call [.noting .workerGone] w (.drop [task])

/-- What a host panics with that cannot compute a due time. -/
def overflow : Payload := .text "overflow when adding duration to instant"

/-- Defer a task to a host. If there is no such point in time as its due time, the host panics, and
the task is lost. -/
def defer (m : Machine K M) (host : Host) (delay : Duration) (task : Task K) : Machine K M :=
  if m.world.overflows host delay then m.go m.world.readClock.2 (.answer (.error overflow))
  else m.handOver client host delay task

/-- Drop tasks, with what they own. A run that is dropped is reported as abandoned. -/
def drop (m : Machine K M) : List (Task K) → Machine K M
  | [] => m.reply m.world .done
  | .resume f :: rest =>
    m.call [.dropping rest] (m.world.observe client .runDropped)
      (.report f.run .abandoned)
  | .client t :: rest => m.call [.dropping rest] m.world (.script .body (client.discard t))
  | .signal _ :: rest => m.go m.world (.drop rest)

/-- One round of pumping: run the task that is ahead of all others if it is due, else wait for it,
and end when there is none. -/
def pump (m : Machine K M) (l : LoopId) (executed : Nat) : Machine K M :=
  match m.world.popLoop l with
  | (some (task, turn), w) =>
    m.call [.pumping l executed] (w.observe client (.taskStarted turn)) (.begin task)
  | (none, w) =>
    match w.nextDue l with
    | some due => m.go (w.sleepUntil due) (.pump l executed)
    | none => m.reply w (.count executed)

/-! ### Workers -/

/-- One move of the thread of a worker, while someone waits for it. -/
def work (m : Machine K M) (i : WorkerId) (wanted : Option CellId) : Machine K M :=
  match (m.world.worker? i).filter (·.phase = .running) with
  | none => m.reply m.world .done
  | some s =>
    if m.world.isFilled wanted then m.reply m.world .done
    else
      let (now, w) := m.world.readClock
      match s.popDue now with
      | some (task, s) =>
        m.call [.working i wanted]
          ((w.setWorker i s).observe client (.workerTaskStarted s.turns)) (.begin task)
      | none =>
        match s.receive with
        | some s =>
          if s.phase = .running then m.go (w.setWorker i s) (.work i wanted)
          else
            let (tasks, s') := s.dropTimers
            let w := w.setWorker i s'
            let w := if tasks.isEmpty then w
              else w.observe client (.workerStopping tasks.length)
            m.call [.stopping i wanted] w (.drop tasks)
        | none =>
          match s.timers.nextDue with
          | some due => m.go (w.sleepUntil due) (.work i wanted)
          | none => m.reply w .done

/-- The thread of a worker dies of a panic. -/
def crash (w : World K M) (i : WorkerId) : World K M :=
  match w.worker? i with
  | some s => w.setWorker i s.crash
  | none => w

/-! ### Requests -/

/-- Take up a request. -/
def perform (m : Machine K M) : Request K → Machine K M
  | .openLoop => let (l, w) := m.world.openLoop; m.reply w (.openedLoop l)
  | .shareLoop l => m.reply (m.world.share l) .done
  | .releaseLoop l => let (tasks, w) := m.world.release l; m.go w (.drop tasks)
  | .inspectLoop l =>
    m.reply m.world <| match m.world.loop? l with
      | some s => .loopState s.queue.size s.turns
      | none => .loopState 0 0
  | .turn l =>
    match (m.world.share l).popLoop l with
    | (some (task, turn), w) =>
      m.call [.affirming, .sharing l] (w.observe client (.taskStarted turn)) (.begin task)
    | (none, w) => m.call [.sharing l] w (.answer (.ok (.flag false)))
  | .runUntilIdle l => m.call [.sharing l] (m.world.share l) (.pump l 0)
  | .blockOn l config program =>
    let (c, w) := (m.world.share l).openCell
    m.launch client [.thenPump l, .reporting c, .sharing l] (noteBudget client config w)
      (.eventLoop l) config.progressing (.cell c) program
  | .openQueue => let (q, w) := m.world.openQueue; m.reply w (.openedQueue q)
  | .queuedDelays q => m.reply m.world (.delays ((m.world.queue q).map Prod.fst))
  | .fire q place =>
    match m.world.takeQueued q place with
    | some (task, w) => m.call [.affirming] w (.begin task)
    | none => m.reply m.world (.flag false)
  | .discard q place =>
    match m.world.takeQueued q place with
    | some (task, w) => m.call [.affirming] w (.drop [task])
    | none => m.reply m.world (.flag false)
  | .discardAll q =>
    m.go (m.world.setQueue q []) (.drop ((m.world.queue q).map Prod.snd))
  | .newRuntime host config onError =>
    m.reply (noteBudget client config m.world) (.runtime ⟨host, config.progressing, onError⟩)
  | .start runtime program c =>
    m.launch client [] m.world runtime.host runtime.config (.callbacks c runtime.onError) program
  | .defer host delay task => m.go m.world (.defer host delay (.client task))
  | .slice catching budget t =>
    m.go m.world (.script .bare (t.runSlice client.functions catching budget))
  | .poll f => m.go m.world (.poll f)
  | .runAsync f => m.call [.driving] m.world (.poll f)
  | .openWorker => let (i, w) := m.world.openWorker; m.reply w (.openedWorker i)
  | .workerTurns i => m.reply m.world (.count ((m.world.worker? i).elim 0 Worker.turns))
  | .blockOnWorker i config program =>
    let (c, w) := m.world.openCell
    m.launch client [.thenWork i (some c), .reporting c] (noteBudget client config w)
      (.worker i) config.progressing (.cell c) program
  | .awaitWorker i =>
    let (c, w) := m.world.openCell
    m.call [.thenWork i (some c), .reportingSignal c] w (.defer (.worker i) .zero (.signal c))
  | .stopWorker i =>
    match (m.world.worker? i).filter (·.accepts) with
    | some s => m.call [.joining i] (m.world.setWorker i (s.send .shutdown)) (.work i none)
    | none => m.call [.joining i] m.world (.answer (.ok .done))

/-! ### Answers -/

/-- An activity learns that what it waited for has returned. -/
def returnTo (m : Machine K M) (r : Reply K) : Activity K M → Machine K M
  | .code role next => m.go m.world (.script role (next (.ok r)))
  | .affirming => m.reply m.world (.flag true)
  | .replying r => m.reply m.world r
  | .noting e => m.reply (m.world.observe client e) r
  | .pumping l executed => m.go m.world (.pump l (executed + 1))
  | .thenPump l => m.go m.world (.pump l 0)
  | .sharing l => let (tasks, w) := m.world.release l; m.call [.replying r] w (.drop tasks)
  | .reporting c =>
    m.reply m.world <| .settled <| match m.world.cell c with
      | .settled r => r
      | .vacant | .signalled => .error .abandoned
  | .reportingSignal c => m.reply m.world (.flag (m.world.isFilled (some c)))
  | .dropping rest => m.go m.world (.drop rest)
  | .driving =>
    match r with
    | .pending f =>
      let (now, w) := m.world.readClock
      m.call [.driving] (w.sleepUntil (now + f.config.resumeDelay.nanos)) (.poll f)
    | r => m.reply m.world r
  | .thenWork i wanted => m.go m.world (.work i wanted)
  | .working i wanted => m.go m.world (.work i wanted)
  | .stopping i wanted =>
    match m.world.worker? i with
    | some s =>
      let (tasks, s) := s.close
      m.call [.working i wanted] (m.world.setWorker i s) (.drop tasks)
    | none => m.reply m.world .done
  | .joining i =>
    let isCrashed := (m.world.worker? i).any (·.phase = .crashed)
    m.reply (if isCrashed then m.world.observe client .workerPanicked else m.world) .done

/-- An activity learns that what it waited for has panicked. Client code may go on; the others
pass the panic on, except for a worker's thread, which dies of it. -/
def unwindTo (m : Machine K M) (p : Payload) : Activity K M → Machine K M
  | .code role next => m.go m.world (.script role (next (.error p)))
  | .sharing l => m.go (m.world.release l).2 (.answer (.error p))
  | .working i wanted | .stopping i wanted => m.go (crash m.world i) (.work i wanted)
  | _ => m.go m.world (.answer (.error p))

/-- The next move, or none if the session is over. -/
def step (m : Machine K M) : Option (Machine K M) :=
  match m.focus with
  | .script role (.done x) => some (m.finish client role x)
  | .script role (.update f next) =>
    let memory := f m.world.memory
    some (m.go { m.world with memory } (.script role (next memory)))
  | .script role (.ask r next) => some (m.call [.code role next] m.world (.request r))
  | .request r => some (m.perform client r)
  | .resume f =>
    some <| m.go m.world <| .script (.slice f) <|
      f.trampoline.runSlice client.functions f.run.config.catchPanics f.run.config.stepBudget
  | .begin t => some (m.begin client t)
  | .complete run v stats => some (m.complete client run v stats)
  | .report run e => some (m.report client run e)
  | .defer host delay task => some (m.defer client host delay task)
  | .drop tasks => some (m.drop client tasks)
  | .pump l executed => some (m.pump client l executed)
  | .poll f =>
    some <| m.go m.world <| .script (.poll f) <|
      f.trampoline.runSlice client.functions f.config.catchPanics (max f.config.stepBudget 1)
  | .work i wanted => some (m.work client i wanted)
  | .answer a =>
    match m.control, a with
    | [], _ => none
    | activity :: control, .ok r => some ({ m with control }.returnTo client r activity)
    | activity :: control, .error p => some ({ m with control }.unwindTo p activity)

/-- The session after at most `fuel` moves. -/
def run : (fuel : Nat) → Machine K M → Machine K M
  | 0, m => m
  | fuel + 1, m =>
    match m.step client with
    | none => m
    | some m => run fuel m

/-- A session in which nothing has happened but that `main` is about to begin. -/
def initial (world : World K M) (main : Script K M Ending) : Machine K M :=
  ⟨world, [], .script .body main⟩

end Machine

end LazyEffects
