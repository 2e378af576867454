import LazyEffects.Proofs.Contents
import LazyEffects.Session.Machine

/-!
# What moves leave alone

Most moves neither start a run nor write to a cell, and what they do to the memory of the client is
to hand events to it (`World.Keeps`). The exceptions are few, and each is told by what the machine
is doing.

* `Machine.step_frames`: runs are numbered as they start, a cell is written to by the report of a
  run or by a task that marks it, and only client code works on the client's memory;
* `Machine.step_suffix`: the activities that wait go on waiting, except for the topmost when it is
  answered.
-/

namespace LazyEffects

variable {K : Codes} {M : Type}

/-- The memory of a client after some events. -/
def Client.observeAll (client : Client K M) (events : List Event) (memory : M) : M :=
  events.foldl (fun memory e => client.observe e memory) memory

/-- The run that a request starts, if it starts one. -/
@[simp]
def Request.starts (w : World K M) : Request K → List (Run K)
  | start runtime program c =>
    [⟨⟨w.runs⟩, program.result, .callbacks c runtime.onError, runtime.host, runtime.config⟩]
  | blockOn l config program =>
    [⟨⟨w.runs⟩, program.result, .cell ⟨w.cells.size⟩, .eventLoop l, config.progressing⟩]
  | blockOnWorker i config program =>
    [⟨⟨w.runs⟩, program.result, .cell ⟨w.cells.size⟩, .worker i, config.progressing⟩]
  | _ => []

/-- The recipient is the given cell. -/
def Recipient.isCell (c : CellId) : Recipient K → Bool
  | callbacks _ _ => false
  | cell c' => c' = c

namespace World

variable (client : Client K M) {w w' w'' : World K M}

/-- No run has been started and no cell written to, and the client has been handed events only. -/
structure Keeps (w w' : World K M) : Prop where
  runs : w'.runs = w.runs
  cells : w.cells.size ≤ w'.cells.size
  cell (c : CellId) : w'.cell c = w.cell c
  memory : ∃ events, w'.memory = client.observeAll events w.memory

variable {client}

theorem Keeps.trans (h : w.Keeps client w') (h' : w'.Keeps client w'') : w.Keeps client w'' := by
  obtain ⟨l, hl⟩ := h.memory
  obtain ⟨l', hl'⟩ := h'.memory
  refine ⟨h'.runs.trans h.runs, h.cells.trans h'.cells, fun c => (h'.cell c).trans (h.cell c),
    l ++ l', ?_⟩
  rw [hl', hl, Client.observeAll, Client.observeAll, Client.observeAll, List.foldl_append]

theorem keeps_refl (w : World K M) : w.Keeps client w := ⟨rfl, le_rfl, fun _ => rfl, [], rfl⟩

theorem keeps_observe (e : Event) (w : World K M) : w.Keeps client (w.observe client e) :=
  ⟨rfl, le_rfl, fun _ => rfl, [e], rfl⟩

/-- A new cell is as vacant as one that is not there. -/
theorem keeps_openCell (w : World K M) : w.Keeps client w.openCell.2 where
  runs := rfl
  cells := by simp [openCell]
  cell c := by
    simp only [cell, openCell, Array.getElem?_push]
    split
    · rename_i hc
      simp [hc]
    · rfl
  memory := ⟨[], rfl⟩

theorem keeps_share (w : World K M) (l : LoopId) : w.Keeps client (w.share l) := by
  rw [share]
  split <;> exact ⟨rfl, le_rfl, fun _ => rfl, [], rfl⟩

theorem keeps_release (w : World K M) (l : LoopId) : w.Keeps client (w.release l).2 := by
  rw [release]
  split
  · split <;> exact ⟨rfl, le_rfl, fun _ => rfl, [], rfl⟩
  · exact keeps_refl w

theorem keeps_popLoop {l : LoopId} {x : Option (Task K × ℕ)} (h : w.popLoop l = (x, w')) :
    w.Keeps client w' := by
  cases hs : w.loop? l with
  | none =>
    simp only [popLoop, hs, Prod.mk.injEq] at h
    rw [← h.2]
    exact keeps_refl w
  | some s =>
    rw [popLoop_of_loop? hs] at h
    split at h <;> cases h <;> exact ⟨rfl, le_rfl, fun _ => rfl, [], rfl⟩

theorem keeps_takeQueued {q : QueueId} {place : ℕ} {t : Task K}
    (h : w.takeQueued q place = some (t, w')) : w.Keeps client w' := by
  rw [takeQueued] at h
  split at h
  · cases h
    exact ⟨rfl, le_rfl, fun _ => rfl, [], rfl⟩
  · cases h

end World

namespace Machine

variable {client : Client K M} {w : World K M} {m m' : Machine K M}

open World

variable (client) in
theorem keeps_noteBudget (config : Config) (w : World K M) :
    w.Keeps client (noteBudget client config w) := by
  rw [noteBudget]
  split
  · exact keeps_observe _ w
  · exact keeps_refl w

@[simp] theorem noteBudget_runs (config : Config) (w : World K M) :
    (noteBudget client config w).runs = w.runs :=
  (keeps_noteBudget client config w).runs

theorem keeps_crash (w : World K M) (i : WorkerId) : w.Keeps client (crash w i) := by
  rw [crash]
  split <;> exact ⟨rfl, le_rfl, fun _ => rfl, [], rfl⟩

theorem finish_keeps (m : Machine K M) (role : Role K) (x : role.Ending) :
    m.world.Keeps client (m.finish client role x).world := by
  cases role with
  | body => cases x <;> exact keeps_refl _
  | slice f =>
    obtain ⟨a, t⟩ := x
    cases a with
    | suspended => exact keeps_refl _
    | completed v => exact keeps_observe _ _
    | failed e => exact keeps_observe _ _
    | unwound p => exact keeps_refl _
  | bare => exact keeps_refl _
  | poll f =>
    obtain ⟨a, t⟩ := x
    cases a with
    | suspended => exact keeps_refl _
    | completed v => exact keeps_observe _ _
    | failed e => exact keeps_refl _
    | unwound p => exact keeps_refl _

variable (client) in
theorem handOver_keeps (m : Machine K M) (host : Host) (delay : Duration) (t : Task K) :
    m.world.Keeps client (m.handOver client host delay t).world := by
  unfold handOver
  split
  · split
    · exact ⟨rfl, le_rfl, fun _ => rfl, [_], rfl⟩
    · exact keeps_observe _ _
  · split <;> exact ⟨rfl, le_rfl, fun _ => rfl, [], rfl⟩
  · exact keeps_refl _
  · simp only
    split <;> exact ⟨rfl, le_rfl, fun _ => rfl, [], rfl⟩

theorem drop_keeps (m : Machine K M) (ts : List (Task K)) :
    m.world.Keeps client (m.drop client ts).world := by
  unfold drop
  split
  · exact keeps_refl _
  · exact keeps_observe _ _
  · exact keeps_refl _
  · exact keeps_refl _

theorem pump_keeps (m : Machine K M) (l : LoopId) (executed : ℕ) :
    m.world.Keeps client (m.pump client l executed).world := by
  rw [pump]
  split
  · rename_i t turn w' hw
    exact (keeps_popLoop hw).trans (keeps_observe _ _)
  · rename_i w' hw
    split
    · exact (keeps_popLoop hw).trans ⟨rfl, le_rfl, fun _ => rfl, [], rfl⟩
    · exact keeps_popLoop hw

theorem work_keeps (m : Machine K M) (i : WorkerId) (wanted : Option CellId) :
    m.world.Keeps client (m.work client i wanted).world := by
  rw [work]
  split
  · exact keeps_refl _
  · split
    · exact keeps_refl _
    · simp only
      split
      · exact ⟨rfl, le_rfl, fun _ => rfl, [_], rfl⟩
      · split
        · split
          · exact ⟨rfl, le_rfl, fun _ => rfl, [], rfl⟩
          · simp only [call_world]
            split
            · exact ⟨rfl, le_rfl, fun _ => rfl, [], rfl⟩
            · exact ⟨rfl, le_rfl, fun _ => rfl, [_], rfl⟩
        · split <;> exact ⟨rfl, le_rfl, fun _ => rfl, [], rfl⟩

theorem returnTo_keeps (m : Machine K M) (r : Reply K) (activity : Activity K M) :
    m.world.Keeps client (m.returnTo client r activity).world := by
  cases activity with
  | noting e => exact keeps_observe _ _
  | sharing l => exact keeps_release _ l
  | driving =>
    simp only [returnTo]
    split <;> exact ⟨rfl, le_rfl, fun _ => rfl, [], rfl⟩
  | stopping i wanted =>
    simp only [returnTo]
    split <;> exact ⟨rfl, le_rfl, fun _ => rfl, [], rfl⟩
  | joining i =>
    simp only [returnTo, reply_world]
    split
    · exact keeps_observe _ _
    · exact keeps_refl _
  | code | affirming | replying | pumping | thenPump | reporting | reportingSignal | dropping
  | thenWork | working => exact keeps_refl _

theorem unwindTo_keeps (m : Machine K M) (p : Payload) (activity : Activity K M) :
    m.world.Keeps client (m.unwindTo p activity).world := by
  cases activity with
  | sharing l => exact keeps_release _ l
  | working i wanted => exact keeps_crash _ i
  | stopping i wanted => exact keeps_crash _ i
  | code | affirming | replying | noting | pumping | thenPump | reporting | reportingSignal
  | dropping | driving | thenWork | joining => exact keeps_refl _

/-- The run that the next move starts, if it starts one. -/
@[simp]
def starts (m : Machine K M) : List (Run K) :=
  match m.focus with
  | .request r => r.starts m.world
  | _ => []

/-- Requests that do not start a run. -/
theorem perform_keeps (m : Machine K M) {r : Request K} (hs : r.starts m.world = []) :
    m.world.Keeps client (m.perform client r).world := by
  cases r with
  | openLoop | inspectLoop | openQueue | queuedDelays | discardAll | defer | slice | poll | runAsync
  | openWorker | workerTurns => exact ⟨rfl, le_rfl, fun _ => rfl, [], rfl⟩
  | shareLoop l => exact keeps_share _ l
  | releaseLoop l => exact keeps_release _ l
  | turn l =>
    simp only [perform]
    split
    · rename_i t turn w' hw
      exact (keeps_share _ l).trans ((keeps_popLoop hw).trans (keeps_observe _ _))
    · rename_i w' hw
      exact (keeps_share _ l).trans (keeps_popLoop hw)
  | runUntilIdle l => exact keeps_share _ l
  | fire q place =>
    simp only [perform]
    split
    · rename_i t w' hw
      exact keeps_takeQueued hw
    · exact keeps_refl _
  | discard q place =>
    simp only [perform]
    split
    · rename_i t w' hw
      exact keeps_takeQueued hw
    · exact keeps_refl _
  | newRuntime host config onError => exact keeps_noteBudget client config _
  | awaitWorker i => exact keeps_openCell _
  | stopWorker i =>
    simp only [perform]
    split <;> exact ⟨rfl, le_rfl, fun _ => rfl, [], rfl⟩
  | start | blockOn | blockOnWorker => simp at hs

/-- What the next move leaves in the cell `c`, if it writes to it. -/
@[simp]
def fills (m : Machine K M) (c : CellId) : Option (Cell K) :=
  match m.focus with
  | .complete run v _ => if run.recipient.isCell c then some (.settled (.ok v)) else none
  | .report run e => if run.recipient.isCell c then some (.settled (.error e)) else none
  | .begin (.signal c') => if c' = c then some .signalled else none
  | _ => none

/-- What a move does to the runs, the cells and the client's memory. -/
structure Frames (client : Client K M) (m m' : Machine K M) : Prop where
  runs : m'.world.runs = m.world.runs + m.starts.length
  cells : m.world.cells.size ≤ m'.world.cells.size
  cell (c : CellId) : c.index < m.world.cells.size →
    m'.world.cell c = (m.fills c).getD (m.world.cell c)
  memory : (∀ role f next, m.focus ≠ .script role (.update f next)) →
    ∃ events, m'.world.memory = client.observeAll events m.world.memory

/-- Moves that keep what there is. -/
theorem Frames.of_keeps (h : m.world.Keeps client m'.world) (hs : m.starts = [])
    (hf : ∀ c, m.fills c = none) : m.Frames client m' where
  runs := by rw [hs, List.length_nil, Nat.add_zero, h.runs]
  cells := h.cells
  cell c _ := by rw [hf c, Option.getD_none, h.cell c]
  memory _ := h.memory

/-- Writing to a cell. -/
theorem cell_setCell (w : World K M) {c : CellId} (hc : c.index < w.cells.size) (c' : CellId)
    (x : Cell K) : (w.setCell c' x).cell c = if c' = c then x else w.cell c := by
  by_cases h : c' = c
  · subst h
    simp [World.cell, World.setCell, hc]
  · have hne : c'.index ≠ c.index := fun he => h (CellId.ext he)
    simp [World.cell, World.setCell, h, hne]

theorem begin_frames (w : World K M) (control : List (Activity K M)) (t : Task K) :
    Frames client ⟨w, control, .begin t⟩ (begin client ⟨w, control, .begin t⟩ t) := by
  cases t with
  | resume f => exact .of_keeps (keeps_refl w) rfl fun _ => rfl
  | client t => exact .of_keeps (keeps_refl w) rfl fun _ => rfl
  | signal c =>
    refine ⟨rfl, ?_, fun c' hc => ?_, fun _ => ⟨[], rfl⟩⟩
    · simp [begin, setCell]
    · simp only [begin, reply_world, cell_setCell w hc, fills]
      split <;> rfl

theorem complete_frames (w : World K M) (control : List (Activity K M)) (run : Run K)
    (v : K.signature.Value) (stats : Stats) : Frames client ⟨w, control, .complete run v stats⟩
      (complete client ⟨w, control, .complete run v stats⟩ run v stats) := by
  rw [complete]
  split
  · rename_i c e hr
    exact .of_keeps (keeps_refl w) rfl fun _ => by simp [hr, Recipient.isCell]
  · rename_i c hr
    refine ⟨rfl, ?_, fun c' hc => ?_, fun _ => ⟨[], rfl⟩⟩
    · simp [setCell]
    · simp only [reply_world, cell_setCell w hc, fills, hr, Recipient.isCell, decide_eq_true_eq]
      split <;> rfl

theorem report_frames (w : World K M) (control : List (Activity K M)) (run : Run K)
    (e : RunError) : Frames client ⟨w, control, .report run e⟩
      (report client ⟨w, control, .report run e⟩ run e) := by
  rw [report]
  split
  · rename_i c hr
    exact .of_keeps (keeps_observe _ w) rfl fun _ => by simp [hr, Recipient.isCell]
  · rename_i c h hr
    exact .of_keeps (keeps_refl w) rfl fun _ => by simp [hr, Recipient.isCell]
  · rename_i c hr
    refine ⟨rfl, ?_, fun c' hc => ?_, fun _ => ⟨[], rfl⟩⟩
    · simp [setCell]
    · simp only [reply_world, cell_setCell w hc, fills, hr, Recipient.isCell, decide_eq_true_eq]
      split <;> rfl

/-- A run is numbered as it starts. -/
theorem launch_frames {w' : World K M} {control : List (Activity K M)} {r : Request K}
    (above : List (Activity K M)) (host : Host) (config : Config) (recipient : Recipient K)
    (program : Program K.signature) (hr : (r.starts w).length = 1) (hw : w.Keeps client w') :
    Frames client ⟨w, control, .request r⟩
      (launch client ⟨w, control, .request r⟩ above w' host config recipient program) where
  runs := by
    have hruns := hw.runs
    simp only [launch, call_world, nextRun, observe, starts, hr]
    omega
  cells := hw.cells
  cell c _ := hw.cell c
  memory _ := (hw.trans (keeps_observe (.runStarted program.root.kind) w')).memory

theorem perform_frames (w : World K M) (control : List (Activity K M)) (r : Request K) :
    Frames client ⟨w, control, .request r⟩ (perform client ⟨w, control, .request r⟩ r) := by
  by_cases hr : r.starts w = []
  · exact .of_keeps (perform_keeps _ hr) hr fun _ => rfl
  · cases r with
    | start runtime program c => exact launch_frames _ _ _ _ _ rfl (keeps_refl w)
    | blockOn l config program =>
      refine launch_frames _ _ _ _ _ rfl ?_
      exact (keeps_share w l).trans ((keeps_openCell _).trans (keeps_noteBudget client config _))
    | blockOnWorker i config program =>
      refine launch_frames _ _ _ _ _ rfl ?_
      exact (keeps_openCell w).trans (keeps_noteBudget client config _)
    | _ => exact absurd rfl hr

/-! ### The moves -/

theorem step_of_overflows {control : List (Activity K M)} {host : Host} {delay : Duration}
    {t : Task K} (h : w.overflows host delay = true) :
    step client ⟨w, control, .defer host delay t⟩ =
      some ⟨w.readClock.2, control, .answer (.error overflow)⟩ := by
  simp [step, defer, h, go]

theorem step_of_not_overflows {control : List (Activity K M)} {host : Host} {delay : Duration}
    {t : Task K} (h : w.overflows host delay = false) :
    step client ⟨w, control, .defer host delay t⟩ =
      some (handOver client ⟨w, control, .defer host delay t⟩ host delay t) := by
  simp [step, defer, h]

/-- The moves: a script is over, works on the memory or asks, a request is taken up, an answer
reaches the activity that waits for it, and so on with all that may be done next. -/
theorem step_induction {motive : (m m' : Machine K M) → m.step client = some m' → Prop}
    (finish : ∀ w control (role : Role K) (x : role.Ending), motive
      ⟨w, control, .script role (.done x)⟩
      (finish client ⟨w, control, .script role (.done x)⟩ role x) rfl)
    (update : ∀ w control (role : Role K) f next, motive
      ⟨w, control, .script role (.update f next)⟩
      ⟨{ w with memory := f w.memory }, control, .script role (next (f w.memory))⟩ rfl)
    (ask : ∀ w control (role : Role K) r next, motive ⟨w, control, .script role (.ask r next)⟩
      ⟨w, .code role next :: control, .request r⟩ rfl)
    (request : ∀ w control r, motive ⟨w, control, .request r⟩
      (perform client ⟨w, control, .request r⟩ r) rfl)
    (returned : ∀ w control activity r, motive ⟨w, activity :: control, .answer (.ok r)⟩
      (returnTo client ⟨w, control, .answer (.ok r)⟩ r activity) rfl)
    (panicked : ∀ w control activity p, motive ⟨w, activity :: control, .answer (.error p)⟩
      (unwindTo ⟨w, control, .answer (.error p)⟩ p activity) rfl)
    (resume : ∀ w control (f : Fiber K), motive ⟨w, control, .resume f⟩
      ⟨w, control, .script (.slice f) (f.trampoline.runSlice client.functions
        f.run.config.catchPanics f.run.config.stepBudget)⟩ rfl)
    (begin : ∀ w control t, motive ⟨w, control, .begin t⟩
      (begin client ⟨w, control, .begin t⟩ t) rfl)
    (complete : ∀ w control run v stats, motive ⟨w, control, .complete run v stats⟩
      (complete client ⟨w, control, .complete run v stats⟩ run v stats) rfl)
    (report : ∀ w control run e, motive ⟨w, control, .report run e⟩
      (report client ⟨w, control, .report run e⟩ run e) rfl)
    (overflow : ∀ w control host delay t (_ : w.overflows host delay = true) h,
      motive ⟨w, control, .defer host delay t⟩
        ⟨w.readClock.2, control, .answer (.error overflow)⟩ h)
    (handOver : ∀ w control host delay t (_ : w.overflows host delay = false) h,
      motive ⟨w, control, .defer host delay t⟩
        (handOver client ⟨w, control, .defer host delay t⟩ host delay t) h)
    (drop : ∀ w control ts, motive ⟨w, control, .drop ts⟩
      (drop client ⟨w, control, .drop ts⟩ ts) rfl)
    (pump : ∀ w control l executed, motive ⟨w, control, .pump l executed⟩
      (pump client ⟨w, control, .pump l executed⟩ l executed) rfl)
    (poll : ∀ w control (f : Future K), motive ⟨w, control, .poll f⟩
      ⟨w, control, .script (.poll f) (f.trampoline.runSlice client.functions
        f.config.catchPanics (max f.config.stepBudget 1))⟩ rfl)
    (work : ∀ w control i wanted, motive ⟨w, control, .work i wanted⟩
      (work client ⟨w, control, .work i wanted⟩ i wanted) rfl)
    {m m' : Machine K M} (h : m.step client = some m') : motive m m' h := by
  obtain ⟨w, control, focus⟩ := m
  cases focus with
  | script role s =>
    cases s with
    | done x =>
      cases h
      exact finish w control role x
    | update f next =>
      cases h
      exact update w control role f next
    | ask r next =>
      cases h
      exact ask w control role r next
  | request r =>
    cases h
    exact request w control r
  | answer a =>
    cases control with
    | nil => cases h
    | cons activity control =>
      cases a with
      | ok r =>
        cases h
        exact returned w control activity r
      | error p =>
        cases h
        exact panicked w control activity p
  | resume f =>
    cases h
    exact resume w control f
  | begin t =>
    cases h
    exact begin w control t
  | complete run v stats =>
    cases h
    exact complete w control run v stats
  | report run e =>
    cases h
    exact report w control run e
  | defer host delay t =>
    cases ho : w.overflows host delay with
    | true =>
      obtain rfl : _ = m' := Option.some.inj ((step_of_overflows ho).symm.trans h)
      exact overflow w control host delay t ho h
    | false =>
      obtain rfl : _ = m' := Option.some.inj ((step_of_not_overflows ho).symm.trans h)
      exact handOver w control host delay t ho h
  | drop ts =>
    cases h
    exact drop w control ts
  | pump l executed =>
    cases h
    exact pump w control l executed
  | poll f =>
    cases h
    exact poll w control f
  | work i wanted =>
    cases h
    exact work w control i wanted

theorem step_frames (h : m.step client = some m') : m.Frames client m' := by
  induction h using step_induction with
  | finish w control role x => exact .of_keeps (finish_keeps _ role x) rfl fun _ => rfl
  | update w control role f next =>
    exact ⟨rfl, le_rfl, fun _ _ => rfl, fun hne => absurd rfl (hne role f next)⟩
  | ask w => exact .of_keeps (keeps_refl w) rfl fun _ => rfl
  | request w control r => exact perform_frames w control r
  | returned w control activity r =>
    exact .of_keeps (returnTo_keeps ⟨w, control, _⟩ r activity) rfl fun _ => rfl
  | panicked w control activity p =>
    exact .of_keeps (unwindTo_keeps ⟨w, control, _⟩ p activity) rfl fun _ => rfl
  | resume w => exact .of_keeps (keeps_refl w) rfl fun _ => rfl
  | begin w control t => exact begin_frames w control t
  | complete w control run v stats => exact complete_frames w control run v stats
  | report w control run e => exact report_frames w control run e
  | overflow w => exact .of_keeps ⟨rfl, le_rfl, fun _ => rfl, [], rfl⟩ rfl fun _ => rfl
  | handOver w control host delay t =>
    exact .of_keeps (handOver_keeps client _ host delay t) rfl fun _ => rfl
  | drop w control ts => exact .of_keeps (drop_keeps _ ts) rfl fun _ => rfl
  | pump w control l executed => exact .of_keeps (pump_keeps _ l executed) rfl fun _ => rfl
  | poll w => exact .of_keeps (keeps_refl w) rfl fun _ => rfl
  | work w control i wanted => exact .of_keeps (work_keeps _ i wanted) rfl fun _ => rfl

/-! ### Activities that wait -/

theorem perform_suffix (m : Machine K M) (r : Request K) :
    m.control <:+ (m.perform client r).control := by
  cases r with
  | turn l =>
    simp only [perform]
    split <;> exact List.suffix_append _ _
  | fire q place =>
    simp only [perform]
    split
    · exact List.suffix_append _ _
    · exact List.suffix_refl _
  | discard q place =>
    simp only [perform]
    split
    · exact List.suffix_append _ _
    · exact List.suffix_refl _
  | stopWorker i =>
    simp only [perform]
    split <;> exact List.suffix_append _ _
  | runUntilIdle | blockOn | start | runAsync | blockOnWorker | awaitWorker =>
    exact List.suffix_append _ _
  | openLoop | shareLoop | releaseLoop | inspectLoop | openQueue | queuedDelays | discardAll
  | newRuntime | defer | slice | poll | openWorker | workerTurns => exact List.suffix_refl _

theorem returnTo_suffix (m : Machine K M) (r : Reply K) (activity : Activity K M) :
    m.control <:+ (m.returnTo client r activity).control := by
  cases activity <;> simp only [returnTo] <;> (try split) <;>
    first | exact List.suffix_refl _ | exact List.suffix_append _ _

/-- An activity waits until it is answered. -/
theorem step_suffix (h : m.step client = some m') :
    m.control <:+ m'.control ∨ ∃ activity control a, m.control = activity :: control ∧
      m.focus = .answer a ∧ control <:+ m'.control := by
  induction h using step_induction with
  | finish w control role x =>
    left
    cases role with
    | body => cases x <;> exact List.suffix_refl _
    | slice f =>
      obtain ⟨a, t⟩ := x
      cases a <;> exact List.suffix_refl _
    | bare => exact List.suffix_refl _
    | poll f =>
      obtain ⟨a, t⟩ := x
      cases a <;> exact List.suffix_refl _
  | update | resume | poll | overflow => exact .inl (List.suffix_refl _)
  | ask => exact .inl (List.suffix_cons _ _)
  | request w control r => exact .inl (perform_suffix _ r)
  | returned w control activity r =>
    exact .inr ⟨activity, control, _, rfl, rfl, returnTo_suffix ⟨w, control, _⟩ r activity⟩
  | panicked w control activity p =>
    refine .inr ⟨activity, control, _, rfl, rfl, ?_⟩
    cases activity <;> exact List.suffix_refl _
  | begin w control t => cases t <;> exact .inl (List.suffix_refl _)
  | complete =>
    simp only [complete]
    split <;> exact .inl (List.suffix_refl _)
  | report =>
    simp only [report]
    split <;> exact .inl (List.suffix_refl _)
  | handOver w control host delay t =>
    left
    cases host with
    | eventLoop l =>
      simp only [handOver]
      split <;> exact List.suffix_refl _
    | recording q =>
      simp only [handOver]
      split <;> exact List.suffix_refl _
    | discarding => exact List.suffix_refl _
    | worker i =>
      simp only [handOver]
      split
      · exact List.suffix_refl _
      · exact List.suffix_append _ _
  | drop w control ts =>
    left
    cases ts with
    | nil => exact List.suffix_refl _
    | cons t rest =>
      cases t with
      | resume f => exact List.suffix_append _ _
      | client t => exact List.suffix_append _ _
      | signal c => exact List.suffix_refl _
  | pump w control l executed =>
    left
    simp only [pump]
    split
    · exact List.suffix_append _ _
    · split <;> exact List.suffix_refl _
  | work w control i wanted =>
    left
    rw [work]
    split
    · exact List.suffix_refl _
    · split
      · exact List.suffix_refl _
      · simp only
        split
        · exact List.suffix_append _ _
        · split
          · split
            · exact List.suffix_refl _
            · exact List.suffix_append _ _
          · split <;> exact List.suffix_refl _

end Machine

end LazyEffects
