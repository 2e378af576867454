import LazyEffects.Proofs.Chain
import LazyEffects.Proofs.Pumping

/-!
# Sessions of demonstrations

A demonstration opens a host, asks it for the outcome of a program and closes it again. In between
one run is evaluated, slice by slice, and nothing else happens. So there is one world, up to the
clock and the number of resumptions, in which a slice begins (`Demo.Place.world`), and from slice to
slice the number of resumptions grows by one.

* `Machine.Within`: the machine gets somewhere in so many moves or fewer;
* `Demo.within_request`: from the request to the first slice;
* `Demo.within_slice`: from the beginning of a slice to its end, if it does nothing but wait;
* `Demo.within_suspended`: from the end of a slice to the next;
* `Demo.within_settled`: from the end of the last slice to the outcome;
* `Demo.within_session`: what comes before and after.
-/

namespace LazyEffects

variable {K : Codes} {M : Type}

namespace Machine

variable {client : Client K M} {m m' m'' : Machine K M}

/-- The machine gets from `m` to `m'` in `n` moves or fewer. -/
def Within (client : Client K M) (n : ℕ) (m m' : Machine K M) : Prop :=
  ∃ j ≤ n, m.run client j = m'

namespace Within

variable {n n' : ℕ}

theorem refl (m : Machine K M) : Within client 0 m m := ⟨0, Nat.le_refl 0, rfl⟩

theorem trans (h : Within client n m m') (h' : Within client n' m' m'') :
    Within client (n + n') m m'' := by
  obtain ⟨j, hj, rfl⟩ := h
  obtain ⟨j', hj', rfl⟩ := h'
  exact ⟨j + j', Nat.add_le_add hj hj', run_add m j j'⟩

theorem head (hs : m.step client = some m') (h : Within client n m' m'') :
    Within client (n + 1) m m'' := by
  obtain ⟨j, hj, rfl⟩ := h
  refine ⟨j + 1, Nat.succ_le_succ hj, ?_⟩
  rw [run, hs]

theorem mono (h : Within client n m m') (hn : n ≤ n') : Within client n' m m' := by
  obtain ⟨j, hj, hm⟩ := h
  exact ⟨j, hj.trans hn, hm⟩

end Within

/-- A script that does nothing but wait takes as many moves as it waits for. -/
theorem within_idle {w : World K M} {control : List (Activity K M)} {role : Role K} (n : ℕ)
    (s : Script K M role.Ending) :
    Within client n ⟨w, control, .script role (.idle n s)⟩ ⟨w, control, .script role s⟩ := by
  induction n with
  | zero => exact .refl _
  | succ n ih => exact .head rfl ih

end Machine

/-- The clock, when one begins what is due at `due` who has waited for that point in time if it had
not come. -/
def Clock.awaiting (c : Clock) (due : Instant) : Clock :=
  if due ≤ c.read.1 then c.read.2 else (c.read.2.sleepUntil due).read.2

namespace Clock

/-- The clock shows `now`, and moves only while someone waits. -/
structure Still (c : Clock) (now : Instant) : Prop where
  drift : c.drift = still.drift
  last : c.last = still.last
  now : c.now = now

namespace Still

variable {c : Clock} {now due : Instant}

theorem read_fst (h : c.Still now) : c.read.1 = now := by
  have hzero : c.drift c.readings = 0 := by
    rw [h.drift]
    rfl
  rw [read, hzero, h.now]
  exact Int.add_zero now

theorem read (h : c.Still now) : c.read.2.Still now := ⟨h.drift, h.last, h.read_fst⟩

theorem sleepUntil (h : c.Still now) (hle : now ≤ due) : (c.sleepUntil due).Still due :=
  ⟨h.drift, h.last, by rw [Clock.sleepUntil, h.now, max_eq_right hle]⟩

theorem awaiting (h : c.Still now) (hle : now ≤ due) : (c.awaiting due).Still due := by
  rw [Clock.awaiting, h.read_fst]
  split
  · rename_i hge
    rw [le_antisymm hge hle]
    exact h.read
  · exact (h.read.sleepUntil hle).read

end Still

end Clock

namespace TimerQueue

variable {τ : Type}

/-- A task that comes into an empty queue. -/
theorem push_vacant (k : ℕ) (due : Instant) (task : τ) :
    (⟨#[], k⟩ : TimerQueue τ).push due task = ⟨#[⟨due, k, task⟩], k + 1⟩ := by
  simp [push, siftUp]

/-- The only task of a queue. -/
theorem popDue_single (k : ℕ) (timer : Timer τ) (now : Instant) :
    (⟨#[timer], k⟩ : TimerQueue τ).popDue now =
      if timer.due ≤ now then some (timer.task, ⟨#[], k⟩) else none := by
  simp [popDue, dropRoot]

end TimerQueue

namespace Demo

open Machine

/-- A session in which a program is run on a host, with the time going by as `clock` says. -/
def session (place : Place) (config : Config) (choice : Choice) (clock : Clock)
    (draws : List Float) : Machine codes Memory :=
  .initial (.initial clock ⟨draws, none⟩) do
    let report ← perform config choice.program.toProgram place
    Script.modify fun m => { m with report := some report }
    return .ok ()

theorem run_eq (place : Place) (config : Config) (draws : List Float) (choice : Choice) :
    run place config draws choice =
      ((session place config choice .still draws).run client choice.moves).world.memory.report.getD
        ⟨.error .abandoned, 0⟩ := rfl

/-! ### Hosts -/

namespace Place

/-- The host on which the runs of a blocking session are. There is none for a future. -/
def host : Place → Host
  | eventLoop => .eventLoop ⟨0⟩
  | worker => .worker ⟨0⟩
  | async => .discarding

/-- The world in which the rest of an evaluation is about to be resumed for the `k`th time. -/
def world (clock : Clock) (memory : Memory) (k : ℕ) : Place → World codes Memory
  | eventLoop => ⟨clock, #[⟨⟨#[], k⟩, k, 2⟩], #[], #[], #[.vacant], 1, memory⟩
  | worker => ⟨clock, #[], #[], #[⟨[], ⟨#[], k⟩, k, .running⟩], #[.vacant], 1, memory⟩
  | async => ⟨clock, #[], #[], #[], #[], 0, memory⟩

/-- The activities that wait for a slice, above those of the client. -/
def waiting : Place → (k : ℕ) → List (Activity codes Memory)
  | eventLoop, 0 => [.thenPump ⟨0⟩, .reporting ⟨0⟩, .sharing ⟨0⟩]
  | eventLoop, k + 1 => [.pumping ⟨0⟩ k, .reporting ⟨0⟩, .sharing ⟨0⟩]
  | worker, 0 => [.thenWork ⟨0⟩ (some ⟨0⟩), .reporting ⟨0⟩]
  | worker, _ + 1 => [.working ⟨0⟩ (some ⟨0⟩), .reporting ⟨0⟩]
  | async, _ => [.driving]

/-- The run of a blocking session. -/
def blocking (config : Config) (place : Place) : Run codes :=
  ⟨⟨0⟩, .text, .cell ⟨0⟩, place.host, config.progressing⟩

/-- The next slice. -/
def resuming (config : Config) (t : Trampoline codes.signature) : Place → Focus codes Memory
  | async => .poll ⟨config, t, .text⟩
  | place => .resume ⟨blocking config place, t⟩

/-- The slice is over. -/
def sliced (config : Config) (t : Trampoline codes.signature)
    (x : Answer codes.signature × Trampoline codes.signature) : Place → Focus codes Memory
  | async => .script (.poll ⟨config, t, .text⟩) (.done x)
  | place => .script (.slice ⟨blocking config place, t⟩) (.done x)

/-- The clock at the next resumption after a delay. -/
def resumed (delay : Duration) (clock : Clock) : Place → Clock
  | eventLoop => clock.read.2.awaiting (clock.read.1 + delay.nanos)
  | worker => clock.read.2.read.2.awaiting (clock.read.1 + delay.nanos)
  | async => clock.read.2.sleepUntil (clock.read.1 + delay.nanos)

/-- The clock at the `k`th resumption. -/
def clockAt (place : Place) (delay : Duration) (clock : Clock) : (k : ℕ) → Clock
  | 0 => clock
  | k + 1 => place.resumed delay (place.clockAt delay clock k)

/-- The delay comes due, each of the first `k` times that it is asked for: there is such a point in
time. A future only waits, and never asks for a point in time. -/
def ComesDue (place : Place) (delay : Duration) (clock : Clock) (k : ℕ) : Prop :=
  ∀ j < k, place = async ∨ (place.clockAt delay clock j).endsWithin delay = false

/-- On a clock that moves only while someone waits, the `k`th resumption is after `k` delays. -/
theorem clockAt_still (place : Place) (delay : Duration) (k : ℕ) :
    (place.clockAt delay .still k).Still (k * delay.nanos) := by
  induction k with
  | zero => exact ⟨rfl, rfl, (Int.zero_mul _).symm⟩
  | succ k ih =>
    have hle := Int.le_add_of_nonneg_right (a := k * delay.nanos) (Int.natCast_nonneg delay.nanos)
    rw [Nat.cast_succ, Int.add_mul, Int.one_mul]
    cases place with
    | eventLoop =>
      rw [clockAt, resumed, ih.read_fst]
      exact ih.read.awaiting hle
    | worker =>
      rw [clockAt, resumed, ih.read_fst]
      exact ih.read.read.awaiting hle
    | async =>
      rw [clockAt, resumed, ih.read_fst]
      exact ih.read.sleepUntil hle

/-- The delay comes due as long as all delays together do. -/
theorem comesDue_still (place : Place) {delay : Duration} {k : ℕ}
    (h : (k * delay.nanos : Int) ≤ Clock.still.last) : place.ComesDue delay .still k := by
  intro j hj
  have hstill := place.clockAt_still delay j
  have hmul : ((j + 1 : ℕ) * delay.nanos : Int) ≤ k * delay.nanos :=
    Int.mul_le_mul_of_nonneg_right (Int.ofNat_le.2 hj) (Int.natCast_nonneg _)
  rw [Nat.cast_succ, Int.add_mul, Int.one_mul] at hmul
  refine .inr ?_
  rw [Clock.endsWithin, hstill.read_fst, hstill.last, decide_eq_false_iff_not]
  exact Int.not_lt.2 (hmul.trans h)

theorem sliced_sliced (config : Config) (t : Trampoline codes.signature)
    (x : Answer codes.signature × Trampoline codes.signature) (place : Place) :
    (place.sliced config t x).sliced = some x := by
  cases place <;> rfl

/-- A request for the outcome of a program. -/
def request (config : Config) (program : Program codes.signature) : Place → Request codes
  | eventLoop => .blockOn ⟨0⟩ config program
  | worker => .blockOnWorker ⟨0⟩ config program
  | async => .runAsync ⟨config, .start program.root, program.result⟩

/-- The world in which this request is put. -/
def ready (clock : Clock) (memory : Memory) : Place → World codes Memory
  | eventLoop => ⟨clock, #[.opened], #[], #[], #[], 0, memory⟩
  | worker => ⟨clock, #[], #[], #[.spawned], #[], 0, memory⟩
  | async => ⟨clock, #[], #[], #[], #[], 0, memory⟩

/-- The world in which the outcome of the run is known, when it has been resumed `k` times. -/
def after (clock : Clock) (memory : Memory) (k : ℕ) (r : RunResult codes) :
    Place → World codes Memory
  | eventLoop => ⟨clock, #[⟨⟨#[], k⟩, k, 1⟩], #[], #[], #[.settled r], 1, memory⟩
  | worker => ⟨clock, #[], #[], #[⟨[], ⟨#[], k⟩, k, .running⟩], #[.settled r], 1, memory⟩
  | async => ⟨clock, #[], #[], #[], #[], 0, memory⟩

/-- The number of tasks that the host has run then. A future is driven without tasks. -/
def turns (k : ℕ) : Place → ℕ
  | eventLoop | worker => k
  | async => 0

end Place

/-- Nobody takes note of a budget. -/
theorem noteBudget_eq (config : Config) (w : World codes Memory) :
    noteBudget client config w = w := by
  rw [noteBudget]
  split <;> rfl

/-! ### Slices -/

/-- The first slice comes right after the request. -/
theorem within_request (config : Config) (program : Program codes.signature)
    (hresult : program.result = .text) (clock : Clock)
    (memory : Memory) (control : List (Activity codes Memory)) (place : Place) :
    Within client 1 ⟨place.ready clock memory, control, .request (place.request config program)⟩
      ⟨place.world clock memory 0, place.waiting 0 ++ control,
        place.resuming config (.start program.root)⟩ := by
  obtain ⟨root, result⟩ := program
  subst hresult
  cases place with
  | eventLoop | worker =>
    refine .head ?_ (.refl _)
    simp only [step, Place.request, Machine.perform, noteBudget_eq]
    rfl
  | async => exact .head rfl (.refl _)

/-- A slice that waits for nothing but the reports of its nodes. -/
theorem within_slice {config : Config} {t : Trampoline codes.signature} {n : ℕ}
    {x : Answer codes.signature × Trampoline codes.signature}
    (h : t.runSlice client.functions config.catchPanics (max config.stepBudget 1) =
      .idle n (.done x)) (w : World codes Memory) (control : List (Activity codes Memory))
    (place : Place) :
    Within client (n + 1) ⟨w, control, place.resuming config t⟩
      ⟨w, control, place.sliced config t x⟩ := by
  cases place with
  | eventLoop | worker | async =>
    refine .head ?_ (within_idle n _)
    rw [← h]
    rfl

/-! ### Between two slices -/

section

variable {w : World codes Memory} {n : ℕ} {timer : Timer (Task codes)}

/-- An event loop takes in a task. -/
theorem step_defer_loop {l : LoopId} {s : EventLoop codes} (hs : w.loop? l = some s)
    {delay : Duration} (hdue : w.clock.endsWithin delay = false) (task : Task codes)
    (control : List (Activity codes Memory)) :
    step client ⟨w, control, .defer (.eventLoop l) delay task⟩ =
      some ⟨w.readClock.2.setLoop l
        { s with queue := s.queue.push (w.readClock.1 + delay.nanos) task },
        control, .answer (.ok .done)⟩ := by
  have ho : w.overflows (.eventLoop l) delay = false := by simp [World.overflows, hdue]
  rw [step_of_not_overflows ho]
  simp only [handOver, hs]
  rfl

/-- An event loop begins its only task if it is due. -/
theorem step_pump_due {l : LoopId} {s : EventLoop codes} (hs : w.loop? l = some s)
    (hqueue : s.queue = ⟨#[timer], n⟩) (hle : timer.due ≤ w.readClock.1) (executed : ℕ)
    (control : List (Activity codes Memory)) :
    step client ⟨w, control, .pump l executed⟩ =
      some ⟨w.readClock.2.setLoop l ⟨⟨#[], n⟩, s.turns + 1, s.owners⟩,
        .pumping l executed :: control, .begin timer.task⟩ := by
  have hpop := World.popLoop_of_loop? hs
  rw [hqueue, TimerQueue.popDue_single, if_pos hle] at hpop
  simp only [step, Machine.pump, hpop]
  rfl

/-- It waits until the task is due. -/
theorem within_pump {l : LoopId} {s : EventLoop codes} (hs : w.loop? l = some s)
    (hqueue : s.queue = ⟨#[timer], n⟩) (executed : ℕ) (control : List (Activity codes Memory)) :
    Within client 2 ⟨w, control, .pump l executed⟩
      ⟨{ w with clock := w.clock.awaiting timer.due }.setLoop l ⟨⟨#[], n⟩, s.turns + 1, s.owners⟩,
        .pumping l executed :: control, .begin timer.task⟩ := by
  rw [Clock.awaiting]
  by_cases hle : timer.due ≤ w.clock.read.1
  · rw [if_pos hle]
    exact Within.mono (n := 1)
      (.head (step_pump_due hs hqueue hle executed control) (.refl _)) (by decide)
  · rw [if_neg hle]
    have hpop := World.popLoop_of_loop? hs
    have hearly : ¬ timer.due ≤ w.readClock.1 := hle
    rw [hqueue, TimerQueue.popDue_single, if_neg hearly] at hpop
    have hs' : w.readClock.2.loop? l = some s := hs
    have hdue : w.readClock.2.nextDue l = some timer.due := by
      simp [World.nextDue, hs', hqueue, TimerQueue.nextDue]
    have hsleep : step client ⟨w, control, .pump l executed⟩ =
        some ⟨w.readClock.2.sleepUntil timer.due, control, .pump l executed⟩ := by
      simp only [step, Machine.pump, hpop, hdue]
      rfl
    have hs'' : (w.readClock.2.sleepUntil timer.due).loop? l = some s := hs
    exact .head hsleep (.head (step_pump_due hs'' hqueue
      (World.le_readClock_sleepUntil w.readClock.2 timer.due) executed control) (.refl _))

variable {i : WorkerId} {c : CellId} {s s' : Worker (Task codes)}

/-- The thread of a worker begins a task that is due. -/
theorem step_work_due {task : Task codes} (hs : w.worker? i = some s) (hp : s.phase = .running)
    (hc : w.cell c = .vacant) (hpop : s.popDue w.readClock.1 = some (task, s'))
    (control : List (Activity codes Memory)) :
    step client ⟨w, control, .work i (some c)⟩ =
      some ⟨w.readClock.2.setWorker i s', .working i (some c) :: control, .begin task⟩ := by
  have hfilter : (w.worker? i).filter (·.phase = .running) = some s := by simp [hs, hp]
  have hvacant : w.isFilled (some c) = false := by simp [World.isFilled, hc]
  simp only [step, Machine.work, hfilter, hvacant, Bool.false_eq_true, if_false, hpop]
  rfl

/-- The thread of a worker takes a task from its channel. -/
theorem step_work_receive (hs : w.worker? i = some s) (hp : s.phase = .running)
    (hc : w.cell c = .vacant) (hpop : s.popDue w.readClock.1 = none)
    (hreceive : s.receive = some s') (hp' : s'.phase = .running)
    (control : List (Activity codes Memory)) :
    step client ⟨w, control, .work i (some c)⟩ =
      some ⟨w.readClock.2.setWorker i s', control, .work i (some c)⟩ := by
  have hfilter : (w.worker? i).filter (·.phase = .running) = some s := by simp [hs, hp]
  have hvacant : w.isFilled (some c) = false := by simp [World.isFilled, hc]
  simp only [step, Machine.work, hfilter, hvacant, Bool.false_eq_true, if_false, hpop, hreceive,
    hp', if_true]
  rfl

/-- The thread of a worker waits until the next task is due. -/
theorem step_work_wait {due : Instant} (hs : w.worker? i = some s) (hp : s.phase = .running)
    (hc : w.cell c = .vacant) (hpop : s.popDue w.readClock.1 = none)
    (hreceive : s.receive = none) (hdue : s.timers.nextDue = some due)
    (control : List (Activity codes Memory)) :
    step client ⟨w, control, .work i (some c)⟩ =
      some ⟨w.readClock.2.sleepUntil due, control, .work i (some c)⟩ := by
  have hfilter : (w.worker? i).filter (·.phase = .running) = some s := by simp [hs, hp]
  have hvacant : w.isFilled (some c) = false := by simp [World.isFilled, hc]
  simp only [step, Machine.work, hfilter, hvacant, Bool.false_eq_true, if_false, hpop, hreceive,
    hdue]
  rfl

/-- The thread of a worker begins its only task as soon as it is due. -/
theorem within_work_timer {k : ℕ} (hs : w.worker? i = some ⟨[], ⟨#[timer], n⟩, k, .running⟩)
    (hc : w.cell c = .vacant) (control : List (Activity codes Memory)) :
    Within client 2 ⟨w, control, .work i (some c)⟩
      ⟨{ w with clock := w.clock.awaiting timer.due }.setWorker i ⟨[], ⟨#[], n⟩, k + 1, .running⟩,
        .working i (some c) :: control, .begin timer.task⟩ := by
  have hpop (now : Instant) := TimerQueue.popDue_single n timer now
  rw [Clock.awaiting]
  by_cases hle : timer.due ≤ w.clock.read.1
  · rw [if_pos hle]
    have hpop' : Worker.popDue ⟨[], ⟨#[timer], n⟩, k, .running⟩ w.readClock.1 =
        some (timer.task, ⟨[], ⟨#[], n⟩, k + 1, .running⟩) := by
      rw [Worker.popDue, hpop, if_pos (show timer.due ≤ w.readClock.1 from hle)]
    exact Within.mono (n := 1) (.head (step_work_due hs rfl hc hpop' control) (.refl _)) (by decide)
  · rw [if_neg hle]
    have hpop' : Worker.popDue ⟨[], ⟨#[timer], n⟩, k, .running⟩ w.readClock.1 = none := by
      rw [Worker.popDue, hpop, if_neg (show ¬ timer.due ≤ w.readClock.1 from hle)]
    have hle' := World.le_readClock_sleepUntil w.readClock.2 timer.due
    have hpop'' : Worker.popDue ⟨[], ⟨#[timer], n⟩, k, .running⟩
        (w.readClock.2.sleepUntil timer.due).readClock.1 =
        some (timer.task, ⟨[], ⟨#[], n⟩, k + 1, .running⟩) := by
      rw [Worker.popDue, hpop, if_pos hle']
    have hs' : (w.readClock.2.sleepUntil timer.due).worker? i =
        some ⟨[], ⟨#[timer], n⟩, k, .running⟩ := hs
    exact .head (step_work_wait hs rfl hc hpop' rfl rfl control)
      (.head (step_work_due hs' rfl hc hpop'' control) (.refl _))

/-- The thread of a worker takes its only task from its channel, and begins it as soon as it is
due. -/
theorem within_work {k : ℕ} {due : Instant} {task : Task codes}
    (hs : w.worker? i = some ⟨[.submit due task], ⟨#[], n⟩, k, .running⟩)
    (hc : w.cell c = .vacant) (control : List (Activity codes Memory)) :
    Within client 3 ⟨w, control, .work i (some c)⟩
      ⟨{ w with clock := w.clock.read.2.awaiting due }.setWorker i
          ⟨[], ⟨#[], n + 1⟩, k + 1, .running⟩,
        .working i (some c) :: control, .begin task⟩ := by
  have hreceive : Worker.receive ⟨[.submit due task], ⟨#[], n⟩, k, .running⟩ =
      some ⟨[], ⟨#[⟨due, n, task⟩], n + 1⟩, k, .running⟩ := by
    simp [Worker.receive, TimerQueue.push_vacant]
  have hs' : (w.readClock.2.setWorker i ⟨[], ⟨#[⟨due, n, task⟩], n + 1⟩, k, .running⟩).worker? i =
      some ⟨[], ⟨#[⟨due, n, task⟩], n + 1⟩, k, .running⟩ := by
    rw [World.worker?_setWorker (show w.readClock.2.worker? i = some _ from hs), if_pos rfl]
  have h := Within.head (step_work_receive hs rfl hc rfl hreceive rfl control)
    (within_work_timer hs' hc control)
  simpa [World.setWorker, World.readClock] using h

end

/-- A suspended run is resumed by its host, after the delay. -/
theorem within_suspended (config : Config) (clock : Clock) (memory : Memory) (k : ℕ)
    (control : List (Activity codes Memory)) (t t' : Trampoline codes.signature)
    (place : Place) (hdue : place = .async ∨ clock.endsWithin config.resumeDelay = false) :
    Within client 7
      ⟨place.world clock memory k, place.waiting k ++ control,
        place.sliced config t (.suspended, t')⟩
      ⟨place.world (place.resumed config.resumeDelay clock) memory (k + 1),
        place.waiting (k + 1) ++ control, place.resuming config t'⟩ := by
  cases place with
  | eventLoop =>
    let task : Task codes := .resume ⟨Place.eventLoop.blocking config, t'⟩
    let due := clock.read.1 + config.resumeDelay.nanos
    let w : World codes Memory :=
      ⟨clock.read.2, #[⟨⟨#[⟨due, k, task⟩], k + 1⟩, k, 2⟩], #[], #[], #[.vacant], 1, memory⟩
    have hdefer (control : List (Activity codes Memory)) : step client
        ⟨Place.eventLoop.world clock memory k, control,
          .defer (.eventLoop ⟨0⟩) config.resumeDelay task⟩ =
        some ⟨w, control, .answer (.ok .done)⟩ := by
      have h := step_defer_loop (w := Place.eventLoop.world clock memory k) (l := ⟨0⟩)
        (s := ⟨⟨#[], k⟩, k, 2⟩) rfl (hdue.resolve_left Place.noConfusion) task control
      rw [TimerQueue.push_vacant] at h
      exact h
    have hpump := within_pump (w := w) (l := ⟨0⟩) rfl rfl k
      ([.reporting ⟨0⟩, .sharing ⟨0⟩] ++ control)
    have hbegin := hpump.trans (.head rfl (.refl _))
    refine Within.mono (n := 6) ?_ (by decide)
    cases k with
    | zero | succ => exact .head rfl (.head (hdefer _) (.head rfl hbegin))
  | worker =>
    let task : Task codes := .resume ⟨Place.worker.blocking config, t'⟩
    let due := clock.read.1 + config.resumeDelay.nanos
    let w : World codes Memory :=
      ⟨clock.read.2, #[], #[], #[⟨[.submit due task], ⟨#[], k⟩, k, .running⟩], #[.vacant], 1,
        memory⟩
    have hdefer (control : List (Activity codes Memory)) : step client
        ⟨Place.worker.world clock memory k, control,
          .defer (.worker ⟨0⟩) config.resumeDelay task⟩ =
        some ⟨w, control, .answer (.ok .done)⟩ :=
      step_of_not_overflows (hdue.resolve_left Place.noConfusion)
    have hwork := within_work (w := w) (i := ⟨0⟩) (c := ⟨0⟩) rfl rfl
      ([.reporting ⟨0⟩] ++ control)
    have hbegin := hwork.trans (.head rfl (.refl _))
    cases k with
    | zero | succ => exact .head rfl (.head (hdefer _) (.head rfl hbegin))
  | async => exact ⟨2, by decide, rfl⟩

/-! ### After the last slice -/

/-- The count is complete, and the outcome is answered. -/
theorem within_settled (config : Config) (clock : Clock) (memory : Memory) (k : ℕ)
    (control : List (Activity codes Memory)) (t t' : Trampoline codes.signature) (text : String)
    (place : Place) : ∃ clock', Within client 8
      ⟨place.world clock memory k, place.waiting k ++ control,
        place.sliced config t (.completed ⟨.text, text⟩, t')⟩
      ⟨place.after clock' memory k (.ok ⟨.text, text⟩), control,
        .answer (.ok (.settled (.ok ⟨.text, text⟩)))⟩ := by
  cases place with
  | eventLoop =>
    -- The loop is pumped once more, and nothing is left in its queue.
    refine ⟨clock.read.2, 8, le_rfl, ?_⟩
    cases k <;> rfl
  | worker =>
    refine ⟨clock, 5, by decide, ?_⟩
    cases k <;> rfl
  | async => exact ⟨clock, 2, by decide, rfl⟩

/-- A worker without tasks stops when it is told to. -/
theorem within_stopWorker (w : World codes Memory) (k : ℕ)
    (control : List (Activity codes Memory)) (hw : w.workers = #[⟨[], ⟨#[], k⟩, k, .running⟩]) :
    ∃ w', w'.memory = w.memory ∧ Within client 8 ⟨w, control, .request (.stopWorker ⟨0⟩)⟩
      ⟨w', control, .answer (.ok .done)⟩ := by
  obtain ⟨clock, loops, queues, workers, cells, runs, memory⟩ := w
  subst hw
  let w (s : Worker (Task codes)) : World codes Memory :=
    ⟨clock, loops, queues, #[s], cells, runs, memory⟩
  have htold : step client ⟨w ⟨[], ⟨#[], k⟩, k, .running⟩, control, .request (.stopWorker ⟨0⟩)⟩ =
      some ⟨w ⟨[.shutdown], ⟨#[], k⟩, k, .running⟩, .joining ⟨0⟩ :: control, .work ⟨0⟩ none⟩ := rfl
  have hstops : step client
      ⟨w ⟨[.shutdown], ⟨#[], k⟩, k, .running⟩, .joining ⟨0⟩ :: control, .work ⟨0⟩ none⟩ =
      some ⟨{ w ⟨[], .empty, k, .stopping⟩ with clock := clock.read.2 },
        .stopping ⟨0⟩ none :: .joining ⟨0⟩ :: control, .drop []⟩ := rfl
  exact ⟨{ w ⟨[], .empty, k, .exited⟩ with clock := clock.read.2 }, rfl,
    .head htold (.head hstops ⟨6, le_rfl, rfl⟩)⟩

/-- A session gets to the request, and from its answer to the report. -/
theorem within_session (config : Config) (choice : Choice) (clock : Clock) (draws : List Float)
    (place : Place) :
    ∃ next, Within client 4 (session place config choice clock draws)
      ⟨place.ready clock ⟨draws, none⟩, [.code .body next],
        .request (place.request config choice.program.toProgram)⟩ ∧
      ∀ clock' k text, ∃ m, Within client 16
        ⟨place.after clock' ⟨draws, none⟩ k (.ok ⟨.text, text⟩), [.code .body next],
          .answer (.ok (.settled (.ok ⟨.text, text⟩)))⟩ m ∧ m.step client = none ∧
        m.world.memory.report = some ⟨.ok text, place.turns k⟩ := by
  cases place with
  | eventLoop =>
    exact ⟨_, ⟨4, le_rfl, rfl⟩, fun clock' k text => ⟨_, ⟨6, by decide, rfl⟩, rfl, rfl⟩⟩
  | worker =>
    refine ⟨_, ⟨4, le_rfl, rfl⟩, fun clock' k text => ?_⟩
    obtain ⟨w, hmemory, hstop⟩ := within_stopWorker
      (Place.worker.after clock' ⟨draws, none⟩ k (.ok ⟨.text, text⟩)) k _ rfl
    -- Five moves lead to the order to stop, and three more to the report.
    refine ⟨_, Within.mono (.head rfl (.head rfl (.head rfl (.head rfl (.head rfl
      (hstop.trans ⟨3, le_rfl, rfl⟩)))))) (by decide), rfl, rfl⟩
  | async =>
    exact ⟨_, ⟨1, by decide, rfl⟩, fun clock' k text => ⟨_, ⟨3, by decide, rfl⟩, rfl, rfl⟩⟩

end Demo

end LazyEffects
