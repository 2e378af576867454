import LazyEffects.Proofs.Fates
import Mathlib.Tactic.Linarith

/-!
# The threads of workers

What a move does to a worker that goes on working: it leaves the worker alone, puts a message into
its channel, or is a move of its thread, which takes a task that is due or, when none is, a message.
Time never goes back.

* `Machine.step_works`: the moves, as a worker sees them;
* `Machine.run_ordered`: no task is due before the one that a working thread takes next.
-/

namespace LazyEffects

variable {K : Codes} {M : Type}

/-- However much time is asked for, it passes as the clock is read often enough. -/
def Clock.GoesOn (c : Clock) : Prop := ∀ time : ℕ, ∃ r, time ≤ ∑ j ∈ Finset.range r, c.drift j

/-- The clock `c'` is what `c` is after some readings and some waiting. -/
structure Clock.Before (c c' : Clock) : Prop where
  drift : c'.drift = c.drift
  last : c'.last = c.last
  readings : c.readings ≤ c'.readings
  now : c.now + (∑ j ∈ Finset.Ico c.readings c'.readings, c.drift j : ℕ) ≤ c'.now

namespace Clock.Before

variable {c c' c'' : Clock}

theorem refl (c : Clock) : c.Before c := ⟨rfl, rfl, le_rfl, by simp⟩

theorem trans (h : c.Before c') (h' : c'.Before c'') : c.Before c'' where
  drift := h'.drift.trans h.drift
  last := h'.last.trans h.last
  readings := h.readings.trans h'.readings
  now := by
    have hnow := h.now
    have hnow' := h'.now
    rw [h.drift] at hnow'
    rw [← Finset.sum_Ico_consecutive _ h.readings h'.readings, Nat.cast_add]
    linarith

/-- Time does not go back. -/
theorem le (h : c.Before c') : c.now ≤ c'.now :=
  (Int.le_add_of_nonneg_right (Int.natCast_nonneg _)).trans h.now

theorem read (c : Clock) : c.Before c.read.2 := ⟨rfl, rfl, Nat.le_succ _, by simp [Clock.read]⟩

theorem sleepUntil (c : Clock) (due : Instant) : c.Before (c.sleepUntil due) :=
  ⟨rfl, rfl, le_rfl, by simp [Clock.sleepUntil]⟩

end Clock.Before

namespace World

variable {client : Client K M} {w w' w'' : World K M}

/-- The workers are as they were, and it is not earlier. -/
structure Passes (w w' : World K M) : Prop where
  workers : w'.workers = w.workers
  clock : w.clock.Before w'.clock

theorem Passes.trans (h : w.Passes w') (h' : w'.Passes w'') : w.Passes w'' :=
  ⟨h'.workers.trans h.workers, h.clock.trans h'.clock⟩

theorem passes_refl (w : World K M) : w.Passes w := ⟨rfl, .refl _⟩

theorem passes_observe (e : Event) (w : World K M) : w.Passes (w.observe client e) :=
  ⟨rfl, .refl _⟩

theorem passes_readClock (w : World K M) : w.Passes w.readClock.2 := ⟨rfl, .read _⟩

theorem passes_sleepUntil (w : World K M) (due : Instant) : w.Passes (w.sleepUntil due) :=
  ⟨rfl, .sleepUntil _ due⟩

theorem passes_share (w : World K M) (l : LoopId) : w.Passes (w.share l) := by
  rw [share]
  split <;> exact ⟨rfl, .refl _⟩

theorem passes_release (w : World K M) (l : LoopId) : w.Passes (w.release l).2 := by
  rw [release]
  split
  · split <;> exact ⟨rfl, .refl _⟩
  · exact passes_refl w

theorem passes_popLoop {l : LoopId} {x : Option (Task K × ℕ)} (h : w.popLoop l = (x, w')) :
    w.Passes w' := by
  cases hs : w.loop? l with
  | none =>
    simp only [popLoop, hs, Prod.mk.injEq] at h
    rw [← h.2]
    exact passes_refl w
  | some s =>
    rw [popLoop_of_loop? hs] at h
    split at h <;> cases h <;> exact ⟨rfl, .read _⟩

theorem passes_takeQueued {q : QueueId} {place : ℕ} {t : Task K}
    (h : w.takeQueued q place = some (t, w')) : w.Passes w' := by
  rw [takeQueued] at h
  split at h
  · cases h
    exact ⟨rfl, .refl _⟩
  · cases h

end World

namespace Machine

open World

variable {client : Client K M} {w : World K M} {m m' : Machine K M} {i : WorkerId}

variable (client) in
theorem passes_noteBudget (config : Config) (w : World K M) :
    w.Passes (noteBudget client config w) := by
  rw [noteBudget]
  split
  · exact passes_observe _ w
  · exact passes_refl w

/-- What a move does to a worker that is at work, before and after. -/
inductive Attends (m m' : Machine K M) (i : WorkerId) (s : Worker (Task K)) :
    Worker (Task K) → Prop
  | same : Attends m m' i s s
  /-- A task is submitted. -/
  | submitted {due : Instant} {delay : Duration} {t : Task K} :
    m.focus = .defer (.worker i) delay t → m.world.overflows (.worker i) delay = false →
    due = m'.world.clock.now + delay.nanos → Attends m m' i s (s.send (.submit due t))
  /-- The worker is told to stop. -/
  | told : Attends m m' i s (s.send .shutdown)
  /-- The thread takes a task. -/
  | popped {t : Task K} {s' : Worker (Task K)} :
    s.popDue m'.world.clock.now = some (t, s') → m'.focus = .begin t → Attends m m' i s s'
  /-- The thread takes a message, as no task is due. -/
  | received {s' : Worker (Task K)} :
    s.popDue m'.world.clock.now = none → s.receive = some s' → Attends m m' i s s'

/-- What a move does to the worker `i`: if it is at work afterwards, it has just been started or was
at work before. -/
structure Works (m m' : Machine K M) (i : WorkerId) : Prop where
  clock : m.world.clock.Before m'.world.clock
  worker {s' : Worker (Task K)} : m'.world.worker? i = some s' → s'.phase = .running →
    m.world.worker? i = none ∧ s' = .spawned ∨
      ∃ s, m.world.worker? i = some s ∧ s.phase = .running ∧ m.Attends m' i s s'

theorem Works.of_passes (h : m.world.Passes m'.world) : m.Works m' i where
  clock := h.clock
  worker {s'} hs hp := by
    rw [World.worker?, h.workers] at hs
    exact .inr ⟨s', hs, hp, .same⟩

/-- A move that puts `s'` in the place of the worker `j`. -/
theorem Works.of_setWorker {j : WorkerId} {s : Worker (Task K)} {w₁ : World K M}
    (hs : m.world.worker? j = some s) (s' : Worker (Task K)) (hw₁ : m.world.Passes w₁)
    (hm' : (w₁.setWorker j s').Passes m'.world)
    (h : s'.phase = .running → s.phase = .running ∧ m.Attends m' j s s') : m.Works m' i where
  clock := hw₁.clock.trans hm'.clock
  worker {s₂} hs₂ hp := by
    have hs₁ : w₁.worker? j = some s := by
      rw [World.worker?, hw₁.workers]
      exact hs
    rw [World.worker?, hm'.workers, ← World.worker?, worker?_setWorker hs₁] at hs₂
    by_cases hij : i = j
    · subst hij
      rw [if_pos rfl] at hs₂
      cases hs₂
      exact .inr ⟨s, hs, h hp⟩
    · rw [if_neg hij, World.worker?, hw₁.workers] at hs₂
      exact .inr ⟨s₂, hs₂, hp, .same⟩

/-! ### The moves -/

theorem finish_passes (m : Machine K M) (role : Role K) (x : role.Ending) :
    m.world.Passes (m.finish client role x).world := by
  cases role with
  | body => cases x <;> exact passes_refl _
  | slice f =>
    obtain ⟨a, t⟩ := x
    cases a <;> exact ⟨rfl, .refl _⟩
  | bare => exact passes_refl _
  | poll f =>
    obtain ⟨a, t⟩ := x
    cases a <;> exact ⟨rfl, .refl _⟩

theorem drop_passes (m : Machine K M) (ts : List (Task K)) :
    m.world.Passes (m.drop client ts).world := by
  unfold drop
  split <;> exact ⟨rfl, .refl _⟩

theorem pump_passes (m : Machine K M) (l : LoopId) (executed : ℕ) :
    m.world.Passes (m.pump client l executed).world := by
  rw [pump]
  split
  · rename_i t turn w' hw
    exact (passes_popLoop hw).trans (passes_observe _ _)
  · rename_i w' hw
    split
    · exact (passes_popLoop hw).trans (passes_sleepUntil _ _)
    · exact passes_popLoop hw

theorem handOver_works {host : Host} {delay : Duration} (t : Task K)
    (control : List (Activity K M)) (ho : w.overflows host delay = false) :
    Works ⟨w, control, .defer host delay t⟩
      (handOver client ⟨w, control, .defer host delay t⟩ host delay t) i := by
  cases host with
  | eventLoop l =>
    refine .of_passes ?_
    simp only [handOver]
    split
    · exact ⟨rfl, .read _⟩
    · exact ⟨rfl, .refl _⟩
  | recording q =>
    refine .of_passes ?_
    simp only [handOver]
    split <;> exact ⟨rfl, .refl _⟩
  | discarding => exact .of_passes (passes_refl w)
  | worker j =>
    simp only [handOver]
    split
    · rename_i s hs
      obtain ⟨hs, -⟩ := Option.filter_eq_some_iff.1 hs
      exact .of_setWorker hs _ (passes_readClock w) (passes_refl _)
        fun hp => ⟨hp, .submitted rfl ho rfl⟩
    · exact .of_passes (passes_readClock w)

/-- A thread that takes a task or a message. -/
theorem work_works (j : WorkerId) (wanted : Option CellId) (control : List (Activity K M)) :
    Works ⟨w, control, .work j wanted⟩
      (work client ⟨w, control, .work j wanted⟩ j wanted) i := by
  simp only [work]
  split
  · exact .of_passes (passes_refl w)
  · rename_i s hs
    obtain ⟨hs, hp⟩ := Option.filter_eq_some_iff.1 hs
    have hphase : s.phase = .running := by simpa using hp
    split
    · exact .of_passes (passes_refl w)
    · split
      · rename_i t s' hpop
        refine .of_setWorker hs _ (passes_readClock w) (passes_observe _ _) fun _ => ⟨hphase, ?_⟩
        exact .popped hpop rfl
      · rename_i hpop
        split
        · rename_i s' hr
          split
          · exact .of_setWorker hs _ (passes_readClock w) (passes_refl _)
              fun _ => ⟨hphase, .received hpop hr⟩
          · rename_i hstop
            refine .of_setWorker hs s'.dropTimers.2 (passes_readClock w) ?_
              fun hp => absurd hp hstop
            simp only [call_world]
            split
            · exact passes_refl _
            · exact passes_observe _ _
        · split
          · exact .of_passes ((passes_readClock w).trans (passes_sleepUntil _ _))
          · exact .of_passes (passes_readClock w)

/-- A thread that dies. -/
theorem crash_works {j : WorkerId} (h : m'.world = crash m.world j) : m.Works m' i := by
  rw [crash] at h
  split at h
  · rename_i s hs
    refine .of_setWorker hs s.crash (passes_refl _) ?_ fun hp => by simp [Worker.crash] at hp
    rw [h]
    exact passes_refl _
  · refine .of_passes ?_
    rw [h]
    exact passes_refl _

theorem returnTo_works (r : Reply K) (activity : Activity K M) (control : List (Activity K M)) :
    Works ⟨w, activity :: control, .answer (.ok r)⟩
      (returnTo client ⟨w, control, .answer (.ok r)⟩ r activity) i := by
  cases activity with
  | noting e => exact .of_passes (passes_observe _ _)
  | sharing l => exact .of_passes (passes_release w l)
  | driving =>
    refine .of_passes ?_
    simp only [returnTo]
    split
    · exact (passes_readClock w).trans (passes_sleepUntil _ _)
    · exact passes_refl w
  | stopping j wanted =>
    simp only [returnTo]
    split
    · rename_i s hs
      exact .of_setWorker hs s.close.2 (passes_refl _) (passes_refl _)
        fun hp => by simp [Worker.close] at hp
    · exact .of_passes (passes_refl w)
  | joining j =>
    refine .of_passes ?_
    simp only [returnTo, reply_world]
    split
    · exact passes_observe _ _
    · exact passes_refl w
  | code | affirming | replying | pumping | thenPump | reporting | reportingSignal | dropping
  | thenWork | working => exact .of_passes (passes_refl w)

theorem unwindTo_works (p : Payload) (activity : Activity K M) (control : List (Activity K M)) :
    Works ⟨w, activity :: control, .answer (.error p)⟩
      (unwindTo ⟨w, control, .answer (.error p)⟩ p activity) i := by
  cases activity with
  | sharing l => exact .of_passes (passes_release w l)
  | working j wanted => exact crash_works rfl
  | stopping j wanted => exact crash_works rfl
  | code | affirming | replying | noting | pumping | thenPump | reporting | reportingSignal
  | dropping | driving | thenWork | joining => exact .of_passes (passes_refl w)

theorem perform_works (r : Request K) (control : List (Activity K M)) :
    Works ⟨w, control, .request r⟩ (perform client ⟨w, control, .request r⟩ r) i := by
  cases r with
  | openWorker =>
    refine ⟨.refl _, fun {s'} hs hp => ?_⟩
    simp only [perform, reply_world, World.openWorker, World.worker?, Array.getElem?_push] at hs
    split at hs
    · rename_i hi
      cases hs
      exact .inl ⟨by simp [World.worker?, hi], rfl⟩
    · exact .inr ⟨s', hs, hp, .same⟩
  | stopWorker j =>
    simp only [perform]
    split
    · rename_i s hs
      obtain ⟨hs, -⟩ := Option.filter_eq_some_iff.1 hs
      exact .of_setWorker hs _ (passes_refl _) (passes_refl _) fun hp => ⟨hp, .told⟩
    · exact .of_passes (passes_refl w)
  | shareLoop l => exact .of_passes (passes_share w l)
  | releaseLoop l => exact .of_passes (passes_release w l)
  | turn l =>
    refine .of_passes ?_
    simp only [perform]
    split
    · rename_i t turn w' hw
      exact (passes_share w l).trans ((passes_popLoop hw).trans (passes_observe _ _))
    · rename_i w' hw
      exact (passes_share w l).trans (passes_popLoop hw)
  | runUntilIdle l => exact .of_passes (passes_share w l)
  | blockOn l config program =>
    have hopen : (w.share l).Passes (w.share l).openCell.2 := ⟨rfl, .refl _⟩
    have hlaunch :=
      (passes_share w l).trans (hopen.trans (passes_noteBudget client config _))
    exact .of_passes (hlaunch.trans ⟨rfl, .refl _⟩)
  | blockOnWorker j config program =>
    have hopen : w.Passes w.openCell.2 := ⟨rfl, .refl _⟩
    have hlaunch := hopen.trans (passes_noteBudget client config _)
    exact .of_passes (hlaunch.trans ⟨rfl, .refl _⟩)
  | newRuntime host config onError => exact .of_passes (passes_noteBudget client config w)
  | fire q place =>
    refine .of_passes ?_
    simp only [perform]
    split
    · rename_i t w' hw
      exact passes_takeQueued hw
    · exact passes_refl w
  | discard q place =>
    refine .of_passes ?_
    simp only [perform]
    split
    · rename_i t w' hw
      exact passes_takeQueued hw
    · exact passes_refl w
  | openLoop | inspectLoop | openQueue | queuedDelays | discardAll | start | defer | slice | poll
  | runAsync | workerTurns | awaitWorker => exact .of_passes ⟨rfl, .refl _⟩

/-- What a move does to a worker. -/
theorem step_works (h : m.step client = some m') : m.Works m' i := by
  induction h using step_induction with
  | finish w control role x => exact .of_passes (finish_passes _ role x)
  | request w control r => exact perform_works r control
  | returned w control activity r => exact returnTo_works r activity control
  | panicked w control activity p => exact unwindTo_works p activity control
  | begin w control t => cases t <;> exact .of_passes ⟨rfl, .refl _⟩
  | complete =>
    refine .of_passes ?_
    simp only [complete]
    split <;> exact ⟨rfl, .refl _⟩
  | report =>
    refine .of_passes ?_
    simp only [report]
    split <;> exact ⟨rfl, .refl _⟩
  | overflow w => exact .of_passes (passes_readClock w)
  | handOver w control host delay t ho => exact handOver_works t control ho
  | drop w control ts => exact .of_passes (drop_passes _ ts)
  | pump w control l executed => exact .of_passes (pump_passes _ l executed)
  | work w control j wanted => exact work_works j wanted control
  | update | ask | resume | poll => exact .of_passes ⟨rfl, .refl _⟩

variable (client) in
/-- Time goes on in a session as the clock is read. -/
theorem run_before (m : Machine K M) (n : ℕ) :
    m.world.clock.Before (m.run client n).world.clock := by
  induction n with
  | zero => exact .refl _
  | succ n ih =>
    rw [run_succ]
    cases hs : (m.run client n).step client with
    | none => exact ih
    | some m' => exact ih.trans (step_works (i := ⟨0⟩) hs).clock

/-- No task that waits at a worker at work is due before the one that its thread takes next. -/
theorem run_ordered (hm : m.world.workers = #[]) (n : ℕ) {s : Worker (Task K)}
    (hs : (m.run client n).world.worker? i = some s) (hp : s.phase = .running) :
    TimerQueue.Ordered s.timers.heap := by
  induction n generalizing s with
  | zero => simp [run, World.worker?, hm] at hs
  | succ n ih =>
    rw [run_succ] at hs
    cases hstep : (m.run client n).step client with
    | none =>
      rw [hstep] at hs
      exact ih hs hp
    | some m' =>
      rw [hstep] at hs
      -- The worker has just been opened, or it was at work before the move.
      rcases (step_works hstep).worker hs hp with ⟨-, rfl⟩ | ⟨s₀, hs₀, hp₀, hattends⟩
      · exact TimerQueue.empty_ordered
      · have hordered := ih hs₀ hp₀
        cases hattends with
        | same | submitted | told => exact hordered
        | popped hpop =>
          obtain ⟨timers, ht, rfl⟩ := Worker.popDue_eq_some hpop
          exact TimerQueue.popDue_ordered hordered ht
        | received _ hreceive =>
          rcases Worker.receive_eq_some hreceive with ⟨due, t, channel, -, rfl⟩ | ⟨channel, -, rfl⟩
          · exact TimerQueue.push_ordered hordered _ _
          · exact hordered

end Machine

end LazyEffects
