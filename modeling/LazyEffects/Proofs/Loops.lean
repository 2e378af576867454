import LazyEffects.Proofs.Workers

/-!
# The moves of an event loop

What a move does to an event loop that has an owner afterwards: the loop has just been opened, or it
was there before and is as it was but for its owners, or it takes in a task that is deferred to it,
or it starts the task that is ahead of all others.

* `Machine.step_loop`: the moves, as an event loop sees them.
-/

namespace LazyEffects

variable {K : Codes} {M : Type}

namespace World

variable {w w' w'' : World K M} {l l' : LoopId} {s s' : EventLoop K}

theorem loop?_of_size_le (h : w.loops.size ≤ l.index) : w.loop? l = none := by
  rw [loop?, Array.getElem?_eq_none h]
  rfl

/-- As many event loops have been opened, and `l` is as it was but for its owners, or it is gone. -/
structure Steady (l : LoopId) (w w' : World K M) : Prop where
  size : w'.loops.size = w.loops.size
  loop {s' : EventLoop K} : w'.loop? l = some s' →
    ∃ s owners, w.loop? l = some s ∧ s' = { s with owners }

theorem Steady.trans (h : w.Steady l w') (h' : w'.Steady l w'') : w.Steady l w'' where
  size := h'.size.trans h.size
  loop hs := by
    obtain ⟨s₁, owners₁, hs₁, rfl⟩ := h'.loop hs
    obtain ⟨s₀, owners, hs₀, rfl⟩ := h.loop hs₁
    exact ⟨s₀, owners₁, hs₀, rfl⟩

theorem steady_of_loops (h : w'.loops = w.loops) : w.Steady l w' where
  size := by rw [h]
  loop {s'} hs := by
    rw [loop?, h] at hs
    exact ⟨s', s'.owners, hs, rfl⟩

/-- A change to an event loop that concerns its owners, or another event loop. -/
theorem steady_setLoop (h : w.loop? l' = some s)
    (hs : l' = l → ∃ owners, s' = { s with owners }) : w.Steady l (w.setLoop l' s') where
  size := by simp [setLoop]
  loop {s''} hs' := by
    rw [loop?_setLoop h] at hs'
    split at hs'
    · rename_i hl
      subst hl
      obtain ⟨owners, rfl⟩ := hs rfl
      split at hs' <;> cases hs'
      exact ⟨s, owners, h, rfl⟩
    · exact ⟨s'', s''.owners, hs', rfl⟩

variable (l) in
theorem steady_share (w : World K M) (l' : LoopId) : w.Steady l (w.share l') := by
  rw [share]
  split
  · rename_i s hs
    exact steady_setLoop hs fun _ => ⟨_, rfl⟩
  · exact steady_of_loops rfl

theorem share_clock (w : World K M) (l : LoopId) : (w.share l).clock = w.clock := by
  rw [share]
  split <;> rfl

theorem queue_share (w : World K M) (l l' : LoopId) :
    ((w.share l').loop? l).map EventLoop.queue = (w.loop? l).map EventLoop.queue := by
  rw [share]
  split
  · rename_i s hs
    rw [loop?_setLoop hs]
    split
    · rename_i hl
      rw [if_pos (Nat.succ_pos _), hl, hs]
      rfl
    · rfl
  · rfl

variable (l) in
/-- An event loop that gives up its tasks is gone. -/
theorem steady_release (w : World K M) (l' : LoopId) : w.Steady l (w.release l').2 := by
  rw [release]
  split
  · rename_i s hs
    split
    · refine ⟨by simp [setLoop], fun {s'} hs' => ?_⟩
      rw [loop?_setLoop hs] at hs'
      split at hs'
      · cases hs'
      · exact ⟨s', s'.owners, hs', rfl⟩
    · exact steady_setLoop hs fun _ => ⟨_, rfl⟩
  · exact steady_of_loops rfl

theorem takeQueued_loops {q : QueueId} {place : ℕ} {t : Task K}
    (h : w.takeQueued q place = some (t, w')) : w'.loops = w.loops := by
  rw [takeQueued] at h
  split at h <;> cases h
  rfl

/-- Nothing is taken from an event loop, or something from another one. -/
theorem steady_popLoop {x : Option (Task K × ℕ)} (h : w.popLoop l' = (x, w'))
    (hl : l' = l → x = none) : w.Steady l w' := by
  cases hs : w.loop? l' with
  | none =>
    simp only [popLoop, hs, Prod.mk.injEq] at h
    rw [← h.2]
    exact steady_of_loops rfl
  | some s =>
    have hs' : w.readClock.2.loop? l' = some s := hs
    rw [popLoop_of_loop? hs] at h
    split at h <;> cases h
    · have hread : w.Steady l w.readClock.2 := steady_of_loops rfl
      refine hread.trans (steady_setLoop hs' fun hl' => ?_)
      cases hl hl'
    · exact steady_of_loops rfl

theorem popLoop_eq_none (h : w.popLoop l = (none, w')) : w'.loops = w.loops := by
  rw [popLoop] at h
  split at h
  · cases h
    rfl
  · simp only at h
    split at h <;> cases h
    rfl

/-- A task is taken from an event loop. -/
theorem popLoop_eq_some {t : Task K} {turn : ℕ} (h : w.popLoop l = (some (t, turn), w')) :
    ∃ s queue, w.loop? l = some s ∧ s.queue.popDue w.readClock.1 = some (t, queue) ∧
      w' = w.readClock.2.setLoop l { s with queue, turns := s.turns + 1 } ∧
        w'.loop? l = some { s with queue, turns := s.turns + 1 } := by
  cases hs : w.loop? l with
  | none => simp [popLoop, hs] at h
  | some s =>
    rw [popLoop_of_loop? hs] at h
    split at h
    · rename_i task queue hq
      cases h
      have hs' : w.readClock.2.loop? l = some s := hs
      refine ⟨s, queue, rfl, hq, rfl, ?_⟩
      rw [loop?_setLoop hs', if_pos rfl, if_pos (loop?_eq_some hs).2]
    · cases h

end World

/-- The event loop is asked for a task. -/
def Focus.takesFrom (l : LoopId) : Focus K M → Bool
  | pump l' _ => l' = l
  | request (.turn l') => l' = l
  | _ => false

theorem Focus.takesFrom_iff {l : LoopId} {focus : Focus K M} : focus.takesFrom l = true ↔
    (∃ executed, focus = .pump l executed) ∨ focus = .request (.turn l) := by
  cases focus with
  | pump l' executed => simp [takesFrom]
  | request r => cases r <;> simp [takesFrom]
  | _ => simp [takesFrom]

namespace Machine

open World

variable {client : Client K M} {m m' : Machine K M} {l : LoopId} {s s' : EventLoop K}

/-! ### Timers that come and go -/

/-- The timer that the next move adds to the queue of the event loop: a task is being deferred to
the loop, which has an owner, and there is such a point in time as its due time. -/
def enters (l : LoopId) (m : Machine K M) : Option (Timer (Task K)) :=
  match m.focus with
  | .defer host delay t =>
    if host = .eventLoop l ∧ m.world.overflows host delay = false then
      (m.world.loop? l).map fun s => ⟨m.world.readClock.1 + delay.nanos, s.queue.sequence, t⟩
    else none
  | _ => none

/-- The timer that the next move takes from the queue of the event loop: the loop is asked for a
task, and the one that is ahead of all others is due. -/
def leaves (l : LoopId) (m : Machine K M) : Option (Timer (Task K)) :=
  if m.focus.takesFrom l then
    ((m.world.loop? l).bind fun s => s.queue.heap[0]?).filter fun timer =>
      timer.due ≤ m.world.readClock.1
  else none

/-- What a move does to an event loop, before and after. -/
inductive LoopMove (l : LoopId) (m : Machine K M) (s : EventLoop K) : EventLoop K → Prop
  | steady {owners : ℕ} : m.enters l = none → m.leaves l = none → LoopMove l m s { s with owners }
  /-- The loop takes in a task. -/
  | accepted {timer : Timer (Task K)} : m.enters l = some timer → m.leaves l = none →
    LoopMove l m s { s with queue := s.queue.push timer.due timer.task }
  /-- The loop gives away the task of a timer. -/
  | started {timer : Timer (Task K)} {queue : TimerQueue (Task K)} {owners : ℕ} :
    m.enters l = none → m.leaves l = some timer →
    s.queue.popDue m.world.readClock.1 = some (timer.task, queue) →
    LoopMove l m s ⟨queue, s.turns + 1, owners⟩

/-- A move, as the event loop sees it: if it has an owner afterwards, it has just been opened or had
one before. -/
structure LoopStep (l : LoopId) (m m' : Machine K M) : Prop where
  size : m.world.loops.size ≤ m'.world.loops.size
  loop {s' : EventLoop K} : m'.world.loop? l = some s' →
    (m.world.loops.size ≤ l.index ∧ s' = .opened) ∨
      ∃ s, m.world.loop? l = some s ∧ LoopMove l m s s'

theorem LoopStep.of_steady (h : m.world.Steady l m'.world) (he : m.enters l = none)
    (hl : m.leaves l = none) : LoopStep l m m' where
  size := h.size.ge
  loop hs' := by
    obtain ⟨s, owners, hs, rfl⟩ := h.loop hs'
    exact .inr ⟨s, hs, .steady he hl⟩

theorem leaves_eq_none (hf : m.focus.takesFrom l = false) : m.leaves l = none := by
  rw [leaves, hf]
  rfl

/-- An event loop without owner takes in nothing. -/
theorem enters_of_loop?_none (hs : m.world.loop? l = none) : m.enters l = none := by
  rw [enters]
  split
  · split
    · rw [hs]
      rfl
    · rfl
  · rfl

theorem leaves_of_loop?_none (hs : m.world.loop? l = none) : m.leaves l = none := by
  rw [leaves, hs]
  split <;> rfl

theorem enters_eq_some {timer : Timer (Task K)} (h : m.enters l = some timer) :
    ∃ delay s, m.focus = .defer (.eventLoop l) delay timer.task ∧ m.world.loop? l = some s ∧
      timer.due = m.world.readClock.1 + delay.nanos ∧ timer.sequence = s.queue.sequence ∧
        m.world.overflows (.eventLoop l) delay = false := by
  rw [enters] at h
  split at h
  · rename_i host delay t hf
    split at h
    · rename_i hhost
      obtain ⟨rfl, ho⟩ := hhost
      obtain ⟨s, hs, rfl⟩ := Option.map_eq_some_iff.1 h
      exact ⟨delay, s, hf, hs, rfl, rfl, ho⟩
    · cases h
  · cases h

theorem leaves_eq_some {timer : Timer (Task K)} (h : m.leaves l = some timer) :
    ∃ s, m.focus.takesFrom l = true ∧ m.world.loop? l = some s ∧ s.queue.heap[0]? = some timer ∧
      timer.due ≤ m.world.readClock.1 := by
  rw [leaves] at h
  split at h
  · rename_i hf
    obtain ⟨hroot, hdue⟩ := Option.filter_eq_some_iff.1 h
    obtain ⟨s, hs, hroot⟩ := Option.bind_eq_some_iff.1 hroot
    exact ⟨s, hf, hs, hroot, of_decide_eq_true hdue⟩
  · cases h

/-- The timer that leaves is the one whose task the queue gives away. -/
theorem leaves_map_task (hf : m.focus.takesFrom l = true) :
    (m.leaves l).map Timer.task = (((m.world.loop? l).map EventLoop.queue).bind
      fun q => q.popDue m.world.readClock.1).map Prod.fst := by
  rw [leaves, if_pos hf]
  cases m.world.loop? l with
  | none => rfl
  | some s =>
    simp only [Option.bind_some, Option.map_some, TimerQueue.popDue]
    cases s.queue.heap[0]? with
    | none => rfl
    | some root =>
      rw [Option.filter_some]
      by_cases hdue : root.due ≤ m.world.readClock.1
      · simp [hdue]
      · simp [hdue]

/-- A loop that is asked for a task gives away the task of the timer that leaves. -/
theorem leaves_of_popLoop {w w' : World K M} {x : Option (Task K × ℕ)}
    (hf : m.focus.takesFrom l = true) (hclock : w.clock = m.world.clock)
    (hqueue : (w.loop? l).map EventLoop.queue = (m.world.loop? l).map EventLoop.queue)
    (h : w.popLoop l = (x, w')) : (m.leaves l).map Timer.task = x.map Prod.fst := by
  have hread : w.readClock.1 = m.world.readClock.1 := by simp only [World.readClock, hclock]
  rw [leaves_map_task hf, ← hqueue, ← hread]
  cases hs : w.loop? l with
  | none =>
    simp only [popLoop, hs, Prod.mk.injEq] at h
    rw [← h.1]
    rfl
  | some s =>
    rw [popLoop_of_loop? hs] at h
    simp only [Option.map_some, Option.bind_some]
    split at h
    · rename_i t queue hq
      cases h
      rw [hq]
      rfl
    · rename_i hq
      cases h
      rw [hq]
      rfl

/-! ### The moves -/

/-- A task is asked for at an event loop, by one who may be a new owner. -/
theorem popLoop_step {w w' : World K M} {l' : LoopId} {x : Option (Task K × ℕ)}
    (hf : ∀ l, m.focus.takesFrom l = decide (l' = l)) (hd : m.enters l = none)
    (hw : m.world.Steady l w) (hclock : w.clock = m.world.clock)
    (hqueue : (w.loop? l).map EventLoop.queue = (m.world.loop? l).map EventLoop.queue)
    (h : w.popLoop l' = (x, w')) (hw' : m'.world.loops = w'.loops) : LoopStep l m m' := by
  have hsteady (hl : l' = l → x = none) : m.world.Steady l m'.world :=
    (hw.trans (steady_popLoop h hl)).trans (steady_of_loops hw')
  by_cases hl : l' = l
  · subst hl
    have htask := leaves_of_popLoop (by simp [hf]) hclock hqueue h
    obtain _ | ⟨t, turn⟩ := x
    · exact .of_steady (hsteady fun _ => rfl) hd (Option.map_eq_none_iff.1 htask)
    · obtain ⟨timer, hleaves, rfl⟩ := Option.map_eq_some_iff.1 htask
      obtain ⟨s₁, queue, hs₁, hpop, hpopped, hloop⟩ := popLoop_eq_some h
      obtain ⟨s, owners, hs, rfl⟩ := hw.loop hs₁
      refine ⟨?_, fun {s'} hs' => .inr ⟨s, hs, ?_⟩⟩
      · have hsize : w'.loops.size = w.loops.size := by simp [hpopped, setLoop, World.readClock]
        rw [hw', hsize, hw.size]
      · have hread : w.readClock.1 = m.world.readClock.1 := by
          simp only [World.readClock, hclock]
        rw [World.loop?, hw', ← World.loop?, hloop] at hs'
        cases hs'
        exact .started hd hleaves (hread ▸ hpop)
  · refine .of_steady (hsteady fun hl' => absurd hl' hl) hd (leaves_eq_none ?_)
    rw [hf, decide_eq_false hl]

/-- A move that is made at no event loop. -/
theorem LoopStep.of_loops (h : m'.world.loops = m.world.loops) (he : m.enters l = none)
    (hf : m.focus.takesFrom l = false) : LoopStep l m m' :=
  .of_steady (steady_of_loops h) he (leaves_eq_none hf)

theorem finish_loops (m : Machine K M) (role : Role K) (x : role.Ending) :
    (m.finish client role x).world.loops = m.world.loops := by
  cases role with
  | body => cases x <;> rfl
  | slice f =>
    obtain ⟨a, t⟩ := x
    cases a <;> rfl
  | bare => rfl
  | poll f =>
    obtain ⟨a, t⟩ := x
    cases a <;> rfl

theorem noteBudget_loops (config : Config) (w : World K M) :
    (noteBudget client config w).loops = w.loops := by
  rw [noteBudget]
  split <;> rfl

theorem work_loops (m : Machine K M) (i : WorkerId) (wanted : Option CellId) :
    (m.work client i wanted).world.loops = m.world.loops := by
  rw [work]
  split
  · rfl
  · split
    · rfl
    · simp only
      split
      · rfl
      · split
        · split
          · rfl
          · simp only [call_world]
            split <;> rfl
        · split <;> rfl

theorem perform_loop (w : World K M) (control : List (Activity K M)) (r : Request K) :
    LoopStep l ⟨w, control, .request r⟩ (perform client ⟨w, control, .request r⟩ r) := by
  have henters : enters l ⟨w, control, .request r⟩ = none := rfl
  cases r with
  | openLoop =>
    refine ⟨by simp [perform, World.openLoop], fun {s'} hs' => ?_⟩
    simp only [perform, reply_world, World.openLoop, World.loop?, Array.getElem?_push] at hs'
    split at hs'
    · rename_i hl
      obtain ⟨hs', -⟩ := Option.filter_eq_some_iff.1 hs'
      cases hs'
      exact .inl ⟨hl.ge, rfl⟩
    · exact .inr ⟨s', hs', .steady henters rfl⟩
  | shareLoop l' => exact .of_steady (steady_share l w l') henters rfl
  | releaseLoop l' => exact .of_steady (steady_release l w l') henters rfl
  | turn l' =>
    have hsteady := steady_share l w l'
    have hclock := share_clock w l'
    simp only [perform]
    split
    · rename_i t turn w' hw
      exact popLoop_step (fun _ => rfl) henters hsteady hclock (queue_share w l l') hw rfl
    · rename_i w' hw
      exact popLoop_step (fun _ => rfl) henters hsteady hclock (queue_share w l l') hw rfl
  | runUntilIdle l' => exact .of_steady (steady_share l w l') henters rfl
  | blockOn l' config program =>
    refine .of_steady ((steady_share l w l').trans (steady_of_loops ?_)) henters rfl
    exact noteBudget_loops config _
  | fire q place | discard q place =>
    refine .of_loops ?_ rfl rfl
    simp only [perform]
    split
    · rename_i hw
      exact takeQueued_loops hw
    · rfl
  | newRuntime host config onError =>
    exact .of_loops (noteBudget_loops config _) rfl rfl
  | blockOnWorker i config program =>
    exact .of_loops (noteBudget_loops config _) rfl rfl
  | stopWorker i =>
    refine .of_loops ?_ rfl rfl
    simp only [perform]
    split <;> rfl
  | inspectLoop | openQueue | queuedDelays | discardAll | start | defer | slice | poll | runAsync
  | openWorker | workerTurns | awaitWorker => exact .of_loops rfl rfl rfl

/-- A task that has no due time is taken in by no one. -/
theorem overflow_loop {w : World K M} (control : List (Activity K M)) {host : Host}
    {delay : Duration} (t : Task K) (ho : w.overflows host delay = true) :
    LoopStep l ⟨w, control, .defer host delay t⟩
      ⟨w.readClock.2, control, .answer (.error overflow)⟩ :=
  .of_steady (steady_of_loops rfl) (if_neg (by simp [ho])) rfl

theorem handOver_loop {w : World K M} (control : List (Activity K M)) {host : Host}
    {delay : Duration} (t : Task K) (ho : w.overflows host delay = false) :
    LoopStep l ⟨w, control, .defer host delay t⟩
      (handOver client ⟨w, control, .defer host delay t⟩ host delay t) := by
  by_cases hhost : host = .eventLoop l
  · subst hhost
    cases hs : w.loop? l with
    | none =>
      refine .of_steady ?_ (enters_of_loop?_none hs) rfl
      simp only [handOver, hs]
      exact steady_of_loops rfl
    | some s =>
      have hs' : w.readClock.2.loop? l = some s := hs
      refine ⟨by simp [handOver, hs, setLoop, World.observe, World.readClock], fun {s'} hs₂ => ?_⟩
      refine .inr ⟨s, hs, ?_⟩
      simp only [handOver, hs, reply_world, World.observe] at hs₂
      change (w.readClock.2.setLoop l _).loop? l = some s' at hs₂
      rw [loop?_setLoop hs', if_pos rfl, if_pos (loop?_eq_some hs).2] at hs₂
      cases hs₂
      have henters : enters l ⟨w, control, .defer (.eventLoop l) delay t⟩ =
          some ⟨w.readClock.1 + delay.nanos, s.queue.sequence, t⟩ := by
        simp [enters, hs, ho]
      exact .accepted henters rfl
  · have henters : enters l ⟨w, control, .defer host delay t⟩ = none :=
      if_neg fun h => hhost h.1
    cases host with
    | eventLoop l' =>
      cases hs : w.loop? l' with
      | none =>
        refine .of_steady ?_ henters rfl
        simp only [handOver, hs]
        exact steady_of_loops rfl
      | some s =>
        have hs' : w.readClock.2.loop? l' = some s := hs
        have hread : w.Steady l w.readClock.2 := steady_of_loops rfl
        refine .of_steady ?_ henters rfl
        simp only [handOver, hs]
        refine hread.trans ((steady_setLoop hs' fun hl => ?_).trans (steady_of_loops rfl))
        exact absurd (congrArg Host.eventLoop hl) hhost
    | recording q =>
      refine .of_steady (steady_of_loops ?_) henters rfl
      simp only [handOver]
      split <;> rfl
    | discarding => exact .of_steady (steady_of_loops rfl) henters rfl
    | worker i =>
      refine .of_steady (steady_of_loops ?_) henters rfl
      simp only [handOver]
      split <;> rfl

variable (l) in
/-- What a move does to an event loop. -/
theorem step_loop (h : m.step client = some m') : LoopStep l m m' := by
  induction h using step_induction with
  | finish w control role x =>
    exact .of_loops (finish_loops ⟨w, control, .script role (.done x)⟩ role x) rfl rfl
  | request w control r => exact perform_loop w control r
  | returned w control activity r =>
    cases activity with
    | sharing l' => exact .of_steady (steady_release l w l') rfl rfl
    | driving => cases r <;> exact .of_loops rfl rfl rfl
    | stopping i wanted =>
      refine .of_loops ?_ rfl rfl
      simp only [returnTo]
      split <;> rfl
    | joining i =>
      refine .of_loops ?_ rfl rfl
      simp only [returnTo, reply_world]
      split <;> rfl
    | code | affirming | replying | noting | pumping | thenPump | reporting | reportingSignal
    | dropping | thenWork | working => exact .of_loops rfl rfl rfl
  | panicked w control activity p =>
    cases activity with
    | sharing l' => exact .of_steady (steady_release l w l') rfl rfl
    | working i wanted | stopping i wanted =>
      refine .of_loops ?_ rfl rfl
      simp only [unwindTo, go_world, crash]
      split <;> rfl
    | code | affirming | replying | noting | pumping | thenPump | reporting | reportingSignal
    | dropping | driving | thenWork | joining => exact .of_loops rfl rfl rfl
  | begin w control t => cases t <;> exact .of_loops rfl rfl rfl
  | complete w control run v stats =>
    refine .of_loops ?_ rfl rfl
    simp only [complete]
    split <;> rfl
  | report w control run e =>
    refine .of_loops ?_ rfl rfl
    simp only [report]
    split <;> rfl
  | overflow w control host delay t ho => exact overflow_loop control t ho
  | handOver w control host delay t ho => exact handOver_loop control t ho
  | drop w control ts =>
    refine .of_loops ?_ rfl rfl
    simp only [drop]
    split <;> rfl
  | pump w control l' executed =>
    simp only [pump]
    split
    · rename_i t turn w' hw
      exact popLoop_step (fun _ => rfl) rfl (steady_of_loops rfl) rfl rfl hw rfl
    · rename_i w' hw
      split <;> exact popLoop_step (fun _ => rfl) rfl (steady_of_loops rfl) rfl rfl hw rfl
  | work w control i wanted =>
    exact .of_loops (work_loops ⟨w, control, .work i wanted⟩ i wanted) rfl rfl
  | update | ask | resume | poll => exact .of_loops rfl rfl rfl

/-! ### Those who ask an event loop for a task -/

/-- Once its task is accepted, the one who has deferred it is answered. -/
theorem step_enters {timer : Timer (Task K)} (h : m.enters l = some timer)
    (hs : m.step client = some m') : m'.focus = .answer (.ok .done) ∧ m'.control = m.control ∧
      m'.world.clock.now = m.world.readClock.1 := by
  induction hs using step_induction with
  | overflow w control host delay t ho => simp [enters, ho] at h
  | handOver w control host delay t ho =>
    obtain ⟨delay', s, hf, hloop, -⟩ := enters_eq_some h
    cases hf
    simp only [handOver, hloop]
    exact ⟨rfl, rfl, rfl⟩
  | _ => cases h

/-- Pumping an event loop: a task is begun, or there is something to wait for, or nothing. -/
theorem pump_cases {executed : ℕ} (hf : m.focus = .pump l executed) (hs : m.step client = some m') :
    (∃ timer, m.leaves l = some timer ∧ m'.focus = .begin timer.task ∧
        m'.control = .pumping l executed :: m.control) ∨
      m.leaves l = none ∧ m'.control = m.control ∧
        (m.world.nextDue l ≠ none ∧ m'.focus = .pump l executed ∨
          m.world.nextDue l = none ∧ m'.focus = .answer (.ok (.count executed)) ∧
            m'.world.nextDue l = none) := by
  have htakes : m.focus.takesFrom l = true := by simp [hf, Focus.takesFrom]
  rw [step, hf] at hs
  cases hs
  simp only [pump]
  split
  · rename_i t turn w' hw
    obtain ⟨timer, hleaves, rfl⟩ :=
      Option.map_eq_some_iff.1 (leaves_of_popLoop htakes rfl rfl hw)
    exact .inl ⟨timer, hleaves, rfl, rfl⟩
  · rename_i w' hw
    have hleaves := Option.map_eq_none_iff.1 (leaves_of_popLoop htakes rfl rfl hw)
    have hdue : w'.nextDue l = m.world.nextDue l := by
      simp only [World.nextDue, World.loop?, popLoop_eq_none hw]
    split
    · rename_i due hnext
      exact .inr ⟨hleaves, rfl, .inl ⟨by simp [← hdue, hnext], rfl⟩⟩
    · rename_i hnext
      exact .inr ⟨hleaves, rfl, .inr ⟨by rw [← hdue, hnext], rfl, hnext⟩⟩

/-- A turn of an event loop: a task is begun, or none is due. -/
theorem turn_cases (hf : m.focus = .request (.turn l)) (hs : m.step client = some m') :
    (∃ timer, m.leaves l = some timer ∧ m'.focus = .begin timer.task ∧
        m'.control = .affirming :: .sharing l :: m.control) ∨
      m.leaves l = none ∧ m'.control = .sharing l :: m.control ∧
        m'.focus = .answer (.ok (.flag false)) := by
  have htakes : m.focus.takesFrom l = true := by simp [hf, Focus.takesFrom]
  have hclock := share_clock m.world l
  have hqueue := queue_share m.world l l
  rw [step, hf] at hs
  cases hs
  simp only [perform]
  split
  · rename_i t turn w' hw
    obtain ⟨timer, hleaves, rfl⟩ :=
      Option.map_eq_some_iff.1 (leaves_of_popLoop htakes hclock hqueue hw)
    exact .inl ⟨timer, hleaves, rfl, rfl⟩
  · rename_i w' hw
    have hleaves := Option.map_eq_none_iff.1 (leaves_of_popLoop htakes hclock hqueue hw)
    exact .inr ⟨hleaves, rfl, rfl⟩

/-- A task that is started is begun next, for one who goes on pumping or answers then. -/
theorem step_leaves {timer : Timer (Task K)} (h : m.leaves l = some timer)
    (hs : m.step client = some m') : m'.focus = .begin timer.task ∧
      ((∃ executed, m.focus = .pump l executed ∧ m'.control = .pumping l executed :: m.control) ∨
        m.focus = .request (.turn l) ∧ m'.control = .affirming :: .sharing l :: m.control) := by
  obtain ⟨-, hf, -⟩ := leaves_eq_some h
  rcases Focus.takesFrom_iff.1 hf with ⟨executed, hf'⟩ | hf'
  · rcases pump_cases hf' hs with ⟨timer', hleaves, hbegin, hcontrol⟩ | ⟨hleaves, -⟩
    · rw [h] at hleaves
      cases hleaves
      exact ⟨hbegin, .inl ⟨executed, hf', hcontrol⟩⟩
    · rw [h] at hleaves
      cases hleaves
  · rcases turn_cases hf' hs with ⟨timer', hleaves, hbegin, hcontrol⟩ | ⟨hleaves, -⟩
    · rw [h] at hleaves
      cases hleaves
      exact ⟨hbegin, .inr ⟨hf', hcontrol⟩⟩
    · rw [h] at hleaves
      cases hleaves

end Machine

end LazyEffects
