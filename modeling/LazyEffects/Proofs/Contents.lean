import LazyEffects.Proofs.TimerQueue
import LazyEffects.Session.World
import Mathlib.Algebra.BigOperators.Group.Finset.Basic

/-!
# What the hosts of a session hold

Between slices the runs of a session wait at hosts, as tasks among others. How a host keeps its
tasks is of no interest here, only which they are (`World.contents`). A move of a session leaves the
hosts as they are or touches one of them (`Transfer`): it takes in a task, it hands one out to be
run, or it gives up some of its tasks, which are then dropped or lost.

* `World.Transfers` says that the contents of all hosts have changed by a transfer and by nothing
  else; there is a lemma for each operation on the objects of a session;
* `World.waiting` counts tasks over all hosts, and `World.Transfers.waiting` is its balance.
-/

namespace LazyEffects

variable {K : Codes} {M : Type}

/-- The tasks of a worker: those that wait for their time and those on their way to it. -/
def Worker.tasks {τ : Type} (s : Worker τ) : List τ :=
  s.timers.tasks ++ s.channel.filterMap Message.task?

theorem Worker.tasks_send {τ : Type} (s : Worker τ) (due : Instant) (task : τ) :
    (s.send (.submit due task)).tasks.Perm (task :: s.tasks) := by
  simp only [tasks, send, List.filterMap_append]
  rw [← List.append_assoc]
  exact List.perm_append_singleton _ _

theorem Worker.tasks_shutdown {τ : Type} (s : Worker τ) : (s.send .shutdown).tasks = s.tasks := by
  simp [tasks, send, Message.task?, List.filterMap_cons]

/-- A task that is taken has been a timer. -/
theorem Worker.popDue_eq_some {τ : Type} {s s' : Worker τ} {now : Instant} {task : τ}
    (h : s.popDue now = some (task, s')) :
    ∃ timers, s.timers.popDue now = some (task, timers) ∧
      s' = { s with timers, turns := s.turns + 1 } := by
  rw [popDue] at h
  split at h
  · rename_i t timers ht
    cases h
    exact ⟨timers, ht, rfl⟩
  · cases h

theorem Worker.popDue_eq_none {τ : Type} {s : Worker τ} {now : Instant}
    (h : s.popDue now = none) : s.timers.popDue now = none := by
  rw [popDue] at h
  split at h
  · cases h
  · assumption

/-- A message that is taken is a task, which becomes a timer, or the order to stop. -/
theorem Worker.receive_eq_some {τ : Type} {s s' : Worker τ} (h : s.receive = some s') :
    (∃ due task channel, s.channel = .submit due task :: channel ∧
      s' = { s with channel, timers := s.timers.push due task }) ∨
    ∃ channel, s.channel = .shutdown :: channel ∧ s' = { s with channel, phase := .stopping } := by
  rw [receive] at h
  split at h
  · cases h
  · rename_i due task channel hc
    cases h
    exact .inl ⟨due, task, channel, hc, rfl⟩
  · rename_i channel hc
    cases h
    exact .inr ⟨channel, hc, rfl⟩

theorem Worker.receive_eq_none {τ : Type} {s : Worker τ} (h : s.receive = none) :
    s.channel = [] := by
  rw [receive] at h
  split at h
  · assumption
  · cases h
  · cases h

theorem Worker.tasks_popDue {τ : Type} {s s' : Worker τ} {now : Instant} {task : τ}
    (h : s.popDue now = some (task, s')) : s.tasks.Perm (task :: s'.tasks) := by
  obtain ⟨timers, ht, rfl⟩ := popDue_eq_some h
  exact (TimerQueue.popDue_tasks ht).append_right _

/-- A task that is taken from the channel waits in the queue. -/
theorem Worker.tasks_receive {τ : Type} {s s' : Worker τ} (h : s.receive = some s') :
    s'.tasks.Perm s.tasks := by
  rcases receive_eq_some h with ⟨due, task, channel, hc, rfl⟩ | ⟨channel, hc, rfl⟩
  · simp only [tasks, hc, List.filterMap_cons, Message.task?]
    exact ((TimerQueue.push_tasks _ _ _).append_right _).trans List.perm_middle.symm
  · simp [tasks, hc, Message.task?, List.filterMap_cons]

theorem Worker.tasks_dropTimers {τ : Type} (s : Worker τ) :
    (s.dropTimers.2.tasks ++ s.dropTimers.1).Perm s.tasks :=
  List.perm_append_comm

theorem Worker.tasks_close {τ : Type} (s : Worker τ) :
    (s.close.2.tasks ++ s.close.1).Perm s.tasks := by
  simp [tasks, close]

/-- The tasks that wait at a host. -/
def World.contents (w : World K M) : Host → List (Task K)
  | .eventLoop l => (w.loop? l).elim [] (·.queue.tasks)
  | .recording q => (w.queue q).map Prod.snd
  | .discarding => []
  | .worker i => (w.worker? i).elim [] Worker.tasks

/-- Whether a host keeps its tasks until they are run: an event loop that has an owner, and a worker
whose thread is at work. -/
def World.Serves (w : World K M) : Host → Prop
  | .eventLoop l => ∃ s, w.loop? l = some s
  | .worker i => ∃ s, w.worker? i = some s ∧ s.phase = .running
  | .recording _ | .discarding => False

/-- What a move does to the tasks at the hosts. -/
inductive Transfer (K : Codes) where
  | none
  /-- A host takes in a task. -/
  | accept (host : Host) (t : Task K)
  /-- A host hands out a task to be run. -/
  | start (host : Host) (t : Task K)
  /-- A host gives up tasks to be dropped. -/
  | giveUp (host : Host) (ts : List (Task K))
  /-- A host gives up tasks while a panic travels. -/
  | lose (host : Host) (ts : List (Task K))

namespace Transfer

/-- The tasks that the hosts take in. -/
@[simp]
def accepted : Transfer K → List (Task K)
  | accept _ t => [t]
  | none | start _ _ | giveUp _ _ | lose _ _ => []

/-- The tasks that the hosts hand out to be run or dropped. -/
@[simp]
def handedOut : Transfer K → List (Task K)
  | start _ t => [t]
  | giveUp _ ts => ts
  | none | accept _ _ | lose _ _ => []

/-- The tasks that the hosts lose. -/
@[simp]
def lost : Transfer K → List (Task K)
  | lose _ ts => ts
  | none | accept _ _ | start _ _ | giveUp _ _ => []

end Transfer

namespace World

variable {w w' w₁ w₁' : World K M} {host : Host} {t : Task K} {ts : List (Task K)}

/-- One host hands out tasks, and the others keep what they have. -/
structure HandsOut (w w' : World K M) (host : Host) (ts : List (Task K)) : Prop where
  others : ∀ h ≠ host, w'.contents h = w.contents h
  self : (w'.contents host ++ ts).Perm (w.contents host)

/-- One host takes in a task, and the others keep what they have. -/
structure TakesIn (w w' : World K M) (host : Host) (t : Task K) : Prop where
  others : ∀ h ≠ host, w'.contents h = w.contents h
  self : (w'.contents host).Perm (t :: w.contents host)

/-- The contents of the hosts of `w'` are those of `w` after a transfer. -/
def Transfers (w w' : World K M) : Transfer K → Prop
  | .none => ∀ h, (w'.contents h).Perm (w.contents h)
  | .accept host t => w.TakesIn w' host t
  | .start host t => w.HandsOut w' host [t]
  | .giveUp host ts => w.HandsOut w' host ts
  | .lose host ts => w.HandsOut w' host ts

theorem HandsOut.congr (h : w.HandsOut w' host ts) (hw : w₁.contents = w.contents)
    (hw' : w₁'.contents = w'.contents) : w₁.HandsOut w₁' host ts := by
  constructor
  · rw [hw, hw']
    exact h.others
  · rw [hw, hw']
    exact h.self

theorem TakesIn.congr (h : w.TakesIn w' host t) (hw : w₁.contents = w.contents)
    (hw' : w₁'.contents = w'.contents) : w₁.TakesIn w₁' host t := by
  constructor
  · rw [hw, hw']
    exact h.others
  · rw [hw, hw']
    exact h.self

theorem HandsOut.mem (h : w.HandsOut w' host ts) {h' : Host} (ht : t ∈ w.contents h') :
    t ∈ w'.contents h' ∨ h' = host ∧ t ∈ ts := by
  by_cases hh : h' = host
  · subst hh
    rw [← h.self.mem_iff, List.mem_append] at ht
    exact ht.imp_right fun ht => ⟨rfl, ht⟩
  · rw [h.others h' hh]
    exact .inl ht

/-- A task stays at its host unless the host hands it out, gives it up or loses it. -/
theorem Transfers.mem {x : Transfer K} (h : w.Transfers w' x) (ht : t ∈ w.contents host) :
    t ∈ w'.contents host ∨ x = .start host t ∨
      ∃ ts, t ∈ ts ∧ (x = .giveUp host ts ∨ x = .lose host ts) := by
  cases x with
  | none => exact .inl ((h host).mem_iff.2 ht)
  | accept host' t' =>
    by_cases hh : host = host'
    · subst hh
      exact .inl (h.self.mem_iff.2 (List.mem_cons_of_mem _ ht))
    · rw [h.others host hh]
      exact .inl ht
  | start host' t' =>
    refine (HandsOut.mem h ht).imp_right fun ⟨hh, ht'⟩ => .inl ?_
    rw [hh, List.mem_singleton.1 ht']
  | giveUp host' ts =>
    refine (HandsOut.mem h ht).imp_right fun ⟨hh, ht'⟩ => .inr ⟨ts, ht', .inl ?_⟩
    rw [hh]
  | lose host' ts =>
    refine (HandsOut.mem h ht).imp_right fun ⟨hh, ht'⟩ => .inr ⟨ts, ht', .inr ?_⟩
    rw [hh]

/-- Contents depend on loops, queues and workers only. -/
theorem contents_congr (hl : w'.loops = w.loops) (hq : w'.queues = w.queues)
    (hw : w'.workers = w.workers) : w'.contents = w.contents := by
  funext h
  cases h <;> simp [contents, loop?, queue, worker?, hl, hq, hw]

/-! ### Operations that leave the contents alone -/

@[simp] theorem contents_observe (client : Client K M) (e : Event) (w : World K M) :
    (w.observe client e).contents = w.contents := contents_congr rfl rfl rfl

@[simp] theorem contents_memory (w : World K M) (memory : M) :
    ({ w with memory } : World K M).contents = w.contents := contents_congr rfl rfl rfl

@[simp] theorem contents_readClock (w : World K M) : w.readClock.2.contents = w.contents :=
  contents_congr rfl rfl rfl

@[simp] theorem contents_sleepUntil (w : World K M) (due : Instant) :
    (w.sleepUntil due).contents = w.contents := contents_congr rfl rfl rfl

@[simp] theorem contents_openCell (w : World K M) : w.openCell.2.contents = w.contents :=
  contents_congr rfl rfl rfl

@[simp] theorem contents_setCell (w : World K M) (c : CellId) (content : Cell K) :
    (w.setCell c content).contents = w.contents := contents_congr rfl rfl rfl

@[simp] theorem contents_nextRun (w : World K M) : w.nextRun.2.contents = w.contents :=
  contents_congr rfl rfl rfl

@[simp] theorem contents_openLoop (w : World K M) : w.openLoop.2.contents = w.contents := by
  funext h
  cases h with
  | eventLoop l =>
    simp only [contents, openLoop, loop?, Array.getElem?_push]
    split
    · rename_i hl
      rw [hl]
      simp [EventLoop.opened, TimerQueue.empty, TimerQueue.tasks, Option.filter]
    · rfl
  | recording | discarding | worker => rfl

@[simp] theorem contents_openQueue (w : World K M) : w.openQueue.2.contents = w.contents := by
  funext h
  cases h with
  | eventLoop => rfl
  | recording q =>
    simp only [contents, openQueue, queue, Array.getElem?_push]
    split
    · rename_i hq
      rw [hq]
      simp
    · rfl
  | discarding | worker => rfl

@[simp] theorem contents_openWorker (w : World K M) : w.openWorker.2.contents = w.contents := by
  funext h
  cases h with
  | eventLoop | recording | discarding => rfl
  | worker i =>
    simp only [contents, openWorker, worker?, Array.getElem?_push]
    split
    · rename_i hi
      rw [hi]
      simp [Worker.spawned, Worker.tasks, TimerQueue.empty, TimerQueue.tasks]
    · rfl

/-! ### Event loops -/

theorem loop?_eq_some {l : LoopId} {s : EventLoop K} (h : w.loop? l = some s) :
    w.loops[l.index]? = some s ∧ 0 < s.owners := by
  simpa [loop?, Option.filter_eq_some_iff] using h

theorem loop?_setLoop {l : LoopId} {s : EventLoop K} (h : w.loop? l = some s) (s' : EventLoop K)
    (l' : LoopId) :
    (w.setLoop l s').loop? l' =
      if l' = l then (if 0 < s'.owners then some s' else none) else w.loop? l' := by
  obtain ⟨hl, -⟩ := loop?_eq_some h
  obtain ⟨hi, -⟩ := Array.getElem?_eq_some_iff.1 hl
  by_cases hll : l' = l
  · subst hll
    simp [loop?, setLoop, hi, Option.filter]
  · have hne : l.index ≠ l'.index := fun he => hll (LoopId.ext he.symm)
    simp [loop?, setLoop, hll, hne]

theorem contents_setLoop {l : LoopId} {s : EventLoop K} (h : w.loop? l = some s)
    (s' : EventLoop K) (host : Host) :
    (w.setLoop l s').contents host =
      if host = .eventLoop l then (if 0 < s'.owners then s'.queue.tasks else [])
      else w.contents host := by
  cases host with
  | eventLoop l' =>
    simp only [contents, loop?_setLoop h, Host.eventLoop.injEq]
    by_cases hll : l' = l
    · simp only [hll, if_true]
      by_cases ho : 0 < s'.owners <;> simp [ho]
    · simp [hll]
  | recording | discarding | worker => rfl

theorem contents_loop {l : LoopId} {s : EventLoop K} (h : w.loop? l = some s) :
    w.contents (.eventLoop l) = s.queue.tasks := by
  simp [contents, h]

@[simp] theorem contents_share (w : World K M) (l : LoopId) :
    (w.share l).contents = w.contents := by
  rw [share]
  split
  · rename_i s hs
    funext host
    rw [contents_setLoop hs]
    split
    · rename_i hh
      simp [hh, contents_loop hs]
    · rfl
  · rfl

@[simp] theorem share_runs (w : World K M) (l : LoopId) : (w.share l).runs = w.runs := by
  rw [share]
  split <;> rfl

@[simp] theorem share_cells (w : World K M) (l : LoopId) : (w.share l).cells = w.cells := by
  rw [share]
  split <;> rfl

/-- With its last owner an event loop gives up its tasks. -/
theorem release_handsOut (w : World K M) (l : LoopId) :
    w.HandsOut (w.release l).2 (.eventLoop l) (w.release l).1 := by
  rw [release]
  split
  · rename_i s hs
    have ho := (loop?_eq_some hs).2
    split
    · constructor
      · intro h hne
        simp [contents_setLoop hs, hne]
      · simp [contents_setLoop hs, contents_loop hs]
    · constructor
      · intro h hne
        simp [contents_setLoop hs, hne]
      · have : 0 < s.owners - 1 := by omega
        simp [contents_setLoop hs, contents_loop hs, this]
  · exact ⟨fun _ _ => rfl, by simp⟩

/-- An event loop that is not gone afterwards has given up nothing. -/
theorem release_eq_nil {l : LoopId} (h : (w.release l).2.Serves (.eventLoop l)) :
    (w.release l).1 = [] := by
  rw [release] at h ⊢
  split
  · rename_i s hs
    simp only [hs] at h
    split
    · rename_i ho
      rw [if_pos ho] at h
      obtain ⟨s', hs'⟩ := h
      simp [loop?_setLoop hs] at hs'
    · rfl
  · rfl

theorem popLoop_of_loop? {l : LoopId} {s : EventLoop K} (h : w.loop? l = some s) :
    w.popLoop l = match s.queue.popDue w.readClock.1 with
      | some (task, queue) =>
        (some (task, s.turns + 1),
          w.readClock.2.setLoop l { s with queue, turns := s.turns + 1 })
      | none => (none, w.readClock.2) := by
  cases hp : s.queue.popDue w.readClock.1 with
  | none => simp [popLoop, h, hp]
  | some popped => simp [popLoop, h, hp]

theorem popLoop_handsOut {l : LoopId} {turn : ℕ} (h : w.popLoop l = (some (t, turn), w')) :
    w.HandsOut w' (.eventLoop l) [t] := by
  cases hs : w.loop? l with
  | none => simp [popLoop, hs] at h
  | some s =>
    rw [popLoop_of_loop? hs] at h
    split at h
    · rename_i task queue hq
      cases h
      have hs' : w.readClock.2.loop? l = some s := hs
      have ho := (loop?_eq_some hs).2
      constructor
      · intro h hne
        simp [contents_setLoop hs', hne]
      · rw [contents_setLoop hs', if_pos rfl, if_pos ho, contents_loop hs]
        exact (List.perm_append_singleton _ _).trans (TimerQueue.popDue_tasks hq).symm
    · cases h

theorem popLoop_none {l : LoopId} (h : w.popLoop l = (none, w')) : w'.contents = w.contents := by
  cases hs : w.loop? l with
  | none =>
    simp only [popLoop, hs, Prod.mk.injEq, true_and] at h
    rw [h]
  | some s =>
    rw [popLoop_of_loop? hs] at h
    split at h
    · cases h
    · cases h
      exact contents_readClock w

/-- An event loop takes in a task. -/
theorem setLoop_takesIn {l : LoopId} {s : EventLoop K} (h : w.loop? l = some s) (due : Instant)
    (t : Task K) :
    w.TakesIn (w.setLoop l { s with queue := s.queue.push due t }) (.eventLoop l) t := by
  have ho := (loop?_eq_some h).2
  constructor
  · intro h' hne
    simp [contents_setLoop h, hne]
  · simpa [contents_setLoop h, contents_loop h, ho] using TimerQueue.push_tasks s.queue due t

/-! ### Recording hosts -/

theorem contents_setQueue {q : QueueId} (h : w.hasQueue q) (tasks : List (Duration × Task K))
    (host : Host) :
    (w.setQueue q tasks).contents host =
      if host = .recording q then tasks.map Prod.snd else w.contents host := by
  cases host with
  | eventLoop l => rfl
  | recording q' =>
    have hq : q.index < w.queues.size := by simpa [hasQueue] using h
    by_cases hqq : q' = q
    · subst hqq
      simp [contents, queue, setQueue, hq]
    · have hne : q.index ≠ q'.index := fun he => hqq (QueueId.ext he.symm)
      simp [contents, queue, setQueue, hqq, hne]
  | discarding | worker => rfl

theorem queue_eq_nil {q : QueueId} (h : ¬ w.hasQueue q) : w.queue q = [] := by
  have : w.queues.size ≤ q.index := by simpa [hasQueue] using h
  simp [queue, this]

theorem queue_setQueue {q : QueueId} (h : w.hasQueue q) (tasks : List (Duration × Task K)) :
    (w.setQueue q tasks).queue q = tasks := by
  have : q.index < w.queues.size := by simpa [hasQueue] using h
  simp [queue, setQueue, this]

theorem hasQueue_setQueue {q : QueueId} (h : w.hasQueue q) (tasks : List (Duration × Task K)) :
    (w.setQueue q tasks).hasQueue q := by
  simpa [hasQueue, setQueue] using h

theorem takeQueued_handsOut {q : QueueId} {place : ℕ} (h : w.takeQueued q place = some (t, w')) :
    w.HandsOut w' (.recording q) [t] := by
  rw [takeQueued] at h
  split at h
  · rename_i d task ht
    cases h
    have hq : w.hasQueue q := by
      by_contra hq
      simp [queue_eq_nil hq] at ht
    obtain ⟨hp, ht⟩ := List.getElem?_eq_some_iff.1 ht
    constructor
    · intro h hne
      simp [contents_setQueue hq, hne]
    · have herase := (List.getElem_cons_eraseIdx_perm hp).map Prod.snd
      rw [ht] at herase
      rw [contents_setQueue hq, if_pos rfl]
      exact (List.perm_append_singleton _ _).trans herase
  · cases h

theorem clearQueue_handsOut (w : World K M) (q : QueueId) :
    w.HandsOut (w.setQueue q []) (.recording q) ((w.queue q).map Prod.snd) := by
  by_cases hq : w.hasQueue q
  · constructor
    · intro h hne
      simp [contents_setQueue hq, hne]
    · rw [contents_setQueue hq, if_pos rfl]
      exact .refl _
  · have hsize : w.queues.size ≤ q.index := by simpa [hasQueue] using hq
    have hset : w.setQueue q [] = w := by
      rw [setQueue, Array.setIfInBounds_eq_of_size_le hsize]
    rw [hset, queue_eq_nil hq]
    exact ⟨fun _ _ => rfl, by simp⟩

theorem setQueue_takesIn {q : QueueId} (h : w.hasQueue q) (delay : Duration) (t : Task K) :
    w.TakesIn (w.setQueue q (w.queue q ++ [(delay, t)])) (.recording q) t := by
  constructor
  · intro h' hne
    simp [contents_setQueue h, hne]
  · rw [contents_setQueue h, if_pos rfl, List.map_append]
    exact List.perm_append_singleton _ _

/-! ### Workers -/

theorem worker?_setWorker {i : WorkerId} {s : Worker (Task K)} (h : w.worker? i = some s)
    (s' : Worker (Task K)) (i' : WorkerId) :
    (w.setWorker i s').worker? i' = if i' = i then some s' else w.worker? i' := by
  obtain ⟨hi, -⟩ := Array.getElem?_eq_some_iff.1 h
  by_cases hii : i' = i
  · subst hii
    simp [worker?, setWorker, hi]
  · have hne : i.index ≠ i'.index := fun he => hii (WorkerId.ext he.symm)
    simp [worker?, setWorker, hii, hne]

theorem contents_setWorker {i : WorkerId} {s : Worker (Task K)} (h : w.worker? i = some s)
    (s' : Worker (Task K)) (host : Host) :
    (w.setWorker i s').contents host =
      if host = .worker i then s'.tasks else w.contents host := by
  cases host with
  | eventLoop | recording | discarding => rfl
  | worker i' =>
    simp only [contents, worker?_setWorker h, Host.worker.injEq]
    by_cases hii : i' = i
    · simp [hii]
    · simp [hii]

theorem contents_worker {i : WorkerId} {s : Worker (Task K)} (h : w.worker? i = some s) :
    w.contents (.worker i) = s.tasks := by
  simp [contents, h]

/-- A worker whose thread is not at work does not serve. -/
theorem not_serves_setWorker {i : WorkerId} {s : Worker (Task K)} (h : w.worker? i = some s)
    (s' : Worker (Task K)) (hs : s'.phase ≠ .running) :
    ¬ (w.setWorker i s').Serves (.worker i) := by
  rintro ⟨s'', hs'', hp⟩
  rw [worker?_setWorker h, if_pos rfl] at hs''
  cases hs''
  exact hs hp

/-- A worker hands out tasks if they are what its new state lacks. -/
theorem setWorker_handsOut {i : WorkerId} {s s' : Worker (Task K)} (h : w.worker? i = some s)
    (hs : (s'.tasks ++ ts).Perm s.tasks) : w.HandsOut (w.setWorker i s') (.worker i) ts := by
  constructor
  · intro h' hne
    simp [contents_setWorker h, hne]
  · simpa [contents_setWorker h, contents_worker h] using hs

theorem setWorker_contents {i : WorkerId} {s s' : Worker (Task K)} (h : w.worker? i = some s)
    (hs : s'.tasks.Perm s.tasks) (host : Host) :
    ((w.setWorker i s').contents host).Perm (w.contents host) := by
  rw [contents_setWorker h]
  split
  · rename_i hh
    rwa [hh, contents_worker h]
  · exact .refl _

theorem setWorker_takesIn {i : WorkerId} {s s' : Worker (Task K)} (h : w.worker? i = some s)
    (hs : s'.tasks.Perm (t :: s.tasks)) : w.TakesIn (w.setWorker i s') (.worker i) t := by
  constructor
  · intro h' hne
    simp [contents_setWorker h, hne]
  · simpa [contents_setWorker h, contents_worker h] using hs

/-! ### All hosts -/

/-- The hosts of a session. -/
def hosts (w : World K M) : Finset Host :=
  (Finset.range w.loops.size).image (fun i => .eventLoop ⟨i⟩) ∪
    (Finset.range w.queues.size).image (fun i => .recording ⟨i⟩) ∪
      (Finset.range w.workers.size).image (fun i => .worker ⟨i⟩)

/-- A host that is not there holds nothing. -/
theorem contents_of_notMem (h : host ∉ w.hosts) : w.contents host = [] := by
  simp only [hosts, Finset.mem_union, Finset.mem_image, Finset.mem_range, not_or] at h
  obtain ⟨⟨hl, hq⟩, hw⟩ := h
  cases host with
  | eventLoop l =>
    have : ¬ l.index < w.loops.size := fun hlt => hl ⟨l.index, hlt, rfl⟩
    simp [contents, loop?, this]
  | recording q =>
    have : ¬ q.index < w.queues.size := fun hlt => hq ⟨q.index, hlt, rfl⟩
    simp [contents, queue, this]
  | discarding => rfl
  | worker i =>
    have : ¬ i.index < w.workers.size := fun hlt => hw ⟨i.index, hlt, rfl⟩
    simp [contents, worker?, this]

/-- The number of tasks with the given property that wait at the hosts. -/
def waiting (w : World K M) (key : Task K → Bool) : ℕ :=
  ∑ host ∈ w.hosts, (w.contents host).countP key

/-- Hosts that are not there may be counted along. -/
theorem waiting_eq_sum {hosts : Finset Host} (h : w.hosts ⊆ hosts) (key : Task K → Bool) :
    w.waiting key = ∑ host ∈ hosts, (w.contents host).countP key := by
  refine Finset.sum_subset h fun host _ hn => ?_
  rw [contents_of_notMem hn, List.countP_nil]

/-- The count with one host apart. -/
theorem waiting_eq_add {hosts : Finset Host} (h : w.hosts ⊆ hosts) (key : Task K → Bool)
    (host : Host) (hm : host ∈ hosts) :
    w.waiting key = (w.contents host).countP key +
      ∑ h ∈ hosts.erase host, (w.contents h).countP key := by
  rw [waiting_eq_sum h]
  exact (Finset.add_sum_erase hosts (fun h => (w.contents h).countP key) hm).symm

theorem countP_le_waiting (w : World K M) (host : Host) (key : Task K → Bool) :
    (w.contents host).countP key ≤ w.waiting key := by
  by_cases hm : host ∈ w.hosts
  · rw [waiting_eq_add (Finset.Subset.refl w.hosts) key host hm]
    exact Nat.le_add_right _ _
  · rw [contents_of_notMem hm, List.countP_nil]
    exact Nat.zero_le _

/-- A task that waits is counted. -/
theorem waiting_pos (key : Task K → Bool) (ht : t ∈ w.contents host) (hk : key t = true) :
    0 < w.waiting key :=
  (List.countP_pos_iff.2 ⟨t, ht, hk⟩).trans_le (countP_le_waiting w host key)

theorem waiting_of_others (host : Host) (h : ∀ h ≠ host, w'.contents h = w.contents h)
    (key : Task K → Bool) :
    w'.waiting key + (w.contents host).countP key =
      w.waiting key + (w'.contents host).countP key := by
  have hs : w.hosts ⊆ insert host (w.hosts ∪ w'.hosts) := fun x hx => by simp [hx]
  have hs' : w'.hosts ⊆ insert host (w.hosts ∪ w'.hosts) := fun x hx => by simp [hx]
  rw [waiting_eq_add hs key host (by simp), waiting_eq_add hs' key host (by simp)]
  have hsum : ∀ x ∈ (insert host (w.hosts ∪ w'.hosts)).erase host,
      (w'.contents x).countP key = (w.contents x).countP key :=
    fun x hx => by rw [h x (Finset.ne_of_mem_erase hx)]
  rw [Finset.sum_congr rfl hsum]
  omega

/-- The balance of a transfer over all hosts. -/
theorem Transfers.waiting {x : Transfer K} (h : w.Transfers w' x) (key : Task K → Bool) :
    w'.waiting key + (x.handedOut ++ x.lost).countP key =
      w.waiting key + x.accepted.countP key := by
  have handsOut {host : Host} {ts : List (Task K)} (h : w.HandsOut w' host ts) :
      w'.waiting key + ts.countP key = w.waiting key := by
    have ho := waiting_of_others host h.others key
    have hp := h.self.countP_eq key
    rw [List.countP_append] at hp
    omega
  cases x with
  | none =>
    have hs : w'.hosts ⊆ w.hosts ∪ w'.hosts := Finset.subset_union_right
    rw [waiting_eq_sum hs, waiting_eq_sum Finset.subset_union_left key]
    simp only [Transfer.handedOut, Transfer.lost, Transfer.accepted, List.append_nil,
      List.countP_nil, Nat.add_zero]
    exact Finset.sum_congr rfl fun host _ => (h host).countP_eq key
  | accept host t =>
    have ho := waiting_of_others host h.others key
    have hp := h.self.countP_eq key
    rw [List.countP_cons] at hp
    simp only [Transfer.handedOut, Transfer.lost, Transfer.accepted, List.append_nil,
      List.countP_nil, List.countP_singleton]
    omega
  | start host t => simpa using handsOut h
  | giveUp host ts => simpa using handsOut h
  | lose host ts => simpa using handsOut h

end World

end LazyEffects
