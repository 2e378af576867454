import LazyEffects.Proofs.Contents
import Mathlib.Data.List.Range
import Mathlib.Logic.Relation

/-!
# Schedules of a worker

A worker and any number of other threads that hand tasks to it, in any interleaving. To hand in a
task a thread reads the clock, which gives the due time, and afterwards sends the message; between
the two the others may do anything. The thread of the worker hands in tasks as well, from within the
tasks that it runs or drops. Tasks are numbered in the order in which their due times are computed,
and what they do is left open. One of the threads may give the order to stop, once. Time passes at
any moment.

A schedule keeps, beside the state of the worker, what has happened so far: all that was handed in,
the messages that the channel has accepted, the tasks that were executed and those that were
dropped.

* `Schedule.Step` and `Schedule.Reachable` are the moves and the schedules that come about;
* `Schedule.Reachable.counted` and `Schedule.Reachable.sent_in_turn` are about the messages: each
  task is handed over once, and tasks of one thread in the order in which it has read the clock.
-/

namespace LazyEffects

/-- What is at a place of a list to which something has been added at the end. -/
theorem getElem?_concat_eq_some {α : Type} {l : List α} {a b : α} {q : ℕ} :
    (l ++ [a])[q]? = some b ↔ l[q]? = some b ∨ q = l.length ∧ a = b := by
  rcases Nat.lt_trichotomy q l.length with hlt | rfl | hgt
  · rw [List.getElem?_append_left hlt]
    simp [hlt.ne]
  · simp
  · rw [List.getElem?_eq_none (by simpa using Nat.succ_le_of_lt hgt), List.getElem?_eq_none hgt.le]
    simp [hgt.ne']

theorem Worker.accepts_of_running {τ : Type} {w : Worker τ} (h : w.phase = .running) :
    w.accepts := by
  simp [accepts, h]

/-- A task as it was handed in. -/
structure Submission where
  /-- The thread that hands it in; `none` is the thread of the worker. -/
  thread : Option ℕ
  delay : Duration
  /-- When the clock was read. -/
  time : Instant

/-- When the task may be executed. -/
def Submission.due (x : Submission) : Instant := x.time + x.delay.nanos

/-- Where the thread of a worker stands between two moves. -/
inductive Station where
  /-- It is about to look for a task that is due. -/
  | looking
  /-- It waits for a message, or until a task is due. -/
  | waiting
  /-- It runs a task. -/
  | running (n : ℕ)
  /-- It has left its loop and drops tasks. -/
  | dropping (ns : List ℕ)
  /-- It has ended. -/
  | ended

namespace Station

/-- Code of the client runs: a task, or what is done when a task is dropped. -/
def IsBusy : Station → Prop
  | running _ => True
  | dropping ns => ns ≠ []
  | looking | waiting | ended => False

/-- The phase in which a worker is while its thread stands there. -/
def Fits : Station → WorkerPhase → Prop
  | looking, phase | waiting, phase | running _, phase => phase = .running
  | dropping _, phase => phase = .stopping ∨ phase = .exited
  | ended, phase => phase = .exited

/-- The tasks that are still to be dropped. -/
def left : Station → List ℕ
  | dropping ns => ns
  | looking | waiting | running _ | ended => []

end Station

/-- A worker, those who hand tasks to it, and what has happened so far. -/
structure Schedule where
  now : Instant
  worker : Worker ℕ
  station : Station
  /-- The tasks handed in, by their numbers. -/
  submissions : List Submission
  /-- The tasks whose due time is computed and whose message is not sent yet. -/
  unsent : List ℕ
  /-- The messages that the channel has accepted, oldest first. -/
  sent : List (Message ℕ)
  /-- The tasks that the channel has refused, dropped by those who wanted to send them. -/
  refused : List ℕ
  /-- The number of messages that the thread of the worker has taken. -/
  taken : ℕ
  /-- The tasks executed, oldest first, with the times at which they were started. -/
  executed : List (ℕ × Instant)
  /-- The tasks that the thread of the worker has dropped. -/
  dropped : List ℕ

namespace Schedule

/-- A worker has just been started. -/
def initial (now : Instant) : Schedule where
  now
  worker := .spawned
  station := .looking
  submissions := []
  unsent := []
  sent := []
  refused := []
  taken := 0
  executed := []
  dropped := []

/-- A thread has sent all messages whose due times it has computed. -/
def IsFree (s : Schedule) (thread : Option ℕ) : Prop :=
  ∀ n ∈ s.unsent, ∀ x, s.submissions[n]? = some x → x.thread ≠ thread

/-- The tasks in the messages that the channel has accepted. -/
def tasks (s : Schedule) : List ℕ := s.sent.filterMap Message.task?

/-- A move of one of the threads, or time that passes. -/
inductive Step : Schedule → Schedule → Prop
  | tick (s : Schedule) (now : Instant) : s.now ≤ now → Step s { s with now }
  /-- A thread reads the clock to hand in a task. -/
  | read (s : Schedule) (thread : Option ℕ) (delay : Duration) :
    s.IsFree thread → (thread = none → s.station.IsBusy) →
    Step s { s with
      submissions := s.submissions ++ [⟨thread, delay, s.now⟩]
      unsent := s.submissions.length :: s.unsent }
  /-- The channel accepts a task. -/
  | sent (s : Schedule) (n : ℕ) (x : Submission) :
    n ∈ s.unsent → s.submissions[n]? = some x → s.worker.accepts →
    Step s { s with
      worker := s.worker.send (.submit x.due n)
      unsent := s.unsent.erase n
      sent := s.sent ++ [.submit x.due n] }
  /-- The other end of the channel is gone, and the task is dropped at once. -/
  | refused (s : Schedule) (n : ℕ) :
    n ∈ s.unsent → ¬ s.worker.accepts →
    Step s { s with unsent := s.unsent.erase n, refused := n :: s.refused }
  /-- The order to stop is given. -/
  | told (s : Schedule) :
    .shutdown ∉ s.sent →
    Step s { s with worker := s.worker.send .shutdown, sent := s.sent ++ [.shutdown] }
  | started (s : Schedule) (n : ℕ) (worker : Worker ℕ) :
    s.station = .looking → s.worker.popDue s.now = some (n, worker) →
    Step s { s with
      worker, station := .running n, executed := s.executed ++ [(n, s.now)] }
  | nothingDue (s : Schedule) :
    s.station = .looking → s.worker.popDue s.now = none → Step s { s with station := .waiting }
  /-- A task returns. -/
  | returned (s : Schedule) (n : ℕ) :
    s.station = .running n → s.IsFree none → Step s { s with station := .looking }
  /-- The time has come for which the thread has waited. A message may have come at that moment. -/
  | timedOut (s : Schedule) (due : Instant) :
    s.station = .waiting → s.worker.timers.nextDue = some due → due ≤ s.now →
    Step s { s with station := .looking }
  | received (s : Schedule) (worker : Worker ℕ) :
    s.station = .waiting → s.worker.receive = some worker → worker.phase = .running →
    Step s { s with worker, station := .looking, taken := s.taken + 1 }
  /-- The order to stop has come: the tasks that wait for their time are to be dropped. -/
  | stopped (s : Schedule) (worker : Worker ℕ) :
    s.station = .waiting → s.worker.receive = some worker → worker.phase ≠ .running →
    Step s { s with
      worker := worker.dropTimers.2
      station := .dropping worker.dropTimers.1
      taken := s.taken + 1 }
  | dropped (s : Schedule) (n : ℕ) (ns : List ℕ) :
    s.station = .dropping (n :: ns) → s.IsFree none →
    Step s { s with station := .dropping ns, dropped := s.dropped ++ [n] }
  /-- The thread gives up its end of the channel: the tasks in it are to be dropped. -/
  | closed (s : Schedule) :
    s.station = .dropping [] → s.worker.phase = .stopping →
    Step s { s with worker := s.worker.close.2, station := .dropping s.worker.close.1 }
  | exited (s : Schedule) :
    s.station = .dropping [] → s.worker.phase = .exited → Step s { s with station := .ended }

/-- The schedules that come about. -/
inductive Reachable : Schedule → Prop
  | initial (now : Instant) : Reachable (initial now)
  | step {s s' : Schedule} : Reachable s → Step s s' → Reachable s'

variable {s s' : Schedule} {n i j p q : ℕ} {x y : Submission} {due due' : Instant}

theorem mem_tasks_iff :
    n ∈ s.tasks ↔ ∃ (p : ℕ) (due : Instant), s.sent[p]? = some (.submit due n) := by
  constructor
  · intro hn
    obtain ⟨m, hm, hn⟩ := List.mem_filterMap.1 hn
    obtain ⟨p, hp⟩ := List.mem_iff_getElem?.1 hm
    cases m with
    | submit due n' =>
      cases hn
      exact ⟨p, due, hp⟩
    | shutdown => cases hn
  · rintro ⟨p, due, hp⟩
    exact List.mem_filterMap.2 ⟨_, List.mem_of_getElem? hp, rfl⟩

/-- What is reached from a schedule that comes about comes about. -/
theorem Reachable.trans (h : Reachable s) (hs : Relation.ReflTransGen Step s s') :
    Reachable s' := by
  induction hs with
  | refl => exact h
  | tail _ hstep ih => exact ih.step hstep

namespace Reachable

/-! ### The order in which due times are computed -/

theorem time_le_now (h : Reachable s) (hx : x ∈ s.submissions) : x.time ≤ s.now := by
  induction h with
  | initial => cases hx
  | step h hstep ih =>
    cases hstep with
    | tick now hle => exact (ih hx).trans hle
    | read thread delay =>
      rcases List.mem_append.1 hx with hx | hx
      · exact ih hx
      · rw [List.mem_singleton.1 hx]
    | sent | refused | told | started | nothingDue | returned | timedOut | received | stopped
    | dropped | closed | exited => exact ih hx

/-- The clock does not go back. -/
theorem times_sorted (h : Reachable s) : s.submissions.Pairwise (·.time ≤ ·.time) := by
  induction h with
  | initial => exact .nil
  | step h hstep ih =>
    cases hstep with
    | read thread delay =>
      refine List.pairwise_append.2 ⟨ih, List.pairwise_singleton _ _, fun x hx y hy => ?_⟩
      rw [List.mem_singleton.1 hy]
      exact h.time_le_now hx
    | tick | sent | refused | told | started | nothingDue | returned | timedOut | received
    | stopped | dropped | closed | exited => exact ih

/-! ### Messages -/

/-- Each task handed in is on its way to the channel, refused by it, or accepted. -/
theorem counted (h : Reachable s) :
    (s.unsent ++ s.refused ++ s.tasks).Perm (List.range s.submissions.length) := by
  induction h with
  | initial => exact .refl _
  | @step s _ h hstep ih =>
    cases hstep with
    | read thread delay =>
      rw [List.length_append, List.length_singleton, List.range_succ]
      exact (ih.cons _).trans (List.perm_append_singleton _ _).symm
    | sent n x hn =>
      refine List.Perm.trans ?_ ih
      have herase := List.perm_cons_erase hn
      simp only [tasks, List.filterMap_append, List.filterMap_cons, List.filterMap_nil,
        Message.task?]
      rw [← List.append_assoc]
      refine (List.perm_append_singleton _ _).trans ?_
      rw [← List.cons_append, ← List.cons_append]
      exact (herase.symm.append_right _).append_right _
    | refused n hn =>
      refine List.Perm.trans (.append_right _ ?_) ih
      exact List.perm_middle.trans ((List.perm_cons_erase hn).symm.append_right _)
    | told =>
      simpa [tasks, Message.task?, List.filterMap_cons] using ih
    | tick | started | nothingDue | returned | timedOut | received | stopped | dropped | closed
    | exited => exact ih

/-- The numbers of tasks are given out once. -/
theorem nodup (h : Reachable s) : (s.unsent ++ s.refused ++ s.tasks).Nodup :=
  h.counted.nodup_iff.2 List.nodup_range

theorem lt_of_unsent (h : Reachable s) (hn : n ∈ s.unsent) : n < s.submissions.length := by
  have hmem : n ∈ s.unsent ++ s.refused ++ s.tasks := by simp [hn]
  exact List.mem_range.1 (h.counted.mem_iff.1 hmem)

/-- A task is sent in one message only. -/
theorem sent_unique (h : Reachable s) (hp : s.sent[p]? = some (.submit due n))
    (hq : s.sent[q]? = some (.submit due' n)) : p = q := by
  have hnodup : s.tasks.Nodup := (List.nodup_append.1 h.nodup).2.1
  -- Of two places in the channel, one comes first.
  have hne {p q : ℕ} {due due' : Instant} (hlt : p < q)
      (hp : s.sent[p]? = some (.submit due n)) (hq : s.sent[q]? = some (.submit due' n)) :
      False := by
    obtain ⟨hp', hpe⟩ := List.getElem?_eq_some_iff.1 hp
    obtain ⟨hq', hqe⟩ := List.getElem?_eq_some_iff.1 hq
    have hpair := List.pairwise_filterMap.1 hnodup
    exact List.pairwise_iff_getElem.1 hpair p q hp' hq' hlt n (by simp [hpe, Message.task?]) n
      (by simp [hqe, Message.task?]) rfl
  rcases Nat.lt_trichotomy p q with hlt | heq | hgt
  · exact (hne hlt hp hq).elim
  · exact heq
  · exact (hne hgt hq hp).elim

/-- A thread that has not sent its message does not hand in another task. -/
theorem unsent_latest (h : Reachable s) (hn : n ∈ s.unsent) (hx : s.submissions[n]? = some x)
    (hy : s.submissions[i]? = some y) (hxy : x.thread = y.thread) : i ≤ n := by
  induction h with
  | initial => cases hn
  | @step s _ h hstep ih =>
    cases hstep with
    | read thread delay hfree =>
      have hi : i < s.submissions.length + 1 := by
        simpa using (List.getElem?_eq_some_iff.1 hy).1
      rcases List.mem_cons.1 hn with rfl | hn
      · exact Nat.le_of_lt_succ hi
      · rw [List.getElem?_append_left (h.lt_of_unsent hn)] at hx
        rcases Nat.lt_succ_iff_lt_or_eq.1 hi with hi | rfl
        · rw [List.getElem?_append_left hi] at hy
          exact ih hn hx hy
        · -- The task just handed in is of a thread that had nothing to send.
          rw [List.getElem?_concat_length] at hy
          cases hy
          exact (hfree n hn x hx hxy).elim
    | sent m x' hm => exact ih (List.mem_of_mem_erase hn) hx hy
    | refused m hm => exact ih (List.mem_of_mem_erase hn) hx hy
    | tick | told | started | nothingDue | returned | timedOut | received | stopped | dropped
    | closed | exited => exact ih hn hx hy

/-- A message carries the due time of its task. -/
theorem sent_due (h : Reachable s) (hm : .submit due n ∈ s.sent) :
    ∃ x, s.submissions[n]? = some x ∧ x.due = due := by
  induction h with
  | initial => cases hm
  | @step s _ h hstep ih =>
    cases hstep with
    | read thread delay =>
      obtain ⟨x, hx, hdue⟩ := ih hm
      refine ⟨x, ?_, hdue⟩
      rw [List.getElem?_append_left (List.getElem?_eq_some_iff.1 hx).1]
      exact hx
    | sent n' x _ hx =>
      rcases List.mem_append.1 hm with hm | hm
      · exact ih hm
      · cases List.mem_singleton.1 hm
        exact ⟨x, hx, rfl⟩
    | told =>
      rcases List.mem_append.1 hm with hm | hm
      · exact ih hm
      · cases List.mem_singleton.1 hm
    | tick | refused | started | nothingDue | returned | timedOut | received | stopped | dropped
    | closed | exited => exact ih hm

/-! ### The channel -/

theorem fits (h : Reachable s) : s.station.Fits s.worker.phase := by
  induction h with
  | initial => rfl
  | @step s _ h hstep ih =>
    cases hstep with
    | started n worker hs hpop =>
      obtain ⟨timers, -, rfl⟩ := Worker.popDue_eq_some hpop
      rw [hs] at ih
      exact ih
    | nothingDue hs | timedOut due hs =>
      rw [hs] at ih
      exact ih
    | returned n hs =>
      rw [hs] at ih
      exact ih
    | received worker hs hreceive hphase => exact hphase
    | stopped worker hs hreceive hphase =>
      rcases Worker.receive_eq_some hreceive with ⟨due, n, channel, -, rfl⟩ | ⟨channel, -, rfl⟩
      · rw [hs] at ih
        exact (hphase ih).elim
      · exact .inl rfl
    | dropped n ns hs =>
      rw [hs] at ih
      exact ih
    | closed => exact .inr rfl
    | exited hs hphase => exact hphase
    | tick | read | sent | refused | told => exact ih

theorem phase_of_waiting (h : Reachable s) (hs : s.station = .waiting) :
    s.worker.phase = .running := by
  have := h.fits
  rwa [hs] at this

theorem phase_of_looking (h : Reachable s) (hs : s.station = .looking) :
    s.worker.phase = .running := by
  have := h.fits
  rwa [hs] at this

/-- As long as the thread of the worker holds its end, the channel refuses nothing. -/
theorem refused_eq_nil (h : Reachable s) (ha : s.worker.accepts) : s.refused = [] := by
  induction h with
  | initial => rfl
  | @step s _ h hstep ih =>
    cases hstep with
    | refused n hn hr => exact (hr ha).elim
    | started n worker hs hpop =>
      obtain ⟨timers, -, rfl⟩ := Worker.popDue_eq_some hpop
      exact ih ha
    | received worker hs | stopped worker hs =>
      exact ih (Worker.accepts_of_running (h.phase_of_waiting hs))
    | closed => simp [Worker.accepts, Worker.close] at ha
    | tick | read | sent | told | nothingDue | returned | timedOut | dropped | exited => exact ih ha

/-- The channel holds the messages that are accepted and not taken, in the order in which they
came. -/
theorem channel_eq (h : Reachable s) (ha : s.worker.accepts) :
    s.worker.channel = s.sent.drop s.taken ∧ s.taken ≤ s.sent.length := by
  induction h with
  | initial => exact ⟨rfl, le_rfl⟩
  | @step s _ h hstep ih =>
    cases hstep with
    | sent | told =>
      obtain ⟨hc, hle⟩ := ih ha
      rw [List.drop_append_of_le_length hle, ← hc, List.length_append]
      exact ⟨rfl, hle.trans (Nat.le_add_right _ _)⟩
    | started n worker hs hpop =>
      obtain ⟨timers, -, rfl⟩ := Worker.popDue_eq_some hpop
      exact ih ha
    | received worker hs hreceive | stopped worker hs hreceive =>
      obtain ⟨hc, -⟩ := ih (Worker.accepts_of_running (h.phase_of_waiting hs))
      have hdrop {m : Message ℕ} {channel : List (Message ℕ)}
          (hm : s.worker.channel = m :: channel) :
          channel = s.sent.drop (s.taken + 1) ∧ s.taken + 1 ≤ s.sent.length := by
        rw [hc] at hm
        constructor
        · rw [← List.drop_drop, hm]
          rfl
        · by_contra hgt
          rw [List.drop_of_length_le (by omega)] at hm
          cases hm
      rcases Worker.receive_eq_some hreceive with ⟨due, n, channel, hm, rfl⟩ | ⟨channel, hm, rfl⟩
      · exact hdrop hm
      · exact hdrop hm
    | closed => simp [Worker.accepts, Worker.close] at ha
    | tick | read | refused | nothingDue | returned | timedOut | dropped | exited => exact ih ha

/-- Tasks of one thread reach the channel in the order in which it hands them in, and none is
missing. -/
theorem sent_in_turn (h : Reachable s) (hq : s.sent[q]? = some (.submit due j)) (hij : i < j)
    (hx : s.submissions[i]? = some x) (hy : s.submissions[j]? = some y)
    (hxy : x.thread = y.thread) : ∃ p < q, ∃ due, s.sent[p]? = some (.submit due i) := by
  induction h with
  | initial => cases hq
  | @step s _ h hstep ih =>
    cases hstep with
    | read thread delay =>
      obtain ⟨z, hz, -⟩ := h.sent_due (List.mem_of_getElem? hq)
      have hj : j < s.submissions.length := (List.getElem?_eq_some_iff.1 hz).1
      rw [List.getElem?_append_left (hij.trans hj)] at hx
      rw [List.getElem?_append_left hj] at hy
      exact ih hq hx hy
    | sent n z hn hz ha =>
      rcases getElem?_concat_eq_some.1 hq with hq | ⟨rfl, hm⟩
      · obtain ⟨p, hpq, due', hp⟩ := ih hq hx hy
        exact ⟨p, hpq, due', getElem?_concat_eq_some.2 (.inl hp)⟩
      · -- The message of `j` has just come, so that of `i` is sent, and it was not refused.
        cases hm
        have hin : i ∉ s.unsent := fun hi =>
          absurd (h.unsent_latest hi hx hy hxy) (Nat.not_le_of_lt hij)
        have hi : i ∈ s.unsent ++ s.refused ++ s.tasks :=
          h.counted.mem_iff.2 (List.mem_range.2 (List.getElem?_eq_some_iff.1 hx).1)
        rw [h.refused_eq_nil ha, List.append_nil, List.mem_append] at hi
        obtain ⟨p, due', hp⟩ := mem_tasks_iff.1 (hi.resolve_left hin)
        exact ⟨p, (List.getElem?_eq_some_iff.1 hp).1, due',
          getElem?_concat_eq_some.2 (.inl hp)⟩
    | told =>
      rcases getElem?_concat_eq_some.1 hq with hq | ⟨-, hm⟩
      · obtain ⟨p, hpq, due', hp⟩ := ih hq hx hy
        exact ⟨p, hpq, due', getElem?_concat_eq_some.2 (.inl hp)⟩
      · cases hm
    | tick | refused | started | nothingDue | returned | timedOut | received | stopped | dropped
    | closed | exited => exact ih hq hx hy

end Reachable

end Schedule

end LazyEffects
