import LazyEffects.Proofs.Schedule
import Mathlib.Tactic.Linarith

/-!
# The protocol of a worker

What every schedule of a worker keeps to: no task is executed twice, lost or executed before its
time, tasks of one thread with one delay keep their order, and the order to stop parts the tasks
that may still be executed from those that are dropped.

The argument follows the messages. The timers of the worker are the messages taken and not executed,
each with the place of its message as its number (`Schedule.Reachable.timers_sent`). So when a task
is executed, no message before it with an earlier or the same due time is still waiting
(`Schedule.Reachable.executed_in_turn`).

* `Schedule.Reachable.protocol`: all of it, for every schedule that comes about.
-/

namespace LazyEffects

namespace Schedule

variable {s s' : Schedule} {n i j k p q : ℕ} {x y : Submission} {due due' t : Instant}

namespace Reachable

/-! ### The timers of the worker -/

theorem timers_ordered (h : Reachable s) : TimerQueue.Ordered s.worker.timers.heap := by
  induction h with
  | initial => exact TimerQueue.empty_ordered
  | @step s _ h hstep ih =>
    cases hstep with
    | started n worker hs hpop =>
      obtain ⟨timers, ht, rfl⟩ := Worker.popDue_eq_some hpop
      exact TimerQueue.popDue_ordered ih ht
    | received worker hs hreceive =>
      rcases Worker.receive_eq_some hreceive with ⟨due, n, channel, -, rfl⟩ | ⟨channel, -, rfl⟩
      · exact TimerQueue.push_ordered ih _ _
      · exact ih
    | stopped => exact TimerQueue.empty_ordered
    | tick | read | sent | refused | told | nothingDue | returned | timedOut | dropped | closed
    | exited => exact ih

/-- The message that the thread takes next. -/
theorem sent_taken (h : Reachable s) (hs : s.station = .waiting) {m : Message ℕ}
    {channel : List (Message ℕ)} (hm : s.worker.channel = m :: channel) :
    s.sent[s.taken]? = some m := by
  have hc := (h.channel_eq (Worker.accepts_of_running (h.phase_of_waiting hs))).1
  have hget := congrArg (·[0]?) (hm.symm.trans hc)
  simpa using hget.symm

theorem timers_sequence (h : Reachable s) (hp : s.worker.phase = .running) :
    s.worker.timers.sequence = s.taken := by
  induction h with
  | initial => rfl
  | @step s _ h hstep ih =>
    cases hstep with
    | started n worker hs hpop =>
      obtain ⟨timers, ht, rfl⟩ := Worker.popDue_eq_some hpop
      exact (TimerQueue.popDue_sequence ht).trans (ih hp)
    | received worker hs hreceive =>
      rcases Worker.receive_eq_some hreceive with ⟨due, n, channel, -, rfl⟩ | ⟨channel, -, rfl⟩
      · exact congrArg (· + 1) (ih hp)
      · cases hp
    | stopped worker hs hreceive hphase => exact (hphase hp).elim
    | closed => cases hp
    | tick | read | sent | refused | told | nothingDue | returned | timedOut | dropped
    | exited => exact ih hp

/-- The timers are tasks whose messages have been taken. -/
theorem timers_sent (h : Reachable s) {timer : Timer ℕ} (ht : timer ∈ s.worker.timers.heap) :
    timer.sequence < s.taken ∧ s.sent[timer.sequence]? = some (.submit timer.due timer.task) := by
  induction h with
  | initial => simp [Schedule.initial, Worker.spawned, TimerQueue.empty] at ht
  | @step s _ h hstep ih =>
    cases hstep with
    | sent | told =>
      obtain ⟨hlt, hsent⟩ := ih ht
      exact ⟨hlt, getElem?_concat_eq_some.2 (.inl hsent)⟩
    | started n worker hs hpop =>
      obtain ⟨timers, hroot, rfl⟩ := Worker.popDue_eq_some hpop
      exact ih (TimerQueue.mem_heap_of_popDue hroot ht)
    | received worker hs hreceive =>
      rcases Worker.receive_eq_some hreceive with ⟨due, n, channel, hc, rfl⟩ | ⟨channel, -, rfl⟩
      · rcases TimerQueue.mem_heap_push_iff.1 ht with ht | rfl
        · exact (ih ht).imp_left Nat.lt_succ_of_lt
        · have hsequence := h.timers_sequence (h.phase_of_waiting hs)
          rw [hsequence]
          exact ⟨Nat.lt_succ_self _, h.sent_taken hs hc⟩
      · exact (ih ht).imp_left Nat.lt_succ_of_lt
    | stopped => simp [Worker.dropTimers, TimerQueue.empty] at ht
    | tick | read | refused | nothingDue | returned | timedOut | dropped | closed | exited =>
      exact ih ht

/-! ### What is executed -/

theorem turns_eq (h : Reachable s) : s.worker.turns = s.executed.length := by
  induction h with
  | initial => rfl
  | @step s _ h hstep ih =>
    cases hstep with
    | started n worker hs hpop =>
      obtain ⟨timers, -, rfl⟩ := Worker.popDue_eq_some hpop
      rw [List.length_append]
      exact congrArg (· + 1) ih
    | received worker hs hreceive | stopped worker hs hreceive =>
      rcases Worker.receive_eq_some hreceive with ⟨due, n, channel, -, rfl⟩ | ⟨channel, -, rfl⟩ <;>
        exact ih
    | tick | read | sent | refused | told | nothingDue | returned | timedOut | dropped | closed
    | exited => exact ih

/-- What has been accepted waits, is to be dropped, or has been executed or dropped. -/
theorem placed (h : Reachable s) :
    (s.worker.tasks ++ s.station.left ++ s.executed.map Prod.fst ++ s.dropped).Perm s.tasks := by
  induction h with
  | initial => exact .refl _
  | @step s _ h hstep ih =>
    cases hstep with
    | sent n x =>
      have htasks := List.perm_append_singleton n s.tasks
      simp only [tasks, List.filterMap_append, List.filterMap_cons, List.filterMap_nil,
        Message.task?]
      refine List.Perm.trans ?_ ((ih.cons n).trans htasks.symm)
      simp only [← List.cons_append]
      exact (((s.worker.tasks_send x.due n).append_right _).append_right _).append_right _
    | told =>
      rw [Worker.tasks_shutdown]
      simpa [tasks, Message.task?, List.filterMap_cons] using ih
    | started n worker hs hpop =>
      rw [hs] at ih
      refine List.Perm.trans (List.perm_iff_count.2 fun a => ?_) ih
      have hpopped := (Worker.tasks_popDue hpop).count_eq a
      simp only [Station.left, List.map_append, List.map_cons, List.map_nil, List.count_append,
        List.count_cons, List.count_nil] at hpopped ⊢
      omega
    | received worker hs hreceive =>
      rw [hs] at ih
      exact ((((Worker.tasks_receive hreceive).append_right _).append_right _).append_right _).trans
        ih
    | stopped worker hs hreceive =>
      rw [hs] at ih
      refine List.Perm.trans (List.perm_iff_count.2 fun a => ?_) ih
      have hreceived := (Worker.tasks_receive hreceive).count_eq a
      have hdropped := worker.tasks_dropTimers.count_eq a
      simp only [Station.left, List.count_append, List.count_nil] at hdropped ⊢
      omega
    | dropped n ns hs =>
      rw [hs] at ih
      refine List.Perm.trans (List.perm_iff_count.2 fun a => ?_) ih
      simp only [Station.left, List.count_append, List.count_cons, List.count_nil]
      omega
    | closed hs =>
      rw [hs] at ih
      refine List.Perm.trans (List.perm_iff_count.2 fun a => ?_) ih
      have hclosed := s.worker.tasks_close.count_eq a
      simp only [Station.left, List.count_append, List.count_nil] at hclosed ⊢
      omega
    | returned n hs | nothingDue hs | timedOut due hs | exited hs =>
      rw [hs] at ih
      exact ih
    | tick | read | refused => exact ih

/-- What is executed has been taken from the channel, and its time had come. -/
theorem executed_sent (h : Reachable s) (hn : (n, t) ∈ s.executed) :
    ∃ q < s.taken, ∃ due ≤ t, s.sent[q]? = some (.submit due n) := by
  induction h with
  | initial => cases hn
  | @step s _ h hstep ih =>
    cases hstep with
    | sent | told =>
      obtain ⟨q, hq, due, hdue, hsent⟩ := ih hn
      exact ⟨q, hq, due, hdue, getElem?_concat_eq_some.2 (.inl hsent)⟩
    | started m worker hs hpop =>
      rcases List.mem_append.1 hn with hn | hn
      · exact ih hn
      · cases List.mem_singleton.1 hn
        obtain ⟨timers, ht, rfl⟩ := Worker.popDue_eq_some hpop
        obtain ⟨root, hroot, hdue, rfl, -⟩ := TimerQueue.popDue_eq_some ht
        obtain ⟨hlt, hsent⟩ := h.timers_sent (Array.mem_of_getElem? hroot)
        exact ⟨root.sequence, hlt, root.due, hdue, hsent⟩
    | received | stopped =>
      obtain ⟨q, hq, hsent⟩ := ih hn
      exact ⟨q, Nat.lt_succ_of_lt hq, hsent⟩
    | tick | read | refused | nothingDue | returned | timedOut | dropped | closed | exited =>
      exact ih hn

/-- As long as the worker is at work, what has been taken and is not executed is a timer. -/
theorem executed_or_timer (h : Reachable s) (hp : s.worker.phase = .running) (hq : q < s.taken)
    (hsent : s.sent[q]? = some (.submit due n)) :
    n ∈ s.executed.map Prod.fst ∨ ⟨due, q, n⟩ ∈ s.worker.timers.heap := by
  induction h with
  | initial => cases hq
  | @step s _ h hstep ih =>
    cases hstep with
    | sent m x hm hx ha =>
      rcases getElem?_concat_eq_some.1 hsent with hsent | ⟨rfl, -⟩
      · exact ih hp hq hsent
      · exact (Nat.not_lt_of_le (h.channel_eq ha).2 hq).elim
    | told =>
      rcases getElem?_concat_eq_some.1 hsent with hsent | ⟨-, hm⟩
      · exact ih hp hq hsent
      · cases hm
    | started m worker hs hpop =>
      obtain ⟨timers, ht, rfl⟩ := Worker.popDue_eq_some hpop
      rw [List.map_append, List.mem_append, or_assoc]
      refine (ih hp hq hsent).imp_right fun htimer => ?_
      exact (TimerQueue.mem_heap_popDue ht htimer).imp_left List.mem_singleton.2
    | received worker hs hreceive =>
      rcases Worker.receive_eq_some hreceive with ⟨due', m, channel, hc, rfl⟩ | ⟨channel, -, rfl⟩
      · rcases Nat.lt_succ_iff_lt_or_eq.1 hq with hq | rfl
        · exact (ih hp hq hsent).imp_right fun htimer => TimerQueue.mem_heap_push htimer _ _
        · rw [h.sent_taken hs hc] at hsent
          cases hsent
          rw [← h.timers_sequence (h.phase_of_waiting hs)]
          exact .inr (TimerQueue.mem_heap_push_self _ _ _)
      · cases hp
    | stopped worker hs hreceive hphase => exact (hphase hp).elim
    | closed => cases hp
    | tick | read | refused | nothingDue | returned | timedOut | dropped | exited =>
      exact ih hp hq hsent

/-- Of two messages with due times in this order, the task of the first is executed first. -/
theorem executed_in_turn (h : Reachable s) (hpq : p < q) (hq : q < s.taken)
    (hi : s.sent[p]? = some (.submit due i)) (hj : s.sent[q]? = some (.submit due' j))
    (hle : due ≤ due') (hk : s.executed[k]? = some (j, t)) :
    ∃ k' < k, ∃ t', s.executed[k']? = some (i, t') := by
  induction h with
  | initial => cases hk
  | @step s _ h hstep ih =>
    cases hstep with
    | sent m x hm hx ha =>
      have hlt := hq.trans_le (h.channel_eq ha).2
      rw [List.getElem?_append_left (hpq.trans hlt)] at hi
      rw [List.getElem?_append_left hlt] at hj
      exact ih hq hi hj hk
    | told =>
      rcases getElem?_concat_eq_some.1 hj with hj | ⟨-, hm⟩
      · rw [List.getElem?_append_left (hpq.trans (List.getElem?_eq_some_iff.1 hj).1)] at hi
        exact ih hq hi hj hk
      · cases hm
    | started m worker hs hpop =>
      obtain ⟨timers, ht, rfl⟩ := Worker.popDue_eq_some hpop
      rcases getElem?_concat_eq_some.1 hk with hk | ⟨rfl, hm⟩
      · obtain ⟨k', hk', t', hi'⟩ := ih hq hi hj hk
        exact ⟨k', hk', t', getElem?_concat_eq_some.2 (.inl hi')⟩
      · cases hm
        obtain ⟨root, hroot, -, rfl, -⟩ := TimerQueue.popDue_eq_some ht
        obtain ⟨-, hsent⟩ := h.timers_sent (Array.mem_of_getElem? hroot)
        obtain rfl := h.sent_unique hsent hj
        cases hsent.symm.trans hj
        rcases h.executed_or_timer (h.phase_of_looking hs) (hpq.trans hq) hi with hdone | htimer
        · obtain ⟨⟨_, t'⟩, hmem, rfl⟩ := List.mem_map.1 hdone
          obtain ⟨k', hk'⟩ := List.mem_iff_getElem?.1 hmem
          exact ⟨k', (List.getElem?_eq_some_iff.1 hk').1, t',
            getElem?_concat_eq_some.2 (.inl hk')⟩
        · -- If it still waited, it would be ahead of the one that the queue has handed out.
          refine (h.timers_ordered.not_ahead_root hroot htimer ?_).elim
          rw [Timer.ahead_iff]
          rcases hle.lt_or_eq with hlt | heq
          · exact .inl hlt
          · exact .inr ⟨heq, hpq⟩
    | received worker hs hreceive | stopped worker hs hreceive =>
      -- The message taken in this move is not that of a task executed before.
      obtain ⟨q', hq', due₀, -, hsent⟩ := h.executed_sent (List.mem_of_getElem? hk)
      obtain rfl := h.sent_unique hsent hj
      exact ih hq' hi hj hk
    | tick | read | refused | nothingDue | returned | timedOut | dropped | closed | exited =>
      exact ih hq hi hj hk

/-! ### The order to stop -/

/-- While the thread waits, none of its timers was due when it last looked. -/
theorem delay_pos_of_waiting (h : Reachable s) (hs : s.station = .waiting) {timer : Timer ℕ}
    (ht : timer ∈ s.worker.timers.heap) (hx : s.submissions[timer.task]? = some x) :
    0 < x.delay.nanos := by
  induction h with
  | initial => cases hs
  | @step s _ h hstep ih =>
    cases hstep with
    | read =>
      obtain ⟨z, hz, -⟩ := h.sent_due (List.mem_of_getElem? (h.timers_sent ht).2)
      rw [List.getElem?_append_left (List.getElem?_eq_some_iff.1 hz).1] at hx
      exact ih hs ht hx
    | nothingDue _ hpop =>
      have hlate : s.now < timer.due := by
        by_contra hdue
        exact h.timers_ordered.popDue_ne_none ht (Int.not_lt.1 hdue) (Worker.popDue_eq_none hpop)
      obtain ⟨z, hz, hdue⟩ := h.sent_due (List.mem_of_getElem? (h.timers_sent ht).2)
      cases hz.symm.trans hx
      have htime := h.time_le_now (List.mem_of_getElem? hx)
      rw [Submission.due] at hdue
      have hpos : (0 : ℤ) < x.delay.nanos := by linarith
      exact Int.natCast_pos.1 hpos
    | tick | sent | refused | told => exact ih hs ht hx
    | started | returned | timedOut | received | stopped | dropped | closed | exited => cases hs

/-- Before the order to stop is taken, the thread is at work. -/
theorem shutdown_not_taken (h : Reachable s) (hp : s.worker.phase = .running) (hq : q < s.taken) :
    s.sent[q]? ≠ some .shutdown := by
  induction h with
  | initial => cases hq
  | @step s _ h hstep ih =>
    cases hstep with
    | sent _ _ _ _ ha =>
      have hlt := hq.trans_le (h.channel_eq ha).2
      rw [List.getElem?_append_left hlt]
      exact ih hp hq
    | told =>
      have hlt := hq.trans_le (h.channel_eq (Worker.accepts_of_running hp)).2
      rw [List.getElem?_append_left hlt]
      exact ih hp hq
    | started n worker hs hpop => exact ih (h.phase_of_looking hs) hq
    | received worker hs hreceive =>
      rcases Worker.receive_eq_some hreceive with ⟨due, n, channel, hc, rfl⟩ | ⟨channel, -, rfl⟩
      · rcases Nat.lt_succ_iff_lt_or_eq.1 hq with hq | rfl
        · exact ih hp hq
        · rw [h.sent_taken hs hc]
          simp
      · cases hp
    | stopped worker hs hreceive hphase => exact (hphase hp).elim
    | closed => cases hp
    | tick | read | refused | nothingDue | returned | timedOut | dropped | exited => exact ih hp hq

/-- The order to stop is given once. -/
theorem shutdown_unique (h : Reachable s) (hp : s.sent[p]? = some .shutdown)
    (hq : s.sent[q]? = some .shutdown) : p = q := by
  induction h with
  | initial => cases hp
  | @step s _ h hstep ih =>
    cases hstep with
    | sent =>
      rcases getElem?_concat_eq_some.1 hp with hp | ⟨-, hm⟩
      · rcases getElem?_concat_eq_some.1 hq with hq | ⟨-, hm⟩
        · exact ih hp hq
        · cases hm
      · cases hm
    | told hnone =>
      rcases getElem?_concat_eq_some.1 hp with hp | ⟨rfl, -⟩
      · exact (hnone (List.mem_of_getElem? hp)).elim
      · rcases getElem?_concat_eq_some.1 hq with hq | ⟨rfl, -⟩
        · exact (hnone (List.mem_of_getElem? hq)).elim
        · rfl
    | tick | read | refused | started | nothingDue | returned | timedOut | received | stopped
    | dropped | closed | exited => exact ih hp hq

/-- Once the thread has left its loop, the order to stop was the last message that it has taken. -/
theorem exists_shutdown (h : Reachable s) (hp : s.worker.phase ≠ .running) :
    ∃ p, s.taken = p + 1 ∧ s.sent[p]? = some .shutdown := by
  induction h with
  | initial => exact (hp rfl).elim
  | @step s _ h hstep ih =>
    cases hstep with
    | sent | told =>
      obtain ⟨p, htaken, hm⟩ := ih hp
      exact ⟨p, htaken, getElem?_concat_eq_some.2 (.inl hm)⟩
    | started n worker hs hpop =>
      obtain ⟨timers, -, rfl⟩ := Worker.popDue_eq_some hpop
      exact ih hp
    | received worker hs hreceive hphase => exact (hp hphase).elim
    | stopped worker hs hreceive hphase =>
      rcases Worker.receive_eq_some hreceive with ⟨due, n, channel, -, rfl⟩ | ⟨channel, hc, rfl⟩
      · exact (hphase (h.phase_of_waiting hs)).elim
      · exact ⟨s.taken, rfl, h.sent_taken hs hc⟩
    | closed hs hphase => exact ih (by simp [hphase])
    | tick | read | refused | nothingDue | returned | timedOut | dropped | exited => exact ih hp

/-- A task whose message follows the order to stop is not executed. -/
theorem notMem_executed (h : Reachable s) (hm : s.sent[p]? = some .shutdown) (hpq : p < q)
    (hq : s.sent[q]? = some (.submit due n)) : n ∉ s.executed.map Prod.fst := by
  intro hn
  obtain ⟨⟨_, t⟩, hmem, rfl⟩ := List.mem_map.1 hn
  obtain ⟨q', hq', _, -, hsent⟩ := h.executed_sent hmem
  obtain rfl := h.sent_unique hsent hq
  by_cases hp : s.worker.phase = .running
  · exact h.shutdown_not_taken hp (hpq.trans hq') hm
  · obtain ⟨p', htaken, hm'⟩ := h.exists_shutdown hp
    obtain rfl := h.shutdown_unique hm hm'
    omega

/-- A task without delay that has been taken is executed before the thread leaves its loop. -/
theorem executed_of_delay_eq_zero (h : Reachable s) (hp : s.worker.phase ≠ .running)
    (hq : q < s.taken) (hsent : s.sent[q]? = some (.submit due n))
    (hx : s.submissions[n]? = some x) (hzero : x.delay.nanos = 0) :
    n ∈ s.executed.map Prod.fst := by
  induction h with
  | initial => exact (hp rfl).elim
  | @step s _ h hstep ih =>
    cases hstep with
    | read =>
      obtain ⟨z, hz, -⟩ := h.sent_due (List.mem_of_getElem? hsent)
      rw [List.getElem?_append_left (List.getElem?_eq_some_iff.1 hz).1] at hx
      exact ih hp hq hsent hx
    | sent | told =>
      obtain ⟨p, htaken, hm⟩ := h.exists_shutdown hp
      have hlt := (List.getElem?_eq_some_iff.1 hm).1
      rw [List.getElem?_append_left (hq.trans_le (htaken.trans_le hlt))] at hsent
      exact ih hp hq hsent hx
    | started n worker hs hpop =>
      obtain ⟨timers, -, rfl⟩ := Worker.popDue_eq_some hpop
      exact (hp (h.phase_of_looking hs)).elim
    | received worker hs hreceive hphase => exact (hp hphase).elim
    | stopped worker hs hreceive hphase =>
      rcases Worker.receive_eq_some hreceive with ⟨_, _, channel, -, rfl⟩ | ⟨channel, hc, rfl⟩
      · exact (hphase (h.phase_of_waiting hs)).elim
      · rcases Nat.lt_succ_iff_lt_or_eq.1 hq with hq | rfl
        · refine (h.executed_or_timer (h.phase_of_waiting hs) hq hsent).resolve_right fun ht => ?_
          exact absurd (h.delay_pos_of_waiting hs ht hx) (by omega)
        · rw [h.sent_taken hs hc] at hsent
          cases hsent
    | closed hs hphase => exact ih (by simp [hphase]) hq hsent hx
    | tick | refused | nothingDue | returned | timedOut | dropped | exited =>
      exact ih hp hq hsent hx

/-! ### The end -/

/-- Nothing is left of the timers once the thread has left its loop. -/
theorem timers_eq_empty (h : Reachable s) (hp : s.worker.phase ≠ .running) :
    s.worker.timers = .empty := by
  induction h with
  | initial => exact (hp rfl).elim
  | @step s _ h hstep ih =>
    cases hstep with
    | started n worker hs hpop =>
      obtain ⟨timers, -, rfl⟩ := Worker.popDue_eq_some hpop
      exact (hp (h.phase_of_looking hs)).elim
    | received worker hs hreceive hphase => exact (hp hphase).elim
    | stopped => rfl
    | closed hs hphase => exact ih (by simp [hphase])
    | tick | read | sent | refused | told | nothingDue | returned | timedOut | dropped | exited =>
      exact ih hp

/-- A worker that has ended holds no task. -/
theorem tasks_eq_nil (h : Reachable s) (hp : s.worker.phase = .exited) : s.worker.tasks = [] := by
  induction h with
  | initial => cases hp
  | @step s _ h hstep ih =>
    cases hstep with
    | sent n x _ _ ha => simp [Worker.accepts, show s.worker.phase = .exited from hp] at ha
    | told => exact (s.worker.tasks_shutdown).trans (ih hp)
    | started n worker hs hpop =>
      obtain ⟨timers, -, rfl⟩ := Worker.popDue_eq_some hpop
      cases (h.phase_of_looking hs).symm.trans hp
    | received worker hs hreceive hphase => cases hphase.symm.trans hp
    | stopped worker hs hreceive hphase =>
      rcases Worker.receive_eq_some hreceive with ⟨_, _, channel, -, rfl⟩ | ⟨channel, -, rfl⟩
      · cases (h.phase_of_waiting hs).symm.trans hp
      · cases hp
    | closed hs hphase =>
      have htimers := h.timers_eq_empty (by simp [hphase])
      simp [Worker.tasks, Worker.close, htimers, TimerQueue.tasks, TimerQueue.empty]
    | tick | read | refused | nothingDue | returned | timedOut | dropped | exited => exact ih hp

/-- A worker that has ended executes and drops nothing more. -/
theorem over_step (hs : s.station = .ended) (hstep : Step s s') :
    s'.station = .ended ∧ s'.executed = s.executed ∧ s'.dropped = s.dropped := by
  cases hstep with
  | tick | read | sent | refused | told => exact ⟨hs, rfl, rfl⟩
  | started _ _ hs' | nothingDue hs' | returned _ hs' | timedOut _ hs' | received _ hs'
  | stopped _ hs' | dropped _ _ hs' | closed hs' | exited hs' => cases hs.symm.trans hs'

theorem over_steps (hs : s.station = .ended)
    (hsteps : Relation.ReflTransGen Step s s') :
    s'.station = .ended ∧ s'.executed = s.executed ∧ s'.dropped = s.dropped := by
  induction hsteps with
  | refl => exact ⟨hs, rfl, rfl⟩
  | tail hsteps hstep ih =>
    obtain ⟨hs', hexecuted, hdropped⟩ := ih
    obtain ⟨hs'', hexecuted', hdropped'⟩ := over_step hs' hstep
    exact ⟨hs'', hexecuted'.trans hexecuted, hdropped'.trans hdropped⟩

/-- Whatever is on its way can be sent. -/
theorem exists_unsent_eq_nil (h : Reachable s) :
    ∃ s', Relation.ReflTransGen Step s s' ∧ s'.unsent = [] := by
  induction hk : s.unsent.length generalizing s with
  | zero => exact ⟨s, .refl, List.length_eq_zero_iff.1 hk⟩
  | succ k ih =>
    obtain ⟨n, ns, hns⟩ := List.exists_cons_of_length_eq_add_one hk
    have hn : n ∈ s.unsent := by simp [hns]
    have hlen : (s.unsent.erase n).length = k := by rw [List.length_erase_of_mem hn, hk]; rfl
    by_cases ha : s.worker.accepts
    · have hx := List.getElem?_eq_getElem (h.lt_of_unsent hn)
      have hstep := Step.sent s n _ hn hx ha
      obtain ⟨s', hsteps, hs'⟩ := ih (h.step hstep) hlen
      exact ⟨s', .head hstep hsteps, hs'⟩
    · have hstep := Step.refused s n hn ha
      obtain ⟨s', hsteps, hs'⟩ := ih (h.step hstep) hlen
      exact ⟨s', .head hstep hsteps, hs'⟩

end Reachable

/-- An upper bound for the moves that the thread of the worker makes until it has left its loop, if
nobody sends anything to it. -/
def remaining (s : Schedule) : ℕ :=
  4 * s.worker.channel.length + 2 * s.worker.timers.tasks.length +
    match s.station with
    | .running _ => 2
    | .looking => 1
    | .waiting | .dropping _ | .ended => 0

namespace Reachable

/-- The thread of a worker that has been told to stop is never stuck in its loop. -/
theorem exists_step_remaining (h : Reachable s) (hu : s.unsent = [])
    (hm : .shutdown ∈ s.sent) (hp : s.worker.phase = .running) :
    ∃ s', Step s s' ∧ s'.unsent = [] ∧ .shutdown ∈ s'.sent ∧
      (s'.worker.phase = .running → s'.remaining < s.remaining) := by
  have hfree : s.IsFree none := by simp [IsFree, hu]
  have hfits := h.fits
  cases hs : s.station with
  | looking =>
    cases hpop : s.worker.popDue s.now with
    | none =>
      refine ⟨_, .nothingDue s hs hpop, hu, hm, fun _ => ?_⟩
      simp [remaining, hs]
    | some popped =>
      obtain ⟨n, worker⟩ := popped
      refine ⟨_, .started s n worker hs hpop, hu, hm, fun _ => ?_⟩
      obtain ⟨timers, ht, rfl⟩ := Worker.popDue_eq_some hpop
      have hlength := (TimerQueue.popDue_tasks ht).length_eq
      simp only [remaining, hs, List.length_cons] at hlength ⊢
      omega
  | waiting =>
    -- The order to stop is in the channel.
    obtain ⟨hc, -⟩ := h.channel_eq (Worker.accepts_of_running hp)
    obtain ⟨p, hp'⟩ := List.mem_iff_getElem?.1 hm
    have htaken : s.taken ≤ p := by
      by_contra hlt
      exact h.shutdown_not_taken hp (Nat.not_le.1 hlt) hp'
    cases hreceive : s.worker.receive with
    | none =>
      rw [Worker.receive_eq_none hreceive] at hc
      have hlt := (List.getElem?_eq_some_iff.1 hp').1
      have := List.drop_eq_nil_iff.1 hc.symm
      omega
    | some worker =>
      by_cases hphase : worker.phase = .running
      · refine ⟨_, .received s worker hs hreceive hphase, hu, hm, fun _ => ?_⟩
        rcases Worker.receive_eq_some hreceive with ⟨due, n, channel, hc, rfl⟩ | ⟨_, -, rfl⟩
        · have hlength := (TimerQueue.push_tasks s.worker.timers due n).length_eq
          simp only [remaining, hs, hc, List.length_cons] at hlength ⊢
          omega
        · cases hphase
      · exact ⟨_, .stopped s worker hs hreceive hphase, hu, hm, fun hp' => (hphase hp').elim⟩
  | running n =>
    refine ⟨_, .returned s n hs hfree, hu, hm, fun _ => ?_⟩
    simp [remaining, hs]
  | dropping ns =>
    rw [hs] at hfits
    rcases hfits with hfits | hfits <;> cases hp.symm.trans hfits
  | ended =>
    rw [hs] at hfits
    cases hp.symm.trans hfits

theorem exists_phase_ne_running (h : Reachable s) (hu : s.unsent = []) (hm : .shutdown ∈ s.sent) :
    ∃ s', Relation.ReflTransGen Step s s' ∧ s'.unsent = [] ∧ s'.worker.phase ≠ .running := by
  induction hk : s.remaining using Nat.strongRecOn generalizing s with
  | ind k ih =>
    by_cases hp : s.worker.phase = .running
    · obtain ⟨s₁, hstep, hu₁, hm₁, hlt⟩ := h.exists_step_remaining hu hm hp
      by_cases hp₁ : s₁.worker.phase = .running
      · obtain ⟨s', hsteps, hs'⟩ := ih _ (hk ▸ hlt hp₁) (h.step hstep) hu₁ hm₁ rfl
        exact ⟨s', .head hstep hsteps, hs'⟩
      · exact ⟨s₁, .single hstep, hu₁, hp₁⟩
    · exact ⟨s, .refl, hu, hp⟩

/-- The tasks that are to be dropped are dropped one after the other. -/
theorem exists_dropping_nil {ns : List ℕ} (hs : s.station = .dropping ns) (hu : s.unsent = []) :
    ∃ s', Relation.ReflTransGen Step s s' ∧ s'.station = .dropping [] ∧ s'.unsent = [] ∧
      s'.worker = s.worker := by
  induction ns generalizing s with
  | nil => exact ⟨s, .refl, hs, hu, rfl⟩
  | cons n ns ih =>
    have hstep := Step.dropped s n ns hs (by simp [IsFree, hu])
    obtain ⟨s', hsteps, hs'⟩ := ih (s := { s with station := _, dropped := _ }) rfl hu
    exact ⟨s', .head hstep hsteps, hs'⟩

/-- Once the channel is closed, only tasks to be dropped are left. -/
theorem exists_over_of_exited {ns : List ℕ} (hs : s.station = .dropping ns) (hu : s.unsent = [])
    (hp : s.worker.phase = .exited) :
    ∃ s', Relation.ReflTransGen Step s s' ∧ s'.station = .ended ∧ s'.unsent = [] := by
  obtain ⟨s₁, hsteps, hs₁, hu₁, hw⟩ := exists_dropping_nil hs hu
  exact ⟨_, hsteps.tail (.exited s₁ hs₁ (by rw [hw, hp])), rfl, hu₁⟩

/-- However things stand, the worker can come to its end. -/
theorem exists_over (h : Reachable s) :
    ∃ s', Relation.ReflTransGen Step s s' ∧ s'.station = .ended ∧ s'.unsent = [] := by
  have htold : ∃ s', Relation.ReflTransGen Step s s' ∧ s'.unsent = [] ∧ .shutdown ∈ s'.sent := by
    obtain ⟨s₁, hsteps, hu⟩ := h.exists_unsent_eq_nil
    by_cases hm : .shutdown ∈ s₁.sent
    · exact ⟨s₁, hsteps, hu, hm⟩
    · exact ⟨_, hsteps.tail (.told s₁ hm), hu, by simp⟩
  obtain ⟨s₂, hsteps, hu, hm⟩ := htold
  obtain ⟨s₃, hsteps', hu₃, hp⟩ := (h.trans hsteps).exists_phase_ne_running hu hm
  have hsteps₃ := hsteps.trans hsteps'
  have hfits := (h.trans hsteps₃).fits
  cases hs : s₃.station with
  | looking | waiting | running =>
    rw [hs] at hfits
    exact (hp hfits).elim
  | ended => exact ⟨s₃, hsteps₃, hs, hu₃⟩
  | dropping ns =>
    rw [hs] at hfits
    rcases hfits with hstopping | hexited
    · obtain ⟨s₄, hsteps₄, hs₄, hu₄, hw⟩ := exists_dropping_nil hs hu₃
      have hclosed := Step.closed s₄ hs₄ (by rw [hw, hstopping])
      obtain ⟨s₅, hsteps₅, hs₅⟩ :=
        exists_over_of_exited
          (s := { s₄ with worker := s₄.worker.close.2, station := .dropping s₄.worker.close.1 })
          rfl hu₄ rfl
      exact ⟨s₅, (hsteps₃.trans hsteps₄).trans (.head hclosed hsteps₅), hs₅⟩
    · obtain ⟨s₄, hsteps₄, hs₄⟩ := exists_over_of_exited hs hu₃ hexited
      exact ⟨s₄, hsteps₃.trans hsteps₄, hs₄⟩

end Reachable

/-- What every schedule of a worker keeps to. -/
structure Protocol (s : Schedule) : Prop where
  /-- Each task handed in is in one place, once: on its way to the channel, waiting at the worker,
  to be dropped, executed, or dropped by the worker or by the one who wanted to send it. -/
  places : (s.unsent ++ s.worker.tasks ++ s.station.left ++ s.executed.map Prod.fst ++ s.dropped ++
    s.refused).Perm (List.range s.submissions.length)
  turns : s.worker.turns = s.executed.length
  /-- No task is executed before its time. -/
  due {n : ℕ} {t : Instant} : (n, t) ∈ s.executed → ∃ x, s.submissions[n]? = some x ∧ x.due ≤ t
  /-- Of two tasks of one thread with the same delay, the second is executed after the first. -/
  order {i j k : ℕ} {x y : Submission} {t : Instant} :
    s.submissions[i]? = some x → s.submissions[j]? = some y → i < j →
      x.thread = y.thread → x.delay = y.delay →
        s.executed[k]? = some (j, t) → ∃ k' < k, ∃ t', s.executed[k']? = some (i, t')
  /-- Once the thread has left its loop, all tasks without delay are executed whose messages come
  before the order to stop. -/
  before {p q n : ℕ} {x : Submission} {due : Instant} :
    s.sent[p]? = some .shutdown → s.sent[q]? = some (.submit due n) → q < p →
      s.submissions[n]? = some x → x.delay = .zero → s.worker.phase ≠ .running →
        n ∈ s.executed.map Prod.fst
  /-- No task is executed whose message comes after the order to stop. -/
  after {p q n : ℕ} {due : Instant} :
    s.sent[p]? = some .shutdown → s.sent[q]? = some (.submit due n) → p < q →
      n ∉ s.executed.map Prod.fst
  /-- When the thread has ended, it executes nothing more, and each task is executed or dropped as
  soon as it is handed in. -/
  ended {s' : Schedule} : s.station = .ended → Relation.ReflTransGen Step s s' →
    s'.station = .ended ∧ s'.executed = s.executed ∧
      (s'.unsent ++ s'.executed.map Prod.fst ++ s'.dropped ++ s'.refused).Perm
        (List.range s'.submissions.length)
  /-- The thread can always come to its end, with nothing left on its way. -/
  ends : ∃ s', Relation.ReflTransGen Step s s' ∧ s'.station = .ended ∧ s'.unsent = []

/-- Each task is in one place. -/
theorem Reachable.places (h : Reachable s) :
    (s.unsent ++ s.worker.tasks ++ s.station.left ++ s.executed.map Prod.fst ++ s.dropped ++
      s.refused).Perm (List.range s.submissions.length) := by
  refine List.Perm.trans (List.perm_iff_count.2 fun a => ?_) h.counted
  have hplaced := h.placed.count_eq a
  simp only [List.count_append] at hplaced ⊢
  omega

/-- Every schedule that comes about keeps to the protocol. -/
theorem Reachable.protocol (h : Reachable s) : s.Protocol where
  places := h.places
  turns := h.turns_eq
  due hn := by
    obtain ⟨q, -, due, hdue, hsent⟩ := h.executed_sent hn
    obtain ⟨x, hx, rfl⟩ := h.sent_due (List.mem_of_getElem? hsent)
    exact ⟨x, hx, hdue⟩
  order {i j _ _ _ _} hx hy hij hthread hdelay hk := by
    obtain ⟨q, hq, _, -, hj⟩ := h.executed_sent (List.mem_of_getElem? hk)
    obtain ⟨p, hpq, _, hi⟩ := h.sent_in_turn hj hij hx hy hthread
    -- The first task is due no later, as its due time was computed earlier.
    obtain ⟨x', hx', rfl⟩ := h.sent_due (List.mem_of_getElem? hi)
    obtain ⟨y', hy', rfl⟩ := h.sent_due (List.mem_of_getElem? hj)
    cases hx.symm.trans hx'
    cases hy.symm.trans hy'
    obtain ⟨hi', rfl⟩ := List.getElem?_eq_some_iff.1 hx
    obtain ⟨hj', rfl⟩ := List.getElem?_eq_some_iff.1 hy
    have htime := List.pairwise_iff_getElem.1 h.times_sorted i j hi' hj' hij
    refine h.executed_in_turn hpq hq hi hj ?_ hk
    rw [Submission.due, Submission.due, hdelay]
    exact Int.add_le_add_right htime _
  before hp hq hqp hx hzero hphase := by
    obtain ⟨p', htaken, hp'⟩ := h.exists_shutdown hphase
    obtain rfl := h.shutdown_unique hp hp'
    exact h.executed_of_delay_eq_zero hphase (by omega) hq hx (by rw [hzero]; rfl)
  after hp hq hpq := h.notMem_executed hp hpq hq
  ended hs hsteps := by
    obtain ⟨hs', hexecuted, -⟩ := Reachable.over_steps hs hsteps
    refine ⟨hs', hexecuted, ?_⟩
    have h' := h.trans hsteps
    have hfits := h'.fits
    rw [hs'] at hfits
    have hplaces := h'.places
    rw [h'.tasks_eq_nil hfits, hs', Station.left, List.append_nil, List.append_nil] at hplaces
    exact hplaces
  ends := h.exists_over

/-- A schedule in which one task is executed, the task that it has handed in is dropped with the
timers, one that comes after the order to stop with the channel, and one at once. -/
def ended : Schedule where
  now := 0
  worker := ⟨[], .empty, 1, .exited⟩
  station := .ended
  submissions := [⟨some 0, ⟨0⟩, 0⟩, ⟨none, ⟨5⟩, 0⟩, ⟨some 0, ⟨0⟩, 0⟩, ⟨some 1, ⟨0⟩, 0⟩]
  unsent := []
  sent := [.submit 0 0, .submit 5 1, .shutdown, .submit 0 2]
  refused := [3]
  taken := 3
  executed := [(0, 0)]
  dropped := [1, 2]

theorem ended_reachable : Reachable ended := by
  have handedIn : Reachable ⟨0, ⟨[.submit 0 0], .empty, 0, .running⟩, .waiting,
      [⟨some 0, ⟨0⟩, 0⟩], [], [.submit 0 0], [], 0, [], []⟩ :=
    (((Reachable.initial 0).step (.read _ (some 0) ⟨0⟩ (by simp [IsFree, initial]) (by simp))).step
      (.sent _ 0 _ (.head _) rfl rfl)).step (.nothingDue _ rfl rfl)
  have executed : Reachable ⟨0, ⟨[], ⟨#[], 1⟩, 1, .running⟩, .running 0,
      [⟨some 0, ⟨0⟩, 0⟩], [], [.submit 0 0], [], 1, [(0, 0)], []⟩ :=
    (handedIn.step (.received _ ⟨[], ⟨#[⟨0, 0, 0⟩], 1⟩, 0, .running⟩ rfl (by cbv) rfl)).step
      (.started _ 0 _ rfl (by cbv))
  have returned : Reachable ⟨0, ⟨[.submit 5 1], ⟨#[], 1⟩, 1, .running⟩, .waiting,
      [⟨some 0, ⟨0⟩, 0⟩, ⟨none, ⟨5⟩, 0⟩], [], [.submit 0 0, .submit 5 1], [], 1, [(0, 0)], []⟩ :=
    (((executed.step (.read _ none ⟨5⟩ (by simp [IsFree]) fun _ => trivial)).step
      (.sent _ 1 _ (.head _) rfl rfl)).step (.returned _ 0 rfl (by simp [IsFree]))).step
      (.nothingDue _ rfl (by cbv))
  have waiting : Reachable ⟨0, ⟨[], ⟨#[⟨5, 1, 1⟩], 2⟩, 1, .running⟩, .waiting,
      [⟨some 0, ⟨0⟩, 0⟩, ⟨none, ⟨5⟩, 0⟩], [], [.submit 0 0, .submit 5 1], [], 2, [(0, 0)], []⟩ :=
    (returned.step (.received _ ⟨[], ⟨#[⟨5, 1, 1⟩], 2⟩, 1, .running⟩ rfl (by cbv) rfl)).step
      (.nothingDue _ rfl (by cbv))
  have told : Reachable ⟨0, ⟨[.shutdown, .submit 0 2], ⟨#[⟨5, 1, 1⟩], 2⟩, 1, .running⟩, .waiting,
      [⟨some 0, ⟨0⟩, 0⟩, ⟨none, ⟨5⟩, 0⟩, ⟨some 0, ⟨0⟩, 0⟩], [],
      [.submit 0 0, .submit 5 1, .shutdown, .submit 0 2], [], 2, [(0, 0)], []⟩ :=
    ((waiting.step (.told _ (by simp))).step
      (.read _ (some 0) ⟨0⟩ (by simp [IsFree]) (by simp))).step
      (.sent _ 2 ⟨some 0, ⟨0⟩, 0⟩ (.head _) rfl rfl)
  have stopped : Reachable ⟨0, ⟨[], .empty, 1, .exited⟩, .ended,
      [⟨some 0, ⟨0⟩, 0⟩, ⟨none, ⟨5⟩, 0⟩, ⟨some 0, ⟨0⟩, 0⟩], [],
      [.submit 0 0, .submit 5 1, .shutdown, .submit 0 2], [], 3, [(0, 0)], [1, 2]⟩ :=
    (((((told.step
      (.stopped _ ⟨[.submit 0 2], ⟨#[⟨5, 1, 1⟩], 2⟩, 1, .stopping⟩ rfl rfl (by simp))).step
      (.dropped _ 1 [] rfl (by simp [IsFree]))).step (.closed _ rfl rfl)).step
      (.dropped _ 2 [] rfl (by simp [IsFree])))).step (.exited _ rfl rfl)
  exact (stopped.step (.read _ (some 1) ⟨0⟩ (by simp [IsFree]) (by simp))).step
    (.refused _ 3 (.head _) (by simp [Worker.accepts]))

theorem ended_protocol : ended.Reachable ∧ ended.Protocol :=
  ⟨ended_reachable, ended_reachable.protocol⟩

end Schedule

end LazyEffects
