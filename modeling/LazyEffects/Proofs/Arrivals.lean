import LazyEffects.Proofs.Conservation

/-!
# First come, first served

An event loop starts the task that is ahead of all others. Since time does not go back, tasks that
have been deferred to it with the same delay are due in the order in which they have come, and in
that order they are started.

* `Machine.run_loop_ordered`: no timer of an event loop is ahead of the one that leaves next;
* `Machine.first_come`: of two tasks with the same delay the one that has come first is started
  first.
-/

namespace LazyEffects

variable {K : Codes} {M : Type}

/-- Time has not gone back when the clock is read. -/
theorem World.now_le_readClock (w : World K M) : w.clock.now ≤ w.readClock.1 :=
  (Clock.Before.read w.clock).le

namespace Machine

variable {client : Client K M} {l : LoopId} {m : Machine K M} {j n t u u' : ℕ}
  {timer a b : Timer (Task K)} {s : EventLoop K}

theorem mem_started :
    timer ∈ m.started client l n ↔ ∃ u < n, (m.run client u).leaves l = some timer := by
  simp [started, List.mem_flatMap, Option.mem_toList]

section

variable (hm : m.world.loops = #[])

include hm

/-! ### Timers come and go once -/

variable (client l) in
theorem nodup_accepted (n : ℕ) : (m.accepted client l n).Nodup := by
  refine List.Nodup.of_map Timer.sequence ?_
  rw [(booked client l hm n).numbers]
  exact List.nodup_range

variable (client l) in
theorem nodup_started (n : ℕ) : (m.started client l n).Nodup := by
  obtain ⟨list, hperm, hsublist⟩ := (booked client l hm n).among
  exact hperm.nodup_iff.1 (hsublist.nodup (nodup_accepted client l hm n))

theorem notMem_accepted (h : (m.run client j).enters l = some timer) :
    timer ∉ m.accepted client l j := by
  have hnodup := nodup_accepted client l hm (j + 1)
  rw [accepted_succ, h] at hnodup
  exact fun hmem => (List.nodup_append.1 hnodup).2.2 _ hmem _ (List.mem_singleton_self _) rfl

theorem enters_unique (h : (m.run client j).enters l = some timer)
    (h' : (m.run client t).enters l = some timer) : j = t := by
  rcases lt_trichotomy j t with hlt | rfl | hlt
  · exact absurd (mem_accepted.2 ⟨j, hlt, h⟩) (notMem_accepted hm h')
  · rfl
  · exact absurd (mem_accepted.2 ⟨t, hlt, h'⟩) (notMem_accepted hm h)

theorem exists_enters (h : (m.run client u).leaves l = some timer) :
    ∃ j < u, (m.run client j).enters l = some timer :=
  mem_accepted.1 ((booked client l hm u).mem_accepted_of_leaves h)

theorem notMem_started (h : (m.run client u).leaves l = some timer) :
    timer ∉ m.started client l u := by
  have hnodup := nodup_started client l hm (u + 1)
  rw [started_succ, h] at hnodup
  exact fun hmem => (List.nodup_append.1 hnodup).2.2 _ hmem _ (List.mem_singleton_self _) rfl

/-- A timer comes before it goes. -/
theorem lt_of_leaves (h : (m.run client j).enters l = some timer)
    (h' : (m.run client u).leaves l = some timer) : j < u := by
  by_contra hle
  obtain ⟨j', hj', henters⟩ := exists_enters hm h'
  exact notMem_accepted hm h (mem_accepted.2 ⟨j', hj'.trans_le (Nat.le_of_not_lt hle), henters⟩)

theorem leaves_unique (h : (m.run client u).leaves l = some timer)
    (h' : (m.run client u').leaves l = some timer) : u = u' := by
  rcases lt_trichotomy u u' with hlt | rfl | hlt
  · exact absurd (mem_started.2 ⟨u, hlt, h⟩) (notMem_started hm h')
  · rfl
  · exact absurd (mem_started.2 ⟨u', hlt, h'⟩) (notMem_started hm h)

/-- A timer that has come waits until its task is started. -/
theorem mem_heap_or_leaves (hs : (m.run client n).world.loop? l = some s)
    (h : (m.run client j).enters l = some timer) (hj : j < n) :
    timer ∈ s.queue.heap ∨ ∃ u, j < u ∧ u < n ∧ (m.run client u).leaves l = some timer := by
  have hmem := ((booked client l hm n).loop hs).2.2.symm.subset (mem_accepted.2 ⟨j, hj, h⟩)
  rcases List.mem_append.1 hmem with hstarted | hheap
  · obtain ⟨u, hu, hleaves⟩ := mem_started.1 hstarted
    exact .inr ⟨u, lt_of_leaves hm h hleaves, hu, hleaves⟩
  · exact .inl (Array.mem_toList_iff.1 hheap)

/-- A timer that waits has come, and its task has not been started. -/
theorem enters_of_mem_heap (hs : (m.run client n).world.loop? l = some s)
    (h : timer ∈ s.queue.heap) : (∃ j < n, (m.run client j).enters l = some timer) ∧
      ∀ u < n, (m.run client u).leaves l ≠ some timer := by
  have hperm := ((booked client l hm n).loop hs).2.2
  have hheap := Array.mem_toList_iff.2 h
  refine ⟨mem_accepted.1 (hperm.subset (List.mem_append_right _ hheap)), fun u hu hleaves => ?_⟩
  have hnodup := hperm.nodup_iff.2 (nodup_accepted client l hm n)
  exact (List.nodup_append.1 hnodup).2.2 _ (mem_started.2 ⟨u, hu, hleaves⟩) _ hheap rfl

/-! ### The order in which they go -/

/-- No timer of an event loop is ahead of the one that leaves next. -/
theorem run_loop_ordered (n : ℕ) {s : EventLoop K}
    (hs : (m.run client n).world.loop? l = some s) : TimerQueue.Ordered s.queue.heap := by
  induction n generalizing s with
  | zero => simp [run, World.loop?, hm] at hs
  | succ n ih =>
    rw [run_succ] at hs
    cases hstep : (m.run client n).step client with
    | none =>
      rw [hstep] at hs
      exact ih hs
    | some m' =>
      rw [hstep] at hs
      rcases (step_loop l hstep).loop hs with ⟨-, rfl⟩ | ⟨s₀, hs₀, hmove⟩
      · exact TimerQueue.empty_ordered
      · have hordered := ih hs₀
        cases hmove with
        | steady => exact hordered
        | accepted => exact TimerQueue.push_ordered hordered _ _
        | started _ _ hpop => exact TimerQueue.popDue_ordered hordered hpop

/-- The timer that comes later has the later number. -/
theorem sequence_lt (ha : (m.run client j).enters l = some a)
    (hb : (m.run client t).enters l = some b) (hjt : j < t) : a.sequence < b.sequence := by
  obtain ⟨-, s, -, hs, -, hsequence, -⟩ := enters_eq_some ha
  obtain ⟨-, s', -, hs', -, hsequence', -⟩ := enters_eq_some hb
  rw [hsequence, hsequence', ((booked client l hm j).loop hs).2.1,
    ((booked client l hm t).loop hs').2.1]
  have hlt : (m.accepted client l j).length < (m.accepted client l (j + 1)).length := by
    simp [accepted_succ, ha]
  have hmono : Monotone fun n => (m.accepted client l n).length :=
    monotone_nat_of_le_succ fun n => by simp [accepted_succ]
  exact hlt.trans_le (hmono hjt)

omit hm in
/-- Time does not go back after a timer has come. -/
theorem readClock_le (ha : (m.run client j).enters l = some a) (hjt : j < t) :
    (m.run client j).world.readClock.1 ≤ (m.run client t).world.readClock.1 := by
  obtain ⟨delay, -, hf, -⟩ := enters_eq_some ha
  obtain ⟨m', hs⟩ := exists_step client (m := m.run client j) (by simp [hf])
  obtain ⟨-, -, hclock⟩ := step_enters ha hs
  obtain ⟨i, rfl⟩ := Nat.exists_eq_add_of_le (Nat.succ_le_of_lt hjt)
  have hbefore := (run_before client (m.run client (j + 1)) i).le
  rw [← run_add, run_succ_of_step hs, hclock] at hbefore
  exact hbefore.trans (World.now_le_readClock _)

/-- Of two tasks that are deferred to an event loop with the same delay the one that comes first is
started first. -/
theorem first_come {delay : Duration} {x y : Task K} {q : ℕ}
    (hx : (m.run client j).focus = .defer (.eventLoop l) delay x)
    (hy : (m.run client t).focus = .defer (.eventLoop l) delay y)
    (ha : (m.run client j).enters l = some a) (hb : (m.run client t).enters l = some b)
    (hjt : j < t) (hq : (m.run client q).leaves l = some b) :
    ∃ u, j < u ∧ u < q ∧ (m.run client u).leaves l = some a := by
  obtain ⟨s, -, hs, hroot, -⟩ := leaves_eq_some hq
  have hjq : j < q := hjt.trans (lt_of_leaves hm hb hq)
  refine (mem_heap_or_leaves hm hs ha hjq).resolve_left fun hmem => ?_
  -- It is not due later, and so it would be ahead of the other.
  refine (run_loop_ordered hm q hs).not_ahead_root hroot hmem ?_
  obtain ⟨delay', -, hf, -, hdue, -⟩ := enters_eq_some ha
  obtain ⟨delay'', -, hf', -, hdue', -⟩ := enters_eq_some hb
  rw [hx] at hf
  rw [hy] at hf'
  cases hf
  cases hf'
  have hclock := readClock_le ha hjt
  have hsequence := sequence_lt hm ha hb hjt
  rw [Timer.ahead_iff]
  have hle : a.due ≤ b.due := by
    rw [hdue, hdue']
    exact Int.add_le_add_right hclock _
  rcases hle.lt_or_eq with hlt | heq
  · exact .inl hlt
  · exact .inr ⟨heq, hsequence⟩

end

end Machine

end LazyEffects
