import LazyEffects.Proofs.Arrivals

/-!
# Rounds of pumping

Whoever pumps an event loop starts, in every round, the task that comes first among those that have
been accepted and not been started, by the time at which it is due and then by the order in which
the tasks have come. If it is not due yet, they wait until it is, and if there is none, the pump
ends.

* `Machine.Comes`: the timer that comes first;
* `Machine.round`: what is done in a round;
* `Machine.exists_answered_idle`: if the tasks return, and there are only finitely many, the pump
  ends.
-/

namespace LazyEffects

variable {K : Codes} {M : Type}

namespace Machine

variable {client : Client K M} {l : LoopId} {m m' : Machine K M} {i n executed : ℕ}
  {timer : Timer (Task K)} {s : EventLoop K}

variable (client l m n) in
/-- The event loop has accepted the timer and has not started its task in the first `n` moves. -/
def Outstanding (timer : Timer (Task K)) : Prop :=
  timer ∈ m.accepted client l n ∧ timer ∉ m.started client l n

variable (client l m n) in
/-- Of the timers that are outstanding this is the one that is due first, and among those that are
due at that time the one that has come first. -/
structure Comes (timer : Timer (Task K)) : Prop where
  outstanding : m.Outstanding client l n timer
  first {b : Timer (Task K)} : m.Outstanding client l n b → b ≠ timer →
    timer.due < b.due ∨ timer.due = b.due ∧ timer.sequence < b.sequence

theorem Comes.due_le {b : Timer (Task K)} (h : m.Comes client l n timer)
    (hb : m.Outstanding client l n b) : timer.due ≤ b.due := by
  by_cases hne : b = timer
  · rw [hne]
  · rcases h.first hb hne with hlt | ⟨heq, -⟩
    · exact hlt.le
    · exact heq.le

section

variable (hm : m.world.loops = #[])

include hm

theorem outstanding_iff (hs : (m.run client n).world.loop? l = some s) :
    m.Outstanding client l n timer ↔ timer ∈ s.queue.heap := by
  have hperm := ((booked client l hm n).loop hs).2.2
  have hnodup := hperm.nodup_iff.2 (nodup_accepted client l hm n)
  rw [Outstanding, ← hperm.mem_iff, List.mem_append]
  constructor
  · rintro ⟨hstarted | hheap, hnot⟩
    · exact absurd hstarted hnot
    · exact Array.mem_toList_iff.1 hheap
  · intro hmem
    have hheap := Array.mem_toList_iff.2 hmem
    refine ⟨.inr hheap, fun hstarted => ?_⟩
    exact (List.nodup_append.1 hnodup).2.2 _ hstarted _ hheap rfl

/-- Timers that are outstanding are told apart by their numbers. -/
theorem sequence_injOn {b : Timer (Task K)} (hb : b ∈ m.accepted client l n)
    (ht : timer ∈ m.accepted client l n) (h : b.sequence = timer.sequence) : b = timer := by
  have hnodup : ((m.accepted client l n).map Timer.sequence).Nodup := by
    rw [(booked client l hm n).numbers]
    exact List.nodup_range
  exact List.inj_on_of_nodup_map hnodup hb ht h

/-- The timer at the root of the heap comes first. -/
theorem comes_of_root (hs : (m.run client n).world.loop? l = some s)
    (hroot : s.queue.heap[0]? = some timer) : m.Comes client l n timer := by
  have hmem := (outstanding_iff hm hs).2 (Array.mem_of_getElem? hroot)
  refine ⟨hmem, fun {b} hb hne => ?_⟩
  have hnot := (run_loop_ordered hm n hs).not_ahead_root hroot ((outstanding_iff hm hs).1 hb)
  have hsequence : b.sequence ≠ timer.sequence :=
    fun heq => hne (sequence_injOn hm hb.1 hmem.1 heq)
  rw [Timer.ahead_iff] at hnot
  grind

/-- A task that is started comes first, and it is due. -/
theorem comes_of_leaves (h : (m.run client n).leaves l = some timer) :
    m.Comes client l n timer := by
  obtain ⟨s, -, hs, hroot, -⟩ := leaves_eq_some h
  exact comes_of_root hm hs hroot

end

/-! ### What is done in a round -/

variable (client l m n executed) in
/-- A round of those who pump an event loop, with the moves `n` and `n + 1`. -/
inductive Round : Prop where
  /-- The task that comes first is due, and it is started. -/
  | starts {timer : Timer (Task K)} : m.Comes client l n timer →
    (m.run client n).leaves l = some timer → timer.due ≤ (m.run client n).world.readClock.1 →
    (m.run client (n + 1)).focus = .begin timer.task →
    (m.run client (n + 1)).control = .pumping l executed :: (m.run client n).control → Round
  /-- The task that comes first is not due, nor is another. When it is due, it is started. -/
  | waits {timer : Timer (Task K)} : m.Comes client l n timer →
    (∀ b, m.Outstanding client l n b → (m.run client n).world.readClock.1 < b.due) →
    (m.run client (n + 1)).focus = .pump l executed →
    (m.run client (n + 1)).control = (m.run client n).control →
    (m.run client (n + 1)).world.clock.now = timer.due →
    (m.run client (n + 1)).leaves l = some timer → Round
  /-- No task is outstanding, if the event loop has an owner. -/
  | ends : ((m.run client n).world.loop? l = none ∨ ∀ b, ¬ m.Outstanding client l n b) →
    (m.run client (n + 1)).focus = .answer (.ok (.count executed)) →
    (m.run client (n + 1)).control = (m.run client n).control →
    (m.run client (n + 1)).world.nextDue l = none → Round

/-- While they wait for a task that is not due, its timer stays at the root, and it is due then. -/
theorem step_waits {due : Instant} (hf : m.focus = .pump l executed)
    (hs : m.step client = some m') (hleaves : m.leaves l = none)
    (hdue : m.world.nextDue l = some due) :
    m'.world.clock.now = max m.world.readClock.1 due ∧ m'.world.loops = m.world.loops := by
  have htakes : m.focus.takesFrom l = true := by simp [hf, Focus.takesFrom]
  cases hp : m.world.popLoop l with
  | mk x w₁ =>
    have hx := leaves_of_popLoop htakes rfl rfl hp
    rw [hleaves, Option.map_none, eq_comm, Option.map_eq_none_iff] at hx
    subst hx
    have hw₁ : w₁ = m.world.readClock.2 := by
      rw [World.nextDue, Option.bind_eq_some_iff] at hdue
      obtain ⟨s, hloop, -⟩ := hdue
      rw [World.popLoop_of_loop? hloop] at hp
      split at hp <;> cases hp
      rfl
    subst hw₁
    have hdue' : m.world.readClock.2.nextDue l = some due := hdue
    rw [step, hf] at hs
    cases hs
    simp only [pump, hp, hdue']
    exact ⟨rfl, rfl⟩

/-- What one who pumps an event loop does next. -/
theorem round (hm : m.world.loops = #[]) (hf : (m.run client n).focus = .pump l executed) :
    Round client l m n executed := by
  obtain ⟨m', hs⟩ := exists_step client (m := m.run client n) (by simp [hf])
  have hrun := run_succ_of_step hs
  rcases pump_cases hf hs with
    ⟨timer, hleaves, hbegin, hcontrol⟩ | ⟨hleaves, hcontrol, ⟨hne, hpump⟩ | ⟨hnone, hend, hnone'⟩⟩
  · obtain ⟨-, -, -, -, hdue⟩ := leaves_eq_some hleaves
    exact .starts (comes_of_leaves hm hleaves) hleaves hdue (hrun ▸ hbegin) (hrun ▸ hcontrol)
  · -- The root of the heap is not due, and it is what they wait for.
    obtain ⟨due, hdue⟩ := Option.ne_none_iff_exists'.1 hne
    obtain ⟨hnow, hloops⟩ := step_waits hf hs hleaves hdue
    rw [World.nextDue, Option.bind_eq_some_iff] at hdue
    obtain ⟨s, hloop, hdue⟩ := hdue
    rw [TimerQueue.nextDue, Option.map_eq_some_iff] at hdue
    obtain ⟨timer, hroot, rfl⟩ := hdue
    have htakes : (m.run client n).focus.takesFrom l = true := by simp [hf, Focus.takesFrom]
    have hlate : (m.run client n).world.readClock.1 < timer.due := by
      rw [leaves, if_pos htakes, hloop, Option.bind_some, hroot] at hleaves
      simpa [Option.filter] using hleaves
    have hcomes := comes_of_root hm hloop hroot
    have hnow' : m'.world.clock.now = timer.due := by rw [hnow, max_eq_right hlate.le]
    refine .waits hcomes (fun b hb => hlate.trans_le (hcomes.due_le hb)) (hrun ▸ hpump)
      (hrun ▸ hcontrol) (hrun ▸ hnow') ?_
    have hloop' : m'.world.loop? l = some s := by
      rw [World.loop?, hloops]
      exact hloop
    have hreading : timer.due ≤ m'.world.readClock.1 := hnow' ▸ World.now_le_readClock _
    have htakes' : m'.focus.takesFrom l = true := by simp [hpump, Focus.takesFrom]
    rw [hrun, leaves, if_pos htakes', hloop', Option.bind_some, hroot]
    simp [Option.filter, hreading]
  · refine .ends ?_ (hrun ▸ hend) (hrun ▸ hcontrol) (hrun ▸ hnone')
    cases hloop : (m.run client n).world.loop? l with
    | none => exact .inl rfl
    | some s =>
      rw [World.nextDue, hloop, Option.bind_some, TimerQueue.nextDue, Option.map_eq_none_iff,
        Array.getElem?_eq_none_iff] at hnone
      refine .inr fun b hb => ?_
      obtain ⟨j, hj, -⟩ := Array.getElem_of_mem ((outstanding_iff hm hloop).1 hb)
      omega

/-! ### The pump ends -/

variable (client l) in
theorem started_length_mono (m : Machine K M) : Monotone fun n => (m.started client l n).length :=
  monotone_nat_of_le_succ fun n => by simp [started_succ]

theorem started_length_lt (m : Machine K M) {j n' : ℕ} (hj : n ≤ j)
    (h : (m.run client j).leaves l = some timer) (hn' : j < n') :
    (m.started client l n).length < (m.started client l n').length := by
  have hlt : (m.started client l j).length < (m.started client l (j + 1)).length := by
    simp [started_succ, h]
  exact (started_length_mono client l m hj).trans_lt
    (hlt.trans_le (started_length_mono client l m hn'))

variable (client l) in
/-- The tasks that are started for one who pumps the event loop above those of `base` come to an
end. -/
def TasksReturn (base : List (Activity K M)) (m : Machine K M) : Prop :=
  ∀ n executed t, (m.run client n).focus = .begin t →
    (m.run client n).control = .pumping l executed :: .sharing l :: base →
    ∃ k a, Answered client (m.run client n) k a

/-- A task that is started for those who pump returns to them, and then the next round begins, or it
panics, and then they are answered. -/
theorem exists_next {base : List (Activity K M)} (hreturn : TasksReturn client l base m)
    (hc : (m.run client n).control = .sharing l :: base)
    (hf : (m.run client n).focus = .pump l executed)
    (hleaves : (m.run client n).leaves l = some timer) :
    ∃ n', n < n' ∧
      (((m.run client n').control = .sharing l :: base ∧
          ∃ executed, (m.run client n').focus = .pump l executed) ∨
        (m.run client n').control = base ∧ ∃ a, (m.run client n').focus = .answer a) := by
  obtain ⟨m', hs⟩ := exists_step client (m := m.run client n) (by simp [hf])
  have hrun := run_succ_of_step hs
  rcases pump_cases hf hs with ⟨timer', -, hbegin, hcontrol⟩ | ⟨hnone, -⟩
  · rw [← hrun] at hbegin hcontrol
    rw [hc] at hcontrol
    obtain ⟨k, a, ha⟩ := hreturn _ _ _ hbegin hcontrol
    have hck := ha.control
    have hfk := ha.focus
    rw [← run_add, hcontrol] at hck
    rw [← run_add] at hfk
    cases a with
    | ok r =>
      have hs : (m.run client (n + 1 + k)).step client = some
          ⟨(m.run client (n + 1 + k)).world, .sharing l :: base, .pump l (executed + 1)⟩ := by
        rw [step, hfk, hck]
        rfl
      have hnext := run_succ_of_step hs
      exact ⟨n + 1 + k + 1, by omega, .inl ⟨by rw [hnext], _, by rw [hnext]⟩⟩
    | error p =>
      have hs : (m.run client (n + 1 + k)).step client = some
          ⟨(m.run client (n + 1 + k)).world, .sharing l :: base, .answer (.error p)⟩ := by
        rw [step, hfk, hck]
        rfl
      have hs' : (m.run client (n + 1 + k + 1)).step client = some
          ⟨((m.run client (n + 1 + k)).world.release l).2, base, .answer (.error p)⟩ := by
        rw [run_succ_of_step hs]
        rfl
      have hend := run_succ_of_step hs'
      exact ⟨n + 1 + k + 1 + 1, by omega, .inr ⟨by rw [hend], _, by rw [hend]⟩⟩
  · rw [hleaves] at hnone
    cases hnone

/-- Those who pump an event loop to which only finitely many tasks are deferred have an end. -/
theorem exists_idle {base : List (Activity K M)} {B : ℕ} (hm : m.world.loops = #[])
    (hB : ∀ n, (m.accepted client l n).length ≤ B) (hreturn : TasksReturn client l base m)
    (hc : (m.run client n).control = .sharing l :: base)
    (hf : (m.run client n).focus = .pump l executed) :
    ∃ n' a, n ≤ n' ∧ (m.run client n').control = base ∧ (m.run client n').focus = .answer a := by
  -- Each task that is started uses up one of those that are accepted.
  induction hΦ : B - (m.started client l n).length using Nat.strong_induction_on
    generalizing n executed with
  | _ Φ ih =>
    subst hΦ
    have hstart {j executed : ℕ} {timer : Timer (Task K)} (hj : n ≤ j)
        (hcj : (m.run client j).control = .sharing l :: base)
        (hfj : (m.run client j).focus = .pump l executed)
        (hleaves : (m.run client j).leaves l = some timer) :
        ∃ n' a, n ≤ n' ∧ (m.run client n').control = base ∧
          (m.run client n').focus = .answer a := by
      obtain ⟨n', hn', ⟨hc', executed', hf'⟩ | ⟨hc', a, hf'⟩⟩ := exists_next hreturn hcj hfj hleaves
      · have hlt := started_length_lt m hj hleaves hn'
        have hle := (booked client l hm n').among.length_le.trans (hB n')
        obtain ⟨n'', a, hn'', hend⟩ := ih _ (by omega) hc' hf' rfl
        exact ⟨n'', a, by omega, hend⟩
      · exact ⟨n', a, by omega, hc', hf'⟩
    cases round hm hf with
    | starts _ hleaves => exact hstart le_rfl hc hf hleaves
    | waits _ _ hpump hcontrol _ hleaves =>
      exact hstart (Nat.le_succ n) (hcontrol.trans hc) hpump hleaves
    | ends _ hend hcontrol hdue =>
      have hover : m.run client (n + 1 + 3) =
          ⟨((m.run client (n + 1)).world.release l).2, base, .answer (.ok (.count executed))⟩ := by
        rw [run_add, ← run_sharing (release_of_nextDue hdue), ← hc, ← hcontrol, ← hend]
      exact ⟨n + 1 + 3, _, by omega, by rw [hover], by rw [hover]⟩

/-- Who has an event loop run until it is idle is answered, if the tasks return that are run for
them, and only finitely many are ever deferred to the loop. -/
theorem exists_answered_idle {B : ℕ} (hm : m.world.loops = #[])
    (hB : ∀ n, (m.accepted client l n).length ≤ B)
    (hf : (m.run client i).focus = .request (.runUntilIdle l))
    (hreturn : TasksReturn client l (m.run client i).control m) :
    ∃ n a, Answered client (m.run client i) n a := by
  have hone := run_one_of_idle client hf
  rw [← run_add] at hone
  have hcontrol : (m.run client (i + 1)).control = .sharing l :: (m.run client i).control := by
    rw [hone]
  have hpump : (m.run client (i + 1)).focus = .pump l 0 := by rw [hone]
  obtain ⟨n', a, hn', hc, hf'⟩ := exists_idle hm hB hreturn hcontrol hpump
  obtain ⟨d, rfl⟩ := Nat.exists_eq_add_of_le (Nat.le_of_succ_le hn')
  rw [run_add] at hc hf'
  obtain ⟨k, a', -, hk⟩ := exists_answered hc hf'
  exact ⟨k, a', hk⟩

end Machine

end LazyEffects
