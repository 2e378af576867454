import LazyEffects.Proofs.Pumps

/-!
# The tasks of an event loop

Every task that an event loop takes in is in its queue until the loop starts it, which it does once
and not before the task is due. The loop starts tasks for those who pump it, and what they have been
told adds up to the number of its turns, however their pumps are nested.

* `Machine.Booked`: the books of an event loop;
* `Machine.session_conserves`: what becomes of the tasks of an event loop in a session.
-/

namespace LazyEffects

variable {K : Codes} {M : Type}

namespace Machine

variable {client : Client K M} {l : LoopId} {m : Machine K M} {n : ℕ}

variable (client l) in
/-- The timers that the event loop takes in during the first `n` moves, in order. -/
def accepted (m : Machine K M) (n : ℕ) : List (Timer (Task K)) :=
  (List.range n).flatMap fun i => ((m.run client i).enters l).toList

variable (client l) in
/-- The timers whose tasks the event loop starts during the first `n` moves, in order. -/
def started (m : Machine K M) (n : ℕ) : List (Timer (Task K)) :=
  (List.range n).flatMap fun i => ((m.run client i).leaves l).toList

theorem accepted_succ (m : Machine K M) (n : ℕ) :
    m.accepted client l (n + 1) =
      m.accepted client l n ++ ((m.run client n).enters l).toList := by
  simp [accepted, List.range_succ]

theorem started_succ (m : Machine K M) (n : ℕ) :
    m.started client l (n + 1) = m.started client l n ++ ((m.run client n).leaves l).toList := by
  simp [started, List.range_succ]

theorem accepted_add (m : Machine K M) (n k : ℕ) :
    m.accepted client l (n + k) = m.accepted client l n ++ (m.run client n).accepted client l k := by
  induction k with
  | zero => simp [accepted]
  | succ k ih => rw [← Nat.add_assoc, accepted_succ, ih, accepted_succ, run_add, List.append_assoc]

theorem started_add (m : Machine K M) (n k : ℕ) :
    m.started client l (n + k) = m.started client l n ++ (m.run client n).started client l k := by
  induction k with
  | zero => simp [started]
  | succ k ih => rw [← Nat.add_assoc, started_succ, ih, started_succ, run_add, List.append_assoc]

variable (client l m n) in
/-- The books of an event loop after `n` moves: its timers are numbered as they come, and each of
them has been started or waits. -/
structure Booked : Prop where
  loop {s : EventLoop K} : (m.run client n).world.loop? l = some s →
    s.turns = (m.started client l n).length ∧
      s.queue.sequence = (m.accepted client l n).length ∧
      (m.started client l n ++ s.queue.heap.toList).Perm (m.accepted client l n)
  /-- Before it is opened, a loop has nothing to do. -/
  unopened : (m.run client n).world.loops.size ≤ l.index →
    m.accepted client l n = [] ∧ m.started client l n = []
  numbers : (m.accepted client l n).map Timer.sequence =
    List.range (m.accepted client l n).length
  among : (m.started client l n).Subperm (m.accepted client l n)

theorem booked_zero (hm : m.world.loops = #[]) : Booked client l m 0 where
  loop hs := by simp [run, World.loop?, hm] at hs
  unopened _ := ⟨rfl, rfl⟩
  numbers := rfl
  among := List.nil_subperm

namespace Booked

variable {m' : Machine K M}

theorem numbers_succ (h : Booked client l m n) : (m.accepted client l (n + 1)).map Timer.sequence =
    List.range (m.accepted client l (n + 1)).length := by
  rw [accepted_succ]
  cases henters : (m.run client n).enters l with
  | none => simpa using h.numbers
  | some timer =>
    obtain ⟨delay, s, -, hs, -, hsequence, -⟩ := enters_eq_some henters
    simp [List.range_succ, h.numbers, hsequence, (h.loop hs).2.1]

theorem among_succ (h : Booked client l m n) :
    (m.started client l (n + 1)).Subperm (m.accepted client l (n + 1)) := by
  rw [accepted_succ, started_succ]
  refine List.Subperm.trans ?_ (List.sublist_append_left _ _).subperm
  cases hleaves : (m.run client n).leaves l with
  | none => simpa using h.among
  | some timer =>
    -- The timer has been waiting, apart from those that have been started.
    obtain ⟨s, -, hs, hroot, -⟩ := leaves_eq_some hleaves
    have hmem : [timer].Sublist s.queue.heap.toList := by
      rw [List.singleton_sublist, Array.mem_toList_iff]
      exact Array.mem_of_getElem? hroot
    exact (((List.Sublist.refl _).append hmem).subperm).trans (h.loop hs).2.2.subperm

/-- A move of the event loop is entered in its books. -/
theorem loop_of_move (h : Booked client l m n) {s s' : EventLoop K}
    (hs : (m.run client n).world.loop? l = some s)
    (hmove : LoopMove l (m.run client n) s s') :
    s'.turns = (m.started client l (n + 1)).length ∧
      s'.queue.sequence = (m.accepted client l (n + 1)).length ∧
      (m.started client l (n + 1) ++ s'.queue.heap.toList).Perm (m.accepted client l (n + 1)) := by
  obtain ⟨hturns, hsequence, hperm⟩ := h.loop hs
  cases hmove with
  | steady henters hleaves =>
    rw [accepted_succ, started_succ, henters, hleaves]
    simpa using ⟨hturns, hsequence, hperm⟩
  | @accepted timer henters hleaves =>
    obtain ⟨-, s₀, -, hs₀, -, hnumber, -⟩ := enters_eq_some henters
    rw [hs] at hs₀
    cases hs₀
    rw [accepted_succ, started_succ, henters, hleaves, Option.toList_none, List.append_nil]
    refine ⟨hturns, by simp [TimerQueue.push, hsequence], ?_⟩
    have hpush := s.queue.push_toList timer.due timer.task
    rw [← hnumber] at hpush
    have hmiddle := ((hpush.append_left (m.started client l n)).trans List.perm_middle)
    exact (hmiddle.trans (hperm.cons timer)).trans (List.perm_append_singleton _ _).symm
  | @started timer queue owners henters hleaves hpop =>
    obtain ⟨s₀, -, hs₀, hroot, -⟩ := leaves_eq_some hleaves
    rw [hs] at hs₀
    cases hs₀
    rw [accepted_succ, started_succ, henters, hleaves, Option.toList_none, List.append_nil]
    refine ⟨by simp [hturns], (TimerQueue.popDue_sequence hpop).trans hsequence, ?_⟩
    rw [Option.toList_some, List.append_assoc]
    exact ((TimerQueue.popDue_toList hroot hpop).symm.append_left _).trans hperm

theorem succ (h : Booked client l m n) : Booked client l m (n + 1) where
  numbers := h.numbers_succ
  among := h.among_succ
  loop {s'} hs' := by
    rw [run_succ] at hs'
    cases hstep : (m.run client n).step client with
    | none =>
      obtain ⟨-, a, hf⟩ := step_eq_none hstep
      rw [hstep] at hs'
      have henters : (m.run client n).enters l = none := by rw [enters, hf]
      have hmove : LoopMove l (m.run client n) s' s' :=
        .steady henters (leaves_eq_none (by rw [hf]; rfl))
      exact h.loop_of_move hs' hmove
    | some m' =>
      rw [hstep] at hs'
      rcases (step_loop l hstep).loop hs' with ⟨hsize, rfl⟩ | ⟨s, hs, hmove⟩
      · -- Nothing has been done at a loop that has just been opened.
        have hnone := World.loop?_of_size_le hsize
        obtain ⟨haccepted, hstarted⟩ := h.unopened hsize
        rw [accepted_succ, started_succ, haccepted, hstarted, enters_of_loop?_none hnone,
          leaves_of_loop?_none hnone]
        exact ⟨rfl, rfl, .refl _⟩
      · exact h.loop_of_move hs hmove
  unopened hsize := by
    have hsize' : (m.run client n).world.loops.size ≤ l.index := by
      rw [run_succ] at hsize
      cases hstep : (m.run client n).step client with
      | none => simpa [hstep] using hsize
      | some m' =>
        rw [hstep] at hsize
        exact (step_loop l hstep).size.trans hsize
    have hnone := World.loop?_of_size_le hsize'
    obtain ⟨haccepted, hstarted⟩ := h.unopened hsize'
    rw [accepted_succ, started_succ, haccepted, hstarted, enters_of_loop?_none hnone,
      leaves_of_loop?_none hnone]
    exact ⟨rfl, rfl⟩

end Booked

/-- What has been pending or has come between two moments has been started or is pending. -/
theorem Booked.between {k : ℕ} {s s' : EventLoop K} (h : Booked client l m n)
    (h' : Booked client l m (n + k)) (hs : (m.run client n).world.loop? l = some s)
    (hs' : (m.run client (n + k)).world.loop? l = some s') :
    ((m.run client n).started client l k ++ s'.queue.heap.toList).Perm
      (s.queue.heap.toList ++ (m.run client n).accepted client l k) := by
  have hbefore := (h.loop hs).2.2
  have hafter := (h'.loop hs').2.2
  rw [started_add, accepted_add, List.append_assoc] at hafter
  have hall := hafter.trans (hbefore.symm.append_right _)
  rw [List.append_assoc] at hall
  exact (List.perm_append_left_iff _).1 hall

variable (client l) in
theorem booked (hm : m.world.loops = #[]) (n : ℕ) : Booked client l m n := by
  induction n with
  | zero => exact booked_zero hm
  | succ n ih => exact ih.succ

theorem mem_accepted {timer : Timer (Task K)} :
    timer ∈ m.accepted client l n ↔ ∃ j < n, (m.run client j).enters l = some timer := by
  simp [accepted, List.mem_flatMap, Option.mem_toList]

/-- A task is started for which the loop has a timer in its books. -/
theorem Booked.mem_accepted_of_leaves (h : Booked client l m n) {timer : Timer (Task K)}
    (hleaves : (m.run client n).leaves l = some timer) : timer ∈ m.accepted client l n := by
  obtain ⟨s, -, hs, hroot, -⟩ := leaves_eq_some hleaves
  refine (h.loop hs).2.2.subset (List.mem_append_right _ ?_)
  rw [Array.mem_toList_iff]
  exact Array.mem_of_getElem? hroot

/-- What is started is begun next, for one who pumps the event loop or makes a turn of it. -/
theorem run_leaves {timer : Timer (Task K)} (h : (m.run client n).leaves l = some timer) :
    (m.run client (n + 1)).focus = .begin timer.task ∧
      ((∃ executed, (m.run client (n + 1)).control =
          .pumping l executed :: (m.run client n).control) ∨
        (m.run client (n + 1)).control =
          .affirming :: .sharing l :: (m.run client n).control) := by
  obtain ⟨-, htakes, -⟩ := leaves_eq_some h
  obtain ⟨m', hs⟩ := exists_step client fun a hf => by
    rw [hf] at htakes
    cases htakes
  rw [run_succ_of_step hs]
  obtain ⟨hbegin, ⟨executed, -, hcontrol⟩ | ⟨-, hcontrol⟩⟩ := step_leaves h hs
  · exact ⟨hbegin, .inl ⟨executed, hcontrol⟩⟩
  · exact ⟨hbegin, .inr hcontrol⟩

theorem length_started (m : Machine K M) (n : ℕ) : (m.started client l n).length =
    ∑ i ∈ Finset.range n, ((m.run client i).leaves l).toList.length := by
  induction n with
  | zero => rfl
  | succ n ih => rw [started_succ, List.length_append, ih, Finset.sum_range_succ]

/-- What becomes of the tasks that are deferred to an event loop in a session, which may be pumped
from within its own tasks, and whose tasks may panic. -/
structure Conserves (client : Client K M) (l : LoopId) (m : Machine K M) : Prop where
  /-- At every moment the tasks accepted are those that the loop has started and those that are
  pending, as it says itself. -/
  balance {n : ℕ} {s : EventLoop K} : (m.run client n).world.loop? l = some s →
    (m.accepted client l n).length = s.turns + s.queue.size ∧
      (m.started client l n).length = s.turns
  inspected {n : ℕ} {s : EventLoop K} : (m.run client n).world.loop? l = some s →
    (m.run client n).focus = .request (.inspectLoop l) → ∃ pending turns,
      (m.run client (n + 1)).focus = .answer (.ok (.loopState pending turns)) ∧
        (m.accepted client l n).length = turns + pending
  /-- Every task accepted is started at most once. -/
  once (n : ℕ) : (m.accepted client l n).Nodup ∧
    (m.started client l n).Subperm (m.accepted client l n)
  /-- A task is not started before it is due, with the delay asked for from the time at which it was
  deferred. The one who has deferred it has been answered before. -/
  due {n : ℕ} {timer : Timer (Task K)} : (m.run client n).leaves l = some timer →
    (m.run client (n + 1)).focus = .begin timer.task ∧
      timer.due ≤ (m.run client n).world.readClock.1 ∧
      ∃ j delay, j + 1 < n ∧ (m.run client j).focus = .defer (.eventLoop l) delay timer.task ∧
        timer.due = (m.run client j).world.readClock.1 + delay.nanos ∧
        (m.run client (j + 1)).focus = .answer (.ok .done) ∧
        (m.run client (j + 1)).control = (m.run client j).control
  /-- Who has the loop run until it is idle is answered the number of tasks that the pump has run,
  and then no tasks are pending. -/
  idle {i n : ℕ} {r : Reply K} : (m.run client i).focus = .request (.runUntilIdle l) →
    Answered client (m.run client i) n (.ok r) →
    (∃ j executed, i < j ∧ j < i + n ∧ r = .count executed ∧
        (m.run client j).focus = .pump l executed ∧
        (m.run client j).control = .sharing l :: (m.run client i).control ∧
        (m.run client j).returns l = executed) ∧
      ∀ s, (m.run client (i + n)).world.loop? l = some s → s.queue.size = 0
  /-- Who makes a turn of the loop is answered whether a task has been run. -/
  turned {i n : ℕ} {r : Reply K} : (m.run client i).focus = .request (.turn l) →
    Answered client (m.run client i) n (.ok r) →
    (r = .flag true ∧ ∃ j, i < j ∧ j < i + n ∧
        (m.run client j).control = .affirming :: .sharing l :: (m.run client i).control ∧
        (m.run client j).returns l = 1) ∨
      r = .flag false ∧ (m.run client i).leaves l = none
  /-- What is returned is answered: by a pump, also by one that is made for a run, the number of tasks
  that it has run, and by a turn that it has run one. -/
  answers {n : ℕ} : (m.run client n).returns l ≠ 0 →
    ((m.run client n).focus = .pump l ((m.run client n).returns l) ∧
        (m.run client (n + 1)).focus = .answer (.ok (.count ((m.run client n).returns l))) ∧
        (m.run client (n + 1)).control = (m.run client n).control) ∨
      (m.run client n).returns l = 1 ∧ (m.run client (n + 1)).focus = .answer (.ok (.flag true)) ∧
        ∃ control, (m.run client n).control = .affirming :: .sharing l :: control ∧
          (m.run client (n + 1)).control = .sharing l :: control
  /-- The turns of the loop are what has been returned to those who have pumped it, what those who
  are pumping it have counted, and what has not been returned for a panic. -/
  turns {n : ℕ} {s : EventLoop K} : (m.run client n).world.loop? l = some s →
    s.turns = ∑ i ∈ Finset.range n, (m.run client i).returns l + (m.run client n).credit l +
      ∑ i ∈ Finset.range n, (m.run client i).forgoes l
  /-- If nobody is pumping the loop, and no panic has gone through one who did, the turns are what has
  been returned. -/
  returned {n : ℕ} {s : EventLoop K} : (m.run client n).world.loop? l = some s →
    ¬ (m.run client n).Pumped l → (∀ i < n, (m.run client i).forgoes l = 0) →
    s.turns = ∑ i ∈ Finset.range n, (m.run client i).returns l

namespace Booked

theorem balance (h : Booked client l m n) {s : EventLoop K}
    (hs : (m.run client n).world.loop? l = some s) :
    (m.accepted client l n).length = s.turns + s.queue.size ∧
      (m.started client l n).length = s.turns := by
  obtain ⟨hturns, -, hperm⟩ := h.loop hs
  refine ⟨?_, hturns.symm⟩
  rw [← hperm.length_eq, List.length_append, hturns]
  rfl

/-- A task is started after the one who has deferred it has been answered. -/
theorem due (h : Booked client l m n) {timer : Timer (Task K)}
    (hleaves : (m.run client n).leaves l = some timer) :
    ∃ j delay, j + 1 < n ∧ (m.run client j).focus = .defer (.eventLoop l) delay timer.task ∧
      timer.due = (m.run client j).world.readClock.1 + delay.nanos ∧
      (m.run client (j + 1)).focus = .answer (.ok .done) ∧
      (m.run client (j + 1)).control = (m.run client j).control := by
  obtain ⟨j, hj, henters⟩ := mem_accepted.1 (h.mem_accepted_of_leaves hleaves)
  obtain ⟨delay, s, hf, -, hdue, -⟩ := enters_eq_some henters
  obtain ⟨m', hs⟩ := exists_step client (m := m.run client j) (by simp [hf])
  obtain ⟨hf', hc', -⟩ := step_enters henters hs
  rw [← run_succ_of_step hs] at hf' hc'
  refine ⟨j, delay, lt_of_le_of_ne hj ?_, hf, hdue, hf', hc'⟩
  -- At that moment nobody asks the loop for a task.
  rintro rfl
  obtain ⟨-, htakes, -⟩ := leaves_eq_some hleaves
  rw [hf'] at htakes
  cases htakes

end Booked

/-! ### What is answered -/

variable {i : ℕ} {r : Reply K}

variable (client) in
/-- A request has been put before whatever is done about it. -/
theorem pos_of_request {r : Request K} {j : ℕ} (hf : m.focus = .request r)
    (hj : (m.run client j).focus ≠ .request r) : 0 < j :=
  Nat.pos_of_ne_zero fun h => hj (by rw [h, run, hf])

theorem idle_of_answered (hf : (m.run client i).focus = .request (.runUntilIdle l))
    (ha : Answered client (m.run client i) n (.ok r)) :
    (∃ j executed, i < j ∧ j < i + n ∧ r = .count executed ∧
        (m.run client j).focus = .pump l executed ∧
        (m.run client j).control = .sharing l :: (m.run client i).control ∧
        (m.run client j).returns l = executed) ∧
      ∀ s, (m.run client (i + n)).world.loop? l = some s → s.queue.size = 0 := by
  obtain ⟨j, executed, rfl, hc, hpump, hdue, rfl, hdue'⟩ := ha.idle hf
  have hj := pos_of_request client hf (j := j) (by simp [hpump])
  rw [← run_add] at hc hpump hdue hdue'
  constructor
  · refine ⟨i + j, executed, by omega, by omega, rfl, hpump, hc, ?_⟩
    simp [returns, hpump, hdue]
  · intro s hs
    rw [World.nextDue, hs] at hdue'
    have htasks := TimerQueue.tasks_of_nextDue hdue'
    simpa [TimerQueue.tasks, TimerQueue.size] using congrArg List.length htasks

theorem turned_of_answered (hf : (m.run client i).focus = .request (.turn l))
    (ha : Answered client (m.run client i) n (.ok r)) :
    (r = .flag true ∧ ∃ j, i < j ∧ j < i + n ∧
        (m.run client j).control = .affirming :: .sharing l :: (m.run client i).control ∧
        (m.run client j).returns l = 1) ∨
      r = .flag false ∧ (m.run client i).leaves l = none := by
  cases ha.turned hf with
  | idle hleaves => exact .inr ⟨rfl, hleaves⟩
  | @ran timer j r hleaves hj hc hanswer =>
    have hpos := pos_of_request client hf (j := j) (by simp [hanswer])
    rw [← run_add] at hc hanswer
    refine .inl ⟨rfl, i + j, by omega, by omega, hc, ?_⟩
    simp [returns, hanswer, hc, ran]

theorem asked_initial {w : World K M} {main : Script K M Ending} : (initial w main).Asked := by
  intro r hr
  cases hr

theorem Booked.turns (h : Booked client l m n) (hm : m.Asked) (hzero : m.credit l = 0)
    {s : EventLoop K} (hs : (m.run client n).world.loop? l = some s) :
    s.turns = ∑ i ∈ Finset.range n, (m.run client i).returns l + (m.run client n).credit l +
      ∑ i ∈ Finset.range n, (m.run client i).forgoes l := by
  have hcredit := run_credit client l hm n
  rw [← length_started, (h.balance hs).2] at hcredit
  omega

variable (client l) in
/-- In every session an event loop conserves its tasks. -/
theorem session_conserves (clock : Clock) (memory : M) (main : Script K M Ending) :
    Conserves client l (initial (World.initial clock memory) main) where
  balance hs := (booked client l rfl _).balance hs
  inspected {n s} hs hf := by
    have hbalance := ((booked client l rfl n).balance hs).1
    obtain ⟨m', hstep⟩ := exists_step client fun a ha => by
      rw [hf] at ha
      cases ha
    refine ⟨s.queue.size, s.turns, ?_, hbalance⟩
    rw [run_succ_of_step hstep]
    rw [step, hf] at hstep
    cases hstep
    simp [perform, hs]
  once n := by
    have hbooked := booked client l (m := initial (World.initial clock memory) main) rfl n
    refine ⟨List.Nodup.of_map Timer.sequence ?_, hbooked.among⟩
    rw [hbooked.numbers]
    exact List.nodup_range
  due {n timer} hleaves := by
    obtain ⟨-, -, -, -, hdue⟩ := leaves_eq_some hleaves
    exact ⟨(run_leaves hleaves).1, hdue, (booked client l rfl n).due hleaves⟩
  idle hf ha := idle_of_answered hf ha
  turned hf ha := turned_of_answered hf ha
  answers {n} h := by
    cases hs : ((initial (World.initial clock memory) main).run client n).step client with
    | none => exact absurd (returns_of_over hs) h
    | some m' =>
      rw [run_succ_of_step hs]
      exact answer_of_returns h hs
  turns hs := (booked client l rfl _).turns asked_initial rfl hs
  returned {n s} hs hpumped hforgoes := by
    rw [(booked client l rfl n).turns asked_initial rfl hs, credit_of_not_pumped hpumped,
      Finset.sum_eq_zero fun i hi => hforgoes i (Finset.mem_range.1 hi)]
    rfl

end Machine

end LazyEffects
