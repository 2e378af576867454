import LazyEffects.Proofs.Pumping
import LazyEffects.Proofs.Workers
import Mathlib.Data.Prod.Lex

/-!
# Waiting for a worker

The thread of a worker runs the tasks that are due before it looks into its channel, and the channel
keeps the order of what is sent. So a task gets its turn: as long as it is in the channel, the
thread comes closer to it with every message; then it is a timer, and once it is due, nothing that
comes later is ahead of it for good. Until it is due only so many tasks may be submitted, and this
is all that is asked of those who submit.

* `Worker.Rank`: how far a task of a worker is from its turn;
* `Job.answers_blockOnWorker`: whoever waits for a worker gets the answer that the job delivers.
-/

namespace LazyEffects

/-! ### How far a task is from its turn -/

namespace Worker

variable {τ : Type} {s s' : Worker τ} {t t' : τ} {due now now' : Instant} {slack slack' : ℕ}

/-- The task is among the timers. -/
def Timed (s : Worker τ) (t : τ) (due : Instant) : Prop :=
  ∃ timer ∈ s.timers.heap, timer.task = t ∧ timer.due = due

/-- The number of tasks in the channel. -/
def submits (s : Worker τ) : ℕ := (s.channel.filterMap Message.task?).length

/-- How far the task `t` is from its turn. In the channel it comes after the messages ahead of it
and the timers; as a timer that is not due, it may have to wait for all that is there and for
`slack` tasks more; and once it is due, for the other timers. -/
inductive Rank (s : Worker τ) (t : τ) (due now : Instant) (slack : ℕ) : ℕ ×ₗ ℕ → Prop
  | channel {ahead behind : List (Message τ)} :
    s.channel = ahead ++ .submit due t :: behind →
    Rank s t due now slack (toLex (ahead.length + 1, s.timers.tasks.length))
  | early : s.Timed t due → now < due →
    Rank s t due now slack (toLex (0, 2 * slack + 2 * s.submits + s.timers.tasks.length))
  | late : s.Timed t due → due ≤ now →
    Rank s t due now slack (toLex (0, s.timers.tasks.length))

/-- A timer has a rank, which is the greatest before it is due. -/
theorem Timed.rank (h : s.Timed t due) (now : Instant) (slack : ℕ) :
    ∃ b ≤ 2 * slack + 2 * s.submits + s.timers.tasks.length,
      s.Rank t due now slack (toLex (0, b)) := by
  by_cases hnow : now < due
  · exact ⟨_, le_rfl, .early h hnow⟩
  · exact ⟨_, Nat.le_add_left _ _, .late h (Int.not_lt.1 hnow)⟩

/-- A task of a worker has a rank. -/
theorem exists_rank (h : t ∈ s.tasks) :
    ∃ due, ∀ now slack, ∃ x, s.Rank t due now slack x := by
  rw [tasks, List.mem_append] at h
  rcases h with h | h
  · obtain ⟨timer, ht, rfl⟩ := List.mem_map.1 h
    have htimed : s.Timed timer.task timer.due := ⟨timer, Array.mem_toList_iff.1 ht, rfl, rfl⟩
    refine ⟨timer.due, fun now slack => ?_⟩
    obtain ⟨b, -, hrank⟩ := htimed.rank now slack
    exact ⟨_, hrank⟩
  · obtain ⟨message, hm, ht⟩ := List.mem_filterMap.1 h
    cases message with
    | shutdown => cases ht
    | submit due t' =>
      cases ht
      obtain ⟨ahead, behind, hc⟩ := List.append_of_mem hm
      exact ⟨due, fun now slack => ⟨_, .channel hc⟩⟩

/-- The rank of a task does not grow as time passes. -/
theorem Rank.same {x : ℕ ×ₗ ℕ} (h : s.Rank t due now slack x) (hnow : now ≤ now')
    (hslack : slack' ≤ slack) : ∃ x' ≤ x, s.Rank t due now' slack' x' := by
  cases h with
  | channel hc => exact ⟨_, le_rfl, .channel hc⟩
  | early ht hlt =>
    obtain ⟨b, hb, hrank⟩ := ht.rank now' slack'
    have hle : b ≤ 2 * slack + 2 * s.submits + s.timers.tasks.length := by omega
    exact ⟨_, Prod.Lex.toLex_mono (Prod.mk_le_mk_iff_right.2 hle), hrank⟩
  | late ht hle => exact ⟨_, le_rfl, .late ht (hle.trans hnow)⟩

/-- A message that is sent comes after all that are there. -/
theorem Rank.send {x : ℕ ×ₗ ℕ} (h : s.Rank t due now slack x) (message : Message τ)
    (hnow : now ≤ now')
    (hslack : now' < due → slack' + message.task?.toList.length ≤ slack) :
    ∃ x' ≤ x, (s.send message).Rank t due now' slack' x' := by
  cases h with
  | @channel ahead behind hc =>
    have hc' : (s.send message).channel = ahead ++ .submit due t :: (behind ++ [message]) := by
      simp [Worker.send, hc]
    exact ⟨_, le_rfl, .channel hc'⟩
  | early ht hlt =>
    have ht' : (s.send message).Timed t due := ht
    by_cases hnow' : now' < due
    · -- The task that is submitted has been counted among those that may yet be.
      have hs := hslack hnow'
      have hsubmits : (s.send message).submits = s.submits + message.task?.toList.length := by
        cases message <;> simp [submits, Worker.send, Message.task?]
      have hle : 2 * slack' + 2 * (s.send message).submits + s.timers.tasks.length ≤
          2 * slack + 2 * s.submits + s.timers.tasks.length := by omega
      exact ⟨_, Prod.Lex.toLex_mono (Prod.mk_le_mk_iff_right.2 hle), .early ht' hnow'⟩
    · have hle : s.timers.tasks.length ≤ 2 * slack + 2 * s.submits + s.timers.tasks.length :=
        Nat.le_add_left _ _
      exact ⟨_, Prod.Lex.toLex_mono (Prod.mk_le_mk_iff_right.2 hle),
        .late ht' (Int.not_lt.1 hnow')⟩
  | late ht hle => exact ⟨_, le_rfl, .late ht (hle.trans hnow)⟩

/-- A task comes closer to its turn as another one is taken. -/
theorem Rank.popDue {x : ℕ ×ₗ ℕ} (h : s.Rank t due now slack x)
    (hp : s.popDue now' = some (t', s')) (hne : t' ≠ t) (hnow : now ≤ now')
    (hslack : slack' ≤ slack) : ∃ x' < x, s'.Rank t due now' slack' x' := by
  obtain ⟨timers, hpop, rfl⟩ := popDue_eq_some hp
  have hlength := (TimerQueue.popDue_tasks hpop).length_eq
  rw [List.length_cons] at hlength
  have hlt : timers.tasks.length < s.timers.tasks.length := by omega
  have htimed (ht : s.Timed t due) :
      ({ s with timers, turns := s.turns + 1 } : Worker τ).Timed t due := by
    obtain ⟨timer, hmem, rfl, rfl⟩ := ht
    rcases TimerQueue.mem_heap_popDue hpop hmem with ht | hmem
    · exact absurd ht.symm hne
    · exact ⟨timer, hmem, rfl, rfl⟩
  cases h with
  | channel hc =>
    exact ⟨_, Prod.Lex.toLex_strictMono (Prod.mk_lt_mk_iff_right.2 hlt), .channel hc⟩
  | early ht hearly =>
    obtain ⟨b, hb, hrank⟩ := (htimed ht).rank now' slack'
    have hb : b ≤ 2 * slack' + 2 * s.submits + timers.tasks.length := hb
    have hlt' : b < 2 * slack + 2 * s.submits + s.timers.tasks.length := by omega
    exact ⟨_, Prod.Lex.toLex_strictMono (Prod.mk_lt_mk_iff_right.2 hlt'), hrank⟩
  | late ht hle =>
    exact ⟨_, Prod.Lex.toLex_strictMono (Prod.mk_lt_mk_iff_right.2 hlt),
      .late (htimed ht) (hle.trans hnow)⟩

/-- A task comes closer to its turn as a message is taken. -/
theorem Rank.receive {x : ℕ ×ₗ ℕ} (h : s.Rank t due now slack x)
    (hordered : TimerQueue.Ordered s.timers.heap) (hp : s.popDue now' = none)
    (hr : s.receive = some s') (hphase : s'.phase = .running) (hnow : now ≤ now')
    (hslack : slack' ≤ slack) : ∃ x' < x, s'.Rank t due now' slack' x' := by
  -- No timer is due, or it would have been taken.
  have hearly (ht : s.Timed t due) : now' < due := by
    obtain ⟨timer, hmem, -, rfl⟩ := ht
    by_contra hle
    exact hordered.popDue_ne_none hmem (Int.not_lt.1 hle) (popDue_eq_none hp)
  rcases receive_eq_some hr with ⟨due', task, channel, hc, rfl⟩ | ⟨channel, -, rfl⟩
  · have hlength := (TimerQueue.push_tasks s.timers due' task).length_eq
    rw [List.length_cons] at hlength
    cases h with
    | @channel ahead behind hc' =>
      rw [hc] at hc'
      cases ahead with
      | nil =>
        -- The message was the one with the task, which is a timer now.
        cases hc'
        have ht : ({ s with channel, timers := s.timers.push due t } : Worker τ).Timed t due :=
          ⟨_, TimerQueue.mem_heap_push_self _ _ _, rfl, rfl⟩
        obtain ⟨b, -, hrank⟩ := ht.rank now' slack'
        exact ⟨_, Prod.Lex.toLex_lt_toLex.2 (.inl (Nat.succ_pos _)), hrank⟩
      | cons message ahead =>
        cases hc'
        exact ⟨_, Prod.Lex.toLex_lt_toLex.2 (.inl (Nat.lt_succ_self _)), .channel rfl⟩
    | early ht hlt =>
      -- One submission less in the channel pays for one timer more.
      have ht' :
          ({ s with channel, timers := s.timers.push due' task } : Worker τ).Timed t due := by
        obtain ⟨timer, hmem, ht⟩ := ht
        exact ⟨timer, TimerQueue.mem_heap_push hmem _ _, ht⟩
      have hsubmits : s.submits = (channel.filterMap Message.task?).length + 1 := by
        simp [submits, hc, Message.task?]
      have hlt' : 2 * slack' + 2 * (channel.filterMap Message.task?).length +
          (s.timers.push due' task).tasks.length <
            2 * slack + 2 * s.submits + s.timers.tasks.length := by omega
      exact ⟨_, Prod.Lex.toLex_strictMono (Prod.mk_lt_mk_iff_right.2 hlt'),
        .early ht' (hearly ht)⟩
    | late ht hle => exact absurd (hle.trans hnow) (Int.not_le.2 (hearly ht))
  · cases hphase

end Worker

variable {K : Codes} {M A : Type}

namespace Machine

variable {client : Client K M} {w : World K M} {m m' : Machine K M}
  {control base : List (Activity K M)} {i : WorkerId} {c : CellId}

/-! ### The thread -/

/-- The next move of the thread of a worker that is at work, for one who waits for a cell in which
nothing has been left. -/
inductive Turns (client : Client K M) (w : World K M) (control : List (Activity K M))
    (i : WorkerId) (c : CellId) (s : Worker (Task K)) : Machine K M → Prop
  /-- It begins a task. -/
  | begins {w' : World K M} {s' : Worker (Task K)} {t : Task K} :
    s.popDue w'.clock.now = some (t, s') → w'.worker? i = some s' →
    Turns client w control i c s ⟨w', .working i (some c) :: control, .begin t⟩
  /-- It takes a message. -/
  | receives {w' : World K M} {s' : Worker (Task K)} :
    s.popDue w'.clock.now = none → s.receive = some s' → w'.worker? i = some s' →
    Turns client w control i c s ⟨w', control, .work i (some c)⟩
  /-- It is told to stop. -/
  | stops {m' : Machine K M} : control <:+ m'.control → ¬ m'.world.Serves (.worker i) →
    Turns client w control i c s m'
  /-- It waits until the next task is due. -/
  | waits {w' : World K M} {now due : Instant} :
    w.clock.now ≤ now → s.popDue now = none → s.timers.nextDue = some due →
    due ≤ w'.clock.now → w'.worker? i = some s →
    Turns client w control i c s ⟨w', control, .work i (some c)⟩
  /-- There is nothing to do. -/
  | idles {m' : Machine K M} : s.tasks = [] → Turns client w control i c s m'

variable (client control) in
theorem step_turns {s : Worker (Task K)} (hs : w.worker? i = some s) (hp : s.phase = .running)
    (hc : w.cell c = .vacant) : ∃ m', step client ⟨w, control, .work i (some c)⟩ = some m' ∧
      Turns client w control i c s m' := by
  refine ⟨_, rfl, ?_⟩
  have hfilter : (w.worker? i).filter (·.phase = .running) = some s := by simp [hs, hp]
  have hvacant : w.isFilled (some c) = false := by simp [World.isFilled, hc]
  have hset (s' : Worker (Task K)) : (w.readClock.2.setWorker i s').worker? i = some s' := by
    rw [World.worker?_setWorker (show w.readClock.2.worker? i = some s from hs), if_pos rfl]
  simp only [work, hfilter, hvacant, Bool.false_eq_true, if_false]
  split
  · rename_i t s' hpop
    exact .begins hpop (hset s')
  · rename_i hpop
    split
    · rename_i s' hr
      split
      · exact .receives hpop hr (hset s')
      · rename_i hphase
        refine .stops (List.suffix_cons _ _) ?_
        have hnot := World.not_serves_setWorker (w := w.readClock.2) hs s'.dropTimers.2 hphase
        simp only [call_world]
        split <;> exact hnot
    · rename_i hr
      split
      · rename_i due hdue
        exact .waits (World.passes_readClock w).clock.le hpop hdue (le_max_right _ _) hs
      · rename_i hdue
        refine .idles ?_
        rw [Worker.tasks, TimerQueue.tasks_of_nextDue hdue, Worker.receive_eq_none hr]
        rfl

/-! ### The turn of a run -/

variable {own : M → A} {J : Job client own} {run : Run K} {t : Trampoline K.signature}
  {due : Instant} {n k left B : ℕ} {x : ℕ ×ₗ ℕ}

variable (client i run t due B) in
/-- The task of a run that waits at a worker has the rank `x` after `n` moves, when at most `B`
tasks are submitted until it is due. -/
def Ranks (m : Machine K M) (n : ℕ) (x : ℕ ×ₗ ℕ) : Prop :=
  ∃ s, (m.run client n).world.worker? i = some s ∧ s.phase = .running ∧
    s.Rank (.resume ⟨run, t⟩) due (m.run client n).world.clock.now
      (B - deferrals client m (.worker i) n) x

variable (client i) in
/-- The timers of a worker at work are in order at all times. -/
def OrderedAt (m : Machine K M) : Prop :=
  ∀ n s, (m.run client n).world.worker? i = some s → s.phase = .running →
    TimerQueue.Ordered s.timers.heap

/-- The rank of a task does not grow, whatever is done, until the task is begun. -/
theorem Ranks.step (hserves : (m.run client (n + 1)).world.Serves (.worker i))
    (hB : (m.run client (n + 1)).world.clock.now < due →
      deferrals client m (.worker i) (n + 1) ≤ B)
    (hf : (m.run client (n + 1)).focus ≠ .begin (.resume ⟨run, t⟩))
    (ho : OrderedAt client i m) (h : Ranks client i run t due B m n x) :
    ∃ x' ≤ x, Ranks client i run t due B m (n + 1) x' := by
  obtain ⟨s, hs, hp, hrank⟩ := h
  obtain ⟨s', hs', hp'⟩ := hserves
  rw [deferrals_succ] at hB
  simp only [Ranks, deferrals_succ]
  rw [run_succ] at hs' hB hf ⊢
  cases hstep : (m.run client n).step client with
  | none =>
    simp only [Option.getD_none]
    obtain ⟨x', hx', hrank'⟩ := hrank.same (le_refl _) (Nat.sub_le_sub_left (Nat.le_add_right _
      ((m.run client n).defersTo (.worker i)).toNat) B)
    exact ⟨x', hx', s, hs, hp, hrank'⟩
  | some m' =>
    simp only [hstep, Option.getD_some] at hs' hB hf ⊢
    have hworks := step_works (i := i) hstep
    rcases hworks.worker hs' hp' with ⟨hnone, -⟩ | ⟨s₀, hs₀, -, hattends⟩
    · rw [hs] at hnone
      cases hnone
    · rw [hs] at hs₀
      cases hs₀
      have hslack : B - (deferrals client m (.worker i) n +
          ((m.run client n).defersTo (.worker i)).toNat) ≤
            B - deferrals client m (.worker i) n := by omega
      have hnear : ∃ x' ≤ x, s'.Rank (.resume ⟨run, t⟩) due m'.world.clock.now
          (B - (deferrals client m (.worker i) n +
            ((m.run client n).defersTo (.worker i)).toNat)) x' := by
        cases hattends with
        | same => exact hrank.same hworks.clock.le hslack
        | submitted hfocus hfits _ =>
          refine hrank.send _ hworks.clock.le fun hlt => ?_
          have hbound := hB hlt
          simp only [defersTo_iff.2 ⟨_, _, hfocus, hfits⟩, Bool.toNat_true, Message.task?,
            Option.toList_some, List.length_singleton] at hbound ⊢
          omega
        | told =>
          refine hrank.send _ hworks.clock.le fun _ => ?_
          simpa [Message.task?] using hslack
        | @popped t' _ hpop hfocus =>
          have hne : t' ≠ .resume ⟨run, t⟩ := fun heq => hf (by rw [hfocus, heq])
          obtain ⟨x', hlt, hrank'⟩ := hrank.popDue hpop hne hworks.clock.le hslack
          exact ⟨x', hlt.le, hrank'⟩
        | received hpop hreceive =>
          obtain ⟨x', hlt, hrank'⟩ :=
            hrank.receive (ho n s hs hp) hpop hreceive hp' hworks.clock.le hslack
          exact ⟨x', hlt.le, hrank'⟩
      obtain ⟨x', hle, hrank'⟩ := hnear
      exact ⟨x', hle, s', hs', hp', hrank'⟩

/-- A task that waits is not being begun. -/
theorem Waits.focus_ne (hrun : run.recipient = .cell c) (hm : m.Sole c)
    (h : Waits J run c m t left) : m.focus ≠ .begin (.resume ⟨run, t⟩) := by
  intro hf
  have hmem : .run run ∈ m.inHand := by
    rw [Machine.inHand, hf]
    exact List.mem_append_left _ (List.mem_singleton_self _)
  exact absurd (h.inHand hrun hm) (List.countP_pos_iff.2 ⟨_, hmem, leadsTo_run hrun⟩).ne'

/-- What someone who waits for a worker relies on. -/
structure Attended (client : Client K M) (J : Job client own) (run : Run K) (c : CellId)
    (i : WorkerId) (base : List (Activity K M)) (m : Machine K M) : Prop where
  undisturbed : Undisturbed client own run base m
  owns : J.Owns run
  recipient : run.recipient = .cell c
  host : run.host = .worker i
  ordered : OrderedAt client i m
  /-- Until a given time only so many tasks are submitted. -/
  submits (due : Instant) : ∃ B, ∀ n, Lasts client base m n →
    (m.run client n).world.clock.now < due → deferrals client m (.worker i) n ≤ B

variable (client J run c t left due B i) in
/-- After `n` moves the task of the run has the rank `x`, or it has been begun. -/
def Approaches (m : Machine K M) (n : ℕ) (x : ℕ ×ₗ ℕ) : Prop :=
  (Waits J run c (m.run client n) t left ∧ Ranks client i run t due B m n x) ∨
    Stands client J run c m n (left - 1)

theorem Attended.approaches_step (ha : Attended client J run c i base m)
    (hB : ∀ n, Lasts client base m n → (m.run client n).world.clock.now < due →
      deferrals client m (.worker i) n ≤ B)
    (h : Stands client J run c m n k) (hn : Lasts client base m (n + 1))
    (hx : Approaches client i c J run t due left B m n x) :
    ∃ x' ≤ x, Approaches client i c J run t due left B m (n + 1) x' := by
  have hserves := ha.undisturbed.serves hn
  have hnext := ha.undisturbed.stands ha.owns ha.recipient h hn
  rcases hx with ⟨hw, hr⟩ | hbegun
  · have hw' : Waits J run c (m.run client (n + 1)) t left ∨
        Stands client J run c m (n + 1) (left - 1) := by
      cases hs : (m.run client n).step client with
      | none =>
        rw [run_succ, hs]
        exact .inl hw
      | some m' =>
        have hsucc := run_succ_of_step hs
        rw [hsucc] at hserves ⊢
        rcases hw.step ha.recipient h.sole hs hserves
            (ha.undisturbed.spares (hn.of_le n.le_succ)) with
          hw' | ⟨hf, ht, hv⟩
        · exact .inl hw'
        · refine .inr ⟨hnext.sole, ?_⟩
          rw [hsucc]
          exact .begun hv (.inl hf) ht (by omega)
    rcases hw' with hw' | hbegun
    · have hf := hw'.focus_ne ha.recipient hnext.sole
      rw [ha.host] at hserves
      obtain ⟨x', hle, hr'⟩ := hr.step hserves (hB _ hn) hf ha.ordered
      exact ⟨x', hle, .inl ⟨hw', hr'⟩⟩
    · exact ⟨x, le_rfl, .inr hbegun⟩
  · exact ⟨x, le_rfl, .inr (ha.undisturbed.stands ha.owns ha.recipient hbegun hn)⟩

theorem Attended.approaches_run (ha : Attended client J run c i base m)
    (hB : ∀ n, Lasts client base m n → (m.run client n).world.clock.now < due →
      deferrals client m (.worker i) n ≤ B)
    (h : Stands client J run c m n k) {j : ℕ} (hn : Lasts client base m (n + j))
    (hx : Approaches client i c J run t due left B m n x) :
    ∃ x' ≤ x, Approaches client i c J run t due left B m (n + j) x' := by
  induction j with
  | zero => exact ⟨x, le_rfl, hx⟩
  | succ j ih =>
    have hlasts : Lasts client base m (n + j) := hn.of_le (Nat.le_succ _)
    obtain ⟨x', hle, hx'⟩ := ih hlasts
    obtain ⟨x'', hle', hx''⟩ := ha.approaches_step hB
      (ha.undisturbed.stands ha.owns ha.recipient h hlasts) hn hx'
    exact ⟨x'', hle'.trans hle, hx''⟩

variable (client base i c) in
/-- After `n` moves the thread is to make its next move for those who wait. -/
structure Turn (m : Machine K M) (n : ℕ) : Prop where
  lasts : Lasts client base m n
  control : (m.run client n).control = base
  focus : (m.run client n).focus = .work i (some c)

theorem Turn.of_step {w : World K M} (hn : Lasts client base m n)
    (hs : (m.run client n).step client = some ⟨w, base, .work i (some c)⟩) :
    Turn client base i c m (n + 1) where
  lasts := hn.step hs (List.suffix_refl _)
  control := by rw [run_succ_of_step hs]
  focus := by rw [run_succ_of_step hs]

/-- A task that has been begun is over some time, and it is the thread's turn again. -/
theorem Attended.turn_again (ha : Attended client J run c i base m)
    (h : Stands client J run c m n k) (hn : Lasts client base m n) {t' : Task K}
    (hc : (m.run client n).control = .working i (some c) :: base)
    (hf : (m.run client n).focus = .begin t') : ∃ j, Turn client base i c m (n + j) := by
  obtain ⟨m', r, ⟨j, rfl, hlasts⟩, hc', hf'⟩ :=
    ha.undisturbed.begun ha.owns ha.recipient hn h _ _ hc hf
  rw [← run_add] at hc' hf'
  have hstep : (m.run client (n + j)).step client =
      some ⟨(m.run client (n + j)).world, base, .work i (some c)⟩ := by
    rw [step, hf', hc']
    rfl
  exact ⟨j + 1, .of_step (hn.add (hlasts.mono (List.suffix_cons _ _))) hstep⟩

variable (client base i c J run t due left B) in
/-- It will be the thread's turn again, and by then the task has come closer to its turn or has been
begun. -/
def Advances (m : Machine K M) (n : ℕ) (x : ℕ ×ₗ ℕ) : Prop :=
  ∃ j, Turn client base i c m (n + j) ∧
    ((∃ x' < x, Waits J run c (m.run client (n + j)) t left ∧
      Ranks client i run t due B m (n + j) x') ∨ Stands client J run c m (n + j) (left - 1))

/-- The thread has taken a task. -/
theorem Attended.advances_of_begins (ha : Attended client J run c i base m)
    (hB : ∀ n, Lasts client base m n → (m.run client n).world.clock.now < due →
      deferrals client m (.worker i) n ≤ B)
    (h : Stands client J run c m n k) (hn : Lasts client base m n)
    (hw : Waits J run c (m.run client n) t left) (hr : Ranks client i run t due B m n x)
    {w' : World K M} {s s' : Worker (Task K)} {t' : Task K}
    (hs : (m.run client n).world.worker? i = some s)
    (hstep : (m.run client n).step client =
      some ⟨w', .working i (some c) :: base, .begin t'⟩)
    (hpop : s.popDue w'.clock.now = some (t', s')) (hs' : w'.worker? i = some s') :
    Advances client base i c J run t due left B m n x := by
  have hsucc := run_succ_of_step hstep
  have hn₁ := hn.step hstep (List.suffix_cons _ _)
  have h₁ := ha.undisturbed.stands ha.owns ha.recipient h hn₁
  obtain ⟨j, hturn⟩ := ha.turn_again h₁ hn₁ (by rw [hsucc]) (by rw [hsucc])
  have hj : n + 1 + j = n + (j + 1) := by omega
  obtain ⟨-, -, ⟨hw₁, -⟩ | hbegun⟩ := ha.approaches_step hB h hn₁ (.inl ⟨hw, hr⟩)
  · obtain ⟨x₁, hlt, hr₁⟩ : ∃ x₁ < x, Ranks client i run t due B m (n + 1) x₁ := by
      obtain ⟨s₀, hs₀, hp, hrank⟩ := hr
      rw [hs] at hs₀
      cases hs₀
      -- The task that has been begun is another one: that of the run still waits.
      have hne : t' ≠ .resume ⟨run, t⟩ := by
        rintro rfl
        exact hw₁.focus_ne ha.recipient h₁.sole (by rw [hsucc])
      have hclock : (m.run client n).world.clock.now ≤ w'.clock.now :=
        (step_works (i := i) hstep).clock.le
      obtain ⟨x₁, hlt, hrank₁⟩ := hrank.popDue hpop hne hclock
        (Nat.sub_le_sub_left (deferrals_mono client (.worker i) m n.le_succ) B)
      obtain ⟨s₁, hs₁, hp₁⟩ := ha.host ▸ ha.undisturbed.serves hn₁
      refine ⟨x₁, hlt, s₁, hs₁, hp₁, ?_⟩
      rw [hsucc] at hs₁ ⊢
      rw [hs'] at hs₁
      cases hs₁
      exact hrank₁
    obtain ⟨x', hle, ⟨hw', hr'⟩ | hbegun⟩ := ha.approaches_run hB h₁ hturn.lasts (.inl ⟨hw₁, hr₁⟩)
    · rw [hj] at hturn hw' hr'
      exact ⟨j + 1, hturn, .inl ⟨x', hle.trans_lt hlt, hw', hr'⟩⟩
    · rw [hj] at hturn hbegun
      exact ⟨j + 1, hturn, .inr hbegun⟩
  · have hbegun' := ha.undisturbed.stands ha.owns ha.recipient hbegun hturn.lasts
    rw [hj] at hturn hbegun'
    exact ⟨j + 1, hturn, .inr hbegun'⟩

theorem Turn.eq (ht : Turn client base i c m n) :
    m.run client n = ⟨(m.run client n).world, base, .work i (some c)⟩ := by
  rw [← ht.control, ← ht.focus]

/-- A worker on which someone relies is not told to stop. -/
theorem Attended.not_stops (ha : Attended client J run c i base m)
    (hn : Lasts client base m n) (hs : (m.run client n).step client = some m')
    (hsuffix : base <:+ m'.control) : m'.world.Serves (.worker i) := by
  have hserves := ha.undisturbed.serves (hn.step hs hsuffix)
  rwa [run_succ_of_step hs, ha.host] at hserves

/-- The thread takes a task if one is due. -/
theorem Attended.advances_of_due (ha : Attended client J run c i base m)
    (hB : ∀ n, Lasts client base m n → (m.run client n).world.clock.now < due →
      deferrals client m (.worker i) n ≤ B)
    (h : Stands client J run c m n k) (ht : Turn client base i c m n)
    (hw : Waits J run c (m.run client n) t left) (hr : Ranks client i run t due B m n x)
    {s : Worker (Task K)} {due' : Instant} (hs : (m.run client n).world.worker? i = some s)
    (hp : s.phase = .running) (hdue : s.timers.nextDue = some due')
    (hle : due' ≤ (m.run client n).world.clock.now) :
    Advances client base i c J run t due left B m n x := by
  have hpops {now : Instant} (hnow : (m.run client n).world.clock.now ≤ now) :
      s.popDue now ≠ none := by
    obtain ⟨y, hy⟩ := TimerQueue.popDue_of_nextDue hdue (Int.le_trans hle hnow)
    simp [Worker.popDue, hy]
  obtain ⟨m', hstep, hturns⟩ :=
    step_turns client base hs hp hw.vacant
  rw [← ht.eq] at hstep
  cases hturns with
  | begins hpop hs' => exact ha.advances_of_begins hB h ht.lasts hw hr hs hstep hpop hs'
  | receives hpop _ _ => exact absurd hpop (hpops (step_works (i := i) hstep).clock.le)
  | stops hsuffix hnot => exact absurd (ha.not_stops ht.lasts hstep hsuffix) hnot
  | waits hnow hpop => exact absurd hpop (hpops hnow)
  | idles htasks =>
    have hmem := hw.waiting
    rw [ha.host, World.contents_worker hs, htasks] at hmem
    cases hmem

/-- Whatever the thread does, the task comes closer to its turn. -/
theorem Attended.advances (ha : Attended client J run c i base m)
    (hB : ∀ n, Lasts client base m n → (m.run client n).world.clock.now < due →
      deferrals client m (.worker i) n ≤ B)
    (h : Stands client J run c m n k) (ht : Turn client base i c m n)
    (hw : Waits J run c (m.run client n) t left) (hr : Ranks client i run t due B m n x) :
    Advances client base i c J run t due left B m n x := by
  have hn := ht.lasts
  have hmem := hw.waiting
  obtain ⟨s, hs, hp, hrank⟩ := id hr
  rw [ha.host, World.contents_worker hs] at hmem
  obtain ⟨m', hstep, hturns⟩ :=
    step_turns client base hs hp hw.vacant
  rw [← ht.eq] at hstep
  have hclock : (m.run client n).world.clock.now ≤ m'.world.clock.now :=
    (step_works (i := i) hstep).clock.le
  have hsucc := run_succ_of_step hstep
  cases hturns with
  | begins hpop hs' => exact ha.advances_of_begins hB h hn hw hr hs hstep hpop hs'
  | @receives w' s' hpop hreceive hs' =>
    have hturn := Turn.of_step hn hstep
    obtain ⟨-, -, ⟨hw₁, -⟩ | hbegun⟩ := ha.approaches_step hB h hturn.lasts (.inl ⟨hw, hr⟩)
    · obtain ⟨s₁, hs₁, hp₁⟩ := ha.host ▸ ha.undisturbed.serves hturn.lasts
      have hs₂ := hs₁
      rw [hsucc, hs'] at hs₂
      cases hs₂
      obtain ⟨x₁, hlt, hrank₁⟩ := hrank.receive (ha.ordered n s hs hp) hpop hreceive hp₁ hclock
        (Nat.sub_le_sub_left (deferrals_mono client (.worker i) m n.le_succ) B)
      refine ⟨1, hturn, .inl ⟨x₁, hlt, hw₁, s', hs₁, hp₁, ?_⟩⟩
      rw [hsucc]
      exact hrank₁
    · exact ⟨1, hturn, .inr hbegun⟩
  | stops hsuffix hnot => exact absurd (ha.not_stops hn hstep hsuffix) hnot
  | @waits w' now due' hnow hpop hdue hle hs' =>
    have hturn := Turn.of_step hn hstep
    obtain ⟨x₁, hx₁, ⟨hw₁, hr₁⟩ | hbegun⟩ :=
      ha.approaches_step hB h hturn.lasts (.inl ⟨hw, hr⟩)
    · have h₁ := ha.undisturbed.stands ha.owns ha.recipient h hturn.lasts
      obtain ⟨j, hturn', hnext⟩ := ha.advances_of_due hB h₁ hturn hw₁ hr₁ (s := s)
        (by rw [hsucc]; exact hs') hp hdue (by rw [hsucc]; exact hle)
      have hj : n + 1 + j = n + (j + 1) := by omega
      rw [hj] at hturn' hnext
      refine ⟨j + 1, hturn', hnext.imp_left ?_⟩
      rintro ⟨x', hlt, hrest⟩
      exact ⟨x', hlt.trans_le hx₁, hrest⟩
    · exact ⟨1, hturn, .inr hbegun⟩
  | idles htasks =>
    rw [htasks] at hmem
    cases hmem

/-- The task of a run that waits at a worker is begun some time. -/
theorem Attended.gets_begun (ha : Attended client J run c i base m)
    (hB : ∀ n, Lasts client base m n → (m.run client n).world.clock.now < due →
      deferrals client m (.worker i) n ≤ B)
    (h : Stands client J run c m n k) (ht : Turn client base i c m n)
    (hw : Waits J run c (m.run client n) t left) (hr : Ranks client i run t due B m n x) :
    ∃ j, Turn client base i c m (n + j) ∧ Stands client J run c m (n + j) (left - 1) := by
  induction x using WellFoundedLT.induction generalizing n with
  | _ x ih =>
    -- The rank goes down from turn to turn, and ranks are well-founded.
    obtain ⟨j, ht', ⟨x', hlt, hw', hr'⟩ | hbegun⟩ := ha.advances hB h ht hw hr
    · have h' := ha.undisturbed.stands ha.owns ha.recipient h ht'.lasts
      obtain ⟨j', ht'', hbegun⟩ := ih x' hlt h' ht' hw' hr'
      rw [Nat.add_assoc] at ht'' hbegun
      exact ⟨j + j', ht'', hbegun⟩
    · exact ⟨j, ht', hbegun⟩

/-- Whoever waits for a worker comes to the moment at which the outcome is there. -/
theorem Attended.gets_settled (ha : Attended client J run c i base m)
    (h : Stands client J run c m n k) (ht : Turn client base i c m n) :
    ∃ n', Turn client base i c m n' ∧ (m.run client n').world.cell c = .settled J.result ∧
      own (m.run client n').world.memory = J.final ∧
        ∃ j < n', J.Ends [.run run] (m.run client j) := by
  -- On the nodes left: each task of the run that is begun is a slice, which visits some.
  induction k using Nat.strong_induction_on generalizing n with
  | _ k ih =>
    cases h.stage with
    | @waits t left hw hl =>
      obtain ⟨s, hs, hp⟩ := ha.host ▸ ha.undisturbed.serves ht.lasts
      have hmem := hw.waiting
      rw [ha.host, World.contents_worker hs] at hmem
      obtain ⟨due, hrank⟩ := Worker.exists_rank hmem
      obtain ⟨B, hB⟩ := ha.submits due
      obtain ⟨x, hx⟩ := hrank (m.run client n).world.clock.now
        (B - deferrals client m (.worker i) n)
      obtain ⟨j, ht', h'⟩ := ha.gets_begun hB h ht hw ⟨s, hs, hp, hx⟩
      have hpos := hw.tracks.pos
      exact ih (left - 1) (by omega) h' ht'
    | settled hcell hown _ hends => exact ⟨n, ht, hcell, hown, hends⟩
    | begun _ hf =>
      rw [ht.focus] at hf
      simp at hf
    | slice _ hf | handed _ hf | reports _ hf =>
      rw [ht.focus] at hf
      cases hf

variable (client control i) in
/-- What is in the cell is answered. -/
theorem gets_filled {result : RunResult K} (hcell : w.cell c = .settled result) :
    Gets client control ⟨w, .reporting c :: control, .work i (some c)⟩
      ⟨w, control, .answer (.ok (.settled result))⟩ := by
  have hsuffix : control <:+ .reporting c :: control := List.suffix_cons _ _
  have hfilled : w.isFilled (some c) = true := by simp [World.isFilled, hcell]
  have hwork : step client ⟨w, .reporting c :: control, .work i (some c)⟩ =
      some ⟨w, .reporting c :: control, .answer (.ok .done)⟩ := by
    simp only [step, work, hfilled, if_true]
    split <;> rfl
  have hreport : step client ⟨w, .reporting c :: control, .answer (.ok .done)⟩ =
      some ⟨w, control, .answer (.ok (.settled result))⟩ := by
    simp only [step, returnTo, hcell]
    rfl
  exact .head hwork hsuffix (.step hreport hsuffix (List.suffix_refl _))

/-! ### Submissions and time -/

/-- The clock is read for each task that is submitted to a worker. -/
theorem step_reads (hf : m.defersTo (.worker i) = true) (hs : m.step client = some m') :
    m'.world.clock.readings = m.world.clock.readings + 1 := by
  obtain ⟨w, control, focus⟩ := m
  obtain ⟨delay, t, rfl, ho⟩ := defersTo_iff.1 hf
  rw [step_of_not_overflows ho] at hs
  cases hs
  simp only [handOver]
  split <;> rfl

variable (client i) in
theorem deferrals_le_readings (m : Machine K M) (n : ℕ) :
    m.world.clock.readings + deferrals client m (.worker i) n ≤
      (m.run client n).world.clock.readings := by
  induction n with
  | zero => exact le_rfl
  | succ n ih =>
    rw [deferrals_succ, run_succ]
    cases hs : (m.run client n).step client with
    | none =>
      obtain ⟨-, a, hf⟩ := step_eq_none hs
      simpa [defersTo, hf] using ih
    | some m' =>
      rw [Option.getD_some]
      by_cases hf : (m.run client n).defersTo (.worker i)
      · rw [step_reads hf hs, hf, Bool.toNat_true]
        omega
      · have hle := (step_works (i := i) hs).clock.readings
        simp only [hf, Bool.toNat_false]
        omega

/-- If the clock goes on, only finitely many tasks are submitted to a worker before a given time. -/
theorem submits_of_goesOn (h : m.world.clock.GoesOn) (due : Instant) :
    ∃ B, ∀ n, (m.run client n).world.clock.now < due → deferrals client m (.worker i) n ≤ B := by
  obtain ⟨r, hr⟩ := h ((due - m.world.clock.now).toNat +
    ∑ j ∈ Finset.range m.world.clock.readings, m.world.clock.drift j)
  -- Each submission reads the clock, and after `r` readings the time would have come.
  refine ⟨r, fun n hlt => ?_⟩
  by_contra hgt
  have hreadings := deferrals_le_readings client i m n
  have hbefore := run_before client m n
  have hsum := Finset.sum_range_add_sum_Ico m.world.clock.drift hbefore.readings
  have hmono : ∑ j ∈ Finset.range r, m.world.clock.drift j ≤
      ∑ j ∈ Finset.range (m.run client n).world.clock.readings, m.world.clock.drift j :=
    Finset.sum_le_sum_of_subset (Finset.range_mono (by omega))
  have hpassed : (due - m.world.clock.now).toNat ≤ ∑ j ∈
      Finset.Ico m.world.clock.readings (m.run client n).world.clock.readings,
        m.world.clock.drift j := by omega
  have hdue : due - m.world.clock.now ≤ (due - m.world.clock.now).toNat := Int.self_le_toNat _
  have hnow := hbefore.now
  have hcast : ((due - m.world.clock.now).toNat : ℤ) ≤ (∑ j ∈
      Finset.Ico m.world.clock.readings (m.run client n).world.clock.readings,
        m.world.clock.drift j : ℕ) := Int.ofNat_le.2 hpassed
  linarith

end Machine

/-- Someone runs a job on a worker and waits for it. As long as this takes, the worker is at work,
the others leave the run alone, and until a given time only so many tasks are submitted to the
worker. So it is if the clock goes on (`Machine.submits_of_goesOn`). -/
structure Job.OnWorker {client : Client K M} {own : M → A} (J : Job client own) (i : WorkerId)
    (m : Machine K M) : Prop where
  requested : J.Requested (.blockOnWorker i J.config J.program) m
  undisturbed : Machine.Undisturbed client own (J.awaited m.world (.worker i))
    (.reporting ⟨m.world.cells.size⟩ :: m.control) (m.run client 1)
  submits (due : Instant) : ∃ B, ∀ n, Machine.Lasts client
    (.reporting ⟨m.world.cells.size⟩ :: m.control) (m.run client 1) n →
      ((m.run client 1).run client n).world.clock.now < due →
        Machine.deferrals client (m.run client 1) (.worker i) n ≤ B

/-- Whoever runs a job on a worker and waits gets the answer that the job delivers. -/
theorem Job.answers_blockOnWorker {client : Client K M} {own : M → A} {J : Job client own}
    {i : WorkerId} {m : Machine K M} (h : J.OnWorker i m) :
    J.Answers [.run (J.awaited m.world (.worker i))] m.control m := by
  obtain ⟨hrequested, hu, hsubmits⟩ := h
  have hkeeps : m.world.Keeps client
      (Machine.noteBudget client J.config m.world.openCell.2) :=
    (World.keeps_openCell _).trans (Machine.keeps_noteBudget client J.config _)
  have hi : m.issued = [.run (J.awaited m.world (.worker i))] := by
    rw [Machine.issued, hrequested.focus]
    rfl
  have hs : m.step client = some (m.launch client
      [.thenWork i (some ⟨m.world.cells.size⟩), .reporting ⟨m.world.cells.size⟩]
      (Machine.noteBudget client J.config m.world.openCell.2) (.worker i)
      J.config.progressing (.cell ⟨m.world.cells.size⟩) J.program) := by
    rw [Machine.step, hrequested.focus]
    rfl
  obtain ⟨hstart, hstands, n, w, hn, hslice⟩ := Machine.launched hrequested hi hs hkeeps hu
  have hordered : Machine.OrderedAt client i (m.run client 1) := by
    intro n s hs hp
    obtain ⟨clock, memory, main, k, rfl⟩ := hrequested.session
    rw [← Machine.run_add, ← Machine.run_add] at hs
    exact Machine.run_ordered rfl _ hs hp
  have ha : Machine.Attended client J (J.awaited m.world (.worker i)) ⟨m.world.cells.size⟩ i
      (.reporting ⟨m.world.cells.size⟩ :: m.control) (m.run client 1) :=
    ⟨hu, ⟨rfl, rfl⟩, rfl, rfl, hordered, hsubmits⟩
  -- After the first slice it is the turn of the thread.
  have hstep : ((m.run client 1).run client n).step client =
      some ⟨w, .reporting ⟨m.world.cells.size⟩ :: m.control,
        .work i (some ⟨m.world.cells.size⟩)⟩ := by
    rw [hslice]
    rfl
  have hturn := Machine.Turn.of_step hn hstep
  obtain ⟨n', hturn', hcell, hown, hends⟩ := ha.gets_settled (hstands _ hturn.lasts) hturn
  have hg := Machine.gets_filled client m.control i hcell
  rw [← hturn'.eq] at hg
  exact .of_gets hstart (hturn'.lasts.answers (List.suffix_cons _ _) hends hg hown)

end LazyEffects
