import LazyEffects.Proofs.Deferring
import LazyEffects.Proofs.Rounds

/-!
# Pumping turn by turn

Instead of having an event loop run until it is idle, someone may make turns of it, one after the
other, and wait until the next task is due whenever a turn has run none. As long as the loop has an
owner besides those who pump it, this makes no difference: the same tasks are started, in the same
turns, and what is left at the end is the same.

* `Machine.byTurns`: turns, one after the other;
* `Machine.executions`: the tasks that are started, with the numbers of their turns;
* `Machine.Abreast`: how far the one is when the other is so far.
-/

namespace LazyEffects

variable {K : Codes} {M : Type}

namespace World

variable {w w' : World K M} {l : LoopId} {s : EventLoop K}

/-- One who holds the event loop is not its only owner, or the loop is gone. -/
def Kept (w : World K M) (l : LoopId) : Prop := w.owners l ≠ some 1

theorem Kept.owners_ne (h : w.Kept l) (hs : w.loop? l = some s) : s.owners ≠ 1 := by
  rw [Kept, owners, hs] at h
  exact fun heq => h (congrArg some heq)

theorem setLoop_setLoop (w : World K M) (l : LoopId) (s s' : EventLoop K) :
    (w.setLoop l s).setLoop l s' = w.setLoop l s' := by
  simp [setLoop]

theorem setLoop_self (h : w.loop? l = some s) : w.setLoop l s = w := by
  obtain ⟨hs, -⟩ := loop?_eq_some h
  obtain ⟨hi, hs⟩ := Array.getElem?_eq_some_iff.1 hs
  rw [setLoop, ← hs]
  simp [Array.setIfInBounds, hi]

theorem kept_share (w : World K M) (l : LoopId) : (w.share l).Kept l := by
  rw [Kept, owners, share]
  split
  · rename_i s hs
    have hpos := (loop?_eq_some hs).2
    rw [loop?_setLoop hs, if_pos rfl, if_pos (Nat.succ_pos _), Option.map_some, ne_eq,
      Option.some.injEq]
    simp only
    omega
  · rename_i hnone
    simp [hnone]

theorem release_of_kept (h : w.Kept l) : w.release l =
    ([], (w.loop? l).elim w fun s => w.setLoop l { s with owners := s.owners - 1 }) := by
  rw [release]
  split
  · rename_i s hs
    rw [if_neg (h.owners_ne hs), hs]
    rfl
  · rename_i hnone
    rw [hnone]
    rfl

/-- The last owner leaves no event loop behind. -/
theorem loop?_release_last (h : ¬ w.Kept l) : (w.release l).2.loop? l = none := by
  rw [Kept, not_not, owners, Option.map_eq_some_iff] at h
  obtain ⟨s, hs, howners⟩ := h
  simp only [release, hs, if_pos howners]
  rw [loop?_setLoop hs, if_pos rfl, if_neg (by simp)]

theorem kept_of_release (h : (w.release l).2.loop? l ≠ none) : w.Kept l := by
  by_contra hlast
  exact h (loop?_release_last hlast)

/-- An owner who goes and comes back leaves no trace. -/
theorem share_release (h : w.Kept l) : (w.release l).2.share l = w := by
  rw [release_of_kept h]
  cases hs : w.loop? l with
  | none => simp [share, hs]
  | some s =>
    have hpos := (loop?_eq_some hs).2
    have hne := h.owners_ne hs
    have hs' : (w.setLoop l { s with owners := s.owners - 1 }).loop? l =
        some { s with owners := s.owners - 1 } := by
      rw [loop?_setLoop hs, if_pos rfl, if_pos (by simp only; omega)]
    have howners : s.owners - 1 + 1 = s.owners := by omega
    rw [Option.elim_some, share, hs']
    simp only [howners, setLoop_setLoop]
    exact setLoop_self hs

theorem release_share (w : World K M) (l : LoopId) : ((w.share l).release l).2 = w := by
  rw [release_of_kept (kept_share w l), share]
  cases hs : w.loop? l with
  | none => simp [hs]
  | some s =>
    simp only
    rw [loop?_setLoop hs, if_pos rfl, if_pos (Nat.succ_pos _), Option.elim_some, setLoop_setLoop]
    exact setLoop_self hs

theorem loop?_release (h : w.Kept l) : (w.release l).2.loop? l =
    (w.loop? l).map fun s => { s with owners := s.owners - 1 } := by
  rw [release_of_kept h]
  cases hs : w.loop? l with
  | none => simpa using hs
  | some s =>
    have hpos := (loop?_eq_some hs).2
    have hne := h.owners_ne hs
    rw [Option.elim_some, loop?_setLoop hs, if_pos rfl, if_pos (by simp only; omega)]
    rfl

theorem nextDue_release (h : w.Kept l) : (w.release l).2.nextDue l = w.nextDue l := by
  rw [nextDue, nextDue, loop?_release h]
  cases w.loop? l <;> rfl

theorem release_clock (w : World K M) (l : LoopId) : (w.release l).2.clock = w.clock := by
  rw [release]
  split
  · split <;> rfl
  · rfl

theorem release_sleepUntil (w : World K M) (l : LoopId) (due : Instant) :
    ((w.sleepUntil due).release l).2 = (w.release l).2.sleepUntil due := by
  have hs : (w.sleepUntil due).loop? l = w.loop? l := rfl
  rw [release, release, hs]
  split
  · split <;> rfl
  · rfl

end World

namespace Machine

variable {client : Client K M} {l : LoopId} {m m' p p' t t' : Machine K M} {i n executed : ℕ}
  {base : List (Activity K M)} {w w' : World K M}

/-! ### Turns one after the other -/

variable (client l) in
/-- The next move of someone who makes turns of an event loop until it is idle. When a turn is over
that has run a task, they ask for the next one, and when it has run none, they first wait until the
next task is due. -/
def turnOn (m : Machine K M) : Option (Machine K M) :=
  match m.step client with
  | some m' => some m'
  | none =>
    match m.focus, m.world.nextDue l with
    | .answer (.ok (.flag true)), _ => some (m.go m.world (.request (.turn l)))
    | .answer (.ok (.flag false)), some due =>
      some (m.go (m.world.sleepUntil due) (.request (.turn l)))
    | _, _ => none

variable (client l) in
/-- The session after at most `n` moves of someone who makes turns of an event loop. -/
def byTurns (n : ℕ) (m : Machine K M) : Machine K M :=
  (fun m => (m.turnOn client l).getD m)^[n] m

theorem byTurns_add (m : Machine K M) (n i : ℕ) :
    m.byTurns client l (n + i) = (m.byTurns client l n).byTurns client l i := by
  rw [byTurns, Nat.add_comm, Function.iterate_add_apply]
  rfl

theorem byTurns_succ (m : Machine K M) (n : ℕ) : m.byTurns client l (n + 1) =
    ((m.byTurns client l n).turnOn client l).getD (m.byTurns client l n) := by
  rw [byTurns, Function.iterate_succ_apply']
  rfl

theorem turnOn_of_step (hs : m.step client = some m') : m.turnOn client l = some m' := by
  rw [turnOn, hs]

/-- When it is over, it stays so. -/
theorem byTurns_eq_of_le {N n : ℕ} (h : (m.byTurns client l N).turnOn client l = none)
    (hn : N ≤ n) : m.byTurns client l n = m.byTurns client l N := by
  induction n, hn using Nat.le_induction with
  | base => rfl
  | succ n _ ih => rw [byTurns_succ, ih, h, Option.getD_none]

/-! ### What is executed -/

/-- The timer whose task the next move starts, with the number of the turn. -/
def execution (l : LoopId) (m : Machine K M) : Option (ℕ × Timer (Task K)) :=
  (m.world.loop? l).bind fun s => (m.leaves l).map fun timer => (s.turns + 1, timer)

/-- The timers whose tasks are started in the first `n` moves, in order, with the numbers of their
turns. -/
def executions (l : LoopId) (states : ℕ → Machine K M) (n : ℕ) : List (ℕ × Timer (Task K)) :=
  (List.range n).flatMap fun i => ((states i).execution l).toList

theorem executions_succ (states : ℕ → Machine K M) (n : ℕ) :
    executions l states (n + 1) = executions l states n ++ ((states n).execution l).toList := by
  simp [executions, List.range_succ]

theorem executions_add (states : ℕ → Machine K M) (n i : ℕ) : executions l states (n + i) =
    executions l states n ++ executions l (fun j => states (n + j)) i := by
  induction i with
  | zero => simp [executions]
  | succ i ih => rw [← Nat.add_assoc, executions_succ, executions_succ, ih, List.append_assoc]

/-- What has been executed stays so. -/
theorem getElem?_executions {states : ℕ → Machine K M} {n' k : ℕ} {x : ℕ × Timer (Task K)}
    (hn : n ≤ n') (hx : (executions l states n)[k]? = some x) :
    (executions l states n')[k]? = some x := by
  obtain ⟨i, rfl⟩ := Nat.exists_eq_add_of_le hn
  rw [executions_add, List.getElem?_append_left (List.getElem?_eq_some_iff.1 hx).1, hx]

theorem execution_of_takesFrom (h : m.focus.takesFrom l = false) : m.execution l = none := by
  rw [execution, leaves_eq_none h]
  cases m.world.loop? l <;> rfl

theorem executions_eq_nil {states : ℕ → Machine K M}
    (h : ∀ j < n, (states j).focus.takesFrom l = false) : executions l states n = [] := by
  induction n with
  | zero => rfl
  | succ n ih =>
    rw [executions_succ, ih fun j hj => h j (Nat.lt_succ_of_lt hj),
      execution_of_takesFrom (h n (Nat.lt_succ_self n))]
    rfl

/-! ### Activities further down -/

/-- The same, with further activities that wait below the others. -/
def under (m : Machine K M) (rest : List (Activity K M)) : Machine K M :=
  { m with control := m.control ++ rest }

theorem work_under (m : Machine K M) (rest : List (Activity K M)) (i : WorkerId)
    (wanted : Option CellId) :
    (m.under rest).work client i wanted = (m.work client i wanted).under rest := by
  have hworld : (m.under rest).world = m.world := rfl
  simp only [work, hworld]
  cases (m.world.worker? i).filter (·.phase = .running) with
  | none => rfl
  | some s =>
    by_cases hfilled : m.world.isFilled wanted
    · simp only [if_pos hfilled]
      rfl
    · simp only [if_neg hfilled]
      cases s.popDue m.world.readClock.1 with
      | some popped => rfl
      | none =>
        cases s.receive with
        | some s' =>
          by_cases hphase : s'.phase = .running
          · simp only [if_pos hphase]
            rfl
          · simp only [if_neg hphase]
            rfl
        | none => cases s.timers.nextDue <;> rfl

/-- Those who wait further down have no part in what is done. -/
theorem step_under (rest : List (Activity K M)) (hs : m.step client = some m') :
    (m.under rest).step client = some (m'.under rest) := by
  induction hs using step_induction with
  | finish w control role x =>
    cases role with
    | body => cases x <;> rfl
    | slice f =>
      obtain ⟨a, t⟩ := x
      cases a <;> rfl
    | bare => rfl
    | poll f =>
      obtain ⟨a, t⟩ := x
      cases a <;> rfl
  | request w control r =>
    simp only [under, step]
    cases r <;> simp only [perform] <;> (try split) <;> rfl
  | returned w control activity r =>
    simp only [under, step, List.cons_append]
    cases activity with
    | driving => cases r <;> rfl
    | stopping i wanted =>
      simp only [returnTo]
      split <;> rfl
    | _ => rfl
  | panicked w control activity p =>
    simp only [under, step, List.cons_append]
    cases activity <;> rfl
  | begin w control t => cases t <;> rfl
  | complete w control run v stats =>
    simp only [under, step, complete]
    split <;> rfl
  | report w control run e =>
    simp only [under, step, report]
    split <;> rfl
  | overflow w control host delay t ho => exact step_of_overflows ho
  | handOver w control host delay t ho =>
    refine (step_of_not_overflows ho).trans ?_
    cases host <;> simp only [handOver] <;> (try split) <;> rfl
  | drop w control ts =>
    simp only [under, step, drop]
    split <;> rfl
  | pump w control l executed =>
    simp only [under, step, pump]
    split
    · rfl
    · split <;> rfl
  | work w control i wanted => exact congrArg some (work_under ⟨w, control, _⟩ rest i wanted)
  | update | ask | resume | poll => rfl

/-! ### The owners while it is pumped -/

variable (client l) in
/-- If the event loop has a further owner when a task is started for one who pumps it above those of
`base`, it has one when the task returns. -/
def TasksKeep (base : List (Activity K M)) (m : Machine K M) : Prop :=
  ∀ n executed t k r, (m.run client n).focus = .begin t →
    (m.run client n).control = .pumping l executed :: .sharing l :: base →
    (m.run client n).world.Kept l → Answered client (m.run client n) k (.ok r) →
    (m.run client (n + k)).world.Kept l

theorem owners_of_pump (hf : m.focus = .pump l executed) (hs : m.step client = some m') :
    m'.world.owners = m.world.owners := by
  rw [step, hf] at hs
  cases hs
  simp only [pump]
  split
  · rename_i hp
    rw [← World.owners_popLoop hp]
    exact World.owners_of_loops rfl
  · rename_i hp
    rw [← World.owners_popLoop hp]
    split <;> exact World.owners_of_loops rfl

variable (client l p n) in
/-- Where one who has an event loop run until it is idle is after `n` moves, if the tasks keep the
further owner. -/
inductive Keeping : Prop where
  | pumps {executed : ℕ} : (p.run client n).control = .sharing l :: p.control →
    (p.run client n).focus = .pump l executed → (p.run client n).world.Kept l → Keeping
  /-- A task is running that was started after `j` moves. -/
  | runs {j executed : ℕ} {task : Task K} : j ≤ n → (p.run client j).focus = .begin task →
    (p.run client j).control = .pumping l executed :: .sharing l :: p.control →
    (p.run client j).world.Kept l → Unanswered client (p.run client j) (n - j) → Keeping
  | told : Releasing (fun _ => True) p.control (p.run client n) → Keeping

/-- A round is begun with a further owner. -/
theorem Keeping.of_pump (hs : (p.run client n).step client = some m')
    (hc : (p.run client n).control = .sharing l :: p.control)
    (hf : (p.run client n).focus = .pump l executed) (hkept : (p.run client n).world.Kept l) :
    Keeping client l p (n + 1) := by
  have hrun := run_succ_of_step hs
  have hkept' : (p.run client (n + 1)).world.Kept l := by
    rw [World.Kept, hrun, owners_of_pump hf hs]
    exact hkept
  rcases pump_cases hf hs with
    ⟨timer, -, hbegin, hcontrol⟩ | ⟨-, hcontrol, ⟨-, hpump⟩ | ⟨-, hend, -⟩⟩
  · rw [← hrun] at hbegin hcontrol
    rw [hc] at hcontrol
    refine .runs le_rfl hbegin hcontrol hkept' ?_
    rw [Nat.sub_self]
    exact fun j hj => absurd hj (Nat.not_lt_zero j)
  · exact .pumps (by rw [hrun, hcontrol, hc]) (by rw [hrun, hpump]) hkept'
  · exact .told (.holds (by rw [hrun, hcontrol, hc]) (by rw [hrun, hend]) fun _ _ => trivial)

/-- A task that is over has left the further owner, and those who pump go on or end. -/
theorem Keeping.of_answered (hkeep : TasksKeep client l p.control p)
    (hs : (p.run client n).step client = some m') {j : ℕ} {task : Task K}
    {a : Except Payload (Reply K)} (hj : j ≤ n) (hbegin : (p.run client j).focus = .begin task)
    (hcontrol : (p.run client j).control = .pumping l executed :: .sharing l :: p.control)
    (hkept : (p.run client j).world.Kept l) (ha : Answered client (p.run client j) (n - j) a) :
    Keeping client l p (n + 1) := by
  have hrun := run_succ_of_step hs
  have hc := ha.control
  have hf := ha.focus
  rw [← run_add, Nat.add_sub_cancel' hj] at hc hf
  rw [Machine.step, hf, hc, hcontrol] at hs
  cases a with
  | ok r =>
    have hkept' := hkeep _ _ _ _ _ hbegin hcontrol hkept ha
    rw [Nat.add_sub_cancel' hj] at hkept'
    cases hs
    exact .pumps (by rw [hrun]; rfl) (by rw [hrun]; rfl) (by rw [hrun]; exact hkept')
  | error q =>
    cases hs
    exact .told (.holds (by rw [hrun]; rfl) (by rw [hrun]; rfl) fun _ _ => trivial)

theorem Keeping.step (hkeep : TasksKeep client l p.control p) (h : Keeping client l p n)
    (hs : (p.run client n).step client = some m')
    (hbase : ∀ a, (p.run client n).control = p.control → (p.run client n).focus ≠ .answer a) :
    Keeping client l p (n + 1) := by
  cases h with
  | pumps hc hf hkept => exact .of_pump hs hc hf hkept
  | @runs j executed task hj hbegin hcontrol hkept hun =>
    have hadd : (p.run client j).run client (n - j) = p.run client n := by
      rw [← run_add, Nat.add_sub_cancel' hj]
    by_cases hanswer : (p.run client n).control = (p.run client j).control ∧
        ∃ a, (p.run client n).focus = .answer a
    · obtain ⟨hc, a, hf⟩ := hanswer
      exact .of_answered hkeep hs hj hbegin hcontrol hkept ⟨by rw [hadd, hc], by rw [hadd, hf], hun⟩
    · refine .runs (Nat.le_succ_of_le hj) hbegin hcontrol hkept fun i hi a hci hfi => ?_
      rcases Nat.lt_succ_iff_lt_or_eq.1 (Nat.succ_sub hj ▸ hi) with hlt | rfl
      · exact hun i hlt a hci hfi
      · rw [hadd] at hci hfi
        exact hanswer ⟨hci, a, hfi⟩
  | told h =>
    refine .told ?_
    rw [run_succ_of_step hs]
    exact h.step hs hbase

theorem keeping (hkeep : TasksKeep client l p.control p) (hf : p.focus = .request (.runUntilIdle l))
    (h : Unanswered client p n) (hn : 1 ≤ n) : Keeping client l p n := by
  induction n, hn using Nat.le_induction with
  | base =>
    have hrun := run_one_of_idle client hf
    exact .pumps (by rw [hrun]) (by rw [hrun]) (by rw [hrun]; exact World.kept_share _ l)
  | succ n hn ih =>
    obtain ⟨m', hs, -⟩ := h.step (Nat.lt_succ_self n)
    exact (ih (h.of_le (Nat.le_succ n))).step hkeep hs (h n (Nat.lt_succ_self n))

/-- When those who pump begin a round, the event loop has a further owner. -/
theorem Keeping.kept (h : Keeping client l p n)
    (hc : (p.run client n).control = .sharing l :: p.control)
    (hf : (p.run client n).focus = .pump l executed) : (p.run client n).world.Kept l := by
  cases h with
  | pumps _ _ hkept => exact hkept
  | runs hj _ hcontrol _ hun =>
    have hsuffix := hun.suffix
    rw [← run_add, Nat.add_sub_cancel' hj, hcontrol, hc] at hsuffix
    have := hsuffix.length_le
    simp at this
  | told h =>
    cases h with
    | holds _ hf' =>
      rw [hf] at hf'
      cases hf'
    | releases hsuffix =>
      rw [hc] at hsuffix
      rcases List.suffix_cons_iff.1 hsuffix with heq | hsuffix
      · cases heq
      · have := hsuffix.length_le
        simp at this
    | ended _ hf' =>
      rw [hf] at hf'
      cases hf'

/-! ### The one and the other -/

/-- The answers at the end: the one counts the tasks, the other learns that there is none to run. Or
a task has panicked. -/
inductive Accords (l : LoopId) (w : World K M) :
    Except Payload (Reply K) → Except Payload (Reply K) → Prop where
  | idle (executed : ℕ) : w.nextDue l = none →
    Accords l w (.ok (.count executed)) (.ok (.flag false))
  | panicked (p : Payload) : Accords l w (.error p) (.error p)

/-- How far someone who makes turns is when someone else, with those of `base` waiting for them, has
the event loop run until it is idle. -/
inductive Abreast (l : LoopId) (base : List (Activity K M)) : Machine K M → Machine K M → Prop where
  /-- Both have the same task running. -/
  | runs (m : Machine K M) (executed : ℕ) :
    Abreast l base (m.under (.pumping l executed :: .sharing l :: base))
      (m.under [.affirming, .sharing l])
  /-- The one begins a round, the other a turn. -/
  | begins {w : World K M} {executed : ℕ} : w.Kept l →
    Abreast l base ⟨w, .sharing l :: base, .pump l executed⟩
      ⟨(w.release l).2, [], .request (.turn l)⟩
  | holds {w : World K M} {a a' : Except Payload (Reply K)} : Accords l w a a' →
    Abreast l base ⟨w, .sharing l :: base, .answer a⟩ ⟨w, [.sharing l], .answer a'⟩
  | releases {w : World K M} {executed : ℕ} (focus : Focus K M) : w.nextDue l = none →
    focus = .drop [] ∨ focus = .answer (.ok .done) →
    Abreast l base ⟨w, .replying (.count executed) :: base, focus⟩
      ⟨w, [.replying (.flag false)], focus⟩
  | ended {w : World K M} {a a' : Except Payload (Reply K)} : Accords l w a a' →
    Abreast l base ⟨w, base, .answer a⟩ ⟨w, [], .answer a'⟩

variable (client l) in
/-- Someone who makes turns gets from `m` to `m'` in `n` moves, and what they execute is `xs`. -/
def TakesTurns (m : Machine K M) (n : ℕ) (xs : List (ℕ × Timer (Task K))) (m' : Machine K M) :
    Prop :=
  m.byTurns client l n = m' ∧ executions l (fun j => m.byTurns client l j) n = xs

namespace TakesTurns

variable {xs xs' : List (ℕ × Timer (Task K))} {m₁ : Machine K M}

theorem refl (m : Machine K M) : TakesTurns client l m 0 [] m := ⟨rfl, rfl⟩

theorem trans (h : TakesTurns client l m n xs m₁) (h' : TakesTurns client l m₁ i xs' m') :
    TakesTurns client l m (n + i) (xs ++ xs') m' := by
  obtain ⟨rfl, rfl⟩ := h
  obtain ⟨rfl, rfl⟩ := h'
  refine ⟨byTurns_add m n i, ?_⟩
  rw [executions_add]
  simp only [byTurns_add]

theorem one (hs : m.turnOn client l = some m') :
    TakesTurns client l m 1 (m.execution l).toList m' := by
  refine ⟨?_, executions_succ _ 0⟩
  rw [byTurns_succ, byTurns, Function.iterate_zero_apply, hs, Option.getD_some]

/-- A move by which no task of the event loop is started, and those that follow. -/
theorem pass (hs : m.turnOn client l = some m₁) (hf : m.focus.takesFrom l = false)
    (h : TakesTurns client l m₁ n xs m') : TakesTurns client l m (1 + n) xs m' := by
  have hone := one hs
  rw [execution_of_takesFrom hf] at hone
  exact hone.trans h

/-- When a turn is over, the event loop is given back. -/
theorem sharing (h : w.Kept l) {r : Reply K}
    (h' : TakesTurns client l ⟨(w.release l).2, [], .answer (.ok r)⟩ n xs m') :
    TakesTurns client l ⟨w, [.sharing l], .answer (.ok r)⟩ (1 + (1 + (1 + n))) xs m' := by
  have hrelease : step client ⟨w, [.sharing l], .answer (.ok r)⟩ =
      some ⟨(w.release l).2, [.replying r], .drop []⟩ := by
    have hnil : (w.release l).1 = [] := by rw [World.release_of_kept h]
    simp only [Machine.step, returnTo, hnil]
    rfl
  have hdrop : turnOn client l ⟨(w.release l).2, [.replying r], .drop []⟩ =
      some ⟨(w.release l).2, [.replying r], .answer (.ok .done)⟩ := rfl
  have hreply : turnOn client l ⟨(w.release l).2, [.replying r], .answer (.ok .done)⟩ =
      some ⟨(w.release l).2, [], .answer (.ok r)⟩ := rfl
  exact .pass (turnOn_of_step hrelease) rfl (.pass hdrop rfl (.pass hreply rfl h'))

end TakesTurns

/-- An event loop that is given back for a while executes what it would have. -/
theorem execution_release (h : w.Kept l) :
    execution l ⟨(w.release l).2, [], .request (.turn l)⟩ =
      execution l ⟨w, .sharing l :: base, .pump l executed⟩ := by
  have hread : (w.release l).2.readClock.1 = w.readClock.1 := by
    simp only [World.readClock, World.release_clock]
  simp only [execution, leaves, Focus.takesFrom, decide_true, if_true, World.loop?_release h, hread]
  cases w.loop? l <;> rfl

/-- When a task has returned, the one goes on pumping, and the other makes the next turn. -/
theorem takesTurns_returned (h : w.Kept l) (r : Reply K) :
    TakesTurns client l ⟨w, [.affirming, .sharing l], .answer (.ok r)⟩ 5 []
      ⟨(w.release l).2, [], .request (.turn l)⟩ := by
  have hagain : turnOn client l ⟨(w.release l).2, [], .answer (.ok (.flag true))⟩ =
      some ⟨(w.release l).2, [], .request (.turn l)⟩ := rfl
  exact .pass rfl rfl (.sharing h (.pass hagain rfl (.refl _)))

/-- When no task is due, both wait. -/
theorem takesTurns_waits {due : Instant} (h : w.Kept l) (hdue : w.nextDue l = some due) :
    TakesTurns client l ⟨w, [.sharing l], .answer (.ok (.flag false))⟩ 4 []
      ⟨((w.sleepUntil due).release l).2, [], .request (.turn l)⟩ := by
  have hdue' : (w.release l).2.nextDue l = some due := by
    rw [World.nextDue_release h, hdue]
  have hwait : turnOn client l ⟨(w.release l).2, [], .answer (.ok (.flag false))⟩ =
      some ⟨(w.release l).2.sleepUntil due, [], .request (.turn l)⟩ := by
    simp only [turnOn, Machine.step, hdue']
    rfl
  rw [World.release_sleepUntil]
  exact .sharing h (.pass hwait rfl (.refl _))

/-- The other makes some moves, after which both are abreast again, and both have started the same
task, if any. -/
def Follows (client : Client K M) (l : LoopId) (base : List (Activity K M))
    (p t p' : Machine K M) : Prop :=
  ∃ n t', 0 < n ∧ TakesTurns client l t n (p.execution l).toList t' ∧ Abreast l base p' t'

theorem Follows.one (hs : t.turnOn client l = some t') (he : t.execution l = p.execution l)
    (h : Abreast l base p' t') : Follows client l base p t p' :=
  ⟨1, t', Nat.one_pos, he ▸ .one hs, h⟩

theorem follows_round (h : w.Kept l)
    (hs : step client ⟨w, .sharing l :: base, .pump l executed⟩ = some p') :
    Follows client l base ⟨w, .sharing l :: base, .pump l executed⟩
      ⟨(w.release l).2, [], .request (.turn l)⟩ p' := by
  have hshare := World.share_release h
  simp only [Machine.step, pump] at hs
  cases hp : w.popLoop l with
  | mk x w₁ =>
    have hkept : w₁.Kept l := by
      rw [World.Kept, World.owners_popLoop hp]
      exact h
    rw [hp] at hs
    cases x with
    | some popped =>
      obtain ⟨task, turn⟩ := popped
      cases hs
      have hturn : step client ⟨(w.release l).2, [], .request (.turn l)⟩ = some
          ⟨w₁.observe client (.taskStarted turn), [.affirming, .sharing l], .begin task⟩ := by
        simp only [Machine.step, perform, hshare, hp]
        rfl
      exact .one (turnOn_of_step hturn) (execution_release h) (.runs ⟨_, [], .begin task⟩ executed)
    | none =>
      have hturn : step client ⟨(w.release l).2, [], .request (.turn l)⟩ = some
          ⟨w₁, [.sharing l], .answer (.ok (.flag false))⟩ := by
        simp only [Machine.step, perform, hshare, hp]
        rfl
      cases hdue : w₁.nextDue l with
      | some due =>
        simp only [hdue] at hs
        cases hs
        have hone := TakesTurns.one (turnOn_of_step (l := l) hturn)
        rw [execution_release h] at hone
        have hround := hone.trans (takesTurns_waits hkept hdue)
        rw [List.append_nil] at hround
        exact ⟨_, _, Nat.succ_pos _, hround, .begins hkept⟩
      | none =>
        simp only [hdue] at hs
        cases hs
        exact .one (turnOn_of_step hturn) (execution_release h) (.holds (.idle executed hdue))

/-- As long as the task runs, it makes the same moves for both. When it is over, the one goes on
with the next round, and the other with the next turn. -/
theorem follows_task
    (hs : (m.under (.pumping l executed :: .sharing l :: base)).step client = some p')
    (hkept : ∀ executed, p'.control = .sharing l :: base → p'.focus = .pump l executed →
      p'.world.Kept l) :
    Follows client l base (m.under (.pumping l executed :: .sharing l :: base))
      (m.under [.affirming, .sharing l]) p' := by
  cases hm : m.step client with
  | some m₁ =>
    rw [step_under _ hm] at hs
    cases hs
    exact .one (turnOn_of_step (step_under _ hm)) rfl (.runs m₁ executed)
  | none =>
    obtain ⟨w, control, focus⟩ := m
    obtain ⟨rfl, a, rfl⟩ := step_eq_none hm
    cases a with
    | ok r =>
      cases hs
      have h : w.Kept l := hkept (executed + 1) rfl rfl
      have hnone : execution l (under ⟨w, [], .answer (.ok r)⟩
          (.pumping l executed :: .sharing l :: base)) = none := execution_of_takesFrom rfl
      refine ⟨5, _, Nat.succ_pos 4, ?_, .begins h⟩
      rw [hnone]
      exact takesTurns_returned h r
    | error q =>
      cases hs
      exact .one rfl rfl (.holds (.panicked q))

/-- When no task is left, both give the event loop back. -/
theorem follows_idle (hdue : w.nextDue l = none)
    (hs : step client ⟨w, .sharing l :: base, .answer (.ok (.count executed))⟩ = some p') :
    Follows client l base ⟨w, .sharing l :: base, .answer (.ok (.count executed))⟩
      ⟨w, [.sharing l], .answer (.ok (.flag false))⟩ p' := by
  have hnil := release_of_nextDue hdue
  have hpump : Machine.step client ⟨w, .sharing l :: base, .answer (.ok (.count executed))⟩ =
      some ⟨(w.release l).2, .replying (.count executed) :: base, .drop []⟩ := by
    simp only [Machine.step, returnTo, hnil]
    rfl
  have hturn : Machine.step client ⟨w, [.sharing l], .answer (.ok (.flag false))⟩ =
      some ⟨(w.release l).2, [.replying (.flag false)], .drop []⟩ := by
    simp only [Machine.step, returnTo, hnil]
    rfl
  rw [hpump] at hs
  cases hs
  exact .one (turnOn_of_step hturn) rfl (.releases (.drop []) (nextDue_release hdue) (.inl rfl))

/-- When the one makes a move, the other follows. -/
theorem Abreast.step (h : Abreast l base p t) (hs : p.step client = some p')
    (hbase : ∀ a, p.control = base → p.focus ≠ .answer a)
    (hkept : ∀ executed, p'.control = .sharing l :: base → p'.focus = .pump l executed →
      p'.world.Kept l) : Follows client l base p t p' := by
  cases h with
  | runs m executed => exact follows_task hs hkept
  | begins h => exact follows_round h hs
  | holds h =>
    cases h with
    | idle executed hdue => exact follows_idle hdue hs
    | panicked q =>
      cases hs
      exact .one rfl rfl (.ended (.panicked q))
  | releases focus hdue hf =>
    rcases hf with rfl | rfl
    · cases hs
      exact .one rfl rfl (.releases _ hdue (.inr rfl))
    · cases hs
      exact .one rfl rfl (.ended (.idle _ hdue))
  | ended => exact absurd rfl (hbase _ rfl)

theorem step_of_turnOn (h : t.turnOn client l = none) : t.step client = none := by
  rw [turnOn] at h
  split at h
  · cases h
  · assumption

theorem Accords.turnOn {a a' : Except Payload (Reply K)} (h : Accords l w a a') :
    Machine.turnOn client l ⟨w, [], .answer a'⟩ = none := by
  cases h with
  | idle executed hdue => simp only [Machine.turnOn, Machine.step, hdue]
  | panicked q => rfl

/-- When the one is answered, it is over for the other. -/
theorem Abreast.answered {a : Except Payload (Reply K)} (h : Abreast l base p t)
    (hc : p.control = base) (hf : p.focus = .answer a) :
    ∃ a', t = ⟨p.world, [], .answer a'⟩ ∧ Accords l p.world a a' := by
  cases h with
  | runs m executed =>
    have := congrArg List.length hc
    simp only [under, List.length_append, List.length_cons] at this
    omega
  | begins => cases hf
  | holds => exact absurd hc (List.cons_ne_self _ _)
  | releases => exact absurd hc (List.cons_ne_self _ _)
  | ended h =>
    cases hf
    exact ⟨_, rfl, h⟩

/-- When it is over for the other, the one is answered. -/
theorem Abreast.of_ended (h : Abreast l base p t) (ht : t.turnOn client l = none) :
    p.control = base ∧ ∃ a, p.focus = .answer a := by
  obtain ⟨hc, a, hf⟩ := step_eq_none (step_of_turnOn ht)
  cases h with
  | runs m executed => exact absurd hc (List.append_ne_nil_of_right_ne_nil _ (List.cons_ne_nil _ _))
  | begins => cases hf
  | holds => cases hc
  | releases => cases hc
  | ended => exact ⟨rfl, _, rfl⟩

/-! ### The whole way -/

/-- Someone who makes turns of the event loop where someone else does something about it. -/
def turner (l : LoopId) (p : Machine K M) : Machine K M := ⟨p.world, [], .request (.turn l)⟩

section

variable (hkeep : TasksKeep client l p.control p) (hf : p.focus = .request (.runUntilIdle l))

include hkeep hf

/-- As long as the one is not answered, the other keeps abreast. -/
theorem abreast_run (h : Unanswered client p n) (hn : 1 ≤ n) : ∃ i t', n ≤ i + 1 ∧
    TakesTurns client l (p.turner l) i (executions l (fun j => p.run client j) n) t' ∧
      Abreast l p.control (p.run client n) t' := by
  induction n, hn using Nat.le_induction with
  | base =>
    have hnone : execution l (p.run client 0) = none :=
      execution_of_takesFrom (by rw [run, hf]; rfl)
    refine ⟨0, p.turner l, le_rfl, ?_, ?_⟩
    · rw [executions_succ, hnone]
      exact .refl _
    · rw [turner, ← World.release_share p.world l, run_one_of_idle client hf]
      exact .begins (World.kept_share _ l)
  | succ n hn ih =>
    obtain ⟨i, t, hi, hround, habreast⟩ := ih (h.of_le (Nat.le_succ n))
    obtain ⟨p', hs, hrun, -⟩ := h.step (Nat.lt_succ_self n)
    have hkept {executed : ℕ} (hc : p'.control = .sharing l :: p.control)
        (hpump : p'.focus = .pump l executed) : p'.world.Kept l := by
      subst hrun
      exact (keeping hkeep hf h (Nat.succ_le_succ (Nat.zero_le n))).kept hc hpump
    obtain ⟨j, t', hj, hround', habreast'⟩ :=
      habreast.step hs (h n (Nat.lt_succ_self n)) fun _ hc hpump => hkept hc hpump
    refine ⟨i + j, t', by omega, ?_, hrun ▸ habreast'⟩
    rw [executions_succ]
    exact hround.trans hround'

/-- When the one is answered, the other has an end there. -/
theorem abreast_answered {a : Except Payload (Reply K)} (h : Answered client p n a) :
    ∃ i a', TakesTurns client l (p.turner l) i (executions l (fun j => p.run client j) n)
        ⟨(p.run client n).world, [], .answer a'⟩ ∧ Accords l (p.run client n).world a a' ∧
      ((p.turner l).byTurns client l i).turnOn client l = none := by
  obtain ⟨i, t', -, hround, habreast⟩ := abreast_run hkeep hf h.first (h.pos hf)
  obtain ⟨a', rfl, haccords⟩ := habreast.answered h.control h.focus
  exact ⟨i, a', hround, haccords, hround.1 ▸ haccords.turnOn⟩

end

theorem unanswered_or_answered (client : Client K M) (p : Machine K M) (n : ℕ) :
    Unanswered client p n ∨ ∃ k a, Answered client p k a := by
  by_cases h : ∃ j a, (p.run client j).control = p.control ∧ (p.run client j).focus = .answer a
  · obtain ⟨j, a, hc, hf⟩ := h
    obtain ⟨k, a', -, hk⟩ := exists_answered hc hf
    exact .inr ⟨k, a', hk⟩
  · exact .inl fun j _ a hc hf => h ⟨j, a, hc, hf⟩

/-- When it is over, nothing more is executed. -/
theorem executions_eq_of_le {N : ℕ} (h : (t.byTurns client l N).turnOn client l = none)
    (hn : N ≤ n) : executions l (fun j => t.byTurns client l j) n =
      executions l (fun j => t.byTurns client l j) N := by
  obtain ⟨i, rfl⟩ := Nat.exists_eq_add_of_le hn
  have hnil : executions l (fun j => t.byTurns client l (N + j)) i = [] :=
    executions_eq_nil fun j _ => by
      obtain ⟨-, a, hf⟩ := step_eq_none (step_of_turnOn h)
      rw [byTurns_eq_of_le h (Nat.le_add_right N j), hf]
      rfl
  rw [executions_add, hnil, List.append_nil]

variable (client l p) in
/-- It makes no difference whether someone has an event loop run until it is idle or makes turns of
it, and waits until the next task is due when there is none to run. -/
structure TurnsAlike : Prop where
  /-- The same tasks are started, in the same order and with the same numbers of their turns. -/
  executed {k : ℕ} {x : ℕ × Timer (Task K)} :
    (∃ n, Unanswered client p n ∧ (executions l (fun j => p.run client j) n)[k]? = some x) ↔
      ∃ n, (executions l (fun j => (p.turner l).byTurns client l j) n)[k]? = some x
  /-- The one is answered if and only if the other comes to an end. -/
  ends : (∃ n a, Answered client p n a) ↔
    ∃ n, ((p.turner l).byTurns client l n).turnOn client l = none
  /-- Then the same tasks have been started, and what they leave is the same: the tasks that wait,
  the numbers of turns, the client's memory and all else. -/
  alike {n n' : ℕ} {a : Except Payload (Reply K)} : Answered client p n a →
    ((p.turner l).byTurns client l n').turnOn client l = none →
    executions l (fun j => (p.turner l).byTurns client l j) n' =
        executions l (fun j => p.run client j) n ∧
      ((p.turner l).byTurns client l n').world = (p.run client n).world ∧
      ∃ a', ((p.turner l).byTurns client l n').focus = .answer a' ∧
        Accords l (p.run client n).world a a'

/-- Running an event loop until it is idle is making turns of it. -/
theorem turnsAlike (hkeep : TasksKeep client l p.control p)
    (hf : p.focus = .request (.runUntilIdle l)) : TurnsAlike client l p where
  executed {k x} := by
    constructor
    · rintro ⟨n, hun, hx⟩
      cases n with
      | zero => cases hx
      | succ n =>
        obtain ⟨i, t', -, ⟨-, hexecutions⟩, -⟩ :=
          abreast_run hkeep hf hun (Nat.succ_le_succ (Nat.zero_le n))
        exact ⟨i, by rw [hexecutions, hx]⟩
    · rintro ⟨n, hx⟩
      -- The one has started at least as many tasks when it has made a move more, or at its end.
      rcases unanswered_or_answered client p (n + 1) with hun | ⟨N, a, ha⟩
      · obtain ⟨i, t', hi, ⟨-, hexecutions⟩, -⟩ :=
          abreast_run hkeep hf hun (Nat.succ_le_succ (Nat.zero_le n))
        refine ⟨n + 1, hun, ?_⟩
        rw [← hexecutions]
        exact getElem?_executions (Nat.le_of_succ_le_succ hi) hx
      · obtain ⟨i, a', ⟨-, hexecutions⟩, -, hover⟩ := abreast_answered hkeep hf ha
        refine ⟨N, ha.first, ?_⟩
        rw [← hexecutions]
        rcases Nat.le_total n i with hle | hle
        · exact getElem?_executions hle hx
        · rwa [executions_eq_of_le hover hle] at hx
  ends := by
    constructor
    · rintro ⟨n, a, ha⟩
      obtain ⟨i, a', -, -, hover⟩ := abreast_answered hkeep hf ha
      exact ⟨i, hover⟩
    · rintro ⟨n, hover⟩
      rcases unanswered_or_answered client p (n + 1) with hun | ha
      · obtain ⟨i, t', hi, ⟨ht', -⟩, habreast⟩ :=
          abreast_run hkeep hf hun (Nat.succ_le_succ (Nat.zero_le n))
        rw [byTurns_eq_of_le hover (Nat.le_of_succ_le_succ hi)] at ht'
        obtain ⟨hc, a, hfocus⟩ := habreast.of_ended (ht' ▸ hover)
        obtain ⟨k, a', -, hk⟩ := exists_answered hc hfocus
        exact ⟨k, a', hk⟩
      · exact ha
  alike {n n' a} ha hover := by
    obtain ⟨i, a', ⟨hi, hexecutions⟩, haccords, hover'⟩ := abreast_answered hkeep hf ha
    have hsame : (p.turner l).byTurns client l n' = (p.turner l).byTurns client l i ∧
        executions l (fun j => (p.turner l).byTurns client l j) n' =
          executions l (fun j => (p.turner l).byTurns client l j) i := by
      rcases Nat.le_total i n' with hle | hle
      · exact ⟨byTurns_eq_of_le hover' hle, executions_eq_of_le hover' hle⟩
      · exact ⟨(byTurns_eq_of_le hover hle).symm, (executions_eq_of_le hover hle).symm⟩
    rw [hsame.1, hsame.2, hi, hexecutions]
    exact ⟨rfl, rfl, a', rfl, haccords⟩

end Machine

end LazyEffects
