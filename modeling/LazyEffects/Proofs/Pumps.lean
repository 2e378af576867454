import LazyEffects.Proofs.Scripts
import LazyEffects.Proofs.Stacks

/-!
# Those who pump an event loop

Each of those who pump an event loop counts the tasks that it has started, and when it returns, it
returns that number. A turn counts one. So the tasks that have been started are those that have been
returned, those that someone who has not returned has counted, and those whose count was lost to a
panic.

* `Machine.run_credit`: the balance of a session;
* `Machine.Answered.idle` and `Machine.Answered.turned`: what is returned is what is answered.
-/

namespace LazyEffects

variable {K : Codes} {M : Type}

/-- The number of tasks that one who goes on pumping the event loop has run. -/
def Focus.executed (l : LoopId) : Focus K M → ℕ
  | pump l' executed => if l' = l then executed else 0
  | _ => 0

theorem Focus.executed_of_not_pump {l : LoopId} {focus : Focus K M} (h : focus.isPump l = false) :
    focus.executed l = 0 := by
  cases focus with
  | pump l' executed => exact if_neg (of_decide_eq_false h)
  | _ => rfl

namespace Machine

variable {client : Client K M} {l : LoopId} {m m' : Machine K M} {n : ℕ}

/-- The number of tasks of the event loop that have been run for calls that have not returned. -/
def credit (l : LoopId) (m : Machine K M) : ℕ := m.focus.executed l + credits l m.control

/-- What the next move returns to one who has pumped the event loop: the number of tasks run, if
there are no more, and one for a turn that has run its task. -/
def returns (l : LoopId) (m : Machine K M) : ℕ :=
  match m.focus, m.control with
  | .pump l' executed, _ => if l' = l ∧ m.world.nextDue l = none then executed else 0
  | .answer (.ok _), .affirming :: control => ran l (.affirming :: control)
  | _, _ => 0

/-- The number of tasks run for one who pumps the event loop and does not return, as the next move
passes a panic on. -/
def forgoes (l : LoopId) (m : Machine K M) : ℕ :=
  match m.focus with
  | .answer (.error _) => ran l m.control
  | _ => 0

/-! ### The balance of a move -/

theorem credit_of_not_pump (h : m.focus.isPump l = false) : m.credit l = credits l m.control := by
  rw [credit, Focus.executed_of_not_pump h, Nat.zero_add]

theorem credit_of_pump_zero (h : m.focus = .pump l 0) : m.credit l = credits l m.control := by
  rw [credit, h, Focus.executed, if_pos rfl, Nat.zero_add]

theorem nextDue_of_leaves {timer : Timer (Task K)} (h : m.leaves l = some timer) :
    m.world.nextDue l ≠ none := by
  obtain ⟨s, -, hs, hroot, -⟩ := leaves_eq_some h
  simp [World.nextDue, hs, TimerQueue.nextDue, hroot]

/-- What has nothing to do with the event loop returns nothing there. -/
theorem credit_aside (ha : m.focus.isAnswer = false) (ht : m.focus.takesFrom l = false) :
    m.credit l = credits l m.control ∧ m.returns l = 0 ∧ m.forgoes l = 0 := by
  obtain ⟨w, control, focus⟩ := m
  cases focus with
  | pump l' executed =>
    have hl : l' ≠ l := of_decide_eq_false ht
    refine ⟨credit_of_not_pump ht, ?_, rfl⟩
    simp [returns, hl]
  | answer => cases ha
  | _ => exact ⟨Nat.zero_add _, rfl, rfl⟩

/-- What has been run, returned or forgone in a move is what has been taken from the loop. -/
theorem step_credit (hm : m.Asked) (hs : m.step client = some m') :
    m'.credit l + m.returns l + m.forgoes l = m.credit l + (m.leaves l).toList.length := by
  obtain ⟨w, control, focus⟩ := m
  cases step_stacked l hm hs with
  | aside ha ht hf' habove =>
    obtain ⟨hcredit, hreturns, hforgoes⟩ := credit_aside ha ht
    rw [hcredit, hreturns, hforgoes, leaves_eq_none ht, credit_of_not_pump hf', habove.credits_eq]
    rfl
  | @returned activity base r hc hf hran hf' habove =>
    cases hc
    cases hf
    have hreturns : returns l ⟨w, activity :: base, .answer (.ok r)⟩ =
        ran l (activity :: base) := by
      rcases hran with rfl | hran
      · rfl
      · cases activity <;> simp [returns, hran]
    have hforgoes : forgoes l ⟨w, activity :: base, .answer (.ok r)⟩ = 0 := rfl
    rw [hreturns, hforgoes, credit_of_not_pump hf', credit_of_not_pump rfl, habove.credits_eq,
      credits_cons, leaves_eq_none rfl]
    exact (Nat.add_zero _).trans (Nat.add_comm _ _)
  | panicked hc hf hf' hc' =>
    cases hc
    cases hf
    rw [credit_of_not_pump hf', credit_of_not_pump rfl, hc', credits_cons, leaves_eq_none rfl]
    exact Nat.add_comm _ _
  | begins hc hf hf' hc' =>
    cases hc
    cases hf
    rw [leaves_eq_none rfl, credit_of_pump_zero hf', hc', credit_of_not_pump rfl, credits_of_ran rfl]
    rfl
  | @goesOn base r executed hc hf hf' hc' =>
    cases hc
    cases hf
    have hreturns : returns l ⟨w, .pumping l executed :: base, .answer (.ok r)⟩ = 0 := rfl
    have hforgoes : forgoes l ⟨w, .pumping l executed :: base, .answer (.ok r)⟩ = 0 := rfl
    rw [leaves_eq_none rfl, credit, hf', hc', credit_of_not_pump rfl, hreturns, hforgoes]
    rfl
  | idles hf hf' hc' =>
    cases hf
    rw [leaves_eq_none rfl, credit_of_pump_zero hf', hc', credit_of_not_pump rfl, credits_of_ran rfl]
    rfl
  | blocks hf hf' hc' =>
    cases hf
    rw [leaves_eq_none rfl, credit_of_not_pump hf', hc', credit_of_not_pump rfl,
      credits_of_ran rfl, credits_of_ran rfl, credits_of_ran rfl]
    rfl
  | turns hf =>
    cases hf
    rcases turn_cases rfl hs with ⟨timer, hleaves, hf', hc'⟩ | ⟨hleaves, hc', hf'⟩
    · simp [credit, hf', hc', hleaves, credits_cons, Focus.executed, returns, forgoes, ran,
        Nat.add_comm]
    · simp [credit, hf', hc', hleaves, credits_cons, Focus.executed, returns, forgoes, ran]
  | pumped hf =>
    cases hf
    rcases pump_cases rfl hs with
      ⟨timer, hleaves, hf', hc'⟩ | ⟨hleaves, hc', ⟨hdue, hf'⟩ | ⟨hdue, hf', -⟩⟩
    · have hdue : w.nextDue l ≠ none := nextDue_of_leaves hleaves
      simp [credit, hf', hc', hleaves, credits_cons, Focus.executed, returns, forgoes, ran, hdue]
      omega
    · simp only [credit, hf', hc', hleaves, Focus.executed, returns, forgoes, hdue]
      simp
    · simp only [credit, hf', hc', hleaves, Focus.executed, returns, forgoes, hdue]
      simp [Nat.add_comm]

/-- In a session that is over nothing is returned. -/
theorem returns_of_over (h : m.step client = none) : m.returns l = 0 := by
  obtain ⟨hc, a, hf⟩ := step_eq_none h
  cases a <;> rw [returns, hf, hc]

/-- A pump that returns answers the number of tasks that it has run, and a turn that returns answers
that it has run one. -/
theorem answer_of_returns (h : m.returns l ≠ 0) (hs : m.step client = some m') :
    (m.focus = .pump l (m.returns l) ∧ m'.focus = .answer (.ok (.count (m.returns l))) ∧
        m'.control = m.control) ∨
      m.returns l = 1 ∧ m'.focus = .answer (.ok (.flag true)) ∧
        ∃ control, m.control = .affirming :: .sharing l :: control ∧
          m'.control = .sharing l :: control := by
  obtain ⟨w, control, focus⟩ := m
  cases focus with
  | pump l' executed =>
    by_cases hl : l' = l ∧ w.nextDue l = none
    · have hreturns : returns l ⟨w, control, .pump l' executed⟩ = executed := if_pos hl
      obtain ⟨rfl, hdue⟩ := hl
      rcases pump_cases rfl hs with ⟨timer, hleaves, -⟩ | ⟨-, hc, ⟨hne, -⟩ | ⟨-, hf, -⟩⟩
      · exact absurd hdue (nextDue_of_leaves hleaves)
      · exact absurd hdue hne
      · rw [hreturns]
        exact .inl ⟨rfl, hf, hc⟩
    · exact absurd (if_neg hl) h
  | answer a =>
    cases a with
    | error p => exact absurd rfl h
    | ok r =>
      cases control with
      | nil => exact absurd rfl h
      | cons activity control =>
        cases activity with
        | affirming =>
          obtain ⟨base, rfl⟩ := exists_of_ran_affirming h
          cases hs
          exact .inr ⟨if_pos rfl, rfl, base, rfl, rfl⟩
        | _ => exact absurd rfl h
  | _ => exact absurd rfl h

/-! ### A whole session -/

variable (client) in
theorem run_asked (hm : m.Asked) (n : ℕ) : (m.run client n).Asked := by
  induction n with
  | zero => exact hm
  | succ n ih =>
    rw [run_succ]
    cases hs : (m.run client n).step client with
    | none => exact ih
    | some m' => exact step_asked hs

variable (client l) in
/-- What has been run for those who pump the event loop has been returned, or forgone, or is
still to be returned. -/
theorem run_credit (hm : m.Asked) (n : ℕ) :
    (m.run client n).credit l + ∑ i ∈ Finset.range n, (m.run client i).returns l +
        ∑ i ∈ Finset.range n, (m.run client i).forgoes l =
      m.credit l + ∑ i ∈ Finset.range n, ((m.run client i).leaves l).toList.length := by
  induction n with
  | zero => rfl
  | succ n ih =>
    rw [Finset.sum_range_succ, Finset.sum_range_succ, Finset.sum_range_succ, run_succ]
    cases hs : (m.run client n).step client with
    | none =>
      obtain ⟨hc, a, hf⟩ := step_eq_none hs
      have hreturns : (m.run client n).returns l = 0 := returns_of_over hs
      have hforgoes : (m.run client n).forgoes l = 0 := by cases a <;> simp [forgoes, hf, hc, ran]
      have hleaves : (m.run client n).leaves l = none := leaves_eq_none (by rw [hf]; rfl)
      simpa [hreturns, hforgoes, hleaves] using ih
    | some m' =>
      have hstep := step_credit (l := l) (run_asked client hm n) hs
      simp only [Option.getD_some]
      omega

/-- Someone pumps the event loop, or makes a turn of it. -/
def Pumped (l : LoopId) (m : Machine K M) : Prop :=
  (∃ executed, m.focus = .pump l executed) ∨ ∃ control, control <:+ m.control ∧ ran l control ≠ 0

theorem credits_eq_zero {control : List (Activity K M)}
    (h : ∀ rest, rest <:+ control → ran l rest = 0) : credits l control = 0 := by
  induction control with
  | nil => rfl
  | cons activity control ih =>
    rw [credits_cons, h _ (List.suffix_refl _),
      ih fun rest hrest => h rest (hrest.trans (List.suffix_cons _ _))]

theorem credit_of_not_pumped (h : ¬ m.Pumped l) : m.credit l = 0 := by
  rw [credit, credits_eq_zero fun rest hrest => not_not.1 fun hne => h (.inr ⟨rest, hrest, hne⟩)]
  cases hf : m.focus with
  | pump l' executed =>
    rw [Focus.executed, if_neg]
    rintro rfl
    exact h (.inl ⟨executed, hf⟩)
  | _ => rfl

/-! ### Answers to those who pump -/

/-- In a given session it can be computed whether those who wait have been answered. -/
theorem unanswered_of_all (h : (List.range n).all (fun j => !(m.run client j).focus.isAnswer ||
    (m.run client j).control.length != m.control.length) = true) : Unanswered client m n := by
  intro j hj a hc hf
  have hj := List.all_eq_true.1 h j (List.mem_range.2 hj)
  rw [hf, hc] at hj
  simp [Focus.isAnswer] at hj

variable (client l m n) in
/-- Where those who have begun a round of pumping an event loop are after `n` moves: they begin
another one, or a task is running that they have started, or a panic has come to them, or the pump
has come to its end. -/
inductive Pumping : Prop where
  | pumps {executed : ℕ} : (m.run client n).control = m.control →
    (m.run client n).focus = .pump l executed → Pumping
  | runs {executed : ℕ} : .pumping l executed :: m.control <:+ (m.run client n).control → Pumping
  | panicked {p : Payload} : (m.run client n).control = m.control →
    (m.run client n).focus = .answer (.error p) → Pumping
  | idle {j executed : ℕ} : n = j + 1 → (m.run client j).control = m.control →
    (m.run client j).focus = .pump l executed → (m.run client j).world.nextDue l = none →
    (m.run client n).control = m.control →
    (m.run client n).focus = .answer (.ok (.count executed)) →
    (m.run client n).world.nextDue l = none → Pumping

theorem Pumping.succ (h : Pumping client l m n) (hu : Unanswered client m (n + 1)) :
    Pumping client l m (n + 1) := by
  obtain ⟨m', hs, hrun, -⟩ := hu.step (Nat.lt_succ_self n)
  cases h with
  | @pumps executed hc hf =>
    rcases pump_cases hf hs with ⟨timer, -, -, hc'⟩ | ⟨-, hc', ⟨-, hf'⟩ | ⟨hdue, hf', hdue'⟩⟩
    · have hsuffix : .pumping l executed :: m.control <:+ m'.control := by rw [hc', hc]
      exact .runs (by rwa [hrun])
    · exact .pumps (by rw [hrun, hc', hc]) (by rw [hrun, hf'])
    · exact .idle rfl hc hf hdue (by rw [hrun, hc', hc]) (by rw [hrun, hf']) (by rwa [hrun])
  | @runs executed hsuffix =>
    rcases suffix_step hs hsuffix with hsuffix | ⟨hc, a, hf⟩
    · exact .runs (by rwa [hrun])
    · rw [Machine.step, hf, hc] at hs
      cases a with
      | error p =>
        cases hs
        exact .panicked (p := p) (by rw [hrun]; rfl) (by rw [hrun]; rfl)
      | ok r =>
        cases hs
        have hf' : (m.run client (n + 1)).focus = .pump l (executed + 1) := by
          rw [hrun]
          rfl
        exact .pumps (by rw [hrun]; rfl) hf'
  | panicked hc hf => exact absurd hf (hu n (Nat.lt_succ_self n) _ hc)
  | idle _ _ _ _ hc hf _ => exact absurd hf (hu n (Nat.lt_succ_self n) _ hc)

theorem pumping {executed : ℕ} (hf : m.focus = .pump l executed) (hu : Unanswered client m n) :
    Pumping client l m n := by
  induction n with
  | zero => exact .pumps rfl hf
  | succ n ih => exact (ih (hu.of_le (Nat.le_succ n))).succ hu

/-- Those for whom an event loop is pumped are answered the number of tasks that have been run,
when there are none left. -/
theorem Answered.pumped {reply : Reply K} (h : Answered client m n (.ok reply)) {executed : ℕ}
    (hf : m.focus = .pump l executed) : ∃ j executed, n = j + 1 ∧
      (m.run client j).control = m.control ∧ (m.run client j).focus = .pump l executed ∧
      (m.run client j).world.nextDue l = none ∧ reply = .count executed ∧
      (m.run client n).world.nextDue l = none := by
  cases pumping hf h.first with
  | pumps _ hf' =>
    rw [h.focus] at hf'
    cases hf'
  | runs hsuffix =>
    have := hsuffix.length_le
    rw [h.control] at this
    simp at this
  | panicked _ hf' =>
    rw [h.focus] at hf'
    cases hf'
  | idle hn hc hf' hdue _ hfocus hdue' =>
    rw [h.focus] at hfocus
    cases hfocus
    exact ⟨_, _, hn, hc, hf', hdue, rfl, hdue'⟩

variable (client) in
/-- Who has an event loop run until it is idle shares it and begins to pump. -/
theorem run_one_of_idle (hf : m.focus = .request (.runUntilIdle l)) :
    m.run client 1 = ⟨m.world.share l, .sharing l :: m.control, .pump l 0⟩ := by
  have hs : m.step client = some (m.perform client (.runUntilIdle l)) := by rw [Machine.step, hf]
  exact run_succ_of_step (n := 0) hs

/-- An event loop is given up that has no tasks. -/
theorem run_sharing {w : World K M} {control : List (Activity K M)} {r : Reply K}
    (h : (w.release l).1 = []) : run client 3 ⟨w, .sharing l :: control, .answer (.ok r)⟩ =
      ⟨(w.release l).2, control, .answer (.ok r)⟩ := by
  simp [run, step, returnTo, call, h, drop, reply, go]

variable (client) in
/-- Until an event loop has been given up, there is someone above those who wait for the answer. -/
theorem length_run_sharing {w : World K M} (control : List (Activity K M)) (r : Reply K)
    (h : (w.release l).1 = []) {i : ℕ} (hi : i < 3) : control.length <
      (run client i ⟨w, .sharing l :: control, .answer (.ok r)⟩).control.length := by
  obtain rfl | rfl | rfl : i = 0 ∨ i = 1 ∨ i = 2 := by omega
  all_goals simp [run, step, returnTo, call, h, drop, Machine.reply, go]

theorem release_of_nextDue {w : World K M} (h : w.nextDue l = none) : (w.release l).1 = [] := by
  rw [World.release]
  split
  · rename_i s hs
    split
    · rw [World.nextDue, hs] at h
      exact TimerQueue.tasks_of_nextDue h
    · rfl
  · rfl

theorem nextDue_release {w : World K M} (h : w.nextDue l = none) :
    (w.release l).2.nextDue l = none := by
  cases hs' : (w.release l).2.loop? l with
  | none => simp [World.nextDue, hs']
  | some s' =>
    obtain ⟨s, owners, hs, rfl⟩ := (World.steady_release l w l).loop hs'
    rw [World.nextDue, hs] at h
    rwa [World.nextDue, hs']

/-- Who has an event loop run until it is idle is answered what the pump has counted, and then there
are no tasks left. -/
theorem Answered.idle {reply : Reply K} (h : Answered client m n (.ok reply))
    (hf : m.focus = .request (.runUntilIdle l)) : ∃ j executed, n = j + 4 ∧
      (m.run client j).control = .sharing l :: m.control ∧
      (m.run client j).focus = .pump l executed ∧ (m.run client j).world.nextDue l = none ∧
      reply = .count executed ∧ (m.run client n).world.nextDue l = none := by
  obtain ⟨n, rfl⟩ := Nat.exists_eq_add_of_le' (h.pos hf)
  have hrun (k : ℕ) : m.run client (k + 1) =
      run client k ⟨m.world.share l, .sharing l :: m.control, .pump l 0⟩ := by
    rw [Nat.add_comm, run_add, run_one_of_idle client hf]
  -- The pump is over before the one who has asked for it is answered.
  obtain ⟨k, a, hk, ha⟩ : ∃ k a, k < n ∧ Answered client
      ⟨m.world.share l, .sharing l :: m.control, .pump l 0⟩ k a :=
    exists_answered_of_shorter (by rw [← hrun, h.control]; simp)
  have hover := ha.run_eq
  rw [← hrun] at hover
  cases a with
  | error p =>
    have hend : m.run client (k + 1 + 1) =
        ⟨((m.run client (k + 1)).world.release l).2, m.control, .answer (.error p)⟩ := by
      rw [run_add, hover]
      rfl
    obtain ⟨-, hp⟩ := h.eq_of_le (k := k + 1 + 1) (by omega) (by rw [hend]) (by rw [hend])
    cases hp
  | ok r =>
    obtain ⟨j, executed, rfl, hc, hpump, hdue, rfl, hdue'⟩ := ha.pumped rfl
    rw [← hrun] at hc hpump hdue hdue'
    have hrelease := release_of_nextDue hdue'
    have hlast (i : ℕ) : m.run client (j + 2 + i) = run client i
        ⟨(m.run client (j + 2)).world, .sharing l :: m.control, .answer (.ok (.count executed))⟩ := by
      rw [run_add, hover]
    have hend : m.run client (j + 2 + 3) = ⟨((m.run client (j + 2)).world.release l).2, m.control,
        .answer (.ok (.count executed))⟩ := by
      rw [hlast, run_sharing hrelease]
    -- In between there is someone above those who are answered.
    have hle : j + 2 + 3 ≤ n + 1 := by
      by_contra hlt
      obtain ⟨i, hi, hn⟩ : ∃ i, i < 3 ∧ n + 1 = j + 2 + i := ⟨n + 1 - (j + 2), by omega, by omega⟩
      have hlt := length_run_sharing client m.control (.count executed) hrelease hi
      rw [← hlast, ← hn, h.control] at hlt
      exact absurd hlt (lt_irrefl _)
    obtain ⟨hn, hr⟩ := h.eq_of_le hle (by rw [hend]) (by rw [hend])
    cases hr
    refine ⟨j + 1, executed, hn.symm, hc, hpump, hdue, rfl, ?_⟩
    rw [← hn, hend]
    exact nextDue_release hdue'

/-- What a turn of the event loop answers: that a task has been run, and then it has returned before,
or that none was due. -/
inductive Turned (client : Client K M) (l : LoopId) (m : Machine K M) (n : ℕ) : Reply K → Prop where
  | ran {timer : Timer (Task K)} {j : ℕ} {r : Reply K} : m.leaves l = some timer → j < n →
    (m.run client j).control = .affirming :: .sharing l :: m.control →
    (m.run client j).focus = .answer (.ok r) → Turned client l m n (.flag true)
  | idle : m.leaves l = none → Turned client l m n (.flag false)

/-- Those who make a turn of an event loop: a task is being run, or they have an answer. -/
inductive Turning (client : Client K M) (l : LoopId) (m₀ : Machine K M) (n : ℕ) (m : Machine K M) :
    Prop where
  | runs {timer : Timer (Task K)} : m₀.leaves l = some timer →
    .affirming :: .sharing l :: m₀.control <:+ m.control → Turning client l m₀ n m
  | told : Releasing (Turned client l m₀ n) m₀.control m → Turning client l m₀ n m

theorem turning_one (hf : m.focus = .request (.turn l)) (n : ℕ) :
    Turning client l m n (m.run client 1) := by
  have hs : m.step client = some (m.perform client (.turn l)) := by rw [Machine.step, hf]
  rw [run_succ_of_step (n := 0) hs]
  rcases turn_cases hf hs with ⟨timer, hleaves, -, hc⟩ | ⟨hleaves, hc, hf'⟩
  · exact .runs hleaves (hc ▸ List.suffix_refl _)
  · refine .told (.holds hc hf' fun r hr => ?_)
    cases hr
    exact .idle hleaves

theorem Turning.step {m₀ : Machine K M} {j : ℕ} (hj : j < n)
    (h : Turning client l m₀ n (m₀.run client j)) (hs : (m₀.run client j).step client = some m')
    (hbase : ∀ a, (m₀.run client j).control = m₀.control → (m₀.run client j).focus ≠ .answer a) :
    Turning client l m₀ n m' := by
  cases h with
  | runs hleaves hsuffix =>
    rcases suffix_step hs hsuffix with hsuffix | ⟨hc, a, hf⟩
    · exact .runs hleaves hsuffix
    · rw [Machine.step, hf, hc] at hs
      cases a with
      | error p =>
        cases hs
        exact .told (.holds rfl rfl fun reply hreply => by cases hreply)
      | ok r =>
        cases hs
        refine .told (.holds rfl rfl fun reply hreply => ?_)
        cases hreply
        exact .ran hleaves hj hc hf
  | told h => exact .told (h.step hs hbase)

/-- Who makes a turn of an event loop is answered whether a task has been run. -/
theorem Answered.turned {reply : Reply K} (h : Answered client m n (.ok reply))
    (hf : m.focus = .request (.turn l)) : Turned client l m n reply := by
  have hturning : Turning client l m n (m.run client n) :=
    h.first.of_step (h.pos hf) (turning_one hf n) fun j hj h' m' hs hbase => h'.step hj hs hbase
  cases hturning with
  | runs _ hsuffix =>
    have := hsuffix.length_le
    rw [h.control] at this
    simp at this
  | told h' => exact h'.answered h.control h.focus reply rfl

end Machine

end LazyEffects
