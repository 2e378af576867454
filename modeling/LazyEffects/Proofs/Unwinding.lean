import LazyEffects.Proofs.Agreement
import LazyEffects.Proofs.Standing
import LazyEffects.Proofs.TurnByTurn

/-!
# Tasks that panic

A panic that leaves a task of an event loop goes through those who pump the loop, and reaches the
one who has called them. Nobody else is concerned: what the loop has taken in stays there, and
whoever pumps it next starts what would have been started if the task had returned.

* `Machine.raises`: where a panic comes from;
* `Machine.Alongside`: two who pump the loop, one of whom has begun later;
* `Machine.session_survives`: what a panic leaves behind.
-/

namespace LazyEffects

variable {K : Codes} {M : Type}

namespace Machine

variable {client : Client K M} {l : LoopId} {m m' p p' q q' : Machine K M} {d k n e : ℕ}
  {b b' : List (Activity K M)} {payload : Payload} {w : World K M}

/-! ### Where a panic comes from -/

/-- The payload of the panic that begins here, if one does: client code, a slice of a run or a slice
of a future ends with it, or a host cannot compute a due time. -/
def raises (m : Machine K M) : Option Payload :=
  match m.focus with
  | .script .body (.done (.error p)) => some p
  | .script (.slice _) (.done (.unwound p, _)) => some p
  | .script (.poll _) (.done (.unwound p, _)) => some p
  | .defer host delay _ => if m.world.overflows host delay then some overflow else none
  | _ => none

/-- A panic that is passed on comes from above, or something has just ended with it. -/
theorem raises_of_step (hs : m.step client = some m') (hf : m'.focus = .answer (.error payload)) :
    m.focus = .answer (.error payload) ∨ m.raises = some payload := by
  induction hs using step_induction with
  | finish w control role x =>
    refine .inr ?_
    cases role with
    | body =>
      cases x with
      | ok => cases hf
      | error => cases hf; rfl
    | slice f =>
      obtain ⟨a, t⟩ := x
      cases a with
      | unwound => cases hf; rfl
      | completed v =>
        simp only [finish, afterSlice, go_focus] at hf
        split at hf <;> cases hf
      | _ => cases hf
    | bare => cases hf
    | poll f =>
      obtain ⟨a, t⟩ := x
      cases a with
      | unwound => cases hf; rfl
      | _ => cases hf
  | request w control r =>
    cases r <;> simp only [perform] at hf <;> (try split at hf) <;> cases hf
  | returned w control activity r =>
    cases activity <;> simp only [returnTo] at hf <;> (try split at hf) <;> cases hf
  | panicked w control activity p =>
    refine .inl ?_
    cases activity <;> cases hf <;> rfl
  | begin w control t => cases t <;> cases hf
  | complete =>
    simp only [complete] at hf
    split at hf <;> cases hf
  | report =>
    simp only [report] at hf
    split at hf <;> cases hf
  | overflow w control host delay t ho =>
    cases hf
    exact .inr (if_pos ho)
  | handOver w control host =>
    cases host <;> simp only [handOver] at hf <;> (try split at hf) <;> cases hf
  | drop w control ts =>
    cases ts with
    | nil => cases hf
    | cons t rest => cases t <;> cases hf
  | pump =>
    simp only [pump] at hf
    split at hf
    · cases hf
    · split at hf <;> cases hf
  | work w control i wanted =>
    simp only [work] at hf
    split at hf
    · cases hf
    · split at hf
      · cases hf
      · split at hf
        · cases hf
        · split at hf
          · split at hf <;> cases hf
          · split at hf <;> cases hf
  | update | ask | resume | poll => cases hf

/-- Whoever gets a panic gets it from something that has ended with it, and since then nothing has
been done but to pass it on. -/
theorem exists_raises (hm : ∀ payload, m.focus ≠ .answer (.error payload))
    (hf : (m.run client n).focus = .answer (.error payload)) : ∃ j < n,
      (m.run client j).raises = some payload ∧
      ∀ i, j < i → i ≤ n → (m.run client i).focus = .answer (.error payload) := by
  induction n with
  | zero => exact absurd hf (hm payload)
  | succ n ih =>
    -- The panic has been passed on by the last move, or it has been raised there.
    have hlast : (m.run client n).focus = .answer (.error payload) ∨
        (m.run client n).raises = some payload := by
      rw [run_succ] at hf
      cases hs : (m.run client n).step client with
      | none =>
        rw [hs] at hf
        exact .inl hf
      | some m' =>
        rw [hs] at hf
        exact raises_of_step hs hf
    rcases hlast with hpassed | hraised
    · obtain ⟨j, hj, hraises, hpasses⟩ := ih hpassed
      refine ⟨j, by omega, hraises, fun i hi hle => ?_⟩
      rcases Nat.le_succ_iff.1 hle with hle | rfl
      · exact hpasses i hi hle
      · exact hf
    · refine ⟨n, Nat.lt_succ_self n, hraised, fun i hi hle => ?_⟩
      obtain rfl : i = n + 1 := by omega
      exact hf

/-! ### Two who pump, one after the other -/

/-- The answers of two who pump an event loop, of whom the second one has `e` tasks more to count. -/
inductive Reckons (e : ℕ) : Except Payload (Reply K) → Except Payload (Reply K) → Prop where
  | count (x : ℕ) : Reckons e (.ok (.count x)) (.ok (.count (x + e)))
  | panicked (p : Payload) : Reckons e (.error p) (.error p)

/-- Two who have the same event loop run until it is idle are in the same round. The second one has
begun earlier, and has run `e` tasks more. -/
inductive Alongside (l : LoopId) (e : ℕ) (b b' : List (Activity K M)) :
    Machine K M → Machine K M → Prop where
  | begins (w : World K M) (x : ℕ) :
    Alongside l e b b' ⟨w, .sharing l :: b, .pump l x⟩ ⟨w, .sharing l :: b', .pump l (x + e)⟩
  /-- Both have the same task running. -/
  | runs (m : Machine K M) (x : ℕ) : Alongside l e b b'
    (m.under (.pumping l x :: .sharing l :: b)) (m.under (.pumping l (x + e) :: .sharing l :: b'))
  | holds (w : World K M) {a a' : Except Payload (Reply K)} : Reckons e a a' →
    Alongside l e b b' ⟨w, .sharing l :: b, .answer a⟩ ⟨w, .sharing l :: b', .answer a'⟩
  /-- The event loop has been given up, and what has been left there is being dropped. -/
  | releases (m : Machine K M) {r r' : Reply K} : Reckons e (.ok r) (.ok r') →
    Alongside l e b b' (m.under (.replying r :: b)) (m.under (.replying r' :: b'))
  | ended (w : World K M) {a a' : Except Payload (Reply K)} : Reckons e a a' →
    Alongside l e b b' ⟨w, b, .answer a⟩ ⟨w, b', .answer a'⟩

namespace Alongside

theorem world (h : Alongside l e b b' p q) : q.world = p.world := by
  cases h <;> rfl

theorem reports (h : Alongside l e b b' p q) : q.focus.reports = p.focus.reports := by
  cases h <;> rfl

theorem execution (h : Alongside l e b b' p q) : q.execution l = p.execution l := by
  cases h <;> rfl

theorem step (h : Alongside l e b b' p q) (hs : p.step client = some p')
    (hb : ∀ a, p.control = b → p.focus ≠ .answer a) :
    ∃ q', q.step client = some q' ∧ Alongside l e b b' p' q' := by
  cases h with
  | begins w x =>
    simp only [Machine.step, pump] at hs ⊢
    cases hp : w.popLoop l with
    | mk popped w₁ =>
      rw [hp] at hs
      cases popped with
      | some popped =>
        cases hs
        exact ⟨_, rfl, .runs ⟨_, [], .begin popped.1⟩ x⟩
      | none =>
        cases hdue : w₁.nextDue l with
        | some due =>
          simp only [hdue] at hs ⊢
          cases hs
          exact ⟨_, rfl, .begins _ x⟩
        | none =>
          simp only [hdue] at hs ⊢
          cases hs
          exact ⟨_, rfl, .holds _ (.count x)⟩
  | runs m x =>
    cases hm : m.step client with
    | some m₁ =>
      rw [step_under _ hm] at hs
      cases hs
      exact ⟨_, step_under _ hm, .runs m₁ x⟩
    | none =>
      obtain ⟨w, control, focus⟩ := m
      obtain ⟨rfl, a, rfl⟩ := step_eq_none hm
      cases a with
      | ok r =>
        cases hs
        refine ⟨_, rfl, ?_⟩
        have hbegins : Alongside l e b b' ⟨w, .sharing l :: b, .pump l (x + 1)⟩
            ⟨w, .sharing l :: b', .pump l (x + 1 + e)⟩ := .begins w (x + 1)
        rwa [Nat.add_right_comm] at hbegins
      | error p =>
        cases hs
        exact ⟨_, rfl, .holds w (.panicked p)⟩
  | holds w ha =>
    cases ha with
    | count x =>
      cases hs
      exact ⟨_, rfl, .releases ⟨_, [], .drop (w.release l).1⟩ (.count x)⟩
    | panicked p =>
      cases hs
      exact ⟨_, rfl, .ended _ (.panicked p)⟩
  | releases m hr =>
    cases hm : m.step client with
    | some m₁ =>
      rw [step_under _ hm] at hs
      cases hs
      exact ⟨_, step_under _ hm, .releases m₁ hr⟩
    | none =>
      obtain ⟨w, control, focus⟩ := m
      obtain ⟨rfl, a, rfl⟩ := step_eq_none hm
      cases a with
      | ok r =>
        cases hs
        exact ⟨_, rfl, .ended w hr⟩
      | error p =>
        cases hs
        exact ⟨_, rfl, .ended w (.panicked p)⟩
  | ended w ha => exact absurd rfl (hb _ rfl)

/-- Both are answered at the same time. -/
theorem answered (h : Alongside l e b b' p q) :
    (∀ a, p.control = b → p.focus = .answer a →
      q.control = b' ∧ ∃ a', q.focus = .answer a' ∧ Reckons e a a') ∧
    ∀ a', q.control = b' → q.focus = .answer a' →
      p.control = b ∧ ∃ a, p.focus = .answer a := by
  have hcons (activity : Activity K M) (b : List (Activity K M)) : activity :: b ≠ b :=
    List.cons_ne_self _ _
  have hunder (above : List (Activity K M)) (activity : Activity K M) (b : List (Activity K M))
      (m : Machine K M) : (m.under (above ++ activity :: b)).control ≠ b := fun heq => by
    have := congrArg List.length heq
    simp only [under, List.length_append, List.length_cons] at this
    omega
  cases h with
  | begins => exact ⟨fun _ hc => absurd hc (hcons _ _), fun _ hc => absurd hc (hcons _ _)⟩
  | runs m x =>
    exact ⟨fun _ hc => absurd hc (hunder [.pumping l x] _ _ m),
      fun _ hc => absurd hc (hunder [.pumping l (x + e)] _ _ m)⟩
  | holds => exact ⟨fun _ hc => absurd hc (hcons _ _), fun _ hc => absurd hc (hcons _ _)⟩
  | releases m =>
    exact ⟨fun _ hc => absurd hc (hunder [] _ _ m), fun _ hc => absurd hc (hunder [] _ _ m)⟩
  | ended w ha =>
    refine ⟨fun a _ hf => ?_, fun a' _ _ => ⟨rfl, _, rfl⟩⟩
    cases hf
    exact ⟨rfl, _, rfl, ha⟩

end Alongside

/-- As long as the one who has begun later has no answer, both are in the same round. -/
theorem alongside_run (h : Alongside l e p.control b' (p.run client 1) (q.run client 1))
    (hn : 1 ≤ n) (hu : Unanswered client p n) :
    Alongside l e p.control b' (p.run client n) (q.run client n) := by
  induction n, hn using Nat.le_induction with
  | base => exact h
  | succ n hn ih =>
    obtain ⟨p', hp, hrun, -⟩ := hu.step (Nat.lt_succ_self n)
    obtain ⟨q', hq, h'⟩ :=
      (ih (hu.of_le (Nat.le_succ n))).step hp (hu n (Nat.lt_succ_self n))
    rwa [hrun, run_succ_of_step hq]

variable (client l p q e b') in
/-- Someone, in `p`, has an event loop run until it is idle. Someone else goes on in `q` who is
called by those of `b'`, and who has run `e` tasks before. Both do the same, move by move. -/
structure PumpsAlike : Prop where
  /-- They start the same tasks, in the same turns. -/
  executed {n : ℕ} : Unanswered client p n →
    executions l (fun j => q.run client j) n = executions l (fun j => p.run client j) n
  reports {n : ℕ} : Unanswered client p n →
    (q.run client n).focus.reports = (p.run client n).focus.reports
  /-- From the first move on all else that they do leaves the same. -/
  world {n : ℕ} : Unanswered client p n → 1 ≤ n → (q.run client n).world = (p.run client n).world
  /-- Both are answered at the same time, the number of tasks or with the same panic. -/
  answered {n : ℕ} {a : Except Payload (Reply K)} : Answered client p n a →
    (q.run client n).control = b' ∧ ∃ a', (q.run client n).focus = .answer a' ∧ Reckons e a a'
  ends {n : ℕ} {a' : Except Payload (Reply K)} : Unanswered client p n → 1 ≤ n →
    (q.run client n).control = b' → (q.run client n).focus = .answer a' →
    ∃ a, Answered client p n a

/-- Two who begin the same round do the same from then on. -/
theorem pumpsAlike (hp : p.focus = .request (.runUntilIdle l)) {a : Except Payload (Reply K)}
    (hq : q.focus = .answer a) (h : Alongside l e p.control b' (p.run client 1) (q.run client 1)) :
    PumpsAlike client l p q e b' where
  executed {n} hu := by
    induction n with
    | zero => rfl
    | succ n ih =>
      rw [executions_succ, executions_succ, ih (hu.of_le (Nat.le_succ n))]
      rcases Nat.eq_zero_or_pos n with rfl | hn
      · have hfirst : (q.run client 0).execution l = none :=
          execution_of_takesFrom (by rw [run, hq]; rfl)
        have hsecond : (p.run client 0).execution l = none :=
          execution_of_takesFrom (by rw [run, hp]; rfl)
        rw [hfirst, hsecond]
      · rw [(alongside_run h hn (hu.of_le (Nat.le_succ n))).execution]
  reports {n} hu := by
    rcases Nat.eq_zero_or_pos n with rfl | hn
    · rw [run, run, hp, hq]
      rfl
    · exact (alongside_run h hn hu).reports
  world hu hn := (alongside_run h hn hu).world
  answered ha := (alongside_run h (ha.pos hp) ha.first).answered.1 _ ha.control ha.focus
  ends hu hn hc hf := by
    obtain ⟨hc', a, hf'⟩ := (alongside_run h hn hu).answered.2 _ hc hf
    exact ⟨a, hc', hf', hu⟩

/-! ### Calls that a panic leaves -/

variable (client l m d) in
/-- Someone has called for a turn of the event loop, or to have it run until it is idle, and after
`d` moves a task is started for them if one is due. -/
inductive Calls : Prop where
  | turn : d = 0 → m.focus = .request (.turn l) → Calls
  | idle {x : ℕ} : m.focus = .request (.runUntilIdle l) → Unanswered client m d →
    (m.run client d).control = .sharing l :: m.control → (m.run client d).focus = .pump l x → Calls

namespace Calls

variable {timer : Timer (Task K)}

theorem unanswered (h : Calls client l m d) : Unanswered client m (d + 1) := by
  intro j hj a hc hf
  cases h with
  | turn hd hrequest =>
    obtain rfl : j = 0 := by omega
    rw [run, hrequest] at hf
    cases hf
  | idle hrequest hu hcontrol hpump =>
    rcases Nat.lt_succ_iff_lt_or_eq.1 hj with hlt | rfl
    · exact hu j hlt a hc hf
    · rw [hpump] at hf
      cases hf

/-- The task is begun for those who pump the event loop or make a turn of it. -/
theorem begins (h : Calls client l m d) (hleaves : (m.run client d).leaves l = some timer) :
    (m.run client (d + 1)).focus = .begin timer.task ∧
      ((m.focus = .request (.turn l) ∧
          (m.run client (d + 1)).control = .affirming :: .sharing l :: m.control) ∨
        (m.focus = .request (.runUntilIdle l) ∧ ∃ x,
          (m.run client (d + 1)).control = .pumping l x :: .sharing l :: m.control)) := by
  obtain ⟨m', hs⟩ := exists_step client (m := m.run client d) fun a hf => by
    rw [leaves, hf] at hleaves
    cases hleaves
  rw [run_succ_of_step hs]
  cases h with
  | turn hd hrequest =>
    subst hd
    rcases turn_cases hrequest hs with ⟨timer', hleaves', hf, hc⟩ | ⟨hnone, -⟩
    · cases hleaves.symm.trans hleaves'
      exact ⟨hf, .inl ⟨hrequest, hc⟩⟩
    · cases hleaves.symm.trans hnone
  | idle hrequest _ hcontrol hpump =>
    rcases pump_cases hpump hs with ⟨timer', hleaves', hf, hc⟩ | ⟨hnone, -⟩
    · cases hleaves.symm.trans hleaves'
      rw [hcontrol] at hc
      exact ⟨hf, .inr ⟨hrequest, _, hc⟩⟩
    · cases hleaves.symm.trans hnone

/-- A panic that leaves the task passes those who pump, and reaches those who have called. -/
theorem run_eq (h : Calls client l m d) (hleaves : (m.run client d).leaves l = some timer)
    (ha : Answered client (m.run client (d + 1)) k (.error payload)) :
    m.run client (d + 1 + k + 1) =
        ⟨(m.run client (d + 1 + k)).world, .sharing l :: m.control, .answer (.error payload)⟩ ∧
      m.run client (d + 1 + k + 2) = ⟨((m.run client (d + 1 + k)).world.release l).2, m.control,
        .answer (.error payload)⟩ := by
  have hrun := ha.run_eq
  rw [← run_add] at hrun
  obtain ⟨-, ⟨-, hc⟩ | ⟨-, x, hc⟩⟩ := h.begins hleaves
  all_goals
    rw [hc] at hrun
    constructor
    · rw [run_add, hrun]
      rfl
    · rw [run_add, hrun]
      rfl

theorem answered (h : Calls client l m d) (hleaves : (m.run client d).leaves l = some timer)
    (ha : Answered client (m.run client (d + 1)) k (.error payload)) :
    Answered client m (d + 1 + k + 2) (.error payload) := by
  obtain ⟨hone, htwo⟩ := h.run_eq hleaves ha
  refine ⟨by rw [htwo], by rw [htwo], fun j hj a hc hf => ?_⟩
  obtain hle | ⟨i, hi, rfl⟩ | rfl :
      j < d + 1 ∨ (∃ i, i ≤ k ∧ j = d + 1 + i) ∨ j = d + 1 + k + 1 := by
    rcases Nat.lt_or_ge j (d + 1) with hlt | hge
    · exact .inl hlt
    · rcases Nat.lt_or_ge j (d + 1 + k + 1) with hlt | hge'
      · exact .inr (.inl ⟨j - (d + 1), by omega, by omega⟩)
      · exact .inr (.inr (by omega))
  · exact h.unanswered j hle a hc hf
  · -- The task is above those who pump, and they are above those who have called.
    have hle := (ha.first.of_le hi).suffix.length_le
    rw [← run_add, hc] at hle
    obtain ⟨-, ⟨-, hcontrol⟩ | ⟨-, x, hcontrol⟩⟩ := h.begins hleaves
    all_goals
      rw [hcontrol, List.length_cons, List.length_cons] at hle
      omega
  · rw [hone] at hc
    exact List.cons_ne_self _ _ hc

end Calls

/-! ### What a panic leaves behind -/

/-- Nothing is taken in while a task is taken out. -/
theorem enters_of_leaves {timer : Timer (Task K)} (h : m.leaves l = some timer) :
    m.enters l = none := by
  obtain ⟨-, htakes, -⟩ := leaves_eq_some h
  rw [enters]
  split
  · rename_i hf
    rw [hf] at htakes
    cases htakes
  · rfl

/-- A run whose slice a panic leaves is reported neither before nor after. -/
theorem unreported_of_unwound {clock : Clock} {memory : M} {main : Script K M Ending} {f : Fiber K}
    {t : Trampoline K.signature}
    (hf : ((initial (World.initial clock memory) main).run client n).focus =
      .script (.slice f) (.done (.unwound payload, t))) (j : ℕ) :
    let s := initial (World.initial clock memory) main
    (s.account client j f.run.id).completed = 0 ∧ (s.account client j f.run.id).failed = 0 := by
  intro s
  refine never_reported (n := n + 1) rfl rfl rfl ?_ j
  simp only [account, Finset.sum_range_succ]
  have hlost : (s.run client n).lost = [.run f.run] := by rw [lost, hf]
  rw [hlost]
  simp [Ticket.isRun]

variable (client l m d k) in
/-- What a panic leaves behind that comes from a task of an event loop. The task has been started
for those who have called in `m`, after `d` moves, and it panics after another `k`. -/
structure Survives (timer : Timer (Task K)) (payload : Payload) : Prop where
  /-- The panic reaches those who have called. -/
  thrown : Answered client m (d + 1 + k + 2) (.error payload)
  /-- Client code or a slice has ended with it, or a host has panicked with it that was handed a
  task, and since then it has been passed on as it is. -/
  raised : ∃ j < k, (m.run client (d + 1 + j)).raises = some payload ∧
    ∀ i, j < i → i ≤ k + 2 → (m.run client (d + 1 + i)).focus = .answer (.error payload)
  /-- The task is one of the turns, with those that it has had run by pumping the loop itself. -/
  counted {s s' : EventLoop K} : (m.run client d).world.loop? l = some s →
    (m.run client (d + 1 + k + 2)).world.loop? l = some s' →
    s'.turns = s.turns + 1 + ((m.run client (d + 1)).started client l k).length
  /-- All else that was pending is pending, and so is what has been deferred since, but for what the
  task has had run itself. -/
  pending {s s' : EventLoop K} : (m.run client d).world.loop? l = some s →
    (m.run client (d + 1 + k + 2)).world.loop? l = some s' →
    (timer :: (m.run client (d + 1)).started client l k ++ s'.queue.heap.toList).Perm
      (s.queue.heap.toList ++ (m.run client (d + 1)).accepted client l k)
  others {s s' : EventLoop K} {x : Timer (Task K)} : (m.run client d).world.loop? l = some s →
    (m.run client (d + 1 + k + 2)).world.loop? l = some s' → x ∈ s.queue.heap → x ≠ timer →
    x ∉ (m.run client (d + 1)).started client l k → x ∈ s'.queue.heap
  /-- Runs that are pending have not been reported. -/
  unreported {clock : Clock} {memory : M} {main : Script K M Ending} {i : ℕ} {s' : EventLoop K}
      {x : Timer (Task K)} {f : Fiber K} :
    m = (initial (World.initial clock memory) main).run client i →
    (m.run client (d + 1 + k + 2)).world.loop? l = some s' → x ∈ s'.queue.heap →
    x.task = .resume f →
    let account := (initial (World.initial clock memory) main).account client
      (i + (d + 1 + k + 2)) f.run.id
    account.completed = 0 ∧ account.failed = 0
  /-- Nor is the run ever reported whose slice the panic has left. -/
  unwound {clock : Clock} {memory : M} {main : Script K M Ending} {i j : ℕ} {f : Fiber K}
      {t : Trampoline K.signature} :
    m = (initial (World.initial clock memory) main).run client i →
    (m.run client (d + 1 + j)).focus = .script (.slice f) (.done (.unwound payload, t)) → ∀ n,
    let account := (initial (World.initial clock memory) main).account client n f.run.id
    account.completed = 0 ∧ account.failed = 0
  /-- If the task had returned to those who make a turn, they would have left the same. -/
  turned : m.focus = .request (.turn l) →
    (m.run client (d + 1 + k + 2)).world.loop? l ≠ none → ∀ r : Reply K,
    run client 4 ⟨(m.run client (d + 1 + k)).world, (m.run client (d + 1 + k)).control,
      .answer (.ok r)⟩ = ⟨(m.run client (d + 1 + k + 2)).world, m.control, .answer (.ok (.flag true))⟩
  /-- If it had returned to those who pump the loop until it is idle, they would have gone on as
  those do who pump it again. -/
  pumped : m.focus = .request (.runUntilIdle l) →
    (m.run client (d + 1 + k + 2)).world.loop? l ≠ none → ∀ (b : List (Activity K M)) (r : Reply K),
    ∃ e, PumpsAlike client l
      ⟨(m.run client (d + 1 + k + 2)).world, b, .request (.runUntilIdle l)⟩
      ⟨(m.run client (d + 1 + k)).world, (m.run client (d + 1 + k)).control, .answer (.ok r)⟩
      e m.control
  /-- So would those who make turns of the loop then, if the tasks leave it with an owner. -/
  turns (b : List (Activity K M)) : let again : Machine K M :=
      ⟨(m.run client (d + 1 + k + 2)).world, b, .request (.runUntilIdle l)⟩
    TasksKeep client l b again → TurnsAlike client l again

section

variable {timer : Timer (Task K)} (h : Calls client l m d)
  (hleaves : (m.run client d).leaves l = some timer)
  (ha : Answered client (m.run client (d + 1)) k (.error payload))

include h hleaves ha

/-- The event loop is what it was when the task panicked, with an owner less. -/
theorem Calls.loop {s' : EventLoop K}
    (hs' : (m.run client (d + 1 + k + 2)).world.loop? l = some s') :
    ∃ s, (m.run client (d + 1 + k)).world.loop? l = some s ∧ s'.turns = s.turns ∧
      s'.queue = s.queue := by
  rw [(h.run_eq hleaves ha).2] at hs'
  have hkept := World.kept_of_release (by rw [hs']; exact Option.some_ne_none s')
  rw [World.loop?_release hkept, Option.map_eq_some_iff] at hs'
  obtain ⟨s, hs, rfl⟩ := hs'
  exact ⟨s, hs, rfl, rfl⟩

theorem Calls.books (hm : m.InSession client) {s s' : EventLoop K}
    (hs : (m.run client d).world.loop? l = some s)
    (hs' : (m.run client (d + 1 + k + 2)).world.loop? l = some s') :
    s'.turns = s.turns + 1 + ((m.run client (d + 1)).started client l k).length ∧
      (timer :: (m.run client (d + 1)).started client l k ++ s'.queue.heap.toList).Perm
        (s.queue.heap.toList ++ (m.run client (d + 1)).accepted client l k) := by
  obtain ⟨s₁, hs₁, hturns, hqueue⟩ := h.loop hleaves ha hs'
  obtain ⟨clock, memory, main, i, rfl⟩ := hm
  have hfirst := booked client l (m := initial (World.initial clock memory) main) rfl (i + d)
  have hlast := booked client l (m := initial (World.initial clock memory) main) rfl
    (i + d + (1 + k))
  rw [← run_add] at hs hs₁ hleaves
  have hs₁' : ((initial (World.initial clock memory) main).run client
      (i + d + (1 + k))).world.loop? l = some s₁ := by
    rw [← hs₁]
    congr 3
    omega
  -- Between the two moments the task has been started, and whatever it has had run itself.
  have hstarted : ((initial (World.initial clock memory) main).run client (i + d)).started client l
      (1 + k) = timer ::
        (((initial (World.initial clock memory) main).run client i).run client (d + 1)).started
          client l k := by
    rw [started_add, started_succ, run, hleaves, ← run_add, ← run_add, Nat.add_assoc]
    rfl
  have haccepted : ((initial (World.initial clock memory) main).run client (i + d)).accepted client l
      (1 + k) =
        (((initial (World.initial clock memory) main).run client i).run client (d + 1)).accepted
          client l k := by
    have henters : ((initial (World.initial clock memory) main).run client (i + d)).enters l =
        none := enters_of_leaves hleaves
    rw [accepted_add, accepted_succ, run, henters, ← run_add, ← run_add, Nat.add_assoc]
    rfl
  have hbetween := hfirst.between hlast hs hs₁'
  rw [hstarted, haccepted, ← hqueue] at hbetween
  refine ⟨?_, hbetween⟩
  rw [hturns, (hlast.loop hs₁').1, (hfirst.loop hs).1, started_add, List.length_append, hstarted,
    List.length_cons]
  omega

/-- If the task had returned at that point, those who pump would have gone on, and they are
alongside those who pump the loop again. -/
theorem Calls.pumpsAlike (hrequest : m.focus = .request (.runUntilIdle l))
    (halive : (m.run client (d + 1 + k + 2)).world.loop? l ≠ none) (b : List (Activity K M))
    (r : Reply K) : ∃ e, PumpsAlike client l
      ⟨(m.run client (d + 1 + k + 2)).world, b, .request (.runUntilIdle l)⟩
      ⟨(m.run client (d + 1 + k)).world, (m.run client (d + 1 + k)).control, .answer (.ok r)⟩
      e m.control := by
  rw [(h.run_eq hleaves ha).2] at halive ⊢
  have hkept := World.kept_of_release halive
  have hcontrol := ha.control
  rw [← run_add] at hcontrol
  obtain ⟨-, ⟨hturn, -⟩ | ⟨-, x, hc⟩⟩ := h.begins hleaves
  · cases hrequest.symm.trans hturn
  · rw [hcontrol, hc]
    refine ⟨x + 1, Machine.pumpsAlike rfl rfl ?_⟩
    rw [run_one_of_idle client rfl, World.share_release hkept]
    have hbegins : Alongside l (x + 1) b m.control
        ⟨(m.run client (d + 1 + k)).world, .sharing l :: b, .pump l 0⟩
        ⟨(m.run client (d + 1 + k)).world, .sharing l :: m.control, .pump l (0 + (x + 1))⟩ :=
      .begins _ 0
    rwa [Nat.zero_add] at hbegins

theorem Calls.turned (hrequest : m.focus = .request (.turn l))
    (halive : (m.run client (d + 1 + k + 2)).world.loop? l ≠ none) (r : Reply K) :
    run client 4 ⟨(m.run client (d + 1 + k)).world, (m.run client (d + 1 + k)).control,
      .answer (.ok r)⟩ =
    ⟨(m.run client (d + 1 + k + 2)).world, m.control, .answer (.ok (.flag true))⟩ := by
  rw [(h.run_eq hleaves ha).2] at halive ⊢
  have hkept := World.kept_of_release halive
  have hcontrol := ha.control
  rw [← run_add] at hcontrol
  obtain ⟨-, ⟨-, hc⟩ | ⟨hidle, -⟩⟩ := h.begins hleaves
  · have hnil : ((m.run client (d + 1 + k)).world.release l).1 = [] := by
      rw [World.release_of_kept hkept]
    rw [hcontrol, hc]
    exact run_sharing hnil
  · cases hrequest.symm.trans hidle

/-- A panic that leaves a task of an event loop reaches those who have called for a turn of it, or
to have it run until it is idle, and it costs the loop this task only. Whoever pumps it next does
what would have been done if the task had returned. -/
theorem Calls.survives (hm : m.InSession client) : Survives client l m d k timer payload where
  thrown := h.answered hleaves ha
  raised := by
    have hbegin := (h.begins hleaves).1
    obtain ⟨j, hj, hraises, hpasses⟩ :=
      exists_raises (fun payload hf => by rw [hbegin] at hf; cases hf) ha.focus
    rw [← run_add] at hraises
    refine ⟨j, hj, hraises, fun i hi hle => ?_⟩
    obtain hle | rfl | rfl : i ≤ k ∨ i = k + 1 ∨ i = k + 2 := by omega
    · rw [run_add]
      exact hpasses i hi hle
    · rw [← Nat.add_assoc, (h.run_eq hleaves ha).1]
    · rw [← Nat.add_assoc, (h.run_eq hleaves ha).2]
  counted hs hs' := (h.books hleaves ha hm hs hs').1
  pending hs hs' := (h.books hleaves ha hm hs hs').2
  others hs hs' hx hne hnot := by
    have hmem := (h.books hleaves ha hm hs hs').2.mem_iff.2
      (List.mem_append_left _ (Array.mem_toList_iff.2 hx))
    simp only [List.cons_append, List.mem_cons, List.mem_append, Array.mem_toList_iff] at hmem
    rcases hmem with heq | hstarted | hpending
    · exact absurd heq hne
    · exact absurd hstarted hnot
    · exact hpending
  unreported {clock memory main i s' x f} hs hs' hx hf := by
    subst hs
    have hmem : .resume f ∈ ((initial (World.initial clock memory) main).run client
        (i + (d + 1 + k + 2))).world.contents (.eventLoop l) := by
      rw [run_add, World.contents_loop hs', TimerQueue.tasks, ← hf]
      exact List.mem_map_of_mem (Array.mem_toList_iff.2 hx)
    obtain ⟨hcompleted, hfailed, -⟩ := alone_of_mem rfl rfl rfl hmem
    exact ⟨hcompleted, hfailed⟩
  unwound {clock memory main i j f t} hs hf n := by
    subst hs
    rw [← run_add] at hf
    exact unreported_of_unwound hf n
  turned hrequest halive r := h.turned hleaves ha hrequest halive r
  pumped hrequest halive b r := h.pumpsAlike hleaves ha hrequest halive b r
  turns _ hkeep := turnsAlike hkeep rfl

end

end Machine

/-! ### A task that panics, and a run that is pending -/

namespace Plain

open Machine

/-- The client, with tasks that do something. -/
def withTask (task : Script Plain Unit Ending) : Client Plain Unit :=
  { client with task := fun _ => task }

/-- A task that defers another one and panics. -/
def deferring : Script Plain Unit Ending :=
  .ask (.defer (.eventLoop ⟨0⟩) (.ofMillis 20) ()) fun _ => .done (.error (.literal "boom"))

/-- A task that pumps the event loop itself and panics. -/
def pumping : Script Plain Unit Ending :=
  .ask (.runUntilIdle ⟨0⟩) fun _ => .done (.error (.literal "boom"))

/-- A task has been deferred to an event loop, and then a run has been suspended there. Someone puts
a request about the loop. -/
def beforePanic (task : Script Plain Unit Ending) (r : Request Plain) : Machine Plain Unit :=
  (initial (.initial .still ()) (.ask .openLoop fun _ =>
    .ask (.defer (.eventLoop ⟨0⟩) .zero ()) fun _ =>
      .ask (.start ⟨.eventLoop ⟨0⟩, ⟨1, .zero, true⟩, .log⟩ pair.program ()) fun _ =>
        .ask r fun _ => .done (.ok ()))).run (withTask task) 16

/-- The timer of the task that panics. -/
def panicking : Timer (Task Plain) := ⟨0, 0, .client ()⟩

theorem deferring_calls : Calls (withTask deferring) ⟨0⟩
    (beforePanic deferring (.runUntilIdle ⟨0⟩)) 1 :=
  .idle (by cbv) (unanswered_of_all (by cbv)) (by cbv) (by cbv)

theorem deferring_panics : Answered (withTask deferring)
    ((beforePanic deferring (.runUntilIdle ⟨0⟩)).run (withTask deferring) 2) 6
    (.error (.literal "boom")) where
  control := by cbv
  focus := by cbv
  first := unanswered_of_all (by cbv)

/-- The run is pending when the panic has left the pump, and so is the task that was deferred. -/
theorem deferring_survives : Survives (withTask deferring) ⟨0⟩
    (beforePanic deferring (.runUntilIdle ⟨0⟩)) 1 6 panicking (.literal "boom") := by
  have hleaves : ((beforePanic deferring (.runUntilIdle ⟨0⟩)).run (withTask deferring) 1).leaves
      ⟨0⟩ = some panicking := by cbv
  exact deferring_calls.survives hleaves deferring_panics ⟨_, _, _, _, rfl⟩

theorem pumping_panics : Answered (withTask pumping)
    ((beforePanic pumping (.turn ⟨0⟩)).run (withTask pumping) 1) 17 (.error (.literal "boom")) where
  control := by cbv
  focus := by cbv
  first := unanswered_of_all (by cbv)

/-- What was pending need not be pending when the panic has left the turn: the task that panics may
have had it run. -/
theorem not_all_pending : ¬ ∀ (client : Client Plain Unit) (l : LoopId) (m : Machine Plain Unit)
    (d k : ℕ) (timer : Timer (Task Plain)) (p : Payload) (s s' : EventLoop Plain),
    m.InSession client → Calls client l m d → (m.run client d).leaves l = some timer →
    Answered client (m.run client (d + 1)) k (.error p) →
    (m.run client d).world.loop? l = some s →
    (m.run client (d + 1 + k + 2)).world.loop? l = some s' →
    (timer :: s'.queue.heap.toList).Perm
      (s.queue.heap.toList ++ (m.run client (d + 1)).accepted client l k) := by
  intro h
  have hrequest : (beforePanic pumping (.turn ⟨0⟩)).focus = .request (.turn ⟨0⟩) := by cbv
  have hbefore : ((beforePanic pumping (.turn ⟨0⟩)).run (withTask pumping) 0).world.loop? ⟨0⟩ =
      some ⟨⟨#[panicking, ⟨0, 1, between (pair.run (.initial .still ()) (.callbacks () .log)
        (.eventLoop ⟨0⟩))⟩], 2⟩, 0, 1⟩ := by cbv
  have hafter : ((beforePanic pumping (.turn ⟨0⟩)).run (withTask pumping) 20).world.loop? ⟨0⟩ =
      some ⟨⟨#[], 2⟩, 2, 1⟩ := by cbv
  have hperm := h (withTask pumping) ⟨0⟩ (beforePanic pumping (.turn ⟨0⟩)) 0 17 panicking
    (.literal "boom") _ _ ⟨_, _, _, _, rfl⟩ (.turn rfl hrequest) (by cbv) pumping_panics hbefore
    hafter
  have hlength := hperm.length_eq
  simp at hlength

end Plain

end LazyEffects
