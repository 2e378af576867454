import LazyEffects.Proofs.Loops
import LazyEffects.Proofs.Pace
import LazyEffects.Proofs.Reports

/-!
# Hosts that take in nothing

A host that drops every task refuses what is handed to it, and so does an event loop whose last owner
is gone: it never comes back.

* `Machine.run_refuses`: such a host refuses for the rest of the session;
* `Machine.Apart.refused`: a run that begins there is over with its first slice, one way or another.
-/

namespace LazyEffects

variable {K : Codes} {M A : Type}

/-- The host refuses tasks for good: it drops all of them, or it is an event loop that is gone. -/
def World.Refuses (w : World K M) : Host → Prop
  | .eventLoop l => l.index < w.loops.size ∧ w.loop? l = none
  | .discarding => True
  | .recording _ | .worker _ => False

theorem World.contents_of_refuses {w : World K M} {host : Host} (h : w.Refuses host) :
    w.contents host = [] := by
  cases host with
  | eventLoop l => simp [contents, h.2]
  | discarding => rfl
  | recording | worker => exact h.elim

namespace Machine

variable {client : Client K M} {m m' : Machine K M} {host : Host} {t : Task K}

theorem step_refuses (h : m.world.Refuses host) (hs : m.step client = some m') :
    m'.world.Refuses host := by
  cases host with
  | eventLoop l =>
    obtain ⟨hl, hnone⟩ := h
    have hstep := step_loop (l := l) hs
    refine ⟨hl.trans_le hstep.size, ?_⟩
    -- A loop that has an owner has just been opened or had one before.
    by_contra hsome
    obtain ⟨s, hs⟩ := Option.ne_none_iff_exists'.1 hsome
    rcases hstep.loop hs with ⟨hle, -⟩ | ⟨s₀, hs₀, -⟩
    · omega
    · rw [hnone] at hs₀
      cases hs₀
  | discarding => trivial
  | recording | worker => exact h.elim

variable (client) in
theorem run_refuses (h : m.world.Refuses host) (n : ℕ) : (m.run client n).world.Refuses host := by
  induction n with
  | zero => exact h
  | succ n ih =>
    rw [run_succ]
    cases hs : (m.run client n).step client with
    | none => exact ih
    | some m' => exact step_refuses ih hs

/-- What is handed to such a host is dropped. -/
theorem step_defer_of_refuses (h : m.world.Refuses host) {delay : Duration}
    (hf : m.focus = .defer host delay t) (hs : m.step client = some m') :
    m'.focus = .drop [t] ∧ m'.control = m.control := by
  obtain ⟨w, control, focus⟩ := m
  cases hf
  cases host with
  | eventLoop l =>
    have hnone : w.loop? l = none := h.2
    rw [step_of_not_overflows (by simp [World.overflows, hnone])] at hs
    cases hs
    simp [handOver, hnone]
  | discarding =>
    cases hs
    exact ⟨rfl, rfl⟩
  | recording | worker => exact h.elim

/-! ### Runs -/

variable {own : M → A} {ρ : Run K} {program : Program K.signature} {n : ℕ}

namespace Apart

variable (h : Apart client own ρ program m)

include h

/-- A task that is handed over is what the slices have left. -/
theorem defer_of_hands (hh : (m.run client n).focus.hands ρ.id = true) :
    ∃ t, (m.run client n).focus = .defer ρ.host ρ.config.resumeDelay (.resume ⟨ρ, t⟩) ∧
      (m.errand own ρ program).Course client own (handed client m ρ.id n + 1) t
        (own (m.run client n).world.memory) := by
  cases hf : (m.run client n).focus with
  | defer host delay task =>
    rw [hf, Focus.hands] at hh
    rw [← hf]
    exact h.course_of_defer hf hh
  | _ =>
    rw [hf] at hh
    cases hh

end Apart

variable (client) in
/-- What has become of a run after `n` moves whose host refuses tasks. -/
inductive Refused (ρ : Run K) (m : Machine K M) (n : ℕ) : Prop where
  /-- Its first slice is not over. -/
  | first : handed client m ρ.id n = 0 →
    ((m.run client n).focus.active ++
      (m.run client n).control.flatMap Activity.active).countP (·.isRun ρ.id) ≠ 0 → Refused ρ m n
  /-- What the first slice has left is dropped next. -/
  | dropped {t : Trampoline K.signature} : handed client m ρ.id n = 1 →
    (m.run client n).focus = .drop [.resume ⟨ρ, t⟩] → Refused ρ m n
  | reporting {x : Except RunError (K.signature.Value × Stats)} :
    (m.run client n).focus.reportsOf ρ.id = some x → Refused ρ m n
  | reported {x : Except RunError (K.signature.Value × Stats)} :
    (m.run client n).held (·.isRun ρ.id) = 0 → reported client m ρ.id n = [x] → Refused ρ m n
  /-- A panic has left its first slice. -/
  | unwound {j : ℕ} {p : Payload} {t : Trampoline K.signature} : j < n →
    (m.run client j).Concludes ρ (.unwound p) t → (m.run client n).held (·.isRun ρ.id) = 0 →
    reported client m ρ.id n = [] → Refused ρ m n

namespace Apart

variable (h : Apart client own ρ program m) (hr : m.world.Refuses ρ.host)

include h

/-- No panic leaves a slice in which panics are stopped. -/
theorem not_unwound (hcatch : ρ.config.catchPanics = true) {p : Payload}
    {t : Trampoline K.signature} :
    ¬ (m.run client n).Concludes ρ (.unwound p) t := by
  intro hc
  obtain ⟨w, deeds, -, ha, -⟩ := h.ends hc
  rw [hcatch] at ha
  cases w with
  | ok v => cases ha
  | error c => cases c <;> cases ha

/-- Once no slice is under way any more and nothing has been handed over, the run is over. -/
theorem refused_of_concludes {a : Answer K.signature} {t : Trampoline K.signature}
    (hc : (m.run client n).Concludes ρ a t) : Refused client ρ m (n + 1) := by
  obtain ⟨⟨t₀, hf⟩, ha⟩ := id hc
  cases a with
  | suspended => exact absurd rfl ha
  | completed v => exact .reporting (reportsOf_of_outcome (by rw [outcome, hf]))
  | failed e => exact .reporting (reportsOf_of_outcome (by rw [outcome, hf]))
  | unwound p =>
    have hlost : (m.run client n).lost.countP (·.isRun ρ.id) = 1 := by
      rw [lost, hf, List.countP_singleton, Ticket.isRun_run]
      rfl
    have hbalance := h.balances (n + 1)
    rw [Finset.sum_range_succ, hlost] at hbalance
    exact .unwound (Nat.lt_succ_self n) hc (by omega) (List.eq_nil_of_length_eq_zero (by omega))

/-- While nothing has been handed over, the first slice goes on, or the run is over. -/
theorem refused_of_first (hn : handed client m ρ.id n = 0)
    (hactive : ((m.run client n).focus.active ++
      (m.run client n).control.flatMap Activity.active).countP (·.isRun ρ.id) ≠ 0)
    (hh : (m.run client n).focus.hands ρ.id = false) : Refused client ρ m (n + 1) := by
  have hzero : handed client m ρ.id (n + 1) = 0 := by
    rw [handed_succ, hn, hh]
    rfl
  by_cases hlive : ((m.run client (n + 1)).focus.active ++
      (m.run client (n + 1)).control.flatMap Activity.active).countP (·.isRun ρ.id) = 0
  · have hstands := h.stands (n + 1)
    rw [hzero] at hstands
    rw [List.countP_append] at hlive
    have hnone (hf : (m.run client (n + 1)).focus.active = [.run ρ]) : False := by
      rw [hf, List.countP_singleton, Ticket.isRun_run] at hlive
      simp at hlive
    cases hstands with
    | begun hf => rcases hf with hf | hf <;> exact (hnone (by rw [hf]; rfl)).elim
    | slice hf => exact (hnone (by rw [hf]; rfl)).elim
    | asks hf =>
      have hpos := active_pos_of_asks hf
      omega
    | handed hf => exact (hnone (by rw [hf]; rfl)).elim
    | gone hl hover =>
      rcases hover with ⟨j, hj, a, t, hc, -⟩ | ⟨hpos, -⟩
      · rcases (Nat.lt_succ_iff.1 hj).lt_or_eq with hlt | rfl
        · -- The run would have been over before.
          have hl := h.live_of_concludes hc hlt
          rw [live] at hl
          omega
        · exact h.refused_of_concludes hc
      · exact absurd hpos (lt_irrefl 0)
  · exact .first hzero hlive

include hr

/-- A run whose host refuses tasks, at every moment of the session. -/
theorem refused (n : ℕ) : Refused client ρ m n := by
  induction n with
  | zero =>
    refine .first rfl ?_
    change (m.focus.active ++ _).countP _ ≠ 0
    rw [h.focus]
    simp [Focus.active, Ticket.isRun_run]
  | succ n ih =>
    cases ih with
    | first hn hactive =>
      cases hh : (m.run client n).focus.hands ρ.id with
      | false => exact h.refused_of_first hn hactive hh
      | true =>
        obtain ⟨t, hf, -⟩ := h.defer_of_hands hh
        obtain ⟨m', hs⟩ := exists_step client (m := m.run client n) (by simp [hf])
        have hdrop := (step_defer_of_refuses (run_refuses client hr n) hf hs).1
        refine .dropped ?_ (by rw [run_succ_of_step hs, hdrop])
        rw [handed_succ, hn, hh]
        rfl
    | dropped hn hf => exact .reporting (reportsOf_of_outcome (outcome_of_drop hf))
    | reporting hx =>
      obtain ⟨hheld, hone⟩ := h.session.held_of_mem
        (mem_reported.2 ⟨n, Nat.lt_succ_self n, hx⟩)
      exact .reported hheld hone
    | @reported x hheld hone =>
      have hmem : x ∈ reported client m ρ.id (n + 1) := by
        rw [reported_succ, hone]
        simp
      obtain ⟨hheld', hone'⟩ := h.session.held_of_mem hmem
      exact .reported hheld' hone'
    | unwound hj hc hheld hnone =>
      have hbalance := h.balances n
      have hbalance' := h.balances (n + 1)
      rw [hnone, List.length_nil] at hbalance
      rw [Finset.sum_range_succ] at hbalance'
      exact .unwound (Nat.lt_succ_of_lt hj) hc (by omega)
        (List.eq_nil_of_length_eq_zero (by omega))

/-- There is no slice of it but the first. -/
theorem handed_of_refuses {t : Trampoline K.signature}
    {s : Script K M (Answer K.signature × Trampoline K.signature)}
    (hf : (m.run client n).focus = .script (.slice ⟨ρ, t⟩) s) : handed client m ρ.id n = 0 := by
  have hheld : 0 < (m.run client n).held (·.isRun ρ.id) := by
    rw [held, inHand, hf, List.countP_append, Focus.tickets, Role.tickets,
      List.countP_singleton, Ticket.isRun_run]
    simp only [if_true]
    omega
  cases h.refused hr n with
  | first hn => exact hn
  | dropped _ hf' =>
    rw [hf] at hf'
    cases hf'
  | reporting hx =>
    rw [hf] at hx
    cases hx
  | reported hzero => omega
  | unwound _ _ hzero => omega

end Apart

end Machine

end LazyEffects
