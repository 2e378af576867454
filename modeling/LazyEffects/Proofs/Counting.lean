import LazyEffects.Proofs.Afterwards
import LazyEffects.Proofs.Standing

/-!
# The demonstration of counting

The chain of `d` continuations comes to its end on every host, whatever the clock shows, and within
the moves that a demonstration is granted. What is told of it depends on nothing but `d` and the
budget of a slice.

* `Demo.within_resumed`: the slices before the last spend all of their budgets, by induction on
  their number;
* `Demo.within_counted`: the last slice completes the count;
* `Demo.session_concurs`: a worker has run its tasks when its caller learns the outcome, however the
  two threads take turns from then on;
* `Demo.Counts`: the outcome, the tasks that the host has run and the counters of the run.
-/

namespace LazyEffects

namespace Demo

open Machine Chain

section

variable {config : Config} {b : ℕ} (hb : max config.stepBudget 1 = b) (d : ℕ) {clock : Clock}
  (memory : Memory) (control : List (Activity codes Memory)) {place : Place} {k : ℕ}
  (hdue : place.ComesDue config.resumeDelay clock k)

include hb hdue

/-- When the evaluation is resumed for the `k`th time, `k` slices have spent all of their
budgets. -/
theorem within_resumed (hk : k * b < 2 * d + 2) :
    ∃ e stack, At d (k * b) e stack ∧ Within client (k * (b + 9))
      ⟨place.world clock memory 0, place.waiting 0 ++ control,
        place.resuming config (.start (counting d).root)⟩
      ⟨place.world (place.clockAt config.resumeDelay clock k) memory k, place.waiting k ++ control,
        place.resuming config ⟨some e, stack, At.counters d (k * b) k⟩⟩ := by
  induction k with
  | zero =>
    simp only [Nat.zero_mul]
    exact ⟨(counting d).root, .empty, .root, .refl _⟩
  | succ k ih =>
    have hspent := Nat.add_one_mul k b
    obtain ⟨e, stack, hat, hresumed⟩ := ih (fun j hj => hdue j (Nat.lt_succ_of_lt hj)) (by omega)
    rcases hat.descend_node config.catchPanics b k with ⟨-, e', rest, hat', hrun⟩ | ⟨hle, -⟩
    · rw [← hspent] at hat' hrun
      subst hb
      have hslice := within_slice (t := ⟨some e, stack, At.counters d _ k⟩) hrun
        (place.world (place.clockAt config.resumeDelay clock k) memory k)
        (place.waiting k ++ control) place
      refine ⟨e', rest, hat', (hresumed.trans (hslice.trans (within_suspended config _ memory k
        control _ _ place (hdue k (Nat.lt_succ_self k))))).mono ?_⟩
      rw [Nat.add_one_mul]
    · omega

/-- The last slice completes the count. -/
theorem within_counted (hk : k * b < 2 * d + 2) (hlast : 2 * d + 2 ≤ (k + 1) * b) :
    ∃ clock' t, Within client (k * (b + 9) + (2 * d + 2 - k * b + 1))
      ⟨place.world clock memory 0, place.waiting 0 ++ control,
        place.resuming config (.start (counting d).root)⟩
      ⟨place.world clock' memory k, place.waiting k ++ control,
        place.sliced config t
          (.completed (counted d), ⟨none, .empty, At.counters d (2 * d + 2) k⟩)⟩ := by
  obtain ⟨e, stack, hat, hresumed⟩ := within_resumed hb d memory control hdue hk
  have hspent := Nat.add_one_mul k b
  rcases hat.descend_node config.catchPanics b k with ⟨hlt, -⟩ | ⟨-, hrun⟩
  · omega
  · subst hb
    have hslice := within_slice (t := ⟨some e, stack, At.counters d _ k⟩) hrun
      (place.world (place.clockAt config.resumeDelay clock k) memory k)
      (place.waiting k ++ control) place
    exact ⟨_, _, hresumed.trans hslice⟩

end

/-- Slices with the budget `b` go through `n + 1` nodes: `k` of them spend all of it, and one more
comes to the end. -/
theorem exists_spent {b : ℕ} (hb : 1 ≤ b) (n : ℕ) :
    ∃ k ≤ n, k * b < n + 1 ∧ n + 1 ≤ (k + 1) * b :=
  ⟨n / b, Nat.div_le_self n b, Nat.lt_succ_of_le (Nat.div_mul_le_self n b),
    Nat.lt_mul_of_div_lt (Nat.lt_succ_self _) hb⟩

/-- A session of counting gets to the end of the last slice, and from there to its own end. -/
theorem session_counts {config : Config} (hb : 1 ≤ config.stepBudget) (d : ℕ) {place : Place}
    {clock : Clock} (draws : List Float) (hdue : place.ComesDue config.resumeDelay clock
      ((2 * d + 2) ⌈/⌉ config.stepBudget - 1)) :
    ∃ m₁ t m₂, Within client (Choice.counting d).moves
        (session place config (.counting d) clock draws) m₁ ∧
      m₁.focus.sliced = some (.completed (counted d), t) ∧
      t.stats = ⟨2 * d + 2, (2 * d + 2) ⌈/⌉ config.stepBudget - 1, d + 1⟩ ∧
      Within client (Choice.counting d).moves
        (session place config (.counting d) clock draws) m₂ ∧
      m₂.step client = none ∧ m₂.world.memory.report =
        some ⟨.ok s!"n: {d}", place.turns ((2 * d + 2) ⌈/⌉ config.stepBudget - 1)⟩ := by
  obtain ⟨k, hk, hlt, hlast⟩ := exists_spent hb (2 * d + 1)
  rw [← Errand.eq_ceilDiv_sub_one hlt hlast] at hdue ⊢
  obtain ⟨next, hstart, hend⟩ := within_session config (.counting d) clock draws place
  have hrequest := within_request config (counting d).toProgram rfl clock ⟨draws, none⟩
    [.code .body next] place
  obtain ⟨clock₁, t, hcounted⟩ := within_counted (max_eq_left hb) d ⟨draws, none⟩
    [.code .body next] hdue hlt hlast
  obtain ⟨clock₂, hsettled⟩ := within_settled config clock₁ ⟨draws, none⟩ k
    [.code .body next] t ⟨none, .empty, At.counters d (2 * d + 2) k⟩ s!"n: {d}" place
  obtain ⟨m₂, hanswered, hover, hreport⟩ := hend clock₂ k s!"n: {d}"
  have hslices := hstart.trans (hrequest.trans hcounted)
  have hmoves : k * (config.stepBudget + 9) = k * config.stepBudget + k * 9 := Nat.mul_add _ _ _
  refine ⟨_, ⟨none, .empty, At.counters d (2 * d + 2) k⟩, m₂, hslices.mono ?_,
    place.sliced_sliced config t _, ?_, (hslices.trans (hsettled.trans hanswered)).mono ?_, hover,
    hreport⟩
  · rw [hmoves, Choice.moves]
    omega
  · rw [At.counters, min_eq_right (by omega)]
  · rw [hmoves, Choice.moves]
    omega

/-- The outcome of counting arrives from a worker. From then on its thread and the one who has asked
for the outcome go on beside each other. -/
theorem session_concurs {config : Config} (hb : 1 ≤ config.stepBudget) (d : ℕ) {clock : Clock}
    (draws : List Float) (hdue : Place.worker.ComesDue config.resumeDelay clock
      ((2 * d + 2) ⌈/⌉ config.stepBudget - 1)) :
    let m := session .worker config (.counting d) clock draws
    ∃ n ≤ (Choice.counting d).moves,
      (∀ j < n, (m.run client j).world.isFilled (some ⟨0⟩) = false) ∧
      (m.run client n).world.cell ⟨0⟩ = .settled (.ok ⟨.text, s!"n: {d}"⟩) ∧
      Concurs ((2 * d + 2) ⌈/⌉ config.stepBudget - 1)
        ⟨.ok s!"n: {d}", (2 * d + 2) ⌈/⌉ config.stepBudget - 1⟩ ((m.run client n).parts ⟨0⟩) := by
  intro m
  obtain ⟨k, hk, hlt, hlast⟩ := exists_spent hb (2 * d + 1)
  rw [← Errand.eq_ceilDiv_sub_one hlt hlast] at hdue ⊢
  obtain ⟨next, next₁, next₂, f, rest, hstart, htelling⟩ :=
    within_telling config (.counting d) clock draws k s!"n: {d}"
  have hrequest := within_request config (counting d).toProgram rfl clock ⟨draws, none⟩
    [.code .body next] .worker
  obtain ⟨clock₁, t, hcounted⟩ := within_counted (max_eq_left hb) d ⟨draws, none⟩
    [.code .body next] hdue hlt hlast
  obtain ⟨j, hj, hsliced⟩ := hstart.trans (hrequest.trans hcounted)
  have hmoves : k * (config.stepBudget + 9) = k * config.stepBudget + k * 9 := Nat.mul_add _ _ _
  obtain ⟨hvacant, hcell, hconcurs⟩ := concurs_of_sliced htelling hsliced
  refine ⟨j + 2, ?_, fun i hi => ?_, hcell, hconcurs⟩
  · rw [hmoves] at hj
    rw [Choice.moves]
    omega
  · -- What is in a cell stays there.
    by_contra hfilled
    rw [Bool.not_eq_false] at hfilled
    have hlater := isFilled_run client hfilled (j + 1 - i)
    rw [← run_add, show i + (j + 1 - i) = j + 1 by omega, hvacant] at hlater
    cases hlater

/-- What counting `d` continuations comes to, if the delay comes due whenever a task is deferred. -/
structure Counts (config : Config) (d : ℕ) : Prop where
  /-- The count is shown, with the number of tasks that the host has run. -/
  reports (place : Place) (draws : List Float) :
    place.ComesDue config.resumeDelay .still ((2 * d + 2) ⌈/⌉ config.stepBudget - 1) →
    run place config draws (.counting d) =
      ⟨.ok s!"n: {d}", place.turns ((2 * d + 2) ⌈/⌉ config.stepBudget - 1)⟩
  /-- Whatever the clock shows, the session ends, with the same report. -/
  ends (place : Place) (clock : Clock) (draws : List Float) :
    place.ComesDue config.resumeDelay clock ((2 * d + 2) ⌈/⌉ config.stepBudget - 1) →
    ∃ m, Within client (Choice.counting d).moves
        (session place config (.counting d) clock draws) m ∧
      m.step client = none ∧ m.world.memory.report =
        some ⟨.ok s!"n: {d}", place.turns ((2 * d + 2) ⌈/⌉ config.stepBudget - 1)⟩
  /-- When the last slice is over, two nodes have been visited for each continuation and two more,
  and at most one frame for each continuation and one more has been pending. -/
  counters (place : Place) (clock : Clock) (draws : List Float) :
    place.ComesDue config.resumeDelay clock ((2 * d + 2) ⌈/⌉ config.stepBudget - 1) →
    ∃ m t, Within client (Choice.counting d).moves
        (session place config (.counting d) clock draws) m ∧
      m.focus.sliced = some (.completed (counted d), t) ∧
      t.stats = ⟨2 * d + 2, (2 * d + 2) ⌈/⌉ config.stepBudget - 1, d + 1⟩
  /-- A worker makes the outcome known in the middle of a task. Whatever its thread and the one who
  has waited do from then on, and in whatever order, the worker is found to have run this number of
  tasks, and this is what is reported. -/
  concurs (clock : Clock) (draws : List Float) :
    Place.worker.ComesDue config.resumeDelay clock ((2 * d + 2) ⌈/⌉ config.stepBudget - 1) →
    let m := session .worker config (.counting d) clock draws
    ∃ n ≤ (Choice.counting d).moves,
      (∀ j < n, (m.run client j).world.isFilled (some ⟨0⟩) = false) ∧
      (m.run client n).world.cell ⟨0⟩ = .settled (.ok ⟨.text, s!"n: {d}"⟩) ∧
      Concurs ((2 * d + 2) ⌈/⌉ config.stepBudget - 1)
        ⟨.ok s!"n: {d}", (2 * d + 2) ⌈/⌉ config.stepBudget - 1⟩ ((m.run client n).parts ⟨0⟩)

/-- Counting ends on every host with the count. -/
theorem counting_counts {config : Config} (h : 1 ≤ config.stepBudget) (d : ℕ) :
    Counts config d where
  reports place draws hdue := by
    obtain ⟨-, -, m, -, -, -, ⟨j, hj, rfl⟩, hover, hreport⟩ := session_counts h d draws hdue
    rw [run_eq, run_eq_of_le hover hj, hreport, Option.getD_some]
  ends place clock draws hdue := by
    obtain ⟨-, -, m, -, -, -, hm, hover, hreport⟩ := session_counts h d draws hdue
    exact ⟨m, hm, hover, hreport⟩
  counters place clock draws hdue := by
    obtain ⟨m, t, -, hm, hsliced, hstats, -⟩ := session_counts h d draws hdue
    exact ⟨m, t, hm, hsliced, hstats⟩
  concurs clock draws hdue := session_concurs h d draws hdue

/-- Three continuations make eight nodes. With a budget of 3 that is two suspensions, each of which a
worker takes up as a task, and a future without one. -/
theorem counting_counts_three : 1 ≤ 3 ∧
    run .worker ⟨3, .ofMillis 5, true⟩ [] (.counting 3) = ⟨.ok "n: 3", 2⟩ ∧
    run .async ⟨3, .ofMillis 5, true⟩ [] (.counting 3) = ⟨.ok "n: 3", 0⟩ := by
  have h : Counts ⟨3, .ofMillis 5, true⟩ 3 := counting_counts (by decide) 3
  exact ⟨by decide, h.reports .worker [] (Place.comesDue_still _ (by decide)),
    h.reports .async [] (Place.comesDue_still _ (by decide))⟩

end Demo

end LazyEffects
