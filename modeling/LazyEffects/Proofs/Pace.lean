import LazyEffects.Proofs.Independence
import LazyEffects.Proofs.Turns

/-!
# The pace of a run

Every slice of a run but the last visits as many nodes as the budget grants, and after each of them
one task is handed to the host. So the number of nodes fixes the number of tasks, wherever the run
takes place and whatever is done in between.

* `Machine.Paced`: what is handed over, what each slice visits, and where the run is at its end;
* `Machine.Apart.paced`: every run of every session keeps this pace.
-/

namespace LazyEffects

open Deed

variable {K : Codes} {M A : Type}

namespace Machine

variable {client : Client K M} {own : M → A} {m : Machine K M} {ρ : Run K}
  {program : Program K.signature} {n n' : ℕ} {a : Answer K.signature} {t : Trampoline K.signature}

/-- Where a completed run comes from. -/
theorem exists_done_of_outcome {v : K.signature.Value} {stats : Stats}
    (h : m.outcome = some (ρ, .ok (v, stats))) :
    ∃ t, m.Concludes ρ (.completed v) t ∧ t.stats = stats := by
  rw [outcome] at h
  split at h
  · rename_i f v' t hf
    split at h
    · cases h
      exact ⟨t, ⟨⟨f.trampoline, hf⟩, by simp⟩, rfl⟩
    · cases h
  · cases h
  · cases h
  · cases h

/-- The pace of a run that begins now. -/
structure Paced (client : Client K M) (own : M → A) (ρ : Run K) (program : Program K.signature)
    (m : Machine K M) : Prop where
  /-- A task of the run is handed to its host, with the delay of its configuration, and only while
  none of its tasks waits. -/
  hands {n : ℕ} {host : Host} {delay : Duration} {t : Task K} :
    (m.run client n).focus = .defer host delay t → t.ticket.isRun ρ.id →
      host = ρ.host ∧ delay = ρ.config.resumeDelay ∧
        (m.run client n).world.waiting (·.ticket.isRun ρ.id) = 0
  /-- A slice visits as many nodes as the budget grants, or it is the last and visits at least one
  and not more. -/
  slices {n : ℕ} {t t' : Trampoline K.signature} {a : Answer K.signature} :
    (m.run client n).focus = .script (.slice ⟨ρ, t⟩) (.done (a, t')) →
      (a = .suspended ∧ t'.stats.steps = t.stats.steps + ρ.config.stepBudget) ∨
        (a ≠ .suspended ∧ t.stats.steps < t'.stats.steps ∧
          t'.stats.steps ≤ t.stats.steps + ρ.config.stepBudget)
  /-- At its end, be it a value or a failure, the run has gone through a direct evaluation, and the
  nodes of the evaluation give its steps, its suspensions and all tasks that are ever handed over.
  -/
  ends {n : ℕ} {a : Answer K.signature} {t : Trampoline K.signature} :
    (m.run client n).Concludes ρ a t → ∃ w deeds,
      Evaluates (.amidst own) client.functions 0 program.root (own m.world.memory) w deeds
        (own (m.run client n).world.memory) ∧ a = .ofVerdict ρ.config.catchPanics w ∧
      t.stats.steps = (visited deeds).length ∧
      t.stats.suspensions = (visited deeds).length ⌈/⌉ ρ.config.stepBudget - 1 ∧
      ∀ n' ≥ n, handed client m ρ.id n' =
        (visited deeds).length ⌈/⌉ ρ.config.stepBudget - 1
  /-- A completion callback is given the counters that the run has at its end. -/
  completes {n : ℕ} {v : K.signature.Value} {stats : Stats} :
    (m.run client n).focus = .complete ρ v stats →
      (∃ j < n, ∃ t, (m.run client j).Concludes ρ (.completed v) t ∧ t.stats = stats) ∧
      ∀ c e, ρ.recipient = .callbacks c e →
        (m.run client (n + 1)).focus = .script .body (client.completion c v stats)
  /-- Where no task of it is discarded, the run has come to its end once nothing of it waits or is
  under way. -/
  finishes {n : ℕ} : (m.run client n).live ρ.id = 0 →
    (∀ j ≤ n, ¬ (m.run client j).Discards ρ.id) →
      ∃ j < n, ∃ a t, (m.run client j).Concludes ρ a t
  /-- A run of no more nodes than the budget grants has no task handed over. -/
  within {n : ℕ} {a : Answer K.signature} {t : Trampoline K.signature} :
    (m.run client n).Concludes ρ a t → t.stats.steps ≤ ρ.config.stepBudget →
      ∀ n', handed client m ρ.id n' = 0
  /-- When the one who has started the run is answered, a task has been handed over, or the run has
  come to its end. -/
  answered {n : ℕ} {answer : Except Payload (Reply K)} :
    (m.run client n).control = m.control → (m.run client n).focus = .answer answer →
      handed client m ρ.id n = 0 → ∃ j < n, ∃ a t, (m.run client j).Concludes ρ a t
  /-- If the functions of the run ask for nothing and work on their own part of the memory, their
  direct evaluation gives the nodes beforehand. There are never more tasks than follow from it, and
  in the end there are as many. If there are to be none, the run has come to its end when the one
  who has started it is answered. -/
  evaluated {w : Verdict K.signature} {deeds : List (Deed K.signature)} {x : A} :
    Evaluates (.own own) client.functions 0 program.root (own m.world.memory) w deeds x →
      0 < ρ.config.stepBudget →
      (∀ n, handed client m ρ.id n ≤ (visited deeds).length ⌈/⌉ ρ.config.stepBudget - 1) ∧
      (∀ n, (m.run client n).live ρ.id = 0 → (∀ j ≤ n, ¬ (m.run client j).Discards ρ.id) →
        handed client m ρ.id n = (visited deeds).length ⌈/⌉ ρ.config.stepBudget - 1) ∧
      (∀ n a t, (m.run client n).Concludes ρ a t → a = .ofVerdict ρ.config.catchPanics w ∧
        t.stats.steps = (visited deeds).length ∧ own (m.run client n).world.memory = x) ∧
      ((visited deeds).length ≤ ρ.config.stepBudget → ∀ n answer,
        (m.run client n).control = m.control → (m.run client n).focus = .answer answer →
          ∃ j < n, ∃ a t, (m.run client j).Concludes ρ a t)
  /-- An event loop that holds nothing at the beginning, and to which no other tasks are deferred,
  makes as many turns as tasks of the run are handed to it. -/
  turns {n : ℕ} {a : Answer K.signature} {t : Trampoline K.signature} {l : LoopId}
    {s₀ : EventLoop K} : (m.run client n).Concludes ρ a t → ρ.host = .eventLoop l →
      m.world.loop? l = some s₀ → s₀.queue.size = 0 →
      (∀ j delay t, (m.run client j).focus = .defer (.eventLoop l) delay t →
        t.ticket.isRun ρ.id) →
      ∀ n' ≥ n, ∀ s, (m.run client n').world.loop? l = some s → s.queue.size = 0 →
        s.turns = s₀.turns + (t.stats.steps ⌈/⌉ ρ.config.stepBudget - 1)

/-- As many nodes as a slice may visit need no second slice. -/
theorem ceilDiv_sub_one_eq_zero {N b : ℕ} (h : N ≤ b) : N ⌈/⌉ b - 1 = 0 := by
  refine Nat.sub_eq_zero_of_le ?_
  rcases Nat.eq_zero_or_pos b with rfl | hpos
  · simp
  · exact (ceilDiv_le_iff_le_mul hpos).2 (by omega)

namespace Apart

theorem live_le (h : Apart client own ρ program m) (hn : n ≤ n') :
    (m.run client n').live ρ.id ≤ (m.run client n).live ρ.id := by
  induction n', hn using Nat.le_induction with
  | base => exact le_rfl
  | succ n' _ ih =>
    rw [run_succ]
    cases hs : (m.run client n').step client with
    | none => exact ih
    | some m' => exact (step_live hs (h.started n')).trans ih

/-- After its end nothing of the run waits or is under way. -/
theorem live_of_concludes (h : Apart client own ρ program m)
    (hc : (m.run client n).Concludes ρ a t) (hn : n < n') :
    (m.run client n').live ρ.id = 0 := by
  obtain ⟨⟨t₀, hf⟩, ha⟩ := hc
  obtain ⟨m', hs⟩ := exists_step client (m := m.run client n) (by simp [hf])
  have hlive := live_of_done (h.held_le_one n) (h.started n) hs hf ha
  rw [← run_succ_of_step hs] at hlive
  exact Nat.le_zero.1 ((h.live_le hn).trans hlive.le)

/-- Of a run that is over no more tasks are handed over. -/
theorem handed_of_live (h : Apart client own ρ program m)
    (hl : (m.run client n).live ρ.id = 0) (hn : n ≤ n') :
    handed client m ρ.id n' = handed client m ρ.id n := by
  induction n', hn using Nat.le_induction with
  | base => rfl
  | succ n' hn ih =>
    have hl' := Nat.le_zero.1 ((h.live_le hn).trans hl.le)
    rw [handed_succ, hands_of_live hl', ih]
    rfl

theorem handed_mono (m : Machine K M) (hn : n ≤ n') :
    handed client m ρ.id n ≤ handed client m ρ.id n' :=
  Finset.sum_le_sum_of_subset (Finset.range_mono hn)

theorem handed_of_concludes (h : Apart client own ρ program m)
    (hc : (m.run client n).Concludes ρ a t) (hn : n ≤ n') :
    handed client m ρ.id n' = handed client m ρ.id n := by
  have hsucc : handed client m ρ.id (n + 1) = handed client m ρ.id n := by
    obtain ⟨⟨t₀, hf⟩, -⟩ := hc
    rw [handed_succ, hf]
    rfl
  rcases hn.eq_or_lt with rfl | hlt
  · rfl
  · rw [h.handed_of_live (h.live_of_concludes hc (Nat.lt_succ_self n)) hlt, hsucc]

theorem hands (h : Apart client own ρ program m) {host : Host} {delay : Duration} {t : Task K}
    (hf : (m.run client n).focus = .defer host delay t) (ht : t.ticket.isRun ρ.id) :
    host = ρ.host ∧ delay = ρ.config.resumeDelay ∧
      (m.run client n).world.waiting (·.ticket.isRun ρ.id) = 0 ∧
        ∃ t' x, (m.errand own ρ program).Course client own (handed client m ρ.id n + 1) t' x := by
  obtain ⟨t', hf', hc⟩ := h.course_of_defer hf ht
  have hheld := h.held_le_one n
  rw [hf] at hf'
  cases hf'
  rw [held, inHand, hf, List.countP_append, Focus.tickets, List.countP_singleton, ht] at hheld
  simp only [if_true] at hheld
  exact ⟨rfl, rfl, by omega, t', _, hc⟩

theorem slices (h : Apart client own ρ program m) {t t' : Trampoline K.signature}
    (hf : (m.run client n).focus = .script (.slice ⟨ρ, t⟩) (.done (a, t'))) :
    (a = .suspended ∧ t'.stats.steps = t.stats.steps + ρ.config.stepBudget) ∨
      (a ≠ .suspended ∧ t.stats.steps < t'.stats.steps ∧
        t'.stats.steps ≤ t.stats.steps + ρ.config.stepBudget) := by
  obtain ⟨x, hc, hslice⟩ := h.slice_of_done hf
  exact hc.steps_slice h.events hslice

theorem ends (h : Apart client own ρ program m) (hc : (m.run client n).Concludes ρ a t) :
    ∃ w deeds, Evaluates (.amidst own) client.functions 0 program.root (own m.world.memory) w deeds
        (own (m.run client n).world.memory) ∧ a = .ofVerdict ρ.config.catchPanics w ∧
      t.stats.steps = (visited deeds).length ∧
      t.stats.suspensions = (visited deeds).length ⌈/⌉ ρ.config.stepBudget - 1 ∧
      ∀ n' ≥ n, handed client m ρ.id n' =
        (visited deeds).length ⌈/⌉ ρ.config.stepBudget - 1 := by
  obtain ⟨w, deeds, ha, he, hsteps, hsus, hlt, hle⟩ :=
    (h.ends_of_concludes hc).evaluates h.events
  have hk := Errand.eq_ceilDiv_sub_one hlt hle
  exact ⟨w, deeds, he, ha, hsteps, hsus.trans hk,
    fun n' hn => (h.handed_of_concludes hc hn).trans hk⟩

theorem completes (h : Apart client own ρ program m) {v : K.signature.Value} {stats : Stats}
    (hf : (m.run client n).focus = .complete ρ v stats) :
    (∃ j < n, ∃ t, (m.run client j).Concludes ρ (.completed v) t ∧ t.stats = stats) ∧
      ∀ c e, ρ.recipient = .callbacks c e →
        (m.run client (n + 1)).focus = .script .body (client.completion c v stats) := by
  have hreports : (m.run client n).focus.reports = some (ρ, .ok (v, stats)) := by
    rw [hf]
    rfl
  constructor
  · cases n with
    | zero =>
      change m.focus = _ at hf
      rw [h.focus] at hf
      cases hf
    | succ n =>
      rw [run_reports] at hreports
      exact ⟨n, Nat.lt_succ_self n, exists_done_of_outcome hreports⟩
  · intro c e hrecipient
    have hdelivers := run_delivers m n hreports
    simp only [Delivers, hrecipient] at hdelivers
    exact hdelivers

/-- The tasks of a run whose evaluation is known. -/
theorem handed_le (h : Apart client own ρ program m) {w : Verdict K.signature}
    {deeds : List (Deed K.signature)} {x : A}
    (he : Evaluates (.own own) client.functions 0 program.root (own m.world.memory) w deeds x)
    (hb : 0 < ρ.config.stepBudget) (n : ℕ) :
    handed client m ρ.id n ≤ (visited deeds).length ⌈/⌉ ρ.config.stepBudget - 1 := by
  induction n with
  | zero => exact Nat.zero_le _
  | succ n ih =>
    rw [handed_succ]
    cases hh : (m.run client n).focus.hands ρ.id with
    | false => exact ih
    | true =>
      -- The slice before has been suspended, so there are nodes left for another.
      obtain ⟨host, delay, t, hf, ht⟩ : ∃ host delay t,
          (m.run client n).focus = .defer host delay t ∧ t.ticket.isRun ρ.id := by
        cases hf : (m.run client n).focus <;> rw [hf] at hh <;> first
          | exact ⟨_, _, _, rfl, hh⟩
          | cases hh
      obtain ⟨-, -, -, t', x, hc⟩ := h.hands hf ht
      have hlt := hc.mul_lt h.events he
      have hceil : handed client m ρ.id n + 1 <
          (visited deeds).length ⌈/⌉ ρ.config.stepBudget := by
        by_contra hnot
        have := (ceilDiv_le_iff_le_mul hb).1 (Nat.le_of_not_lt hnot)
        rw [Nat.mul_comm] at this
        exact absurd hlt (Nat.not_lt_of_le this)
      rw [Bool.toNat_true]
      omega

theorem evaluated (h : Apart client own ρ program m) {w : Verdict K.signature}
    {deeds : List (Deed K.signature)} {x : A}
    (he : Evaluates (.own own) client.functions 0 program.root (own m.world.memory) w deeds x)
    (hc : (m.run client n).Concludes ρ a t) :
    a = .ofVerdict ρ.config.catchPanics w ∧ t.stats.steps = (visited deeds).length ∧
      own (m.run client n).world.memory = x := by
  obtain ⟨ha, hx, hsteps⟩ := (h.ends_of_concludes hc).of_evaluates h.events he
  exact ⟨ha, hsteps, hx⟩

/-- Of a run that is not over later no task is lost for want of a due time. -/
theorem fits_of_live (h : Apart client own ρ program m) {host : Host} {delay : Duration}
    {task : Task K} (hf : (m.run client n).focus = .defer host delay task)
    (ht : task.ticket.isRun ρ.id) (hn : n < n') (hl : (m.run client n').live ρ.id ≠ 0) :
    (m.run client n).world.overflows host delay = false := by
  by_contra ho
  rw [Bool.not_eq_false] at ho
  have hlost : (m.run client n).lost = [task.ticket] := by
    rw [lost, hf]
    exact if_pos ho
  obtain ⟨m', hs⟩ := exists_step client (m := m.run client n) (by simp [hf])
  have hlive : m'.live ρ.id = 0 := by
    refine live_eq_zero hs (h.started n) (h.held_le_one n) ?_
    rw [hlost, List.countP_singleton, ht]
    simp
  rw [← run_succ_of_step hs] at hlive
  exact hl (Nat.le_zero.1 ((h.live_le hn).trans hlive.le))

/-- Of a run that comes to its end no task is lost for want of a due time. -/
theorem fits_of_concludes (h : Apart client own ρ program m)
    (hc : (m.run client n).Concludes ρ a t) {j : ℕ} {host : Host} {delay : Duration} {task : Task K}
    (hf : (m.run client j).focus = .defer host delay task) (ht : task.ticket.isRun ρ.id) :
    (m.run client j).world.overflows host delay = false := by
  obtain ⟨⟨t₀, hf'⟩, -⟩ := id hc
  rcases Nat.lt_trichotomy j n with hlt | rfl | hgt
  · refine h.fits_of_live hf ht hlt ?_
    rw [live, hf', List.countP_append]
    simp [Focus.active, Ticket.isRun_run]
  · rw [hf] at hf'
    cases hf'
  · -- After its end nothing of the run is handed over.
    have hhands := hands_of_live (h.live_of_concludes hc hgt)
    rw [hf, Focus.hands, ht] at hhands
    cases hhands

/-- An event loop that is given tasks of one run only, which comes to its end, is given as many as
that run hands over. -/
theorem deferrals_eq (h : Apart client own ρ program m) {l : LoopId} (hhost : ρ.host = .eventLoop l)
    (halone : ∀ j delay t, (m.run client j).focus = .defer (.eventLoop l) delay t →
      t.ticket.isRun ρ.id)
    (hfits : ∀ j delay t, (m.run client j).focus = .defer (.eventLoop l) delay t →
      (m.run client j).world.overflows (.eventLoop l) delay = false) (n : ℕ) :
    deferrals client m (.eventLoop l) n = handed client m ρ.id n := by
  refine Finset.sum_congr rfl fun j _ => congrArg Bool.toNat ?_
  cases hf : (m.run client j).focus with
  | defer host delay t =>
    rw [defersTo, hf, Focus.hands]
    by_cases hh : host = .eventLoop l
    · subst hh
      simp [halone j delay t hf, hfits j delay t hf]
    · cases ht : t.ticket.isRun ρ.id with
      | false => simp [hh]
      | true =>
        obtain ⟨hhost', -⟩ := h.hands hf ht
        exact absurd (hhost'.trans hhost) hh
  | _ => simp [defersTo, hf, Focus.hands]

theorem turns (h : Apart client own ρ program m) {l : LoopId} {s₀ s : EventLoop K}
    (hc : (m.run client n).Concludes ρ a t) (hhost : ρ.host = .eventLoop l)
    (hs₀ : m.world.loop? l = some s₀) (hidle₀ : s₀.queue.size = 0)
    (halone : ∀ j delay t, (m.run client j).focus = .defer (.eventLoop l) delay t →
      t.ticket.isRun ρ.id) (hn : n ≤ n') (hs : (m.run client n').world.loop? l = some s)
    (hidle : s.queue.size = 0) :
    s.turns = s₀.turns + (t.stats.steps ⌈/⌉ ρ.config.stepBudget - 1) := by
  obtain ⟨w, deeds, -, -, hsteps, -, hhanded⟩ := h.ends hc
  have hin : l.index < m.world.loops.size :=
    (Array.getElem?_eq_some_iff.1 (World.loop?_eq_some hs₀).1).1
  have htally : (m.run client n').world.tally l = some (s.turns + s.queue.size) := by
    rw [World.tally, hs]
    rfl
  obtain ⟨v, hv, hsum⟩ := (run_tally client l m n').tally hin htally
  rw [World.tally, hs₀] at hv
  obtain rfl : s₀.turns + s₀.queue.size = v := Option.some.inj hv
  have hfits (j : ℕ) (delay : Duration) (t : Task K)
      (hf : (m.run client j).focus = .defer (.eventLoop l) delay t) :=
    h.fits_of_concludes hc hf (halone j delay t hf)
  rw [h.deferrals_eq hhost halone hfits, hhanded n' hn, ← hsteps] at hsum
  omega

theorem within (h : Apart client own ρ program m) (hc : (m.run client n).Concludes ρ a t)
    (hb : t.stats.steps ≤ ρ.config.stepBudget) (n' : ℕ) : handed client m ρ.id n' = 0 := by
  obtain ⟨w, deeds, -, -, hsteps, -, hhanded⟩ := h.ends hc
  have hmax := hhanded (max n n') (le_max_left n n')
  rw [ceilDiv_sub_one_eq_zero (hsteps ▸ hb)] at hmax
  exact Nat.le_zero.1 ((handed_mono m (le_max_right n n')).trans hmax.le)

/-- A run begins in the hands of the one who starts it. -/
theorem tickets_control (h : Apart client own ρ program m) :
    (m.control.flatMap Activity.tickets).countP (·.isRun ρ.id) = 0 := by
  have hheld := h.held_le_one 0
  change m.held _ ≤ 1 at hheld
  rw [held, inHand, h.focus, List.countP_append, Focus.tickets, List.countP_singleton,
    Ticket.isRun_run] at hheld
  simp only [if_true] at hheld
  omega

theorem answered (h : Apart client own ρ program m) {answer : Except Payload (Reply K)}
    (hcontrol : (m.run client n).control = m.control)
    (hf : (m.run client n).focus = .answer answer) (hnone : handed client m ρ.id n = 0) :
    ∃ j < n, ∃ a t, (m.run client j).Concludes ρ a t := by
  have hstands := h.stands n
  rw [hnone] at hstands
  cases hstands with
  | begun hf' => rcases hf' with hf' | hf' <;> rw [hf] at hf' <;> cases hf'
  | slice hf' =>
    rw [hf] at hf'
    cases hf'
  | asks hmem =>
    -- Whoever is answered does not have the run.
    rw [hcontrol] at hmem
    exact absurd h.tickets_control (tickets_pos_of_asks hmem).ne'
  | handed hf' =>
    rw [hf] at hf'
    cases hf'
  | gone _ ho =>
    rcases ho with ⟨j, hj, a, t, hc, -⟩ | ⟨hpos, -⟩
    · exact ⟨j, hj, a, t, hc⟩
    · exact absurd hpos (lt_irrefl 0)

/-- Every run keeps its pace, whatever its functions do and wherever it takes place, as long as what
is done for others leaves alone the part of the memory on which the functions work. If that part is
empty, this asks nothing of the others. -/
theorem paced (h : Apart client own ρ program m) : Paced client own ρ program m where
  hands hf ht := by
    obtain ⟨hhost, hdelay, hwaiting, -⟩ := h.hands hf ht
    exact ⟨hhost, hdelay, hwaiting⟩
  slices := h.slices
  ends := h.ends
  completes := h.completes
  finishes := h.concludes_of_over
  evaluated he hb := by
    refine ⟨h.handed_le he hb, fun n hl hd => ?_, fun n a t hc => h.evaluated he hc,
      fun hN n answer hcontrol hf => h.answered hcontrol hf ?_⟩
    · obtain ⟨j, hj, a, t, hc⟩ := h.concludes_of_over hl hd
      obtain ⟨w, deeds', -, -, hsteps, -, hhanded⟩ := h.ends hc
      obtain ⟨-, hsteps', -⟩ := h.evaluated he hc
      rw [hhanded n hj.le, ← hsteps, hsteps']
    · exact Nat.le_zero.1 ((h.handed_le he hb n).trans (ceilDiv_sub_one_eq_zero hN).le)
  turns hc hhost hs₀ hidle₀ halone n' hn s hs hidle :=
    h.turns hc hhost hs₀ hidle₀ halone hn hs hidle
  within := h.within
  answered := h.answered

end Apart

end Machine

/-! ### The first of two runs -/

namespace Twins

open Machine

/-- The direct evaluation of the first run. -/
theorem evaluates_first : Evaluates (.own Prod.fst) client.functions 0 (program true).root []
    (.ok ()) [.visit (.map (.sync true) true) 0, .visit (.sync true) 1, .call (.thunk true),
      .call (.transform true ())] ["leaf", "stage"] := by
  have hleaf : (Meaning.own Prod.fst).Runs (client.functions.thunk true) [] (.returned ())
      ["leaf"] := runs_log "leaf" []
  have hstage : (Meaning.own Prod.fst).Runs (client.functions.transform true ()) ["leaf"]
      (.returned ()) ["leaf", "stage"] := runs_log "stage" ["leaf"]
  exact .map (.sync hleaf) hstage

theorem first_paced : (∀ n, handed client overtaken first.id n ≤ 1) ∧
    handed client overtaken first.id 37 = 1 ∧
    ∀ n a t, (overtaken.run client n).Concludes first a t → a = .completed () ∧
      t.stats.steps = 2 ∧ (overtaken.run client n).world.memory.1 = ["leaf", "stage"] := by
  have hpaced := Machine.Apart.paced apart_overtaken
  obtain ⟨hle, hlast, hend, -⟩ := hpaced.evaluated evaluates_first Nat.one_pos
  obtain ⟨hlive, hdiscards⟩ := over_overtaken
  exact ⟨hle, hlast 37 hlive hdiscards, hend⟩

end Twins

end LazyEffects
