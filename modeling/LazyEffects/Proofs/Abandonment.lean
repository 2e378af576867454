import LazyEffects.Proofs.Cuts
import LazyEffects.Proofs.Refusal

/-!
# Runs that are abandoned

A host may run some of the tasks of a run and drop the next. The run has then got as far as the budgets
of its slices go, and not further: there is no other place at which a host can cut it.

* `Machine.Cuts`: how many tasks of a run its host runs before it drops one;
* `Machine.CutAfter` and `Machine.CutOff`: where the run is cut, and what becomes of it;
* `Machine.Apart.exists_live_eq_zero`: with such a host the run is over sooner or later;
* `Machine.Apart.cutOff`: what it has done and what is reported of it, also if its evaluation does not
  end, and also at hosts that refuse tasks.
-/

namespace LazyEffects

open Deed

variable {K : Codes} {M A : Type}

namespace Machine

variable {client : Client K M} {own : M → A} {m m' : Machine K M} {ρ : Run K}
  {program : Program K.signature} {k n n' : ℕ} {a : Answer K.signature}
  {t : Trampoline K.signature}

/-! ### While no slice is under way -/

/-- Nothing of the run is under way: a task of it waits at its host, or it is over. -/
def Idle (m : Machine K M) (ρ : Run K) : Prop :=
  (∃ t, .resume ⟨ρ, t⟩ ∈ m.world.contents ρ.host) ∨ m.live ρ.id = 0

section

variable (hheld : m.held (·.isRun ρ.id) ≤ 1)

include hheld

theorem Idle.active (h : m.Idle ρ) : m.focus.active.countP (·.isRun ρ.id) = 0 := by
  rcases h with ⟨t, ht⟩ | hl
  · have hhand := inHand_of_waits hheld ht
    simp only [inHand_countP, List.countP_append] at hhand
    omega
  · rw [live, List.countP_append] at hl
    omega

theorem Idle.hands (h : m.Idle ρ) : m.focus.hands ρ.id = false := by
  have hactive := h.active hheld
  cases hf : m.focus with
  | defer host delay t =>
    rw [hf, Focus.active, List.countP_singleton] at hactive
    rw [Focus.hands]
    by_contra hne
    simp [hne] at hactive
  | _ => rfl

/-- What is done meanwhile leaves alone what the functions of the run work on. -/
theorem Idle.own_eq (h : m.Idle ρ) (hs : m.step client = some m') (hspares : m.SparesBut own ρ.id)
    (hclient : client.Spares own) : own m'.world.memory = own m.world.memory := by
  refine own_step hs (fun role f next hf => hspares role f next hf ?_) hclient
  have hactive := h.active hheld
  rwa [hf] at hactive

variable (hr : ρ.id.index < m.world.runs) (hs : m.step client = some m')

include hr hs

/-- Nothing of the run is under way until its host hands out its task. -/
theorem Idle.step (h : m.Idle ρ) : m'.Idle ρ ∨ ∃ t, m'.focus = .begin (.resume ⟨ρ, t⟩) := by
  rcases h with ⟨t, ht⟩ | hl
  · obtain ⟨x, hx⟩ := step_balances client hs
    rcases hx.contents.mem ht with hstays | rfl | ⟨ts, hts, rfl | rfl⟩
    · exact .inl (.inl ⟨t, hstays⟩)
    · exact .inr ⟨t, hx.occasion⟩
    · refine .inl (.inr (live_eq_zero hs hr hheld ?_))
      have hpos := tickets_pos_of_mem hts
      rw [doomed, hx.occasion.1, Focus.dropping]
      simp only [List.countP_append]
      omega
    · obtain ⟨⟨p, hf⟩, -⟩ := hx.occasion
      have hle := lost_of_lose hs hx hf (·.isRun ρ.id)
      have hpos := tickets_pos_of_mem hts
      exact .inl (.inr (live_eq_zero hs hr hheld (by omega)))
  · exact .inl (.inr (Nat.le_zero.1 ((step_live hs hr).trans hl.le)))

/-- Nothing of the run is under way once its task has been handed over. -/
theorem idle_of_defer {delay : Duration}
    (hf : m.focus = .defer ρ.host delay (.resume ⟨ρ, t⟩)) : m'.Idle ρ := by
  rcases (step_defer_cases hs hf).1 with hw | hdrop | ⟨-, hlost⟩
  · exact .inl ⟨t, hw⟩
  · refine .inr (live_eq_zero hs hr hheld ?_)
    rw [doomed, hdrop, Focus.dropping]
    simp [Ticket.isRun_run]
  · refine .inr (live_eq_zero hs hr hheld ?_)
    rw [hlost, List.countP_singleton, Task.ticket_resume, Ticket.isRun_run]
    simp

end

/-! ### Up to the task that is dropped -/

/-- The host of the run takes its first `k` tasks to run them and the next to drop it. -/
structure Cuts (client : Client K M) (ρ : Run K) (m : Machine K M) (k : ℕ) : Prop where
  /-- No task of the run is left lying forever, be it at the host or among those to be dropped. -/
  takes (n : ℕ) : ∃ n' ≥ n, (m.run client n').world.waiting (·.ticket.isRun ρ.id) = 0 ∧
    ((m.run client n').focus.dropping ++
      (m.run client n').control.flatMap Activity.dropped).countP (·.isRun ρ.id) = 0
  /-- None but the first `k` is run. -/
  fires {n : ℕ} {t : Trampoline K.signature} :
    (m.run client n).focus = .begin (.resume ⟨ρ, t⟩) → handed client m ρ.id n ≤ k
  /-- None of these is dropped. -/
  discards {n : ℕ} : (m.run client n).Discards ρ.id → k < handed client m ρ.id n
  /-- What is dropped is not destroyed by a panic that passes. -/
  intact (n : ℕ) : (m.run client n).lost.countP (·.isRun ρ.id) = 0

namespace Apart

section

variable (h : Apart client own ρ program m)

include h

/-- After the task that is dropped no more is handed over, and nothing of the run is under way. -/
theorem idle_of_lt (hk : Cuts client ρ m k) (hn : k < handed client m ρ.id n) :
    handed client m ρ.id n = k + 1 ∧ (m.run client n).Idle ρ := by
  induction n with
  | zero => exact absurd hn (Nat.not_lt_zero k)
  | succ n ih =>
    have hheld := h.held_le_one n
    rw [handed_succ] at hn ⊢
    by_cases hlt : k < handed client m ρ.id n
    · obtain ⟨hhanded, hidle⟩ := ih hlt
      rw [hidle.hands hheld] at hn ⊢
      refine ⟨hhanded, ?_⟩
      rw [run_succ]
      cases hs : (m.run client n).step client with
      | none => exact hidle
      | some m' =>
        refine (hidle.step hheld (h.started n) hs).resolve_right ?_
        rintro ⟨t, hf⟩
        rw [← run_succ_of_step hs] at hf
        have hle := hk.fires hf
        rw [handed_succ, hidle.hands hheld] at hle
        simp only [Bool.toNat_false] at hle hn
        omega
    · have hh : (m.run client n).focus.hands ρ.id = true := by
        by_contra hne
        rw [Bool.eq_false_of_not_eq_true hne] at hn
        exact hlt hn
      obtain ⟨t, hf, -⟩ := h.defer_of_hands hh
      obtain ⟨m', hs⟩ := exists_step client (m := m.run client n) (by simp [hf])
      rw [hh] at hn ⊢
      rw [run_succ_of_step hs]
      simp only [Bool.toNat_true] at hn ⊢
      exact ⟨by omega, idle_of_defer hheld (h.started n) hs hf⟩

/-- While nothing of the run is under way, what its functions work on stays as it is. -/
theorem own_of_idle (hidle : ∀ i ≥ n, (m.run client i).Idle ρ) (hle : n ≤ n') :
    own (m.run client n').world.memory = own (m.run client n).world.memory := by
  induction n', hle using Nat.le_induction with
  | base => rfl
  | succ n' hle ih =>
    rw [← ih, run_succ]
    cases hs : (m.run client n').step client with
    | none => rfl
    | some m' => exact (hidle n' hle).own_eq (h.held_le_one n') hs (h.spares n') h.events

/-- After the task that is dropped what the functions of the run work on stays as it is. -/
theorem own_of_lt (hk : Cuts client ρ m k) (hn : k < handed client m ρ.id n) (hle : n ≤ n') :
    own (m.run client n').world.memory = own (m.run client n).world.memory :=
  h.own_of_idle (fun _ hi => (h.idle_of_lt hk (hn.trans_le (handed_mono m hi))).2) hle

/-- No slice is over after the task that is dropped. -/
theorem handed_le_of_done (hk : Cuts client ρ m k) {t₀ : Trampoline K.signature}
    (hf : (m.run client n).focus = .script (.slice ⟨ρ, t₀⟩) (.done (a, t))) :
    handed client m ρ.id n ≤ k := by
  by_contra hlt
  have hactive := (h.idle_of_lt hk (Nat.lt_of_not_le hlt)).2.active (h.held_le_one n)
  rw [hf] at hactive
  simp [Focus.active, Ticket.isRun_run] at hactive

/-! ### Up to the report -/

/-- A slice that comes to an end is over sooner or later, and nothing is handed over until then. -/
theorem exists_done (hf : (m.run client n).focus = .resume ⟨ρ, t⟩)
    (hruns : ∃ a t' x', (Meaning.own own).Runs ((m.errand own ρ program).slice client t)
      (own (m.run client n).world.memory) (a, t') x') :
    ∃ n' ≥ n, ∃ a t', (m.run client n').focus = .script (.slice ⟨ρ, t⟩) (.done (a, t')) ∧
      handed client m ρ.id n' = handed client m ρ.id n := by
  obtain ⟨a, t', x', hr⟩ := hruns
  have hcourse := h.course_of_resume hf
  have hm : m.run client n =
      ⟨(m.run client n).world, (m.run client n).control, .resume ⟨ρ, t⟩⟩ := by rw [← hf]
  obtain ⟨memory', -, i, hi, -⟩ := Errand.gets_slice (m.run client n).control
    (show (m.errand own ρ program).config = ρ.config from rfl) rfl hr
  rw [← hm, ← run_add] at hi
  have hdone : (m.run client (n + i)).focus = .script (.slice ⟨ρ, t⟩) (.done (a, t')) := by rw [hi]
  -- The number of suspensions is the number of tasks that have been handed over.
  obtain ⟨x, hcourse', -⟩ := h.slice_of_done hdone
  obtain ⟨-, -, -, -, -, hsus, -⟩ := hcourse.evaluates h.events
  obtain ⟨-, -, -, -, -, hsus', -⟩ := hcourse'.evaluates h.events
  exact ⟨n + i, Nat.le_add_right n i, a, t', hdone, hsus'.symm.trans hsus⟩

/-- A task that waits is taken by the host, and nothing is handed over until then. -/
theorem exists_begin (hk : Cuts client ρ m k) (hidle : (m.run client n).Idle ρ) :
    ∃ n' ≥ n, (m.run client n').live ρ.id = 0 ∨
      ∃ t, (m.run client n').focus = .begin (.resume ⟨ρ, t⟩) ∧
        handed client m ρ.id n' = handed client m ρ.id n := by
  by_contra hnone
  push Not at hnone
  -- Otherwise the task would go on waiting.
  have hall (n' : ℕ) (hn : n ≤ n') :
      (m.run client n').Idle ρ ∧ handed client m ρ.id n' = handed client m ρ.id n := by
    induction n', hn using Nat.le_induction with
    | base => exact ⟨hidle, rfl⟩
    | succ n' hn ih =>
      obtain ⟨hidle', hhanded⟩ := ih
      have hhanded' : handed client m ρ.id (n' + 1) = handed client m ρ.id n := by
        rw [handed_succ, hidle'.hands (h.held_le_one n'), hhanded]
        rfl
      refine ⟨?_, hhanded'⟩
      cases hs : (m.run client n').step client with
      | none =>
        rw [run_succ, hs]
        exact hidle'
      | some m' =>
        rcases hidle'.step (h.held_le_one n') (h.started n') hs with hidle'' | ⟨t, hf⟩
        · rw [run_succ_of_step hs]
          exact hidle''
        · rw [← run_succ_of_step hs] at hf
          exact absurd hhanded' ((hnone (n' + 1) (by omega)).2 t hf)
  obtain ⟨n', hn, hwaiting, -⟩ := hk.takes n
  rcases (hall n' hn).1 with ⟨t, ht⟩ | hl
  · have hpos := World.waiting_pos (fun t => t.ticket.isRun ρ.id) ht (Ticket.isRun_run ρ)
    exact absurd hwaiting hpos.ne'
  · exact (hnone n' hn).1 hl

/-- After a slice the run is over sooner or later, or another slice is next. -/
theorem exists_resume (hk : Cuts client ρ m k) {t₀ : Trampoline K.signature}
    (hf : (m.run client n).focus = .script (.slice ⟨ρ, t₀⟩) (.done (a, t))) :
    (∃ n', (m.run client n').live ρ.id = 0) ∨
      ∃ n' t', (m.run client n').focus = .resume ⟨ρ, t'⟩ ∧
        handed client m ρ.id n' = handed client m ρ.id n + 1 ∧ handed client m ρ.id n' ≤ k := by
  by_cases ha : a = .suspended
  · subst ha
    -- What is left is handed over and waits until the host takes it.
    obtain ⟨m₁, hs₁⟩ := exists_step client (m := m.run client n) (by simp [hf])
    have hdefer : (m.run client (n + 1)).focus =
        .defer ρ.host ρ.config.resumeDelay (.resume ⟨ρ, t⟩) := by
      rw [run_succ_of_step hs₁]
      rw [step, hf] at hs₁
      cases hs₁
      rfl
    obtain ⟨m₂, hs₂⟩ := exists_step client (m := m.run client (n + 1)) (by simp [hdefer])
    have hidle := idle_of_defer (h.held_le_one _) (h.started _) hs₂ hdefer
    rw [← run_succ_of_step hs₂] at hidle
    obtain ⟨n', -, hl | ⟨t', hbegin, hhanded⟩⟩ := h.exists_begin hk hidle
    · exact .inl ⟨n', hl⟩
    · obtain ⟨m₃, hs₃⟩ := exists_step client (m := m.run client n') (by simp [hbegin])
      refine .inr ⟨n' + 1, t', ?_, ?_, ?_⟩
      · rw [run_succ_of_step hs₃]
        rw [step, hbegin] at hs₃
        cases hs₃
        rfl
      · rw [handed_succ, hbegin, hhanded, handed_succ, handed_succ, hf, hdefer]
        simp [Focus.hands, Ticket.isRun_run]
      · rw [handed_succ, hbegin]
        exact hk.fires hbegin
  · exact .inl ⟨n + 1, h.live_of_concludes ⟨⟨t₀, hf⟩, ha⟩ (Nat.lt_succ_self n)⟩

/-- If the slices up to the one whose rest is dropped come to their ends, the run is over sooner or
later. -/
theorem exists_live_eq_zero (hk : Cuts client ρ m k)
    (hruns : ∀ {i t x}, i ≤ k → (m.errand own ρ program).Course client own i t x → ∃ a t' x',
      (Meaning.own own).Runs ((m.errand own ρ program).slice client t) x (a, t') x') :
    ∃ n, (m.run client n).live ρ.id = 0 := by
  have hnext {n : ℕ} {t : Trampoline K.signature} (hf : (m.run client n).focus = .resume ⟨ρ, t⟩)
      (hn : handed client m ρ.id n ≤ k) : (∃ n', (m.run client n').live ρ.id = 0) ∨
        ∃ n' t', (m.run client n').focus = .resume ⟨ρ, t'⟩ ∧
          handed client m ρ.id n' = handed client m ρ.id n + 1 ∧ handed client m ρ.id n' ≤ k := by
    obtain ⟨n₁, -, a, t₁, hdone, hhanded⟩ := h.exists_done hf (hruns hn (h.course_of_resume hf))
    rw [← hhanded]
    exact h.exists_resume hk hdone
  -- On the number of slices that are left.
  have hall (d : ℕ) : ∀ n t, (m.run client n).focus = .resume ⟨ρ, t⟩ →
      handed client m ρ.id n + d = k → ∃ n, (m.run client n).live ρ.id = 0 := by
    induction d with
    | zero =>
      intro n t hf hd
      rcases hnext hf (by omega) with hl | ⟨n', t', -, hhanded, hle⟩
      · exact hl
      · omega
    | succ d ih =>
      intro n t hf hd
      rcases hnext hf (by omega) with hl | ⟨n', t', hf', hhanded, -⟩
      · exact hl
      · exact ih n' t' hf' (by omega)
  exact hall k 0 _ h.focus (Nat.zero_add k)

/-- A run that is over is reported once and for all, as its host drops nothing while a panic travels. -/
theorem exists_reported (hk : Cuts client ρ m k) (hl : (m.run client n).live ρ.id = 0) :
    ∃ x, ReportsOnly client m ρ.id x := by
  obtain ⟨n', hn, -, hdropping⟩ := hk.takes n
  have hl' := Nat.le_zero.1 ((h.live_le hn).trans hl.le)
  have hlost (i : ℕ) : ∑ j ∈ Finset.range i, (m.run client j).lost.countP (·.isRun ρ.id) = 0 :=
    Finset.sum_eq_zero fun j _ => hk.intact j
  -- What is held then is being reported.
  have hheld : (m.run client n').held (·.isRun ρ.id) =
      ((m.run client n').focus.reportsOf ρ.id).toList.length := by
    rw [reportsOf_length, spent_countP, held_eq, hl', doomed, List.countP_append, hdropping,
      List.countP_append]
    omega
  have hbalance := h.balances n'
  rw [hlost, hheld, Nat.add_zero, Nat.add_comm, ← List.length_append, ← reported_succ] at hbalance
  obtain ⟨x, hx⟩ := List.length_eq_one_iff.1 hbalance
  have hmem : x ∈ reported client m ρ.id (n' + 1) := by
    rw [hx]
    exact List.mem_singleton_self x
  obtain ⟨j, -, hreports⟩ := mem_reported.1 hmem
  exact ⟨x, h.session.reportsOnly hreports⟩

/-- What is reported is the end of one of the first `k + 1` slices, or the task after them has been
dropped. -/
theorem cause_of_reported (hk : Cuts client ρ m k) {x : Except RunError (K.signature.Value × Stats)}
    (hx : x ∈ reported client m ρ.id n) :
    (∃ j < n, ∃ a t, (m.run client j).Concludes ρ a t ∧ (m.run client j).outcome = some (ρ, x) ∧
      handed client m ρ.id j ≤ k) ∨
    x = .error .abandoned ∧ k < handed client m ρ.id n := by
  obtain ⟨i, hi, hreports⟩ := mem_reported.1 hx
  obtain ⟨j, rfl, ⟨a, t, hc, houtcome⟩ | ⟨rfl, hd⟩⟩ := h.reportsOf_cases hreports
  · obtain ⟨t₀, hf⟩ := hc.1
    exact .inl ⟨j, by omega, a, t, hc, houtcome, h.handed_le_of_done hk hf⟩
  · exact .inr ⟨rfl, (hk.discards hd).trans_le (handed_mono m (by omega))⟩

omit h in
/-- The move that hands over the task that is dropped. -/
theorem exists_hands (hn : k < handed client m ρ.id n) :
    ∃ N < n, (m.run client N).focus.hands ρ.id = true ∧ handed client m ρ.id N = k := by
  induction n with
  | zero => exact absurd hn (Nat.not_lt_zero k)
  | succ n ih =>
    by_cases hlt : k < handed client m ρ.id n
    · obtain ⟨N, hN, hh⟩ := ih hlt
      exact ⟨N, Nat.lt_succ_of_lt hN, hh⟩
    · rw [handed_succ] at hn
      cases hh : (m.run client n).focus.hands ρ.id with
      | false =>
        rw [hh] at hn
        exact absurd hn hlt
      | true =>
        rw [hh, Bool.toNat_true] at hn
        exact ⟨n, Nat.lt_succ_self n, hh, by omega⟩

/-- From that move on what the functions of the run work on stays as it is. -/
theorem own_of_hands (hk : Cuts client ρ m k) {N : ℕ}
    (hh : (m.run client N).focus.hands ρ.id = true) (hN : handed client m ρ.id N = k)
    (hle : N ≤ n) : own (m.run client n).world.memory = own (m.run client N).world.memory := by
  rcases hle.eq_or_lt with rfl | hlt
  · rfl
  · obtain ⟨t, hf, -⟩ := h.defer_of_hands hh
    obtain ⟨m', hs⟩ := exists_step client (m := m.run client N) (by simp [hf])
    have hsucc : handed client m ρ.id (N + 1) = k + 1 := by
      rw [handed_succ, hh, hN]
      rfl
    rw [h.own_of_lt hk (show k < handed client m ρ.id (N + 1) by omega) hlt, run_succ_of_step hs]
    exact h.events.keeps (step_defer_cases hs hf).2

/-- Once the run is over, what its functions work on stays as it is. -/
theorem own_of_live (hl : (m.run client n).live ρ.id = 0) (hle : n ≤ n') :
    own (m.run client n').world.memory = own (m.run client n).world.memory :=
  h.own_of_idle (fun _ hi => .inr (Nat.le_zero.1 ((h.live_le hi).trans hl.le))) hle

theorem own_of_concludes (hc : (m.run client n).Concludes ρ a t) (hle : n ≤ n') :
    own (m.run client n').world.memory = own (m.run client n).world.memory := by
  rcases hle.eq_or_lt with rfl | hlt
  · rfl
  · obtain ⟨⟨t₀, hf⟩, -⟩ := id hc
    obtain ⟨m', hs⟩ := exists_step client (m := m.run client n) (by simp [hf])
    rw [h.own_of_live (h.live_of_concludes hc (Nat.lt_succ_self n)) hlt, run_succ_of_step hs]
    refine own_step hs (fun role f next hf' => ?_) h.events
    rw [hf] at hf'
    cases hf'

end

end Apart

/-! ### Where a run is cut -/

/-- The run is cut when its slices have done `deeds` and made of their part of the memory `x`. -/
structure CutAfter (client : Client K M) (own : M → A) (ρ : Run K) (m : Machine K M) (k : ℕ)
    (deeds : List (Deed K.signature)) (x : A) : Prop where
  /-- What is left of the evaluation is handed over once more, after as many nodes as `k + 1` slices
  may visit. From then on no slice of the run is under way, nothing more is handed over, and the
  part of the memory stays as it is: the rest is discarded without another deed. -/
  rest : ∃ N t, (m.run client N).focus =
      .defer ρ.host ρ.config.resumeDelay (.resume ⟨ρ, t⟩) ∧ handed client m ρ.id N = k ∧
    t.stats = Stats.zero.pausing (k + 1) deeds ∧
    t.stats.steps = (k + 1) * ρ.config.stepBudget ∧
    (∀ n > N, (m.run client n).Idle ρ ∧ handed client m ρ.id n = k + 1) ∧
    ∀ n ≥ N, own (m.run client n).world.memory = x
  /-- The error handler is given one failure, and the completion callback is not called. -/
  reports : ReportsOnly client m ρ.id (.error .abandoned)

/-- What becomes of a run whose host runs `k` of its tasks and drops the next. -/
structure CutOff (client : Client K M) (own : M → A) (ρ : Run K) (program : Program K.signature)
    (m : Machine K M) (k : ℕ) : Prop where
  /-- An evaluation that visits no more nodes than `k + 1` slices may visit comes to its end. -/
  within {w : Verdict K.signature} {deeds : List (Deed K.signature)} {x : A} :
    Evaluates (.own own) client.functions 0 program.root (own m.world.memory) w deeds x →
      (visited deeds).length ≤ ρ.config.stepBudget * (k + 1) →
      ReportsOnly client m ρ.id ((program.settle w).map
        (·, Stats.zero.pausing ((visited deeds).length ⌈/⌉ ρ.config.stepBudget - 1) deeds)) ∧
      ∃ N, ∀ n ≥ N, own (m.run client n).world.memory = x
  /-- An evaluation that visits more nodes is cut before the next of them. -/
  beyond {w : Verdict K.signature} {deeds : List (Deed K.signature)} {x : A} :
    Evaluates (.own own) client.functions 0 program.root (own m.world.memory) w deeds x →
      ρ.config.stepBudget * (k + 1) < (visited deeds).length →
      ∃ l node stack rest y, deeds = l ++ visit node stack :: rest ∧
        (visited l).length = ρ.config.stepBudget * (k + 1) ∧
        Proceeds (.own own) client.functions 0 program.root (own m.world.memory) l y ∧
        CutAfter client own ρ m k l y
  /-- So is one that does not end, however far it is followed. -/
  endless {deeds : List (Deed K.signature)} {x : A} :
    Proceeds (.own own) client.functions 0 program.root (own m.world.memory) deeds x →
      ρ.config.stepBudget * (k + 1) ≤ (visited deeds).length →
      ∃ l y, l <+: deeds ∧ (visited l).length = ρ.config.stepBudget * (k + 1) ∧
        Proceeds (.own own) client.functions 0 program.root (own m.world.memory) l y ∧
        CutAfter client own ρ m k l y
  /-- Whatever the functions do, and be it to ask for something: what is reported is the outcome of
  a direct evaluation of no more nodes than `k + 1` slices may visit, or the run has been cut when
  that many nodes were visited, and nothing was done for it from then on. -/
  causes {n : ℕ} {x : Except RunError (K.signature.Value × Stats)} : x ∈ reported client m ρ.id n →
    (∃ j < n, ∃ w deeds, Evaluates (.amidst own) client.functions 0 program.root
        (own m.world.memory) w deeds (own (m.run client j).world.memory) ∧
      (visited deeds).length ≤ ρ.config.stepBudget * (k + 1) ∧ ∃ stats,
        stats.steps = (visited deeds).length ∧ x = (program.settle w).map (·, stats)) ∨
    x = .error .abandoned ∧ ∃ j < n, ∃ l, Proceeds (.amidst own) client.functions 0 program.root
        (own m.world.memory) l (own (m.run client j).world.memory) ∧
      (visited l).length = ρ.config.stepBudget * (k + 1) ∧
      ∀ n' ≥ j, own (m.run client n').world.memory = own (m.run client j).world.memory
  /-- At every moment the run is held, or it has been reported once. -/
  once (n : ℕ) :
    (m.run client n).held (·.isRun ρ.id) + (reported client m ρ.id n).length = 1
  /-- What is reported is handed to those who were named when the run was started. -/
  delivers {n : ℕ} {x : Except RunError (K.signature.Value × Stats)} :
    (m.run client n).focus.reportsOf ρ.id = some x →
      (m.run client n).Delivers client (m.run client (n + 1)) ρ x

namespace Apart

variable (h : Apart client own ρ program m)

include h

/-- An evaluation that gets beyond the slices does not come to its end in any of them. -/
theorem not_concludes_of_proceeds {l : List (Deed K.signature)} {y : A}
    (hp : Proceeds (.own own) client.functions 0 program.root (own m.world.memory) l y)
    (hl : (visited l).length = ρ.config.stepBudget * (k + 1))
    (hn : handed client m ρ.id n ≤ k) : ¬ (m.run client n).Concludes ρ a t := by
  rintro ⟨⟨t₀, hf⟩, ha⟩
  obtain ⟨x, hc, hslice⟩ := h.slice_of_done hf
  have hle : (handed client m ρ.id n + 1) * ρ.config.stepBudget ≤ (visited l).length := by
    rw [hl, Nat.mul_comm]
    exact Nat.mul_le_mul_left _ (Nat.succ_le_succ hn)
  obtain ⟨t', x', hr⟩ := hc.runs_suspended h.events hp hle
  obtain ⟨hout, -⟩ := Errand.Slice.unique hr hslice
  exact ha (congrArg Prod.fst hout)

/-- An evaluation that gets to the node after those that `k + 1` slices visit is cut there. -/
theorem cutAfter (hk : Cuts client ρ m k) {l : List (Deed K.signature)} {y : A}
    (hp : Proceeds (.own own) client.functions 0 program.root (own m.world.memory) l y)
    (hl : (visited l).length = ρ.config.stepBudget * (k + 1)) :
    CutAfter client own ρ m k l y := by
  have hruns {i : ℕ} {t : Trampoline K.signature} {x : A} (hi : i ≤ k)
      (hc : (m.errand own ρ program).Course client own i t x) : ∃ a t' x',
        (Meaning.own own).Runs ((m.errand own ρ program).slice client t) x (a, t') x' := by
    have hle : (i + 1) * ρ.config.stepBudget ≤ (visited l).length := by
      rw [hl, Nat.mul_comm]
      exact Nat.mul_le_mul_left _ (Nat.succ_le_succ hi)
    obtain ⟨t', x', hr⟩ := hc.runs_suspended h.events hp hle
    exact ⟨_, t', x', hr⟩
  obtain ⟨n₀, hlive⟩ := h.exists_live_eq_zero hk hruns
  obtain ⟨x, hreports⟩ := h.exists_reported hk hlive
  obtain ⟨N₀, hreported⟩ := hreports.eventually
  have hmem : x ∈ reported client m ρ.id N₀ := by
    rw [hreported N₀ le_rfl]
    exact List.mem_singleton_self x
  rcases h.cause_of_reported hk hmem with ⟨j, -, a, t, hc, -, hj⟩ | ⟨rfl, hlt⟩
  · exact absurd hc (h.not_concludes_of_proceeds hp hl hj)
  obtain ⟨N, -, hh, hN⟩ := exists_hands hlt
  obtain ⟨t, hf, hc⟩ := h.defer_of_hands hh
  rw [hN] at hc
  obtain ⟨hy, hstats⟩ := hc.eq_of_proceeds h.events hp (hl.trans (Nat.mul_comm _ _))
  refine ⟨⟨N, t, hf, hN, hstats, ?_, fun n hn => ?_, fun n hn => ?_⟩, hreports⟩
  · rw [hstats, Stats.pausing_steps, hl, Nat.mul_comm]
    exact Nat.zero_add _
  · have hsucc : handed client m ρ.id (N + 1) = k + 1 := by
      rw [handed_succ, hh, hN]
      rfl
    have hle : handed client m ρ.id (N + 1) ≤ handed client m ρ.id n := handed_mono m hn
    obtain ⟨hhanded, hidle⟩ := h.idle_of_lt hk (show k < handed client m ρ.id n by omega)
    exact ⟨hidle, hhanded⟩
  · rw [h.own_of_hands hk hh hN hn, hy]

/-- An evaluation that visits no more nodes than `k + 1` slices may visit comes to its end. -/
theorem concludes_of_evaluates (hb : 0 < ρ.config.stepBudget) (hk : Cuts client ρ m k)
    {w : Verdict K.signature} {deeds : List (Deed K.signature)} {x : A}
    (he : Evaluates (.own own) client.functions 0 program.root (own m.world.memory) w deeds x)
    (hle : (visited deeds).length ≤ ρ.config.stepBudget * (k + 1)) :
    ∃ j t, (m.run client j).Concludes ρ (.ofVerdict ρ.config.catchPanics w) t ∧
      t.stats = Stats.zero.pausing ((visited deeds).length ⌈/⌉ ρ.config.stepBudget - 1) deeds ∧
      ∀ n ≥ j, own (m.run client n).world.memory = x := by
  -- There are not so many tasks that one would be dropped.
  have hdiscards (j : ℕ) : ¬ (m.run client j).Discards ρ.id := by
    intro hd
    have hlt := hk.discards hd
    have hhanded := h.handed_le he hb j
    have hceil := (ceilDiv_le_iff_le_mul hb).2 hle
    omega
  obtain ⟨n₀, hlive⟩ := h.exists_live_eq_zero hk fun _ hc => hc.runs_of_evaluates h.events he
  obtain ⟨j, -, a, t, hc⟩ := h.concludes_of_over hlive fun i _ => hdiscards i
  obtain ⟨ha, hx, hstats⟩ := (h.ends_of_concludes hc).counted_of_evaluates h.events he
  have hhanded : handed client m ρ.id j =
      (visited deeds).length ⌈/⌉ ρ.config.stepBudget - 1 := by
    obtain ⟨_, _, -, -, hsteps, -, hhanded⟩ := h.ends hc
    rw [hhanded j le_rfl, ← hsteps, (h.evaluated he hc).2.1]
  rw [ha] at hc
  refine ⟨j, t, hc, by rw [hstats, hhanded], fun n hn => ?_⟩
  rw [h.own_of_concludes hc hn, hx]

theorem reportsOnly_of_evaluates (hb : 0 < ρ.config.stepBudget)
    (hcatch : ρ.config.catchPanics = true) (hk : Cuts client ρ m k) {w : Verdict K.signature}
    {deeds : List (Deed K.signature)} {x : A}
    (he : Evaluates (.own own) client.functions 0 program.root (own m.world.memory) w deeds x)
    (hle : (visited deeds).length ≤ ρ.config.stepBudget * (k + 1)) :
    ReportsOnly client m ρ.id ((program.settle w).map
        (·, Stats.zero.pausing ((visited deeds).length ⌈/⌉ ρ.config.stepBudget - 1) deeds)) ∧
      ∃ N, ∀ n ≥ N, own (m.run client n).world.memory = x := by
  obtain ⟨j, t, hc, hstats, hx⟩ := h.concludes_of_evaluates hb hk he hle
  rw [hcatch] at hc
  have hreports := h.reportsOf_of_concludes hc
  rw [hstats] at hreports
  exact ⟨h.session.reportsOnly hreports, j, hx⟩

/-- What is reported, whatever the functions of the run do. -/
theorem causes (hk : Cuts client ρ m k) {x : Except RunError (K.signature.Value × Stats)}
    (hx : x ∈ reported client m ρ.id n) :
    (∃ j < n, ∃ w deeds, Evaluates (.amidst own) client.functions 0 program.root
        (own m.world.memory) w deeds (own (m.run client j).world.memory) ∧
      (visited deeds).length ≤ ρ.config.stepBudget * (k + 1) ∧ ∃ stats,
        stats.steps = (visited deeds).length ∧ x = (program.settle w).map (·, stats)) ∨
    x = .error .abandoned ∧ ∃ j < n, ∃ l, Proceeds (.amidst own) client.functions 0 program.root
        (own m.world.memory) l (own (m.run client j).world.memory) ∧
      (visited l).length = ρ.config.stepBudget * (k + 1) ∧
      ∀ n' ≥ j, own (m.run client n').world.memory = own (m.run client j).world.memory := by
  rcases h.cause_of_reported hk hx with ⟨j, hj, a, t, hc, houtcome, hle⟩ | ⟨rfl, hlt⟩
  · obtain ⟨w, deeds, rfl, he, hsteps, -, -, hvisited⟩ := (h.ends_of_concludes hc).evaluates h.events
    refine .inl ⟨j, hj, w, deeds, he, hvisited.trans ?_, t.stats, hsteps,
      eq_settle_of_outcome hc h.result houtcome⟩
    rw [Nat.mul_comm]
    exact Nat.mul_le_mul_left _ (Nat.succ_le_succ hle)
  · obtain ⟨N, hN, hh, hhanded⟩ := exists_hands hlt
    obtain ⟨t, hf, hcourse⟩ := h.defer_of_hands hh
    rw [hhanded] at hcourse
    obtain ⟨l, hl, hp⟩ := hcourse.proceeds h.events
    exact .inr ⟨rfl, N, hN, l, hp, hl.trans (Nat.mul_comm _ _),
      fun n' hn' => h.own_of_hands hk hh hhanded hn'⟩

theorem cutOff_of_cuts (hb : 0 < ρ.config.stepBudget) (hcatch : ρ.config.catchPanics = true)
    (hk : Cuts client ρ m k) : CutOff client own ρ program m k where
  within := h.reportsOnly_of_evaluates hb hcatch hk
  beyond he hlt := by
    obtain ⟨l, node, stack, rest, y, hdeeds, hl, hp⟩ := he.proceeds hlt
    exact ⟨l, node, stack, rest, y, hdeeds, hl, hp, h.cutAfter hk hp hl⟩
  endless hp hle := by
    obtain ⟨l, y, hprefix, hl, hp'⟩ := hp.cut hle
    exact ⟨l, y, hprefix, hl, hp', h.cutAfter hk hp' hl⟩
  causes := h.causes hk
  once n := by
    have hbalance := h.balances n
    have hlost : ∑ i ∈ Finset.range n, (m.run client i).lost.countP (·.isRun ρ.id) = 0 :=
      Finset.sum_eq_zero fun j _ => hk.intact j
    omega
  delivers hx := (h.delivers hx).2

/-! ### Hosts that take nothing -/

section

variable (hcatch : ρ.config.catchPanics = true) (hr : m.world.Refuses ρ.host)

include hcatch hr

/-- A panic destroys nothing of a run that is never left at its host. -/
theorem intact_of_refuses (n : ℕ) : (m.run client n).lost.countP (·.isRun ρ.id) = 0 := by
  by_contra hlost
  have hbalance := h.balances (n + 1)
  rw [Finset.sum_range_succ] at hbalance
  have hheld : (m.run client (n + 1)).held (·.isRun ρ.id) = 0 := by omega
  have hnone : (reported client m ρ.id (n + 1)).length = 0 := by omega
  cases h.refused hr (n + 1) with
  | first _ hactive =>
    rw [held, inHand_countP] at hheld
    omega
  | dropped _ hf =>
    have hmem : .run ρ ∈ (m.run client (n + 1)).inHand := by
      rw [inHand, hf]
      exact List.mem_append_left _ (List.mem_singleton_self _)
    exact absurd hheld (held_pos_of_inHand hmem (Ticket.isRun_run ρ)).ne'
  | reporting hx =>
    exact (held_of_reports (h.delivers hx).1 _ (Ticket.isRun_run ρ)).ne' hheld
  | reported _ hone =>
    rw [hone] at hnone
    cases hnone
  | unwound _ hc => exact h.not_unwound hcatch hc

/-- A host that refuses tasks drops the first. -/
theorem cuts_of_refuses : Cuts client ρ m 0 where
  takes n := by
    have hzero (i : ℕ) (hi : (m.run client i).held (·.isRun ρ.id) = 0) :
        (m.run client i).world.waiting (·.ticket.isRun ρ.id) = 0 ∧
          ((m.run client i).focus.dropping ++
            (m.run client i).control.flatMap Activity.dropped).countP (·.isRun ρ.id) = 0 := by
      rw [held, inHand_countP] at hi
      omega
    have hreporting (i : ℕ) {x : Except RunError (K.signature.Value × Stats)}
        (hx : (m.run client i).focus.reportsOf ρ.id = some x) :
        (m.run client (i + 1)).held (·.isRun ρ.id) = 0 :=
      (h.session.held_of_mem (mem_reported.2 ⟨i, Nat.lt_succ_self i, hx⟩)).1
    cases h.refused hr n with
    | first _ hactive =>
      have hle := h.held_le_one n
      rw [held, inHand_countP] at hle
      exact ⟨n, le_rfl, by omega, by omega⟩
    | @dropped t _ hf =>
      exact ⟨n + 2, by omega, hzero _ (hreporting _ (reportsOf_of_outcome (outcome_of_drop hf)))⟩
    | reporting hx => exact ⟨n + 1, by omega, hzero _ (hreporting n hx)⟩
    | reported hheld => exact ⟨n, le_rfl, hzero n hheld⟩
    | unwound _ _ hheld => exact ⟨n, le_rfl, hzero n hheld⟩
  fires {n t} hf := by
    have hmem : .run ρ ∈ (m.run client n).inHand := by
      rw [inHand, hf]
      exact List.mem_append_left _ (List.mem_singleton_self _)
    have hheld := (held_pos_of_inHand hmem (Ticket.isRun_run ρ)).ne'
    cases h.refused hr n with
    | first hn => exact hn.le
    | dropped _ hf' =>
      rw [hf] at hf'
      cases hf'
    | reporting hx =>
      rw [hf] at hx
      cases hx
    | reported hzero => exact absurd hzero hheld
    | unwound _ _ hzero => exact absurd hzero hheld
  discards {n} hd := by
    have hdropping : (m.run client n).focus.dropping.countP (·.isRun ρ.id) ≠ 0 :=
      hd.resolve_right fun hlost => hlost.2 (h.intact_of_refuses hcatch hr n)
    have hheld : (m.run client n).held (·.isRun ρ.id) ≠ 0 := by
      simp only [held, inHand_countP, List.countP_append]
      omega
    cases h.refused hr n with
    | first _ hactive =>
      have hle := h.held_le_one n
      simp only [held, inHand_countP, List.countP_append] at hle hactive
      omega
    | dropped hn => omega
    | reporting hx =>
      cases hf : (m.run client n).focus with
      | complete | report =>
        rw [hf] at hdropping
        exact absurd rfl hdropping
      | _ =>
        rw [hf] at hx
        cases hx
    | reported hzero => exact absurd hzero hheld
    | unwound _ _ hzero => exact absurd hzero hheld
  intact := h.intact_of_refuses hcatch hr

end

/-- A run is cut between two slices and nowhere else. If its host runs `k` of its tasks and drops the
next, it comes to the end of its evaluation if `k + 1` slices may visit all nodes of it, and otherwise
it has done what is done before the next node and is reported as abandoned. A host that drops every
task does so with the first, and so does an event loop that is gone. -/
theorem cutOff (hb : 0 < ρ.config.stepBudget) (hcatch : ρ.config.catchPanics = true) :
    (∀ k, Cuts client ρ m k → CutOff client own ρ program m k) ∧
      (m.world.Refuses ρ.host → CutOff client own ρ program m 0) :=
  ⟨fun _ hk => h.cutOff_of_cuts hb hcatch hk,
    fun hr => h.cutOff_of_cuts hb hcatch (h.cuts_of_refuses hcatch hr)⟩

end Apart

theorem handed_eq_countP (m : Machine K M) (r : RunId) (n : ℕ) :
    handed client m r n = (List.range n).countP fun i => (m.run client i).focus.hands r := by
  induction n with
  | zero => rfl
  | succ n ih =>
    rw [handed_succ, List.range_succ, List.countP_append, ih, List.countP_singleton]
    cases (m.run client n).focus.hands r <;> rfl

end Machine

/-! ### An endless run -/

/-- Codes for a clock. -/
def Ticking : Codes where
  signature :=
    { Ty := Unit, typeName := fun _ => "unit", Value := Unit, typeOf := fun _ => (), Thunk := Unit,
      Transform := Empty, Continuation := Unit }
  Task := Empty
  Completion := Unit
  Handler := Empty

namespace Ticking

open Machine

/-- Tick, and then go on with the same. -/
def effect : Effect Ticking.signature := .flatMap (.sync ()) ()

/-- The ticks are counted. -/
def client : Client Ticking ℕ where
  thunk _ := .update (· + 1) fun _ => .done (.returned ())
  transform f _ := f.elim
  continuation _ _ := .done (.returned effect)
  task t := t.elim
  discard t := t.elim
  completion _ _ _ := .done (.ok ())
  handler h _ := h.elim
  observe _ memory := memory

/-- A run of the clock starts on a recording host, which runs its first task and drops the next. -/
def main : Script Ticking ℕ Ending :=
  .ask .openQueue fun _ =>
    .ask (.start ⟨.recording ⟨0⟩, ⟨3, .zero, true⟩, .log⟩ ⟨effect, ()⟩ ()) fun _ =>
      .ask (.fire ⟨0⟩ 0) fun _ => .ask (.discard ⟨0⟩ 0) fun _ => .done (.ok ())

def run : Run Ticking := .alone ⟨3, .zero, true⟩ .log ⟨effect, ()⟩ ()

/-- The run is about to begin. -/
def session : Machine Ticking ℕ := (initial (.initial .still 0) main).run client 5

/-- What is done in `n` rounds. -/
def rounds : ℕ → List (Deed Ticking.signature)
  | 0 => []
  | n + 1 => .visit effect 0 :: [.visit (.sync ()) 1, .call (.thunk ())] ++
      .call (.continuation () ()) :: rounds n

/-- The clock never stops. -/
theorem proceeds (n s : ℕ) :
    Proceeds (.own id) client.functions 0 effect s (rounds n) (s + n) := by
  induction n generalizing s with
  | zero => exact .next
  | succ n ih =>
    have htick : (Meaning.own id).Runs (client.functions.thunk ()) s (.returned ()) (s + 1) := by
      rintro memory rfl
      exact ⟨_, .update .done, rfl⟩
    have hleaf : Evaluates (.own id) client.functions (0 + 1) (.sync ()) s (.ok ())
        [.visit (.sync ()) 1, .call (.thunk ())] (s + 1) := .sync htick
    have hagain : (Meaning.own id).Runs (client.functions.continuation () ()) (s + 1)
        (.returned effect) (s + 1) := (Meaning.own id).runs_pure _ _
    have hrest := ih (s + 1)
    rw [Nat.add_assoc, Nat.add_comm 1] at hrest
    exact .continued hleaf hagain hrest

/-- The session is over after 32 moves. -/
theorem isNone_step : ((session.run client 32).step client).isNone = true := by cbv

theorem run_eq {n : ℕ} (hn : 32 ≤ n) : session.run client n = session.run client 32 :=
  run_eq_of_le (Option.isNone_iff_eq_none.1 isNone_step) hn

/-- The memory is changed, but not for the run. -/
def interferes : Focus Ticking ℕ → Bool
  | .script role (.update _ _) => role.tickets.countP (·.isRun run.id) == 0
  | _ => false

/-- A task is begun. -/
def begins : Focus Ticking ℕ → Bool
  | .begin _ => true
  | _ => false

theorem apart : Apart client id run ⟨effect, ()⟩ session where
  session := ⟨_, _, _, _, rfl⟩
  focus := rfl
  result := rfl
  events _ _ := rfl
  spares n role f next hf hrole := by
    have hn := forall_run isNone_step (fun m => !interferes m.focus) (Nat.zero_le 32) (by cbv)
      (Nat.zero_le n)
    rw [hf, interferes, hrole] at hn
    cases hn

theorem cuts : Cuts client run session 1 where
  takes n := by
    refine ⟨max n 32, le_max_left _ _, ?_⟩
    rw [run_eq (le_max_right _ _)]
    exact ⟨by cbv, by cbv⟩
  fires {n t} hf := by
    -- The only task that is run is the first.
    have hn : n ≤ 11 := by
      by_contra hlt
      have hbegin := forall_run isNone_step (fun m => !begins m.focus) (show 12 ≤ 32 by decide)
        (by cbv) (Nat.lt_of_not_le hlt)
      rw [hf] at hbegin
      cases hbegin
    have hhanded : handed client session run.id 11 = 1 := by
      rw [handed_eq_countP]
      cbv
    exact (Apart.handed_mono session hn).trans hhanded.le
  discards {n} hd := by
    have hn : 25 ≤ n := by
      by_contra hlt
      have hnone : (List.range 25).all (fun n =>
        (session.run client n).focus.dropping.countP (·.isRun run.id) == 0 &&
          (session.run client n).lost.countP (·.isRun run.id) == 0) = true := by cbv
      have hn := List.all_eq_true.1 hnone n (List.mem_range.2 (Nat.lt_of_not_le hlt))
      rw [Bool.and_eq_true, beq_iff_eq, beq_iff_eq] at hn
      rcases hd with hd | ⟨-, hd⟩
      · exact hd hn.1
      · exact hd hn.2
    have hhanded : handed client session run.id 25 = 2 := by
      rw [handed_eq_countP]
      cbv
    exact (show 1 < 2 by decide).trans_le (hhanded.ge.trans (Apart.handed_mono session hn))
  intact n := by
    simpa using forall_run isNone_step (fun m => m.lost.countP (·.isRun run.id) == 0)
      (Nat.zero_le 32) (by cbv) (Nat.zero_le n)

/-- The clock has ticked three times when six nodes have been visited, and then it is stopped. -/
theorem ticking_cutOff : Cuts client run session 1 ∧ ∃ l, l <+: rounds 3 ∧
    (visited l).length = 6 ∧ CutAfter client id run session 1 l 3 := by
  obtain ⟨hcut, -⟩ := Apart.cutOff apart (by decide) rfl
  have hp := proceeds 3 0
  rw [Nat.zero_add] at hp
  obtain ⟨l, y, hl, hvisited, -, hafter⟩ := (hcut 1 cuts).endless hp (by decide)
  obtain ⟨N, -, -, -, -, -, -, hown⟩ := hafter.rest
  have hy := hown (max N 32) (le_max_left N 32)
  rw [run_eq (le_max_right N 32)] at hy
  have hthree : (session.run client 32).world.memory = 3 := by cbv
  obtain rfl : y = 3 := hy.symm.trans hthree
  exact ⟨cuts, l, hl, hvisited, hafter⟩

end Ticking

end LazyEffects
