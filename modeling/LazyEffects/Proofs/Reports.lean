import LazyEffects.Proofs.Jobs
import LazyEffects.Proofs.Standing

/-!
# The reports of a run

`Machine.reported` lists what is reported of one run in the first moves of a session.

* `Machine.InSession.reportsOnly`: a run is reported once at most;
* `Machine.InSession.eq_of_held`: what is held under the number of a run is that run;
* `Machine.Apart.reportsOf_cases`: what is reported of a run is the outcome of its evaluation, or its
  host has discarded it.
-/

namespace LazyEffects

open Deed

variable {K : Codes} {M A : Type}

/-- What is being reported of the run `r`. -/
def Focus.reportsOf (r : RunId) (focus : Focus K M) :
    Option (Except RunError (K.signature.Value × Stats)) :=
  (focus.reports.filter (·.1.id = r)).map Prod.snd

namespace Machine

variable {client : Client K M} {m : Machine K M} {r : RunId} {n n' : ℕ} {ρ ρ' : Run K}
  {x : Except RunError (K.signature.Value × Stats)}

theorem reportsOf_eq_some :
    m.focus.reportsOf r = some x ↔ ∃ ρ, m.focus.reports = some (ρ, x) ∧ ρ.id = r := by
  cases h : m.focus.reports with
  | none => simp [Focus.reportsOf, h]
  | some report =>
    obtain ⟨ρ, y⟩ := report
    simp only [Focus.reportsOf, h, Option.filter_some, Option.some.injEq, Prod.mk.injEq]
    by_cases hid : ρ.id = r
    · simp [hid]
    · simp [hid]

/-- What a move finds out is reported next. -/
theorem reportsOf_of_outcome (hx : (m.run client n).outcome = some (ρ, x)) :
    (m.run client (n + 1)).focus.reportsOf ρ.id = some x :=
  reportsOf_eq_some.2 ⟨ρ, (run_reports m n).trans hx, rfl⟩

/-- A task that is dropped next. -/
theorem outcome_of_drop {t : Trampoline K.signature} {rest : List (Task K)}
    (hf : m.focus = .drop (.resume ⟨ρ, t⟩ :: rest)) : m.outcome = some (ρ, .error .abandoned) := by
  rw [outcome, hf]

/-- As far as one run is concerned, its ticket is used up by a report. -/
theorem reportsOf_length (m : Machine K M) (r : RunId) :
    (m.focus.reportsOf r).toList.length = m.spent.countP (·.isRun r) := by
  rw [spent_countP]
  cases m.focus with
  | complete ρ | report ρ =>
    by_cases hid : ρ.id = r <;> simp [Focus.reportsOf, Focus.reports, Focus.completing,
      Focus.failing, Ticket.isRun, hid]
  | _ => rfl

/-- What is reported of the run `r` before the move `n`. -/
def reported (client : Client K M) (m : Machine K M) (r : RunId) (n : ℕ) :
    List (Except RunError (K.signature.Value × Stats)) :=
  (List.range n).filterMap fun i => (m.run client i).focus.reportsOf r

theorem reported_succ (m : Machine K M) (r : RunId) (n : ℕ) : reported client m r (n + 1) =
    reported client m r n ++ ((m.run client n).focus.reportsOf r).toList := by
  rw [reported, List.range_succ, List.filterMap_append]
  cases h : (m.run client n).focus.reportsOf r <;> simp [reported, h]

theorem mem_reported : x ∈ reported client m r n ↔
    ∃ i < n, (m.run client i).focus.reportsOf r = some x := by
  simp [reported]

theorem reported_add (m : Machine K M) (r : RunId) (n n' : ℕ) : reported client m r (n + n') =
    reported client m r n ++ reported client (m.run client n) r n' := by
  induction n' with
  | zero => simp [reported]
  | succ n' ih => rw [← Nat.add_assoc, reported_succ, reported_succ, ih, run_add, List.append_assoc]

theorem reported_prefix (m : Machine K M) (r : RunId) (hn : n ≤ n') :
    reported client m r n <+: reported client m r n' := by
  obtain ⟨i, rfl⟩ := Nat.exists_eq_add_of_le hn
  rw [reported_add]
  exact List.prefix_append _ _

/-- There is one report of the run `r`, and it is `x`. -/
structure ReportsOnly (client : Client K M) (m : Machine K M) (r : RunId)
    (x : Except RunError (K.signature.Value × Stats)) : Prop where
  eventually : ∃ N, ∀ n ≥ N, reported client m r n = [x]
  always (n : ℕ) : reported client m r n = [] ∨ reported client m r n = [x]

theorem reportsOnly_of_eventually {N : ℕ} (h : ∀ n ≥ N, reported client m r n = [x]) :
    ReportsOnly client m r x where
  eventually := ⟨N, h⟩
  always n := by
    have hprefix : reported client m r n <+: _ := reported_prefix m r (le_max_left n N)
    rw [h _ (le_max_right n N), List.prefix_cons_iff] at hprefix
    rcases hprefix with hnil | ⟨l, hl, hnil⟩
    · exact .inl hnil
    · exact .inr (by rw [hl, List.prefix_nil.1 hnil])

variable (client) in
/-- The balance of a run: it is held, it has been reported or it is lost. -/
theorem run_reported (m : Machine K M) (r : RunId) (n : ℕ) :
    (m.run client n).held (·.isRun r) + ((reported client m r n).length +
      ∑ i ∈ Finset.range n, (m.run client i).lost.countP (·.isRun r)) =
    m.held (·.isRun r) + ∑ i ∈ Finset.range n, (m.run client i).issued.countP (·.isRun r) := by
  have hlength : (reported client m r n).length =
      ∑ i ∈ Finset.range n, (m.run client i).spent.countP (·.isRun r) := by
    induction n with
    | zero => rfl
    | succ n ih =>
      rw [reported_succ, List.length_append, reportsOf_length, Finset.sum_range_succ, ih]
  rw [hlength, ← Finset.sum_add_distrib]
  exact run_held client m (·.isRun r) n

namespace InSession

/-- In a session a run is reported once at most, and then it is not held any more. -/
theorem held_add_reported_le (h : m.InSession client) (r : RunId) (n : ℕ) :
    (m.run client n).held (·.isRun r) + (reported client m r n).length ≤ 1 := by
  obtain ⟨clock, memory, main, i, rfl⟩ := h
  have hbalance := run_reported client (initial (World.initial clock memory) main) r (i + n)
  have hnone : (initial (World.initial clock memory) main).held (·.isRun r) = 0 := rfl
  rw [sum_issued _ rfl, hnone, run_add, reported_add, List.length_append] at hbalance
  split at hbalance <;> omega

theorem held_of_mem (h : m.InSession client) (hx : x ∈ reported client m r n) :
    (m.run client n).held (·.isRun r) = 0 ∧ reported client m r n = [x] := by
  have hle := h.held_add_reported_le r n
  have hpos := List.length_pos_of_mem hx
  obtain ⟨y, hy⟩ := List.length_eq_one_iff.1 (show (reported client m r n).length = 1 by omega)
  rw [hy, List.mem_singleton] at hx
  exact ⟨by omega, by rw [hy, hx]⟩

/-- A report is the only one of the run, before and afterwards. -/
theorem reportsOnly (h : m.InSession client)
    (hx : (m.run client n).focus.reportsOf r = some x) : ReportsOnly client m r x := by
  have hafter (i : ℕ) (hi : n + 1 ≤ i) : reported client m r i = [x] :=
    (h.held_of_mem (mem_reported.2 ⟨n, hi, hx⟩)).2
  exact reportsOnly_of_eventually hafter

/-- What is in hand under the number of a run that is in hand is that run. -/
theorem eq_of_held (h : m.InSession client) (hρ : .run ρ ∈ m.inHand)
    (hρ' : .run ρ' ∈ (m.run client n).inHand) (hid : ρ'.id = ρ.id) : ρ' = ρ := by
  obtain ⟨clock, memory, main, i, rfl⟩ := h
  rw [← run_add] at hρ'
  -- Both have started, and a number is given once.
  obtain ⟨j, -, hj⟩ := exists_start_of_inHand _ rfl rfl hρ
  obtain ⟨j', -, hj'⟩ := exists_start_of_inHand _ rfl rfl hρ'
  exact starts_unique hj hj' hid

end InSession

/-! ### The reports of a run that begins now -/

variable {own : M → A} {program : Program K.signature} {a : Answer K.signature}
  {t : Trampoline K.signature}

/-- What a slice that is the last finds out is what the evaluation ends with. -/
theorem outcome_of_verdict {w : Verdict K.signature} (hc : m.Concludes ρ (.ofVerdict true w) t)
    (hr : ρ.result = program.result) :
    m.outcome = some (ρ, (program.settle w).map (·, t.stats)) := by
  obtain ⟨⟨t₀, hf⟩, -⟩ := hc
  rw [outcome, hf]
  cases w with
  | ok v =>
    simp only [Answer.ofVerdict, Program.settle, hr]
    split <;> rfl
  | error c => cases c <;> rfl

/-- What is reported after the last slice is what the evaluation ends with, also where panics are not
stopped. -/
theorem eq_settle_of_outcome {w : Verdict K.signature} {catching : Bool}
    (hc : m.Concludes ρ (.ofVerdict catching w) t) (hr : ρ.result = program.result)
    (hx : m.outcome = some (ρ, x)) : x = (program.settle w).map (·, t.stats) := by
  have hsame (hsame : Answer.ofVerdict catching w = .ofVerdict true w) :
      x = (program.settle w).map (·, t.stats) := by
    rw [hsame] at hc
    rw [outcome_of_verdict hc hr] at hx
    cases hx
    rfl
  cases catching with
  | true => exact hsame rfl
  | false =>
    cases w with
    | ok v => exact hsame rfl
    | error c =>
      cases c with
      | mismatched expected => exact hsame rfl
      | panicked stage p =>
        -- The panic leaves the slice, and nothing is reported.
        obtain ⟨⟨t₀, hf⟩, -⟩ := hc
        rw [outcome, hf] at hx
        cases hx

namespace Apart

theorem held_eq_one (h : Apart client own ρ program m) : m.held (·.isRun ρ.id) = 1 := by
  refine le_antisymm (h.session.held_le_one _) ?_
  rw [held, inHand, h.focus, List.countP_append, Focus.tickets, List.countP_singleton,
    Ticket.isRun_run]
  simp only [if_true]
  omega

theorem balances (h : Apart client own ρ program m) (n : ℕ) :
    (m.run client n).held (·.isRun ρ.id) + ((reported client m ρ.id n).length +
      ∑ i ∈ Finset.range n, (m.run client i).lost.countP (·.isRun ρ.id)) = 1 := by
  have hissued (i : ℕ) : (m.run client i).issued.countP (·.isRun ρ.id) = 0 :=
    issued_of_started (h.started i)
  rw [run_reported, h.held_eq_one, Finset.sum_eq_zero fun i _ => hissued i, Nat.add_zero]

/-- What is reported under the number of the run is reported of the run, to those who were named when
it was started. -/
theorem delivers (h : Apart client own ρ program m)
    (hx : (m.run client n).focus.reportsOf ρ.id = some x) :
    (m.run client n).focus.reports = some (ρ, x) ∧
      (m.run client n).Delivers client (m.run client (n + 1)) ρ x := by
  obtain ⟨ρ', hreports, hid⟩ := reportsOf_eq_some.1 hx
  have hin : .run ρ ∈ m.inHand := by
    rw [inHand, h.focus]
    simp
  obtain rfl := h.session.eq_of_held hin (inHand_of_reports hreports) hid
  exact ⟨hreports, run_delivers m n hreports⟩

/-- The last slice of the run is followed by its report, unless a panic leaves the slice. -/
theorem reportsOf_of_concludes (h : Apart client own ρ program m) {w : Verdict K.signature}
    (hc : (m.run client n).Concludes ρ (.ofVerdict true w) t) :
    (m.run client (n + 1)).focus.reportsOf ρ.id =
      some ((program.settle w).map (·, t.stats)) :=
  reportsOf_of_outcome (outcome_of_verdict hc h.result)

/-- The two causes of a report. -/
theorem reportsOf_cases (h : Apart client own ρ program m)
    (hx : (m.run client n).focus.reportsOf ρ.id = some x) : ∃ j, n = j + 1 ∧
      ((∃ a t, (m.run client j).Concludes ρ a t ∧ (m.run client j).outcome = some (ρ, x)) ∨
        (x = .error .abandoned ∧ (m.run client j).Discards ρ.id)) := by
  have hreports := (h.delivers hx).1
  cases n with
  | zero =>
    change m.focus.reports = _ at hreports
    rw [h.focus] at hreports
    cases hreports
  | succ j =>
    refine ⟨j, rfl, ?_⟩
    rw [run_reports] at hreports
    have houtcome := hreports
    rw [outcome] at hreports
    split at hreports
    · rename_i f v t hf
      obtain rfl : f.run = ρ := congrArg Prod.fst (Option.some.inj hreports)
      exact .inl ⟨_, t, ⟨⟨f.trampoline, hf⟩, by simp⟩, houtcome⟩
    · rename_i f e t hf
      obtain rfl : f.run = ρ := congrArg Prod.fst (Option.some.inj hreports)
      exact .inl ⟨_, t, ⟨⟨f.trampoline, hf⟩, by simp⟩, houtcome⟩
    · rename_i f rest hf
      cases hreports
      refine .inr ⟨rfl, .inl ?_⟩
      rw [hf]
      simp [Focus.dropping, Ticket.isRun_run]
    · cases hreports

end Apart

end Machine

end LazyEffects
