import LazyEffects.Proofs.Ledger
import Mathlib.Algebra.BigOperators.Intervals

/-!
# What becomes of a run

A run that has been started is reported once, or it waits at one host, or it is in the hands of the
machine, or it was lost to a panic; and it is only one of these (`Machine.Account`). This holds at
every moment of every session, whatever its client does and whichever hosts it uses.

* `Machine.step_reports`: what a move makes the machine report, and when;
* `Machine.account_total`: the conditions of a run add up to one from its start on.
-/

namespace LazyEffects

variable {K : Codes} {M : Type}

/-! ### Reports -/

/-- The report that is being made, if one is: the run and its result with the counters, or its
failure. -/
def Focus.reports : Focus K M → Option (Run K × Except RunError (K.signature.Value × Stats))
  | complete run v stats => some (run, .ok (v, stats))
  | report run e => some (run, .error e)
  | _ => none

namespace Machine

/-- What the next move finds out about a run: a slice ends with a value of the declared type or of
another one, or it fails, or the rest of the run is dropped. -/
def outcome (m : Machine K M) : Option (Run K × Except RunError (K.signature.Value × Stats)) :=
  match m.focus with
  | .script (.slice f) (.done (.completed v, t)) =>
    some (f.run, if K.signature.typeOf v = f.run.result then .ok (v, t.stats)
      else .error (.typeMismatch (K.signature.typeName f.run.result)))
  | .script (.slice f) (.done (.failed e, _)) => some (f.run, .error e)
  | .drop (.resume f :: _) => some (f.run, .error .abandoned)
  | _ => none

variable {client : Client K M} {m m' : Machine K M}

theorem finish_reports (w : World K M) (control : List (Activity K M)) (role : Role K)
    (x : role.Ending) : (finish client ⟨w, control, .script role (.done x)⟩ role x).focus.reports =
      outcome ⟨w, control, .script role (.done x)⟩ := by
  cases role with
  | body => cases x <;> rfl
  | slice f =>
    obtain ⟨a, t⟩ := x
    cases a with
    | suspended => rfl
    | completed v =>
      simp only [finish, afterSlice, outcome, go_focus]
      split <;> rfl
    | failed e => rfl
    | unwound p => rfl
  | bare => rfl
  | poll f =>
    obtain ⟨a, t⟩ := x
    cases a <;> rfl

theorem perform_reports (m : Machine K M) (r : Request K) :
    (m.perform client r).focus.reports = none := by
  cases r <;> simp only [perform] <;> (try split) <;> rfl

theorem returnTo_reports (m : Machine K M) (r : Reply K) (activity : Activity K M) :
    (m.returnTo client r activity).focus.reports = none := by
  cases activity <;> simp only [returnTo] <;> (try split) <;> rfl

theorem work_reports (m : Machine K M) (i : WorkerId) (wanted : Option CellId) :
    (m.work client i wanted).focus.reports = none := by
  rw [work]
  split
  · rfl
  · split
    · rfl
    · simp only
      split
      · rfl
      · split
        · split <;> rfl
        · split <;> rfl

/-- A report follows upon its cause, and nothing else leads to one. -/
theorem step_reports (h : m.step client = some m') : m'.focus.reports = m.outcome := by
  induction h using step_induction with
  | finish w control role x => exact finish_reports w control role x
  | update w control role => cases role <;> rfl
  | ask w control role => cases role <;> rfl
  | request w control r => exact perform_reports _ r
  | returned w control activity r => exact returnTo_reports _ r activity
  | panicked w control activity => cases activity <;> rfl
  | begin w control t => cases t <;> rfl
  | complete =>
    simp only [complete]
    split <;> rfl
  | report =>
    simp only [report]
    split <;> rfl
  | handOver w control host => cases host <;> simp only [handOver] <;> (try split) <;> rfl
  | drop w control ts =>
    cases ts with
    | nil => rfl
    | cons t rest => cases t <;> rfl
  | pump =>
    simp only [pump]
    split
    · rfl
    · split <;> rfl
  | work w control i wanted => exact work_reports _ i wanted
  | resume | poll | overflow => rfl

/-! ### A whole session -/

/-- The next move of a session that is over changes nothing. -/
theorem run_succ (m : Machine K M) (n : ℕ) :
    m.run client (n + 1) = ((m.run client n).step client).getD (m.run client n) := by
  induction n generalizing m with
  | zero =>
    rw [run]
    cases hs : m.step client with
    | none => simp [run, hs]
    | some m' => simp [run, hs]
  | succ n ih =>
    rw [run]
    cases hs : m.step client with
    | none =>
      have hrun : m.run client (n + 1) = m := by rw [run, hs]
      simp [hrun, hs]
    | some m' =>
      have hrun : m.run client (n + 1) = m'.run client n := by rw [run, hs]
      simp only [ih m', hrun]

theorem run_succ_of_step {n : ℕ} (hs : (m.run client n).step client = some m') :
    m.run client (n + 1) = m' := by
  rw [run_succ, hs, Option.getD_some]

/-- A session is over when nothing waits for the answer. -/
theorem step_eq_none (h : m.step client = none) :
    m.control = [] ∧ ∃ a, m.focus = .answer a := by
  obtain ⟨w, control, focus⟩ := m
  cases focus with
  | script role s => cases s <;> cases h
  | answer a =>
    cases control with
    | nil => exact ⟨rfl, a, rfl⟩
    | cons activity control => cases a <;> cases h
  | request | resume | begin | complete | report | defer | drop | pump | poll | work => cases h

variable (client) in
/-- Whatever is being done is followed by a move, unless it is over. -/
theorem exists_step (h : ∀ a, m.focus ≠ .answer a) : ∃ m', m.step client = some m' := by
  by_contra hnone
  obtain ⟨-, a, hf⟩ := step_eq_none (Option.eq_none_iff_forall_ne_some.2 (not_exists.1 hnone))
  exact h a hf

/-- The tickets with the given property that wait at the hosts or are in hand. -/
def held (m : Machine K M) (key : Ticket K → Bool) : ℕ :=
  m.inHand.countP key + m.world.waiting fun t => key t.ticket

/-- A ticket in hand is held. -/
theorem held_pos_of_inHand {t : Ticket K} (ht : t ∈ m.inHand) {key : Ticket K → Bool}
    (hkey : key t = true) : 0 < m.held key :=
  Nat.add_pos_left (List.countP_pos_iff.2 ⟨t, ht, hkey⟩) _

/-- The balance of a move over all hosts. -/
theorem step_held (h : m.step client = some m') (key : Ticket K → Bool) :
    m'.held key + (m.spent.countP key + m.lost.countP key) = m.held key + m.issued.countP key := by
  obtain ⟨x, hx⟩ := step_balances client h
  have hw := hx.contents.waiting fun t => key t.ticket
  have hi := hx.inHand key
  simp only [List.countP_map, Function.comp_def] at hi
  unfold held
  omega

variable (client) in
/-- The balance of a session. -/
theorem run_held (m : Machine K M) (key : Ticket K → Bool) (n : ℕ) :
    (m.run client n).held key + ∑ i ∈ Finset.range n,
        ((m.run client i).spent.countP key + (m.run client i).lost.countP key) =
      m.held key + ∑ i ∈ Finset.range n, (m.run client i).issued.countP key := by
  induction n with
  | zero => rfl
  | succ n ih =>
    rw [Finset.sum_range_succ, Finset.sum_range_succ, run_succ]
    cases hs : (m.run client n).step client with
    | none =>
      -- The session is over, and from then on nothing is issued, used up or lost.
      obtain ⟨hc, a, hf⟩ := step_eq_none hs
      have hsp : (m.run client n).spent = [] := by rw [spent, hf]
      have hl : (m.run client n).lost = [] := by cases a <;> simp [hf, hc]
      have hi : (m.run client n).issued = [] := by rw [issued, hf]
      rw [hsp, hl, hi]
      simpa using ih
    | some m' =>
      have hm := step_held hs key
      simp only [Option.getD_some]
      omega

end Machine

/-! ### The conditions of a run -/

/-- The ticket is that of the run with the given number. -/
def Ticket.isRun (r : RunId) : Ticket K → Bool
  | run ρ => ρ.id = r
  | client _ | signal _ => false

/-- The run whose result is being handed over. -/
def Focus.completing : Focus K M → List (Ticket K)
  | complete run _ _ => [.run run]
  | _ => []

/-- The run whose failure is being handed over. -/
def Focus.failing : Focus K M → List (Ticket K)
  | report run _ => [.run run]
  | _ => []

/-- Tasks that are being dropped. -/
def Focus.dropping : Focus K M → List (Ticket K)
  | drop ts => ts.map Task.ticket
  | _ => []

/-- What is being run: from the moment at which it is handed out until it is over or handed over to
a host. -/
def Focus.active : Focus K M → List (Ticket K)
  | script role _ => role.tickets
  | resume f => [.run f.run]
  | begin t => [t.ticket]
  | defer _ _ t => [t.ticket]
  | _ => []

/-- Tasks that are going to be dropped. -/
def Activity.dropped : Activity K M → List (Ticket K)
  | dropping rest => rest.map Task.ticket
  | _ => []

/-- What is being run in client code that has put a request. -/
def Activity.active : Activity K M → List (Ticket K)
  | code role _ => role.tickets
  | _ => []

/-- What has become of a run: how often it is in each of the conditions that there are. -/
structure Account where
  /-- Its completion callback has been called. -/
  completed : ℕ
  /-- Its error handler has been called. -/
  failed : ℕ
  /-- A task that waits at a host owns it. -/
  waiting : ℕ
  /-- A task that a host has given up owns it, and is about to be dropped. -/
  dropping : ℕ
  /-- It is being run. -/
  active : ℕ
  /-- A panic has destroyed it. -/
  lost : ℕ

/-- The number of conditions that hold. -/
def Account.total (a : Account) : ℕ :=
  a.completed + a.failed + a.waiting + a.dropping + a.active + a.lost

namespace Machine

/-- What has become of the run `r` after `n` moves of a session. -/
def account (client : Client K M) (m : Machine K M) (n : ℕ) (r : RunId) : Account where
  completed := ∑ i ∈ Finset.range (n + 1), (m.run client i).focus.completing.countP (·.isRun r)
  failed := ∑ i ∈ Finset.range (n + 1), (m.run client i).focus.failing.countP (·.isRun r)
  waiting := (m.run client n).world.waiting (·.ticket.isRun r)
  dropping := ((m.run client n).focus.dropping ++
    (m.run client n).control.flatMap Activity.dropped).countP (·.isRun r)
  active := ((m.run client n).focus.active ++
    (m.run client n).control.flatMap Activity.active).countP (·.isRun r)
  lost := ∑ i ∈ Finset.range n, (m.run client i).lost.countP (·.isRun r)

variable {client : Client K M} {m m' : Machine K M}

/-- The tickets in hand by condition. -/
theorem inHand_countP (m : Machine K M) (key : Ticket K → Bool) :
    m.inHand.countP key = m.focus.completing.countP key + m.focus.failing.countP key +
      (m.focus.dropping ++ m.control.flatMap Activity.dropped).countP key +
      (m.focus.active ++ m.control.flatMap Activity.active).countP key := by
  have hfocus : m.focus.tickets.countP key = m.focus.completing.countP key +
      m.focus.failing.countP key + m.focus.dropping.countP key + m.focus.active.countP key := by
    cases m.focus <;> simp [Focus.completing, Focus.failing, Focus.dropping, Focus.active]
  have hcontrol : (m.control.flatMap Activity.tickets).countP key =
      (m.control.flatMap Activity.dropped).countP key +
        (m.control.flatMap Activity.active).countP key := by
    induction m.control with
    | nil => rfl
    | cons activity control ih =>
      have ha : activity.tickets.countP key =
          activity.dropped.countP key + activity.active.countP key := by
        cases activity <;> simp [Activity.dropped, Activity.active]
      simp only [List.flatMap_cons, List.countP_append, ih, ha]
      omega
  simp only [inHand, List.countP_append, hfocus, hcontrol]
  omega

/-- As far as runs are concerned, tickets are used up by reports. -/
theorem spent_countP (m : Machine K M) (r : RunId) :
    m.spent.countP (·.isRun r) =
      m.focus.completing.countP (·.isRun r) + m.focus.failing.countP (·.isRun r) := by
  obtain ⟨w, control, focus⟩ := m
  cases focus with
  | begin t => cases t <;> simp [Focus.completing, Focus.failing, Ticket.isRun]
  | drop ts =>
    cases ts with
    | nil => rfl
    | cons t rest => cases t <;> simp [Focus.completing, Focus.failing, Ticket.isRun]
  | _ => simp [Focus.completing, Focus.failing]

/-- At most one run starts in a move, and it has the next number. -/
theorem starts_cases (m : Machine K M) :
    m.starts = [] ∨ ∃ ρ, m.starts = [ρ] ∧ ρ.id = ⟨m.world.runs⟩ := by
  obtain ⟨w, control, focus⟩ := m
  cases focus with
  | request r =>
    cases r with
    | start | blockOn | blockOnWorker => exact .inr ⟨_, rfl, rfl⟩
    | _ => exact .inl rfl
  | _ => exact .inl rfl

/-- As far as runs are concerned, tickets are issued as runs start. -/
theorem issued_countP (m : Machine K M) (r : RunId) :
    m.issued.countP (·.isRun r) = m.starts.countP (fun ρ => ρ.id = r) := by
  obtain ⟨w, control, focus⟩ := m
  cases focus with
  | request x => cases x <;> simp [Ticket.isRun]
  | _ => rfl

theorem mem_starts_of_issued {run : Run K} (h : .run run ∈ m.issued) : run ∈ m.starts := by
  obtain ⟨w, control, focus⟩ := m
  cases focus with
  | request x =>
    cases x with
    | start | blockOn | blockOnWorker => simpa using h
    | _ => simp at h
  | _ => simp at h

theorem run_runs (m : Machine K M) (n : ℕ) :
    (m.run client (n + 1)).world.runs =
      (m.run client n).world.runs + (m.run client n).starts.length := by
  rw [run_succ]
  cases hs : (m.run client n).step client with
  | none =>
    obtain ⟨-, a, hf⟩ := step_eq_none hs
    simp [hf]
  | some m' => exact (step_frames hs).runs

variable (client) in
theorem runs_mono (m : Machine K M) : Monotone fun n => (m.run client n).world.runs :=
  monotone_nat_of_le_succ fun n => by
    rw [run_runs]
    exact Nat.le_add_right _ _

/-- A run has been given its number at one moment only. -/
theorem starts_unique {m : Machine K M} {i j : ℕ} {run run' : Run K}
    (h : run ∈ (m.run client i).starts) (h' : run' ∈ (m.run client j).starts)
    (hid : run'.id = run.id) : run' = run := by
  -- Between the starts of two runs the number of runs grows.
  have hlt {i j : ℕ} {run run' : Run K} (h : run ∈ (m.run client i).starts)
      (h' : run' ∈ (m.run client j).starts) (hij : i < j) : run'.id ≠ run.id := by
    rcases (m.run client i).starts_cases with hs | ⟨ρ, hs, hρ⟩
    · rw [hs] at h
      cases h
    rcases (m.run client j).starts_cases with hs' | ⟨ρ', hs', hρ'⟩
    · rw [hs'] at h'
      cases h'
    have hle := runs_mono client m hij
    simp only [Nat.succ_eq_add_one, run_runs, hs, List.length_singleton] at hle
    rw [hs, List.mem_singleton] at h
    rw [hs', List.mem_singleton] at h'
    rw [h, h', hρ, hρ']
    intro he
    have := congrArg RunId.index he
    simp only at this
    omega
  rcases lt_trichotomy i j with hij | rfl | hij
  · exact absurd hid (hlt h h' hij)
  · rcases (m.run client i).starts_cases with hs | ⟨ρ, hs, -⟩
    · rw [hs] at h
      cases h
    · rw [hs, List.mem_singleton] at h h'
      rw [h, h']
  · exact absurd hid.symm (hlt h' h hij)

/-- Every number below the number of runs has been given once. -/
theorem sum_issued (m : Machine K M) (hm : m.world.runs = 0) (n : ℕ) (r : RunId) :
    ∑ i ∈ Finset.range n, (m.run client i).issued.countP (·.isRun r) =
      if r.index < (m.run client n).world.runs then 1 else 0 := by
  induction n with
  | zero => simp [run, hm]
  | succ n ih =>
    rw [Finset.sum_range_succ, ih, issued_countP, run_runs]
    rcases (m.run client n).starts_cases with hs | ⟨ρ, hs, hid⟩
    · rw [hs, List.countP_nil, List.length_nil]
      rfl
    · rw [hs, List.countP_singleton, List.length_singleton]
      -- The run that starts has the first number that has not been given.
      by_cases hr : r.index = (m.run client n).world.runs
      · have : ρ.id = r := by rw [hid, ← hr]
        simp [this, hr]
      · have : ρ.id ≠ r := by
          rintro rfl
          exact hr (by rw [hid])
        simp [this]
        split <;> split <;> omega

variable (client) in
/-- From its start on, a run is in one condition, and in that once. -/
theorem account_total (m : Machine K M) (hr : m.world.runs = 0) (hm : m.inHand = [])
    (hw : m.world.hosts = ∅) (n : ℕ) (r : RunId) :
    (m.account client n r).total = if r.index < (m.run client n).world.runs then 1 else 0 := by
  have hheld : m.held (·.isRun r) = 0 := by
    rw [held, hm, World.waiting, hw]
    rfl
  -- What is held and what has left add up to what was issued, which is one ticket for each number.
  have hbalance := run_held client m (·.isRun r) n
  rw [sum_issued m hr, hheld, Nat.zero_add] at hbalance
  rw [← hbalance, Finset.sum_add_distrib, held, inHand_countP]
  simp only [spent_countP, Finset.sum_add_distrib]
  simp only [Account.total, account, Finset.sum_range_succ]
  omega

/-- A run that is held has been started as it is: with its number, its recipient and its host. -/
theorem exists_start_of_held (m : Machine K M) (hm : m.inHand = []) (hw : m.world.hosts = ∅)
    (n : ℕ) (run : Run K) (h : ∃ key : Ticket K → Bool, (∀ t, key t = true → t = .run run) ∧
      0 < (m.run client n).held key) : ∃ i < n, run ∈ (m.run client i).starts := by
  obtain ⟨key, hkey, hpos⟩ := h
  have hheld : m.held key = 0 := by
    rw [held, hm, World.waiting, hw]
    rfl
  have hbalance := run_held client m key n
  -- Nothing was held at first, so the ticket has been issued at some moment.
  have hsum : 0 < ∑ i ∈ Finset.range n, (m.run client i).issued.countP key := by omega
  obtain ⟨i, hi, hissued⟩ := Finset.exists_ne_zero_of_sum_ne_zero hsum.ne'
  obtain ⟨t, ht, hkt⟩ := List.countP_pos_iff.1 (Nat.pos_of_ne_zero hissued)
  refine ⟨i, Finset.mem_range.1 hi, ?_⟩
  rw [hkey t hkt] at ht
  exact mem_starts_of_issued ht

/-- A run in hand has been started as it is. -/
theorem exists_start_of_inHand (m : Machine K M) (hm : m.inHand = []) (hw : m.world.hosts = ∅)
    {n : ℕ} {run : Run K} (h : .run run ∈ (m.run client n).inHand) :
    ∃ i < n, run ∈ (m.run client i).starts := by
  classical
  exact exists_start_of_held m hm hw n run
    ⟨fun t => decide (t = .run run), by simp, held_pos_of_inHand h (by simp)⟩

/-- What the next move calls, or what it leaves in a cell, when `x` is reported of a run. -/
def Delivers (client : Client K M) (m m' : Machine K M) (run : Run K)
    (x : Except RunError (K.signature.Value × Stats)) : Prop :=
  match run.recipient, x with
  | .callbacks c _, .ok (v, stats) => m'.focus = .script .body (client.completion c v stats)
  | .callbacks _ (.client h), .error e => m'.focus = .script .body (client.handler h e)
  | .callbacks _ .log, .error e => m'.world = m.world.observe client (.runUnhandled e)
  | .cell c, .ok (v, _) => m'.world = m.world.setCell c (.settled (.ok v))
  | .cell c, .error e => m'.world = m.world.setCell c (.settled (.error e))

theorem step_delivers {run : Run K} {x : Except RunError (K.signature.Value × Stats)}
    (h : m.step client = some m') (hx : m.focus.reports = some (run, x)) :
    m.Delivers client m' run x := by
  obtain ⟨w, control, focus⟩ := m
  cases focus with
  | complete run v stats =>
    cases h
    cases hx
    unfold Delivers complete
    cases run.recipient <;> rfl
  | report run e =>
    cases h
    cases hx
    unfold Delivers report
    cases run.recipient with
    | callbacks c e => cases e <;> rfl
    | cell c => rfl
  | _ => cases hx

/-- A panic leaves a slice or has left what was being done, or a host panics that is to take a
task. -/
def Panics (m : Machine K M) : Prop :=
  (∃ p, m.focus = .answer (.error p)) ∨
    (∃ f p t, m.focus = .script (.slice f) (.done (.unwound p, t))) ∨
    ∃ host delay t, m.focus = .defer host delay t ∧ m.world.overflows host delay = true

theorem panics_of_lost (h : m.lost ≠ []) : m.Panics := by
  rw [lost] at h
  split at h
  · rename_i f p t hf
    exact .inr (.inl ⟨f, p, t, hf⟩)
  · rename_i host delay t hf
    have ho : m.world.overflows host delay = true := by
      by_contra ho
      exact h (if_neg ho)
    exact .inr (.inr ⟨host, delay, t, hf, ho⟩)
  · rename_i p _ _ hf _
    exact .inl ⟨p, hf⟩
  · rename_i p _ _ hf _
    exact .inl ⟨p, hf⟩
  · rename_i p _ _ _ hf _
    exact .inl ⟨p, hf⟩
  · rename_i p _ _ _ hf _
    exact .inl ⟨p, hf⟩
  · exact absurd rfl h

/-- What follows a move in a session, also if the session is over. -/
theorem run_reports (m : Machine K M) (n : ℕ) :
    (m.run client (n + 1)).focus.reports = (m.run client n).outcome := by
  rw [run_succ]
  cases hs : (m.run client n).step client with
  | none =>
    obtain ⟨-, a, hf⟩ := step_eq_none hs
    simp [hf, Focus.reports, outcome]
  | some m' => exact step_reports hs

theorem run_delivers (m : Machine K M) (n : ℕ) {run : Run K}
    {x : Except RunError (K.signature.Value × Stats)}
    (hx : (m.run client n).focus.reports = some (run, x)) :
    (m.run client n).Delivers client (m.run client (n + 1)) run x := by
  rw [run_succ]
  cases hs : (m.run client n).step client with
  | none =>
    obtain ⟨-, a, hf⟩ := step_eq_none hs
    rw [hf] at hx
    cases hx
  | some m' => exact step_delivers hs hx

/-- A run that is being reported is in hand. -/
theorem inHand_of_reports {run : Run K} {x : Except RunError (K.signature.Value × Stats)}
    (hx : m.focus.reports = some (run, x)) : .run run ∈ m.inHand := by
  rw [inHand]
  cases hf : m.focus <;> rw [hf] at hx <;> cases hx <;> simp

theorem held_of_reports {run : Run K} {x : Except RunError (K.signature.Value × Stats)}
    (hx : m.focus.reports = some (run, x)) (key : Ticket K → Bool) (hk : key (.run run)) :
    0 < m.held key :=
  held_pos_of_inHand (inHand_of_reports hx) hk

/-- At every moment of every session, each run that has been started is in one of these conditions
and in that once: its result has been handed over, its failure has been handed over, a task at a
host owns it, a task that is being dropped owns it, it is being run, or a panic has destroyed it. A
report follows upon its cause only, and is made of the run as it was started, to those who were
named then. -/
theorem session_accounted (client : Client K M) (clock : Clock) (memory : M)
    (main : Script K M Ending) (n : ℕ) :
    let s := initial (World.initial clock memory) main
    (∀ r, (s.account client n r).total = if r.index < (s.run client n).world.runs then 1 else 0) ∧
    (s.run client (n + 1)).focus.reports = (s.run client n).outcome ∧
    (∀ run x, (s.run client n).focus.reports = some (run, x) →
      (s.run client n).Delivers client (s.run client (n + 1)) run x ∧
        ∃ i < n, run ∈ (s.run client i).starts) ∧
    ((s.run client n).lost ≠ [] → (s.run client n).Panics) := by
  intro s
  refine ⟨fun r => account_total client s rfl rfl rfl n r, run_reports s n, fun run x hx => ?_,
    panics_of_lost⟩
  refine ⟨run_delivers s n hx, exists_start_of_held s rfl rfl n run ?_⟩
  -- Client codes need not be comparable, so the tickets of this very run are told classically.
  classical
  exact ⟨fun t => decide (t = .run run), fun t ht => by simpa using ht,
    held_of_reports hx _ (by simp)⟩

end Machine

end LazyEffects
