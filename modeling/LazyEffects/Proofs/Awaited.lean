import LazyEffects.Proofs.Polling

/-!
# Runs that are waited for

Whoever waits for the outcome of a run looks into a cell. Only the library sends outcomes there, and
it does so for one run: the ticket of this run is the only one that leads to the cell.

While others act, the run of a job waits at its host, or one of its slices is under way, or its
outcome is in the cell (`Machine.Stage`). The others may do what they like, as long as they leave
alone what the functions of the job work on and the host goes on serving.

* `Machine.run_fresh`: no ticket leads to a cell that is yet to be opened;
* `Machine.Stage.step`: the stages of the run of a job, move by move.
-/

namespace LazyEffects

variable {K : Codes} {M A : Type}

/-- The ticket leads to the cell `c`: what it stands for ends there. -/
def Ticket.leadsTo (c : CellId) : Ticket K → Bool
  | run ρ => ρ.recipient.isCell c
  | client _ => false
  | signal c' => c' = c

/-- The run of a job that starts next, for one who looks into the next cell. -/
def Job.awaited {client : Client K M} {own : M → A} (J : Job client own) (w : World K M)
    (host : Host) : Run K :=
  J.run w (.cell ⟨w.cells.size⟩) host

/-- In some session the request `r` is made, and what the functions of a job work on is as it is at
the start of the job. -/
structure Job.Requested {client : Client K M} {own : M → A} (J : Job client own) (r : Request K)
    (m : Machine K M) : Prop where
  session : ∃ clock memory main n,
    m = (Machine.initial (World.initial clock memory) main).run client n
  focus : m.focus = .request r
  start : own m.world.memory = J.start

namespace Machine

variable {client : Client K M} {m m' : Machine K M} {c : CellId}

theorem leadsTo_run {run : Run K} (hrun : run.recipient = .cell c) :
    (Ticket.run run).leadsTo c = true := by
  simp [Ticket.leadsTo, hrun, Recipient.isCell]

/-- A cell is written to by those who have a ticket for it in hand. -/
theorem fills_eq_none (h : m.inHand.countP (·.leadsTo c) = 0) : m.fills c = none := by
  obtain ⟨w, control, focus⟩ := m
  rw [inHand, List.countP_append, Nat.add_eq_zero_iff] at h
  cases focus with
  | complete run v stats => simpa [Ticket.leadsTo] using h.1
  | report run e => simpa [Ticket.leadsTo] using h.1
  | begin t =>
    cases t with
    | signal c' => simpa [Ticket.leadsTo] using h.1
    | resume f => rfl
    | client t => rfl
  | _ => rfl

/-- A report uses up the ticket of the run and writes to the cell to which the ticket leads. -/
theorem reports_cell {run : Run K} {x : Except RunError (K.signature.Value × Stats)}
    (hx : m.focus.reports = some (run, x)) (hrun : run.recipient = .cell c) :
    m.spent = [.run run] ∧ m.fills c = some (.settled (x.map Prod.fst)) ∧
      ∀ role s, m.focus ≠ .script role s := by
  obtain ⟨w, control, focus⟩ := m
  cases focus with
  | complete ρ v stats =>
    cases hx
    exact ⟨rfl, by simp [hrun, Recipient.isCell, Except.map], by simp⟩
  | report ρ e =>
    cases hx
    exact ⟨rfl, by simp [hrun, Recipient.isCell, Except.map], by simp⟩
  | _ => cases hx

variable (client) in
/-- A report to a cell is over at once. -/
theorem step_reports_cell {run : Run K} {x : Except RunError (K.signature.Value × Stats)}
    (hx : m.focus.reports = some (run, x)) (hrun : run.recipient = .cell c) :
    ∃ w, m.step client = some ⟨w, m.control, .answer (.ok .done)⟩ := by
  obtain ⟨w, control, focus⟩ := m
  cases focus with
  | complete ρ v stats =>
    cases hx
    simp only [step, complete, hrun]
    exact ⟨_, rfl⟩
  | report ρ e =>
    cases hx
    simp only [step, report, hrun]
    exact ⟨_, rfl⟩
  | _ => cases hx

/-- Tickets that lead to a cell are issued as the cell is opened. -/
theorem step_opens (h : m.step client = some m') (hc : m.issued.countP (·.leadsTo c) ≠ 0) :
    c.index = m.world.cells.size ∧ c.index < m'.world.cells.size := by
  obtain ⟨w, control, focus⟩ := m
  cases focus with
  | request r =>
    cases h
    have hopen (w : World K M) : w.openCell.2.cells.size = w.cells.size + 1 := by
      simp [World.openCell]
    cases r with
    | blockOn l config program =>
      simp only [issued, Request.tickets, Request.starts, List.map_cons, List.map_nil,
        List.countP_singleton, Ticket.leadsTo, Recipient.isCell] at hc
      have hle := (keeps_noteBudget client config (w.share l).openCell.2).cells
      rw [hopen, World.share_cells] at hle
      obtain rfl : ⟨w.cells.size⟩ = c := by simpa using hc
      exact ⟨rfl, hle⟩
    | blockOnWorker i config program =>
      simp only [issued, Request.tickets, Request.starts, List.map_cons, List.map_nil,
        List.countP_singleton, Ticket.leadsTo, Recipient.isCell] at hc
      have hle := (keeps_noteBudget client config w.openCell.2).cells
      rw [hopen] at hle
      obtain rfl : ⟨w.cells.size⟩ = c := by simpa using hc
      exact ⟨rfl, hle⟩
    | awaitWorker i =>
      simp only [issued, Request.tickets, List.countP_singleton, Ticket.leadsTo] at hc
      obtain rfl : ⟨w.cells.size⟩ = c := by simpa using hc
      exact ⟨rfl, by simp [perform, World.openCell]⟩
    | _ => simp [Ticket.leadsTo, Recipient.isCell] at hc
  | _ => simp at hc

/-- No ticket leads to a cell that is yet to be opened. -/
theorem run_fresh (hm : m.inHand = []) (hw : m.world.hosts = ∅) (n : ℕ)
    (hc : (m.run client n).world.cells.size ≤ c.index) :
    (m.run client n).held (·.leadsTo c) = 0 := by
  induction n with
  | zero =>
    change m.held (·.leadsTo c) = 0
    rw [held, hm, World.waiting, hw]
    rfl
  | succ n ih =>
    rw [run_succ] at hc ⊢
    cases hs : (m.run client n).step client with
    | none =>
      rw [hs] at hc
      exact ih hc
    | some m' =>
      rw [hs, Option.getD_some] at hc
      rw [Option.getD_some]
      have hbalance := step_held hs (·.leadsTo c)
      have hold := ih ((step_frames hs).cells.trans hc)
      -- A ticket that is issued leads to a cell that is there after the move.
      have hissued : (m.run client n).issued.countP (·.leadsTo c) = 0 := by
        by_contra hne
        have := (step_opens hs hne).2
        omega
      omega

/-- There is at most one ticket that leads to the cell `c`, which has been opened. -/
structure Sole (m : Machine K M) (c : CellId) : Prop where
  opened : c.index < m.world.cells.size
  held : m.held (·.leadsTo c) ≤ 1

theorem Sole.step_held (hm : m.Sole c) (h : m.step client = some m') :
    m'.held (·.leadsTo c) + (m.spent.countP (·.leadsTo c) + m.lost.countP (·.leadsTo c)) =
      m.held (·.leadsTo c) := by
  have hissued : m.issued.countP (·.leadsTo c) = 0 := by
    by_contra hne
    have hindex := (step_opens h hne).1
    have hopened := hm.opened
    omega
  rw [Machine.step_held h, hissued, Nat.add_zero]

theorem Sole.step (hm : m.Sole c) (h : m.step client = some m') : m'.Sole c where
  opened := hm.opened.trans_le (step_frames h).cells
  held := by
    have hbalance := hm.step_held h
    have hheld := hm.held
    omega

/-- The ticket that is issued as a cell is opened is the only one that leads there. -/
theorem sole_of_issued {run : Run K} (hrun : run.recipient = .cell c)
    (hm : m.held (·.leadsTo c) = 0) (hs : m.step client = some m')
    (hi : m.issued = [.run run]) : m'.Sole c := by
  have hissued : m.issued.countP (·.leadsTo c) = 1 := by
    rw [hi, List.countP_singleton, leadsTo_run hrun]
    rfl
  have hbalance := Machine.step_held hs (·.leadsTo c)
  exact ⟨(step_opens hs (by omega)).2, by omega⟩

/-! ### The stages of a run -/

/-- What is done next leaves alone what the functions of a job work on, unless it is a slice of
`run`. -/
def Spares (own : M → A) (run : Run K) (m : Machine K M) : Prop :=
  ∀ role f next, m.focus = .script role (.update f next) → .run run ∉ role.tickets →
    own (f m.world.memory) = own m.world.memory

variable {own : M → A} (J : Job client own) (run : Run K) (c : CellId)

/-- A task with the evaluation `t` of the run waits at its host, and there are `left` nodes to
visit. -/
structure Waits (m : Machine K M) (t : Trampoline K.signature) (left : ℕ) : Prop where
  waiting : .resume ⟨run, t⟩ ∈ m.world.contents run.host
  tracks : J.Tracks t (own m.world.memory) left
  vacant : m.world.cell c = .vacant

/-- Where the run of a job stands, with at most `k` nodes to visit after the slice that is under
way. What has become of the last slice is told by `ended`. -/
inductive Stage (ended : Prop) (m : Machine K M) (k : ℕ) : Prop
  | waits {t : Trampoline K.signature} {left : ℕ} :
    Waits J run c m t left → left ≤ k → Stage ended m k
  | begun {t : Trampoline K.signature} {left : ℕ} :
    m.world.cell c = .vacant →
    (m.focus = .begin (.resume ⟨run, t⟩) ∨ m.focus = .resume ⟨run, t⟩) →
    J.Tracks t (own m.world.memory) left → left ≤ k + 1 → Stage ended m k
  | slice {t t' : Trampoline K.signature} {a : Answer K.signature} {memory' : M}
    {s : Script K M (Answer K.signature × Trampoline K.signature)} :
    m.world.cell c = .vacant → m.focus = .script (.slice ⟨run, t⟩) s →
    s.Ends m.world.memory (a, t') memory' →
    (J.Finishes a t' (own memory') ∨
      a = .suspended ∧ ∃ left ≤ k, J.Tracks t' (own memory') left) → Stage ended m k
  | handed {t : Trampoline K.signature} {left : ℕ} :
    m.world.cell c = .vacant →
    m.focus = .defer run.host run.config.resumeDelay (.resume ⟨run, t⟩) →
    J.Tracks t (own m.world.memory) left → left ≤ k → Stage ended m k
  | reports {stats : Stats} :
    m.world.cell c = .vacant → m.focus.reports = some (run, J.result.map (·, stats)) →
    own m.world.memory = J.final → ended → Stage ended m k
  | settled :
    m.world.cell c = .settled J.result → own m.world.memory = J.final →
    m.held (·.leadsTo c) = 0 → ended → Stage ended m k

variable {J run c}

/-- Client code that is not a slice of the run leaves alone what the functions of the run work on.
-/
theorem own_step (hs : m.step client = some m')
    (hown : ∀ role f next, m.focus = .script role (.update f next) →
      own (f m.world.memory) = own m.world.memory) (h : client.Spares own) :
    own m'.world.memory = own m.world.memory := by
  -- Only client code changes the memory; the library adds events, which leave the part alone.
  by_cases hu : ∃ role f next, m.focus = .script role (.update f next)
  · obtain ⟨role, f, next, hf⟩ := hu
    rw [step, hf] at hs
    cases hs
    exact hown role f next hf
  · obtain ⟨events, he⟩ := (step_frames hs).memory fun role f next hf => hu ⟨role, f, next, hf⟩
    rw [he, h.observeAll]

theorem Stage.mono {ended ended' : Prop} {k k' : ℕ} (h : Stage J run c ended m k)
    (he : ended → ended') (hk : k ≤ k') : Stage J run c ended' m k' := by
  cases h with
  | waits hw hl => exact .waits hw (hl.trans hk)
  | begun hv hf ht hl => exact .begun hv hf ht (by omega)
  | slice hv hf hends hx =>
    refine .slice hv hf hends (hx.imp_right fun ⟨ha, left, hl, ht⟩ => ?_)
    exact ⟨ha, left, hl.trans hk, ht⟩
  | handed hv hf ht hl => exact .handed hv hf ht (hl.trans hk)
  | reports hv hf ho hd => exact .reports hv hf ho (he hd)
  | settled hc ho hh hd => exact .settled hc ho hh (he hd)

/-- The ticket of a run that waits is not in hand. -/
theorem Waits.inHand {t : Trampoline K.signature} {left : ℕ} (hrun : run.recipient = .cell c)
    (hm : m.Sole c) (h : Waits J run c m t left) : m.inHand.countP (·.leadsTo c) = 0 := by
  -- The one ticket that leads to the cell waits at the host.
  have hpos := World.waiting_pos (fun t => t.ticket.leadsTo c) h.waiting (leadsTo_run hrun)
  have hheld : m.inHand.countP (·.leadsTo c) +
      m.world.waiting (fun t => t.ticket.leadsTo c) ≤ 1 := hm.held
  omega

/-- A move leaves alone what the functions of a job work on if the ticket of its run is not in
hand. -/
theorem own_step_of_inHand (hrun : run.recipient = .cell c)
    (hm : m.inHand.countP (·.leadsTo c) = 0) (hs : m.step client = some m')
    (hspares : m.Spares own run) (J : Job client own) :
    own m'.world.memory = own m.world.memory := by
  refine own_step hs (fun role f next hf => hspares role f next hf fun hmem => ?_) J.spares
  have hmem' : .run run ∈ m.inHand := by
    rw [Machine.inHand, hf]
    exact List.mem_append_left _ hmem
  exact absurd hm (List.countP_pos_iff.2 ⟨_, hmem', leadsTo_run hrun⟩).ne'

/-- A run that waits goes on waiting until its task is begun. -/
theorem Waits.step {t : Trampoline K.signature} {left : ℕ} (hrun : run.recipient = .cell c)
    (hm : m.Sole c) (h : Waits J run c m t left) (hs : m.step client = some m')
    (hserves : m'.world.Serves run.host) (hspares : m.Spares own run) :
    Waits J run c m' t left ∨ m'.focus = .begin (.resume ⟨run, t⟩) ∧
      J.Tracks t (own m'.world.memory) left ∧ m'.world.cell c = .vacant := by
  have hhand := h.inHand hrun hm
  have hown := own_step_of_inHand hrun hhand hs hspares J
  have htracks : J.Tracks t (own m'.world.memory) left := by
    rw [hown]
    exact h.tracks
  have hvacant : m'.world.cell c = .vacant := by
    rw [(step_frames hs).cell c hm.opened, fills_eq_none hhand, Option.getD_none, h.vacant]
  -- A task leaves a host that serves only to be begun.
  obtain ⟨x, hx⟩ := step_balances client hs
  rcases hx.contents.mem h.waiting with hstays | rfl | ⟨ts, hts, rfl | rfl⟩
  · exact .inl ⟨hstays, htracks, hvacant⟩
  · exact .inr ⟨hx.occasion, htracks, hvacant⟩
  · rw [hx.occasion.2 hserves] at hts
    cases hts
  · rw [hx.occasion.2 hserves] at hts
    cases hts

variable (client) in
/-- A host that serves takes in what is handed to it, if there is such a point in time as the due
time. -/
theorem step_defer {w : World K M} (control : List (Activity K M)) {host : Host}
    (h : w.Serves host) {delay : Duration} (ho : w.overflows host delay = false) (t : Task K) :
    ∃ w', step client ⟨w, control, .defer host delay t⟩ =
      some ⟨w', control, .answer (.ok .done)⟩ ∧ t ∈ w'.contents host ∧ w.Keeps client w' := by
  have hkeeps := handOver_keeps client ⟨w, control, .defer host delay t⟩ host delay t
  rw [step_of_not_overflows ho]
  cases host with
  | eventLoop l =>
    obtain ⟨s, hs⟩ := h
    have hs' : w.readClock.2.loop? l = some s := hs
    have hin := (World.setLoop_takesIn hs' (w.readClock.1 + delay.nanos) t).self
    simp only [handOver, hs] at hkeeps
    refine ⟨_, by simp only [handOver, hs]; rfl, ?_, hkeeps⟩
    rw [reply_world, World.contents_observe]
    exact hin.mem_iff.2 List.mem_cons_self
  | worker i =>
    obtain ⟨s, hs, hp⟩ := h
    have hs' : w.readClock.2.worker? i = some s := hs
    have haccepts : (w.readClock.2.worker? i).filter (·.accepts) = some s := by
      simp [hs', Worker.accepts, hp]
    have hin := (World.setWorker_takesIn hs' (s.tasks_send (w.readClock.1 + delay.nanos) t)).self
    simp only [handOver, haccepts] at hkeeps
    refine ⟨_, by simp only [handOver, haccepts]; rfl, ?_, hkeeps⟩
    exact hin.mem_iff.2 List.mem_cons_self
  | recording q => exact absurd h id
  | discarding => exact absurd h id

/-- The stages of the run of a job. -/
theorem Stage.step {ended : Prop} {k : ℕ} (howns : J.Owns run) (hrun : run.recipient = .cell c)
    (hm : m.Sole c) (hs : m.step client = some m') (hserves : m.world.Serves run.host)
    (hserves' : m'.world.Serves run.host)
    (hfits : ∀ t, m.focus = .defer run.host run.config.resumeDelay (.resume ⟨run, t⟩) →
      m.world.overflows run.host run.config.resumeDelay = false)
    (hspares : m.Spares own run) (h : Stage J run c ended m k) :
    Stage J run c (ended ∨ J.Ends [.run run] m) m' k := by
  have hcell := (step_frames hs).cell c hm.opened
  obtain ⟨w, control, focus⟩ := m
  cases h with
  | waits hw hl =>
    rcases hw.step hrun hm hs hserves' hspares with hw' | ⟨hf, ht, hv⟩
    · exact .waits hw' hl
    · exact .begun hv (.inl hf) ht (by omega)
  | @begun t left hv hf ht hl =>
    rcases hf with rfl | rfl
    · cases hs
      exact .begun hv (.inr rfl) ht hl
    · cases hs
      obtain ⟨a, t', memory', hends, hx⟩ := ht.ends
      have hcatch : run.config.catchPanics = true := by
        rw [howns.config]
        exact J.catching
      refine .slice hv rfl (s := t.runSlice client.functions run.config.catchPanics
        run.config.stepBudget) (by rw [hcatch, howns.config]; exact hends) (hx.imp_right ?_)
      rintro ⟨ha, left', hlt, ht'⟩
      exact ⟨ha, left', by omega, ht'⟩
  | @slice t t' a memory' s hv hf hends hx =>
    cases hf
    cases hends with
    | done =>
      cases hs
      rcases hx with hx | ⟨rfl, left, hl, ht⟩
      · obtain ⟨hreports, -, hkeeps, -⟩ :=
          hx.reports ⟨w, control, .script (.slice ⟨run, t⟩) (.done (a, t'))⟩
            (f := ⟨run, t⟩) howns.result
        refine .reports ((hkeeps.cell c).trans hv) hreports
          ((J.spares.keeps hkeeps).trans hx.own) (.inr ⟨a, t', rfl, rfl, hx⟩)
      · exact .handed hv rfl ht hl
    | update hends =>
      cases hs
      exact .slice hv rfl hends hx
  | @handed t left hv hf ht hl =>
    cases hf
    obtain ⟨w', hs', hin, hkeeps⟩ :=
      step_defer client control hserves (hfits t rfl) (.resume ⟨run, t⟩)
    rw [hs] at hs'
    cases hs'
    refine .waits ⟨hin, ?_, (hkeeps.cell c).trans hv⟩ hl
    rw [J.spares.keeps hkeeps]
    exact ht
  | @reports stats hv hf ho hd =>
    -- The report uses the ticket up, and no other leads to the cell.
    obtain ⟨hspent, hfills, hscript⟩ := reports_cell hf hrun
    have hheld := hm.held
    have hbalance := hm.step_held hs
    rw [hspent, List.countP_singleton, leadsTo_run hrun] at hbalance
    refine .settled ?_ ?_ (by simp only [if_true] at hbalance; omega) (.inl hd)
    · rw [hcell, hfills, Option.getD_some]
      cases J.result <;> rfl
    · rw [own_step hs (fun role f next hf => absurd hf (hscript role _)) J.spares, ho]
  | settled hc ho hh hd =>
    -- No ticket leads to the cell any more, so nobody writes to it.
    have hhand : (inHand ⟨w, control, focus⟩).countP (·.leadsTo c) = 0 :=
      (Nat.add_eq_zero_iff.1 hh).1
    have hbalance := hm.step_held hs
    refine .settled ?_ ?_ (by omega) (.inl hd)
    · rw [hcell, fills_eq_none hhand, Option.getD_none, hc]
    · rw [own_step_of_inHand hrun hhand hs hspares J, ho]

/-! ### While someone waits -/

/-- What the others do while the activities of `base` wait for the outcome of `run`. -/
structure Undisturbed (client : Client K M) (own : M → A) (run : Run K)
    (base : List (Activity K M)) (m : Machine K M) : Prop where
  /-- The host goes on serving. -/
  serves {n : ℕ} : Lasts client base m n → (m.run client n).world.Serves run.host
  /-- Whenever what is left of the run is deferred, its due time is a point in time that there is. -/
  fits {n : ℕ} {t : Trampoline K.signature} : Lasts client base m n →
    (m.run client n).focus = .defer run.host run.config.resumeDelay (.resume ⟨run, t⟩) →
    (m.run client n).world.overflows run.host run.config.resumeDelay = false
  /-- What the functions of the job work on is left alone. -/
  spares {n : ℕ} : Lasts client base m n → (m.run client n).Spares own run
  /-- Another task that is begun for those who wait returns. -/
  returns {n : ℕ} {above : Activity K M} {t : Task K} : Lasts client base m n →
    (m.run client n).control = above :: base → (m.run client n).focus = .begin t →
    t.ticket ≠ .run run → ∃ m' r, Gets client (above :: base) (m.run client n) m' ∧
      m'.control = above :: base ∧ m'.focus = .answer (.ok r)

section

variable {base : List (Activity K M)} {k n : ℕ}

variable (client J run c) in
/-- Where the run of a job stands after `n` moves. -/
structure Stands (m : Machine K M) (n k : ℕ) : Prop where
  sole : (m.run client n).Sole c
  stage : Stage J run c (∃ j < n, J.Ends [.run run] (m.run client j)) (m.run client n) k

/-- The stages of the run of a job while someone waits for it. -/
theorem Undisturbed.stands {i : ℕ} (hu : Undisturbed client own run base m) (howns : J.Owns run)
    (hrun : run.recipient = .cell c) (h : Stands client J run c m n k)
    (hn : Lasts client base m (n + i)) : Stands client J run c m (n + i) k := by
  induction i with
  | zero => exact h
  | succ i ih =>
    have hlasts : Lasts client base m (n + i) := hn.of_le (Nat.le_succ _)
    obtain ⟨hsole, hstage⟩ := ih hlasts
    have hended (h : (∃ j < n + i, J.Ends [.run run] (m.run client j)) ∨
        J.Ends [.run run] (m.run client (n + i))) :
        ∃ j < n + i + 1, J.Ends [.run run] (m.run client j) := by
      rcases h with ⟨j, hj, hends⟩ | hends
      · exact ⟨j, by omega, hends⟩
      · exact ⟨n + i, by omega, hends⟩
    have hserves' := hu.serves hn
    rw [← Nat.add_assoc, run_succ] at hserves'
    rw [← Nat.add_assoc]
    constructor
    · rw [run_succ]
      cases hs : (m.run client (n + i)).step client with
      | none => exact hsole
      | some m' => exact hsole.step hs
    · rw [run_succ]
      cases hs : (m.run client (n + i)).step client with
      | none => exact hstage.mono (fun h => hended (.inl h)) le_rfl
      | some m' =>
        rw [hs, Option.getD_some] at hserves'
        refine Stage.mono ?_ hended le_rfl
        exact hstage.step howns hrun hsole hs (hu.serves hlasts) hserves'
          (fun _ => hu.fits hlasts) (hu.spares hlasts)

/-- A slice of the run returns. -/
theorem Undisturbed.resumed (hu : Undisturbed client own run base m) (howns : J.Owns run)
    (hrun : run.recipient = .cell c) (hn : Lasts client base m n) {w : World K M}
    {control : List (Activity K M)} (hb : base <:+ control) {left : ℕ}
    {t : Trampoline K.signature}
    (hg : Gets client control (m.run client n) ⟨w, control, .resume ⟨run, t⟩⟩)
    (ht : J.Tracks t (own w.memory) left) :
    ∃ w', Gets client control (m.run client n) ⟨w', control, .answer (.ok .done)⟩ := by
  rcases ht.gets_resume control (f := ⟨run, t⟩) howns with
    ⟨m₁, m₂, stats, h₁, -, h₂, hcontrol, hreports, -⟩ | ⟨w', t', left', -, -, -, hgets⟩
  · obtain ⟨w', hs⟩ := step_reports_cell client hreports hrun
    rw [hcontrol] at hs
    refine ⟨w', hg.trans ((h₁.trans h₂).trans (.step hs ?_ (List.suffix_refl _)))⟩
    rw [hcontrol]
  · -- The host serves at the moment at which what is left of the run is deferred.
    obtain ⟨i, hi, hlasts⟩ := hg.trans hgets
    have hserves := hu.serves (hn.add (hlasts.mono hb))
    have hfits := hu.fits (t := t') (hn.add (hlasts.mono hb))
    rw [run_add, hi] at hserves hfits
    obtain ⟨w'', hs, -⟩ := step_defer client control hserves (hfits rfl) (.resume ⟨run, t'⟩)
    exact ⟨w'', (hg.trans hgets).trans (.step hs (List.suffix_refl _) (List.suffix_refl _))⟩

/-- Whatever is begun for those who wait returns. -/
theorem Undisturbed.begun (hu : Undisturbed client own run base m) (howns : J.Owns run)
    (hrun : run.recipient = .cell c) (hn : Lasts client base m n)
    (h : Stands client J run c m n k) (above : Activity K M) (t : Task K)
    (hc : (m.run client n).control = above :: base)
    (hf : (m.run client n).focus = .begin t) :
    ∃ m' r, Gets client (above :: base) (m.run client n) m' ∧ m'.control = above :: base ∧
      m'.focus = .answer (.ok r) := by
  by_cases ht : t.ticket = .run run
  · -- The ticket is in hand, so the stage is the one in which the task is begun.
    have hhand : (m.run client n).inHand.countP (·.leadsTo c) ≠ 0 := by
      refine (List.countP_pos_iff.2 ⟨.run run, ?_, leadsTo_run hrun⟩).ne'
      rw [inHand, hf, ← ht]
      exact List.mem_append_left _ (List.mem_singleton_self _)
    cases h.stage with
    | waits hw => exact absurd (hw.inHand hrun h.sole) hhand
    | settled _ _ hh => exact absurd (Nat.add_eq_zero_iff.1 hh).1 hhand
    | @begun t' left _ hf' htracks =>
      rw [hf] at hf'
      rcases hf' with hf' | hf'
      · cases hf'
        have hstep : (m.run client n).step client =
            some ⟨(m.run client n).world, above :: base, .resume ⟨run, t'⟩⟩ := by
          rw [step, hf, ← hc]
          rfl
        have hgets : Gets client (above :: base) (m.run client n)
            ⟨(m.run client n).world, above :: base, .resume ⟨run, t'⟩⟩ :=
          .step hstep (by rw [hc]) (List.suffix_refl _)
        obtain ⟨w', hgets'⟩ :=
          hu.resumed howns hrun hn (List.suffix_cons _ _) hgets htracks
        exact ⟨_, .done, hgets', rfl, rfl⟩
      · cases hf'
    | slice _ hf' =>
      rw [hf] at hf'
      cases hf'
    | handed _ hf' =>
      rw [hf] at hf'
      cases hf'
    | reports _ hf' =>
      rw [hf] at hf'
      cases hf'
  · exact hu.returns hn hc hf ht

/-- A run is started for one who looks into a new cell. Its first slice returns to `next`, and from
then on it stands where the run of a job may stand. -/
theorem launched {r : Request K} {host : Host} {next : Activity K M}
    {waiting : List (Activity K M)} {w : World K M} (h : J.Requested r m)
    (hi : m.issued = [.run (J.awaited m.world host)])
    (hs : m.step client = some (m.launch client (next :: waiting) w host J.config.progressing
      (.cell ⟨m.world.cells.size⟩) J.program))
    (hw : m.world.Keeps client w)
    (hu : Undisturbed client own (J.awaited m.world host) (waiting ++ m.control)
      (m.run client 1)) :
    Gets client m.control m (m.run client 1) ∧
    (∀ n, Lasts client (waiting ++ m.control) (m.run client 1) n →
      Stands client J (J.awaited m.world host) ⟨m.world.cells.size⟩ (m.run client 1) n J.nodes) ∧
    ∃ n w', Lasts client (waiting ++ m.control) (m.run client 1) n ∧
      (m.run client 1).run client n =
        ⟨w', next :: (waiting ++ m.control), .answer (.ok .done)⟩ := by
  have hfresh : m.held (·.leadsTo ⟨m.world.cells.size⟩) = 0 := by
    obtain ⟨clock, memory, main, n, rfl⟩ := h.session
    exact run_fresh rfl rfl n le_rfl
  have hsole := sole_of_issued rfl hfresh hs hi
  have hlaunch : m.launch client (next :: waiting) w host J.config.progressing
      (.cell ⟨m.world.cells.size⟩) J.program =
      ⟨{ w with runs := w.runs + 1 }.observe client (.runStarted J.program.root.kind),
        next :: (waiting ++ m.control),
        .resume ⟨J.awaited m.world host, .start J.program.root⟩⟩ := by
    simp only [launch, World.nextRun, Job.awaited, Job.run, hw.runs]
    rfl
  have htracks : J.Tracks (.start J.program.root)
      (own (client.observe (.runStarted J.program.root.kind) w.memory)) J.nodes := by
    rw [J.spares, J.spares.keeps hw, h.start]
    exact J.tracks_start
  have hvacant : w.cell ⟨m.world.cells.size⟩ = .vacant := by
    rw [hw.cell]
    simp [World.cell]
  have hone : m.run client 1 = m.launch client (next :: waiting) w host J.config.progressing
      (.cell ⟨m.world.cells.size⟩) J.program := run_succ_of_step (n := 0) hs
  rw [hone] at hu ⊢
  rw [hlaunch] at hs hsole hu ⊢
  -- The first slice is one of those that return, whatever it finds.
  obtain ⟨w', i, hi', hlasts⟩ := hu.resumed (n := 0) ⟨rfl, rfl⟩ rfl
    (fun j hj => by
      obtain rfl := Nat.le_zero.1 hj
      exact List.suffix_cons _ _)
    (List.suffix_cons next (waiting ++ m.control)) (.refl (List.suffix_refl _)) htracks
  refine ⟨?_, fun n hn => ?_, i, w', hlasts.mono (List.suffix_cons _ _), hi'⟩
  · exact .step hs (List.suffix_refl _) (List.suffix_append (next :: waiting) _)
  · have hstands := hu.stands (n := 0) (k := J.nodes) (i := n) ⟨rfl, rfl⟩ rfl
      ⟨hsole, .begun hvacant (.inr rfl) htracks (Nat.le_succ _)⟩ (by rwa [Nat.zero_add])
    rwa [Nat.zero_add] at hstands

/-- Those who wait have had the answer that the job delivers. -/
theorem Lasts.answers {control : List (Activity K M)} {w : World K M}
    (hn : Lasts client base m n) (hc : control <:+ base)
    (hends : ∃ j < n, J.Ends [.run run] (m.run client j))
    (hg : Gets client control (m.run client n) ⟨w, control, .answer (.ok (.settled J.result))⟩)
    (hown : own w.memory = J.final) : J.Answers [.run run] control m := by
  obtain ⟨j, hj, hends⟩ := hends
  obtain ⟨i, rfl⟩ := Nat.exists_eq_add_of_lt hj
  rw [Nat.add_assoc] at hn hg
  have hrest := (Lasts.drop hn).gets
  rw [← run_add] at hrest
  exact ⟨m.run client j, _, (hn.of_le (Nat.le_add_right _ _)).gets.mono hc, hends,
    (hrest.mono hc).trans hg, rfl, rfl, hown⟩

end

end Machine

end LazyEffects
