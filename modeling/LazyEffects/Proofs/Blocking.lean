import LazyEffects.Proofs.Cells
import LazyEffects.Proofs.Lingering
import LazyEffects.Proofs.Pace
import LazyEffects.Proofs.Reports

/-!
# Who blocks on a host

Whoever blocks on an event loop or on a worker starts a run there and stays until the host has
nothing to do, or, at a worker, until the outcome is there. Then they look into the cell for the
outcome.

* `Machine.Attending`: they are at the host until it has nothing to do or does not serve any more;
* `Machine.Blocks.told`: they are answered what has been reported of the run. If nothing has been
  reported, they are told that the run is abandoned, and then either nothing of it waits or is under
  way, or the host has gone out of service.
-/

namespace LazyEffects

variable {K : Codes} {M : Type}

namespace Machine

variable {client : Client K M} {m m' : Machine K M} {host : Host} {c : CellId}
  {base : List (Activity K M)} {n : ℕ}

/-! ### At the host -/

/-- What one does who is at a host because of a cell. -/
inductive Serving (c : CellId) : Host → Activity K M → Prop where
  | thenPump (l : LoopId) : Serving c (.eventLoop l) (.thenPump l)
  | pumping (l : LoopId) (executed : ℕ) : Serving c (.eventLoop l) (.pumping l executed)
  | thenWork (i : WorkerId) : Serving c (.worker i) (.thenWork i (some c))
  | working (i : WorkerId) : Serving c (.worker i) (.working i (some c))
  | stopping (i : WorkerId) : Serving c (.worker i) (.stopping i (some c))

/-- They have the host go on. -/
inductive Returning (c : CellId) : Host → Focus K M → Prop where
  | pump (l : LoopId) (executed : ℕ) : Returning c (.eventLoop l) (.pump l executed)
  | work (i : WorkerId) : Returning c (.worker i) (.work i (some c))

/-- There is no reason to stay at the host: the cell is filled, or the host has no tasks, or it is
out of service. -/
def Finished (m : Machine K M) (host : Host) (c : CellId) : Prop :=
  m.world.isFilled (some c) = true ∨ m.world.contents host = [] ∨ ¬ m.world.Serves host

/-- Someone above the activities of `base` is at a host because of a cell, or is about to leave. -/
inductive Attending (host : Host) (c : CellId) (base : List (Activity K M)) (m : Machine K M) :
    Prop where
  | runs {activity : Activity K M} : Serving c host activity → activity :: base <:+ m.control →
    Attending host c base m
  | rounds : Returning c host m.focus → m.control = base → Attending host c base m
  | leaves {a : Except Payload (Reply K)} : m.control = base → m.focus = .answer a →
    (∀ r, a = .ok r → m.Finished host c) → Attending host c base m

/-- A move of the thread of a worker. -/
theorem attending_work {i : WorkerId} {w : World K M} :
    Attending (.worker i) c base (work client ⟨w, base, .work i (some c)⟩ i (some c)) := by
  rw [work]
  split
  · rename_i hnone
    refine .leaves rfl rfl fun r _ => .inr (.inr ?_)
    rintro ⟨s, hs, hp⟩
    have hs : w.worker? i = some s := hs
    simp [hs, hp] at hnone
  · rename_i s hs
    split
    · rename_i hfilled
      exact .leaves rfl rfl fun r _ => .inl hfilled
    · simp only
      split
      · exact .runs (.working i) (List.suffix_refl _)
      · split
        · split
          · exact .rounds (.work i) rfl
          · exact .runs (.stopping i) (List.suffix_refl _)
        · rename_i hreceive
          split
          · exact .rounds (.work i) rfl
          · rename_i hdue
            refine .leaves rfl rfl fun r _ => .inr (.inl ?_)
            have hs : w.readClock.2.worker? i = some s := (Option.filter_eq_some_iff.1 hs).1
            simp only [World.contents, reply_world, hs, Option.elim_some, Worker.tasks,
              TimerQueue.tasks_of_nextDue hdue, Worker.receive_eq_none hreceive]
            rfl

theorem Returning.step (h : Returning c host m.focus) (hc : m.control = base)
    (hs : m.step client = some m') : Attending host c base m' := by
  obtain ⟨w, control, focus⟩ := m
  cases hc
  cases h with
  | pump l executed =>
    rcases pump_cases rfl hs with ⟨timer, -, -, hc'⟩ | ⟨-, hc', ⟨-, hf'⟩ | ⟨-, hf', hdue⟩⟩
    · exact .runs (.pumping l executed) (hc' ▸ List.suffix_refl _)
    · refine .rounds ?_ hc'
      rw [hf']
      exact .pump l executed
    · exact .leaves hc' hf' fun r _ => .inr (.inl (World.nextDue_eq_none_iff.1 hdue))
  | work i =>
    cases hs
    exact attending_work

/-- What they do when that for which they have waited is over. -/
theorem Serving.step {activity : Activity K M} (h : Serving c host activity)
    (hc : m.control = activity :: base) {a : Except Payload (Reply K)} (hf : m.focus = .answer a)
    (hs : m.step client = some m') : Attending host c base m' := by
  obtain ⟨w, control, focus⟩ := m
  cases hc
  cases hf
  have hpanic (p : Payload) :
      Attending host c base (⟨w, base, .answer (.error p)⟩ : Machine K M) :=
    .leaves rfl rfl fun r hr => by cases hr
  cases h with
  | thenPump l =>
    cases a <;> cases hs
    · exact hpanic _
    · exact .rounds (.pump l 0) rfl
  | pumping l executed =>
    cases a <;> cases hs
    · exact hpanic _
    · exact .rounds (.pump l (executed + 1)) rfl
  | thenWork i =>
    cases a <;> cases hs
    · exact hpanic _
    · exact .rounds (.work i) rfl
  | working i => cases a <;> cases hs <;> exact .rounds (.work i) rfl
  | stopping i =>
    cases a with
    | error p =>
      cases hs
      exact .rounds (.work i) rfl
    | ok r =>
      cases hs
      simp only [returnTo]
      split
      · exact .runs (.working i) (List.suffix_refl _)
      · rename_i hnone
        refine .leaves rfl rfl fun r _ => .inr (.inr ?_)
        rintro ⟨s, hs, -⟩
        have hs : w.worker? i = some s := hs
        rw [hnone] at hs
        cases hs

theorem Attending.step (h : Attending host c base m) (hs : m.step client = some m')
    (hbase : ∀ a, m.control = base → m.focus ≠ .answer a) : Attending host c base m' := by
  cases h with
  | runs hserving hsuffix =>
    rcases suffix_step hs hsuffix with hsuffix' | ⟨hc, a, hf⟩
    · exact .runs hserving hsuffix'
    · exact hserving.step hc hf hs
  | rounds hround hc => exact hround.step hc hs
  | leaves hc hf => exact absurd hf (hbase _ hc)

/-! ### Up to the answer -/

/-- Someone above the activities of `base` is at a host for the outcome that is left in a cell, or
has been told. -/
inductive Staying (Q : RunResult K → Prop) (host : Host) (c : CellId) (base : List (Activity K M))
    (m : Machine K M) : Prop where
  | attends {rest : List (Activity K M)} : Attending host c (.reporting c :: (rest ++ base)) m →
    (rest = [] ∨ ∃ l, rest = [.sharing l]) → Staying Q host c base m
  | told : Releasing (fun reply => ∃ r, reply = .settled r ∧ Q r) base m → Staying Q host c base m

theorem Staying.step {Q : RunResult K → Prop} (h : Staying Q host c base m)
    (hs : m.step client = some m') (hcell : ∀ r, m.world.cell c = .settled r → Q r)
    (habandoned : (∀ r, m.world.cell c ≠ .settled r) → m.Finished host c →
      ∀ rest, (rest = [] ∨ ∃ l, rest = [.sharing l]) → m.control = .reporting c :: (rest ++ base) →
      ∀ a, m.focus = .answer a → Q (.error .abandoned))
    (hbase : ∀ a, m.control = base → m.focus ≠ .answer a) : Staying Q host c base m' := by
  cases h with
  | told h => exact .told (h.step hs hbase)
  | @attends rest hattending hrest =>
    by_cases hanswer : m.control = .reporting c :: (rest ++ base) ∧ ∃ a, m.focus = .answer a
    · obtain ⟨hc, a, hf⟩ := hanswer
      have hfinished : ∀ r, a = .ok r → m.Finished host c := by
        cases hattending with
        | runs _ hsuffix =>
          have := hsuffix.length_le
          simp [hc] at this
        | rounds hround =>
          rw [hf] at hround
          cases hround
        | leaves _ hf' hfinished =>
          rw [hf] at hf'
          cases hf'
          exact hfinished
      obtain ⟨a', hc', hf', ha'⟩ : ∃ a', m'.control = rest ++ base ∧ m'.focus = .answer a' ∧
          Settled Q a' := by
        rw [Machine.step, hf, hc] at hs
        cases a with
        | error p =>
          cases hs
          exact ⟨_, rfl, rfl, settled_error p⟩
        | ok r =>
          cases hs
          refine ⟨_, rfl, rfl, fun reply hreply => ?_⟩
          cases hreply
          refine ⟨_, rfl, ?_⟩
          simp only
          split
          · rename_i r' hr'
            exact hcell r' hr'
          all_goals
            rename_i hr'
            refine habandoned (fun r hr => ?_) (hfinished _ rfl) rest hrest hc _ hf
            have hr' : m.world.cell c = _ := hr'
            rw [hr'] at hr
            cases hr
      rcases hrest with rfl | ⟨l, rfl⟩
      · exact .told (.ended hc' hf' ha')
      · exact .told (.holds hc' hf' ha')
    · exact .attends (hattending.step hs fun a hc hf => hanswer ⟨hc, a, hf⟩) hrest

theorem Staying.settled {Q : RunResult K → Prop} {a : Except Payload (Reply K)}
    (h : Staying Q host c base m) (hc : m.control = base) (hf : m.focus = .answer a) :
    Settled Q a := by
  cases h with
  | @attends rest hattending =>
    have hlonger (hsuffix : .reporting c :: (rest ++ base) <:+ m.control) : False := by
      have := hsuffix.length_le
      simp [hc] at this
    cases hattending with
    | runs _ hsuffix => exact (hlonger ((List.suffix_cons _ _).trans hsuffix)).elim
    | rounds _ hc' | leaves hc' => exact (hlonger (hc' ▸ List.suffix_refl _)).elim
  | told h => exact h.answered hc hf

/-- A request to block on a host starts a run there. -/
theorem step_staying {program : Program K.signature} {r : Request K} {ρ : Run K}
    (hr : Blocks program r) (hf : m.focus = .request r) (hρ : ρ ∈ m.starts)
    (hs : m.step client = some m') (Q : RunResult K → Prop) :
    Staying Q ρ.host ⟨m.world.cells.size⟩ m.control m' := by
  obtain ⟨w, control, focus⟩ := m
  cases hf
  cases hs
  cases hr with
  | blockOn l config =>
    obtain rfl := List.mem_singleton.1 hρ
    have hsuffix : .thenPump l :: .reporting ⟨w.cells.size⟩ :: ([.sharing l] ++ control) <:+
        (perform client ⟨w, control, .request (.blockOn l config program)⟩
          (.blockOn l config program)).control := by
      simp [perform, launch, World.openCell]
    exact .attends (.runs (.thenPump l) hsuffix) (.inr ⟨l, rfl⟩)
  | blockOnWorker i config =>
    obtain rfl := List.mem_singleton.1 hρ
    have hsuffix : .thenWork i (some ⟨w.cells.size⟩) :: .reporting ⟨w.cells.size⟩ ::
        ([] ++ control) <:+ (perform client ⟨w, control, .request (.blockOnWorker i config program)⟩
          (.blockOnWorker i config program)).control := by
      simp [perform, launch, World.openCell]
    exact .attends (.runs (.thenWork i) hsuffix) (.inl rfl)

/-! ### What they are told -/

variable {ρ : Run K} {program : Program K.signature}

/-- What is written to the cell is an outcome. -/
theorem Only.settled_of_fills (h : m.Only ρ c) {content : Cell K} (hf : m.fills c = some content) :
    ∃ r, content = .settled r := by
  obtain ⟨w, control, focus⟩ := m
  cases focus with
  | complete run v stats =>
    by_cases hcell : run.recipient.isCell c <;> simp [hcell] at hf
    exact ⟨_, hf.symm⟩
  | report run e =>
    by_cases hcell : run.recipient.isCell c <;> simp [hcell] at hf
    exact ⟨_, hf.symm⟩
  | begin t =>
    cases t with
    | signal c' =>
      -- There is no ticket for a mark.
      by_cases hcell : c' = c
      · subst hcell
        classical
        let key (t : Ticket K) : Bool := decide (t = .signal c')
        have hzero : Machine.held ⟨w, control, .begin (.signal c')⟩ key = 0 := h.held fun t ht => by
          obtain rfl : t = .signal c' := by simpa [key] using ht
          simp [Ticket.leadsTo]
        have hmem : .signal c' ∈ inHand ⟨w, control, .begin (.signal c')⟩ := by simp [inHand]
        exact absurd hzero (held_pos_of_inHand hmem (by simp [key])).ne'
      · simp [hcell] at hf
    | resume f => cases hf
    | client t => cases hf
  | _ => cases hf

variable (client ρ c m n) in
/-- The cell holds what has been reported of the run in the first `n` moves. -/
inductive Recorded : Prop where
  | vacant : (m.run client n).world.cell c = .vacant →
    (∀ i < n, ∀ x, (m.run client i).focus.reports ≠ some (ρ, x)) → Recorded
  | settled {i : ℕ} {x : Except RunError (K.signature.Value × Stats)} : i < n →
    (m.run client i).focus.reports = some (ρ, x) →
    (m.run client n).world.cell c = .settled (x.map Prod.fst) → Recorded

theorem Recorded.succ (h : Recorded client m c n ρ) (hrun : ρ.recipient = .cell c)
    (honly : (m.run client n).Only ρ c) (hs : (m.run client n).step client = some m') :
    Recorded client m c (n + 1) ρ := by
  have hcell : (m.run client (n + 1)).world.cell c =
      ((m.run client n).fills c).getD ((m.run client n).world.cell c) := by
    rw [run_succ_of_step hs]
    exact (step_frames hs).cell c honly.opened
  cases hfills : (m.run client n).fills c with
  | some content =>
    obtain ⟨r, rfl⟩ := honly.settled_of_fills hfills
    obtain ⟨x, hx, rfl⟩ := honly.reports_of_fills hfills
    rw [hfills, Option.getD_some] at hcell
    exact .settled (Nat.lt_succ_self n) hx hcell
  | none =>
    rw [hfills, Option.getD_none] at hcell
    cases h with
    | settled hi hx hc => exact .settled (Nat.lt_succ_of_lt hi) hx (hcell.trans hc)
    | vacant hc hnone =>
      refine .vacant (hcell.trans hc) fun i hi x hx => ?_
      rcases Nat.lt_succ_iff_lt_or_eq.1 hi with hi | rfl
      · exact hnone i hi x hx
      · rw [(reports_cell hx hrun).2.1] at hfills
        cases hfills

/-- When the host has no tasks and those are there who have started the run, nothing of it is under
way. -/
theorem Apart.live_of_idle {own : M → Unit} (h : Apart client own ρ program m)
    (hidle : (m.run client n).world.contents ρ.host = [])
    (hcontrol : ∀ activity ∈ (m.run client n).control, activity ∉ m.control →
      activity.tickets = []) {a : Except Payload (Reply K)}
    (hf : (m.run client n).focus = .answer a) : (m.run client n).live ρ.id = 0 := by
  have hne (focus : Focus K M) (hf' : (m.run client n).focus = focus) (h : focus ≠ .answer a) :
      (m.run client n).live ρ.id = 0 := absurd (hf'.symm.trans hf) h
  have hstands := h.stands n
  generalize handed client m ρ.id n = k at hstands
  cases hstands with
  | waits hw =>
    rw [hidle] at hw
    cases hw
  | begun hf' => rcases hf' with hf' | hf' <;> exact hne _ hf' (by simp)
  | slice hf' => exact hne _ hf' (by simp)
  | handed hf' => exact hne _ hf' (by simp)
  | @asks _ t _ next hmem =>
    by_cases hbase : .code (.slice ⟨ρ, t⟩) next ∈ m.control
    · exact absurd h.tickets_control (tickets_pos_of_asks hbase).ne'
    · cases hcontrol _ hmem hbase
  | gone hl => exact hl

/-- What those may be told who block on a host: what has been reported of the run, or that it is
abandoned. -/
def Informs (client : Client K M) (ρ : Run K) (m : Machine K M) (n : ℕ) (r : RunResult K) : Prop :=
  (∃ j < n, ∃ x, (m.run client j).focus.reports = some (ρ, x) ∧ r = x.map Prod.fst) ∨
  r = .error .abandoned ∧ ∃ j < n, 1 ≤ j ∧
    (∀ i ≤ j, ∀ x, (m.run client i).focus.reports ≠ some (ρ, x)) ∧
    ((m.run client j).live ρ.id = 0 ∨ ¬ (m.run client j).world.Serves ρ.host)

/-- Those who block on a host are told what has been reported of the run. If nothing has been
reported, they are told that it is abandoned, and then nothing of it waits or is under way, unless
the host has gone out of service. -/
theorem Blocks.told {r : Request K} (hm : m.InSession client) (hr : Blocks program r)
    (hf : m.focus = .request r) (hρ : ρ ∈ m.starts) {a : Except Payload (Reply K)}
    (ha : Answered client m n a) : Settled (Informs client ρ m n) a := by
  obtain ⟨ρ', m₁, hs, hi, hcell, hresult, hfocus, hvacant⟩ := step_blocks client hr hf
  have hone : m.run client 1 = m₁ := run_succ_of_step (n := 0) hs
  obtain rfl : ρ' = ρ := by
    have hmem : ρ' ∈ m.starts := mem_starts_of_issued (by
      rw [hi]
      exact List.mem_singleton_self _)
    rcases m.starts_cases with hnil | ⟨_, hsingle, -⟩
    · rw [hnil] at hρ
      cases hρ
    · rw [hsingle, List.mem_singleton] at hρ hmem
      rw [hρ, hmem]
  have hfresh : m.held (·.leadsTo ⟨m.world.cells.size⟩) = 0 := by
    obtain ⟨clock, memory, main, i, rfl⟩ := hm
    exact run_fresh rfl rfl i le_rfl
  have hstart (x) : (m.run client 0).focus.reports ≠ some (ρ', x) := by
    rw [run, hf]
    intro hx
    cases hx
  have happart : Apart client (fun _ => ()) ρ' program (m.run client 1) :=
    (hm.run 1).apart (by rw [hone, hfocus]) hresult
  have hbase : m.control <:+ (m.run client 1).control := by
    obtain ⟨m', -, hrun, hsuffix⟩ := ha.first.step (ha.pos hf)
    rwa [← hrun] at hsuffix
  have hall (j : ℕ) (hj : 1 ≤ j) : j ≤ n → (m.run client j).Only ρ' ⟨m.world.cells.size⟩ ∧
      Recorded client m ⟨m.world.cells.size⟩ j ρ' ∧
        Staying (Informs client ρ' m n) ρ'.host ⟨m.world.cells.size⟩ m.control
          (m.run client j) := by
    induction j, hj using Nat.le_induction with
    | base =>
      intro _
      rw [hone]
      refine ⟨only_of_issued hcell hfresh hs hi, .vacant (hone ▸ hvacant) fun i hi x => ?_,
        step_staying hr hf hρ hs _⟩
      obtain rfl := Nat.lt_one_iff.1 hi
      exact hstart x
    | succ j hj₁ ih =>
      intro hj
      obtain ⟨honly, hrecorded, hstaying⟩ := ih (Nat.le_of_succ_le hj)
      obtain ⟨m', hs', hrun, -⟩ := ha.first.step hj
      refine ⟨hrun ▸ honly.step hs', hrecorded.succ hcell honly hs', hrun ▸ ?_⟩
      refine hstaying.step hs' (fun out hout => ?_) (fun hnone hfinished rest hrest hc a hf' => ?_)
        (ha.first j hj)
      · cases hrecorded with
        | vacant hvacant =>
          rw [hvacant] at hout
          cases hout
        | settled hi hx hc =>
          rw [hc] at hout
          cases hout
          exact .inl ⟨_, hi.trans hj, _, hx, rfl⟩
      · cases hrecorded with
        | settled _ _ hc => exact absurd hc (hnone _)
        | vacant hvacant hreports =>
          refine .inr ⟨rfl, j, hj, hj₁, fun i hi x => ?_, ?_⟩
          · rcases hi.lt_or_eq with hlt | rfl
            · exact hreports i hlt x
            · rw [hf']
              intro hx
              cases hx
          · rcases hfinished with hfilled | hidle | hserves
            · simp [World.isFilled, hvacant] at hfilled
            · refine .inl ?_
              obtain ⟨i, rfl⟩ := Nat.exists_eq_add_of_le hj₁
              rw [run_add] at hidle hc hf' ⊢
              refine happart.live_of_idle hidle (fun activity hmem hnew => ?_) hf'
              rw [hc, List.mem_cons, List.mem_append] at hmem
              rcases hmem with rfl | hmem | hmem
              · rfl
              · rcases hrest with rfl | ⟨l, rfl⟩
                · cases hmem
                · obtain rfl := List.mem_singleton.1 hmem
                  rfl
              · exact absurd (hbase.subset hmem) hnew
            · exact .inr hserves
  exact (hall n (ha.pos hf) le_rfl).2.2.settled ha.control ha.focus

end Machine

end LazyEffects
