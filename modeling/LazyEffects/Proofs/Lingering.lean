import LazyEffects.Proofs.Agreement
import LazyEffects.Proofs.Cells
import LazyEffects.Proofs.Rounds
import LazyEffects.Proofs.Standing

/-!
# Waiting for one run at an event loop

Whoever blocks on an event loop wants the outcome of one run, and stays at the loop for it. But they
leave when the loop is idle, and not when the outcome is there: as long as a task is pending at the
loop, whoever has deferred it and whenever it is due, they start it or wait for it.

* `Machine.Writable.settled`: an outcome that is there stays;
* `Machine.lingers_iff_pending`: who has the outcome goes on if and only if a task is pending.
-/

namespace LazyEffects

variable {K : Codes} {M : Type}

namespace World

/-- There is nothing to wait for at an event loop if and only if it holds no tasks. -/
theorem nextDue_eq_none_iff {w : World K M} {l : LoopId} :
    w.nextDue l = none ↔ w.contents (.eventLoop l) = [] := by
  rw [nextDue, contents]
  cases w.loop? l with
  | none => simp
  | some s =>
    refine ⟨TimerQueue.tasks_of_nextDue, fun h => ?_⟩
    have hheap : s.queue.heap = #[] := by simpa [TimerQueue.tasks] using h
    simp [TimerQueue.nextDue, hheap]

end World

namespace Machine

variable {client : Client K M} {l : LoopId} {m m' : Machine K M} {c : CellId} {n k executed : ℕ}

/-! ### Outcomes stay -/

/-- Nothing has been written to the cell as long as there is someone who may write to it. -/
structure Writable (c : CellId) (m : Machine K M) : Prop where
  sole : m.Sole c
  vacant : m.held (·.leadsTo c) ≠ 0 → m.world.cell c = .vacant

/-- Who writes to a cell uses up a ticket that leads there. -/
theorem spent_of_fills (h : m.fills c ≠ none) : m.spent.countP (·.leadsTo c) ≠ 0 := by
  obtain ⟨w, control, focus⟩ := m
  cases focus with
  | complete run v stats =>
    by_cases hc : run.recipient.isCell c <;> simp [hc] at h
    simp [Ticket.leadsTo, hc]
  | report run e =>
    by_cases hc : run.recipient.isCell c <;> simp [hc] at h
    simp [Ticket.leadsTo, hc]
  | begin t =>
    cases t with
    | signal c' =>
      by_cases hc : c' = c <;> simp [hc] at h
      simp [Ticket.leadsTo, hc]
    | resume f => exact absurd rfl h
    | client t => exact absurd rfl h
  | _ => exact absurd rfl h

theorem fills_of_held (h : m.held (·.leadsTo c) = 0) : m.fills c = none :=
  fills_eq_none (Nat.eq_zero_of_add_eq_zero_right h)

/-- What is in a cell to which nothing is written stays there. -/
theorem cell_of_fills (hc : m.Sole c) (hf : m.fills c = none) (hs : m.step client = some m') :
    m'.world.cell c = m.world.cell c := by
  rw [(step_frames hs).cell c hc.opened, hf]
  rfl

namespace Writable

theorem step (h : m.Writable c) (hs : m.step client = some m') : m'.Writable c where
  sole := h.sole.step hs
  vacant hheld := by
    have hbalance := h.sole.step_held hs
    have hle := h.sole.held
    have hfills : m.fills c = none := by
      by_contra hne
      have := spent_of_fills hne
      omega
    rw [cell_of_fills h.sole hfills hs]
    exact h.vacant (by omega)

theorem run (h : m.Writable c) (n : ℕ) : (m.run client n).Writable c := by
  induction n with
  | zero => exact h
  | succ n ih =>
    rw [run_succ]
    cases hs : (m.run client n).step client with
    | none => exact ih
    | some m' => exact ih.step hs

/-- An outcome that is in the cell stays there. -/
theorem settled (h : m.Writable c) {r : RunResult K}
    (hr : (m.run client n).world.cell c = .settled r) (hn : n ≤ k) :
    (m.run client k).world.cell c = .settled r := by
  induction k, hn using Nat.le_induction with
  | base => exact hr
  | succ k _ ih =>
    rw [run_succ]
    cases hs : (m.run client k).step client with
    | none => exact ih
    | some m' =>
      have hwritable : (m.run client k).Writable c := h.run k
      have hheld : (m.run client k).held (·.leadsTo c) = 0 := by
        by_contra hne
        rw [hwritable.vacant hne] at ih
        cases ih
      rw [← ih]
      exact cell_of_fills hwritable.sole (fills_of_held hheld) hs

end Writable

/-! ### Those who stay -/

variable (client l m n executed) in
/-- Someone has blocked on an event loop, and after `n` moves they begin a round of pumping it. -/
structure Stays : Prop where
  control : (m.run client n).control =
    .reporting ⟨m.world.cells.size⟩ :: .sharing l :: m.control
  focus : (m.run client n).focus = .pump l executed
  unanswered : Unanswered client m n

variable (client l m executed) in
/-- The next move of someone who begins a round of pumping and does not leave: they start the task
that is ahead of all others, or they wait until it is due. -/
inductive Lingers : Prop where
  | starts {timer : Timer (Task K)} : m.leaves l = some timer →
    (m.run client 1).focus = .begin timer.task →
    (m.run client 1).control = .pumping l executed :: m.control → Lingers
  | waits {due : Instant} : m.world.nextDue l = some due →
    (m.run client 1).focus = .pump l executed → (m.run client 1).control = m.control →
    due ≤ (m.run client 1).world.clock.now → Lingers

/-- Those who begin a round go on if and only if a task is pending. -/
theorem lingers_iff (hf : m.focus = .pump l executed) :
    Lingers client l m executed ↔ m.world.contents (.eventLoop l) ≠ [] := by
  rw [Ne, ← World.nextDue_eq_none_iff]
  obtain ⟨m', hs⟩ := exists_step client (m := m) (by simp [hf])
  have hrun : m.run client 1 = m' := run_succ_of_step (n := 0) hs
  constructor
  · rintro (⟨hleaves, -, -⟩ | ⟨hdue, -⟩)
    · exact nextDue_of_leaves hleaves
    · simp [hdue]
  · intro hne
    obtain ⟨due, hdue⟩ := Option.ne_none_iff_exists'.1 hne
    rcases pump_cases hf hs with ⟨timer, hleaves, hf', hc'⟩ | ⟨hleaves, hc', ⟨-, hf'⟩ | ⟨hnone, -⟩⟩
    · exact .starts hleaves (by rw [hrun, hf']) (by rw [hrun, hc'])
    · refine .waits hdue (by rw [hrun, hf']) (by rw [hrun, hc']) ?_
      rw [hrun, (step_waits hf hs hleaves hdue).1]
      exact le_max_right _ _
    · exact absurd hnone hne

/-- There is one first answer. -/
theorem Answered.unique {a a' : Except Payload (Reply K)} (h : Answered client m n a)
    (h' : Answered client m k a') : k = n ∧ a' = a := by
  rcases le_total k n with hle | hle
  · exact h.eq_of_le hle h'.control h'.focus
  · obtain ⟨hn, ha⟩ := h'.eq_of_le hle h.control h.focus
    exact ⟨hn.symm, ha.symm⟩

namespace Stays

/-- Those who have the outcome leave with it when no task is pending. -/
theorem leave (h : Stays client l m n executed) {r : RunResult K}
    (hr : (m.run client n).world.cell ⟨m.world.cells.size⟩ = .settled r)
    (hidle : (m.run client n).world.contents (.eventLoop l) = []) :
    Answered client m (n + 5) (.ok (.settled r)) := by
  obtain ⟨m₁, hs⟩ := exists_step client (m := m.run client n) (by simp [h.focus])
  have hdue := World.nextDue_eq_none_iff.2 hidle
  rcases pump_cases h.focus hs with ⟨timer, hleaves, -⟩ | ⟨-, hc₁, ⟨hne, -⟩ | ⟨-, hf₁, hdue₁⟩⟩
  · exact absurd hdue (nextDue_of_leaves hleaves)
  · exact absurd hdue hne
  have hcell : m₁.world.cell ⟨m.world.cells.size⟩ = .settled r := by
    rw [← hr]
    rw [step, h.focus] at hs
    cases hs
    have hkeeps : (m.run client n).world.Keeps client
        ((m.run client n).pump client l executed).world := pump_keeps _ l executed
    exact hkeeps.cell _
  obtain ⟨w, control, focus⟩ := m₁
  cases hf₁
  cases hc₁.trans h.control
  have hrelease : (w.release l).1 = [] := release_of_nextDue hdue₁
  have hone := run_succ_of_step hs
  have htwo (i : ℕ) : m.run client (n + 2 + i) =
      run client i ⟨w, .sharing l :: m.control, .answer (.ok (.settled r))⟩ := by
    rw [run_add, run_succ_of_step (m := m) (n := n + 1)]
    rw [hone]
    simp only [step, returnTo, hcell]
    rfl
  have hlast : m.run client (n + 5) = ⟨(w.release l).2, m.control, .answer (.ok (.settled r))⟩ := by
    rw [show n + 5 = n + 2 + 3 from rfl, htwo, run_sharing hrelease]
  refine ⟨by rw [hlast], by rw [hlast], fun j hj a hc => ?_⟩
  -- From the round on there is someone above those who are answered.
  have habove (hlt : m.control.length < (m.run client j).control.length) :
      (m.run client j).focus ≠ .answer a := by
    rw [hc] at hlt
    exact absurd hlt (lt_irrefl _)
  rcases Nat.lt_or_ge j n with hlt | hge
  · exact h.unanswered j hlt a hc
  rcases Nat.lt_or_ge j (n + 2) with hlt | hge'
  · obtain rfl | rfl : j = n ∨ j = n + 1 := by omega
    · exact habove (by rw [h.control]; simp)
    · exact habove (by rw [hone]; simp)
  · obtain ⟨i, rfl⟩ := Nat.exists_eq_add_of_le hge'
    rw [htwo] at habove ⊢
    exact habove (length_run_sharing client m.control (.settled r) hrelease (by omega))

/-- Those who leave have begun a last round, with no task pending. -/
theorem exists_last (h : Stays client l m n executed) {reply : Reply K}
    (ha : Answered client m k (.ok reply)) : ∃ j executed, n ≤ j ∧ j < k ∧
      Stays client l m j executed ∧ (m.run client j).world.contents (.eventLoop l) = [] := by
  have hlt : n < k := by
    by_contra hle
    rcases (Nat.le_of_not_lt hle).lt_or_eq with hlt | rfl
    · exact h.unanswered k hlt _ ha.control ha.focus
    · have := congrArg List.length (h.control.symm.trans ha.control)
      simp only [List.length_cons] at this
      omega
  obtain ⟨d, rfl⟩ := Nat.exists_eq_add_of_lt hlt
  -- The pump is over before they are answered.
  obtain ⟨i, a, hi, ha'⟩ : ∃ i a, i < d + 1 ∧ Answered client (m.run client n) i a :=
    exists_answered_of_shorter (by
      rw [← run_add, ← Nat.add_assoc, ha.control, h.control]
      simp)
  have hrun := ha'.run_eq
  rw [← run_add, h.control] at hrun
  cases a with
  | error p =>
    have hend : m.run client (n + i + 2) =
        ⟨((m.run client (n + i)).world.release l).2, m.control, .answer (.error p)⟩ := by
      rw [run_add, hrun]
      rfl
    have hone : m.run client (n + i + 1) =
        ⟨(m.run client (n + i)).world, .sharing l :: m.control, .answer (.error p)⟩ := by
      rw [run_add, hrun]
      rfl
    have hle : n + i + 2 ≤ n + d + 1 := by
      by_contra hgt
      obtain rfl : i = d := by omega
      have := congrArg (List.length ∘ Machine.control) hone
      simp [ha.control] at this
    obtain ⟨-, hp⟩ := ha.eq_of_le hle (by rw [hend]) (by rw [hend])
    cases hp
  | ok r =>
    obtain ⟨j, executed, rfl, hc, hf, hdue, -⟩ := ha'.pumped h.focus
    rw [← run_add] at hc hf hdue
    exact ⟨n + j, executed, by omega, by omega,
      ⟨hc.trans h.control, hf, ha.first.of_le (by omega)⟩, World.nextDue_eq_none_iff.1 hdue⟩

end Stays

/-! ### Those who have the outcome -/

variable (client l m n executed) in
/-- What those do who have blocked on an event loop and begin a round when the outcome is there. -/
structure Outstays (r : RunResult K) : Prop where
  /-- They go on if and only if a task is pending, whichever it is. -/
  lingers_iff : Lingers client l (m.run client n) executed ↔
    (m.run client n).world.contents (.eventLoop l) ≠ []
  leaves : (m.run client n).world.contents (.eventLoop l) = [] →
    Answered client m (n + 5) (.ok (.settled r))
  /-- They leave with the outcome after a round in which nothing is pending. Unless the event loop
  has lost its owners, all that was pending and all that has come since has been started. -/
  last {k : ℕ} {reply : Reply K} : Answered client m k (.ok reply) →
    reply = .settled r ∧ ∃ d executed, k = n + d + 5 ∧ Stays client l m (n + d) executed ∧
      (m.run client (n + d)).world.contents (.eventLoop l) = [] ∧
      ∀ {s s' : EventLoop K}, (m.run client n).world.loop? l = some s →
        (m.run client (n + d)).world.loop? l = some s' →
        ((m.run client n).started client l d).Perm
          (s.queue.heap.toList ++ (m.run client n).accepted client l d)

/-- The cell in which one looks for the outcome who blocks on an event loop is written to once. -/
theorem InSession.settled {config : Config} {program : Program K.signature}
    (h : m.InSession client) (hf : m.focus = .request (.blockOn l config program))
    {r : RunResult K} (hr : (m.run client n).world.cell ⟨m.world.cells.size⟩ = .settled r)
    (hn : n ≤ k) : (m.run client k).world.cell ⟨m.world.cells.size⟩ = .settled r := by
  obtain ⟨ρ, m₁, hs, hi, hcell, -, -, hvacant⟩ := step_blocks client (.blockOn l config) hf
  have hfresh : m.held (·.leadsTo ⟨m.world.cells.size⟩) = 0 := by
    obtain ⟨clock, memory, main, i, rfl⟩ := h
    exact run_fresh rfl rfl i le_rfl
  have hwritable : m₁.Writable ⟨m.world.cells.size⟩ :=
    ⟨sole_of_issued hcell hfresh hs hi, fun _ => hvacant⟩
  have hone : m.run client 1 = m₁ := run_succ_of_step (n := 0) hs
  have hpos : 0 < n := by
    refine Nat.pos_of_ne_zero fun hzero => ?_
    subst hzero
    change m.world.cell ⟨m.world.cells.size⟩ = .settled r at hr
    simp [World.cell] at hr
  obtain ⟨n, rfl⟩ := Nat.exists_eq_add_of_lt hpos
  obtain ⟨k, rfl⟩ := Nat.exists_eq_add_of_lt (hpos.trans_le hn)
  rw [Nat.zero_add, Nat.add_comm, run_add, hone] at hr ⊢
  exact hwritable.settled hr (by omega)

/-- Whoever blocks on an event loop and finds the outcome of their run, as they begin a round of
pumping, leaves with it if and only if the loop is idle. As long as any task is pending, they start
the one that comes first or wait for it. -/
theorem lingers_iff_pending {config : Config} {program : Program K.signature} {r : RunResult K}
    (hm : m.InSession client) (hf : m.focus = .request (.blockOn l config program))
    (h : Stays client l m n executed)
    (hr : (m.run client n).world.cell ⟨m.world.cells.size⟩ = .settled r) :
    Outstays client l m n executed r where
  lingers_iff := lingers_iff h.focus
  leaves := h.leave hr
  last ha := by
    obtain ⟨j, executed', hle, -, hlast, hidle⟩ := h.exists_last ha
    obtain ⟨d, rfl⟩ := Nat.exists_eq_add_of_le hle
    have hleave := hlast.leave (hm.settled hf hr hle) hidle
    obtain ⟨rfl, hreply⟩ := hleave.unique ha
    cases hreply
    refine ⟨rfl, d, executed', rfl, hlast, hidle, fun {s s'} hs hs' => ?_⟩
    obtain ⟨clock, memory, main, i, rfl⟩ := hm
    rw [← run_add] at hs hs' hidle ⊢
    rw [← Nat.add_assoc] at hs' hidle
    have hempty : s'.queue.heap.toList = [] := by
      rw [World.contents_loop hs'] at hidle
      simpa [TimerQueue.tasks] using hidle
    have hbetween := (booked client l rfl (i + n)).between (booked client l rfl (i + n + d)) hs hs'
    rwa [hempty, List.append_nil] at hbetween

end Machine

/-! ### A task that is waited for -/

namespace Plain

open Machine

/-- A job of two slices is to be run on an event loop that holds a task which is due later. -/
def lingering : Machine Plain Unit :=
  asking [.openLoop, .defer (.eventLoop ⟨0⟩) (.ofMillis 20) (),
    .blockOn ⟨0⟩ ⟨1, .zero, true⟩ pair.program] 8

/-- After the second slice the outcome is there, and the next round begins. -/
theorem lingering_stays : Stays client ⟨0⟩ lingering 14 1 where
  control := by cbv
  focus := by cbv
  unanswered := unanswered_of_all (by cbv)

/-- They wait for the task of the other one, who has nothing to do with their run. -/
theorem lingering_outstays : Outstays client ⟨0⟩ lingering 14 1 (.ok ()) ∧
    Lingers client ⟨0⟩ (lingering.run client 14) 1 := by
  have hrequest : lingering.focus =
      .request (.blockOn ⟨0⟩ ⟨1, .zero, true⟩ pair.program) := by cbv
  have hcell : (lingering.run client 14).world.cell ⟨lingering.world.cells.size⟩ =
      .settled (.ok ()) := by cbv
  have hpending : (lingering.run client 14).world.contents (.eventLoop ⟨0⟩) = [.client ()] := by cbv
  have hsession : lingering.InSession client := ⟨_, _, _, _, rfl⟩
  have houtstays := lingers_iff_pending hsession hrequest lingering_stays hcell
  refine ⟨houtstays, houtstays.lingers_iff.2 ?_⟩
  rw [hpending]
  exact List.cons_ne_nil _ _

end Plain

end LazyEffects
