import LazyEffects.Proofs.Awaited
import Mathlib.Algebra.Order.BigOperators.Group.Finset

/-!
# Outcomes that are left in cells

Whoever blocks on a host has a cell opened for the outcome of a run, and nobody but the run writes
to that cell.

* `Machine.Only.reports_of_fills`: what is written to the cell is what is reported of the run;
* `Machine.step_blocks`: a request to block on a host opens a cell and starts a run leading there.
-/

namespace LazyEffects

variable {K : Codes} {M : Type}

namespace World

theorem waiting_mono (w : World K M) {key key' : Task K → Bool}
    (h : ∀ t, key t = true → key' t = true) : w.waiting key ≤ w.waiting key' :=
  Finset.sum_le_sum fun _ _ => List.countP_mono_left fun t _ => h t

end World

namespace Machine

variable {client : Client K M} {m m' : Machine K M} {ρ : Run K} {c : CellId}

theorem held_mono (m : Machine K M) {key key' : Ticket K → Bool}
    (h : ∀ t, key t = true → key' t = true) : m.held key ≤ m.held key' :=
  Nat.add_le_add (List.countP_mono_left fun t _ => h t) (m.world.waiting_mono fun t => h t.ticket)

/-- The cell has been opened, and no ticket leads there but that of the run. -/
structure Only (ρ : Run K) (c : CellId) (m : Machine K M) : Prop where
  opened : c.index < m.world.cells.size
  held {key : Ticket K → Bool} : (∀ t, key t = true → t.leadsTo c = true ∧ t ≠ .run ρ) →
    m.held key = 0

theorem Only.step (h : m.Only ρ c) (hs : m.step client = some m') : m'.Only ρ c where
  opened := h.opened.trans_le (step_frames hs).cells
  held {key} hkey := by
    have hissued : m.issued.countP (·.leadsTo c) = 0 := by
      by_contra hne
      have hindex := (step_opens hs hne).1
      have hopened := h.opened
      omega
    have hle : m.issued.countP key ≤ m.issued.countP (·.leadsTo c) :=
      List.countP_mono_left fun t _ ht => (hkey t ht).1
    have hbalance := step_held hs key
    have hheld := h.held hkey
    omega

/-- The ticket that is issued as a cell is opened is the only one that leads there. -/
theorem only_of_issued (hrun : ρ.recipient = .cell c) (hm : m.held (·.leadsTo c) = 0)
    (hs : m.step client = some m') (hi : m.issued = [.run ρ]) : m'.Only ρ c where
  opened := (sole_of_issued hrun hm hs hi).opened
  held {key} hkey := by
    have hρ : key (.run ρ) = false := by
      by_contra hne
      exact (hkey _ (by simpa using hne)).2 rfl
    have hissued : m.issued.countP key = 0 := by
      rw [hi, List.countP_singleton, hρ]
      rfl
    have hle : m.held key ≤ m.held (·.leadsTo c) := m.held_mono fun t ht => (hkey t ht).1
    have hbalance := step_held hs key
    omega

/-- What is written to the cell is what is reported of the run. -/
theorem Only.reports_of_fills (h : m.Only ρ c) {r : RunResult K}
    (hf : m.fills c = some (.settled r)) :
    ∃ x, m.focus.reports = some (ρ, x) ∧ r = x.map Prod.fst := by
  -- The ticket of the run that is being reported leads to the cell, so it is that of `ρ`.
  have hρ {ρ' : Run K} (hmem : .run ρ' ∈ m.inHand) (hcell : ρ'.recipient.isCell c = true) :
      ρ' = ρ := by
    by_contra hne
    classical
    let key (t : Ticket K) : Bool := decide (t = .run ρ')
    have hzero : m.held key = 0 := h.held fun t ht => by
      obtain rfl : t = .run ρ' := by simpa [key] using ht
      exact ⟨hcell, by simpa using hne⟩
    exact (held_pos_of_inHand hmem (by simp [key])).ne' hzero
  obtain ⟨w, control, focus⟩ := m
  cases focus with
  | complete ρ' v stats =>
    by_cases hcell : ρ'.recipient.isCell c
    · cases hρ (List.mem_append_left _ (List.mem_singleton_self _)) hcell
      simp only [fills, hcell, if_true, Option.some.injEq, Cell.settled.injEq] at hf
      exact ⟨_, rfl, hf.symm⟩
    · simp [hcell] at hf
  | report ρ' e =>
    by_cases hcell : ρ'.recipient.isCell c
    · cases hρ (List.mem_append_left _ (List.mem_singleton_self _)) hcell
      simp only [fills, hcell, if_true, Option.some.injEq, Cell.settled.injEq] at hf
      exact ⟨_, rfl, hf.symm⟩
    · simp [hcell] at hf
  | begin t =>
    cases t with
    | signal c' =>
      simp only [fills] at hf
      split at hf <;> cases hf
    | resume | client => cases hf
  | _ => cases hf

/-- An answer that returns is an outcome with the property. -/
def Settled (Q : RunResult K → Prop) (a : Except Payload (Reply K)) : Prop :=
  ∀ reply, a = .ok reply → ∃ r, reply = .settled r ∧ Q r

theorem settled_error {Q : RunResult K → Prop} (p : Payload) : Settled Q (.error p) := by
  intro reply h
  cases h

/-- A request that starts a run of the program and waits for its outcome. -/
inductive Blocks (program : Program K.signature) : Request K → Prop where
  | blockOn (l : LoopId) (config : Config) : Blocks program (.blockOn l config program)
  | blockOnWorker (i : WorkerId) (config : Config) :
    Blocks program (.blockOnWorker i config program)

variable (client) in
/-- A run is started whose ticket leads to a new cell. -/
theorem step_blocks {program : Program K.signature} {r : Request K} (hr : Blocks program r)
    (hf : m.focus = .request r) :
    ∃ ρ m', m.step client = some m' ∧ m.issued = [.run ρ] ∧
      ρ.recipient = .cell ⟨m.world.cells.size⟩ ∧ ρ.result = program.result ∧
      m'.focus = .resume ⟨ρ, .start program.root⟩ ∧
      m'.world.cell ⟨m.world.cells.size⟩ = .vacant := by
  obtain ⟨w, control, focus⟩ := m
  cases hf
  have hvacant {w' : World K M} (h : w.Keeps client w') : w'.cell ⟨w.cells.size⟩ = .vacant := by
    rw [h.cell]
    simp [World.cell]
  cases hr with
  | blockOn l config =>
    refine ⟨_, _, rfl, rfl, rfl, rfl, ?_, ?_⟩
    · simp [perform, launch, World.nextRun, World.openCell]
    · change (noteBudget client config (w.share l).openCell.2).cell _ = _
      exact hvacant (((World.keeps_share w l).trans (World.keeps_openCell _)).trans
        (keeps_noteBudget client config _))
  | blockOnWorker i config =>
    refine ⟨_, _, rfl, rfl, rfl, rfl, ?_, ?_⟩
    · simp [perform, launch, World.nextRun, World.openCell]
    · change (noteBudget client config w.openCell.2).cell _ = _
      exact hvacant ((World.keeps_openCell w).trans (keeps_noteBudget client config _))

end Machine

end LazyEffects
