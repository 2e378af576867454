import LazyEffects.Proofs.Loops
import LazyEffects.Proofs.Pumping

/-!
# The turns of an event loop

An event loop counts the tasks that it starts. As long as it has an owner, every task that is handed
to it has been started or is still in its queue, so the count tells how many tasks have been handed
to it.

* `Machine.run_tally`: the turns of an event loop and the tasks in its queue are as many as the
  tasks that have been deferred to it.
-/

namespace LazyEffects

variable {K : Codes} {M : Type}

namespace World

variable {w w' w'' : World K M} {l : LoopId} {d d' : ℕ}

/-- The number of tasks that an event loop has started or holds, while it has an owner. -/
def tally (w : World K M) (l : LoopId) : Option ℕ :=
  (w.loop? l).map fun s => s.turns + s.queue.size

/-- `d` tasks have been handed to an event loop, unless it is gone. -/
structure Tallies (l : LoopId) (d : ℕ) (w w' : World K M) : Prop where
  size : w.loops.size ≤ w'.loops.size
  tally {n' : ℕ} : l.index < w.loops.size → w'.tally l = some n' →
    ∃ n, w.tally l = some n ∧ n' = n + d

theorem Tallies.trans (h : Tallies l d w w') (h' : Tallies l d' w' w'') :
    Tallies l (d + d') w w'' where
  size := h.size.trans h'.size
  tally hl hn := by
    obtain ⟨n₁, hn₁, rfl⟩ := h'.tally (hl.trans_le h.size) hn
    obtain ⟨n₀, hn₀, rfl⟩ := h.tally hl hn₁
    exact ⟨n₀, hn₀, Nat.add_assoc _ _ _⟩

variable (l) in
theorem tallies_refl (w : World K M) : Tallies l 0 w w := ⟨le_rfl, fun {n'} _ hn => ⟨n', hn, rfl⟩⟩

end World

namespace Machine

open World

variable {client : Client K M} {m m' : Machine K M} {l : LoopId} {s s' : EventLoop K}

/-- An event loop with an owner takes in what is deferred to it. -/
theorem defersTo_of_enters (hs : m.world.loop? l = some s) (h : m.enters l = none) :
    m.defersTo (.eventLoop l) = false := by
  rw [← Bool.not_eq_true, defersTo_iff]
  rintro ⟨delay, t, hf, ho⟩
  simp [enters, hf, hs, ho] at h

/-- A move changes the tally of an event loop by the task that is deferred to it. -/
theorem LoopMove.tally (hs : m.world.loop? l = some s) (h : LoopMove l m s s') :
    s'.turns + s'.queue.size =
      s.turns + s.queue.size + (m.defersTo (.eventLoop l)).toNat := by
  cases h with
  | steady he =>
    rw [defersTo_of_enters hs he]
    rfl
  | accepted he =>
    obtain ⟨delay, -, hf, -, -, -, ho⟩ := enters_eq_some he
    simp only [defersTo_iff.2 ⟨delay, _, hf, ho⟩, Bool.toNat_true, TimerQueue.size_push]
    omega
  | started he _ hpop =>
    simp only [defersTo_of_enters hs he, TimerQueue.size_popDue hpop, Bool.toNat_false]
    omega

variable (l) in
/-- A move hands a task to an event loop if it defers one to it. -/
theorem step_tallies (h : m.step client = some m') :
    Tallies l (m.defersTo (.eventLoop l)).toNat m.world m'.world where
  size := (step_loop l h).size
  tally {n'} hl hn := by
    obtain ⟨s', hs', rfl⟩ := Option.map_eq_some_iff.1 hn
    rcases (step_loop l h).loop hs' with ⟨hle, -⟩ | ⟨s, hs, hmove⟩
    · exact absurd hl (Nat.not_lt_of_le hle)
    · refine ⟨s.turns + s.queue.size, ?_, hmove.tally hs⟩
      rw [World.tally, hs]
      rfl

variable (client l) in
/-- As long as an event loop has an owner, it has started or still holds whatever has been deferred
to it. -/
theorem run_tally (m : Machine K M) (n : ℕ) :
    Tallies l (deferrals client m (.eventLoop l) n) m.world (m.run client n).world := by
  induction n with
  | zero => exact tallies_refl l m.world
  | succ n ih =>
    rw [deferrals_succ, run_succ]
    cases hs : (m.run client n).step client with
    | none =>
      obtain ⟨-, a, hf⟩ := step_eq_none hs
      simpa [defersTo, hf] using ih
    | some m' => exact ih.trans (step_tallies l hs)

end Machine

end LazyEffects
