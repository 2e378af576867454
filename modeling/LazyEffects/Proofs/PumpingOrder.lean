import LazyEffects.Proofs.Standing
import LazyEffects.Proofs.TurnByTurn
import Mathlib

/-!
# The order of pumping

Whoever has an event loop run until it is idle starts at every moment the task that is due first,
and among those that are due at the same time the one that has been deferred first. They wait only
when no task is due, and if only finitely many tasks are ever deferred, they have an end. Someone
who makes turns of the loop instead starts the same tasks.

* `Machine.PumpsInOrder`: what is done by those who pump an event loop in a session;
* `Machine.session_pumps_in_order`: this is so in every session.
-/

namespace LazyEffects

variable {K : Codes} {M : Type}

namespace Machine

variable {client : Client K M} {l : LoopId} {m : Machine K M} {n : ℕ}

variable (client l) in
theorem accepted_length_mono (m : Machine K M) : Monotone fun n => (m.accepted client l n).length :=
  monotone_nat_of_le_succ fun n => by simp [accepted_succ]

/-- When a session is over, no more timers are accepted. -/
theorem accepted_eq_of_le {N : ℕ} (h : (m.run client N).step client = none) (hn : N ≤ n) :
    m.accepted client l n = m.accepted client l N := by
  induction n, hn using Nat.le_induction with
  | base => rfl
  | succ n hn ih =>
    obtain ⟨-, a, hf⟩ := step_eq_none h
    have hnone : (m.run client n).enters l = none := by
      rw [run_eq_of_le h hn, enters, hf]
    rw [accepted_succ, hnone, ih, Option.toList_none, List.append_nil]

/-! ### Clients that only defer -/

section

variable (hc : client.Defers)

include hc

theorem gets_begun {t : Task K} (hf : m.focus = .begin t) :
    ∃ w a, Gets client m.control m ⟨w, m.control, .answer a⟩ ∧ w.owners = m.world.owners := by
  obtain ⟨w, control, focus⟩ := m
  cases hf
  exact returns_begin hc control w t

variable (l m) in
/-- The tasks of a client that only defers return. -/
theorem tasksReturn_of_defers (base : List (Activity K M)) : TasksReturn client l base m := by
  intro n executed t hf _
  obtain ⟨w, a, ⟨i, hi, -⟩, -⟩ := gets_begun hc hf
  obtain ⟨k, a', -, hk⟩ := exists_answered (m := m.run client n) (n := i) (a := a) (by rw [hi])
    (by rw [hi])
  exact ⟨k, a', hk⟩

variable (l m) in
/-- The tasks of a client that only defers leave the owners of the event loop alone. -/
theorem tasksKeep_of_defers (base : List (Activity K M)) : TasksKeep client l base m := by
  intro n executed t k r hf hcontrol hkept ha
  obtain ⟨w, a, ⟨i, hi, hlasts⟩, howners⟩ := gets_begun hc hf
  -- The first answer is the one that is got, since by the next move nobody waits for it any more.
  have hle : k ≤ i := by
    by_contra hlt
    exact ha.first i (by omega) a (by rw [hi]) (by rw [hi])
  obtain rfl : k = i := by
    by_contra hne
    have hs : ((m.run client n).run client k).step client = some
        ⟨((m.run client n).run client k).world, .sharing l :: base, .pump l (executed + 1)⟩ := by
      rw [step, ha.focus, ha.control, hcontrol]
      rfl
    have hsuffix := hlasts (k + 1) (by omega)
    rw [run_succ_of_step hs, hcontrol] at hsuffix
    have := hsuffix.length_le
    simp at this
  rw [run_add, World.Kept, hi, howners]
  exact hkept

end

variable (client l m) in
/-- What is done by those who pump an event loop in a session. -/
structure PumpsInOrder : Prop where
  /-- Timers are numbered in the order in which they are accepted. -/
  numbered (n : ℕ) : (m.accepted client l n).map Timer.sequence =
    List.range (m.accepted client l n).length
  /-- A task that is started is due, and it comes first among those that have been accepted and not
  been started. -/
  first {n : ℕ} {timer : Timer (Task K)} : (m.run client n).leaves l = some timer →
    m.Comes client l n timer ∧ timer.due ≤ (m.run client n).world.readClock.1 ∧
      (m.run client (n + 1)).focus = .begin timer.task
  /-- Tasks that are deferred with the same delay are started in the order in which they have been
  deferred. -/
  fifo {j t q : ℕ} {delay : Duration} {x y : Task K} {a b : Timer (Task K)} :
    (m.run client j).focus = .defer (.eventLoop l) delay x →
    (m.run client t).focus = .defer (.eventLoop l) delay y →
    (m.run client j).enters l = some a → (m.run client t).enters l = some b → j < t →
    (m.run client q).leaves l = some b → ∃ u, j < u ∧ u < q ∧ (m.run client u).leaves l = some a
  /-- In every round the task that comes first is started if it is due, and otherwise it is waited
  for, or there is none. -/
  round {n executed : ℕ} : (m.run client n).focus = .pump l executed → Round client l m n executed
  /-- Who has the event loop run until it is idle is answered, if only finitely many tasks are ever
  deferred to it and those that are started return. -/
  ends {i B : ℕ} : (m.run client i).focus = .request (.runUntilIdle l) →
    (∀ n, (m.accepted client l n).length ≤ B) →
    TasksReturn client l (m.run client i).control m → ∃ n a, Answered client (m.run client i) n a
  /-- Someone who makes turns instead starts the same tasks and leaves the same, as long as the
  tasks leave the event loop with an owner besides those who pump it. -/
  turns {i : ℕ} : (m.run client i).focus = .request (.runUntilIdle l) →
    TasksKeep client l (m.run client i).control (m.run client i) →
    TurnsAlike client l (m.run client i)
  /-- If the client's code does nothing but work on its memory and defer tasks, with any delays, its
  tasks return, and leave the owners alone. -/
  deferring {i B : ℕ} : client.Defers → (m.run client i).focus = .request (.runUntilIdle l) →
    ((∀ n, (m.accepted client l n).length ≤ B) → ∃ n a, Answered client (m.run client i) n a) ∧
      TurnsAlike client l (m.run client i)

variable (client l) in
/-- In every session an event loop is pumped in order. -/
theorem session_pumps_in_order (clock : Clock) (memory : M) (main : Script K M Ending) :
    PumpsInOrder client l (initial (World.initial clock memory) main) where
  numbered n := (booked client l rfl n).numbers
  first {n timer} h := by
    obtain ⟨-, -, -, -, hdue⟩ := leaves_eq_some h
    exact ⟨comes_of_leaves rfl h, hdue, (run_leaves h).1⟩
  fifo hx hy ha hb hjt hq := first_come rfl hx hy ha hb hjt hq
  round hf := Machine.round rfl hf
  ends hf hB hreturn := exists_answered_idle rfl hB hf hreturn
  turns hf hkeep := turnsAlike hkeep hf
  deferring hc hf := ⟨fun hB => exists_answered_idle rfl hB hf (tasksReturn_of_defers l _ hc _),
    turnsAlike (tasksKeep_of_defers l _ hc _) hf⟩

end Machine

/-! ### Errands -/

/-- Codes of tasks that have numbers. -/
def Errands : Codes where
  signature :=
    { Ty := Unit, typeName := fun _ => "unit", Value := Unit, typeOf := fun _ => (),
      Thunk := Empty, Transform := Empty, Continuation := Empty }
  Task := ℕ
  Completion := Empty
  Handler := Empty

namespace Errands

open Machine

/-- What follows a task: after the first one a third is to be done some time later. -/
def after (t : ℕ) : Script Errands (List ℕ) Ending :=
  if t = 1 then .ask (.defer (.eventLoop ⟨0⟩) ⟨5⟩ (3 : ℕ)) fun _ => .done (.ok ())
  else .done (.ok ())

/-- Every task writes down its number. -/
def client : Client Errands (List ℕ) where
  thunk t := t.elim
  transform f := f.elim
  continuation k := k.elim
  task (t : ℕ) := .update (fun done : List ℕ => done ++ [t]) fun _ => after t
  discard _ := .done (.ok ())
  completion c := c.elim
  handler h := h.elim
  observe _ memory := memory

/-- Two tasks are deferred to an event loop, which is then run until it is idle. -/
def session : Machine Errands (List ℕ) :=
  initial (.initial .still []) <|
    .ask .openLoop fun _ =>
      .ask (.defer (.eventLoop ⟨0⟩) .zero (1 : ℕ)) fun _ =>
        .ask (.defer (.eventLoop ⟨0⟩) .zero (2 : ℕ)) fun _ =>
          .ask (.runUntilIdle ⟨0⟩) fun _ => .done (.ok ())

theorem client_defers : client.Defers where
  thunk t := t.elim
  transform f := f.elim
  continuation k := k.elim
  task (t : ℕ) := .update fun _ => by
    rw [after]
    split
    · exact .ask fun _ => .done _
    · exact .done _
  discard _ := .done _
  completion c := c.elim
  handler h := h.elim

/-- Three tasks are deferred, and no more. -/
theorem accepted_le (n : ℕ) : (session.accepted client ⟨0⟩ n).length ≤ 3 := by
  have hover : ((session.run client 39).step client).isNone = true := by cbv
  have hlength : (session.accepted client ⟨0⟩ 39).length = 3 := by cbv
  rcases Nat.le_total n 39 with hle | hle
  · exact (accepted_length_mono client ⟨0⟩ session hle).trans hlength.le
  · rw [accepted_eq_of_le (Option.isNone_iff_eq_none.1 hover) hle, hlength]

/-- The third task is waited for, and by turns the same is done. -/
theorem errands_in_order :
    (∃ n a, Answered client (session.run client 12) n a) ∧
    TurnsAlike client ⟨0⟩ (session.run client 12) ∧
    (executions ⟨0⟩ (fun n => session.run client n) 39).map (fun x => (x.1, x.2.due)) =
      [(1, 0), (2, 0), (3, 5)] ∧
    (((session.run client 12).turner ⟨0⟩).byTurns client ⟨0⟩ 40).world.memory = [1, 2, 3] := by
  have hrequest : (session.run client 12).focus = .request (.runUntilIdle ⟨0⟩) := by cbv
  have horder : PumpsInOrder client ⟨0⟩ session := session_pumps_in_order client ⟨0⟩ .still [] _
  obtain ⟨hends, hturns⟩ := horder.deferring client_defers hrequest
  exact ⟨hends accepted_le, hturns, by cbv, by cbv⟩

end Errands

end LazyEffects
