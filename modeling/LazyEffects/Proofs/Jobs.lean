import LazyEffects.Proofs.Scripts
import Mathlib.Tactic.Ring

/-!
# Jobs

A job is a program whose direct evaluation ends, together with a configuration under which panics
are caught. The functions of the program work on their own part of the client's memory and ask for
nothing.

What a job delivers is fixed by its evaluation, and so are the nodes that it visits and the slices
that it takes.

* `Job.Tracks`: a trampoline is on its way through the evaluation;
* `Job.Tracks.slice`: a slice either gets further on this way or comes to its end;
* `Job.Finishes.reports` and `Job.Finishes.answers`: what then becomes of a run and of a future.
-/

namespace LazyEffects

open Deed

variable {K : Codes} {M A : Type}

/-- What is delivered of a program whose evaluation ends: its value if that is of the declared type,
and the failure otherwise. -/
def Program.settle {S : Signature} (p : Program S) : Verdict S → Except RunError S.Value
  | .ok v =>
    if S.typeOf v = p.result then .ok v else .error (.typeMismatch (S.typeName p.result))
  | .error (.mismatched expected) => .error (.typeMismatch (S.typeName expected))
  | .error (.panicked stage p) => .error (.ofPanic stage p)

/-- An evaluation that comes to its end ends neither in abandonment nor in a second start. -/
theorem Program.settle_ne {S : Signature} (p : Program S) (w : Verdict S) :
    p.settle w ≠ .error .abandoned ∧ p.settle w ≠ .error .alreadyCompleted := by
  cases w with
  | ok v =>
    simp only [settle]
    split <;> simp
  | error c => cases c <;> simp [settle, RunError.ofPanic]

/-- A program whose evaluation ends, with a configuration under which panics are caught. Its
functions work on the part `own` of the client's memory, which events leave alone. -/
structure Job (client : Client K M) (own : M → A) where
  program : Program K.signature
  config : Config
  start : A
  final : A
  verdict : Verdict K.signature
  deeds : List (Deed K.signature)
  evaluates : Evaluates (.own own) client.functions 0 program.root start verdict deeds final
  catching : config.catchPanics = true
  spares : client.Spares own

namespace Job

variable {client : Client K M} {own : M → A} (J : Job client own)

/-- The nodes that a slice may process. A budget of 0 counts as one of 1. -/
def budget : ℕ := J.config.progressing.stepBudget

/-- The number of nodes that the evaluation visits. -/
def nodes : ℕ := (visited J.deeds).length

/-- The number of slices that do not come to the end. -/
def suspensions : ℕ := (J.nodes - 1) / J.budget

/-- What is delivered in the end. -/
def result : RunResult K := J.program.settle J.verdict

theorem budget_pos : 0 < J.budget := by
  rw [budget, Config.progressing]
  exact lt_max_of_lt_right Nat.one_pos

/-- The trampoline is on its way through the evaluation, before the first slice or between two, with
`left` nodes to visit. -/
structure Tracks (t : Trampoline K.signature) (x : A) (left : ℕ) : Prop where
  ahead : ∃ e deeds, t.current = some e ∧ (visited deeds).length = left ∧
    Completes (.own own) client.functions e t.stack.list x J.verdict deeds J.final
  steps : t.stats.steps + left = J.nodes
  slices : t.stats.steps = J.budget * t.stats.suspensions

/-- The slice with this answer has come to the end of the evaluation. -/
structure Finishes (a : Answer K.signature) (t : Trampoline K.signature) (x : A) : Prop where
  answer : a = .ofVerdict true J.verdict
  own : x = J.final
  steps : t.stats.steps = J.nodes
  suspensions : t.stats.suspensions = J.suspensions

theorem tracks_start : J.Tracks (.start J.program.root) J.start J.nodes where
  ahead := ⟨J.program.root, J.deeds, rfl, rfl, completes_nil_iff.2 J.evaluates⟩
  steps := by simp [Trampoline.start, Stats.zero]
  slices := by simp [Trampoline.start, Stats.zero]

variable {J} {t : Trampoline K.signature} {x : A} {left : ℕ}

theorem Tracks.pos (h : J.Tracks t x left) : 0 < left := by
  obtain ⟨e, deeds, -, rfl, hc⟩ := h.ahead
  exact hc.visited_ne_nil

/-- All slices but the last visit as many nodes as they may. -/
theorem Tracks.suspensions_eq (h : J.Tracks t x left) (hl : left ≤ J.budget) :
    t.stats.suspensions = J.suspensions := by
  have hpos := h.pos
  have hsteps := h.steps
  rw [h.slices] at hsteps
  -- The slices before this one have used up their budgets, and the last takes what is left over.
  have hnodes : J.nodes - 1 = (left - 1) + J.budget * t.stats.suspensions := by omega
  rw [suspensions, hnodes, Nat.add_mul_div_left _ _ J.budget_pos,
    Nat.div_eq_of_lt (by omega), Nat.zero_add]

theorem Tracks.suspensions_le (h : J.Tracks t x left) : t.stats.suspensions ≤ J.suspensions := by
  have hpos := h.pos
  have hsteps := h.steps
  rw [h.slices] at hsteps
  rw [suspensions, Nat.le_div_iff_mul_le J.budget_pos, Nat.mul_comm]
  omega

/-- A slice that gets further on the way counts as a suspension. -/
theorem Tracks.suspensions_lt {t' : Trampoline K.signature} {x' : A} {left' : ℕ}
    (h : J.Tracks t x left) (h' : J.Tracks t' x' left') (hlt : left' < left) :
    t.stats.suspensions < t'.stats.suspensions := by
  have hsteps := h.steps
  have hsteps' := h'.steps
  rw [h.slices] at hsteps
  rw [h'.slices] at hsteps'
  exact Nat.lt_of_mul_lt_mul_left (a := J.budget) (by omega)

/-- A slice comes to the end of the evaluation or gets further on its way. -/
theorem Tracks.slice (h : J.Tracks t x left) :
    ∃ a t' x', (Meaning.own own).Runs (t.runSlice client.functions true J.budget) x (a, t') x' ∧
      (J.Finishes a t' x' ∨ a = .suspended ∧ ∃ left' < left, J.Tracks t' x' left') := by
  obtain ⟨e, deeds, he, hleft, hc⟩ := h.ahead
  have hslice : t.runSlice client.functions true J.budget =
      Trampoline.descend client.functions true J.budget e t.stack t.stats := by
    rw [Trampoline.runSlice, he]
  rw [hslice]
  rcases Trampoline.descend_of_completes true J.spares.silent J.budget t.stats hc with
    ⟨hn, rest, hr⟩ | ⟨hn, e₁, rest, x₁, l₁, l₂, hr, rfl, hl, hc'⟩
  · refine ⟨_, _, _, hr, .inl ⟨rfl, rfl, ?_, ?_⟩⟩
    · rw [Stats.after_steps, hleft, h.steps]
    · rw [Stats.after_suspensions, h.suspensions_eq (by omega)]
  · -- A suspended slice has spent all of its budget.
    rw [visited_append, List.length_append, hl] at hleft
    have hbudget := J.budget_pos
    have hsteps := h.steps
    have hslices := h.slices
    refine ⟨_, _, _, hr, .inr ⟨rfl, (visited l₂).length, by omega, ⟨e₁, l₂, rfl, rfl, hc'⟩, ?_, ?_⟩⟩
    · simp only [Stats.suspend, Stats.after_steps, hl]
      omega
    · simp only [Stats.suspend, Stats.after_steps, Stats.after_suspensions, hl, hslices]
      ring

/-- The script of a slice is over sooner or later. -/
theorem Tracks.ends {memory : M} (h : J.Tracks t (own memory) left) :
    ∃ a t' memory', (t.runSlice client.functions true J.budget).Ends memory (a, t') memory' ∧
      (J.Finishes a t' (own memory') ∨
        a = .suspended ∧ ∃ left' < left, J.Tracks t' (own memory') left') := by
  obtain ⟨a, t', x', hr, hx⟩ := h.slice
  obtain ⟨memory', hends, rfl⟩ := hr memory rfl
  exact ⟨a, t', memory', hends, hx⟩

/-! ### After the last slice -/

end Job

/-- How a slice that is over has ended. -/
def Focus.sliced : Focus K M → Option (Answer K.signature × Trampoline K.signature)
  | script (.slice _) (.done x) => some x
  | script (.poll _) (.done x) => some x
  | _ => none

namespace Job

variable {client : Client K M} {own : M → A} (J : Job client own)

/-- The last slice of the job is over. It was made for the holder of `tickets`. -/
def Ends (tickets : List (Ticket K)) (m : Machine K M) : Prop :=
  ∃ a t, m.focus.sliced = some (a, t) ∧ m.focus.tickets = tickets ∧
    J.Finishes a t (own m.world.memory)

/-- From `m` the machine gets to the end of the last slice of the job, which is made for the holder
of `tickets`, and from there to an answer to `control`, which is what the job delivers. -/
def Answers (tickets : List (Ticket K)) (control : List (Activity K M)) (m : Machine K M) : Prop :=
  ∃ m₁ m₂, Machine.Gets client control m m₁ ∧ J.Ends tickets m₁ ∧
    Machine.Gets client control m₁ m₂ ∧ m₂.control = control ∧
      m₂.focus = .answer (.ok (.settled J.result)) ∧ own m₂.world.memory = J.final

/-- The run of the job that starts next. -/
def run (w : World K M) (recipient : Recipient K) (host : Host) : Run K :=
  ⟨⟨w.runs⟩, J.program.result, recipient, host, J.config.progressing⟩

/-- The run evaluates the program of the job as it is configured. -/
structure Owns (run : Run K) : Prop where
  result : run.result = J.program.result
  config : run.config = J.config.progressing

/-- From `m` the machine gets to the end of the last slice of the job, which is one of `run`, and
from there to the report of `run` with what the job delivers, while `control` waits. No task waits
at `q` then. -/
def Reported (run : Run K) (q : QueueId) (control : List (Activity K M)) (m : Machine K M) :
    Prop :=
  ∃ m₁ m₂ stats, Machine.Gets client control m m₁ ∧ J.Ends [.run run] m₁ ∧
    Machine.Gets client control m₁ m₂ ∧
      m₂.focus.reports = some (run, J.result.map (·, stats)) ∧
        stats.steps = J.nodes ∧ stats.suspensions = J.suspensions ∧
          own m₂.world.memory = J.final ∧ m₂.world.queue q = []

variable {J} {t : Trampoline K.signature} {x : A}

theorem Answers.of_gets {tickets : List (Ticket K)} {control : List (Activity K M)}
    {m m' : Machine K M} (h : Machine.Gets client control m m')
    (h' : J.Answers tickets control m') : J.Answers tickets control m := by
  obtain ⟨m₁, m₂, h₁, hends, h₂⟩ := h'
  exact ⟨m₁, m₂, h.trans h₁, hends, h₂⟩

theorem Reported.of_gets {run : Run K} {q : QueueId} {control : List (Activity K M)}
    {m m' : Machine K M} (h : Machine.Gets client control m m')
    (h' : J.Reported run q control m') : J.Reported run q control m := by
  obtain ⟨m₁, m₂, stats, h₁, hends, h₂⟩ := h'
  exact ⟨m₁, m₂, stats, h.trans h₁, hends, h₂⟩

/-- The run of a job is reported with what the job delivers. -/
theorem Finishes.reports {a : Answer K.signature} (h : J.Finishes a t x) (m : Machine K M)
    {f : Fiber K} (hf : f.run.result = J.program.result) :
    (m.afterSlice client f a t).focus.reports = some (f.run, J.result.map (·, t.stats)) ∧
      (m.afterSlice client f a t).control = m.control ∧
      m.world.Keeps client (m.afterSlice client f a t).world ∧
      (m.afterSlice client f a t).world.contents = m.world.contents := by
  rw [h.answer, result]
  cases J.verdict with
  | ok v =>
    simp only [Answer.ofVerdict, Machine.afterSlice, Program.settle, hf]
    refine ⟨?_, rfl, World.keeps_observe _ _, by simp⟩
    split <;> rfl
  | error c =>
    cases c with
    | mismatched expected =>
      exact ⟨rfl, rfl, World.keeps_observe _ _, World.contents_observe _ _ _⟩
    | panicked stage p => exact ⟨rfl, rfl, World.keeps_observe _ _, World.contents_observe _ _ _⟩

/-- The future of a job is ready with what the job delivers. -/
theorem Finishes.answers {a : Answer K.signature} (h : J.Finishes a t x) (m : Machine K M)
    {f : Future K} (hf : f.result = J.program.result) :
    (m.afterPoll client f a t).focus = .answer (.ok (.settled J.result)) ∧
      (m.afterPoll client f a t).control = m.control ∧
      m.world.Keeps client (m.afterPoll client f a t).world := by
  rw [h.answer, result]
  cases J.verdict with
  | ok v =>
    simp only [Answer.ofVerdict, Machine.afterPoll, Program.settle, hf]
    exact ⟨rfl, rfl, World.keeps_observe _ _⟩
  | error c => cases c <;> exact ⟨rfl, rfl, World.keeps_refl _⟩

end Job

end LazyEffects
