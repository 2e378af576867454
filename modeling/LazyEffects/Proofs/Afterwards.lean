import LazyEffects.Proofs.Beside
import LazyEffects.Proofs.Demonstration

/-!
# After the outcome

A demonstration on a worker learns the outcome before the thread of the worker is done with the task
that has made it known. From then on both threads go on beside each other: the demonstration asks
how many tasks the worker has run, stops it and makes its report, while the thread of the worker
comes to the end of its task, looks for others and finds none but the order to stop.

* `Demo.Telling`: what a demonstration does that has been told the outcome;
* `Demo.Stands.step`: where the two threads stand, move by move;
* `Demo.Stands.ends`: the demonstration can always come to its end.
-/

namespace LazyEffects

namespace Demo

open Machine

/-- What a demonstration does that has been told the outcome `r`: it asks how many tasks the worker
has run, stops it, and makes its report. -/
structure Telling (r : RunResult codes) (k : ℕ) (report : Report)
    (next next₁ next₂ : Except Payload (Reply codes) → Act Ending) (f : Memory → Memory)
    (rest : Memory → Act Ending) : Prop where
  asks : next (.ok (.settled r)) = .ask (.workerTurns ⟨0⟩) next₁
  stops : next₁ (.ok (.count k)) = .ask (.stopWorker ⟨0⟩) next₂
  reports : next₂ (.ok .done) = .update f rest
  report_eq (memory : Memory) : (f memory).report = some report
  ends (memory : Memory) : rest memory = .done (.ok ())

/-- The thread of the worker is done with its task, or has looked for another and found none. -/
inductive Idle : Thread codes Memory → Prop
  | ends : Idle ⟨[.working ⟨0⟩ none], .answer (.ok .done)⟩
  | looks : Idle ⟨[], .work ⟨0⟩ none⟩
  | rests : Idle ⟨[], .answer (.ok .done)⟩

section

variable (r : RunResult codes) (k : ℕ) (report : Report)
  (next next₁ next₂ : Except Payload (Reply codes) → Act Ending) (f : Memory → Memory)
  (rest : Memory → Act Ending)

/-- The world, up to the clock, the worker and what is remembered. -/
def outcomeWorld (clock : Clock) (s : Worker (Task codes)) (memory : Memory) :
    World codes Memory :=
  ⟨clock, #[], #[], #[s], #[.settled r], 1, memory⟩

/-- Where a demonstration stands before it tells the worker to stop. -/
inductive Asking : Thread codes Memory → Prop
  | suspends : Asking
    ⟨[.thenWork ⟨0⟩ (some ⟨0⟩), .reporting ⟨0⟩, .code .body next], .answer (.ok .done)⟩
  | waits : Asking ⟨[.reporting ⟨0⟩, .code .body next], .work ⟨0⟩ (some ⟨0⟩)⟩
  | learns : Asking ⟨[.reporting ⟨0⟩, .code .body next], .answer (.ok .done)⟩
  | told : Asking ⟨[.code .body next], .answer (.ok (.settled r))⟩
  | asks : Asking ⟨[], .script .body (.ask (.workerTurns ⟨0⟩) next₁)⟩
  | requests : Asking ⟨[.code .body next₁], .request (.workerTurns ⟨0⟩)⟩
  | knows : Asking ⟨[.code .body next₁], .answer (.ok (.count k))⟩
  | stops : Asking ⟨[], .script .body (.ask (.stopWorker ⟨0⟩) next₂)⟩
  | orders : Asking ⟨[.code .body next₂], .request (.stopWorker ⟨0⟩)⟩

/-- Where a demonstration stands after the worker has stopped, with what it then remembers. -/
inductive Leaving : Memory → Thread codes Memory → Prop
  | joins {memory : Memory} :
    Leaving memory ⟨[.joining ⟨0⟩, .code .body next₂], .work ⟨0⟩ none⟩
  | joined {memory : Memory} :
    Leaving memory ⟨[.joining ⟨0⟩, .code .body next₂], .answer (.ok .done)⟩
  | told {memory : Memory} : Leaving memory ⟨[.code .body next₂], .answer (.ok .done)⟩
  | reports {memory : Memory} : Leaving memory ⟨[], .script .body (.update f rest)⟩
  | ends {memory : Memory} : memory.report = some report →
    Leaving memory ⟨[], .script .body (.done (.ok ()))⟩
  | finished {memory : Memory} : memory.report = some report →
    Leaving memory ⟨[], .answer (.ok .done)⟩

/-- Where both threads stand. The worker has no task, and it has run `k` of them. -/
inductive Stands : Threads codes Memory → Prop
  | asking {clock : Clock} {n : ℕ} {memory : Memory} {worker caller : Thread codes Memory} :
    Idle worker → Asking r k next next₁ next₂ caller →
    Stands ⟨outcomeWorld r clock ⟨[], ⟨#[], n⟩, k, .running⟩ memory, worker, caller⟩
  | ordered {clock : Clock} {n : ℕ} {memory : Memory} {worker : Thread codes Memory} :
    Idle worker → Stands ⟨outcomeWorld r clock ⟨[.shutdown], ⟨#[], n⟩, k, .running⟩ memory, worker,
      ⟨[.joining ⟨0⟩, .code .body next₂], .work ⟨0⟩ none⟩⟩
  /-- The worker drops the tasks of its queue. There are none. -/
  | stopping {clock : Clock} {memory : Memory} {focus : Focus codes Memory} :
    focus = .drop [] ∨ focus = .answer (.ok .done) →
    Stands ⟨outcomeWorld r clock ⟨[], .empty, k, .stopping⟩ memory, ⟨[.stopping ⟨0⟩ none], focus⟩,
      ⟨[.joining ⟨0⟩, .code .body next₂], .work ⟨0⟩ none⟩⟩
  | exited {clock : Clock} {memory : Memory} {worker caller : Thread codes Memory} :
    worker = ⟨[.working ⟨0⟩ none], .drop []⟩ ∨ Idle worker →
    Leaving report next₂ f rest memory caller →
    Stands ⟨outcomeWorld r clock ⟨[], .empty, k, .exited⟩ memory, worker, caller⟩

end

variable {r : RunResult codes} {k : ℕ} {report : Report}
  {next next₁ next₂ : Except Payload (Reply codes) → Act Ending} {f : Memory → Memory}
  {rest : Memory → Act Ending} {s s' : Threads codes Memory}

namespace Stands

/-- The worker has run `k` tasks, and it has no others. -/
theorem worker (h : Stands r k report next next₁ next₂ f rest s) :
    (s.world.worker? ⟨0⟩).map Worker.turns = some k ∧ s.world.contents (.worker ⟨0⟩) = [] := by
  cases h <;> exact ⟨rfl, rfl⟩

/-- A demonstration that is over has made its report. -/
theorem report_of_over (h : Stands r k report next next₁ next₂ f rest s) (hover : s.caller.Over) :
    s.world.memory.report = some report := by
  obtain ⟨hc, a, hf⟩ := hover
  cases h with
  | asking _ hcaller => cases hcaller <;> cases hc <;> cases hf
  | ordered => cases hc
  | stopping => cases hc
  | exited _ hcaller =>
    cases hcaller with
    | finished hreport => exact hreport
    | _ => cases hc <;> cases hf

/-- Where the two threads stand after a move of one of them. -/
theorem step (htelling : Telling r k report next next₁ next₂ f rest)
    (h : Stands r k report next next₁ next₂ f rest s)
    (hs : Threads.Step client ⟨0⟩ s s') : Stands r k report next next₁ next₂ f rest s' := by
  cases h with
  | asking hworker hcaller =>
    cases hs with
    | worker hmove =>
      cases hworker with
      | ends =>
        cases hmove
        exact .asking .looks hcaller
      | looks =>
        cases hmove
        exact .asking .rests hcaller
      | rests => cases hmove
    | again => exact .asking .looks hcaller
    | caller _ hmove =>
      cases hcaller with
      | suspends =>
        cases hmove
        exact .asking hworker .waits
      | waits =>
        cases hmove
        exact .asking hworker .learns
      | learns =>
        cases hmove
        exact .asking hworker .told
      | told =>
        cases hmove
        rw [htelling.asks]
        exact .asking hworker .asks
      | asks =>
        cases hmove
        exact .asking hworker .requests
      | requests =>
        cases hmove
        exact .asking hworker .knows
      | knows =>
        cases hmove
        rw [htelling.stops]
        exact .asking hworker .stops
      | stops =>
        cases hmove
        exact .asking hworker .orders
      | orders =>
        cases hmove
        exact .ordered hworker
  | ordered hworker =>
    cases hs with
    | worker hmove =>
      cases hworker with
      | ends =>
        cases hmove
        exact .ordered .looks
      | looks =>
        cases hmove
        exact .stopping (.inl rfl)
      | rests => cases hmove
    | again => exact .ordered .looks
    | caller hfree hmove => rcases hfree none rfl with h | h <;> cases h
  | stopping hfocus =>
    cases hs with
    | worker hmove =>
      rcases hfocus with rfl | rfl
      · cases hmove
        exact .stopping (.inr rfl)
      · cases hmove
        exact .exited (.inl rfl) .joins
    | again hworker => cases hworker
    | caller hfree hmove => rcases hfree none rfl with h | h <;> cases h
  | exited hworker hcaller =>
    cases hs with
    | worker hmove =>
      rcases hworker with rfl | hworker
      · cases hmove
        exact .exited (.inr .ends) hcaller
      · cases hworker with
        | ends =>
          cases hmove
          exact .exited (.inr .looks) hcaller
        | looks =>
          cases hmove
          exact .exited (.inr .rests) hcaller
        | rests => cases hmove
    | again => exact .exited (.inr .looks) hcaller
    | caller _ hmove =>
      cases hcaller with
      | joins =>
        cases hmove
        exact .exited hworker .joined
      | joined =>
        cases hmove
        exact .exited hworker .told
      | told =>
        cases hmove
        rw [htelling.reports]
        exact .exited hworker .reports
      | reports =>
        cases hmove
        rw [htelling.ends]
        exact .exited hworker (.ends (htelling.report_eq _))
      | ends hreport =>
        cases hmove
        exact .exited hworker (.finished hreport)
      | finished => cases hmove

section

variable {clock : Clock} {n : ℕ} {memory : Memory} {worker caller : Thread codes Memory}
  (htelling : Telling r k report next next₁ next₂ f rest)

include htelling

/-- After the worker has stopped, the demonstration comes to its end. -/
theorem ends_of_leaving (h : Leaving report next₂ f rest memory caller) :
    Threads.Ends client ⟨0⟩
      ⟨outcomeWorld r clock ⟨[], .empty, k, .exited⟩ memory, worker, caller⟩ := by
  let side (memory : Memory) (caller : Thread codes Memory) : Threads codes Memory :=
    ⟨outcomeWorld r clock ⟨[], .empty, k, .exited⟩ memory, worker, caller⟩
  have hends (memory : Memory) :
      (side memory ⟨[], .script .body (.done (.ok ()))⟩).Ends client ⟨0⟩ :=
    .of_caller rfl ⟨_, .refl, rfl, _, rfl⟩ nofun
  have hreports : (side memory ⟨[], .script .body (.update f rest)⟩).Ends client ⟨0⟩ := by
    refine .of_caller rfl ?_ nofun
    rw [htelling.ends]
    exact hends _
  have htold : (side memory ⟨[.code .body next₂], .answer (.ok .done)⟩).Ends client ⟨0⟩ := by
    refine .of_caller rfl ?_ nofun
    rw [htelling.reports]
    exact hreports
  have hjoined : (side memory ⟨[.joining ⟨0⟩, .code .body next₂], .answer (.ok .done)⟩).Ends client
      ⟨0⟩ := .of_caller rfl htold nofun
  cases h with
  | joins => exact .head (.caller (fun _ _ => .inr rfl) rfl) hjoined
  | joined => exact hjoined
  | told => exact htold
  | reports => exact hreports
  | ends => exact hends memory
  | finished => exact ⟨_, .refl, rfl, _, rfl⟩

/-- Once it has been told to stop, the worker does. -/
theorem ends_of_ordered (h : Idle worker) : Threads.Ends client ⟨0⟩
    ⟨outcomeWorld r clock ⟨[.shutdown], ⟨#[], n⟩, k, .running⟩ memory, worker,
      ⟨[.joining ⟨0⟩, .code .body next₂], .work ⟨0⟩ none⟩⟩ := by
  have hlooks : Threads.Ends client ⟨0⟩
      ⟨outcomeWorld r clock ⟨[.shutdown], ⟨#[], n⟩, k, .running⟩ memory, ⟨[], .work ⟨0⟩ none⟩,
        ⟨[.joining ⟨0⟩, .code .body next₂], .work ⟨0⟩ none⟩⟩ :=
    .head (.worker rfl) <| .head (.worker rfl) <| .head (.worker rfl) <|
      ends_of_leaving htelling .joins
  cases h with
  | ends => exact .head (.worker rfl) hlooks
  | looks => exact hlooks
  | rests => exact .head (.again rfl) hlooks

/-- A demonstration that has learnt the outcome comes to its end. -/
theorem ends_of_asking (hworker : Idle worker) (h : Asking r k next next₁ next₂ caller) :
    Threads.Ends client ⟨0⟩
      ⟨outcomeWorld r clock ⟨[], ⟨#[], n⟩, k, .running⟩ memory, worker, caller⟩ := by
  let side (caller : Thread codes Memory) : Threads codes Memory :=
    ⟨outcomeWorld r clock ⟨[], ⟨#[], n⟩, k, .running⟩ memory, worker, caller⟩
  have horders : (side ⟨[.code .body next₂], .request (.stopWorker ⟨0⟩)⟩).Ends client ⟨0⟩ :=
    .of_caller rfl (ends_of_ordered htelling hworker) nofun
  have hstops : (side ⟨[], .script .body (.ask (.stopWorker ⟨0⟩) next₂)⟩).Ends client ⟨0⟩ :=
    .of_caller rfl horders nofun
  have hknows : (side ⟨[.code .body next₁], .answer (.ok (.count k))⟩).Ends client ⟨0⟩ := by
    refine .of_caller rfl ?_ nofun
    rw [htelling.stops]
    exact hstops
  have hrequests : (side ⟨[.code .body next₁], .request (.workerTurns ⟨0⟩)⟩).Ends client ⟨0⟩ :=
    .of_caller rfl hknows nofun
  have hasks : (side ⟨[], .script .body (.ask (.workerTurns ⟨0⟩) next₁)⟩).Ends client ⟨0⟩ :=
    .of_caller rfl hrequests nofun
  have htold : (side ⟨[.code .body next], .answer (.ok (.settled r))⟩).Ends client ⟨0⟩ := by
    refine .of_caller rfl ?_ nofun
    rw [htelling.asks]
    exact hasks
  have hlearns : (side ⟨[.reporting ⟨0⟩, .code .body next], .answer (.ok .done)⟩).Ends client ⟨0⟩ :=
    .of_caller rfl htold nofun
  have hwaits :
      (side ⟨[.reporting ⟨0⟩, .code .body next], .work ⟨0⟩ (some ⟨0⟩)⟩).Ends client ⟨0⟩ := by
    refine .head (.caller (fun wanted hw => ?_) rfl) hlearns
    cases hw
    exact .inl rfl
  cases h with
  | suspends => exact .of_caller rfl hwaits nofun
  | waits => exact hwaits
  | learns => exact hlearns
  | told => exact htold
  | asks => exact hasks
  | requests => exact hrequests
  | knows => exact hknows
  | stops => exact hstops
  | orders => exact horders

/-- Wherever the two threads stand, the demonstration can come to its end. -/
theorem ends (h : Stands r k report next next₁ next₂ f rest s) : s.Ends client ⟨0⟩ := by
  cases h with
  | asking hworker hcaller => exact ends_of_asking htelling hworker hcaller
  | ordered hworker => exact ends_of_ordered htelling hworker
  | stopping hfocus =>
    have hanswered {clock : Clock} {memory : Memory} : Threads.Ends client ⟨0⟩
        ⟨outcomeWorld r clock ⟨[], .empty, k, .stopping⟩ memory,
          ⟨[.stopping ⟨0⟩ none], .answer (.ok .done)⟩,
          ⟨[.joining ⟨0⟩, .code .body next₂], .work ⟨0⟩ none⟩⟩ :=
      .head (.worker rfl) (ends_of_leaving htelling .joins)
    rcases hfocus with rfl | rfl
    · exact .head (.worker rfl) hanswered
    · exact hanswered
  | exited _ hcaller => exact ends_of_leaving htelling hcaller

end

end Stands

/-- What a worker that has run `k` tasks and a demonstration that has learnt the outcome from it may
do, from `s₀` on, whichever of the two threads moves when. -/
structure Concurs (k : ℕ) (report : Report) (s₀ : Threads codes Memory) : Prop where
  /-- The worker has run `k` tasks, whenever it is asked. -/
  turns {s : Threads codes Memory} : Threads.Steps client ⟨0⟩ s₀ s →
    (s.world.worker? ⟨0⟩).map Worker.turns = some k
  contents {s : Threads codes Memory} : Threads.Steps client ⟨0⟩ s₀ s →
    s.world.contents (.worker ⟨0⟩) = []
  ends {s : Threads codes Memory} : Threads.Steps client ⟨0⟩ s₀ s → s.Ends client ⟨0⟩
  reports {s : Threads codes Memory} : Threads.Steps client ⟨0⟩ s₀ s → s.caller.Over →
    s.world.memory.report = some report

theorem Stands.concurs (htelling : Telling r k report next next₁ next₂ f rest)
    (h : Stands r k report next next₁ next₂ f rest s) : Concurs k report s := by
  have hstands {s' : Threads codes Memory} (hs : Threads.Steps client ⟨0⟩ s s') :
      Stands r k report next next₁ next₂ f rest s' := by
    induction hs with
    | refl => exact h
    | tail _ hstep ih => exact ih.step htelling hstep
  exact ⟨fun hs => (hstands hs).worker.1, fun hs => (hstands hs).worker.2,
    fun hs => (hstands hs).ends htelling, fun hs => (hstands hs).report_of_over⟩

/-! ### When the outcome arrives -/

/-- A demonstration on a worker gets to its request, and from the answer on it tells what it has
learnt. -/
theorem within_telling (config : Config) (choice : Choice) (clock : Clock) (draws : List Float)
    (k : ℕ) (text : String) : ∃ next next₁ next₂ f rest,
      Within client 4 (session .worker config choice clock draws)
        ⟨Place.worker.ready clock ⟨draws, none⟩, [.code .body next],
          .request (Place.worker.request config choice.program.toProgram)⟩ ∧
      Telling (.ok ⟨.text, text⟩) k ⟨.ok text, k⟩ next next₁ next₂ f rest :=
  ⟨_, _, _, _, _, ⟨4, le_rfl, rfl⟩, rfl, rfl, rfl, fun _ => rfl, fun _ => rfl⟩

/-- The last slice is over: with the second move from there the outcome arrives. If the slice is a
task of the worker, its thread has not come to the end of it. -/
theorem concurs_of_sliced {config : Config} {clock : Clock} {memory : Memory}
    {t t' : Trampoline codes.signature} {text : String} {m : Machine codes Memory} {j : ℕ}
    (htelling : Telling (.ok ⟨.text, text⟩) k ⟨.ok text, k⟩ next next₁ next₂ f rest)
    (hm : m.run client j = ⟨Place.worker.world clock memory k,
      Place.worker.waiting k ++ [.code .body next],
      Place.worker.sliced config t (.completed ⟨.text, text⟩, t')⟩) :
    (m.run client (j + 1)).world.isFilled (some ⟨0⟩) = false ∧
      (m.run client (j + 2)).world.cell ⟨0⟩ = .settled (.ok ⟨.text, text⟩) ∧
      Concurs k ⟨.ok text, k⟩ ((m.run client (j + 2)).parts ⟨0⟩) := by
  rw [run_add m j 1, run_add m j 2, hm]
  refine ⟨rfl, rfl, ?_⟩
  cases k with
  | zero => exact (Stands.asking .looks .suspends).concurs htelling
  | succ k => exact (Stands.asking .ends .waits).concurs htelling

end Demo

end LazyEffects
