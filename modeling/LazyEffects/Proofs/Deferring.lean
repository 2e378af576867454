import LazyEffects.Proofs.Pumps

/-!
# Client code that only defers

Client code may do no more than work on the client's memory and defer tasks, to any host and with
any delays. Whatever is begun then comes to an end, be it with a panic, and the event loops have as
many owners as before.

* `Script.Defers` and `Client.Defers`: client code that asks for nothing but to have tasks deferred;
* `Machine.Returns`: what is being done comes to an end;
* `Machine.returns_begin`: every task of such a client comes to an end.
-/

namespace LazyEffects

variable {K : Codes} {M α β : Type}

/-- The script asks for nothing but to have tasks deferred, whatever the memory is and whatever it
is answered. -/
inductive Script.Defers : Script K M α → Prop where
  | done (a : α) : Defers (.done a)
  | update {f : M → M} {next : M → Script K M α} :
    (∀ memory, Defers (next memory)) → Defers (.update f next)
  | ask {host : Host} {delay : Duration} {t : K.Task}
    {next : Except Payload (Reply K) → Script K M α} :
    (∀ answer, Defers (next answer)) → Defers (.ask (.defer host delay t) next)

theorem Script.Defers.bind {x : Script K M α} {f : α → Script K M β} (hx : x.Defers)
    (hf : ∀ a, (f a).Defers) : (x >>= f).Defers := by
  induction hx with
  | done a => exact hf a
  | update _ ih => exact .update ih
  | ask _ ih => exact .ask ih

theorem Script.Quiet.defers {x : Script K M α} (hx : x.Quiet) : x.Defers := by
  induction hx with
  | done a => exact .done a
  | update _ ih => exact .update ih

/-- All code of the client only works on its memory and defers tasks, and a task that is dropped
does not even defer. -/
structure Client.Defers (client : Client K M) : Prop where
  thunk (t : K.signature.Thunk) : (client.thunk t).Defers
  transform (f : K.signature.Transform) (v : K.signature.Value) : (client.transform f v).Defers
  continuation (k : K.signature.Continuation) (v : K.signature.Value) :
    (client.continuation k v).Defers
  task (t : K.Task) : (client.task t).Defers
  discard (t : K.Task) : (client.discard t).Quiet
  completion (c : K.Completion) (v : K.signature.Value) (stats : Stats) :
    (client.completion c v stats).Defers
  handler (h : K.Handler) (e : RunError) : (client.handler h e).Defers

/-! ### Slices -/

namespace Trampoline

variable {client : Client K M} {catching : Bool}

theorem unwindList_defers (hc : client.Defers) {list : List (Frame K.signature)} {height : ℕ}
    (h : height = list.length) (v : K.signature.Value) :
    (unwindList client.functions catching list height h v).Defers := by
  induction list generalizing height v with
  | nil => exact .done _
  | cons frame list ih =>
    cases frame with
    | map f =>
      refine .bind (hc.transform f v) fun out => ?_
      cases out with
      | returned v' => exact ih _ v'
      | mismatched expected => exact .done _
      | panicked p => exact .done _
    | flatMap k =>
      refine .bind (hc.continuation k v) fun out => ?_
      cases out <;> exact .done _

theorem descend_defers (hc : client.Defers) (n : ℕ) (e : Effect K.signature)
    (stack : Frames K.signature) (stats : Stats) :
    (descend client.functions catching n e stack stats).Defers := by
  have hobserve (event : Event) : (client.functions.observe event).Defers :=
    .update fun _ => .done ()
  induction n generalizing e stack stats with
  | zero => exact .bind (hobserve _) fun _ => .done _
  | succ n ih =>
    rcases e.sync_or_around with ⟨t, rfl⟩ | ⟨frame, e, rfl⟩
    · refine .bind (hobserve _) fun _ => .bind (hc.thunk t) fun out => ?_
      cases out with
      | returned v =>
        refine .bind (unwindList_defers hc _ v) fun unwound => ?_
        cases unwound with
        | entered e rest => exact ih e rest _
        | delivered | stopped => exact .done _
      | mismatched expected => exact .done _
      | panicked p => exact .done _
    · rw [descend_around]
      exact .bind (hobserve _) fun _ => ih e _ _

theorem runSlice_defers (hc : client.Defers) (budget : ℕ) (t : Trampoline K.signature) :
    (runSlice client.functions catching budget t).Defers := by
  rw [runSlice]
  split
  · exact .done _
  · exact descend_defers hc _ _ _ _

end Trampoline

/-! ### Owners -/

namespace World

/-- The number of owners of each event loop that has one. -/
def owners (w : World K M) (l : LoopId) : Option ℕ := (w.loop? l).map EventLoop.owners

variable {w w' : World K M} {l : LoopId} {s : EventLoop K}

theorem owners_of_loops (h : w'.loops = w.loops) : w'.owners = w.owners := by
  funext l
  rw [owners, owners, loop?, loop?, h]

/-- The tasks of an event loop change, and the turns. -/
theorem owners_setLoop (h : w.loop? l = some s) (queue : TimerQueue (Task K)) (turns : ℕ) :
    (w.setLoop l { s with queue, turns }).owners = w.owners := by
  funext l'
  rw [owners, owners, loop?_setLoop h]
  split
  · rename_i hl
    subst hl
    rw [if_pos (loop?_eq_some h).2, h]
    rfl
  · rfl

theorem owners_popLoop {x : Option (Task K × ℕ)} (h : w.popLoop l = (x, w')) :
    w'.owners = w.owners := by
  cases x with
  | none => exact owners_of_loops (popLoop_eq_none h)
  | some popped =>
    obtain ⟨task, turn⟩ := popped
    obtain ⟨s, queue, hs, -, rfl, -⟩ := popLoop_eq_some h
    have hs' : w.readClock.2.loop? l = some s := hs
    rw [owners_setLoop hs']
    exact owners_of_loops rfl

end World

namespace Machine

variable {client : Client K M} {control : List (Activity K M)} {w w' : World K M}
  {focus focus' : Focus K M}

variable (client control w focus) in
/-- What is being done comes to an end, and those who wait for it are answered. Meanwhile the owners
of event loops do not change. -/
def Returns : Prop :=
  ∃ w' a, Gets client control ⟨w, control, focus⟩ ⟨w', control, .answer a⟩ ∧ w'.owners = w.owners

theorem returns_answer (a : Except Payload (Reply K)) : Returns client control w (.answer a) :=
  ⟨w, a, .refl (List.suffix_refl _), rfl⟩

theorem Returns.head (hs : step client ⟨w, control, focus⟩ = some ⟨w', control, focus'⟩)
    (hw : w'.owners = w.owners) (h : Returns client control w' focus') :
    Returns client control w focus := by
  obtain ⟨w'', a, hg, hw'⟩ := h
  exact ⟨w'', a, .head hs (List.suffix_refl _) hg, hw'.trans hw⟩

/-- An activity waits for something that returns, and goes on with something that returns. -/
theorem Returns.call {activity : Activity K M}
    (hs : step client ⟨w, control, focus⟩ = some ⟨w', activity :: control, focus'⟩)
    (hw : w'.owners = w.owners) (h : Returns client (activity :: control) w' focus')
    (hnext : ∀ w₁ a, ∃ w₂ focus₂,
      step client ⟨w₁, activity :: control, .answer a⟩ = some ⟨w₂, control, focus₂⟩ ∧
        w₂.owners = w₁.owners ∧ Returns client control w₂ focus₂) :
    Returns client control w focus := by
  obtain ⟨w₁, a, hg, hw₁⟩ := h
  obtain ⟨w₂, focus₂, hs₂, hw₂, w₃, a₃, hg₃, hw₃⟩ := hnext w₁ a
  have hsuffix : control <:+ activity :: control := List.suffix_cons _ _
  refine ⟨w₃, a₃, ?_, hw₃.trans (hw₂.trans (hw₁.trans hw))⟩
  exact .head hs (List.suffix_refl _) ((hg.mono hsuffix).trans (.head hs₂ hsuffix hg₃))

variable {host : Host} {delay : Duration} {task : Task K}

/-- A task is deferred, or dropped, or lost. -/
theorem returns_defer (hdrop : ∀ control w, Returns client control w (.drop [task])) :
    Returns client control w (.defer host delay task) := by
  by_cases ho : w.overflows host delay = true
  · exact .head (step_of_overflows ho) (World.owners_of_loops rfl) (returns_answer _)
  rw [Bool.not_eq_true] at ho
  cases host with
  | eventLoop l =>
    cases hl : w.loop? l with
    | none =>
      have hs : step client ⟨w, control, .defer (.eventLoop l) delay task⟩ =
          some ⟨w.observe client .loopGone, control, .drop [task]⟩ := by
        simp only [step_of_not_overflows ho, handOver, hl]
        rfl
      exact .head hs (World.owners_of_loops rfl) (hdrop _ _)
    | some s =>
      have hl' : w.readClock.2.loop? l = some s := hl
      have hs : step client ⟨w, control, .defer (.eventLoop l) delay task⟩ =
          some ⟨(w.readClock.2.setLoop l { s with
              queue := s.queue.push (w.readClock.1 + delay.nanos) task }).observe client
            (.taskDeferred delay (s.queue.push (w.readClock.1 + delay.nanos) task).size),
            control, .answer (.ok .done)⟩ := by
        simp only [step_of_not_overflows ho, handOver, hl]
        rfl
      exact .head hs (World.owners_setLoop hl' _ s.turns) (returns_answer _)
  | recording q =>
    by_cases hq : w.hasQueue q
    · have hs : step client ⟨w, control, .defer (.recording q) delay task⟩ =
          some ⟨w.setQueue q (w.queue q ++ [(delay, task)]), control, .answer (.ok .done)⟩ := by
        simp only [step_of_not_overflows ho, handOver, hq]
        rfl
      exact .head hs (World.owners_of_loops rfl) (returns_answer _)
    · have hs : step client ⟨w, control, .defer (.recording q) delay task⟩ =
          some ⟨w, control, .drop [task]⟩ := by
        simp only [step_of_not_overflows ho, handOver, hq]
        rfl
      exact .head hs rfl (hdrop _ _)
  | discarding => exact .head (step_of_not_overflows ho) rfl (hdrop _ _)
  | worker i =>
    cases hi : (w.readClock.2.worker? i).filter (·.accepts) with
    | some s =>
      have hs : step client ⟨w, control, .defer (.worker i) delay task⟩ =
          some ⟨w.readClock.2.setWorker i (s.send (.submit (w.readClock.1 + delay.nanos) task)),
            control, .answer (.ok .done)⟩ := by
        simp only [step_of_not_overflows ho, handOver, hi]
        rfl
      exact .head hs (World.owners_of_loops rfl) (returns_answer _)
    | none =>
      have hs : step client ⟨w, control, .defer (.worker i) delay task⟩ =
          some ⟨w.readClock.2, .noting .workerGone :: control, .drop [task]⟩ := by
        simp only [step_of_not_overflows ho, handOver, hi]
        rfl
      refine .call hs (World.owners_of_loops rfl) (hdrop _ _) fun w₁ a => ?_
      cases a with
      | ok r => exact ⟨_, _, rfl, World.owners_of_loops rfl, returns_answer _⟩
      | error p => exact ⟨_, _, rfl, rfl, returns_answer _⟩

/-! ### Scripts and what follows them -/

theorem returns_quiet {s : Script K M Ending} (h : s.Quiet) :
    Returns client control w (.script .body s) := by
  obtain ⟨x, memory', hends⟩ := h.ends w.memory
  have hscript : Gets client control ⟨w, control, .script .body s⟩ _ := gets_script hends
  cases x with
  | ok u =>
    exact ⟨_, _, hscript.trans (.step rfl (List.suffix_refl _) (List.suffix_refl _)),
      World.owners_of_loops rfl⟩
  | error p =>
    exact ⟨_, _, hscript.trans (.step rfl (List.suffix_refl _) (List.suffix_refl _)),
      World.owners_of_loops rfl⟩

variable (control w) in
theorem returns_drop_client {t : K.Task} (h : (client.discard t).Quiet) :
    Returns client control w (.drop [.client t]) := by
  refine .call rfl rfl (returns_quiet h) fun w₁ a => ?_
  cases a with
  | ok r => exact ⟨_, _, rfl, rfl, .head rfl rfl (returns_answer _)⟩
  | error p => exact ⟨_, _, rfl, rfl, returns_answer _⟩

variable (client control w) in
/-- A script that only defers is over at some time. -/
theorem gets_deferring (hd : ∀ t, (client.discard t).Quiet) {role : Role K}
    {s : Script K M role.Ending} (h : s.Defers) :
    ∃ w' x, Gets client control ⟨w, control, .script role s⟩
      ⟨w', control, .script role (.done x)⟩ ∧ w'.owners = w.owners := by
  induction h generalizing w with
  | done x => exact ⟨w, x, .refl (List.suffix_refl _), rfl⟩
  | @update f next _ ih =>
    obtain ⟨w', x, hg, hw⟩ := ih (f w.memory) { w with memory := f w.memory }
    exact ⟨w', x, .head rfl (List.suffix_refl _) hg, hw⟩
  | @ask host delay t next _ ih =>
    have hsuffix : control <:+ .code role next :: control := List.suffix_cons _ _
    have hdefer : Returns client (.code role next :: control) w (.defer host delay (.client t)) :=
      returns_defer fun control w => returns_drop_client control w (hd t)
    obtain ⟨w₁, a, hg, hw₁⟩ := hdefer
    obtain ⟨w', x, hg', hw'⟩ := ih a w₁
    have hback : step client ⟨w₁, .code role next :: control, .answer a⟩ =
        some ⟨w₁, control, .script role (next a)⟩ := by cases a <;> rfl
    refine ⟨w', x, ?_, hw'.trans hw₁⟩
    refine .head rfl (List.suffix_refl _) (.head rfl hsuffix ?_)
    exact (hg.mono hsuffix).trans (.head hback hsuffix hg')

theorem Returns.of_script (hd : ∀ t, (client.discard t).Quiet) {role : Role K}
    {s : Script K M role.Ending} (h : s.Defers)
    (hdone : ∀ w x, Returns client control w (.script role (.done x))) :
    Returns client control w (.script role s) := by
  obtain ⟨w₁, x, hg, hw₁⟩ := gets_deferring client control w hd h
  obtain ⟨w₂, a, hg', hw₂⟩ := hdone w₁ x
  exact ⟨w₂, a, hg.trans hg', hw₂.trans hw₁⟩

theorem returns_body (hd : ∀ t, (client.discard t).Quiet) {s : Script K M Ending}
    (h : s.Defers) : Returns client control w (.script .body s) :=
  .of_script hd h fun w x => by
    cases x with
    | ok u => exact .head rfl rfl (returns_answer _)
    | error p => exact .head rfl rfl (returns_answer _)

section

variable (hc : client.Defers)

include hc

theorem returns_report (control : List (Activity K M)) (w : World K M) (run : Run K)
    (e : RunError) : Returns client control w (.report run e) := by
  obtain ⟨id, result, recipient, host, config⟩ := run
  cases recipient with
  | callbacks c onError =>
    cases onError with
    | log => exact .head rfl (World.owners_of_loops rfl) (returns_answer _)
    | client h => exact .head rfl rfl (returns_body hc.discard (hc.handler h e))
  | cell c => exact .head rfl (World.owners_of_loops rfl) (returns_answer _)

theorem returns_complete (control : List (Activity K M)) (w : World K M) (run : Run K)
    (v : K.signature.Value) (stats : Stats) :
    Returns client control w (.complete run v stats) := by
  obtain ⟨id, result, recipient, host, config⟩ := run
  cases recipient with
  | callbacks c onError => exact .head rfl rfl (returns_body hc.discard (hc.completion c v stats))
  | cell c => exact .head rfl (World.owners_of_loops rfl) (returns_answer _)

/-- A run that is dropped is reported. -/
theorem returns_drop_resume (control : List (Activity K M)) (w : World K M) (f : Fiber K) :
    Returns client control w (.drop [.resume f]) := by
  refine .call rfl (World.owners_of_loops rfl) (returns_report hc _ _ _ _) fun w₁ a => ?_
  cases a with
  | ok r => exact ⟨_, _, rfl, rfl, .head rfl rfl (returns_answer _)⟩
  | error p => exact ⟨_, _, rfl, rfl, returns_answer _⟩

/-- A slice of a run comes to an end, and the run is deferred again or reported. -/
theorem returns_resume (control : List (Activity K M)) (w : World K M) (f : Fiber K) :
    Returns client control w (.resume f) := by
  refine .head rfl rfl (.of_script hc.discard (Trampoline.runSlice_defers hc _ _) fun w x => ?_)
  obtain ⟨a, t⟩ := x
  cases a with
  | suspended =>
    exact .head rfl rfl (returns_defer fun control w => returns_drop_resume hc control w _)
  | completed v =>
    by_cases htype : K.signature.typeOf v = f.run.result
    · have hs : step client ⟨w, control, .script (.slice f) (.done (.completed v, t))⟩ =
          some ⟨w.observe client (.runCompleted t.stats.steps t.stats.suspensions), control,
            .complete f.run v t.stats⟩ := by
        simp only [step, finish, afterSlice, htype]
        rfl
      exact .head hs (World.owners_of_loops rfl) (returns_complete hc _ _ _ _ _)
    · have hs : step client ⟨w, control, .script (.slice f) (.done (.completed v, t))⟩ =
          some ⟨w.observe client (.runCompleted t.stats.steps t.stats.suspensions), control,
            .report f.run (.typeMismatch (K.signature.typeName f.run.result))⟩ := by
        simp only [step, finish, afterSlice, htype]
        rfl
      exact .head hs (World.owners_of_loops rfl) (returns_report hc _ _ _ _)
  | failed e => exact .head rfl (World.owners_of_loops rfl) (returns_report hc _ _ _ _)
  | unwound p => exact .head rfl rfl (returns_answer _)

/-- Whatever task is begun, it comes to an end. -/
theorem returns_begin (control : List (Activity K M)) (w : World K M) (t : Task K) :
    Returns client control w (.begin t) := by
  cases t with
  | resume f => exact .head rfl rfl (returns_resume hc _ _ _)
  | client t => exact .head rfl rfl (returns_body hc.discard (hc.task t))
  | signal c => exact .head rfl (World.owners_of_loops rfl) (returns_answer _)

end

end Machine

end LazyEffects
