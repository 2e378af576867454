import LazyEffects.Proofs.Jobs

/-!
# Jobs that are driven by hand

A future is polled until it is ready, and between two polls the machine waits. The task of a run on
a recording host is fired until there is none. Nothing else acts in the meantime.

* `Job.answers_runAsync`: a future that is driven answers what the job delivers;
* `Job.reported_of_runByHand`: so is the run on a recording host reported.
-/

namespace LazyEffects

variable {K : Codes} {M A : Type}

/-- Fire the oldest task of a recording host again and again, up to `n` times, until there is
none. -/
def Script.fireAll (q : QueueId) : (n : ℕ) → Script K M Ending
  | 0 => .done (.ok ())
  | n + 1 => .ask (.fire q 0) fun
    | .ok (.flag true) => fireAll q n
    | _ => .done (.ok ())

/-- Make a runtime on a recording host, start a run and fire its tasks. -/
def Script.runByHand (q : QueueId) (config : Config) (onError : ErrorHandler K)
    (program : Program K.signature) (onDone : K.Completion) (n : ℕ) : Script K M Ending :=
  .ask (.newRuntime (.recording q) config onError) fun
    | .ok (.runtime r) => .ask (.start r program onDone) fun
      | .ok _ => fireAll q n
      | .error p => .done (.error p)
    | _ => .done (.ok ())

namespace Job

variable {client : Client K M} {own : M → A} {J : Job client own}

open Machine

/-! ### Futures -/

variable (J) in
/-- The job as a future, with its evaluation at `t`. -/
def future (t : Trampoline K.signature) : Future K := ⟨J.config, t, J.program.result⟩

/-- One poll of a future. -/
theorem gets_poll {w : World K M} (control : List (Activity K M)) {t t' : Trampoline K.signature}
    {a : Answer K.signature} {memory' : M}
    (h : (t.runSlice client.functions true J.budget).Ends w.memory (a, t') memory') :
    Gets client control ⟨w, control, .poll (J.future t)⟩
      ⟨{ w with memory := memory' }, control, .script (.poll (J.future t)) (.done (a, t'))⟩ := by
  refine .head rfl (List.suffix_refl _) (gets_script ?_)
  have hcatch : (J.future t).config.catchPanics = true := J.catching
  rw [hcatch]
  exact h

/-- A future that is not ready is polled again. -/
theorem gets_again (J : Job client own) (w : World K M) (control : List (Activity K M))
    (t t' : Trampoline K.signature) :
    ∃ w', own w'.memory = own w.memory ∧ Gets client control
      ⟨w, .driving :: control, .script (.poll (J.future t)) (.done (.suspended, t'))⟩
      ⟨w', .driving :: control, .poll (J.future t')⟩ := by
  have hc : control <:+ .driving :: control := List.suffix_cons _ _
  refine ⟨w.readClock.2.sleepUntil (w.readClock.1 + J.config.resumeDelay.nanos), rfl, ?_⟩
  exact .head rfl hc (.head rfl hc (.refl hc))

theorem Tracks.answers_poll {left : ℕ} {w : World K M} {control : List (Activity K M)}
    {t : Trampoline K.signature} (h : J.Tracks t (own w.memory) left) :
    J.Answers [] control ⟨w, .driving :: control, .poll (J.future t)⟩ := by
  induction left using Nat.strong_induction_on generalizing w t with
  | _ left ih =>
    have hc : control <:+ .driving :: control := List.suffix_cons _ _
    obtain ⟨a, t', memory', hends, hf | ⟨rfl, left', hlt, ht⟩⟩ := h.ends
    · -- The answer passes the activity that drives the future, and reaches the others as it is.
      have hpoll := (gets_poll (.driving :: control) hends).mono hc
      have hanswer := hf.answers ⟨{ w with memory := memory' }, .driving :: control,
        .script (.poll (J.future t)) (.done (a, t'))⟩ (f := J.future t) rfl
      generalize hm : afterPoll client ⟨{ w with memory := memory' }, .driving :: control,
        .script (.poll (J.future t)) (.done (a, t'))⟩ (J.future t) a t' = m' at hanswer
      obtain ⟨hfocus, hcontrol, hkeeps⟩ := hanswer
      have hstep : m'.step client =
          some ⟨m'.world, control, .answer (.ok (.settled J.result))⟩ := by
        rw [step, hfocus, hcontrol]
        rfl
      refine ⟨_, ⟨m'.world, control, .answer (.ok (.settled J.result))⟩, hpoll,
        ⟨a, t', rfl, rfl, hf⟩, .head (congrArg some hm) hc ?_, rfl, rfl, ?_⟩
      · exact .head hstep (by rw [hcontrol]; exact hc) (.refl (List.suffix_refl _))
      · rw [J.spares.keeps hkeeps]
        exact hf.own
    · obtain ⟨w', hw', hagain⟩ := gets_again J { w with memory := memory' } control t t'
      rw [← hw'] at ht
      have hpoll := (gets_poll (.driving :: control) hends).mono hc
      exact .of_gets (hpoll.trans hagain) (ih left' hlt ht)

/-- A future that is driven answers what the job delivers. -/
theorem answers_runAsync {m : Machine K M}
    (hm : m.focus = .request (.runAsync (J.future (.start J.program.root))))
    (hown : own m.world.memory = J.start) : J.Answers [] m.control m := by
  have htracks := J.tracks_start
  rw [← hown] at htracks
  refine .of_gets ?_ htracks.answers_poll
  refine .step ?_ (List.suffix_refl _) (List.suffix_cons _ _)
  rw [step, hm]
  rfl

/-! ### Slices of a run -/

/-- The script of a slice of a run. -/
theorem gets_slice {w : World K M} (control : List (Activity K M)) {f : Fiber K}
    {t' : Trampoline K.signature} {a : Answer K.signature} {memory' : M} (hr : J.Owns f.run)
    (h : (f.trampoline.runSlice client.functions true J.budget).Ends w.memory (a, t') memory') :
    Gets client control ⟨w, control, .resume f⟩
      ⟨{ w with memory := memory' }, control, .script (.slice f) (.done (a, t'))⟩ := by
  refine .head rfl (List.suffix_refl _) (gets_script ?_)
  have hcatch : f.run.config.catchPanics = true := by
    rw [hr.config]
    exact J.catching
  rw [hcatch, hr.config]
  exact h

/-- After a slice the run is reported, or what is left of it is deferred. -/
theorem Tracks.gets_resume {left : ℕ} {w : World K M} (control : List (Activity K M))
    {f : Fiber K} (hr : J.Owns f.run) (h : J.Tracks f.trampoline (own w.memory) left) :
    (∃ m₁ m₂ stats, Gets client control ⟨w, control, .resume f⟩ m₁ ∧ J.Ends [.run f.run] m₁ ∧
      Gets client control m₁ m₂ ∧ m₂.control = control ∧
        m₂.focus.reports = some (f.run, J.result.map (·, stats)) ∧ stats.steps = J.nodes ∧
          stats.suspensions = J.suspensions ∧ own m₂.world.memory = J.final ∧
            m₂.world.contents = w.contents) ∨
    ∃ w' t' left', left' < left ∧ J.Tracks t' (own w'.memory) left' ∧
      (∃ memory', w' = { w with memory := memory' }) ∧
        Gets client control ⟨w, control, .resume f⟩
          ⟨w', control, .defer f.run.host f.run.config.resumeDelay (.resume ⟨f.run, t'⟩)⟩ := by
  obtain ⟨a, t', memory', hends, hf | ⟨rfl, left', hlt, ht⟩⟩ := h.ends
  · have hslice := gets_slice control hr hends
    obtain ⟨hreports, hcontrol, hkeeps, hcontents⟩ :=
      hf.reports ⟨{ w with memory := memory' }, control, .script (.slice f) (.done (a, t'))⟩
        hr.result
    refine .inl ⟨_, _, t'.stats, hslice, ⟨a, t', rfl, rfl, hf⟩,
      .step rfl (List.suffix_refl _) ?_, hcontrol, hreports, hf.steps, hf.suspensions,
      (J.spares.keeps hkeeps).trans hf.own, hcontents.trans (World.contents_memory w memory')⟩
    exact (congrArg (control <:+ ·) hcontrol).mpr (List.suffix_refl _)
  · have hslice := gets_slice control hr hends
    exact .inr ⟨{ w with memory := memory' }, t', left', hlt, ht, ⟨memory', rfl⟩,
      hslice.trans (.step rfl (List.suffix_refl _) (List.suffix_refl _))⟩

/-! ### Recording hosts -/

/-- An empty recording host takes in the task of a run. -/
theorem defer_recording {w : World K M} {control : List (Activity K M)} {q : QueueId}
    (hq : w.hasQueue q) (he : w.queue q = []) (delay : Duration) (t : Task K) :
    step client ⟨w, control, .defer (.recording q) delay t⟩ =
      some ⟨w.setQueue q [(delay, t)], control, .answer (.ok .done)⟩ := by
  rw [step_of_not_overflows rfl]
  simp [handOver, hq, he, reply, go]

/-- The only task of a recording host is fired. -/
theorem fire_recording {w : World K M} {control : List (Activity K M)} {q : QueueId}
    {delay : Duration} {t : Task K} (he : w.queue q = [(delay, t)]) :
    step client ⟨w, control, .request (.fire q 0)⟩ =
      some ⟨w.setQueue q [], .affirming :: control, .begin t⟩ := by
  simp [step, perform, World.takeQueued, he, call]

/-- What follows a slice of a run on an empty recording host: it is reported, or its task waits
there. -/
theorem Tracks.gets_resume_recording {left : ℕ} {w : World K M} (control : List (Activity K M))
    {f : Fiber K} {q : QueueId} (hr : J.Owns f.run) (hhost : f.run.host = .recording q)
    (hq : w.hasQueue q) (he : w.queue q = [])
    (h : J.Tracks f.trampoline (own w.memory) left) :
    J.Reported f.run q control ⟨w, control, .resume f⟩ ∨
    ∃ w' t' left' delay, left' < left ∧ J.Tracks t' (own w'.memory) left' ∧ w'.hasQueue q ∧
      w'.queue q = [(delay, .resume ⟨f.run, t'⟩)] ∧
        Gets client control ⟨w, control, .resume f⟩ ⟨w', control, .answer (.ok .done)⟩ := by
  rcases h.gets_resume control hr with
    ⟨m₁, m₂, stats, h₁, hends, h₂, -, hreports, hsteps, hsus, hown, hcontents⟩ |
      ⟨w', t', left', hlt, ht, ⟨memory', hw'⟩, hgets⟩
  · refine .inl ⟨m₁, m₂, stats, h₁, hends, h₂, hreports, hsteps, hsus, hown, ?_⟩
    have hempty := congrFun hcontents (.recording q)
    simpa [World.contents, he] using hempty
  · rw [hhost] at hgets
    have hq' : w'.hasQueue q := by
      rw [hw']
      exact hq
    have he' : w'.queue q = [] := by
      rw [hw']
      exact he
    refine .inr ⟨w'.setQueue q [(f.run.config.resumeDelay, .resume ⟨f.run, t'⟩)], t', left', _, hlt,
      ht, World.hasQueue_setQueue hq' _, World.queue_setQueue hq' _, hgets.trans ?_⟩
    exact .step (defer_recording hq' he' _ _) (List.suffix_refl _) (List.suffix_refl _)

/-- The task of a run that waits on a recording host is fired until the run is reported. -/
theorem Tracks.reported_of_fireAll {left n : ℕ} {w : World K M} {control : List (Activity K M)}
    {f : Fiber K} {q : QueueId} {delay : Duration} (hr : J.Owns f.run)
    (hhost : f.run.host = .recording q) (hq : w.hasQueue q)
    (he : w.queue q = [(delay, .resume f)]) (h : J.Tracks f.trampoline (own w.memory) left)
    (hn : J.suspensions < f.trampoline.stats.suspensions + n) :
    J.Reported f.run q control ⟨w, control, .script .body (.fireAll q n)⟩ := by
  induction left using Nat.strong_induction_on generalizing w f delay n with
  | _ left ih =>
    -- A run that has not come to its end has suspensions left, so there is a fire for it.
    have hle := h.suspensions_le
    obtain ⟨n, rfl⟩ := Nat.exists_eq_add_of_lt (show 0 < n by omega)
    simp only [Nat.zero_add] at hn ⊢
    -- The fire and what waits for it.
    have hc (above : List (Activity K M)) : control <:+ above ++ control :=
      List.suffix_append _ _
    set next : Except Payload (Reply K) → Script K M Ending := fun
      | .ok (.flag true) => .fireAll q n
      | _ => .done (.ok ()) with hnext
    have hfire : Gets client control ⟨w, control, .script .body (.fireAll q (n + 1))⟩
        ⟨w.setQueue q [], .affirming :: .code .body next :: control, .resume f⟩ :=
      .head rfl (List.suffix_refl _) (.head (fire_recording he) (hc [_])
        (.head rfl (hc [_, _]) (.refl (hc [_, _]))))
    refine .of_gets hfire ?_
    have ht : J.Tracks f.trampoline (own (w.setQueue q []).memory) left := h
    rcases ht.gets_resume_recording (.affirming :: .code .body next :: control) hr hhost
        (World.hasQueue_setQueue hq []) (World.queue_setQueue hq []) with
      hrep | ⟨w', t', left', delay', hlt, ht', hq', he', hgets⟩
    · obtain ⟨m₁, m₂, stats, h₁, hends, h₂, hrest⟩ := hrep
      exact ⟨m₁, m₂, stats, h₁.mono (hc [_, _]), hends, h₂.mono (hc [_, _]), hrest⟩
    · have hanswer : Gets client control
          ⟨w', .affirming :: .code .body next :: control, .answer (.ok .done)⟩
          ⟨w', control, .script .body (.fireAll q n)⟩ :=
        .head rfl (hc [_, _]) (.head rfl (hc [_]) (.refl (List.suffix_refl _)))
      have hlt' := h.suspensions_lt ht' hlt
      have hn' : J.suspensions < t'.stats.suspensions + n := by omega
      exact .of_gets ((hgets.mono (hc [_, _])).trans hanswer)
        (ih left' hlt (f := ⟨f.run, t'⟩) hr hhost hq' he' ht' hn')

/-- A run on a recording host whose tasks are fired is reported with what the job delivers. -/
theorem reported_of_runByHand {m : Machine K M} {q : QueueId} {onError : ErrorHandler K}
    {onDone : K.Completion} {n : ℕ}
    (hm : m.focus = .script .body (.runByHand q J.config onError J.program onDone n))
    (hown : own m.world.memory = J.start) (hq : m.world.hasQueue q)
    (he : m.world.queue q = []) (hn : J.suspensions ≤ n) :
    J.Reported (J.run m.world (.callbacks onDone onError) (.recording q)) q m.control m := by
  obtain ⟨w, control, focus⟩ := m
  cases hm
  have hc (above : List (Activity K M)) : control <:+ above ++ control := List.suffix_append _ _
  set run : Run K := J.run w (.callbacks onDone onError) (.recording q) with hrun
  set next : Except Payload (Reply K) → Script K M Ending := fun
    | .ok _ => .fireAll q n
    | .error p => .done (.error p) with hnext
  obtain ⟨w₁, hw₁, hkeeps, hqueues⟩ : ∃ w₁, noteBudget client J.config w = w₁ ∧
      w.Keeps client w₁ ∧ w₁.queues = w.queues := by
    refine ⟨_, rfl, keeps_noteBudget client J.config w, ?_⟩
    rw [noteBudget]
    split <;> rfl
  set w₂ : World K M :=
    { w₁ with runs := w₁.runs + 1 }.observe client (.runStarted J.program.root.kind) with hw₂
  have hstart : Gets client control
      ⟨w, control, .script .body (.runByHand q J.config onError J.program onDone n)⟩
      ⟨w₂, .code .body next :: control, .resume ⟨run, .start J.program.root⟩⟩ := by
    have hid : run = ⟨⟨(noteBudget client J.config w).runs⟩, J.program.result,
        .callbacks onDone onError, .recording q, J.config.progressing⟩ := by
      rw [noteBudget_runs, hrun, Job.run]
    rw [hw₂, ← hw₁, hid]
    refine .head rfl (hc []) (.head rfl (hc [_]) (.head rfl (hc [_]) (.head rfl (hc []) ?_)))
    exact .step rfl (hc [_]) (hc [_])
  have htracks : J.Tracks (.start J.program.root) (own w₂.memory) J.nodes := by
    have hstart := J.tracks_start
    rwa [← hown, ← J.spares.keeps hkeeps, ← J.spares.keeps (World.keeps_observe _ _)] at hstart
  have hq₂ : w₂.hasQueue q := by simpa [World.hasQueue, hw₂, World.observe, hqueues] using hq
  have he₂ : w₂.queue q = [] := by simpa [World.queue, hw₂, World.observe, hqueues] using he
  refine .of_gets hstart ?_
  rcases htracks.gets_resume_recording (.code .body next :: control)
      (f := ⟨run, .start J.program.root⟩) ⟨rfl, rfl⟩ rfl hq₂ he₂ with
    ⟨m₁, m₂, stats, h₁, hends, h₂, hrest⟩ | ⟨w', t', left', delay, hlt, ht', hq', he', hgets⟩
  · exact ⟨m₁, m₂, stats, h₁.mono (hc [_]), hends, h₂.mono (hc [_]), hrest⟩
  · have hanswer : Gets client control ⟨w', .code .body next :: control, .answer (.ok .done)⟩
        ⟨w', control, .script .body (.fireAll q n)⟩ :=
      .step rfl (hc [_]) (List.suffix_refl _)
    have hlt' := htracks.suspensions_lt ht' hlt
    have hn' : J.suspensions < t'.stats.suspensions + n := by omega
    exact .of_gets ((hgets.mono (hc [_])).trans hanswer)
      (ht'.reported_of_fireAll (f := ⟨run, t'⟩) ⟨rfl, rfl⟩ rfl hq' he' hn')

end Job

end LazyEffects
