import LazyEffects.Proofs.Crash
import LazyEffects.Proofs.Pumps
import LazyEffects.Proofs.Working

/-!
# Agreement

A job can be run on an event loop that is pumped, on a worker, as a future, or on a recording host
whose tasks are fired by hand. The way does not matter: what is delivered is the same, after the
same steps and suspensions, and so is what the functions of the job have done by then.

* `Job.hosts_agree`: each of the four delivers what the direct evaluation of the program ends with.
-/

namespace LazyEffects

variable {K : Codes} {M A : Type}

/-- Whoever asks for the outcome of a job is given the result that its evaluation fixes, whichever
host it is run on. This is never an abandonment nor the failure of a second start. When it is given,
the last slice is over, with the steps and suspensions that the evaluation fixes, and the functions
of the job have done what they do in the evaluation. -/
theorem Job.hosts_agree {client : Client K M} {own : M → A} (J : Job client own) :
    (J.result ≠ .error .abandoned ∧ J.result ≠ .error .alreadyCompleted) ∧
    (∀ m l, J.OnLoop l m → J.Answers [.run (J.awaited m.world (.eventLoop l))] m.control m) ∧
    (∀ m i, J.OnWorker i m → J.Answers [.run (J.awaited m.world (.worker i))] m.control m) ∧
    (∀ m : Machine K M, m.focus = .request (.runAsync (J.future (.start J.program.root))) →
      own m.world.memory = J.start → J.Answers [] m.control m) ∧
    (∀ (m : Machine K M) q onError onDone n,
      m.focus = .script .body (.runByHand q J.config onError J.program onDone n) →
      own m.world.memory = J.start → m.world.hasQueue q → m.world.queue q = [] →
      J.suspensions ≤ n →
        J.Reported (J.run m.world (.callbacks onDone onError) (.recording q)) q m.control m) := by
  refine ⟨J.program.settle_ne J.verdict, fun m l h => ?_, fun m i h => ?_, fun m hf hstart => ?_,
    fun m q onError onDone n hf hstart hq he hn => ?_⟩
  · exact J.answers_blockOn h
  · exact J.answers_blockOnWorker h
  · exact J.answers_runAsync hf hstart
  · exact J.reported_of_runByHand hf hstart hq he hn

/-! ### A job on each host -/

namespace Plain

open Machine

theorem pair_evaluates : Evaluates (.own id) client.functions 0 (.map (.sync ()) none) () (.ok ())
    [.visit (.map (.sync ()) none) 0, .visit (.sync ()) 1, .call (.thunk ()),
      .call (.transform none ())] () := by
  have hthunk : (Meaning.own id).Runs (client.functions.thunk ()) () (.returned ()) () :=
    fun memory h => ⟨memory, .done, h⟩
  have htransform :
      (Meaning.own id).Runs (client.functions.transform none ()) () (.returned ()) () :=
    fun memory h => ⟨memory, .done, h⟩
  exact .map (.sync hthunk) htransform

/-- A job of two nodes. A budget of 0 allows for one to a slice. -/
def pair : Job client id where
  program := ⟨.map (.sync ()) none, ()⟩
  config := ⟨0, .zero, true⟩
  start := ()
  final := ()
  verdict := .ok ()
  deeds := _
  evaluates := pair_evaluates
  catching := rfl
  spares _ _ := rfl

/-- The task of a run of this job, between its two slices. -/
def between (run : Run Plain) : Task Plain :=
  .resume ⟨run, ⟨some (.sync ()), Frames.push .empty (.map none), ⟨1, 1, 1⟩⟩⟩

/-- The task that is being begun. -/
def begun (m : Machine Plain Unit) : Option (Task Plain) :=
  match m.focus with
  | .begin t => some t
  | _ => none

/-- Tasks of the client disturb nobody. -/
theorem undisturbed {run : Run Plain} {base : List (Activity Plain Unit)}
    {m : Machine Plain Unit} {N : ℕ} (hN : ¬ base <:+ (m.run client N).control)
    (hserves : ∀ n ∈ List.range N, (m.run client n).world.Serves run.host)
    (hfits : ∀ n ∈ List.range N,
      (m.run client n).world.overflows run.host run.config.resumeDelay = false)
    (hbegun : ∀ t ∈ (List.range N).filterMap fun n => begun (m.run client n),
      t = .client () ∨ t = between run) : Undisturbed client id run base m where
  serves hn := hserves _ (List.mem_range.2 (hn.lt hN))
  fits hn _ := hfits _ (List.mem_range.2 (hn.lt hN))
  spares _ _ _ _ _ _ := rfl
  returns {n above t} hn hc hf ht := by
    have hmem : t ∈ (List.range N).filterMap fun n => begun (m.run client n) :=
      List.mem_filterMap.2 ⟨n, List.mem_range.2 (hn.lt hN), by rw [begun, hf]⟩
    rcases hbegun t hmem with rfl | rfl
    · have hrun : m.run client n =
          ⟨(m.run client n).world, above :: base, .begin (.client ())⟩ := by
        rw [← hc, ← hf]
      have hrefl := List.suffix_refl (above :: base)
      rw [hrun]
      exact ⟨_, .done, .head rfl hrefl (.step rfl hrefl hrefl), rfl, rfl⟩
    · exact absurd rfl ht

/-- Some requests are made one after the other, and `n` moves have been made. -/
def asking (rs : List (Request Plain)) (n : ℕ) : Machine Plain Unit :=
  (initial (.initial .still ())
    (rs.foldr (fun r next => .ask r fun _ => next) (.done (.ok ())))).run client n

/-- The job is to be run on an event loop that holds a task. -/
def looping : Machine Plain Unit :=
  asking [.openLoop, .defer (.eventLoop ⟨0⟩) .zero (), .blockOn ⟨0⟩ pair.config pair.program] 8

/-- The job is to be run on a worker that has been sent a task. -/
def working : Machine Plain Unit :=
  asking [.openWorker, .defer (.worker ⟨0⟩) .zero (),
    .blockOnWorker ⟨0⟩ pair.config pair.program] 8

/-- The job is to be driven as a future. -/
def driving : Machine Plain Unit :=
  asking [.runAsync (pair.future (.start pair.program.root))] 1

/-- The job is to be run on an empty recording host. -/
def firing : Machine Plain Unit :=
  (initial (.initial .still ()) (.ask .openQueue fun _ =>
    .runByHand ⟨0⟩ pair.config .log pair.program () 1)).run client 3

theorem looping_over :
    ¬ .reporting ⟨looping.world.cells.size⟩ :: .sharing ⟨0⟩ :: looping.control <:+
      ((looping.run client 1).run client 19).control := by
  have hlooping : looping.control.length = 1 := by cbv
  have hover : ((looping.run client 1).run client 19).control.length = 2 := by cbv
  intro h
  have hle := h.length_le
  rw [List.length_cons, List.length_cons, hlooping, hover] at hle
  omega

theorem onLoop : pair.OnLoop ⟨0⟩ looping where
  requested := ⟨⟨_, _, _, _, rfl⟩, by cbv, rfl⟩
  undisturbed := by
    refine undisturbed looping_over (fun n hn => ?_) (fun n hn => ?_) ?_
    · have hall : (List.range 19).all (fun n =>
          (((looping.run client 1).run client n).world.loop? ⟨0⟩).isSome) = true := by cbv
      exact Option.isSome_iff_exists.1 (List.all_eq_true.1 hall n hn)
    · have hall : (List.range 19).all (fun n =>
          !((looping.run client 1).run client n).world.overflows (.eventLoop ⟨0⟩) .zero) =
            true := by cbv
      exact (Bool.not_eq_true' _).mp (List.all_eq_true.1 hall n hn)
    · have hbegun : ((List.range 19).filterMap fun n =>
          begun ((looping.run client 1).run client n)) =
            [.client (), between (pair.awaited looping.world (.eventLoop ⟨0⟩))] := by cbv
      simp [hbegun]
  finite := ⟨_, fun _ hn => deferrals_mono _ _ _ (hn.lt looping_over).le⟩

theorem working_over :
    ¬ .reporting ⟨working.world.cells.size⟩ :: working.control <:+
      ((working.run client 1).run client 21).control := by
  have hworking : working.control.length = 1 := by cbv
  have hover : ((working.run client 1).run client 21).control.length = 1 := by cbv
  intro h
  have hle := h.length_le
  rw [List.length_cons, hworking, hover] at hle
  omega

theorem onWorker : pair.OnWorker ⟨0⟩ working where
  requested := ⟨⟨_, _, _, _, rfl⟩, by cbv, rfl⟩
  undisturbed := by
    refine undisturbed working_over (fun n hn => ?_) (fun n hn => ?_) ?_
    · have hall : (List.range 21).all (fun n =>
          (((working.run client 1).run client n).world.worker? ⟨0⟩).any
            (·.phase = .running)) = true := by cbv
      obtain ⟨s, hs, hp⟩ := Option.any_eq_true _ _ |>.1 (List.all_eq_true.1 hall n hn)
      exact ⟨s, hs, of_decide_eq_true hp⟩
    · have hall : (List.range 21).all (fun n =>
          !((working.run client 1).run client n).world.overflows (.worker ⟨0⟩) .zero) =
            true := by cbv
      exact (Bool.not_eq_true' _).mp (List.all_eq_true.1 hall n hn)
    · have hbegun : ((List.range 21).filterMap fun n =>
          begun ((working.run client 1).run client n)) =
            [.client (), between (pair.awaited working.world (.worker ⟨0⟩))] := by cbv
      simp [hbegun]
  submits _ := ⟨_, fun _ hn _ => deferrals_mono _ _ _ (hn.lt working_over).le⟩

theorem pair_agrees :
    pair.Answers [.run (pair.awaited looping.world (.eventLoop ⟨0⟩))] looping.control looping ∧
    pair.Answers [.run (pair.awaited working.world (.worker ⟨0⟩))] working.control working ∧
    pair.Answers [] driving.control driving ∧
    pair.Reported (pair.run firing.world (.callbacks () .log) (.recording ⟨0⟩)) ⟨0⟩ firing.control
      firing := by
  obtain ⟨-, hloop, hworker, hfuture, hhand⟩ := pair.hosts_agree
  refine ⟨hloop _ _ onLoop, hworker _ _ onWorker, hfuture _ ?_ rfl, ?_⟩
  · cbv
  · refine hhand _ _ _ _ 1 ?_ rfl ?_ ?_ ?_
    · cbv
    · cbv
    · cbv
    · cbv

/-! ### Hosts that disagree -/

/-- The job, with the longest delay. -/
def far : Job client id := { pair with config := ⟨0, .longest, true⟩, catching := rfl }

/-- It is to be run on an event loop, and it is to be driven as a future. -/
def farLoop : Machine Plain Unit := asking [.openLoop, .blockOn ⟨0⟩ far.config far.program] 4

def farFuture : Machine Plain Unit := asking [.runAsync (far.future (.start far.program.root))] 1

/-- A client who remembers whether a task has run. If one has, a transform panics. -/
def spoiling : Client Plain Bool where
  thunk _ := .done (.returned ())
  transform _ _ := .update id fun spoilt =>
    .done (if spoilt then .panicked (.literal "boom") else .returned ())
  continuation k _ := k.elim
  task _ := .update (fun _ => true) fun _ => .done (.ok ())
  discard _ := .done (.ok ())
  completion _ _ _ := .done (.ok ())
  handler _ _ := .done (.ok ())
  observe _ memory := memory

/-- A job whose transform finds that no task has run. -/
def spoilt : Job spoiling id where
  program := ⟨.map (.sync ()) none, ()⟩
  config := ⟨0, .zero, true⟩
  start := false
  final := false
  verdict := .ok ()
  deeds := _
  evaluates := by
    have hthunk : (Meaning.own id).Runs (spoiling.functions.thunk ()) false (.returned ()) false :=
      fun memory h => ⟨memory, .done, h⟩
    have htransform :
        (Meaning.own id).Runs (spoiling.functions.transform none ()) false (.returned ()) false := by
      rintro memory rfl
      exact ⟨_, .update .done, rfl⟩
    exact .map (.sync hthunk) htransform
  catching := rfl
  spares _ _ := rfl

/-- It is to be run on an event loop that holds a task, and it is to be driven as a future. -/
def spoiltLoop : Machine Plain Bool :=
  (initial (.initial .still false) (.ask .openLoop fun _ =>
    .ask (.defer (.eventLoop ⟨0⟩) .zero ()) fun _ =>
      .ask (.blockOn ⟨0⟩ spoilt.config spoilt.program) fun _ => .done (.ok ()))).run spoiling 8

def spoiltFuture : Machine Plain Bool :=
  (initial (.initial .still false)
    (.ask (.runAsync (spoilt.future (.start spoilt.program.root))) fun _ =>
      .done (.ok ()))).run spoiling 1

/-- There may be no such point in time as a due time: then an event loop panics, which a future does
not. And a task that returns may have changed what the functions of a job work on. -/
theorem hosts_disagree :
    (far.Answers [] farFuture.control farFuture ∧ ∃ n,
      Answered client farLoop n (.error overflow)) ∧
    (spoilt.Answers [] spoiltFuture.control spoiltFuture ∧ spoilt.result = .ok () ∧ ∃ n,
      Answered spoiling spoiltLoop n
        (.ok (.settled (.error (.panicked .transform "boom"))))) := by
  refine ⟨⟨Job.answers_runAsync (by cbv) rfl, 9, ?_, ?_, unanswered_of_all ?_⟩,
    Job.answers_runAsync (by cbv) rfl, rfl, 25, ?_, ?_, unanswered_of_all ?_⟩ <;> cbv

end Plain

end LazyEffects
