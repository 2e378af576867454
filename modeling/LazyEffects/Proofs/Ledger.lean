import LazyEffects.Proofs.Frame

/-!
# The ledger of a session

Every task stands for something that has to be done once (`Ticket`): a run that has to be reported,
a task of the client's that has to be run, a cell that has to be marked. A ticket either waits at a
host or is in the hands of the machine, in what it does or in an activity that waits.

A move of the machine may issue tickets, use some up, or lose some because a panic passes. Apart
from that, tickets only change hands.

* `Machine.step_balances`: the balance of a move, with the transfer it makes at the hosts and the
  occasion for it.
-/

namespace LazyEffects

variable {K : Codes} {M : Type}

/-- What a task stands for, however much of it has been done. -/
inductive Ticket (K : Codes) where
  | run (r : Run K)
  | client (t : K.Task)
  | signal (c : CellId)

def Task.ticket : Task K → Ticket K
  | resume f => .run f.run
  | client t => .client t
  | signal c => .signal c

@[simp] theorem Task.ticket_resume (f : Fiber K) : (resume f).ticket = .run f.run := rfl

@[simp] theorem Task.ticket_client (t : K.Task) : (client t : Task K).ticket = .client t := rfl

@[simp] theorem Task.ticket_signal (c : CellId) : (signal c : Task K).ticket = .signal c := rfl

/-! ### Tickets in hand -/

/-- A slice has the ticket of its run. -/
@[simp]
def Role.tickets : Role K → List (Ticket K)
  | slice f => [.run f.run]
  | body | bare | poll _ => []

/-- The tickets of an activity that waits. -/
@[simp]
def Activity.tickets : Activity K M → List (Ticket K)
  | code role _ => role.tickets
  | dropping rest => rest.map Task.ticket
  | _ => []

/-- The tickets of what is being done. -/
@[simp]
def Focus.tickets : Focus K M → List (Ticket K)
  | script role _ => role.tickets
  | resume f => [.run f.run]
  | begin t => [t.ticket]
  | complete run _ _ => [.run run]
  | report run _ => [.run run]
  | defer _ _ t => [t.ticket]
  | drop ts => ts.map Task.ticket
  | _ => []

/-! ### Issued, used up, lost -/

/-- The tickets that a request issues. -/
@[simp]
def Request.tickets (w : World K M) : Request K → List (Ticket K)
  | defer _ _ t => [.client t]
  | awaitWorker _ => [.signal ⟨w.cells.size⟩]
  | r => (r.starts w).map .run

namespace Machine

/-- The tickets in the hands of the machine. -/
@[simp]
def inHand (m : Machine K M) : List (Ticket K) :=
  m.focus.tickets ++ m.control.flatMap Activity.tickets

/-- The tickets that the next move issues. -/
@[simp]
def issued (m : Machine K M) : List (Ticket K) :=
  match m.focus with
  | .request r => r.tickets m.world
  | _ => []

/-- The tickets that the next move uses up: a run is reported, a task is run or dropped, a cell is
marked. -/
@[simp]
def spent (m : Machine K M) : List (Ticket K) :=
  match m.focus with
  | .complete run _ _ => [.run run]
  | .report run _ => [.run run]
  | .begin (.client t) => [.client t]
  | .begin (.signal c) => [.signal c]
  | .drop (.client t :: _) => [.client t]
  | .drop (.signal c :: _) => [.signal c]
  | _ => []

/-- The tickets that the next move loses: a panic leaves a slice, or it passes tasks that are being
dropped, the last owner of an event loop, or the thread of a worker; or a host panics that is to
take a task. -/
@[simp]
def lost (m : Machine K M) : List (Ticket K) :=
  match m.focus, m.control with
  | .script (.slice f) (.done (.unwound _, _)), _ => [.run f.run]
  | .defer host delay t, _ => if m.world.overflows host delay then [t.ticket] else []
  | .answer (.error _), .dropping rest :: _ => rest.map Task.ticket
  | .answer (.error _), .sharing l :: _ => (m.world.release l).1.map Task.ticket
  | .answer (.error _), .working i _ :: _ => (m.world.contents (.worker i)).map Task.ticket
  | .answer (.error _), .stopping i _ :: _ => (m.world.contents (.worker i)).map Task.ticket
  | _, _ => []

/-- When a transfer takes place: a task is taken in as it is deferred, and what is handed out is
run or dropped next. Hosts that go on serving give up nothing and lose nothing. -/
def Occasion (m m' : Machine K M) : Transfer K → Prop
  | .none => True
  | .accept host t =>
    ∃ delay, m.focus = .defer host delay t ∧ m.world.overflows host delay = false
  | .start _ t => m'.focus = .begin t
  | .giveUp host ts => m'.focus = .drop ts ∧ (m'.world.Serves host → ts = [])
  | .lose host ts => (∃ p, m.focus = .answer (.error p)) ∧ (m'.world.Serves host → ts = [])

/-- The balance of a move from `m` to `m'` with the transfer `x` at the hosts. -/
structure Balances (m m' : Machine K M) (x : Transfer K) : Prop where
  contents : m.world.Transfers m'.world x
  occasion : Occasion m m' x
  inHand (key : Ticket K → Bool) :
    m'.inHand.countP key + (x.accepted.map Task.ticket).countP key +
        (m.spent.countP key + m.lost.countP key) =
      m.inHand.countP key + ((x.handedOut ++ x.lost).map Task.ticket).countP key +
        m.issued.countP key

variable (client : Client K M) {w : World K M} {control : List (Activity K M)}

/-- A move after which the hosts hold what they held. -/
theorem Balances.none {m m' : Machine K M}
    (hw : ∀ h, (m'.world.contents h).Perm (m.world.contents h))
    (hkey : ∀ key : Ticket K → Bool, m'.inHand.countP key +
      (m.spent.countP key + m.lost.countP key) = m.inHand.countP key + m.issued.countP key) :
    m.Balances m' .none :=
  ⟨hw, trivial, by simpa only [Transfer.accepted, Transfer.handedOut, Transfer.lost,
    List.append_nil, List.map_nil, List.countP_nil, Nat.add_zero] using hkey⟩

theorem Balances.still {m m' : Machine K M} (hw : m'.world.contents = m.world.contents)
    (hkey : ∀ key : Ticket K → Bool, m'.inHand.countP key +
      (m.spent.countP key + m.lost.countP key) = m.inHand.countP key + m.issued.countP key) :
    m.Balances m' .none :=
  .none (fun h => by rw [hw]) hkey

@[simp] theorem noteBudget_contents (config : Config) (w : World K M) :
    (noteBudget client config w).contents = w.contents := by
  rw [noteBudget]
  split <;> simp

/-! ### The moves -/

theorem finish_balances (role : Role K) (x : role.Ending) :
    ∃ τ, Balances ⟨w, control, .script role (.done x)⟩
      (finish client ⟨w, control, .script role (.done x)⟩ role x) τ := by
  refine ⟨.none, ?_⟩
  cases role with
  | body =>
    cases x with
    | ok => exact .still rfl (by simp [finish])
    | error p => exact .still rfl (by simp [finish])
  | slice f =>
    obtain ⟨a, t⟩ := x
    cases a with
    | suspended => exact .still rfl (by simp [finish, afterSlice])
    | completed v =>
      simp only [finish, afterSlice]
      split
      · exact .still (by simp) (by simp)
      · exact .still (by simp) (by simp)
    | failed e => exact .still (by simp [finish, afterSlice]) (by simp [finish, afterSlice])
    | unwound p => exact .still rfl (by simp [finish, afterSlice, List.countP_cons])
  | bare => exact .still rfl (by simp [finish])
  | poll f =>
    obtain ⟨a, t⟩ := x
    cases a <;> exact .still (by simp [finish, afterPoll]) (by simp [finish, afterPoll])

theorem begin_balances (t : Task K) :
    ∃ τ, Balances ⟨w, control, .begin t⟩ (begin client ⟨w, control, .begin t⟩ t) τ := by
  refine ⟨.none, ?_⟩
  cases t with
  | resume f => exact .still rfl (by simp [begin])
  | client t => exact .still rfl (by simp [begin, List.countP_cons])
  | signal c => exact .still (by simp [begin]) (by simp [begin, List.countP_cons])

theorem complete_balances (run : Run K) (v : K.signature.Value) (stats : Stats) :
    ∃ τ, Balances ⟨w, control, .complete run v stats⟩
      (complete client ⟨w, control, .complete run v stats⟩ run v stats) τ := by
  refine ⟨.none, ?_⟩
  rw [complete]
  split
  · exact .still rfl (by simp [List.countP_cons])
  · exact .still (by simp) (by simp [List.countP_cons])

theorem report_balances (run : Run K) (e : RunError) :
    ∃ τ, Balances ⟨w, control, .report run e⟩
      (report client ⟨w, control, .report run e⟩ run e) τ := by
  refine ⟨.none, ?_⟩
  rw [report]
  split
  · exact .still (by simp) (by simp [List.countP_cons])
  · exact .still rfl (by simp [List.countP_cons])
  · exact .still (by simp) (by simp [List.countP_cons])

theorem overflow_balances {host : Host} {delay : Duration} (t : Task K)
    (ho : w.overflows host delay = true) :
    ∃ τ, Balances ⟨w, control, .defer host delay t⟩
      ⟨w.readClock.2, control, .answer (.error overflow)⟩ τ :=
  ⟨.none, .still (World.contents_readClock w) (by simp [ho, List.countP_cons])⟩

theorem handOver_balances {host : Host} {delay : Duration} (t : Task K)
    (ho : w.overflows host delay = false) :
    ∃ τ, Balances ⟨w, control, .defer host delay t⟩
      (handOver client ⟨w, control, .defer host delay t⟩ host delay t) τ := by
  cases host with
  | eventLoop l =>
    cases hs : w.loop? l with
    | some s =>
      refine ⟨.accept (.eventLoop l) t, ?_, ⟨delay, rfl, ho⟩, ?_⟩
      · have hs' : w.readClock.2.loop? l = some s := hs
        simp only [handOver, hs]
        exact (World.setLoop_takesIn hs' (w.readClock.1 + delay.nanos) t).congr (by simp) (by simp)
      · simp [handOver, ho, hs, List.countP_cons]
    | none =>
      refine ⟨.none, ?_⟩
      simp only [handOver, hs]
      exact .still (by simp) (by simp [ho])
  | recording q =>
    by_cases hq : w.hasQueue q
    · refine ⟨.accept (.recording q) t, ?_, ⟨delay, rfl, ho⟩, ?_⟩
      · simp only [handOver, hq, if_true]
        exact World.setQueue_takesIn hq delay t
      · simp [handOver, ho, hq, List.countP_cons]
    · refine ⟨.none, ?_⟩
      simp only [handOver, hq]
      exact .still rfl (by simp [ho])
  | discarding => exact ⟨.none, .still rfl (by simp [handOver, ho])⟩
  | worker i =>
    cases hs : (w.worker? i).filter (·.accepts) with
    | some s =>
      have hs' : w.readClock.2.worker? i = some s := (Option.filter_eq_some_iff.1 hs).1
      have hs'' : (w.readClock.2.worker? i).filter (·.accepts) = some s := hs
      refine ⟨.accept (.worker i) t, ?_, ⟨delay, rfl, ho⟩, ?_⟩
      · simp only [handOver, hs'']
        exact (World.setWorker_takesIn hs' (Worker.tasks_send _ _ _)).congr (by simp) rfl
      · simp [handOver, ho, hs'', List.countP_cons]
    | none =>
      have hs' : (w.readClock.2.worker? i).filter (·.accepts) = none := hs
      refine ⟨.none, ?_⟩
      simp only [handOver, hs']
      exact .still (by simp) (by simp [ho])

theorem drop_balances (ts : List (Task K)) :
    ∃ τ, Balances ⟨w, control, .drop ts⟩ (drop client ⟨w, control, .drop ts⟩ ts) τ := by
  refine ⟨.none, ?_⟩
  cases ts with
  | nil => exact .still rfl (by simp [drop])
  | cons t rest =>
    cases t with
    | resume f => exact .still (by simp [drop]) (by simp [drop, List.countP_cons])
    | client t => exact .still rfl (by simp [drop, List.countP_cons])
    | signal c => exact .still rfl (by simp [drop, List.countP_cons])

theorem pump_balances (l : LoopId) (executed : ℕ) :
    ∃ τ, Balances ⟨w, control, .pump l executed⟩
      (pump client ⟨w, control, .pump l executed⟩ l executed) τ := by
  simp only [pump]
  split
  · rename_i t turn w' hw
    refine ⟨.start (.eventLoop l) t, ?_, rfl, ?_⟩
    · exact (World.popLoop_handsOut hw).congr rfl (by simp)
    · simp [List.countP_cons]
  · rename_i w' hw
    have hc := World.popLoop_none hw
    refine ⟨.none, ?_⟩
    split
    · exact .still (by simpa using hc) (by simp)
    · exact .still (by simpa using hc) (by simp)

theorem crash_handsOut (w : World K M) (i : WorkerId) :
    w.HandsOut (crash w i) (.worker i) (w.contents (.worker i)) := by
  rw [crash]
  split
  · rename_i s hs
    refine World.setWorker_handsOut hs ?_
    rw [World.contents_worker hs]
    exact .refl _
  · rename_i hs
    refine ⟨fun _ _ => rfl, ?_⟩
    have : w.contents (.worker i) = [] := by simp [World.contents, hs]
    simp [this]

theorem crash_not_serves {i : WorkerId} : ¬ (crash w i).Serves (.worker i) := by
  rw [crash]
  split
  · rename_i s hs
    exact World.not_serves_setWorker hs _ (by simp [Worker.crash])
  · rename_i hs
    rintro ⟨s, hs', -⟩
    rw [hs] at hs'
    cases hs'

theorem work_balances (i : WorkerId) (wanted : Option CellId) :
    ∃ τ, Balances ⟨w, control, .work i wanted⟩
      (work client ⟨w, control, .work i wanted⟩ i wanted) τ := by
  cases hs : (w.worker? i).filter (·.phase = .running) with
  | none =>
    refine ⟨.none, ?_⟩
    simp only [work, hs]
    exact .still rfl (by simp)
  | some s =>
    have hs' : w.readClock.2.worker? i = some s := (Option.filter_eq_some_iff.1 hs).1
    cases hf : w.isFilled wanted with
    | true =>
      simp only [work, hs, hf, if_true]
      exact ⟨.none, .still rfl (by simp)⟩
    | false =>
      simp only [work, hs, hf, Bool.false_eq_true, if_false]
      split
      · rename_i t s' hp
        refine ⟨.start (.worker i) t, ?_, rfl, ?_⟩
        · have hp' := (List.perm_append_singleton _ _).trans (Worker.tasks_popDue hp).symm
          exact (World.setWorker_handsOut hs' hp').congr (by simp) (by simp)
        · simp [List.countP_cons]
      · split
        · rename_i s' hr
          have hr' := Worker.tasks_receive hr
          split
          · refine ⟨.none, .none ?_ (by simp)⟩
            simpa using World.setWorker_contents hs' hr'
          · -- The order to stop: the timers are given up, and the channel stays as it is.
            rename_i hphase
            have hd := World.setWorker_handsOut hs' (s'.tasks_dropTimers.trans hr')
            refine ⟨.giveUp (.worker i) s'.dropTimers.1, hd.congr (by simp) ?_, ⟨rfl, ?_⟩,
              by simp [Nat.add_comm]⟩
            · simp only [call_world]
              split <;> simp
            · intro hserves
              refine absurd ?_ (World.not_serves_setWorker hs' s'.dropTimers.2 hphase)
              simp only [call_world] at hserves
              split at hserves <;> exact hserves
        · split
          · exact ⟨.none, .still (by simp) (by simp)⟩
          · exact ⟨.none, .still (by simp) (by simp)⟩

theorem launch_balances (m : Machine K M) (above : List (Activity K M)) (w : World K M)
    (host : Host) (config : Config) (recipient : Recipient K) (program : Program K.signature)
    (hw : w.contents = m.world.contents) (ha : above.flatMap Activity.tickets = [])
    (hm : m.focus.tickets = []) (hs : m.spent = []) (hl : m.lost = [])
    (hi : m.issued = [.run ⟨⟨w.runs⟩, program.result, recipient, host, config⟩]) :
    m.Balances (m.launch client above w host config recipient program) .none := by
  refine .still ?_ ?_
  · simp [launch, hw]
  · intro key
    -- The one ticket that is new in hand is the one that is issued.
    have hh : m.inHand = m.control.flatMap Activity.tickets := by rw [inHand, hm, List.nil_append]
    rw [hh, hs, hl, hi]
    simp [launch, ha, World.nextRun, List.countP_cons]

theorem perform_balances (r : Request K) :
    ∃ τ, Balances ⟨w, control, .request r⟩ (perform client ⟨w, control, .request r⟩ r) τ := by
  cases r with
  | openLoop | shareLoop | inspectLoop | runUntilIdle | openQueue | queuedDelays | newRuntime
  | slice | poll | runAsync | openWorker | workerTurns =>
    exact ⟨.none, .still (by simp [perform]) (by simp [perform])⟩
  | releaseLoop l =>
    exact ⟨.giveUp (.eventLoop l) _, w.release_handsOut l, ⟨rfl, World.release_eq_nil⟩,
      by simp [perform, Nat.add_comm]⟩
  | turn l =>
    simp only [perform]
    split
    · rename_i t turn w' hw
      refine ⟨.start (.eventLoop l) t, ?_, rfl, ?_⟩
      · exact (World.popLoop_handsOut hw).congr (by simp) (by simp)
      · simp [List.countP_cons]
    · rename_i w' hw
      exact ⟨.none, .still (by simpa using World.popLoop_none hw) (by simp)⟩
  | blockOn l config program =>
    have hw : ((w.share l).openCell.2).contents = w.contents := by simp
    refine ⟨.none, launch_balances client _ _ _ _ _ _ _
      ((noteBudget_contents client config _).trans hw) rfl rfl rfl rfl ?_⟩
    simp
  | fire q place =>
    simp only [perform]
    split
    · rename_i t w' hw
      exact ⟨.start (.recording q) t, World.takeQueued_handsOut hw, rfl, by simp [List.countP_cons]⟩
    · exact ⟨.none, .still rfl (by simp)⟩
  | discard q place =>
    simp only [perform]
    split
    · rename_i t w' hw
      exact ⟨.giveUp (.recording q) [t], World.takeQueued_handsOut hw, ⟨rfl, False.elim⟩,
        by simp [List.countP_cons]⟩
    · exact ⟨.none, .still rfl (by simp)⟩
  | discardAll q =>
    exact ⟨.giveUp (.recording q) _, w.clearQueue_handsOut q, ⟨rfl, False.elim⟩,
      by simp [perform, Nat.add_comm]⟩
  | start runtime program c =>
    exact ⟨.none, launch_balances client _ _ _ _ _ _ _ rfl rfl rfl rfl rfl rfl⟩
  | defer host delay t =>
    exact ⟨.none, .still rfl (by simp [perform, List.countP_cons])⟩
  | blockOnWorker i config program =>
    refine ⟨.none, launch_balances client _ _ _ _ _ _ _
      ((noteBudget_contents client config _).trans w.contents_openCell) rfl rfl rfl rfl ?_⟩
    simp
  | awaitWorker i =>
    exact ⟨.none, .still (by simp [perform])
      (by simp [perform, World.openCell, List.countP_cons])⟩
  | stopWorker i =>
    cases hs : (w.worker? i).filter (·.accepts) with
    | some s =>
      have hs' := (Option.filter_eq_some_iff.1 hs).1
      simp only [perform, hs]
      exact ⟨.none, .none (World.setWorker_contents hs' (by rw [s.tasks_shutdown])) (by simp)⟩
    | none =>
      simp only [perform, hs]
      exact ⟨.none, .still rfl (by simp)⟩

theorem returnTo_balances (r : Reply K) (activity : Activity K M) :
    ∃ τ, Balances ⟨w, activity :: control, .answer (.ok r)⟩
      (returnTo client ⟨w, control, .answer (.ok r)⟩ r activity) τ := by
  cases activity with
  | sharing l =>
    exact ⟨.giveUp (.eventLoop l) _, w.release_handsOut l, ⟨rfl, World.release_eq_nil⟩,
      by simp [returnTo, Nat.add_comm]⟩
  | driving =>
    simp only [returnTo]
    split
    · exact ⟨.none, .still (by simp) (by simp)⟩
    · exact ⟨.none, .still rfl (by simp)⟩
  | stopping i wanted =>
    simp only [returnTo]
    split
    · rename_i s hs
      refine ⟨.giveUp (.worker i) s.close.1, World.setWorker_handsOut hs s.tasks_close, ⟨rfl, ?_⟩,
        by simp [Worker.close, Nat.add_comm]⟩
      intro hserves
      exact absurd hserves (World.not_serves_setWorker hs _ (by simp [Worker.close]))
    · exact ⟨.none, .still rfl (by simp)⟩
  | joining i =>
    refine ⟨.none, .still ?_ (by simp [returnTo])⟩
    simp only [returnTo, reply_world]
    split <;> simp
  | code | affirming | replying | noting | pumping | thenPump | reporting | reportingSignal
  | dropping | thenWork | working =>
    exact ⟨.none, .still (by simp [returnTo]) (by simp [returnTo])⟩

theorem unwindTo_balances (p : Payload) (activity : Activity K M) :
    ∃ τ, Balances ⟨w, activity :: control, .answer (.error p)⟩
      (unwindTo ⟨w, control, .answer (.error p)⟩ p activity) τ := by
  cases activity with
  | code role next => exact ⟨.none, .still rfl (by simp [unwindTo])⟩
  | sharing l =>
    exact ⟨.lose (.eventLoop l) _, w.release_handsOut l, ⟨⟨p, rfl⟩, World.release_eq_nil⟩,
      by simp [unwindTo]⟩
  | working i wanted =>
    exact ⟨.lose (.worker i) _, crash_handsOut w i, ⟨⟨p, rfl⟩, fun h => absurd h crash_not_serves⟩,
      by simp [unwindTo]⟩
  | stopping i wanted =>
    exact ⟨.lose (.worker i) _, crash_handsOut w i, ⟨⟨p, rfl⟩, fun h => absurd h crash_not_serves⟩,
      by simp [unwindTo]⟩
  | dropping rest => exact ⟨.none, .still rfl (by simp [unwindTo, Nat.add_comm])⟩
  | affirming | replying | noting | pumping | thenPump | reporting | reportingSignal | driving
  | thenWork | joining => exact ⟨.none, .still rfl (by simp [unwindTo])⟩

/-- The balance of a move: tickets change hands, apart from those that the move issues, uses up or
loses. -/
theorem step_balances {m m' : Machine K M} (h : m.step client = some m') :
    ∃ τ, m.Balances m' τ := by
  induction h using step_induction with
  | finish w control role x => exact finish_balances client role x
  | update => exact ⟨.none, .still (by simp) (by simp)⟩
  | request w control r => exact perform_balances client r
  | returned w control activity r => exact returnTo_balances client r activity
  | panicked w control activity p => exact unwindTo_balances p activity
  | begin w control t => exact begin_balances client t
  | complete w control run v stats => exact complete_balances client run v stats
  | report w control run e => exact report_balances client run e
  | overflow w control host delay t ho => exact overflow_balances t ho
  | handOver w control host delay t ho => exact handOver_balances client t ho
  | drop w control ts => exact drop_balances client ts
  | pump w control l executed => exact pump_balances client l executed
  | work w control i wanted => exact work_balances client i wanted
  | ask | resume | poll => exact ⟨.none, .still rfl (by simp)⟩

end Machine

end LazyEffects
