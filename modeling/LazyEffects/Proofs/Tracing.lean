import LazyEffects.Proofs.Pace
import LazyEffects.Proofs.Recording
import LazyEffects.Proofs.Reports

/-!
# Runs and their traces

A run that has an event loop for itself leaves its trace on record, and nothing else, if its client
puts all events on record and does nothing else there.

* `Machine.step_begins`: a task that is begun comes from the next turn of an event loop;
* `Machine.Written.step`: what is on record of the run, move by move;
* `Machine.Alone.journal`: the trace of the run, from its start on.
-/

namespace LazyEffects

open Deed Errand

variable {K : Codes} {M A : Type}

/-- What is at a host after a transfer was there before, or the host has taken it in. -/
theorem World.Transfers.of_mem {w w' : World K M} {x : Transfer K} {host : Host} {t : Task K}
    (h : w.Transfers w' x) (ht : t ∈ w'.contents host) :
    t ∈ w.contents host ∨ x = .accept host t := by
  have of_handsOut {host' : Host} {ts : List (Task K)} (h : w.HandsOut w' host' ts) :
      t ∈ w.contents host := by
    by_cases hh : host = host'
    · subst hh
      exact h.self.subset (List.mem_append_left _ ht)
    · rwa [h.others host hh] at ht
  cases x with
  | none => exact .inl ((h host).mem_iff.1 ht)
  | accept host' t' =>
    by_cases hh : host = host'
    · subst hh
      exact (List.mem_cons.1 (h.self.subset ht)).symm.imp_right fun he => by rw [he]
    · rw [h.others host hh] at ht
      exact .inl ht
  | start | giveUp | lose => exact .inl (of_handsOut h)

namespace Machine

variable {client : Client K M} {m m' : Machine K M}

/-! ### How a task is begun -/

/-- The task that an event loop gives away is started in the next of its turns. The other loops are
left alone. -/
theorem popLoop_turn {w w' : World K M} {l : LoopId} {t : Task K} {turn : ℕ}
    (h : w.popLoop l = (some (t, turn), w')) : ∃ s, w.loop? l = some s ∧ turn = s.turns + 1 ∧
      w'.memory = w.memory ∧
      ∀ l' ≠ l, w'.contents (.eventLoop l') = w.contents (.eventLoop l') := by
  have hothers := (World.popLoop_handsOut h).others
  cases hs : w.loop? l with
  | none => simp [World.popLoop, hs] at h
  | some s =>
    rw [World.popLoop_of_loop? hs] at h
    split at h <;> cases h
    exact ⟨s, rfl, rfl, rfl, fun l' hl => hothers _ (by simpa using hl)⟩

theorem share_memory (w : World K M) (l : LoopId) : (w.share l).memory = w.memory := by
  rw [World.share]
  split <;> rfl

/-- Where a task comes from that is begun: an event loop starts it in its next turn and the other
loops are left alone, or all of them are. -/
theorem step_begins {t : Task K} (hs : m.step client = some m') (hf : m'.focus = .begin t) :
    (∃ l s, m.world.loop? l = some s ∧
      m'.world.memory = client.observe (.taskStarted (s.turns + 1)) m.world.memory ∧
      ∀ l' ≠ l, m'.world.contents (.eventLoop l') = m.world.contents (.eventLoop l')) ∨
    m'.world.loops = m.world.loops := by
  induction hs using step_induction with
  | finish w control role x => exact .inr (finish_loops ⟨w, control, .script role (.done x)⟩ role x)
  | request w control q =>
    cases q with
    | turn l =>
      simp only [perform] at hf ⊢
      split at hf
      · rename_i t turn w' hw
        obtain ⟨s, hs, rfl, hmemory, hothers⟩ := popLoop_turn hw
        obtain ⟨s₀, owners, hs₀, rfl⟩ := (World.steady_share l w l).loop hs
        refine .inl ⟨l, s₀, hs₀, congrArg _ (hmemory.trans (share_memory w l)), fun l' hl => ?_⟩
        rw [call_world, World.contents_observe, hothers l' hl, World.contents_share]
      · cases hf
    | fire q place =>
      simp only [perform] at hf ⊢
      split at hf
      · rename_i t w' hw
        exact .inr (World.takeQueued_loops hw)
      · cases hf
    | discard | stopWorker =>
      simp only [perform] at hf
      split at hf <;> cases hf
    | _ => cases hf
  | pump w control l executed =>
    simp only [pump] at hf ⊢
    split at hf
    · rename_i t turn w' hw
      obtain ⟨s, hs, rfl, hmemory, hothers⟩ := popLoop_turn hw
      refine .inl ⟨l, s, hs, congrArg _ hmemory, fun l' hl => ?_⟩
      rw [call_world, World.contents_observe, hothers l' hl]
    · split at hf <;> cases hf
  | work w control i wanted => exact .inr (work_loops ⟨w, control, .work i wanted⟩ i wanted)
  | returned w control activity q =>
    cases activity with
    | driving => cases q <;> cases hf
    | stopping i wanted =>
      simp only [returnTo] at hf
      split at hf <;> cases hf
    | _ => cases hf
  | panicked w control activity p => cases activity <;> cases hf
  | begin w control t => cases t <;> cases hf
  | complete =>
    simp only [complete] at hf
    split at hf <;> cases hf
  | report =>
    simp only [report] at hf
    split at hf <;> cases hf
  | handOver w control host =>
    cases host <;> simp only [handOver] at hf <;> (try split at hf) <;> cases hf
  | drop w control ts =>
    cases ts with
    | nil => cases hf
    | cons t ts => cases t <;> cases hf
  | update | ask | resume | poll | overflow => cases hf

/-! ### What is put on record of a run -/

variable {own : M → A} {record : M → List Event} {l : LoopId} {ρ : Run K}
  {program : Program K.signature}

/-- The event at the end of an evaluation. -/
theorem memory_of_done {t t' : Trampoline K.signature} {w : Verdict K.signature}
    (hs : m.step client = some m')
    (hf : m.focus = .script (.slice ⟨ρ, t⟩) (.done (.ofVerdict true w, t'))) :
    m'.world.memory =
      client.observe (.ofVerdict t'.stats.steps t'.stats.suspensions w) m.world.memory := by
  rw [step, hf] at hs
  cases hs
  cases w with
  | ok v => rfl
  | error c => cases c <;> rfl

/-- An event loop takes in a task. -/
theorem memory_of_defer {delay : Duration} {t : Task K} {s : EventLoop K}
    (hs : m.step client = some m') (hf : m.focus = .defer (.eventLoop l) delay t)
    (hloop : m.world.loop? l = some s) (ho : m.world.overflows (.eventLoop l) delay = false) :
    m'.focus = .answer (.ok .done) ∧ m'.world.memory =
      client.observe (.taskDeferred delay (s.queue.size + 1)) m.world.memory := by
  obtain ⟨w, control, focus⟩ := m
  cases hf
  cases (step_of_not_overflows ho).symm.trans hs
  simp only [handOver, hloop]
  exact ⟨rfl, congrArg (fun n => client.observe (.taskDeferred delay n) w.memory)
    (TimerQueue.size_push _ _ _)⟩

theorem unhandled_map {α β : Type} (r : Recipient K) (x : Except RunError α) (f : α → β) :
    r.unhandled (x.map f) = r.unhandled x := by
  obtain ⟨c, _ | h⟩ | c := r <;> cases x <;> rfl

/-- What is told of a report. -/
theorem record_of_reports {x : Except RunError (K.signature.Value × Stats)}
    (hr : client.Records record) (hs : m.step client = some m')
    (hf : m.focus.reports = some (ρ, x)) :
    record m'.world.memory = record m.world.memory ++ ρ.recipient.unhandled x := by
  obtain ⟨w, control, focus⟩ := m
  cases focus with
  | complete run v stats =>
    cases hf
    cases hs
    rw [Recipient.unhandled, List.append_nil]
    · simp only [complete]
      split <;> rfl
    · simp
  | report run e =>
    cases hf
    cases hs
    obtain ⟨id, result, recipient, host, config⟩ := ρ
    rcases recipient with ⟨c, _ | h⟩ | c
    · exact hr.observe _ _
    · exact (List.append_nil _).symm
    · exact (List.append_nil _).symm
  | _ => cases hf

/-! ### A run that has an event loop for itself -/

/-- A move of a session in which the run `ρ` has the event loop `l` for itself, after `k` of its
tasks have been handed over. What is done for others puts nothing on record. -/
structure Solo (client : Client K M) (record : M → List Event) (l : LoopId) (ρ : Run K) (k : ℕ)
    (m m' : Machine K M) : Prop where
  step : m.step client = some m'
  held : m.held (·.isRun ρ.id) ≤ 1
  started : ρ.id.index < m.world.runs
  host : ρ.host = .eventLoop l
  tasks : ∀ t ∈ m.world.contents (.eventLoop l), t.ticket.isRun ρ.id = true
  tally : ∀ s, m.world.loop? l = some s → s.turns + s.queue.size = k
  /-- The loop is there whenever a task is deferred to it. -/
  serves : ∀ delay t, m.focus = .defer (.eventLoop l) delay t → m.world.Serves (.eventLoop l)
  fits : ∀ delay t, m.focus = .defer (.eventLoop l) delay t →
    m.world.overflows (.eventLoop l) delay = false
  /-- No panic destroys a task of the run. -/
  kept : ∀ p, m.focus = .answer (.error p) → m.lost.countP (·.isRun ρ.id) = 0
  silent : m.focus.tickets.countP (·.isRun ρ.id) = 0 →
    (∀ t, m'.focus = .begin t → t.ticket.isRun ρ.id = false) →
    record m'.world.memory = record m.world.memory

/-- A task that is begun is not one of a run of which nothing is being done. -/
theorem isRun_of_begin {t : Task K} {r : RunId} (hm : m.focus.tickets.countP (·.isRun r) = 0)
    (hf : m.focus = .begin t) : t.ticket.isRun r = false := by
  rw [hf] at hm
  simpa using hm

theorem tickets_of_reports {x : Except RunError (K.signature.Value × Stats)}
    (h : m.focus.reports = some (ρ, x)) : m.focus.tickets.countP (·.isRun ρ.id) ≠ 0 := by
  cases hf : m.focus <;> rw [hf] at h <;> cases h <;> simp [Ticket.isRun_run]

theorem tickets_of_held {r : RunId} (h : m.held (·.isRun r) = 0) :
    m.focus.tickets.countP (·.isRun r) = 0 := by
  rw [held, inHand, List.countP_append] at h
  omega

/-- Of a run that waits, nothing is being done. -/
theorem tickets_of_waits {host : Host} {t : Trampoline K.signature}
    (hheld : m.held (·.isRun ρ.id) ≤ 1) (h : .resume ⟨ρ, t⟩ ∈ m.world.contents host) :
    m.focus.tickets.countP (·.isRun ρ.id) = 0 := by
  have hhand := inHand_of_waits hheld h
  rw [inHand, List.countP_append, Nat.add_eq_zero_iff] at hhand
  exact hhand.1

namespace Solo

variable {k : ℕ} {t : Trampoline K.signature}

theorem held_succ (h : Solo client record l ρ k m m') : m'.held (·.isRun ρ.id) ≤ 1 := by
  have hbalance := step_held h.step (·.isRun ρ.id)
  rw [issued_of_started h.started, Nat.add_zero] at hbalance
  exact le_trans (by omega) h.held

/-- A task of the run at the loop is the only one there. -/
theorem contents_eq (h : Solo client record l ρ k m m')
    (ht : .resume ⟨ρ, t⟩ ∈ m.world.contents (.eventLoop l)) :
    m.world.contents (.eventLoop l) = [.resume ⟨ρ, t⟩] := by
  have hle := World.countP_le_waiting m.world (.eventLoop l) fun t => t.ticket.isRun ρ.id
  have hheld := h.held
  rw [List.countP_eq_length.2 h.tasks] at hle
  rw [Machine.held] at hheld
  have hone : (m.world.contents (.eventLoop l)).length = 1 :=
    le_antisymm (by omega) (List.length_pos_of_mem ht)
  obtain ⟨task, htask⟩ := List.length_eq_one_iff.1 hone
  rw [htask, List.mem_singleton] at ht
  rw [htask, ht]

/-- The task that the loop starts next is that of the turn after the tasks before it. -/
theorem record_of_begin (h : Solo client record l ρ (k + 1) m m') (hr : client.Records record)
    (ht : .resume ⟨ρ, t⟩ ∈ m.world.contents (.eventLoop l))
    (hf : m'.focus = .begin (.resume ⟨ρ, t⟩)) :
    record m'.world.memory = record m.world.memory ++ resumption (k + 1) := by
  have hgone : .resume ⟨ρ, t⟩ ∉ m'.world.contents (.eventLoop l) := by
    intro hstays
    have hother := isRun_of_begin (tickets_of_waits h.held_succ hstays) hf
    exact Bool.false_ne_true (hother.symm.trans (Ticket.isRun_run ρ))
  rcases step_begins h.step hf with ⟨l', s, hs, hmemory, hothers⟩ | hloops
  · by_cases hl : l = l'
    · subst hl
      have hsize : s.queue.size = 1 := by
        have hlength := congrArg List.length (h.contents_eq ht)
        rw [World.contents_loop hs] at hlength
        simpa [TimerQueue.tasks, TimerQueue.size] using hlength
      have htally := h.tally s hs
      have hturns : s.turns = k := by omega
      rw [hmemory, hr.observe, hturns]
      rfl
    · rw [hothers l hl] at hgone
      exact absurd ht hgone
  · simp only [World.contents, World.loop?, hloops] at hgone
    exact absurd ht hgone

end Solo

variable (client own record) in
/-- What is on record of a run that has had `k` tasks handed over, behind `before`. `m₀` is the
moment at which its first slice was next, and `fate` tells what has become of it if it is over. -/
inductive Written (ρ : Run K) (program : Program K.signature) (m₀ : Machine K M)
    (before : List Event) (fate : Prop) (m : Machine K M) : ℕ → Prop where
  /-- A task of it waits at its host. -/
  | waits {k : ℕ} {t : Trampoline K.signature} {log : List Event} :
    .resume ⟨ρ, t⟩ ∈ m.world.contents ρ.host →
    (m₀.errand own ρ program).Traced client own (k + 1) t (own m.world.memory) log →
    record m.world.memory = before ++ log → Written ρ program m₀ before fate m (k + 1)
  /-- A slice is about to begin. -/
  | begun {k : ℕ} {t : Trampoline K.signature} {log : List Event} :
    (m.focus = .begin (.resume ⟨ρ, t⟩) ∨ m.focus = .resume ⟨ρ, t⟩) →
    (m₀.errand own ρ program).Traced client own k t (own m.world.memory) log →
    record m.world.memory = before ++ log ++ resumption k → Written ρ program m₀ before fate m k
  /-- A slice is being run. -/
  | slice {k : ℕ} {t : Trampoline K.signature} {x : A} {log : List Event}
    {s : Script K M (Answer K.signature × Trampoline K.signature)} :
    m.focus = .script (.slice ⟨ρ, t⟩) s →
    (m₀.errand own ρ program).Traced client own k t x log →
    (∀ out memory', s.Leads (withRecord own record) m.world.memory out memory' →
      ((m₀.errand own ρ program).recorded before).Slice client (withRecord own record) t
        (x, before ++ log ++ resumption k) out (withRecord own record memory')) →
    Written ρ program m₀ before fate m k
  /-- A slice waits for an answer. -/
  | asks {k : ℕ} {t : Trampoline K.signature} {x : A} {log : List Event}
    {next : Except Payload (Reply K) →
      Script K M (Answer K.signature × Trampoline K.signature)} :
    .code (.slice ⟨ρ, t⟩) next ∈ m.control →
    (m₀.errand own ρ program).Traced client own k t x log →
    (∀ answer memory₁ out memory',
      withRecord own record memory₁ = withRecord own record m.world.memory →
      (next answer).Leads (withRecord own record) memory₁ out memory' →
      ((m₀.errand own ρ program).recorded before).Slice client (withRecord own record) t
        (x, before ++ log ++ resumption k) out (withRecord own record memory')) →
    Written ρ program m₀ before fate m k
  /-- What is left of it is being handed over. -/
  | handed {k : ℕ} {t : Trampoline K.signature} {log : List Event} :
    m.focus = .defer ρ.host ρ.config.resumeDelay (.resume ⟨ρ, t⟩) →
    (m₀.errand own ρ program).Traced client own (k + 1) t (own m.world.memory) log →
    record m.world.memory ++ [.taskDeferred ρ.config.resumeDelay 1] = before ++ log →
    Written ρ program m₀ before fate m k
  /-- What is left of it is being dropped. -/
  | dropped {k : ℕ} {t : Trampoline K.signature} {x : A} {log : List Event} :
    m.focus = .drop [.resume ⟨ρ, t⟩] →
    (m₀.errand own ρ program).Traced client own (k + 1) t x log →
    record m.world.memory = before ++ log → Written ρ program m₀ before fate m (k + 1)
  /-- It is being reported. -/
  | reports {k : ℕ} {x : Except RunError (K.signature.Value × Stats)} {log : List Event} :
    m.focus.reports = some (ρ, x) →
    ρ.Traces (.amidst own) client.functions program (own m₀.world.memory) (x.map Prod.fst)
      (log ++ ρ.recipient.unhandled (x.map Prod.fst)) →
    (∀ v stats, x = .ok (v, stats) →
      ∃ log', log = log' ++ [.runCompleted stats.steps stats.suspensions]) →
    record m.world.memory = before ++ log → Written ρ program m₀ before fate m k
  | gone {k : ℕ} : m.held (·.isRun ρ.id) = 0 → fate → Written ρ program m₀ before fate m k

section

variable {m₀ : Machine K M} {before : List Event} {fate : Prop} {k : ℕ}
  {t : Trampoline K.signature}

theorem Written.mono {fate' : Prop} (h : Written client own record ρ program m₀ before fate m k)
    (hfate : fate → fate') : Written client own record ρ program m₀ before fate' m k := by
  cases h with
  | waits hw ht hlog => exact .waits hw ht hlog
  | begun hf ht hlog => exact .begun hf ht hlog
  | slice hf ht hl => exact .slice hf ht hl
  | asks hf ht hl => exact .asks hf ht hl
  | handed hf ht hlog => exact .handed hf ht hlog
  | dropped hf ht hlog => exact .dropped hf ht hlog
  | reports hf ht he hlog => exact .reports hf ht he hlog
  | gone hl h => exact .gone hl (hfate h)

variable {fate' : Prop} (hspares : m.SparesBut own ρ.id) (hclient : client.Spares own)
  (hr : client.Records record)

include hspares hclient

/-- What is done for others leaves alone what the functions of the run work on and what is on
record. -/
theorem Solo.withRecord_eq (h : Solo client record l ρ k m m')
    (hm : m.focus.tickets.countP (·.isRun ρ.id) = 0)
    (hf : ∀ t, m'.focus = .begin t → t.ticket.isRun ρ.id = false) :
    withRecord own record m'.world.memory = withRecord own record m.world.memory := by
  have hown : own m'.world.memory = own m.world.memory := by
    refine own_step h.step (fun role f next hf' => hspares role f next hf' ?_) hclient
    rwa [hf'] at hm
  rw [withRecord, withRecord, hown, h.silent hm hf]

include hr

/-- A run that waits goes on waiting, or its next slice begins, or its task is dropped. -/
theorem written_of_waits {log : List Event} (h : Solo client record l ρ (k + 1) m m')
    (hw : .resume ⟨ρ, t⟩ ∈ m.world.contents ρ.host)
    (ht : (m₀.errand own ρ program).Traced client own (k + 1) t (own m.world.memory) log)
    (hlog : record m.world.memory = before ++ log) :
    Written client own record ρ program m₀ before fate m' (k + 1) := by
  have htickets := tickets_of_waits h.held hw
  have hown : own m'.world.memory = own m.world.memory := by
    refine own_step h.step (fun role f next hf => hspares role f next hf ?_) hclient
    rwa [hf] at htickets
  rw [← hown] at ht
  have hwaits := hw
  rw [h.host] at hwaits
  obtain ⟨x, hx⟩ := step_balances client h.step
  rcases hx.contents.mem hw with hstays | rfl | ⟨ts, hts, rfl | rfl⟩
  · have hquiet := h.silent htickets fun t' => isRun_of_begin (tickets_of_waits h.held_succ hstays)
    exact .waits hstays ht (hquiet.trans hlog)
  · have hbegin := h.record_of_begin hr hwaits hx.occasion
    exact .begun (.inl hx.occasion) ht (by rw [hbegin, hlog])
  · -- All that the loop gives up is this task.
    have hdrop : m'.focus = .drop ts := hx.occasion.1
    have hall : (m'.world.contents ρ.host ++ ts).Perm [.resume ⟨ρ, t⟩] := by
      have hperm := hx.contents.self
      rwa [h.host, h.contents_eq hwaits, ← h.host] at hperm
    have hts : ts = [.resume ⟨ρ, t⟩] := by
      rcases List.append_eq_singleton_iff.1 (List.perm_singleton.1 hall) with ⟨-, h⟩ | ⟨-, rfl⟩
      · exact h
      · cases hts
    have hquiet := h.silent htickets fun t' hf => by
      rw [hdrop] at hf
      cases hf
    exact .dropped (hts ▸ hdrop) ht (hquiet.trans hlog)
  · obtain ⟨⟨p, hf⟩, -⟩ := hx.occasion
    have hle := lost_of_lose h.step hx hf (·.isRun ρ.id)
    have hpos := tickets_pos_of_mem hts
    rw [h.kept p hf] at hle
    omega

omit hspares hclient in
/-- What is handed over waits at the loop. -/
theorem written_of_handed {log : List Event} (h : Solo client record l ρ k m m')
    (hf : m.focus = .defer ρ.host ρ.config.resumeDelay (.resume ⟨ρ, t⟩))
    (ht : (m₀.errand own ρ program).Traced client own (k + 1) t (own m'.world.memory) log)
    (hlog : record m.world.memory ++ [.taskDeferred ρ.config.resumeDelay 1] = before ++ log) :
    Written client own record ρ program m₀ before fate m' (k + 1) := by
  have hf' := hf
  rw [h.host] at hf'
  obtain ⟨s, hs⟩ := h.serves _ _ hf'
  -- Its task is in hand, and so the loop holds nothing.
  have hempty : s.queue.size = 0 := by
    have hheld := h.held
    have hle := World.countP_le_waiting m.world (.eventLoop l) fun t => t.ticket.isRun ρ.id
    rw [List.countP_eq_length.2 h.tasks, World.contents_loop hs, TimerQueue.tasks, List.length_map,
      Array.length_toList] at hle
    rw [Machine.held, inHand, List.countP_append, hf, Focus.tickets, List.countP_singleton,
      Task.ticket, Ticket.isRun_run] at hheld
    simp only [if_true] at hheld
    rw [TimerQueue.size]
    omega
  obtain ⟨hanswer, hmemory⟩ := memory_of_defer h.step hf' hs (h.fits _ _ hf')
  rw [hempty] at hmemory
  rcases (step_defer_cases h.step hf).1 with hw | hdrop | ⟨hpanic, -⟩
  · exact .waits hw ht (by rw [hmemory, hr.observe, hlog])
  · rw [hanswer] at hdrop
    cases hdrop
  · rw [hanswer] at hpanic
    cases hpanic

omit hr in
/-- A slice goes on waiting for its answer, or it is given one. -/
theorem written_of_asks {x : A} {log : List Event} (h : Solo client record l ρ k m m')
    {next : Except Payload (Reply K) → Script K M (Answer K.signature × Trampoline K.signature)}
    (hf : .code (.slice ⟨ρ, t⟩) next ∈ m.control)
    (ht : (m₀.errand own ρ program).Traced client own k t x log)
    (hl : ∀ answer memory₁ out memory',
      withRecord own record memory₁ = withRecord own record m.world.memory →
      (next answer).Leads (withRecord own record) memory₁ out memory' →
      ((m₀.errand own ρ program).recorded before).Slice client (withRecord own record) t
        (x, before ++ log ++ resumption k) out (withRecord own record memory')) :
    Written client own record ρ program m₀ before fate m' k := by
  have htickets := tickets_of_asks h.held hf
  -- Nothing of the run is begun while it has a slice that waits.
  have hstays (hmem : .code (.slice ⟨ρ, t⟩) next ∈ m'.control) :
      Written client own record ρ program m₀ before fate m' k := by
    have hsame := h.withRecord_eq hspares hclient htickets fun t' =>
      isRun_of_begin (tickets_of_asks h.held_succ hmem)
    exact .asks hmem ht fun answer memory₁ out memory' ho =>
      hl answer memory₁ out memory' (ho.trans hsame)
  rcases step_suffix h.step with hsuffix | ⟨activity, control, a, hcontrol, hfocus, hsuffix⟩
  · exact hstays (hsuffix.subset hf)
  · rw [hcontrol, List.mem_cons] at hf
    rcases hf with rfl | hf
    · have hslice : m'.focus = .script (.slice ⟨ρ, t⟩) (next a) := by
        have hs := h.step
        rw [Machine.step, hfocus, hcontrol] at hs
        cases a <;> cases hs <;> rfl
      have hsame := h.withRecord_eq hspares hclient htickets fun t' hbegin => by
        rw [hslice] at hbegin
        cases hbegin
      exact .slice hslice ht fun out memory' => hl a _ out memory' hsame
    · exact hstays (hsuffix.subset hf)

omit hspares in
/-- A slice that is over leaves something to be handed over, or the run is reported. -/
theorem written_of_done (hb : 0 < ρ.config.stepBudget) (hcatch : ρ.config.catchPanics = true)
    (hresult : ρ.result = program.result) (hs : m.step client = some m') {a : Answer K.signature}
    {t' : Trampoline K.signature} {x : A} {log : List Event}
    (hf : m.focus = .script (.slice ⟨ρ, t⟩) (.done (a, t')))
    (ht : (m₀.errand own ρ program).Traced client own k t x log)
    (hslice : ((m₀.errand own ρ program).recorded before).Slice client (withRecord own record) t
      (x, before ++ log ++ resumption k) (a, t') (withRecord own record m.world.memory)) :
    Written client own record ρ program m₀ before fate m' k := by
  rcases ht.slice hr hclient hb hslice with
    ⟨w, deeds, ha, he, hstats, hk, hlog⟩ | ⟨rfl, log', ht', hlog⟩
  · obtain rfl : a = .ofVerdict true w := by rw [ha, errand, hcatch]
    have houtcome := outcome_of_verdict ⟨⟨t, hf⟩, Answer.ofVerdict_ne_suspended _ w⟩ hresult
    have hmemory := memory_of_done hs hf
    have hsteps : t'.stats.steps = (visits deeds).length := by
      rw [hstats, Stats.pausing_steps, length_visits]
      exact Nat.zero_add _
    have hsuspensions : t'.stats.suspensions = ρ.config.suspensions (visits deeds).length := by
      rw [hstats, Stats.pausing_suspensions, hk]
      exact Nat.zero_add _
    rw [hsteps, hsuspensions] at hmemory
    have hrecord : record m'.world.memory = before ++
        (.runStarted program.root.kind :: ρ.config.trace (visits deeds) ++
          [.ofVerdict (visits deeds).length (ρ.config.suspensions (visits deeds).length) w]) := by
      have hlog : record m.world.memory =
        before ++ .runStarted program.root.kind :: ρ.config.trace (visits deeds) := hlog
      rw [hmemory, hr.observe, hlog, List.append_assoc]
    have htraces : ρ.Traces _ _ program (own m₀.world.memory) _ _ := .ended he
    refine .reports ((step_reports hs).trans houtcome) ?_ (fun v stats hx => ?_) hrecord
    · rw [← List.append_cons]
      cases hw : program.settle w <;> rw [hw] at htraces <;> exact htraces
    · -- Only an evaluation that ends with a value is completed.
      cases w with
      | ok v' =>
        have hstats : stats = t'.stats := by
          cases hset : program.settle (.ok v') <;> rw [hset] at hx <;> cases hx
          rfl
        rw [hstats, hsteps, hsuspensions]
        exact ⟨_, rfl⟩
      | error c => cases c <;> cases hx
  · rw [step, hf] at hs
    cases hs
    exact .handed rfl ht' hlog

omit hspares hclient hr in
/-- The trace of a run that is dropped between two slices. -/
theorem traces_of_traced {x : A} {log : List Event}
    (ht : (m₀.errand own ρ program).Traced client own (k + 1) t x log) :
    ρ.Traces (.amidst own) client.functions program (own m₀.world.memory) (.error .abandoned)
      (log ++ [.runDropped] ++ ρ.recipient.unhandled (.error .abandoned : RunResult K)) := by
  obtain ⟨e, deeds, -, hdeeds, -, htravels, rfl⟩ := ht
  have hlength : (visits deeds).length = (k + 1) * ρ.config.stepBudget :=
    (length_visits deeds).trans hdeeds
  have htraces : ρ.Traces _ _ program (own m₀.world.memory) _ _ :=
    .dropped htravels (Nat.succ_pos k) hlength
  rw [hlength, ← t.stack.height_eq, List.append_cons] at htraces
  exact htraces

/-- What is on record of a run, move by move. -/
theorem Written.step (hb : 0 < ρ.config.stepBudget) (hcatch : ρ.config.catchPanics = true)
    (hresult : ρ.result = program.result)
    (h : Written client own record ρ program m₀ before fate m k)
    (hsolo : Solo client record l ρ k m m') :
    Written client own record ρ program m₀ before (fate ∨ ∃ x, m.focus.reports = some (ρ, x)) m'
      (k + (m.focus.hands ρ.id).toNat) := by
  have hs := hsolo.step
  have hbalance := step_held hs (·.isRun ρ.id)
  rw [issued_of_started hsolo.started, Nat.add_zero] at hbalance
  cases h with
  | @waits k t log hw ht hlog =>
    rw [hands_of_focus (tickets_of_waits hsolo.held hw)]
    exact written_of_waits hspares hclient hr hsolo hw ht hlog
  | @begun k t log hf ht hlog =>
    obtain ⟨w, control, focus⟩ := m
    rcases hf with rfl | rfl
    · cases hs
      exact .begun (.inr rfl) ht hlog
    · cases hs
      refine .slice (s := (m₀.errand own ρ program).slice client t) rfl ht fun out memory' hl => ?_
      exact ⟨w.memory, memory', congrArg (Prod.mk _) hlog, rfl, hl⟩
  | @slice k t x log s hf ht hl =>
    have hhands : m.focus.hands ρ.id = false := by
      rw [hf]
      rfl
    rw [hhands]
    cases s with
    | done out => exact written_of_done hclient hr hb hcatch hresult hs hf ht (hl out _ .done)
    | update f next =>
      rw [Machine.step, hf] at hs
      cases hs
      exact .slice rfl ht fun out memory' h => hl out memory' (.update h)
    | ask r next =>
      rw [Machine.step, hf] at hs
      cases hs
      exact .asks List.mem_cons_self ht
        fun answer memory₁ out memory' ho h => hl out memory' (.ask ho h)
  | @asks k t x log next hf ht hl =>
    rw [hands_of_focus (tickets_of_asks hsolo.held hf)]
    exact written_of_asks hspares hclient hsolo hf ht hl
  | @handed k t log hf ht hlog =>
    have hhands : m.focus.hands ρ.id = true := by
      rw [hf, Focus.hands]
      exact Ticket.isRun_run ρ
    rw [hhands]
    rw [← hclient.keeps (step_defer_cases hs hf).2] at ht
    exact written_of_handed hr hsolo hf ht hlog
  | @dropped k t x log hf ht hlog =>
    rw [Machine.step, hf] at hs
    cases hs
    have hrecord : record (client.observe .runDropped m.world.memory) =
        before ++ (log ++ [.runDropped]) := by
      rw [hr.observe, hlog, List.append_assoc]
    refine .reports (x := .error .abandoned) rfl (traces_of_traced ht) (fun v stats hx => ?_)
      hrecord
    cases hx
  | @reports k x log hf ht he hlog =>
    have hlength := reportsOf_length m ρ.id
    rw [reportsOf_eq_some.2 ⟨ρ, hf, rfl⟩] at hlength
    simp only [Option.toList_some, List.length_singleton] at hlength
    have hheld := hsolo.held
    exact .gone (by omega) (.inr ⟨x, hf⟩)
  | gone hl hfate => exact .gone (by omega) (.inl hfate)

end

/-! ### From the start of the run on -/

/-- In some session the first slice of a run of `program` is next. It has the event loop `l` for
itself, which is fresh, and what is done for others puts nothing on record. -/
structure Alone (client : Client K M) (own : M → A) (record : M → List Event) (l : LoopId)
    (ρ : Run K) (program : Program K.signature) (m : Machine K M) : Prop where
  apart : Apart client own ρ program m
  records : client.Records record
  host : ρ.host = .eventLoop l
  fresh : ∃ s, m.world.loop? l = some s ∧ s.queue.size = 0 ∧ s.turns = 0
  catching : ρ.config.catchPanics = true
  /-- The loop is there whenever a task is deferred to it, and that is one of the run. -/
  deferred {n : ℕ} {delay : Duration} {t : Task K} :
    (m.run client n).focus = .defer (.eventLoop l) delay t →
      t.ticket.isRun ρ.id = true ∧ (m.run client n).world.Serves (.eventLoop l)
  /-- Its due time can be told. -/
  fits {n : ℕ} {delay : Duration} {t : Task K} :
    (m.run client n).focus = .defer (.eventLoop l) delay t →
      (m.run client n).world.overflows (.eventLoop l) delay = false
  /-- No panic destroys a task of the run. -/
  kept {n : ℕ} {p : Payload} : (m.run client n).focus = .answer (.error p) →
    (m.run client n).lost.countP (·.isRun ρ.id) = 0
  silent {n : ℕ} : (m.run client n).focus.tickets.countP (·.isRun ρ.id) = 0 →
    (∀ t, (m.run client (n + 1)).focus = .begin t → t.ticket.isRun ρ.id = false) →
    record (m.run client (n + 1)).world.memory = record (m.run client n).world.memory

namespace Alone

variable {n n' : ℕ} {before : List Event} {x : Except RunError (K.signature.Value × Stats)}

/-- The loop holds nothing but tasks of the run. -/
theorem tasks (h : Alone client own record l ρ program m) (n : ℕ) :
    ∀ t ∈ (m.run client n).world.contents (.eventLoop l), t.ticket.isRun ρ.id = true := by
  induction n with
  | zero =>
    obtain ⟨s, hs, hsize, -⟩ := h.fresh
    have hempty : m.world.contents (.eventLoop l) = [] := by
      rw [World.contents_loop hs, ← List.length_eq_zero_iff, TimerQueue.tasks, List.length_map,
        Array.length_toList]
      exact hsize
    rw [run, hempty]
    exact List.forall_mem_nil _
  | succ n ih =>
    intro t ht
    cases hs : (m.run client n).step client with
    | none =>
      rw [run_succ, hs, Option.getD_none] at ht
      exact ih t ht
    | some m' =>
      rw [run_succ_of_step hs] at ht
      obtain ⟨x, hx⟩ := step_balances client hs
      rcases hx.contents.of_mem ht with ht | rfl
      · exact ih t ht
      · obtain ⟨delay, hf, -⟩ := hx.occasion
        exact (h.deferred hf).1

/-- The tasks that the loop has started and those that it holds are the tasks handed over. -/
theorem tally (h : Alone client own record l ρ program m) {s : EventLoop K}
    (hs : (m.run client n).world.loop? l = some s) :
    s.turns + s.queue.size = handed client m ρ.id n := by
  obtain ⟨s₀, hs₀, hsize, hturns⟩ := h.fresh
  have hin : l.index < m.world.loops.size :=
    (Array.getElem?_eq_some_iff.1 (World.loop?_eq_some hs₀).1).1
  have htally : (m.run client n).world.tally l = some (s.turns + s.queue.size) := by
    rw [World.tally, hs]
    rfl
  obtain ⟨v, hv, hsum⟩ := (run_tally client l m n).tally hin htally
  rw [World.tally, hs₀] at hv
  obtain rfl : s₀.turns + s₀.queue.size = v := Option.some.inj hv
  rw [hsum, hsize, hturns, h.apart.deferrals_eq h.host (fun j delay t hf => (h.deferred hf).1)
    fun j delay t hf => h.fits hf]
  omega

theorem solo (h : Alone client own record l ρ program m)
    (hs : (m.run client n).step client = some m') :
    Solo client record l ρ (handed client m ρ.id n) (m.run client n) m' where
  step := hs
  held := h.apart.held_le_one n
  started := h.apart.started n
  host := h.host
  tasks := h.tasks n
  tally _ := h.tally
  serves _ _ hf := (h.deferred hf).2
  fits _ _ hf := h.fits hf
  kept _ := h.kept
  silent := by
    rw [← run_succ_of_step hs]
    exact h.silent

/-- What is on record of the run, in its session. -/
theorem written (h : Alone client own record l ρ program m) (hb : 0 < ρ.config.stepBudget)
    (hstart : record m.world.memory = before ++ [.runStarted program.root.kind]) (n : ℕ) :
    Written client own record ρ program m before
      (∃ j < n, ∃ x, (m.run client j).focus.reports = some (ρ, x)) (m.run client n)
      (handed client m ρ.id n) := by
  induction n with
  | zero => exact .begun (.inr h.apart.focus) traced_start (hstart.trans (List.append_nil _).symm)
  | succ n ih =>
    rw [handed_succ]
    cases hs : (m.run client n).step client with
    | none =>
      obtain ⟨-, a, hf⟩ := step_eq_none hs
      rw [run_succ, hs, Option.getD_none, hf]
      exact ih.mono fun ⟨j, hj, hx⟩ => ⟨j, hj.trans (Nat.lt_succ_self n), hx⟩
    | some m' =>
      have hstep := ih.step (h.apart.spares n) h.apart.events h.records hb h.catching
        h.apart.result (h.solo hs)
      rw [← run_succ_of_step hs] at hstep
      refine hstep.mono fun hfate => ?_
      rcases hfate with ⟨j, hj, hx⟩ | hx
      · exact ⟨j, hj.trans (Nat.lt_succ_self n), hx⟩
      · exact ⟨n, Nat.lt_succ_self n, hx⟩

/-- What is on record when the run is reported. -/
theorem record_of_focus (h : Alone client own record l ρ program m) (hb : 0 < ρ.config.stepBudget)
    (hstart : record m.world.memory = before ++ [.runStarted program.root.kind])
    (hx : (m.run client n).focus.reports = some (ρ, x)) : ∃ log,
      ρ.Traces (.amidst own) client.functions program (own m.world.memory) (x.map Prod.fst)
        (log ++ ρ.recipient.unhandled (x.map Prod.fst)) ∧
      (∀ v stats, x = .ok (v, stats) →
        ∃ log', log = log' ++ [.runCompleted stats.steps stats.suspensions]) ∧
      record (m.run client n).world.memory = before ++ log := by
  have htickets := tickets_of_reports hx
  have hwritten := h.written hb hstart n
  generalize handed client m ρ.id n = k at hwritten
  cases hwritten with
  | waits hw => exact absurd (tickets_of_waits (h.apart.held_le_one n) hw) htickets
  | begun hf => rcases hf with hf | hf <;> rw [hf] at hx <;> cases hx
  | slice hf | handed hf | dropped hf =>
    rw [hf] at hx
    cases hx
  | asks hf => exact absurd (tickets_of_asks (h.apart.held_le_one n) hf) htickets
  | reports hf ht he hlog =>
    rw [hx] at hf
    cases hf
    exact ⟨_, ht, he, hlog⟩
  | gone hl => exact absurd (tickets_of_held hl) htickets

/-- When those whose activities do not hold the run are answered and the loop is idle, the run has
been reported. -/
theorem reports_of_idle (h : Alone client own record l ρ program m) (hb : 0 < ρ.config.stepBudget)
    (hstart : record m.world.memory = before ++ [.runStarted program.root.kind])
    (hc : (m.run client n).control <:+ m.control) {a : Except Payload (Reply K)}
    (hf : (m.run client n).focus = .answer a)
    (hempty : (m.run client n).world.contents (.eventLoop l) = []) :
    ∃ j < n, ∃ x, (m.run client j).focus.reports = some (ρ, x) := by
  have hwritten := h.written hb hstart n
  generalize handed client m ρ.id n = k at hwritten
  cases hwritten with
  | waits hw =>
    rw [h.host, hempty] at hw
    cases hw
  | begun hf' => rcases hf' with hf' | hf' <;> rw [hf] at hf' <;> cases hf'
  | slice hf' | handed hf' | dropped hf' | reports hf' =>
    rw [hf] at hf'
    cases hf'
  | asks hmem => exact absurd h.apart.tickets_control (tickets_pos_of_asks (hc.subset hmem)).ne'
  | gone _ hfate => exact hfate

/-- A run that is dropped is reported next. -/
theorem reports_of_drop (h : Alone client own record l ρ program m) (hb : 0 < ρ.config.stepBudget)
    (hstart : record m.world.memory = before ++ [.runStarted program.root.kind])
    {ts : List (Task K)} (hf : (m.run client n).focus = .drop ts)
    (hts : (ts.map Task.ticket).countP (·.isRun ρ.id) ≠ 0) :
    (m.run client (n + 1)).focus.reports = some (ρ, .error .abandoned) := by
  have htickets : (m.run client n).focus.tickets.countP (·.isRun ρ.id) ≠ 0 := by rwa [hf]
  have hwritten := h.written hb hstart n
  generalize handed client m ρ.id n = k at hwritten
  cases hwritten with
  | waits hw => exact absurd (tickets_of_waits (h.apart.held_le_one n) hw) htickets
  | begun hf' => rcases hf' with hf' | hf' <;> rw [hf] at hf' <;> cases hf'
  | slice hf' | handed hf' | reports hf' =>
    rw [hf] at hf'
    cases hf'
  | asks hmem => exact absurd (tickets_of_asks (h.apart.held_le_one n) hmem) htickets
  | dropped hf' => exact (run_reports m n).trans (outcome_of_drop hf')
  | gone hl => exact absurd (tickets_of_held hl) htickets

/-- Nothing is put on record after the run is over. -/
theorem record_of_held (h : Alone client own record l ρ program m)
    (hl : (m.run client n).held (·.isRun ρ.id) = 0) (hn : n ≤ n') :
    (m.run client n').held (·.isRun ρ.id) = 0 ∧
      record (m.run client n').world.memory = record (m.run client n).world.memory := by
  induction n', hn using Nat.le_induction with
  | base => exact ⟨hl, rfl⟩
  | succ n' _ ih =>
    obtain ⟨hheld, hrecord⟩ := ih
    have hsucc : (m.run client (n' + 1)).held (·.isRun ρ.id) = 0 := by
      have hbalance := run_held client (m.run client n') (·.isRun ρ.id) 1
      rw [Finset.sum_range_one, Finset.sum_range_one, run,
        issued_of_started (h.apart.started n'), hheld, ← run_add] at hbalance
      omega
    have hsilent := h.silent (tickets_of_held hheld) fun t => isRun_of_begin (tickets_of_held hsucc)
    exact ⟨hsucc, hsilent.trans hrecord⟩

/-- The trace of a run that is reported is on record, and nothing is put behind it. -/
theorem traces_of_reports (h : Alone client own record l ρ program m)
    (hb : 0 < ρ.config.stepBudget)
    (hstart : record m.world.memory = before ++ [.runStarted program.root.kind])
    (hx : (m.run client n).focus.reports = some (ρ, x)) : ∃ log,
      ρ.Traces (.amidst own) client.functions program (own m.world.memory) (x.map Prod.fst) log ∧
      Event.Counted log ∧ log.countP Event.isEnd = 1 ∧
      ∀ n' > n, record (m.run client n').world.memory = before ++ log := by
  obtain ⟨log, htraces, -, hlog⟩ := h.record_of_focus hb hstart hx
  obtain ⟨m', hs⟩ := exists_step client (m := m.run client n) fun a hf => by
    rw [hf] at hx
    cases hx
  have hnext := record_of_reports h.records hs hx
  rw [← run_succ_of_step hs, hlog, List.append_assoc, ← unhandled_map _ x Prod.fst] at hnext
  have hover : (m.run client (n + 1)).held (·.isRun ρ.id) = 0 :=
    (h.apart.session.held_of_mem (mem_reported.2
      ⟨n, Nat.lt_succ_self n, reportsOf_eq_some.2 ⟨ρ, hx, rfl⟩⟩)).1
  exact ⟨_, htraces, htraces.counted hb, htraces.ends hb,
    fun n' hn => (h.record_of_held hover hn).2.trans hnext⟩

/-- What is on record when a completion callback is about to be called. -/
theorem record_of_complete (h : Alone client own record l ρ program m)
    (hb : 0 < ρ.config.stepBudget)
    (hstart : record m.world.memory = before ++ [.runStarted program.root.kind])
    {v : K.signature.Value} {stats : Stats} (hf : (m.run client n).focus = .complete ρ v stats) :
    ∃ log, record (m.run client n).world.memory =
        before ++ log ++ [.runCompleted stats.steps stats.suspensions] ∧
      stats.steps = log.countP Event.isVisit ∧
        stats.suspensions = log.countP Event.isSuspension := by
  have hx : (m.run client n).focus.reports = some (ρ, .ok (v, stats)) := by
    rw [hf]
    rfl
  obtain ⟨_, htraces, hlast, hlog⟩ := h.record_of_focus hb hstart hx
  obtain ⟨log, rfl⟩ := hlast v stats rfl
  rw [← List.append_cons] at htraces
  obtain ⟨hsteps, hsuspensions⟩ := htraces.counted hb _ _ _ rfl
  exact ⟨log, hlog.trans (List.append_assoc _ _ _).symm, hsteps, hsuspensions⟩

end Alone

end Machine

/-- The budget that a request names for the run that it starts. -/
def Request.budget : Request K → ℕ
  | start runtime _ _ => runtime.config.stepBudget
  | blockOn _ config _ | blockOnWorker _ config _ => config.stepBudget
  | _ => 0

namespace Machine

variable {client : Client K M} {m : Machine K M} {own : M → A} {record : M → List Event}
  {l : LoopId} {ρ : Run K} {program : Program K.signature} {r : Request K} {n : ℕ}

variable (client) in
/-- What is reported at the start of a run. -/
theorem memory_of_program (hf : m.focus = .request r) (hp : r.program = some program)
    (hb : 0 < r.budget) :
    (m.run client 1).world.memory = client.observe (.runStarted program.root.kind) m.world.memory ∧
      m.control <:+ (m.run client 1).control ∧
      ∀ f, (m.run client 1).focus = .resume f → 0 < f.run.config.stepBudget := by
  have hprogress (config : Config) : 0 < config.progressing.stepBudget :=
    lt_max_of_lt_right Nat.one_pos
  obtain ⟨w, control, focus⟩ := m
  cases hf
  cases r with
  | start runtime program c =>
    cases hp
    refine ⟨rfl, List.suffix_refl _, fun f hf => ?_⟩
    cases hf
    exact hb
  | blockOn l config program =>
    cases hp
    have hnote : noteBudget client config (w.share l).openCell.2 = (w.share l).openCell.2 :=
      if_neg hb.ne'
    have hmemory : (w.share l).openCell.2.memory = w.memory := share_memory w l
    refine ⟨?_, List.suffix_append _ _, fun f hf => ?_⟩
    · rw [← hmemory, ← hnote]
      rfl
    · cases hf
      exact hprogress config
  | blockOnWorker i config program =>
    cases hp
    have hnote : noteBudget client config w.openCell.2 = w.openCell.2 := if_neg hb.ne'
    refine ⟨?_, List.suffix_append _ _, fun f hf => ?_⟩
    · change _ = client.observe _ w.openCell.2.memory
      rw [← hnote]
      rfl
    · cases hf
      exact hprogress config
  | _ => cases hp

/-- What the record tells of a run, from the request on that starts it. -/
structure Journal (client : Client K M) (own : M → A) (record : M → List Event) (l : LoopId)
    (ρ : Run K) (program : Program K.signature) (m : Machine K M) : Prop where
  /-- Once the run has been reported, its trace is on record, and nothing is put behind it. The
  counters in the trace are the numbers of the events before them, and it has one end. -/
  reported {n : ℕ} {x : Except RunError (K.signature.Value × Stats)} :
    (m.run client n).focus.reports = some (ρ, x) → ∃ log,
      ρ.Traces (.amidst own) client.functions program (own m.world.memory) (x.map Prod.fst) log ∧
      Event.Counted log ∧ log.countP Event.isEnd = 1 ∧
      ∀ n' > n, record (m.run client n').world.memory = record m.world.memory ++ log
  /-- When the one who has started the run is answered and the loop is idle, the run has been
  reported. -/
  idle {n : ℕ} {a : Except Payload (Reply K)} : (m.run client n).control = m.control →
    (m.run client n).focus = .answer a → (m.run client n).world.contents (.eventLoop l) = [] →
    ∃ j < n, ∃ x, (m.run client j).focus.reports = some (ρ, x)
  /-- A run that is dropped is reported next. -/
  drops {n : ℕ} {ts : List (Task K)} : (m.run client n).focus = .drop ts →
    (ts.map Task.ticket).countP (·.isRun ρ.id) ≠ 0 →
    (m.run client (n + 1)).focus.reports = some (ρ, .error .abandoned)
  /-- The last event before a completion callback has the counters that the callback is given. -/
  completes {n : ℕ} {v : K.signature.Value} {stats : Stats} :
    (m.run client n).focus = .complete ρ v stats → ∃ log,
      record (m.run client n).world.memory =
        record m.world.memory ++ log ++ [.runCompleted stats.steps stats.suspensions] ∧
      stats.steps = log.countP Event.isVisit ∧ stats.suspensions = log.countP Event.isSuspension ∧
      ∀ c e, ρ.recipient = .callbacks c e →
        (m.run client (n + 1)).focus = .script .body (client.completion c v stats)

/-- A run that has an event loop for itself leaves its trace on record. -/
theorem Alone.journal (hf : m.focus = .request r) (hp : r.program = some program)
    (hb : 0 < r.budget) (h : Alone client own record l ρ program (m.run client 1)) :
    Journal client own record l ρ program m := by
  obtain ⟨hmemory, hcontrol, hbudget⟩ := memory_of_program client hf hp hb
  have hpos : 0 < ρ.config.stepBudget := hbudget _ h.apart.focus
  have hown : own (m.run client 1).world.memory = own m.world.memory := by
    rw [hmemory, h.apart.events]
  have hstart : record (m.run client 1).world.memory =
      record m.world.memory ++ [.runStarted program.root.kind] := by
    rw [hmemory, h.records.observe]
  have hrun (n : ℕ) : m.run client (n + 1) = (m.run client 1).run client n := by
    rw [Nat.add_comm, run_add]
  -- Before the first move the request has not been taken up.
  constructor
  · intro n x hx
    cases n with
    | zero =>
      rw [run, hf] at hx
      cases hx
    | succ n =>
      rw [hrun] at hx
      obtain ⟨log, htraces, hcounted, hends, hlog⟩ := h.traces_of_reports hpos hstart hx
      rw [hown] at htraces
      refine ⟨log, htraces, hcounted, hends, fun n' hn => ?_⟩
      obtain ⟨i, rfl⟩ := Nat.exists_eq_add_of_le' (Nat.succ_le_of_lt ((Nat.succ_pos n).trans hn))
      rw [hrun]
      exact hlog i (Nat.lt_of_succ_lt_succ hn)
  · intro n a hc ha hempty
    cases n with
    | zero =>
      rw [run, hf] at ha
      cases ha
    | succ n =>
      rw [hrun] at hc ha hempty
      obtain ⟨j, hj, x, hx⟩ := h.reports_of_idle hpos hstart (hc ▸ hcontrol) ha hempty
      exact ⟨j + 1, Nat.succ_lt_succ hj, x, by rwa [hrun]⟩
  · intro n ts hdrop hts
    cases n with
    | zero =>
      rw [run, hf] at hdrop
      cases hdrop
    | succ n =>
      rw [hrun] at hdrop ⊢
      exact h.reports_of_drop hpos hstart hdrop hts
  · intro n v stats hcomplete
    cases n with
    | zero =>
      rw [run, hf] at hcomplete
      cases hcomplete
    | succ n =>
      rw [hrun] at hcomplete
      obtain ⟨log, hlog, hsteps, hsuspensions⟩ := h.record_of_complete hpos hstart hcomplete
      rw [hrun n, hrun (n + 1)]
      exact ⟨log, hlog, hsteps, hsuspensions, (h.apart.completes hcomplete).2⟩

end Machine

/-! ### The trace of a short run -/

/-- Codes for steps that are counted. -/
def Logged : Codes where
  signature :=
    { Ty := Unit, typeName := fun _ => "unit", Value := Unit, typeOf := fun _ => (), Thunk := Unit,
      Transform := Unit, Continuation := Empty }
  Task := Unit
  Completion := Unit
  Handler := Empty

namespace Logged

open Machine

/-- The number of calls, and the events. -/
abbrev Memory := ℕ × List Event

/-- A function that counts. -/
def counting : Script Logged Memory (Outcome Logged.signature Unit) :=
  .update (fun memory => (memory.1 + 1, memory.2)) fun _ => .done (.returned ())

def client : Client Logged Memory where
  thunk _ := counting
  transform _ _ := counting
  continuation k _ := k.elim
  task _ := .done (.ok ())
  discard _ := .done (.ok ())
  completion _ _ _ := .done (.ok ())
  handler h _ := h.elim
  observe e memory := (memory.1, memory.2 ++ [e])

def program : Program Logged.signature := ⟨.map (.map (.sync ()) ()) (), ()⟩

/-- The program is run on an event loop, as it is configured. -/
def main (config : Config) : Script Logged Memory Ending :=
  .ask .openLoop fun _ =>
    .ask (.start ⟨.eventLoop ⟨0⟩, config, .log⟩ program ()) fun _ =>
      .ask (.runUntilIdle ⟨0⟩) fun _ => .done (.ok ())

def runOf (config : Config) : Run Logged := ⟨⟨0⟩, (), .callbacks () .log, .eventLoop ⟨0⟩, config⟩

/-- The run has been asked for. -/
def started (client : Client Logged Memory) (config : Config) : Machine Logged Memory :=
  (initial (.initial .still (0, [])) (main config)).run client 4

/-- It is run in slices of two nodes. -/
def run : Run Logged := runOf ⟨2, .zero, true⟩

def session : Machine Logged Memory := started client ⟨2, .zero, true⟩

/-- The session is over after 40 moves. -/
theorem isNone_step : (((session.run client 1).run client 40).step client).isNone = true := by cbv

/-- The count is changed, but not for the run. -/
def interferes (m : Machine Logged Memory) : Bool :=
  match m.focus with
  | .script role (.update f _) =>
    role.tickets.countP (·.isRun run.id) == 0 && (f m.world.memory).1 != m.world.memory.1
  | _ => false

/-- A task is deferred that is not one of the run, or after the loop is gone, or too far. -/
def strays (m : Machine Logged Memory) : Bool :=
  match m.focus with
  | .defer (.eventLoop l) delay t =>
    !(t.ticket.isRun run.id && (m.world.loop? ⟨0⟩).isSome) ||
      m.world.overflows (.eventLoop l) delay
  | _ => false

/-- An event is reported, but not for the run. -/
def disturbs (m : Machine Logged Memory) : Bool :=
  m.focus.tickets.countP (·.isRun run.id) == 0 &&
    (match (m.run client 1).focus with
      | .begin t => !t.ticket.isRun run.id
      | _ => true) &&
    (m.run client 1).world.memory.2 != m.world.memory.2

theorem apart : Apart client Prod.fst run program (session.run client 1) where
  session := InSession.run ⟨_, _, _, _, rfl⟩ 1
  focus := by cbv
  result := rfl
  events _ _ := rfl
  spares n role f next hf hrole := by
    have hn := forall_run isNone_step (fun m => !interferes m) (Nat.zero_le 40) (by cbv)
      (Nat.zero_le n)
    simp only [interferes, hf, hrole] at hn
    simpa using hn

theorem alone : Alone client Prod.fst Prod.snd ⟨0⟩ run program (session.run client 1) where
  apart := apart
  records :=
    { observe := fun _ _ => rfl
      thunk := fun _ _ => ⟨rfl, trivial⟩
      transform := fun _ _ _ => ⟨rfl, trivial⟩
      continuation := fun k _ => k.elim }
  host := rfl
  fresh := ⟨_, rfl, rfl, rfl⟩
  catching := rfl
  deferred {n delay t} hf := by
    have hn := forall_run isNone_step (fun m => !strays m) (Nat.zero_le 40) (by cbv)
      (Nat.zero_le n)
    simp only [strays, hf, Bool.not_or, Bool.not_not, Bool.and_eq_true] at hn
    exact ⟨hn.1.1, Option.isSome_iff_exists.1 hn.1.2⟩
  fits {n delay t} hf := by
    have hn := forall_run isNone_step (fun m => !strays m) (Nat.zero_le 40) (by cbv)
      (Nat.zero_le n)
    simp only [strays, hf, Bool.not_or, Bool.not_not, Bool.and_eq_true, Bool.not_eq_true'] at hn
    exact hn.2
  kept {n p} _ := by
    simpa using forall_run isNone_step (fun m => m.lost.countP (·.isRun run.id) == 0)
      (Nat.zero_le 40) (by cbv) (Nat.zero_le n)
  silent {n} htickets hbegin := by
    have hn := forall_run isNone_step (fun m => !disturbs m) (Nat.zero_le 40) (by cbv)
      (Nat.zero_le n)
    rw [run_add] at hbegin ⊢
    rw [disturbs, htickets] at hn
    split at hn
    · rename_i t hf
      simpa [hbegin t hf] using hn
    · simpa using hn

/-- The record of the whole session is the trace of the run. -/
theorem logged_journal : Journal client Prod.fst Prod.snd ⟨0⟩ run program session ∧
    (session.run client 40).world.memory = (3, [.runStarted .map, .visited .map 0, .visited .map 1,
      .suspended 2 1 2, .taskDeferred .zero 1, .taskStarted 1, .visited .sync 2,
      .runCompleted 3 1]) := by
  have hfocus : session.focus =
      .request (.start ⟨.eventLoop ⟨0⟩, ⟨2, .zero, true⟩, .log⟩ program ()) := by cbv
  exact ⟨Machine.Alone.journal hfocus rfl Nat.two_pos alone, by cbv⟩

/-- The functions of a client who uses the event loop of the run: each call defers a task. -/
def helping : Client Logged Memory :=
  { client with
    thunk := fun _ => .ask (.defer (.eventLoop ⟨0⟩) .zero ()) fun _ => .done (.returned ()) }

/-- A run whose due time cannot be told is neither completed nor failed nor dropped. And if a
function defers a task of its own, the loop starts that one when the run is over. -/
theorem not_journal :
    ¬ Journal client Prod.fst Prod.snd ⟨0⟩ (runOf ⟨2, .longest, true⟩) program
      (started client ⟨2, .longest, true⟩) ∧
    ¬ Journal helping Prod.fst Prod.snd ⟨0⟩ (runOf ⟨4, .zero, true⟩) program
      (started helping ⟨4, .zero, true⟩) := by
  refine ⟨fun h => ?_, fun h => ?_⟩
  · -- The loop panics, and holds nothing afterwards.
    obtain ⟨j, hj, x, hx⟩ := h.idle (n := 7) (a := .error overflow) (by cbv) (by cbv) (by cbv)
    have hnone : (List.range 7).all (fun j => ((started client ⟨2, .longest, true⟩).run client
      j).focus.reports.isNone) = true := by cbv
    have hj := List.all_eq_true.1 hnone j (List.mem_range.2 hj)
    rw [hx] at hj
    cases hj
  · have hx : ((started helping ⟨4, .zero, true⟩).run helping 12).focus.reports =
        some (runOf ⟨4, .zero, true⟩, .ok ((), ⟨3, 0, 2⟩)) := by cbv
    obtain ⟨log, -, -, -, hlog⟩ := h.reported hx
    have hsame := congrArg List.length ((hlog 13 (by decide)).trans (hlog 26 (by decide)).symm)
    have hnext : ((started helping ⟨4, .zero, true⟩).run helping 13).world.memory.2.length = 6 := by
      cbv
    have hlast : ((started helping ⟨4, .zero, true⟩).run helping 26).world.memory.2.length = 7 := by
      cbv
    omega

end Logged

end LazyEffects
