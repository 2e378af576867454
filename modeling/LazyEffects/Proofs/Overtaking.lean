import LazyEffects.Proofs.Protocol
import Mathlib

/-!
# Tasks that overtake

An event loop takes in a task at the moment at which it is handed in, so it starts the tasks in the
order of their due times, and those due at the same time in the order in which they came. A worker
runs every timer that is due before it looks at its channel. A task whose message waits there while
others run is overtaken by the timers that become due meanwhile.

* `Schedule.Reachable.overtakes_iff`: the task that a worker starts is the one that an event loop
  would start unless a task in the channel is due earlier, and then it overtakes that task;
* `Schedule.late_overtakes` is a schedule in which this happens.
-/

namespace LazyEffects

/-- Take in what a message brings. -/
def TimerQueue.enqueue {τ : Type} (q : TimerQueue τ) : Message τ → TimerQueue τ
  | .submit due task => q.push due task
  | .shutdown => q

namespace TimerQueue

variable {τ : Type} {q : TimerQueue τ} {ms : List (Message τ)} {timer : Timer τ}

theorem enqueue_ordered (h : Ordered q.heap) (ms : List (Message τ)) :
    Ordered (ms.foldl enqueue q).heap := by
  induction ms generalizing q with
  | nil => exact h
  | cons m ms ih =>
    cases m with
    | submit due task => exact ih (push_ordered h due task)
    | shutdown => exact ih h

theorem mem_enqueue_of_mem (ht : timer ∈ q.heap) (ms : List (Message τ)) :
    timer ∈ (ms.foldl enqueue q).heap := by
  induction ms generalizing q with
  | nil => exact ht
  | cons m ms ih =>
    cases m with
    | submit due task => exact ih (mem_heap_push ht due task)
    | shutdown => exact ih ht

theorem exists_mem_enqueue {due : Instant} {task : τ} (hm : .submit due task ∈ ms)
    (q : TimerQueue τ) : ∃ sequence, ⟨due, sequence, task⟩ ∈ (ms.foldl enqueue q).heap := by
  induction ms generalizing q with
  | nil => cases hm
  | cons m ms ih =>
    rcases List.mem_cons.1 hm with rfl | hm
    · exact ⟨q.sequence, mem_enqueue_of_mem (mem_heap_push_self q due task) ms⟩
    · exact ih hm (q.enqueue m)

/-- What has been taken in is behind what was there before, if it is due at the same time. -/
theorem mem_or_of_mem_enqueue (ht : timer ∈ (ms.foldl enqueue q).heap) :
    timer ∈ q.heap ∨ q.sequence ≤ timer.sequence ∧ .submit timer.due timer.task ∈ ms := by
  induction ms generalizing q with
  | nil => exact .inl ht
  | cons m ms ih =>
    cases m with
    | submit due task =>
      rcases ih (q := q.push due task) ht with ht | ⟨hle, hm⟩
      · rcases mem_heap_push_iff.1 ht with ht | rfl
        · exact .inl ht
        · exact .inr ⟨le_rfl, List.mem_cons_self⟩
      · exact .inr ⟨(Nat.le_succ _).trans hle, List.mem_cons_of_mem _ hm⟩
    | shutdown => exact (ih ht).imp_right fun ⟨hle, hm⟩ => ⟨hle, List.mem_cons_of_mem _ hm⟩

end TimerQueue

namespace Schedule

variable {s : Schedule} {i j p q : ℕ} {x y : Submission} {due due' : Instant} {worker : Worker ℕ}

/-- The task has been accepted and is not started. -/
def IsPending (s : Schedule) (i : ℕ) : Prop := i ∈ s.tasks ∧ i ∉ s.executed.map Prod.fst

/-- The task `i` is due before `j`, or at the same time and was accepted earlier. -/
def Ahead (s : Schedule) (i j : ℕ) : Prop :=
  ∃ (p q : ℕ) (due due' : Instant), s.sent[p]? = some (.submit due i) ∧
    s.sent[q]? = some (.submit due' j) ∧ (due < due' ∨ due = due' ∧ p < q)

/-- The queue of an event loop that has been handed the same tasks and has started the same. -/
def pumped (s : Schedule) : TimerQueue ℕ := s.worker.channel.foldl .enqueue s.worker.timers

namespace Reachable

theorem mem_channel_iff (h : Reachable s) (ha : s.worker.accepts) {m : Message ℕ} :
    m ∈ s.worker.channel ↔ ∃ p, s.taken ≤ p ∧ s.sent[p]? = some m := by
  rw [(h.channel_eq ha).1, List.mem_iff_getElem?]
  constructor
  · rintro ⟨k, hk⟩
    rw [List.getElem?_drop] at hk
    exact ⟨s.taken + k, Nat.le_add_right _ _, hk⟩
  · rintro ⟨p, hp, hm⟩
    refine ⟨p - s.taken, ?_⟩
    rwa [List.getElem?_drop, Nat.add_sub_cancel' hp]

/-- A task in the channel is pending. -/
theorem pending_of_mem_channel (h : Reachable s) (ha : s.worker.accepts)
    (hm : .submit due i ∈ s.worker.channel) : s.IsPending i := by
  obtain ⟨p, hle, hp⟩ := (h.mem_channel_iff ha).1 hm
  refine ⟨mem_tasks_iff.2 ⟨p, due, hp⟩, fun hi => ?_⟩
  obtain ⟨⟨_, t⟩, hmem, rfl⟩ := List.mem_map.1 hi
  obtain ⟨q, hq, _, -, hsent⟩ := h.executed_sent hmem
  exact absurd (h.sent_unique hsent hp) (by omega)

/-- A timer of the worker is known by its task, and by its number. -/
theorem timer_unique (h : Reachable s) {a b : Timer ℕ} (ha : a ∈ s.worker.timers.heap)
    (hb : b ∈ s.worker.timers.heap) (hab : a.task = b.task ∨ a.sequence = b.sequence) : a = b := by
  have hsa := (h.timers_sent ha).2
  have hsb := (h.timers_sent hb).2
  have hsequence : a.sequence = b.sequence := by
    refine hab.elim (fun htask => ?_) id
    rw [htask] at hsa
    exact h.sent_unique hsa hsb
  rw [hsequence, hsb] at hsa
  cases a
  cases b
  cases hsequence
  cases hsa
  rfl

/-- No pending task that the worker has taken is ahead of the root of its timers: one that is ahead
is still in the channel, and due earlier. -/
theorem ahead_iff (h : Reachable s) (hp : s.worker.phase = .running) {root : Timer ℕ}
    (hroot : s.worker.timers.heap[0]? = some root) (hi : s.IsPending i) :
    s.Ahead i root.task ↔ ∃ due < root.due, .submit due i ∈ s.worker.channel := by
  obtain ⟨hlt, hsent⟩ := h.timers_sent (Array.mem_of_getElem? hroot)
  have ha := Worker.accepts_of_running hp
  constructor
  · rintro ⟨p, q, due, due', hp', hq, hahead⟩
    obtain rfl := h.sent_unique hsent hq
    cases hsent.symm.trans hq
    have htaken : s.taken ≤ p := by
      by_contra hp''
      have htimer := (h.executed_or_timer hp (Nat.not_le.1 hp'') hp').resolve_left hi.2
      exact h.timers_ordered.not_ahead_root hroot htimer ((Timer.ahead_iff _ _).2 hahead)
    refine ⟨due, hahead.resolve_right fun hle => ?_, (h.mem_channel_iff ha).2 ⟨p, htaken, hp'⟩⟩
    omega
  · rintro ⟨due, hdue, hm⟩
    obtain ⟨p, -, hp'⟩ := (h.mem_channel_iff ha).1 hm
    exact ⟨p, root.sequence, due, root.due, hp', hsent, .inl hdue⟩

/-- An event loop starts the same task unless one in the channel is due earlier. -/
theorem pumped_popDue_iff (h : Reachable s) (hp : s.worker.phase = .running) {root : Timer ℕ}
    (hroot : s.worker.timers.heap[0]? = some root) (hdue : root.due ≤ s.now) :
    (∃ queue, s.pumped.popDue s.now = some (root.task, queue)) ↔
      ∀ due i, .submit due i ∈ s.worker.channel → root.due ≤ due := by
  have hmem := Array.mem_of_getElem? hroot
  obtain ⟨hlt, hsent⟩ := h.timers_sent hmem
  have hordered : TimerQueue.Ordered s.pumped.heap := TimerQueue.enqueue_ordered h.timers_ordered _
  have hmem' : root ∈ s.pumped.heap := TimerQueue.mem_enqueue_of_mem hmem _
  constructor
  · rintro ⟨queue, hpop⟩ due i hm
    obtain ⟨first, hfirst, -, htask, -⟩ := TimerQueue.popDue_eq_some hpop
    -- What the event loop starts is the timer of the worker, as the task is not in the channel.
    have heq : first = root := by
      rcases TimerQueue.mem_or_of_mem_enqueue (Array.mem_of_getElem? hfirst) with ht | ⟨-, hm'⟩
      · exact h.timer_unique ht hmem (.inl htask)
      · obtain ⟨p, hle, hp'⟩ := (h.mem_channel_iff (Worker.accepts_of_running hp)).1 hm'
        rw [htask] at hp'
        exact absurd (h.sent_unique hsent hp') (by omega)
    obtain ⟨sequence, ht⟩ := TimerQueue.exists_mem_enqueue hm s.worker.timers
    rw [← heq]
    exact hordered.root_le hfirst ht
  · intro hchannel
    obtain ⟨k, hk, -⟩ := Array.getElem_of_mem hmem'
    obtain ⟨first, hfirst⟩ : ∃ first, s.pumped.heap[0]? = some first :=
      ⟨_, Array.getElem?_eq_getElem (Nat.zero_lt_of_lt hk)⟩
    have hbehind := hordered.not_ahead_root hfirst hmem'
    have heq : first = root := by
      rcases TimerQueue.mem_or_of_mem_enqueue (Array.mem_of_getElem? hfirst) with ht | ⟨hle, hm⟩
      · have hahead := h.timers_ordered.not_ahead_root hroot ht
        rw [Timer.ahead_iff] at hbehind hahead
        exact h.timer_unique ht hmem (.inr (by grind))
      · -- A task from the channel is not due earlier, and has come later.
        refine absurd ((Timer.ahead_iff _ _).2 ?_) hbehind
        rw [h.timers_sequence hp] at hle
        rcases (hchannel _ _ hm).lt_or_eq with hlt' | heq
        · exact .inl hlt'
        · exact .inr ⟨heq, hlt.trans_le hle⟩
    rw [heq] at hfirst
    exact TimerQueue.popDue_of_root hfirst hdue

/-- A task that a worker starts overtakes a pending one exactly if that is due earlier and still in
the channel, and it is the one that an event loop would start exactly if it overtakes none. -/
theorem overtakes_iff (h : Reachable s) (hs : s.station = .looking)
    (hpop : s.worker.popDue s.now = some (j, worker)) :
    (∀ i, s.IsPending i → (s.Ahead i j ↔ ∃ x y, s.submissions[i]? = some x ∧
      s.submissions[j]? = some y ∧ x.due < y.due ∧ .submit x.due i ∈ s.worker.channel)) ∧
    ((∃ queue, s.pumped.popDue s.now = some (j, queue)) ↔ ∀ i, s.IsPending i → ¬ s.Ahead i j) := by
  have hp := h.phase_of_looking hs
  obtain ⟨timers, ht, rfl⟩ := Worker.popDue_eq_some hpop
  obtain ⟨root, hroot, hdue, rfl, -⟩ := TimerQueue.popDue_eq_some ht
  obtain ⟨-, hsent⟩ := h.timers_sent (Array.mem_of_getElem? hroot)
  obtain ⟨y, hy, hydue⟩ := h.sent_due (List.mem_of_getElem? hsent)
  constructor
  · intro i hi
    rw [h.ahead_iff hp hroot hi]
    constructor
    · rintro ⟨due, hlt, hm⟩
      obtain ⟨p, -, hsent'⟩ := (h.mem_channel_iff (Worker.accepts_of_running hp)).1 hm
      obtain ⟨x, hx, rfl⟩ := h.sent_due (List.mem_of_getElem? hsent')
      exact ⟨x, y, hx, hy, hydue ▸ hlt, hm⟩
    · rintro ⟨x, y', hx, hy', hlt, hm⟩
      cases hy.symm.trans hy'
      exact ⟨x.due, hydue ▸ hlt, hm⟩
  · rw [h.pumped_popDue_iff hp hroot hdue]
    constructor
    · intro hchannel i hi hahead
      obtain ⟨due, hlt, hm⟩ := (h.ahead_iff hp hroot hi).1 hahead
      exact absurd (hchannel due i hm) (Int.not_le.2 hlt)
    · intro hahead due i hm
      by_contra hlt
      have hi := h.pending_of_mem_channel (Worker.accepts_of_running hp) hm
      exact hahead i hi ((h.ahead_iff hp hroot hi).2 ⟨due, Int.not_le.1 hlt, hm⟩)

end Reachable

/-- A task with a delay waits among the timers when another one is run. Meanwhile a third one comes
into the channel, and then the first becomes due. -/
def late : Schedule where
  now := 2
  worker := ⟨[.submit 1 2], ⟨#[⟨2, 0, 0⟩], 2⟩, 1, .running⟩
  station := .looking
  submissions := [⟨some 0, ⟨2⟩, 0⟩, ⟨some 0, ⟨0⟩, 0⟩, ⟨some 0, ⟨0⟩, 1⟩]
  unsent := []
  sent := [.submit 2 0, .submit 0 1, .submit 1 2]
  refused := []
  taken := 2
  executed := [(1, 0)]
  dropped := []

theorem late_reachable : Reachable late := by
  have handedIn : Reachable ⟨0, ⟨[.submit 2 0, .submit 0 1], .empty, 0, .running⟩, .waiting,
      [⟨some 0, ⟨2⟩, 0⟩, ⟨some 0, ⟨0⟩, 0⟩], [], [.submit 2 0, .submit 0 1], [], 0, [], []⟩ :=
    (((((Reachable.initial 0).step
      (.read _ (some 0) ⟨2⟩ (by simp [IsFree, initial]) (by simp))).step
      (.sent _ 0 ⟨some 0, ⟨2⟩, 0⟩ (.head _) rfl rfl)).step
      (.read _ (some 0) ⟨0⟩ (by simp [IsFree, initial]) (by simp))).step
      (.sent _ 1 ⟨some 0, ⟨0⟩, 0⟩ (.head _) rfl rfl)).step (.nothingDue _ rfl rfl)
  have started : Reachable ⟨0, ⟨[], ⟨#[⟨2, 0, 0⟩], 2⟩, 1, .running⟩, .running 1,
      [⟨some 0, ⟨2⟩, 0⟩, ⟨some 0, ⟨0⟩, 0⟩], [], [.submit 2 0, .submit 0 1], [], 2, [(1, 0)], []⟩ :=
    (((handedIn.step
      (.received _ ⟨[.submit 0 1], ⟨#[⟨2, 0, 0⟩], 1⟩, 0, .running⟩ rfl (by cbv) rfl)).step
      (.nothingDue _ rfl (by cbv))).step
      (.received _ ⟨[], ⟨#[⟨0, 1, 1⟩, ⟨2, 0, 0⟩], 2⟩, 0, .running⟩ rfl (by cbv) rfl)).step
      (.started _ 1 _ rfl (by cbv))
  have submitted : Reachable ⟨1, ⟨[.submit 1 2], ⟨#[⟨2, 0, 0⟩], 2⟩, 1, .running⟩, .running 1,
      [⟨some 0, ⟨2⟩, 0⟩, ⟨some 0, ⟨0⟩, 0⟩, ⟨some 0, ⟨0⟩, 1⟩], [],
      [.submit 2 0, .submit 0 1, .submit 1 2], [], 2, [(1, 0)], []⟩ :=
    ((started.step (.tick _ 1 (by decide))).step
      (.read _ (some 0) ⟨0⟩ (by simp [IsFree]) (by simp))).step
      (.sent _ 2 ⟨some 0, ⟨0⟩, 1⟩ (.head _) rfl rfl)
  exact (submitted.step (.tick _ 2 (by decide))).step (.returned _ 1 rfl (by simp [IsFree]))

/-- The worker starts the first task, although the third is due earlier and an event loop would have
started that one. -/
theorem late_overtakes :
    ∃ worker, late.worker.popDue late.now = some (0, worker) ∧ late.IsPending 2 ∧ late.Ahead 2 0 ∧
      ¬ ∃ queue, late.pumped.popDue late.now = some (0, queue) := by
  have hpop : late.worker.popDue late.now =
      some (0, ⟨[.submit 1 2], ⟨#[], 2⟩, 2, .running⟩) := by cbv
  have hpending : late.IsPending 2 := by simp [IsPending, tasks, late, Message.task?]
  obtain ⟨hahead, hpumped⟩ := late_reachable.overtakes_iff rfl hpop
  have hlate : late.Ahead 2 0 :=
    (hahead 2 hpending).2 ⟨⟨some 0, ⟨0⟩, 1⟩, ⟨some 0, ⟨2⟩, 0⟩, rfl, rfl, by decide, .head _⟩
  exact ⟨_, hpop, hpending, hlate, fun h => hpumped.1 h 2 hpending hlate⟩

end Schedule

end LazyEffects
