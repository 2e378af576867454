import LazyEffects.Proofs.Arrivals
import LazyEffects.Proofs.Pace

/-!
# The resumptions of a run

A run whose host is an event loop is resumed when the loop starts what is left of it, and suspended
when what is left is handed to the loop again. There is never more than one task of a run, so its
resumptions and its suspensions take turns. As long as a task of the loop is running, the loop starts
no other, unless it is pumped from within the task.

* `Machine.Unanswered.leaves_eq_none`: while a task is running, no other is started;
* `Machine.Consecutive.suspends`: between two resumptions a run is suspended, and in the meantime no
  other task is started.
-/

namespace LazyEffects

variable {K : Codes} {M : Type}

/-- The request has the event loop start tasks. -/
def Request.pumps (l : LoopId) : Request K → Bool
  | turn l' | runUntilIdle l' | blockOn l' _ _ => l' = l
  | _ => false

theorem Task.eq_resume {t : Task K} {ρ : Run K} (h : t.ticket = .run ρ) :
    ∃ trampoline, t = .resume ⟨ρ, trampoline⟩ := by
  cases t with
  | resume f =>
    cases h
    exact ⟨f.trampoline, rfl⟩
  | _ => cases h

/-- Of elements that are counted once at most there is only one. -/
theorem eq_of_countP_le_one {α : Type} {xs : List α} {key : α → Bool} {x y : α}
    (h : xs.countP key ≤ 1) (hx : x ∈ xs) (hx' : key x = true) (hy : y ∈ xs)
    (hy' : key y = true) : x = y := by
  rw [List.countP_eq_length_filter] at h
  have hx := List.mem_filter.2 ⟨hx, hx'⟩
  have hy := List.mem_filter.2 ⟨hy, hy'⟩
  obtain ⟨z, hz⟩ := List.length_eq_one_iff.1 (le_antisymm h (List.length_pos_of_mem hx))
  rw [hz, List.mem_singleton] at hx hy
  exact hx.trans hy.symm

namespace Machine

variable {client : Client K M} {l : LoopId} {m m' : Machine K M} {base : List (Activity K M)}
  {n : ℕ}

/-! ### While a task is running -/

variable (client l) in
/-- The event loop is not pumped from within its own tasks. -/
def Flat (m : Machine K M) : Prop :=
  ∀ n r, (m.run client n).focus = .request r → r.pumps l = true → ¬ (m.run client n).Pumped l

theorem Flat.run (h : m.Flat client l) (n : ℕ) : (m.run client n).Flat client l := by
  intro i r
  rw [← run_add]
  exact h (n + i) r

theorem not_pumped_of_credits (hf : m.focus.isPump l = false) (h : credits l m.control = 0) :
    ¬ m.Pumped l := by
  rintro (⟨executed, hpump⟩ | ⟨control, hsuffix, hran⟩)
  · rw [hpump] at hf
    simp [Focus.isPump] at hf
  · exact hran (Nat.le_zero.1 (ran_le_credits.trans ((credits_le_of_suffix hsuffix).trans h.le)))

/-- Nobody above those of `base` has the event loop pumped. -/
structure Busy (l : LoopId) (base : List (Activity K M)) (m : Machine K M) : Prop where
  above : Above l base m.control
  focus : m.focus.isPump l = false

namespace Busy

theorem pumped (h : Busy l base m) (hran : ran l base ≠ 0) : m.Pumped l :=
  .inr ⟨base, h.above.suffix, hran⟩

theorem step (h : Busy l base m) (hran : ran l base ≠ 0) (hm : m.Asked)
    (hflat : ∀ r, m.focus = .request r → r.pumps l = true → ¬ m.Pumped l)
    (hbase : ∀ a, m.control = base → m.focus ≠ .answer a) (hs : m.step client = some m') :
    Busy l base m' := by
  have hpumped := h.pumped hran
  have hpump {executed : ℕ} (hf : m.focus = .pump l executed) : False := by
    have hfocus := h.focus
    rw [hf] at hfocus
    simp [Focus.isPump] at hfocus
  -- Who is answered stands above those of `base`.
  have huncons {activity : Activity K M} {control : List (Activity K M)}
      {a : Except Payload (Reply K)} (hc : m.control = activity :: control)
      (hf : m.focus = .answer a) : ran l (activity :: control) = 0 ∧
        activity.opensPump l = false ∧ Above l base control := by
    have habove := h.above
    rw [hc] at habove
    refine habove.uncons.resolve_left ?_
    rintro rfl
    exact hbase a hc hf
  cases step_stacked l hm hs with
  | aside _ _ hf' habove => exact ⟨h.above.trans habove, hf'⟩
  | returned hc hf _ hf' habove => exact ⟨(huncons hc hf).2.2.trans habove, hf'⟩
  | panicked hc hf hf' hc' =>
    refine ⟨?_, hf'⟩
    rw [hc']
    exact (huncons hc hf).2.2
  | begins hc hf =>
    obtain ⟨-, ho, -⟩ := huncons hc hf
    simp [Activity.opensPump] at ho
  | goesOn hc hf =>
    obtain ⟨hzero, -, -⟩ := huncons hc hf
    simp [ran] at hzero
  | idles hf => exact absurd hpumped (hflat _ hf (decide_eq_true rfl))
  | blocks hf => exact absurd hpumped (hflat _ hf (decide_eq_true rfl))
  | turns hf => exact absurd hpumped (hflat _ hf (decide_eq_true rfl))
  | pumped hf => exact (hpump hf).elim

theorem leaves_eq_none (h : Busy l base m) (hran : ran l base ≠ 0)
    (hflat : ∀ r, m.focus = .request r → r.pumps l = true → ¬ m.Pumped l) :
    m.leaves l = none := by
  refine Machine.leaves_eq_none (Bool.eq_false_iff.2 fun htakes => ?_)
  rcases Focus.takesFrom_iff.1 htakes with ⟨executed, hf⟩ | hf
  · have hfocus := h.focus
    rw [hf] at hfocus
    simp [Focus.isPump] at hfocus
  · exact hflat _ hf (decide_eq_true rfl) (h.pumped hran)

end Busy

/-- As long as those are not answered who have an event loop run a task, the loop starts no other. -/
theorem Unanswered.leaves_eq_none (h : Unanswered client m n) (hm : m.Asked)
    (hflat : m.Flat client l) (hran : ran l m.control ≠ 0) (hf : m.focus.isPump l = false) {j : ℕ}
    (hj : j ≤ n) : (m.run client j).leaves l = none := by
  suffices hbusy : Busy l m.control (m.run client j) from hbusy.leaves_eq_none hran (hflat j)
  induction j with
  | zero => exact ⟨.refl, hf⟩
  | succ j ih =>
    have hbusy := ih (Nat.le_of_succ_le hj)
    rw [run_succ]
    cases hs : (m.run client j).step client with
    | none => exact hbusy
    | some m' => exact hbusy.step hran (run_asked client hm j) (hflat j) (h j hj) hs

/-! ### A session from its beginning -/

/-- Nothing has happened yet. -/
def IsInitial (m : Machine K M) : Prop :=
  ∃ clock memory main, m = initial (World.initial clock memory) main

namespace IsInitial

variable {ρ : Run K} (hm : m.IsInitial)

include hm

theorem loops : m.world.loops = #[] := by
  obtain ⟨clock, memory, main, rfl⟩ := hm
  rfl

theorem asked : m.Asked := by
  obtain ⟨clock, memory, main, rfl⟩ := hm
  exact asked_initial

variable (client) in
theorem session (n : ℕ) : (m.run client n).InSession client := by
  obtain ⟨clock, memory, main, rfl⟩ := hm
  exact ⟨clock, memory, main, n, rfl⟩

/-- A run in hand has been started before, and its functions may do anything. -/
theorem exists_apart (h : .run ρ ∈ (m.run client n).inHand) :
    ∃ j ≤ n, ∃ program, Apart client (fun _ => ()) ρ program (m.run client j) := by
  obtain ⟨j, hj, hρ⟩ : ∃ j < n, ρ ∈ (m.run client j).starts := by
    obtain ⟨clock, memory, main, rfl⟩ := hm
    exact exists_start_of_inHand _ rfl rfl h
  obtain ⟨r, program, hf, hp⟩ := exists_program_of_starts hρ
  have hbegins := (hm.session client j).begins hf hp hρ
  rw [← run_add] at hbegins
  exact ⟨j + 1, hj, program, hbegins⟩

/-- A run is in hand only after its start. -/
theorem lt_of_starts {s : ℕ} (hρ : ρ ∈ (m.run client s).starts)
    (h : .run ρ ∈ (m.run client n).inHand) : s < n := by
  have hpos := held_pos_of_inHand h (Ticket.isRun_run ρ)
  have hstarted := (hm.session client n).started (r := ρ.id) hpos.ne'
  rcases (m.run client s).starts_cases with hs | ⟨ρ', hs, hid⟩
  · rw [hs] at hρ
    cases hρ
  · rw [hs, List.mem_singleton] at hρ
    subst hρ
    rw [hid] at hstarted
    by_contra hle
    exact absurd (runs_mono client m (Nat.le_of_not_lt hle)) (Nat.not_le_of_lt hstarted)

end IsInitial

/-! ### Resumed and suspended -/

/-- The event loop starts the next slice of the run. -/
def Resumes (l : LoopId) (ρ : Run K) (m : Machine K M) : Prop :=
  ∃ timer, m.leaves l = some timer ∧ timer.task.ticket = .run ρ

/-- What is left of the run is handed to its host. -/
def Suspends (ρ : Run K) (m : Machine K M) : Prop :=
  ∃ host delay t, m.focus = .defer host delay t ∧ t.ticket = .run ρ

/-- What is left of the run waits at the event loop. -/
def Pending (l : LoopId) (ρ : Run K) (m : Machine K M) : Prop :=
  ∃ t ∈ m.world.contents (.eventLoop l), t.ticket = .run ρ

variable (client l) in
/-- The event loop resumes the run at `p` and next at `q`. -/
structure Consecutive (m : Machine K M) (ρ : Run K) (p q : ℕ) : Prop where
  lt : p < q
  first : (m.run client p).Resumes l ρ
  next : (m.run client q).Resumes l ρ
  between {u : ℕ} : p < u → u < q → ¬ (m.run client u).Resumes l ρ

variable {ρ : Run K} {p q t u : ℕ} {a b timer : Timer (Task K)} {s : EventLoop K}

theorem inHand_of_suspends (h : m.Suspends ρ) : .run ρ ∈ m.inHand := by
  obtain ⟨host, delay, t, hf, ht⟩ := h
  rw [inHand, hf, Focus.tickets, ht]
  exact List.mem_append_left _ (List.mem_singleton_self _)

theorem live_pos_of_suspends (h : m.Suspends ρ) : 0 < m.live ρ.id := by
  obtain ⟨host, delay, t, hf, ht⟩ := h
  rw [live, List.countP_append, hf, Focus.active, ht, List.countP_singleton, Ticket.isRun_run,
    if_pos rfl]
  omega

/-- A run that is not over and not in hand waits at its host. -/
theorem Standing.waits_of_inHand {A : Type} {own : M → A} {E : Errand K A} {fate : ℕ → Prop}
    {k : ℕ} (h : Standing client own E ρ fate m k) (hcount : m.inHand.countP (·.isRun ρ.id) = 0)
    (hlive : m.live ρ.id ≠ 0) : ∃ t, .resume ⟨ρ, t⟩ ∈ m.world.contents ρ.host := by
  have hfocus (hf : m.focus.tickets = [.run ρ]) : False := by
    rw [inHand, hf, List.countP_append, List.countP_singleton, Ticket.isRun_run, if_pos rfl]
      at hcount
    omega
  cases h with
  | waits hw => exact ⟨_, hw⟩
  | begun hf => rcases hf with hf | hf <;> exact (hfocus (by rw [hf]; rfl)).elim
  | slice hf => exact (hfocus (by rw [hf]; rfl)).elim
  | asks hf =>
    have hpos := tickets_pos_of_asks hf
    rw [inHand, List.countP_append] at hcount
    omega
  | handed hf => exact (hfocus (by rw [hf]; rfl)).elim
  | gone hl => exact absurd hl hlive

theorem Suspends.leaves_eq_none (h : m.Suspends ρ) : m.leaves l = none := by
  obtain ⟨host, delay, t, hf, -⟩ := h
  exact Machine.leaves_eq_none (by rw [hf]; rfl)

theorem Resumes.mem_heap (h : m.leaves l = some timer) (hs : m.world.loop? l = some s) :
    timer ∈ s.queue.heap := by
  obtain ⟨s', -, hs', hroot, -⟩ := leaves_eq_some h
  rw [hs] at hs'
  cases hs'
  exact Array.mem_of_getElem? hroot

theorem mem_contents (hs : m.world.loop? l = some s) (h : timer ∈ s.queue.heap) :
    timer.task ∈ m.world.contents (.eventLoop l) := by
  rw [World.contents, hs]
  exact List.mem_map_of_mem (Array.mem_toList_iff.2 h)

theorem Pending.exists_timer (h : m.Pending l ρ) : ∃ s timer, m.world.loop? l = some s ∧
    timer ∈ s.queue.heap ∧ timer.task.ticket = .run ρ := by
  obtain ⟨t, ht, hticket⟩ := h
  rw [World.contents] at ht
  cases hs : m.world.loop? l with
  | none =>
    rw [hs] at ht
    cases ht
  | some s =>
    rw [hs] at ht
    obtain ⟨timer, hmem, rfl⟩ := List.mem_map.1 ht
    exact ⟨s, timer, rfl, Array.mem_toList_iff.1 hmem, hticket⟩

namespace InSession

/-- Of a run there is one timer at most. -/
theorem timer_unique (h : m.InSession client) (hs : m.world.loop? l = some s)
    (ha : a ∈ s.queue.heap) (hρ : a.task.ticket = .run ρ) (hb : b ∈ s.queue.heap)
    (hρ' : b.task.ticket = .run ρ) : a = b := by
  have hcount : s.queue.heap.toList.countP (fun timer => timer.task.ticket.isRun ρ.id) ≤ 1 := by
    have hheld := h.held_le_one ρ.id
    have hle := m.world.countP_le_waiting (.eventLoop l) (fun t => t.ticket.isRun ρ.id)
    rw [World.contents, hs, Option.elim, TimerQueue.tasks, List.countP_map] at hle
    rw [held] at hheld
    exact hle.trans (by omega)
  exact eq_of_countP_le_one hcount (Array.mem_toList_iff.2 ha)
    (by rw [hρ]; exact Ticket.isRun_run ρ) (Array.mem_toList_iff.2 hb)
    (by rw [hρ']; exact Ticket.isRun_run ρ)

/-- Of a run that waits at an event loop nothing is in hand. -/
theorem countP_inHand (h : m.InSession client) (hs : m.world.loop? l = some s)
    (ha : a ∈ s.queue.heap) (hρ : a.task.ticket = .run ρ) :
    m.inHand.countP (·.isRun ρ.id) = 0 := by
  obtain ⟨trampoline, htask⟩ := Task.eq_resume hρ
  have hmem := mem_contents hs ha
  rw [htask] at hmem
  exact inHand_of_waits (h.held_le_one ρ.id) hmem

/-- A run that is being suspended does not wait. -/
theorem notMem_heap (h : m.InSession client) (hs : m.world.loop? l = some s)
    (hsuspends : m.Suspends ρ) (ha : a ∈ s.queue.heap) : a.task.ticket ≠ .run ρ := by
  intro hρ
  have hpos := List.countP_pos_iff.2 ⟨_, inHand_of_suspends hsuspends, Ticket.isRun_run ρ⟩
  rw [h.countP_inHand hs ha hρ] at hpos
  exact absurd hpos (lt_irrefl 0)

end InSession

theorem Resumes.live_ne_zero (h : m.Resumes l ρ) : m.live ρ.id ≠ 0 := by
  obtain ⟨timer, hleaves, hρ⟩ := h
  obtain ⟨s, -, hs, -⟩ := leaves_eq_some hleaves
  have hpos := World.waiting_pos (fun t => t.ticket.isRun ρ.id)
    (mem_contents hs (Resumes.mem_heap hleaves hs)) (by rw [hρ]; exact Ticket.isRun_run ρ)
  rw [live]
  omega

theorem Resumes.exists_loop (h : m.Resumes l ρ) : ∃ s, m.world.loop? l = some s := by
  obtain ⟨timer, hleaves, -⟩ := h
  obtain ⟨s, -, hs, -⟩ := leaves_eq_some hleaves
  exact ⟨s, hs⟩

/-- An event loop that is there at two moments has been there all the while. -/
theorem exists_loop (hp : ∃ s, (m.run client p).world.loop? l = some s)
    (hq : ∃ s, (m.run client q).world.loop? l = some s) (hpn : p ≤ n) (hnq : n ≤ q) :
    ∃ s, (m.run client n).world.loop? l = some s := by
  obtain ⟨s, hs⟩ := hp
  obtain ⟨s', hs'⟩ := hq
  obtain ⟨i, rfl⟩ := Nat.exists_eq_add_of_le hpn
  obtain ⟨j, rfl⟩ := Nat.exists_eq_add_of_le hnq
  have hin : l.index < (m.run client p).world.loops.size :=
    (Array.getElem?_eq_some_iff.1 (World.loop?_eq_some hs).1).1
  have hsize := (run_tally client l (m.run client p) i).size
  rw [← run_add] at hsize
  have htally : ((m.run client (p + i)).run client j).world.tally l =
      some (s'.turns + s'.queue.size) := by
    rw [← run_add, World.tally, hs']
    rfl
  obtain ⟨v, hv, -⟩ := (run_tally client l (m.run client (p + i)) j).tally
    (hin.trans_le hsize) htally
  obtain ⟨s, hs, -⟩ := Option.map_eq_some_iff.1 hv
  exact ⟨s, hs⟩

theorem exists_consecutive (hp : (m.run client p).Resumes l ρ) (hq : (m.run client q).Resumes l ρ)
    (h : p < q) : ∃ q' ≤ q, m.Consecutive client l ρ p q' := by
  classical
  have hex : ∃ u, p < u ∧ (m.run client u).Resumes l ρ := ⟨q, h, hq⟩
  obtain ⟨hlt, hnext⟩ := Nat.find_spec hex
  exact ⟨Nat.find hex, Nat.find_min' hex ⟨h, hq⟩, hlt, hp, hnext,
    fun hu hlt hresumes => Nat.find_min hex hlt ⟨hu, hresumes⟩⟩

namespace IsInitial

variable (hm : m.IsInitial)

include hm

/-- A run that is suspended is handed to its own host, with the delay of its configuration. -/
theorem suspended {host : Host} {delay : Duration} {t' : Task K}
    (hf : (m.run client t).focus = .defer host delay t') (hρ : t'.ticket = .run ρ) :
    host = ρ.host ∧ delay = ρ.config.resumeDelay := by
  obtain ⟨j, hj, program, hapart⟩ := hm.exists_apart (inHand_of_suspends ⟨_, _, _, hf, hρ⟩)
  obtain ⟨i, rfl⟩ := Nat.exists_eq_add_of_le hj
  rw [run_add] at hf
  obtain ⟨hhost, hdelay, -⟩ := hapart.hands hf (by rw [hρ]; exact Ticket.isRun_run ρ)
  exact ⟨hhost, hdelay⟩

/-- A run that is not over later is suspended with a due time. -/
theorem fits_of_live {host : Host} {delay : Duration} {t' : Task K}
    (hf : (m.run client t).focus = .defer host delay t') (hρ : t'.ticket = .run ρ) (hq : t < q)
    (hl : (m.run client q).live ρ.id ≠ 0) :
    (m.run client t).world.overflows host delay = false := by
  obtain ⟨j, hj, program, hapart⟩ := hm.exists_apart (inHand_of_suspends ⟨_, _, _, hf, hρ⟩)
  obtain ⟨i, rfl⟩ := Nat.exists_eq_add_of_le hj
  obtain ⟨i', rfl⟩ := Nat.exists_eq_add_of_le (hj.trans hq.le)
  rw [run_add] at hf hl ⊢
  exact hapart.fits_of_live hf (by rw [hρ]; exact Ticket.isRun_run ρ) (by omega) hl

theorem focus_of_enters (h : (m.run client t).enters l = some a) (hρ : a.task.ticket = .run ρ) :
    (m.run client t).focus = .defer (.eventLoop l) ρ.config.resumeDelay a.task ∧
      ρ.host = .eventLoop l := by
  obtain ⟨delay, -, hf, -⟩ := enters_eq_some h
  obtain ⟨hhost, rfl⟩ := hm.suspended hf hρ
  exact ⟨hf, hhost.symm⟩

/-- A run that is suspended and not over later is taken in by its event loop. -/
theorem enters_of_suspends (h : (m.run client t).Suspends ρ) (hhost : ρ.host = .eventLoop l)
    (hs : ∃ s, (m.run client t).world.loop? l = some s) (hq : t < q)
    (hl : (m.run client q).live ρ.id ≠ 0) :
    ∃ a, (m.run client t).enters l = some a ∧ a.task.ticket = .run ρ := by
  obtain ⟨host, delay, t', hf, hρ⟩ := h
  have ho := hm.fits_of_live hf hρ hq hl
  obtain ⟨rfl, -⟩ := hm.suspended hf hρ
  obtain ⟨s, hs⟩ := hs
  have henters : (m.run client t).enters l = some
      ⟨(m.run client t).world.readClock.1 + delay.nanos, s.queue.sequence, t'⟩ := by
    rw [hhost] at ho
    rw [enters, hf, hhost, hs]
    exact if_pos ⟨rfl, ho⟩
  exact ⟨_, henters, hρ⟩

/-- A run that is in hand before and is suspended later is in hand in between, or it waits. -/
theorem pending (h : .run ρ ∈ (m.run client p).inHand) (ht : (m.run client t).Suspends ρ)
    (hhost : ρ.host = .eventLoop l) (hpn : p ≤ n) (hnt : n ≤ t)
    (hcount : (m.run client n).inHand.countP (·.isRun ρ.id) = 0) :
    (m.run client n).Pending l ρ := by
  obtain ⟨j, hj, program, hapart⟩ := hm.exists_apart h
  obtain ⟨i, rfl⟩ := Nat.exists_eq_add_of_le (hj.trans hpn)
  obtain ⟨i', rfl⟩ := Nat.exists_eq_add_of_le ((hj.trans hpn).trans hnt)
  have hlive := hapart.live_le (Nat.le_of_add_le_add_left hnt)
  have hstands := hapart.stands i
  rw [← run_add, ← run_add] at hlive
  rw [← run_add] at hstands
  obtain ⟨trampoline, hwaits⟩ :=
    hstands.waits_of_inHand hcount (live_pos_of_suspends ht |>.trans_le hlive).ne'
  rw [hhost] at hwaits
  exact ⟨_, hwaits, rfl⟩

end IsInitial

/-! ### Between two resumptions -/

namespace Consecutive

variable (h : m.Consecutive client l ρ p q) (hm : m.IsInitial)

include h hm

/-- What is started at the second resumption has come after the first. -/
theorem exists_enters_between : ∃ t a, p < t ∧ t < q ∧ (m.run client t).enters l = some a ∧
    a.task.ticket = .run ρ := by
  obtain ⟨b, hb, hbρ⟩ := h.next
  obtain ⟨j, hj, henters⟩ := exists_enters hm.loops hb
  refine ⟨j, b, ?_, hj, henters, hbρ⟩
  by_contra hle
  obtain ⟨a, ha, haρ⟩ := h.first
  have hsuspends : (m.run client j).Suspends ρ :=
    ⟨_, _, _, (hm.focus_of_enters henters hbρ).1, hbρ⟩
  have hjp : j < p := by
    refine lt_of_le_of_ne (Nat.le_of_not_lt hle) ?_
    rintro rfl
    rw [hsuspends.leaves_eq_none] at ha
    cases ha
  obtain ⟨s, -, hs, -⟩ := leaves_eq_some ha
  rcases mem_heap_or_leaves hm.loops hs henters hjp with hmem | ⟨u, -, hu, hleaves⟩
  · -- There is one timer of the run at most, and this one is started at the first.
    cases (hm.session client p).timer_unique hs (Resumes.mem_heap ha hs) haρ hmem hbρ
    exact h.lt.ne (leaves_unique hm.loops ha hb)
  · cases leaves_unique hm.loops hleaves hb
    exact lt_asymm h.lt hu

theorem host : ρ.host = .eventLoop l := by
  obtain ⟨t, a, -, -, ha, hρ⟩ := h.exists_enters_between hm
  exact (hm.focus_of_enters ha hρ).2

/-- What comes in between as the run is suspended is started at the second resumption. -/
theorem enters (hp : p < t) (hq : t < q) (ht : (m.run client t).Suspends ρ) :
    ∃ a, (m.run client t).enters l = some a ∧ a.task.ticket = .run ρ ∧
      (m.run client q).leaves l = some a := by
  obtain ⟨a, ha, hρ⟩ := hm.enters_of_suspends ht (h.host hm)
    (exists_loop h.first.exists_loop h.next.exists_loop hp.le hq.le) hq h.next.live_ne_zero
  refine ⟨a, ha, hρ, ?_⟩
  obtain ⟨b, hb, hbρ⟩ := h.next
  obtain ⟨s, -, hs, -⟩ := leaves_eq_some hb
  rcases mem_heap_or_leaves hm.loops hs ha hq with hmem | ⟨u, hu, huq, hleaves⟩
  · cases (hm.session client q).timer_unique hs (Resumes.mem_heap hb hs) hbρ hmem hρ
    exact hb
  · exact absurd ⟨a, hleaves, hρ⟩ (h.between (hp.trans hu) huq)

theorem suspends_unique (hp : p < t) (hq : t < q) (ht : (m.run client t).Suspends ρ) (hp' : p < u)
    (hq' : u < q) (hu : (m.run client u).Suspends ρ) : u = t := by
  obtain ⟨a, ha, -, hleaves⟩ := h.enters hm hp hq ht
  obtain ⟨b, hb, -, hleaves'⟩ := h.enters hm hp' hq' hu
  rw [hleaves] at hleaves'
  cases hleaves'
  exact enters_unique hm.loops hb ha

/-- Until the run is suspended, the task with which it has been resumed is running. -/
theorem unanswered (hp : p < t) (hq : t < q) (ht : (m.run client t).Suspends ρ) :
    Unanswered client (m.run client (p + 1)) (t - (p + 1)) := by
  intro j hj x hc hf
  rw [← run_add] at hc hf
  have hjt : p + 1 + j < t := by omega
  obtain ⟨a, ha, hρ⟩ := h.first
  obtain ⟨s, -, hs, -⟩ := leaves_eq_some ha
  obtain ⟨hbegin, hcontrol⟩ := run_leaves ha
  -- The slice is over, and so the run is not in hand.
  have hcount : (m.run client (p + 1 + j)).inHand.countP (·.isRun ρ.id) = 0 := by
    have hzero := (hm.session client p).countP_inHand hs (Resumes.mem_heap ha hs) hρ
    rw [inHand, List.countP_append, Nat.add_eq_zero_iff] at hzero
    rw [inHand, hf, hc]
    rcases hcontrol with ⟨executed, hcontrol⟩ | hcontrol <;> rw [hcontrol] <;> exact hzero.2
  have hhand : .run ρ ∈ (m.run client (p + 1)).inHand := by
    rw [inHand, hbegin, Focus.tickets, hρ]
    exact List.mem_append_left _ (List.mem_singleton_self _)
  -- So it has been suspended before, and then it would have been resumed before.
  obtain ⟨s₁, b, hs₁, hb, hbρ⟩ :=
    (hm.pending hhand ht (h.host hm) (Nat.le_add_right _ j) hjt.le hcount).exists_timer
  obtain ⟨⟨i, hi, henters⟩, hnot⟩ := enters_of_mem_heap hm.loops hs₁ hb
  obtain ⟨s₂, hs₂⟩ := exists_loop h.first.exists_loop h.next.exists_loop hp.le hq.le
  rcases mem_heap_or_leaves hm.loops hs₂ henters (hi.trans hjt) with hmem | ⟨u, -, hut, hleaves⟩
  · exact (hm.session client t).notMem_heap hs₂ ht hmem hbρ
  · have hu : p + 1 + j ≤ u := Nat.le_of_not_lt fun hlt => hnot u hlt hleaves
    exact h.between (by omega) (hut.trans hq) ⟨b, hleaves, hbρ⟩

/-- Until then the event loop starts nothing else. -/
theorem leaves_eq_none (hflat : m.Flat client l) (hp : p < t) (hq : t < q)
    (ht : (m.run client t).Suspends ρ) (hu : p < u) (hut : u ≤ t) :
    (m.run client u).leaves l = none := by
  obtain ⟨a, ha, -⟩ := h.first
  obtain ⟨hbegin, hcontrol⟩ := run_leaves ha
  have hran : ran l (m.run client (p + 1)).control ≠ 0 := by
    rcases hcontrol with ⟨executed, hcontrol⟩ | hcontrol <;> rw [hcontrol] <;> simp [ran]
  have hnone := (h.unanswered hm hp hq ht).leaves_eq_none (run_asked client hm.asked _)
    (hflat.run _) hran (by rw [hbegin]; rfl) (j := u - (p + 1)) (by omega)
  rwa [← run_add, show p + 1 + (u - (p + 1)) = u by omega] at hnone

/-- Between two resumptions a run is suspended once, and until then the event loop starts no task. -/
theorem suspends (hflat : m.Flat client l) :
    ∃ t, (p < t ∧ t < q ∧ (m.run client t).Suspends ρ) ∧
      (∀ u, p < u → u < q → (m.run client u).Suspends ρ → u = t) ∧
      ∀ u, p < u → u ≤ t → (m.run client u).leaves l = none := by
  obtain ⟨t, a, hp, hq, ha, hρ⟩ := h.exists_enters_between hm
  have ht : (m.run client t).Suspends ρ := ⟨_, _, _, (hm.focus_of_enters ha hρ).1, hρ⟩
  exact ⟨t, ⟨hp, hq, ht⟩, fun u hu huq hsuspends => h.suspends_unique hm hp hq ht hu huq hsuspends,
    fun u => h.leaves_eq_none hm hflat hp hq ht⟩

end Consecutive

end Machine

end LazyEffects
