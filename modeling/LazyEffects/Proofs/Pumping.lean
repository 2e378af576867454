import LazyEffects.Proofs.Awaited
import Mathlib.Algebra.Order.BigOperators.Group.Finset

/-!
# Waiting at an event loop

Whoever waits at an event loop pumps it until no task is left. If only finitely many tasks are
deferred to it and those that are begun return, this comes to an end, and then the run that is
waited for has been reported.

* `Machine.gets_idle`: pumping comes to an end;
* `Job.answers_blockOn`: what is answered then is what the job delivers.
-/

namespace LazyEffects

variable {K : Codes} {M A : Type}

/-- Whoever has waited finds that the time has come. -/
theorem World.le_readClock_sleepUntil (w : World K M) (due : Instant) :
    due ≤ (w.sleepUntil due).readClock.1 := by
  simp only [sleepUntil, Clock.sleepUntil, readClock, Clock.read]
  exact (le_max_right _ _).trans (Int.le_add_of_nonneg_right (Int.natCast_nonneg _))

namespace Machine

variable {client : Client K M} {m m' : Machine K M} {host : Host}

/-- A task is being deferred to the host, and there is such a point in time as its due time. -/
def defersTo (host : Host) (m : Machine K M) : Bool :=
  match m.focus with
  | .defer h delay _ => h = host ∧ m.world.overflows h delay = false
  | _ => false

theorem defersTo_iff : m.defersTo host = true ↔
    ∃ delay t, m.focus = .defer host delay t ∧ m.world.overflows host delay = false := by
  rw [defersTo]
  split
  · rename_i h delay t hf
    rw [hf, decide_eq_true_eq]
    constructor
    · rintro ⟨rfl, ho⟩
      exact ⟨delay, t, rfl, ho⟩
    · rintro ⟨delay', t', hf', ho⟩
      cases hf'
      exact ⟨rfl, ho⟩
  · rename_i hne
    exact ⟨fun h => (Bool.false_ne_true h).elim, fun ⟨delay, t, hf, _⟩ => (hne _ _ _ hf).elim⟩

/-- The number of tasks that have been deferred to a host in `n` moves. -/
def deferrals (client : Client K M) (m : Machine K M) (host : Host) (n : ℕ) : ℕ :=
  ∑ i ∈ Finset.range n, ((m.run client i).defersTo host).toNat

theorem deferrals_succ (m : Machine K M) (n : ℕ) :
    deferrals client m host (n + 1) =
      deferrals client m host n + ((m.run client n).defersTo host).toNat :=
  Finset.sum_range_succ _ _

variable (host) in
/-- A host gets no more tasks than are deferred to it. -/
theorem length_step (hs : m.step client = some m') :
    (m'.world.contents host).length ≤
      (m.world.contents host).length + (m.defersTo host).toNat := by
  obtain ⟨x, hx⟩ := step_balances client hs
  have handsOut {host' : Host} {ts : List (Task K)} (h : m.world.HandsOut m'.world host' ts) :
      (m'.world.contents host).length ≤ (m.world.contents host).length := by
    by_cases hh : host = host'
    · subst hh
      rw [← h.self.length_eq, List.length_append]
      omega
    · rw [h.others host hh]
  cases x with
  | none => exact (hx.contents host).length_eq.trans_le (Nat.le_add_right _ _)
  | accept host' t =>
    by_cases hh : host = host'
    · subst hh
      obtain ⟨delay, hf, ho⟩ := hx.occasion
      rw [hx.contents.self.length_eq, defersTo_iff.2 ⟨delay, t, hf, ho⟩]
      exact le_rfl
    · rw [hx.contents.others host hh]
      omega
  | start host' t => exact (handsOut hx.contents).trans (Nat.le_add_right _ _)
  | giveUp host' ts => exact (handsOut hx.contents).trans (Nat.le_add_right _ _)
  | lose host' ts => exact (handsOut hx.contents).trans (Nat.le_add_right _ _)

variable (client host) in
theorem length_run (m : Machine K M) (n i : ℕ) :
    ((m.run client (n + i)).world.contents host).length + deferrals client m host n ≤
      ((m.run client n).world.contents host).length + deferrals client m host (n + i) := by
  induction i with
  | zero => exact le_rfl
  | succ i ih =>
    rw [← Nat.add_assoc, run_succ, deferrals_succ]
    cases hs : (m.run client (n + i)).step client with
    | none =>
      rw [Option.getD_none]
      omega
    | some m' =>
      have hlength := length_step host hs
      rw [Option.getD_some]
      omega

variable (client host) in
theorem deferrals_mono (m : Machine K M) {n n' : ℕ} (h : n ≤ n') :
    deferrals client m host n ≤ deferrals client m host n' :=
  Finset.sum_le_sum_of_subset (Finset.range_mono h)

/-! ### Pumping -/

variable {w w' : World K M} {control base : List (Activity K M)} {l : LoopId} {x : ℕ}

variable (client control x) in
/-- A task is begun, and it has left the event loop. -/
theorem step_pump {t : Task K} {turn : ℕ} (h : w.popLoop l = (some (t, turn), w')) :
    ∃ w'', step client ⟨w, control, .pump l x⟩ =
      some ⟨w'', .pumping l x :: control, .begin t⟩ ∧
        (w''.contents (.eventLoop l)).length < (w.contents (.eventLoop l)).length := by
  have hlength := (World.popLoop_handsOut h).self.length_eq
  rw [List.length_append, List.length_singleton] at hlength
  refine ⟨_, by simp only [step, pump, h]; rfl, ?_⟩
  rw [World.contents_observe]
  omega

variable (client control x) in
/-- Pumping begins a task, which leaves the event loop, or it ends with no task left. -/
theorem gets_pump (h : w.Serves (.eventLoop l)) :
    (∃ w' t, Gets client control ⟨w, control, .pump l x⟩
      ⟨w', .pumping l x :: control, .begin t⟩ ∧
        (w'.contents (.eventLoop l)).length < (w.contents (.eventLoop l)).length) ∨
    ∃ w', step client ⟨w, control, .pump l x⟩ =
      some ⟨w', control, .answer (.ok (.count x))⟩ ∧ w'.contents (.eventLoop l) = [] := by
  have hsuffix : control <:+ .pumping l x :: control := List.suffix_cons _ _
  obtain ⟨s, hs⟩ := h
  cases hp : w.popLoop l with
  | mk popped w₁ =>
    cases popped with
    | some popped =>
      obtain ⟨w', hstep, hlt⟩ := step_pump client control x hp
      exact .inl ⟨w', popped.1, .step hstep (List.suffix_refl _) hsuffix, hlt⟩
    | none =>
      have hw₁ : w₁ = w.readClock.2 := by
        rw [World.popLoop_of_loop? hs] at hp
        split at hp <;> cases hp
        rfl
      subst hw₁
      have hs₁ : w.readClock.2.loop? l = some s := hs
      cases hd : s.queue.nextDue with
      | some due =>
        -- The loop waits, and then the task that it has waited for is due.
        have hs₂ : (w.readClock.2.sleepUntil due).loop? l = some s := hs
        have hdue : w.readClock.2.nextDue l = some due := by
          simp [World.nextDue, hs₁, hd]
        have hsleep : step client ⟨w, control, .pump l x⟩ =
            some ⟨w.readClock.2.sleepUntil due, control, .pump l x⟩ := by
          simp only [step, pump, hp, hdue]
          rfl
        obtain ⟨⟨t, queue⟩, hpop⟩ := TimerQueue.popDue_of_nextDue hd
          (World.le_readClock_sleepUntil w.readClock.2 due)
        have hp₂ := World.popLoop_of_loop? hs₂
        rw [hpop] at hp₂
        obtain ⟨w', hstep, hlt⟩ := step_pump client control x hp₂
        rw [World.contents_sleepUntil, World.contents_readClock] at hlt
        exact .inl ⟨w', t, .head hsleep (List.suffix_refl _)
          (.step hstep (List.suffix_refl _) hsuffix), hlt⟩
      | none =>
        have hdue : w.readClock.2.nextDue l = none := by
          simp [World.nextDue, hs₁, hd]
        refine .inr ⟨w.readClock.2, by simp only [step, pump, hp, hdue]; rfl, ?_⟩
        rw [World.contents_readClock, World.contents_loop hs, TimerQueue.tasks_of_nextDue hd]

variable {own : M → A} {J : Job client own} {run : Run K} {c : CellId} {k n B : ℕ}

/-- Pumping comes to an end, with no task left. -/
theorem Undisturbed.gets_idle (hu : Undisturbed client own run base m) (howns : J.Owns run)
    (hrun : run.recipient = .cell c) (hhost : run.host = .eventLoop l)
    (h : Stands client J run c m n k)
    (hB : ∀ n, Lasts client base m n → deferrals client m (.eventLoop l) n ≤ B)
    (hn : Lasts client base m n) (hc : (m.run client n).control = base)
    (hf : (m.run client n).focus = .pump l x) :
    ∃ n' x', Lasts client base m n' ∧ (m.run client n').control = base ∧
      (m.run client n').focus = .answer (.ok (.count x')) ∧
        (m.run client n').world.contents (.eventLoop l) = [] := by
  -- Each task that is begun uses up one of those that wait or are still to be deferred.
  induction hΦ : ((m.run client n).world.contents (.eventLoop l)).length +
      (B - deferrals client m (.eventLoop l) n) using Nat.strong_induction_on
    generalizing n x with
  | _ Φ ih =>
    subst hΦ
    have hserves := hu.serves hn
    rw [hhost] at hserves
    have hrun_n : m.run client n = ⟨(m.run client n).world, base, .pump l x⟩ := by
      rw [← hc, ← hf]
    rcases gets_pump client base x hserves with ⟨w', t, ⟨i, hi, hlasts⟩, hlt⟩ | ⟨w', hs, hempty⟩
    · rw [← hrun_n] at hi hlasts
      rw [← run_add] at hi
      have hn₁ := hn.add hlasts
      have hstands := hu.stands howns hrun h hn₁
      obtain ⟨m', r, ⟨i', rfl, hlasts'⟩, hc', hf'⟩ :=
        hu.begun howns hrun hn₁ hstands (.pumping l x) t (by rw [hi]) (by rw [hi])
      rw [← run_add] at hc' hf'
      have hn₂ := hn₁.add (hlasts'.mono (List.suffix_cons _ _))
      have hs : (m.run client (n + i + i')).step client =
          some ⟨(m.run client (n + i + i')).world, base, .pump l (x + 1)⟩ := by
        rw [step, hf', hc']
        rfl
      have hsucc := run_succ_of_step hs
      have hn₃ := hn₂.step hs (List.suffix_refl _)
      rw [Nat.add_assoc (n + i)] at hsucc hn₃
      have hlength := length_run client (.eventLoop l) m (n + i) (i' + 1)
      have hmono := deferrals_mono client (.eventLoop l) m (Nat.le_add_right n i)
      have hmono' := deferrals_mono client (.eventLoop l) m
        (Nat.le_add_right (n + i) (i' + 1))
      have hbound := hB _ hn₃
      rw [hi] at hlength
      refine ih _ ?_ (hu.stands howns hrun hstands hn₃) hn₃ (by rw [hsucc]) (by rw [hsucc]) rfl
      simp only at hlength
      omega
    · rw [← hrun_n] at hs
      have hsucc := run_succ_of_step hs
      refine ⟨n + 1, x, hn.step hs (List.suffix_refl _), ?_, ?_, ?_⟩
      · rw [hsucc]
      · rw [hsucc]
      · rw [hsucc]
        exact hempty

variable (client) in
/-- What is in the cell is answered, and the loop has nothing to give up. -/
theorem gets_reported (control : List (Activity K M)) (r : Reply K) {result : RunResult K}
    (hcell : w.cell c = .settled result) (hempty : w.contents (.eventLoop l) = []) :
    ∃ w', Gets client control ⟨w, .reporting c :: .sharing l :: control, .answer (.ok r)⟩
      ⟨w', control, .answer (.ok (.settled result))⟩ ∧ w.Keeps client w' := by
  have hc (above : List (Activity K M)) : control <:+ above ++ control := List.suffix_append _ _
  have hreport : step client ⟨w, .reporting c :: .sharing l :: control, .answer (.ok r)⟩ =
      some ⟨w, .sharing l :: control, .answer (.ok (.settled result))⟩ := by
    simp only [step, returnTo, hcell]
    rfl
  have hnil : (w.release l).1 = [] := by
    have hlength := (w.release_handsOut l).self.length_eq
    rw [hempty, List.length_append, List.length_nil] at hlength
    exact List.eq_nil_of_length_eq_zero (by omega)
  have hrelease : step client ⟨w, .sharing l :: control, .answer (.ok (.settled result))⟩ =
      some ⟨(w.release l).2, .replying (.settled result) :: control, .drop []⟩ := by
    simp only [step, returnTo, hnil]
    rfl
  refine ⟨(w.release l).2, .head hreport (hc [_, _]) (.head hrelease (hc [_]) ?_),
    World.keeps_release w l⟩
  exact .head rfl (hc [_]) (.head rfl (hc [_]) (.refl (hc [])))

end Machine

/-- Someone runs a job on an event loop and pumps it. As long as this takes, the loop is there, the
others leave the run alone, and only finitely many tasks are deferred to the loop. -/
structure Job.OnLoop {client : Client K M} {own : M → A} (J : Job client own) (l : LoopId)
    (m : Machine K M) : Prop where
  requested : J.Requested (.blockOn l J.config J.program) m
  undisturbed : Machine.Undisturbed client own (J.awaited m.world (.eventLoop l))
    (.reporting ⟨m.world.cells.size⟩ :: .sharing l :: m.control) (m.run client 1)
  finite : ∃ B, ∀ n, Machine.Lasts client
    (.reporting ⟨m.world.cells.size⟩ :: .sharing l :: m.control) (m.run client 1) n →
      Machine.deferrals client (m.run client 1) (.eventLoop l) n ≤ B

/-- Whoever runs a job on an event loop and pumps it gets the answer that the job delivers. -/
theorem Job.answers_blockOn {client : Client K M} {own : M → A} {J : Job client own} {l : LoopId}
    {m : Machine K M} (h : J.OnLoop l m) :
    J.Answers [.run (J.awaited m.world (.eventLoop l))] m.control m := by
  obtain ⟨hrequested, hu, B, hB⟩ := h
  have hkeeps : m.world.Keeps client
      (Machine.noteBudget client J.config (m.world.share l).openCell.2) :=
    (World.keeps_share m.world l).trans
      ((World.keeps_openCell _).trans (Machine.keeps_noteBudget client J.config _))
  have hi : m.issued = [.run (J.awaited m.world (.eventLoop l))] := by
    rw [Machine.issued, hrequested.focus]
    rfl
  have hs : m.step client = some (m.launch client
      [.thenPump l, .reporting ⟨m.world.cells.size⟩, .sharing l]
      (Machine.noteBudget client J.config (m.world.share l).openCell.2) (.eventLoop l)
      J.config.progressing (.cell ⟨m.world.cells.size⟩) J.program) := by
    rw [Machine.step, hrequested.focus]
    simp only [Machine.perform, World.openCell, World.share_cells]
  obtain ⟨hstart, hstands, n, w, hn, hslice⟩ := Machine.launched hrequested hi hs hkeeps hu
  -- After the first slice the loop is pumped until it is idle.
  have hstep : ((m.run client 1).run client n).step client =
      some ⟨w, .reporting ⟨m.world.cells.size⟩ :: .sharing l :: m.control, .pump l 0⟩ := by
    rw [hslice]
    rfl
  have hsucc := Machine.run_succ_of_step hstep
  have hn' := hn.step hstep (List.suffix_refl _)
  obtain ⟨n', x, hn', hcontrol, hfocus, hempty⟩ := hu.gets_idle ⟨rfl, rfl⟩ rfl rfl
    (hstands _ hn') hB hn' (by rw [hsucc]) (by rw [hsucc])
  -- Nothing waits at the loop, so the outcome must be there.
  cases (hstands n' hn').stage with
  | waits hw =>
    have hwaiting := hw.waiting
    rw [Job.awaited, Job.run, hempty] at hwaiting
    cases hwaiting
  | settled hcell hown _ hends =>
    obtain ⟨w', hg, hkeeps'⟩ := Machine.gets_reported client m.control (.count x) hcell
      hempty
    have hidle : (m.run client 1).run client n' = ⟨((m.run client 1).run client n').world,
        .reporting ⟨m.world.cells.size⟩ :: .sharing l :: m.control, .answer (.ok (.count x))⟩ := by
      rw [← hcontrol, ← hfocus]
    rw [← hidle] at hg
    exact .of_gets hstart (hn'.answers (List.suffix_append [_, _] _) hends hg
      ((J.spares.keeps hkeeps').trans hown))
  | begun _ hf =>
    rw [hfocus] at hf
    simp at hf
  | slice _ hf | handed _ hf | reports _ hf =>
    rw [hfocus] at hf
    cases hf

end LazyEffects
