import LazyEffects.Proofs.Refusal
import LazyEffects.Proofs.TurnByTurn

/-!
# The last owner of an event loop

An event loop lives as long as someone owns it. With its last owner it drops what it holds. The
error handlers of the runs that are abandoned in this way may do as they like, also start further
runs there, and a task may own other event loops, which then lose an owner: this one never takes in
anything again.

* `Machine.dropping`: where those are who drop tasks, move by move;
* `Machine.Remains`: what an owner leaves behind who is not the last;
* `Machine.Vanishes`: what happens with the last owner and from then on;
* `Machine.InSession.ends_with_last_owner`: both, in every session.
-/

namespace LazyEffects

open Deed

variable {K : Codes} {M : Type}

namespace Machine

variable {client : Client K M} {m m' : Machine K M} {l : LoopId} {s : EventLoop K} {n d : ℕ}
  {ts rest : List (Task K)} {ρ : Run K} {a : Except Payload (Reply K)}

/-! ### Tasks that are dropped one after the other -/

/-- At the moment `i` something begins that is done for a task that has been dropped: its run is
reported as abandoned, or it gives up what it owns. -/
inductive Undoing (client : Client K M) (m : Machine K M) (i : ℕ) : Prop where
  | handler {ρ : Run K} : (m.run client i).focus = .report ρ .abandoned → Undoing client m i
  | discard {j : ℕ} {t : K.Task} {rest : List (Task K)} : i = j + 1 →
    (m.run client j).focus = .drop (.client t :: rest) → Undoing client m i

theorem Undoing.of_run {i : ℕ} (h : Undoing client (m.run client n) i) :
    Undoing client m (n + i) := by
  cases h with
  | handler hf => exact .handler (by rwa [run_add])
  | @discard j t rest hi hf =>
    subst hi
    exact .discard (j := n + j) rfl (by rwa [run_add])

variable (client) in
/-- Nothing panics that is done for tasks that have been dropped. -/
def Calm (m : Machine K M) : Prop :=
  ∀ {i n : ℕ} {a : Except Payload (Reply K)}, Undoing client m i →
    Answered client (m.run client i) n a → ∃ r, a = .ok r

theorem Calm.run (h : Calm client m) (n : ℕ) : Calm client (m.run client n) := by
  intro i j a hi ha
  rw [← run_add] at ha
  exact h hi.of_run ha

variable (client) in
theorem run_drop_nil (hf : m.focus = .drop []) :
    m.run client 1 = ⟨m.world, m.control, .answer (.ok .done)⟩ := by
  rw [Machine.run, step, hf]
  rfl

/-- What is done first for a task that is dropped. -/
inductive Undoes (client : Client K M) : Task K → Focus K M → Prop where
  | run (f : Fiber K) : Undoes client (.resume f) (.report f.run .abandoned)
  | client (t : K.Task) : Undoes client (.client t) (.script .body (client.discard t))

variable (client) in
/-- What is done with the first of the tasks. -/
theorem run_drop_cons {t : Task K} (hf : m.focus = .drop (t :: rest)) :
    ((m.run client 1).control = .dropping rest :: m.control ∧ Undoing client m 1 ∧
      Undoes client t (m.run client 1).focus) ∨
    (∃ c, t = .signal c) ∧ (m.run client 1).control = m.control ∧
      (m.run client 1).focus = .drop rest := by
  have hrun : m.run client 1 = m.drop client (t :: rest) := by
    rw [Machine.run, step, hf]
    rfl
  cases t with
  | resume f =>
    exact .inl ⟨by rw [hrun]; rfl, .handler (by rw [hrun]; rfl), by rw [hrun]; exact .run f⟩
  | client t => exact .inl ⟨by rw [hrun]; rfl, .discard rfl hf, by rw [hrun]; exact .client t⟩
  | signal c => exact .inr ⟨⟨c, rfl⟩, by rw [hrun]; rfl, by rw [hrun]; rfl⟩

theorem run_dropping {control : List (Activity K M)} {r : Reply K}
    (hc : m.control = .dropping rest :: control) (hf : m.focus = .answer (.ok r)) :
    m.run client 1 = ⟨m.world, control, .drop rest⟩ := by
  rw [Machine.run, step, hf, hc]
  rfl

variable (client) in
/-- The runs of all these tasks have been reported as abandoned in the first `n` moves. -/
def Abandoned (m : Machine K M) (ts : List (Task K)) (n : ℕ) : Prop :=
  ∀ f, .resume f ∈ ts → ∃ i < n, (m.run client i).focus = .report f.run .abandoned

theorem Abandoned.mono {n' : ℕ} (h : Abandoned client m ts n) (hn : n ≤ n') :
    Abandoned client m ts n' := fun f hf =>
  let ⟨i, hi, hreport⟩ := h f hf
  ⟨i, hi.trans_le hn, hreport⟩

theorem Abandoned.concat {t : Task K} (h : Abandoned client m ts n)
    (ht : ∀ f, t = .resume f → ∃ i < n, (m.run client i).focus = .report f.run .abandoned) :
    Abandoned client m (ts ++ [t]) n := by
  intro f hf
  rcases List.mem_append.1 hf with hf | hf
  · exact h f hf
  · exact ht f (List.mem_singleton.1 hf).symm

/-- Where those are after `n` moves who drop the tasks `ts`. -/
inductive Dropping (client : Client K M) (m : Machine K M) (ts : List (Task K)) (n : ℕ) : Prop where
  /-- The tasks `rest` are left. -/
  | drops {before rest : List (Task K)} : ts = before ++ rest → Abandoned client m before n →
    (m.run client n).control = m.control → (m.run client n).focus = .drop rest →
    Dropping client m ts n
  /-- What is done for the next task is not over. -/
  | undoes {before rest : List (Task K)} {t : Task K} {i d : ℕ} :
    ts = before ++ t :: rest → Abandoned client m before n → n = i + d →
    (m.run client i).control = .dropping rest :: m.control → Undoing client m i →
    Undoes client t (m.run client i).focus →
    Unanswered client (m.run client i) d → Dropping client m ts n

theorem Dropping.succ (hcalm : Calm client m) (h : Dropping client m ts n) :
    Dropping client m ts (n + 1) ∨ (m.run client (n + 1)).control = m.control ∧
      (m.run client (n + 1)).focus = .answer (.ok .done) ∧ Abandoned client m ts (n + 1) := by
  cases h with
  | @drops before rest hts hbefore hc hf =>
    have hbefore' := hbefore.mono (Nat.le_succ n)
    cases rest with
    | nil =>
      rw [List.append_nil] at hts
      subst hts
      have hrun : (m.run client n).run client 1 = _ := run_drop_nil client hf
      rw [run_add]
      exact .inr ⟨by rw [hrun, hc], by rw [hrun], hbefore'⟩
    | cons t rest =>
      have hrun := run_drop_cons client hf
      rw [← run_add, hc] at hrun
      rcases hrun with ⟨hc', hundoing, hf'⟩ | ⟨⟨c, rfl⟩, hc', hf'⟩
      · exact .inl (.undoes (d := 0) hts hbefore' rfl hc' hundoing.of_run hf' fun j hj =>
          absurd hj (Nat.not_lt_zero j))
      · refine .inl (.drops (hts.trans (List.append_cons before _ rest))
          (hbefore'.concat fun f hf => ?_) hc' hf')
        cases hf
  | @undoes before rest t i d hts hbefore hn hc hundoing hf hu =>
    subst hn
    have hbefore' := hbefore.mono (Nat.le_succ (i + d))
    by_cases hanswer : ∃ a, (m.run client (i + d)).control = .dropping rest :: m.control ∧
        (m.run client (i + d)).focus = .answer a
    · -- It returns, and the next task is dropped.
      obtain ⟨a, hc', hf'⟩ := hanswer
      rw [run_add] at hc' hf'
      obtain ⟨r, rfl⟩ := hcalm hundoing ⟨hc'.trans hc.symm, hf', hu⟩
      have hrun : ((m.run client i).run client d).run client 1 = _ := run_dropping hc' hf'
      rw [← run_add, ← run_add, ← Nat.add_assoc] at hrun
      refine .inl (.drops (hts.trans (List.append_cons before _ rest)) (hbefore'.concat ?_)
        (by rw [hrun]) (by rw [hrun]))
      intro f ht
      subst ht
      generalize hfocus : (m.run client i).focus = focus at hf
      cases hf
      exact ⟨i, by omega, hfocus⟩
    · refine .inl (.undoes (d := d + 1) hts hbefore' rfl hc hundoing hf ?_)
      intro j hj a hcj hfj
      rcases Nat.lt_succ_iff_lt_or_eq.1 hj with hlt | rfl
      · exact hu j hlt a hcj hfj
      · rw [← run_add] at hcj hfj
        exact hanswer ⟨a, hcj.trans hc, hfj⟩

/-- Those who drop tasks, as long as they have not been answered. -/
theorem dropping (hcalm : Calm client m) (hf : m.focus = .drop ts) (hu : Unanswered client m n) :
    Dropping client m ts n ∨ (m.run client n).control = m.control ∧
      (m.run client n).focus = .answer (.ok .done) ∧ Abandoned client m ts n := by
  induction n with
  | zero =>
    have hnone : Abandoned client m [] 0 := fun f hf => absurd hf List.not_mem_nil
    exact .inl (.drops (List.nil_append ts).symm hnone rfl hf)
  | succ n ih =>
    rcases ih (hu.of_le (Nat.le_succ n)) with h | ⟨hc, hfocus, -⟩
    · exact h.succ hcalm
    · exact absurd hfocus (hu n (Nat.lt_succ_self n) _ hc)

/-- When those who drop tasks are answered, all runs among them have been reported. -/
theorem Answered.dropped (h : Answered client m n a) (hcalm : Calm client m)
    (hf : m.focus = .drop ts) : a = .ok .done ∧ Abandoned client m ts n := by
  have hfocus := h.focus
  rcases dropping hcalm hf h.first with hd | ⟨-, hf', hall⟩
  · cases hd with
    | drops _ _ _ hf' =>
      rw [hfocus] at hf'
      cases hf'
    | undoes _ _ hn hc _ _ hu =>
      have hle := hu.suffix.length_le
      rw [← run_add, ← hn, h.control, hc] at hle
      simp only [List.length_cons] at hle
      omega
  · rw [hfocus] at hf'
    cases hf'
    exact ⟨rfl, hall⟩

/-- If all comes to its end that is done for the tasks, the dropping does. -/
theorem exists_answered_of_drop (hcalm : Calm client m)
    (hreturn : ∀ i, Undoing client m i → ∃ n a, Answered client (m.run client i) n a)
    (hf : m.focus = .drop ts) :
    ∃ n, Answered client m n (.ok .done) := by
  have hall (rest : List (Task K)) : ∀ n, (m.run client n).control = m.control →
      (m.run client n).focus = .drop rest → ∃ N, (m.run client N).control = m.control ∧
        (m.run client N).focus = .answer (.ok .done) := by
    induction rest with
    | nil =>
      intro n hc hf
      have hrun : (m.run client n).run client 1 = _ := run_drop_nil client hf
      rw [← run_add] at hrun
      exact ⟨n + 1, by rw [hrun, hc], by rw [hrun]⟩
    | cons t rest ih =>
      intro n hc hf
      have hrun := run_drop_cons client hf
      rw [← run_add, hc] at hrun
      rcases hrun with ⟨hc', hundoing, -⟩ | ⟨-, hc', hf'⟩
      · obtain ⟨k, a, ha⟩ := hreturn (n + 1) hundoing.of_run
        obtain ⟨r, rfl⟩ := hcalm hundoing.of_run ha
        have hnext : ((m.run client (n + 1)).run client k).run client 1 = _ :=
          run_dropping (ha.control.trans hc') ha.focus
        rw [← run_add, ← run_add] at hnext
        exact ih _ (by rw [hnext]) (by rw [hnext])
      · exact ih (n + 1) hc' hf'
  obtain ⟨N, hc, hfocus⟩ := hall ts 0 rfl hf
  obtain ⟨k, a, -, ha⟩ := exists_answered hc hfocus
  obtain ⟨rfl, -⟩ := ha.dropped hcalm hf
  exact ⟨k, ha⟩

/-- What client code does is no report, unless it is done for something that it asks for. -/
theorem handling (hf : (∃ s, m.focus = .script .body s) ∨ ∃ a, m.focus = .answer a)
    (hu : Unanswered client m d) :
    ((m.run client d).control = m.control ∧
      ((∃ s, (m.run client d).focus = .script .body s) ∨ ∃ a, (m.run client d).focus = .answer a)) ∨
    ∃ next, .code .body next :: m.control <:+ (m.run client d).control := by
  induction d with
  | zero => exact .inl ⟨rfl, hf⟩
  | succ d ih =>
    obtain ⟨m', hstep, hrun, -⟩ := hu.step (Nat.lt_succ_self d)
    rw [hrun]
    rcases ih (hu.of_le (Nat.le_succ d)) with ⟨hc, ⟨s, hs⟩ | ⟨a, ha⟩⟩ | ⟨next, hsuffix⟩
    · cases s with
      | done x =>
        rw [step, hs] at hstep
        cases x <;> cases hstep <;> exact .inl ⟨hc, .inr ⟨_, rfl⟩⟩
      | update f next =>
        rw [step, hs] at hstep
        cases hstep
        exact .inl ⟨hc, .inl ⟨_, rfl⟩⟩
      | ask r next =>
        rw [step, hs] at hstep
        cases hstep
        refine .inr ⟨next, ?_⟩
        rw [← hc]
        exact List.suffix_refl _
    · exact absurd ha (hu d (Nat.lt_succ_self d) a hc)
    · rcases suffix_step hstep hsuffix with hsuffix | ⟨hc, a, ha⟩
      · exact .inr ⟨next, hsuffix⟩
      · rw [step, ha, hc] at hstep
        cases a <;> cases hstep <;> exact .inl ⟨rfl, .inl ⟨_, rfl⟩⟩

variable (client) in
/-- A report is handed to client code, or to nobody. -/
theorem run_report {e : RunError} (hf : m.focus = .report ρ e) :
    (m.run client 1).control = m.control ∧
      ((∃ s, (m.run client 1).focus = .script .body s) ∨
        ∃ a, (m.run client 1).focus = .answer a) := by
  have hrun : m.run client 1 = m.report client ρ e := by
    rw [Machine.run, step, hf]
    rfl
  rw [hrun, report]
  split
  · exact ⟨rfl, .inr ⟨_, rfl⟩⟩
  · exact ⟨rfl, .inl ⟨_, rfl⟩⟩
  · exact ⟨rfl, .inr ⟨_, rfl⟩⟩

/-- What is done for a task that is dropped reports its run and no other, unless it is done for
something that client code asks for. -/
theorem reports_of_undoes {t : Task K} {x : Except RunError (K.signature.Value × Stats)}
    (hf : Undoes client t m.focus) (hu : Unanswered client m d)
    (hx : (m.run client d).focus.reports = some (ρ, x)) :
    x = .error .abandoned ∧ (∃ t', t = .resume ⟨ρ, t'⟩) ∨
      ∃ next, .code .body next :: m.control <:+ (m.run client d).control := by
  generalize hfocus : m.focus = focus at hf
  cases hf with
  | run f =>
    cases d with
    | zero =>
      rw [run, hfocus] at hx
      cases hx
      exact .inl ⟨rfl, f.trampoline, rfl⟩
    | succ d =>
      obtain ⟨hc, hbody⟩ := run_report client hfocus
      have hu' : Unanswered client (m.run client 1) d := fun j hj a hcj hfj => by
        rw [← run_add, Nat.add_comm] at hcj hfj
        exact hu (j + 1) (by omega) a (hcj.trans hc) hfj
      have hhandling := handling hbody hu'
      rw [← run_add, Nat.add_comm 1 d, hc] at hhandling
      rcases hhandling with ⟨-, ⟨s, hs⟩ | ⟨a, ha⟩⟩ | hasks
      · rw [hs] at hx
        cases hx
      · rw [ha] at hx
        cases hx
      · exact .inr hasks
  | client t =>
    rcases handling (.inl ⟨_, hfocus⟩) hu with ⟨-, ⟨s, hs⟩ | ⟨a, ha⟩⟩ | hasks
    · rw [hs] at hx
      cases hx
    · rw [ha] at hx
      cases hx
    · exact .inr hasks

/-- What those report who drop tasks. -/
theorem reports_of_dropping (hcalm : Calm client m) (hf : m.focus = .drop ts)
    (hu : Unanswered client m n) {x : Except RunError (K.signature.Value × Stats)}
    (hx : (m.run client n).focus.reports = some (ρ, x)) :
    x = .error .abandoned ∧ (∃ t, .resume ⟨ρ, t⟩ ∈ ts) ∨
      ∃ next rest, .code .body next :: .dropping rest :: m.control <:+
        (m.run client n).control := by
  rcases dropping hcalm hf hu with hd | ⟨-, hf', -⟩
  · cases hd with
    | drops _ _ _ hf' =>
      rw [hf'] at hx
      cases hx
    | @undoes before rest t i d hts _ hn hc _ hf' hu' =>
      subst hn
      rw [run_add] at hx ⊢
      rcases reports_of_undoes hf' hu' hx with ⟨rfl, t', rfl⟩ | ⟨next, hsuffix⟩
      · exact .inl ⟨rfl, t', by simp [hts]⟩
      · rw [hc] at hsuffix
        exact .inr ⟨next, rest, hsuffix⟩
  · rw [hf'] at hx
    cases hx

/-! ### Owners -/

/-- An ownership of the event loop `l` is given up next, and no panic travels. -/
inductive Releases (l : LoopId) (m : Machine K M) : Prop where
  | request : m.focus = .request (.releaseLoop l) → Releases l m
  | sharing {r : Reply K} {control : List (Activity K M)} : m.control = .sharing l :: control →
    m.focus = .answer (.ok r) → Releases l m

variable (client) in
theorem Releases.next (h : m.Releases l) : (m.run client 1).world = (m.world.release l).2 ∧
    (m.run client 1).focus = .drop (m.world.release l).1 ∧
    (m.run client 1).control.flatMap Activity.tickets = m.inHand := by
  cases h with
  | request hf =>
    rw [Machine.run, step, hf, inHand, hf]
    exact ⟨rfl, rfl, rfl⟩
  | sharing hc hf =>
    rw [Machine.run, step, hf, hc, inHand, hf, hc]
    exact ⟨rfl, rfl, rfl⟩

/-- An owner who is not the last leaves the event loop as it was, and every run where it was. -/
structure Remains (client : Client K M) (l : LoopId) (s : EventLoop K) (m : Machine K M) :
    Prop where
  world : (m.run client 1).world = m.world.setLoop l { s with owners := s.owners - 1 }
  loop : (m.run client 1).world.loop? l = some { s with owners := s.owners - 1 }
  contents : (m.run client 1).world.contents = m.world.contents
  inHand : (m.run client 1).inHand = m.inHand
  /-- Nothing else is done. -/
  answered : m.run client 2 = ⟨(m.run client 1).world, (m.run client 1).control, .answer (.ok .done)⟩

theorem Releases.remains (h : m.Releases l) (hs : m.world.loop? l = some s) (ho : s.owners ≠ 1) :
    Remains client l s m := by
  have hkept : m.world.Kept l := by
    rw [World.Kept, World.owners, hs]
    exact fun heq => ho (Option.some.inj heq)
  obtain ⟨hworld, hf, hinHand⟩ := h.next client
  have hpos := (World.loop?_eq_some hs).2
  rw [World.release_of_kept hkept, hs] at hworld hf
  refine ⟨hworld, ?_, ?_, ?_, ?_⟩
  · rw [hworld, Option.elim_some, World.loop?_setLoop hs, if_pos rfl,
      if_pos (show 0 < s.owners - 1 by omega)]
  · funext host
    rw [hworld, Option.elim_some, World.contents_setLoop hs]
    split
    · rename_i hhost
      rw [if_pos (show 0 < s.owners - 1 by omega), hhost, World.contents_loop hs]
    · rfl
  · rw [Machine.inHand, hf, hinHand]
    rfl
  · exact (run_add m 1 1).trans (run_drop_nil client hf)

/-- What is counted from any moment of the session that comes before: there is one report of the run
`r`, and it is `x`. -/
def ReportedOnce (client : Client K M) (m : Machine K M) (r : RunId)
    (x : Except RunError (K.signature.Value × Stats)) : Prop :=
  ∀ m₀ i, m₀.InSession client → m₀.run client i = m → ReportsOnly client m₀ r x

theorem reportedOnce {r : RunId} {x : Except RunError (K.signature.Value × Stats)}
    (hx : (m.run client n).focus.reportsOf r = some x) : ReportedOnce client m r x := by
  rintro m₀ i h₀ rfl
  rw [← run_add] at hx
  exact h₀.reportsOnly hx

/-- The last owner of an event loop goes. -/
structure Vanishes (client : Client K M) (l : LoopId) (s : EventLoop K) (m : Machine K M) :
    Prop where
  /-- All tasks are dropped, -/
  drops : (m.run client 1).focus = .drop s.queue.tasks
  /-- and when this is over, each run that was pending there has been reported as abandoned. There is
  no other report of it, neither before nor afterwards. -/
  abandons {n : ℕ} {a : Except Payload (Reply K)} : Answered client (m.run client 1) n a →
    a = .ok .done ∧ ∀ ρ t, .resume ⟨ρ, t⟩ ∈ m.world.contents (.eventLoop l) →
      reported client m ρ.id (n + 1) = [.error .abandoned] ∧
        ReportedOnce client m ρ.id (.error .abandoned)
  /-- It is over sooner or later, if all is that is done for the tasks. -/
  ends : (∀ i, Undoing client m i → ∃ n a, Answered client (m.run client i) n a) →
    ∃ n, Answered client (m.run client 1) n (.ok .done)
  /-- Until then nothing is reported of any other run, but for what an error handler, or a task that
  gives up what it owns, has asked for and waits for. -/
  spares {n : ℕ} {ρ : Run K} {x : Except RunError (K.signature.Value × Stats)} :
    Unanswered client (m.run client 1) n →
    (m.run client (1 + n)).focus.reports = some (ρ, x) →
    x = .error .abandoned ∧ (∃ t, .resume ⟨ρ, t⟩ ∈ m.world.contents (.eventLoop l)) ∨
      ∃ next rest, .code .body next :: .dropping rest :: (m.run client 1).control <:+
        (m.run client (1 + n)).control
  /-- From then on the event loop has no owner, and no task goes there or comes from there. -/
  gone {n : ℕ} : 1 ≤ n → (m.run client n).world.loop? l = none ∧
    (m.run client n).world.contents (.eventLoop l) = [] ∧ (m.run client n).enters l = none ∧
      (m.run client n).leaves l = none
  /-- A task that is deferred there is dropped. -/
  refuses {n : ℕ} {delay : Duration} {t : Task K} : 1 ≤ n →
    (m.run client n).focus = .defer (.eventLoop l) delay t →
    (m.run client (n + 1)).focus = .drop [t] ∧
      (m.run client (n + 1)).control = (m.run client n).control
  /-- A run whose slice is suspended is reported as abandoned. -/
  suspends {n : ℕ} {ρ : Run K} {t₀ t : Trampoline K.signature} : 1 ≤ n →
    ρ.host = .eventLoop l → (m.run client n).focus = .script (.slice ⟨ρ, t₀⟩) (.done (.suspended, t)) →
    (m.run client (n + 3)).focus = .report ρ .abandoned ∧
      ReportedOnce client m ρ.id (.error .abandoned)
  /-- A run that begins there, be it in one of the error handlers, has no slice but its first. If it
  is not suspended, it is reported with the outcome of its evaluation, unless a panic that is not to
  be stopped leaves it. -/
  begins {n j : ℕ} {ρ : Run K} {e : Effect K.signature} : 1 ≤ n → n ≤ j →
    ρ.host = .eventLoop l → (m.run client n).focus = .resume ⟨ρ, .start e⟩ →
    (∀ t s, (m.run client j).focus = .script (.slice ⟨ρ, t⟩) s → t = .start e) ∧
    ∀ a t, (m.run client j).Concludes ρ a t →
      (∃ p, a = .unwound p ∧ ρ.config.catchPanics = false) ∨
      ∃ w deeds, Evaluates (.amidst fun _ => ()) client.functions 0 e () w deeds () ∧
        (visited deeds).length ≤ ρ.config.stepBudget ∧
        ReportedOnce client m ρ.id ((Program.settle ⟨e, ρ.result⟩ w).map (·, t.stats))

section

variable (h : m.InSession client) (hr : m.Releases l) (hs : m.world.loop? l = some s)
  (ho : s.owners = 1)

include hr hs ho

theorem Releases.drops : (m.run client 1).focus = .drop s.queue.tasks := by
  rw [(hr.next client).2.1, World.release, hs]
  simp only [ho, if_true]

/-- The event loop is gone for good. -/
theorem Releases.refuses (hn : 1 ≤ n) : (m.run client n).world.Refuses (.eventLoop l) := by
  have hlast : ¬ m.world.Kept l := by
    rw [World.Kept, World.owners, hs, not_not, Option.map_some, ho]
  obtain ⟨i, rfl⟩ := Nat.exists_eq_add_of_le hn
  rw [run_add]
  refine run_refuses client (show (m.run client 1).world.Refuses (.eventLoop l) from ⟨?_, ?_⟩) i
  · have hin : l.index < m.world.loops.size :=
      (Array.getElem?_eq_some_iff.1 (World.loop?_eq_some hs).1).1
    rw [(hr.next client).1, World.release, hs]
    simpa [ho, World.setLoop] using hin
  · rw [(hr.next client).1]
    exact World.loop?_release_last hlast

/-- A slice that is suspended after that was the last of its run. -/
theorem Releases.abandoned_of_suspended (hn : 1 ≤ n) {t₀ t : Trampoline K.signature}
    (hhost : ρ.host = .eventLoop l)
    (hf : (m.run client n).focus = .script (.slice ⟨ρ, t₀⟩) (.done (.suspended, t))) :
    (m.run client (n + 3)).focus = .report ρ .abandoned := by
  have hdefer : (m.run client (n + 1)).focus =
      .defer (.eventLoop l) ρ.config.resumeDelay (.resume ⟨ρ, t⟩) := by
    rw [run_add, Machine.run, step, hf, ← hhost]
    rfl
  obtain ⟨m', hs'⟩ := exists_step client (m := m.run client (n + 1)) (by simp [hdefer])
  have hdrop := (step_defer_of_refuses (hr.refuses hs ho (by omega)) hdefer hs').1
  rw [← run_succ_of_step hs'] at hdrop
  rcases run_drop_cons client hdrop with ⟨-, -, hundoes⟩ | ⟨⟨c, hsignal⟩, -⟩
  · rw [← run_add] at hundoes
    generalize hfocus : (m.run client (n + 1 + 1 + 1)).focus = focus at hundoes
    cases hundoes
    rfl
  · cases hsignal

/-- A run that begins after that has one slice. -/
theorem Releases.concludes_of_begins (h : m.InSession client) (hn : 1 ≤ n) (hj : n ≤ d)
    {e : Effect K.signature} (hhost : ρ.host = .eventLoop l)
    (hf : (m.run client n).focus = .resume ⟨ρ, .start e⟩) :
    (∀ t s, (m.run client d).focus = .script (.slice ⟨ρ, t⟩) s → t = .start e) ∧
    ∀ a t, (m.run client d).Concludes ρ a t →
      (∃ p, a = .unwound p ∧ ρ.config.catchPanics = false) ∨
      ∃ w deeds, Evaluates (.amidst fun _ => ()) client.functions 0 e () w deeds () ∧
        (visited deeds).length ≤ ρ.config.stepBudget ∧
        ReportedOnce client m ρ.id ((Program.settle ⟨e, ρ.result⟩ w).map (·, t.stats)) := by
  have hapart : Apart client (fun _ => ()) ρ ⟨e, ρ.result⟩ (m.run client n) :=
    (h.run n).apart hf rfl
  have hrefuses : (m.run client n).world.Refuses ρ.host := by
    rw [hhost]
    exact hr.refuses hs ho hn
  obtain ⟨i, rfl⟩ := Nat.exists_eq_add_of_le hj
  rw [run_add]
  constructor
  · intro t script hscript
    obtain ⟨x, hc, -⟩ := hapart.slice_of_script hscript
    rw [hapart.handed_of_refuses hrefuses hscript] at hc
    cases hc
    rfl
  · intro a t hc
    obtain ⟨⟨t₀, hdone⟩, ha⟩ := id hc
    have hends := hapart.ends_of_concludes hc
    rw [hapart.handed_of_refuses hrefuses hdone] at hends
    obtain ⟨w, deeds, hverdict, he, hsteps, -, -, hle⟩ := hends.evaluates hapart.events
    -- Whatever is reported is the outcome of the evaluation.
    have hreported {x : Except RunError (K.signature.Value × Stats)}
        (hx : ((m.run client n).run client i).outcome = some (ρ, x)) :
        ∃ w deeds, Evaluates (.amidst fun _ => ()) client.functions 0 e () w deeds () ∧
          (visited deeds).length ≤ ρ.config.stepBudget ∧
          ReportedOnce client m ρ.id ((Program.settle ⟨e, ρ.result⟩ w).map (·, t.stats)) := by
      rw [hverdict] at hc
      have hsettle : x = (Program.settle ⟨e, ρ.result⟩ w).map (·, t.stats) :=
        eq_settle_of_outcome hc rfl hx
      subst hsettle
      rw [Nat.zero_add, Nat.one_mul] at hle
      have hreports := reportsOf_of_outcome hx
      rw [← run_add] at hreports
      exact ⟨w, deeds, he, hle, reportedOnce hreports⟩
    cases a with
    | suspended => exact absurd rfl ha
    | completed v => exact .inr (hreported (by rw [outcome, hdone]))
    | failed failure => exact .inr (hreported (by rw [outcome, hdone]))
    | unwound p =>
      refine .inl ⟨p, rfl, ?_⟩
      by_contra hcatch
      rw [Bool.not_eq_false] at hcatch
      exact hapart.not_unwound hcatch hc

theorem Releases.vanishes (h : m.InSession client) (hcalm : Calm client m) :
    Vanishes client l s m where
  drops := hr.drops hs ho
  abandons {n a} ha := by
    obtain ⟨rfl, hall⟩ := ha.dropped (hcalm.run 1) (hr.drops hs ho)
    refine ⟨rfl, fun ρ t ht => ?_⟩
    rw [World.contents_loop hs] at ht
    obtain ⟨i, hi, hreport⟩ := hall ⟨ρ, t⟩ ht
    rw [← run_add] at hreport
    have hx : (m.run client (1 + i)).focus.reportsOf ρ.id = some (.error .abandoned) :=
      reportsOf_eq_some.2 ⟨ρ, by rw [hreport]; rfl, rfl⟩
    exact ⟨(h.held_of_mem (mem_reported.2 ⟨1 + i, by omega, hx⟩)).2, reportedOnce hx⟩
  ends hreturn := by
    refine exists_answered_of_drop (hcalm.run 1) (fun i hi => ?_) (hr.drops hs ho)
    rw [← run_add]
    exact hreturn (1 + i) hi.of_run
  spares hu hx := by
    rw [run_add] at hx ⊢
    rw [World.contents_loop hs]
    exact reports_of_dropping (hcalm.run 1) (hr.drops hs ho) hu hx
  gone {n} hn := by
    have hrefuses : (m.run client n).world.Refuses (.eventLoop l) := hr.refuses hs ho hn
    exact ⟨hrefuses.2, World.contents_of_refuses hrefuses, enters_of_loop?_none hrefuses.2,
      leaves_of_loop?_none hrefuses.2⟩
  refuses {n delay t} hn hf := by
    obtain ⟨m', hs'⟩ := exists_step client (m := m.run client n) (by simp [hf])
    rw [run_succ_of_step hs']
    exact step_defer_of_refuses (hr.refuses hs ho hn) hf hs'
  suspends hn hhost hf := by
    have hreport := hr.abandoned_of_suspended hs ho hn hhost hf
    exact ⟨hreport, reportedOnce (reportsOf_eq_some.2 ⟨_, by rw [hreport]; rfl, rfl⟩)⟩
  begins hn hj hhost hf := hr.concludes_of_begins hs ho h hn hj hhost hf

end

/-- An event loop ends with its last owner. In every session, one who gives up an ownership and is
not the last leaves everything as it was. The last one, unless a panic travels, drops what the loop
holds: each run that is pending there is reported as abandoned, once, and no other run, but for what
is asked for meanwhile. From then on the loop takes in nothing, and whatever run is started there is
over with its first slice. -/
theorem InSession.ends_with_last_owner (h : m.InSession client) (hcalm : Calm client m)
    (hr : m.Releases l) (hs : m.world.loop? l = some s) :
    (s.owners ≠ 1 → Remains client l s m) ∧ (s.owners = 1 → Vanishes client l s m) :=
  ⟨hr.remains hs, fun ho => hr.vanishes hs ho h hcalm⟩

/-- When the last owner of an event loop goes, nothing but what is pending there is abandoned. -/
def OnlyPending (client : Client K M) : Prop :=
  ∀ {m : Machine K M} {l : LoopId} {s : EventLoop K} {n : ℕ} {ρ : Run K}, m.InSession client →
    Calm client m → m.Releases l → m.world.loop? l = some s → s.owners = 1 →
    Unanswered client (m.run client 1) n → (m.run client (1 + n)).focus = .report ρ .abandoned →
    ∃ t, .resume ⟨ρ, t⟩ ∈ m.world.contents (.eventLoop l)

end Machine

/-! ### Runs that leave something behind -/

/-- Codes for runs that start others when they are abandoned. -/
def Orphans : Codes where
  signature :=
    { Ty := Unit, typeName := fun _ => "unit", Value := Unit, typeOf := fun _ => (), Thunk := Unit,
      Transform := Unit, Continuation := Empty }
  Task := Unit
  Completion := Unit
  Handler := Unit

namespace Orphans

open Machine

def program : Program Orphans.signature := ⟨.map (.sync ()) (), ()⟩

def runtime (onError : ErrorHandler Orphans) : Runtime Orphans :=
  ⟨.eventLoop ⟨0⟩, ⟨1, .zero, true⟩, onError⟩

/-- The error handler starts another run on the event loop and defers a task there. -/
def client : Client Orphans Unit where
  thunk _ := .done (.returned ())
  transform _ _ := .done (.returned ())
  continuation k _ := k.elim
  task _ := .done (.ok ())
  discard _ := .done (.ok ())
  completion _ _ _ := .done (.ok ())
  handler _ _ := .ask (.start (runtime .log) program ()) fun _ =>
    .ask (.defer (.eventLoop ⟨0⟩) .zero ()) fun _ => .done (.ok ())
  observe _ memory := memory

/-- A run is pending on an event loop with two owners, who go one after the other. -/
def main : Script Orphans Unit Ending :=
  .ask .openLoop fun _ => .ask (.shareLoop ⟨0⟩) fun _ =>
    .ask (.start (runtime (.client ())) program ()) fun _ =>
      .ask (.releaseLoop ⟨0⟩) fun _ => .ask (.releaseLoop ⟨0⟩) fun _ => .done (.ok ())

def session : Machine Orphans Unit := initial (.initial .still ()) main

/-- The run `r`, after its first slice. -/
def suspended (r : RunId) (onError : ErrorHandler Orphans) : Fiber Orphans where
  run := ⟨r, (), .callbacks () onError, .eventLoop ⟨0⟩, ⟨1, .zero, true⟩⟩
  trampoline := ⟨some (.sync ()), .push .empty (.map ()), ⟨1, 1, 1⟩⟩

theorem inSession (n : ℕ) : (session.run client n).InSession client := ⟨_, _, _, n, rfl⟩

/-- A panic is passed on. -/
def panics : Focus Orphans Unit → Bool
  | .answer (.error _) => true
  | _ => false

/-- In a session without panics all that is done for tasks returns. -/
theorem calm_of_all {client : Client Orphans Unit} {m : Machine Orphans Unit} {N : ℕ}
    (hover : ((m.run client N).step client).isNone = true)
    (h : (List.range (N + 1)).all (fun n => n < 0 || !panics (m.run client n).focus) = true) :
    Calm client m := by
  intro i n a _ ha
  have hnone := forall_run hover (fun m => !panics m.focus) (Nat.zero_le N) h
    (Nat.zero_le (i + n))
  rw [run_add, ha.focus] at hnone
  cases a with
  | ok r => exact ⟨r, rfl⟩
  | error p => cases hnone

theorem calm : Calm client session := calm_of_all (N := 47) (by cbv) (by cbv)

/-- With the first owner nothing happens. With the last, the run that is pending is reported as
abandoned, and so is the one that its error handler then starts. -/
theorem orphans_end :
    (∃ s, (session.run client 15).world.loop? ⟨0⟩ = some s ∧
      Remains client ⟨0⟩ s (session.run client 15)) ∧
    (∃ s, (session.run client 19).world.loop? ⟨0⟩ = some s ∧
      Vanishes client ⟨0⟩ s (session.run client 19)) ∧
    ReportsOnly client session ⟨0⟩ (.error .abandoned) ∧
      ReportsOnly client session ⟨1⟩ (.error .abandoned) := by
  have hreleases : (session.run client 15).Releases ⟨0⟩ := .request (by cbv)
  have hreleases' : (session.run client 19).Releases ⟨0⟩ := .request (by cbv)
  obtain ⟨s, hs, ho⟩ := Option.map_eq_some_iff.1
    (show ((session.run client 15).world.loop? ⟨0⟩).map EventLoop.owners = some 2 by cbv)
  obtain ⟨s', hs', ho'⟩ := Option.map_eq_some_iff.1
    (show ((session.run client 19).world.loop? ⟨0⟩).map EventLoop.owners = some 1 by cbv)
  have hremains := ((inSession 15).ends_with_last_owner (calm.run 15) hreleases hs).1 (by omega)
  have hvanishes := ((inSession 19).ends_with_last_owner (calm.run 19) hreleases' hs').2 ho'
  have hanswered : Answered client ((session.run client 19).run client 1) 25 (.ok .done) :=
    ⟨by cbv, by cbv, unanswered_of_all (by cbv)⟩
  refine ⟨⟨s, hs, hremains⟩, ⟨s', hs', hvanishes⟩, ?_, ?_⟩
  · have hpending : (session.run client 19).world.contents (.eventLoop ⟨0⟩) =
        [.resume (suspended ⟨0⟩ (.client ()))] := by
      cbv
    have hmem := List.mem_singleton_self (Task.resume (suspended ⟨0⟩ (.client ())))
    rw [← hpending] at hmem
    exact ((hvanishes.abandons hanswered).2 _ _ hmem).2 session 19 (inSession 0) rfl
  · have hslice : ((session.run client 19).run client 8).focus =
        .script (.slice ⟨(suspended ⟨1⟩ .log).run, .start (.map (.sync ()) ())⟩)
          (.done (.suspended, (suspended ⟨1⟩ .log).trampoline)) := by
      cbv
    exact (hvanishes.suspends (by decide) rfl hslice).2 session 19 (inSession 0) rfl

/-- Client code that gives up the second event loop. -/
def release : Script Orphans Unit Ending := .ask (.releaseLoop ⟨1⟩) fun _ => .done (.ok ())

/-- A task owns the second event loop. -/
def owning : Client Orphans Unit :=
  { client with discard := fun _ => release, handler := fun _ _ => .done (.ok ()) }

/-- The error handler gives up the second event loop. -/
def handing : Client Orphans Unit := { client with handler := fun _ _ => release }

/-- A run is pending on each of two event loops, and a task on the first one. The owner of that one
goes. -/
def twoLoops : Machine Orphans Unit := initial (.initial .still ()) <|
  .ask .openLoop fun _ => .ask .openLoop fun _ =>
    .ask (.start ⟨.eventLoop ⟨1⟩, ⟨1, .zero, true⟩, .log⟩ program ()) fun _ =>
      .ask (.start (runtime (.client ())) program ()) fun _ =>
        .ask (.defer (.eventLoop ⟨0⟩) .zero ()) fun _ =>
          .ask (.releaseLoop ⟨0⟩) fun _ => .done (.ok ())

/-- The run that is pending on the second event loop. -/
def other : Run Orphans := ⟨⟨0⟩, (), .callbacks () .log, .eventLoop ⟨1⟩, ⟨1, .zero, true⟩⟩

theorem not_onlyPending_of_report {client : Client Orphans Unit} {n : ℕ}
    (hcalm : Calm client twoLoops) (hreleases : (twoLoops.run client 27).Releases ⟨0⟩)
    (ho : ((twoLoops.run client 27).world.loop? ⟨0⟩).map EventLoop.owners = some 1)
    (hpending : (twoLoops.run client 27).world.contents (.eventLoop ⟨0⟩) =
      [.resume (suspended ⟨1⟩ (.client ())), .client ()])
    (hu : Unanswered client ((twoLoops.run client 27).run client 1) n)
    (hreport : ((twoLoops.run client 27).run client (1 + n)).focus = .report other .abandoned) :
    ¬ OnlyPending client := by
  intro h
  have hm : (twoLoops.run client 27).InSession client := ⟨_, _, _, 27, rfl⟩
  obtain ⟨s, hs, hone⟩ := Option.map_eq_some_iff.1 ho
  obtain ⟨t, ht⟩ := h hm (hcalm.run 27) hreleases hs hone hu hreport
  rw [hpending] at ht
  rcases List.mem_cons.1 ht with heq | hmem
  · cases heq
  · simp at hmem

/-- A task that is dropped may own the other event loop, and so may an error handler: then the run
that is pending there is abandoned as well. -/
theorem not_onlyPending : ¬ OnlyPending owning ∧ ¬ OnlyPending handing :=
  ⟨not_onlyPending_of_report (n := 8) (calm_of_all (N := 45) (by cbv) (by cbv)) (.request (by cbv))
      (by cbv) (by cbv) (unanswered_of_all (by cbv)) (by cbv),
    not_onlyPending_of_report (n := 5) (calm_of_all (N := 45) (by cbv) (by cbv)) (.request (by cbv))
      (by cbv) (by cbv) (unanswered_of_all (by cbv)) (by cbv)⟩

end Orphans

end LazyEffects
