import LazyEffects.Proofs.Awaited
import LazyEffects.Proofs.Courses

/-!
# Where a run stands

Whatever a session does, a run that has begun stands at some point of its course, or it is over
(`Machine.Standing`). It waits at its host, one of its slices is under way, or what is left of it is
being handed over; no move of the others takes it anywhere else.

* `Machine.step_live`: a run that is over stays so;
* `Machine.Standing.step` and `Machine.Apart.stands`: where a run stands, move by move and in a
  whole session;
* `Machine.Apart.ends_of_concludes` and `Machine.Apart.concludes_of_over`: a run comes to the end of
  its course, unless one of its tasks is discarded.
-/

namespace LazyEffects

variable {K : Codes} {M A : Type}

/-- A task of the run `r` is being handed over. -/
def Focus.hands (r : RunId) : Focus K M → Bool
  | defer _ _ t => t.ticket.isRun r
  | _ => false

theorem Ticket.isRun_run (ρ : Run K) : (Ticket.run ρ).isRun ρ.id = true := by simp [isRun]

namespace Machine

variable {client : Client K M} {m m' : Machine K M} {r : RunId}

/-! ### A session -/

variable (client) in
/-- A moment of some session. -/
def InSession (m : Machine K M) : Prop :=
  ∃ clock memory main n, m = (initial (World.initial clock memory) main).run client n

theorem InSession.run (h : m.InSession client) (n : ℕ) : (m.run client n).InSession client := by
  obtain ⟨clock, memory, main, i, rfl⟩ := h
  exact ⟨clock, memory, main, i + n, (run_add _ i n).symm⟩

/-- A run has one ticket at most, and none before it has started. -/
theorem InSession.held_le (h : m.InSession client) (r : RunId) :
    m.held (·.isRun r) ≤ if r.index < m.world.runs then 1 else 0 := by
  obtain ⟨clock, memory, main, n, rfl⟩ := h
  have hbalance := run_held client (initial (World.initial clock memory) main) (·.isRun r) n
  have hnone : (initial (World.initial clock memory) main).held (·.isRun r) = 0 := rfl
  rw [sum_issued _ rfl n r, hnone] at hbalance
  omega

theorem InSession.held_le_one (h : m.InSession client) (r : RunId) : m.held (·.isRun r) ≤ 1 := by
  have hle := h.held_le r
  split at hle <;> omega

/-- A run that holds a ticket has started. -/
theorem InSession.started (h : m.InSession client) (hheld : m.held (·.isRun r) ≠ 0) :
    r.index < m.world.runs := by
  by_contra hr
  have hle := h.held_le r
  rw [if_neg hr] at hle
  omega

/-- A run in hand that has the number of a run that is started is that run. -/
theorem InSession.eq_of_starts {ρ ρ' : Run K} (h : m.InSession client) (hρ : ρ ∈ m.starts) {n : ℕ}
    (hρ' : .run ρ' ∈ (m.run client n).inHand) (hid : ρ'.id = ρ.id) : ρ' = ρ := by
  obtain ⟨clock, memory, main, i, rfl⟩ := h
  rw [← run_add] at hρ'
  obtain ⟨j, -, hj⟩ := exists_start_of_inHand _ rfl rfl hρ'
  exact starts_unique hρ hj hid

theorem issued_of_started (hr : r.index < m.world.runs) : m.issued.countP (·.isRun r) = 0 := by
  rw [issued_countP]
  rcases m.starts_cases with hs | ⟨ρ, hs, hid⟩
  · rw [hs]
    rfl
  · have hne : ρ.id ≠ r := by
      rintro rfl
      rw [hid] at hr
      exact absurd hr (lt_irrefl _)
    rw [hs, List.countP_singleton]
    simp [hne]

/-- A session that is over stays as it is. -/
theorem run_eq_of_le {N n : ℕ} (h : (m.run client N).step client = none) (hn : N ≤ n) :
    m.run client n = m.run client N := by
  induction n, hn using Nat.le_induction with
  | base => rfl
  | succ n _ ih => rw [run_succ, ih, h, Option.getD_none]

/-- In a given session that ends it can be computed what holds from the move `i` on. -/
theorem forall_run {N : ℕ} (hN : ((m.run client N).step client).isNone = true)
    (p : Machine K M → Bool) {i : ℕ} (hi : i ≤ N)
    (h : (List.range (N + 1)).all (fun n => n < i || p (m.run client n)) = true) {n : ℕ}
    (hn : i ≤ n) : p (m.run client n) = true := by
  have hall (j : ℕ) (hj : j ≤ N) (hij : i ≤ j) : p (m.run client j) = true := by
    simpa [Nat.not_lt_of_le hij] using
      List.all_eq_true.1 h j (List.mem_range.2 (Nat.lt_succ_of_le hj))
  rcases Nat.le_total n N with hle | hge
  · exact hall n hle hn
  · rw [run_eq_of_le (Option.isNone_iff_eq_none.1 hN) hge]
    exact hall N le_rfl hi

/-! ### Runs that are over -/

/-- The number of tickets of a run that waits or is being run. -/
def live (m : Machine K M) (r : RunId) : ℕ :=
  m.world.waiting (·.ticket.isRun r) +
    (m.focus.active ++ m.control.flatMap Activity.active).countP (·.isRun r)

/-- The tickets of runs that are being reported or dropped. -/
def doomed (m : Machine K M) : List (Ticket K) :=
  m.focus.completing ++ m.focus.failing ++ (m.focus.dropping ++ m.control.flatMap Activity.dropped)

theorem held_eq (m : Machine K M) (r : RunId) :
    m.held (·.isRun r) = m.live r + m.doomed.countP (·.isRun r) := by
  rw [held, inHand_countP, live, doomed]
  simp only [List.countP_append]
  omega

theorem countP_dropped_of_suffix {l l' : List (Activity K M)} (h : l <:+ l')
    (key : Ticket K → Bool) :
    (l.flatMap Activity.dropped).countP key ≤ (l'.flatMap Activity.dropped).countP key := by
  obtain ⟨l₁, rfl⟩ := h
  rw [List.flatMap_append, List.countP_append]
  omega

/-- Runs that are being reported or dropped go on so until they are reported or lost. -/
theorem step_doomed (h : m.step client = some m') (r : RunId) :
    m.doomed.countP (·.isRun r) ≤
      m'.doomed.countP (·.isRun r) + (m.spent.countP (·.isRun r) + m.lost.countP (·.isRun r)) := by
  rcases step_suffix h with hc | ⟨activity, control, a, hc, hf, hsuffix⟩
  · have hle := countP_dropped_of_suffix hc (·.isRun r)
    obtain ⟨w, control, focus⟩ := m
    cases focus with
    | drop ts =>
      cases h
      cases ts with
      | nil => simp [doomed, drop, Focus.completing, Focus.failing, Focus.dropping]
      | cons t rest =>
        cases t <;> simp [doomed, drop, Focus.completing, Focus.failing, Focus.dropping,
          Activity.dropped, Ticket.isRun, List.countP_cons]
    | complete | report =>
      simp only [doomed, Focus.completing, Focus.failing, Focus.dropping, spent,
        List.countP_append, List.countP_nil] at hle ⊢
      omega
    | _ =>
      simp only [doomed, Focus.completing, Focus.failing, Focus.dropping, List.countP_append,
        List.countP_nil] at hle ⊢
      omega
  · have hle := countP_dropped_of_suffix hsuffix (·.isRun r)
    obtain ⟨w, control', focus⟩ := m
    subst hc hf
    cases activity with
    | dropping rest =>
      cases a with
      | ok reply =>
        cases h
        simp [doomed, returnTo, Focus.completing, Focus.failing, Focus.dropping, Activity.dropped]
      | error p =>
        simp only [doomed, Focus.completing, Focus.failing, Focus.dropping, Activity.dropped, lost,
          List.flatMap_cons, List.countP_append, List.countP_nil] at hle ⊢
        omega
    | _ =>
      simp only [doomed, Focus.completing, Focus.failing, Focus.dropping, Activity.dropped,
        List.flatMap_cons, List.countP_append, List.countP_nil] at hle ⊢
      omega

/-- A run that has started is live no more once it is over. -/
theorem step_live (h : m.step client = some m') (hr : r.index < m.world.runs) :
    m'.live r ≤ m.live r := by
  have hbalance := step_held h (·.isRun r)
  have hdoomed := step_doomed h r
  rw [issued_of_started hr, held_eq, held_eq] at hbalance
  omega

/-- A run whose only ticket is lost, or is that of a report or of a task to be dropped, is over. -/
theorem live_eq_zero (h : m.step client = some m') (hr : r.index < m.world.runs)
    (hheld : m.held (·.isRun r) ≤ 1)
    (hd : m.lost.countP (·.isRun r) + m'.doomed.countP (·.isRun r) ≠ 0) : m'.live r = 0 := by
  have hbalance := step_held h (·.isRun r)
  rw [issued_of_started hr, held_eq m'] at hbalance
  omega

/-- A task of the run `r` is being dropped, or destroyed by a panic that travels or with which a
host refuses it. -/
def Discards (m : Machine K M) (r : RunId) : Prop :=
  m.focus.dropping.countP (·.isRun r) ≠ 0 ∨
    ((∃ p, m.focus = .answer (.error p)) ∨ ∃ host delay t, m.focus = .defer host delay t) ∧
      m.lost.countP (·.isRun r) ≠ 0

/-- A panic that travels hands out nothing: what a host loses is lost. -/
theorem lost_of_lose {p : Payload} {host : Host} {ts : List (Task K)}
    (h : m.step client = some m') (hx : m.Balances m' (.lose host ts))
    (hf : m.focus = .answer (.error p)) (key : Ticket K → Bool) :
    (ts.map Task.ticket).countP key ≤ m.lost.countP key := by
  have hbalance := hx.inHand key
  have hle : m'.inHand.countP key ≤ m.inHand.countP key := by
    obtain ⟨w, control, focus⟩ := m
    cases hf
    cases control with
    | nil => cases h
    | cons activity control =>
      cases h
      cases activity <;> simp [unwindTo]
  have hissued : m.issued = [] := by rw [issued, hf]
  have hspent : m.spent = [] := by rw [spent, hf]
  rw [hissued, hspent] at hbalance
  simp only [Transfer.accepted, Transfer.handedOut, Transfer.lost, List.map_nil, List.nil_append,
    List.countP_nil] at hbalance
  omega

/-- A host takes in what is handed to it, or it is dropped. -/
theorem handOver_cases {w : World K M} (control : List (Activity K M)) (host : Host)
    (delay : Duration) (t : Task K) :
    t ∈ (handOver client ⟨w, control, .defer host delay t⟩ host delay t).world.contents host ∨
      (handOver client ⟨w, control, .defer host delay t⟩ host delay t).focus = .drop [t] := by
  cases host with
  | eventLoop l =>
    cases hs : w.loop? l with
    | none => exact .inr (by simp only [handOver, hs]; rfl)
    | some s =>
      have hs' : w.readClock.2.loop? l = some s := hs
      left
      simp only [handOver, hs, reply_world, World.contents_observe]
      exact (World.setLoop_takesIn hs' _ t).self.mem_iff.2 List.mem_cons_self
  | recording q =>
    by_cases hq : w.hasQueue q
    · left
      simp only [handOver, hq, if_true, reply_world]
      exact (World.setQueue_takesIn hq delay t).self.mem_iff.2 List.mem_cons_self
    · exact .inr (by simp only [handOver, hq]; rfl)
  | discarding => exact .inr rfl
  | worker i =>
    cases hs : (w.worker? i).filter (·.accepts) with
    | none =>
      have hs' : (w.readClock.2.worker? i).filter (·.accepts) = none := hs
      exact .inr (by simp only [handOver, hs']; rfl)
    | some s =>
      have hs' : (w.readClock.2.worker? i).filter (·.accepts) = some s := hs
      have hs'' : w.readClock.2.worker? i = some s := (Option.filter_eq_some_iff.1 hs).1
      left
      simp only [handOver, hs', reply_world]
      exact (World.setWorker_takesIn hs'' (Worker.tasks_send _ _ _)).self.mem_iff.2
        List.mem_cons_self

/-- A task that is deferred is taken in by the host, or dropped, or lost. -/
theorem step_defer_cases {host : Host} {delay : Duration} {t : Task K}
    (h : m.step client = some m') (hf : m.focus = .defer host delay t) :
    (t ∈ m'.world.contents host ∨ m'.focus = .drop [t] ∨
      m'.focus = .answer (.error overflow) ∧ m.lost = [t.ticket]) ∧
      m.world.Keeps client m'.world := by
  induction h using step_induction with
  | overflow w control host delay t ho =>
    cases hf
    exact ⟨.inr (.inr ⟨rfl, by simp [ho]⟩), rfl, le_rfl, fun _ => rfl, [], rfl⟩
  | handOver w control host delay t =>
    cases hf
    refine ⟨?_, handOver_keeps client ⟨w, control, .defer host delay t⟩ host delay t⟩
    rcases handOver_cases control host delay t with hw | hdrop
    · exact .inl hw
    · exact .inr (.inl hdrop)
  | _ => cases hf

/-! ### Where a run stands -/

/-- What is done next leaves `own` alone, unless it is a slice of the run `r`. -/
def SparesBut (own : M → A) (r : RunId) (m : Machine K M) : Prop :=
  ∀ role f next, m.focus = .script role (.update f next) →
    role.tickets.countP (·.isRun r) = 0 → own (f m.world.memory) = own m.world.memory

/-- A slice of the run is over, and it was the last. -/
def Concludes (m : Machine K M) (ρ : Run K) (a : Answer K.signature) (t : Trampoline K.signature) :
    Prop :=
  (∃ t₀, m.focus = .script (.slice ⟨ρ, t₀⟩) (.done (a, t))) ∧ a ≠ .suspended

variable {own : M → A}

variable (client own) in
/-- Where a run stands that has had `k` tasks handed over. What has become of it if it is over is
told by `fate`. -/
inductive Standing (E : Errand K A) (ρ : Run K) (fate : ℕ → Prop) (m : Machine K M) : ℕ → Prop where
  /-- A task of it waits at its host. -/
  | waits {k : ℕ} {t : Trampoline K.signature} :
    .resume ⟨ρ, t⟩ ∈ m.world.contents ρ.host →
    E.Course client own (k + 1) t (own m.world.memory) → Standing E ρ fate m (k + 1)
  /-- A slice is about to begin. -/
  | begun {k : ℕ} {t : Trampoline K.signature} :
    (m.focus = .begin (.resume ⟨ρ, t⟩) ∨ m.focus = .resume ⟨ρ, t⟩) →
    E.Course client own k t (own m.world.memory) → Standing E ρ fate m k
  /-- A slice is being run. -/
  | slice {k : ℕ} {t : Trampoline K.signature} {x : A}
    {s : Script K M (Answer K.signature × Trampoline K.signature)} :
    m.focus = .script (.slice ⟨ρ, t⟩) s → E.Course client own k t x →
    (∀ out memory', s.Leads own m.world.memory out memory' →
      E.Slice client own t x out (own memory')) → Standing E ρ fate m k
  /-- A slice waits for an answer. -/
  | asks {k : ℕ} {t : Trampoline K.signature} {x : A} {next : Except Payload (Reply K) →
      Script K M (Answer K.signature × Trampoline K.signature)} :
    .code (.slice ⟨ρ, t⟩) next ∈ m.control → E.Course client own k t x →
    (∀ answer memory₁ out memory', own memory₁ = own m.world.memory →
      (next answer).Leads own memory₁ out memory' →
      E.Slice client own t x out (own memory')) → Standing E ρ fate m k
  /-- What is left of it is being handed over. -/
  | handed {k : ℕ} {t : Trampoline K.signature} :
    m.focus = .defer ρ.host ρ.config.resumeDelay (.resume ⟨ρ, t⟩) →
    E.Course client own (k + 1) t (own m.world.memory) → Standing E ρ fate m k
  | gone {k : ℕ} : m.live ρ.id = 0 → fate k → Standing E ρ fate m k

variable {E : Errand K A} {ρ : Run K} {fate fate' : ℕ → Prop} {k : ℕ}

theorem Standing.mono (h : Standing client own E ρ fate m k) (ho : fate k → fate' k) :
    Standing client own E ρ fate' m k := by
  cases h with
  | waits hw hc => exact .waits hw hc
  | begun hf hc => exact .begun hf hc
  | slice hf hc hl => exact .slice hf hc hl
  | asks hf hc hl => exact .asks hf hc hl
  | handed hf hc => exact .handed hf hc
  | gone hl h => exact .gone hl (ho h)

theorem hands_of_focus (hm : m.focus.tickets.countP (·.isRun r) = 0) : m.focus.hands r = false := by
  cases hf : m.focus with
  | defer host delay t =>
    rw [hf] at hm
    simpa [Focus.hands] using hm
  | _ => rfl

/-- Of a run that is over, nothing is handed over. -/
theorem hands_of_live (hl : m.live r = 0) : m.focus.hands r = false := by
  rw [live, List.countP_append] at hl
  cases hf : m.focus with
  | defer host delay t =>
    rw [hf] at hl
    simp only [Focus.active, List.countP_singleton] at hl
    simp only [Focus.hands]
    by_contra hne
    simp [hne] at hl
  | _ => rfl

/-- Of a run that waits, nothing is in hand. -/
theorem inHand_of_waits {t : Trampoline K.signature} {host : Host}
    (hheld : m.held (·.isRun ρ.id) ≤ 1) (h : .resume ⟨ρ, t⟩ ∈ m.world.contents host) :
    m.inHand.countP (·.isRun ρ.id) = 0 := by
  have hpos := World.waiting_pos (fun t => t.ticket.isRun ρ.id) h (Ticket.isRun_run ρ)
  rw [held] at hheld
  omega

/-- A slice that waits for an answer has the ticket of its run. -/
theorem tickets_pos_of_asks {control : List (Activity K M)} {t : Trampoline K.signature}
    {next : Except Payload (Reply K) → Script K M (Answer K.signature × Trampoline K.signature)}
    (h : .code (.slice ⟨ρ, t⟩) next ∈ control) :
    0 < (control.flatMap Activity.tickets).countP (·.isRun ρ.id) :=
  List.countP_pos_iff.2
    ⟨.run ρ, List.mem_flatMap.2 ⟨_, h, List.mem_singleton_self _⟩, Ticket.isRun_run ρ⟩

/-- A slice that waits for an answer is under way. -/
theorem active_pos_of_asks {control : List (Activity K M)} {t : Trampoline K.signature}
    {next : Except Payload (Reply K) → Script K M (Answer K.signature × Trampoline K.signature)}
    (h : .code (.slice ⟨ρ, t⟩) next ∈ control) :
    0 < (control.flatMap Activity.active).countP (·.isRun ρ.id) :=
  List.countP_pos_iff.2
    ⟨.run ρ, List.mem_flatMap.2 ⟨_, h, List.mem_singleton_self _⟩, Ticket.isRun_run ρ⟩

/-- Among the tickets of tasks is that of each run that has a task there. -/
theorem tickets_pos_of_mem {ts : List (Task K)} {t : Trampoline K.signature}
    (h : .resume ⟨ρ, t⟩ ∈ ts) : 0 < (ts.map Task.ticket).countP (·.isRun ρ.id) :=
  List.countP_pos_iff.2 ⟨_, List.mem_map_of_mem h, Ticket.isRun_run ρ⟩

/-- While a slice waits for an answer, others act. -/
theorem tickets_of_asks {t : Trampoline K.signature}
    {next : Except Payload (Reply K) → Script K M (Answer K.signature × Trampoline K.signature)}
    (hheld : m.held (·.isRun ρ.id) ≤ 1) (h : .code (.slice ⟨ρ, t⟩) next ∈ m.control) :
    m.focus.tickets.countP (·.isRun ρ.id) = 0 := by
  have hpos := tickets_pos_of_asks h
  rw [held, inHand, List.countP_append] at hheld
  omega

/-- A run that is not live is over. -/
theorem Standing.fate_of_live (h : Standing client own E ρ fate m k) (hl : m.live ρ.id = 0) :
    fate k := by
  rw [live, List.countP_append] at hl
  have hfocus (hf : m.focus.active = [.run ρ]) : False := by
    rw [hf, List.countP_singleton, Ticket.isRun_run] at hl
    simp at hl
  cases h with
  | waits hw =>
    have hpos := World.waiting_pos (fun t => t.ticket.isRun ρ.id) hw (Ticket.isRun_run ρ)
    omega
  | begun hf => rcases hf with hf | hf <;> exact (hfocus (by rw [hf]; rfl)).elim
  | slice hf => exact (hfocus (by rw [hf]; rfl)).elim
  | asks hf =>
    have hpos := active_pos_of_asks hf
    omega
  | handed hf => exact (hfocus (by rw [hf]; rfl)).elim
  | gone _ ho => exact ho

/-- What is to be told of a run that is over, one move later. -/
def Told (client : Client K M) (own : M → A) (E : Errand K A) (ρ : Run K) (fate : ℕ → Prop)
    (m m' : Machine K M) (k : ℕ) : Prop :=
  fate k ∨ (∃ a t, m.Concludes ρ a t ∧ E.Ends client own k a t (own m.world.memory)) ∨
    0 < k ∧ (m.Discards ρ.id ∨ m'.Discards ρ.id)

section

variable (hheld : m.held (·.isRun ρ.id) ≤ 1) (hr : ρ.id.index < m.world.runs)
  (hs : m.step client = some m') (hspares : m.SparesBut own ρ.id) (hclient : client.Spares own)

include hheld hr hs

/-- A run whose task is dropped is over. -/
theorem standing_of_dropping (hd : m'.focus.dropping.countP (·.isRun ρ.id) ≠ 0) :
    Standing client own E ρ (Told client own E ρ fate m m') m' (k + 1) := by
  refine .gone (live_eq_zero hs hr hheld ?_) (.inr (.inr ⟨Nat.succ_pos k, .inr (.inl hd)⟩))
  rw [doomed]
  simp only [List.countP_append]
  omega

/-- A run that waits goes on waiting, or its next slice begins, or its task is discarded. -/
theorem standing_of_waits {t : Trampoline K.signature}
    (h : .resume ⟨ρ, t⟩ ∈ m.world.contents ρ.host)
    (hc : E.Course client own (k + 1) t (own m'.world.memory)) :
    Standing client own E ρ (Told client own E ρ fate m m') m' (k + 1) := by
  obtain ⟨x, hx⟩ := step_balances client hs
  rcases hx.contents.mem h with hstays | rfl | ⟨ts, hts, rfl | rfl⟩
  · exact .waits hstays hc
  · exact .begun (.inl hx.occasion) hc
  · refine standing_of_dropping hheld hr hs ?_
    rw [hx.occasion.1, Focus.dropping]
    exact (tickets_pos_of_mem hts).ne'
  · obtain ⟨⟨p, hf⟩, -⟩ := hx.occasion
    have hle := lost_of_lose hs hx hf (·.isRun ρ.id)
    have hpos := tickets_pos_of_mem hts
    have hlost : m.lost.countP (·.isRun ρ.id) ≠ 0 := by omega
    exact .gone (live_eq_zero hs hr hheld (by omega))
      (.inr (.inr ⟨Nat.succ_pos k, .inl (.inr ⟨.inl ⟨p, hf⟩, hlost⟩)⟩))

/-- With its last slice a run is over. -/
theorem live_of_done {t t' : Trampoline K.signature} {a : Answer K.signature}
    (hf : m.focus = .script (.slice ⟨ρ, t⟩) (.done (a, t'))) (ha : a ≠ .suspended) :
    m'.live ρ.id = 0 := by
  refine live_eq_zero hs hr hheld ?_
  have hfinish : m' = m.afterSlice client ⟨ρ, t⟩ a t' := by
    rw [step, hf] at hs
    exact (Option.some.inj hs).symm
  cases a with
  | suspended => exact absurd rfl ha
  | completed v =>
    rw [hfinish]
    simp only [afterSlice]
    split <;> simp [doomed, Focus.completing, Focus.failing, Ticket.isRun_run]
  | failed e =>
    rw [hfinish]
    simp [afterSlice, doomed, Focus.completing, Focus.failing, Ticket.isRun_run]
  | unwound p =>
    have hlost : m.lost = [.run ρ] := by rw [lost, hf]
    rw [hlost, List.countP_singleton, Ticket.isRun_run]
    simp

/-- A slice that is over either leaves something to be handed over, or it was the last. -/
theorem standing_of_done {t t' : Trampoline K.signature} {x : A} {a : Answer K.signature}
    (hf : m.focus = .script (.slice ⟨ρ, t⟩) (.done (a, t'))) (hc : E.Course client own k t x)
    (hslice : E.Slice client own t x (a, t') (own m.world.memory)) :
    Standing client own E ρ (Told client own E ρ fate m m') m' k := by
  by_cases ha : a = .suspended
  · subst ha
    rw [step, hf] at hs
    cases hs
    exact .handed rfl (.slice hc hslice)
  · exact .gone (live_of_done hheld hr hs hf ha)
      (.inr (.inl ⟨a, t', ⟨⟨t, hf⟩, ha⟩, t, x, hc, hslice, ha⟩))

/-- What is handed over is taken in by the host, or it is dropped or lost. -/
theorem standing_of_handed {t : Trampoline K.signature}
    (hf : m.focus = .defer ρ.host ρ.config.resumeDelay (.resume ⟨ρ, t⟩))
    (hc : E.Course client own (k + 1) t (own m'.world.memory)) :
    Standing client own E ρ (Told client own E ρ fate m m') m' (k + 1) := by
  rcases (step_defer_cases hs hf).1 with hw | hdrop | ⟨-, hlost⟩
  · exact .waits hw hc
  · refine standing_of_dropping hheld hr hs ?_
    rw [hdrop, Focus.dropping]
    simp [Ticket.isRun_run]
  · have hcount : m.lost.countP (·.isRun ρ.id) ≠ 0 := by
      rw [hlost, List.countP_singleton, Task.ticket_resume, Ticket.isRun_run]
      exact one_ne_zero
    exact .gone (live_eq_zero hs hr hheld (by omega))
      (.inr (.inr ⟨Nat.succ_pos k, .inl (.inr ⟨.inr ⟨_, _, _, hf⟩, hcount⟩)⟩))

omit hheld hr in
/-- A slice goes on waiting for its answer, or it is given one. -/
theorem standing_of_asks {t : Trampoline K.signature} {x : A}
    {next : Except Payload (Reply K) → Script K M (Answer K.signature × Trampoline K.signature)}
    (h : .code (.slice ⟨ρ, t⟩) next ∈ m.control) (hc : E.Course client own k t x)
    (hl : ∀ answer memory₁ out memory', own memory₁ = own m'.world.memory →
      (next answer).Leads own memory₁ out memory' → E.Slice client own t x out (own memory')) :
    Standing client own E ρ (Told client own E ρ fate m m') m' k := by
  rcases step_suffix hs with hsuffix | ⟨activity, control, a, hcontrol, hfocus, hsuffix⟩
  · exact .asks (hsuffix.subset h) hc hl
  · rw [hcontrol, List.mem_cons] at h
    rcases h with rfl | h
    · have hslice : m'.focus = .script (.slice ⟨ρ, t⟩) (next a) := by
        rw [Machine.step, hfocus, hcontrol] at hs
        cases a <;> cases hs <;> rfl
      exact .slice hslice hc fun out memory' => hl a _ out memory' rfl
    · exact .asks (hsuffix.subset h) hc hl

include hspares hclient

/-- Where a run stands, move by move. -/
theorem Standing.step (hE : E.config = ρ.config) (h : Standing client own E ρ fate m k) :
    Standing client own E ρ (Told client own E ρ fate m m') m'
      (k + (m.focus.hands ρ.id).toNat) := by
  have hown (hm : m.focus.tickets.countP (·.isRun ρ.id) = 0) :
      own m'.world.memory = own m.world.memory := by
    refine own_step hs (fun role f next hf => hspares role f next hf ?_) hclient
    rwa [hf] at hm
  cases h with
  | @waits k t hw hc =>
    have hhand := inHand_of_waits hheld hw
    rw [inHand, List.countP_append, Nat.add_eq_zero_iff] at hhand
    rw [← hown hhand.1] at hc
    rw [hands_of_focus hhand.1]
    exact standing_of_waits hheld hr hs hw hc
  | @begun k t hf hc =>
    obtain ⟨w, control, focus⟩ := m
    rcases hf with rfl | rfl
    · cases hs
      exact .begun (.inr rfl) hc
    · cases hs
      refine .slice (s := E.slice client t) ?_ hc
        fun out memory' hl => ⟨w.memory, memory', rfl, rfl, hl⟩
      rw [Errand.slice, Errand.budget, hE]
      rfl
  | @slice k t x s hf hc hl =>
    have hhands : m.focus.hands ρ.id = false := by
      rw [hf]
      rfl
    rw [hhands]
    cases s with
    | done out => exact standing_of_done hheld hr hs hf hc (hl out _ .done)
    | update f next =>
      rw [Machine.step, hf] at hs
      cases hs
      exact .slice rfl hc fun out memory' h => hl out memory' (.update h)
    | ask r next =>
      rw [Machine.step, hf] at hs
      cases hs
      exact .asks List.mem_cons_self hc
        fun answer memory₁ out memory' ho h => hl out memory' (.ask ho h)
  | @asks k t x next hf hc hl =>
    have htickets := tickets_of_asks hheld hf
    rw [hands_of_focus htickets]
    have hown := hown htickets
    -- The others leave alone what the slice works on.
    exact standing_of_asks hs hf hc fun answer memory₁ out memory' ho =>
      hl answer memory₁ out memory' (ho.trans hown)
  | @handed k t hf hc =>
    have hhands : m.focus.hands ρ.id = true := by
      rw [hf, Focus.hands]
      exact Ticket.isRun_run ρ
    rw [hhands]
    rw [← hclient.keeps (step_defer_cases hs hf).2] at hc
    exact standing_of_handed hheld hr hs hf hc
  | gone hl ho =>
    have hle := step_live hs hr
    rw [hands_of_live hl]
    exact .gone (by omega) (.inl ho)

end

/-! ### In a session -/

/-- In some session the first slice of a run of `program` is next, and whatever else is done there
leaves alone what the functions of the run work on. -/
structure Apart (client : Client K M) (own : M → A) (ρ : Run K) (program : Program K.signature)
    (m : Machine K M) : Prop where
  session : m.InSession client
  focus : m.focus = .resume ⟨ρ, .start program.root⟩
  result : ρ.result = program.result
  spares (n : ℕ) : (m.run client n).SparesBut own ρ.id
  events : client.Spares own

/-- What is evaluated in a run that begins now. -/
def errand (own : M → A) (ρ : Run K) (program : Program K.signature) (m : Machine K M) :
    Errand K A :=
  ⟨program.root, ρ.config, own m.world.memory⟩

/-- The number of tasks of the run `r` that have been handed over in `n` moves. -/
def handed (client : Client K M) (m : Machine K M) (r : RunId) (n : ℕ) : ℕ :=
  ∑ i ∈ Finset.range n, ((m.run client i).focus.hands r).toNat

theorem handed_succ (m : Machine K M) (r : RunId) (n : ℕ) :
    handed client m r (n + 1) =
      handed client m r n + ((m.run client n).focus.hands r).toNat :=
  Finset.sum_range_succ _ _

/-- What has become of a run that is over after `n` moves: its last slice is over, or one of the
tasks that have been handed over has been discarded. -/
def Over (client : Client K M) (own : M → A) (E : Errand K A) (ρ : Run K) (m : Machine K M)
    (n k : ℕ) : Prop :=
  (∃ j < n, ∃ a t, (m.run client j).Concludes ρ a t ∧
    E.Ends client own k a t (own (m.run client j).world.memory)) ∨
  0 < k ∧ ∃ j ≤ n, (m.run client j).Discards ρ.id

theorem Over.succ {n : ℕ} (h : Over client own E ρ m n k) : Over client own E ρ m (n + 1) k := by
  rcases h with ⟨j, hj, h⟩ | ⟨hk, j, hj, h⟩
  · exact .inl ⟨j, by omega, h⟩
  · exact .inr ⟨hk, j, by omega, h⟩

theorem Over.of_told {n : ℕ} (h : Told client own E ρ (Over client own E ρ m n) (m.run client n)
    (m.run client (n + 1)) k) : Over client own E ρ m (n + 1) k := by
  rcases h with h | ⟨a, t, h⟩ | ⟨hk, h | h⟩
  · exact h.succ
  · exact .inl ⟨n, Nat.lt_succ_self n, a, t, h⟩
  · exact .inr ⟨hk, n, Nat.le_succ n, h⟩
  · exact .inr ⟨hk, n + 1, le_rfl, h⟩

namespace Apart

variable {program : Program K.signature} {n : ℕ} {a : Answer K.signature}
  {t : Trampoline K.signature}

theorem held_le_one (h : Apart client own ρ program m) (n : ℕ) :
    (m.run client n).held (·.isRun ρ.id) ≤ 1 := (h.session.run n).held_le_one _

theorem started (h : Apart client own ρ program m) (n : ℕ) :
    ρ.id.index < (m.run client n).world.runs := by
  have hzero : ρ.id.index < m.world.runs := by
    refine h.session.started ?_
    rw [held, inHand, h.focus]
    simp [Ticket.isRun_run]
  induction n with
  | zero => exact hzero
  | succ n ih =>
    rw [run_runs]
    omega

/-- Where a run stands in a session. -/
theorem stands (h : Apart client own ρ program m) (n : ℕ) :
    Standing client own (m.errand own ρ program) ρ (Over client own (m.errand own ρ program) ρ m n)
      (m.run client n) (handed client m ρ.id n) := by
  induction n with
  | zero => exact .begun (.inr h.focus) .start
  | succ n ih =>
    rw [handed_succ]
    cases hs : (m.run client n).step client with
    | none =>
      -- The session is over, and so nothing is being handed over.
      obtain ⟨-, a, hf⟩ := step_eq_none hs
      rw [run_succ, hs, Option.getD_none, hf]
      exact ih.mono Over.succ
    | some m' =>
      have hstep := ih.step (h.held_le_one n) (h.started n) hs (h.spares n) h.events rfl
      rw [← run_succ_of_step hs] at hstep
      exact hstep.mono Over.of_told

/-- What is done for a run while it has the ticket of the run. -/
theorem stands_of_active (h : Apart client own ρ program m)
    (hactive : (m.run client n).focus.active.countP (·.isRun ρ.id) ≠ 0) :
    (∃ t, ((m.run client n).focus = .begin (.resume ⟨ρ, t⟩) ∨
      (m.run client n).focus = .resume ⟨ρ, t⟩) ∧ (m.errand own ρ program).Course client own
        (handed client m ρ.id n) t (own (m.run client n).world.memory)) ∨
    (∃ t x s, (m.run client n).focus = .script (.slice ⟨ρ, t⟩) s ∧
      (m.errand own ρ program).Course client own (handed client m ρ.id n) t x ∧
        ∀ out memory', s.Leads own (m.run client n).world.memory out memory' →
          (m.errand own ρ program).Slice client own t x out (own memory')) ∨
    ∃ t, (m.run client n).focus = .defer ρ.host ρ.config.resumeDelay (.resume ⟨ρ, t⟩) ∧
      (m.errand own ρ program).Course client own (handed client m ρ.id n + 1) t
        (own (m.run client n).world.memory) := by
  have htickets : (m.run client n).focus.tickets.countP (·.isRun ρ.id) ≠ 0 := by
    cases hf : (m.run client n).focus <;> rw [hf] at hactive <;> first
      | exact hactive
      | exact absurd rfl hactive
  have hstands := h.stands n
  generalize handed client m ρ.id n = k at hstands ⊢
  cases hstands with
  | waits hw hc =>
    have hhand := inHand_of_waits (h.held_le_one n) hw
    rw [inHand, List.countP_append] at hhand
    omega
  | begun hf hc => exact .inl ⟨_, hf, hc⟩
  | slice hf hc hl => exact .inr (.inl ⟨_, _, _, hf, hc, hl⟩)
  | asks hf => exact absurd (tickets_of_asks (h.held_le_one n) hf) htickets
  | handed hf hc => exact .inr (.inr ⟨_, hf, hc⟩)
  | gone hl =>
    rw [live, List.countP_append] at hl
    omega

/-- A slice of the run that is about to begin is one of its course. -/
theorem course_of_resume (h : Apart client own ρ program m)
    (hf : (m.run client n).focus = .resume ⟨ρ, t⟩) :
    (m.errand own ρ program).Course client own (handed client m ρ.id n) t
      (own (m.run client n).world.memory) := by
  have hactive : (m.run client n).focus.active.countP (·.isRun ρ.id) ≠ 0 := by
    rw [hf]
    simp [Focus.active, Ticket.isRun_run]
  rcases h.stands_of_active hactive with ⟨t', hf' | hf', hc⟩ | ⟨t', x, s, hf', -⟩ | ⟨t', hf', -⟩
  · rw [hf] at hf'
    cases hf'
  · rw [hf] at hf'
    cases hf'
    exact hc
  · rw [hf] at hf'
    cases hf'
  · rw [hf] at hf'
    cases hf'

/-- A slice of the run that is under way is one of its course, and it ends as what is left of it. -/
theorem slice_of_script (h : Apart client own ρ program m)
    {s : Script K M (Answer K.signature × Trampoline K.signature)}
    (hf : (m.run client n).focus = .script (.slice ⟨ρ, t⟩) s) :
    ∃ x, (m.errand own ρ program).Course client own (handed client m ρ.id n) t x ∧
      ∀ out memory', s.Leads own (m.run client n).world.memory out memory' →
        (m.errand own ρ program).Slice client own t x out (own memory') := by
  have hactive : (m.run client n).focus.active.countP (·.isRun ρ.id) ≠ 0 := by
    rw [hf]
    simp [Focus.active, Ticket.isRun_run]
  rcases h.stands_of_active hactive with ⟨t', hf', -⟩ | ⟨t', x, s', hf', hc⟩ | ⟨t', hf', -⟩
  · rw [hf] at hf'
    simp at hf'
  · rw [hf] at hf'
    cases hf'
    exact ⟨x, hc⟩
  · rw [hf] at hf'
    cases hf'

/-- What is handed over under the number of the run is what its slices have left. -/
theorem course_of_defer (h : Apart client own ρ program m) {host : Host} {delay : Duration}
    {task : Task K} (hf : (m.run client n).focus = .defer host delay task)
    (ht : task.ticket.isRun ρ.id) :
    ∃ t, (m.run client n).focus = .defer ρ.host ρ.config.resumeDelay (.resume ⟨ρ, t⟩) ∧
      (m.errand own ρ program).Course client own (handed client m ρ.id n + 1) t
        (own (m.run client n).world.memory) := by
  have hactive : (m.run client n).focus.active.countP (·.isRun ρ.id) ≠ 0 := by
    rw [hf]
    simp [Focus.active, ht]
  rcases h.stands_of_active hactive with ⟨t', hf' | hf', -⟩ | ⟨t', x, s, hf', -⟩ | hdefer
  · rw [hf] at hf'
    cases hf'
  · rw [hf] at hf'
    cases hf'
  · rw [hf] at hf'
    cases hf'
  · exact hdefer

/-- A slice of the run that is over is one of its course. -/
theorem slice_of_done (h : Apart client own ρ program m) {t₀ : Trampoline K.signature}
    (hf : (m.run client n).focus = .script (.slice ⟨ρ, t₀⟩) (.done (a, t))) :
    ∃ x, (m.errand own ρ program).Course client own (handed client m ρ.id n) t₀ x ∧
      (m.errand own ρ program).Slice client own t₀ x (a, t)
        (own (m.run client n).world.memory) := by
  obtain ⟨x, hc, hl⟩ := h.slice_of_script hf
  exact ⟨x, hc, hl _ _ .done⟩

/-- A run that comes to an end comes to the end of its course. -/
theorem ends_of_concludes (h : Apart client own ρ program m)
    (hc : (m.run client n).Concludes ρ a t) :
    (m.errand own ρ program).Ends client own (handed client m ρ.id n) a t
      (own (m.run client n).world.memory) := by
  obtain ⟨⟨t₀, hf⟩, ha⟩ := hc
  obtain ⟨x, hcourse, hslice⟩ := h.slice_of_done hf
  exact ⟨t₀, x, hcourse, hslice, ha⟩

/-- A run that is over has come to its end, unless one of its tasks has been discarded. -/
theorem concludes_of_over (h : Apart client own ρ program m)
    (hl : (m.run client n).live ρ.id = 0) (hd : ∀ j ≤ n, ¬ (m.run client j).Discards ρ.id) :
    ∃ j < n, ∃ a t, (m.run client j).Concludes ρ a t := by
  rcases (h.stands n).fate_of_live hl with ⟨j, hj, a, t, hc, -⟩ | ⟨-, j, hj, hd'⟩
  · exact ⟨j, hj, a, t, hc⟩
  · exact absurd hd' (hd j hj)

end Apart

end Machine

/-! ### How a run begins -/

/-- The program of the run that a request starts. -/
def Request.program : Request K → Option (Program K.signature)
  | start _ program _ | blockOn _ _ program | blockOnWorker _ _ program => some program
  | _ => none

namespace Machine

variable {client : Client K M} {m : Machine K M} {ρ : Run K} {r : Request K}
  {program : Program K.signature}

variable (client) in
/-- The first slice of a run that is started is next. -/
theorem begins_of_program (hf : m.focus = .request r) (hp : r.program = some program) :
    ∃ ρ, m.starts = [ρ] ∧ ρ.result = program.result ∧
      (m.run client 1).focus = .resume ⟨ρ, .start program.root⟩ := by
  obtain ⟨w, control, focus⟩ := m
  cases hf
  cases r with
  | start | blockOn | blockOnWorker =>
    cases hp
    refine ⟨_, rfl, rfl, ?_⟩
    simp [Machine.run, step, perform, launch, World.nextRun, World.openCell]
  | _ => cases hp

/-- Only a request that has a program starts a run. -/
theorem exists_program_of_starts (h : ρ ∈ m.starts) :
    ∃ r program, m.focus = .request r ∧ r.program = some program := by
  obtain ⟨w, control, focus⟩ := m
  cases focus with
  | request r =>
    cases r with
    | start | blockOn | blockOnWorker => exact ⟨_, _, rfl, rfl⟩
    | _ => cases h
  | _ => cases h

/-- A moment in a session at which a run begins, if nothing is asked of the memory. -/
theorem InSession.apart (h : m.InSession client) (hf : m.focus = .resume ⟨ρ, .start program.root⟩)
    (hr : ρ.result = program.result) : Apart client (fun _ => ()) ρ program m :=
  ⟨h, hf, hr, fun _ _ _ _ _ _ => rfl, fun _ _ => rfl⟩

/-- The run that a request starts, among the others. -/
theorem InSession.begins (h : m.InSession client) (hf : m.focus = .request r)
    (hp : r.program = some program) (hρ : ρ ∈ m.starts) :
    Apart client (fun _ => ()) ρ program (m.run client 1) := by
  obtain ⟨ρ₀, hs, hresult, hfocus⟩ := begins_of_program client hf hp
  rw [hs, List.mem_singleton] at hρ
  subst hρ
  exact (h.run 1).apart hfocus hresult

end Machine

end LazyEffects
