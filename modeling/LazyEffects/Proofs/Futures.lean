import LazyEffects.Proofs.Standing

/-!
# Futures that are driven

Whoever drives a future polls it until it is ready, and each poll is a slice. What is done between
two polls, and by others while a slice waits for an answer, may be anything, as long as it leaves
alone what the functions of the future work on (`Machine.Drives`).

* `Machine.Answered.evaluates`: what is answered in the end is what a direct evaluation ends with;
* `Machine.answered_of_evaluates`: if the functions ask for nothing and the direct evaluation ends,
  there is an answer.
-/

namespace LazyEffects

open Deed

variable {K : Codes} {M A : Type}

/-- What one is told who has driven the future of a program. Where panics are not stopped, a panic
comes through. -/
def Program.told (p : Program K.signature) (catching : Bool) :
    Verdict K.signature → Except Payload (Reply K)
  | .error (.panicked stage q) =>
    if catching then .ok (.settled (.error (.ofPanic stage q))) else .error q
  | w => .ok (.settled (p.settle w))

/-- What is evaluated in a future that is driven, slice by slice. -/
def Program.driven (p : Program K.signature) (config : Config) (start : A) : Errand K A :=
  ⟨p.root, config.progressing, start⟩

/-- The future of a program, with its evaluation at `t`. -/
def Program.future (p : Program K.signature) (config : Config) (t : Trampoline K.signature) :
    Future K := ⟨config, t, p.result⟩

namespace Machine

variable {client : Client K M} {own : M → A} {m m' : Machine K M} {program : Program K.signature}
  {config : Config} {base : List (Activity K M)} {n : ℕ} {w : Verdict K.signature}
  {l : List (Deed K.signature)} {start x : A}

variable (client program config) in
/-- What is answered after the last slice of a future. -/
theorem afterPoll_ofVerdict (m : Machine K M) (catching : Bool) (w : Verdict K.signature)
    (t t₀ : Trampoline K.signature) :
    let m' := m.afterPoll client (program.future config t₀) (.ofVerdict catching w) t
    m'.focus = .answer (program.told catching w) ∧ m'.control = m.control ∧
      m.world.Keeps client m'.world := by
  cases w with
  | ok v => exact ⟨rfl, rfl, World.keeps_observe _ _⟩
  | error c =>
    cases c with
    | mismatched expected => exact ⟨rfl, rfl, World.keeps_refl _⟩
    | panicked stage p => cases catching <;> exact ⟨rfl, rfl, World.keeps_refl _⟩

/-- No answer of the kind asks to be polled again. -/
theorem step_driving {a : Except Payload (Reply K)} (ha : ∃ w catching, a = program.told catching w)
    (hc : m.control = .driving :: base) (hf : m.focus = .answer a) :
    m.step client = some ⟨m.world, base, .answer a⟩ := by
  obtain ⟨w, catching, rfl⟩ := ha
  rw [step, hf, hc]
  cases w with
  | ok v => rfl
  | error c =>
    cases c with
    | mismatched expected => rfl
    | panicked stage p => cases catching <;> rfl

/-! ### Where a future is that is driven -/

variable (client own program config) in
/-- What has become of a future that someone above the activities of `base` drives. -/
inductive Driven (start : A) (base : List (Activity K M)) (m : Machine K M) : Prop where
  | polls {k : ℕ} {t : Trampoline K.signature} : m.control = .driving :: base →
    m.focus = .poll (program.future config t) →
    (program.driven config start).Course client own k t (own m.world.memory) → Driven start base m
  | slice {k : ℕ} {t : Trampoline K.signature} {x : A}
    {s : Script K M (Answer K.signature × Trampoline K.signature)} :
    m.control = .driving :: base → m.focus = .script (.poll (program.future config t)) s →
    (program.driven config start).Course client own k t x →
    (∀ out memory', s.Leads own m.world.memory out memory' →
      (program.driven config start).Slice client own t x out (own memory')) → Driven start base m
  /-- A slice waits for an answer. -/
  | asks {k : ℕ} {t : Trampoline K.signature} {x : A}
    {next : Except Payload (Reply K) → Script K M (Answer K.signature × Trampoline K.signature)} :
    .code (.poll (program.future config t)) next :: .driving :: base <:+ m.control →
    (program.driven config start).Course client own k t x →
    (∀ answer memory₁ out memory', own memory₁ = own m.world.memory →
      (next answer).Leads own memory₁ out memory' →
      (program.driven config start).Slice client own t x out (own memory')) → Driven start base m
  | pending {k : ℕ} {t : Trampoline K.signature} : m.control = .driving :: base →
    m.focus = .answer (.ok (.pending (program.future config t))) →
    (program.driven config start).Course client own k t (own m.world.memory) → Driven start base m
  /-- It is ready, and the answer is on its way to those of `base`. -/
  | ready {w : Verdict K.signature} {l : List (Deed K.signature)} :
    (m.control = .driving :: base ∨ m.control = base) →
    m.focus = .answer (program.told config.catchPanics w) →
    Evaluates (.amidst own) client.functions 0 program.root start w l (own m.world.memory) →
    Driven start base m

/-- Where a future is after a slice. -/
theorem driven_of_done {k : ℕ} {t : Trampoline K.signature} (hclient : client.Spares own)
    (hc : m.control = .driving :: base)
    (hcourse : (program.driven config start).Course client own k t x)
    {out : Answer K.signature × Trampoline K.signature}
    (hslice : (program.driven config start).Slice client own t x out (own m.world.memory)) :
    Driven client own program config start base
      (m.afterPoll client (program.future config t) out.1 out.2) := by
  obtain ⟨a, t'⟩ := out
  by_cases ha : a = .suspended
  · subst ha
    exact .pending hc rfl (.slice hcourse hslice)
  · have hends : (program.driven config start).Ends client own k a t' (own m.world.memory) :=
      ⟨t, x, hcourse, hslice, ha⟩
    obtain ⟨w, l, rfl, he, -⟩ := hends.evaluates hclient
    obtain ⟨hf, hcontrol, hkeeps⟩ :=
      afterPoll_ofVerdict client program config m config.catchPanics w t' t
    rw [← hclient.keeps hkeeps] at he
    exact .ready (.inl (hcontrol.trans hc)) hf he

/-- What becomes of a future that is driven, move by move. -/
theorem Driven.step (h : Driven client own program config start base m)
    (hs : m.step client = some m') (hclient : client.Spares own)
    (hspares : m.control ≠ .driving :: base → ∀ role f next,
      m.focus = .script role (.update f next) → own (f m.world.memory) = own m.world.memory)
    (hbase : ∀ a, m.control = base → m.focus ≠ .answer a) :
    Driven client own program config start base m' := by
  cases h with
  | polls hc hf hcourse =>
    obtain ⟨w, control, focus⟩ := m
    cases hc
    cases hf
    cases hs
    exact .slice rfl rfl hcourse fun out memory' hl => ⟨w.memory, memory', rfl, rfl, hl⟩
  | @slice k t x s hc hf hcourse hl =>
    rw [Machine.step, hf] at hs
    cases s with
    | done out =>
      cases hs
      exact driven_of_done hclient hc hcourse (hl out _ .done)
    | update f next =>
      cases hs
      exact .slice hc rfl hcourse fun out memory' h => hl out memory' (.update h)
    | ask r next =>
      cases hs
      have hsuffix : .code (.poll (program.future config t)) next :: .driving :: base <:+
          .code (.poll (program.future config t)) next :: m.control := by rw [hc]
      exact .asks hsuffix hcourse fun answer memory₁ out memory' ho h =>
        hl out memory' (.ask ho h)
  | @asks k t x next hsuffix hcourse hl =>
    rcases suffix_step hs hsuffix with hsuffix' | ⟨hc, a, hf⟩
    · -- The others leave alone what the slice works on.
      have hne : m.control ≠ .driving :: base := fun hc => by
        have := hsuffix.length_le
        simp [hc] at this
      have hown := own_step hs (hspares hne) hclient
      exact .asks hsuffix' hcourse fun answer memory₁ out memory' ho =>
        hl answer memory₁ out memory' (ho.trans hown)
    · rw [Machine.step, hf, hc] at hs
      cases a <;> cases hs <;>
        exact .slice rfl rfl hcourse fun out memory' => hl _ _ out memory' rfl
  | pending hc hf hcourse =>
    rw [Machine.step, hf, hc] at hs
    cases hs
    exact .polls rfl rfl hcourse
  | @ready w l hc hf he =>
    rcases hc with hc | hc
    · rw [step_driving ⟨w, _, rfl⟩ hc hf] at hs
      cases hs
      exact .ready (.inr rfl) rfl he
    · exact absurd hf (hbase _ hc)

/-- Those of `base` have been answered what a direct evaluation ends with. -/
theorem Driven.evaluates {a : Except Payload (Reply K)}
    (h : Driven client own program config start base m) (hc : m.control = base)
    (hf : m.focus = .answer a) : ∃ w l,
      Evaluates (.amidst own) client.functions 0 program.root start w l (own m.world.memory) ∧
        a = program.told config.catchPanics w := by
  have hlonger (hsuffix : .driving :: base <:+ m.control) : False := by
    have := hsuffix.length_le
    simp [hc] at this
  cases h with
  | polls hc' | slice hc' | pending hc' => exact (hlonger (hc' ▸ List.suffix_refl _)).elim
  | asks hsuffix => exact (hlonger ((List.suffix_cons _ _).trans hsuffix)).elim
  | ready _ hf' he =>
    rw [hf] at hf'
    cases hf'
    exact ⟨_, _, he, rfl⟩

/-! ### From the beginning to the answer -/

/-- Someone begins to drive the future of a program, and of what is done in the next `n` moves all
but its slices leaves alone what its functions work on. -/
structure Drives (client : Client K M) (own : M → A) (config : Config)
    (program : Program K.signature) (m : Machine K M) (n : ℕ) : Prop where
  focus : m.focus = .request (.runAsync (program.future config (.start program.root)))
  spares {j : ℕ} {role : Role K} {f : M → M} {next : M → Script K M role.Ending} : j < n →
    (m.run client j).focus = .script role (.update f next) →
    (m.run client j).control ≠ .driving :: m.control →
    own (f (m.run client j).world.memory) = own (m.run client j).world.memory
  events : client.Spares own

/-- If nothing is asked of the memory, this asks nothing of the others. -/
theorem drives_of_focus
    (hf : m.focus = .request (.runAsync (program.future config (.start program.root)))) (n : ℕ) :
    Drives client (fun _ => ()) config program m n := ⟨hf, fun _ _ _ => rfl, fun _ _ => rfl⟩

variable (client) in
/-- Whoever has a future driven lets it be polled. -/
theorem run_one_of_runAsync {f : Future K} (hf : m.focus = .request (.runAsync f)) :
    m.run client 1 = ⟨m.world, .driving :: m.control, .poll f⟩ := by
  have hs : m.step client = some (m.perform client (.runAsync f)) := by rw [Machine.step, hf]
  exact run_succ_of_step (n := 0) hs

/-- The answer to those who have the future of a program driven is what a direct evaluation of the
program ends with. -/
theorem Answered.evaluates {a : Except Payload (Reply K)}
    (h : Answered client m n a) (hd : Drives client own config program m n) : ∃ w l,
      Evaluates (.amidst own) client.functions 0 program.root (own m.world.memory) w l
        (own (m.run client n).world.memory) ∧ a = program.told config.catchPanics w := by
  have hdriven : Driven client own program config (own m.world.memory) m.control
      (m.run client n) := by
    refine h.first.of_step (h.pos hd.focus) ?_ fun j hj hj' m' hs hbase =>
      hj'.step hs hd.events (fun hc role f next hf => hd.spares hj hf hc) hbase
    rw [run_one_of_runAsync client hd.focus]
    exact .polls rfl rfl .start
  exact hdriven.evaluates h.control h.focus

variable (program config base) in
/-- A future whose evaluation ends is polled until it is ready. -/
theorem gets_told (hs : client.Spares own) (world : World K M) {t : Trampoline K.signature}
    {e : Effect K.signature} (he : t.current = some e)
    (hc : Completes (.own own) client.functions e t.stack.list (own world.memory) w l x) :
    ∃ world', own world'.memory = x ∧ Gets client (.driving :: base)
      ⟨world, .driving :: base, .poll (program.future config t)⟩
      ⟨world', .driving :: base, .answer (program.told config.catchPanics w)⟩ := by
  induction hn : (visited l).length using Nat.strong_induction_on generalizing world t e l with
  | _ n ih =>
  have hslice : t.runSlice client.functions config.catchPanics (max config.stepBudget 1) =
      Trampoline.descend client.functions config.catchPanics (max config.stepBudget 1) e t.stack
        t.stats := by rw [Trampoline.runSlice, he]
  -- The script of the slice, up to its end.
  have hpoll {a : Answer K.signature} {t' : Trampoline K.signature} {y : A}
      (hr : (Meaning.own own).Runs (Trampoline.descend client.functions config.catchPanics
        (max config.stepBudget 1) e t.stack t.stats) (own world.memory) (a, t') y) :
      ∃ memory', own memory' = y ∧ Gets client (.driving :: base)
        ⟨world, .driving :: base, .poll (program.future config t)⟩
        ⟨{ world with memory := memory' }, .driving :: base,
          .script (.poll (program.future config t)) (.done (a, t'))⟩ := by
    rw [← hslice] at hr
    obtain ⟨memory', hends, rfl⟩ := hr world.memory rfl
    exact ⟨memory', rfl, .head rfl (List.suffix_refl _) (gets_script hends)⟩
  rcases Trampoline.descend_of_completes config.catchPanics hs.silent (max config.stepBudget 1)
      t.stats hc with ⟨-, rest, hr⟩ | ⟨-, e₁, rest, y, l₁, l₂, hr, rfl, hl₁, hc₁⟩
  · obtain ⟨memory', rfl, hgets⟩ := hpoll hr
    obtain ⟨hf, hcontrol, hkeeps⟩ := afterPoll_ofVerdict client program config
      ⟨{ world with memory := memory' }, .driving :: base,
        .script (.poll (program.future config t))
          (.done (.ofVerdict config.catchPanics w, ⟨none, rest, t.stats.after l⟩))⟩
      config.catchPanics w ⟨none, rest, t.stats.after l⟩ t
    generalize hm : afterPoll client _ (program.future config t) _ _ = m' at hf hcontrol hkeeps
    obtain ⟨world', control, focus⟩ := m'
    cases hf
    cases hcontrol
    exact ⟨world', hs.keeps hkeeps, hgets.trans (.step (congrArg some hm) (List.suffix_refl _)
      (List.suffix_refl _))⟩
  · obtain ⟨memory', rfl, hgets⟩ := hpoll hr
    have hpos : 0 < (visited l₁).length := hl₁ ▸ lt_max_of_lt_right Nat.one_pos
    have hlt : (visited l₂).length < n := by
      rw [← hn, visited_append, List.length_append]
      omega
    set world₁ : World K M := { world with memory := memory' } with hworld₁
    set world₂ : World K M :=
      world₁.readClock.2.sleepUntil (world₁.readClock.1 + config.resumeDelay.nanos) with hworld₂
    obtain ⟨world', hx, hrest⟩ := ih _ hlt world₂
      (t := ⟨some e₁, rest, (t.stats.after l₁).suspend⟩) rfl hc₁ rfl
    refine ⟨world', hx, hgets.trans (.head rfl (List.suffix_refl _) ?_)⟩
    exact .head rfl (List.suffix_refl _) hrest

/-- Those who have the future of a program driven are answered if the direct evaluation of the
program ends. -/
theorem answered_of_evaluates (hs : client.Spares own)
    (hf : m.focus = .request (.runAsync (program.future config (.start program.root))))
    (he : Evaluates (.own own) client.functions 0 program.root (own m.world.memory) w l x) :
    ∃ n, Answered client m n (program.told config.catchPanics w) ∧
      own (m.run client n).world.memory = x := by
  have hone := run_one_of_runAsync client hf
  obtain ⟨world', hx, i, hi, hlasts⟩ := gets_told program config m.control hs m.world
    (t := .start program.root) rfl (completes_nil_iff.2 he)
  rw [← hone] at hi hlasts
  rw [← run_add] at hi
  have hlast : m.run client (1 + i + 1) =
      ⟨world', m.control, .answer (program.told config.catchPanics w)⟩ := by
    rw [run_succ_of_step (by rw [hi]; exact step_driving ⟨w, _, rfl⟩ rfl rfl)]
  refine ⟨1 + i + 1, ⟨by rw [hlast], by rw [hlast], fun j hj a hc hfa => ?_⟩, by rwa [hlast]⟩
  cases j with
  | zero =>
    rw [run, hf] at hfa
    cases hfa
  | succ j =>
    -- Until then there is someone above them who drives the future.
    have hsuffix := (hlasts j (by omega)).length_le
    rw [← run_add, Nat.add_comm 1 j, hc] at hsuffix
    simp at hsuffix

end Machine

end LazyEffects
