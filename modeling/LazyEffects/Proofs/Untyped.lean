import LazyEffects.Proofs.Abandonment
import LazyEffects.Proofs.Blocking
import LazyEffects.Proofs.Futures
import LazyEffects.Proofs.Mismatches
import LazyEffects.Proofs.TypedSessions

/-!
# Stages that may not fit, on every host

Of a program that was put together without regard to types, the first stage that does not fit
decides, as `Settles` says. This is so wherever the program is run, however it is cut into slices,
and whether or not panics are stopped, as long as no function panics.

* `Machine.FirstMismatch`: what is reported of a run, what those are told who block on a host, and
  what those are told who have the program driven as a future;
* `Client.firstMismatch`: it holds of every program and every client whose functions are typed.
-/

namespace LazyEffects

open Deed

/-! ### Functions that ask for nothing -/

section

variable {K : Codes} {S : Signature} {M A α : Type} {own : M → A} {s s' : A}

/-- What is done to a part of the memory whatever the rest of it is, may be done among others. -/
theorem Meaning.amidst_of_own {x : Script K M α} {a : α} (h : (Meaning.own own).Runs x s a s')
    (hs : s ∈ Set.range own) : (Meaning.amidst own).Runs x s a s' ∧ s' ∈ Set.range own := by
  obtain ⟨memory, rfl⟩ := hs
  obtain ⟨memory', hends, rfl⟩ := h memory rfl
  exact ⟨hends.leads.may, memory', rfl⟩

theorem Evaluates.amidst {fns : Functions S (Script K M)} {d : ℕ} {e : Effect S} {w : Verdict S}
    {l : List (Deed S)} (h : Evaluates (.own own) fns d e s w l s') (hs : s ∈ Set.range own) :
    Evaluates (.amidst own) fns d e s w l s' ∧ s' ∈ Set.range own := by
  induction h with
  | sync ht =>
    obtain ⟨ht, hs'⟩ := Meaning.amidst_of_own ht hs
    exact ⟨.sync ht, hs'⟩
  | map _ hf ih =>
    obtain ⟨he, hs₁⟩ := ih hs
    obtain ⟨hf, hs'⟩ := Meaning.amidst_of_own hf hs₁
    exact ⟨.map he hf, hs'⟩
  | mapStopped _ ih =>
    obtain ⟨he, hs'⟩ := ih hs
    exact ⟨.mapStopped he, hs'⟩
  | flatMap _ hk _ ih ih' =>
    obtain ⟨he, hs₁⟩ := ih hs
    obtain ⟨hk, hs₂⟩ := Meaning.amidst_of_own hk hs₁
    obtain ⟨he', hs'⟩ := ih' hs₂
    exact ⟨.flatMap he hk he', hs'⟩
  | flatMapRefused _ hk hc ih =>
    obtain ⟨he, hs₁⟩ := ih hs
    obtain ⟨hk, hs'⟩ := Meaning.amidst_of_own hk hs₁
    exact ⟨.flatMapRefused he hk hc, hs'⟩
  | flatMapStopped _ ih =>
    obtain ⟨he, hs'⟩ := ih hs
    exact ⟨.flatMapStopped he, hs'⟩

end

/-! ### Verdicts without a panic -/

/-- How panics are treated makes no difference where there is none. -/
theorem Answer.ofVerdict_of_ne_panicked {S : Signature} {w : Verdict S}
    (hw : ∀ stage p, w ≠ .error (.panicked stage p)) (catching : Bool) :
    Answer.ofVerdict catching w = .ofVerdict true w := by
  cases w with
  | ok v => rfl
  | error c =>
    cases c with
    | mismatched expected => rfl
    | panicked stage p => exact absurd rfl (hw stage p)

theorem Program.told_of_ne_panicked {K : Codes} (program : Program K.signature)
    {w : Verdict K.signature} (hw : ∀ stage p, w ≠ .error (.panicked stage p)) (catching : Bool) :
    program.told catching w = .ok (.settled (program.settle w)) := by
  cases w with
  | ok v => rfl
  | error c =>
    cases c with
    | mismatched expected => rfl
    | panicked stage p => exact absurd rfl (hw stage p)

variable {T : TypedCodes} {Task Completion Handler M A : Type}

namespace Machine

/-- In the first `n` moves the program has become `r`, and the functions of its stages have made of
`own` what it was at some moment of these. -/
def SettledBy (client : Client (T.codes Task Completion Handler) M) (own : M → A)
    (fns : TypedFunctions T (Script (T.codes Task Completion Handler) M))
    (program : Program T.erase) (m : Machine (T.codes Task Completion Handler) M) (n : ℕ)
    (r : Except RunError T.erase.Value) : Prop :=
  ∃ j < n, ∃ l, Settles (.amidst own) fns program (own m.world.memory) r l
    (own (m.run client j).world.memory)

/-- The first stage of the program that does not fit decides what becomes of it on every host. The
functions of the program work on the part `own` of the memory, do not panic there, and may ask for
something. The configuration is any, and whether it has panics stopped does not occur in what
follows. -/
structure FirstMismatch (client : Client (T.codes Task Completion Handler) M)
    (fns : TypedFunctions T (Script (T.codes Task Completion Handler) M))
    (program : Program T.erase) : Prop where
  /-- A run is reported once at most. What is reported is what becomes of the program, or a task of
  the run has been dropped; a failure goes to the error handler and not to the completion callback.
  -/
  reported {A : Type} {own : M → A} {m : Machine (T.codes Task Completion Handler) M}
    {ρ : Run (T.codes Task Completion Handler)} {n : ℕ}
    {x : Except RunError (T.erase.Value × Stats)} : Apart client own ρ program m →
    program.root.Calm (.amidst own) client.functions (own m.world.memory) →
    (m.run client n).focus.reportsOf ρ.id = some x →
    ReportsOnly client m ρ.id x ∧ (m.run client n).Delivers client (m.run client (n + 1)) ρ x ∧
      (SettledBy client own fns program m n (x.map Prod.fst) ∨
        x = .error .abandoned ∧ ∃ j < n, (m.run client j).Discards ρ.id)
  /-- Once nothing of the run waits or is under way, it has been reported or dropped. -/
  finished {A : Type} {own : M → A} {m : Machine (T.codes Task Completion Handler) M}
    {ρ : Run (T.codes Task Completion Handler)} {n : ℕ} : Apart client own ρ program m →
    program.root.Calm (.amidst own) client.functions (own m.world.memory) →
    (m.run client n).live ρ.id = 0 →
    (∃ x, ReportsOnly client m ρ.id x ∧ SettledBy client own fns program m n (x.map Prod.fst)) ∨
      ∃ j ≤ n, (m.run client j).Discards ρ.id
  /-- If the functions ask for nothing and their direct evaluation ends, and the host runs as many
  tasks of the run as there are to be, the run is reported with what becomes of the program. -/
  completes {A : Type} {own : M → A} {m : Machine (T.codes Task Completion Handler) M}
    {ρ : Run (T.codes Task Completion Handler)} {k : ℕ} {w : Verdict T.erase}
    {l : List (Deed T.erase)} {y : A} : Apart client own ρ program m →
    program.root.Calm (.amidst own) client.functions (own m.world.memory) →
    0 < ρ.config.stepBudget → Cuts client ρ m k →
    Evaluates (.own own) client.functions 0 program.root (own m.world.memory) w l y →
    (visited l).length ≤ ρ.config.stepBudget * (k + 1) →
    Settles (.amidst own) fns program (own m.world.memory) (program.settle w) l y ∧
      (∃ stats, ReportsOnly client m ρ.id ((program.settle w).map (·, stats))) ∧
      ∃ N, ∀ n ≥ N, own (m.run client n).world.memory = y
  /-- Those who block on an event loop or on a worker are answered what becomes of the program,
  unless a panic of someone else comes through, a task of the run has been dropped, or the host has
  gone out of service. -/
  blocked {A : Type} {own : M → A} {m : Machine (T.codes Task Completion Handler) M}
    {r : Request (T.codes Task Completion Handler)} {ρ : Run (T.codes Task Completion Handler)}
    {n : ℕ} {a : Except Payload (Reply (T.codes Task Completion Handler))} : m.InSession client →
    Blocks program r → m.focus = .request r → ρ ∈ m.starts →
    Apart client own ρ program (m.run client 1) →
    program.root.Calm (.amidst own) client.functions (own (m.run client 1).world.memory) →
    Answered client m n a → Settled (fun out =>
      SettledBy client own fns program (m.run client 1) n out ∨ out = .error .abandoned ∧
        ∃ j < n, (m.run client j).Discards ρ.id ∨ ¬ (m.run client j).world.Serves ρ.host) a
  /-- Those who have the program driven as a future are answered what becomes of it, and no panic.
  -/
  driven {A : Type} {own : M → A} {m : Machine (T.codes Task Completion Handler) M}
    {config : Config} {n : ℕ} {a : Except Payload (Reply (T.codes Task Completion Handler))} :
    Drives client own config program m n →
    program.root.Calm (.amidst own) client.functions (own m.world.memory) →
    Answered client m n a → ∃ out l, a = .ok (.settled out) ∧
      Settles (.amidst own) fns program (own m.world.memory) out l
        (own (m.run client n).world.memory)
  /-- If the functions ask for nothing and their direct evaluation ends, they are answered. -/
  drives {A : Type} {own : M → A} {m : Machine (T.codes Task Completion Handler) M}
    {config : Config} {w : Verdict T.erase} {l : List (Deed T.erase)} {y : A} :
    m.focus = .request (.runAsync ⟨config, .start program.root, program.result⟩) →
    client.Spares own →
    program.root.Calm (.amidst own) client.functions (own m.world.memory) →
    Evaluates (.own own) client.functions 0 program.root (own m.world.memory) w l y →
    Settles (.amidst own) fns program (own m.world.memory) (program.settle w) l y ∧
      ∃ n, Answered client m n (.ok (.settled (program.settle w))) ∧
        own (m.run client n).world.memory = y

variable {client : Client (T.codes Task Completion Handler) M}
  {fns : TypedFunctions T (Script (T.codes Task Completion Handler) M)} {own : M → A}
  {program : Program T.erase} {m : Machine (T.codes Task Completion Handler) M}
  {ρ : Run (T.codes Task Completion Handler)} {n : ℕ} {a : Answer T.erase}
  {t : Trampoline T.erase}

/-- A program in which no function panics settles. -/
theorem settles_of_evaluates (hfns : client.functions = fns.erase) {w : Verdict T.erase}
    {l : List (Deed T.erase)} {s s' : A}
    (hcalm : program.root.Calm (.amidst own) client.functions s)
    (h : Evaluates (.amidst own) client.functions 0 program.root s w l s') :
    Settles (.amidst own) fns program s (program.settle w) l s' := by
  have hpanic := hcalm w l s' h
  rw [hfns] at h
  exact h.settles (Meaning.amidst_exact own) hpanic

section

variable (hfns : client.functions = fns.erase) (h : Apart client own ρ program m)
  (hcalm : program.root.Calm (.amidst own) client.functions (own m.world.memory))

include hfns h hcalm

/-- The last slice of the run is followed by the report. -/
theorem Apart.reports_of_concludes (hc : (m.run client n).Concludes ρ a t) :
    ∃ w, (m.run client (n + 1)).focus.reportsOf ρ.id =
        some ((program.settle w).map (·, t.stats)) ∧
      SettledBy client own fns program m (n + 1) (program.settle w) := by
  obtain ⟨w, l, rfl, he, -⟩ := (h.ends_of_concludes hc).evaluates h.events
  rw [Answer.ofVerdict_of_ne_panicked (hcalm w l _ he)] at hc
  exact ⟨w, h.reportsOf_of_concludes hc, n, Nat.lt_succ_self n, l,
    settles_of_evaluates hfns hcalm he⟩

theorem Apart.settledBy_of_reportsOf {x : Except RunError (T.erase.Value × Stats)}
    (hx : (m.run client n).focus.reportsOf ρ.id = some x) :
    SettledBy client own fns program m n (x.map Prod.fst) ∨
      x = .error .abandoned ∧ ∃ j < n, (m.run client j).Discards ρ.id := by
  obtain ⟨j, rfl, ⟨a, t, hc, -⟩ | ⟨rfl, hd⟩⟩ := h.reportsOf_cases hx
  · obtain ⟨w, hw, hsettled⟩ := h.reports_of_concludes hfns hcalm hc
    rw [hx] at hw
    obtain rfl := Option.some.inj hw
    have hfst : ((program.settle w).map (·, t.stats)).map Prod.fst = program.settle w := by
      cases program.settle w <;> rfl
    rw [hfst]
    exact .inl hsettled
  · exact .inr ⟨rfl, j, Nat.lt_succ_self j, hd⟩

/-- A run of which nothing waits or is under way any more has been reported or dropped. -/
theorem Apart.reportsOf_of_live (hl : (m.run client n).live ρ.id = 0) :
    (∃ i < n, ∃ w, (∃ stats, (m.run client (i + 1)).focus.reportsOf ρ.id =
        some ((program.settle w).map (·, stats))) ∧
      SettledBy client own fns program m (i + 1) (program.settle w)) ∨
    ∃ j ≤ n, (m.run client j).Discards ρ.id := by
  rcases (h.stands n).fate_of_live hl with ⟨i, hi, a, t, hc, -⟩ | ⟨-, j, hj, hd⟩
  · obtain ⟨w, hw, hsettled⟩ := h.reports_of_concludes hfns hcalm hc
    exact .inl ⟨i, hi, w, ⟨t.stats, hw⟩, hsettled⟩
  · exact .inr ⟨j, hj, hd⟩

end

theorem SettledBy.mono {n' : ℕ} {r : Except RunError T.erase.Value}
    (h : SettledBy client own fns program m n r) (hn : n ≤ n') :
    SettledBy client own fns program m n' r := by
  obtain ⟨j, hj, l, hl⟩ := h
  exact ⟨j, hj.trans_le hn, l, hl⟩

theorem map_fst_map {x : Except RunError T.erase.Value} (stats : Stats) :
    (x.map (·, stats)).map Prod.fst = x := by
  cases x <;> rfl

/-- What those are told who block on a host. -/
theorem Informs.settledBy (hfns : client.functions = fns.erase) {r : Request _}
    (hf : m.focus = .request r) (h : Apart client own ρ program (m.run client 1))
    (hcalm : program.root.Calm (.amidst own) client.functions (own (m.run client 1).world.memory))
    {out : RunResult _} (hout : Informs client ρ m n out) :
    SettledBy client own fns program (m.run client 1) n out ∨ out = .error .abandoned ∧
      ∃ j < n, (m.run client j).Discards ρ.id ∨ ¬ (m.run client j).world.Serves ρ.host := by
  rcases hout with ⟨j, hj, x, hx, rfl⟩ | ⟨rfl, j, hj, hpos, hnone, hover⟩
  · cases j with
    | zero =>
      rw [run, hf] at hx
      cases hx
    | succ j =>
      rw [Nat.add_comm, run_add] at hx
      rcases h.settledBy_of_reportsOf hfns hcalm (reportsOf_eq_some.2 ⟨ρ, hx, rfl⟩) with
        hsettled | ⟨rfl, i, hi, hd⟩
      · exact .inl (hsettled.mono (by omega))
      · rw [← run_add] at hd
        exact .inr ⟨rfl, 1 + i, by omega, .inl hd⟩
  · refine .inr ⟨rfl, ?_⟩
    rcases hover with hl | hserves
    · obtain ⟨j, rfl⟩ := Nat.exists_eq_add_of_le hpos
      rw [run_add] at hl
      rcases h.reportsOf_of_live hfns hcalm hl with ⟨i, hi, w, ⟨stats, hx⟩, -⟩ | ⟨i, hi, hd⟩
      · -- What has come to its end has been reported.
        have hreports := (h.delivers hx).1
        rw [← run_add] at hreports
        exact absurd hreports (hnone _ (by omega) _)
      · rw [← run_add] at hd
        exact ⟨1 + i, by omega, .inl hd⟩
    · exact ⟨j, hj, .inr hserves⟩

end Machine

/-- The first stage that does not fit decides what becomes of a program, on every host and under
every configuration. -/
theorem Client.firstMismatch {client : Client (T.codes Task Completion Handler) M}
    {fns : TypedFunctions T (Script (T.codes Task Completion Handler) M)}
    (hfns : client.functions = fns.erase) (program : Program T.erase) :
    Machine.FirstMismatch client fns program where
  reported h hcalm hx :=
    ⟨h.session.reportsOnly hx, (h.delivers hx).2, h.settledBy_of_reportsOf hfns hcalm hx⟩
  finished h hcalm hl := by
    rcases h.reportsOf_of_live hfns hcalm hl with ⟨i, hi, w, ⟨stats, hx⟩, hsettled⟩ | hd
    · refine .inl ⟨_, h.session.reportsOnly hx, ?_⟩
      rw [Machine.map_fst_map]
      exact hsettled.mono hi
    · exact .inr hd
  completes h hcalm hb hk he hle := by
    have hamidst := (he.amidst ⟨_, rfl⟩).1
    obtain ⟨j, t, hc, -, hy⟩ := h.concludes_of_evaluates hb hk he hle
    rw [Answer.ofVerdict_of_ne_panicked (hcalm _ _ _ hamidst)] at hc
    exact ⟨Machine.settles_of_evaluates hfns hcalm hamidst,
      ⟨t.stats, h.session.reportsOnly (h.reportsOf_of_concludes hc)⟩, j, hy⟩
  blocked hm hr hf hρ h hcalm ha reply hreply := by
    obtain ⟨out, rfl, hout⟩ := hr.told hm hf hρ ha reply hreply
    exact ⟨out, rfl, hout.settledBy hfns hf h hcalm⟩
  driven hd hcalm ha := by
    obtain ⟨w, l, he, rfl⟩ := ha.evaluates hd
    exact ⟨program.settle w, l, program.told_of_ne_panicked (hcalm w l _ he) _,
      Machine.settles_of_evaluates hfns hcalm he⟩
  drives {A own m config w l y} hf hs hcalm he := by
    have hamidst := (he.amidst ⟨_, rfl⟩).1
    have htold := Program.told_of_ne_panicked (K := T.codes Task Completion Handler) program
      (hcalm w l y hamidst) config.catchPanics
    obtain ⟨n, ha, hy⟩ := Machine.answered_of_evaluates hs hf he
    exact ⟨Machine.settles_of_evaluates hfns hcalm hamidst, n, htold ▸ ha, hy⟩

/-! ### A stage that does not fit -/

/-- Codes of functions on numbers and texts. -/
def Mixed : TypedCodes where
  Ty := Bool
  typeName isText := if isText then "text" else "number"
  Carrier _ := Unit
  Thunk _ := Unit
  Transform _ _ := Unit
  Continuation _ _ := Empty

namespace Mixed

open Machine

/-- The codes of a client that does nothing else. -/
abbrev Coded : Codes := TypedCodes.codes Mixed Empty Unit Unit

/-- The number of calls, and the failures that have been handled. -/
abbrev Memory := ℕ × List RunError

/-- A function that counts. -/
def counting : Script Coded Memory (Except Payload Unit) :=
  .update (fun memory => (memory.1 + 1, memory.2)) fun _ => .done (.ok ())

def functions : TypedFunctions Mixed (Script Coded Memory) where
  thunk _ := counting
  transform _ _ := counting
  continuation k _ := k.elim
  observe _ := Script.modify id

def client : Client Coded Memory where
  thunk := functions.erase.thunk
  transform := functions.erase.transform
  continuation := functions.erase.continuation
  task t := t.elim
  discard t := t.elim
  completion _ _ _ := .done (.ok ())
  handler _ e := .update (fun memory => (memory.1, e :: memory.2)) fun _ => .done (.ok ())
  observe _ := id

/-- A number is made a text, then taken for a number, and then the result is made a text. -/
def program : Program Mixed.erase :=
  ⟨.map (.map (.map (.sync ⟨false, ()⟩) ⟨false, true, ()⟩) ⟨false, false, ()⟩) ⟨false, true, ()⟩,
    true⟩

/-- The program is run on an event loop in slices of two nodes, and panics are not stopped. -/
def main : Script Coded Memory Ending :=
  .ask .openLoop fun _ =>
    .ask (.start ⟨.eventLoop ⟨0⟩, ⟨2, .zero, false⟩, .client ()⟩ program ()) fun _ =>
      .ask (.runUntilIdle ⟨0⟩) fun _ => .done (.ok ())

def run : Run Coded :=
  ⟨⟨0⟩, true, .callbacks () (.client ()), .eventLoop ⟨0⟩, ⟨2, .zero, false⟩⟩

/-- The run is about to begin. -/
def session : Machine Coded Memory := (initial (.initial .still (0, [])) main).run client 5

/-- The memory is changed, but not for the run. -/
def interferes (m : Machine Coded Memory) : Bool :=
  match m.focus with
  | .script role (.update f _) =>
    role.tickets.countP (·.isRun run.id) == 0 && (f m.world.memory).1 != m.world.memory.1
  | _ => false

theorem apart : Apart client Prod.fst run program session where
  session := ⟨_, _, _, _, rfl⟩
  focus := by cbv
  result := rfl
  events _ _ := rfl
  spares n role f next hf hrole := by
    have hover : ((session.run client 40).step client).isNone = true := by cbv
    have hn := forall_run hover (fun m => !interferes m) (Nat.zero_le 40) (by cbv) (Nat.zero_le n)
    simp only [interferes, hf, hrole] at hn
    simpa using hn

/-- None of the functions panics. -/
theorem calm : client.functions.Calm (.amidst Prod.fst) fun _ => True where
  thunk _ h := by
    cases h with
    | update h => cases h
  transform {f v _ _ _} _ h := by
    obtain ⟨a, b, f⟩ := f
    obtain ⟨a', v⟩ := v
    cases a <;> cases a' <;> first
      | cases h with
        | update h => cases h
      | cases h
  continuation {k _ _ _ _} _ _ := k.2.2.elim
  uses {k _ _ _ _} _ _ := k.2.2.elim

/-- The leaf and the first transform have been called, and the failure names the type that the
second transform expects. -/
theorem mixed_firstMismatch : client.functions = functions.erase ∧
    ReportsOnly client session run.id (.error (.typeMismatch "number")) ∧
    SettledBy client Prod.fst functions program session 17 (.error (.typeMismatch "number")) ∧
    (session.run client 40).world.memory = (2, [.typeMismatch "number"]) := by
  have hfirst : FirstMismatch client functions program := Client.firstMismatch rfl program
  have hreports : (session.run client 17).focus.reportsOf run.id =
      some (.error (.typeMismatch "number")) := by cbv
  have huses : program.root.Uses fun _ => True := ⟨trivial, trivial, trivial, trivial⟩
  obtain ⟨hone, -, hsettled⟩ := hfirst.reported apart (calm.effect huses _) hreports
  have hsettles : SettledBy client Prod.fst functions program session 17
      (.error (.typeMismatch "number")) :=
    hsettled.resolve_right fun h => absurd h.1 (by simp)
  exact ⟨rfl, hone, hsettles, by cbv⟩

end Mixed

end LazyEffects
