import LazyEffects.Proofs.Standing
import Mathlib

/-!
# Runs do not influence each other

A run whose functions ask for nothing and keep to a part of the memory that the others leave alone
ends as it does by itself. It does not matter what else is run at its host, in which order tasks are
taken up, and which tasks of others are discarded, fail or panic.

* `Machine.Apart.unique_end`: two sessions bring a run to the same end;
* `Errand.Ends.gets_alone`: a run that is alone on a new recording host comes to that end;
* `Machine.Apart.independent`: both, with the end being reached unless a task of the run itself is
  discarded.
-/

namespace LazyEffects

variable {K : Codes} {M A : Type}

/-- Make a recording host, start a run there and fire its tasks, up to `n` times. -/
def Script.alone (config : Config) (onError : ErrorHandler K) (program : Program K.signature)
    (onDone : K.Completion) (n : ℕ) : Script K M Ending :=
  .ask .openQueue fun
    | .ok (.openedQueue q) =>
      .ask (.start ⟨.recording q, config, onError⟩ program onDone) fun _ => fireAll q n
    | _ => .done (.ok ())

/-- The run that is alone on a new recording host. -/
def Run.alone (config : Config) (onError : ErrorHandler K) (program : Program K.signature)
    (onDone : K.Completion) : Run K :=
  ⟨⟨0⟩, program.result, .callbacks onDone onError, .recording ⟨0⟩, config⟩

/-- How a run ends: with the answer of its last slice and the counters at that moment. -/
structure RunEnd (K : Codes) (A : Type) where
  answer : Answer K.signature
  stats : Stats
  /-- What the functions of the run leave of what they work on, be it a log of what they have
  done. -/
  own : A
  /-- What is reported next. An uncaught panic is not reported. -/
  report : Option (Except RunError (K.signature.Value × Stats))

namespace Machine

variable {client : Client K M} {own : M → A} {m m' : Machine K M} {ρ ρ' : Run K}
  {a : Answer K.signature} {t t' : Trampoline K.signature}

/-- After `n` moves the last slice of the run is over, and so the run ends. -/
def EndsWith (client : Client K M) (own : M → A) (ρ : Run K) (m : Machine K M) (n : ℕ)
    (e : RunEnd K A) : Prop :=
  ∃ t, (m.run client n).Concludes ρ e.answer t ∧ t.stats = e.stats ∧
    own (m.run client n).world.memory = e.own ∧
      (m.run client (n + 1)).focus.reports.map Prod.snd = e.report

/-- What is reported follows from the answer of the last slice. -/
theorem outcome_of_concludes (h : m.Concludes ρ a t) (h' : m'.Concludes ρ' a t)
    (hr : ρ'.result = ρ.result) : m'.outcome.map Prod.snd = m.outcome.map Prod.snd := by
  obtain ⟨⟨t₀, hf⟩, -⟩ := h
  obtain ⟨⟨t₀', hf'⟩, -⟩ := h'
  rw [outcome, outcome, hf, hf']
  cases a <;> simp [hr]

section

variable {program : Program K.signature} {codes : UserCode K.signature → Prop} {n n' : ℕ}

/-- Two sessions bring a run to the same end. -/
theorem Apart.unique_end (h : Apart client own ρ program m) (h' : Apart client own ρ' program m')
    (hf : client.functions.Confined (.own own) codes) (hroot : program.root.Uses codes)
    (hconfig : ρ'.config = ρ.config) (hown : own m'.world.memory = own m.world.memory)
    {e e' : RunEnd K A} (he : EndsWith client own ρ m n e)
    (he' : EndsWith client own ρ' m' n' e') : e' = e := by
  obtain ⟨t, hc, hstats, hx, hreport⟩ := he
  obtain ⟨t', hc', hstats', hx', hreport'⟩ := he'
  have herrand : m'.errand own ρ' program = m.errand own ρ program := by
    rw [errand, errand, hconfig, hown]
  have hends := h.ends_of_concludes hc
  have hends' := h'.ends_of_concludes hc'
  rw [herrand] at hends'
  -- The end of the course is the same, and what is reported follows from it.
  obtain ⟨-, ha, rfl, hx''⟩ := hends.unique h.events hf hroot hends'
  rw [ha] at hc'
  have houtcome := outcome_of_concludes hc hc' (h'.result.trans h.result.symm)
  rw [run_reports] at hreport hreport'
  obtain ⟨answer, stats, x, report⟩ := e
  obtain ⟨answer', stats', x', report'⟩ := e'
  simp only [RunEnd.mk.injEq]
  exact ⟨ha, hstats'.symm.trans hstats, hx'.symm.trans (hx''.trans hx),
    hreport'.symm.trans (houtcome.trans hreport)⟩

end

end Machine

/-! ### A run that is alone -/

namespace Errand

variable {client : Client K M} {own : M → A} {E : Errand K A} {k k' : ℕ}
  {t t' : Trampoline K.signature} {x x' : A} {a : Answer K.signature}
  {codes : UserCode K.signature → Prop} {ρ : Run K}

open Machine

/-- The script of a slice of a run is brought to its end. -/
theorem gets_slice {w : World K M} (control : List (Activity K M)) (hE : E.config = ρ.config)
    (hx : own w.memory = x) (h : (Meaning.own own).Runs (E.slice client t) x (a, t') x') :
    ∃ memory', own memory' = x' ∧ Gets client control ⟨w, control, .resume ⟨ρ, t⟩⟩
      ⟨{ w with memory := memory' }, control, .script (.slice ⟨ρ, t⟩) (.done (a, t'))⟩ := by
  obtain ⟨memory', hends, hx'⟩ := h w.memory hx
  refine ⟨memory', hx', .head rfl (List.suffix_refl _) (gets_script ?_)⟩
  rw [slice, budget, hE] at hends
  exact hends

/-- On a recording host that is empty, a slice that is suspended waits until the host is asked to
fire the next of up to `n + 1` tasks. -/
theorem gets_fired {q : QueueId} (hhost : ρ.host = .recording q) {w : World K M}
    (hq : w.hasQueue q) (he : w.queue q = []) {control base : List (Activity K M)} {n : ℕ}
    (hcontrol : ∀ w', Gets client [] ⟨w', control, .answer (.ok .done)⟩
      ⟨w', base, .script .body (.fireAll q (n + 1))⟩) (t t' : Trampoline K.signature) :
    ∃ w' control', w'.memory = w.memory ∧ w'.hasQueue q ∧ w'.queue q = [] ∧
      Gets client [] ⟨w, control, .script (.slice ⟨ρ, t⟩) (.done (.suspended, t'))⟩
        ⟨w', control', .resume ⟨ρ, t'⟩⟩ ∧
      ∀ w', Gets client [] ⟨w', control', .answer (.ok .done)⟩
        ⟨w', base, .script .body (.fireAll q n)⟩ := by
  have hnil (l : List (Activity K M)) : [] <:+ l := List.nil_suffix
  set w₁ := w.setQueue q [(ρ.config.resumeDelay, .resume ⟨ρ, t'⟩)]
  have hq₁ : w₁.hasQueue q := World.hasQueue_setQueue hq _
  have hdefer : Gets client [] ⟨w, control, .script (.slice ⟨ρ, t⟩) (.done (.suspended, t'))⟩
      ⟨w₁, control, .answer (.ok .done)⟩ := by
    refine .head rfl (hnil _) (.step ?_ (hnil _) (hnil _))
    change step client ⟨w, control, .defer ρ.host ρ.config.resumeDelay _⟩ = _
    rw [hhost]
    exact Job.defer_recording hq he _ _
  have hfire : Gets client [] ⟨w₁, base, .script .body (.fireAll q (n + 1))⟩
      ⟨w₁.setQueue q [], .affirming :: .code .body _ :: base, .resume ⟨ρ, t'⟩⟩ :=
    .head rfl (hnil _) (.head (Job.fire_recording (World.queue_setQueue hq _)) (hnil _)
      (.step rfl (hnil _) (hnil _)))
  exact ⟨w₁.setQueue q [], _, rfl, World.hasQueue_setQueue hq₁ _, World.queue_setQueue hq₁ _,
    hdefer.trans ((hcontrol w₁).trans hfire),
    fun w' => .head rfl (hnil _) (.step rfl (hnil _) (hnil _))⟩

/-- A run whose tasks are fired by a recording host of its own comes to the end of its course. -/
theorem Ends.gets_of_course (hs : client.Spares own)
    (hf : client.functions.Confined (.own own) codes) (hroot : E.root.Uses codes)
    (hE : E.config = ρ.config) {q : QueueId} (hhost : ρ.host = .recording q)
    (hends : E.Ends client own k' a t' x') (hc : E.Course client own k t x) (hk : k ≤ k') {n : ℕ}
    (hn : k' ≤ k + n) {w : World K M} (hx : own w.memory = x) (hq : w.hasQueue q)
    (he : w.queue q = []) {control base : List (Activity K M)}
    (hcontrol : ∀ w', Gets client [] ⟨w', control, .answer (.ok .done)⟩
      ⟨w', base, .script .body (.fireAll q n)⟩) :
    ∃ m', Gets client [] ⟨w, control, .resume ⟨ρ, t⟩⟩ m' ∧ m'.Concludes ρ a t' ∧
      own m'.world.memory = x' := by
  obtain ⟨t₀, x₀, hlast, hslice, ha⟩ := hends
  -- On the slices that are left before the last.
  induction hj : k' - k generalizing k t x n w control with
  | zero =>
    obtain rfl : k' = k := by omega
    obtain ⟨rfl, rfl⟩ := hc.unique hs hf hroot hlast
    obtain ⟨memory', hx', hgets⟩ := gets_slice control hE hx (hc.runs hs hf hroot hslice)
    exact ⟨_, hgets.mono List.nil_suffix, ⟨⟨_, rfl⟩, ha⟩, hx'⟩
  | succ j ih =>
    -- The course goes on, so this slice is suspended.
    obtain ⟨t₁, x₁, t₂, x₂, hc₁, hslice₁⟩ := hlast.of_lt (show k < k' by omega)
    obtain ⟨rfl, rfl⟩ := hc.unique hs hf hroot hc₁
    obtain ⟨memory', hx₁, hgets⟩ := gets_slice control hE hx (hc.runs hs hf hroot hslice₁)
    obtain ⟨n, rfl⟩ := Nat.exists_eq_add_of_lt (show 0 < n by omega)
    rw [Nat.zero_add] at hcontrol
    set w₁ : World K M := { w with memory := memory' }
    have hq₁ : w₁.hasQueue q := hq
    obtain ⟨w', control', hmemory, hq', he', hgets', hcontrol'⟩ :=
      gets_fired hhost hq₁ he hcontrol _ t₂
    obtain ⟨m', hgets'', hm'⟩ := ih (hc.slice hslice₁) (by omega) (by omega)
      ((congrArg own hmemory).trans hx₁) hq' he' hcontrol' (by omega)
    exact ⟨m', (hgets.mono List.nil_suffix).trans (hgets'.trans hgets''), hm'⟩

/-- A run that is alone on a new recording host comes to the end of its course, if there are tasks
enough fired. -/
theorem Ends.gets_alone (hs : client.Spares own)
    (hf : client.functions.Confined (.own own) codes) {program : Program K.signature}
    (hroot : program.root.Uses codes) {config : Config} {start : A}
    (hends : Ends client own ⟨program.root, config, start⟩ k' a t' x') {memory : M}
    (hstart : own memory = start) (clock : Clock) (onError : ErrorHandler K)
    (onDone : K.Completion) {n : ℕ} (hn : k' ≤ n) :
    ∃ m', Gets client [] (initial (World.initial clock memory)
        (.alone config onError program onDone n)) m' ∧
      m'.Concludes (.alone config onError program onDone) a t' ∧ own m'.world.memory = x' := by
  have hnil (l : List (Activity K M)) : [] <:+ l := List.nil_suffix
  set w : World K M := (World.initial clock memory).openQueue.2 with hw
  set w' : World K M := { w with runs := 1 }.observe client (.runStarted program.root.kind)
  set next : Except Payload (Reply K) → Script K M Ending := fun _ => .fireAll ⟨0⟩ n
  have hgets : Gets client [] (initial (World.initial clock memory)
      (.alone config onError program onDone n)) ⟨w', [.code .body next],
        .resume ⟨.alone config onError program onDone, .start program.root⟩⟩ :=
    .head rfl (hnil _) (.head rfl (hnil _) (.head rfl (hnil _) (.head rfl (hnil _)
      (.step rfl (hnil _) (hnil _)))))
  have hreturn (w₁ : World K M) : Gets client [] ⟨w₁, [.code .body next], .answer (.ok .done)⟩
      ⟨w₁, [], .script .body (.fireAll ⟨0⟩ n)⟩ := .step rfl (hnil _) (hnil _)
  have hx : own w'.memory = start := (hs _ _).trans hstart
  have hhost : (Run.alone config onError program onDone).host = .recording ⟨0⟩ := rfl
  obtain ⟨m', hgets', hm'⟩ := hends.gets_of_course hs hf hroot rfl hhost .start (Nat.zero_le _)
    (by omega) hx rfl rfl hreturn
  exact ⟨m', hgets.trans hgets', hm'⟩

end Errand

namespace Machine

variable {client : Client K M} {own : M → A} {m : Machine K M} {ρ : Run K}
  {program : Program K.signature} {codes : UserCode K.signature → Prop}

/-- A run whose functions ask for nothing and keep to their own part of the memory does not depend
on what else is done in the session. Unless one of its tasks is discarded, it has ended once nothing
of it waits or is under way. However it ends, it ends so in any other session that starts it in the
same way, and also when it is alone on a new recording host and its tasks are fired. -/
theorem Apart.independent (h : Apart client own ρ program m)
    (hf : client.functions.Confined (.own own) codes) (hroot : program.root.Uses codes) :
    (∀ n, (m.run client n).live ρ.id = 0 → (∀ j ≤ n, ¬ (m.run client j).Discards ρ.id) →
      ∃ j < n, ∃ e, EndsWith client own ρ m j e) ∧
    ∀ n e, EndsWith client own ρ m n e →
      (∀ m' ρ', Apart client own ρ' program m' → ρ'.config = ρ.config →
        own m'.world.memory = own m.world.memory →
          ∀ n' e', EndsWith client own ρ' m' n' e' → e' = e) ∧
      ∀ clock memory onError onDone fires, own memory = own m.world.memory →
        e.stats.suspensions ≤ fires →
          ∃ n', EndsWith client own (.alone ρ.config onError program onDone)
            (initial (World.initial clock memory)
              (.alone ρ.config onError program onDone fires)) n' e := by
  refine ⟨fun n hl hd => ?_, fun n e he => ⟨fun m' ρ' h' hconfig hown n' e' he' => ?_,
    fun clock memory onError onDone fires hown hfires => ?_⟩⟩
  · obtain ⟨j, hj, a, t, hc⟩ := h.concludes_of_over hl hd
    exact ⟨j, hj, ⟨a, t.stats, _, _⟩, t, hc, rfl, rfl, rfl⟩
  · exact h.unique_end h' hf hroot hconfig hown he he'
  · obtain ⟨t, hc, hstats, hx, hreport⟩ := he
    have hends := h.ends_of_concludes hc
    obtain ⟨-, -, -, -, -, hsus, -⟩ := hends.evaluates h.events
    rw [← hstats, hsus] at hfires
    obtain ⟨m', ⟨n', rfl, -⟩, hc', hx'⟩ :=
      hends.gets_alone h.events hf hroot hown clock onError onDone hfires
    refine ⟨n', t, hc', hstats, hx'.trans hx, ?_⟩
    rw [run_reports, ← hreport, run_reports]
    exact outcome_of_concludes hc hc' h.result.symm

end Machine

/-! ### Two runs on one host -/

/-- Codes for two kinds of effects, which are told apart by a flag. -/
def Twins : Codes where
  signature :=
    { Ty := Unit, typeName := fun _ => "unit", Value := Unit, typeOf := fun _ => (), Thunk := Bool,
      Transform := Bool, Continuation := Empty }
  Task := Empty
  Completion := Unit
  Handler := Empty

namespace Twins

open Machine

/-- Each kind has a log of its own. -/
def log (s : String) : Bool → List String × List String → List String × List String
  | true, (l, l') => (l ++ [s], l')
  | false, (l, l') => (l, l' ++ [s])

/-- Transforms of the second kind panic. -/
def client : Client Twins (List String × List String) where
  thunk b := .update (log "leaf" b) fun _ => .done (.returned ())
  transform b _ := .update (log "stage" b) fun _ =>
    .done (cond b (.returned ()) (.panicked (.literal "boom")))
  continuation k _ := k.elim
  task t := t.elim
  discard t := t.elim
  completion _ _ _ := .done (.ok ())
  handler h _ := h.elim
  observe _ memory := memory

def program (b : Bool) : Program Twins.signature := ⟨.map (.sync b) b, ()⟩

/-- A run of the first kind starts on a recording host, then one of the second kind, and then `rs`
is asked for. -/
def main (rs : List (Request Twins)) : Script Twins (List String × List String) Ending :=
  .ask .openQueue fun _ =>
    .ask (.start ⟨.recording ⟨0⟩, ⟨1, .zero, true⟩, .log⟩ (program true) ()) fun _ =>
      .ask (.start ⟨.recording ⟨0⟩, ⟨1, .zero, false⟩, .log⟩ (program false) ()) fun _ =>
        rs.foldr (fun r next => .ask r fun _ => next) (.done (.ok ()))

/-- The first run is about to begin. -/
def started (rs : List (Request Twins)) : Machine Twins (List String × List String) :=
  (initial (.initial .still ([], [])) (main rs)).run client 5

/-- The first run. -/
def first : Run Twins := .alone ⟨1, .zero, true⟩ .log (program true) ()

/-- The functions of the first kind. -/
def isFirst : UserCode Twins.signature → Prop
  | .thunk b => b = true
  | .transform b => b = true
  | .continuation _ => False

/-- The functions of the first kind add to the first log. -/
theorem runs_log (s : String) (l : List String) : (Meaning.own (K := Twins) Prod.fst).Runs
    (Script.update (log s true) fun _ => .done (.returned () : Outcome Twins.signature Unit)) l
      (.returned ()) (l ++ [s]) := by
  intro memory h
  refine ⟨_, .update .done, ?_⟩
  rw [← h]
  rfl

theorem confined : client.functions.Confined (.own Prod.fst) isFirst where
  thunk {t} l ht := by
    obtain rfl : t = true := ht
    exact ⟨_, _, runs_log "leaf" l⟩
  transform {f} _ l hf := by
    obtain rfl : f = true := hf
    exact ⟨_, _, runs_log "stage" l⟩
  continuation _ _ h := h.elim

/-- What is done next leaves alone the log of the first kind, unless it is a slice of the first
run. -/
def spared (m : Machine Twins (List String × List String)) : Bool :=
  match m.focus with
  | .script role (.update f _) =>
    role.tickets.countP (·.isRun first.id) != 0 || (f m.world.memory).1 == m.world.memory.1
  | _ => true

theorem apart {rs : List (Request Twins)} {N : ℕ}
    (hN : ((started rs).run client N).step client = none)
    (h : (List.range N).all (fun n => spared ((started rs).run client n)) = true) :
    Apart client Prod.fst first (program true) (started rs) where
  session := ⟨_, _, _, _, rfl⟩
  focus := rfl
  result := rfl
  events _ _ := rfl
  spares n role f next hf hrole := by
    by_cases hn : n < N
    · have hspared := List.all_eq_true.1 h n (List.mem_range.2 hn)
      rw [spared, hf] at hspared
      simp only [hrole, bne_self_eq_false, Bool.false_or, beq_iff_eq] at hspared
      exact hspared
    · rw [run_eq_of_le hN (Nat.le_of_not_lt hn)] at hf
      obtain ⟨-, a, hanswer⟩ := step_eq_none hN
      rw [hanswer] at hf
      cases hf

/-- The second run panics before the first has ended. -/
def overtaken : Machine Twins (List String × List String) := started [.fire ⟨0⟩ 1, .fire ⟨0⟩ 0]

/-- The second run is discarded. -/
def abandoned : Machine Twins (List String × List String) := started [.discard ⟨0⟩ 1, .fire ⟨0⟩ 0]

/-- How the first run ends. -/
def firstEnd : RunEnd Twins (List String) :=
  ⟨.completed (), ⟨2, 1, 1⟩, ["leaf", "stage"], some (.ok ((), ⟨2, 1, 1⟩))⟩

theorem apart_overtaken : Apart client Prod.fst first (program true) overtaken := by
  have hover : ((overtaken.run client 37).step client).isNone = true := by cbv
  exact apart (Option.isNone_iff_eq_none.1 hover) (by cbv)

theorem apart_abandoned : Apart client Prod.fst first (program true) abandoned := by
  have hover : ((abandoned.run client 35).step client).isNone = true := by cbv
  exact apart (Option.isNone_iff_eq_none.1 hover) (by cbv)

theorem endsWith_overtaken : EndsWith client Prod.fst first overtaken 31 firstEnd := by
  refine ⟨⟨none, .empty, ⟨2, 1, 1⟩⟩, ⟨⟨⟨some (.sync true),
    .push .empty (.map true), ⟨1, 1, 1⟩⟩, ?_⟩, ?_⟩, rfl, ?_, ?_⟩
  · cbv
  · simp [firstEnd]
  · cbv
  · cbv

/-- No task of the first run is discarded there, and in the end nothing of it is left. -/
theorem over_overtaken : (overtaken.run client 37).live first.id = 0 ∧
    ∀ j ≤ 37, ¬ (overtaken.run client j).Discards first.id := by
  constructor
  · cbv
  · have hall : (List.range 38).all (fun j =>
        (overtaken.run client j).focus.dropping.countP (·.isRun first.id) == 0 &&
          (overtaken.run client j).lost.countP (·.isRun first.id) == 0) = true := by cbv
    intro j hj
    have hnone := List.all_eq_true.1 hall j (List.mem_range.2 (by omega))
    rw [Bool.and_eq_true, beq_iff_eq, beq_iff_eq] at hnone
    rintro (h | ⟨-, h⟩)
    · exact h hnone.1
    · exact h hnone.2

theorem firstEnd_independent :
    (∃ j < 37, ∃ e, EndsWith client Prod.fst first overtaken j e) ∧
    (∀ n e, EndsWith client Prod.fst first abandoned n e → e = firstEnd) ∧
    ∃ n, EndsWith client Prod.fst first (initial (.initial .still ([], ["stage"]))
      (.alone ⟨1, .zero, true⟩ .log (program true) () 1)) n firstEnd := by
  obtain ⟨hends, hunique⟩ := apart_overtaken.independent confined ⟨rfl, rfl⟩
  obtain ⟨hsame, halone⟩ := hunique 31 firstEnd endsWith_overtaken
  obtain ⟨hover, hdiscards⟩ := over_overtaken
  exact ⟨hends 37 hover hdiscards, hsame _ _ apart_abandoned rfl rfl,
    halone .still ([], ["stage"]) .log () 1 rfl le_rfl⟩

end Twins

end LazyEffects
