import LazyEffects.Proofs.Blocking
import LazyEffects.Proofs.Typing
import LazyEffects.Scenario.Behaviour

/-!
# Typed effects in a session

A client whose functions are typed builds its effects from typed stages. Whatever else it does, and
however the runs of such an effect are cut into slices, the library never finds a value of a wrong
type among what the functions of the effect give each other, and never goes on with an evaluation
that is over.

* `Machine.TypeSafe` says so of the reports of runs, of the answers to those who wait for a run, and
  of futures;
* `Client.typeSafe`: it holds of every typed effect in every session.
-/

namespace LazyEffects

/-- The codes of a client whose functions are typed. -/
@[reducible]
def TypedCodes.codes (T : TypedCodes) (Task Completion Handler : Type) : Codes :=
  ⟨T.erase, Task, Completion, Handler⟩

variable {T : TypedCodes} {Task Completion Handler M A : Type} {c : T.Ty}

/-- The outcome of a run tells of nothing wrong with types: a result is of the declared type, and a
failure is neither a value of another type nor an evaluation that is over already. -/
structure Proper (c : T.Ty) (r : Except RunError T.erase.Value) : Prop where
  type {v : T.erase.Value} : r = .ok v → v.1 = c
  fits (expected : String) : r ≠ .error (.typeMismatch expected)
  goesOn : r ≠ .error .alreadyCompleted

theorem proper_ok (x : T.Carrier c) : Proper c (.ok ⟨c, x⟩) :=
  ⟨fun h => by cases h; rfl, by simp, by simp⟩

theorem proper_abandoned : Proper c (.error .abandoned) := ⟨by simp, by simp, by simp⟩

theorem proper_ofPanic (stage : Stage) (p : Payload) : Proper c (.error (.ofPanic stage p)) :=
  ⟨by simp, by simp [RunError.ofPanic], by simp [RunError.ofPanic]⟩

/-! ### Slice by slice -/

variable {client : Client (T.codes Task Completion Handler) M}
  {fns : TypedFunctions T (Script (T.codes Task Completion Handler) M)} {own : M → A}

namespace Errand

variable {E : Errand (T.codes Task Completion Handler) A} {k : ℕ}
  {t : Trampoline (T.codes Task Completion Handler).signature} {x x' : A}
  {out : Answer T.erase × Trampoline T.erase}

/-- A slice of a well-typed evaluation settles, whatever is answered to its functions. -/
theorem Slice.settles (hfns : client.functions = fns.erase) (ht : t.WellTyped c)
    (h : E.Slice client own t x out x') : Answer.Settles c out := by
  obtain ⟨memory, memory', -, -, hl⟩ := h
  rw [slice, hfns] at hl
  exact (ht.runSlice_settles fns _ _).of_runs (Meaning.amidst_exact own) hl.may

/-- A run of a well-typed effect stays well-typed. -/
theorem Course.wellTyped (hfns : client.functions = fns.erase) (hroot : WellTyped E.root c)
    (h : E.Course client own k t x) : t.WellTyped c := by
  induction h with
  | start => exact .intro hroot .nil
  | slice _ hslice ih => exact (hslice.settles hfns ih).wellTyped

end Errand

/-! ### Reports -/

namespace Machine

variable {m m' : Machine (T.codes Task Completion Handler) M}
  {ρ ρ' : Run (T.codes Task Completion Handler)} {r : Request (T.codes Task Completion Handler)}
  {program : Program (T.codes Task Completion Handler).signature} {n : ℕ}
  {x : Except RunError ((T.codes Task Completion Handler).signature.Value × Stats)}

section

variable (hfns : client.functions = fns.erase) (h : Apart client own ρ program m)
  (hp : WellTyped program.root program.result)

include hfns h hp

/-- What the run has come to when its next slice begins. -/
theorem Apart.wellTyped {t : Trampoline (T.codes Task Completion Handler).signature}
    (hf : (m.run client n).focus = .resume ⟨ρ, t⟩) : t.WellTyped program.result :=
  (h.course_of_resume hf).wellTyped hfns hp

/-- How a slice of the run ends. -/
theorem Apart.settles {t : Trampoline (T.codes Task Completion Handler).signature}
    {out : Answer T.erase × Trampoline T.erase}
    (hf : (m.run client n).focus = .script (.slice ⟨ρ, t⟩) (.done out)) :
    Answer.Settles program.result out := by
  obtain ⟨x, hcourse, hslice⟩ := h.slice_of_done hf
  exact hslice.settles hfns (hcourse.wellTyped hfns hp)

/-- A run of a well-typed effect is reported with a result of its type, as abandoned, or for a
panic. -/
theorem Apart.proper (hx : (m.run client n).focus.reports = some (ρ, x)) :
    Proper program.result (x.map Prod.fst) := by
  cases n with
  | zero =>
    rw [run, h.focus] at hx
    cases hx
  | succ n =>
    rw [run_reports, outcome] at hx
    split at hx
    · rename_i f v t hf
      obtain ⟨run, t₀⟩ := f
      obtain ⟨hrun, rfl⟩ := Prod.mk.inj (Option.some.inj hx)
      cases hrun
      obtain ⟨y, rfl⟩ := (h.settles hfns hp hf).of_completed
      rw [if_pos h.result.symm]
      exact proper_ok y
    · rename_i f e t hf
      obtain ⟨run, t₀⟩ := f
      cases hx
      obtain ⟨stage, p, rfl⟩ := (h.settles hfns hp hf).of_failed
      exact proper_ofPanic stage p
    · cases hx
      exact proper_abandoned
    · cases hx

end

/-- Who waits for a run of a well-typed effect is answered a result of its type, that the run is
abandoned, or that it has panicked. -/
theorem Blocks.settled (hfns : client.functions = fns.erase) (hm : m.InSession client)
    (hr : Blocks program r) (hf : m.focus = .request r)
    (hp : WellTyped program.root program.result)
    {a : Except Payload (Reply (T.codes Task Completion Handler))}
    (ha : Answered client m n a) : Settled (Proper program.result) a := by
  obtain ⟨ρ, m₁, hs, hi, -, hresult, hfocus, -⟩ := step_blocks client hr hf
  have hone : m.run client 1 = m₁ := run_succ_of_step (n := 0) hs
  have hρ : ρ ∈ m.starts := mem_starts_of_issued (by
    rw [hi]
    exact List.mem_singleton_self _)
  intro reply hreply
  obtain ⟨out, rfl, hout⟩ := hr.told hm hf hρ ha reply hreply
  refine ⟨out, rfl, ?_⟩
  rcases hout with ⟨j, -, x, hx, rfl⟩ | ⟨rfl, -⟩
  · cases j with
    | zero =>
      rw [run, hf] at hx
      cases hx
    | succ j =>
      rw [Nat.add_comm, run_add, hone] at hx
      exact ((hone ▸ hm.run 1).apart hfocus hresult).proper hfns hp hx
  · exact proper_abandoned

end Machine

/-! ### Futures -/

/-- The evaluation of the future is well-typed, and its result is of the declared type. -/
structure Future.WellTyped (c : T.Ty) (f : Future (T.codes Task Completion Handler)) : Prop where
  trampoline : f.trampoline.WellTyped c
  result : f.result = c

/-- What one who has polled a well-typed future may be answered. -/
inductive Polled (c : T.Ty) :
    Except Payload (Reply (T.codes Task Completion Handler)) → Prop where
  | panicked (p : Payload) : Polled c (.error p)
  | pending {f : Future (T.codes Task Completion Handler)} : f.WellTyped c →
    Polled c (.ok (.pending f))
  | settled {r : RunResult (T.codes Task Completion Handler)} : Proper c r →
    Polled c (.ok (.settled r))

namespace Machine

variable {m m' : Machine (T.codes Task Completion Handler) M}
  {base : List (Activity (T.codes Task Completion Handler) M)}
  {f : Future (T.codes Task Completion Handler)} {n : ℕ}

/-- The script may be over in ways that settle a well-typed evaluation only. -/
def Settling (c : T.Ty) (s : Script (T.codes Task Completion Handler) M
    (Answer T.erase × Trampoline T.erase)) : Prop :=
  ∀ out, s.May (fun _ => ()) () out () → Answer.Settles c out

/-- Someone polls a well-typed future above the activities of `base`. -/
inductive Polling (c : T.Ty) (base : List (Activity (T.codes Task Completion Handler) M))
    (m : Machine (T.codes Task Completion Handler) M) : Prop where
  | begun {f : Future (T.codes Task Completion Handler)} : m.control = base →
    m.focus = .poll f → f.WellTyped c → Polling c base m
  | slice {f : Future (T.codes Task Completion Handler)}
    {s : Script (T.codes Task Completion Handler) M (Answer T.erase × Trampoline T.erase)} :
    m.control = base → m.focus = .script (.poll f) s → f.result = c → Settling c s →
    Polling c base m
  | asks {f : Future (T.codes Task Completion Handler)}
    {next : Except Payload (Reply (T.codes Task Completion Handler)) →
      Script (T.codes Task Completion Handler) M (Answer T.erase × Trampoline T.erase)} :
    .code (.poll f) next :: base <:+ m.control → f.result = c → (∀ a, Settling c (next a)) →
    Polling c base m
  | ended {a : Except Payload (Reply (T.codes Task Completion Handler))} : m.control = base →
    m.focus = .answer a → Polled c a → Polling c base m

variable (client) in
/-- What is answered after a slice of the future. -/
theorem afterPoll_polled (m : Machine (T.codes Task Completion Handler) M)
    {out : Answer T.erase × Trampoline T.erase} (hf : f.result = c) (h : Answer.Settles c out) :
    ∃ a, (m.afterPoll client f out.1 out.2).control = m.control ∧
      (m.afterPoll client f out.1 out.2).focus = .answer a ∧ Polled c a := by
  obtain ⟨a, t⟩ := out
  cases a with
  | suspended => exact ⟨_, rfl, rfl, .pending ⟨h.wellTyped, hf⟩⟩
  | completed v =>
    obtain ⟨x, rfl⟩ := h.of_completed
    refine ⟨_, rfl, rfl, .settled ?_⟩
    rw [if_pos hf.symm]
    exact proper_ok x
  | failed e =>
    obtain ⟨stage, p, rfl⟩ := h.of_failed
    exact ⟨_, rfl, rfl, .settled (proper_ofPanic stage p)⟩
  | unwound p => exact ⟨_, rfl, rfl, .panicked p⟩

theorem Polling.step (hfns : client.functions = fns.erase) (h : Polling c base m)
    (hs : m.step client = some m') (hbase : ∀ a, m.control = base → m.focus ≠ .answer a) :
    Polling c base m' := by
  cases h with
  | @begun f hc hf ht =>
    obtain ⟨w, control, focus⟩ := m
    cases hc
    cases hf
    cases hs
    refine .slice rfl rfl ht.result fun out hmay => ?_
    rw [hfns] at hmay
    exact (ht.trampoline.runSlice_settles fns _ _).of_runs (Meaning.amidst_exact _) hmay
  | @slice f s hc hf hresult hsettles =>
    obtain ⟨w, control, focus⟩ := m
    cases hc
    cases hf
    cases s with
    | done out =>
      obtain ⟨a, hcontrol, hfocus, ha⟩ := afterPoll_polled client
        ⟨w, control, .script (.poll f) (.done out)⟩ hresult (hsettles out .done)
      cases hs
      exact .ended hcontrol hfocus ha
    | update g next =>
      cases hs
      refine .slice rfl rfl hresult fun out hmay => hsettles out ?_
      change Script.May (fun _ : M => ()) (.update g next) ((fun _ : M => ()) w.memory) out ()
      exact .update hmay
    | ask r next =>
      cases hs
      exact .asks (List.suffix_refl _) hresult fun a out hmay => hsettles out (.ask hmay)
  | @asks f next hsuffix hresult hsettles =>
    rcases suffix_step hs hsuffix with hsuffix | ⟨hc, a, hf⟩
    · exact .asks hsuffix hresult hsettles
    · rw [Machine.step, hf, hc] at hs
      cases a <;> cases hs <;> exact .slice rfl rfl hresult (hsettles _)
  | ended hc hf => exact absurd hf (hbase _ hc)

/-- Those who have polled have their answer. -/
theorem Polling.polled {a : Except Payload (Reply (T.codes Task Completion Handler))}
    (h : Polling c base m) (hc : m.control = base) (hf : m.focus = .answer a) : Polled c a := by
  cases h with
  | begun _ hf' | slice _ hf' =>
    rw [hf] at hf'
    cases hf'
  | asks hsuffix =>
    have := hsuffix.length_le
    rw [hc, List.length_cons] at this
    omega
  | ended _ hf' ha =>
    rw [hf] at hf'
    cases hf'
    exact ha

/-- Someone above the activities of `base` drives a well-typed future. -/
inductive Driving (c : T.Ty) (base : List (Activity (T.codes Task Completion Handler) M))
    (m : Machine (T.codes Task Completion Handler) M) : Prop where
  | polls : Polling c (.driving :: base) m → Driving c base m
  | ended {a : Except Payload (Reply (T.codes Task Completion Handler))} : m.control = base →
    m.focus = .answer a → Settled (Proper c) a → Driving c base m

theorem Driving.step (hfns : client.functions = fns.erase) (h : Driving c base m)
    (hs : m.step client = some m') (hbase : ∀ a, m.control = base → m.focus ≠ .answer a) :
    Driving c base m' := by
  cases h with
  | ended hc hf => exact absurd hf (hbase _ hc)
  | polls h =>
    by_cases hanswer : m.control = .driving :: base ∧ ∃ a, m.focus = .answer a
    · obtain ⟨hc, a, hf⟩ := hanswer
      have ha := h.polled hc hf
      rw [Machine.step, hf, hc] at hs
      -- What is pending is polled again, and the rest is passed on.
      cases ha with
      | panicked p =>
        cases hs
        exact .ended rfl rfl (settled_error p)
      | pending ht =>
        cases hs
        exact .polls (.begun rfl rfl ht)
      | settled hr =>
        cases hs
        exact .ended rfl rfl fun reply hreply => by
          cases hreply
          exact ⟨_, rfl, hr⟩
    · exact .polls (h.step hfns hs fun a hc hf => hanswer ⟨hc, a, hf⟩)

/-- A future that is being driven. -/
theorem Unanswered.driving (hfns : client.functions = fns.erase)
    (hf : m.focus = .request (.runAsync f)) (ht : f.WellTyped c) (h : Unanswered client m n)
    (hn : 1 ≤ n) : Driving c m.control (m.run client n) := by
  refine h.of_step hn ?_ fun j _ hj m' hs hbase => hj.step hfns hs hbase
  have hs : m.step client = some (m.perform client (.runAsync f)) := by rw [Machine.step, hf]
  rw [run_succ_of_step (n := 0) hs]
  exact .polls (.begun rfl rfl ht)

/-- The future that is polled by those who drive it is well-typed. -/
theorem Driving.wellTyped (h : Driving c base m) (hc : m.control = .driving :: base)
    (hf : m.focus = .poll f) : f.WellTyped c := by
  cases h with
  | ended hc' =>
    have := congrArg List.length (hc'.symm.trans hc)
    simp at this
  | polls h =>
    cases h with
    | begun _ hf' ht =>
      rw [hf] at hf'
      cases hf'
      exact ht
    | asks hsuffix =>
      have := hsuffix.length_le
      rw [hc, List.length_cons] at this
      omega
    | slice _ hf' | ended _ hf' =>
      rw [hf] at hf'
      cases hf'

/-- Those who have a future driven are answered a result of its type, or that it has panicked. -/
theorem Driving.settled {a : Except Payload (Reply (T.codes Task Completion Handler))}
    (h : Driving c base m) (hc : m.control = base) (hf : m.focus = .answer a) :
    Settled (Proper c) a := by
  cases h with
  | polls h =>
    have hsuffix : .driving :: base <:+ m.control := by
      cases h with
      | begun hc' | slice hc' | ended hc' => exact hc' ▸ List.suffix_refl _
      | asks hsuffix => exact (List.suffix_cons _ _).trans hsuffix
    have := hsuffix.length_le
    rw [hc, List.length_cons] at this
    omega
  | ended _ hf' ha =>
    rw [hf] at hf'
    cases hf'
    exact ha

end Machine

/-! ### Typed effects -/

/-- In its next slice the evaluation passes only arguments of the types that are expected: the slice
is the same for all functions that do as `fns` on such arguments, whatever they do on others. -/
def Trampoline.Heeds (fns : TypedFunctions T (Script (T.codes Task Completion Handler) M))
    (t : Trampoline T.erase) : Prop :=
  ∀ other, Functions.Agrees other fns → ∀ catching budget,
    t.runSlice other catching budget = t.runSlice fns.erase catching budget

/-- A typed effect is safe in every session of the client. -/
structure Machine.TypeSafe (client : Client (T.codes Task Completion Handler) M)
    (fns : TypedFunctions T (Script (T.codes Task Completion Handler) M)) (p : Typed T c) :
    Prop where
  /-- A run of the effect is reported with a result of its type, or with a failure that is not about
  types. -/
  reported {m : Machine (T.codes Task Completion Handler) M}
    {r : Request (T.codes Task Completion Handler)}
    {ρ ρ' : Run (T.codes Task Completion Handler)} {n : ℕ}
    {x : Except RunError (T.erase.Value × Stats)} : m.InSession client → m.focus = .request r →
    r.program = some p.toProgram → ρ ∈ m.starts → (m.run client n).focus.reports = some (ρ', x) →
    ρ'.id = ρ.id → Proper c (x.map Prod.fst)
  /-- In each of its slices every function gets an argument of the type that it expects. -/
  resumed {m : Machine (T.codes Task Completion Handler) M}
    {r : Request (T.codes Task Completion Handler)}
    {ρ ρ' : Run (T.codes Task Completion Handler)} {n : ℕ} {t : Trampoline T.erase} :
    m.InSession client → m.focus = .request r → r.program = some p.toProgram → ρ ∈ m.starts →
    (m.run client n).focus = .resume ⟨ρ', t⟩ → ρ'.id = ρ.id → t.Heeds fns
  /-- Who waits for a run of the effect, on an event loop or on a worker, is answered such an
  outcome, unless a panic comes through. -/
  blocked {m : Machine (T.codes Task Completion Handler) M}
    {r : Request (T.codes Task Completion Handler)} {n : ℕ}
    {a : Except Payload (Reply (T.codes Task Completion Handler))} : m.InSession client →
    m.focus = .request r → Machine.Blocks p.toProgram r → Machine.Answered client m n a →
    Machine.Settled (Proper c) a
  /-- Who has the effect driven as a future is answered such an outcome, unless a panic comes
  through. -/
  driven {m : Machine (T.codes Task Completion Handler) M} {config : Config} {n : ℕ}
    {a : Except Payload (Reply (T.codes Task Completion Handler))} :
    m.focus = .request (.runAsync ⟨config, .start p.root, c⟩) → Machine.Answered client m n a →
    Machine.Settled (Proper c) a
  /-- Until then every function gets an argument of the type that it expects. -/
  polled {m : Machine (T.codes Task Completion Handler) M} {config : Config} {n : ℕ}
    {f : Future (T.codes Task Completion Handler)} :
    m.focus = .request (.runAsync ⟨config, .start p.root, c⟩) → Machine.Unanswered client m n →
    (m.run client n).control = .driving :: m.control → (m.run client n).focus = .poll f →
    f.trampoline.Heeds fns

namespace Machine

variable {m : Machine (T.codes Task Completion Handler) M}
  {ρ ρ' : Run (T.codes Task Completion Handler)} {r : Request (T.codes Task Completion Handler)}
  {n : ℕ}

theorem heeds_of_wellTyped {t : Trampoline T.erase} (h : t.WellTyped c) : t.Heeds fns :=
  fun _ ho catching budget => h.runSlice_congr catching budget ho

end Machine

/-- Typed effects are safe: no run of one, however it is started, and no future of one comes upon a
value of a wrong type or goes on after its end. -/
theorem Client.typeSafe (hfns : client.functions = fns.erase) (p : Typed T c) :
    Machine.TypeSafe client fns p where
  reported {m r ρ ρ' n x} hm hf hr hρ hx hid := by
    cases hm.eq_of_starts hρ (Machine.inHand_of_reports hx) hid
    cases n with
    | zero =>
      rw [Machine.run, hf] at hx
      cases hx
    | succ n =>
      rw [Nat.add_comm, Machine.run_add] at hx
      exact (hm.begins hf hr hρ).proper hfns p.wellTyped hx
  resumed {m r ρ ρ' n t} hm hf hr hρ ht hid := by
    have hhand : .run ρ' ∈ (m.run client n).inHand := by
      rw [Machine.inHand, ht]
      exact List.mem_append_left _ (List.mem_singleton_self _)
    cases hm.eq_of_starts hρ hhand hid
    cases n with
    | zero =>
      rw [Machine.run, hf] at ht
      cases ht
    | succ n =>
      rw [Nat.add_comm, Machine.run_add] at ht
      exact Machine.heeds_of_wellTyped ((hm.begins hf hr hρ).wellTyped hfns p.wellTyped ht)
  blocked hm hf hr ha := hr.settled hfns hm hf p.wellTyped ha
  driven hf ha :=
    (ha.first.driving hfns hf ⟨p.wellTyped_start, rfl⟩ (ha.pos hf)).settled ha.control ha.focus
  polled {m config n f} hf hn hc hpoll := by
    have hpos : 1 ≤ n := by
      rcases Nat.eq_zero_or_pos n with rfl | hpos
      · rw [Machine.run, hf] at hpoll
        cases hpoll
      · exact hpos
    have hdriving := hn.driving hfns hf ⟨p.wellTyped_start, rfl⟩ hpos
    exact Machine.heeds_of_wellTyped (hdriving.wellTyped hc hpoll).trampoline

namespace Scenario

/-- An effect that turns a truth value into a number, and that into a text by way of a further
effect. -/
def restated : Typed typedCodes Ty.text :=
  ((Typed.sync (T := typedCodes) (Thunk.constant (a := .boolean) true)).map
    (Transform.reweigh .boolean .integer)).flatMap (Continuation.reweigh .integer .text)

theorem restated_typeSafe : Machine.TypeSafe Scenario.client functions restated :=
  Client.typeSafe rfl restated

end Scenario

end LazyEffects
