import LazyEffects.Proofs.Courses
import LazyEffects.Proofs.Traces

/-!
# Keeping a record of events

A client may put the events that the library reports on record, in a part of its memory that its
functions leave alone. What a slice then adds to the record is what it visits, and that it has been
suspended.

* `Client.Records`: a client that keeps a record;
* `Trampoline.records_of_descend`: what a slice does, and what it puts on record;
* `Errand.Traced.slice`: slice by slice the record is the trace of the nodes visited.
-/

namespace LazyEffects

open Deed

/-! ### Functions that leave the record alone -/

section

variable {S : Signature} {m : Type → Type} [Monad m] {σ : Type}

/-- With a record of events beside the state, `N` being what computations do to both: what the
user's functions do to the state is that of `M`, and they leave the record alone. Events are put on
record and leave no trace in the state. -/
structure Functions.Records (N : Meaning m (σ × List Event)) (M : Meaning m σ)
    (fns : Functions S m) : Prop where
  thunk {t : S.Thunk} {y y' : σ × List Event} {out : Outcome S S.Value} :
    N.Runs (fns.thunk t) y out y' → M.Runs (fns.thunk t) y.1 out y'.1 ∧ y'.2 = y.2
  transform {f : S.Transform} {v : S.Value} {y y' : σ × List Event} {out : Outcome S S.Value} :
    N.Runs (fns.transform f v) y out y' → M.Runs (fns.transform f v) y.1 out y'.1 ∧ y'.2 = y.2
  continuation {k : S.Continuation} {v : S.Value} {y y' : σ × List Event}
    {out : Outcome S (Effect S)} : N.Runs (fns.continuation k v) y out y' →
    M.Runs (fns.continuation k v) y.1 out y'.1 ∧ y'.2 = y.2
  observe {e : Event} {y y' : σ × List Event} {u : Unit} :
    N.Runs (fns.observe e) y u y' → y'.1 = y.1 ∧ y'.2 = y.2 ++ [e]

/-- What is reported of visits. -/
def Deed.reports (deeds : List (Deed S)) : List Event :=
  (visits deeds).map fun v => .visited v.1 v.2

namespace Deed

@[simp] theorem reports_nil : reports ([] : List (Deed S)) = [] := rfl

@[simp] theorem reports_visit (e : Effect S) (n : ℕ) (l : List (Deed S)) :
    reports (visit e n :: l) = .visited e.kind n :: reports l := rfl

@[simp] theorem reports_call (c : Call S) (l : List (Deed S)) :
    reports (call c :: l) = reports l := rfl

@[simp] theorem reports_append (l l' : List (Deed S)) :
    reports (l ++ l') = reports l ++ reports l' := by simp [reports]

theorem reports_of_visited_nil {l : List (Deed S)} (h : visited l = []) : reports l = [] := by
  rw [reports, visits_of_visited_nil h]
  rfl

end Deed

namespace Trampoline

variable {N : Meaning m (σ × List Event)} {M : Meaning m σ} {fns : Functions S m}
  {y y' : σ × List Event} {catching : Bool}

/-- The frames put nothing on record. -/
theorem records_of_unwindList (hN : N.Exact) (hr : fns.Records N M) {list : List (Frame S)}
    {height : ℕ} {hh : height = list.length} {v : S.Value} {u : Unwound S}
    (h : N.Runs (unwindList fns catching list height hh v) y u y') :
    M.Runs (unwindList fns catching list height hh v) y.1 u y'.1 ∧ y'.2 = y.2 := by
  induction list generalizing v height y with
  | nil =>
    obtain ⟨rfl, rfl⟩ := hN.of_pure h
    exact ⟨M.runs_pure _ _, rfl⟩
  | cons frame list ih =>
    cases frame with
    | map f =>
      obtain ⟨out, y₁, hf, hrest⟩ := hN.of_bind h
      obtain ⟨hf, hrecord⟩ := hr.transform hf
      cases out with
      | returned v' =>
        obtain ⟨hu, hrecord'⟩ := ih hrest
        exact ⟨M.runs_bind hf hu, hrecord'.trans hrecord⟩
      | mismatched | panicked =>
        obtain ⟨rfl, rfl⟩ := hN.of_pure hrest
        exact ⟨M.runs_bind hf (M.runs_pure _ _), hrecord⟩
    | flatMap k =>
      obtain ⟨out, y₁, hk, hrest⟩ := hN.of_bind h
      obtain ⟨hk, hrecord⟩ := hr.continuation hk
      cases out with
      | returned | mismatched | panicked =>
        obtain ⟨rfl, rfl⟩ := hN.of_pure hrest
        exact ⟨M.runs_bind hk (M.runs_pure _ _), hrecord⟩

/-- Frames that enter an effect do so on the way of the evaluation. -/
theorem enters_of_unwindList (hx : M.Exact) {list : List (Frame S)} {v : S.Value} {e : Effect S}
    {rest : Frames S} {s s' : σ}
    (h : M.Runs (unwindList fns catching list list.length rfl v) s (.entered e rest) s') :
    ∃ l, Enters M fns list v s l e rest.list s' := by
  induction list generalizing v s with
  | nil => cases (hx.of_pure h).1
  | cons frame list ih =>
    cases frame with
    | map f =>
      obtain ⟨out, s₁, hf, hrest⟩ := hx.of_bind h
      cases out with
      | returned v' =>
        obtain ⟨l, hl⟩ := ih hrest
        exact ⟨_, .map hf hl⟩
      | mismatched | panicked => cases (hx.of_pure hrest).1
    | flatMap k =>
      obtain ⟨out, s₁, hk, hrest⟩ := hx.of_bind h
      cases out with
      | returned e =>
        obtain ⟨hu, rfl⟩ := hx.of_pure hrest
        cases hu
        exact ⟨_, .flatMap hk⟩
      | mismatched | panicked => cases (hx.of_pure hrest).1

theorem records_of_unwind (hN : N.Exact) (hr : fns.Records N M) {stack : Frames S} {v : S.Value}
    {u : Unwound S} (h : N.Runs (unwind fns catching stack v) y u y') :
    M.Runs (unwind fns catching stack v) y.1 u y'.1 ∧ y'.2 = y.2 :=
  records_of_unwindList hN hr h

theorem enters_of_unwind (hx : M.Exact) {stack rest : Frames S} {v : S.Value} {e : Effect S}
    {s s' : σ} (h : M.Runs (unwind fns catching stack v) s (.entered e rest) s') :
    ∃ l, Enters M fns stack.list v s l e rest.list s' := by
  rw [unwind_eq] at h
  exact enters_of_unwindList hx h

/-- A slice comes to the end of the evaluation, or it gets as far as its budget goes. It puts on
record what it visits on the way, and that it has been suspended. -/
theorem records_of_descend (hN : N.Exact) (hx : M.Exact) (hr : fns.Records N M) {n : ℕ}
    {e : Effect S} {stack : Frames S} {stats : Stats} {a : Answer S} {t : Trampoline S}
    (h : N.Runs (descend fns catching n e stack stats) y (a, t) y') :
    (∃ w l, a = .ofVerdict catching w ∧ t.stats = stats.after l ∧ (visited l).length ≤ n ∧
      Completes M fns e stack.list y.1 w l y'.1 ∧ y'.2 = y.2 ++ reports l) ∨
    ∃ e₁ l, a = .suspended ∧ t.current = some e₁ ∧ t.stats = (stats.after l).suspend ∧
      (visited l).length = n ∧ Travels M fns e stack.list y.1 l e₁ t.stack.list y'.1 ∧
        y'.2 = y.2 ++ reports l ++
          [.suspended t.stats.steps t.stats.suspensions t.stack.height] := by
  -- On the budget; what the slice has run is taken apart bind by bind.
  induction n generalizing e stack stats y with
  | zero =>
    obtain ⟨_, y₁, ho, hrest⟩ := hN.of_bind h
    obtain ⟨hstate, hrecord⟩ := hr.observe ho
    obtain ⟨hout, rfl⟩ := hN.of_pure hrest
    cases hout
    rw [hstate]
    exact .inr ⟨e, [], rfl, rfl, rfl, rfl, .refl, by simpa using hrecord⟩
  | succ n ih =>
    rcases e.sync_or_around with ⟨leaf, rfl⟩ | ⟨frame, e, rfl⟩
    · obtain ⟨_, y₁, ho, hrest⟩ := hN.of_bind h
      obtain ⟨hstate, hrecord⟩ := hr.observe ho
      obtain ⟨out, y₂, ht, hrest⟩ := hN.of_bind hrest
      obtain ⟨ht, hthunk⟩ := hr.thunk ht
      rw [hstate] at ht
      rw [hrecord, stack.height_eq] at hthunk
      cases out with
      | returned v =>
        obtain ⟨u, y₃, hu, hrest⟩ := hN.of_bind hrest
        obtain ⟨hu, hframes⟩ := records_of_unwind hN hr hu
        rw [hthunk] at hframes
        cases u with
        | delivered v' =>
          obtain ⟨hout, rfl⟩ := hN.of_pure hrest
          cases hout
          rcases unwinds_of_unwind hx hu with
            ⟨_, l, hv, hl, hw⟩ | ⟨_, _, _, hc, -⟩ | ⟨_, _, _, he, -⟩
          · cases hv
            exact .inl ⟨.ok v', _, rfl, by simp [Stats.after, Stats.after_of_visited_nil _ hl],
              by simp [hl], completes_sync_iff.2 ⟨_, _, _, ht, hw, rfl⟩,
              by simp [reports_of_visited_nil hl, hframes]⟩
          · cases hc
          · cases he
        | stopped a rest =>
          obtain ⟨hout, rfl⟩ := hN.of_pure hrest
          cases hout
          rcases unwinds_of_unwind hx hu with
            ⟨_, _, hv, -⟩ | ⟨c, _, l, hc, hl, hw⟩ | ⟨_, _, _, he, -⟩
          · cases hv
          · cases hc
            exact .inl ⟨.error c, _, rfl, by simp [Stats.after, Stats.after_of_visited_nil _ hl],
              by simp [hl], completes_sync_iff.2 ⟨_, _, _, ht, hw, rfl⟩,
              by simp [reports_of_visited_nil hl, hframes]⟩
          · cases he
        | entered e rest =>
          -- The rest of the budget was spent on the effect that a continuation returned.
          obtain ⟨l₁, henters⟩ := enters_of_unwind hx hu
          have hl₁ := henters.visited
          have hafter (l : List (Deed S)) : stats.after (visit (.sync leaf) stack.list.length ::
              call (.thunk leaf) :: (l₁ ++ l)) = stats.visit.after l := by
            simp [Stats.after, Stats.after_append, Stats.after_of_visited_nil _ hl₁]
          rcases ih hrest with
            ⟨w, l, rfl, hs, hn, hc, hrest⟩ | ⟨e₁, l, rfl, he₁, hs, hn, htravels, hrest⟩
          · exact .inl ⟨w, _, rfl, hs.trans (hafter l).symm, by simpa [hl₁] using hn,
              completes_sync_iff.2 ⟨_, _, _, ht, henters.unwinds hc, rfl⟩,
              by simp [hrest, hframes, reports_of_visited_nil hl₁]⟩
          · exact .inr ⟨e₁, _, rfl, he₁, by rw [hs, hafter], by simpa [hl₁] using hn,
              .leaf ht henters htravels, by simp [hrest, hframes, reports_of_visited_nil hl₁]⟩
      | mismatched expected =>
        obtain ⟨hout, rfl⟩ := hN.of_pure hrest
        cases hout
        exact .inl ⟨.error (.mismatched expected), _, rfl, by simp [Stats.after], by simp,
          completes_sync_iff.2 ⟨_, _, [], ht, .stopped, rfl⟩, by simp [hthunk]⟩
      | panicked p =>
        obtain ⟨hout, rfl⟩ := hN.of_pure hrest
        cases hout
        exact .inl ⟨.error (.panicked .thunk p), _, rfl, by simp [Stats.after], by simp,
          completes_sync_iff.2 ⟨_, _, [], ht, .stopped, rfl⟩, by simp [hthunk]⟩
    · -- The slice has pushed the frame and gone on with the source.
      rw [descend_around] at h
      obtain ⟨_, y₁, ho, hrest⟩ := hN.of_bind h
      obtain ⟨hstate, hrecord⟩ := hr.observe ho
      rw [stack.height_eq] at hrecord
      have hafter (l : List (Deed S)) : (stats.visit.reach (stack.height + 1)).after l =
          stats.after (visit (frame.around e) stack.list.length :: l) := by
        rw [Stats.after_visit_around, ← stack.height_eq]
      rcases ih hrest with
        ⟨w, l, rfl, hs, hn, hc, hrest⟩ | ⟨e₁, l, rfl, he₁, hs, hn, htravels, hrest⟩
      · rw [hstate] at hc
        exact .inl ⟨w, _, rfl, hs.trans (hafter l), by simpa using hn,
          (completes_around_iff frame).2 ⟨l, rfl, hc⟩, by simp [hrest, hrecord]⟩
      · rw [hstate] at htravels
        exact .inr ⟨e₁, _, rfl, he₁, by rw [hs, hafter], by simpa using hn, .around htravels,
          by simp [hrest, hrecord]⟩

end Trampoline

end

/-! ### Scripts that leave the record alone -/

variable {K : Codes} {M A α : Type} {own : M → A} {record : M → List Event}

/-- Whatever the script is answered, it never touches what `record` says of the memory. -/
def Script.Keeps (record : M → List Event) : Script K M α → Prop
  | done _ => True
  | update f next => ∀ memory, record (f memory) = record memory ∧ (next (f memory)).Keeps record
  | ask _ next => ∀ answer, (next answer).Keeps record

/-- The client puts all events on record, and the functions in its effects leave the record alone.
-/
structure Client.Records (client : Client K M) (record : M → List Event) : Prop where
  observe (e : Event) (memory : M) : record (client.observe e memory) = record memory ++ [e]
  thunk (t : K.signature.Thunk) : (client.thunk t).Keeps record
  transform (f : K.signature.Transform) (v : K.signature.Value) :
    (client.transform f v).Keeps record
  continuation (k : K.signature.Continuation) (v : K.signature.Value) :
    (client.continuation k v).Keeps record

/-- A part of the memory, and the record. -/
def withRecord (own : M → A) (record : M → List Event) (memory : M) : A × List Event :=
  (own memory, record memory)

theorem Script.May.of_keeps {x : Script K M α} {a : α} {y y' : A × List Event}
    (h : x.May (withRecord own record) y a y') (hx : x.Keeps record) :
    x.May own y.1 a y'.1 ∧ y'.2 = y.2 := by
  induction h with
  | done => exact ⟨.done, rfl⟩
  | @update f next a memory y _ ih =>
    obtain ⟨hrecord, hnext⟩ := hx memory
    obtain ⟨hmay, hkept⟩ := ih hnext
    exact ⟨.update hmay, hkept.trans hrecord⟩
  | ask _ ih =>
    obtain ⟨hmay, hkept⟩ := ih (hx _)
    exact ⟨.ask hmay, hkept⟩

theorem Client.Records.functions {client : Client K M} (h : client.Records record)
    (hs : client.Spares own) :
    client.functions.Records (.amidst (withRecord own record)) (.amidst own) where
  thunk ht := Script.May.of_keeps ht (h.thunk _)
  transform hf := Script.May.of_keeps hf (h.transform _ _)
  continuation hk := Script.May.of_keeps hk (h.continuation _ _)
  observe {e y y' u} ho := by
    cases ho with
    | @update f next _ memory _ ho =>
      cases ho
      exact ⟨hs e memory, h.observe e memory⟩

/-! ### Slice by slice -/

namespace Errand

variable {client : Client K M} {E : Errand K A} {k : ℕ} {t t' : Trampoline K.signature} {x : A}
  {y : A × List Event} {a : Answer K.signature} {before log : List Event}

/-- The event with which the slice after `k` others begins. -/
def resumption : ℕ → List Event
  | 0 => []
  | k + 1 => [.taskStarted (k + 1)]

/-- The same, with a record beside what the functions find. -/
def recorded (E : Errand K A) (log : List Event) : Errand K (A × List Event) :=
  ⟨E.root, E.config, (E.start, log)⟩

/-- After `k` slices the evaluation is at `t`, what its functions work on is `x`, and `log` is what
has been reported of the run. -/
def Traced (client : Client K M) (own : M → A) (E : Errand K A) (k : ℕ) (t : Trampoline K.signature)
    (x : A) (log : List Event) : Prop :=
  ∃ e deeds, t.current = some e ∧ (visited deeds).length = k * E.budget ∧
    t.stats = Stats.zero.pausing k deeds ∧
    Travels (.amidst own) client.functions E.root [] E.start deeds e t.stack.list x ∧
    log = .runStarted E.root.kind :: E.config.trace (visits deeds) ++
      if k = 0 then [] else E.config.pause (k * E.budget) t.stack.height

theorem traced_start : E.Traced client own 0 (.start E.root) E.start [.runStarted E.root.kind] :=
  ⟨E.root, [], rfl, (Nat.zero_mul _).symm, rfl, .refl, rfl⟩

/-- What the next slice visits comes behind the trace so far. -/
theorem trace_append (hb : 0 < E.budget) {e : Effect K.signature}
    {l deeds : List (Deed K.signature)}
    (hdeeds : (visited deeds).length = k * E.budget) (hle : (visited l).length ≤ E.budget)
    (hl : ∃ vs, visits l = (e.kind, t.stack.list.length) :: vs) :
    .runStarted E.root.kind :: E.config.trace (visits deeds) ++
        (if k = 0 then [] else E.config.pause (k * E.budget) t.stack.height) ++ resumption k ++
          reports l = .runStarted E.root.kind :: E.config.trace (visits (deeds ++ l)) := by
  obtain ⟨vs, hvs⟩ := hl
  have hlength := length_visits l
  rw [hvs, List.length_cons] at hlength
  have hslice : E.config.trace (visits deeds ++ (e.kind, t.stack.list.length) :: vs) = _ :=
    Config.trace_slice hb ((length_visits deeds).trans hdeeds) (show vs.length < E.budget by omega)
  rw [visits_append, hvs, hslice, reports, hvs, ← t.stack.height_eq]
  cases k <;> simp [resumption]

/-- A slice comes to the end of the evaluation, or it is suspended, and then its rest is handed
over. -/
theorem Traced.slice (hr : client.Records record) (hs : client.Spares own) (hb : 0 < E.budget)
    (h : E.Traced client own k t x log)
    (hslice : (E.recorded before).Slice client (withRecord own record) t
      (x, before ++ log ++ resumption k) (a, t') y) :
    (∃ w deeds, a = .ofVerdict E.config.catchPanics w ∧
      Evaluates (.amidst own) client.functions 0 E.root E.start w deeds y.1 ∧
      t'.stats = Stats.zero.pausing k deeds ∧ k = E.config.suspensions (visits deeds).length ∧
      y.2 = before ++ .runStarted E.root.kind :: E.config.trace (visits deeds)) ∨
    a = .suspended ∧ ∃ log', E.Traced client own (k + 1) t' y.1 log' ∧
      y.2 ++ [.taskDeferred E.config.resumeDelay 1] = before ++ log' := by
  obtain ⟨e, deeds, he, hdeeds, hstats, htravels, rfl⟩ := h
  obtain ⟨memory, memory', hx, rfl, hl⟩ := hslice
  have hmay := hl.may
  rw [slice_eq he, hx] at hmay
  rcases Trampoline.records_of_descend (Meaning.amidst_exact _) (Meaning.amidst_exact own)
    (hr.functions hs) hmay with
    ⟨w, l, rfl, hafter, hle, hc, hlog⟩ | ⟨e₁, l, rfl, he₁, hafter, hle, hgoes, hlog⟩
  · have hpos := hc.visited_ne_nil
    have hle : (visited l).length ≤ E.budget := hle
    refine .inl ⟨w, deeds ++ l, rfl, completes_nil_iff.1 (htravels.completes hc), ?_, ?_, ?_⟩
    · rw [hafter, hstats, Stats.pausing_after]
    · have hlength : (visits (deeds ++ l)).length = k * E.budget + (visited l).length := by
        rw [length_visits, visited_append, List.length_append, hdeeds]
      rw [hlength]
      refine eq_ceilDiv_sub_one (Nat.lt_add_of_pos_right hpos) ?_
      rw [Nat.add_one_mul]
      exact Nat.add_le_add_left hle _
    · rw [← trace_append hb hdeeds hle hc.visits, hlog]
      simp
  · have hle : (visited l).length = E.budget := hle
    have hlength : (visited (deeds ++ l)).length = (k + 1) * E.budget := by
      rw [visited_append, List.length_append, hdeeds, hle, Nat.add_one_mul]
    have hstats' : t'.stats = Stats.zero.pausing (k + 1) (deeds ++ l) := by
      rw [hafter, hstats, Stats.pausing_suspended]
    have hpause : E.config.pause ((k + 1) * E.budget) t'.stack.height =
        [.suspended t'.stats.steps t'.stats.suspensions t'.stack.height,
          .taskDeferred E.config.resumeDelay 1] := by
      rw [hstats', Stats.pausing_steps, Stats.pausing_suspensions, hlength, Config.pause,
        Nat.mul_div_cancel _ hb]
      simp [Stats.zero]
    refine .inr ⟨rfl, _, ⟨e₁, deeds ++ l, he₁, hlength, hstats', htravels.trans hgoes, rfl⟩, ?_⟩
    rw [if_neg (Nat.succ_ne_zero k), hpause, ← trace_append hb hdeeds hle.le
      (hgoes.visits (hle ▸ hb)), hlog]
    simp

end Errand

end LazyEffects
