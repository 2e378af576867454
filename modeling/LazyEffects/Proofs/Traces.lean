import LazyEffects.Proofs.Cuts
import LazyEffects.Proofs.Jobs

/-!
# The trace of a run

What a run on an event loop of its own reports, from its start to its end, is fixed by the nodes
that it visits: each visit is reported, and whenever a slice is used up, that the run is suspended,
that it waits at the loop and that it goes on.

* `Travels`: where an evaluation gets, with the nodes that it visits on the way;
* `Config.trace`: what is reported of the visits and between the slices;
* `Run.Traces`: the whole trace of a run that comes to its end or is dropped;
* `Run.Traces.counted`: the counters in its events are the numbers of the events before them.
-/

namespace LazyEffects

open Deed

variable {S : Signature} {m : Type → Type} [Monad m] {σ : Type}

/-! ### From node to node -/

section

variable (M : Meaning m σ) (fns : Functions S m)

/-- `Enters list v s deeds e rest s'`: handing `v` to the frames of `list`, topmost first, does
`deeds` until a continuation returns `e`, with the frames of `rest` left. -/
inductive Enters : List (Frame S) → S.Value → σ → List (Deed S) → Effect S → List (Frame S) → σ →
    Prop where
  | map {list rest : List (Frame S)} {f : S.Transform} {v v' : S.Value} {l : List (Deed S)}
    {e : Effect S} {s s₁ s' : σ} : M.Runs (fns.transform f v) s (.returned v') s₁ →
    Enters list v' s₁ l e rest s' →
    Enters (.map f :: list) v s (call (.transform f v) :: l) e rest s'
  | flatMap {list : List (Frame S)} {k : S.Continuation} {v : S.Value} {e : Effect S} {s s' : σ} :
    M.Runs (fns.continuation k v) s (.returned e) s' →
    Enters (.flatMap k :: list) v s [call (.continuation k v)] e list s'

/-- `Travels e list s deeds e' list' s'`: from the node `e` above the frames of `list`, an
evaluation does `deeds` and is then about to go into the node `e'` above the frames of `list'`. -/
inductive Travels : Effect S → List (Frame S) → σ → List (Deed S) → Effect S → List (Frame S) → σ →
    Prop where
  | refl {e : Effect S} {list : List (Frame S)} {s : σ} : Travels e list s [] e list s
  | around {e e' : Effect S} {list list' : List (Frame S)} {frame : Frame S} {l : List (Deed S)}
    {s s' : σ} : Travels e (frame :: list) s l e' list' s' →
    Travels (frame.around e) list s (visit (frame.around e) list.length :: l) e' list' s'
  | leaf {t : S.Thunk} {v : S.Value} {e e' : Effect S} {list rest list' : List (Frame S)}
    {l l' : List (Deed S)} {s s₁ s₂ s' : σ} : M.Runs (fns.thunk t) s (.returned v) s₁ →
    Enters M fns list v s₁ l e rest s₂ → Travels e rest s₂ l' e' list' s' →
    Travels (.sync t) list s (visit (.sync t) list.length :: call (.thunk t) :: (l ++ l')) e' list'
      s'

end

variable {M : Meaning m σ} {fns : Functions S m} {e e' e'' : Effect S}
  {list list' list'' : List (Frame S)} {s s' s'' : σ} {w : Verdict S} {l l' : List (Deed S)}
  {v : S.Value}

namespace Enters

/-- On the way through the frames no node is visited. -/
theorem visited (h : Enters M fns list v s l e list' s') : Deed.visited l = [] := by
  induction h with
  | map _ _ ih => exact ih
  | flatMap => rfl

theorem unwinds (h : Enters M fns list v s l e list' s')
    (hc : Completes M fns e list' s' w l' s'') : Unwinds M fns list (.ok v) s w (l ++ l') s'' := by
  induction h with
  | map hf _ ih => exact .map hf (ih hc)
  | flatMap hk => exact unwinds_flatMap_of_completes hk hc

theorem continues (h : Enters M fns list v s l e list' s') (hg : Goes M fns e list' s' l' s'') :
    Continues M fns list v s (l ++ l') s'' := by
  induction h with
  | map hf _ ih => exact .map hf (ih hg)
  | flatMap hk => exact continues_flatMap_of_goes hk hg

end Enters

namespace Travels

theorem trans (h : Travels M fns e list s l e' list' s')
    (h' : Travels M fns e' list' s' l' e'' list'' s'') :
    Travels M fns e list s (l ++ l') e'' list'' s'' := by
  induction h with
  | refl => exact h'
  | around _ ih => exact .around (ih h')
  | leaf ht hu _ ih => simpa using leaf ht hu (ih h')

/-- What completes the rest completes the whole. -/
theorem completes (h : Travels M fns e list s l e' list' s')
    (hc : Completes M fns e' list' s' w l' s'') : Completes M fns e list s w (l ++ l') s'' := by
  induction h with
  | refl => exact hc
  | @around _ _ _ _ frame _ _ _ _ ih => exact (completes_around_iff frame).2 ⟨_, rfl, ih hc⟩
  | leaf ht hu _ ih => exact completes_sync_iff.2 ⟨_, _, _, ht, hu.unwinds (ih hc), by simp⟩

theorem goes (h : Travels M fns e list s l e' list' s') (hg : Goes M fns e' list' s' l' s'') :
    Goes M fns e list s (l ++ l') s'' := by
  induction h with
  | refl => exact hg
  | @around _ _ _ _ frame _ _ _ _ ih => exact (goes_around_iff frame).2 (.inr ⟨_, rfl, ih hg⟩)
  | leaf ht hu _ ih => exact goes_sync_iff.2 (.inr ⟨_, _, _, ht, hu.continues (ih hg), by simp⟩)

/-- Between two nodes an evaluation is cut. -/
theorem proceeds (h : Travels M fns e [] s l e' list' s') : Proceeds M fns 0 e s l s' := by
  have hgoes := h.goes (.within .next)
  rw [List.append_nil] at hgoes
  exact goes_nil_iff.1 hgoes

end Travels

/-! ### The nodes visited -/

/-- The kind of the node that is gone into, and the number of frames that are then pending. -/
def Deed.visit? : Deed S → Option (NodeKind × ℕ)
  | visit node stack => some (node.kind, stack)
  | call _ => none

namespace Deed

/-- The visits of nodes, in order. -/
def visits (deeds : List (Deed S)) : List (NodeKind × ℕ) := deeds.filterMap visit?

@[simp] theorem visits_nil : visits ([] : List (Deed S)) = [] := rfl

@[simp] theorem visits_visit (e : Effect S) (n : ℕ) (l : List (Deed S)) :
    visits (visit e n :: l) = (e.kind, n) :: visits l := rfl

@[simp] theorem visits_call (c : Call S) (l : List (Deed S)) :
    visits (call c :: l) = visits l := rfl

@[simp] theorem visits_append (l l' : List (Deed S)) :
    visits (l ++ l') = visits l ++ visits l' := List.filterMap_append

@[simp] theorem length_visits (l : List (Deed S)) : (visits l).length = (visited l).length := by
  induction l with
  | nil => rfl
  | cons deed l ih => cases deed <;> simp [ih]

theorem visits_of_visited_nil (h : visited l = []) : visits l = [] := by
  rw [← List.length_eq_zero_iff, length_visits, h]
  rfl

end Deed

/-- The node that is next is the first to be visited. -/
theorem Travels.visits (h : Travels M fns e list s l e' list' s') (hl : 0 < (visited l).length) :
    ∃ vs, Deed.visits l = (e.kind, list.length) :: vs := by
  cases h with
  | refl => exact absurd hl (lt_irrefl 0)
  | around => exact ⟨_, rfl⟩
  | leaf => exact ⟨_, rfl⟩

theorem Completes.visits (h : Completes M fns e list s w l s') :
    ∃ vs, Deed.visits l = (e.kind, list.length) :: vs := by
  rcases e.sync_or_around with ⟨t, rfl⟩ | ⟨frame, e, rfl⟩
  · obtain ⟨_, _, l', -, -, rfl⟩ := completes_sync_iff.1 h
    exact ⟨_, rfl⟩
  · obtain ⟨l', rfl, -⟩ := (completes_around_iff frame).1 h
    exact ⟨_, rfl⟩

/-! ### Counters in events -/

namespace Event

/-- A node is visited. -/
def isVisit : Event → Bool
  | visited .. => true
  | _ => false

/-- A slice has been used up. -/
def isSuspension : Event → Bool
  | suspended .. => true
  | _ => false

/-- An event loop starts a task. -/
def isTurn : Event → Bool
  | taskStarted _ => true
  | _ => false

/-- A run is over. -/
def isEnd : Event → Bool
  | runCompleted .. | runFailed _ | runDropped => true
  | _ => false

/-- The counters of the event are the numbers of the events before it. -/
def Tallies (before : List Event) : Event → Prop
  | suspended steps suspensions _ =>
    steps = before.countP isVisit ∧ suspensions = before.countP isSuspension + 1
  | taskStarted turn => turn = before.countP isTurn + 1
  | runCompleted steps suspensions =>
    steps = before.countP isVisit ∧ suspensions = before.countP isSuspension
  | _ => True

/-- The counters of all events of the log are the numbers of the events before them. -/
def Counted (log : List Event) : Prop :=
  ∀ before event after, log = before ++ event :: after → event.Tallies before

variable {log log' : List Event} {event : Event}

theorem counted_nil : Counted [] := by
  intro before event after h
  simp at h

theorem Counted.concat (h : Counted log) (he : event.Tallies log) : Counted (log ++ [event]) := by
  intro before event' after heq
  rcases List.eq_nil_or_concat after with rfl | ⟨after, last, rfl⟩
  · obtain ⟨rfl, hlast⟩ := List.append_inj' heq rfl
    cases hlast
    exact he
  · rw [List.concat_eq_append, ← List.cons_append, ← List.append_assoc] at heq
    exact h before event' after (List.append_inj' heq rfl).1

end Event

/-! ### What is reported of the visits -/

namespace Config

variable (c : Config)

/-- After `steps` visits a slice is used up, with `stack` frames pending. -/
def pause (steps stack : ℕ) : List Event :=
  [.suspended steps (steps / c.stepBudget) stack, .taskDeferred c.resumeDelay 1]

/-- The visit that comes after `steps` others. If it is the first of a slice, but not of the run,
the run has been suspended before and is resumed. -/
def visiting (steps : ℕ) (visit : NodeKind × ℕ) : List Event :=
  (if steps ≠ 0 ∧ c.stepBudget ∣ steps then
    c.pause steps visit.2 ++ [.taskStarted (steps / c.stepBudget)] else []) ++
  [.visited visit.1 visit.2]

/-- The visits of a run. -/
def trace (visits : List (NodeKind × ℕ)) : List Event := (visits.mapIdx c.visiting).flatten

/-- The number of suspensions of a run that visits `steps` nodes. -/
def suspensions (steps : ℕ) : ℕ := steps ⌈/⌉ c.stepBudget - 1

variable {c} {vs vs' : List (NodeKind × ℕ)} {v : NodeKind × ℕ} {n k : ℕ}

theorem trace_concat (vs : List (NodeKind × ℕ)) (v : NodeKind × ℕ) :
    c.trace (vs ++ [v]) = c.trace vs ++ c.visiting vs.length v := by
  simp [trace]

@[simp] theorem suspensions_zero : c.suspensions 0 = 0 := by simp [suspensions]

section

variable (hb : 0 < c.stepBudget)

include hb

theorem suspensions_succ (n : ℕ) : c.suspensions (n + 1) = n / c.stepBudget := by
  have hceil : n + 1 + c.stepBudget - 1 = n + c.stepBudget := by omega
  rw [suspensions, Nat.ceilDiv_eq_add_pred_div, hceil, Nat.add_div_right _ hb]
  rfl

/-- A run is suspended before those visits whose number is a multiple of the budget. -/
theorem suspensions_concat (n : ℕ) : c.suspensions (n + 1) =
    c.suspensions n + if n ≠ 0 ∧ c.stepBudget ∣ n then 1 else 0 := by
  cases n with
  | zero => simp [suspensions_succ hb]
  | succ n =>
    rw [suspensions_succ hb, suspensions_succ hb, Nat.succ_div]
    simp

/-- The number of a suspension. -/
theorem div_eq_of_dvd (hn : n ≠ 0 ∧ c.stepBudget ∣ n) :
    n / c.stepBudget = c.suspensions n + 1 := by
  have hconcat := suspensions_concat hb n
  rwa [suspensions_succ hb, if_pos hn] at hconcat

/-- Within a slice there are only visits. -/
theorem trace_slice (hvs : vs.length = k * c.stepBudget) (hvs' : vs'.length < c.stepBudget) :
    c.trace (vs ++ v :: vs') = c.trace vs ++
      (if k = 0 then [] else c.pause (k * c.stepBudget) v.2 ++ [.taskStarted k]) ++
        (v :: vs').map fun v => .visited v.1 v.2 := by
  induction vs' using List.reverseRecOn with
  | nil =>
    rw [trace_concat, hvs, visiting, Nat.mul_div_cancel k hb]
    rcases Nat.eq_zero_or_pos k with rfl | hk
    · simp
    · simp [hk.ne', hb.ne']
  | append_singleton vs' last ih =>
    rw [List.length_append, List.length_singleton] at hvs'
    have hlength : (vs ++ v :: vs').length = k * c.stepBudget + (vs'.length + 1) := by
      rw [List.length_append, List.length_cons, hvs]
    have hdvd : ¬ c.stepBudget ∣ k * c.stepBudget + (vs'.length + 1) := by
      rw [Nat.dvd_add_right (Nat.dvd_mul_left _ _)]
      exact fun hdvd => absurd (Nat.le_of_dvd (Nat.succ_pos _) hdvd) (by omega)
    rw [← List.cons_append, ← List.append_assoc, trace_concat, hlength, visiting,
      if_neg fun h => hdvd h.2, ih (by omega)]
    simp

end

end Config

namespace Event

variable {c : Config} {kind : NodeKind} {vs : List (NodeKind × ℕ)}

/-- The numbers of events in the trace of a run that has visited some nodes. -/
structure Numbers (c : Config) (steps : ℕ) (log : List Event) : Prop where
  visits : log.countP isVisit = steps
  suspensions : log.countP isSuspension = c.suspensions steps
  turns : log.countP isTurn = c.suspensions steps
  ends : log.countP isEnd = 0

theorem numbers_trace (hb : 0 < c.stepBudget) (kind : NodeKind) (vs : List (NodeKind × ℕ)) :
    Numbers c vs.length (.runStarted kind :: c.trace vs) := by
  induction vs using List.reverseRecOn with
  | nil => exact ⟨rfl, c.suspensions_zero.symm, c.suspensions_zero.symm, rfl⟩
  | append_singleton vs v ih =>
    obtain ⟨hvisits, hsuspensions, hturns, hends⟩ := ih
    rw [List.length_append, List.length_singleton, Config.trace_concat, ← List.cons_append]
    constructor
    · rw [List.countP_append, hvisits, Config.visiting]
      split <;> rfl
    · rw [List.countP_append, hsuspensions, Config.suspensions_concat hb, Config.visiting]
      split <;> rfl
    · rw [List.countP_append, hturns, Config.suspensions_concat hb, Config.visiting]
      split <;> rfl
    · rw [List.countP_append, hends, Config.visiting]
      split <;> rfl

/-- Before a visit that is the first of a slice. -/
theorem counted_pause (hb : 0 < c.stepBudget) {log : List Event} {n : ℕ} (h : Counted log)
    (hn : Numbers c n log) (hdvd : n ≠ 0 ∧ c.stepBudget ∣ n) (stack : ℕ) :
    Counted (log ++ c.pause n stack) := by
  have hlast : log ++ c.pause n stack = log ++ [.suspended n (n / c.stepBudget) stack] ++
      [.taskDeferred c.resumeDelay 1] := by simp [Config.pause]
  rw [hlast]
  have htallies : (Event.suspended n (n / c.stepBudget) stack).Tallies log := by
    refine ⟨hn.visits.symm, ?_⟩
    rw [hn.suspensions, Config.div_eq_of_dvd hb hdvd]
  exact (h.concat htallies).concat trivial

theorem counted_trace (hb : 0 < c.stepBudget) (kind : NodeKind) (vs : List (NodeKind × ℕ)) :
    Counted (.runStarted kind :: c.trace vs) := by
  induction vs using List.reverseRecOn with
  | nil => exact counted_nil.concat trivial
  | append_singleton vs v ih =>
    have hn := numbers_trace hb kind vs
    rw [Config.trace_concat, ← List.cons_append, Config.visiting, ← List.append_assoc]
    refine Counted.concat ?_ trivial
    split
    · rename_i hdvd
      rw [← List.append_assoc]
      refine (counted_pause hb ih hn hdvd v.2).concat ?_
      have hturns : (Event.runStarted kind :: c.trace vs ++ c.pause vs.length v.2).countP isTurn =
          c.suspensions vs.length := by
        rw [List.countP_append, hn.turns]
        rfl
      exact (Config.div_eq_of_dvd hb hdvd).trans (congrArg (· + 1) hturns.symm)
    · rwa [List.append_nil]

end Event

/-! ### The whole trace -/

/-- The event that tells the end of an evaluation. -/
def Event.ofVerdict (steps suspensions : ℕ) : Verdict S → Event
  | .ok _ => .runCompleted steps suspensions
  | .error (.mismatched expected) => .runFailed (.typeMismatch (S.typeName expected))
  | .error (.panicked stage p) => .runFailed (.ofPanic stage p)

/-- What is reported of a failure that nobody else receives. -/
def Recipient.unhandled {K : Codes} {α : Type} :
    Recipient K → Except RunError α → List Event
  | .callbacks _ .log, .error e => [.runUnhandled e]
  | _, _ => []

/-- The result of a run of `program` on an event loop of its own, which is begun with `s`, and its
trace. The run comes to its end, or it is dropped between two slices. -/
inductive Run.Traces {K : Codes} {m : Type → Type} [Monad m] (M : Meaning m σ)
    (fns : Functions K.signature m) (ρ : Run K) (program : Program K.signature) (s : σ) :
    RunResult K → List Event → Prop where
  | ended {w : Verdict K.signature} {deeds : List (Deed K.signature)} {s' : σ} :
    Evaluates M fns 0 program.root s w deeds s' →
    Traces M fns ρ program s (program.settle w)
      (.runStarted program.root.kind :: ρ.config.trace (visits deeds) ++
        .ofVerdict (visits deeds).length (ρ.config.suspensions (visits deeds).length) w ::
          ρ.recipient.unhandled (program.settle w))
  /-- As many slices as there are have been used up. -/
  | dropped {e : Effect K.signature} {frames : List (Frame K.signature)} {k : ℕ}
    {deeds : List (Deed K.signature)} {s' : σ} :
    Travels M fns program.root [] s deeds e frames s' → 0 < k →
    (visits deeds).length = k * ρ.config.stepBudget →
    Traces M fns ρ program s (.error .abandoned)
      (.runStarted program.root.kind :: ρ.config.trace (visits deeds) ++
        ρ.config.pause (visits deeds).length frames.length ++
          .runDropped :: ρ.recipient.unhandled (.error .abandoned : RunResult K))

namespace Event

variable {K : Codes} {α : Type} {log : List Event} {event : Event}

/-- Nothing is counted in what is reported after the end. -/
theorem Counted.append_unhandled (h : Counted log) (r : Recipient K) (x : Except RunError α) :
    Counted (log ++ r.unhandled x) := by
  rw [Recipient.unhandled.eq_def]
  split
  · exact h.concat trivial
  · rwa [List.append_nil]

theorem countP_isEnd_unhandled (r : Recipient K) (x : Except RunError α) :
    (r.unhandled x).countP isEnd = 0 := by
  rw [Recipient.unhandled.eq_def]
  split <;> rfl

/-- The counters of a run at its end are those of its trace. -/
theorem tallies_ofVerdict {c : Config} {n : ℕ} (h : Numbers c n log) (w : Verdict S) :
    (ofVerdict n (c.suspensions n) w).Tallies log := by
  match w with
  | .ok v => exact ⟨h.visits.symm, h.suspensions.symm⟩
  | .error (.mismatched expected) => trivial
  | .error (.panicked stage p) => trivial

theorem isEnd_ofVerdict (n k : ℕ) (w : Verdict S) : (ofVerdict n k w).isEnd = true := by
  match w with
  | .ok v => rfl
  | .error (.mismatched expected) => rfl
  | .error (.panicked stage p) => rfl

end Event

namespace Run.Traces

variable {K : Codes} {fns : Functions K.signature m} {ρ : Run K} {program : Program K.signature}
  {x : RunResult K} {log : List Event}

/-- The number of the suspension that comes after the last visit of a run that is dropped. -/
theorem dvd_of_dropped {n k b : ℕ} (hb : 0 < b) (hk : 0 < k) (hn : n = k * b) :
    n ≠ 0 ∧ b ∣ n := by
  subst hn
  exact ⟨(Nat.mul_pos hk hb).ne', Nat.dvd_mul_left b k⟩

/-- The counters in the events of a run are the numbers of the events before them. -/
theorem counted (hb : 0 < ρ.config.stepBudget) (h : ρ.Traces M fns program s x log) :
    Event.Counted log := by
  cases h with
  | @ended w deeds s' =>
    have hn := Event.numbers_trace hb program.root.kind (visits deeds)
    have hlast := (Event.counted_trace hb program.root.kind (visits deeds)).concat
      (Event.tallies_ofVerdict hn w)
    simpa using hlast.append_unhandled ρ.recipient (program.settle w)
  | @dropped e frames k deeds s' _ hk hdeeds =>
    have hn := Event.numbers_trace hb program.root.kind (visits deeds)
    have hcounted := Event.counted_trace hb program.root.kind (visits deeds)
    have hpause := Event.counted_pause hb hcounted hn (dvd_of_dropped hb hk hdeeds) frames.length
    have hdropped : Event.runDropped.Tallies (.runStarted program.root.kind ::
      ρ.config.trace (visits deeds) ++ ρ.config.pause (visits deeds).length frames.length) :=
      trivial
    simpa using (hpause.concat hdropped).append_unhandled ρ.recipient
      (.error .abandoned : RunResult K)

/-- There is one event for the end of a run. -/
theorem ends (hb : 0 < ρ.config.stepBudget) (h : ρ.Traces M fns program s x log) :
    log.countP Event.isEnd = 1 := by
  cases h with
  | @ended w deeds s' =>
    have hn := Event.numbers_trace hb program.root.kind (visits deeds)
    rw [List.countP_append, hn.ends, List.countP_cons, Event.countP_isEnd_unhandled,
      Event.isEnd_ofVerdict]
    rfl
  | @dropped e frames k deeds s' =>
    have hn := Event.numbers_trace hb program.root.kind (visits deeds)
    rw [List.countP_append, List.countP_append, hn.ends, List.countP_cons,
      Event.countP_isEnd_unhandled]
    rfl

end Run.Traces

end LazyEffects
