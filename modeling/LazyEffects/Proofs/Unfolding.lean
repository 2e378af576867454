import LazyEffects.Proofs.Drive

/-!
# The shape of an evaluation

What an evaluation costs is fixed by the nodes that it goes through, and these form a tree
(`Unfolding`): below a continuation stand its source and the effect that it returns. Steps and
pending frames are counted by recursion over this tree.

* `Unfolds` is the direct evaluation with its tree, and `Unfolds.evaluates` and
  `Evaluates.unfolds` say that it is no other evaluation;
* `Trampoline.drive_unfolds` and `Trampoline.unfolds_drive`: the counters of slices with any budgets
  are those of the tree.
-/

namespace LazyEffects

open Deed

/-! ### Trees of nodes -/

/-- The nodes that an evaluation goes through, as a tree. -/
inductive Unfolding where
  | sync
  /-- A node after which the evaluation goes on in no other: a transform, or a continuation if the
  evaluation stops before it has returned. -/
  | map (source : Unfolding)
  /-- A continuation returns an effect, in which the evaluation goes on. -/
  | flatMap (source continued : Unfolding)

namespace Unfolding

/-- The number of nodes. -/
def steps : Unfolding → ℕ
  | sync => 1
  | map u => 1 + u.steps
  | flatMap u u' => 1 + u.steps + u'.steps

/-- The greatest number of frames pending, when there are `d` to begin with. The frame of a
continuation is gone when the evaluation goes on in the effect that it returns. -/
def peak : Unfolding → ℕ → ℕ
  | sync, d => d
  | map u, d => u.peak (d + 1)
  | flatMap u u', d => max (u.peak (d + 1)) (u'.peak d)

/-- The counters of a run with `k` suspensions. -/
def counters (u : Unfolding) (k : ℕ) : Stats := ⟨u.steps, k, u.peak 0⟩

/-- Frames that are pending from the beginning stay below all others. -/
theorem peak_eq (u : Unfolding) (d : ℕ) : u.peak d = d + u.peak 0 := by
  induction u generalizing d with
  | sync => rfl
  | map u ih => rw [peak, peak, ih (d + 1), ih (0 + 1)]; omega
  | flatMap u u' ih ih' => rw [peak, peak, ih (d + 1), ih (0 + 1), ih' d]; omega

theorem le_peak (u : Unfolding) (d : ℕ) : d ≤ u.peak d := by
  rw [u.peak_eq d]
  exact Nat.le_add_right d _

end Unfolding

/-! ### Evaluations with their trees -/

variable {S : Signature} {m : Type → Type} [Monad m] {σ : Type}

section

variable (M : Meaning m σ) (fns : Functions S m)

/-- `Unfolds e s w u s'`: evaluating `e` from the state `s` goes through the nodes of `u`, ends with
`w` and leaves the state `s'`. -/
inductive Unfolds : Effect S → σ → Verdict S → Unfolding → σ → Prop where
  | sync {t : S.Thunk} {out : Outcome S S.Value} {s s' : σ} :
    M.Runs (fns.thunk t) s out s' → Unfolds (.sync t) s (out.within .thunk) .sync s'
  | map {e : Effect S} {f : S.Transform} {v : S.Value} {out : Outcome S S.Value} {u : Unfolding}
    {s s' s'' : σ} :
    Unfolds e s (.ok v) u s' → M.Runs (fns.transform f v) s' out s'' →
    Unfolds (.map e f) s (out.within .transform) (.map u) s''
  | mapStopped {e : Effect S} {f : S.Transform} {c : Stop S} {u : Unfolding} {s s' : σ} :
    Unfolds e s (.error c) u s' → Unfolds (.map e f) s (.error c) (.map u) s'
  | flatMap {e e' : Effect S} {k : S.Continuation} {v : S.Value} {w : Verdict S}
    {u u' : Unfolding} {s s' s'' s₃ : σ} :
    Unfolds e s (.ok v) u s' → M.Runs (fns.continuation k v) s' (.returned e') s'' →
    Unfolds e' s'' w u' s₃ → Unfolds (.flatMap e k) s w (.flatMap u u') s₃
  | flatMapRefused {e : Effect S} {k : S.Continuation} {v : S.Value}
    {out : Outcome S (Effect S)} {c : Stop S} {u : Unfolding} {s s' s'' : σ} :
    Unfolds e s (.ok v) u s' → M.Runs (fns.continuation k v) s' out s'' →
    out.within .continuation = .error c → Unfolds (.flatMap e k) s (.error c) (.map u) s''
  | flatMapStopped {e : Effect S} {k : S.Continuation} {c : Stop S} {u : Unfolding} {s s' : σ} :
    Unfolds e s (.error c) u s' → Unfolds (.flatMap e k) s (.error c) (.map u) s'

end

variable {M : Meaning m σ} {fns : Functions S m} {e : Effect S} {s s' : σ} {w : Verdict S}
  {u u' : Unfolding} {l l' : List (Deed S)} {d : ℕ}

theorem Unfolds.eq_sync {t : S.Thunk} (h : Unfolds M fns (.sync t) s w u s') : u = .sync := by
  generalize he : Effect.sync t = e at h
  cases h with
  | sync => rfl
  | _ => cases he

/-- What is done with `d` frames pending goes through the nodes of `u`. -/
structure Measures (l : List (Deed S)) (d : ℕ) (u : Unfolding) : Prop where
  steps : (visited l).length = u.steps
  after {c : Stats} : d ≤ c.maxStack →
    c.after l = ⟨c.steps + u.steps, c.suspensions, max c.maxStack (u.peak d)⟩

namespace Measures

theorem sync (t : S.Thunk) (x : Call S) (d : ℕ) :
    Measures [visit (.sync t) d, .call x] d .sync where
  steps := rfl
  after h := by simp [Stats.after, Stats.visit, Unfolding.steps, Unfolding.peak, h]

/-- A node and what is done below it. -/
theorem down (h : Measures l (d + 1) u) (frame : Frame S) (e : Effect S) :
    Measures (visit (frame.around e) d :: l) d (.map u) where
  steps := by
    rw [visited_visit, List.length_cons, h.steps, Unfolding.steps, Nat.add_comm]
  after {c} hc := by
    have hpeak := u.le_peak (d + 1)
    rw [Stats.after_visit_around, h.after (Nat.le_max_right _ _)]
    simp only [Stats.reach, Stats.visit, Unfolding.steps, Unfolding.peak, Stats.mk.injEq]
    refine ⟨by omega, trivial, by omega⟩

/-- Calls cost nothing. -/
theorem calling (h : Measures l d u) (hl' : visited l' = []) : Measures (l ++ l') d u where
  steps := by rw [visited_append, hl', List.append_nil, h.steps]
  after hc := by rw [Stats.after_append, Stats.after_of_visited_nil _ hl', h.after hc]

/-- A continuation is called, and then the effect is gone through that it returns. -/
theorem flatMap (h : Measures l d (.map u)) (h' : Measures l' d u') (x : Call S) :
    Measures (l ++ .call x :: l') d (.flatMap u u') where
  steps := by
    rw [visited_append, visited_call, List.length_append, h.steps, h'.steps]
    rfl
  after {c} hc := by
    have hle : d ≤ (c.after l).maxStack := by
      rw [h.after hc]
      exact Nat.le_trans hc (Nat.le_max_left _ _)
    rw [Stats.after_append, Stats.after, h'.after hle, h.after hc]
    simp only [Unfolding.steps, Unfolding.peak, Stats.mk.injEq]
    refine ⟨by omega, trivial, by omega⟩

/-- The counters of a run from its beginning. -/
theorem counters (h : Measures l 0 u) (k : ℕ) : Stats.zero.pausing k l = u.counters k := by
  rw [Stats.pausing, h.after (Nat.zero_le _)]
  simp [Stats.zero, Unfolding.counters]

end Measures

/-- An evaluation goes through the nodes of a tree. -/
theorem Evaluates.unfolds (h : Evaluates M fns d e s w l s') :
    ∃ u, Unfolds M fns e s w u s' ∧ Measures l d u := by
  induction h with
  | sync ht => exact ⟨_, .sync ht, .sync ..⟩
  | @map _ e f _ _ _ _ _ _ _ hf ih =>
    obtain ⟨u, hu, hl⟩ := ih
    exact ⟨_, .map hu hf, (hl.down (.map f) e).calling rfl⟩
  | @mapStopped _ e f _ _ _ _ _ ih =>
    obtain ⟨u, hu, hl⟩ := ih
    exact ⟨_, .mapStopped hu, hl.down (.map f) e⟩
  | @flatMap _ e _ k _ _ _ _ _ _ _ _ _ hk _ ih ih' =>
    obtain ⟨u, hu, hl⟩ := ih
    obtain ⟨u', hu', hl'⟩ := ih'
    exact ⟨_, .flatMap hu hk hu', (hl.down (.flatMap k) e).flatMap hl' _⟩
  | @flatMapRefused _ e k _ _ _ _ _ _ _ _ hk hc ih =>
    obtain ⟨u, hu, hl⟩ := ih
    exact ⟨_, .flatMapRefused hu hk hc, (hl.down (.flatMap k) e).calling rfl⟩
  | @flatMapStopped _ e k _ _ _ _ _ ih =>
    obtain ⟨u, hu, hl⟩ := ih
    exact ⟨_, .flatMapStopped hu, hl.down (.flatMap k) e⟩

/-- A tree is gone through by an evaluation, however many frames are pending. -/
theorem Unfolds.evaluates (h : Unfolds M fns e s w u s') (d : ℕ) :
    ∃ l, Evaluates M fns d e s w l s' ∧ Measures l d u := by
  induction h generalizing d with
  | sync ht => exact ⟨_, .sync ht, .sync ..⟩
  | @map e f _ _ _ _ _ _ _ hf ih =>
    obtain ⟨l, hl, hu⟩ := ih (d + 1)
    exact ⟨_, .map hl hf, (hu.down (.map f) e).calling rfl⟩
  | @mapStopped e f _ _ _ _ _ ih =>
    obtain ⟨l, hl, hu⟩ := ih (d + 1)
    exact ⟨_, .mapStopped hl, hu.down (.map f) e⟩
  | @flatMap e _ k _ _ _ _ _ _ _ _ _ hk _ ih ih' =>
    obtain ⟨l, hl, hu⟩ := ih (d + 1)
    obtain ⟨l', hl', hu'⟩ := ih' d
    exact ⟨_, .flatMap hl hk hl', (hu.down (.flatMap k) e).flatMap hu' _⟩
  | @flatMapRefused e k _ _ _ _ _ _ _ _ hk hc ih =>
    obtain ⟨l, hl, hu⟩ := ih (d + 1)
    exact ⟨_, .flatMapRefused hl hk hc, (hu.down (.flatMap k) e).calling rfl⟩
  | @flatMapStopped e k _ _ _ _ _ ih =>
    obtain ⟨l, hl, hu⟩ := ih (d + 1)
    exact ⟨_, .flatMapStopped hl, hu.down (.flatMap k) e⟩

/-! ### A node and what follows it -/

namespace Unfolding

/-- The tree of a node with the tree of its source and that of the effect that its continuation
returns, if there is one. -/
def node (u : Unfolding) : Option Unfolding → Unfolding
  | none => .map u
  | some u' => .flatMap u u'

theorem steps_node (u : Unfolding) (o : Option Unfolding) :
    (u.node o).steps = 1 + u.steps + o.elim 0 steps := by
  cases o <;> rfl

theorem peak_node (u : Unfolding) (o : Option Unfolding) :
    (u.node o).peak 0 = max (u.peak 0 + 1) (o.elim 0 (·.peak 0)) := by
  cases o with
  | none =>
    rw [node, peak, u.peak_eq, Option.elim_none]
    omega
  | some u' =>
    rw [node, peak, u.peak_eq, Option.elim_some]
    omega

end Unfolding

section

variable (M : Meaning m σ) (fns : Functions S m)

/-- `Feeds frame w s w' o s'`: handing the end `w` of its source to a frame leads to the end `w'`,
and through the nodes of `o` if a continuation returns an effect. -/
inductive Feeds : Frame S → Verdict S → σ → Verdict S → Option Unfolding → σ → Prop where
  | stopped {frame : Frame S} {c : Stop S} {s : σ} : Feeds frame (.error c) s (.error c) none s
  | map {f : S.Transform} {v : S.Value} {out : Outcome S S.Value} {s s' : σ} :
    M.Runs (fns.transform f v) s out s' →
    Feeds (.map f) (.ok v) s (out.within .transform) none s'
  | flatMap {k : S.Continuation} {v : S.Value} {e : Effect S} {w : Verdict S} {u : Unfolding}
    {s s' s'' : σ} : M.Runs (fns.continuation k v) s (.returned e) s' →
    Unfolds M fns e s' w u s'' → Feeds (.flatMap k) (.ok v) s w (some u) s''
  | refused {k : S.Continuation} {v : S.Value} {out : Outcome S (Effect S)} {c : Stop S}
    {s s' : σ} : M.Runs (fns.continuation k v) s out s' → out.within .continuation = .error c →
    Feeds (.flatMap k) (.ok v) s (.error c) none s'

end

variable {w₁ : Verdict S} {o : Option Unfolding} {frame : Frame S}

theorem Feeds.of_error {c : Stop S} (h : Feeds M fns frame (.error c) s w o s') :
    w = .error c ∧ o = none ∧ s' = s := by
  cases h
  exact ⟨rfl, rfl, rfl⟩

/-- Only a value of the source leads to a value. -/
theorem Feeds.source_ok {v : S.Value} (h : Feeds M fns frame w₁ s (.ok v) o s') :
    ∃ v₁, w₁ = .ok v₁ := by
  cases w₁ with
  | ok v₁ => exact ⟨v₁, rfl⟩
  | error c => exact absurd h.of_error.1 (by simp)

/-- A continuation that returns no effect leads to a failure. -/
theorem Feeds.of_none {k : S.Continuation} (h : Feeds M fns (.flatMap k) w₁ s w none s') :
    ∃ c, w = .error c := by
  cases h with
  | stopped => exact ⟨_, rfl⟩
  | refused => exact ⟨_, rfl⟩

theorem unfolds_around_iff (frame : Frame S) :
    Unfolds M fns (frame.around e) s w u s' ↔ ∃ w₁ u₁ s₁ o, Unfolds M fns e s w₁ u₁ s₁ ∧
      Feeds M fns frame w₁ s₁ w o s' ∧ u = u₁.node o := by
  constructor
  · intro h
    cases frame with
    | map f =>
      cases h with
      | map he hf => exact ⟨_, _, _, _, he, .map hf, rfl⟩
      | mapStopped he => exact ⟨_, _, _, _, he, .stopped, rfl⟩
    | flatMap k =>
      cases h with
      | flatMap he hk he' => exact ⟨_, _, _, _, he, .flatMap hk he', rfl⟩
      | flatMapRefused he hk hc => exact ⟨_, _, _, _, he, .refused hk hc, rfl⟩
      | flatMapStopped he => exact ⟨_, _, _, _, he, .stopped, rfl⟩
  · rintro ⟨w₁, u₁, s₁, o, he, hf, rfl⟩
    cases hf with
    | stopped =>
      cases frame with
      | map f => exact .mapStopped he
      | flatMap k => exact .flatMapStopped he
    | map hf => exact .map he hf
    | flatMap hk he' => exact .flatMap he hk he'
    | refused hk hc => exact .flatMapRefused he hk hc

/-! ### The counters of slices -/

theorem Answer.eq_ok_of_completed {catching : Bool} {w : Verdict S} {v : S.Value}
    (h : .completed v = Answer.ofVerdict catching w) : w = .ok v := by
  cases w with
  | ok v' =>
    cases h
    rfl
  | error c =>
    cases c with
    | mismatched expected => cases h
    | panicked stage p => cases catching <;> cases h

namespace Trampoline

variable {root : Effect S} {catching : Bool} {budgets : List ℕ}

/-- Slices that come to an end have gone through the nodes of a tree, which gives their counters. -/
theorem drive_unfolds (hx : M.Exact) (hq : fns.Quiet M) {a : Answer S} {t : Trampoline S}
    (h : M.Runs (drive fns catching budgets (.start root)) s (a, t) s') (ha : a ≠ .suspended) :
    ∃ w u, a = .ofVerdict catching w ∧ Unfolds M fns root s w u s' ∧ u.steps ≤ budgets.sum ∧
      t.stats = u.counters (cuts budgets u.steps) := by
  obtain ⟨w, l, rfl, hn, hstats, hc⟩ := counted_of_drive hx hq (t := .start root) rfl h ha
  obtain ⟨u, hu, hl⟩ := (completes_nil_iff.1 hc).unfolds
  rw [hl.steps] at hn hstats
  exact ⟨w, u, rfl, hu, hn, hstats.trans (hl.counters _)⟩

/-- Slices go through the nodes of a tree, if their budgets grant them. -/
theorem unfolds_drive (hs : fns.Silent M) (h : Unfolds M fns root s w u s')
    (hn : u.steps ≤ budgets.sum) :
    ∃ t, M.Runs (drive fns catching budgets (.start root)) s (.ofVerdict catching w, t) s' ∧
      t.stats = u.counters (cuts budgets u.steps) := by
  obtain ⟨l, hl, hu⟩ := h.evaluates 0
  have hc : Completes M fns root (start root).stack.list s w l s' := completes_nil_iff.2 hl
  rw [← hu.counters, ← hu.steps]
  exact drive_counted hs rfl hc (by rwa [hu.steps])

end Trampoline

end LazyEffects
