import LazyEffects.Proofs.Pace
import LazyEffects.Proofs.Unfolding

/-!
# What a run costs

The counters of a run follow from the nodes of its evaluation alone. Budgets only decide how often
it is suspended, and where it takes place decides nothing.

* `Machine.Apart.charged`: the counters that are handed to a completion callback;
* `Unfolds.exists_rounds`: a loop whose continuation returns another round costs the same in each
  round, and each transform on top of a round stays pending until the end;
* `Machine.Apart.costs`: slices with any budgets and runs at any host, together.
-/

namespace LazyEffects

open Deed

/-! ### Loops -/

namespace Unfolding

/-- The tree of a loop: `n` rounds, each with `c` transforms on top of it, and then `u`. -/
def rounds (c : ℕ) (u : Unfolding) : ℕ → Unfolding
  | 0 => u
  | n + 1 => map^[c] (flatMap sync (rounds c u n))

theorem steps_map_iterate (c : ℕ) (u : Unfolding) : (map^[c] u).steps = c + u.steps := by
  induction c with
  | zero => exact (Nat.zero_add _).symm
  | succ c ih =>
    rw [Function.iterate_succ_apply', steps, ih]
    omega

theorem peak_map_iterate (c : ℕ) (u : Unfolding) (d : ℕ) :
    (map^[c] u).peak d = u.peak (d + c) := by
  induction c generalizing d with
  | zero => rfl
  | succ c ih =>
    rw [Function.iterate_succ_apply', peak, ih, Nat.add_right_comm]
    rfl

theorem steps_rounds (c : ℕ) (u : Unfolding) (n : ℕ) :
    (rounds c u n).steps = n * (c + 2) + u.steps := by
  induction n with
  | zero => simp [rounds]
  | succ n ih =>
    rw [rounds, steps_map_iterate, steps, steps, ih, Nat.add_one_mul]
    omega

/-- Each round leaves its transforms pending, and nothing else. -/
theorem peak_rounds (c : ℕ) (u : Unfolding) (n : ℕ) :
    (rounds c u (n + 1)).peak 0 = (n + 1) * c + max 1 (u.peak 0) := by
  induction n with
  | zero =>
    rw [rounds, peak_map_iterate, peak, peak, rounds, u.peak_eq]
    omega
  | succ n ih =>
    rw [rounds, peak_map_iterate, peak, peak, peak_eq, ih, Nat.add_one_mul (n + 1)]
    omega

end Unfolding

section

variable {S : Signature} {m : Type → Type} [Monad m] {σ : Type}

/-- A round of a loop: a leaf that is fed to `k`, with the transforms `fs` on top. -/
def Effect.round (t : S.Thunk) (k : S.Continuation) (fs : List S.Transform) : Effect S :=
  fs.foldr (fun f e => .map e f) (.flatMap (.sync t) k)

/-- Whenever `k` returns, it returns another round with `c` transforms on top, or one of the effects
with which the loop ends. -/
def Functions.GoesRound (M : Meaning m σ) (fns : Functions S m) (k : S.Continuation) (c : ℕ)
    (last : Effect S → Prop) : Prop :=
  ∀ v s e s', M.Runs (fns.continuation k v) s (.returned e) s' →
    (∃ t fs, fs.length = c ∧ e = .round t k fs) ∨ last e

variable {M : Meaning m σ} {fns : Functions S m} {k : S.Continuation} {c : ℕ}
  {last : Effect S → Prop}

/-- An evaluation of a loop that comes to a value goes round some number of times, and then through
one of the effects with which the loop ends. -/
theorem Unfolds.exists_rounds (hk : fns.GoesRound M k c last) {t : S.Thunk}
    {fs : List S.Transform} {s s' : σ} {v : S.Value} {u : Unfolding}
    (h : Unfolds M fns (.round t k fs) s (.ok v) u s') :
    ∃ n e v' u' s₁ s₂, last e ∧ Unfolds M fns e s₁ (.ok v') u' s₂ ∧
      u = Unfolding.map^[fs.length] (.flatMap .sync (.rounds c u' n)) := by
  generalize he : Effect.round t k fs = e, hw : (.ok v : Verdict S) = w at h
  -- On the evaluation: below the transforms of a round is the effect that `k` returns.
  induction h generalizing t fs v with
  | sync => cases fs <;> cases he
  | map _ _ ih =>
    cases fs with
    | nil => cases he
    | cons f fs =>
      cases he
      obtain ⟨n, e, v', u', s₁, s₂, hlast, hu', rfl⟩ := ih rfl rfl
      exact ⟨n, e, v', u', s₁, s₂, hlast, hu', (Function.iterate_succ_apply' _ _ _).symm⟩
  | mapStopped => cases hw
  | @flatMap e e' k v₁ w u₁ u' s s₁ s₂ s₃ hleaf hcont he' _ ih =>
    cases fs with
    | cons f fs => cases he
    | nil =>
      cases he
      cases hw
      obtain rfl := hleaf.eq_sync
      rcases hk _ _ _ _ hcont with ⟨t', fs', rfl, rfl⟩ | hlast
      · obtain ⟨n, e, v', u', s₁, s₂, hlast, hu', rfl⟩ := ih rfl rfl
        exact ⟨n + 1, e, v', u', s₁, s₂, hlast, hu', rfl⟩
      · exact ⟨0, e', v, u', s₂, s₃, hlast, he', rfl⟩
  | flatMapRefused => cases hw
  | flatMapStopped => cases hw

/-- The cost of a loop: each round takes the same number of steps, and the frames that are pending
grow by the transforms on top of each round. -/
theorem Unfolds.costs_of_loop (hk : fns.GoesRound M k c last) {t : S.Thunk}
    {fs : List S.Transform} (hfs : fs.length = c) {s s' : σ} {v : S.Value} {u : Unfolding}
    (h : Unfolds M fns (.round t k fs) s (.ok v) u s') :
    ∃ n e v' u' s₁ s₂, 0 < n ∧ last e ∧ Unfolds M fns e s₁ (.ok v') u' s₂ ∧
      u.steps = n * (c + 2) + u'.steps ∧ u.peak 0 = n * c + max 1 (u'.peak 0) := by
  obtain ⟨n, e, v', u', s₁, s₂, hlast, hu', rfl⟩ := h.exists_rounds hk
  have hrounds : Unfolding.map^[fs.length] (.flatMap .sync (.rounds c u' n)) =
      .rounds c u' (n + 1) := by rw [hfs, Unfolding.rounds]
  rw [hrounds]
  exact ⟨n + 1, e, v', u', s₁, s₂, Nat.succ_pos n, hlast, hu', Unfolding.steps_rounds ..,
    Unfolding.peak_rounds ..⟩

/-- The counters of slices with any budgets, one after the other, that come to a value. -/
structure Functions.Charged (M : Meaning m σ) (fns : Functions S m) : Prop where
  /-- They are those of the nodes gone through. Calls cost nothing. -/
  completed {catching : Bool} {budgets : List ℕ} {root : Effect S} {s s' : σ} {v : S.Value}
    {t : Trampoline S} :
    M.Runs (Trampoline.drive fns catching budgets (.start root)) s (.completed v, t) s' →
      ∃ u l, Unfolds M fns root s (.ok v) u s' ∧ Evaluates M fns 0 root s (.ok v) l s' ∧
        u.steps = (visited l).length ∧ u.steps ≤ budgets.sum ∧
          t.stats = u.counters (Trampoline.cuts budgets u.steps)
  /-- The value is reached if the budgets grant the nodes. -/
  reached {catching : Bool} {budgets : List ℕ} {root : Effect S} {s s' : σ} {v : S.Value}
    {u : Unfolding} : Unfolds M fns root s (.ok v) u s' → u.steps ≤ budgets.sum →
      ∃ t, M.Runs (Trampoline.drive fns catching budgets (.start root)) s (.completed v, t) s' ∧
        t.stats = u.counters (Trampoline.cuts budgets u.steps)
  /-- A loop goes round some number of times. Of a round no frames stay behind but those of the
  transforms on top of it. -/
  loops {k : S.Continuation} {c : ℕ} {last : Effect S → Prop} : fns.GoesRound M k c last →
    ∀ {catching : Bool} {budgets : List ℕ} {thunk : S.Thunk} {fs : List S.Transform} {s s' : σ}
      {v : S.Value} {t : Trampoline S}, fs.length = c →
      M.Runs (Trampoline.drive fns catching budgets (.start (.round thunk k fs))) s
        (.completed v, t) s' →
      ∃ n e v' u s₁ s₂, 0 < n ∧ last e ∧ Unfolds M fns e s₁ (.ok v') u s₂ ∧
        t.stats.steps = n * (c + 2) + u.steps ∧ t.stats.maxStack = n * c + max 1 (u.peak 0)

theorem Functions.charged (hx : M.Exact) (hs : fns.Silent M) (hq : fns.Quiet M) :
    fns.Charged M where
  completed h := by
    obtain ⟨w, u, hw, hu, hn, hstats⟩ := Trampoline.drive_unfolds hx hq h (by simp)
    obtain rfl := Answer.eq_ok_of_completed hw
    obtain ⟨l, hl, hlu⟩ := hu.evaluates 0
    exact ⟨u, l, hu, hl, hlu.steps.symm, hn, hstats⟩
  reached hu hn := Trampoline.unfolds_drive hs hu hn
  loops hk := by
    intro catching budgets thunk fs s s' v t hfs h
    obtain ⟨w, u, hw, hu, -, hstats⟩ := Trampoline.drive_unfolds hx hq h (by simp)
    obtain rfl := Answer.eq_ok_of_completed hw
    rw [hstats]
    exact hu.costs_of_loop hk hfs

end

/-! ### Runs -/

variable {K : Codes} {M A : Type}

namespace Machine

/-- The counters of a run that begins now. -/
structure Charged (client : Client K M) (own : M → A) (ρ : Run K) (program : Program K.signature)
    (m : Machine K M) : Prop where
  /-- At its end, be it a value or a failure, the run has gone through the nodes of a tree, which
  gives the counters. -/
  ends {n : ℕ} {a : Answer K.signature} {t : Trampoline K.signature} :
    (m.run client n).Concludes ρ a t → ∃ w u,
      Unfolds (.amidst own) client.functions program.root (own m.world.memory) w u
        (own (m.run client n).world.memory) ∧ a = .ofVerdict ρ.config.catchPanics w ∧
      t.stats = u.counters (u.steps ⌈/⌉ ρ.config.stepBudget - 1)
  /-- These are the counters that a completion callback is given. -/
  completes {n : ℕ} {v : K.signature.Value} {stats : Stats} :
    (m.run client n).focus = .complete ρ v stats → (∃ u x,
      Unfolds (.amidst own) client.functions program.root (own m.world.memory) (.ok v) u x ∧
        stats = u.counters (u.steps ⌈/⌉ ρ.config.stepBudget - 1)) ∧
      ∀ c e, ρ.recipient = .callbacks c e →
        (m.run client (n + 1)).focus = .script .body (client.completion c v stats)
  /-- If the functions of the run ask for nothing and work on their own part of the memory, the tree
  is known beforehand. -/
  foreseen {w : Verdict K.signature} {u : Unfolding} {x : A} :
    Unfolds (.own own) client.functions program.root (own m.world.memory) w u x →
      (∀ n a t, (m.run client n).Concludes ρ a t → a = .ofVerdict ρ.config.catchPanics w ∧
        t.stats = u.counters (u.steps ⌈/⌉ ρ.config.stepBudget - 1)) ∧
      ∀ n v stats, (m.run client n).focus = .complete ρ v stats → w = .ok v ∧
        stats = u.counters (u.steps ⌈/⌉ ρ.config.stepBudget - 1)
  /-- The counters of a loop. -/
  loops {k : K.signature.Continuation} {c : ℕ} {last : Effect K.signature → Prop} :
    client.functions.GoesRound (.amidst own) k c last →
      ∀ {thunk : K.signature.Thunk} {fs : List K.signature.Transform}, fs.length = c →
        program.root = .round thunk k fs →
        ∀ {n : ℕ} {v : K.signature.Value} {stats : Stats},
          (m.run client n).focus = .complete ρ v stats → ∃ r e v' u s₁ s₂, 0 < r ∧ last e ∧
            Unfolds (.amidst own) client.functions e s₁ (.ok v') u s₂ ∧
              stats.steps = r * (c + 2) + u.steps ∧ stats.maxStack = r * c + max 1 (u.peak 0)

namespace Apart

variable {client : Client K M} {own : M → A} {m : Machine K M} {ρ : Run K}
  {program : Program K.signature} {n : ℕ} {a : Answer K.signature} {t : Trampoline K.signature}

/-- At its end a run has gone through the nodes of a tree. -/
theorem unfolds (h : Apart client own ρ program m) (hc : (m.run client n).Concludes ρ a t) :
    ∃ w u, Unfolds (.amidst own) client.functions program.root (own m.world.memory) w u
        (own (m.run client n).world.memory) ∧ a = .ofVerdict ρ.config.catchPanics w ∧
      t.stats = u.counters (u.steps ⌈/⌉ ρ.config.stepBudget - 1) := by
  obtain ⟨w, l, ha, he, hstats, hlt, hle⟩ := (h.ends_of_concludes hc).counted h.events
  obtain ⟨u, hu, hl⟩ := he.unfolds
  rw [hl.steps] at hlt hle
  refine ⟨w, u, hu, ha, ?_⟩
  rw [hstats, hl.counters, Errand.eq_ceilDiv_sub_one hlt hle]
  rfl

/-- A run whose tree is known goes through this one. -/
theorem unfolds_foreseen (h : Apart client own ρ program m) {w : Verdict K.signature}
    {u : Unfolding} {x : A}
    (hu : Unfolds (.own own) client.functions program.root (own m.world.memory) w u x)
    (hc : (m.run client n).Concludes ρ a t) : a = .ofVerdict ρ.config.catchPanics w ∧
      t.stats = u.counters (u.steps ⌈/⌉ ρ.config.stepBudget - 1) := by
  obtain ⟨deeds, he, hl⟩ := hu.evaluates 0
  obtain ⟨ha, -, hstats⟩ := (h.ends_of_concludes hc).counted_of_evaluates h.events he
  -- The steps are the same as those of the tree that is found afterwards.
  obtain ⟨w', u', -, -, hstats'⟩ := h.unfolds hc
  rw [hl.counters] at hstats
  have hsteps : u.steps = u'.steps := congrArg Stats.steps (hstats.symm.trans hstats')
  have hsuspensions := congrArg Stats.suspensions (hstats.symm.trans hstats')
  refine ⟨ha, hstats.trans ?_⟩
  rw [hsteps]
  exact congrArg u.counters hsuspensions

/-- Every run has the counters of the nodes that it goes through, whatever its budget is and
wherever it takes place. -/
theorem charged (h : Apart client own ρ program m) : Charged client own ρ program m := by
  have hcompletes {n : ℕ} {v : K.signature.Value} {stats : Stats}
      (hf : (m.run client n).focus = .complete ρ v stats) : ∃ u x,
        Unfolds (.amidst own) client.functions program.root (own m.world.memory) (.ok v) u x ∧
          stats = u.counters (u.steps ⌈/⌉ ρ.config.stepBudget - 1) := by
    obtain ⟨⟨j, -, t, hc, rfl⟩, -⟩ := h.completes hf
    obtain ⟨w, u, hu, ha, hstats⟩ := h.unfolds hc
    obtain rfl := Answer.eq_ok_of_completed ha
    exact ⟨u, _, hu, hstats⟩
  refine ⟨h.unfolds, fun hf => ⟨hcompletes hf, (h.completes hf).2⟩, fun hu => ⟨?_, ?_⟩, ?_⟩
  · intro n a t hc
    exact h.unfolds_foreseen hu hc
  · intro n v stats hf
    obtain ⟨⟨j, -, t, hc, rfl⟩, -⟩ := h.completes hf
    obtain ⟨ha, hstats⟩ := h.unfolds_foreseen hu hc
    exact ⟨Answer.eq_ok_of_completed ha, hstats⟩
  · intro k c last hk thunk fs hfs hroot n v stats hf
    obtain ⟨u, x, hu, rfl⟩ := hcompletes hf
    rw [hroot] at hu
    exact hu.costs_of_loop hk hfs

/-- The counters of a run that completes are those of the nodes of its evaluation. This is so for
slices with any budgets, and for every run at any host and among any others. -/
theorem costs (h : Apart client own ρ program m) {S : Signature} {μ : Type → Type} [Monad μ]
    {σ : Type} {meaning : Meaning μ σ} {fns : Functions S μ} (hx : meaning.Exact)
    (hs : fns.Silent meaning) (hq : fns.Quiet meaning) :
    fns.Charged meaning ∧ Charged client own ρ program m :=
  ⟨Functions.charged hx hs hq, h.charged⟩

end Apart

end Machine

/-! ### Counting down -/

/-- Codes for loops that count down. -/
def Countdown : Codes where
  signature :=
    { Ty := Unit, typeName := fun _ => "unit", Value := ℕ, typeOf := fun _ => (), Thunk := ℕ,
      Transform := Unit, Continuation := ℕ }
  Task := Empty
  Completion := Unit
  Handler := Empty

namespace Countdown

open Machine

/-- What is left to do at `v`, with `c` transforms on top of each round. -/
def left (c : ℕ) : ℕ → Effect Countdown.signature
  | 0 => .sync (0 : ℕ)
  | v + 1 => .round v c (.replicate c ())

def client : Client Countdown Unit where
  thunk n := .done (.returned n)
  transform _ v := .done (.returned v)
  continuation c v := .done (.returned (left c v))
  task t := t.elim
  discard t := t.elim
  completion _ _ _ := .done (.ok ())
  handler h _ := h.elim
  observe _ memory := memory

/-- Count down from `n`. -/
def program (c n : ℕ) : Program Countdown.signature := ⟨.round n c (.replicate c ()), ()⟩

/-- The run that counts down from 2 with a transform on top of each round. -/
def run : Run Countdown := .alone ⟨4, .zero, true⟩ .log (program 1 2) ()

/-- This run is about to begin, and its tasks are to be fired. -/
def session : Machine Countdown Unit :=
  (initial (.initial .still ()) (.alone ⟨4, .zero, true⟩ .log (program 1 2) () 2)).run client 5

theorem goesRound (c : ℕ) :
    client.functions.GoesRound (.amidst id) c c fun e => e = .sync (0 : ℕ) := by
  intro v s e s' h
  cases v with
  | zero =>
    cases h
    exact .inr rfl
  | succ v =>
    cases h
    exact .inl ⟨v, _, List.length_replicate, rfl⟩

theorem unfolds_transforms {M : Meaning (Script Countdown Unit) Unit}
    {e : Effect Countdown.signature} {v : ℕ} {u : Unfolding}
    (h : Unfolds M client.functions e () (.ok v) u ()) (c : ℕ) :
    Unfolds M client.functions ((List.replicate c ()).foldr (fun f e => .map e f) e) () (.ok v)
      (Unfolding.map^[c] u) () := by
  induction c with
  | zero => exact h
  | succ c ih =>
    have hreturns : M.Runs (client.functions.transform () v) () (.returned v) () :=
      M.runs_pure _ ()
    rw [Function.iterate_succ_apply']
    exact Unfolds.map ih hreturns

/-- From `n` there are `n + 1` rounds. -/
theorem unfolds_program (M : Meaning (Script Countdown Unit) Unit) (c n : ℕ) :
    Unfolds M client.functions (program c n).root () (.ok (0 : ℕ)) (.rounds c .sync (n + 1))
      () := by
  have hleaf (n : ℕ) : Unfolds M client.functions (.sync n) ()
      ((Outcome.returned n).within .thunk) .sync () := .sync (M.runs_pure _ ())
  induction n with
  | zero =>
    exact unfolds_transforms (.flatMap (hleaf 0) (M.runs_pure (Outcome.returned _) ()) (hleaf 0)) c
  | succ n ih =>
    exact unfolds_transforms
      (.flatMap (hleaf (n + 1)) (M.runs_pure (Outcome.returned _) ()) ih) c

theorem apart : Apart client (fun _ => ()) run (program 1 2) session :=
  InSession.apart ⟨_, _, _, _, rfl⟩ rfl rfl

theorem countdown_costs :
    (∃ t, (Meaning.amidst id).Runs (Trampoline.drive client.functions true [4, 0, 9]
      (.start (program 1 2).root)) () (.completed (0 : ℕ), t) () ∧ t.stats = ⟨10, 2, 4⟩) ∧
    (∀ budgets n v t, (Meaning.amidst id).Runs (Trampoline.drive client.functions true budgets
      (.start (program 0 n).root)) () (.completed v, t) () → t.stats.maxStack = 1) ∧
    (∀ n v stats, (session.run client n).focus = .complete run v stats →
      v = (0 : ℕ) ∧ stats = ⟨10, 2, 4⟩) ∧
    (session.run client 29).focus = .complete run (0 : ℕ) ⟨10, 2, 4⟩ := by
  have hsilent : client.functions.Silent (.amidst id) := fun _ _ => .update .done
  obtain ⟨hslices, hrun⟩ :=
    apart.costs (Meaning.amidst_exact id) hsilent (Client.Spares.quiet fun _ _ => rfl)
  refine ⟨?_, ?_, ?_, ?_⟩
  · exact hslices.reached (unfolds_program _ 1 2) (by decide)
  · intro budgets n v t h
    have hbare : (List.replicate 0 ()).length = 0 := rfl
    obtain ⟨r, e, v', u, s₁, s₂, -, rfl, hu, -, hmax⟩ := hslices.loops (goesRound 0) hbare h
    rw [hmax, hu.eq_sync]
    rfl
  · intro n v stats hf
    obtain ⟨-, hcompletes⟩ := hrun.foreseen (unfolds_program _ 1 2)
    obtain ⟨hv, rfl⟩ := hcompletes n v stats hf
    cases hv
    exact ⟨rfl, by cbv⟩
  · cbv

end Countdown

end LazyEffects
