import LazyEffects.Proofs.Catching
import LazyEffects.Proofs.Typing

/-!
# Node by node

A slice goes into nodes one after the other. What follows a node does not depend on the budget of
the slice: another node with the frames that are pending there, or the end of the evaluation
(`Sequel`). The budget only says where the slice stops, and since it puts back the node at which it
stops, the next slice goes on as if there had been no stop.

* `Trampoline.descend_succ`: a slice goes into its first node and on with what follows;
* `Trampoline.pass_proper`: where the evaluation ends, it ends as an evaluation does;
* `Trampoline.slices_compose`: two slices one after the other are one slice of both budgets.
-/

namespace LazyEffects

open Deed

variable {S : Signature} {m : Type → Type} [Monad m] {σ : Type}

namespace Stats

theorem suspend_inj {c c' : Stats} (h : c.suspend = c'.suspend) : c = c' := by
  cases c
  cases c'
  simpa [suspend] using h

theorem suspend_after_visit (c : Stats) (e : Effect S) (height : ℕ) :
    c.suspend.after [Deed.visit e height] = (c.after [Deed.visit e height]).suspend := by
  cases e <;> rfl

end Stats

namespace Trampoline

/-- What follows a node. -/
inductive Sequel (S : Signature) where
  /-- Another node, with `rest` pending there. -/
  | next (e : Effect S) (rest : Frames S)
  /-- The answer of the slice, with `rest` left behind. -/
  | answer (a : Answer S) (rest : Frames S)

section

variable (fns : Functions S m) (catching : Bool)

/-- Go into a node: down to its source, or, at a leaf, back through the pending frames. -/
def pass (e : Effect S) (stack : Frames S) : m (Sequel S) :=
  match e with
  | .map source f => pure (.next source (stack.push (.map f)))
  | .flatMap source k => pure (.next source (stack.push (.flatMap k)))
  | .sync t => do
    match ← fns.thunk t with
    | .returned v =>
      match ← unwind fns catching stack v with
      | .delivered v => pure (.answer (.completed v) .empty)
      | .entered e rest => pure (.next e rest)
      | .stopped a rest => pure (.answer a rest)
    | .mismatched expected => pure (.answer (.ofMismatch expected) stack)
    | .panicked p => pure (.answer (.ofPanic catching .thunk p) stack)

/-- Go on with what follows a node, for at most `n` more nodes. -/
def proceed (n : ℕ) (stats : Stats) : Sequel S → m (Answer S × Trampoline S)
  | .next e rest => descend fns catching n e rest stats
  | .answer a rest => pure (a, ⟨none, rest, stats⟩)

end

variable [LawfulMonad m] {M : Meaning m σ} {fns : Functions S m} {catching : Bool} {n : ℕ}
  {e : Effect S} {stack : Frames S} {stats : Stats}

/-- A slice that may go into a node does so and goes on with what follows. -/
theorem descend_succ (n : ℕ) (e : Effect S) (stack : Frames S) (stats : Stats) :
    descend fns catching (n + 1) e stack stats =
      fns.observe (.visited e.kind stack.height) >>= fun _ => pass fns catching e stack >>=
        proceed fns catching n (stats.after [visit e stack.height]) := by
  rw [descend]
  refine bind_congr fun _ => ?_
  cases e with
  | map source f => simp [pass, proceed, Stats.after]
  | flatMap source k => simp [pass, proceed, Stats.after]
  | sync t =>
    simp only [pass, Stats.after, bind_assoc]
    refine bind_congr fun out => ?_
    cases out with
    | returned v =>
      simp only [bind_assoc]
      refine bind_congr fun u => ?_
      cases u <;> simp [proceed]
    | mismatched expected => simp [proceed]
    | panicked p => simp [proceed]

/-! ### Ends -/

/-- Where frames stop a value, an evaluation stops. -/
def Unwound.Proper (catching : Bool) : Unwound S → Prop
  | .stopped a _ => ∃ c, a = .ofStop catching c
  | _ => True

/-- An answer is the end of an evaluation. -/
def Sequel.Proper (catching : Bool) : Sequel S → Prop
  | .answer a _ => ∃ w, a = .ofVerdict catching w
  | .next _ _ => True

theorem unwindList_proper (fns : Functions S m) (catching : Bool) (list : List (Frame S))
    (height : ℕ) (h : height = list.length) (v : S.Value) :
    Yields (Unwound.Proper catching) (unwindList fns catching list height h v) := by
  induction list generalizing height v with
  | nil => exact .pure trivial
  | cons frame list ih =>
    cases frame with
    | map f =>
      refine (Yields.any _).bind fun out _ => ?_
      cases out with
      | returned v => exact ih _ _ v
      | mismatched expected => exact .pure ⟨.mismatched expected, rfl⟩
      | panicked p => exact .pure ⟨.panicked .transform p, rfl⟩
    | flatMap k =>
      refine (Yields.any _).bind fun out _ => ?_
      cases out with
      | returned e => exact .pure trivial
      | mismatched expected => exact .pure ⟨.mismatched expected, rfl⟩
      | panicked p => exact .pure ⟨.panicked .continuation p, rfl⟩

/-- Where a node ends the evaluation, it ends with a value or with the first failure. -/
theorem pass_proper (fns : Functions S m) (catching : Bool) (e : Effect S) (stack : Frames S) :
    Yields (Sequel.Proper catching) (pass fns catching e stack) := by
  cases e with
  | map source f => exact .pure trivial
  | flatMap source k => exact .pure trivial
  | sync t =>
    refine (Yields.any _).bind fun out _ => ?_
    cases out with
    | returned v =>
      refine (unwindList_proper fns catching _ _ stack.height_eq v).bind fun u hu => ?_
      cases u with
      | delivered v => exact .pure ⟨.ok v, rfl⟩
      | entered e rest => exact .pure trivial
      | stopped a rest =>
        obtain ⟨c, rfl⟩ := hu
        exact .pure ⟨.error c, rfl⟩
    | mismatched expected => exact .pure ⟨.error (.mismatched expected), rfl⟩
    | panicked p => exact .pure ⟨.error (.panicked .thunk p), rfl⟩

/-! ### Slices one after the other -/

section

variable {s s' : σ} {a : Answer S} {t : Trampoline S}

omit [LawfulMonad m] in
theorem runs_descend_zero_iff (hx : M.Exact) (hs : fns.Silent M) (hq : fns.Quiet M) :
    M.Runs (descend fns catching 0 e stack stats) s (a, t) s' ↔
      a = .suspended ∧ t = ⟨some e, stack, stats.suspend⟩ ∧ s' = s := by
  constructor
  · intro h
    obtain ⟨_, s₁, ho, hpure⟩ := hx.of_bind h
    obtain rfl := hq _ _ _ ho
    obtain ⟨hout, rfl⟩ := hx.of_pure hpure
    cases hout
    exact ⟨rfl, rfl, rfl⟩
  · rintro ⟨rfl, rfl, rfl⟩
    exact M.runs_bind (hs _ _) (M.runs_pure _ _)

/-- What a slice does, node by node. -/
theorem runs_descend_succ_iff (hx : M.Exact) (hs : fns.Silent M) (hq : fns.Quiet M) :
    M.Runs (descend fns catching (n + 1) e stack stats) s (a, t) s' ↔
      ∃ q s₁, M.Runs (pass fns catching e stack) s q s₁ ∧
        M.Runs (proceed fns catching n (stats.after [visit e stack.height]) q) s₁ (a, t) s' := by
  rw [descend_succ]
  constructor
  · intro h
    obtain ⟨_, s₁, ho, hpass⟩ := hx.of_bind h
    obtain rfl := hq _ _ _ ho
    exact hx.of_bind hpass
  · rintro ⟨q, s₁, hpass, hproceed⟩
    exact M.runs_bind (hs _ _) (M.runs_bind hpass hproceed)

/-- The same evaluation, suspended once more. -/
def paused (t : Trampoline S) : Trampoline S := { t with stats := t.stats.suspend }

/-- What a slice does is done regardless of the suspensions before it. -/
theorem runs_descend_suspend_iff (hx : M.Exact) (hs : fns.Silent M) (hq : fns.Quiet M) :
    M.Runs (descend fns catching n e stack stats.suspend) s (a, t) s' ↔
      ∃ t₁, t = t₁.paused ∧ M.Runs (descend fns catching n e stack stats) s (a, t₁) s' := by
  induction n generalizing e stack stats s with
  | zero =>
    simp only [runs_descend_zero_iff hx hs hq]
    constructor
    · rintro ⟨rfl, rfl, rfl⟩
      exact ⟨_, rfl, rfl, rfl, rfl⟩
    · rintro ⟨_, rfl, rfl, rfl, rfl⟩
      exact ⟨rfl, rfl, rfl⟩
  | succ n ih =>
    simp only [runs_descend_succ_iff hx hs hq, Stats.suspend_after_visit]
    constructor
    · rintro ⟨q, s₁, hpass, hrest⟩
      cases q with
      | next e' rest =>
        obtain ⟨t₁, rfl, hrun⟩ := ih.1 hrest
        exact ⟨t₁, rfl, .next e' rest, s₁, hpass, hrun⟩
      | answer a' rest =>
        obtain ⟨hout, rfl⟩ := hx.of_pure hrest
        cases hout
        exact ⟨_, rfl, _, _, hpass, M.runs_pure _ _⟩
    · rintro ⟨t₁, rfl, q, s₁, hpass, hrest⟩
      refine ⟨q, s₁, hpass, ?_⟩
      cases q with
      | next e' rest => exact ih.2 ⟨t₁, rfl, hrest⟩
      | answer a' rest =>
        obtain ⟨hout, rfl⟩ := hx.of_pure hrest
        cases hout
        exact M.runs_pure _ _

/-- A slice with the budget `n + b`: it is over before `n` nodes are used up, or it goes on where a
slice with the budget `n` stops. -/
theorem runs_descend_add_iff (hx : M.Exact) (hs : fns.Silent M) (hq : fns.Quiet M) {b : ℕ} :
    M.Runs (descend fns catching (n + b) e stack stats) s (a, t) s' ↔
      (∃ e₁ rest stats₁ s₁, M.Runs (descend fns catching n e stack stats) s
          (.suspended, ⟨some e₁, rest, stats₁.suspend⟩) s₁ ∧
        M.Runs (descend fns catching b e₁ rest stats₁) s₁ (a, t) s') ∨
      a ≠ .suspended ∧ M.Runs (descend fns catching n e stack stats) s (a, t) s' := by
  -- On the budget of the first slice: it goes into the same nodes as the single slice.
  induction n generalizing e stack stats s with
  | zero =>
    rw [Nat.zero_add]
    simp only [runs_descend_zero_iff hx hs hq]
    constructor
    · intro h
      exact .inl ⟨e, stack, stats, s, ⟨trivial, rfl, rfl⟩, h⟩
    · rintro (⟨e₁, rest, stats₁, s₁, ⟨-, ht, rfl⟩, h⟩ | ⟨hne, rfl, -⟩)
      · simp only [mk.injEq, Option.some.injEq] at ht
        obtain ⟨rfl, rfl, hstats⟩ := ht
        rwa [← Stats.suspend_inj hstats]
      · exact absurd rfl hne
  | succ n ih =>
    rw [Nat.succ_add]
    simp only [runs_descend_succ_iff hx hs hq]
    constructor
    · rintro ⟨q, s₁, hpass, hrest⟩
      cases q with
      | next e' rest =>
        rcases ih.1 hrest with ⟨e₁, rest₁, stats₁, s₂, hn, hb⟩ | ⟨hne, hn⟩
        · exact .inl ⟨e₁, rest₁, stats₁, s₂, ⟨_, s₁, hpass, hn⟩, hb⟩
        · exact .inr ⟨hne, _, s₁, hpass, hn⟩
      | answer a' rest =>
        obtain ⟨w, rfl⟩ := (pass_proper fns catching e stack).of_runs hx hpass
        obtain ⟨hout, rfl⟩ := hx.of_pure hrest
        cases hout
        exact .inr ⟨Answer.ofVerdict_ne_suspended _ w, _, _, hpass, M.runs_pure _ _⟩
    · rintro (⟨e₁, rest₁, stats₁, s₂, ⟨q, s₁, hpass, hn⟩, hb⟩ | ⟨hne, q, s₁, hpass, hn⟩)
      · refine ⟨q, s₁, hpass, ?_⟩
        cases q with
        | next e' rest => exact ih.2 (.inl ⟨e₁, rest₁, stats₁, s₂, hn, hb⟩)
        | answer a' rest =>
          -- What ends the evaluation is not a suspension.
          obtain ⟨w, rfl⟩ := (pass_proper fns catching e stack).of_runs hx hpass
          have hout := (Prod.mk.inj (hx.of_pure hn).1).1
          exact absurd hout.symm (Answer.ofVerdict_ne_suspended _ w)
      · refine ⟨q, s₁, hpass, ?_⟩
        cases q with
        | next e' rest => exact ih.2 (.inr ⟨hne, hn⟩)
        | answer a' rest => exact hn

/-- A suspended slice puts back the node at which it stops. -/
theorem of_runs_descend_suspended (hx : M.Exact) (hs : fns.Silent M) (hq : fns.Quiet M)
    (h : M.Runs (descend fns catching n e stack stats) s (.suspended, t) s') :
    ∃ e₁ rest, ∃ stats₁ : Stats, t = ⟨some e₁, rest, stats₁.suspend⟩ := by
  -- It is a slice with the budget `n`, followed by one without a budget.
  rcases (runs_descend_add_iff hx hs hq (b := 0)).1 h with ⟨e₁, rest, stats₁, s₁, -, h₀⟩ | h
  · obtain ⟨-, rfl, -⟩ := (runs_descend_zero_iff hx hs hq).1 h₀
    exact ⟨e₁, rest, stats₁, rfl⟩
  · exact absurd rfl h.1

/-- A slice that goes on from where another one stopped. -/
theorem runs_descend_join (hx : M.Exact) (hs : fns.Silent M) (hq : fns.Quiet M) {b : ℕ} {s₁ : σ}
    {t₁ t₂ : Trampoline S}
    (hn : M.Runs (descend fns catching n e stack stats) s (.suspended, t₁) s₁)
    (hb : M.Runs (t₁.runSlice fns catching b) s₁ (a, t₂) s') :
    ∃ t, t₂ = t.paused ∧ M.Runs (descend fns catching (n + b) e stack stats) s (a, t) s' := by
  obtain ⟨e₁, rest, stats₁, rfl⟩ := of_runs_descend_suspended hx hs hq hn
  obtain ⟨t, rfl, h⟩ := (runs_descend_suspend_iff hx hs hq).1 hb
  exact ⟨t, rfl, (runs_descend_add_iff hx hs hq).2 (.inl ⟨e₁, rest, stats₁, s₁, hn, h⟩)⟩

end

end Trampoline

/-- Slices from the trampoline `t` and the state `s` compose: two of them, with any budgets, are one
slice that has both budgets, but for the suspension between them. -/
structure Trampoline.Composes (M : Meaning m σ) (fns : Functions S m) (catching : Bool)
    (t : Trampoline S) (s : σ) : Prop where
  /-- What a suspended slice and the next one do, the single slice does. -/
  joins {a b : ℕ} {t₁ t₂ : Trampoline S} {s₁ s₂ : σ} {x : Answer S} :
    M.Runs (t.runSlice fns catching a) s (.suspended, t₁) s₁ →
    M.Runs (t₁.runSlice fns catching b) s₁ (x, t₂) s₂ →
    ∃ t', t₂ = t'.paused ∧ M.Runs (t.runSlice fns catching (a + b)) s (x, t') s₂
  /-- What a slice does that is not suspended, the single slice does. -/
  ends {a b : ℕ} {t₁ : Trampoline S} {s₁ : σ} {x : Answer S} : x ≠ .suspended →
    M.Runs (t.runSlice fns catching a) s (x, t₁) s₁ →
    M.Runs (t.runSlice fns catching (a + b)) s (x, t₁) s₁
  /-- What the single slice does is done by the two of them or by the first alone. -/
  splits {a b : ℕ} {t' : Trampoline S} {s₂ : σ} {x : Answer S} :
    M.Runs (t.runSlice fns catching (a + b)) s (x, t') s₂ →
    (∃ t₁ s₁, M.Runs (t.runSlice fns catching a) s (.suspended, t₁) s₁ ∧
      M.Runs (runSlice fns catching b t₁) s₁ (x, t'.paused) s₂) ∨
    x ≠ .suspended ∧ M.Runs (t.runSlice fns catching a) s (x, t') s₂
  /-- A slice without a budget counts as a suspension and does nothing. -/
  idle {t' : Trampoline S} {s' : σ} {x : Answer S} : t.current.isSome →
    (M.Runs (t.runSlice fns catching 0) s (x, t') s' ↔
      x = .suspended ∧ t' = t.paused ∧ s' = s)

variable [LawfulMonad m] {M : Meaning m σ} {fns : Functions S m}

/-- Slices compose, wherever an evaluation stands and whatever ends it. -/
theorem Trampoline.slices_compose (hx : M.Exact) (hs : fns.Silent M) (hq : fns.Quiet M)
    (catching : Bool) (t : Trampoline S) (s : σ) : Composes M fns catching t s := by
  obtain ⟨current, stack, stats⟩ := t
  cases current with
  | none =>
    -- The outcome is out already.
    have hrefused {n : ℕ} {x : Answer S} {t₁ : Trampoline S} {s₁ : σ}
        (h : M.Runs (runSlice fns catching n ⟨none, stack, stats⟩) s (x, t₁) s₁) :
        x ≠ .suspended := by
      have hx' := (Prod.mk.inj (hx.of_pure h).1).1
      rw [hx']
      exact nofun
    exact {
      joins := fun ha _ => absurd rfl (hrefused ha)
      ends := fun _ h => h
      splits := fun h => .inr ⟨hrefused h, h⟩
      idle := nofun }
  | some e =>
    exact {
      joins := fun ha hb => runs_descend_join hx hs hq ha hb
      ends := fun hne h => (runs_descend_add_iff hx hs hq).2 (.inr ⟨hne, h⟩)
      splits := fun h => by
        rcases (runs_descend_add_iff hx hs hq).1 h with ⟨e₁, rest, stats₁, s₁, ha, hb⟩ | h
        · exact .inl ⟨_, s₁, ha, (runs_descend_suspend_iff hx hs hq).2 ⟨_, rfl, hb⟩⟩
        · exact .inr h
      idle := fun _ => by
        simp only [runSlice]
        exact runs_descend_zero_iff hx hs hq }

/-- What a slice with the budget 3 and one with the budget 2 do is done by one with the budget 5; and
where a slice ends with a panic, a greater budget changes nothing. -/
theorem Stages.slices_compose_chained :
    (∃ t, ⟨some (.sync (4 : ℕ)), Frames.empty.push (.map ()), ⟨5, 2, 3⟩⟩ = t.paused ∧
      (Meaning.state _).Runs ((Trampoline.start (chained 1)).runSlice functions true (3 + 2)) []
        (.suspended, t) ["first", "second"]) ∧
    (Meaning.state _).Runs ((Trampoline.start (chained 0)).runSlice functions true (4 + 2)) []
      (.failed (.panicked .continuation "zero"), ⟨none, pending, ⟨4, 0, 3⟩⟩) ["first"] := by
  have hsilent : functions.Silent (.state _) := fun _ _ => rfl
  have hquiet : functions.Quiet (.state _) := fun _ _ _ h => (Prod.mk.inj h).2.symm
  have compose (v : ℕ) : (Trampoline.start (chained v)).Composes (.state _) functions true [] :=
    Trampoline.slices_compose (Meaning.state_exact _) hsilent hquiet true _ _
  exact ⟨(compose 1).joins rfl rfl, (compose 0).ends nofun rfl⟩

end LazyEffects
