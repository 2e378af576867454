import LazyEffects.Proofs.Jobs
import LazyEffects.Proofs.Prefixes
import LazyEffects.Proofs.Typing
import LazyEffects.Proofs.Courses

/-!
# The first mismatch

Stages that were put together without regard to types may not fit: one expects another type than the
one before it gives. Which stage is the first of them can be told from the tree (`Effect.fate`),
before anything is run, since the types that stages give are kept.

* `Effect.fate_eq_error`: the first stage that does not fit, with what comes before it and after it;
* `Settles`: what becomes of a program if no function panics, with all that is done on the way;
* `Evaluates.settles`: its direct evaluation does nothing else.
-/

namespace LazyEffects

open Deed

variable {T : TypedCodes} {a b x : T.Ty} {e : Effect T.erase}

/-! ### Stages -/

/-- The type that a stage expects. -/
def Frame.expects : Frame T.erase → T.Ty
  | map f => f.1
  | flatMap k => k.1

/-- The type that a stage gives. -/
def Frame.gives : Frame T.erase → T.Ty
  | map f => f.2.1
  | flatMap k => k.2.1

/-- The call of the function of a stage. -/
def Frame.call {S : Signature} (frame : Frame S) (v : S.Value) : Call S :=
  match frame with
  | map f => .transform f v
  | flatMap k => .continuation k v

theorem wellTyped_around_iff (frame : Frame T.erase) :
    WellTyped (frame.around e) b ↔ WellTyped e frame.expects ∧ frame.gives = b := by
  constructor
  · intro h
    cases frame with
    | map f =>
      obtain ⟨_, _, transform⟩ := f
      cases h with
      | map _ he => exact ⟨he, rfl⟩
    | flatMap k =>
      obtain ⟨_, _, continuation⟩ := k
      cases h with
      | flatMap _ he => exact ⟨he, rfl⟩
  · rintro ⟨he, rfl⟩
    cases frame with
    | map f => exact .map f.2.2 he
    | flatMap k => exact .flatMap k.2.2 he

/-- An effect gives values of one type only. -/
theorem WellTyped.unique (h : WellTyped e a) (h' : WellTyped e b) : b = a := by
  cases h <;> cases h' <;> rfl

/-- The type that the effect gives, or the type that is expected by its first stage that does not
fit. -/
def Effect.fate : Effect T.erase → Except T.Ty T.Ty
  | .sync t => .ok t.1
  | .map e f => do if (← e.fate) = f.1 then .ok f.2.1 else .error f.1
  | .flatMap e k => do if (← e.fate) = k.1 then .ok k.2.1 else .error k.1

theorem Effect.fate_around (frame : Frame T.erase) (e : Effect T.erase) :
    (frame.around e).fate =
      e.fate.bind fun a => if a = frame.expects then .ok frame.gives else .error frame.expects := by
  cases frame <;> rfl

/-- An effect is a leaf or a stage around another one. -/
theorem Effect.induction_around {S : Signature} {motive : Effect S → Prop}
    (sync : ∀ t, motive (.sync t)) (around : ∀ frame e, motive e → motive (Frame.around e frame))
    (e : Effect S) : motive e := by
  induction e with
  | sync t => exact sync t
  | map e f ih => exact around (.map f) e ih
  | flatMap e k ih => exact around (.flatMap k) e ih

/-- An effect gives values of a type if all its stages fit. -/
theorem Effect.fate_eq_ok : e.fate = .ok a ↔ WellTyped e a := by
  induction e using Effect.induction_around generalizing a with
  | sync t =>
    refine ⟨fun h => ?_, fun h => ?_⟩
    · cases h
      exact .sync t.2
    · cases h
      rfl
  | around frame e ih =>
    rw [fate_around, wellTyped_around_iff, ← ih]
    cases he : e.fate with
    | ok a' =>
      rw [Except.bind]
      split <;> simp_all
    | error y => simp [Except.bind]

/-- The stages before the first one that does not fit, and those after it. -/
theorem Effect.fate_eq_error : e.fate = .error x ↔ ∃ e₀ a, ∃ frame : Frame T.erase, ∃ list,
    e = (frame.around e₀).under list ∧ WellTyped e₀ a ∧ frame.expects = x ∧ a ≠ x := by
  constructor
  · intro h
    induction e using Effect.induction_around with
    | sync t => cases h
    | around frame e ih =>
      rw [fate_around] at h
      cases he : e.fate with
      | ok a =>
        simp only [he, Except.bind] at h
        split at h
        · cases h
        · rename_i hne
          cases h
          exact ⟨e, a, frame, [], rfl, fate_eq_ok.1 he, rfl, hne⟩
      | error y =>
        rw [he] at h
        cases h
        obtain ⟨e₀, a, frame', list, rfl, hfit, hx, hne⟩ := ih he
        exact ⟨e₀, a, frame', list ++ [frame], by simp [under], hfit, hx, hne⟩
  · rintro ⟨e₀, a, frame, list, rfl, hfit, rfl, hne⟩
    have hfirst : (frame.around e₀).fate = .error frame.expects := by
      rw [fate_around, fate_eq_ok.2 hfit]
      simp [Except.bind, hne]
    -- No stage after it changes that.
    induction list using List.reverseRecOn with
    | nil => exact hfirst
    | append_singleton list outer ih =>
      have hunder : (frame.around e₀).under (list ++ [outer]) =
          outer.around ((frame.around e₀).under list) := by simp [under]
      rw [hunder, fate_around, ih]
      rfl

/-- The functions on the chain of sources, the leaf's first. -/
def Effect.stages {S : Signature} : Effect S → List (UserCode S)
  | .sync t => [.thunk t]
  | .map e f => e.stages ++ [.transform f]
  | .flatMap e k => e.stages ++ [.continuation k]

/-! ### Functions that do not panic -/

section

variable {S : Signature} {m : Type → Type} [Monad m] {σ : Type}

/-- None of the given functions panics, and continuations return effects of such functions again. -/
structure Functions.Calm (M : Meaning m σ) (fns : Functions S m) (codes : UserCode S → Prop) :
    Prop where
  thunk {t : S.Thunk} {s s' : σ} {p : Payload} :
    codes (.thunk t) → ¬ M.Runs (fns.thunk t) s (.panicked p) s'
  transform {f : S.Transform} {v : S.Value} {s s' : σ} {p : Payload} :
    codes (.transform f) → ¬ M.Runs (fns.transform f v) s (.panicked p) s'
  continuation {k : S.Continuation} {v : S.Value} {s s' : σ} {p : Payload} :
    codes (.continuation k) → ¬ M.Runs (fns.continuation k v) s (.panicked p) s'
  uses {k : S.Continuation} {v : S.Value} {s s' : σ} {e : Effect S} :
    codes (.continuation k) → M.Runs (fns.continuation k v) s (.returned e) s' → e.Uses codes

/-- An evaluation in which no function panics does not end in a panic. -/
theorem Evaluates.ne_panicked {M : Meaning m σ} {fns : Functions S m}
    {codes : UserCode S → Prop} (hcalm : fns.Calm M codes) {d : ℕ} {e : Effect S}
    {w : Verdict S} {l : List (Deed S)} {s s' : σ} (h : Evaluates M fns d e s w l s')
    (he : e.Uses codes) (stage : Stage) (p : Payload) : w ≠ .error (.panicked stage p) := by
  induction h with
  | @sync _ t out _ _ ht =>
    cases out with
    | panicked => exact absurd ht (hcalm.thunk he)
    | _ => simp [Outcome.within]
  | @map _ _ _ _ out _ _ _ _ _ hf ih =>
    cases out with
    | panicked => exact absurd hf (hcalm.transform he.1)
    | _ => simp [Outcome.within]
  | mapStopped _ ih => exact ih he.2
  | flatMap _ hk _ _ ih' => exact ih' (hcalm.uses he.1 hk)
  | @flatMapRefused _ _ _ _ out c _ _ _ _ _ hk hc _ =>
    cases out with
    | returned => cases hc
    | mismatched =>
      cases hc
      simp
    | panicked => exact absurd hk (hcalm.continuation he.1)
  | flatMapStopped _ ih => exact ih he.2

/-- No function panics while the effect is evaluated from the state `s`. -/
def Effect.Calm (M : Meaning m σ) (fns : Functions S m) (e : Effect S) (s : σ) : Prop :=
  ∀ w l s', Evaluates M fns 0 e s w l s' → ∀ stage p, w ≠ .error (.panicked stage p)

theorem Functions.Calm.effect {M : Meaning m σ} {fns : Functions S m} {codes : UserCode S → Prop}
    (hcalm : fns.Calm M codes) {e : Effect S} (he : e.Uses codes) (s : σ) : e.Calm M fns s :=
  fun _ _ _ h => h.ne_panicked hcalm he

/-- With a value at the end, the function of every stage has been called. -/
theorem Evaluates.stages_sublist {M : Meaning m σ} {fns : Functions S m} {d : ℕ} {e : Effect S}
    {v : S.Value} {l : List (Deed S)} {s s' : σ} (h : Evaluates M fns d e s (.ok v) l s') :
    e.stages.Sublist ((calls l).map Call.code) := by
  generalize hw : Except.ok v = w at h
  induction h generalizing v with
  | sync => exact List.Sublist.refl _
  | map _ _ ih =>
    simp only [Effect.stages, List.cons_append, calls_visit, calls_append, calls_call, calls_nil,
      List.map_append, List.map_cons, List.map_nil, Call.code]
    exact (ih rfl).append (List.Sublist.refl _)
  | flatMap _ _ _ ih =>
    simp only [Effect.stages, List.cons_append, calls_visit, calls_append, calls_call,
      List.map_append, List.map_cons, Call.code]
    exact (ih rfl).append ((List.nil_sublist _).cons_cons _)
  | mapStopped | flatMapRefused | flatMapStopped => cases hw

end

/-! ### What becomes of a program -/

section

variable {m : Type → Type} [Monad m] {σ : Type}

/-- What becomes of a program that begins in the state `s`, if no function panics: what is
delivered, what is done, and the state that is left. The first stage that does not fit decides. -/
inductive Settles (M : Meaning m σ) (fns : TypedFunctions T m) (program : Program T.erase) (s : σ) :
    Except RunError T.erase.Value → List (Deed T.erase) → σ → Prop where
  /-- All that is done is to evaluate what comes before that stage. Its function is not entered,
  which is to say that its call is refused, and none is called after it. -/
  | stage {e₀ : Effect T.erase} {a : T.Ty} {frame : Frame T.erase} {list : List (Frame T.erase)}
    {d : ℕ} {v : T.erase.Value} {l₀ l : List (Deed T.erase)} {s' : σ} :
    program.root = (frame.around e₀).under list → WellTyped e₀ a → a ≠ frame.expects →
    Evaluates M fns.erase d e₀ s (.ok v) l₀ s' → v.1 = a → calls l = calls l₀ ++ [frame.call v] →
    Settles M fns program s (.error (.typeMismatch (T.typeName frame.expects))) l s'
  /-- All stages fit and have been called, and the value is not of the declared type. -/
  | result {a : T.Ty} {v : T.erase.Value} {l : List (Deed T.erase)} {s' : σ} :
    WellTyped program.root a → a ≠ program.result →
    Evaluates M fns.erase 0 program.root s (.ok v) l s' →
    program.root.stages.Sublist ((calls l).map Call.code) →
    Settles M fns program s (.error (.typeMismatch (T.typeName program.result))) l s'
  | value {v : T.erase.Value} {l : List (Deed T.erase)} {s' : σ} :
    WellTyped program.root program.result →
    Evaluates M fns.erase 0 program.root s (.ok v) l s' →
    Settles M fns program s (.ok v) l s'

variable {M : Meaning m σ} {fns : TypedFunctions T m} {program : Program T.erase} {d : ℕ}
  {w : Verdict T.erase} {l : List (Deed T.erase)} {s s' : σ}

/-- Below the nodes of a chain the evaluation goes on with its end. -/
theorem completes_under {list rest : List (Frame T.erase)}
    (h : Completes M fns.erase (e.under list) rest s w l s') :
    ∃ l', calls l = calls l' ∧ Completes M fns.erase e (list ++ rest) s w l' s' := by
  induction list generalizing e with
  | nil => exact ⟨l, rfl, h⟩
  | cons frame list ih =>
    obtain ⟨l₁, hl₁, h₁⟩ := ih h
    obtain ⟨l₂, rfl, h₂⟩ := (completes_around_iff frame).1 h₁
    exact ⟨l₂, hl₁, h₂⟩

section

variable (hx : M.Exact)

include hx

/-- Effects whose stages fit end with a value of the type that they give, or with a panic. -/
theorem Evaluates.typed [LawfulMonad m] (h : Evaluates M fns.erase d e s w l s')
    (he : WellTyped e a) :
    (∃ v, w = .ok v ∧ v.1 = a) ∨ ∃ stage p, w = .error (.panicked stage p) := by
  induction h generalizing a with
  | sync ht =>
    cases he with
    | sync thunk =>
      have hout := (fns.thunk_yields thunk).of_runs hx ht
      cases hout with
      | returned hv => exact .inl ⟨_, rfl, hv⟩
      | panicked p => exact .inr ⟨_, p, rfl⟩
  | map _ hf ih =>
    cases he with
    | map transform he =>
      rcases ih he with ⟨⟨_, x⟩, hv, rfl⟩ | ⟨_, _, hv⟩
      · cases hv
        cases (fns.transform_yields transform x).of_runs hx hf with
        | returned hv => exact .inl ⟨_, rfl, hv⟩
        | panicked p => exact .inr ⟨_, p, rfl⟩
      · cases hv
  | mapStopped _ ih =>
    cases he with
    | map transform he =>
      rcases ih he with ⟨_, hv, -⟩ | ⟨stage, p, hv⟩
      · cases hv
      · exact .inr ⟨stage, p, hv⟩
  | flatMap _ hk _ ih ih' =>
    cases he with
    | flatMap continuation he =>
      rcases ih he with ⟨⟨_, x⟩, hv, rfl⟩ | ⟨_, _, hv⟩
      · cases hv
        cases (fns.continuation_yields continuation x).of_runs hx hk with
        | returned he' => exact ih' he'
      · cases hv
  | flatMapRefused _ hk hc ih =>
    cases he with
    | flatMap continuation he =>
      rcases ih he with ⟨⟨_, x⟩, hv, rfl⟩ | ⟨_, _, hv⟩
      · cases hv
        cases (fns.continuation_yields continuation x).of_runs hx hk with
        | returned => cases hc
        | panicked p =>
          cases hc
          exact .inr ⟨_, p, rfl⟩
      · cases hv
  | flatMapStopped _ ih =>
    cases he with
    | flatMap continuation he =>
      rcases ih he with ⟨_, hv, -⟩ | ⟨stage, p, hv⟩
      · cases hv
      · exact .inr ⟨stage, p, hv⟩

/-- A stage that does not fit refuses the value, and nothing else is done. -/
theorem Unwinds.refused_of_ne {frame : Frame T.erase} {list : List (Frame T.erase)}
    {v : T.erase.Value} (hv : v.1 ≠ frame.expects)
    (h : Unwinds M fns.erase (frame :: list) (.ok v) s w l s') :
    w = .error (.mismatched frame.expects) ∧ l = [.call (frame.call v)] ∧ s' = s := by
  cases frame with
  | map f =>
    have hrefused : fns.erase.transform f v = pure (.mismatched f.1) := by
      simp only [TypedFunctions.erase, TypedCodes.expect, dif_neg (show ¬ v.1 = f.1 from hv)]
    cases h with
    | map hrun hrest =>
      rw [hrefused] at hrun
      obtain ⟨rfl, rfl⟩ := hx.of_pure hrun
      obtain ⟨rfl, rfl, rfl⟩ := hrest.of_error
      exact ⟨rfl, rfl, rfl⟩
  | flatMap k =>
    have hrefused : fns.erase.continuation k v = pure (.mismatched k.1) := by
      simp only [TypedFunctions.erase, TypedCodes.expect, dif_neg (show ¬ v.1 = k.1 from hv)]
    cases h with
    | flatMap hrun =>
      rw [hrefused] at hrun
      cases (hx.of_pure hrun).1
    | refused hrun hc =>
      rw [hrefused] at hrun
      obtain ⟨rfl, rfl⟩ := hx.of_pure hrun
      cases hc
      exact ⟨rfl, rfl, rfl⟩

/-- The direct evaluation of a program in which no function panics settles it. -/
theorem Evaluates.settles [LawfulMonad m] (h : Evaluates M fns.erase 0 program.root s w l s')
    (hpanic : ∀ stage p, w ≠ .error (.panicked stage p)) :
    Settles M fns program s (program.settle w) l s' := by
  cases hfate : program.root.fate with
  | ok a =>
    have hfit := Effect.fate_eq_ok.1 hfate
    rcases h.typed hx hfit with ⟨v, rfl, hv⟩ | ⟨stage, p, rfl⟩
    · rw [Program.settle]
      split
      · rename_i hresult
        have hv : a = program.result := hv.symm.trans hresult
        exact .value (hv ▸ hfit) h
      · rename_i hresult
        exact .result hfit (fun hv' => hresult (hv.trans hv')) h h.stages_sublist
    · exact absurd rfl (hpanic stage p)
  | error x =>
    obtain ⟨e₀, a, frame, list, hroot, hfit, rfl, hne⟩ := Effect.fate_eq_error.1 hfate
    rw [hroot] at h
    -- What comes before the stage is evaluated, and its value is refused.
    obtain ⟨l', hl', hunder⟩ := completes_under (completes_nil_iff.2 h)
    obtain ⟨l'', hl'', hc⟩ := (completes_around_iff frame).1 hunder
    rw [hl'', calls_visit] at hl'
    obtain ⟨he₀, hu⟩ := hc
    rcases he₀.typed hx hfit with ⟨v, rfl, hv⟩ | ⟨stage, p, rfl⟩
    · obtain ⟨rfl, rfl, rfl⟩ := hu.refused_of_ne hx (hv ▸ hne)
      exact .stage hroot hfit hne he₀ hv (by simpa using hl')
    · obtain ⟨rfl, -, -⟩ := hu.of_error
      exact absurd rfl (hpanic stage p)

end

end

end LazyEffects
