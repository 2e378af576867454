import LazyEffects.Trampoline
import Mathlib.Data.List.Perm.Subperm

/-!
# Direct evaluation

What an effect amounts to, said by recursion over the tree and without a stack: a leaf runs its
thunk, a transform is applied to what its source gives, a continuation is applied to what its
source gives and the effect it returns is evaluated next, and the first failure ends it all. No
budget and no treatment of panics occurs here.

The user's functions are computations in a monad. What they do to the user is given by a `Meaning`:
which answers and which states they lead to.

* `Evaluates` is the evaluation, with its end and with everything done on the way (`Deed`): the
  nodes visited and the functions called, in order;
* `Evaluates.calls_subperm`: of the nodes visited, each has its function called at most once, and
  no other function is called.
-/

namespace LazyEffects

variable {S : Signature} {m : Type → Type} [Monad m] {σ : Type}

/-! ### Computations -/

/-- What the computations in a monad do to a state: `Runs x s a s'` says that `x`, begun in `s`,
answers `a` and leaves `s'`. -/
structure Meaning (m : Type → Type) [Monad m] (σ : Type) where
  Runs {α : Type} : m α → σ → α → σ → Prop
  runs_pure {α : Type} (a : α) (s : σ) : Runs (pure a) s a s
  runs_bind {α β : Type} {x : m α} {f : α → m β} {s s' s'' : σ} {a : α} {b : β} :
    Runs x s a s' → Runs (f a) s' b s'' → Runs (x >>= f) s b s''

/-- A composite computation does nothing but what its parts do. -/
structure Meaning.Exact (M : Meaning m σ) : Prop where
  of_pure {α : Type} {a b : α} {s s' : σ} : M.Runs (pure a) s b s' → b = a ∧ s' = s
  of_bind {α β : Type} {x : m α} {f : α → m β} {s s'' : σ} {b : β} :
    M.Runs (x >>= f) s b s'' → ∃ a s', M.Runs x s a s' ∧ M.Runs (f a) s' b s''

/-- Computations that read and write the state itself. -/
def Meaning.state (σ : Type) : Meaning (StateM σ) σ where
  Runs x s a s' := x.run s = (a, s')
  runs_pure _ _ := rfl
  runs_bind hx hf := by
    rw [StateT.run_bind, hx]
    exact hf

theorem Meaning.state_exact (σ : Type) : (Meaning.state σ).Exact where
  of_pure h := by
    cases h
    exact ⟨rfl, rfl⟩
  of_bind {α _ x _ s _ _} h := ⟨(x.run s).1, (x.run s).2, rfl, h⟩

/-- Events may be reported without a trace in the state. -/
def Functions.Silent (M : Meaning m σ) (fns : Functions S m) : Prop :=
  ∀ e s, M.Runs (fns.observe e) s () s

/-- Events that are reported leave no trace in the state. -/
def Functions.Quiet (M : Meaning m σ) (fns : Functions S m) : Prop :=
  ∀ e s s', M.Runs (fns.observe e) s () s' → s' = s

/-! ### Ends and deeds -/

/-- Why an evaluation stops without a value. -/
inductive Stop (S : Signature) where
  /-- A value was not of the type that its consumer expects. -/
  | mismatched (expected : S.Ty)
  /-- A function of the given stage panicked. -/
  | panicked (stage : Stage) (p : Payload)

/-- How an evaluation ends: with a value, or with the first failure. -/
abbrev Verdict (S : Signature) := Except (Stop S) S.Value

/-- The end of a call, with the stage at which it was made. -/
def Outcome.within {α : Type} (stage : Stage) : Outcome S α → Except (Stop S) α
  | .returned a => .ok a
  | .mismatched expected => .error (.mismatched expected)
  | .panicked p => .error (.panicked stage p)

/-- The answer of a slice in which an evaluation stops. -/
def Answer.ofStop (catching : Bool) : Stop S → Answer S
  | .mismatched expected => .ofMismatch expected
  | .panicked stage p => .ofPanic catching stage p

/-- The answer of a slice in which an evaluation ends. -/
def Answer.ofVerdict (catching : Bool) : Verdict S → Answer S
  | .ok v => .completed v
  | .error c => .ofStop catching c

theorem Answer.ofStop_ne_suspended (catching : Bool) (c : Stop S) :
    Answer.ofStop catching c ≠ .suspended := by
  cases c with
  | mismatched => simp [ofStop, ofMismatch]
  | panicked => cases catching <;> simp [ofStop, ofPanic]

theorem Answer.ofVerdict_ne_suspended (catching : Bool) (w : Verdict S) :
    Answer.ofVerdict catching w ≠ .suspended := by
  cases w with
  | ok => simp [ofVerdict]
  | error c => exact ofStop_ne_suspended catching c

/-- A function of the user's. -/
inductive UserCode (S : Signature) where
  | thunk (t : S.Thunk)
  | transform (f : S.Transform)
  | continuation (k : S.Continuation)

/-- The function at the root of an effect. -/
def Effect.code : Effect S → UserCode S
  | sync t => .thunk t
  | map _ f => .transform f
  | flatMap _ k => .continuation k

/-- A call of a function of the user's. -/
inductive Call (S : Signature) where
  | thunk (t : S.Thunk)
  | transform (f : S.Transform) (v : S.Value)
  | continuation (k : S.Continuation) (v : S.Value)

/-- The function that is called. -/
def Call.code : Call S → UserCode S
  | thunk t => .thunk t
  | transform f _ => .transform f
  | continuation k _ => .continuation k

/-- Something done in the course of an evaluation. -/
inductive Deed (S : Signature) where
  /-- Go into a node, with `stack` frames pending. -/
  | visit (node : Effect S) (stack : Nat)
  | call (c : Call S)

/-- The node that is gone into. -/
def Deed.node? : Deed S → Option (Effect S)
  | visit node _ => some node
  | call _ => none

/-- The call that is made. -/
def Deed.call? : Deed S → Option (Call S)
  | visit _ _ => none
  | call c => some c

namespace Deed

/-- The nodes visited, in order. -/
def visited (deeds : List (Deed S)) : List (Effect S) := deeds.filterMap node?

/-- The calls made, in order. -/
def calls (deeds : List (Deed S)) : List (Call S) := deeds.filterMap call?

@[simp] theorem visited_nil : visited ([] : List (Deed S)) = [] := rfl

@[simp] theorem visited_visit (e : Effect S) (n : Nat) (l : List (Deed S)) :
    visited (visit e n :: l) = e :: visited l := rfl

@[simp] theorem visited_call (c : Call S) (l : List (Deed S)) :
    visited (call c :: l) = visited l := rfl

@[simp] theorem visited_append (l l' : List (Deed S)) :
    visited (l ++ l') = visited l ++ visited l' := List.filterMap_append

@[simp] theorem calls_nil : calls ([] : List (Deed S)) = [] := rfl

@[simp] theorem calls_visit (e : Effect S) (n : Nat) (l : List (Deed S)) :
    calls (visit e n :: l) = calls l := rfl

@[simp] theorem calls_call (c : Call S) (l : List (Deed S)) :
    calls (call c :: l) = c :: calls l := rfl

@[simp] theorem calls_append (l l' : List (Deed S)) :
    calls (l ++ l') = calls l ++ calls l' := List.filterMap_append

end Deed

/-! ### Evaluation -/

open Deed

variable (M : Meaning m σ) (fns : Functions S m)

/-- `Evaluates d e s w deeds s'`: evaluating `e` from the state `s`, with `d` frames pending, does
`deeds`, ends with `w` and leaves the state `s'`. -/
inductive Evaluates : Nat → Effect S → σ → Verdict S → List (Deed S) → σ → Prop where
  | sync {d : Nat} {t : S.Thunk} {out : Outcome S S.Value} {s s' : σ} :
    M.Runs (fns.thunk t) s out s' →
    Evaluates d (.sync t) s (out.within .thunk) [visit (.sync t) d, call (.thunk t)] s'
  | map {d : Nat} {e : Effect S} {f : S.Transform} {v : S.Value} {out : Outcome S S.Value}
    {l : List (Deed S)} {s s' s'' : σ} :
    Evaluates (d + 1) e s (.ok v) l s' → M.Runs (fns.transform f v) s' out s'' →
    Evaluates d (.map e f) s (out.within .transform)
      (visit (.map e f) d :: l ++ [call (.transform f v)]) s''
  | mapStopped {d : Nat} {e : Effect S} {f : S.Transform} {c : Stop S} {l : List (Deed S)}
    {s s' : σ} :
    Evaluates (d + 1) e s (.error c) l s' →
    Evaluates d (.map e f) s (.error c) (visit (.map e f) d :: l) s'
  | flatMap {d : Nat} {e e' : Effect S} {k : S.Continuation} {v : S.Value} {w : Verdict S}
    {l l' : List (Deed S)} {s s' s'' s₃ : σ} :
    Evaluates (d + 1) e s (.ok v) l s' → M.Runs (fns.continuation k v) s' (.returned e') s'' →
    Evaluates d e' s'' w l' s₃ →
    Evaluates d (.flatMap e k) s w
      (visit (.flatMap e k) d :: l ++ call (.continuation k v) :: l') s₃
  | flatMapRefused {d : Nat} {e : Effect S} {k : S.Continuation} {v : S.Value}
    {out : Outcome S (Effect S)} {c : Stop S} {l : List (Deed S)} {s s' s'' : σ} :
    Evaluates (d + 1) e s (.ok v) l s' → M.Runs (fns.continuation k v) s' out s'' →
    out.within .continuation = .error c →
    Evaluates d (.flatMap e k) s (.error c)
      (visit (.flatMap e k) d :: l ++ [call (.continuation k v)]) s''
  | flatMapStopped {d : Nat} {e : Effect S} {k : S.Continuation} {c : Stop S}
    {l : List (Deed S)} {s s' : σ} :
    Evaluates (d + 1) e s (.error c) l s' →
    Evaluates d (.flatMap e k) s (.error c) (visit (.flatMap e k) d :: l) s'

namespace Evaluates

variable {M fns} {d : Nat} {e : Effect S} {w : Verdict S} {l : List (Deed S)} {s s' : σ}

/-- An evaluation begins with a visit of the root. -/
theorem visited_ne_nil (h : Evaluates M fns d e s w l s') : 0 < (visited l).length := by
  cases h <;> simp

/-- Each visited node has its function called at most once, and no other function is called. -/
theorem calls_subperm (h : Evaluates M fns d e s w l s') :
    ((calls l).map Call.code).Subperm ((visited l).map Effect.code) := by
  induction h with
  | sync => exact List.Subperm.refl _
  | map _ _ ih =>
    -- The call of the transform comes last and the visit of its node first.
    simp only [List.cons_append, calls_visit, calls_append, calls_call, calls_nil, visited_visit,
      visited_append, visited_call, visited_nil, List.append_nil, List.map_append, List.map_cons,
      List.map_nil]
    exact (List.perm_append_singleton _ _).subperm.trans ((List.subperm_cons _).2 ih)
  | mapStopped _ ih => exact ih.trans (List.sublist_cons_self _ _).subperm
  | flatMap _ _ _ ih ih' =>
    simp only [List.cons_append, calls_visit, calls_append, calls_call, visited_visit,
      visited_append, visited_call, List.map_append, List.map_cons]
    exact List.perm_middle.subperm.trans ((List.subperm_cons _).2 (ih.append ih'))
  | flatMapRefused _ _ _ ih =>
    simp only [List.cons_append, calls_visit, calls_append, calls_call, calls_nil, visited_visit,
      visited_append, visited_call, visited_nil, List.append_nil, List.map_append, List.map_cons,
      List.map_nil]
    exact (List.perm_append_singleton _ _).subperm.trans ((List.subperm_cons _).2 ih)
  | flatMapStopped _ ih => exact ih.trans (List.sublist_cons_self _ _).subperm

end Evaluates

end LazyEffects
