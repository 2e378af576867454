import LazyEffects.Effect.Typed
import LazyEffects.Proofs.Slices

/-!
# Types are kept

A tree that was built from typed stages is evaluated on values that have lost their types. Still
every function gets an argument of the type that it expects: the frames that are pending expect
what comes back to them one after the other (`FramesTyped`), and this stays so when a slice goes
down a chain of sources, when a value goes back through the frames, and when a continuation returns
an effect of its own.

* `Trampoline.WellTyped.runSlice_settles`: a slice of a well-typed evaluation ends with a value of
  the type of its result, with a well-typed evaluation that is suspended, or with a panic;
* `Trampoline.WellTyped.runSlice_congr`: it passes no argument of another type, since functions that
  treat such arguments differently, in whatever way, make the same slice.
-/

namespace LazyEffects

/-! ### What computations answer -/

section

variable {m : Type → Type} [Monad m] {α β σ : Type} {P : α → Prop} {Q : β → Prop}

/-- Whatever the computation answers has the property. -/
def Yields (P : α → Prop) (x : m α) : Prop :=
  ∃ y : m {a // P a}, Subtype.val <$> y = x

namespace Yields

variable [LawfulMonad m] {x : m α} {f g : α → m β}

theorem pure {a : α} (h : P a) : Yields P (pure a : m α) :=
  ⟨Pure.pure ⟨a, h⟩, by rw [map_pure]⟩

theorem bind (hx : Yields P x) (hf : ∀ a, P a → Yields Q (f a)) : Yields Q (x >>= f) := by
  obtain ⟨y, rfl⟩ := hx
  choose z hz using hf
  refine ⟨y >>= fun a => z a.1 a.2, ?_⟩
  rw [map_bind, bind_map_left]
  exact bind_congr fun a => hz a.1 a.2

theorem map {f : α → β} (h : ∀ a, Q (f a)) (x : m α) : Yields Q (f <$> x) :=
  ⟨(fun a => ⟨f a, h a⟩) <$> x, by rw [← comp_map]; rfl⟩

theorem any (x : m α) : Yields (fun _ => True) x :=
  ⟨(fun a => ⟨a, trivial⟩) <$> x, by rw [← comp_map]; exact id_map x⟩

/-- What follows a computation need only be known for what the computation answers. -/
theorem congr_bind (hx : Yields P x) (h : ∀ a, P a → f a = g a) : x >>= f = x >>= g := by
  obtain ⟨y, rfl⟩ := hx
  rw [bind_map_left, bind_map_left]
  exact bind_congr fun a => h a.1 a.2

/-- The property holds of everything to which the computation leads. -/
theorem of_runs {M : Meaning m σ} (hM : M.Exact) (hx : Yields P x) {a : α} {s s' : σ}
    (h : M.Runs x s a s') : P a := by
  obtain ⟨y, rfl⟩ := hx
  rw [map_eq_pure_bind] at h
  obtain ⟨b, s₁, -, h⟩ := hM.of_bind h
  obtain ⟨rfl, -⟩ := hM.of_pure h
  exact b.2

end Yields

end

variable {T : TypedCodes}

/-! ### Well-typed evaluations -/

/-- From an `a` that is handed to the frames, topmost first, comes a `c`: each of them expects what
the one above it gives. -/
inductive FramesTyped : List (Frame T.erase) → T.Ty → T.Ty → Prop where
  | nil {c : T.Ty} : FramesTyped [] c c
  | map {list : List (Frame T.erase)} {a b c : T.Ty} (transform : T.Transform a b) :
    FramesTyped list b c → FramesTyped (.map ⟨a, b, transform⟩ :: list) a c
  | flatMap {list : List (Frame T.erase)} {a b c : T.Ty} (continuation : T.Continuation a b) :
    FramesTyped list b c → FramesTyped (.flatMap ⟨a, b, continuation⟩ :: list) a c

/-- The node to be processed next gives what the pending frames expect, and they give a `c`. -/
inductive Trampoline.WellTyped (c : T.Ty) : Trampoline T.erase → Prop where
  | intro {e : Effect T.erase} {stack : Frames T.erase} {stats : Stats} {a : T.Ty} :
    LazyEffects.WellTyped e a → FramesTyped stack.list a c → WellTyped c ⟨some e, stack, stats⟩

theorem Typed.wellTyped_start {a : T.Ty} (e : Typed T a) : (Trampoline.start e.root).WellTyped a :=
  .intro e.wellTyped .nil

/-- The argument was accepted, and what is returned has the property. -/
inductive Outcome.Accepts {S : Signature} {α : Type} (P : α → Prop) : Outcome S α → Prop where
  | returned {a : α} : P a → Accepts P (.returned a)
  | panicked (p : Payload) : Accepts P (.panicked p)

/-- What becomes of a value that is handed to frames that give a `c`. -/
inductive Trampoline.Unwound.WellTyped (c : T.Ty) : Unwound T.erase → Prop where
  | delivered (x : T.Carrier c) : WellTyped c (.delivered ⟨c, x⟩)
  | entered {e : Effect T.erase} {rest : Frames T.erase} {a : T.Ty} :
    LazyEffects.WellTyped e a → FramesTyped rest.list a c → WellTyped c (.entered e rest)
  | stopped (catching : Bool) (stage : Stage) (p : Payload) (rest : Frames T.erase) :
    WellTyped c (.stopped (.ofPanic catching stage p) rest)

/-- How a slice of a well-typed evaluation ends: with a value of the type of its result, with a
well-typed evaluation that is suspended, or with a panic. -/
inductive Answer.Settles (c : T.Ty) : Answer T.erase × Trampoline T.erase → Prop where
  | completed (x : T.Carrier c) (t : Trampoline T.erase) : Settles c (.completed ⟨c, x⟩, t)
  | suspended {t : Trampoline T.erase} : t.WellTyped c → Settles c (.suspended, t)
  | panicked (catching : Bool) (stage : Stage) (p : Payload) (t : Trampoline T.erase) :
    Settles c (.ofPanic catching stage p, t)

namespace Answer.Settles

variable {c : T.Ty} {t : Trampoline T.erase}

theorem of_completed {v : T.erase.Value} (h : Settles c (.completed v, t)) : ∃ x, v = ⟨c, x⟩ := by
  generalize hout : ((.completed v, t) : Answer T.erase × Trampoline T.erase) = out at h
  cases h with
  | completed x =>
    cases hout
    exact ⟨x, rfl⟩
  | suspended => cases hout
  | panicked catching => cases catching <;> cases hout

theorem wellTyped (h : Settles c (.suspended, t)) : t.WellTyped c := by
  generalize hout : ((.suspended, t) : Answer T.erase × Trampoline T.erase) = out at h
  cases h with
  | completed => cases hout
  | suspended ht =>
    cases hout
    exact ht
  | panicked catching => cases catching <;> cases hout

theorem of_failed {e : RunError} (h : Settles c (.failed e, t)) :
    ∃ stage p, e = .ofPanic stage p := by
  generalize hout : ((.failed e, t) : Answer T.erase × Trampoline T.erase) = out at h
  cases h with
  | completed | suspended => cases hout
  | panicked catching stage p =>
    cases catching
    · cases hout
    · cases hout
      exact ⟨stage, p, rfl⟩

end Answer.Settles

/-! ### Functions -/

variable {m : Type → Type} [Monad m] {fns : TypedFunctions T m} {other : Functions T.erase m}

/-- The functions do as those of `fns` where an argument is of the type that is expected. They may
do anything where it is not. -/
structure Functions.Agrees (other : Functions T.erase m) (fns : TypedFunctions T m) : Prop where
  thunk (t : T.erase.Thunk) : other.thunk t = fns.erase.thunk t
  transform (f : T.erase.Transform) (v : T.erase.Value) :
    v.1 = f.1 → other.transform f v = fns.erase.transform f v
  continuation (k : T.erase.Continuation) (v : T.erase.Value) :
    v.1 = k.1 → other.continuation k v = fns.erase.continuation k v
  observe (e : Event) : other.observe e = fns.observe e

theorem TypedFunctions.erase_agrees : fns.erase.Agrees fns :=
  ⟨fun _ => rfl, fun _ _ _ => rfl, fun _ _ _ => rfl, fun _ => rfl⟩

variable [LawfulMonad m] {a b c : T.Ty}

namespace TypedFunctions

/-- A call whose argument is of the expected type returns or panics. -/
theorem yields_outcome {α β : Type} (P : β → Prop) {f : α → β} (h : ∀ x, P (f x))
    (x : m (Except Payload α)) :
    Yields (Outcome.Accepts P) (do return outcome (T := T) f (← x)) := by
  refine (Yields.any x).bind fun out _ => .pure ?_
  cases out with
  | ok x => exact .returned (h x)
  | error p => exact .panicked p

variable (fns)

theorem thunk_yields (thunk : T.Thunk a) :
    Yields (Outcome.Accepts fun v => v.1 = a) (fns.erase.thunk ⟨a, thunk⟩) :=
  yields_outcome (fun v : T.erase.Value => v.1 = a) (fun _ => rfl) _

theorem transform_yields (transform : T.Transform a b) (x : T.Carrier a) :
    Yields (Outcome.Accepts fun v => v.1 = b) (fns.erase.transform ⟨a, b, transform⟩ ⟨a, x⟩) := by
  simp only [erase, TypedCodes.expect_self]
  exact yields_outcome (fun v : T.erase.Value => v.1 = b) (fun _ => rfl) _

theorem continuation_yields (continuation : T.Continuation a b) (x : T.Carrier a) :
    Yields (Outcome.Accepts fun e => LazyEffects.WellTyped e b)
      (fns.erase.continuation ⟨a, b, continuation⟩ ⟨a, x⟩) := by
  simp only [erase, TypedCodes.expect_self]
  exact yields_outcome (fun e => LazyEffects.WellTyped e b) Typed.wellTyped _

end TypedFunctions

/-! ### Slices -/

namespace Trampoline

variable (fns) (catching : Bool) {list : List (Frame T.erase)}

/-- A value goes back through frames that expect it. -/
theorem unwindList_yields (h : FramesTyped list a c) (n : Nat) (hn : n = list.length)
    (x : T.Carrier a) :
    Yields (Unwound.WellTyped c) (unwindList fns.erase catching list n hn ⟨a, x⟩) := by
  induction h generalizing n with
  | nil => exact .pure (.delivered x)
  | map transform _ ih =>
    refine (fns.transform_yields transform x).bind fun out hout => ?_
    cases hout with
    | @returned v hv =>
      obtain ⟨_, y⟩ := v
      cases hv
      exact ih _ _ y
    | panicked p => exact .pure (.stopped catching .transform p _)
  | flatMap continuation hlist _ =>
    refine (fns.continuation_yields continuation x).bind fun out hout => ?_
    cases hout with
    | returned he => exact .pure (.entered he hlist)
    | panicked p => exact .pure (.stopped catching .continuation p _)

/-- A slice of a well-typed evaluation. -/
theorem descend_yields {e : Effect T.erase} (he : LazyEffects.WellTyped e a) {stack : Frames T.erase}
    (hs : FramesTyped stack.list a c) (stats : Stats) (n : Nat) :
    Yields (Answer.Settles c) (descend fns.erase catching n e stack stats) := by
  induction n generalizing a e stack stats with
  | zero => exact (Yields.any _).bind fun _ _ => .pure (.suspended (.intro he hs))
  | succ n ih =>
    refine (Yields.any _).bind fun _ _ => ?_
    cases he with
    | map transform he => exact ih he (.map transform hs) _
    | flatMap continuation he => exact ih he (.flatMap continuation hs) _
    | sync thunk =>
      refine (fns.thunk_yields thunk).bind fun out hout => ?_
      cases hout with
      | @returned v hv =>
        obtain ⟨_, x⟩ := v
        cases hv
        refine (unwindList_yields fns catching hs _ stack.height_eq x).bind fun u hu => ?_
        cases hu with
        | delivered y => exact .pure (.completed y _)
        | entered he' hs' => exact ih he' hs' _
        | stopped _ stage p rest => exact .pure (.panicked _ stage p _)
      | panicked p => exact .pure (.panicked catching .thunk p _)

variable {fns}

theorem unwindList_congr (ho : other.Agrees fns) (h : FramesTyped list a c) (n : Nat)
    (hn : n = list.length) (x : T.Carrier a) :
    unwindList other catching list n hn ⟨a, x⟩ =
      unwindList fns.erase catching list n hn ⟨a, x⟩ := by
  induction h generalizing n with
  | nil => rfl
  | map transform _ ih =>
    rw [unwindList, unwindList, ho.transform _ _ rfl]
    refine (fns.transform_yields transform x).congr_bind fun out hout => ?_
    cases hout with
    | @returned v hv =>
      obtain ⟨_, y⟩ := v
      cases hv
      exact ih _ _ y
    | panicked p => rfl
  | flatMap continuation hlist _ =>
    rw [unwindList, unwindList, ho.continuation _ _ rfl]

theorem descend_congr (ho : other.Agrees fns) {e : Effect T.erase}
    (he : LazyEffects.WellTyped e a) {stack : Frames T.erase} (hs : FramesTyped stack.list a c)
    (stats : Stats) (n : Nat) :
    descend other catching n e stack stats = descend fns.erase catching n e stack stats := by
  induction n generalizing a e stack stats with
  | zero =>
    rw [descend, descend, ho.observe]
    rfl
  | succ n ih =>
    rw [descend, descend, ho.observe]
    refine bind_congr fun _ => ?_
    cases he with
    | map transform he => exact ih he (.map transform hs) _
    | flatMap continuation he => exact ih he (.flatMap continuation hs) _
    | sync thunk =>
      simp only [ho.thunk]
      refine (fns.thunk_yields thunk).congr_bind fun out hout => ?_
      cases hout with
      | @returned v hv =>
        obtain ⟨_, x⟩ := v
        cases hv
        simp only [unwind, unwindList_congr catching ho hs _ stack.height_eq x]
        refine (unwindList_yields fns catching hs _ stack.height_eq x).congr_bind fun u hu => ?_
        cases hu with
        | delivered y => rfl
        | entered he' hs' => exact ih he' hs' _
        | stopped _ stage p rest => rfl
      | panicked p => rfl

namespace WellTyped

variable {t : Trampoline T.erase} (h : t.WellTyped c) (budget : Nat)

include h

variable (fns) in
/-- A slice of a well-typed evaluation ends with a value of the type of its result, with a
well-typed evaluation that is suspended, or with a panic. -/
theorem runSlice_settles : Yields (Answer.Settles c) (t.runSlice fns.erase catching budget) := by
  cases h with
  | intro he hs => exact descend_yields fns catching he hs _ budget

/-- In a slice of a well-typed evaluation no function gets an argument of another type than it
expects: it does not matter what the functions would do with one. -/
theorem runSlice_congr (ho : other.Agrees fns) :
    t.runSlice other catching budget = t.runSlice fns.erase catching budget := by
  cases h with
  | intro he hs => exact descend_congr catching ho he hs _ budget

end WellTyped

end Trampoline

end LazyEffects
