import LazyEffects.Functions

/-!
# The trampoline

A trampoline evaluates an effect tree with an explicit stack of pending frames. It works in
*slices*: a slice processes at most as many nodes as its budget grants and then hands the state
back, so that the host can do other work; a later slice goes on from that state.

On the way down a slice counts each node as a step and pushes a frame for every transform and
continuation it passes. A leaf's value goes back through the frames: transforms cost no steps, and
a continuation returns the effect into which the descent goes on, its frame being gone by then.

* `Trampoline.runSlice` is one slice;
* `Answer` is how a slice ends. Whether a panic of a user function ends as a failure or leaves the
  slice is decided by `catching`.
-/

namespace LazyEffects

variable {S : Signature}

/-- A pending composition step, waiting for the result of its source. -/
inductive Frame (S : Signature) where
  | map (f : S.Transform)
  | flatMap (k : S.Continuation)

/-- Pending frames, the topmost first, with their number at hand. -/
structure Frames (S : Signature) where
  list : List (Frame S)
  height : Nat
  height_eq : height = list.length

namespace Frames

/-- No frame. -/
def empty : Frames S := ⟨[], 0, rfl⟩

instance : Inhabited (Frames S) := ⟨empty⟩

/-- One more frame on top. -/
def push (s : Frames S) (f : Frame S) : Frames S :=
  ⟨f :: s.list, s.height + 1, by simp [s.height_eq]⟩

@[simp] theorem list_empty : (empty : Frames S).list = [] := rfl

@[simp] theorem height_empty : (empty : Frames S).height = 0 := rfl

@[simp] theorem list_push (s : Frames S) (f : Frame S) : (s.push f).list = f :: s.list := rfl

@[simp] theorem height_push (s : Frames S) (f : Frame S) : (s.push f).height = s.height + 1 := rfl

/-- Frames are determined by their list. -/
theorem ext_list {s t : Frames S} (h : s.list = t.list) : s = t := by
  cases s with
  | mk l n hn =>
    cases t with
    | mk l' n' hn' =>
      subst h
      cases hn
      cases hn'
      rfl

end Frames

/-- Counters of a run. -/
structure Stats where
  /-- Nodes processed on the way down. -/
  steps : Nat
  /-- Slices that ended because their budget was used up. -/
  suspensions : Nat
  /-- The greatest number of frames ever pending. -/
  maxStack : Nat
  deriving DecidableEq, Repr, Inhabited

namespace Stats

def zero : Stats := ⟨0, 0, 0⟩

/-- One more node processed. -/
def visit (s : Stats) : Stats := { s with steps := s.steps + 1 }

/-- One more slice used up. -/
def suspend (s : Stats) : Stats := { s with suspensions := s.suspensions + 1 }

/-- `height` frames were pending. -/
def reach (s : Stats) (height : Nat) : Stats := { s with maxStack := max s.maxStack height }

end Stats

/-- How a slice ends. -/
inductive Answer (S : Signature) where
  | completed (v : S.Value)
  /-- The budget is used up, and the state is ready for another slice. -/
  | suspended
  | failed (e : RunError)
  /-- The panic of a user function left the slice. -/
  | unwound (p : Payload)

/-- What becomes of a panic: a failure that names the stage if panics are caught, and otherwise it
leaves the slice. -/
def Answer.ofPanic (catching : Bool) (stage : Stage) (p : Payload) : Answer S :=
  if catching then .failed (.ofPanic stage p) else .unwound p

/-- What becomes of a value that is not of the expected type. -/
def Answer.ofMismatch (expected : S.Ty) : Answer S :=
  .failed (.typeMismatch (S.typeName expected))

/-- The state of an evaluation between slices. -/
structure Trampoline (S : Signature) where
  /-- The node to process next; there is none once the outcome is out. -/
  current : Option (Effect S)
  stack : Frames S
  stats : Stats

namespace Trampoline

/-- The evaluation of an effect before its first slice. -/
def start (root : Effect S) : Trampoline S := ⟨some root, .empty, .zero⟩

/-- What becomes of a value that is handed to the pending frames. -/
inductive Unwound (S : Signature) where
  /-- No frame was left: the value is the result. -/
  | delivered (v : S.Value)
  /-- A continuation returned an effect, and `rest` is pending behind it. -/
  | entered (e : Effect S) (rest : Frames S)
  /-- A function of the topmost frame did not return. -/
  | stopped (a : Answer S) (rest : Frames S)

variable {m : Type → Type} [Monad m] (fns : Functions S m) (catching : Bool)

/-- Hand `v` to the frames of `list`, topmost first, until one of them enters an effect. -/
@[specialize]
def unwindList : (list : List (Frame S)) → (height : Nat) → height = list.length → S.Value →
    m (Unwound S)
  | [], _, _, v => pure (.delivered v)
  | .map f :: list, height, h, v => do
    match ← fns.transform f v with
    | .returned v => unwindList list (height - 1) (by simp [h]) v
    | .mismatched expected =>
      pure (.stopped (.ofMismatch expected) ⟨list, height - 1, by simp [h]⟩)
    | .panicked p =>
      pure (.stopped (.ofPanic catching .transform p) ⟨list, height - 1, by simp [h]⟩)
  | .flatMap k :: list, height, h, v => do
    match ← fns.continuation k v with
    | .returned e => pure (.entered e ⟨list, height - 1, by simp [h]⟩)
    | .mismatched expected =>
      pure (.stopped (.ofMismatch expected) ⟨list, height - 1, by simp [h]⟩)
    | .panicked p =>
      pure (.stopped (.ofPanic catching .continuation p) ⟨list, height - 1, by simp [h]⟩)

/-- Hand `v` to the pending frames. -/
@[inline]
def unwind (stack : Frames S) (v : S.Value) : m (Unwound S) :=
  unwindList fns catching stack.list stack.height stack.height_eq v

/-- Process the node `e` and what follows it while at most `left` nodes are processed. -/
@[specialize]
def descend : (left : Nat) → (e : Effect S) → (stack : Frames S) → (stats : Stats) →
    m (Answer S × Trampoline S)
  | 0, e, stack, stats => do
    let stats := stats.suspend
    fns.observe (.suspended stats.steps stats.suspensions stack.height)
    pure (.suspended, ⟨some e, stack, stats⟩)
  | left + 1, e, stack, stats => do
    fns.observe (.visited e.kind stack.height)
    let stats := stats.visit
    match e with
    | .map source f =>
      descend left source (stack.push (.map f)) (stats.reach (stack.height + 1))
    | .flatMap source k =>
      descend left source (stack.push (.flatMap k)) (stats.reach (stack.height + 1))
    | .sync t =>
      match ← fns.thunk t with
      | .returned v =>
        match ← unwind fns catching stack v with
        | .delivered v => pure (.completed v, ⟨none, .empty, stats⟩)
        | .entered e rest => descend left e rest stats
        | .stopped a rest => pure (a, ⟨none, rest, stats⟩)
      | .mismatched expected => pure (.ofMismatch expected, ⟨none, stack, stats⟩)
      | .panicked p => pure (.ofPanic catching .thunk p, ⟨none, stack, stats⟩)

/-- One slice: go on from where the last one stopped, for at most `budget` nodes. Once the outcome
is out, every further slice is refused and changes nothing. -/
@[specialize]
def runSlice (budget : Nat) (t : Trampoline S) : m (Answer S × Trampoline S) :=
  match t.current with
  | none => pure (.failed .alreadyCompleted, t)
  | some e => descend fns catching budget e t.stack t.stats

end Trampoline

end LazyEffects
