/-!
# Effect trees

An effect is a description of a computation; nothing runs while it is built. It is a tree of
three kinds of nodes: a leaf with a thunk, a source with a transform of its result, and a source
with a continuation that turns its result into a further effect.

The user's functions occur in the tree as *codes*, drawn from a `Signature`, and what a code does
is said elsewhere (`Functions`). So a continuation may return an effect that holds the very same
continuation again, and a program without an end is still a finite tree at every moment.

* `Effect.depth` is the number of nodes on the chain of sources;
* `Effect.chain` is the text of that chain.
-/

namespace LazyEffects

/-- The codes of the user's functions, and the values that pass between them. Every value has one
type, and types have names. -/
structure Signature where
  Ty : Type
  [decEqTy : DecidableEq Ty]
  /-- The name of a type in reports. -/
  typeName : Ty → String
  Value : Type
  typeOf : Value → Ty
  /-- Codes of functions without argument. -/
  Thunk : Type
  /-- Codes of functions from values to values. -/
  Transform : Type
  /-- Codes of functions from values to effects. -/
  Continuation : Type

instance (S : Signature) : DecidableEq S.Ty := S.decEqTy

/-- A lazy description of a computation. -/
inductive Effect (S : Signature) where
  /-- Run a thunk. -/
  | sync (thunk : S.Thunk)
  /-- Apply a transform to the result of `source`. -/
  | map (source : Effect S) (transform : S.Transform)
  /-- Feed the result of `source` to a continuation and go on with the effect it returns. -/
  | flatMap (source : Effect S) (continuation : S.Continuation)

/-- The kinds of nodes. -/
inductive NodeKind where
  | sync
  | map
  | flatMap
  deriving DecidableEq, Repr, Inhabited

/-- The name of a kind in reports. -/
def NodeKind.label : NodeKind → String
  | sync => "Sync"
  | map => "Map"
  | flatMap => "FlatMap"

namespace Effect

variable {S : Signature}

/-- The kind of the root. -/
def kind : Effect S → NodeKind
  | sync _ => .sync
  | map _ _ => .map
  | flatMap _ _ => .flatMap

/-- The number of nodes on the chain of sources that starts at the root, added to `n`. -/
def depthFrom (n : Nat) : Effect S → Nat
  | sync _ => n + 1
  | map source _ => depthFrom (n + 1) source
  | flatMap source _ => depthFrom (n + 1) source

/-- The number of nodes on the chain of sources that starts at the root. Effects that a
continuation has yet to return do not count. -/
def depth (e : Effect S) : Nat := e.depthFrom 0

/-- The kinds on the chain of sources behind those already in `seen`, last first. -/
def kindsOnto (seen : List NodeKind) : Effect S → List NodeKind
  | sync _ => .sync :: seen
  | map source _ => kindsOnto (.map :: seen) source
  | flatMap source _ => kindsOnto (.flatMap :: seen) source

/-- The kinds on the chain of sources, from the root to the leaf. -/
def kinds (e : Effect S) : List NodeKind := (e.kindsOnto []).reverse

/-- The chain of sources as text, from the root to the leaf. -/
def chain (e : Effect S) : String :=
  " <- ".intercalate (e.kinds.map NodeKind.label)

/-- An effect as text. -/
def text (e : Effect S) : String := s!"Effect({e.chain})"

/-- An effect as text over several lines. -/
def prettyText (e : Effect S) : String := s!"Effect(\n    {e.chain},\n)"

theorem depthFrom_eq (n : Nat) (e : Effect S) : e.depthFrom n = n + e.depthFrom 0 := by
  induction e generalizing n with
  | sync => simp [depthFrom]
  | map _ _ ih => rw [depthFrom, ih, depthFrom, ih (0 + 1)]; omega
  | flatMap _ _ ih => rw [depthFrom, ih, depthFrom, ih (0 + 1)]; omega

@[simp] theorem depth_sync (t : S.Thunk) : (sync t : Effect S).depth = 1 := rfl

@[simp] theorem depth_map (e : Effect S) (f : S.Transform) : (map e f).depth = e.depth + 1 := by
  rw [depth, depthFrom, depthFrom_eq, depth]; omega

@[simp] theorem depth_flatMap (e : Effect S) (k : S.Continuation) :
    (flatMap e k).depth = e.depth + 1 := by
  rw [depth, depthFrom, depthFrom_eq, depth]; omega

theorem kindsOnto_length (seen : List NodeKind) (e : Effect S) :
    (e.kindsOnto seen).length = seen.length + e.depth := by
  induction e generalizing seen with
  | sync => simp [kindsOnto]
  | map _ _ ih => simp [kindsOnto, ih]; omega
  | flatMap _ _ ih => simp [kindsOnto, ih]; omega

/-- The chain names every node that `depth` counts. -/
@[simp] theorem kinds_length (e : Effect S) : e.kinds.length = e.depth := by
  simp [kinds, kindsOnto_length]

end Effect

/-- An effect together with the type that its result is declared to have. -/
structure Program (S : Signature) where
  root : Effect S
  result : S.Ty

end LazyEffects
