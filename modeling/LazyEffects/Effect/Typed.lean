import LazyEffects.Functions

/-!
# Typed effects

Values lose their types on their way through a tree, so that one tree can change the type of its
result at every stage; each function recovers the type it expects from its argument. Effects that
are built with `Typed.sync`, `Typed.map` and `Typed.flatMap` keep the types of consecutive stages
in agreement, which `WellTyped` says of the plain tree.

* `TypedFunctions.erase` gives the functions as a trampoline calls them: an argument of another type
  is refused before anything of the function runs.
-/

namespace LazyEffects

/-- The codes of functions by the types of their arguments and results. -/
structure TypedCodes where
  Ty : Type
  [decEqTy : DecidableEq Ty]
  typeName : Ty → String
  /-- The values of a type. -/
  Carrier : Ty → Type
  Thunk : Ty → Type
  Transform : Ty → Ty → Type
  Continuation : Ty → Ty → Type

namespace TypedCodes

instance (T : TypedCodes) : DecidableEq T.Ty := T.decEqTy

/-- The signature in which types are left to the values. -/
@[reducible]
def erase (T : TypedCodes) : Signature where
  Ty := T.Ty
  typeName := T.typeName
  Value := (a : T.Ty) × T.Carrier a
  typeOf := Sigma.fst
  Thunk := (a : T.Ty) × T.Thunk a
  Transform := (a : T.Ty) × (b : T.Ty) × T.Transform a b
  Continuation := (a : T.Ty) × (b : T.Ty) × T.Continuation a b

/-- The value as one of type `a`, if it is one. -/
def expect {T : TypedCodes} (a : T.Ty) (v : T.erase.Value) : Option (T.Carrier a) :=
  if h : v.1 = a then some (h ▸ v.2) else none

@[simp] theorem expect_self {T : TypedCodes} {a : T.Ty} (x : T.Carrier a) :
    expect a (⟨a, x⟩ : T.erase.Value) = some x := by simp [expect]

end TypedCodes

variable {T : TypedCodes}

/-- Every function in the tree expects what its source gives, and the root gives an `a`. -/
inductive WellTyped : Effect T.erase → T.Ty → Prop where
  | sync {a : T.Ty} (thunk : T.Thunk a) : WellTyped (.sync ⟨a, thunk⟩) a
  | map {source : Effect T.erase} {a b : T.Ty} (transform : T.Transform a b) :
    WellTyped source a → WellTyped (.map source ⟨a, b, transform⟩) b
  | flatMap {source : Effect T.erase} {a b : T.Ty} (continuation : T.Continuation a b) :
    WellTyped source a → WellTyped (.flatMap source ⟨a, b, continuation⟩) b

/-- An effect whose stages agree on types and whose result is of type `a`. -/
structure Typed (T : TypedCodes) (a : T.Ty) where
  root : Effect T.erase
  wellTyped : WellTyped root a

namespace Typed

/-- Run a thunk. -/
def sync {a : T.Ty} (thunk : T.Thunk a) : Typed T a := ⟨.sync ⟨a, thunk⟩, .sync thunk⟩

/-- Apply a function to the result of `e`. -/
def map {a b : T.Ty} (e : Typed T a) (transform : T.Transform a b) : Typed T b :=
  ⟨.map e.root ⟨a, b, transform⟩, .map transform e.wellTyped⟩

/-- Go on with the effect that a function makes of the result of `e`. -/
def flatMap {a b : T.Ty} (e : Typed T a) (continuation : T.Continuation a b) : Typed T b :=
  ⟨.flatMap e.root ⟨a, b, continuation⟩, .flatMap continuation e.wellTyped⟩

/-- The plain tree together with the type of its result. -/
def toProgram {a : T.Ty} (e : Typed T a) : Program T.erase := ⟨e.root, a⟩

end Typed

/-- What typed codes do. A function returns or panics. -/
structure TypedFunctions (T : TypedCodes) (m : Type → Type) where
  thunk {a : T.Ty} : T.Thunk a → m (Except Payload (T.Carrier a))
  transform {a b : T.Ty} : T.Transform a b → T.Carrier a → m (Except Payload (T.Carrier b))
  continuation {a b : T.Ty} : T.Continuation a b → T.Carrier a → m (Except Payload (Typed T b))
  observe : Event → m Unit

namespace TypedFunctions

/-- The end of a call whose argument was of the expected type. -/
def outcome {α β : Type} (f : α → β) : Except Payload α → Outcome T.erase β
  | .ok a => .returned (f a)
  | .error p => .panicked p

/-- The functions of the plain signature. -/
def erase {m : Type → Type} [Monad m] (fns : TypedFunctions T m) : Functions T.erase m where
  thunk t := do return outcome (⟨t.1, ·⟩) (← fns.thunk t.2)
  transform f v :=
    match TypedCodes.expect f.1 v with
    | some x => do return outcome (⟨f.2.1, ·⟩) (← fns.transform f.2.2 x)
    | none => pure (.mismatched f.1)
  continuation k v :=
    match TypedCodes.expect k.1 v with
    | some x => do return outcome Typed.root (← fns.continuation k.2.2 x)
    | none => pure (.mismatched k.1)
  observe := fns.observe

end TypedFunctions

end LazyEffects
