import LazyEffects.Event

/-!
# What the user's functions do

A tree holds codes of functions; `Functions S m` says what each code does when it is called, as a
computation in a monad `m`. The monad is whatever the functions may do besides returning: keep a
state, or ask a host for something.
-/

namespace LazyEffects

/-- How a call of a user function ends. -/
inductive Outcome (S : Signature) (α : Type) where
  | returned (a : α)
  /-- The argument was not of the type that the function expects, so nothing of it ran. -/
  | mismatched (expected : S.Ty)
  | panicked (p : Payload)

/-- The meaning of the codes of a signature in the monad `m`, and what becomes of the events that
a trampoline reports while it calls them. -/
structure Functions (S : Signature) (m : Type → Type) where
  thunk : S.Thunk → m (Outcome S S.Value)
  transform : S.Transform → S.Value → m (Outcome S S.Value)
  continuation : S.Continuation → S.Value → m (Outcome S (Effect S))
  observe : Event → m Unit

end LazyEffects
