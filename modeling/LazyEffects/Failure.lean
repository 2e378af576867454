import LazyEffects.Panic

/-!
# Failures of a run

The algebra of effects knows success only. A run that cannot be finished ends with a `RunError`,
which goes to an error handler in place of the completion callback.

* `RunError.ofPanic` turns a stopped panic into a failure;
* `RunError.message` is the text of a failure.
-/

namespace LazyEffects

/-- The kind of user function that was executing when a run failed. -/
inductive Stage where
  | thunk
  | transform
  | continuation
  deriving DecidableEq, Repr, Inhabited

/-- The name of a stage in reports. -/
def Stage.label : Stage → String
  | thunk => "thunk"
  | transform => "map transform"
  | continuation => "flat_map continuation"

/-- The causes that end a run without its completion callback. -/
inductive RunError where
  /-- A user function panicked, and the panic was stopped. -/
  | panicked (stage : Stage) (message : String)
  /-- A value did not have the type that its consumer expected. -/
  | typeMismatch (expected : String)
  /-- A trampoline was asked to go on after it had delivered its outcome. -/
  | alreadyCompleted
  /-- The host dropped the run before it was over. -/
  | abandoned
  deriving DecidableEq, Repr, Inhabited

namespace RunError

/-- The failure that a panic in a function of the given stage becomes. -/
def ofPanic (stage : Stage) (p : Payload) : RunError :=
  panicked stage p.message

/-- The text of a failure. -/
def message : RunError → String
  | panicked stage message => s!"{stage.label} panicked: {message}"
  | typeMismatch expected => s!"Type mismatch: expected a value of type {expected}"
  | alreadyCompleted => "Trampoline already completed"
  | abandoned => "Run abandoned by its host before completion"

end RunError

end LazyEffects
