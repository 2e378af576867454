import LazyEffects.Duration

/-!
# Configuration of a run

* `Config.default` yields to the host every two nodes, asks for no delay and catches panics;
* `Config.validate` refuses a budget of zero, with which a run would never progress;
* `Config.progressing` raises such a budget to one instead;
* `Config.override` puts the `Settings` of one source over a configuration.
-/

namespace LazyEffects

/-- How a run is cut into slices and what becomes of panics. -/
structure Config where
  /-- The nodes that one slice may process. -/
  stepBudget : Nat
  /-- The delay asked of the host for each resumption. -/
  resumeDelay : Duration
  /-- Whether a panic of a user function is reported as a failure of the run. -/
  catchPanics : Bool
  deriving DecidableEq, Repr

namespace Config

/-- The greatest budget, and the greatest number of milliseconds that can be set. -/
def maxWord : Nat := (1 <<< 64) - 1

def default : Config := ⟨2, .zero, true⟩

instance : Inhabited Config := ⟨default⟩

/-- A budget so large that a run does not yield to its host. -/
def unbounded : Config := { default with stepBudget := maxWord }

/-- The configuration, if its budget lets a run progress. -/
def validate (c : Config) : Option Config :=
  if c.stepBudget = 0 then none else some c

/-- The configuration with a budget of at least one. -/
def progressing (c : Config) : Config :=
  { c with stepBudget := max c.stepBudget 1 }

end Config

/-- What one source of settings says; it may leave settings open. -/
structure Settings where
  stepBudget : Option Nat
  /-- The delay of resumptions in milliseconds. -/
  resumeMillis : Option Nat
  catchPanics : Option Bool
  deriving DecidableEq, Repr

/-- Settings that leave everything open. -/
def Settings.open : Settings := ⟨none, none, none⟩

/-- The configuration with those settings that `s` gives. -/
def Config.override (c : Config) (s : Settings) : Config where
  stepBudget := s.stepBudget.getD c.stepBudget
  resumeDelay := (s.resumeMillis.map Duration.ofMillis).getD c.resumeDelay
  catchPanics := s.catchPanics.getD c.catchPanics

end LazyEffects
