import LazyEffects.Config.Error
import LazyEffects.Text.Blank
import LazyEffects.Text.Numeral

/-!
# Settings in variables

Each setting has an environment variable. Blanks around its value do not count.

* `Settings.ofVariables` reads the settings of all variables, in a fixed order;
* `Config.applyVariables` puts them over a configuration.
-/

namespace LazyEffects

/-- The variable of the budget. -/
def stepBudgetVariable : String := "EFFECTRON_STEP_BUDGET"

/-- The variable of the delay in milliseconds. -/
def resumeMillisVariable : String := "EFFECTRON_RESUME_DELAY_MS"

/-- The variable that says whether panics are caught. -/
def catchPanicsVariable : String := "EFFECTRON_CATCH_PANICS"

/-- A word that says yes or no. -/
def truth? (cs : List Char) : Option Bool :=
  if cs = ['t', 'r', 'u', 'e'] then some true
  else if cs = ['f', 'a', 'l', 's', 'e'] then some false
  else none

/-- The setting in a variable, if the variable is set. -/
def variableSetting {α : Type} (lookup : String → Option String) (name : String)
    (parse : List Char → Option α) : Except ConfigError (Option α) :=
  match lookup name with
  | none => .ok none
  | some value =>
    match parse (Text.trim value.toList) with
    | some a => .ok (some a)
    | none => .error (.badVariable name value)

/-- The settings in the variables. -/
def Settings.ofVariables (lookup : String → Option String) : Except ConfigError Settings := do
  let stepBudget ← variableSetting lookup stepBudgetVariable (Text.unsigned? Config.maxWord)
  let resumeMillis ← variableSetting lookup resumeMillisVariable (Text.unsigned? Config.maxWord)
  let catchPanics ← variableSetting lookup catchPanicsVariable truth?
  return { stepBudget, resumeMillis, catchPanics }

/-- The configuration with the settings in the variables. -/
def Config.applyVariables (c : Config) (lookup : String → Option String) :
    Except ConfigError Config := do
  (c.override (← Settings.ofVariables lookup)).validated

end LazyEffects
