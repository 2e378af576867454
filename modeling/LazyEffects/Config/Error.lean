import LazyEffects.Config

/-!
# Errors of configuration

* `ConfigError.message` is the text of an error, and `Violation.message` what is wrong with a
  document that is well-formed but says something that cannot be set.
-/

namespace LazyEffects

/-- What is wrong with a document. -/
inductive Violation where
  /-- A key that is not the name of a setting. -/
  | unknownField (name : String)
  /-- A value of a form that the setting does not have; both forms are given in words. -/
  | wrongForm (found expected : String)
  /-- A number that the setting cannot be. -/
  | outOfRange (n : Int) (expected : String)
  deriving DecidableEq, Repr

/-- The names of the settings in a document. -/
def settingNames : List String := ["step_budget", "resume_delay_ms", "catch_panics"]

/-- What is wrong, in words. -/
def Violation.message : Violation → String
  | unknownField name =>
    let names := ", ".intercalate (settingNames.map fun name => "`" ++ name ++ "`")
    "unknown field `" ++ name ++ "`, expected one of " ++ names
  | wrongForm found expected => "invalid type: " ++ found ++ ", expected " ++ expected
  | outOfRange n expected =>
    "invalid value: integer `" ++ toString n ++ "`, expected " ++ expected

/-- The causes for which there is no configuration. -/
inductive ConfigError where
  /-- The budget is zero. -/
  | zeroBudget
  /-- A file could not be read. -/
  | unreadable (path reason : String)
  /-- A text is not a document. -/
  | malformed
  /-- A document says something that cannot be set, at a line and a column. -/
  | unfit (v : Violation) (line column : Nat)
  /-- A variable does not hold a value of its setting. -/
  | badVariable (name value : String)
  deriving DecidableEq, Repr

namespace ConfigError

/-- The first line of the text of an error. -/
def headline : ConfigError → String
  | zeroBudget => "Invalid step budget 0: must be at least 1"
  | unreadable path reason => s!"Failed to read config '{path}': {reason}"
  | malformed => "Invalid config: "
  | unfit _ line column => s!"Invalid config: TOML parse error at line {line}, column {column}"
  | badVariable name value => s!"Invalid value for {name}: '{value}'"

/-- The text of an error. -/
def message (e : ConfigError) : String :=
  match e with
  | unfit v _ _ => e.headline ++ "\n" ++ v.message ++ "\n"
  | e => e.headline

/-- An error of something else is behind this one. -/
def hasSource : ConfigError → Bool
  | unreadable _ _ | malformed | unfit _ _ _ => true
  | zeroBudget | badVariable _ _ => false

end ConfigError

/-- The configuration, unless its budget is zero. -/
def Config.validated (c : Config) : Except ConfigError Config :=
  match c.validate with
  | some c => .ok c
  | none => .error .zeroBudget

end LazyEffects
