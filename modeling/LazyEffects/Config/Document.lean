import LazyEffects.Config.Error
import LazyEffects.Text.Quoted
import LazyEffects.Text.Shortest
import LazyEffects.Toml.Document

/-!
# Settings in documents

A document sets the budget, the delay and the catching of panics at its top level and holds
nothing else. What is not set keeps its default.

* `Settings.ofDocument` reads the settings of a tree, and finds what is wrong first in the order of
  the document;
* `Config.decode` and `Config.load` read a whole configuration from a text and from a file, with
  any reader of documents;
* `Config.ofText` and `Config.ofFile` do so with `Toml.Document.read?`.
-/

namespace LazyEffects

open Toml (Entries Key Node Scalar)

/-- What reads documents: the tree of a text, if the text is a document. -/
abbrev Toml.Reader := List Char → Option Entries

/-- The text of a floating point number, with a decimal point. -/
def pointedText (x : Float) : String :=
  let text := Text.floatText x
  if x.isNaN || x.isInf || text.contains '.' then text else text ++ ".0"

/-- The form of a scalar in words. -/
def scalarForm : Scalar → String
  | .text s => "string " ++ Text.quoted s
  | .integer n => "integer `" ++ toString n ++ "`"
  | .float x => "floating point `" ++ pointedText x ++ "`"
  | .boolean b => "boolean `" ++ (if b then "true" else "false") ++ "`"
  | .moment _ => "map"

/-- The form of a node in words. -/
def nodeForm : Node → String
  | .scalar s _ => scalarForm s
  | .array _ _ | .tables _ _ _ => "sequence"
  | .table _ _ _ => "map"

/-- A node as a number that is not negative; `expected` are the words for such numbers. -/
def naturalOf (expected : String) : Node → Except Violation Nat
  | .scalar (.integer n) _ => if 0 ≤ n then .ok n.toNat else .error (.outOfRange n expected)
  | node => .error (.wrongForm (nodeForm node) expected)

/-- A node as a truth value. -/
def booleanOf : Node → Except Violation Bool
  | .scalar (.boolean b) _ => .ok b
  | node => .error (.wrongForm (nodeForm node) "a boolean")

namespace Settings

/-- The settings with the one that an entry of a document gives. A violation comes with the place
at which it is shown: the key, if it is unknown, else the value, if it is written anywhere. -/
def setEntry (s : Settings) (entry : Key × Node) : Except (Violation × Nat) Settings :=
  let (key, node) := entry
  let atValue {α : Type} (r : Except Violation α) : Except (Violation × Nat) α :=
    r.mapError fun v => (v, node.remaining?.getD key.remaining)
  if key.name = "step_budget" then do
    return { s with stepBudget := some (← atValue (naturalOf "usize" node)) }
  else if key.name = "resume_delay_ms" then do
    return { s with resumeMillis := some (← atValue (naturalOf "u64" node)) }
  else if key.name = "catch_panics" then do
    return { s with catchPanics := some (← atValue (booleanOf node)) }
  else .error (.unknownField key.name, key.remaining)

/-- The settings of a document. -/
def ofDocument (entries : Entries) : Except (Violation × Nat) Settings :=
  entries.foldlM setEntry Settings.open

/-- The settings of a text. -/
def decode (read : Toml.Reader) (text : List Char) : Except ConfigError Settings :=
  match read text with
  | none => .error .malformed
  | some entries =>
    (ofDocument entries).mapError fun (v, remaining) =>
      let (line, column) := Toml.Document.position text remaining
      .unfit v line column

end Settings

namespace Config

/-- The configuration that a text gives, on top of the defaults. -/
def decode (read : Toml.Reader) (text : String) : Except ConfigError Config := do
  (default.override (← Settings.decode read text.toList)).validated

/-- The configuration that a file gives. The file is given by its path and by its content or the
reason for which it cannot be read. -/
def load (read : Toml.Reader) (path : String) (content : Except String ByteArray) :
    Except ConfigError Config :=
  match content with
  | .error reason => .error (.unreadable path reason)
  | .ok bytes =>
    match String.fromUTF8? bytes with
    | none => .error (.unreadable path "stream did not contain valid UTF-8")
    | some text => decode read text

/-- The configuration that a text of TOML gives. -/
def ofText (text : String) : Except ConfigError Config := decode Toml.Document.read? text

/-- The configuration that a file of TOML gives. -/
def ofFile (path : String) (content : Except String ByteArray) : Except ConfigError Config :=
  load Toml.Document.read? path content

end Config

end LazyEffects
