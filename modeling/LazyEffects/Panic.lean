/-!
# Panics

A panic is the abrupt end of user code. It carries a *payload*, which travels unchanged through
every frame it leaves, until a frame stops it or it reaches the caller.

* `Payload.message` is the text under which a stopped panic is reported.
-/

namespace LazyEffects

/-- What a panic carries. -/
inductive Payload where
  /-- A text fixed in the code that panicked. -/
  | literal (text : String)
  /-- A text computed by the code that panicked. -/
  | text (text : String)
  /-- A value that is not a text. -/
  | number (n : Int)
  deriving DecidableEq, Repr, Inhabited

/-- The text of a payload, where it has one. -/
def Payload.text? : Payload → Option String
  | literal t => some t
  | text t => some t
  | number _ => none

/-- The text under which a panic is reported: its own, or a fixed one if it carries none. -/
def Payload.message (p : Payload) : String :=
  p.text?.getD "non-string panic payload"

end LazyEffects
