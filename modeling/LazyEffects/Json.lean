/-!
# JSON values and their compact text

The data that scenarios work on. Numbers are whole; the fields of an object are kept in the order
in which they are written, which is alphabetical wherever two objects may be compared.

* `Json.compact` is the text without blanks, with all but quotes, backslashes and control
  characters written as they are.
-/

namespace LazyEffects

inductive Json where
  | null
  | bool (b : Bool)
  | int (n : Int)
  | str (s : String)
  | arr (items : List Json)
  | obj (fields : List (String × Json))
  deriving Repr, BEq, Inhabited

namespace Json

/-- The digits of a code below 256 in base 16. -/
def hexByte (n : Nat) : String :=
  String.ofList [Nat.digitChar (n / 16), Nat.digitChar (n % 16)]

/-- A character inside quotes. -/
def escaped (c : Char) : String :=
  match c with
  | '"' => "\\\""
  | '\\' => "\\\\"
  | '\n' => "\\n"
  | '\r' => "\\r"
  | '\t' => "\\t"
  | '\x08' => "\\b"
  | '\x0c' => "\\f"
  | c => if c.toNat < 32 then "\\u00" ++ hexByte c.toNat else c.toString

/-- A text in quotes. -/
def quoted (s : String) : String :=
  s.foldl (fun out c => out ++ escaped c) "\"" ++ "\""

mutual

/-- The compact text of a value, behind `out`. -/
def write (out : String) : Json → String
  | null => out ++ "null"
  | bool b => out ++ (if b then "true" else "false")
  | int n => out ++ toString n
  | str s => out ++ quoted s
  | arr [] => out ++ "[]"
  | arr (item :: items) => writeItems (write (out ++ "[") item) items
  | obj [] => out ++ "\x7b\x7d"
  | obj ((name, value) :: fields) =>
    writeFields (write (out ++ "\x7b" ++ quoted name ++ ":") value) fields

/-- The items of an array that follow its first, behind `out`. -/
def writeItems (out : String) : List Json → String
  | [] => out ++ "]"
  | item :: items => writeItems (write (out ++ ",") item) items

/-- The fields of an object that follow its first, behind `out`. -/
def writeFields (out : String) : List (String × Json) → String
  | [] => out ++ "\x7d"
  | (name, value) :: fields =>
    writeFields (write (out ++ "," ++ quoted name ++ ":") value) fields

end

/-- The compact text of a value. -/
def compact (j : Json) : String := write "" j

/-- The value in a field of an object. -/
def field? (j : Json) (name : String) : Option Json :=
  match j with
  | obj fields => fields.lookup name
  | _ => none

end Json

end LazyEffects
