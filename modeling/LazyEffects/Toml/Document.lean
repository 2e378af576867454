import LazyEffects.Toml.Quotation
import LazyEffects.Toml.Tree

/-!
# Documents of TOML

A document is a sequence of lines, each with a key and its value, a header, a comment or nothing.

* `Statement.readAll?` reads the lines;
* `Document.read?` reads a document and builds its tree.

What reads a part of a text answers that part and the text that follows it, and nothing if the part
is not there.
-/

namespace LazyEffects.Toml

/-! ### Blanks, comments and ends of lines -/

/-- The text behind the blanks of a line. -/
def skipBlanks (cs : List Char) : List Char := cs.dropWhile Quotation.isBlank

/-- The text behind the end of a line. The end of the document ends a line, too. -/
def lineEnd? : List Char → Option (List Char)
  | [] => some []
  | '\n' :: cs => some cs
  | '\r' :: '\n' :: cs => some cs
  | _ => none

/-- The text behind a comment, if one is there. -/
def skipComment : List Char → List Char
  | '#' :: cs => cs.dropWhile Quotation.isPlain
  | cs => cs

/-- The text behind the rest of a line that holds nothing but blanks and a comment. -/
def lineRest? (cs : List Char) : Option (List Char) := lineEnd? (skipComment (skipBlanks cs))

/-- The text behind blanks, line ends and comments inside brackets. A comment must be followed by
a line end. -/
def skipFiller (inComment : Bool) : List Char → Option (List Char)
  | [] => if inComment then none else some []
  | '\n' :: cs => skipFiller false cs
  | '\r' :: '\n' :: cs => skipFiller false cs
  | c :: cs =>
    if inComment then if Quotation.isPlain c then skipFiller true cs else none
    else if Quotation.isBlank c then skipFiller false cs
    else if c == '#' then skipFiller true cs
    else some (c :: cs)

/-! ### Keys -/

/-- A character of a key without quotes. -/
def isBare (c : Char) : Bool :=
  ('a' ≤ c && c ≤ 'z') || ('A' ≤ c && c ≤ 'Z') || ('0' ≤ c && c ≤ '9') || c == '-' || c == '_'

/-- A key without dots. -/
def simpleKey? (cs : List Char) : Option (Key × List Char) :=
  match cs with
  | '"' :: _ | '\'' :: _ =>
    (Quotation.line? cs).map fun (name, rest) => (⟨String.ofList name, cs.length⟩, rest)
  | _ =>
    let name := cs.takeWhile isBare
    if name.isEmpty then none
    else some (⟨String.ofList name, cs.length⟩, cs.dropWhile isBare)

/-- The most keys that dots may join, and the most brackets that may be open at once. -/
def depthLimit : Nat := 79

/-- Keys joined by dots: at most `limit` of them. Blanks may surround each. -/
def keys? : (limit : Nat) → List Char → Option (List Key × List Char)
  | 0, _ => none
  | limit + 1, cs => do
    let (key, rest) ← simpleKey? (skipBlanks cs)
    match skipBlanks rest with
    | '.' :: rest => do
      let (keys, rest) ← keys? limit rest
      return (key :: keys, rest)
    | rest => return ([key], rest)

/-- Keys joined by dots: those before the last, and the last. -/
def dottedKey? (cs : List Char) : Option ((List Key × Key) × List Char) := do
  let (keys, rest) ← keys? depthLimit cs
  let last ← keys.getLast?
  return ((keys.dropLast, last), rest)

/-! ### Values -/

/-- A character that ends a text without quotes. -/
def isDelimiter (c : Char) : Bool :=
  c == ' ' || c == '\t' || c == '\n' || c == '\r' || c == '#' || c == ',' || c == ']' ||
    c == '\x7d'

/-- A text without quotes. A blank may stand between a date and a time. -/
def token (cs : List Char) : List Char × List Char :=
  let first := cs.takeWhile (!isDelimiter ·)
  let rest := cs.dropWhile (!isDelimiter ·)
  match rest with
  | ' ' :: rest' =>
    let second := rest'.takeWhile (!isDelimiter ·)
    if (Scalar.afterDate? first).any List.isEmpty && Scalar.isTimeWithOffset second then
      (first ++ 'T' :: second, rest'.dropWhile (!isDelimiter ·))
    else (first, rest)
  | _ => (first, rest)

/-- The items of an array behind its opening bracket, each read by `item`; at most `fuel`. -/
def arrayItems? (item : List Char → Option (Node × List Char)) :
    (fuel : Nat) → List Char → Option (List Node × List Char)
  | 0, _ => none
  | fuel + 1, cs => do
    match ← skipFiller false cs with
    | ']' :: rest => return ([], rest)
    | cs => do
      let (node, rest) ← item cs
      match ← skipFiller false rest with
      | ',' :: rest => do
        let (nodes, rest) ← arrayItems? item fuel rest
        return (node :: nodes, rest)
      | ']' :: rest => return ([node], rest)
      | _ => none

/-- The entries of a table in braces, behind those in `entries`; at most `fuel` more. -/
def inlineEntries? (item : List Char → Option (Node × List Char)) :
    (fuel : Nat) → Entries → List Char → Option (Entries × List Char)
  | 0, _, _ => none
  | fuel + 1, entries, cs => do
    let ((path, key), rest) ← dottedKey? cs
    match rest with
    | '=' :: rest => do
      let (node, rest) ← item (skipBlanks rest)
      let entries ← entries.put key node path
      match skipBlanks rest with
      | ',' :: rest => inlineEntries? item fuel entries rest
      | '\x7d' :: rest => return (entries, rest)
      | _ => none
    | _ => none

/-- A value without brackets. -/
def plainValue? (cs : List Char) : Option (Node × List Char) :=
  match cs with
  | '"' :: _ | '\'' :: _ =>
    (Quotation.any? cs).map fun (s, rest) =>
      (.scalar (.text (String.ofList s)) cs.length, rest)
  | _ =>
    let (text, rest) := token cs
    (Scalar.ofToken? text).map fun s => (.scalar s cs.length, rest)

/-- A value in which at most `depth` brackets are open at once. -/
def value? : (depth : Nat) → List Char → Option (Node × List Char)
  | 0, cs => plainValue? cs
  | depth + 1, cs =>
    match cs with
    | '[' :: rest => do
      let (items, rest) ← arrayItems? (value? depth) (rest.length + 1) rest
      return (.array items cs.length, rest)
    | '\x7b' :: rest =>
      match skipBlanks rest with
      | '\x7d' :: rest => some (.table .inline [] (some cs.length), rest)
      | _ => do
        let (entries, rest) ← inlineEntries? (value? depth) (rest.length + 1) [] rest
        return (.table .inline entries (some cs.length), rest)
    | _ => plainValue? cs

/-! ### Lines -/

/-- A line that says something. -/
inductive Statement where
  /-- A key with its value. -/
  | entry (path : List Key) (key : Key) (node : Node)
  /-- The header of a table. -/
  | header (path : List Key) (key : Key) (remaining : Nat)
  /-- The header of one more table of that name. -/
  | element (path : List Key) (key : Key) (remaining : Nat)

namespace Statement

/-- A header that begins with two brackets. -/
def element? (cs rest : List Char) : Option (Statement × List Char) := do
  let ((path, key), rest) ← dottedKey? rest
  match rest with
  | ']' :: ']' :: rest => return (element path key cs.length, ← lineRest? rest)
  | _ => none

/-- A header that begins with one bracket. -/
def header? (cs rest : List Char) : Option (Statement × List Char) := do
  let ((path, key), rest) ← dottedKey? rest
  match rest with
  | ']' :: rest => return (header path key cs.length, ← lineRest? rest)
  | _ => none

/-- A key with its value. -/
def entry? (cs : List Char) : Option (Statement × List Char) := do
  let ((path, key), rest) ← dottedKey? cs
  match rest with
  | '=' :: rest => do
    let (node, rest) ← value? depthLimit (skipBlanks rest)
    return (entry path key node, ← lineRest? rest)
  | _ => none

/-- The statements of at most `fuel` lines, which are all there are. -/
def readAll? : (fuel : Nat) → List Char → Option (List Statement)
  | 0, _ => none
  | fuel + 1, cs => do
    match skipBlanks cs with
    | [] => return []
    | '#' :: rest => readAll? fuel (← lineRest? ('#' :: rest))
    | '\n' :: rest => readAll? fuel rest
    | '\r' :: rest => readAll? fuel (← lineEnd? ('\r' :: rest))
    | '[' :: '[' :: rest => do
      let (statement, rest) ← element? ('[' :: '[' :: rest) rest
      return statement :: (← readAll? fuel rest)
    | '[' :: rest => do
      let (statement, rest) ← header? ('[' :: rest) rest
      return statement :: (← readAll? fuel rest)
    | cs => do
      let (statement, rest) ← entry? cs
      return statement :: (← readAll? fuel rest)

end Statement

/-! ### The tree -/

/-- The keys and values between two headers. -/
abbrev Section := List (List Key × Key × Node)

/-- Add the keys and values of a section to a table. -/
def fill (body : Section) (entries : Entries) : Option Entries :=
  body.foldlM (fun entries (path, key, node) => entries.put key node path) entries

/-- The keys and values before the first header, and each header with those that follow it. -/
def sections : List Statement → Section × List (Statement × Section)
  | [] => ([], [])
  | .entry path key node :: statements =>
    let (body, later) := sections statements
    ((path, key, node) :: body, later)
  | header :: statements =>
    let (body, later) := sections statements
    ([], (header, body) :: later)

/-- Add the table under a header, with its keys and values. -/
def addSection (entries : Entries) : Statement × Section → Option Entries
  | (.header path key remaining, body) => entries.openTable path key remaining (fill body)
  | (.element path key remaining, body) => entries.addElement path key remaining (fill body)
  | (.entry path key node, _) => entries.put key node path

/-- The tree of a document. -/
def build? (statements : List Statement) : Option Entries := do
  let (body, later) := sections statements
  later.foldlM addSection (← fill body [])

namespace Document

/-- A document may begin with a mark of its encoding. -/
def skipMark : List Char → List Char
  | '\ufeff' :: cs => cs
  | cs => cs

/-- Read a document. -/
def read? (text : List Char) : Option Entries := do
  build? (← Statement.readAll? (text.length + 1) (skipMark text))

/-- The line and the column, both from one, of a place in a text that is given by the number of
characters from there to the end. -/
def position (text : List Char) (remaining : Nat) : Nat × Nat :=
  let before := text.take (text.length - remaining)
  (before.count '\n' + 1, (before.reverse.takeWhile (· != '\n')).length + 1)

end Document

end LazyEffects.Toml
