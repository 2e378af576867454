/-!
# Quoted texts of TOML

Four forms of quotation: basic and literal, each on one line or over several. The readers here
begin behind the opening quotes and answer the text and what follows the closing quotes.
-/

namespace LazyEffects.Toml.Quotation

/-- A blank within a line. -/
def isBlank (c : Char) : Bool := c == ' ' || c == '\t'

/-- A character that may stand in a line: any but control characters other than the tab. -/
def isPlain (c : Char) : Bool := c == '\t' || (' ' ≤ c && c != '\x7f')

/-- The character of an escape of one letter. -/
def simpleEscape? : Char → Option Char
  | 'b' => some '\x08'
  | 'f' => some '\x0c'
  | 'n' => some '\n'
  | 'r' => some '\r'
  | 't' => some '\t'
  | '\\' => some '\\'
  | '"' => some '"'
  | _ => none

/-- The value of a digit in base 16. -/
def hexDigit? (c : Char) : Option Nat :=
  if '0' ≤ c ∧ c ≤ '9' then some (c.toNat - '0'.toNat)
  else if 'a' ≤ c ∧ c ≤ 'f' then some (c.toNat - 'a'.toNat + 10)
  else if 'A' ≤ c ∧ c ≤ 'F' then some (c.toNat - 'A'.toNat + 10)
  else none

/-- The character with a code in base 16. -/
def codeEscape? (digits : List Char) : Option Char := do
  let n ← digits.foldlM (fun n c => return 16 * n + (← hexDigit? c)) 0
  if h : n.isValidChar then some (Char.ofNatAux n h) else none

/-- A text with `c` in front. -/
def consText (c : Char) (r : Option (List Char × List Char)) :
    Option (List Char × List Char) :=
  r.map fun (s, rest) => (c :: s, rest)

/-- A text with the character of an escape in front. -/
def consEscape (c : Option Char) (r : Option (List Char × List Char)) :
    Option (List Char × List Char) :=
  c.bind fun c => consText c r

/-- A basic text on one line. -/
def basic? : List Char → Option (List Char × List Char)
  | [] => none
  | '"' :: cs => some ([], cs)
  | '\\' :: 'u' :: a :: b :: c :: d :: cs => consEscape (codeEscape? [a, b, c, d]) (basic? cs)
  | '\\' :: 'U' :: a :: b :: c :: d :: e :: f :: g :: h :: cs =>
    consEscape (codeEscape? [a, b, c, d, e, f, g, h]) (basic? cs)
  | '\\' :: c :: cs => consEscape (simpleEscape? c) (basic? cs)
  | c :: cs => if isPlain c && c != '\\' then consText c (basic? cs) else none

/-- A literal text on one line. -/
def literal? : List Char → Option (List Char × List Char)
  | [] => none
  | '\'' :: cs => some ([], cs)
  | c :: cs => if isPlain c then consText c (literal? cs) else none

/-- The text is blank up to the end of its first line. -/
def isBlankLine (cs : List Char) : Bool :=
  match cs.dropWhile isBlank with
  | '\n' :: _ => true
  | '\r' :: '\n' :: _ => true
  | _ => false

/-- A basic text over several lines. A backslash at the end of a line takes the blanks and line
ends that follow it out of the text (`isSkipping`). The last three of at most five quotes close
the text. -/
def basicLines? (isSkipping : Bool) : List Char → Option (List Char × List Char)
  | [] => none
  | '"' :: '"' :: '"' :: '"' :: '"' :: cs => some (['"', '"'], cs)
  | '"' :: '"' :: '"' :: '"' :: cs => some (['"'], cs)
  | '"' :: '"' :: '"' :: cs => some ([], cs)
  | '\r' :: '\n' :: cs =>
    if isSkipping then basicLines? true cs else consText '\n' (basicLines? false cs)
  | '\n' :: cs => if isSkipping then basicLines? true cs else consText '\n' (basicLines? false cs)
  | '\\' :: 'u' :: a :: b :: c :: d :: cs =>
    consEscape (codeEscape? [a, b, c, d]) (basicLines? false cs)
  | '\\' :: 'U' :: a :: b :: c :: d :: e :: f :: g :: h :: cs =>
    consEscape (codeEscape? [a, b, c, d, e, f, g, h]) (basicLines? false cs)
  | '\\' :: c :: cs =>
    if isBlankLine (c :: cs) then basicLines? true (c :: cs)
    else consEscape (simpleEscape? c) (basicLines? false cs)
  | c :: cs =>
    if isSkipping && isBlank c then basicLines? true cs
    else if isPlain c && c != '\\' then consText c (basicLines? false cs)
    else none

/-- A literal text over several lines. The last three of at most five quotes close it. -/
def literalLines? : List Char → Option (List Char × List Char)
  | [] => none
  | '\'' :: '\'' :: '\'' :: '\'' :: '\'' :: cs => some (['\'', '\''], cs)
  | '\'' :: '\'' :: '\'' :: '\'' :: cs => some (['\''], cs)
  | '\'' :: '\'' :: '\'' :: cs => some ([], cs)
  | '\r' :: '\n' :: cs => consText '\n' (literalLines? cs)
  | '\n' :: cs => consText '\n' (literalLines? cs)
  | c :: cs => if isPlain c then consText c (literalLines? cs) else none

/-- A line end right behind the opening quotes of a text over several lines is not part of it. -/
def skipFirstLineEnd : List Char → List Char
  | '\n' :: cs => cs
  | '\r' :: '\n' :: cs => cs
  | cs => cs

/-- A text in any form of quotation, from its opening quotes on. -/
def any? : List Char → Option (List Char × List Char)
  | '"' :: '"' :: '"' :: cs => basicLines? false (skipFirstLineEnd cs)
  | '"' :: cs => basic? cs
  | '\'' :: '\'' :: '\'' :: cs => literalLines? (skipFirstLineEnd cs)
  | '\'' :: cs => literal? cs
  | _ => none

/-- A text in quotation on one line, from its opening quote on. -/
def line? : List Char → Option (List Char × List Char)
  | '"' :: cs => basic? cs
  | '\'' :: cs => literal? cs
  | _ => none

end LazyEffects.Toml.Quotation
