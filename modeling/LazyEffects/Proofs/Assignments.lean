import LazyEffects.Proofs.Numerals
import LazyEffects.Toml.Document

/-!
# Documents of plain lines

The simplest documents give one name a word in each line. Blanks may stand at the ends of a line
and around its equals sign, and the last line needs no end.

* `Toml.Assignment.Lines`: the texts of such documents;
* `Toml.Statement.entry?_of_line`: one line is read as an entry;
* `Toml.Statement.readAll?_of_lines`: and so is one after the other;
* `Toml.Document.read?_of_lines`: if the names are different, the tree has all of the entries, in
  their order.
-/

namespace LazyEffects.Toml

/-- A name with the word it is given, and the value that the word stands for. -/
structure Assignment where
  name : List Char
  word : List Char
  value : Scalar

namespace Assignment

/-- The name needs no quotes, and the word stands for the value. -/
structure Plain (x : Assignment) : Prop where
  name_ne_nil : x.name ≠ []
  isBare : ∀ c ∈ x.name, isBare c
  word : Text.Word x.word
  reads : Scalar.ofToken? x.word = some x.value

/-- Only blanks. -/
abbrev Blank (cs : List Char) : Prop := ∀ c ∈ cs, Quotation.isBlank c

/-- A text in which one name is given its word. -/
inductive Line (x : Assignment) : List Char → Prop where
  | intro {a b c d : List Char} : Blank a → Blank b → Blank c → Blank d →
    Line x (a ++ (x.name ++ (b ++ '=' :: (c ++ (x.word ++ d)))))

/-- A text in which several names are given their words, line by line. -/
inductive Lines : List Assignment → List Char → Prop where
  | nil : Lines [] []
  | last {x : Assignment} {line : List Char} : Line x line → Lines [x] line
  | cons {x : Assignment} {xs : List Assignment} {line text : List Char} :
    Line x line → Lines xs text → Lines (x :: xs) (line ++ '\n' :: text)

/-- An entry of a tree says what is assigned. -/
def Says (x : Assignment) (entry : Key × Node) : Prop :=
  entry.1.name = String.ofList x.name ∧ ∃ remaining, entry.2 = .scalar x.value remaining

end Assignment

/-- A line begins with a blank or with its name. -/
theorem Assignment.Line.exists_cons {x : Assignment} {line : List Char} (hx : x.Plain)
    (h : x.Line line) : ∃ c tail, line = c :: tail ∧ (Quotation.isBlank c ∨ isBare c) := by
  cases h with
  | @intro a b c d ha =>
    cases a with
    | nil =>
      obtain ⟨e, name, hname⟩ := List.exists_cons_of_ne_nil hx.name_ne_nil
      exact ⟨e, _, by rw [hname]; rfl, .inr (hx.isBare e (hname ▸ List.mem_cons_self ..))⟩
    | cons e a => exact ⟨e, _, rfl, .inl (ha e (List.mem_cons_self ..))⟩

open Assignment

/-! ### Parts of a line -/

/-- What follows the rest of a line. -/
inductive LineEnd : List Char → List Char → Prop where
  | line (cs : List Char) : LineEnd ('\n' :: cs) cs
  | document : LineEnd [] []

section

variable {cs rest rest' : List Char} {c : Char}

/-- A word is taken up to the first character that does not belong to it. -/
theorem takeWhile_append_of_head {p : Char → Bool} {w : List Char} (hw : ∀ c ∈ w, p c)
    (hrest : ∀ c ∈ rest.head?, p c = false) :
    (w ++ rest).takeWhile p = w ∧ (w ++ rest).dropWhile p = rest := by
  rw [List.takeWhile_append_of_pos hw, List.dropWhile_append_of_pos hw]
  cases rest with
  | nil => exact ⟨List.append_nil w, rfl⟩
  | cons c rest =>
    have hc := hrest c rfl
    exact ⟨by rw [List.takeWhile_cons_of_neg (by simp [hc]), List.append_nil],
      List.dropWhile_cons_of_neg (by simp [hc])⟩

theorem skipBlanks_append {a : List Char} (ha : Blank a) : skipBlanks (a ++ cs) = skipBlanks cs :=
  List.dropWhile_append_of_pos ha

theorem skipBlanks_of_head (cs : List Char) {w : List Char} (hne : w ≠ [])
    (hw : ∀ c ∈ w, Quotation.isBlank c = false) : skipBlanks (w ++ cs) = w ++ cs := by
  obtain ⟨c, w, rfl⟩ := List.exists_cons_of_ne_nil hne
  exact List.dropWhile_cons_of_neg (by simp [hw c (List.mem_cons_self ..)])

theorem isBlank_iff : Quotation.isBlank c ↔ c = ' ' ∨ c = '\t' := by
  simp [Quotation.isBlank]

/-- No blank belongs to a name. -/
theorem isBare_of_isBlank (h : Quotation.isBlank c) : isBare c = false := by
  rcases isBlank_iff.1 h with rfl | rfl <;> rfl

theorem isDelimiter_of_isBlank (h : Quotation.isBlank c) : isDelimiter c := by
  rcases isBlank_iff.1 h with rfl | rfl <;> rfl

theorem isBlank_of_isBare (h : isBare c) : Quotation.isBlank c = false :=
  Bool.eq_false_iff.2 fun hblank => by simp [isBare_of_isBlank hblank] at h

/-- A delimiter is no letter and no digit. -/
theorem isAlphanum_of_isDelimiter (h : isDelimiter c) : c.isAlphanum = false := by
  simp only [isDelimiter, Bool.or_eq_true, beq_iff_eq] at h
  rcases h with (((((((rfl | rfl) | rfl) | rfl) | rfl) | rfl) | rfl) | rfl) <;> rfl

theorem isDelimiter_of_isAlphanum (h : c.isAlphanum) : isDelimiter c = false :=
  Bool.eq_false_iff.2 fun hdelimiter => by simp [isAlphanum_of_isDelimiter hdelimiter] at h

theorem isBlank_of_isAlphanum (h : c.isAlphanum) : Quotation.isBlank c = false :=
  Bool.eq_false_iff.2 fun hblank =>
    Bool.false_ne_true <|
      (isDelimiter_of_isAlphanum h).symm.trans (isDelimiter_of_isBlank hblank)

theorem mem_of_append_eq_cons {w tail : List Char} (hne : w ≠ []) (h : w ++ rest = c :: tail) :
    c ∈ w := by
  obtain ⟨d, w, rfl⟩ := List.exists_cons_of_ne_nil hne
  rw [(List.cons.inj h).1]
  exact List.mem_cons_self ..

/-- Behind the last blanks of a line it ends. -/
theorem lineRest?_of_lineEnd {d : List Char} (hd : Blank d) (h : LineEnd rest rest') :
    lineRest? (d ++ rest) = some rest' := by
  rw [lineRest?, skipBlanks_append hd]
  cases h <;> rfl

/-- What ends a line ends a word. -/
theorem isDelimiter_of_lineEnd {d : List Char} (hd : Blank d) (h : LineEnd rest rest') :
    ∀ c ∈ (d ++ rest).head?, isDelimiter c := by
  cases d with
  | nil =>
    cases h with
    | line => simp [isDelimiter]
    | document => simp
  | cons c d =>
    intro c' hc'
    cases hc'
    exact isDelimiter_of_isBlank (hd c (List.mem_cons_self ..))

/-- A key without quotes. -/
theorem simpleKey?_name {name : List Char} (hne : name ≠ []) (hname : ∀ c ∈ name, isBare c)
    (hrest : ∀ c ∈ rest.head?, isBare c = false) :
    simpleKey? (name ++ rest) = some (⟨String.ofList name, (name ++ rest).length⟩, rest) := by
  have hquote {c : Char} (hc : isBare c = false) (tail : List Char) :
      name ++ rest ≠ c :: tail := by
    intro heq
    simp [hname c (mem_of_append_eq_cons hne heq)] at hc
  obtain ⟨htake, hdrop⟩ := takeWhile_append_of_head hname hrest
  rw [simpleKey?, htake, hdrop]
  · simp [hne]
  · exact hquote rfl
  · exact hquote rfl

/-- A name before an equals sign. -/
theorem dottedKey?_name (cs : List Char) {name a b : List Char} (hne : name ≠ [])
    (hname : ∀ c ∈ name, isBare c) (ha : Blank a) (hb : Blank b) : ∃ remaining,
    dottedKey? (a ++ (name ++ (b ++ '=' :: cs))) =
      some (([], ⟨String.ofList name, remaining⟩), '=' :: cs) := by
  have hbare : ∀ c ∈ (b ++ '=' :: cs).head?, isBare c = false := by
    cases b with
    | nil => simp [isBare]
    | cons c b =>
      intro c' hc'
      cases hc'
      exact isBare_of_isBlank (hb c (List.mem_cons_self ..))
  have hskip : skipBlanks (name ++ (b ++ '=' :: cs)) = name ++ (b ++ '=' :: cs) :=
    skipBlanks_of_head _ hne fun c hc => isBlank_of_isBare (hname c hc)
  have hequals : skipBlanks (b ++ '=' :: cs) = '=' :: cs := by
    rw [skipBlanks_append hb]
    rfl
  refine ⟨(name ++ (b ++ '=' :: cs)).length, ?_⟩
  rw [dottedKey?, show depthLimit = 78 + 1 from rfl, keys?, skipBlanks_append ha, hskip,
    simpleKey?_name hne hname hbare]
  simp only [bind, Option.bind, hequals]
  rfl

/-- A word is one token, also before a blank. -/
theorem token_word {w : List Char} (hw : Text.Word w)
    (hrest : ∀ c ∈ rest.head?, isDelimiter c) : token (w ++ rest) = (w, rest) := by
  obtain ⟨htake, hdrop⟩ : (w ++ rest).takeWhile (!isDelimiter ·) = w ∧
      (w ++ rest).dropWhile (!isDelimiter ·) = rest :=
    takeWhile_append_of_head
      (fun c hc => by simp [isDelimiter_of_isAlphanum (hw.isAlphanum c hc)])
      (fun c hc => by simp [hrest c hc])
  simp only [token, htake, hdrop, Scalar.afterDate?_of_word hw]
  split <;> rfl

/-- A word is no text in quotes, no array and no table. -/
theorem word_ne_cons {w tail : List Char} (hw : Text.Word w) (hc : c.isAlphanum = false) :
    w ++ rest ≠ c :: tail := by
  intro heq
  simp [hw.isAlphanum c (mem_of_append_eq_cons hw.ne_nil heq)] at hc

/-- A word as a value. -/
theorem plainValue?_word {w : List Char} {s : Scalar} (hw : Text.Word w)
    (hs : Scalar.ofToken? w = some s) (hrest : ∀ c ∈ rest.head?, isDelimiter c) :
    plainValue? (w ++ rest) = some (.scalar s (w ++ rest).length, rest) := by
  rw [plainValue?, token_word hw hrest]
  · simp only [hs]
    rfl
  · exact fun tail => word_ne_cons hw rfl
  · exact fun tail => word_ne_cons hw rfl

theorem value?_word {w : List Char} {s : Scalar} (depth : ℕ) (hw : Text.Word w)
    (hs : Scalar.ofToken? w = some s) (hrest : ∀ c ∈ rest.head?, isDelimiter c) :
    value? depth (w ++ rest) = some (.scalar s (w ++ rest).length, rest) := by
  cases depth with
  | zero => exact plainValue?_word hw hs hrest
  | succ depth =>
    rw [value?, plainValue?_word hw hs hrest]
    · exact fun tail => word_ne_cons hw rfl
    · exact fun tail => word_ne_cons hw rfl

end

/-! ### Lines -/

namespace Statement

variable {x : Assignment} {rest rest' : List Char}

/-- A line is read as an entry. -/
theorem entry?_of_line {line : List Char} (hx : x.Plain) (h : x.Line line)
    (hrest : LineEnd rest rest') : ∃ key node, x.Says (key, node) ∧
      entry? (line ++ rest) = some (.entry [] key node, rest') := by
  cases h with
  | @intro a b c d ha hb hc hd =>
    obtain ⟨remaining, hkey⟩ := dottedKey?_name (c ++ (x.word ++ (d ++ rest)))
      hx.name_ne_nil hx.isBare ha hb
    have hskip : skipBlanks (c ++ (x.word ++ (d ++ rest))) = x.word ++ (d ++ rest) := by
      rw [skipBlanks_append hc]
      exact skipBlanks_of_head _ hx.word.ne_nil fun c hc =>
        isBlank_of_isAlphanum (hx.word.isAlphanum c hc)
    refine ⟨⟨String.ofList x.name, remaining⟩, .scalar x.value (x.word ++ (d ++ rest)).length,
      ⟨rfl, _, rfl⟩, ?_⟩
    simp only [List.append_assoc, List.cons_append, entry?, hkey, bind, Option.bind, hskip,
      value?_word _ hx.word hx.reads (isDelimiter_of_lineEnd hd hrest),
      lineRest?_of_lineEnd hd hrest]
    rfl

/-- A line without the blanks in front of it begins with its name. -/
theorem skipBlanks_line (rest : List Char) {line : List Char} (hx : x.Plain) (h : x.Line line) :
    ∃ c tail, isBare c ∧ x.Line (c :: tail) ∧ skipBlanks (line ++ rest) = c :: (tail ++ rest) := by
  cases h with
  | @intro a b c d ha hb hc hd =>
    have hline : x.Line ([] ++ (x.name ++ (b ++ '=' :: (c ++ (x.word ++ d))))) :=
      .intro nofun hb hc hd
    have hskip := skipBlanks_of_head ((b ++ '=' :: (c ++ (x.word ++ d))) ++ rest)
      hx.name_ne_nil fun c hc => isBlank_of_isBare (hx.isBare c hc)
    obtain ⟨e, name, hname⟩ := List.exists_cons_of_ne_nil hx.name_ne_nil
    have he : isBare e := hx.isBare e (hname ▸ List.mem_cons_self ..)
    rw [hname] at hline hskip
    refine ⟨e, _, he, hline, ?_⟩
    rw [List.append_assoc, skipBlanks_append ha, hname, List.append_assoc, hskip]
    simp

/-- A line, and what follows it. -/
theorem readAll?_line {line : List Char} (fuel : ℕ) (hx : x.Plain) (h : x.Line line)
    (hrest : LineEnd rest rest') : ∃ key node, x.Says (key, node) ∧
      readAll? (fuel + 1) (line ++ rest) =
        (readAll? fuel rest').map (.entry [] key node :: ·) := by
  obtain ⟨c, tail, hc, hline, hskip⟩ := skipBlanks_line rest hx h
  obtain ⟨key, node, hsays, hentry⟩ := entry?_of_line hx hline hrest
  refine ⟨key, node, hsays, ?_⟩
  have hne {d : Char} (hd : isBare d = false) (cs : List Char) : c :: (tail ++ rest) ≠ d :: cs := by
    intro heq
    rw [(List.cons.inj heq).1, hd] at hc
    exact Bool.false_ne_true hc
  rw [readAll?, hskip]
  split
  case h_1 => contradiction
  case h_7 =>
    rw [← List.cons_append, hentry]
    simp only [bind, Option.bind]
    cases readAll? fuel rest' <;> rfl
  -- What is not an entry begins with a character that belongs to no name.
  all_goals
    rename_i heq
    exact absurd heq (hne rfl _)

/-- The lines are read one after the other. -/
theorem readAll?_of_lines {xs : List Assignment} {text : List Char} {fuel : ℕ}
    (hxs : ∀ x ∈ xs, x.Plain) (h : Lines xs text) (hfuel : text.length < fuel) :
    ∃ entries : Entries, List.Forall₂ Says xs entries ∧
      readAll? fuel text = some (entries.map fun e => .entry [] e.1 e.2) := by
  induction h generalizing fuel with
  | nil =>
    obtain ⟨fuel, rfl⟩ := Nat.exists_eq_add_one_of_ne_zero (Nat.ne_zero_of_lt hfuel)
    exact ⟨[], .nil, rfl⟩
  | @last x line hline =>
    have hx := hxs x (List.mem_cons_self ..)
    obtain ⟨fuel, rfl⟩ := Nat.exists_eq_add_one_of_ne_zero (Nat.ne_zero_of_lt hfuel)
    have hne : fuel ≠ 0 := by
      obtain ⟨c, tail, rfl, -⟩ := hline.exists_cons hx
      rw [List.length_cons] at hfuel
      omega
    obtain ⟨fuel, rfl⟩ := Nat.exists_eq_add_one_of_ne_zero hne
    obtain ⟨key, node, hsays, hread⟩ := readAll?_line (fuel + 1) hx hline .document
    refine ⟨[(key, node)], .cons hsays .nil, ?_⟩
    rw [← List.append_nil line, hread]
    rfl
  | @cons x xs line text hline _ ih =>
    obtain ⟨hx, hxs⟩ := List.forall_mem_cons.1 hxs
    obtain ⟨fuel, rfl⟩ := Nat.exists_eq_add_one_of_ne_zero (Nat.ne_zero_of_lt hfuel)
    obtain ⟨key, node, hsays, hread⟩ := readAll?_line fuel hx hline (.line text)
    have hlength : text.length < fuel := by
      rw [List.length_append, List.length_cons] at hfuel
      omega
    obtain ⟨entries, hall, hrest⟩ := ih hxs hlength
    refine ⟨(key, node) :: entries, .cons hsays hall, ?_⟩
    rw [hread, hrest]
    rfl

end Statement

/-! ### Trees -/

/-- A node under a name that is not there goes behind the others. -/
theorem Entries.put_new {entries : Entries} {key : Key} {node : Node}
    (h : ∀ e ∈ entries, e.1.name ≠ key.name) :
    Entries.put key node [] entries = some (entries ++ [(key, node)]) := by
  have hget : Entries.get? entries key.name = none := by
    rw [get?, Option.map_eq_none_iff, List.find?_eq_none]
    exact fun e he => by simpa using h e he
  rw [put, add, hget]

/-- Entries without a header. -/
theorem sections_entries (entries : Entries) :
    sections (entries.map fun e => .entry [] e.1 e.2) =
      (entries.map fun e => ([], e.1, e.2), []) := by
  induction entries with
  | nil => rfl
  | cons e entries ih => simp [sections, ih]

theorem fill_cons (path : List Key) (key : Key) (node : Node) (body : Section)
    (entries : Entries) :
    fill ((path, key, node) :: body) entries =
      (Entries.put key node path entries).bind (fill body) :=
  rfl

/-- Entries with new names go behind the others. -/
theorem fill_new (entries : Entries) {added : Entries}
    (h : (entries ++ added).Pairwise fun e e' => e.1.name ≠ e'.1.name) :
    fill (added.map fun e => ([], e.1, e.2)) entries = some (entries ++ added) := by
  induction added generalizing entries with
  | nil => simp [fill]
  | cons e added ih =>
    have hnew : ∀ e' ∈ entries, e'.1.name ≠ e.1.name := fun e' he' =>
      (List.pairwise_append.1 h).2.2 e' he' e (List.mem_cons_self ..)
    rw [List.map_cons, fill_cons, Entries.put_new hnew, Option.bind_some]
    simpa using ih (entries ++ [e]) (by simpa using h)

/-- Different names are all there, in their order. -/
theorem build?_entries {entries : Entries}
    (h : entries.Pairwise fun e e' => e.1.name ≠ e'.1.name) :
    build? (entries.map fun e => .entry [] e.1 e.2) = some entries := by
  rw [build?, sections_entries]
  simp only [bind, Option.bind]
  rw [fill_new [] h]
  rfl

namespace Document

/-- Plain lines do not begin with a mark. -/
theorem skipMark_of_lines {xs : List Assignment} {text : List Char} (hxs : ∀ x ∈ xs, x.Plain)
    (h : Lines xs text) : skipMark text = text := by
  have hmark {c : Char} (hc : Quotation.isBlank c ∨ isBare c) (tail : List Char) :
      skipMark (c :: tail) = c :: tail := by
    rw [skipMark]
    rintro cs heq
    cases heq
    exact absurd hc (by decide)
  cases h with
  | nil => rfl
  | last hline =>
    obtain ⟨c, tail, rfl, hc⟩ := hline.exists_cons (hxs _ (List.mem_cons_self ..))
    exact hmark hc tail
  | cons hline =>
    obtain ⟨c, tail, rfl, hc⟩ := hline.exists_cons (hxs _ (List.mem_cons_self ..))
    exact hmark hc _

theorem names_eq {xs : List Assignment} {entries : Entries} (h : List.Forall₂ Says xs entries) :
    entries.map (·.1.name) = (xs.map Assignment.name).map String.ofList := by
  induction h with
  | nil => rfl
  | cons hsays _ ih => rw [List.map_cons, List.map_cons, List.map_cons, hsays.1, ih]

/-- Plain lines with different names are read as an entry for each. -/
theorem read?_of_lines {xs : List Assignment} {text : List Char} (hxs : ∀ x ∈ xs, x.Plain)
    (hnames : (xs.map Assignment.name).Nodup) (h : Lines xs text) :
    ∃ entries, List.Forall₂ Says xs entries ∧ read? text = some entries := by
  obtain ⟨entries, hall, hread⟩ := Statement.readAll?_of_lines hxs h (Nat.lt_succ_self _)
  refine ⟨entries, hall, ?_⟩
  have hkeys : (entries.map (·.1.name)).Nodup := by
    rw [names_eq hall]
    exact List.Pairwise.map String.ofList
      (fun _ _ hne heq => hne (String.ofList_injective heq)) hnames
  rw [read?, skipMark_of_lines hxs h, hread]
  exact build?_entries (List.pairwise_map.1 hkeys)

end Document

end LazyEffects.Toml
