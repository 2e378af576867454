import LazyEffects.Config.Document
import LazyEffects.Config.Variables
import LazyEffects.Proofs.Assignments

/-!
# Renditions of settings

Settings can be written into a document and into variables, each number in decimal digits and each
truth value as a word. Both are read back as the settings they were written for.

* `Setting`: one setting; `Settings.given` are those that settings give;
* `Settings.Document` and `Settings.Carried`: documents and variables with these settings;
* `Toml.Reader.ReadsLines`: what is asked of the reader of documents;
* `Config.Reading`: what documents and variables are read as;
* `Config.reading`: the proof.
-/

namespace LazyEffects

open Toml (Assignment Entries Key Node Scalar)

/-! ### Readers -/

namespace Toml

/-- A word of a document stands for a value: decimal digits for an integer, which has 64 bits with
its sign, and two words for the truth values. -/
inductive Denotes : List Char → Scalar → Prop where
  | number {n : ℕ} : n < 2 ^ 63 → Denotes (Text.digits n) (.integer n)
  | truth (b : Bool) : Denotes (truthWord b) (.boolean b)

/-- A name that needs no quotes is given a word that stands for its value. -/
structure Assignment.Basic (x : Assignment) : Prop where
  name_ne_nil : x.name ≠ []
  isBare : ∀ c ∈ x.name, Toml.isBare c
  denotes : Denotes x.word x.value

/-- Lines that give different names their words are read as an entry for each, in their order. -/
def Reader.ReadsLines (read : Reader) : Prop :=
  ∀ {xs : List Assignment} {text : List Char}, (∀ x ∈ xs, x.Basic) →
    (xs.map Assignment.name).Nodup → Assignment.Lines xs text →
    ∃ entries, List.Forall₂ Assignment.Says xs entries ∧ read text = some entries

theorem Denotes.word {word : List Char} {value : Scalar} (h : Denotes word value) :
    Text.Word word := by
  cases h with
  | number => exact Text.word_digits _
  | truth b => exact word_truthWord b

theorem Denotes.ofToken?_eq {word : List Char} {value : Scalar} (h : Denotes word value) :
    Scalar.ofToken? word = some value := by
  cases h with
  | number hn => exact Scalar.ofToken?_digits hn
  | truth b => exact Scalar.ofToken?_truthWord b

theorem Assignment.Basic.plain {x : Assignment} (h : x.Basic) : x.Plain :=
  ⟨h.name_ne_nil, h.isBare, h.denotes.word, h.denotes.ofToken?_eq⟩

theorem Document.readsLines : Reader.ReadsLines read? := fun hxs hnames hlines =>
  read?_of_lines (fun x hx => (hxs x hx).plain) hnames hlines

end Toml

/-! ### Settings and their renditions -/

/-- What can be set. -/
inductive Field where
  | stepBudget
  | resumeMillis
  | catchPanics
  deriving DecidableEq

/-- The name in documents. -/
def Field.name : Field → String
  | stepBudget => "step_budget"
  | resumeMillis => "resume_delay_ms"
  | catchPanics => "catch_panics"

/-- One setting with its value. -/
inductive Setting where
  | stepBudget (n : ℕ)
  | resumeMillis (n : ℕ)
  | catchPanics (b : Bool)

namespace Setting

def field : Setting → Field
  | stepBudget _ => .stepBudget
  | resumeMillis _ => .resumeMillis
  | catchPanics _ => .catchPanics

/-- How the value is written. -/
def word : Setting → List Char
  | stepBudget n | resumeMillis n => Text.digits n
  | catchPanics b => truthWord b

/-- The value in a document. -/
def scalar : Setting → Scalar
  | stepBudget n | resumeMillis n => .integer n
  | catchPanics b => .boolean b

/-- How a setting is written in a document. -/
def assignment (x : Setting) : Assignment := ⟨x.field.name.toList, x.word, x.scalar⟩

/-- The value can be written in a document, whose integers have 64 bits with their sign. -/
def Small : Setting → Prop
  | stepBudget n | resumeMillis n => n < 2 ^ 63
  | catchPanics _ => True

theorem basic {x : Setting} (h : x.Small) : x.assignment.Basic where
  name_ne_nil := by
    change x.field.name.toList ≠ []
    cases x.field <;> decide
  isBare := by
    change ∀ c ∈ x.field.name.toList, Toml.isBare c
    exact List.all_eq_true.1 (by cases x.field <;> decide)
  denotes := by
    cases x with
    | stepBudget n | resumeMillis n => exact .number h
    | catchPanics b => exact .truth b

end Setting

namespace Settings

/-- The settings with one more. -/
def set (s : Settings) : Setting → Settings
  | .stepBudget n => { s with stepBudget := some n }
  | .resumeMillis n => { s with resumeMillis := some n }
  | .catchPanics b => { s with catchPanics := some b }

/-- The settings that are given. -/
def given (s : Settings) : List Setting :=
  (s.stepBudget.map .stepBudget).toList ++ (s.resumeMillis.map .resumeMillis).toList ++
    (s.catchPanics.map .catchPanics).toList

/-- A document that gives each setting its value, in any order. -/
def Document (s : Settings) (text : List Char) : Prop :=
  ∃ xs : List Setting, xs.Perm s.given ∧ Assignment.Lines (xs.map Setting.assignment) text

/-- A text holds a word, with blanks around it. -/
def Holds (word : List Char) (text : String) : Prop :=
  ∃ before after, (∀ c ∈ before, Text.isBlank c) ∧ (∀ c ∈ after, Text.isBlank c) ∧
    text.toList = before ++ word ++ after

/-- The variables of the settings that are given hold their values, and the others are not set. -/
structure Carried (s : Settings) (lookup : String → Option String) : Prop where
  stepBudget : Option.Rel Holds (s.stepBudget.map Text.digits) (lookup stepBudgetVariable)
  resumeMillis : Option.Rel Holds (s.resumeMillis.map Text.digits) (lookup resumeMillisVariable)
  catchPanics : Option.Rel Holds (s.catchPanics.map truthWord) (lookup catchPanicsVariable)

/-! ### Documents -/

/-- An entry is taken as the setting it was written for. -/
theorem setEntry_says {x : Setting} {entry : Key × Node} (s : Settings)
    (h : x.assignment.Says entry) : s.setEntry entry = .ok (s.set x) := by
  obtain ⟨key, node⟩ := entry
  obtain ⟨hname, remaining, rfl⟩ := h
  have hfield : key.name = x.field.name := hname.trans String.ofList_toList
  cases x with
  | stepBudget n =>
    simp only [setEntry, hfield, Setting.field, Field.name, if_true]
    simp only [Setting.assignment, Setting.scalar, naturalOf, if_pos (Int.natCast_nonneg n)]
    rfl
  | resumeMillis n =>
    simp only [setEntry, hfield, Setting.field, Field.name]
    simp only [Setting.assignment, Setting.scalar, naturalOf, if_pos (Int.natCast_nonneg n)]
    rfl
  | catchPanics b =>
    simp only [setEntry, hfield, Setting.field, Field.name]
    rfl

theorem foldlM_setEntry {xs : List Setting} {entries : Entries} (s : Settings)
    (h : List.Forall₂ Assignment.Says (xs.map Setting.assignment) entries) :
    entries.foldlM setEntry s = .ok (xs.foldl set s) := by
  induction xs generalizing s entries with
  | nil =>
    cases h
    rfl
  | cons x xs ih =>
    cases h with
    | cons hx hxs =>
      rw [List.foldlM_cons, setEntry_says s hx]
      exact ih (s.set x) hxs

/-- Setting different fields can be done in any order. -/
theorem set_comm (s : Settings) {x y : Setting} (h : x.field ≠ y.field) :
    (s.set x).set y = (s.set y).set x := by
  cases x <;> cases y <;> first | rfl | exact absurd rfl h

/-- Each field is given once at most. -/
theorem fields_nodup (s : Settings) : (s.given.map Setting.field).Nodup := by
  obtain ⟨_ | n, _ | ms, _ | b⟩ := s <;> simp [given, Setting.field]

/-- Settings that are given can be set in any order. -/
theorem foldl_set {s : Settings} {xs : List Setting} (h : xs.Perm s.given) :
    xs.foldl set .open = s := by
  have hcomm : ∀ x ∈ xs, ∀ y ∈ xs, ∀ s : Settings, (s.set x).set y = (s.set y).set x := by
    intro x hx y hy s'
    by_cases hxy : x = y
    · rw [hxy]
    · refine set_comm s' fun hfield => hxy ?_
      exact List.inj_on_of_nodup_map s.fields_nodup (h.mem_iff.1 hx) (h.mem_iff.1 hy) hfield
  rw [h.foldl_eq' hcomm]
  obtain ⟨_ | n, _ | ms, _ | b⟩ := s <;> rfl

theorem names_nodup {s : Settings} {xs : List Setting} (h : xs.Perm s.given) :
    ((xs.map Setting.assignment).map Assignment.name).Nodup := by
  have hfields : (xs.map Setting.field).Nodup := (h.map _).nodup_iff.2 s.fields_nodup
  have hname : Function.Injective fun field : Field => field.name.toList := by
    intro field field' heq
    cases field <;> cases field' <;> first | rfl | exact absurd heq (by decide)
  have hmap : (xs.map Setting.assignment).map Assignment.name =
      (xs.map Setting.field).map fun field => field.name.toList := by
    rw [List.map_map, List.map_map]
    rfl
  rw [hmap]
  exact hfields.map hname

/-- A document with settings is read as these settings. -/
theorem decode_document {read : Toml.Reader} {s : Settings} {text : List Char}
    (hread : read.ReadsLines) (hs : ∀ x ∈ s.given, x.Small) (h : s.Document text) :
    decode read text = .ok s := by
  obtain ⟨xs, hperm, hlines⟩ := h
  have hbasic : ∀ a ∈ xs.map Setting.assignment, a.Basic :=
    List.forall_mem_map.2 fun x hx => Setting.basic (hs x (hperm.mem_iff.1 hx))
  obtain ⟨entries, hsays, hentries⟩ := hread hbasic (names_nodup hperm) hlines
  have hset : ofDocument entries = .ok s := by
    rw [ofDocument, foldlM_setEntry .open hsays, foldl_set hperm]
  simp only [decode, hentries, hset]
  rfl

/-! ### Variables -/

section

variable {α : Type} {lookup : String → Option String} {name : String}
  {parse : List Char → Option α}

/-- A variable that holds a word gives what the word stands for. -/
theorem variableSetting_holds {word : α → List Char} {o : Option α}
    (hword : ∀ a, Text.Word (word a)) (hparse : ∀ a ∈ o, parse (word a) = some a)
    (h : Option.Rel Holds (o.map word) (lookup name)) :
    variableSetting lookup name parse = .ok o := by
  rw [variableSetting]
  cases o with
  | none =>
    rw [Option.map_none] at h
    generalize lookup name = value at h
    cases h
    rfl
  | some a =>
    rw [Option.map_some] at h
    generalize lookup name = value at h
    cases h with
    | some hholds =>
      obtain ⟨before, after, hbefore, hafter, htext⟩ := hholds
      simp only [htext, (hword a).trim_padded hbefore hafter, hparse a rfl]

end

/-- Variables with settings are read as these settings. -/
theorem ofVariables_carried {s : Settings} {lookup : String → Option String}
    (hbudget : ∀ n ∈ s.stepBudget, n ≤ Config.maxWord)
    (hmillis : ∀ n ∈ s.resumeMillis, n ≤ Config.maxWord) (h : s.Carried lookup) :
    ofVariables lookup = .ok s := by
  have hnumber (n : ℕ) (hn : n ≤ Config.maxWord) :
      Text.unsigned? Config.maxWord (Text.digits n) = some n :=
    Text.unsigned?_eq_some_iff.2 ⟨Text.numeral_digits n, hn⟩
  rw [ofVariables,
    variableSetting_holds Text.word_digits (fun n hn => hnumber n (hbudget n hn)) h.stepBudget,
    variableSetting_holds Text.word_digits (fun n hn => hnumber n (hmillis n hn)) h.resumeMillis,
    variableSetting_holds word_truthWord (fun b _ => truth?_eq_some_iff.2 rfl) h.catchPanics]
  rfl

/-! ### Renditions -/

/-- The settings line by line. -/
def rendition (s : Settings) : List Char :=
  s.given.flatMap fun x => x.field.name.toList ++ " = ".toList ++ x.word ++ ['\n']

/-- The settings as variables. -/
def asVariables (s : Settings) (name : String) : Option String :=
  if name = stepBudgetVariable then s.stepBudget.map fun n => String.ofList (Text.digits n)
  else if name = resumeMillisVariable then s.resumeMillis.map fun n => String.ofList (Text.digits n)
  else if name = catchPanicsVariable then s.catchPanics.map fun b => String.ofList (truthWord b)
  else none

theorem document_rendition (s : Settings) : s.Document s.rendition := by
  refine ⟨s.given, .refl _, ?_⟩
  rw [rendition]
  induction s.given with
  | nil => exact .nil
  | cons x xs ih =>
    have hline : x.assignment.Line ([] ++ (x.field.name.toList ++ ([' '] ++ '=' ::
        ([' '] ++ (x.word ++ []))))) :=
      .intro nofun (List.forall_mem_singleton.2 rfl) (List.forall_mem_singleton.2 rfl) nofun
    simpa using Assignment.Lines.cons hline ih

theorem holds_ofList (word : List Char) : Holds word (String.ofList word) :=
  ⟨[], [], nofun, nofun, by simp⟩

theorem carried_asVariables (s : Settings) : s.Carried s.asVariables := by
  have hrel {α : Type} (word : α → List Char) (o : Option α) :
      Option.Rel Holds (o.map word) (o.map fun a => String.ofList (word a)) := by
    cases o with
    | none => exact .none
    | some a => exact .some (holds_ofList (word a))
  exact ⟨hrel Text.digits s.stepBudget, hrel Text.digits s.resumeMillis,
    hrel truthWord s.catchPanics⟩

end Settings

namespace Config

/-! ### Single variables -/

theorem validated_eq (c : Config) :
    c.validated = if c.stepBudget = 0 then .error .zeroBudget else .ok c := by
  rw [validated, validate]
  by_cases h : c.stepBudget = 0
  · rw [if_pos h, if_pos h]
  · rw [if_neg h, if_neg h]

/-- The environment in which nothing but `name` is set. -/
def only (name value : String) (other : String) : Option String :=
  if other = name then some value else none

/-- What becomes of a variable: if its text, without the blanks around it, means something, this is
used, and otherwise the variable is refused with its whole text. -/
structure Decides {α : Type} (name value : String) (Means : List Char → α → Prop)
    (use : α → Except ConfigError Config) (result : Except ConfigError Config) : Prop where
  accepted (a : α) : Means (Text.trim value.toList) a → result = use a
  refused : (∀ a, ¬ Means (Text.trim value.toList) a) → result = .error (.badVariable name value)

section

variable {α : Type} {name value : String} {parse : List Char → Option α}

theorem variableSetting_only :
    variableSetting (only name value) name parse =
      match parse (Text.trim value.toList) with
      | some a => .ok (some a)
      | none => .error (.badVariable name value) := by
  cases h : parse (Text.trim value.toList) <;> simp [variableSetting, only, h]

theorem variableSetting_other {other : String} (h : other ≠ name) :
    variableSetting (only name value) other parse = .ok none := by
  simp [variableSetting, only, h]

/-- A variable is parsed. -/
theorem Decides.of_parse {Means : List Char → α → Prop} {use : α → Except ConfigError Config}
    {f : Option α → Except ConfigError Config}
    (hparse : ∀ cs a, parse cs = some a ↔ Means cs a) (huse : ∀ a, f (some a) = use a) :
    Decides name value Means use (variableSetting (only name value) name parse >>= f) where
  accepted a ha := by
    rw [variableSetting_only, (hparse _ a).2 ha]
    exact huse a
  refused hnone := by
    have h : parse (Text.trim value.toList) = none :=
      Option.eq_none_iff_forall_ne_some.2 fun a ha => hnone a ((hparse _ a).1 ha)
    rw [variableSetting_only, h]
    rfl

end

/-- What documents and variables are read as. -/
structure Reading (read : Toml.Reader) : Prop where
  /-- A document and variables with the same settings give the same. -/
  agree {s : Settings} {text : String} {lookup : String → Option String} :
    (∀ x ∈ s.given, x.Small) → s.Document text.toList → s.Carried lookup →
    Config.decode read text = Config.default.applyVariables lookup ∧
      Config.default.applyVariables lookup =
        if s.stepBudget = some 0 then .error .zeroBudget else .ok (Config.default.override s)
  /-- All settings can be written into a document and into variables. -/
  rendered (s : Settings) : s.Document s.rendition ∧ s.Carried s.asVariables
  /-- A configuration is restored from its variables, whatever it is that they replace. -/
  restores {c c' : Config} {ms : ℕ} {lookup : String → Option String} :
    1 ≤ c.stepBudget → c.stepBudget < 2 ^ 64 → c.resumeDelay = .ofMillis ms → ms < 2 ^ 64 →
    Settings.Carried ⟨some c.stepBudget, some ms, some c.catchPanics⟩ lookup →
    c'.applyVariables lookup = .ok c
  /-- The budget is a numeral with at most 64 bits, and not zero. -/
  stepBudget (c : Config) (value : String) :
    Decides stepBudgetVariable value (fun cs n => Text.Numeral cs n ∧ n < 2 ^ 64)
      (fun n => ({ c with stepBudget := n } : Config).validated)
      (c.applyVariables (only stepBudgetVariable value))
  /-- The delay is a numeral with at most 64 bits. -/
  resumeMillis (c : Config) (value : String) :
    Decides resumeMillisVariable value (fun cs n => Text.Numeral cs n ∧ n < 2 ^ 64)
      (fun n => ({ c with resumeDelay := .ofMillis n } : Config).validated)
      (c.applyVariables (only resumeMillisVariable value))
  /-- Whether panics are caught is one of two words. -/
  catchPanics (c : Config) (value : String) :
    Decides catchPanicsVariable value (fun cs b => cs = truthWord b)
      (fun b => ({ c with catchPanics := b } : Config).validated)
      (c.applyVariables (only catchPanicsVariable value))

theorem maxWord_eq : maxWord = 2 ^ 64 - 1 := by decide

theorem le_maxWord_iff {n : ℕ} : n ≤ maxWord ↔ n < 2 ^ 64 := by
  rw [maxWord_eq]
  omega

/-- What variables with settings give. -/
theorem applyVariables_carried {s : Settings} {lookup : String → Option String} (c : Config)
    (hbudget : ∀ n ∈ s.stepBudget, n < 2 ^ 64) (hmillis : ∀ n ∈ s.resumeMillis, n < 2 ^ 64)
    (h : s.Carried lookup) : c.applyVariables lookup = (c.override s).validated := by
  rw [applyVariables, Settings.ofVariables_carried (fun n hn => le_maxWord_iff.2 (hbudget n hn))
    (fun n hn => le_maxWord_iff.2 (hmillis n hn)) h]
  rfl

theorem decode_document {read : Toml.Reader} {s : Settings} {text : String}
    (hread : read.ReadsLines) (hs : ∀ x ∈ s.given, x.Small) (h : s.Document text.toList) :
    decode read text = (default.override s).validated := by
  rw [decode, Settings.decode_document hread hs h]
  rfl

/-- Settings over the defaults can be used unless they give a budget of zero. -/
theorem validated_override (s : Settings) : (default.override s).validated =
    if s.stepBudget = some 0 then .error .zeroBudget else .ok (default.override s) := by
  rw [validated_eq]
  obtain ⟨_ | n, ms, b⟩ := s
  · rfl
  · by_cases h : n = 0
    · simp [override, h]
    · simp [override, h]

theorem number_iff (cs : List Char) (n : ℕ) :
    Text.unsigned? maxWord cs = some n ↔ Text.Numeral cs n ∧ n < 2 ^ 64 := by
  rw [Text.unsigned?_eq_some_iff, le_maxWord_iff]

/-- The variables are read one after the other. -/
theorem applyVariables_eq {lookup : String → Option String}
    {budget millis : Except ConfigError (Option ℕ)} {catching : Except ConfigError (Option Bool)}
    (c : Config)
    (hbudget : variableSetting lookup stepBudgetVariable (Text.unsigned? maxWord) = budget)
    (hmillis : variableSetting lookup resumeMillisVariable (Text.unsigned? maxWord) = millis)
    (hcatching : variableSetting lookup catchPanicsVariable truth? = catching) :
    c.applyVariables lookup =
      budget >>= fun b => millis >>= fun ms => catching >>= fun p =>
        (c.override ⟨b, ms, p⟩).validated := by
  rw [applyVariables, Settings.ofVariables, hbudget, hmillis, hcatching]
  cases budget <;> cases millis <;> cases catching <;> rfl

theorem reading {read : Toml.Reader} (hread : read.ReadsLines) : Reading read where
  agree {s text lookup} hs htext hlookup := by
    have hlt {n : ℕ} (h : n < 2 ^ 63) : n < 2 ^ 64 := by omega
    have hbudget : ∀ n ∈ s.stepBudget, n < 2 ^ 64 := fun n hn =>
      hlt (hs (.stepBudget n) (by simp [Settings.given, Option.mem_def.1 hn]))
    have hmillis : ∀ n ∈ s.resumeMillis, n < 2 ^ 64 := fun n hn =>
      hlt (hs (.resumeMillis n) (by simp [Settings.given, Option.mem_def.1 hn]))
    rw [decode_document hread hs htext, applyVariables_carried default hbudget hmillis hlookup]
    exact ⟨rfl, validated_override s⟩
  rendered s := ⟨s.document_rendition, s.carried_asVariables⟩
  restores {c c' ms lookup} hpos hlt hdelay hms hlookup := by
    rw [applyVariables_carried c' (by simpa using hlt) (by simpa using hms) hlookup, validated_eq]
    obtain ⟨budget, delay, catching⟩ := c
    subst hdelay
    exact if_neg (Nat.ne_of_gt hpos)
  stepBudget c value := by
    rw [applyVariables_eq c rfl (variableSetting_other (by decide))
      (variableSetting_other (by decide))]
    exact .of_parse number_iff fun _ => rfl
  resumeMillis c value := by
    rw [applyVariables_eq c (variableSetting_other (by decide)) rfl
      (variableSetting_other (by decide))]
    exact .of_parse number_iff fun _ => rfl
  catchPanics c value := by
    rw [applyVariables_eq c (variableSetting_other (by decide))
      (variableSetting_other (by decide)) rfl]
    exact .of_parse (fun _ _ => truth?_eq_some_iff) fun _ => rfl

/-- A document in another order and with blanks. -/
theorem reading_unordered :
    Config.ofText "catch_panics\t= false \nstep_budget=7" =
      Config.default.applyVariables (Settings.asVariables ⟨some 7, none, some false⟩) ∧
    Config.default.applyVariables (Settings.asVariables ⟨some 7, none, some false⟩) =
      .ok ⟨7, .zero, false⟩ := by
  have hlast : (Setting.stepBudget 7).assignment.Line "step_budget=7".toList :=
    .intro (a := []) (b := []) (c := []) (d := []) nofun nofun nofun nofun
  have hfirst : (Setting.catchPanics false).assignment.Line "catch_panics\t= false ".toList :=
    .intro (a := []) (b := ['\t']) (c := [' ']) (d := [' ']) nofun
      (List.forall_mem_singleton.2 rfl) (List.forall_mem_singleton.2 rfl)
      (List.forall_mem_singleton.2 rfl)
  have hdocument : Settings.Document ⟨some 7, none, some false⟩
      "catch_panics\t= false \nstep_budget=7".toList :=
    ⟨[.catchPanics false, .stepBudget 7], .swap .., .cons hfirst (.last hlast)⟩
  exact (reading Toml.Document.readsLines).agree (by simp [Settings.given, Setting.Small]) hdocument
    (Settings.carried_asVariables _)

end Config

end LazyEffects
