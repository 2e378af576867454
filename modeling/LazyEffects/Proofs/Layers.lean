import LazyEffects.CommandLine

/-!
# The layers of a configuration

A configuration is laid together from the defaults, a file, the environment and an option. Each of
these is checked, also where a later one has the last word.

What can be wrong is told of each source by itself (`CommandLine.Fails`), without regard to the
others, and so is what each source gives (`CommandLine.Sources.layered`). What reads the document in
the file may be anything.

* `CommandLine.Sources.layers`: there is a configuration if and only if no check fails, and then
  each setting is that of the highest layer that gives it; otherwise the error is that of the first
  check that fails.
-/

namespace LazyEffects

/-! ### Variables -/

/-- What a variable gives, if it is set and its value can be parsed. -/
def variableValue {α : Type} (lookup : String → Option String) (name : String)
    (parse : List Char → Option α) : Option α :=
  (lookup name).bind fun value => parse (Text.trim value.toList)

/-- A variable is set to a value that cannot be parsed, even without the blanks around it. -/
def Unparsable {α : Type} (lookup : String → Option String) (name : String)
    (parse : List Char → Option α) (value : String) : Prop :=
  lookup name = some value ∧ parse (Text.trim value.toList) = none

section

variable {α : Type} {lookup : String → Option String} {name : String}
  {parse : List Char → Option α}

theorem variableSetting_eq_ok {setting : Option α}
    (h : variableSetting lookup name parse = .ok setting) :
    (∀ value, ¬ Unparsable lookup name parse value) ∧
      setting = variableValue lookup name parse := by
  rw [variableSetting] at h
  simp only [Unparsable, variableValue]
  split at h
  · rename_i hnone
    cases h
    exact ⟨fun value hvalue => by simp [hnone] at hvalue, by simp [hnone]⟩
  · rename_i value hvalue
    split at h
    · rename_i a ha
      cases h
      refine ⟨fun value' hvalue' => ?_, by simp [hvalue, ha]⟩
      rw [hvalue] at hvalue'
      cases hvalue'.1
      simp [ha] at hvalue'
    · cases h

theorem variableSetting_eq_error {e : ConfigError}
    (h : variableSetting lookup name parse = .error e) :
    ∃ value, Unparsable lookup name parse value ∧ e = .badVariable name value := by
  rw [variableSetting] at h
  split at h
  · cases h
  · rename_i value hvalue
    split at h
    · cases h
    · rename_i hnone
      cases h
      exact ⟨value, ⟨hvalue, hnone⟩, rfl⟩

end

namespace CommandLine

/-! ### Sources and checks -/

/-- Where the settings come from, besides the defaults, and what reads documents. -/
structure Sources where
  read : Toml.Reader
  /-- A file, given by its path and by its content or the reason for which it cannot be read. -/
  file : Option (String × Except String ByteArray)
  /-- The environment. -/
  lookup : String → Option String
  /-- The budget given as an option. -/
  stepBudget : Option Nat

/-- The text of a file, or the reason for which there is none. -/
def fileText (content : Except String ByteArray) : Except String String :=
  match content with
  | .error reason => .error reason
  | .ok bytes =>
    match String.fromUTF8? bytes with
    | none => .error "stream did not contain valid UTF-8"
    | some text => .ok text

namespace Sources

/-- The file holds a document of settings. -/
def Holds (s : Sources) (settings : Settings) : Prop :=
  ∃ path content text, s.file = some (path, content) ∧ fileText content = .ok text ∧
    Settings.decode s.read text.toList = .ok settings

/-- What the file gives, if it holds a document of settings. -/
def fileSettings (s : Sources) : Settings :=
  match s.file with
  | none => .open
  | some (_, content) =>
    match fileText content with
    | .error _ => .open
    | .ok text =>
      match Settings.decode s.read text.toList with
      | .error _ => .open
      | .ok settings => settings

/-- What the environment gives. -/
def environment (s : Sources) : Settings where
  stepBudget := variableValue s.lookup stepBudgetVariable (Text.unsigned? Config.maxWord)
  resumeMillis := variableValue s.lookup resumeMillisVariable (Text.unsigned? Config.maxWord)
  catchPanics := variableValue s.lookup catchPanicsVariable truth?

/-- Each setting from the highest layer that gives it: the option, the environment, the file, the
default. -/
def layered (s : Sources) : Config where
  stepBudget := (s.stepBudget.or (s.environment.stepBudget.or s.fileSettings.stepBudget)).getD
    Config.default.stepBudget
  resumeDelay := ((s.environment.resumeMillis.or s.fileSettings.resumeMillis).map
    Duration.ofMillis).getD Config.default.resumeDelay
  catchPanics := (s.environment.catchPanics.or s.fileSettings.catchPanics).getD
    Config.default.catchPanics

end Sources

/-- The checks of a configuration. -/
inductive Check where
  | fileReadable
  | fileDecodable
  | fileBudget
  | stepBudgetVariable
  | resumeMillisVariable
  | catchPanicsVariable
  | environmentBudget
  | optionBudget
  deriving DecidableEq, Repr

/-- The place of a check in the order in which they count. -/
def Check.place : Check → Nat
  | fileReadable => 0
  | fileDecodable => 1
  | fileBudget => 2
  | stepBudgetVariable => 3
  | resumeMillisVariable => 4
  | catchPanicsVariable => 5
  | environmentBudget => 6
  | optionBudget => 7

/-- The check fails with the error, whatever becomes of the others. -/
inductive Fails (s : Sources) : Check → ConfigError → Prop where
  | fileReadable {path reason : String} {content : Except String ByteArray} :
    s.file = some (path, content) → fileText content = .error reason →
    Fails s .fileReadable (.unreadable path reason)
  | fileDecodable {path text : String} {content : Except String ByteArray} {e : ConfigError} :
    s.file = some (path, content) → fileText content = .ok text →
    Settings.decode s.read text.toList = .error e → Fails s .fileDecodable e
  | fileBudget {settings : Settings} :
    s.Holds settings → settings.stepBudget = some 0 → Fails s .fileBudget .zeroBudget
  | stepBudgetVariable {value : String} :
    Unparsable s.lookup stepBudgetVariable (Text.unsigned? Config.maxWord) value →
    Fails s .stepBudgetVariable (.badVariable LazyEffects.stepBudgetVariable value)
  | resumeMillisVariable {value : String} :
    Unparsable s.lookup resumeMillisVariable (Text.unsigned? Config.maxWord) value →
    Fails s .resumeMillisVariable (.badVariable LazyEffects.resumeMillisVariable value)
  | catchPanicsVariable {value : String} :
    Unparsable s.lookup catchPanicsVariable truth? value →
    Fails s .catchPanicsVariable (.badVariable LazyEffects.catchPanicsVariable value)
  | environmentBudget :
    s.environment.stepBudget = some 0 → Fails s .environmentBudget .zeroBudget
  | optionBudget : s.stepBudget = some 0 → Fails s .optionBudget .zeroBudget

variable {s : Sources} {check check' : Check} {e e' : ConfigError} {c : Config}
  {settings settings' : Settings}

theorem Sources.Holds.unique (h : s.Holds settings) (h' : s.Holds settings') :
    settings' = settings := by
  obtain ⟨path, content, text, hf, ht, hs⟩ := h
  obtain ⟨path', content', text', hf', ht', hs'⟩ := h'
  rw [hf] at hf'
  cases hf'
  rw [ht] at ht'
  cases ht'
  rw [hs] at hs'
  cases hs'
  rfl

theorem Sources.Holds.fileSettings (h : s.Holds settings) : s.fileSettings = settings := by
  obtain ⟨path, content, text, hf, ht, hs⟩ := h
  simp only [Sources.fileSettings, hf, ht, hs]

/-- A check fails in one way only. -/
theorem Fails.unique (h : Fails s check e) (h' : Fails s check e') : e' = e := by
  cases h with
  | fileReadable hf hr =>
    cases h' with
    | fileReadable hf' hr' =>
      rw [hf] at hf'
      cases hf'
      rw [hr] at hr'
      cases hr'
      rfl
  | fileDecodable hf ht he =>
    cases h' with
    | fileDecodable hf' ht' he' =>
      rw [hf] at hf'
      cases hf'
      rw [ht] at ht'
      cases ht'
      rw [he] at he'
      cases he'
      rfl
  | fileBudget | environmentBudget | optionBudget =>
    cases h'
    rfl
  | stepBudgetVariable hv =>
    cases h' with
    | stepBudgetVariable hv' =>
      rw [Option.some.inj (hv.1.symm.trans hv'.1)]
  | resumeMillisVariable hv =>
    cases h' with
    | resumeMillisVariable hv' =>
      rw [Option.some.inj (hv.1.symm.trans hv'.1)]
  | catchPanicsVariable hv =>
    cases h' with
    | catchPanicsVariable hv' =>
      rw [Option.some.inj (hv.1.symm.trans hv'.1)]

theorem Check.place_injective (h : check.place = check'.place) : check = check' := by
  cases check <;> cases check' <;> first | rfl | cases h

theorem Check.place_lt (check : Check) : check.place < 8 := by
  cases check <;> decide

/-- A document that cannot be decoded is told by its form or by what it says, never by a budget. -/
theorem Fails.undecodable (h : Fails s .fileDecodable e) :
    e = .malformed ∨ ∃ v line column, e = .unfit v line column := by
  cases h with
  | fileDecodable _ _ he =>
    rw [Settings.decode] at he
    split at he
    · cases he
      exact .inl rfl
    · rename_i entries _
      cases hd : Settings.ofDocument entries with
      | error violation =>
        rw [hd] at he
        cases he
        exact .inr ⟨_, _, _, rfl⟩
      | ok settings =>
        rw [hd] at he
        cases he

/-! ### Stages -/

/-- No check from place `a` up to place `b` fails. -/
def Sources.Passes (s : Sources) (a b : Nat) : Prop :=
  ∀ check e, Fails s check e → a ≤ check.place → b ≤ check.place

theorem Sources.Passes.trans {a b c : Nat} (h : s.Passes a b) (h' : s.Passes b c) :
    s.Passes a c :=
  fun check e hc ha => h' check e hc (h check e hc ha)

/-- A part of the reading that makes the checks from place `a` up to place `b`: if it succeeds,
none of them fails, otherwise its error is that of the first that fails. -/
structure Makes {α : Type} (s : Sources) (a b : Nat) (r : Except ConfigError α) : Prop where
  passes : ∀ x, r = .ok x → s.Passes a b
  fails : ∀ e, r = .error e →
    ∃ check, Fails s check e ∧ a ≤ check.place ∧ check.place < b ∧ s.Passes a check.place

namespace Makes

variable {α β : Type} {a b c : Nat} {r : Except ConfigError α}

/-- A part that makes one check. -/
theorem one (check : Check) (hok : ∀ x, r = .ok x → ∀ e, ¬ Fails s check e)
    (herror : ∀ e, r = .error e → Fails s check e) :
    Makes s check.place (check.place + 1) r where
  passes x hx check' e he hle := by
    rcases Nat.eq_or_lt_of_le hle with heq | hlt
    · cases Check.place_injective heq
      exact absurd he (hok x hx e)
    · exact hlt
  fails e he := ⟨check, herror e he, Nat.le_refl _, Nat.lt_succ_self _, fun _ _ _ hle => hle⟩

/-- One part after another. -/
theorem bind {f : α → Except ConfigError β} (h : Makes s a b r)
    (h' : ∀ x, r = .ok x → Makes s b c (f x)) (hab : a ≤ b) (hbc : b ≤ c) :
    Makes s a c (r >>= f) := by
  cases hr : r with
  | error e =>
    obtain ⟨check, hf, ha, hb, hp⟩ := h.fails e hr
    refine ⟨fun _ hx => (by cases hx), fun e' he' => ?_⟩
    cases he'
    exact ⟨check, hf, ha, Nat.lt_of_lt_of_le hb hbc, hp⟩
  | ok x =>
    have hpass := h.passes x hr
    refine ⟨fun y hy => hpass.trans ((h' x hr).passes y hy), fun e he => ?_⟩
    obtain ⟨check, hf, hb, hc, hp⟩ := (h' x hr).fails e he
    exact ⟨check, hf, Nat.le_trans hab hb, hc, hpass.trans hp⟩

/-- What is done with the outcome makes no check. -/
theorem map {f : α → β} (h : Makes s a b r) : Makes s a b (f <$> r) := by
  cases hr : r with
  | error e =>
    refine ⟨fun _ hx => (by cases hx), fun e' he' => ?_⟩
    cases he'
    exact h.fails e hr
  | ok x => exact ⟨fun _ _ => h.passes x hr, fun _ he => by cases he⟩

end Makes

/-! ### The layers one by one -/

theorem validated_eq_ok {c c' : Config} (h : c.validated = .ok c') :
    c' = c ∧ 0 < c.stepBudget := by
  rw [Config.validated, Config.validate] at h
  by_cases h0 : c.stepBudget = 0
  · rw [if_pos h0] at h
    cases h
  · rw [if_neg h0] at h
    cases h
    exact ⟨rfl, Nat.pos_of_ne_zero h0⟩

theorem validated_eq_error {c : Config} (h : c.validated = .error e) :
    e = .zeroBudget ∧ c.stepBudget = 0 := by
  rw [Config.validated, Config.validate] at h
  by_cases h0 : c.stepBudget = 0
  · rw [if_pos h0] at h
    cases h
    exact ⟨rfl, h0⟩
  · rw [if_neg h0] at h
    cases h

/-- The lowest layer: the file, or only the defaults. -/
def Sources.base (s : Sources) : Except ConfigError Config :=
  match s.file with
  | some (path, content) => Config.load s.read path content
  | none => .ok .default

theorem load_eq_decode (read : Toml.Reader) (path : String) (content : Except String ByteArray) :
    Config.load read path content =
      ((fileText content).mapError (.unreadable path) >>= fun text =>
        Settings.decode read text.toList >>= fun settings =>
          (Config.default.override settings).validated) := by
  cases content with
  | error reason => rfl
  | ok bytes =>
    simp only [Config.load, fileText]
    cases String.fromUTF8? bytes <;> rfl

/-- The file gives what it holds, and a budget of at least one is left. -/
theorem base_eq_ok (h : s.base = .ok c) :
    c = Config.default.override s.fileSettings ∧ 0 < c.stepBudget := by
  rw [Sources.base] at h
  split at h
  · rename_i path content hfile
    rw [load_eq_decode] at h
    cases ht : fileText content with
    | error reason =>
      rw [ht] at h
      cases h
    | ok text =>
      cases hs : Settings.decode s.read text.toList with
      | error e =>
        rw [ht] at h
        change (Settings.decode s.read text.toList >>= _) = _ at h
        rw [hs] at h
        cases h
      | ok settings =>
        have hv : (Config.default.override settings).validated = .ok c := by
          rw [ht] at h
          change (Settings.decode s.read text.toList >>= _) = _ at h
          rwa [hs] at h
        have hholds : s.Holds settings := ⟨path, content, text, hfile, ht, hs⟩
        obtain ⟨rfl, hpos⟩ := validated_eq_ok hv
        exact ⟨by rw [hholds.fileSettings], hpos⟩
  · rename_i hfile
    cases h
    exact ⟨by rw [Sources.fileSettings, hfile]; rfl, by decide⟩

/-- The lowest layer makes the checks of the file. -/
theorem base_makes (s : Sources) : Makes s 0 3 s.base := by
  rw [Sources.base]
  split
  · rename_i path content hfile
    rw [load_eq_decode]
    refine .bind (.one .fileReadable ?_ ?_) (fun text ht => ?_) (by decide) (by decide)
    · intro text ht e he
      cases he with
      | fileReadable hfile' hr =>
        rw [hfile] at hfile'
        cases hfile'
        rw [hr] at ht
        cases ht
    · intro e he
      cases hr : fileText content with
      | error reason =>
        rw [hr] at he
        cases he
        exact .fileReadable hfile hr
      | ok text =>
        rw [hr] at he
        cases he
    have hread : fileText content = .ok text := by
      cases hr : fileText content with
      | error reason =>
        rw [hr] at ht
        cases ht
      | ok text' =>
        rw [hr] at ht
        cases ht
        rfl
    refine .bind (.one .fileDecodable ?_ ?_) (fun settings hs => ?_) (by decide) (by decide)
    · intro settings hs e he
      cases he with
      | fileDecodable hfile' ht' he' =>
        rw [hfile] at hfile'
        cases hfile'
        rw [hread] at ht'
        cases ht'
        rw [he'] at hs
        cases hs
    · exact fun e he => .fileDecodable hfile hread he
    have hholds : s.Holds settings := ⟨path, content, text, hfile, hread, hs⟩
    refine .one .fileBudget ?_ ?_
    · intro c hc e he
      cases he with
      | fileBudget hholds' h0 =>
        cases hholds.unique hholds'
        have := (validated_eq_ok hc).2
        simp [Config.override, h0] at this
    · intro e he
      obtain ⟨rfl, h0⟩ := validated_eq_error he
      refine .fileBudget hholds ?_
      cases hb : settings.stepBudget with
      | none => simp [Config.override, hb, Config.default] at h0
      | some budget =>
        rw [Config.override, hb] at h0
        exact congrArg some h0
  · rename_i hfile
    refine ⟨fun _ _ check e he _ => ?_, fun _ he => by cases he⟩
    cases he with
    | fileReadable hfile' | fileDecodable hfile' => simp [hfile] at hfile'
    | fileBudget hholds =>
      obtain ⟨_, _, _, hfile', _⟩ := hholds
      simp [hfile] at hfile'
    | _ => decide

/-- A variable is one check. -/
theorem variable_makes {α : Type} {name : String} {parse : List Char → Option α} (check : Check)
    (hfails : ∀ e, Fails s check e ↔
      ∃ value, Unparsable s.lookup name parse value ∧ e = .badVariable name value) :
    Makes s check.place (check.place + 1) (variableSetting s.lookup name parse) := by
  refine .one check (fun setting h e he => ?_) (fun e h => ?_)
  · obtain ⟨value, hv, -⟩ := (hfails e).mp he
    exact (variableSetting_eq_ok h).1 value hv
  · exact (hfails e).mpr (variableSetting_eq_error h)

/-- The variables give what is in each of them. -/
theorem ofVariables_eq_ok (h : Settings.ofVariables s.lookup = .ok settings) :
    settings = s.environment := by
  rw [Settings.ofVariables] at h
  cases hb : variableSetting s.lookup stepBudgetVariable (Text.unsigned? Config.maxWord) with
  | error e =>
    rw [hb] at h
    cases h
  | ok stepBudget =>
  cases hr : variableSetting s.lookup resumeMillisVariable (Text.unsigned? Config.maxWord) with
  | error e =>
    rw [hb, hr] at h
    cases h
  | ok resumeMillis =>
  cases hc : variableSetting s.lookup catchPanicsVariable truth? with
  | error e =>
    rw [hb, hr, hc] at h
    cases h
  | ok catchPanics =>
  rw [hb, hr, hc] at h
  cases h
  rw [(variableSetting_eq_ok hb).2, (variableSetting_eq_ok hr).2, (variableSetting_eq_ok hc).2]
  rfl

/-- The variables are read in a fixed order. -/
theorem ofVariables_makes (s : Sources) : Makes s 3 6 (Settings.ofVariables s.lookup) := by
  refine .bind (variable_makes .stepBudgetVariable fun e => ⟨fun he => ?_, ?_⟩)
    (fun _ _ => .bind (variable_makes .resumeMillisVariable fun e => ⟨fun he => ?_, ?_⟩)
      (fun _ _ => .map (variable_makes .catchPanicsVariable fun e => ⟨fun he => ?_, ?_⟩))
      (by decide) (by decide))
    (by decide) (by decide)
  · cases he with
    | stepBudgetVariable hv => exact ⟨_, hv, rfl⟩
  · rintro ⟨value, hv, rfl⟩
    exact .stepBudgetVariable hv
  · cases he with
    | resumeMillisVariable hv => exact ⟨_, hv, rfl⟩
  · rintro ⟨value, hv, rfl⟩
    exact .resumeMillisVariable hv
  · cases he with
    | catchPanicsVariable hv => exact ⟨_, hv, rfl⟩
  · rintro ⟨value, hv, rfl⟩
    exact .catchPanicsVariable hv

/-- The environment is laid over what is below it. -/
theorem applyVariables_eq_ok {c c' : Config} (h : c.applyVariables s.lookup = .ok c') :
    c' = c.override s.environment ∧ 0 < c'.stepBudget := by
  rw [Config.applyVariables] at h
  cases hs : Settings.ofVariables s.lookup with
  | error e =>
    rw [hs] at h
    cases h
  | ok settings =>
    rw [hs] at h
    obtain ⟨rfl, hpos⟩ := validated_eq_ok h
    rw [ofVariables_eq_ok hs] at hpos ⊢
    exact ⟨rfl, hpos⟩

/-- The environment makes the checks of the variables and one of their budget. -/
theorem applyVariables_makes {c : Config} (hpos : 0 < c.stepBudget) :
    Makes s 3 7 (c.applyVariables s.lookup) := by
  refine .bind (ofVariables_makes s) (fun settings hs => ?_) (by decide) (by decide)
  rw [ofVariables_eq_ok hs]
  refine .one .environmentBudget (fun c' hc e he => ?_) (fun e he => ?_)
  · cases he with
    | environmentBudget h0 =>
      have := (validated_eq_ok hc).2
      simp [Config.override, h0] at this
  · obtain ⟨rfl, h0⟩ := validated_eq_error he
    refine .environmentBudget ?_
    cases hb : s.environment.stepBudget with
    | none =>
      rw [Config.override, hb] at h0
      exact absurd h0 (Nat.ne_of_gt hpos)
    | some budget =>
      rw [Config.override, hb] at h0
      exact congrArg some h0

/-- The highest layer: the option, if it is given. -/
def Sources.withOption (s : Sources) (c : Config) : Except ConfigError Config :=
  match s.stepBudget with
  | some stepBudget => ({ c with stepBudget } : Config).validated
  | none => .ok c

theorem withOption_eq_ok {c c' : Config} (hpos : 0 < c.stepBudget) (h : s.withOption c = .ok c') :
    c' = { c with stepBudget := s.stepBudget.getD c.stepBudget } ∧ 0 < c'.stepBudget := by
  rw [Sources.withOption] at h
  split at h
  · rename_i budget hb
    obtain ⟨rfl, hpos⟩ := validated_eq_ok h
    exact ⟨by rw [hb]; rfl, hpos⟩
  · rename_i hb
    cases h
    exact ⟨by rw [hb]; rfl, hpos⟩

theorem withOption_makes (s : Sources) (c : Config) : Makes s 7 8 (s.withOption c) := by
  refine .one .optionBudget (fun c' hc e he => ?_) (fun e he => ?_)
  · cases he with
    | optionBudget h0 =>
      rw [Sources.withOption, h0] at hc
      exact absurd (validated_eq_ok hc).2 (Nat.lt_irrefl 0)
  · rw [Sources.withOption] at he
    split at he
    · rename_i budget hb
      obtain ⟨rfl, h0⟩ := validated_eq_error he
      cases (h0 : budget = 0)
      exact .optionBudget hb
    · cases he

/-! ### The layers together -/

namespace Sources

/-- The configuration that is read from the sources. -/
def load (s : Sources) : Except ConfigError Config :=
  loadConfig s.read s.file s.lookup s.stepBudget

theorem load_eq (s : Sources) :
    s.load = (s.base >>= fun c => c.applyVariables s.lookup >>= s.withOption) := by
  rcases hf : s.file with _ | ⟨path, content⟩ <;> simp only [load, loadConfig, base, hf] <;> rfl

/-- What is read has each setting from the highest layer that gives it. -/
theorem load_eq_ok (h : s.load = .ok c) : c = s.layered ∧ 0 < c.stepBudget := by
  rw [load_eq] at h
  cases hb : s.base with
  | error e =>
    rw [hb] at h
    cases h
  | ok below =>
  cases hv : below.applyVariables s.lookup with
  | error e =>
    rw [hb] at h
    change (below.applyVariables s.lookup >>= _) = _ at h
    rw [hv] at h
    cases h
  | ok above =>
  rw [hb] at h
  change (below.applyVariables s.lookup >>= _) = _ at h
  rw [hv] at h
  obtain ⟨rfl, -⟩ := base_eq_ok hb
  obtain ⟨rfl, hpos⟩ := applyVariables_eq_ok hv
  obtain ⟨rfl, hpos⟩ := withOption_eq_ok hpos h
  refine ⟨?_, hpos⟩
  simp only [layered, Config.override, Config.mk.injEq]
  refine ⟨?_, ?_, ?_⟩
  · cases s.stepBudget <;> cases s.environment.stepBudget <;> rfl
  · cases s.environment.resumeMillis <;> rfl
  · cases s.environment.catchPanics <;> rfl

/-- The reading makes every check. -/
theorem load_makes (s : Sources) : Makes s 0 8 s.load := by
  rw [load_eq]
  refine .bind (base_makes s) (fun c hc => ?_) (by decide) (by decide)
  exact .bind (applyVariables_makes (base_eq_ok hc).2) (fun c _ => withOption_makes s c)
    (by decide) (by decide)

/-- Every source is as it should be. -/
structure Acceptable (s : Sources) : Prop where
  /-- A file that is given can be read, holds a document of settings and has no budget of zero. -/
  file : ∀ path content, s.file = some (path, content) → ∃ text settings,
    fileText content = .ok text ∧ Settings.decode s.read text.toList = .ok settings ∧
      settings.stepBudget ≠ some 0
  /-- A budget in the environment is a number, without the blanks around it, and not zero. -/
  stepBudgetVariable : ∀ value, s.lookup stepBudgetVariable = some value →
    ∃ n, Text.unsigned? Config.maxWord (Text.trim value.toList) = some n ∧ n ≠ 0
  /-- A delay in the environment is a number, without the blanks around it. -/
  resumeMillisVariable : ∀ value, s.lookup resumeMillisVariable = some value →
    ∃ n, Text.unsigned? Config.maxWord (Text.trim value.toList) = some n
  /-- What the environment says of panics is yes or no, without the blanks around it. -/
  catchPanicsVariable : ∀ value, s.lookup catchPanicsVariable = some value →
    ∃ b, truth? (Text.trim value.toList) = some b
  /-- A budget given as an option is not zero. -/
  stepBudget : s.stepBudget ≠ some 0

/-- Each source is as it should be exactly if none of the checks fails. -/
theorem acceptable_iff (s : Sources) : s.Acceptable ↔ ∀ check e, ¬ Fails s check e := by
  constructor
  · intro h check e he
    cases he with
    | fileReadable hfile hr =>
      obtain ⟨text, _, ht, _⟩ := h.file _ _ hfile
      rw [hr] at ht
      cases ht
    | fileDecodable hfile ht he =>
      obtain ⟨text, settings, ht', hs, _⟩ := h.file _ _ hfile
      rw [ht] at ht'
      cases ht'
      rw [he] at hs
      cases hs
    | fileBudget hholds h0 =>
      obtain ⟨path, content, text, hfile, ht, hs⟩ := hholds
      obtain ⟨text', settings', ht', hs', hne⟩ := h.file _ _ hfile
      rw [ht] at ht'
      cases ht'
      rw [hs] at hs'
      cases hs'
      exact hne h0
    | stepBudgetVariable hv =>
      obtain ⟨n, hn, _⟩ := h.stepBudgetVariable _ hv.1
      exact absurd hv.2 (by simp [hn])
    | resumeMillisVariable hv =>
      obtain ⟨n, hn⟩ := h.resumeMillisVariable _ hv.1
      exact absurd hv.2 (by simp [hn])
    | catchPanicsVariable hv =>
      obtain ⟨b, hb⟩ := h.catchPanicsVariable _ hv.1
      exact absurd hv.2 (by simp [hb])
    | environmentBudget h0 =>
      obtain ⟨value, hv, hp⟩ := Option.bind_eq_some_iff.mp h0
      obtain ⟨n, hn, hne⟩ := h.stepBudgetVariable value hv
      rw [hn] at hp
      exact hne (Option.some.inj hp)
    | optionBudget h0 => exact h.stepBudget h0
  · intro h
    refine ⟨fun path content hfile => ?_, fun value hv => ?_, fun value hv => ?_, fun value hv => ?_,
      fun h0 => h _ _ (.optionBudget h0)⟩
    · cases ht : fileText content with
      | error reason => exact absurd (.fileReadable hfile ht) (h _ _)
      | ok text =>
        cases hs : Settings.decode s.read text.toList with
        | error e => exact absurd (.fileDecodable hfile ht hs) (h _ _)
        | ok settings =>
          exact ⟨text, settings, rfl, hs, fun h0 =>
            h _ _ (.fileBudget ⟨path, content, text, hfile, ht, hs⟩ h0)⟩
    · cases hp : Text.unsigned? Config.maxWord (Text.trim value.toList) with
      | none => exact absurd (.stepBudgetVariable ⟨hv, hp⟩) (h _ _)
      | some n =>
        refine ⟨n, rfl, fun h0 => h _ _ (.environmentBudget ?_)⟩
        simp only [environment, variableValue, hv, Option.bind_some, hp, h0]
    · cases hp : Text.unsigned? Config.maxWord (Text.trim value.toList) with
      | none => exact absurd (.resumeMillisVariable ⟨hv, hp⟩) (h _ _)
      | some n => exact ⟨n, rfl⟩
    · cases hp : truth? (Text.trim value.toList) with
      | none => exact absurd (.catchPanicsVariable ⟨hv, hp⟩) (h _ _)
      | some b => exact ⟨b, rfl⟩

/-- What the reading of a configuration makes of its sources. -/
structure Laid (s : Sources) : Prop where
  /-- There is a configuration exactly if every source is as it should be, -/
  succeeds : (∃ c, s.load = .ok c) ↔ s.Acceptable
  /-- and then each of its settings is that of the highest layer that gives it, and a run with
  it progresses. -/
  value : ∀ c, s.load = .ok c → c = s.layered ∧ 1 ≤ c.stepBudget
  /-- Otherwise the error is that of the first check that fails, also if a higher layer would
  have replaced what it is about. -/
  error : ∀ e, s.load = .error e ↔ ∃ check, Fails s check e ∧
    ∀ check' e', Fails s check' e' → check.place ≤ check'.place
  /-- Only a document that cannot be decoded is told to be one. -/
  undecodable : ∀ e, Fails s .fileDecodable e → e = .malformed ∨ ∃ v line column,
    e = .unfit v line column

/-- The layers of a configuration: what is set, what fails, and which of several failures is
told. -/
theorem layers (s : Sources) : s.Laid where
  succeeds := by
    rw [acceptable_iff]
    constructor
    · rintro ⟨c, hc⟩ check e he
      exact absurd (s.load_makes.passes c hc check e he (Nat.zero_le _))
        (Nat.not_le_of_lt check.place_lt)
    · intro h
      cases hr : s.load with
      | ok c => exact ⟨c, rfl⟩
      | error e =>
        obtain ⟨check, he, _⟩ := s.load_makes.fails e hr
        exact absurd he (h check e)
  value _ hc := load_eq_ok hc
  error e := by
    constructor
    · intro hr
      obtain ⟨check, he, _, _, hfirst⟩ := s.load_makes.fails e hr
      exact ⟨check, he, fun check' e' he' => hfirst check' e' he' (Nat.zero_le _)⟩
    · rintro ⟨check, he, hfirst⟩
      cases hr : s.load with
      | ok c =>
        exact absurd (s.load_makes.passes c hr check e he (Nat.zero_le _))
          (Nat.not_le_of_lt check.place_lt)
      | error e' =>
        obtain ⟨check', he', _, _, hfirst'⟩ := s.load_makes.fails e' hr
        have hle := hfirst check' e' he'
        have hge := hfirst' check e he (Nat.zero_le _)
        cases Check.place_injective (Nat.le_antisymm hle hge)
        rw [he.unique he']
  undecodable _ he := he.undecodable

end Sources

end CommandLine

end LazyEffects
