import LazyEffects.Config.Variables
import LazyEffects.Toml.Scalar
import Mathlib

/-!
# Decimal numerals

Variables and documents have numerals of their own. A numeral of a variable may have a plus sign and
any number of zeros in front, and it is at most `2 ^ 64 - 1`. One of a document may have a sign and
underscores between its digits, has no zeros in front, and is less than `2 ^ 63`. What both have in
common are the digits of a number that is less than `2 ^ 63`.

* `Text.Numeral`: the numerals of variables, with the numbers they stand for;
* `Text.unsigned?_eq_some_iff`: these are the texts that are accepted, up to the limit;
* `Text.trim_padded`: the text without the blanks around it;
* `Toml.Scalar.ofToken?_digits`: the digits of a number are an integer of a document, too.
-/

namespace LazyEffects

namespace Text

/-! ### Numerals of variables -/

theorem isDigit_iff {c : Char} : c.isDigit ↔ '0' ≤ c ∧ c ≤ '9' := by
  simp [Char.isDigit, Char.le_def]

theorem digitsFrom_eq_some_iff {n k : ℕ} {cs : List Char} :
    digitsFrom n cs = some k ↔ (∀ c ∈ cs, c.isDigit) ∧ Nat.ofDigitChars 10 cs n = k := by
  induction cs generalizing n with
  | nil => simp [digitsFrom]
  | cons c cs ih =>
    rw [digitsFrom, digitValue?, List.forall_mem_cons, Nat.ofDigitChars_cons]
    by_cases hc : '0' ≤ c ∧ c ≤ '9'
    · rw [if_pos hc]
      simp only [ih, isDigit_iff.2 hc, true_and]
    · rw [if_neg hc]
      simp [mt isDigit_iff.1 hc]

/-- A text stands for a number: one or more digits, with or without a plus sign in front. -/
def Numeral (cs : List Char) (n : ℕ) : Prop :=
  ∃ ds, (cs = ds ∨ cs = '+' :: ds) ∧ ds ≠ [] ∧ (∀ d ∈ ds, d.isDigit) ∧
    Nat.ofDigitChars 10 ds 0 = n

theorem digitsValue?_eq_some_iff {n : ℕ} {cs : List Char} :
    digitsValue? cs = some n ↔
      cs ≠ [] ∧ (∀ c ∈ cs, c.isDigit) ∧ Nat.ofDigitChars 10 cs 0 = n := by
  cases cs with
  | nil => simp [digitsValue?]
  | cons c cs => simp only [digitsValue?, digitsFrom_eq_some_iff, ne_eq, reduceCtorEq,
      not_false_eq_true, true_and]

/-- The numbers that are read are the numerals up to the limit. -/
theorem unsigned?_eq_some_iff {limit n : ℕ} {cs : List Char} :
    unsigned? limit cs = some n ↔ Numeral cs n ∧ n ≤ limit := by
  simp only [unsigned?, Option.filter_eq_some_iff, decide_eq_true_eq, digitsValue?_eq_some_iff]
  refine and_congr_left fun _ => ?_
  constructor
  · split
    · rename_i ds
      exact fun h => ⟨ds, .inr rfl, h⟩
    · exact fun h => ⟨cs, .inl rfl, h⟩
  · rintro ⟨ds, rfl | rfl, hne, hds, hn⟩
    · split
      · -- A plus sign is not a digit.
        exact absurd (hds '+' (List.mem_cons_self ..)) (by decide)
      · exact ⟨hne, hds, hn⟩
    · exact ⟨hne, hds, hn⟩

theorem isDigit_of_mem_digits {n : ℕ} {c : Char} (h : c ∈ digits n) : c.isDigit :=
  Nat.isDigit_of_mem_toDigits (by decide) (by decide) h

/-- What is written for a number stands for it. -/
theorem numeral_digits (n : ℕ) : Numeral (digits n) n :=
  ⟨digits n, .inl rfl, Nat.toDigits_ne_nil, fun _ => isDigit_of_mem_digits,
    Nat.ofDigitChars_ten_toDigits⟩

/-! ### Blanks -/

/-- Blanks around a text that has none at its ends are not part of it. -/
theorem trim_padded {before cs after : List Char} (hbefore : ∀ c ∈ before, isBlank c)
    (hafter : ∀ c ∈ after, isBlank c) (hne : cs ≠ []) (hcs : ∀ c ∈ cs, isBlank c = false) :
    trim (before ++ cs ++ after) = cs := by
  have hhead : (before ++ (cs ++ after)).dropWhile isBlank = cs ++ after := by
    rw [List.dropWhile_append_of_pos hbefore]
    obtain ⟨c, cs, rfl⟩ := List.exists_cons_of_ne_nil hne
    exact List.dropWhile_cons_of_neg (by simp [hcs c (List.mem_cons_self ..)])
  have hlast : (after.reverse ++ cs.reverse).dropWhile isBlank = cs.reverse := by
    rw [List.dropWhile_append_of_pos fun c hc => hafter c (List.mem_reverse.1 hc)]
    obtain ⟨c, ds, hds⟩ := List.exists_cons_of_ne_nil (mt List.reverse_eq_nil_iff.1 hne)
    have hc : c ∈ cs := List.mem_reverse.1 (hds ▸ List.mem_cons_self ..)
    rw [hds]
    exact List.dropWhile_cons_of_neg (by simp [hcs c hc])
  rw [trim, trimEnd, List.append_assoc, hhead, List.reverse_append, hlast, List.reverse_reverse]

/-- A word: letters and digits, and at least one of them. -/
structure Word (cs : List Char) : Prop where
  ne_nil : cs ≠ []
  isAlphanum : ∀ c ∈ cs, c.isAlphanum

theorem isAlphanum_of_isDigit {c : Char} (h : c.isDigit) : c.isAlphanum := by
  simp [Char.isAlphanum, h]

theorem word_digits (n : ℕ) : Word (digits n) where
  ne_nil := Nat.toDigits_ne_nil
  isAlphanum _ hc := isAlphanum_of_isDigit (isDigit_of_mem_digits hc)

/-- The codes of letters and digits. -/
theorem toNat_of_isAlphanum {c : Char} (h : c.isAlphanum) :
    (48 ≤ c.toNat ∧ c.toNat ≤ 57) ∨ (65 ≤ c.toNat ∧ c.toNat ≤ 90) ∨
      (97 ≤ c.toNat ∧ c.toNat ≤ 122) := by
  simp only [Char.isAlphanum, Char.isAlpha, Char.isUpper, Char.isLower, Char.isDigit,
    Bool.or_eq_true, Bool.and_eq_true, decide_eq_true_eq, ge_iff_le, UInt32.le_iff_toNat_le] at h
  have : c.val.toNat = c.toNat := rfl
  simp only [this, Char.reduceVal, UInt32.reduceToNat] at h
  omega

theorem isBlank_of_isAlphanum {c : Char} (h : c.isAlphanum) : isBlank c = false := by
  have hc := toNat_of_isAlphanum h
  simp only [isBlank, blankRanges, List.any_cons, List.any_nil, Bool.or_false, Bool.or_eq_false_iff,
    Bool.and_eq_false_iff, decide_eq_false_iff_not]
  omega

/-- A word is what is left of it with blanks around. -/
theorem Word.trim_padded {before cs after : List Char} (h : Word cs)
    (hbefore : ∀ c ∈ before, isBlank c) (hafter : ∀ c ∈ after, isBlank c) :
    trim (before ++ cs ++ after) = cs :=
  Text.trim_padded hbefore hafter h.ne_nil fun _ hc => isBlank_of_isAlphanum (h.isAlphanum _ hc)

end Text

/-! ### Truth values -/

/-- The word for a truth value. -/
def truthWord (b : Bool) : List Char := (if b then "true" else "false").toList

theorem word_truthWord (b : Bool) : Text.Word (truthWord b) where
  ne_nil := by cases b <;> decide
  isAlphanum := List.all_eq_true.1 (by cases b <;> decide)

theorem truth?_eq_some_iff {cs : List Char} {b : Bool} : truth? cs = some b ↔ cs = truthWord b := by
  have htrue : truthWord true = ['t', 'r', 'u', 'e'] := rfl
  have hfalse : truthWord false = ['f', 'a', 'l', 's', 'e'] := rfl
  rw [truth?]
  by_cases ht : cs = ['t', 'r', 'u', 'e']
  · cases b <;> simp [ht, htrue, hfalse]
  · by_cases hf : cs = ['f', 'a', 'l', 's', 'e']
    · cases b <;> simp [hf, htrue, hfalse]
    · cases b <;> simp [ht, hf, htrue, hfalse]

namespace Toml.Scalar

open Text

/-! ### Integers of documents -/

section

variable {cs : List Char}

theorem isDecimalDigit_of_isDigit {c : Char} (h : c.isDigit) : isDecimalDigit c = true := by
  simpa [isDecimalDigit] using isDigit_iff.1 h

/-- There is nothing to leave out of a text without underscores. -/
theorem ungrouped_of_isDigit (hne : cs ≠ []) (h : ∀ c ∈ cs, c.isDigit) :
    ungrouped isDecimalDigit cs = some cs := by
  obtain ⟨c, cs, rfl⟩ := List.exists_cons_of_ne_nil hne
  clear hne
  induction cs generalizing c with
  | nil => simp [ungrouped, isDecimalDigit_of_isDigit (h c (List.mem_cons_self ..))]
  | cons d cs ih =>
    obtain ⟨hc, hcs⟩ := List.forall_mem_cons.1 h
    have hd : d ≠ '_' := fun hd => absurd (hcs d (List.mem_cons_self ..)) (by rw [hd]; decide)
    rw [ungrouped.eq_4 isDecimalDigit c (d :: cs) nofun (fun _ heq => hd (List.cons.inj heq).1),
      if_pos (isDecimalDigit_of_isDigit hc), ih d hcs]
    rfl

theorem digitOf?_ten {c : Char} (h : c.isDigit) : digitOf? 10 c = some (c.toNat - '0'.toNat) := by
  have hc := isDigit_iff.1 h
  have hlt : c.toNat - '0'.toNat < 10 := by
    have := (Char.isDigit_iff_toNat.1 h).2
    simp only [Char.reduceToNat] at this ⊢
    omega
  simp only [digitOf?, if_pos hc, if_pos hlt]

theorem valueIn_ten (h : ∀ c ∈ cs, c.isDigit) : valueIn 10 cs = Nat.ofDigitChars 10 cs 0 := by
  rw [valueIn, Nat.ofDigitChars_eq_foldl]
  refine List.foldl_ext _ _ _ fun n c hc => ?_
  rw [digitOf?_ten (h c hc), Option.getD_some]

/-- Only the digits of zero begin with a zero. -/
theorem head?_digits {n : ℕ} (h : (digits n).head? = some '0') : n = 0 := by
  induction n using Nat.strongRecOn with
  | _ n ih =>
    rw [digits, Nat.toDigits_eq_if (by decide)] at h
    split at h
    · rename_i hn
      rw [List.head?_singleton, Option.some.injEq] at h
      rw [← Nat.toNat_digitChar_sub_48_of_lt_ten hn, h]
      rfl
    · rename_i hn
      rw [List.head?_append_of_ne_nil _ Nat.toDigits_ne_nil] at h
      have := ih (n / 10) (by omega) h
      omega

theorem decimalDigits?_digits (n : ℕ) : decimalDigits? (digits n) = some (digits n) := by
  rw [decimalDigits?, ungrouped_of_isDigit (word_digits n).ne_nil fun _ => isDigit_of_mem_digits]
  split
  · rename_i d ds hds
    have hn := head?_digits (n := n) (by rw [Option.some.inj hds]; rfl)
    subst hn
    cases hds
  · rfl

/-- A word is no date. -/
theorem afterDate?_of_word (h : Word cs) : afterDate? cs = none := by
  rw [afterDate?]
  rintro a b c d e f g i rest rfl
  exact absurd (h.isAlphanum '-' (by simp)) (by decide)

/-- A word is no time of day. -/
theorem afterTime?_of_word (h : Word cs) : afterTime? cs = none := by
  rw [afterTime?]
  rintro a b c d e f rest rfl
  exact absurd (h.isAlphanum ':' (by simp)) (by decide)

theorem signed_digits (n : ℕ) : signed (digits n) = (false, digits n) := by
  rw [signed]
  all_goals
    intro rest heq
    exact absurd (isDigit_of_mem_digits (heq ▸ List.mem_cons_self ..)) (by decide)

theorem integer?_digits {n : ℕ} (h : n < 2 ^ 63) : integer? (digits n) = some (n : Int) := by
  have hmark (c : Char) (rest : List Char) (hc : c.isDigit = false) :
      digits n ≠ '0' :: c :: rest := by
    intro heq
    have hmem : c ∈ digits n := heq ▸ by simp
    exact absurd (isDigit_of_mem_digits hmem) (by simp [hc])
  have hvalue : valueIn 10 (digits n) = n :=
    (valueIn_ten fun _ => isDigit_of_mem_digits).trans Nat.ofDigitChars_ten_toDigits
  have hrange : inRange n = true := by
    simp only [inRange, Bool.and_eq_true, decide_eq_true_eq]
    omega
  rw [integer?]
  · simp [signed_digits, decimalDigits?_digits, hvalue, hrange]
  · exact fun rest => hmark 'x' rest rfl
  · exact fun rest => hmark 'o' rest rfl
  · exact fun rest => hmark 'b' rest rfl

/-- The digits of a number with less than 64 bits are an integer. -/
theorem ofToken?_digits {n : ℕ} (h : n < 2 ^ 63) :
    ofToken? (digits n) = some (.integer n) := by
  have hletter (c : Char) (rest : List Char) (hc : c.isDigit = false) : digits n ≠ c :: rest :=
    fun heq => absurd (isDigit_of_mem_digits (heq ▸ List.mem_cons_self ..)) (by simp [hc])
  rw [ofToken?, if_neg (hletter 't' _ rfl), if_neg (hletter 'f' _ rfl), isDate, isTime,
    afterDate?_of_word (word_digits n), afterTime?_of_word (word_digits n), integer?_digits h]
  rfl

theorem ofToken?_truthWord (b : Bool) : ofToken? (truthWord b) = some (.boolean b) := by
  cases b <;> rfl

end

end Toml.Scalar

end LazyEffects
