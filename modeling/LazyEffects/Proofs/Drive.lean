import LazyEffects.Proofs.Slices
import Mathlib.Algebra.GroupWithZero.Nat

/-!
# Slices with any budgets

A trampoline is driven by slices, whose budgets may differ from slice to slice and may be zero. How
it is cut makes no difference.

* `Trampoline.drive_iff_evaluates`: the slices come to the end of the direct evaluation if it has
  one and the budgets grant its nodes, and to no end otherwise. The user's functions have then been
  called as in the direct evaluation, in the same order.
-/

namespace LazyEffects

open Deed

variable {S : Signature} {m : Type → Type} [Monad m] {σ : Type}
  {M : Meaning m σ} {fns : Functions S m} {e : Effect S} {s s' : σ} {w : Verdict S}
  {l : List (Deed S)}

namespace Trampoline

variable {catching : Bool}

/-! ### Slice after slice -/

/-- Slices with the given budgets, one after the other, until one is not suspended. -/
def drive (fns : Functions S m) (catching : Bool) :
    List Nat → Trampoline S → m (Answer S × Trampoline S)
  | [], t => pure (.suspended, t)
  | budget :: budgets, t => do
    match ← runSlice fns catching budget t with
    | (.suspended, t) => drive fns catching budgets t
    | (a, t) => pure (a, t)

/-- What follows a slice whose answer is not a suspension. -/
theorem drive_stop {budgets : List Nat} {a : Answer S} {t : Trampoline S} (ha : a ≠ .suspended) :
    (match (a, t) with
      | (.suspended, t) => drive fns catching budgets t
      | (a, t) => pure (a, t) : m (Answer S × Trampoline S)) = pure (a, t) := by
  cases a with
  | suspended => exact absurd rfl ha
  | completed => rfl
  | failed => rfl
  | unwound => rfl

/-- The number of slices with the given budgets that are suspended on the way through `n` nodes. -/
def cuts : List Nat → Nat → Nat
  | [], _ => 0
  | budget :: budgets, n => if n ≤ budget then 0 else cuts budgets (n - budget) + 1

/-- Budgets that grant enough nodes reach the end of an evaluation that has one, and what is done on
the way gives the counters. -/
theorem drive_counted (hq : fns.Silent M) {budgets : List Nat} {t : Trampoline S}
    (he : t.current = some e) (h : Completes M fns e t.stack.list s w l s')
    (hn : (visited l).length ≤ budgets.sum) :
    ∃ t', M.Runs (drive fns catching budgets t) s (.ofVerdict catching w, t') s' ∧
      t'.stats = t.stats.pausing (cuts budgets (visited l).length) l := by
  -- On the budgets: what one slice leaves undone has as many nodes less as its budget granted.
  induction budgets generalizing e t s l with
  | nil =>
    have := h.visited_ne_nil
    simp only [List.sum_nil] at hn
    omega
  | cons budget budgets ih =>
    have hslice : runSlice fns catching budget t =
        descend fns catching budget e t.stack t.stats := by rw [runSlice, he]
    rw [drive, hslice]
    rcases descend_of_completes catching hq budget t.stats h with
      ⟨hle, rest, hr⟩ | ⟨hlt, e₁, rest, s₁, l₁, l₂, hr, rfl, hl, hc⟩
    · refine ⟨⟨none, rest, t.stats.after l⟩, M.runs_bind hr ?_, ?_⟩
      · rw [drive_stop (Answer.ofVerdict_ne_suspended catching w)]
        exact M.runs_pure _ _
      · rw [cuts, if_pos hle, Stats.pausing_zero]
    · rw [visited_append, List.length_append] at hlt
      have hn' : (visited l₂).length ≤ budgets.sum := by
        simp only [visited_append, List.length_append, List.sum_cons] at hn
        omega
      obtain ⟨t', hr', hstats⟩ := ih (t := ⟨some e₁, rest, (t.stats.after l₁).suspend⟩) rfl hc hn'
      refine ⟨t', M.runs_bind hr hr', ?_⟩
      rw [hstats, Stats.pausing_suspend, visited_append, List.length_append, cuts,
        if_neg (Nat.not_le_of_lt hlt), hl, Nat.add_sub_cancel_left]

theorem drive_of_completes (hq : fns.Silent M) {budgets : List Nat} {t : Trampoline S}
    (he : t.current = some e) (h : Completes M fns e t.stack.list s w l s')
    (hn : (visited l).length ≤ budgets.sum) :
    ∃ t', M.Runs (drive fns catching budgets t) s (.ofVerdict catching w, t') s' := by
  obtain ⟨t', hr, -⟩ := drive_counted hq he h hn
  exact ⟨t', hr⟩

/-- An answer other than a suspension is the end of the evaluation, and the budgets have granted
its nodes. What was done on the way gives the counters. -/
theorem counted_of_drive (hx : M.Exact) (hq : fns.Quiet M) {budgets : List Nat}
    {t t' : Trampoline S} {a : Answer S} (he : t.current = some e)
    (h : M.Runs (drive fns catching budgets t) s (a, t') s') (ha : a ≠ .suspended) :
    ∃ w l, a = .ofVerdict catching w ∧ (visited l).length ≤ budgets.sum ∧
      t'.stats = t.stats.pausing (cuts budgets (visited l).length) l ∧
      Completes M fns e t.stack.list s w l s' := by
  induction budgets generalizing e t s with
  | nil =>
    obtain ⟨h, -⟩ := hx.of_pure h
    cases h
    exact absurd rfl ha
  | cons budget budgets ih =>
    have hslice : runSlice fns catching budget t =
        descend fns catching budget e t.stack t.stats := by rw [runSlice, he]
    rw [drive, hslice] at h
    obtain ⟨⟨a₁, t₁⟩, s₁, hd, h₁⟩ := hx.of_bind h
    rcases completes_of_descend hx hq hd with
      ⟨w, l, rfl, hs, hn, hc⟩ | ⟨e₁, l₁, rfl, ht, hs, hn, hc⟩
    · rw [drive_stop (Answer.ofVerdict_ne_suspended catching w)] at h₁
      obtain ⟨ha', rfl⟩ := hx.of_pure h₁
      cases ha'
      refine ⟨w, l, rfl, by simp only [List.sum_cons]; omega, ?_, hc⟩
      rw [hs, cuts, if_pos hn, Stats.pausing_zero]
    · -- A suspension: the evaluation is what this slice has done and what the others do.
      obtain ⟨w, l, rfl, hn', hs', hc'⟩ := ih ht h₁
      have hpos := hc'.visited_ne_nil
      refine ⟨w, l₁ ++ l, rfl, ?_, ?_, hc w l s' hc'⟩
      · simp only [visited_append, List.length_append, List.sum_cons]
        omega
      · rw [hs', hs, Stats.pausing_suspend, visited_append, List.length_append, hn, cuts,
          if_neg (by omega), Nat.add_sub_cancel_left]

theorem completes_of_drive (hx : M.Exact) (hq : fns.Quiet M) {budgets : List Nat}
    {t t' : Trampoline S} {a : Answer S} (he : t.current = some e)
    (h : M.Runs (drive fns catching budgets t) s (a, t') s') (ha : a ≠ .suspended) :
    ∃ w l, a = .ofVerdict catching w ∧ (visited l).length ≤ budgets.sum ∧
      Completes M fns e t.stack.list s w l s' := by
  obtain ⟨w, l, rfl, hn, -, hc⟩ := counted_of_drive hx hq he h ha
  exact ⟨w, l, rfl, hn, hc⟩

end Trampoline

/-! ### The record of calls -/

namespace Call

variable {α : Type} {c : Call S} {x : StateM σ α} {a : α}

/-- A computation that also puts `c` on record. -/
def recorded (c : Call S) (x : StateM σ α) : StateM (σ × List (Call S)) α :=
  fun y => ((x y.1).1, (x y.1).2, y.2 ++ [c])

theorem runs_recorded_iff {y y' : σ × List (Call S)} :
    (Meaning.state (σ × List (Call S))).Runs (c.recorded x) y a y' ↔
      (Meaning.state σ).Runs x y.1 a y'.1 ∧ y'.2 = y.2 ++ [c] := by
  obtain ⟨s', calls'⟩ := y'
  change ((x y.1).1, (x y.1).2, y.2 ++ [c]) = (a, s', calls') ↔
    x y.1 = (a, s') ∧ calls' = y.2 ++ [c]
  rw [Prod.ext_iff (x := x y.1)]
  simp only [Prod.mk.injEq, and_assoc, eq_comm (a := calls')]

end Call

/-- The functions with a record of the calls, in order. Events are ignored. -/
def Functions.logged (fns : Functions S (StateM σ)) :
    Functions S (StateM (σ × List (Call S))) where
  thunk t := Call.recorded (.thunk t) (fns.thunk t)
  transform f v := Call.recorded (.transform f v) (fns.transform f v)
  continuation k v := Call.recorded (.continuation k v) (fns.continuation k v)
  observe _ := pure ()

theorem Functions.logged_silent (fns : Functions S (StateM σ)) :
    fns.logged.Silent (.state (σ × List (Call S))) := fun _ _ => rfl

theorem Functions.logged_quiet (fns : Functions S (StateM σ)) :
    fns.logged.Quiet (.state (σ × List (Call S))) :=
  fun _ _ _ h => ((Meaning.state_exact _).of_pure h).2

namespace Evaluates

variable {fns : Functions S (StateM σ)} {d : Nat}

/-- The record grows by the calls of an evaluation, which is otherwise the same. -/
theorem logged (r : List (Call S)) (h : Evaluates (.state σ) fns d e s w l s') :
    Evaluates (.state (σ × List (Call S))) fns.logged d e (s, r) w l
      (s', r ++ calls l) := by
  induction h generalizing r with
  | sync ht => exact .sync (Call.runs_recorded_iff.2 ⟨ht, rfl⟩)
  | map _ hf ih => exact .map (ih r) (Call.runs_recorded_iff.2 ⟨hf, by simp⟩)
  | mapStopped _ ih => exact .mapStopped (ih r)
  | flatMap _ hk _ ih ih' =>
    simpa using Evaluates.flatMap (ih r) (Call.runs_recorded_iff.2 ⟨hk, rfl⟩) (ih' _)
  | flatMapRefused _ hk hc ih =>
    exact .flatMapRefused (ih r) (Call.runs_recorded_iff.2 ⟨hk, by simp⟩) hc
  | flatMapStopped _ ih => exact .flatMapStopped (ih r)

/-- Without the record an evaluation is the same, and the record has grown by its calls. -/
theorem of_logged {x x' : σ × List (Call S)}
    (h : Evaluates (.state (σ × List (Call S))) fns.logged d e x w l x') :
    Evaluates (.state σ) fns d e x.1 w l x'.1 ∧ x'.2 = x.2 ++ calls l := by
  induction h with
  | sync ht =>
    obtain ⟨ht, hl⟩ := Call.runs_recorded_iff.1 ht
    exact ⟨.sync ht, hl⟩
  | map _ hf ih =>
    obtain ⟨hf, hl⟩ := Call.runs_recorded_iff.1 hf
    exact ⟨.map ih.1 hf, by simp [hl, ih.2]⟩
  | mapStopped _ ih => exact ⟨.mapStopped ih.1, ih.2⟩
  | flatMap _ hk _ ih ih' =>
    obtain ⟨hk, hl⟩ := Call.runs_recorded_iff.1 hk
    exact ⟨.flatMap ih.1 hk ih'.1, by simp [ih'.2, hl, ih.2]⟩
  | flatMapRefused _ hk hc ih =>
    obtain ⟨hk, hl⟩ := Call.runs_recorded_iff.1 hk
    exact ⟨.flatMapRefused ih.1 hk hc, by simp [hl, ih.2]⟩
  | flatMapStopped _ ih => exact ⟨.flatMapStopped ih.1, ih.2⟩

end Evaluates

/-- Slices with any budgets, one after the other, come to an answer other than a suspension if and
only if the direct evaluation ends and the budgets grant the nodes it visits. They have then the
same end, the same effect on the state of the user and the same calls in the same order, none of
which calls the function of a node twice. -/
theorem Trampoline.drive_iff_evaluates (fns : Functions S (StateM σ)) (catching : Bool)
    (budgets : List Nat) (root : Effect S) (s s' : σ) (a : Answer S) (record : List (Call S)) :
    (a ≠ .suspended ∧ ∃ t,
      (drive fns.logged catching budgets (.start root)).run (s, []) = ((a, t), (s', record))) ↔
    ∃ w l, Evaluates (.state σ) fns 0 root s w l s' ∧ (visited l).length ≤ budgets.sum ∧
      a = .ofVerdict catching w ∧ record = calls l ∧
      (record.map Call.code).Subperm ((visited l).map Effect.code) := by
  constructor
  · -- The slices ran with the record, which is taken off once the evaluation is found.
    rintro ⟨ha, t, h⟩
    obtain ⟨w, l, rfl, hn, hc⟩ := completes_of_drive (M := .state (σ × List (Call S)))
      (Meaning.state_exact _) fns.logged_quiet (t := .start root) rfl h ha
    obtain ⟨he, hl⟩ := (completes_nil_iff.1 hc).of_logged
    obtain rfl : record = calls l := by simpa using hl
    exact ⟨w, l, he, hn, rfl, rfl, he.calls_subperm⟩
  · rintro ⟨w, l, he, hn, rfl, rfl, -⟩
    have hc := completes_nil_iff.2 (he.logged [])
    rw [List.nil_append] at hc
    exact ⟨Answer.ofVerdict_ne_suspended catching w,
      drive_of_completes fns.logged_silent (t := .start root) rfl hc hn⟩

end LazyEffects
