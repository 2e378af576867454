import LazyEffects.Proofs.Regrouping

/-!
# Catching panics

Whether panics are caught decides how a panic leaves a slice, and nothing else. Of two trampolines
that begin in the same state and get the same budgets, the one with panics caught and the other
without, both do the same up to the slice in which a function panics, and nothing after it.

* `Functions.noted` puts the panics of the user's functions on record, and `Records` says that
  nothing else is changed by it;
* `Trampoline.runSlice_ending`: a slice comes to its end without regard to the treatment of panics,
  which only says what the end is answered as;
* `Parallel` compares two runs slice by slice, and `Trampoline.slices_parallel` says that each of
  the two has the other beside it.
-/

namespace LazyEffects

variable {S : Signature} {m : Type → Type} [Monad m] {σ : Type}

/-! ### The record of panics -/

/-- A panic of a function of the user's. -/
structure Panic where
  stage : Stage
  payload : Payload

/-- The panic in which a call ends, if it does. -/
def Outcome.panics {α : Type} (stage : Stage) : Outcome S α → List Panic
  | .panicked p => [⟨stage, p⟩]
  | _ => []

/-- A computation that also puts the panic on record in which it ends. -/
def Panic.noting {α : Type} (stage : Stage) (x : m (Outcome S α)) :
    StateT (List Panic) m (Outcome S α) := fun record => do
  let out ← x
  pure (out, record ++ out.panics stage)

/-- The functions with a record of their panics, in order. -/
def Functions.noted (fns : Functions S m) : Functions S (StateT (List Panic) m) where
  thunk t := Panic.noting .thunk (fns.thunk t)
  transform f v := Panic.noting .transform (fns.transform f v)
  continuation k v := Panic.noting .continuation (fns.continuation k v)
  observe e := StateT.lift (fns.observe e)

/-- Computations with a record of panics beside the state. -/
def Meaning.noted (M : Meaning m σ) : Meaning (StateT (List Panic) m) (σ × List Panic) where
  Runs x y a y' := M.Runs (x.run y.2) y.1 (a, y'.2) y'.1
  runs_pure a y := M.runs_pure (a, y.2) y.1
  runs_bind hx hf := M.runs_bind hx hf

variable {M : Meaning m σ} {fns : Functions S m} {y y' : σ × List Panic}

theorem Meaning.Exact.noted (hx : M.Exact) : M.noted.Exact where
  of_pure h := by
    obtain ⟨hb, hs⟩ := hx.of_pure h
    exact ⟨(Prod.mk.inj hb).1, Prod.ext hs (Prod.mk.inj hb).2⟩
  of_bind h := by
    obtain ⟨⟨a, r⟩, s, h₁, h₂⟩ := hx.of_bind h
    exact ⟨a, (s, r), h₁, h₂⟩

/-- A call leaves its panic on record. -/
theorem Panic.record_eq (hx : M.Exact) {α : Type} {stage : Stage} {x : m (Outcome S α)}
    {out : Outcome S α} (h : M.noted.Runs (noting stage x) y out y') :
    y'.2 = y.2 ++ out.panics stage := by
  obtain ⟨out', s, -, hpure⟩ := hx.of_bind h
  obtain ⟨hout, -⟩ := hx.of_pure hpure
  obtain ⟨rfl, hrecord⟩ := Prod.mk.inj hout
  exact hrecord

/-- Events leave no panic on record. -/
theorem Functions.noted_observe (hx : M.Exact) {e : Event} {u : Unit}
    (h : M.noted.Runs (fns.noted.observe e) y u y') : y'.2 = y.2 := by
  obtain ⟨u', s, -, hpure⟩ := hx.of_bind h
  obtain ⟨hu, -⟩ := hx.of_pure hpure
  exact (Prod.mk.inj hu).2

/-- `X` does what `x` does, with a record of panics beside the state. -/
structure Records {α : Type} (M : Meaning m σ) (X : StateT (List Panic) m α) (x : m α) : Prop where
  plain {y y' : σ × List Panic} {a : α} : M.noted.Runs X y a y' → M.Runs x y.1 a y'.1
  recorded {s s' : σ} {a : α} (record : List Panic) :
    M.Runs x s a s' → ∃ record', M.noted.Runs X (s, record) a (s', record')

namespace Records

variable {α β : Type}

theorem pure (hx : M.Exact) (a : α) : Records M (pure a) (pure a) where
  plain h := by
    obtain ⟨rfl, rfl⟩ := hx.noted.of_pure h
    exact M.runs_pure _ _
  recorded record h := by
    obtain ⟨rfl, rfl⟩ := hx.of_pure h
    exact ⟨record, M.noted.runs_pure _ _⟩

theorem bind (hx : M.Exact) {X : StateT (List Panic) m α} {x : m α}
    {F : α → StateT (List Panic) m β} {f : α → m β} (h : Records M X x)
    (hf : ∀ a, Records M (F a) (f a)) : Records M (X >>= F) (x >>= f) where
  plain hr := by
    obtain ⟨a, y₁, h₁, h₂⟩ := hx.noted.of_bind hr
    exact M.runs_bind (h.plain h₁) ((hf a).plain h₂)
  recorded record hr := by
    obtain ⟨a, s₁, h₁, h₂⟩ := hx.of_bind hr
    obtain ⟨record₁, h₁⟩ := h.recorded record h₁
    obtain ⟨record₂, h₂⟩ := (hf a).recorded record₁ h₂
    exact ⟨record₂, M.noted.runs_bind h₁ h₂⟩

theorem noting (hx : M.Exact) (stage : Stage) (x : m (Outcome S α)) :
    Records M (Panic.noting stage x) x where
  plain h := by
    obtain ⟨out, s, h₁, hpure⟩ := hx.of_bind h
    obtain ⟨hout, hs⟩ := hx.of_pure hpure
    obtain ⟨rfl, -⟩ := Prod.mk.inj hout
    rwa [hs]
  recorded record h := ⟨_, M.runs_bind h (M.runs_pure _ _)⟩

theorem lift (hx : M.Exact) (x : m α) : Records M (StateT.lift x) x where
  plain h := by
    obtain ⟨a, s, h₁, hpure⟩ := hx.of_bind h
    obtain ⟨ha, hs⟩ := hx.of_pure hpure
    obtain ⟨rfl, -⟩ := Prod.mk.inj ha
    rwa [hs]
  recorded record h := ⟨record, M.runs_bind h (M.runs_pure _ _)⟩

end Records

/-! ### The end of a slice -/

/-- The panic that stops an evaluation, if one does. -/
def Stop.panics : Stop S → List Panic
  | .panicked stage p => [⟨stage, p⟩]
  | .mismatched _ => []

/-- How a slice ends, before its panic has been treated. -/
inductive SliceEnd (S : Signature) where
  /-- The evaluation has come to its end. -/
  | ended (w : Verdict S)
  | suspended
  /-- There was nothing left to evaluate. -/
  | refused

namespace SliceEnd

/-- What the end of a slice is answered as. -/
def answer (catching : Bool) : SliceEnd S → Answer S
  | ended w => .ofVerdict catching w
  | suspended => .suspended
  | refused => .failed .alreadyCompleted

/-- The panic in which a slice ends, if it does. -/
def panics : SliceEnd S → List Panic
  | ended (.error c) => c.panics
  | _ => []

/-- Without a panic there is nothing to be treated. -/
theorem answer_eq {c : SliceEnd S} (h : c.panics = []) (catching catching' : Bool) :
    c.answer catching = c.answer catching' := by
  match c with
  | ended (.ok v) => rfl
  | ended (.error (.mismatched expected)) => rfl
  | ended (.error (.panicked stage p)) => cases h
  | suspended => rfl
  | refused => rfl

end SliceEnd

namespace Trampoline

variable {catching : Bool}

theorem unwindList_records (hx : M.Exact) (list : List (Frame S)) (height : ℕ)
    (hh : height = list.length) (v : S.Value) :
    Records M (unwindList fns.noted catching list height hh v)
      (unwindList fns catching list height hh v) := by
  induction list generalizing v height with
  | nil => exact .pure hx _
  | cons frame list ih =>
    cases frame with
    | map f =>
      refine .bind hx (.noting hx _ _) fun out => ?_
      cases out with
      | returned v => exact ih _ _ _
      | mismatched expected => exact .pure hx _
      | panicked p => exact .pure hx _
    | flatMap k =>
      refine .bind hx (.noting hx _ _) fun out => ?_
      cases out with
      | returned e => exact .pure hx _
      | mismatched expected => exact .pure hx _
      | panicked p => exact .pure hx _

theorem descend_records (hx : M.Exact) (n : ℕ) (e : Effect S) (stack : Frames S) (stats : Stats) :
    Records M (descend fns.noted catching n e stack stats)
      (descend fns catching n e stack stats) := by
  induction n generalizing e stack stats with
  | zero => exact .bind hx (.lift hx _) fun _ => .pure hx _
  | succ n ih =>
    rcases e.sync_or_around with ⟨leaf, rfl⟩ | ⟨frame, e, rfl⟩
    · refine .bind hx (.lift hx _) fun _ => .bind hx (.noting hx _ _) fun out => ?_
      cases out with
      | returned v =>
        refine .bind hx (unwindList_records hx _ _ _ v) fun u => ?_
        cases u with
        | delivered v => exact .pure hx _
        | entered e rest => exact ih e rest _
        | stopped a rest => exact .pure hx _
      | mismatched expected => exact .pure hx _
      | panicked p => exact .pure hx _
    · simp only [descend_around]
      exact .bind hx (.lift hx _) fun _ => ih _ _ _

/-- With the record a slice does what it does without. -/
theorem runSlice_records (hx : M.Exact) (budget : ℕ) (t : Trampoline S) :
    Records M (runSlice fns.noted catching budget t) (runSlice fns catching budget t) := by
  cases he : t.current with
  | none =>
    simp only [runSlice, he]
    exact .pure hx _
  | some e =>
    simp only [runSlice, he]
    exact descend_records hx budget e t.stack t.stats

/-- What the frames make of a value depends on the treatment of panics only where a function stops
it, and there only in the answer. -/
theorem unwindList_ending (hx : M.Exact) {list : List (Frame S)} {height : ℕ}
    {hh : height = list.length} {v : S.Value} {u : Unwound S}
    (h : M.noted.Runs (unwindList fns.noted catching list height hh v) y u y') :
    (∃ c rest, u = .stopped (.ofStop catching c) rest ∧ y'.2 = y.2 ++ c.panics ∧
      ∀ catching', M.noted.Runs (unwindList fns.noted catching' list height hh v) y
        (.stopped (.ofStop catching' c) rest) y') ∨
    (∀ a rest, u ≠ .stopped a rest) ∧ y'.2 = y.2 ∧
      ∀ catching', M.noted.Runs (unwindList fns.noted catching' list height hh v) y u y' := by
  -- Along the frames, as the value is handed on.
  induction list generalizing v height y with
  | nil =>
    obtain ⟨rfl, rfl⟩ := hx.noted.of_pure h
    exact .inr ⟨nofun, rfl, fun _ => Meaning.runs_pure _ _ _⟩
  | cons frame list ih =>
    cases frame with
    | map f =>
      obtain ⟨out, y₁, hf, hrest⟩ := hx.noted.of_bind h
      have hrecord := Panic.record_eq hx hf
      cases out with
      | returned v' =>
        have hrecord : y₁.2 = y.2 := hrecord.trans (List.append_nil _)
        rw [← hrecord]
        rcases ih hrest with ⟨c, rest, rfl, hc, hr⟩ | ⟨hu, hc, hr⟩
        · exact .inl ⟨c, rest, rfl, hc, fun _ => Meaning.runs_bind _ hf (hr _)⟩
        · exact .inr ⟨hu, hc, fun _ => Meaning.runs_bind _ hf (hr _)⟩
      | mismatched expected =>
        obtain ⟨rfl, rfl⟩ := hx.noted.of_pure hrest
        exact .inl ⟨.mismatched expected, _, rfl, hrecord,
          fun _ => Meaning.runs_bind _ hf (Meaning.runs_pure _ _ _)⟩
      | panicked p =>
        obtain ⟨rfl, rfl⟩ := hx.noted.of_pure hrest
        exact .inl ⟨.panicked .transform p, _, rfl, hrecord,
          fun _ => Meaning.runs_bind _ hf (Meaning.runs_pure _ _ _)⟩
    | flatMap k =>
      obtain ⟨out, y₁, hk, hrest⟩ := hx.noted.of_bind h
      have hrecord := Panic.record_eq hx hk
      cases out with
      | returned e =>
        obtain ⟨rfl, rfl⟩ := hx.noted.of_pure hrest
        exact .inr ⟨nofun, hrecord.trans (List.append_nil _),
          fun _ => Meaning.runs_bind _ hk (Meaning.runs_pure _ _ _)⟩
      | mismatched expected =>
        obtain ⟨rfl, rfl⟩ := hx.noted.of_pure hrest
        exact .inl ⟨.mismatched expected, _, rfl, hrecord,
          fun _ => Meaning.runs_bind _ hk (Meaning.runs_pure _ _ _)⟩
      | panicked p =>
        obtain ⟨rfl, rfl⟩ := hx.noted.of_pure hrest
        exact .inl ⟨.panicked .continuation p, _, rfl, hrecord,
          fun _ => Meaning.runs_bind _ hk (Meaning.runs_pure _ _ _)⟩

/-- A slice comes to the end `c`, however panics are treated. The panic in which it ends is the one
that it leaves on record, and leaves nothing to evaluate. -/
structure EndsIn (M : Meaning m σ)
    (slice : Bool → StateT (List Panic) m (Answer S × Trampoline S)) (y : σ × List Panic)
    (c : SliceEnd S) (t' : Trampoline S) (y' : σ × List Panic) : Prop where
  runs (catching : Bool) : M.noted.Runs (slice catching) y (c.answer catching, t') y'
  record : y'.2 = y.2 ++ c.panics
  current : c.panics ≠ [] → t'.current = none

theorem descend_ending (hx : M.Exact) {n : ℕ} {e : Effect S} {stack : Frames S} {stats : Stats}
    {a : Answer S} {t' : Trampoline S}
    (h : M.noted.Runs (descend fns.noted catching n e stack stats) y (a, t') y') :
    ∃ c, a = c.answer catching ∧
      EndsIn M (fun catching => descend fns.noted catching n e stack stats) y c t' y' := by
  -- On the budget. The event comes first and leaves the record as it is.
  induction n generalizing e stack stats y with
  | zero =>
    obtain ⟨_, y₁, ho, hpure⟩ := hx.noted.of_bind h
    obtain ⟨ha, rfl⟩ := hx.noted.of_pure hpure
    cases ha
    exact ⟨.suspended, rfl, fun _ => Meaning.runs_bind _ ho (Meaning.runs_pure _ _ _),
      (Functions.noted_observe hx ho).trans (List.append_nil _).symm, nofun⟩
  | succ n ih =>
    rcases e.sync_or_around with ⟨leaf, rfl⟩ | ⟨frame, e, rfl⟩
    · obtain ⟨_, y₁, ho, hthunk⟩ := hx.noted.of_bind h
      obtain ⟨out, y₂, ht, hrest⟩ := hx.noted.of_bind hthunk
      have hrecord := Panic.record_eq hx ht
      rw [Functions.noted_observe hx ho] at hrecord
      cases out with
      | returned v =>
        have hrecord : y₂.2 = y.2 := hrecord.trans (List.append_nil _)
        obtain ⟨u, y₃, hu, hgoes⟩ := hx.noted.of_bind hrest
        rcases unwindList_ending hx hu with ⟨c, rest, rfl, hc, hr⟩ | ⟨hu, hc, hr⟩
        · obtain ⟨ha, rfl⟩ := hx.noted.of_pure hgoes
          cases ha
          exact ⟨.ended (.error c), rfl, fun _ => Meaning.runs_bind _ ho (Meaning.runs_bind _ ht
            (Meaning.runs_bind _ (hr _) (Meaning.runs_pure _ _ _))),
            hc.trans (congrArg (· ++ c.panics) hrecord), fun _ => rfl⟩
        · cases u with
          | delivered v' =>
            obtain ⟨ha, rfl⟩ := hx.noted.of_pure hgoes
            cases ha
            exact ⟨.ended (.ok v'), rfl, fun _ => Meaning.runs_bind _ ho (Meaning.runs_bind _ ht
              (Meaning.runs_bind _ (hr _) (Meaning.runs_pure _ _ _))),
              (hc.trans hrecord).trans (List.append_nil _).symm, nofun⟩
          | entered e' rest =>
            obtain ⟨c, ha, hends⟩ := ih hgoes
            refine ⟨c, ha, fun _ => Meaning.runs_bind _ ho (Meaning.runs_bind _ ht
              (Meaning.runs_bind _ (hr _) (hends.runs _))), ?_, hends.current⟩
            rw [hends.record, hc, hrecord]
          | stopped a' rest => exact absurd rfl (hu a' rest)
      | mismatched expected =>
        obtain ⟨ha, rfl⟩ := hx.noted.of_pure hrest
        cases ha
        exact ⟨.ended (.error (.mismatched expected)), rfl, fun _ => Meaning.runs_bind _ ho
          (Meaning.runs_bind _ ht (Meaning.runs_pure _ _ _)), hrecord, nofun⟩
      | panicked p =>
        obtain ⟨ha, rfl⟩ := hx.noted.of_pure hrest
        cases ha
        exact ⟨.ended (.error (.panicked .thunk p)), rfl, fun _ => Meaning.runs_bind _ ho
          (Meaning.runs_bind _ ht (Meaning.runs_pure _ _ _)), hrecord, fun _ => rfl⟩
    · simp only [descend_around] at h ⊢
      obtain ⟨_, y₁, ho, hrest⟩ := hx.noted.of_bind h
      obtain ⟨c, ha, hends⟩ := ih hrest
      refine ⟨c, ha, fun _ => Meaning.runs_bind _ ho (hends.runs _), ?_, hends.current⟩
      rw [hends.record, Functions.noted_observe hx ho]

/-- A slice comes to its end without regard to the treatment of panics. -/
theorem runSlice_ending (hx : M.Exact) {budget : ℕ} {t t' : Trampoline S} {a : Answer S}
    (h : M.noted.Runs (runSlice fns.noted catching budget t) y (a, t') y') :
    ∃ c, a = c.answer catching ∧
      EndsIn M (fun catching => runSlice fns.noted catching budget t) y c t' y' := by
  cases he : t.current with
  | none =>
    simp only [runSlice, he] at h ⊢
    obtain ⟨ha, rfl⟩ := hx.noted.of_pure h
    cases ha
    exact ⟨.refused, rfl, fun _ => Meaning.runs_pure _ _ _, (List.append_nil _).symm,
      fun h => absurd rfl h⟩
  | some e =>
    simp only [runSlice, he] at h ⊢
    exact descend_ending hx h

end Trampoline

/-! ### Two runs -/

/-- What is seen after a slice. -/
structure SliceReport (S : Signature) (σ : Type) where
  answer : Answer S
  trampoline : Trampoline S
  state : σ

section

variable (M fns)

/-- `Slices catching budgets t s reports`: slices with the given budgets, one after the other
whatever they answer, from the trampoline `t` and the state `s`. -/
inductive Slices (catching : Bool) :
    List ℕ → Trampoline S → σ → List (SliceReport S σ) → Prop where
  | nil {t : Trampoline S} {s : σ} : Slices catching [] t s []
  | cons {budget : ℕ} {budgets : List ℕ} {t t' : Trampoline S} {s s' : σ} {a : Answer S}
    {reports : List (SliceReport S σ)} :
    M.Runs (t.runSlice fns catching budget) s (a, t') s' → Slices catching budgets t' s' reports →
    Slices catching (budget :: budgets) t s (⟨a, t', s'⟩ :: reports)

end

/-- What is seen of a slice without the record of panics. -/
def SliceReport.bare (r : SliceReport S (σ × List Panic)) : SliceReport S σ :=
  ⟨r.answer, r.trampoline, r.state.1⟩

/-- The text under which the panic of a payload is reported. -/
inductive Payload.Reads : Payload → String → Prop where
  | literal (text : String) : Reads (.literal text) text
  | text (text : String) : Reads (.text text) text
  | number (n : ℤ) : Reads (.number n) "non-string panic payload"

theorem Payload.reads (p : Payload) : p.Reads p.message := by
  cases p with
  | literal text => exact .literal text
  | text text => exact .text text
  | number n => exact .number n

/-- Two runs of a trampoline slice by slice, the first with panics caught and the second without.
The state and the record of panics are part of what is seen. -/
inductive Parallel :
    List (SliceReport S (σ × List Panic)) → List (SliceReport S (σ × List Panic)) → Prop where
  | nil : Parallel [] []
  /-- While no function has panicked, everything is the same. -/
  | same {r : SliceReport S (σ × List Panic)} {on off : List (SliceReport S (σ × List Panic))} :
    r.state.2 = [] → Parallel on off → Parallel (r :: on) (r :: off)
  /-- A function has panicked in the slice, and it is the first one. Later slices are refused and
  change nothing. -/
  | panicked {stage : Stage} {p : Payload} {message : String} {t : Trampoline S}
    {y : σ × List Panic} {later : List (SliceReport S (σ × List Panic))} :
    y.2 = [⟨stage, p⟩] → p.Reads message →
    (∀ r ∈ later, r = ⟨.failed .alreadyCompleted, t, y⟩) →
    Parallel (⟨.failed (.panicked stage message), t, y⟩ :: later) (⟨.unwound p, t, y⟩ :: later)

/-- Without a panic the runs are the same. -/
theorem Parallel.eq {on off : List (SliceReport S (σ × List Panic))} (h : Parallel on off)
    (hnone : ∀ r ∈ on, r.state.2 = []) : off = on := by
  induction h with
  | nil => rfl
  | @same r on off _ _ ih => rw [ih fun r' hr' => hnone r' (List.mem_cons_of_mem _ hr')]
  | panicked hrecord =>
    have hnil := hnone _ (List.mem_cons_self ..)
    rw [hrecord] at hnil
    cases hnil

namespace Slices

variable {catching : Bool} {budgets : List ℕ} {t : Trampoline S}

/-- Slices are those with a record of panics, seen without it. -/
theorem iff_recorded (hx : M.Exact) {s : σ} (record : List Panic)
    {reports : List (SliceReport S σ)} :
    Slices M fns catching budgets t s reports ↔
      ∃ recorded, Slices M.noted fns.noted catching budgets t (s, record) recorded ∧
        recorded.map .bare = reports := by
  induction budgets generalizing t s record reports with
  | nil =>
    constructor
    · intro h
      cases h
      exact ⟨[], .nil, rfl⟩
    · rintro ⟨recorded, h, rfl⟩
      cases h
      exact .nil
  | cons budget budgets ih =>
    constructor
    · intro h
      cases h with
      | cons hr hrest =>
        obtain ⟨record', hr⟩ := (Trampoline.runSlice_records hx budget t).recorded record hr
        obtain ⟨recorded, hrecorded, rfl⟩ := (ih _).1 hrest
        exact ⟨_, .cons hr hrecorded, rfl⟩
    · rintro ⟨recorded, h, rfl⟩
      cases h with
      | cons hr hrest =>
        exact .cons ((Trampoline.runSlice_records hx budget t).plain hr)
          ((ih _).2 ⟨_, hrest, rfl⟩)

/-- Once the outcome is out, slices are refused, in whichever way panics are treated. -/
theorem refused (hx : M.Exact) {s : σ} {reports : List (SliceReport S σ)} (ht : t.current = none)
    (h : Slices M fns catching budgets t s reports) :
    (∀ r ∈ reports, r = ⟨.failed .alreadyCompleted, t, s⟩) ∧
      ∀ catching', Slices M fns catching' budgets t s reports := by
  induction budgets generalizing reports with
  | nil =>
    cases h
    exact ⟨nofun, fun _ => .nil⟩
  | cons budget budgets ih =>
    cases h with
    | cons hr hrest =>
      simp only [Trampoline.runSlice, ht] at hr
      obtain ⟨ha, rfl⟩ := hx.of_pure hr
      cases ha
      obtain ⟨hall, hany⟩ := ih hrest
      refine ⟨List.forall_mem_cons.2 ⟨rfl, hall⟩, fun catching' => .cons ?_ (hany catching')⟩
      simp only [Trampoline.runSlice, ht]
      exact M.runs_pure _ _

/-- Slices in which one treatment of panics is given have those with the other beside them. -/
theorem beside (hx : M.Exact) {reports : List (SliceReport S (σ × List Panic))} (hy : y.2 = [])
    (h : Slices M.noted fns.noted catching budgets t y reports) :
    ∃ reports', Slices M.noted fns.noted (!catching) budgets t y reports' ∧
      Parallel (if catching then reports else reports')
        (if catching then reports' else reports) := by
  induction h with
  | nil => exact ⟨[], .nil, by cases catching <;> exact .nil⟩
  | @cons budget budgets t t' y y' a reports hr hrest ih =>
    obtain ⟨c, rfl, hends⟩ := Trampoline.runSlice_ending hx hr
    have hrecord : y'.2 = c.panics := by rw [hends.record, hy, List.nil_append]
    cases hc : c.panics with
    | nil =>
      obtain ⟨reports', hrest', hparallel⟩ := ih (hrecord.trans hc)
      refine ⟨_, .cons (hends.runs _) hrest', ?_⟩
      rw [c.answer_eq hc catching (!catching)]
      cases catching
      · exact .same (hrecord.trans hc) hparallel
      · exact .same (hrecord.trans hc) hparallel
    | cons x xs =>
      -- The panic is answered as a failure on the one side and leaves the slice on the other.
      have hnone := hends.current (by rw [hc]; exact List.cons_ne_nil _ _)
      obtain ⟨hall, hany⟩ := refused hx.noted hnone hrest
      refine ⟨_, .cons (hends.runs _) (hany _), ?_⟩
      match c with
      | .ended (.error (.panicked stage p)) =>
        cases catching
        · exact .panicked hrecord p.reads hall
        · exact .panicked hrecord p.reads hall
      | .ended (.ok v) => cases hc
      | .ended (.error (.mismatched expected)) => cases hc
      | .suspended => cases hc
      | .refused => cases hc

end Slices

/-- Slices with panics caught and slices without run in parallel: what the ones do the others do
beside them, and if no function panics, they are the same. Seen without the record of panics, they
are the slices of the functions themselves. -/
theorem Trampoline.slices_parallel (hx : M.Exact) (fns : Functions S m) (budgets : List ℕ)
    (t : Trampoline S) (s : σ) :
    (∀ on, Slices M.noted fns.noted true budgets t (s, []) on →
      ∃ off, Slices M.noted fns.noted false budgets t (s, []) off ∧ Parallel on off) ∧
    (∀ off, Slices M.noted fns.noted false budgets t (s, []) off →
      ∃ on, Slices M.noted fns.noted true budgets t (s, []) on ∧ Parallel on off) ∧
    (∀ on off : List (SliceReport S (σ × List Panic)), Parallel on off →
      (∀ r ∈ on, r.state.2 = []) → off = on) ∧
    ∀ catching reports, Slices M fns catching budgets t s reports ↔
      ∃ recorded, Slices M.noted fns.noted catching budgets t (s, []) recorded ∧
        recorded.map .bare = reports :=
  ⟨fun _ hon => hon.beside hx rfl, fun _ hoff => hoff.beside hx rfl, fun _ _ => Parallel.eq,
    fun _ _ => Slices.iff_recorded hx []⟩

/-- What is pending when the first stage is called in `chained`. -/
def Stages.pending : Frames signature := Frames.empty.push (.map ()) |>.push (.flatMap .second)

/-- The first stage does not take 0, and its panic leaves the slice in which it is called. -/
theorem Stages.slices_parallel_chained : ∃ off,
    Slices (Meaning.state (List String)).noted functions.noted false [2, 2, 5]
      (.start (chained 0)) ([], []) off ∧
    Parallel
      [⟨.suspended, ⟨some (.flatMap (.sync (0 : ℕ)) Stages.first), pending, ⟨2, 1, 2⟩⟩, ([], [])⟩,
        ⟨.failed (.panicked .continuation "zero"), ⟨none, pending, ⟨4, 1, 3⟩⟩,
          (["first"], [⟨.continuation, .literal "zero"⟩])⟩,
        ⟨.failed .alreadyCompleted, ⟨none, pending, ⟨4, 1, 3⟩⟩,
          (["first"], [⟨.continuation, .literal "zero"⟩])⟩] off :=
  (Trampoline.slices_parallel (Meaning.state_exact _) functions [2, 2, 5]
    (.start (chained 0)) []).1 _ (.cons rfl (.cons rfl (.cons rfl .nil)))

end LazyEffects
