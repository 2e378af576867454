import LazyEffects.Proofs.NodeByNode

/-!
# Finished evaluations

A slice takes the next node out of the trampoline and puts one back in a single place: where its
budget ends. So the node is there exactly as long as the evaluation is not over, and an evaluation
that is over stays over, with whatever frames its failure has left behind.

* `Trampoline.descend_left`: a slice of an evaluation is suspended, or the evaluation is over;
* `Slices.finishing`: along any sequence of slices there is one such end at most;
* `Trampoline.finished_stays`: what this comes to for each slice and for those around it.
-/

namespace LazyEffects

variable {S : Signature} {m : Type → Type} [Monad m] {σ : Type}

/-- The answers in which an evaluation is over. -/
inductive Answer.Final (catching : Bool) : Answer S → Prop where
  | completed (v : S.Value) : Final catching (.completed v)
  | mismatched (expected : S.Ty) : Final catching (.failed (.typeMismatch (S.typeName expected)))
  | panicked (stage : Stage) (p : Payload) : catching = true →
    Final catching (.failed (.ofPanic stage p))
  | unwound (p : Payload) : catching = false → Final catching (.unwound p)

theorem Answer.ofVerdict_final (catching : Bool) (w : Verdict S) :
    (Answer.ofVerdict catching w).Final catching := by
  match w with
  | .ok v => exact .completed v
  | .error (.mismatched expected) => exact .mismatched expected
  | .error (.panicked stage p) =>
    cases catching with
    | false => exact .unwound p rfl
    | true => exact .panicked stage p rfl

namespace Answer.Final

variable {catching : Bool} {a : Answer S}

theorem ne_suspended (h : a.Final catching) : a ≠ .suspended := by
  cases h <;> nofun

theorem ne_refused (h : a.Final catching) : a ≠ .failed .alreadyCompleted := by
  cases h with
  | panicked stage p => cases stage <;> nofun
  | _ => nofun

end Answer.Final

/-- Every slice is refused, whatever the functions are: it calls none of them and leaves the
trampoline as it is. -/
def Trampoline.Refuses (t : Trampoline S) : Prop :=
  ∀ {m : Type → Type} [Monad m] (fns : Functions S m) (catching : Bool) (budget : ℕ),
    t.runSlice fns catching budget = pure (.failed .alreadyCompleted, t)

/-- How a slice leaves an evaluation. -/
inductive Trampoline.Left (catching : Bool) : Answer S × Trampoline S → Prop where
  /-- There is a node to go on with. -/
  | waiting (e : Effect S) (stack : Frames S) (stats : Stats) :
    Left catching (.suspended, ⟨some e, stack, stats⟩)
  /-- It is over. -/
  | done {a : Answer S} (stack : Frames S) (stats : Stats) : a.Final catching →
    Left catching (a, ⟨none, stack, stats⟩)

namespace Trampoline

theorem refuses {t : Trampoline S} (h : t.current = none) : t.Refuses := by
  intro m _ fns catching budget
  simp only [runSlice, h]

variable [LawfulMonad m]

/-- A slice goes into nodes until its budget is used up or the evaluation is over. -/
theorem descend_left (fns : Functions S m) (catching : Bool) (n : ℕ) (e : Effect S)
    (stack : Frames S) (stats : Stats) :
    Yields (Left catching) (descend fns catching n e stack stats) := by
  induction n generalizing e stack stats with
  | zero => exact (Yields.any _).bind fun _ _ => .pure (.waiting e stack stats.suspend)
  | succ n ih =>
    rw [descend_succ]
    refine (Yields.any _).bind fun _ _ => (pass_proper fns catching e stack).bind fun q hq => ?_
    cases q with
    | next e' rest => exact ih e' rest _
    | answer a rest =>
      obtain ⟨w, rfl⟩ := hq
      exact .pure (.done rest _ (Answer.ofVerdict_final catching w))

theorem runSlice_left (fns : Functions S m) (catching : Bool) (budget : ℕ) {t : Trampoline S}
    (h : t.current.isSome) : Yields (Left catching) (t.runSlice fns catching budget) := by
  obtain ⟨e, he⟩ := Option.isSome_iff_exists.1 h
  simp only [runSlice, he]
  exact descend_left fns catching budget e t.stack t.stats

end Trampoline

/-- Slices of an evaluation up to its end, and what comes after it. -/
inductive Finishing (catching : Bool) : List (SliceReport S σ) → Prop where
  | nil : Finishing catching []
  | suspended {r : SliceReport S σ} {reports : List (SliceReport S σ)} :
    r.answer = .suspended → r.trampoline.current.isSome → Finishing catching reports →
    Finishing catching (r :: reports)
  | done {r : SliceReport S σ} {reports : List (SliceReport S σ)} :
    r.answer.Final catching → r.trampoline.current = none →
    (∀ r' ∈ reports, r' = ⟨.failed .alreadyCompleted, r.trampoline, r.state⟩) →
    Finishing catching (r :: reports)

namespace Finishing

variable {catching : Bool} {reports : List (SliceReport S σ)}

/-- A node is there exactly if the slice was suspended. -/
theorem current_iff (h : Finishing catching reports) :
    ∀ r ∈ reports, r.trampoline.current.isSome ↔ r.answer = .suspended := by
  induction h with
  | nil => nofun
  | suspended ha hcurrent _ ih => exact List.forall_mem_cons.2 ⟨by simp [ha, hcurrent], ih⟩
  | done ha hcurrent hrest =>
    refine List.forall_mem_cons.2 ⟨by simp [ha.ne_suspended, hcurrent], fun r' hr' => ?_⟩
    rw [hrest r' hr']
    simp [hcurrent]

/-- A slice is suspended, the end, or refused. -/
theorem answers (h : Finishing catching reports) :
    ∀ r ∈ reports, r.answer = .suspended ∨ r.answer.Final catching ∨
      r.answer = .failed .alreadyCompleted := by
  induction h with
  | nil => nofun
  | suspended ha _ _ ih => exact List.forall_mem_cons.2 ⟨.inl ha, ih⟩
  | done ha _ hrest =>
    refine List.forall_mem_cons.2 ⟨.inr (.inl ha), fun r' hr' => .inr (.inr ?_)⟩
    rw [hrest r' hr']

/-- After the end nothing happens. -/
theorem refused {before after : List (SliceReport S σ)} {r : SliceReport S σ}
    (h : Finishing catching (before ++ r :: after)) (hr : r.answer.Final catching) :
    r.trampoline.current = none ∧
      ∀ r' ∈ after, r' = ⟨.failed .alreadyCompleted, r.trampoline, r.state⟩ := by
  induction before with
  | nil =>
    cases h with
    | suspended ha => exact absurd ha hr.ne_suspended
    | done _ hcurrent hrest => exact ⟨hcurrent, hrest⟩
  | cons r₀ before ih =>
    cases h with
    | suspended _ _ hrest => exact ih hrest
    | done _ _ hrest =>
      have hr₀ := hrest r (List.mem_append_right _ (List.mem_cons_self ..))
      exact absurd (congrArg SliceReport.answer hr₀) hr.ne_refused

/-- Before a slice is refused, there is the end. -/
theorem ended {before after : List (SliceReport S σ)} {r : SliceReport S σ}
    (h : Finishing catching (before ++ r :: after)) (hr : r.answer = .failed .alreadyCompleted) :
    ∃ r₀ ∈ before, r₀.answer.Final catching := by
  induction before with
  | nil =>
    cases h with
    | suspended ha => exact absurd (ha.symm.trans hr) nofun
    | done ha => exact absurd hr ha.ne_refused
  | cons r₀ before ih =>
    cases h with
    | suspended _ _ hrest =>
      obtain ⟨r₁, hmem, ha⟩ := ih hrest
      exact ⟨r₁, List.mem_cons_of_mem _ hmem, ha⟩
    | done ha => exact ⟨r₀, List.mem_cons_self .., ha⟩

end Finishing

namespace Slices

variable [LawfulMonad m] {M : Meaning m σ} {fns : Functions S m} {catching : Bool}
  {budgets : List ℕ} {t : Trampoline S} {s : σ} {reports : List (SliceReport S σ)}

/-- Slices of an evaluation that is not over yet. -/
theorem finishing (hx : M.Exact) (ht : t.current.isSome)
    (h : Slices M fns catching budgets t s reports) : Finishing catching reports := by
  induction h with
  | nil => exact .nil
  | cons hr hrest ih =>
    cases (Trampoline.runSlice_left fns catching _ ht).of_runs hx hr with
    | waiting e stack stats => exact .suspended rfl rfl (ih rfl)
    | done stack stats ha => exact .done ha rfl (refused hx rfl hrest).1

end Slices

/-- Once a slice has come to the end of an evaluation, the evaluation stays as it is. -/
structure Finality (catching : Bool) (reports : List (SliceReport S σ)) : Prop where
  /-- There is a node to go on with exactly after a suspension. -/
  current : ∀ r ∈ reports, r.trampoline.current.isSome ↔ r.answer = .suspended
  /-- Every slice is suspended, the end of the evaluation, or refused. -/
  answers : ∀ r ∈ reports, r.answer = .suspended ∨ r.answer.Final catching ∨
    r.answer = .failed .alreadyCompleted
  /-- After the end every slice is refused. -/
  refused {before after : List (SliceReport S σ)} {r : SliceReport S σ} :
    reports = before ++ r :: after → r.answer.Final catching →
    r.trampoline.Refuses ∧ ∀ r' ∈ after, r' = ⟨.failed .alreadyCompleted, r.trampoline, r.state⟩
  /-- No slice is refused before the end. -/
  ended {before after : List (SliceReport S σ)} {r : SliceReport S σ} :
    reports = before ++ r :: after → r.answer = .failed .alreadyCompleted →
    ∃ r₀ ∈ before, r₀.answer.Final catching

theorem Finishing.finality {catching : Bool} {reports : List (SliceReport S σ)}
    (h : Finishing catching reports) : Finality catching reports where
  current := h.current_iff
  answers := h.answers
  refused hreports hr := by
    subst hreports
    obtain ⟨hcurrent, hafter⟩ := h.refused hr
    exact ⟨Trampoline.refuses hcurrent, hafter⟩
  ended hreports hr := by
    subst hreports
    exact h.ended hr

/-- An evaluation that has come to its end stays as the end left it, whatever the budgets are. -/
theorem Trampoline.finished_stays [LawfulMonad m] {M : Meaning m σ} (hx : M.Exact)
    {fns : Functions S m} {catching : Bool} {budgets : List ℕ} {root : Effect S} {s : σ}
    {reports : List (SliceReport S σ)}
    (h : Slices M fns catching budgets (.start root) s reports) : Finality catching reports :=
  (h.finishing hx rfl).finality

/-- The first stage does not take 0. With panics not caught, its panic leaves the slice, and two
frames are left behind for good. -/
theorem Stages.finished_stays_chained : Finality false
    [⟨.suspended, ⟨some (.flatMap (.sync (0 : ℕ)) Stages.first), pending, ⟨2, 1, 2⟩⟩, []⟩,
      ⟨.unwound (.literal "zero"), ⟨none, pending, ⟨4, 1, 3⟩⟩, ["first"]⟩,
      ⟨.failed .alreadyCompleted, ⟨none, pending, ⟨4, 1, 3⟩⟩, ["first"]⟩,
      ⟨.failed .alreadyCompleted, ⟨none, pending, ⟨4, 1, 3⟩⟩, ["first"]⟩] :=
  have hslices : Slices (.state _) functions false [2, 2, 0, 5] (.start (chained 0)) [] _ :=
    .cons rfl (.cons rfl (.cons rfl (.cons rfl .nil)))
  Trampoline.finished_stays (Meaning.state_exact _) hslices

end LazyEffects
