import LazyEffects.Proofs.Resumptions

/-!
# Runs take turns

An event loop is fair to the runs that are suspended for the same time: between two resumptions of
one of them, each of the others that is pending when it is suspended is resumed exactly once, and
none that starts later is. What they do in their slices does not matter, nor how long they go on,
provided that they do not pump the event loop themselves.

* `Machine.session_fair`: in every session an event loop is fair to its runs.
-/

namespace LazyEffects

variable {K : Codes} {M : Type}

namespace Machine

variable {client : Client K M} {l : LoopId} {m : Machine K M} {ρ ρ' : Run K} {n p q s t u : ℕ}
  {b : Timer (Task K)}

/-- The event loop is fair to its runs. -/
structure Fair (client : Client K M) (l : LoopId) (m : Machine K M) : Prop where
  /-- Between two consecutive resumptions a run is suspended once, and until then the event loop
  starts no task. -/
  suspends {ρ : Run K} {p q : ℕ} : m.Consecutive client l ρ p q →
    ∃ t, (p < t ∧ t < q ∧ (m.run client t).Suspends ρ) ∧
      (∀ u, p < u → u < q → (m.run client u).Suspends ρ → u = t) ∧
      ∀ u, p < u → u ≤ t → (m.run client u).leaves l = none
  /-- A run that is pending at that moment, and is suspended for the same time, is resumed exactly
  once. -/
  once {ρ ρ' : Run K} {p t q : ℕ} : m.Consecutive client l ρ p q → p < t → t < q →
    (m.run client t).Suspends ρ → (m.run client t).Pending l ρ' →
    ρ'.config.resumeDelay = ρ.config.resumeDelay →
    ∃! u, p < u ∧ u < q ∧ (m.run client u).Resumes l ρ'
  /-- A run that starts afterwards, and is suspended for the same time, is not resumed before. -/
  later {ρ ρ' : Run K} {p t q s u : ℕ} : m.Consecutive client l ρ p q → p < t → t < q →
    (m.run client t).Suspends ρ → ρ' ∈ (m.run client s).starts → t < s →
    ρ'.config.resumeDelay = ρ.config.resumeDelay → (m.run client u).Resumes l ρ' → q ≤ u
  /-- However long a run goes on, it is not resumed twice before another one that is pending, and is
  suspended for the same time. -/
  progress {ρ ρ' : Run K} {n p q : ℕ} : (m.run client n).Pending l ρ' →
    ρ'.config.resumeDelay = ρ.config.resumeDelay → n ≤ p → p < q →
    (m.run client p).Resumes l ρ → (m.run client q).Resumes l ρ →
    ∃ u, n ≤ u ∧ u < q ∧ (m.run client u).Resumes l ρ'

namespace Consecutive

variable (h : m.Consecutive client l ρ p q) (hm : m.IsInitial) (hp : p < t) (hq : t < q)
  (ht : (m.run client t).Suspends ρ) (hdelay : ρ'.config.resumeDelay = ρ.config.resumeDelay)

include h hm hp hq ht hdelay

/-- A run that has come before `ρ` is suspended is started before `ρ` is resumed. -/
theorem exists_leaves (hn : (m.run client n).enters l = some b) (hb : b.task.ticket = .run ρ')
    (hnt : n < t) : ∃ u, n < u ∧ u < q ∧ (m.run client u).leaves l = some b := by
  obtain ⟨a, ha, hρ, hleaves⟩ := h.enters hm hp hq ht
  obtain ⟨hfa, -⟩ := hm.focus_of_enters ha hρ
  obtain ⟨hfb, -⟩ := hm.focus_of_enters hn hb
  rw [hdelay] at hfb
  exact first_come hm.loops hfb hfa hn ha hnt hleaves

/-- A run that does not come before `ρ` is suspended is not started before `ρ` is resumed. -/
theorem le_of_enters (hn : (m.run client n).enters l = some b) (hb : b.task.ticket = .run ρ')
    (htn : t ≤ n) (hu : (m.run client u).leaves l = some b) : q ≤ u := by
  obtain ⟨a, ha, hρ, hleaves⟩ := h.enters hm hp hq ht
  rcases htn.eq_or_lt with rfl | hlt
  · rw [ha] at hn
    cases hn
    exact (leaves_unique hm.loops hleaves hu).le
  · obtain ⟨hfa, -⟩ := hm.focus_of_enters ha hρ
    obtain ⟨hfb, -⟩ := hm.focus_of_enters hn hb
    rw [hdelay] at hfb
    obtain ⟨v, -, hv, hleaves'⟩ := first_come hm.loops hfa hfb ha hn hlt hu
    cases leaves_unique hm.loops hleaves hleaves'
    exact hv.le

/-- A run that is pending as `ρ` is suspended is resumed before `ρ` is. -/
theorem exists_resumes (hpending : (m.run client n).Pending l ρ') (hnt : n ≤ t) :
    ∃ u, n ≤ u ∧ u < q ∧ (m.run client u).Resumes l ρ' := by
  obtain ⟨s, b, hs, hb, hρ⟩ := hpending.exists_timer
  obtain ⟨⟨j, hj, henters⟩, hnot⟩ := enters_of_mem_heap hm.loops hs hb
  obtain ⟨u, -, huq, hu⟩ := h.exists_leaves hm hp hq ht hdelay henters hρ (hj.trans_le hnt)
  exact ⟨u, Nat.le_of_not_lt fun hlt => hnot u hlt hu, huq, b, hu, hρ⟩

theorem once (hflat : m.Flat client l) (hpending : (m.run client t).Pending l ρ') :
    ∃! u, p < u ∧ u < q ∧ (m.run client u).Resumes l ρ' := by
  obtain ⟨s, b, hs, hb, hρ⟩ := hpending.exists_timer
  -- Whoever is resumed in between is the one that is pending.
  have honly {u : ℕ} (hpu : p < u) (huq : u < q) (hresumes : (m.run client u).Resumes l ρ') :
      (m.run client u).leaves l = some b := by
    obtain ⟨b', hb', hρ'⟩ := hresumes
    obtain ⟨j, -, henters⟩ := exists_enters hm.loops hb'
    have hjt : j < t := by
      by_contra hle
      have := h.le_of_enters hm hp hq ht hdelay henters hρ' (Nat.le_of_not_lt hle) hb'
      omega
    rcases mem_heap_or_leaves hm.loops hs henters hjt with hmem | ⟨v, -, hvt, hv⟩
    · cases (hm.session client t).timer_unique hs hb hρ hmem hρ'
      exact hb'
    · cases leaves_unique hm.loops hv hb'
      rw [h.leaves_eq_none hm hflat hp hq ht hpu hvt.le] at hb'
      cases hb'
  obtain ⟨u, htu, huq, hu⟩ := h.exists_resumes hm hp hq ht hdelay hpending le_rfl
  refine ⟨u, ⟨hp.trans_le htu, huq, hu⟩, ?_⟩
  rintro v ⟨hpv, hvq, hv⟩
  exact leaves_unique hm.loops (honly hpv hvq hv) (honly (hp.trans_le htu) huq hu)

theorem later (hs : ρ' ∈ (m.run client s).starts) (hts : t < s)
    (hu : (m.run client u).Resumes l ρ') : q ≤ u := by
  obtain ⟨b, hb, hρ⟩ := hu
  obtain ⟨j, -, henters⟩ := exists_enters hm.loops hb
  refine h.le_of_enters hm hp hq ht hdelay henters hρ ?_ hb
  have hsuspends : (m.run client j).Suspends ρ' :=
    ⟨_, _, _, (hm.focus_of_enters henters hρ).1, hρ⟩
  exact (hts.trans (hm.lt_of_starts hs (inHand_of_suspends hsuspends))).le

end Consecutive

/-- In every session an event loop is fair to its runs, unless it is pumped from within its own
tasks. -/
theorem session_fair (client : Client K M) (l : LoopId) (clock : Clock) (memory : M)
    (main : Script K M Ending) (hflat : (initial (World.initial clock memory) main).Flat client l) :
    Fair client l (initial (World.initial clock memory) main) := by
  have hm : (initial (World.initial clock memory) main).IsInitial := ⟨clock, memory, main, rfl⟩
  constructor
  · exact fun h => h.suspends hm hflat
  · exact fun h hp hq ht hpending hdelay => h.once hm hp hq ht hdelay hflat hpending
  · exact fun h hp hq ht hs hts hdelay hu => h.later hm hp hq ht hdelay hs hts hu
  · intro ρ ρ' n p q hpending hdelay hnp hpq hp hq
    obtain ⟨q', hq', h⟩ := exists_consecutive hp hq hpq
    obtain ⟨t, ⟨hpt, htq, ht⟩, -⟩ := h.suspends hm hflat
    obtain ⟨u, hnu, huq, hu⟩ :=
      h.exists_resumes hm hpt htq ht hdelay hpending (hnp.trans hpt.le)
    exact ⟨u, hnu, huq.trans_le hq', hu⟩

end Machine

/-! ### Two runs on one event loop -/

namespace Twins

open Machine

/-- An effect with two stages after the first. -/
def staged : Program Twins.signature := ⟨.map (.map (.sync true) true) true, ()⟩

/-- The run of number `i`, whose slices visit `budget` nodes. -/
def stagedRun (i budget : ℕ) : Run Twins :=
  ⟨⟨i⟩, (), .callbacks () .log, .eventLoop ⟨0⟩, ⟨budget, .zero, true⟩⟩

/-- Two runs with different budgets start on an event loop, which is then run until it is idle. -/
def alternating : Machine Twins (List String × List String) :=
  initial (.initial .still ([], [])) <|
    .ask .openLoop fun _ =>
      .ask (.start ⟨.eventLoop ⟨0⟩, ⟨1, .zero, true⟩, .log⟩ staged ()) fun _ =>
        .ask (.start ⟨.eventLoop ⟨0⟩, ⟨2, .zero, true⟩, .log⟩ staged ()) fun _ =>
          .ask (.runUntilIdle ⟨0⟩) fun _ => .done (.ok ())

/-- If the event loop is about to be pumped, no task of it is running. -/
def level (m : Machine Twins (List String × List String)) : Bool :=
  match m.focus with
  | .request r => !r.pumps ⟨0⟩ || credits ⟨0⟩ m.control == 0
  | _ => true

theorem alternating_flat : alternating.Flat client ⟨0⟩ := by
  intro n r hf hpumps
  have hover : ((alternating.run client 58).step client).isNone = true := by cbv
  have hover := Option.isNone_iff_eq_none.1 hover
  have hlevel : (List.range 58).all (fun n => level (alternating.run client n)) = true := by cbv
  by_cases hn : n < 58
  · have hzero := List.all_eq_true.1 hlevel n (List.mem_range.2 hn)
    rw [level, hf] at hzero
    simp only [hpumps, Bool.not_true, Bool.false_or, beq_iff_eq] at hzero
    exact not_pumped_of_credits (by rw [hf]; rfl) hzero
  · rw [run_eq_of_le hover (Nat.le_of_not_lt hn)] at hf
    obtain ⟨-, a, hanswer⟩ := step_eq_none hover
    rw [hanswer] at hf
    cases hf

/-- The first run is resumed twice. -/
theorem alternating_consecutive :
    alternating.Consecutive client ⟨0⟩ (stagedRun 0 1) 22 41 where
  lt := by decide
  first := by
    have hleaves : ((alternating.run client 22).leaves ⟨0⟩).map (·.task.ticket) =
        some (.run (stagedRun 0 1)) := by cbv
    exact Option.map_eq_some_iff.1 hleaves
  next := by
    have hleaves : ((alternating.run client 41).leaves ⟨0⟩).map (·.task.ticket) =
        some (.run (stagedRun 0 1)) := by cbv
    exact Option.map_eq_some_iff.1 hleaves
  between {u} hu hlt := by
    have hothers : (List.range' 23 18).all (fun u => ((alternating.run client u).leaves ⟨0⟩).all
        fun timer => !timer.task.ticket.isRun ⟨0⟩) = true := by cbv
    have hother := List.all_eq_true.1 hothers u (List.mem_range'_1.2 ⟨hu, hlt⟩)
    rintro ⟨timer, hleaves, hticket⟩
    rw [hleaves, Option.all_some, hticket] at hother
    cases hother

/-- The first run is suspended while the second is pending, and the second is resumed once before
the first is resumed again. -/
theorem alternating_fair : alternating.Flat client ⟨0⟩ ∧ Fair client ⟨0⟩ alternating ∧
    ∃! u, 22 < u ∧ u < 41 ∧ (alternating.run client u).Resumes ⟨0⟩ (stagedRun 1 2) := by
  have hfair : Fair client ⟨0⟩ alternating :=
    session_fair client ⟨0⟩ .still ([], []) _ alternating_flat
  have hsuspends : (alternating.run client 28).Suspends (stagedRun 0 1) := by
    refine ⟨.eventLoop ⟨0⟩, .zero, .resume ⟨stagedRun 0 1, ⟨some (.sync true),
      .push (.push .empty (.map true)) (.map true), ⟨2, 2, 2⟩⟩⟩, ?_, rfl⟩
    cbv
  have hpending : (alternating.run client 28).Pending ⟨0⟩ (stagedRun 1 2) := by
    have htasks : ((alternating.run client 28).world.contents (.eventLoop ⟨0⟩)).map
        Task.ticket = [.run (stagedRun 1 2)] := by cbv
    exact List.mem_map.1 (by rw [htasks]; exact List.mem_singleton_self _)
  exact ⟨alternating_flat, hfair,
    hfair.once alternating_consecutive (by decide) (by decide) hsuspends hpending rfl⟩

end Twins

end LazyEffects
