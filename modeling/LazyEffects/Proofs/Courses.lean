import LazyEffects.Proofs.Scripts
import Mathlib.Algebra.Order.Floor.Div

/-!
# The course of a run

A run is evaluated slice by slice, and between its slices others act. As long as they leave alone
the part of the memory on which the functions of the run work, what the run has come to depends only
on the slices that it has had (`Errand.Course`).

* `Errand.Ends.evaluates`: all slices but the last visit as many nodes as they may, and together
  they are a direct evaluation;
* `Errand.Ends.of_evaluates`: if the functions ask for nothing and work on their own part, there is
  no other end than that of the direct evaluation;
* `Errand.Ends.unique`: such functions bring the run to one end only, in one way.
-/

namespace LazyEffects

open Deed

variable {K : Codes} {M A α β : Type}

/-! ### Scripts among others -/

/-- `x.Leads own memory a memory'`: begun with `memory`, the script may be over with `a` and leave
`memory'`. While it waits for an answer, which may be any, others act and leave `own` alone. -/
inductive Script.Leads (own : M → A) : Script K M α → M → α → M → Prop where
  | done {a : α} {memory : M} : Leads own (.done a) memory a memory
  | update {f : M → M} {next : M → Script K M α} {a : α} {memory memory' : M} :
    Leads own (next (f memory)) (f memory) a memory' → Leads own (.update f next) memory a memory'
  | ask {r : Request K} {next : Except Payload (Reply K) → Script K M α}
    {answer : Except Payload (Reply K)} {a : α} {memory memory₁ memory' : M} :
    own memory₁ = own memory → Leads own (next answer) memory₁ a memory' →
    Leads own (.ask r next) memory a memory'

/-- `x.May own s a s'`: begun with `s` as part of the memory, the script may be over with `a` and
leave `s'` of it, if the rest of the memory may be anything at any time. -/
inductive Script.May (own : M → A) : Script K M α → A → α → A → Prop where
  | done {a : α} {s : A} : May own (.done a) s a s
  | update {f : M → M} {next : M → Script K M α} {a : α} {memory : M} {s : A} :
    May own (next (f memory)) (own (f memory)) a s → May own (.update f next) (own memory) a s
  | ask {r : Request K} {next : Except Payload (Reply K) → Script K M α}
    {answer : Except Payload (Reply K)} {a : α} {s s' : A} :
    May own (next answer) s a s' → May own (.ask r next) s a s'

theorem Script.Leads.may {own : M → A} {x : Script K M α} {a : α} {memory memory' : M}
    (h : x.Leads own memory a memory') : x.May own (own memory) a (own memory') := by
  induction h with
  | done => exact .done
  | update _ ih => exact .update ih
  | ask ho _ ih =>
    rw [ho] at ih
    exact .ask ih

/-- A script that asks for nothing leads to the end that it comes to. -/
theorem Script.Ends.leads {own : M → A} {x : Script K M α} {a : α} {memory memory' : M}
    (h : x.Ends memory a memory') : x.Leads own memory a memory' := by
  induction h with
  | done => exact .done
  | update _ ih => exact .update ih

/-- A script that asks for nothing leads nowhere else. -/
theorem Script.Ends.unique {own : M → A} {x : Script K M α} {a b : α} {memory memory' memory'' : M}
    (h : x.Ends memory a memory') (hl : x.Leads own memory b memory'') :
    b = a ∧ memory'' = memory' := by
  induction h with
  | done =>
    cases hl
    exact ⟨rfl, rfl⟩
  | update _ ih =>
    cases hl with
    | update hl => exact ih hl

/-- What scripts may do to a part of the memory, if anything may happen to the rest of it and they
may be answered in any way. -/
def Meaning.amidst (own : M → A) : Meaning (Script K M) A where
  Runs x s a s' := x.May own s a s'
  runs_pure _ _ := .done
  runs_bind {_ _ x f _ _ _ _ _} hx hf := by
    change (x.bind f).May own _ _ _
    induction hx with
    | done => exact hf
    | update _ ih => exact .update (ih hf)
    | ask _ ih => exact .ask (ih hf)

theorem Script.May.of_bind {own : M → A} {x : Script K M α} {f : α → Script K M β} {b : β}
    {s s'' : A} (h : (x.bind f).May own s b s'') :
    ∃ a s', x.May own s a s' ∧ (f a).May own s' b s'' := by
  induction x generalizing s with
  | done a => exact ⟨a, s, .done, h⟩
  | update g next ih =>
    cases h with
    | update h =>
      obtain ⟨a, s', hx, hf⟩ := ih _ h
      exact ⟨a, s', .update hx, hf⟩
  | ask r next ih =>
    cases h with
    | ask h =>
      obtain ⟨a, s', hx, hf⟩ := ih _ h
      exact ⟨a, s', .ask hx, hf⟩

theorem Meaning.amidst_exact (own : M → A) : (Meaning.amidst (K := K) own).Exact where
  of_pure h := by
    cases h
    exact ⟨rfl, rfl⟩
  of_bind h := h.of_bind

theorem Client.Spares.quiet {client : Client K M} {own : M → A} (h : client.Spares own) :
    client.functions.Quiet (.amidst own) := by
  intro e s s' hr
  cases hr with
  | @update f next _ memory _ hr =>
    cases hr
    exact h e memory

/-! ### Slice by slice -/

/-- An effect that is to be evaluated slice by slice, and what its functions find to begin with. -/
structure Errand (K : Codes) (A : Type) where
  root : Effect K.signature
  config : Config
  start : A

namespace Errand

section

variable (client : Client K M) (own : M → A) (E : Errand K A)

/-- The number of nodes that a slice may visit. -/
abbrev budget : ℕ := E.config.stepBudget

/-- The script of a slice. -/
def slice (t : Trampoline K.signature) :
    Script K M (Answer K.signature × Trampoline K.signature) :=
  t.runSlice client.functions E.config.catchPanics E.budget

/-- A slice that finds `x` may end with `out` and leave `x'`. -/
def Slice (t : Trampoline K.signature) (x : A) (out : Answer K.signature × Trampoline K.signature)
    (x' : A) : Prop :=
  ∃ memory memory', own memory = x ∧ own memory' = x' ∧
    (E.slice client t).Leads own memory out memory'

/-- After `k` slices the evaluation may be at `t`, and what its functions work on at `x`. -/
inductive Course : ℕ → Trampoline K.signature → A → Prop where
  | start : Course 0 (.start E.root) E.start
  | slice {k : ℕ} {t t' : Trampoline K.signature} {x x' : A} :
    Course k t x → E.Slice client own t x (.suspended, t') x' → Course (k + 1) t' x'

/-- After `k` slices, the next one may be the last and end with `a`. -/
def Ends (k : ℕ) (a : Answer K.signature) (t' : Trampoline K.signature) (x' : A) : Prop :=
  ∃ t x, E.Course client own k t x ∧ E.Slice client own t x (a, t') x' ∧ a ≠ .suspended

end

variable {client : Client K M} {own : M → A} {E : Errand K A} {k : ℕ}
  {t t' : Trampoline K.signature} {x x' y : A} {a : Answer K.signature} {e : Effect K.signature}
  {w : Verdict K.signature} {deeds : List (Deed K.signature)}

theorem slice_eq (he : t.current = some e) : E.slice client t =
    Trampoline.descend client.functions E.config.catchPanics E.budget e t.stack t.stats := by
  rw [slice, Trampoline.runSlice, he]

/-- What a slice has done: it has come to the end of the evaluation, or it has got as far as its
budget goes. -/
theorem Slice.cases (hs : client.Spares own) (he : t.current = some e)
    (h : E.Slice client own t x (a, t') x') :
    (∃ w l, a = .ofVerdict E.config.catchPanics w ∧ t'.stats = t.stats.after l ∧
      (visited l).length ≤ E.budget ∧
        Completes (.amidst own) client.functions e t.stack.list x w l x') ∨
    ∃ e₁ l₁, a = .suspended ∧ t'.current = some e₁ ∧ t'.stats = (t.stats.after l₁).suspend ∧
      (visited l₁).length = E.budget ∧ ∀ w l x'',
        Completes (.amidst own) client.functions e₁ t'.stack.list x' w l x'' →
          Completes (.amidst own) client.functions e t.stack.list x w (l₁ ++ l) x'' := by
  obtain ⟨memory, memory', rfl, rfl, hl⟩ := h
  rw [slice_eq he] at hl
  exact Trampoline.completes_of_descend (Meaning.amidst_exact own) hs.quiet hl.may

/-- Each of the slices has visited as many nodes as it may, what was done gives the counters, and
whatever follows completes a direct evaluation. -/
theorem Course.counted (hs : client.Spares own) (h : E.Course client own k t x) :
    ∃ e l, t.current = some e ∧ (visited l).length = k * E.budget ∧
      t.stats = Stats.zero.pausing k l ∧ ∀ w l' x',
        Completes (.amidst own) client.functions e t.stack.list x w l' x' →
          Evaluates (.amidst own) client.functions 0 E.root E.start w (l ++ l') x' := by
  -- Slice by slice: what a suspended slice has done is put behind what was done before.
  induction h with
  | start =>
    refine ⟨E.root, [], rfl, (Nat.zero_mul _).symm, rfl, ?_⟩
    exact fun w l' x' hc => completes_nil_iff.1 hc
  | @slice k t t' x x' _ hslice ih =>
    obtain ⟨e, l, he, hl, hcounted, hrest⟩ := ih
    rcases hslice.cases hs he with
      ⟨w, -, ha, -⟩ | ⟨e₁, l₁, -, he₁, hstats, hl₁, hrest₁⟩
    · exact absurd ha.symm (Answer.ofVerdict_ne_suspended _ w)
    · refine ⟨e₁, l ++ l₁, he₁, ?_, ?_, fun w l' x'' hc => ?_⟩
      · rw [visited_append, List.length_append, hl, hl₁, Nat.add_one_mul]
      · rw [hstats, hcounted, Stats.pausing_suspended]
      · rw [List.append_assoc]
        exact hrest w _ x'' (hrest₁ w l' x'' hc)

theorem Course.evaluates (hs : client.Spares own) (h : E.Course client own k t x) :
    ∃ e l, t.current = some e ∧ (visited l).length = k * E.budget ∧
      t.stats.steps = k * E.budget ∧ t.stats.suspensions = k ∧ ∀ w l' x',
        Completes (.amidst own) client.functions e t.stack.list x w l' x' →
          Evaluates (.amidst own) client.functions 0 E.root E.start w (l ++ l') x' := by
  obtain ⟨e, l, he, hl, hcounted, hrest⟩ := h.counted hs
  refine ⟨e, l, he, hl, ?_, ?_, hrest⟩
  · rw [hcounted, Stats.pausing_steps, hl]
    exact Nat.zero_add _
  · rw [hcounted, Stats.pausing_suspensions]
    exact Nat.zero_add k

/-- A slice of a course visits all nodes that it may, or it is the last and visits at least one. -/
theorem Course.steps_slice (hs : client.Spares own) (h : E.Course client own k t x)
    (hslice : E.Slice client own t x (a, t') x') :
    (a = .suspended ∧ t'.stats.steps = t.stats.steps + E.budget) ∨
      (a ≠ .suspended ∧ t.stats.steps < t'.stats.steps ∧
        t'.stats.steps ≤ t.stats.steps + E.budget) := by
  obtain ⟨e, -, he, -⟩ := h.evaluates hs
  rcases hslice.cases hs he with ⟨w, l, rfl, hstats, hl, hc⟩ | ⟨e₁, l₁, rfl, -, hstats, hl, -⟩
  · have hpos := hc.visited_ne_nil
    refine .inr ⟨Answer.ofVerdict_ne_suspended _ w, ?_⟩
    rw [hstats, Stats.after_steps]
    omega
  · refine .inl ⟨rfl, ?_⟩
    rw [hstats, ← hl]
    exact Stats.after_steps _ _

/-- The slices up to the last make up a direct evaluation, which gives the counters, and all but the
last have visited as many nodes as they may. -/
theorem Ends.counted (hs : client.Spares own) (h : E.Ends client own k a t' x') :
    ∃ w l, a = .ofVerdict E.config.catchPanics w ∧
      Evaluates (.amidst own) client.functions 0 E.root E.start w l x' ∧
        t'.stats = Stats.zero.pausing k l ∧
          k * E.budget < (visited l).length ∧ (visited l).length ≤ (k + 1) * E.budget := by
  obtain ⟨t, x, hcourse, hslice, ha⟩ := h
  obtain ⟨e, l, he, hl, hcounted, hrest⟩ := hcourse.counted hs
  rcases hslice.cases hs he with ⟨w, l₁, rfl, hstats, hl₁, hc⟩ | ⟨-, -, rfl, -⟩
  · have hpos := hc.visited_ne_nil
    refine ⟨w, l ++ l₁, rfl, hrest w l₁ x' hc, ?_, ?_⟩
    · rw [hstats, hcounted, Stats.pausing_after]
    · rw [visited_append, List.length_append, hl, Nat.add_one_mul]
      omega
  · exact absurd rfl ha

theorem Ends.evaluates (hs : client.Spares own) (h : E.Ends client own k a t' x') :
    ∃ w l, a = .ofVerdict E.config.catchPanics w ∧
      Evaluates (.amidst own) client.functions 0 E.root E.start w l x' ∧
        t'.stats.steps = (visited l).length ∧ t'.stats.suspensions = k ∧
          k * E.budget < (visited l).length ∧ (visited l).length ≤ (k + 1) * E.budget := by
  obtain ⟨w, l, ha, he, hcounted, hl⟩ := h.counted hs
  refine ⟨w, l, ha, he, ?_, ?_, hl⟩
  · rw [hcounted, Stats.pausing_steps]
    exact Nat.zero_add _
  · rw [hcounted, Stats.pausing_suspensions]
    exact Nat.zero_add k

/-- The number of slices before the last, from the number of nodes. -/
theorem eq_ceilDiv_sub_one {b n : ℕ} (hlt : k * b < n) (hle : n ≤ (k + 1) * b) :
    k = n ⌈/⌉ b - 1 := by
  have hb : 0 < b := by
    rcases Nat.eq_zero_or_pos b with rfl | hb
    · omega
    · exact hb
  have hupper : n ⌈/⌉ b ≤ k + 1 := (ceilDiv_le_iff_le_mul hb).2 (by rwa [Nat.mul_comm])
  have hlower : k < n ⌈/⌉ b := by
    by_contra hnot
    have := (ceilDiv_le_iff_le_mul hb).1 (Nat.le_of_not_lt hnot)
    rw [Nat.mul_comm] at this
    omega
  omega

/-! ### Along a given evaluation -/

/-- Whatever the rest of the memory is, a slice of functions that ask for nothing has one end. -/
theorem Slice.unique {out out' : Answer K.signature × Trampoline K.signature}
    (h : (Meaning.own own).Runs (E.slice client t) x out x')
    (h' : E.Slice client own t x out' y) : out' = out ∧ y = x' := by
  obtain ⟨memory, memory', rfl, rfl, hl⟩ := h'
  obtain ⟨memory'', hends, rfl⟩ := h memory rfl
  obtain ⟨rfl, rfl⟩ := hends.unique hl
  exact ⟨rfl, rfl⟩

/-- A direct evaluation is the one that the slices have gone through and the rest that is ahead of
them. -/
theorem Course.splits (hs : client.Spares own)
    (he : Evaluates (.own own) client.functions 0 E.root E.start w deeds y)
    (h : E.Course client own k t x) :
    ∃ e l l', t.current = some e ∧ deeds = l ++ l' ∧ (visited l).length = k * E.budget ∧
      t.stats = Stats.zero.pausing k l ∧
        Completes (.own own) client.functions e t.stack.list x w l' y := by
  induction h with
  | start =>
    exact ⟨E.root, [], deeds, rfl, rfl, (Nat.zero_mul _).symm, rfl, completes_nil_iff.2 he⟩
  | @slice k t t' x x' _ hslice ih =>
    obtain ⟨e, l, l', hcurrent, hl, hn, hstats, hc⟩ := ih
    rcases Trampoline.descend_of_completes E.config.catchPanics hs.silent E.budget t.stats hc with
      ⟨-, rest, hr⟩ | ⟨-, e₁, rest, x₁, l₁, l₂, hr, rfl, hl₁, hc₁⟩
    · rw [← slice_eq hcurrent] at hr
      obtain ⟨ha, -⟩ := Slice.unique hr hslice
      exact absurd (congrArg Prod.fst ha).symm (Answer.ofVerdict_ne_suspended _ w)
    · rw [← slice_eq hcurrent] at hr
      obtain ⟨ha, rfl⟩ := Slice.unique hr hslice
      cases ha
      refine ⟨e₁, l ++ l₁, l₂, rfl, ?_, ?_, ?_, hc₁⟩
      · rw [hl, List.append_assoc]
      · rw [visited_append, List.length_append, hn, hl₁, Nat.add_one_mul]
      · rw [hstats, Stats.pausing_suspended]

/-- The rest of a direct evaluation is ahead of the slices. -/
theorem Course.ahead (hs : client.Spares own)
    (he : Evaluates (.own own) client.functions 0 E.root E.start w deeds y)
    (h : E.Course client own k t x) :
    ∃ e l, t.current = some e ∧ k * E.budget + (visited l).length = (visited deeds).length ∧
      Completes (.own own) client.functions e t.stack.list x w l y := by
  obtain ⟨e, l, l', hcurrent, rfl, hl, -, hc⟩ := h.splits hs he
  exact ⟨e, l', hcurrent, by rw [visited_append, List.length_append, hl], hc⟩

/-- As long as slices are suspended, there are nodes left to visit. -/
theorem Course.mul_lt (hs : client.Spares own)
    (he : Evaluates (.own own) client.functions 0 E.root E.start w deeds y)
    (h : E.Course client own k t x) : k * E.budget < (visited deeds).length := by
  obtain ⟨e, l, -, hl, hc⟩ := h.ahead hs he
  have := hc.visited_ne_nil
  omega

/-- The last slice ends as the direct evaluation does, which gives the counters. -/
theorem Ends.counted_of_evaluates (hs : client.Spares own)
    (he : Evaluates (.own own) client.functions 0 E.root E.start w deeds y)
    (h : E.Ends client own k a t' x') :
    a = .ofVerdict E.config.catchPanics w ∧ x' = y ∧ t'.stats = Stats.zero.pausing k deeds := by
  obtain ⟨t, x, hcourse, hslice, ha⟩ := h
  obtain ⟨e, l, l', hcurrent, rfl, -, hstats, hc⟩ := hcourse.splits hs he
  rcases Trampoline.descend_of_completes E.config.catchPanics hs.silent E.budget t.stats hc with
    ⟨-, rest, hr⟩ | ⟨-, e₁, rest, x₁, l₁, l₂, hr, -⟩
  · rw [← slice_eq hcurrent] at hr
    obtain ⟨hout, rfl⟩ := Slice.unique hr hslice
    cases hout
    exact ⟨rfl, rfl, by rw [hstats, Stats.pausing_after]⟩
  · rw [← slice_eq hcurrent] at hr
    obtain ⟨hout, -⟩ := Slice.unique hr hslice
    exact absurd (congrArg Prod.fst hout) ha

theorem Ends.of_evaluates (hs : client.Spares own)
    (he : Evaluates (.own own) client.functions 0 E.root E.start w deeds y)
    (h : E.Ends client own k a t' x') :
    a = .ofVerdict E.config.catchPanics w ∧ x' = y ∧
      t'.stats.steps = (visited deeds).length := by
  obtain ⟨ha, hx, hstats⟩ := h.counted_of_evaluates hs he
  refine ⟨ha, hx, ?_⟩
  rw [hstats, Stats.pausing_steps]
  exact Nat.zero_add _

end Errand

/-! ### Functions that keep to themselves -/

section

variable {S : Signature} {m : Type → Type} [Monad m] {σ : Type}

/-- All functions of the effect are among the given ones. -/
def Effect.Uses (codes : UserCode S → Prop) : Effect S → Prop
  | sync t => codes (.thunk t)
  | map e f => codes (.transform f) ∧ e.Uses codes
  | flatMap e k => codes (.continuation k) ∧ e.Uses codes

/-- The function of a pending step. -/
def Frame.code : Frame S → UserCode S
  | map f => .transform f
  | flatMap k => .continuation k

theorem Frame.uses_around (codes : UserCode S → Prop) (frame : Frame S) (e : Effect S) :
    (frame.around e).Uses codes ↔ codes frame.code ∧ e.Uses codes := by
  cases frame <;> rfl

/-- All functions that an evaluation has pending are among the given ones. -/
structure Trampoline.Uses (codes : UserCode S → Prop) (t : Trampoline S) : Prop where
  current {e : Effect S} : t.current = some e → e.Uses codes
  frames {frame : Frame S} : frame ∈ t.stack.list → codes frame.code

/-- Each of the given functions comes to an end wherever it is begun, and continuations return
effects of such functions again. -/
structure Functions.Confined (M : Meaning m σ) (fns : Functions S m) (codes : UserCode S → Prop) :
    Prop where
  thunk {t : S.Thunk} (s : σ) : codes (.thunk t) → ∃ out s', M.Runs (fns.thunk t) s out s'
  transform {f : S.Transform} (v : S.Value) (s : σ) : codes (.transform f) →
    ∃ out s', M.Runs (fns.transform f v) s out s'
  continuation {k : S.Continuation} (v : S.Value) (s : σ) : codes (.continuation k) →
    ∃ out s', M.Runs (fns.continuation k v) s out s' ∧ ∀ e, out = .returned e → e.Uses codes

namespace Trampoline

variable {M : Meaning m σ} {fns : Functions S m} {codes : UserCode S → Prop}

/-- The frames take a value somewhere: to the end, to an effect of the given functions, or to a
failure. -/
theorem unwindList_runs (hf : fns.Confined M codes) (catching : Bool) {list : List (Frame S)}
    (hl : ∀ frame ∈ list, codes frame.code) (v : S.Value) (s : σ) :
    ∃ u s', M.Runs (unwindList fns catching list list.length rfl v) s u s' ∧
      ((∃ v', u = .delivered v') ∨
        (∃ e rest, u = .entered e rest ∧ e.Uses codes ∧ ∀ frame ∈ rest.list, codes frame.code) ∨
          ∃ c rest, u = .stopped (.ofStop catching c) rest) := by
  induction list generalizing v s with
  | nil => exact ⟨_, s, M.runs_pure _ _, .inl ⟨v, rfl⟩⟩
  | cons frame list ih =>
    obtain ⟨hframe, hrest⟩ := List.forall_mem_cons.1 hl
    cases frame with
    | map f =>
      obtain ⟨out, s₁, hr⟩ := hf.transform v s hframe
      cases out with
      | returned v' =>
        obtain ⟨u, s', hu, hcases⟩ := ih hrest v' s₁
        exact ⟨u, s', M.runs_bind hr hu, hcases⟩
      | mismatched expected =>
        exact ⟨_, s₁, M.runs_bind hr (M.runs_pure _ _), .inr (.inr ⟨.mismatched expected, _, rfl⟩)⟩
      | panicked p =>
        exact ⟨_, s₁, M.runs_bind hr (M.runs_pure _ _),
          .inr (.inr ⟨.panicked .transform p, _, rfl⟩)⟩
    | flatMap k =>
      obtain ⟨out, s₁, hr, hreturned⟩ := hf.continuation v s hframe
      cases out with
      | returned e =>
        exact ⟨_, s₁, M.runs_bind hr (M.runs_pure _ _),
          .inr (.inl ⟨e, _, rfl, hreturned e rfl, hrest⟩)⟩
      | mismatched expected =>
        exact ⟨_, s₁, M.runs_bind hr (M.runs_pure _ _), .inr (.inr ⟨.mismatched expected, _, rfl⟩)⟩
      | panicked p =>
        exact ⟨_, s₁, M.runs_bind hr (M.runs_pure _ _),
          .inr (.inr ⟨.panicked .continuation p, _, rfl⟩)⟩

/-- A descent comes to an end, and if that is a suspension, the functions that are then pending are
among the given ones. -/
theorem descend_runs (hq : fns.Silent M) (hf : fns.Confined M codes) (catching : Bool) {n : ℕ}
    {e : Effect S} (he : e.Uses codes) {stack : Frames S}
    (hl : ∀ frame ∈ stack.list, codes frame.code) (stats : Stats) (s : σ) :
    ∃ a t s', M.Runs (descend fns catching n e stack stats) s (a, t) s' ∧
      (a = .suspended → t.Uses codes) := by
  induction n generalizing e stack stats s with
  | zero =>
    refine ⟨_, _, s, M.runs_bind (hq _ _) (M.runs_pure _ _), fun _ => ⟨fun h => ?_, hl _⟩⟩
    cases h
    exact he
  | succ n ih =>
    rcases e.sync_or_around with ⟨leaf, rfl⟩ | ⟨frame, e, rfl⟩
    · obtain ⟨out, s₁, ht⟩ := hf.thunk s he
      cases out with
      | returned v =>
        obtain ⟨u, s₂, hu, hcases⟩ := unwindList_runs hf catching hl v s₁
        rw [← unwind_eq] at hu
        rcases hcases with ⟨v', rfl⟩ | ⟨e', rest, rfl, he', hrest⟩ | ⟨c, rest, rfl⟩
        · exact ⟨_, _, s₂, M.runs_bind (hq _ _) (M.runs_bind ht (M.runs_bind hu (M.runs_pure _ _))),
            fun h => by cases h⟩
        · obtain ⟨a, t, s', hr, hsus⟩ := ih he' hrest stats.visit s₂
          exact ⟨a, t, s', M.runs_bind (hq _ _) (M.runs_bind ht (M.runs_bind hu hr)), hsus⟩
        · exact ⟨_, _, s₂, M.runs_bind (hq _ _) (M.runs_bind ht (M.runs_bind hu (M.runs_pure _ _))),
            fun h => absurd h (Answer.ofStop_ne_suspended catching c)⟩
      | mismatched expected =>
        exact ⟨_, _, s₁, M.runs_bind (hq _ _) (M.runs_bind ht (M.runs_pure _ _)),
          fun h => by cases h⟩
      | panicked p =>
        exact ⟨_, _, s₁, M.runs_bind (hq _ _) (M.runs_bind ht (M.runs_pure _ _)),
          fun h => absurd h (Answer.ofStop_ne_suspended catching (.panicked .thunk p))⟩
    · rw [Frame.uses_around] at he
      rw [descend_around]
      have hpush : ∀ f ∈ (stack.push frame).list, codes f.code := by
        rw [Frames.list_push]
        exact List.forall_mem_cons.2 ⟨he.1, hl⟩
      obtain ⟨a, t, s', hr, hsus⟩ := ih he.2 hpush (stats.visit.reach (stack.height + 1)) s
      exact ⟨a, t, s', M.runs_bind (hq _ _) hr, hsus⟩

end Trampoline

end

namespace Errand

variable {client : Client K M} {own : M → A} {E : Errand K A} {k k' : ℕ}
  {t t' t₁ t₁' : Trampoline K.signature} {x x' x₁ x₁' : A} {a a' : Answer K.signature}
  {codes : UserCode K.signature → Prop}

/-- A slice of functions that keep to themselves has an end, whatever the rest of the memory is. -/
theorem slice_runs (hs : client.Spares own) (hf : client.functions.Confined (.own own) codes)
    (ht : t.Uses codes) (hc : t.current ≠ none) (x : A) :
    ∃ a t' x', (Meaning.own own).Runs (E.slice client t) x (a, t') x' ∧
      (a = .suspended → t'.Uses codes) := by
  obtain ⟨e, he⟩ := Option.ne_none_iff_exists'.1 hc
  rw [slice_eq he]
  exact Trampoline.descend_runs hs.silent hf _ (ht.current he) (fun _ => ht.frames) t.stats x

theorem uses_start (hroot : E.root.Uses codes) : (Trampoline.start E.root).Uses codes where
  current h := by
    cases h
    exact hroot
  frames h := by cases h

variable (hs : client.Spares own) (hf : client.functions.Confined (.own own) codes)
  (hroot : E.root.Uses codes)

include hs hf hroot

/-- All along the course the pending functions keep to themselves. -/
theorem Course.uses (h : E.Course client own k t x) : t.Uses codes := by
  induction h with
  | start => exact uses_start hroot
  | @slice k t t' x x' hcourse hslice ih =>
    obtain ⟨e, -, he, -⟩ := hcourse.evaluates hs
    obtain ⟨a, t₁, x₁, hr, hsus⟩ := slice_runs hs hf ih (by simp [he]) x
    obtain ⟨hout, -⟩ := Slice.unique hr hslice
    cases hout
    exact hsus rfl

/-- What a slice may come to among others, from a point of the course, is what it comes to. -/
theorem Course.runs (h : E.Course client own k t x)
    {out : Answer K.signature × Trampoline K.signature} (hslice : E.Slice client own t x out x') :
    (Meaning.own own).Runs (E.slice client t) x out x' := by
  obtain ⟨e, -, he, -⟩ := h.evaluates hs
  obtain ⟨a, t', x', hr, -⟩ := slice_runs hs hf (h.uses hs hf hroot) (by simp [he]) x
  obtain ⟨rfl, rfl⟩ := Slice.unique hr hslice
  exact hr

/-- The course has one point after each number of slices. -/
theorem Course.unique (h : E.Course client own k t x) (h' : E.Course client own k t' x') :
    t' = t ∧ x' = x := by
  induction h generalizing t' x' with
  | start =>
    cases h'
    exact ⟨rfl, rfl⟩
  | @slice k t t₁ x x₁ hcourse hslice ih =>
    cases h' with
    | slice hcourse' hslice' =>
      obtain ⟨rfl, rfl⟩ := ih hcourse'
      obtain ⟨hout, rfl⟩ := Slice.unique (hcourse.runs hs hf hroot hslice) hslice'
      cases hout
      exact ⟨rfl, rfl⟩

omit hs hf hroot in
/-- The course has gone through all points before. -/
theorem Course.of_lt (h : E.Course client own k' t' x') (hlt : k < k') :
    ∃ t x t₁ x₁, E.Course client own k t x ∧ E.Slice client own t x (.suspended, t₁) x₁ := by
  induction h with
  | start => exact absurd hlt (Nat.not_lt_zero k)
  | @slice k' t t' x x' hcourse hslice ih =>
    rcases Nat.lt_succ_iff_lt_or_eq.1 hlt with hlt | rfl
    · exact ih hlt
    · exact ⟨t, x, t', x', hcourse, hslice⟩

/-- A slice that is the last is suspended on no course. -/
theorem Ends.not_lt (h : E.Ends client own k a t x) (h' : E.Ends client own k' a' t' x') :
    ¬ k < k' := by
  intro hlt
  obtain ⟨t₁, x₁, hcourse, hslice, ha⟩ := h
  obtain ⟨t₁', x₁', hcourse', -⟩ := h'
  obtain ⟨t₂, x₂, t₃, x₃, hcourse₂, hslice₂⟩ := hcourse'.of_lt hlt
  obtain ⟨rfl, rfl⟩ := hcourse.unique hs hf hroot hcourse₂
  obtain ⟨hout, -⟩ := Slice.unique (hcourse.runs hs hf hroot hslice) hslice₂
  exact ha (congrArg Prod.fst hout).symm

/-- There is one end, and it comes after one number of slices. -/
theorem Ends.unique (h : E.Ends client own k a t x) (h' : E.Ends client own k' a' t' x') :
    k' = k ∧ a' = a ∧ t' = t ∧ x' = x := by
  have hlt := h.not_lt hs hf hroot h'
  have hgt := h'.not_lt hs hf hroot h
  obtain rfl : k' = k := by omega
  obtain ⟨t₁, x₁, hcourse, hslice, -⟩ := h
  obtain ⟨t₁', x₁', hcourse', hslice', -⟩ := h'
  obtain ⟨rfl, rfl⟩ := hcourse.unique hs hf hroot hcourse'
  obtain ⟨hout, rfl⟩ := Slice.unique (hcourse.runs hs hf hroot hslice) hslice'
  cases hout
  exact ⟨rfl, rfl, rfl, rfl⟩

end Errand

end LazyEffects
