import LazyEffects.Proofs.Evaluation

/-!
# Slices follow the direct evaluation

A trampoline holds a node to process and pending frames. What it still has to do is the direct
evaluation of that node, whose end is then handed to the frames (`Completes`). This is kept from
node to node, wherever a slice is cut:

* `Trampoline.descend_of_completes`: a slice either gets to the end of the evaluation, or it is
  suspended after as many nodes as its budget grants, with the rest of the evaluation ahead of it;
* `Trampoline.completes_of_descend`: a slice does nothing else, also where no end is in sight.
-/

namespace LazyEffects

open Deed

variable {S : Signature} {m : Type → Type} [Monad m] {σ : Type}

/-! ### What is left to do -/

section

variable (M : Meaning m σ) (fns : Functions S m)

/-- `Unwinds list w s w' deeds s'`: handing the end `w` of an evaluation to the frames of `list`,
topmost first, does `deeds` and comes to the end `w'`. A failure passes all frames by. -/
inductive Unwinds : List (Frame S) → Verdict S → σ → Verdict S → List (Deed S) → σ → Prop where
  | nil {v : S.Value} {s : σ} : Unwinds [] (.ok v) s (.ok v) [] s
  | stopped {list : List (Frame S)} {c : Stop S} {s : σ} :
    Unwinds list (.error c) s (.error c) [] s
  | map {list : List (Frame S)} {f : S.Transform} {v : S.Value} {out : Outcome S S.Value}
    {w : Verdict S} {l : List (Deed S)} {s s' s'' : σ} :
    M.Runs (fns.transform f v) s out s' → Unwinds list (out.within .transform) s' w l s'' →
    Unwinds (.map f :: list) (.ok v) s w (call (.transform f v) :: l) s''
  | flatMap {list : List (Frame S)} {k : S.Continuation} {v : S.Value} {e : Effect S}
    {w w' : Verdict S} {l l' : List (Deed S)} {s s' s'' s₃ : σ} :
    M.Runs (fns.continuation k v) s (.returned e) s' → Evaluates M fns list.length e s' w l s'' →
    Unwinds list w s'' w' l' s₃ →
    Unwinds (.flatMap k :: list) (.ok v) s w' (call (.continuation k v) :: (l ++ l')) s₃
  | refused {list : List (Frame S)} {k : S.Continuation} {v : S.Value}
    {out : Outcome S (Effect S)} {c : Stop S} {s s' : σ} :
    M.Runs (fns.continuation k v) s out s' → out.within .continuation = .error c →
    Unwinds (.flatMap k :: list) (.ok v) s (.error c) [call (.continuation k v)] s'

/-- Evaluating `e` and handing its end to the frames of `list` does `deeds` and comes to `w`. -/
inductive Completes (e : Effect S) (list : List (Frame S)) (s : σ) (w : Verdict S) :
    List (Deed S) → σ → Prop where
  | intro {w₁ : Verdict S} {l₁ l₂ : List (Deed S)} {s₁ s' : σ} :
    Evaluates M fns list.length e s w₁ l₁ s₁ → Unwinds M fns list w₁ s₁ w l₂ s' →
    Completes e list s w (l₁ ++ l₂) s'

end

variable {M : Meaning m σ} {fns : Functions S m} {e : Effect S} {list : List (Frame S)}
  {s s' : σ} {w : Verdict S} {l : List (Deed S)}

theorem Unwinds.of_error {c : Stop S} (h : Unwinds M fns list (.error c) s w l s') :
    w = .error c ∧ l = [] ∧ s' = s := by
  cases h
  exact ⟨rfl, rfl, rfl⟩

theorem completes_nil_iff :
    Completes M fns e [] s w l s' ↔ Evaluates M fns 0 e s w l s' := by
  constructor
  · rintro ⟨he, hu⟩
    cases hu <;> simpa using he
  · intro he
    have hu : Unwinds M fns [] w s' w [] s' := by
      cases w with
      | ok => exact .nil
      | error => exact .stopped
    simpa using Completes.intro he hu

theorem Completes.visited_ne_nil (h : Completes M fns e list s w l s') :
    0 < (visited l).length := by
  cases h with
  | intro he _ =>
    have := he.visited_ne_nil
    simp only [visited_append, List.length_append]
    omega

/-- Going down to the source of a transform leaves its frame behind. -/
theorem completes_map_iff {f : S.Transform} :
    Completes M fns (.map e f) list s w l s' ↔
      ∃ l', l = visit (.map e f) list.length :: l' ∧
        Completes M fns e (.map f :: list) s w l' s' := by
  constructor
  · rintro ⟨he, hu⟩
    cases he with
    | map he hf => exact ⟨_, by simp, .intro he (.map hf hu)⟩
    | mapStopped he =>
      -- A failure of the source passes the new frame and the others alike.
      obtain ⟨rfl, rfl, rfl⟩ := hu.of_error
      exact ⟨_, by simp, .intro he .stopped⟩
  · rintro ⟨_, rfl, ⟨he, hu⟩⟩
    cases hu with
    | stopped => exact .intro (.mapStopped he) .stopped
    | map hf hu => simpa using Completes.intro (.map he hf) hu

/-- Going down to the source of a continuation leaves its frame behind. -/
theorem completes_flatMap_iff {k : S.Continuation} :
    Completes M fns (.flatMap e k) list s w l s' ↔
      ∃ l', l = visit (.flatMap e k) list.length :: l' ∧
        Completes M fns e (.flatMap k :: list) s w l' s' := by
  constructor
  · rintro ⟨he, hu⟩
    cases he with
    | flatMap he hk he' => exact ⟨_, by simp, .intro he (.flatMap hk he' hu)⟩
    | flatMapRefused he hk hc =>
      obtain ⟨rfl, rfl, rfl⟩ := hu.of_error
      exact ⟨_, by simp, .intro he (.refused hk hc)⟩
    | flatMapStopped he =>
      obtain ⟨rfl, rfl, rfl⟩ := hu.of_error
      exact ⟨_, by simp, .intro he .stopped⟩
  · rintro ⟨_, rfl, ⟨he, hu⟩⟩
    cases hu with
    | stopped => exact .intro (.flatMapStopped he) .stopped
    | flatMap hk he' hu => simpa using Completes.intro (.flatMap he hk he') hu
    | refused hk hc => simpa using Completes.intro (.flatMapRefused he hk hc) .stopped

/-- The effect with `e` as source that leaves the frame behind on the way down. -/
def Frame.around (e : Effect S) : Frame S → Effect S
  | map f => .map e f
  | flatMap k => .flatMap e k

theorem Effect.sync_or_around (e : Effect S) :
    (∃ t, e = .sync t) ∨ ∃ (frame : Frame S) (e' : Effect S), e = frame.around e' := by
  cases e with
  | sync t => exact .inl ⟨t, rfl⟩
  | map e f => exact .inr ⟨.map f, e, rfl⟩
  | flatMap e k => exact .inr ⟨.flatMap k, e, rfl⟩

theorem completes_around_iff (frame : Frame S) :
    Completes M fns (frame.around e) list s w l s' ↔
      ∃ l', l = visit (frame.around e) list.length :: l' ∧
        Completes M fns e (frame :: list) s w l' s' := by
  cases frame with
  | map f => exact completes_map_iff
  | flatMap k => exact completes_flatMap_iff

/-- At a leaf the thunk is called, and its end goes to the frames. -/
theorem completes_sync_iff {t : S.Thunk} :
    Completes M fns (.sync t) list s w l s' ↔
      ∃ out s₁ l', M.Runs (fns.thunk t) s out s₁ ∧
        Unwinds M fns list (out.within .thunk) s₁ w l' s' ∧
        l = visit (.sync t) list.length :: call (.thunk t) :: l' := by
  constructor
  · rintro ⟨he, hu⟩
    cases he with
    | sync ht => exact ⟨_, _, _, ht, hu, by simp⟩
  · rintro ⟨_, _, _, ht, hu, rfl⟩
    exact .intro (.sync ht) hu

/-- A continuation that returns puts the effect it returns in the place of its frame. -/
theorem unwinds_flatMap_of_completes {k : S.Continuation} {v : S.Value} {s₁ : σ}
    (hk : M.Runs (fns.continuation k v) s (.returned e) s₁)
    (h : Completes M fns e list s₁ w l s') :
    Unwinds M fns (.flatMap k :: list) (.ok v) s w (call (.continuation k v) :: l) s' := by
  obtain ⟨he, hu⟩ := h
  exact .flatMap hk he hu

/-! ### Counters -/

/-- The counters when `deeds` have been done. -/
def Stats.after (c : Stats) : List (Deed S) → Stats
  | [] => c
  | .visit (.sync _) _ :: l => c.visit.after l
  | .visit (.map _ _) n :: l => (c.visit.reach (n + 1)).after l
  | .visit (.flatMap _ _) n :: l => (c.visit.reach (n + 1)).after l
  | .call _ :: l => c.after l

namespace Stats

theorem after_visit_around (c : Stats) (frame : Frame S) (n : Nat) (l : List (Deed S)) :
    c.after (.visit (frame.around e) n :: l) = (c.visit.reach (n + 1)).after l := by
  cases frame <;> rfl

theorem after_append (c : Stats) (l l' : List (Deed S)) :
    c.after (l ++ l') = (c.after l).after l' := by
  fun_induction Stats.after c l with
  | case1 => rfl
  | case2 c t n l ih => exact ih
  | case3 c e f n l ih => exact ih
  | case4 c e k n l ih => exact ih
  | case5 c x l ih => exact ih

/-- Calls alone leave the counters as they are. -/
theorem after_of_visited_nil (c : Stats) {l : List (Deed S)} (hl : visited l = []) :
    c.after l = c := by
  induction l with
  | nil => rfl
  | cons d l ih =>
    cases d with
    | visit e n => simp at hl
    | call x => exact ih hl

/-- Every visited node is a step. -/
theorem after_steps (c : Stats) (l : List (Deed S)) :
    (c.after l).steps = c.steps + (visited l).length := by
  fun_induction Stats.after c l with
  | case1 => rfl
  | case2 c t n l ih => rw [ih]; simp [Stats.visit]; omega
  | case3 c e f n l ih => rw [ih]; simp [Stats.visit, reach]; omega
  | case4 c e k n l ih => rw [ih]; simp [Stats.visit, reach]; omega
  | case5 c x l ih => exact ih

theorem after_suspensions (c : Stats) (l : List (Deed S)) :
    (c.after l).suspensions = c.suspensions := by
  fun_induction Stats.after c l with
  | case1 => rfl
  | case2 c t n l ih => exact ih
  | case3 c e f n l ih => exact ih
  | case4 c e k n l ih => exact ih
  | case5 c x l ih => exact ih

/-- Suspensions are counted apart from what is done. -/
theorem after_suspensions_eq (c : Stats) (n : Nat) (l : List (Deed S)) :
    ({ c with suspensions := n }).after l = { c.after l with suspensions := n } := by
  fun_induction Stats.after c l with
  | case1 => rfl
  | case2 c t n l ih => exact ih
  | case3 c e f n l ih => exact ih
  | case4 c e k n l ih => exact ih
  | case5 c x l ih => exact ih

/-- The counters when `deeds` have been done and `k` slices have been suspended meanwhile. -/
def pausing (c : Stats) (k : Nat) (deeds : List (Deed S)) : Stats :=
  { c.after deeds with suspensions := c.suspensions + k }

theorem pausing_zero (c : Stats) (l : List (Deed S)) : c.pausing 0 l = c.after l := by
  rw [pausing, Nat.add_zero, ← c.after_suspensions l]

@[simp] theorem pausing_steps (c : Stats) (k : Nat) (l : List (Deed S)) :
    (c.pausing k l).steps = c.steps + (visited l).length := c.after_steps l

@[simp] theorem pausing_suspensions (c : Stats) (k : Nat) (l : List (Deed S)) :
    (c.pausing k l).suspensions = c.suspensions + k := rfl

/-- What is done next adds to what was done before. -/
theorem pausing_after (c : Stats) (k : Nat) (l l' : List (Deed S)) :
    (c.pausing k l).after l' = c.pausing k (l ++ l') := by
  rw [pausing, after_suspensions_eq, pausing, after_append]

theorem pausing_suspended (c : Stats) (k : Nat) (l l' : List (Deed S)) :
    ((c.pausing k l).after l').suspend = c.pausing (k + 1) (l ++ l') := by
  rw [pausing_after]
  rfl

theorem pausing_suspend (c : Stats) (k : Nat) (l l' : List (Deed S)) :
    (c.after l).suspend.pausing k l' = c.pausing (k + 1) (l ++ l') := by
  have hk : c.suspensions + 1 + k = c.suspensions + (k + 1) := by omega
  rw [pausing, suspend, after_suspensions_eq, pausing, after_append, after_suspensions, hk]

end Stats

/-! ### A slice -/

namespace Trampoline

variable {catching : Bool}

theorem unwind_eq (stack : Frames S) (v : S.Value) :
    unwind fns catching stack v =
      unwindList fns catching stack.list stack.list.length rfl v := by
  cases stack with
  | mk list height h =>
    subst h
    rfl

/-- Where the frames take a value: to the end, or to an effect with what follows it. -/
theorem unwindList_of_unwinds (catching : Bool) {v : S.Value}
    (h : Unwinds M fns list (.ok v) s w l s') :
    (∃ v', w = .ok v' ∧ visited l = [] ∧
      M.Runs (unwindList fns catching list list.length rfl v) s (.delivered v') s') ∨
    (∃ c rest, w = .error c ∧ visited l = [] ∧
      M.Runs (unwindList fns catching list list.length rfl v) s
        (.stopped (.ofStop catching c) rest) s') ∨
    ∃ e rest s₁ l₁ l₂,
      M.Runs (unwindList fns catching list list.length rfl v) s (.entered e rest) s₁ ∧
      l = l₁ ++ l₂ ∧ visited l₁ = [] ∧ Completes M fns e rest.list s₁ w l₂ s' := by
  -- Along the frames: those of transforms are gone through with the value that each of them gives.
  induction list generalizing v s l with
  | nil =>
    cases h
    exact .inl ⟨v, rfl, rfl, M.runs_pure _ _⟩
  | cons frame list ih =>
    cases h with
    | map hf hu =>
      rename_i f out s₁ l
      cases out with
      | returned v' =>
        rcases ih hu with
          ⟨v'', rfl, hl, hr⟩ | ⟨c, rest, rfl, hl, hr⟩ | ⟨e, rest, s₂, l₁, l₂, hr, rfl, hl, hc⟩
        · exact .inl ⟨v'', rfl, hl, M.runs_bind hf hr⟩
        · exact .inr (.inl ⟨c, rest, rfl, hl, M.runs_bind hf hr⟩)
        · exact .inr (.inr
            ⟨e, rest, s₂, call (.transform f v) :: l₁, l₂, M.runs_bind hf hr, rfl, hl, hc⟩)
      | mismatched expected =>
        obtain ⟨rfl, rfl, rfl⟩ := hu.of_error
        exact .inr (.inl ⟨_, _, rfl, rfl, M.runs_bind hf (M.runs_pure _ _)⟩)
      | panicked p =>
        obtain ⟨rfl, rfl, rfl⟩ := hu.of_error
        exact .inr (.inl ⟨_, _, rfl, rfl, M.runs_bind hf (M.runs_pure _ _)⟩)
    | flatMap hk he hu =>
      -- The walk ends here, with the effect that is to be evaluated before the frames below.
      rename_i k e w₁ l₁ l₂ s₁ s₂
      refine .inr (.inr ⟨e, ⟨list, _, rfl⟩, s₁, [call (.continuation k v)], l₁ ++ l₂,
        M.runs_bind hk (M.runs_pure _ _), rfl, rfl, .intro he hu⟩)
    | refused hk hc =>
      rename_i k out c
      cases out with
      | returned => cases hc
      | mismatched expected =>
        cases hc
        exact .inr (.inl ⟨_, _, rfl, rfl, M.runs_bind hk (M.runs_pure _ _)⟩)
      | panicked p =>
        cases hc
        exact .inr (.inl ⟨_, _, rfl, rfl, M.runs_bind hk (M.runs_pure _ _)⟩)

theorem unwind_of_unwinds (catching : Bool) {stack : Frames S} {v : S.Value}
    (h : Unwinds M fns stack.list (.ok v) s w l s') :
    (∃ v', w = .ok v' ∧ visited l = [] ∧
      M.Runs (unwind fns catching stack v) s (.delivered v') s') ∨
    (∃ c rest, w = .error c ∧ visited l = [] ∧
      M.Runs (unwind fns catching stack v) s (.stopped (.ofStop catching c) rest) s') ∨
    ∃ e rest s₁ l₁ l₂, M.Runs (unwind fns catching stack v) s (.entered e rest) s₁ ∧
      l = l₁ ++ l₂ ∧ visited l₁ = [] ∧ Completes M fns e rest.list s₁ w l₂ s' := by
  rw [unwind_eq]
  exact unwindList_of_unwinds catching h

theorem descend_around (n : Nat) (frame : Frame S) (stack : Frames S) (stats : Stats) :
    descend fns catching (n + 1) (frame.around e) stack stats =
      fns.observe (.visited (frame.around e).kind stack.height) >>= fun _ =>
        descend fns catching n e (stack.push frame) (stats.visit.reach (stack.height + 1)) := by
  cases frame <;> rfl

variable (catching) in
/-- A slice of an evaluation that ends: it reaches the end if its budget grants enough nodes, and
is otherwise suspended with the rest of the evaluation ahead. -/
theorem descend_of_completes (hq : fns.Silent M) (n : Nat) {stack : Frames S} (stats : Stats)
    (h : Completes M fns e stack.list s w l s') :
    ((visited l).length ≤ n ∧ ∃ rest,
      M.Runs (descend fns catching n e stack stats) s
        (.ofVerdict catching w, ⟨none, rest, stats.after l⟩) s') ∨
    (n < (visited l).length ∧ ∃ e₁ rest s₁ l₁ l₂,
      M.Runs (descend fns catching n e stack stats) s
        (.suspended, ⟨some e₁, rest, (stats.after l₁).suspend⟩) s₁ ∧
      l = l₁ ++ l₂ ∧ (visited l₁).length = n ∧ Completes M fns e₁ rest.list s₁ w l₂ s') := by
  -- On the budget: each node visited costs one, and the invariant for the rest is `Completes`.
  induction n generalizing e stack stats s l with
  | zero =>
    -- The node is put back unvisited, so all of the evaluation is still ahead.
    refine .inr ⟨h.visited_ne_nil, e, stack, s, [], l, ?_, rfl, rfl, h⟩
    exact M.runs_bind (hq _ _) (M.runs_pure _ _)
  | succ n ih =>
    rcases e.sync_or_around with ⟨t, rfl⟩ | ⟨frame, e, rfl⟩
    · obtain ⟨out, s₁, l, ht, hu, rfl⟩ := completes_sync_iff.1 h
      cases out with
      | returned v =>
        rcases unwind_of_unwinds catching hu with
          ⟨v', rfl, hl, hr⟩ | ⟨c, rest, rfl, hl, hr⟩ | ⟨e, rest, s₂, l₁, l₂, hr, rfl, hl, hc⟩
        · refine .inl ⟨by simp [hl], .empty, M.runs_bind (hq _ _) (M.runs_bind ht ?_)⟩
          simp only [Stats.after, Stats.after_of_visited_nil _ hl]
          exact M.runs_bind (hr) (M.runs_pure _ _)
        · refine .inl ⟨by simp [hl], rest, M.runs_bind (hq _ _) (M.runs_bind ht ?_)⟩
          simp only [Stats.after, Stats.after_of_visited_nil _ hl]
          exact M.runs_bind (hr) (M.runs_pure _ _)
        · -- A continuation has returned an effect, on which the rest of the budget is spent.
          rcases ih stats.visit hc with
            ⟨hn, rest', hr'⟩ | ⟨hn, e₁, rest', s₃, l₃, l₄, hr', rfl, hl', hc⟩
          · refine .inl ⟨by simpa [hl] using hn, rest', M.runs_bind (hq _ _) (M.runs_bind ht ?_)⟩
            simp only [Stats.after, Stats.after_append, Stats.after_of_visited_nil _ hl]
            exact M.runs_bind (hr) hr'
          · refine .inr ⟨by simpa [hl] using hn, e₁, rest', s₃,
              visit (.sync t) stack.list.length :: call (.thunk t) :: (l₁ ++ l₃), l₄,
              M.runs_bind (hq _ _) (M.runs_bind ht ?_), by simp, by simpa [hl] using hl', hc⟩
            simp only [Stats.after, Stats.after_append, Stats.after_of_visited_nil _ hl]
            exact M.runs_bind (hr) hr'
      | mismatched expected =>
        obtain ⟨rfl, rfl, rfl⟩ := hu.of_error
        exact .inl ⟨by simp, stack, M.runs_bind (hq _ _) (M.runs_bind ht (M.runs_pure _ _))⟩
      | panicked p =>
        obtain ⟨rfl, rfl, rfl⟩ := hu.of_error
        exact .inl ⟨by simp, stack, M.runs_bind (hq _ _) (M.runs_bind ht (M.runs_pure _ _))⟩
    · -- The frame is pushed, and the descent goes on with the source.
      obtain ⟨l, rfl, hc⟩ := (completes_around_iff frame).1 h
      have hc : Completes M fns e (stack.push frame).list s w l s' := hc
      rw [descend_around]
      rcases ih (stats.visit.reach (stack.height + 1)) hc with
        ⟨hn, rest, hr⟩ | ⟨hn, e₁, rest, s₁, l₁, l₂, hr, rfl, hl, hc⟩
      · refine .inl ⟨by simpa using hn, rest, M.runs_bind (hq _ _) ?_⟩
        rwa [Stats.after_visit_around, ← stack.height_eq]
      · have hl' : (visited (visit (frame.around e) stack.list.length :: l₁)).length = n + 1 := by
          simpa using hl
        refine .inr ⟨by simpa using hn, e₁, rest, s₁, _, l₂, M.runs_bind (hq _ _) ?_, rfl, hl', hc⟩
        rwa [Stats.after_visit_around, ← stack.height_eq]

/-! ### Nothing else happens in a slice -/

/-- What the frames have done with a value is part of the evaluation. -/
theorem unwinds_of_unwindList (hx : M.Exact) {v : S.Value} {u : Unwound S}
    (h : M.Runs (unwindList fns catching list list.length rfl v) s u s') :
    (∃ v' l, u = .delivered v' ∧ visited l = [] ∧ Unwinds M fns list (.ok v) s (.ok v') l s') ∨
    (∃ c rest l, u = .stopped (.ofStop catching c) rest ∧ visited l = [] ∧
      Unwinds M fns list (.ok v) s (.error c) l s') ∨
    ∃ e rest l₁, u = .entered e rest ∧ visited l₁ = [] ∧ ∀ w l s'',
      Completes M fns e rest.list s' w l s'' → Unwinds M fns list (.ok v) s w (l₁ ++ l) s'' := by
  induction list generalizing v s with
  | nil =>
    obtain ⟨rfl, rfl⟩ := hx.of_pure h
    exact .inl ⟨v, [], rfl, rfl, .nil⟩
  | cons frame list ih =>
    cases frame with
    | map f =>
      obtain ⟨out, s₁, hf, h⟩ := hx.of_bind h
      cases out with
      | returned v' =>
        rcases ih h with
          ⟨v'', l, rfl, hl, hu⟩ | ⟨c, rest, l, rfl, hl, hu⟩ | ⟨e, rest, l₁, rfl, hl, hu⟩
        · exact .inl ⟨v'', call (.transform f v) :: l, rfl, hl, .map hf hu⟩
        · exact .inr (.inl ⟨c, rest, call (.transform f v) :: l, rfl, hl, .map hf hu⟩)
        · refine .inr (.inr ⟨e, rest, call (.transform f v) :: l₁, rfl, hl, ?_⟩)
          exact fun w l s'' hc => .map hf (hu w l s'' hc)
      | mismatched expected =>
        obtain ⟨rfl, rfl⟩ := hx.of_pure h
        exact .inr (.inl ⟨.mismatched expected, _, _, rfl, rfl, .map hf .stopped⟩)
      | panicked p =>
        obtain ⟨rfl, rfl⟩ := hx.of_pure h
        exact .inr (.inl ⟨.panicked .transform p, _, _, rfl, rfl, .map hf .stopped⟩)
    | flatMap k =>
      obtain ⟨out, s₁, hk, h⟩ := hx.of_bind h
      cases out with
      | returned e =>
        obtain ⟨rfl, rfl⟩ := hx.of_pure h
        refine .inr (.inr ⟨e, _, [call (.continuation k v)], rfl, rfl, fun w l s'' hc => ?_⟩)
        exact unwinds_flatMap_of_completes hk hc
      | mismatched expected =>
        obtain ⟨rfl, rfl⟩ := hx.of_pure h
        exact .inr (.inl ⟨.mismatched expected, _, _, rfl, rfl, .refused hk rfl⟩)
      | panicked p =>
        obtain ⟨rfl, rfl⟩ := hx.of_pure h
        exact .inr (.inl ⟨.panicked .continuation p, _, _, rfl, rfl, .refused hk rfl⟩)

theorem unwinds_of_unwind (hx : M.Exact) {stack : Frames S} {v : S.Value} {u : Unwound S}
    (h : M.Runs (unwind fns catching stack v) s u s') :
    (∃ v' l, u = .delivered v' ∧ visited l = [] ∧
      Unwinds M fns stack.list (.ok v) s (.ok v') l s') ∨
    (∃ c rest l, u = .stopped (.ofStop catching c) rest ∧ visited l = [] ∧
      Unwinds M fns stack.list (.ok v) s (.error c) l s') ∨
    ∃ e rest l₁, u = .entered e rest ∧ visited l₁ = [] ∧ ∀ w l s'',
      Completes M fns e rest.list s' w l s'' →
        Unwinds M fns stack.list (.ok v) s w (l₁ ++ l) s'' := by
  rw [unwind_eq] at h
  exact unwinds_of_unwindList hx h

/-- A slice that does not end in a suspension has come to the end of the evaluation; a suspended
one has got as far as its budget goes, and whatever follows is the rest of the evaluation. -/
theorem completes_of_descend (hx : M.Exact) (hq : fns.Quiet M) {n : Nat} {stack : Frames S}
    {stats : Stats} {a : Answer S} {t : Trampoline S}
    (h : M.Runs (descend fns catching n e stack stats) s (a, t) s') :
    (∃ w l, a = .ofVerdict catching w ∧ t.stats = stats.after l ∧ (visited l).length ≤ n ∧
      Completes M fns e stack.list s w l s') ∨
    ∃ e₁ l₁, a = .suspended ∧ t.current = some e₁ ∧ t.stats = (stats.after l₁).suspend ∧
      (visited l₁).length = n ∧ ∀ w l s'',
        Completes M fns e₁ t.stack.list s' w l s'' →
          Completes M fns e stack.list s w (l₁ ++ l) s'' := by
  -- On the budget again; what the slice has run is taken apart bind by bind.
  induction n generalizing e stack stats s with
  | zero =>
    obtain ⟨_, s₁, ho, h₁⟩ := hx.of_bind h
    obtain rfl := hq _ _ _ ho
    obtain ⟨ha, rfl⟩ := hx.of_pure h₁
    cases ha
    exact .inr ⟨e, [], rfl, rfl, rfl, rfl, fun _ _ _ hc => hc⟩
  | succ n ih =>
    rcases e.sync_or_around with ⟨leaf, rfl⟩ | ⟨frame, e, rfl⟩
    · obtain ⟨_, s₁, ho, h₁⟩ := hx.of_bind h
      obtain rfl := hq _ _ _ ho
      obtain ⟨out, s₁, ht, h₂⟩ := hx.of_bind h₁
      cases out with
      | returned v =>
        obtain ⟨u, s₂, hu, h₃⟩ := hx.of_bind h₂
        rcases unwinds_of_unwind hx hu with
          ⟨v', l, rfl, hl, hw⟩ | ⟨c, rest, l, rfl, hl, hw⟩ | ⟨e, rest, l₁, rfl, hl, hw⟩
        · obtain ⟨ha, rfl⟩ := hx.of_pure h₃
          cases ha
          exact .inl ⟨.ok v', _, rfl, by simp [Stats.after, Stats.after_of_visited_nil _ hl],
            by simp [hl], completes_sync_iff.2 ⟨_, _, _, ht, hw, rfl⟩⟩
        · obtain ⟨ha, rfl⟩ := hx.of_pure h₃
          cases ha
          exact .inl ⟨.error c, _, rfl, by simp [Stats.after, Stats.after_of_visited_nil _ hl],
            by simp [hl], completes_sync_iff.2 ⟨_, _, _, ht, hw, rfl⟩⟩
        · -- The rest of the budget was spent on the effect that a continuation returned.
          have hafter (l : List (Deed S)) : stats.after (visit (.sync leaf) stack.list.length ::
              call (.thunk leaf) :: (l₁ ++ l)) = stats.visit.after l := by
            simp [Stats.after, Stats.after_append, Stats.after_of_visited_nil _ hl]
          rcases ih h₃ with ⟨w, l, rfl, hs, hn, hc⟩ | ⟨e₁, l₂, rfl, ht', hs, hn, hc⟩
          · exact .inl ⟨w, _, rfl, hs.trans (hafter l).symm, by simpa [hl] using hn,
              completes_sync_iff.2 ⟨_, _, _, ht, hw w l s' hc, rfl⟩⟩
          · have hn' : (visited (visit (.sync leaf) stack.list.length ::
                call (.thunk leaf) :: (l₁ ++ l₂))).length = n + 1 := by simpa [hl] using hn
            refine .inr ⟨e₁, _, rfl, ht', ?_, hn', fun w l s'' h' => ?_⟩
            · rw [hs, hafter]
            · refine completes_sync_iff.2
                ⟨_, _, l₁ ++ (l₂ ++ l), ht, hw w _ s'' (hc w l s'' h'), ?_⟩
              simp
      | mismatched expected =>
        obtain ⟨ha, rfl⟩ := hx.of_pure h₂
        cases ha
        exact .inl ⟨.error (.mismatched expected), _, rfl, by simp [Stats.after], by simp,
          completes_sync_iff.2 ⟨_, _, [], ht, .stopped, rfl⟩⟩
      | panicked p =>
        obtain ⟨ha, rfl⟩ := hx.of_pure h₂
        cases ha
        exact .inl ⟨.error (.panicked .thunk p), _, rfl, by simp [Stats.after], by simp,
          completes_sync_iff.2 ⟨_, _, [], ht, .stopped, rfl⟩⟩
    · -- The slice has pushed the frame and gone on with the source.
      rw [descend_around] at h
      obtain ⟨_, s₁, ho, h₁⟩ := hx.of_bind h
      obtain rfl := hq _ _ _ ho
      have hafter (l : List (Deed S)) : (stats.visit.reach (stack.height + 1)).after l =
          stats.after (visit (frame.around e) stack.list.length :: l) := by
        rw [Stats.after_visit_around, ← stack.height_eq]
      rcases ih h₁ with ⟨w, l, rfl, hs, hl, hc⟩ | ⟨e₁, l₁, rfl, ht, hs, hl, hc⟩
      · exact .inl ⟨w, _, rfl, hs.trans (hafter l), by simpa using hl,
          (completes_around_iff frame).2 ⟨l, rfl, hc⟩⟩
      · refine .inr ⟨e₁, visit (frame.around e) stack.list.length :: l₁, rfl, ht, ?_,
          by simpa using hl, fun w l s'' h' => ?_⟩
        · rw [hs, hafter]
        · exact (completes_around_iff frame).2 ⟨_, rfl, hc w l s'' h'⟩

end Trampoline

end LazyEffects
