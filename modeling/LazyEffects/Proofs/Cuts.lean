import LazyEffects.Proofs.Courses

/-!
# Evaluations that are cut

An evaluation that is given up between two nodes has done what it does until then, whether it would
have come to an end or not. Slices cut it nowhere else.

* `Proceeds` is the direct evaluation up to the visit of some node, with everything done on the way;
* `Evaluates.proceeds` and `Proceeds.cut`: an evaluation has done a first part of its deeds when it
  gets to a node;
* `Trampoline.descend_of_goes` and `Trampoline.goes_of_descend`: a slice that is suspended has got as
  far as its budget goes;
* `Errand.Course.splits_goes` and `Errand.Course.proceeds`: so have all slices together.
-/

namespace LazyEffects

open Deed

variable {S : Signature} {m : Type → Type} [Monad m] {σ : Type}

/-! ### Up to a node -/

section

variable (M : Meaning m σ) (fns : Functions S m)

/-- `Proceeds d e s deeds s'`: evaluating `e` from the state `s`, with `d` frames pending, does
`deeds`, leaves the state `s'` and is about to go into a node. -/
inductive Proceeds : ℕ → Effect S → σ → List (Deed S) → σ → Prop where
  | next {d : ℕ} {e : Effect S} {s : σ} : Proceeds d e s [] s
  | map {d : ℕ} {e : Effect S} {f : S.Transform} {l : List (Deed S)} {s s' : σ} :
    Proceeds (d + 1) e s l s' → Proceeds d (.map e f) s (visit (.map e f) d :: l) s'
  | flatMap {d : ℕ} {e : Effect S} {k : S.Continuation} {l : List (Deed S)} {s s' : σ} :
    Proceeds (d + 1) e s l s' → Proceeds d (.flatMap e k) s (visit (.flatMap e k) d :: l) s'
  /-- A continuation has returned. -/
  | continued {d : ℕ} {e e' : Effect S} {k : S.Continuation} {v : S.Value} {l l' : List (Deed S)}
    {s s₁ s₂ s' : σ} : Evaluates M fns (d + 1) e s (.ok v) l s₁ →
    M.Runs (fns.continuation k v) s₁ (.returned e') s₂ → Proceeds d e' s₂ l' s' →
    Proceeds d (.flatMap e k) s (visit (.flatMap e k) d :: l ++ call (.continuation k v) :: l') s'

/-- `Continues list v s deeds s'`: handing `v` to the frames of `list`, topmost first, does `deeds`,
leaves the state `s'` and is about to go into a node. -/
inductive Continues : List (Frame S) → S.Value → σ → List (Deed S) → σ → Prop where
  | map {list : List (Frame S)} {f : S.Transform} {v v' : S.Value} {l : List (Deed S)}
    {s s₁ s' : σ} : M.Runs (fns.transform f v) s (.returned v') s₁ → Continues list v' s₁ l s' →
    Continues (.map f :: list) v s (call (.transform f v) :: l) s'
  | entered {list : List (Frame S)} {k : S.Continuation} {v : S.Value} {e : Effect S}
    {l : List (Deed S)} {s s₁ s' : σ} : M.Runs (fns.continuation k v) s (.returned e) s₁ →
    Proceeds M fns list.length e s₁ l s' →
    Continues (.flatMap k :: list) v s (call (.continuation k v) :: l) s'
  | passed {list : List (Frame S)} {k : S.Continuation} {v v' : S.Value} {e : Effect S}
    {l l' : List (Deed S)} {s s₁ s₂ s' : σ} : M.Runs (fns.continuation k v) s (.returned e) s₁ →
    Evaluates M fns list.length e s₁ (.ok v') l s₂ → Continues list v' s₂ l' s' →
    Continues (.flatMap k :: list) v s (call (.continuation k v) :: (l ++ l')) s'

/-- Evaluating `e` and handing its value to the frames of `list` does `deeds` and is about to go into
a node. -/
inductive Goes (e : Effect S) (list : List (Frame S)) (s : σ) : List (Deed S) → σ → Prop where
  | within {l : List (Deed S)} {s' : σ} : Proceeds M fns list.length e s l s' → Goes e list s l s'
  | beyond {v : S.Value} {l₁ l₂ : List (Deed S)} {s₁ s' : σ} :
    Evaluates M fns list.length e s (.ok v) l₁ s₁ → Continues M fns list v s₁ l₂ s' →
    Goes e list s (l₁ ++ l₂) s'

end

variable {M : Meaning m σ} {fns : Functions S m} {d n : ℕ} {e : Effect S} {list : List (Frame S)}
  {s s' : σ} {w : Verdict S} {l : List (Deed S)} {v : S.Value}

/-- The nodes of an effect whose continuation returns another. -/
theorem length_visited_continued (node : Effect S) (stack : ℕ) (c : Call S)
    (l l' : List (Deed S)) : (visited (visit node stack :: l ++ call c :: l')).length =
      (visited l).length + (visited l').length + 1 := by
  simp only [List.cons_append, visited_visit, visited_append, visited_call, List.length_cons,
    List.length_append]

/-- Before it goes into a node, an evaluation has done those of its deeds that come before. -/
theorem Evaluates.proceeds (h : Evaluates M fns d e s w l s') (hn : n < (visited l).length) :
    ∃ l₁ node stack l₂ s₁, l = l₁ ++ visit node stack :: l₂ ∧ (visited l₁).length = n ∧
      Proceeds M fns d e s l₁ s₁ := by
  induction h generalizing n with
  | @sync d t out s s' ht =>
    obtain rfl : n = 0 := by simpa using hn
    exact ⟨[], _, _, _, s, rfl, rfl, .next⟩
  | @map d e f v out l s s' s'' _ hf ih =>
    cases n with
    | zero => exact ⟨[], _, _, _, s, rfl, rfl, .next⟩
    | succ n =>
      obtain ⟨l₁, node, stack, l₂, s₁, rfl, hl, hp⟩ := ih (n := n) (by simpa using hn)
      exact ⟨visit (.map e f) d :: l₁, node, stack, l₂ ++ [call (.transform f v)], s₁, by simp,
        by simp [hl], .map hp⟩
  | @mapStopped d e f c l s s' _ ih =>
    cases n with
    | zero => exact ⟨[], _, _, _, s, rfl, rfl, .next⟩
    | succ n =>
      obtain ⟨l₁, node, stack, l₂, s₁, rfl, hl, hp⟩ := ih (n := n) (by simpa using hn)
      exact ⟨visit (.map e f) d :: l₁, node, stack, l₂, s₁, by simp, by simp [hl], .map hp⟩
  | @flatMap d e e' k v w l l' s s' s'' s₃ he hk he' ih ih' =>
    cases n with
    | zero => exact ⟨[], _, _, _, s, rfl, rfl, .next⟩
    | succ n =>
      -- The node is one of the source, or one of the effect that the continuation returns.
      rcases Nat.lt_or_ge n (visited l).length with hlt | hge
      · obtain ⟨l₁, node, stack, l₂, s₁, rfl, hl, hp⟩ := ih hlt
        exact ⟨visit (.flatMap e k) d :: l₁, node, stack, l₂ ++ call (.continuation k v) :: l', s₁,
          by simp, by simp [hl], .flatMap hp⟩
      · rw [length_visited_continued] at hn
        have hn' : n - (visited l).length < (visited l').length := by omega
        obtain ⟨l₁, node, stack, l₂, s₁, rfl, hl, hp⟩ := ih' hn'
        refine ⟨visit (.flatMap e k) d :: l ++ call (.continuation k v) :: l₁, node, stack, l₂, s₁,
          by simp, ?_, .continued he hk hp⟩
        rw [length_visited_continued, hl]
        omega
  | @flatMapRefused d e k v out c l s s' s'' _ hk hc ih =>
    cases n with
    | zero => exact ⟨[], _, _, _, s, rfl, rfl, .next⟩
    | succ n =>
      obtain ⟨l₁, node, stack, l₂, s₁, rfl, hl, hp⟩ := ih (n := n) (by simpa using hn)
      exact ⟨visit (.flatMap e k) d :: l₁, node, stack, l₂ ++ [call (.continuation k v)], s₁,
        by simp, by simp [hl], .flatMap hp⟩
  | @flatMapStopped d e k c l s s' _ ih =>
    cases n with
    | zero => exact ⟨[], _, _, _, s, rfl, rfl, .next⟩
    | succ n =>
      obtain ⟨l₁, node, stack, l₂, s₁, rfl, hl, hp⟩ := ih (n := n) (by simpa using hn)
      exact ⟨visit (.flatMap e k) d :: l₁, node, stack, l₂, s₁, by simp, by simp [hl], .flatMap hp⟩

/-- An evaluation that gets to a node has got to those before. -/
theorem Proceeds.cut (h : Proceeds M fns d e s l s') (hn : n ≤ (visited l).length) :
    ∃ l₁ s₁, l₁ <+: l ∧ (visited l₁).length = n ∧ Proceeds M fns d e s l₁ s₁ := by
  induction h generalizing n with
  | @next d e s =>
    obtain rfl : n = 0 := by simpa using hn
    exact ⟨[], s, List.nil_prefix, rfl, .next⟩
  | @map d e f l s s' _ ih =>
    cases n with
    | zero => exact ⟨[], s, List.nil_prefix, rfl, .next⟩
    | succ n =>
      obtain ⟨l₁, s₁, hl₁, hl, hp⟩ := ih (n := n) (by simpa using hn)
      exact ⟨visit (.map e f) d :: l₁, s₁, List.cons_prefix_cons.2 ⟨rfl, hl₁⟩, by simp [hl], .map hp⟩
  | @flatMap d e k l s s' _ ih =>
    cases n with
    | zero => exact ⟨[], s, List.nil_prefix, rfl, .next⟩
    | succ n =>
      obtain ⟨l₁, s₁, hl₁, hl, hp⟩ := ih (n := n) (by simpa using hn)
      exact ⟨visit (.flatMap e k) d :: l₁, s₁, List.cons_prefix_cons.2 ⟨rfl, hl₁⟩, by simp [hl],
        .flatMap hp⟩
  | @continued d e e' k v l l' s s₁ s₂ s' he hk _ ih =>
    cases n with
    | zero => exact ⟨[], s, List.nil_prefix, rfl, .next⟩
    | succ n =>
      rcases Nat.lt_or_ge n (visited l).length with hlt | hge
      · obtain ⟨l₁, node, stack, l₂, s₃, rfl, hl, hp⟩ := he.proceeds hlt
        exact ⟨visit (.flatMap e k) d :: l₁, s₃, by simp, by simp [hl], .flatMap hp⟩
      · rw [length_visited_continued] at hn
        have hn' : n - (visited l).length ≤ (visited l').length := by omega
        obtain ⟨l₁, s₃, hl₁, hl, hp⟩ := ih hn'
        refine ⟨visit (.flatMap e k) d :: l ++ call (.continuation k v) :: l₁, s₃, by simpa, ?_,
          .continued he hk hp⟩
        rw [length_visited_continued, hl]
        omega

theorem goes_nil_iff : Goes M fns e [] s l s' ↔ Proceeds M fns 0 e s l s' := by
  constructor
  · rintro (hp | ⟨-, hc⟩)
    · exact hp
    · cases hc
  · exact fun hp => .within hp

/-- A continuation that returns puts the effect it returns in the place of its frame. -/
theorem continues_flatMap_of_goes {k : S.Continuation} {s₁ : σ}
    (hk : M.Runs (fns.continuation k v) s (.returned e) s₁) (h : Goes M fns e list s₁ l s') :
    Continues M fns (.flatMap k :: list) v s (call (.continuation k v) :: l) s' := by
  cases h with
  | within hp => exact .entered hk hp
  | beyond he hc => exact .passed hk he hc

/-- Going down to the source of a transform leaves its frame behind. -/
theorem goes_map_iff {f : S.Transform} : Goes M fns (.map e f) list s l s' ↔
    (l = [] ∧ s' = s) ∨ ∃ l', l = visit (.map e f) list.length :: l' ∧
      Goes M fns e (.map f :: list) s l' s' := by
  constructor
  · rintro (hp | ⟨he, hc⟩)
    · cases hp with
      | next => exact .inl ⟨rfl, rfl⟩
      | map hp => exact .inr ⟨_, rfl, .within hp⟩
    · generalize hw : (Except.ok _ : Verdict S) = w at he
      cases he with
      | @map _ _ _ v out l _ s₁ s₂ he hf =>
        cases out with
        | returned v' =>
          cases hw
          exact .inr ⟨_, by simp, .beyond he (.map hf hc)⟩
        | mismatched => cases hw
        | panicked => cases hw
      | mapStopped => cases hw
  · rintro (⟨rfl, rfl⟩ | ⟨l', rfl, hp | ⟨he, hc⟩⟩)
    · exact .within .next
    · exact .within (.map hp)
    · cases hc with
      | map hf hc => simpa [Outcome.within] using Goes.beyond (.map he hf) hc

/-- Going down to the source of a continuation leaves its frame behind. -/
theorem goes_flatMap_iff {k : S.Continuation} : Goes M fns (.flatMap e k) list s l s' ↔
    (l = [] ∧ s' = s) ∨ ∃ l', l = visit (.flatMap e k) list.length :: l' ∧
      Goes M fns e (.flatMap k :: list) s l' s' := by
  constructor
  · rintro (hp | ⟨he, hc⟩)
    · cases hp with
      | next => exact .inl ⟨rfl, rfl⟩
      | flatMap hp => exact .inr ⟨_, rfl, .within hp⟩
      | continued he hk hp => exact .inr ⟨_, by simp, .beyond he (.entered hk hp)⟩
    · cases he with
      | flatMap he hk he' => exact .inr ⟨_, by simp, .beyond he (.passed hk he' hc)⟩
  · rintro (⟨rfl, rfl⟩ | ⟨l', rfl, hp | ⟨he, hc⟩⟩)
    · exact .within .next
    · exact .within (.flatMap hp)
    · cases hc with
      | entered hk hp =>
        have hp' : Proceeds M fns list.length (.flatMap e k) s _ s' := .continued he hk hp
        simpa using Goes.within hp'
      | passed hk he' hc => simpa using Goes.beyond (.flatMap he hk he') hc

theorem goes_around_iff (frame : Frame S) : Goes M fns (frame.around e) list s l s' ↔
    (l = [] ∧ s' = s) ∨ ∃ l', l = visit (frame.around e) list.length :: l' ∧
      Goes M fns e (frame :: list) s l' s' := by
  cases frame with
  | map f => exact goes_map_iff
  | flatMap k => exact goes_flatMap_iff

/-- At a leaf the thunk is called, and its value goes to the frames. -/
theorem goes_sync_iff {t : S.Thunk} : Goes M fns (.sync t) list s l s' ↔
    (l = [] ∧ s' = s) ∨ ∃ v s₁ l', M.Runs (fns.thunk t) s (.returned v) s₁ ∧
      Continues M fns list v s₁ l' s' ∧
        l = visit (.sync t) list.length :: call (.thunk t) :: l' := by
  constructor
  · rintro (hp | ⟨he, hc⟩)
    · cases hp
      exact .inl ⟨rfl, rfl⟩
    · generalize hw : (Except.ok _ : Verdict S) = w at he
      cases he with
      | @sync _ _ out _ s₁ ht =>
        cases out with
        | returned v =>
          cases hw
          exact .inr ⟨_, _, _, ht, hc, by simp⟩
        | mismatched => cases hw
        | panicked => cases hw
  · rintro (⟨rfl, rfl⟩ | ⟨v, s₁, l', ht, hc, rfl⟩)
    · exact .within .next
    · have he : Evaluates M fns list.length (.sync t) s (.ok v)
          [visit (.sync t) list.length, call (.thunk t)] s₁ := .sync ht
      exact .beyond he hc

/-- Without a visit nothing is done. -/
theorem Goes.eq_of_visited (h : Goes M fns e list s l s') (hl : visited l = []) :
    l = [] ∧ s' = s := by
  rcases e.sync_or_around with ⟨t, rfl⟩ | ⟨frame, e, rfl⟩
  · rcases goes_sync_iff.1 h with h | ⟨v, s₁, l', -, -, rfl⟩
    · exact h
    · simp at hl
  · rcases (goes_around_iff frame).1 h with h | ⟨l', rfl, -⟩
    · exact h
    · simp at hl

/-! ### A slice that is suspended -/

namespace Trampoline

variable {catching : Bool}

/-- The frames take a value to an effect if what is left is about to go into a node. -/
theorem unwindList_of_continues (catching : Bool) (h : Continues M fns list v s l s') :
    ∃ e rest s₁ l₁ l₂,
      M.Runs (unwindList fns catching list list.length rfl v) s (.entered e rest) s₁ ∧
      l = l₁ ++ l₂ ∧ visited l₁ = [] ∧ Goes M fns e rest.list s₁ l₂ s' := by
  induction h with
  | @map list f v v' l s s₁ s' hf _ ih =>
    obtain ⟨e, rest, s₂, l₁, l₂, hr, rfl, hl, hg⟩ := ih
    exact ⟨e, rest, s₂, call (.transform f v) :: l₁, l₂, M.runs_bind hf hr, rfl, hl, hg⟩
  | @entered list k v e l s s₁ s' hk hp =>
    exact ⟨e, ⟨list, _, rfl⟩, s₁, [call (.continuation k v)], l,
      M.runs_bind hk (M.runs_pure _ _), rfl, rfl, .within hp⟩
  | @passed list k v v' e l l' s s₁ s₂ s' hk he hc ih =>
    exact ⟨e, ⟨list, _, rfl⟩, s₁, [call (.continuation k v)], l ++ l',
      M.runs_bind hk (M.runs_pure _ _), rfl, rfl, .beyond he hc⟩

variable (catching) in
/-- A slice of an evaluation that goes on for at least as many nodes as its budget grants is
suspended on the way. -/
theorem descend_of_goes (hq : fns.Silent M) {stack : Frames S} (stats : Stats)
    (h : Goes M fns e stack.list s l s') (hn : n ≤ (visited l).length) :
    ∃ e₁ rest s₁ l₁ l₂, M.Runs (descend fns catching n e stack stats) s
        (.suspended, ⟨some e₁, rest, (stats.after l₁).suspend⟩) s₁ ∧
      l = l₁ ++ l₂ ∧ (visited l₁).length = n ∧ Goes M fns e₁ rest.list s₁ l₂ s' := by
  -- On the budget, as for evaluations that end, but here no slice comes to an end.
  induction n generalizing e stack stats s l with
  | zero =>
    exact ⟨e, stack, s, [], l, M.runs_bind (hq _ _) (M.runs_pure _ _), rfl, rfl, h⟩
  | succ n ih =>
    rcases e.sync_or_around with ⟨t, rfl⟩ | ⟨frame, e, rfl⟩
    · rcases goes_sync_iff.1 h with ⟨rfl, -⟩ | ⟨v, s₁, l, ht, hc, rfl⟩
      · simp at hn
      obtain ⟨e, rest, s₂, l₁, l₂, hu, rfl, hl, hg⟩ := unwindList_of_continues catching hc
      rw [← unwind_eq] at hu
      obtain ⟨e₁, rest', s₃, l₃, l₄, hr, rfl, hl₃, hg'⟩ :=
        ih stats.visit hg (by simpa [hl] using hn)
      refine ⟨e₁, rest', s₃, visit (.sync t) stack.list.length :: call (.thunk t) :: (l₁ ++ l₃), l₄,
        M.runs_bind (hq _ _) (M.runs_bind ht ?_), by simp, by simpa [hl] using hl₃, hg'⟩
      simp only [Stats.after, Stats.after_append, Stats.after_of_visited_nil _ hl]
      exact M.runs_bind hu hr
    · rcases (goes_around_iff frame).1 h with ⟨rfl, -⟩ | ⟨l, rfl, hg⟩
      · simp at hn
      have hg : Goes M fns e (stack.push frame).list s l s' := hg
      obtain ⟨e₁, rest, s₁, l₁, l₂, hr, rfl, hl, hg'⟩ :=
        ih (stats.visit.reach (stack.height + 1)) hg (by simpa using hn)
      refine ⟨e₁, rest, s₁, visit (frame.around e) stack.list.length :: l₁, l₂, ?_, rfl,
        by simpa using hl, hg'⟩
      rw [descend_around]
      refine M.runs_bind (hq _ _) ?_
      rwa [Stats.after_visit_around, ← stack.height_eq]

/-- When the frames take a value to an effect, what follows there follows the value. -/
theorem continues_of_unwindList (hx : M.Exact) {rest : Frames S}
    (h : M.Runs (unwindList fns catching list list.length rfl v) s (.entered e rest) s') :
    ∃ l₁, visited l₁ = [] ∧ ∀ l s'', Goes M fns e rest.list s' l s'' →
      Continues M fns list v s (l₁ ++ l) s'' := by
  induction list generalizing v s with
  | nil => cases (hx.of_pure h).1
  | cons frame list ih =>
    cases frame with
    | map f =>
      obtain ⟨out, s₁, hf, h⟩ := hx.of_bind h
      cases out with
      | returned v' =>
        obtain ⟨l₁, hl, hg⟩ := ih h
        exact ⟨call (.transform f v) :: l₁, hl, fun l s'' h' => .map hf (hg l s'' h')⟩
      | mismatched expected => cases (hx.of_pure h).1
      | panicked p => cases (hx.of_pure h).1
    | flatMap k =>
      obtain ⟨out, s₁, hk, h⟩ := hx.of_bind h
      cases out with
      | returned e₁ =>
        obtain ⟨hout, rfl⟩ := hx.of_pure h
        cases hout
        exact ⟨[call (.continuation k v)], rfl, fun l s'' h' => continues_flatMap_of_goes hk h'⟩
      | mismatched expected => cases (hx.of_pure h).1
      | panicked p => cases (hx.of_pure h).1

/-- A slice that is suspended has got as far as its budget goes, and what follows from there follows
what it has done. -/
theorem goes_of_descend (hx : M.Exact) (hq : fns.Quiet M) {stack : Frames S} {stats : Stats}
    {t : Trampoline S} (h : M.Runs (descend fns catching n e stack stats) s (.suspended, t) s') :
    ∃ e₁ l₁, t.current = some e₁ ∧ (visited l₁).length = n ∧ ∀ l s'',
      Goes M fns e₁ t.stack.list s' l s'' → Goes M fns e stack.list s (l₁ ++ l) s'' := by
  induction n generalizing e stack stats s with
  | zero =>
    obtain ⟨_, s₁, ho, h₁⟩ := hx.of_bind h
    obtain rfl := hq _ _ _ ho
    obtain ⟨hout, rfl⟩ := hx.of_pure h₁
    cases hout
    exact ⟨e, [], rfl, rfl, fun _ _ hg => hg⟩
  | succ n ih =>
    rcases e.sync_or_around with ⟨leaf, rfl⟩ | ⟨frame, e, rfl⟩
    · obtain ⟨_, s₁, ho, h₁⟩ := hx.of_bind h
      obtain rfl := hq _ _ _ ho
      obtain ⟨out, s₁, ht, h₂⟩ := hx.of_bind h₁
      cases out with
      | returned v =>
        obtain ⟨unwound, s₂, hu, h₃⟩ := hx.of_bind h₂
        cases unwound with
        | delivered v' => cases (hx.of_pure h₃).1
        | entered e rest =>
          rw [unwind_eq] at hu
          obtain ⟨l₁, hl₁, hg⟩ := continues_of_unwindList hx hu
          obtain ⟨e₁, l₂, he₁, hl₂, hg'⟩ := ih h₃
          refine ⟨e₁, visit (.sync leaf) stack.list.length :: call (.thunk leaf) :: (l₁ ++ l₂), he₁,
            by simpa [hl₁] using hl₂, fun l s'' h' => ?_⟩
          exact goes_sync_iff.2 (.inr ⟨_, _, l₁ ++ (l₂ ++ l), ht, hg _ _ (hg' l s'' h'), by simp⟩)
        | stopped a rest =>
          have ha := congrArg Prod.fst (hx.of_pure h₃).1
          rcases unwinds_of_unwind hx hu with
            ⟨v', l, hv, -⟩ | ⟨c, rest', l, hc, -⟩ | ⟨e, rest', l₁, he, -⟩
          · cases hv
          · cases hc
            exact absurd ha.symm (Answer.ofStop_ne_suspended catching c)
          · cases he
      | mismatched expected => cases (hx.of_pure h₂).1
      | panicked p =>
        exact absurd (congrArg Prod.fst (hx.of_pure h₂).1).symm
          (Answer.ofStop_ne_suspended catching (.panicked .thunk p))
    · rw [descend_around] at h
      obtain ⟨_, s₁, ho, h₁⟩ := hx.of_bind h
      obtain rfl := hq _ _ _ ho
      obtain ⟨e₁, l₁, he₁, hl₁, hg⟩ := ih h₁
      exact ⟨e₁, visit (frame.around e) stack.list.length :: l₁, he₁, by simpa using hl₁,
        fun l s'' h' => (goes_around_iff frame).2 (.inr ⟨_, rfl, hg l s'' h'⟩)⟩

end Trampoline

/-! ### Slice by slice -/

namespace Errand

variable {K : Codes} {M A : Type} {client : Client K M} {own : M → A} {E : Errand K A} {k : ℕ}
  {t t' : Trampoline K.signature} {x x' y : A} {l : List (Deed K.signature)}

/-- What the slices have gone through is an evaluation up to the node that is next. -/
theorem Course.proceeds (hs : client.Spares own) (h : E.Course client own k t x) :
    ∃ l, (visited l).length = k * E.budget ∧
      Proceeds (.amidst own) client.functions 0 E.root E.start l x := by
  have hall : ∃ e l, t.current = some e ∧ (visited l).length = k * E.budget ∧ ∀ l' x',
      Goes (.amidst own) client.functions e t.stack.list x l' x' →
        Goes (.amidst own) client.functions E.root [] E.start (l ++ l') x' := by
    induction h with
    | start => exact ⟨E.root, [], rfl, (Nat.zero_mul _).symm, fun _ _ hg => hg⟩
    | @slice k t t' x x' _ hslice ih =>
      obtain ⟨e, l, he, hl, hrest⟩ := ih
      obtain ⟨memory, memory', rfl, rfl, hleads⟩ := hslice
      rw [slice_eq he] at hleads
      obtain ⟨e₁, l₁, he₁, hl₁, hrest₁⟩ :=
        Trampoline.goes_of_descend (Meaning.amidst_exact own) hs.quiet hleads.may
      refine ⟨e₁, l ++ l₁, he₁, ?_, fun l' x' hg => ?_⟩
      · rw [visited_append, List.length_append, hl, hl₁, Nat.add_one_mul]
      · rw [List.append_assoc]
        exact hrest _ _ (hrest₁ l' x' hg)
  obtain ⟨e, l, -, hl, hrest⟩ := hall
  have hgoes := hrest [] x (.within .next)
  rw [List.append_nil] at hgoes
  exact ⟨l, hl, goes_nil_iff.1 hgoes⟩

/-- An evaluation that goes beyond the slices is the one that they have gone through and what is
ahead of them. -/
theorem Course.splits_goes (hs : client.Spares own)
    (hp : Proceeds (.own own) client.functions 0 E.root E.start l y)
    (h : E.Course client own k t x) (hk : k * E.budget ≤ (visited l).length) :
    ∃ e l₁ l₂, t.current = some e ∧ l = l₁ ++ l₂ ∧ (visited l₁).length = k * E.budget ∧
      t.stats = Stats.zero.pausing k l₁ ∧
        Goes (.own own) client.functions e t.stack.list x l₂ y := by
  induction h with
  | start => exact ⟨E.root, [], l, rfl, rfl, (Nat.zero_mul _).symm, rfl, goes_nil_iff.2 hp⟩
  | @slice k t t' x x' _ hslice ih =>
    rw [Nat.add_one_mul] at hk
    obtain ⟨e, l₁, l₂, hcurrent, rfl, hl₁, hstats, hg⟩ := ih (by omega)
    rw [visited_append, List.length_append, hl₁] at hk
    obtain ⟨e₁, rest, x₁, l₃, l₄, hr, rfl, hl₃, hg'⟩ := Trampoline.descend_of_goes
      E.config.catchPanics hs.silent t.stats hg (Nat.le_of_add_le_add_left hk)
    rw [← slice_eq hcurrent] at hr
    obtain ⟨hout, rfl⟩ := Slice.unique hr hslice
    cases hout
    refine ⟨e₁, l₁ ++ l₃, l₄, rfl, by simp, ?_, ?_, hg'⟩
    · rw [visited_append, List.length_append, hl₁, hl₃, Nat.add_one_mul]
    · rw [hstats, Stats.pausing_suspended]

/-- After as many slices as make it up, an evaluation is where they are. -/
theorem Course.eq_of_proceeds (hs : client.Spares own)
    (hp : Proceeds (.own own) client.functions 0 E.root E.start l y)
    (h : E.Course client own k t x) (hk : (visited l).length = k * E.budget) :
    x = y ∧ t.stats = Stats.zero.pausing k l := by
  obtain ⟨e, l₁, l₂, -, rfl, hl₁, hstats, hg⟩ := h.splits_goes hs hp hk.ge
  have hnil : visited l₂ = [] := by
    rw [visited_append, List.length_append, hl₁] at hk
    exact List.eq_nil_of_length_eq_zero (by omega)
  obtain ⟨rfl, rfl⟩ := hg.eq_of_visited hnil
  exact ⟨rfl, by rw [List.append_nil, hstats]⟩

/-- As long as the evaluation goes on for another slice, that slice is suspended. -/
theorem Course.runs_suspended (hs : client.Spares own)
    (hp : Proceeds (.own own) client.functions 0 E.root E.start l y)
    (h : E.Course client own k t x) (hk : (k + 1) * E.budget ≤ (visited l).length) :
    ∃ t' x', (Meaning.own own).Runs (E.slice client t) x (.suspended, t') x' := by
  rw [Nat.add_one_mul] at hk
  obtain ⟨e, l₁, l₂, hcurrent, rfl, hl₁, -, hg⟩ := h.splits_goes hs hp (by omega)
  rw [visited_append, List.length_append, hl₁] at hk
  obtain ⟨e₁, rest, x₁, l₃, l₄, hr, -⟩ := Trampoline.descend_of_goes E.config.catchPanics hs.silent
    t.stats hg (Nat.le_of_add_le_add_left hk)
  rw [← slice_eq hcurrent] at hr
  exact ⟨_, x₁, hr⟩

/-- A slice of an evaluation that ends is suspended, or it is the last. -/
theorem Course.runs_of_evaluates (hs : client.Spares own) {w : Verdict K.signature}
    (he : Evaluates (.own own) client.functions 0 E.root E.start w l y)
    (h : E.Course client own k t x) :
    ∃ a t' x', (Meaning.own own).Runs (E.slice client t) x (a, t') x' := by
  obtain ⟨e, l₁, l₂, hcurrent, -, -, -, hc⟩ := h.splits hs he
  rcases Trampoline.descend_of_completes E.config.catchPanics hs.silent E.budget t.stats hc with
    ⟨-, rest, hr⟩ | ⟨-, e₁, rest, x₁, l₃, l₄, hr, -⟩
  all_goals
    rw [← slice_eq hcurrent] at hr
    exact ⟨_, _, _, hr⟩

end Errand

end LazyEffects
