import LazyEffects.Proofs.Unfolding

/-!
# What slices have done so far

An evaluation need not end. Where it has got to is told by the effect that is still to be evaluated,
which is the node that is next with the pending frames around it.

* `Reaches` says where an evaluation gets to;
* `Trampoline.suspended_iff_reaches`: slices that are suspended have had the effects of an
  evaluation that has got somewhere, and slices can be suspended wherever it gets to.
-/

namespace LazyEffects

variable {S : Signature} {m : Type → Type} [Monad m] {σ : Type}

/-- `Reaches e s e' s'`: evaluating `e` from the state `s` may get to the state `s'`, with `e'` left
to evaluate. -/
inductive Reaches (M : Meaning m σ) (fns : Functions S m) : Effect S → σ → Effect S → σ → Prop where
  | refl {e : Effect S} {s : σ} : Reaches M fns e s e s
  | source {e e' : Effect S} {s s' : σ} (frame : Frame S) :
    Reaches M fns e s e' s' → Reaches M fns (frame.around e) s (frame.around e') s'
  /-- A continuation has returned. -/
  | continued {e e' e'' : Effect S} {k : S.Continuation} {v : S.Value} {u : Unfolding}
    {s s₁ s₂ s' : σ} : Unfolds M fns e s (.ok v) u s₁ →
    M.Runs (fns.continuation k v) s₁ (.returned e') s₂ → Reaches M fns e' s₂ e'' s' →
    Reaches M fns (.flatMap e k) s e'' s'

/-- An effect with frames around it, the topmost innermost. -/
def Effect.under (e : Effect S) (list : List (Frame S)) : Effect S :=
  list.foldl (fun e frame => frame.around e) e

theorem Frame.around_inj {frame frame' : Frame S} {e e' : Effect S}
    (h : frame.around e = frame'.around e') : frame = frame' ∧ e = e' := by
  cases frame <;> cases frame' <;> cases h <;> exact ⟨rfl, rfl⟩

variable {M : Meaning m σ} {fns : Functions S m} {e e' e'' : Effect S} {s s' s'' : σ}
  {w : Verdict S} {u : Unfolding} {list : List (Frame S)}

namespace Reaches

/-- What an evaluation leads to from where it has got to, it leads to. -/
theorem unfolds (h : Reaches M fns e s e' s') (hu : Unfolds M fns e' s' w u s'') :
    ∃ u', Unfolds M fns e s w u' s'' := by
  induction h generalizing w u s'' with
  | refl => exact ⟨u, hu⟩
  | source frame _ ih =>
    obtain ⟨w₁, u₁, s₁, o, he, hframe, rfl⟩ := (unfolds_around_iff frame).1 hu
    obtain ⟨u', hu'⟩ := ih he
    exact ⟨_, (unfolds_around_iff frame).2 ⟨_, _, _, _, hu', hframe, rfl⟩⟩
  | continued he hk _ ih =>
    obtain ⟨u', hu'⟩ := ih hu
    exact ⟨_, .flatMap he hk hu'⟩

/-- Below a frame an evaluation gets as far as its source does, or the frame is that of a
continuation that has returned. -/
theorem of_around {frame : Frame S} (h : Reaches M fns (frame.around e) s e' s') :
    (∃ e₁, e' = frame.around e₁ ∧ Reaches M fns e s e₁ s') ∨
    ∃ k v u s₁ e₁ s₂, frame = .flatMap k ∧ Unfolds M fns e s (.ok v) u s₁ ∧
      M.Runs (fns.continuation k v) s₁ (.returned e₁) s₂ ∧ Reaches M fns e₁ s₂ e' s' := by
  generalize he : frame.around e = x at h
  cases h with
  | refl => exact .inl ⟨e, he.symm, .refl⟩
  | source frame' h =>
    obtain ⟨rfl, rfl⟩ := Frame.around_inj he
    exact .inl ⟨_, rfl, h⟩
  | @continued e₂ e₁ _ k v u _ s₁ s₂ _ hu hk h =>
    have he : Frame.around e frame = Frame.around e₂ (.flatMap k) := he
    obtain ⟨rfl, rfl⟩ := Frame.around_inj he
    exact .inr ⟨k, v, u, s₁, e₁, s₂, rfl, hu, hk, h⟩

theorem trans (h : Reaches M fns e s e' s') (h' : Reaches M fns e' s' e'' s'') :
    Reaches M fns e s e'' s'' := by
  induction h generalizing e'' s'' with
  | refl => exact h'
  | source frame h ih =>
    rcases h'.of_around with ⟨e₁, rfl, h₁⟩ | ⟨k, v, u, s₁, e₁, s₂, rfl, hu, hk, h₁⟩
    · exact .source frame (ih h₁)
    · obtain ⟨u', hu'⟩ := h.unfolds hu
      exact .continued hu' hk h₁
  | continued hu hk _ ih => exact .continued hu hk (ih h')

theorem under (h : Reaches M fns e s e' s') (list : List (Frame S)) :
    Reaches M fns (e.under list) s (e'.under list) s' := by
  induction list generalizing e e' with
  | nil => exact h
  | cons frame list ih => exact ih (.source frame h)

end Reaches

/-! ### Slices -/

namespace Trampoline

variable {catching : Bool}

/-- When the frames take the value of `e` to an effect, an evaluation has got there. -/
theorem reaches_of_unwindList (hx : M.Exact) {v : S.Value} {s₁ : σ} {rest : Frames S}
    (hu : Unfolds M fns e s (.ok v) u s₁)
    (h : M.Runs (unwindList fns catching list list.length rfl v) s₁ (.entered e' rest) s') :
    Reaches M fns (e.under list) s (e'.under rest.list) s' := by
  induction list generalizing e v u s₁ with
  | nil =>
    obtain ⟨hout, -⟩ := hx.of_pure h
    cases hout
  | cons frame list ih =>
    cases frame with
    | map f =>
      obtain ⟨out, s₂, hf, hrest⟩ := hx.of_bind h
      cases out with
      | returned v' => exact ih (.map hu hf) hrest
      | mismatched expected => cases (hx.of_pure hrest).1
      | panicked p => cases (hx.of_pure hrest).1
    | flatMap k =>
      obtain ⟨out, s₂, hk, hrest⟩ := hx.of_bind h
      cases out with
      | returned e₁ =>
        obtain ⟨hout, rfl⟩ := hx.of_pure hrest
        cases hout
        exact Reaches.under (.continued hu hk .refl) list
      | mismatched expected => cases (hx.of_pure hrest).1
      | panicked p => cases (hx.of_pure hrest).1

/-- A slice that is suspended has got somewhere. -/
theorem reaches_of_descend (hx : M.Exact) (hq : fns.Quiet M) {n : ℕ} {stack : Frames S}
    {stats : Stats} {t : Trampoline S}
    (h : M.Runs (descend fns catching n e stack stats) s (.suspended, t) s') :
    ∃ e', t.current = some e' ∧
      Reaches M fns (e.under stack.list) s (e'.under t.stack.list) s' := by
  induction n generalizing e stack stats s with
  | zero =>
    obtain ⟨_, s₁, ho, hrest⟩ := hx.of_bind h
    obtain rfl := hq _ _ _ ho
    obtain ⟨hout, rfl⟩ := hx.of_pure hrest
    cases hout
    exact ⟨e, rfl, .refl⟩
  | succ n ih =>
    rcases e.sync_or_around with ⟨leaf, rfl⟩ | ⟨frame, e, rfl⟩
    · obtain ⟨_, s₁, ho, hthunk⟩ := hx.of_bind h
      obtain rfl := hq _ _ _ ho
      obtain ⟨out, s₁, ht, hrest⟩ := hx.of_bind hthunk
      cases out with
      | returned v =>
        obtain ⟨unwound, s₂, hunwind, hgoes⟩ := hx.of_bind hrest
        cases unwound with
        | delivered v' => cases (hx.of_pure hgoes).1
        | entered e₁ rest =>
          obtain ⟨e', he', hreaches⟩ := ih hgoes
          rw [unwind_eq] at hunwind
          exact ⟨e', he', (reaches_of_unwindList hx (.sync ht) hunwind).trans hreaches⟩
        | stopped a rest =>
          have ha := congrArg Prod.fst (hx.of_pure hgoes).1
          rcases unwinds_of_unwind hx hunwind with
            ⟨v', l, hv, -⟩ | ⟨c, rest', l, hc, -⟩ | ⟨e, rest', l₁, he, -⟩
          · cases hv
          · cases hc
            exact absurd ha.symm (Answer.ofStop_ne_suspended catching c)
          · cases he
      | mismatched expected => cases (hx.of_pure hrest).1
      | panicked p =>
        exact absurd (congrArg Prod.fst (hx.of_pure hrest).1).symm
          (Answer.ofStop_ne_suspended catching (.panicked .thunk p))
    · rw [descend_around] at h
      obtain ⟨_, s₁, ho, hrest⟩ := hx.of_bind h
      obtain rfl := hq _ _ _ ho
      have hreaches := ih hrest
      exact hreaches

theorem reaches_of_drive (hx : M.Exact) (hq : fns.Quiet M) {budgets : List ℕ}
    {t t' : Trampoline S} (he : t.current = some e)
    (h : M.Runs (drive fns catching budgets t) s (.suspended, t') s') :
    ∃ e', t'.current = some e' ∧
      Reaches M fns (e.under t.stack.list) s (e'.under t'.stack.list) s' := by
  induction budgets generalizing e t s with
  | nil =>
    obtain ⟨hout, rfl⟩ := hx.of_pure h
    cases hout
    exact ⟨e, he, .refl⟩
  | cons budget budgets ih =>
    have hslice : runSlice fns catching budget t =
        descend fns catching budget e t.stack t.stats := by rw [runSlice, he]
    rw [drive, hslice] at h
    obtain ⟨⟨a, t₁⟩, s₁, hd, hrest⟩ := hx.of_bind h
    by_cases ha : a = .suspended
    · subst ha
      obtain ⟨e₁, he₁, hreaches⟩ := reaches_of_descend hx hq hd
      obtain ⟨e', he', hreaches'⟩ := ih he₁ hrest
      exact ⟨e', he', hreaches.trans hreaches'⟩
    · rw [drive_stop ha] at hrest
      exact absurd (congrArg Prod.fst (hx.of_pure hrest).1).symm ha

theorem runs_unwind_flatMap {k : S.Continuation} {v : S.Value}
    (hk : M.Runs (fns.continuation k v) s (.returned e) s') (stack : Frames S) :
    M.Runs (unwind fns catching (stack.push (.flatMap k)) v) s (.entered e stack) s' := by
  have hrest : (⟨stack.list, (stack.push (.flatMap k)).height - 1, stack.height_eq⟩ : Frames S) =
      stack := Frames.ext_list rfl
  refine M.runs_bind hk ?_
  dsimp only
  rw [hrest]
  exact M.runs_pure _ _

/-- A slice that has nodes left when the frames take the value of `e` to an effect, goes on
there. -/
theorem descend_of_unfolds (hs : fns.Silent M) {stack rest : Frames S} {v : S.Value}
    {s₁ s₂ : σ} {n : ℕ} (hu : Unfolds M fns e s w u s₁) (hw : w = .ok v)
    (hunwind : M.Runs (unwind fns catching stack v) s₁ (.entered e' rest) s₂)
    (hrest : ∀ stats, ∃ t, M.Runs (descend fns catching n e' rest stats) s₂ (.suspended, t) s')
    (stats : Stats) :
    ∃ t, M.Runs (descend fns catching (n + u.steps) e stack stats) s (.suspended, t) s' := by
  induction hu generalizing stack rest v s₂ e' n stats with
  | @sync thunk out s s₁ ht =>
    cases out with
    | returned v' =>
      cases hw
      obtain ⟨t, hr⟩ := hrest stats.visit
      exact ⟨t, M.runs_bind (hs _ _) (M.runs_bind ht (M.runs_bind hunwind hr))⟩
    | mismatched expected => cases hw
    | panicked p => cases hw
  | @map e f v₁ out u s s₁ s₂ _ hf ih =>
    cases out with
    | returned v' =>
      cases hw
      have hframes : M.Runs (unwind fns catching (stack.push (.map f)) v₁) s₁ (.entered e' rest)
          _ := M.runs_bind hf hunwind
      obtain ⟨t, hr⟩ := ih rfl hframes hrest (stats.visit.reach (stack.height + 1))
      rw [Unfolding.steps, Nat.add_comm 1, ← Nat.add_assoc]
      exact ⟨t, M.runs_bind (hs _ _) hr⟩
    | mismatched expected => cases hw
    | panicked p => cases hw
  | @flatMap e e₁ k v₁ w u u' s s₁ s₂ s₃ _ hk _ ih ih' =>
    obtain ⟨t, hr⟩ := ih rfl (runs_unwind_flatMap hk stack) (ih' hw hunwind hrest)
      (stats.visit.reach (stack.height + 1))
    have hsteps : n + (Unfolding.flatMap u u').steps = n + u'.steps + u.steps + 1 := by
      rw [Unfolding.steps]
      omega
    rw [hsteps]
    exact ⟨t, M.runs_bind (hs _ _) hr⟩
  | mapStopped => cases hw
  | flatMapRefused => cases hw
  | flatMapStopped => cases hw

/-- Slices can be suspended wherever an evaluation gets to. -/
theorem descend_of_reaches (hs : fns.Silent M) (h : Reaches M fns e s e' s') (stack : Frames S) :
    ∃ n, ∀ stats, ∃ t, M.Runs (descend fns catching n e stack stats) s (.suspended, t) s' := by
  induction h generalizing stack with
  | refl => exact ⟨0, fun stats => ⟨_, M.runs_bind (hs _ _) (M.runs_pure _ _)⟩⟩
  | source frame _ ih =>
    obtain ⟨n, hn⟩ := ih (stack.push frame)
    refine ⟨n + 1, fun stats => ?_⟩
    obtain ⟨t, ht⟩ := hn (stats.visit.reach (stack.height + 1))
    rw [descend_around]
    exact ⟨t, M.runs_bind (hs _ _) ht⟩
  | @continued e e₁ e'' k v u s s₁ s₂ s' hu hk _ ih =>
    obtain ⟨n, hn⟩ := ih stack
    refine ⟨n + u.steps + 1, fun stats => ?_⟩
    obtain ⟨t, ht⟩ := descend_of_unfolds hs hu rfl (runs_unwind_flatMap hk stack) hn
      (stats.visit.reach (stack.height + 1))
    exact ⟨t, M.runs_bind (hs _ _) ht⟩

/-- Slices can be suspended in the states that an evaluation gets to, and in no other. -/
theorem suspended_iff_reaches (hx : M.Exact) (hs : fns.Silent M) (hq : fns.Quiet M) :
    (∃ budgets t, M.Runs (drive fns catching budgets (.start e)) s (.suspended, t) s') ↔
      ∃ e', Reaches M fns e s e' s' := by
  constructor
  · rintro ⟨budgets, t, hr⟩
    obtain ⟨e', -, h⟩ := reaches_of_drive hx hq rfl hr
    exact ⟨_, h⟩
  · rintro ⟨e', h⟩
    obtain ⟨n, hn⟩ := descend_of_reaches hs h .empty
    obtain ⟨t, hr⟩ := hn .zero
    exact ⟨[n], t, M.runs_bind hr (M.runs_pure _ _)⟩

end Trampoline

end LazyEffects
