import LazyEffects.Proofs.Drafts

/-!
# Simplifying programs

A draft is read before its marked parts are replaced and after it. Both readings have the same
effects and come to the same ends, but for the stage of a panic where a law moves it, and a run that
completes saves a fixed number of nodes each time that a marked part is executed.

* `Drafting.unfolds` and `Drafting.of_unfolds`: what one reading leads to, the other leads to;
* `Drafting.reaches` and `Drafting.of_reaches`: where one reading gets to, the other comes by;
* `Law.simplifies`: slices with any budgets cannot tell the readings apart, but for the steps, of
  which as many are saved as the law says, for each execution of a part.
-/

namespace LazyEffects

variable {S : Signature} {m : Type → Type} [Monad m] {σ : Type}

variable {M : Meaning m σ} {fns : Functions S m} {c : Drafting S m} {law : Law} {p : Draft S}
  {e : Effect S} {s s' : σ} {w w₁ w' : Verdict S} {u u' : Unfolding} {o o' : Option Unfolding}

/-! ### Functions that do nothing but return -/

section

variable {α : Type} {x : m α} {a a' : α}

theorem Meaning.runs_of_eq (M : Meaning m σ) (h : x = pure a) (s : σ) : M.Runs x s a s := by
  rw [h]
  exact M.runs_pure a s

theorem Meaning.Exact.of_eq (hx : M.Exact) (h : x = pure a) (hrun : M.Runs x s a' s') :
    a' = a ∧ s' = s := by
  rw [h] at hrun
  exact hx.of_pure hrun

variable {t : S.Thunk} {v : S.Value} {k : S.Continuation}

theorem unfolds_leaf (M : Meaning m σ) (ht : fns.thunk t = pure (.returned v)) (s : σ) :
    Unfolds M fns (.sync t) s (.ok v) .sync s :=
  .sync (M.runs_of_eq ht s)

theorem Unfolds.of_leaf (hx : M.Exact) (ht : fns.thunk t = pure (.returned v)) {u : Unfolding}
    (h : Unfolds M fns (.sync t) s w u s') : w = .ok v ∧ u = .sync ∧ s' = s := by
  cases h with
  | sync hrun =>
    obtain ⟨rfl, rfl⟩ := hx.of_eq ht hrun
    exact ⟨rfl, rfl, rfl⟩

/-- A continuation that does nothing but return leads to what the effect leads to. -/
theorem Feeds.of_returned (hx : M.Exact) (hk : fns.continuation k v = pure (.returned e))
    (h : Feeds M fns (.flatMap k) (.ok v) s w o s') :
    ∃ u, o = some u ∧ Unfolds M fns e s w u s' := by
  cases h with
  | flatMap hrun hu =>
    obtain ⟨hout, rfl⟩ := hx.of_eq hk hrun
    cases hout
    exact ⟨_, rfl, hu⟩
  | refused hrun hc =>
    obtain ⟨rfl, -⟩ := hx.of_eq hk hrun
    cases hc

end


/-! ### Each law at its place -/

section fusion

variable {f g h : S.Transform}

theorem Functions.Fuses.feeds (hf : fns.Fuses f g h) {w₂ : Verdict S} {s₁ : σ}
    {o₁ o₂ : Option Unfolding} (h₁ : Feeds M fns (.map f) w₁ s w₂ o₁ s₁)
    (h₂ : Feeds M fns (.map g) w₂ s₁ w o₂ s') :
    o₁ = none ∧ o₂ = none ∧ Feeds M fns (.map h) w₁ s w none s' := by
  cases h₁ with
  | stopped =>
    obtain ⟨rfl, rfl, rfl⟩ := h₂.of_error
    exact ⟨rfl, rfl, .stopped⟩
  | @map _ v out _ _ hrun =>
    refine ⟨rfl, ?_⟩
    have hrun' (out' : Outcome S S.Value) {s' : σ} (hrest : M.Runs (fns.andThen g out) s₁ out' s') :
        Feeds M fns (.map h) (.ok v) s (out'.within .transform) none s' :=
      .map (by rw [hf]; exact M.runs_bind hrun hrest)
    cases out with
    | returned v' =>
      cases h₂ with
      | map hg => exact ⟨rfl, hrun' _ hg⟩
    | mismatched expected =>
      obtain ⟨rfl, rfl, rfl⟩ := h₂.of_error
      exact ⟨rfl, hrun' (.mismatched expected) (M.runs_pure _ _)⟩
    | panicked p =>
      obtain ⟨rfl, rfl, rfl⟩ := h₂.of_error
      exact ⟨rfl, hrun' (.panicked p) (M.runs_pure _ _)⟩

theorem Functions.Fuses.of_feeds (hx : M.Exact) (hf : fns.Fuses f g h)
    (hh : Feeds M fns (.map h) w₁ s w o s') : o = none ∧ ∃ w₂ s₁,
      Feeds M fns (.map f) w₁ s w₂ none s₁ ∧ Feeds M fns (.map g) w₂ s₁ w none s' := by
  cases hh with
  | stopped => exact ⟨rfl, _, _, .stopped, .stopped⟩
  | map hrun =>
    rw [hf] at hrun
    obtain ⟨out, s₁, hrun, hrest⟩ := hx.of_bind hrun
    refine ⟨rfl, _, s₁, .map hrun, ?_⟩
    cases out with
    | returned v' => exact .map hrest
    | mismatched expected =>
      obtain ⟨rfl, rfl⟩ := hx.of_pure hrest
      exact .stopped
    | panicked p =>
      obtain ⟨rfl, rfl⟩ := hx.of_pure hrest
      exact .stopped

end fusion

section deferral

variable {f : S.Transform} {k : S.Continuation} {v : S.Value} {out : Outcome S S.Value}

/-- What comes of a continuation that calls a function in a leaf, if the function ends in the given
way. -/
inductive Restages : Outcome S S.Value → Verdict S → Option Unfolding → Prop where
  /-- The leaf is a node more. -/
  | called (out : Outcome S S.Value) : Restages out (out.within .thunk) (some .sync)
  | mismatched (expected : S.Ty) :
    Restages (.mismatched expected) (.error (.mismatched expected)) none

theorem Functions.Defers.feeds (hx : M.Exact) (hk : fns.Defers f k)
    (h : Feeds M fns (.flatMap k) (.ok v) s w o s') :
    ∃ out, M.Runs (fns.transform f v) s out s' ∧ Restages out w o := by
  rcases hk v with ⟨t, hreturn, hthunk⟩ | ⟨expected, hreturn, htransform⟩
  · obtain ⟨u, rfl, hu⟩ := h.of_returned hx hreturn
    cases hu with
    | sync hrun =>
      rw [hthunk] at hrun
      exact ⟨_, hrun, .called _⟩
  · cases h with
    | flatMap hrun => cases (hx.of_eq hreturn hrun).1
    | refused hrun hc =>
      obtain ⟨rfl, rfl⟩ := hx.of_eq hreturn hrun
      cases hc
      exact ⟨_, M.runs_of_eq htransform _, .mismatched expected⟩

theorem Functions.Defers.of_runs (hx : M.Exact) (hk : fns.Defers f k)
    (h : M.Runs (fns.transform f v) s out s') :
    ∃ w o, Feeds M fns (.flatMap k) (.ok v) s w o s' ∧ Restages out w o := by
  rcases hk v with ⟨t, hreturn, hthunk⟩ | ⟨expected, hreturn, htransform⟩
  · rw [← hthunk] at h
    exact ⟨_, _, .flatMap (M.runs_of_eq hreturn s) (.sync h), .called out⟩
  · obtain ⟨rfl, rfl⟩ := hx.of_eq htransform h
    exact ⟨_, _, .refused (M.runs_of_eq hreturn _) rfl, .mismatched expected⟩

theorem Restages.eq_returned {v : S.Value} (h : Restages out (.ok v) o) : out = .returned v := by
  generalize hw : (Except.ok v : Verdict S) = w at h
  cases h with
  | called => exact Outcome.eq_returned hw.symm
  | mismatched => cases hw

theorem Restages.endsAlike {n j j' : ℕ} (h : Restages out w o)
    (hj : j = j' + Law.deferral.saving * n) :
    EndsAlike .deferral (n + 1) w (1 + j + o.elim 0 Unfolding.steps) (out.within .transform)
      (1 + j') := by
  cases h with
  | called out =>
    have hsaved : 1 + j + (some Unfolding.sync).elim 0 Unfolding.steps =
        1 + j' + Law.deferral.saving * (n + 1) := by
      rw [hj, Nat.mul_add, Option.elim_some, Unfolding.steps, Law.saving]
      omega
    cases out with
    | returned v => exact .ok hsaved
    | mismatched expected => exact .error (.same _ _) (by omega)
    | panicked p => exact .error (.restaged p) (by omega)
  | mismatched expected => exact .error (.same _ _) (by rw [Option.elim_none]; omega)

end deferral

namespace Agree

variable {s₁ : σ} {n : ℕ} {v : S.Value} {stop stop' : Stop S} {f g h : S.Transform}
  {k : S.Continuation} {t : S.Thunk} {out : Outcome S S.Value}

theorem fused (hx : M.Exact) (hf : c.before.Fuses f g h)
    (hp : Agree .fusion M c p s (.ok v) u (.ok v) u' n s₁)
    (hrun : M.Runs (c.transform h v) s₁ out s') :
    Agree .fusion M c (.fused p f g h) s (out.within .transform) ((u.node none).node none)
      (out.within .transform) (.map u') (n + 1) s' := by
  obtain ⟨-, w₂, s₂, hf₁, hg⟩ := hf.of_feeds hx (Feeds.map hrun)
  have hinner := (unfolds_around_iff (.map f)).2 ⟨_, _, _, _, hp.before, hf₁, rfl⟩
  refine ⟨(unfolds_around_iff (.map g)).2 ⟨_, _, _, _, hinner, hg, rfl⟩, .map hp.after hrun, ?_,
    fun hw => .fused (hp.executes rfl) (Outcome.eq_returned hw ▸ hrun)⟩
  refine .of_call .transform out ?_
  rw [Unfolding.node, Unfolding.node, Unfolding.steps, Unfolding.steps, Unfolding.steps,
    hp.ends.of_ok.2, Law.saving]
  omega

theorem fused_stopped (hp : Agree .fusion M c p s (.error stop) u (.error stop') u' n s') :
    Agree .fusion M c (.fused p f g h) s (.error stop) ((u.node none).node none) (.error stop')
      (.map u') n s' where
  before := .mapStopped (.mapStopped hp.before)
  after := .mapStopped hp.after
  ends := .error hp.ends.of_error.1 <| by
    have hle := hp.ends.le
    simp only [Unfolding.node, Unfolding.steps]
    omega
  executes hw := nomatch hw

theorem echoed (hk : c.before.Echoes M p.before k)
    (hp : Agree .echo M c p s (.ok v) u (.ok v) u' n s') :
    Agree .echo M c (.echoed p k) s (.ok v) (.flatMap u .sync) (.ok v) u' (n + 1) s' := by
  obtain ⟨t, hreturn, hthunk⟩ := hk hp.before
  refine ⟨.flatMap hp.before (M.runs_of_eq hreturn s') (unfolds_leaf M hthunk s'), hp.after,
    .ok ?_, fun hw => .echoed (hp.executes hw)⟩
  rw [Unfolding.steps, Unfolding.steps, hp.ends.of_ok.2, Law.saving]
  omega

theorem echoed_stopped (hp : Agree .echo M c p s (.error stop) u (.error stop') u' n s') :
    Agree .echo M c (.echoed p k) s (.error stop) (.map u) (.error stop') u' n s' where
  before := .flatMapStopped hp.before
  after := hp.after
  ends := .error hp.ends.of_error.1 (Nat.le_trans hp.ends.le (Nat.le_add_left _ 1))
  executes hw := nomatch hw

theorem entered (ht : c.thunk t = pure (.returned v))
    (hk : c.before.continuation k v = pure (.returned p.before))
    (hp : Agree .immediate M c p s w u w' u' n s') :
    Agree .immediate M c (.entered t k p) s w (.flatMap .sync u) w' u' (n + 1) s' where
  before := .flatMap (unfolds_leaf M ht s) (M.runs_of_eq hk s) hp.before
  after := hp.after
  ends := by
    have hends : EndsAlike .immediate (1 + n) w (2 + u.steps) w' (0 + u'.steps) :=
      hp.ends.add rfl
    rwa [Nat.zero_add, Nat.add_comm 1] at hends
  executes hw := .entered (hp.executes hw)

theorem called (hp : Agree .deferral M c p s (.ok v) u (.ok v) u' n s₁)
    (hf : Feeds M c.before (.flatMap k) (.ok v) s₁ w o s') (hrestages : Restages out w o)
    (hrun : M.Runs (c.transform f v) s₁ out s') :
    Agree .deferral M c (.called p k f) s w (u.node o) (out.within .transform) (.map u') (n + 1)
      s' where
  before := (unfolds_around_iff (.flatMap k)).2 ⟨_, _, _, _, hp.before, hf, rfl⟩
  after := .map hp.after hrun
  ends := by
    rw [Unfolding.steps_node]
    exact hrestages.endsAlike hp.ends.of_ok.2
  executes hw := .called (hp.executes rfl) ((hw ▸ hrestages).eq_returned ▸ hrun)

theorem called_stopped (hp : Agree .deferral M c p s (.error stop) u (.error stop') u' n s') :
    Agree .deferral M c (.called p k f) s (.error stop) (.map u) (.error stop') (.map u') n
      s' where
  before := .flatMapStopped hp.before
  after := .mapStopped hp.after
  ends := .error hp.ends.of_error.1 (Nat.add_le_add_left hp.ends.le 1)
  executes hw := nomatch hw

end Agree

/-! ### What both readings lead to -/

namespace Drafting

/-- What a draft leads to before the replacement, it leads to afterwards. -/
theorem unfolds (hx : M.Exact) (hc : law.Governs M c) (hp : law.Suits M c p)
    (hu : Unfolds M c.before p.before s w u s') : ∃ w' u' n, Agree law M c p s w u w' u' n s' := by
  -- On the steps: the trees of the source and of the effect that is returned have less.
  induction hn : u.steps using Nat.strongRecOn generalizing p s w u s' with
  | _ j ih =>
    subst hn
    cases hp with
    | sync t =>
      cases hu with
      | sync hrun => exact ⟨_, _, _, .sync hrun⟩
    | around frame hp =>
      obtain ⟨w₁, u₁, s₁, o, hu₁, hframe, rfl⟩ := (unfolds_around_iff frame).1 hu
      rw [Unfolding.steps_node] at ih
      obtain ⟨w₁', u₁', n, hagree⟩ := ih u₁.steps (by omega) hp hu₁ rfl
      cases hframe with
      | stopped =>
        obtain ⟨stop', rfl⟩ := hagree.ends.error_left
        exact ⟨_, _, _, hagree.stopped frame⟩
      | map hrun =>
        obtain rfl := hagree.ends.of_ok.1
        exact ⟨_, _, _, hagree.map hrun⟩
      | flatMap hrun hu₂ =>
        obtain rfl := hagree.ends.of_ok.1
        obtain ⟨p', hreturn, rfl⟩ := of_returned hx hrun
        obtain ⟨w', u₂', n', hagree'⟩ := ih _ (by rw [Option.elim_some]; omega) (hc hreturn) hu₂ rfl
        exact ⟨_, _, _, hagree.flatMap hreturn hagree'⟩
      | refused hrun hout =>
        obtain rfl := hagree.ends.of_ok.1
        exact ⟨_, _, _, hagree.refused hx hrun hout⟩
    | @fused p f g h hf hp =>
      obtain ⟨w₂, u₂, s₂, o₂, hu₂, hg, rfl⟩ := (unfolds_around_iff (.map g)).1 hu
      obtain ⟨w₁, u₁, s₁, o₁, hu₁, hf₁, rfl⟩ := (unfolds_around_iff (.map f)).1 hu₂
      obtain ⟨rfl, rfl, hh⟩ := hf.feeds hf₁ hg
      simp only [Unfolding.steps_node] at ih
      obtain ⟨w₁', u₁', n, hagree⟩ := ih u₁.steps (by omega) hp hu₁ rfl
      cases hh with
      | stopped =>
        obtain ⟨stop', rfl⟩ := hagree.ends.error_left
        exact ⟨_, _, _, hagree.fused_stopped⟩
      | map hrun =>
        obtain rfl := hagree.ends.of_ok.1
        exact ⟨_, _, _, hagree.fused hx hf hrun⟩
    | @echoed p k hk hp =>
      obtain ⟨w₁, u₁, s₁, o, hu₁, hf, rfl⟩ := (unfolds_around_iff (.flatMap k)).1 hu
      rw [Unfolding.steps_node] at ih
      obtain ⟨w₁', u₁', n, hagree⟩ := ih u₁.steps (by omega) hp hu₁ rfl
      cases w₁ with
      | error stop =>
        obtain ⟨rfl, rfl, rfl⟩ := hf.of_error
        obtain ⟨stop', rfl⟩ := hagree.ends.error_left
        exact ⟨_, _, _, hagree.echoed_stopped⟩
      | ok v =>
        obtain ⟨t, hreturn, hthunk⟩ := hk hu₁
        obtain ⟨u₂, rfl, hu₂⟩ := hf.of_returned hx hreturn
        obtain ⟨rfl, rfl, rfl⟩ := hu₂.of_leaf hx hthunk
        obtain rfl := hagree.ends.of_ok.1
        exact ⟨_, _, _, hagree.echoed hk⟩
    | @entered t v k p ht hk hp =>
      obtain ⟨w₁, u₁, s₁, o, hu₁, hf, rfl⟩ := (unfolds_around_iff (.flatMap k)).1 hu
      obtain ⟨rfl, rfl, rfl⟩ := hu₁.of_leaf hx ht
      obtain ⟨u₂, rfl, hu₂⟩ := hf.of_returned hx hk
      rw [Unfolding.steps_node, Option.elim_some] at ih
      obtain ⟨w', u', n, hagree⟩ := ih u₂.steps (by omega) hp hu₂ rfl
      exact ⟨_, _, _, hagree.entered ht hk⟩
    | @called p k f hk hp =>
      obtain ⟨w₁, u₁, s₁, o, hu₁, hf, rfl⟩ := (unfolds_around_iff (.flatMap k)).1 hu
      rw [Unfolding.steps_node] at ih
      obtain ⟨w₁', u₁', n, hagree⟩ := ih u₁.steps (by omega) hp hu₁ rfl
      cases w₁ with
      | error stop =>
        obtain ⟨rfl, rfl, rfl⟩ := hf.of_error
        obtain ⟨stop', rfl⟩ := hagree.ends.error_left
        exact ⟨_, _, _, hagree.called_stopped⟩
      | ok v =>
        obtain rfl := hagree.ends.of_ok.1
        obtain ⟨out, hrun, hrestages⟩ := hk.feeds hx hf
        exact ⟨_, _, _, hagree.called hf hrestages hrun⟩

/-- What a draft leads to after the replacement, it led to before. -/
theorem of_unfolds (hx : M.Exact) (hc : law.Governs M c) (hp : law.Suits M c p)
    (hu : Unfolds M c.after p.after s w' u' s') : ∃ w u n, Agree law M c p s w u w' u' n s' := by
  induction hn : u'.steps using Nat.strongRecOn generalizing p s w' u' s' with
  | _ j ih =>
    -- On the draft, too: a part may be replaced by no node at all.
    induction hp generalizing s w' u' s' with
    | sync t =>
      cases hu with
      | sync hrun => exact ⟨_, _, _, .sync hrun⟩
    | around frame hp =>
      obtain ⟨w₁', u₁', s₁, o, hu₁, hframe, rfl⟩ := (unfolds_around_iff frame).1 hu
      rw [Unfolding.steps_node] at hn
      obtain ⟨w₁, u₁, n, hagree⟩ := ih u₁'.steps (by omega) hp hu₁ rfl
      cases hframe with
      | stopped =>
        obtain ⟨stop, rfl⟩ := hagree.ends.error_right
        exact ⟨_, _, _, hagree.stopped frame⟩
      | map hrun =>
        obtain rfl := hagree.ends.of_ok_right.1
        exact ⟨_, _, _, hagree.map hrun⟩
      | flatMap hrun hu₂ =>
        obtain rfl := hagree.ends.of_ok_right.1
        obtain ⟨p', hreturn, rfl⟩ := of_returned hx hrun
        rw [Option.elim_some] at hn
        obtain ⟨w, u₂, n', hagree'⟩ := ih _ (by omega) (hc hreturn) hu₂ rfl
        exact ⟨_, _, _, hagree.flatMap hreturn hagree'⟩
      | refused hrun hout =>
        obtain rfl := hagree.ends.of_ok_right.1
        exact ⟨_, _, _, hagree.refused hx hrun hout⟩
    | @fused p f g h hf hp =>
      obtain ⟨w₁', u₁', s₁, o, hu₁, hh, rfl⟩ := (unfolds_around_iff (.map h)).1 hu
      rw [Unfolding.steps_node] at hn
      obtain ⟨w₁, u₁, n, hagree⟩ := ih u₁'.steps (by omega) hp hu₁ rfl
      cases hh with
      | stopped =>
        obtain ⟨stop, rfl⟩ := hagree.ends.error_right
        exact ⟨_, _, _, hagree.fused_stopped⟩
      | map hrun =>
        obtain rfl := hagree.ends.of_ok_right.1
        exact ⟨_, _, _, hagree.fused hx hf hrun⟩
    | echoed hk _ ihp =>
      obtain ⟨w, u, n, hagree⟩ := ihp hc ih hu hn
      cases w' with
      | error stop' =>
        obtain ⟨stop, rfl⟩ := hagree.ends.error_right
        exact ⟨_, _, _, hagree.echoed_stopped⟩
      | ok v =>
        obtain rfl := hagree.ends.of_ok_right.1
        exact ⟨_, _, _, hagree.echoed hk⟩
    | entered ht hk _ ihp =>
      obtain ⟨w, u, n, hagree⟩ := ihp hc ih hu hn
      exact ⟨_, _, _, hagree.entered ht hk⟩
    | @called p k f hk hp =>
      obtain ⟨w₁', u₁', s₁, o, hu₁, hf, rfl⟩ := (unfolds_around_iff (.map f)).1 hu
      rw [Unfolding.steps_node] at hn
      obtain ⟨w₁, u₁, n, hagree⟩ := ih u₁'.steps (by omega) hp hu₁ rfl
      cases hf with
      | stopped =>
        obtain ⟨stop, rfl⟩ := hagree.ends.error_right
        exact ⟨_, _, _, hagree.called_stopped⟩
      | map hrun =>
        obtain rfl := hagree.ends.of_ok_right.1
        obtain ⟨w, o, hfeeds, hrestages⟩ := hk.of_runs hx hrun
        exact ⟨_, _, _, hagree.called hfeeds hrestages hrun⟩

end Drafting

/-- A draft that is executed is executed in both readings. -/
theorem Executes.agree {v : S.Value} {n : ℕ} (hx : M.Exact) (hc : law.Governs M c)
    (hp : law.Suits M c p) (h : Executes M c p s v n s') :
    ∃ u u', Agree law M c p s (.ok v) u (.ok v) u' n s' := by
  induction h generalizing law with
  | sync hrun => exact ⟨_, _, .sync hrun⟩
  | map _ hrun ih =>
    cases hp with
    | around _ hp =>
      obtain ⟨u, u', hagree⟩ := ih hc hp
      exact ⟨_, _, hagree.map hrun⟩
  | flatMap _ hrun _ ih ih' =>
    cases hp with
    | around _ hp =>
      obtain ⟨u, u', hagree⟩ := ih hc hp
      obtain ⟨u₁, u₁', hagree'⟩ := ih' hc (hc hrun)
      exact ⟨_, _, hagree.flatMap hrun hagree'⟩
  | fused _ hrun ih =>
    cases hp with
    | fused hf hp =>
      obtain ⟨u, u', hagree⟩ := ih hc hp
      exact ⟨_, _, hagree.fused hx hf hrun⟩
  | echoed _ ih =>
    cases hp with
    | echoed hk hp =>
      obtain ⟨u, u', hagree⟩ := ih hc hp
      exact ⟨_, _, hagree.echoed hk⟩
  | entered _ ih =>
    cases hp with
    | entered ht hk hp =>
      obtain ⟨u, u', hagree⟩ := ih hc hp
      exact ⟨_, _, hagree.entered ht hk⟩
  | called _ hrun ih =>
    cases hp with
    | called hk hp =>
      obtain ⟨u, u', hagree⟩ := ih hc hp
      obtain ⟨w, o, hfeeds, hrestages⟩ := hk.of_runs hx hrun
      cases hrestages with
      | called => exact ⟨_, _, hagree.called hfeeds (.called _) hrun⟩

/-! ### Where both readings get to -/

/-- `Passes e s s'`: evaluating `e` from the state `s` may pass through the state `s'`, be it
suspended there or on its way from one function to the next. -/
inductive Passes (M : Meaning m σ) (fns : Functions S m) : Effect S → σ → σ → Prop where
  | reached {e e' : Effect S} {s s' : σ} : Reaches M fns e s e' s' → Passes M fns e s s'
  /-- The value is there, and has not been handed on. -/
  | ended {e : Effect S} {v : S.Value} {u : Unfolding} {s s' : σ} :
    Unfolds M fns e s (.ok v) u s' → Passes M fns e s s'
  | source {e : Effect S} {s s' : σ} (frame : Frame S) :
    Passes M fns e s s' → Passes M fns (frame.around e) s s'
  | continued {e e' : Effect S} {k : S.Continuation} {v : S.Value} {u : Unfolding}
    {s s₁ s₂ s' : σ} : Unfolds M fns e s (.ok v) u s₁ →
    M.Runs (fns.continuation k v) s₁ (.returned e') s₂ → Passes M fns e' s₂ s' →
    Passes M fns (.flatMap e k) s s'

theorem Reaches.of_sync {t : S.Thunk} {e' : Effect S} (h : Reaches M fns (.sync t) s e' s') :
    s' = s := by
  generalize he : Effect.sync t = e at h
  cases h with
  | refl => rfl
  | source frame => cases frame <;> cases he
  | continued => cases he

theorem Frame.eq_map {frame : Frame S} {f : S.Transform} {e' : Effect S}
    (h : frame.around e = .map e' f) : frame = .map f ∧ e = e' :=
  Frame.around_inj (show frame.around e = (Frame.map f).around e' from h)

theorem Frame.eq_flatMap {frame : Frame S} {k : S.Continuation} {e' : Effect S}
    (h : frame.around e = .flatMap e' k) : frame = .flatMap k ∧ e = e' :=
  Frame.around_inj (show frame.around e = (Frame.flatMap k).around e' from h)

namespace Drafting

/-- Where a draft gets to before the replacement, it comes by afterwards. The same goes for a draft
below a transform: that is what an evaluation comes to in two transforms that are replaced. -/
theorem passes (hx : M.Exact) (hc : law.Governs M c) (hp : law.Suits M c p) {e' : Effect S}
    (hr : Reaches M c.before e s e' s') (he : e = p.before ∨ ∃ f, e = .map p.before f) :
    Passes M c.after p.after s s' := by
  induction hr generalizing p with
  | refl => exact .reached .refl
  | source frame hsource ih =>
    rcases he with he | ⟨f, he⟩
    · cases hp with
      | sync t => cases frame <;> cases he
      | around frame' hp =>
        obtain ⟨rfl, rfl⟩ := Frame.around_inj he
        exact .source frame (ih hp (.inl rfl))
      | @fused _ f g h hf hp =>
        obtain ⟨rfl, rfl⟩ := Frame.eq_map he
        exact .source (.map h) (ih hp (.inr ⟨f, rfl⟩))
      | @echoed q k hk hp =>
        obtain ⟨rfl, rfl⟩ := Frame.eq_flatMap he
        exact ih (p := q) hp (.inl rfl)
      | @entered _ _ k _ ht hk hp =>
        obtain ⟨rfl, rfl⟩ := Frame.eq_flatMap he
        obtain rfl := hsource.of_sync
        exact .reached .refl
      | @called _ k f hk hp =>
        obtain ⟨rfl, rfl⟩ := Frame.eq_flatMap he
        exact .source (.map f) (ih hp (.inl rfl))
    · obtain ⟨rfl, rfl⟩ := Frame.eq_map he
      exact ih hp (.inl rfl)
  | @continued e₁ e₂ _ k v u s s₁ s₂ s' hu hk hlater ih =>
    rcases he with he | ⟨f, he⟩
    · cases hp with
      | sync t => cases he
      | fused => cases he
      | around frame hp =>
        obtain ⟨rfl, rfl⟩ := Frame.eq_flatMap he.symm
        obtain ⟨w', u', n, hagree⟩ := unfolds hx hc hp hu
        obtain rfl := hagree.ends.of_ok.1
        obtain ⟨p', hreturn, rfl⟩ := of_returned hx hk
        exact .continued hagree.after (runs_reading hreturn) (ih (hc hreturn) (.inl rfl))
      | echoed hecho hp =>
        obtain ⟨rfl, rfl⟩ := Effect.flatMap.inj he
        obtain ⟨t, hreturn, -⟩ := hecho hu
        obtain ⟨hout, rfl⟩ := hx.of_eq hreturn hk
        cases hout
        obtain rfl := hlater.of_sync
        obtain ⟨w', u', n, hagree⟩ := unfolds hx hc hp hu
        obtain rfl := hagree.ends.of_ok.1
        exact .ended hagree.after
      | @entered _ _ _ q ht hreturn hp =>
        obtain ⟨rfl, rfl⟩ := Effect.flatMap.inj he
        obtain ⟨hv, -, rfl⟩ := hu.of_leaf hx ht
        cases hv
        obtain ⟨hout, rfl⟩ := hx.of_eq hreturn hk
        cases hout
        exact ih (p := q) hp (.inl rfl)
      | @called _ _ f hdefers hp =>
        obtain ⟨rfl, rfl⟩ := Effect.flatMap.inj he
        rcases hdefers v with ⟨t, hreturn, -⟩ | ⟨expected, hreturn, -⟩
        · obtain ⟨hout, rfl⟩ := hx.of_eq hreturn hk
          cases hout
          obtain rfl := hlater.of_sync
          obtain ⟨w', u', n, hagree⟩ := unfolds hx hc hp hu
          obtain rfl := hagree.ends.of_ok.1
          exact .source (.map f) (.ended hagree.after)
        · cases (hx.of_eq hreturn hk).1
    · cases he

/-- Where a draft gets to after the replacement, it got to before. -/
theorem of_reaches (hx : M.Exact) (hc : law.Governs M c) (hp : law.Suits M c p) {e' : Effect S}
    (hr : Reaches M c.after e s e' s') (he : e = p.after) :
    ∃ e₁, Reaches M c.before p.before s e₁ s' := by
  induction hr generalizing p with
  | refl => exact ⟨_, .refl⟩
  | @source e₁ _ s s' frame _ ih =>
    -- On the draft, for parts that no node replaces.
    induction hp with
    | sync t => cases frame <;> cases he
    | around frame' hp =>
      obtain ⟨rfl, rfl⟩ := Frame.around_inj he
      obtain ⟨e₁, hr⟩ := ih hp rfl
      exact ⟨_, .source frame hr⟩
    | @fused _ f g h hf hp =>
      obtain ⟨rfl, rfl⟩ := Frame.eq_map he
      obtain ⟨e₁, hr⟩ := ih hp rfl
      exact ⟨_, .source (.map g) (.source (.map f) hr)⟩
    | @echoed _ k _ _ ihp =>
      obtain ⟨e₁, hr⟩ := ihp hc ih he
      exact ⟨_, .source (.flatMap k) hr⟩
    | entered ht hk _ ihp =>
      obtain ⟨e₁, hr⟩ := ihp hc ih he
      exact ⟨_, .continued (unfolds_leaf M ht s) (M.runs_of_eq hk s) hr⟩
    | @called _ k f hk hp =>
      obtain ⟨rfl, rfl⟩ := Frame.eq_map he
      obtain ⟨e₁, hr⟩ := ih hp rfl
      exact ⟨_, .source (.flatMap k) hr⟩
  | @continued e₁ e₂ _ k v u s s₁ s₂ s' hu hk _ ih =>
    induction hp with
    | sync t => cases he
    | fused => cases he
    | called => cases he
    | around frame hp =>
      obtain ⟨rfl, rfl⟩ := Frame.eq_flatMap he.symm
      obtain ⟨w, u, n, hagree⟩ := of_unfolds hx hc hp hu
      obtain rfl := hagree.ends.of_ok_right.1
      obtain ⟨p', hreturn, rfl⟩ := of_returned hx hk
      obtain ⟨e₃, hr⟩ := ih (hc hreturn) rfl
      exact ⟨e₃, .continued hagree.before (runs_reading hreturn) hr⟩
    | @echoed _ k _ _ ihp =>
      obtain ⟨e₁, hr⟩ := ihp hc ih he
      exact ⟨_, .source (.flatMap k) hr⟩
    | entered ht hk _ ihp =>
      obtain ⟨e₁, hr⟩ := ihp hc ih he
      exact ⟨_, .continued (unfolds_leaf M ht s) (M.runs_of_eq hk s) hr⟩

end Drafting

/-! ### Slices -/

open Trampoline in
/-- Slices cannot tell both readings of the draft `p` apart, but for the steps that the law saves
each time that a marked part is executed. The state may be a log of what the functions do. -/
structure Law.Simplifies (law : Law) (M : Meaning m σ) (c : Drafting S m) (p : Draft S) :
    Prop where
  /-- What the program comes to before, it comes to afterwards with the same effects, with any
  budgets that grant as many nodes. -/
  forth {catching : Bool} {budgets budgets' : List ℕ} {s s' : σ} {x : Answer S}
    {t : Trampoline S} : M.Runs (drive c.before catching budgets (.start p.before)) s (x, t) s' →
    x ≠ .suspended → budgets.sum ≤ budgets'.sum →
    ∃ x' t', M.Runs (drive c.after catching budgets' (.start p.after)) s (x', t') s' ∧
      law.SameAnswer x x' ∧ t'.stats.steps ≤ t.stats.steps ∧
      ∀ v, x = .completed v → ∃ n, Executes M c p s v n s' ∧
        t.stats.steps = t'.stats.steps + law.saving * n
  /-- What the program comes to afterwards, it came to before, with any budgets that grant enough
  nodes. -/
  back {catching : Bool} {budgets' : List ℕ} {s s' : σ} {x' : Answer S} {t' : Trampoline S} :
    M.Runs (drive c.after catching budgets' (.start p.after)) s (x', t') s' → x' ≠ .suspended →
    ∃ x k, law.SameAnswer x x' ∧ t'.stats.steps ≤ k ∧
      (∀ v, x' = .completed v → ∃ n, Executes M c p s v n s' ∧
        k = t'.stats.steps + law.saving * n) ∧
      ∀ {budgets : List ℕ}, k ≤ budgets.sum →
        ∃ t, M.Runs (drive c.before catching budgets (.start p.before)) s (x, t) s' ∧
          t.stats.steps = k
  /-- Wherever a part is executed a number of times, so many times the steps are saved. -/
  saves {catching : Bool} {s s' : σ} {v : S.Value} {n : ℕ} : Executes M c p s v n s' →
    ∃ k, (∀ {budgets : List ℕ}, k + law.saving * n ≤ budgets.sum →
        ∃ t, M.Runs (drive c.before catching budgets (.start p.before)) s (.completed v, t) s' ∧
          t.stats.steps = k + law.saving * n) ∧
      ∀ {budgets' : List ℕ}, k ≤ budgets'.sum →
        ∃ t', M.Runs (drive c.after catching budgets' (.start p.after)) s (.completed v, t') s' ∧
          t'.stats.steps = k
  /-- Where the program is suspended afterwards, be there an end or not, it can be suspended before
  with the same effects. -/
  suspends {catching : Bool} {budgets' : List ℕ} {s s' : σ} {t' : Trampoline S} :
    M.Runs (drive c.after catching budgets' (.start p.after)) s (.suspended, t') s' →
    ∃ budgets t, M.Runs (drive c.before catching budgets (.start p.before)) s (.suspended, t) s'
  /-- Where the program is suspended before, it passes through afterwards with the same effects. -/
  passes {catching : Bool} {budgets : List ℕ} {s s' : σ} {t : Trampoline S} :
    M.Runs (drive c.before catching budgets (.start p.before)) s (.suspended, t) s' →
    Passes M c.after p.after s s'

/-- Both readings report the same events. -/
theorem Drafting.silent_after (h : c.before.Silent M) : c.after.Silent M := h

theorem Drafting.quiet_after (h : c.before.Quiet M) : c.after.Quiet M := h

/-- A law may be applied to parts of a program wherever they stand, and as often as they occur:
slices with any budgets cannot tell the difference, but for the steps that the law saves each time
that such a part is executed, and for the stage of a panic if the law moves it. -/
theorem Law.simplifies (hx : M.Exact) (hs : c.before.Silent M) (hq : c.before.Quiet M)
    (hc : law.Governs M c) (hp : law.Suits M c p) : law.Simplifies M c p where
  forth {catching budgets budgets' s s' x t} hr hends hn := by
    obtain ⟨w, u, rfl, hu, hsum, hstats⟩ := Trampoline.drive_unfolds hx hq hr hends
    obtain ⟨w', u', n, hagree⟩ := Drafting.unfolds hx hc hp hu
    have hle : u'.steps ≤ u.steps := hagree.ends.le
    have hn : u'.steps ≤ budgets'.sum := by omega
    obtain ⟨t', hr', hstats'⟩ := Trampoline.unfolds_drive (Drafting.silent_after hs) hagree.after hn
    refine ⟨_, t', hr', hagree.ends.answer catching, ?_⟩
    rw [hstats, hstats']
    refine ⟨hle, fun v hv => ⟨n, ?_⟩⟩
    obtain rfl := Answer.eq_ok_of_completed hv.symm
    exact ⟨hagree.executes rfl, hagree.ends.of_ok.2⟩
  back {catching budgets' s s' x' t'} hr hends := by
    obtain ⟨w', u', rfl, hu', -, hstats'⟩ :=
      Trampoline.drive_unfolds hx (Drafting.quiet_after hq) hr hends
    obtain ⟨w, u, n, hagree⟩ := Drafting.of_unfolds hx hc hp hu'
    refine ⟨_, u.steps, hagree.ends.answer catching, ?_⟩
    rw [hstats']
    refine ⟨hagree.ends.le, fun v hv => ⟨n, ?_⟩, fun hn => ?_⟩
    · obtain rfl := Answer.eq_ok_of_completed hv.symm
      obtain ⟨rfl, hsteps⟩ := hagree.ends.of_ok_right
      exact ⟨hagree.executes rfl, hsteps⟩
    · obtain ⟨t, hr, hstats⟩ := Trampoline.unfolds_drive hs hagree.before hn
      exact ⟨t, hr, congrArg Stats.steps hstats⟩
  saves {catching s s' v n} h := by
    obtain ⟨u, u', hagree⟩ := h.agree hx hc hp
    refine ⟨u'.steps, fun hn => ?_, fun hn => ?_⟩
    · rw [← hagree.ends.of_ok.2] at hn ⊢
      obtain ⟨t, hr, hstats⟩ := Trampoline.unfolds_drive hs hagree.before hn
      exact ⟨t, hr, congrArg Stats.steps hstats⟩
    · have hs := Drafting.silent_after hs
      obtain ⟨t', hr', hstats'⟩ := Trampoline.unfolds_drive hs hagree.after hn
      exact ⟨t', hr', congrArg Stats.steps hstats'⟩
  suspends hr := by
    obtain ⟨e', -, hreaches⟩ := 
      Trampoline.reaches_of_drive (t := .start p.after) hx (Drafting.quiet_after hq) rfl hr
    exact (Trampoline.suspended_iff_reaches hx hs hq).2 (Drafting.of_reaches hx hc hp hreaches rfl)
  passes hr := by
    obtain ⟨e', -, hreaches⟩ := Trampoline.reaches_of_drive (t := .start p.before) hx hq rfl hr
    exact Drafting.passes hx hc hp hreaches (.inl rfl)

/-- A law saves its steps once in every run that completes. -/
def Law.SavesOnce (law : Law) (M : Meaning m σ) (c : Drafting S m) (p : Draft S) : Prop :=
  ∀ {catching : Bool} {budgets budgets' : List ℕ} {s s₁ s₂ : σ} {v v' : S.Value}
    {t t' : Trampoline S},
    M.Runs (Trampoline.drive c.before catching budgets (.start p.before)) s (.completed v, t) s₁ →
    M.Runs (Trampoline.drive c.after catching budgets' (.start p.after)) s (.completed v', t')
      s₂ → t.stats.steps = t'.stats.steps + law.saving

/-! ### A loop with a part that is replaced -/

/-- What is done to numbers. -/
inductive Counting where
  | pred
  | half
  /-- The one after the other. -/
  | both

namespace Counting

/-- Leaves of programs that count. -/
inductive Leaf where
  | give (v : ℕ)
  /-- Call `pred`. -/
  | pred (v : ℕ)

/-- Continuations of programs that count. -/
inductive Next where
  /-- Call `pred` in a leaf. -/
  | deferred
  /-- Go on with `pred` and `half` until 0 is reached. -/
  | again

/-- Codes for programs that count. -/
def signature : Signature where
  Ty := Unit
  typeName _ := "number"
  Value := ℕ
  typeOf _ := ()
  Thunk := Leaf
  Transform := Counting
  Continuation := Next

/-- Count down. There is nothing below 0. -/
def countDown (v : ℕ) : StateM (List String) (Outcome signature ℕ) :=
  modifyGet fun log =>
    (if v = 0 then .panicked (.literal "zero") else .returned (v - 1), log ++ ["pred"])

def halve (v : ℕ) : StateM (List String) (Outcome signature ℕ) :=
  modifyGet fun log => (.returned (v / 2), log ++ ["half"])

/-- What is done to a number, with a log of the calls. -/
def apply : Counting → ℕ → StateM (List String) (Outcome signature ℕ)
  | pred, v => countDown v
  | half, v => halve v
  | both, v => do
    match ← countDown v with
    | .returned v => halve v
    | .mismatched expected => pure (.mismatched expected)
    | .panicked p => pure (.panicked p)

/-- A client whose continuations return the given drafts. -/
def client (drafts : Next → ℕ → Draft signature) : Drafting signature (StateM (List String)) where
  thunk
    | .give v => pure (.returned v)
    | .pred v => apply .pred v
  transform := apply
  continuation k v := pure (.returned (drafts k v))
  observe _ := pure ()

/-- The two transforms are marked, which stand in a loop. -/
def marked : Next → ℕ → Draft signature
  | .deferred, v => .sync (Leaf.pred v)
  | .again, v =>
    if v = 0 then .sync (Leaf.give 0)
    else .around (.flatMap Next.again) (.fused (.sync (Leaf.give v)) pred half both)

/-- Nothing is marked. -/
def unmarked (k : Next) (v : ℕ) : Draft signature := .plain (marked k v).before

/-- A loop that is entered with `v`. -/
def loop (v : ℕ) : Draft signature := .around (.flatMap Next.again) (.sync (Leaf.give v))

variable {drafts : Next → ℕ → Draft signature}

theorem fuses : (client drafts).before.Fuses pred half both := fun v =>
  bind_congr (x := countDown v) fun out => by cases out <;> rfl

theorem governs {law : Law} (h : ∀ k v, law.Suits (.state _) (client drafts) (drafts k v)) :
    law.Governs (.state _) (client drafts) := fun {k v _ _ _} hrun => by
  cases (Meaning.state_exact _).of_pure hrun |>.1
  exact h k v

theorem suits_marked (k : Next) (v : ℕ) :
    Law.fusion.Suits (.state _) (client marked) (marked k v) := by
  cases k with
  | deferred => exact .sync _
  | again =>
    rw [marked]
    split
    · exact .sync _
    · exact .around _ (.fused fuses (.sync _))

/-- The loop may be left before the part is reached, or after it has been executed twice. -/
theorem not_savesOnce : (∀ v, Law.fusion.Suits (.state _) (client marked) (loop v)) ∧
    ¬Law.fusion.SavesOnce (.state _) (client marked) (loop 0) ∧
    ¬Law.fusion.SavesOnce (.state _) (client marked) (loop 6) := by
  have hbefore₀ : (Meaning.state _).Runs
      (Trampoline.drive (client marked).before true [3] (.start (loop 0).before)) []
      (.completed (0 : ℕ), ⟨none, .empty, ⟨3, 0, 1⟩⟩) [] := rfl
  have hafter₀ : (Meaning.state _).Runs
      (Trampoline.drive (client marked).after true [3] (.start (loop 0).after)) []
      (.completed (0 : ℕ), ⟨none, .empty, ⟨3, 0, 1⟩⟩) [] := rfl
  have hbefore₆ : (Meaning.state _).Runs
      (Trampoline.drive (client marked).before true [11] (.start (loop 6).before)) []
      (.completed (0 : ℕ), ⟨none, .empty, ⟨11, 0, 3⟩⟩) ["pred", "half", "pred", "half"] := rfl
  have hafter₆ : (Meaning.state _).Runs
      (Trampoline.drive (client marked).after true [9] (.start (loop 6).after)) []
      (.completed (0 : ℕ), ⟨none, .empty, ⟨9, 0, 2⟩⟩) ["pred", "half", "pred", "half"] := rfl
  refine ⟨fun v => .around _ (.sync _), fun h => ?_, fun h => ?_⟩
  · exact absurd (h hbefore₀ hafter₀) (by decide)
  · exact absurd (h hbefore₆ hafter₆) (by decide)

theorem simplifies_programs :
    Executes (.state _) (client marked) (loop 6) [] (0 : ℕ) 2 ["pred", "half", "pred", "half"] ∧
    ∃ x' t', (Trampoline.drive (client unmarked).after true [3]
        (.start (.map (.sync (Leaf.give 0)) pred))).run [] = ((x', t'), ["pred"]) ∧
      Law.SameAnswer .deferral (.failed (.panicked .thunk "zero")) x' := by
  have hx := Meaning.state_exact (List String)
  have hsilent {drafts} : (client drafts).before.Silent (.state _) := fun _ _ => rfl
  have hquiet {drafts} : (client drafts).before.Quiet (.state _) :=
    fun _ _ _ h => (Prod.mk.inj h).2.symm
  have hfused := Law.simplifies hx hsilent hquiet (governs suits_marked)
    (p := loop 6) (.around _ (.sync _))
  have hdeferred := Law.simplifies hx hsilent hquiet
    (governs fun k v => Law.suits_plain (.state _) (client unmarked) .deferral _)
    (p := .called (.sync (Leaf.give 0)) Next.deferred pred)
    (.called (fun v => .inl ⟨.pred v, rfl, rfl⟩) (.sync _))
  have hloop : (Meaning.state _).Runs
      (Trampoline.drive (client marked).before true [4, 7] (.start (loop 6).before)) []
      (.completed (0 : ℕ), ⟨none, .empty, ⟨11, 1, 3⟩⟩) ["pred", "half", "pred", "half"] := rfl
  have hzero : (Meaning.state _).Runs
      (Trampoline.drive (client unmarked).before true [3]
        (.start (.flatMap (.sync (Leaf.give 0)) Next.deferred))) []
      (.failed (.panicked .thunk "zero"), ⟨none, .empty, ⟨3, 0, 1⟩⟩) ["pred"] := rfl
  obtain ⟨x₁, t₁, hr₁, -, -, hsteps⟩ := hfused.forth hloop (by simp) (Nat.le_refl _)
  obtain ⟨x₂, t₂, hr₂, hsame₂, -⟩ := hdeferred.forth hzero (by simp) (Nat.le_refl _)
  obtain ⟨n, hexec, hn⟩ := hsteps _ rfl
  have ht : t₁.stats.steps = 9 := by
    cases hr₁
    rfl
  have htwo : n = 2 := by
    have hn : 11 = t₁.stats.steps + 1 * n := hn
    omega
  exact ⟨htwo ▸ hexec, x₂, t₂, hr₂, hsame₂⟩

end Counting

end LazyEffects
