import LazyEffects.Proofs.Prefixes

/-!
# Grouping stages

Two stages in a row, a continuation `f` and a further stage, can be grouped in two ways: the further
stage stands on top of the first, or one continuation runs `f` and puts the further stage on top of
the effect that `f` returns. In the one case both frames are pending before `f` is called; in the
other the second takes the place of the first.

* `Regroups` relates effects that differ in this way, in any number of places, and `Regrouping`
  relates functions that return such effects;
* `Feeds.nest` and `Feeds.of_nested`: handing a value to the one continuation is handing it to both
  stages;
* `Regrouping.unfolds` and `Regrouping.of_unfolds`: such effects have the same evaluations, and
  `Regrouping.reaches` and `Regrouping.of_reaches`: they get to the same states where they do not
  end;
* `Regrouping.drive_agrees`: they cannot be told apart by slices with any budgets, but for the
  frames that are pending.
-/

namespace LazyEffects

variable {S : Signature} {m : Type → Type} [Monad m] {σ : Type}

variable {M : Meaning m σ} {fns fns' : Functions S m} {e e' : Effect S} {s s' : σ}
  {w w₁ : Verdict S} {u u' : Unfolding} {o o' : Option Unfolding} {frame : Frame S}

/-! ### One continuation for two stages -/

/-- The end of a call, with a function applied to what is returned. -/
def Outcome.map {α β : Type} (f : α → β) : Outcome S α → Outcome S β
  | .returned a => .returned (f a)
  | .mismatched expected => .mismatched expected
  | .panicked p => .panicked p

/-- The continuation `h` runs `f` and puts a further stage on top of the effect that `f` returns. -/
def Functions.Nests (fns : Functions S m) (f : S.Continuation) (frame : Frame S)
    (h : S.Continuation) : Prop :=
  ∀ v, fns.continuation h v = do
    let out ← fns.continuation f v
    pure (out.map fun e => frame.around e)

section

variable {f h : S.Continuation} {v : S.Value} {out : Outcome S (Effect S)}

theorem Functions.Nests.runs (hn : fns.Nests f frame h)
    (hf : M.Runs (fns.continuation f v) s out s') :
    M.Runs (fns.continuation h v) s (out.map fun e => frame.around e) s' := by
  rw [hn]
  exact M.runs_bind hf (M.runs_pure _ _)

theorem Functions.Nests.of_runs (hx : M.Exact) (hn : fns.Nests f frame h)
    (hh : M.Runs (fns.continuation h v) s out s') : ∃ out',
      M.Runs (fns.continuation f v) s out' s' ∧ out = out'.map fun e => frame.around e := by
  rw [hn] at hh
  obtain ⟨out', s₁, hf, hpure⟩ := hx.of_bind hh
  obtain ⟨hout, rfl⟩ := hx.of_pure hpure
  exact ⟨out', hf, hout⟩

end

namespace Feeds

variable {f h : S.Continuation} {w₂ : Verdict S} {s₁ s₂ : σ} {o₁ o₂ : Option Unfolding}

/-- What comes of a value that is handed to `f` and then to the further stage, comes of it when it
is handed to the one continuation. -/
theorem nest (hn : fns.Nests f frame h) (hf : Feeds M fns (.flatMap f) w₁ s w₂ o₁ s₁)
    (hframe : Feeds M fns frame w₂ s₁ w o₂ s') :
    Feeds M fns (.flatMap h) w₁ s w (o₁.map (·.node o₂)) s' := by
  cases hf with
  | stopped =>
    obtain ⟨rfl, rfl, rfl⟩ := hframe.of_error
    exact .stopped
  | flatMap hk he =>
    exact .flatMap (hn.runs hk) ((unfolds_around_iff frame).2 ⟨_, _, _, _, he, hframe, rfl⟩)
  | @refused _ v out c _ _ hk hc =>
    obtain ⟨rfl, rfl, rfl⟩ := hframe.of_error
    have hrun := hn.runs hk
    cases out with
    | returned => cases hc
    | mismatched => exact .refused hrun hc
    | panicked => exact .refused hrun hc

/-- Nothing else comes of it. -/
theorem of_nested (hx : M.Exact) (hn : fns.Nests f frame h)
    (hfeeds : Feeds M fns (.flatMap h) w₁ s w o s') : ∃ w₂ o₁ s₁ o₂,
      Feeds M fns (.flatMap f) w₁ s w₂ o₁ s₁ ∧ Feeds M fns frame w₂ s₁ w o₂ s' ∧
        o = o₁.map (·.node o₂) := by
  cases hfeeds with
  | stopped => exact ⟨_, none, _, none, .stopped, .stopped, rfl⟩
  | flatMap hk he =>
    obtain ⟨out, hf, hout⟩ := hn.of_runs hx hk
    cases out with
    | returned e₁ =>
      cases hout
      obtain ⟨w₂, u₂, s₂, o₂, he₁, hframe, rfl⟩ := (unfolds_around_iff frame).1 he
      exact ⟨w₂, some u₂, s₂, o₂, .flatMap hf he₁, hframe, rfl⟩
    | mismatched => cases hout
    | panicked => cases hout
  | refused hk hc =>
    obtain ⟨out, hf, rfl⟩ := hn.of_runs hx hk
    cases out with
    | returned => cases hc
    | mismatched => exact ⟨_, none, _, none, .refused hf hc, .stopped, rfl⟩
    | panicked => exact ⟨_, none, _, none, .refused hf hc, .stopped, rfl⟩

end Feeds

/-! ### Effects that are grouped in two ways -/

/-- The second effect is the first one with continuations for two stages in some places. What
continuation stands for which two stages is given by `nests`. -/
inductive Regroups (nests : S.Continuation → Frame S → S.Continuation → Prop) :
    Effect S → Effect S → Prop where
  | sync (t : S.Thunk) : Regroups nests (.sync t) (.sync t)
  | around {e e' : Effect S} (frame : Frame S) :
    Regroups nests e e' → Regroups nests (frame.around e) (frame.around e')
  | nested {f h : S.Continuation} {frame : Frame S} {e e' : Effect S} :
    nests f frame h → Regroups nests e e' →
    Regroups nests (frame.around (.flatMap e f)) (.flatMap e' h)

/-- Two calls end in the same way, and return what is related by `r`. -/
inductive Outcome.Rel {α : Type} (r : α → α → Prop) : Outcome S α → Outcome S α → Prop where
  | returned {a a' : α} : r a a' → Rel r (.returned a) (.returned a')
  | mismatched (expected : S.Ty) : Rel r (.mismatched expected) (.mismatched expected)
  | panicked (p : Payload) : Rel r (.panicked p) (.panicked p)

theorem Outcome.Rel.flip {α : Type} {r : α → α → Prop} {out out' : Outcome S α}
    (h : out.Rel r out') : out'.Rel (fun a' a => r a a') out := by
  cases h with
  | returned h => exact .returned h
  | mismatched expected => exact .mismatched expected
  | panicked p => exact .panicked p

theorem option_rel_flip {α : Type} {r : α → α → Prop} {o o' : Option α} (h : Option.Rel r o o') :
    Option.Rel (fun a' a => r a a') o' o := by
  cases h with
  | none => exact .none
  | some h => exact .some h

/-- Two clients that differ in the way in which the effects are grouped that their continuations
return. -/
structure Regrouping (M : Meaning m σ) (nests : S.Continuation → Frame S → S.Continuation → Prop)
    (fns fns' : Functions S m) : Prop where
  thunk : fns'.thunk = fns.thunk
  transform : fns'.transform = fns.transform
  forth {k : S.Continuation} {v : S.Value} {out : Outcome S (Effect S)} {s s' : σ} :
    M.Runs (fns.continuation k v) s out s' →
      ∃ out', M.Runs (fns'.continuation k v) s out' s' ∧ out.Rel (Regroups nests) out'
  back {k : S.Continuation} {v : S.Value} {out' : Outcome S (Effect S)} {s s' : σ} :
    M.Runs (fns'.continuation k v) s out' s' →
      ∃ out, M.Runs (fns.continuation k v) s out s' ∧ out.Rel (Regroups nests) out'
  nested {f h : S.Continuation} {frame : Frame S} : nests f frame h → fns'.Nests f frame h

variable {nests : S.Continuation → Frame S → S.Continuation → Prop}

theorem regroups_refl (e : Effect S) : Regroups nests e e := by
  induction e with
  | sync t => exact .sync t
  | map e f ih => exact .around (.map f) ih
  | flatMap e k ih => exact .around (.flatMap k) ih

/-- A client that does not change has its programs regrouped where they are written. -/
theorem Regrouping.refl (h : ∀ {f frame h}, nests f frame h → fns.Nests f frame h) :
    Regrouping M nests fns fns := by
  have hrefl (out : Outcome S (Effect S)) : out.Rel (Regroups nests) out := by
    cases out with
    | returned e => exact .returned (regroups_refl e)
    | mismatched expected => exact .mismatched expected
    | panicked p => exact .panicked p
  exact ⟨rfl, rfl, fun hk => ⟨_, hk, hrefl _⟩, fun hk => ⟨_, hk, hrefl _⟩, h⟩

/-! ### What grouping costs -/

/-- Of two evaluations with the same end the second takes no more steps and no more frames, and if
the end is a value, as many steps. -/
structure Saves (w : Verdict S) (u u' : Unfolding) : Prop where
  steps_le : u'.steps ≤ u.steps
  steps_eq {v : S.Value} : w = .ok v → u'.steps = u.steps
  peak_le : u'.peak 0 ≤ u.peak 0

namespace Saves

theorem refl (w : Verdict S) (u : Unfolding) : Saves w u u :=
  ⟨Nat.le_refl _, fun _ => rfl, Nat.le_refl _⟩

theorem trans {u'' : Unfolding} (h : Saves w u u') (h' : Saves w u' u'') : Saves w u u'' where
  steps_le := Nat.le_trans h'.steps_le h.steps_le
  steps_eq hw := (h'.steps_eq hw).trans (h.steps_eq hw)
  peak_le := Nat.le_trans h'.peak_le h.peak_le

/-- The counters of what completes. -/
theorem counters {v : S.Value} (h : Saves w u u') (hw : w = .ok v) {budgets : List ℕ} :
    (u'.counters (Trampoline.cuts budgets u'.steps)).steps =
        (u.counters (Trampoline.cuts budgets u.steps)).steps ∧
      (u'.counters (Trampoline.cuts budgets u'.steps)).suspensions =
        (u.counters (Trampoline.cuts budgets u.steps)).suspensions ∧
      (u'.counters (Trampoline.cuts budgets u'.steps)).maxStack ≤
        (u.counters (Trampoline.cuts budgets u.steps)).maxStack :=
  ⟨h.steps_eq hw, congrArg (Trampoline.cuts budgets) (h.steps_eq hw), h.peak_le⟩

/-- A node saves what its source and the effect save that is returned. -/
theorem node (h : Saves w₁ u u') (ho : Option.Rel (Saves w) o o')
    (hw : ∀ {v}, w = .ok v → ∃ v₁, w₁ = .ok v₁) : Saves w (u.node o) (u'.node o') := by
  have hsteps := h.steps_le
  have hpeak := h.peak_le
  cases ho with
  | none =>
    refine ⟨?_, fun hv => ?_, ?_⟩
    · simp only [Unfolding.steps_node]
      omega
    · obtain ⟨v₁, rfl⟩ := hw hv
      rw [Unfolding.steps_node, Unfolding.steps_node, h.steps_eq rfl]
    · simp only [Unfolding.peak_node]
      omega
  | some ho =>
    have hsteps' := ho.steps_le
    have hpeak' := ho.peak_le
    refine ⟨?_, fun hv => ?_, ?_⟩
    · simp only [Unfolding.steps_node, Option.elim_some]
      omega
    · obtain ⟨v₁, rfl⟩ := hw hv
      rw [Unfolding.steps_node, Unfolding.steps_node, h.steps_eq rfl, Option.elim_some,
        Option.elim_some, ho.steps_eq hv]
    · simp only [Unfolding.peak_node, Option.elim_some]
      omega

end Saves

/-- One continuation for two stages takes as many steps as both, if the first returns an effect, and
the frame of the second is not pending before. -/
theorem Feeds.saves {f : S.Continuation} {w₂ : Verdict S} {s₁ s₂ : σ} {o₁ o₂ : Option Unfolding}
    (hf : Feeds M fns (.flatMap f) w₁ s₁ w₂ o₁ s₂) (hframe : Feeds M fns frame w₂ s₂ w o₂ s') :
    Saves w ((u.node o₁).node o₂) (u.node (o₁.map (·.node o₂))) := by
  cases o₁ with
  | none =>
    obtain ⟨c, rfl⟩ := hf.of_none
    obtain ⟨rfl, rfl, rfl⟩ := hframe.of_error
    refine ⟨?_, fun hv => (by cases hv), ?_⟩
    · simp only [Unfolding.steps_node, Option.map_none, Option.elim_none]
      omega
    · simp only [Unfolding.peak_node, Option.map_none, Option.elim_none]
      omega
  | some u₁ =>
    have hsteps : (u.node ((some u₁).map (·.node o₂))).steps =
        ((u.node (some u₁)).node o₂).steps := by
      simp only [Unfolding.steps_node, Option.map_some, Option.elim_some]
      omega
    refine ⟨Nat.le_of_eq hsteps, fun _ => hsteps, ?_⟩
    simp only [Unfolding.peak_node, Option.map_some, Option.elim_some]
    omega

theorem Feeds.steps_le {f : S.Continuation} {w₂ : Verdict S} {s₁ s₂ : σ}
    {o₁ o₂ : Option Unfolding} (hf : Feeds M fns (.flatMap f) w₁ s₁ w₂ o₁ s₂)
    (hframe : Feeds M fns frame w₂ s₂ w o₂ s') :
    o₁.elim 0 Unfolding.steps + o₂.elim 0 Unfolding.steps ≤
      (o₁.map (·.node o₂)).elim 0 Unfolding.steps := by
  cases o₁ with
  | none =>
    obtain ⟨c, rfl⟩ := hf.of_none
    obtain ⟨-, rfl, -⟩ := hframe.of_error
    exact Nat.le_refl _
  | some u₁ =>
    rw [Option.map_some, Option.elim_some, Option.elim_some, Unfolding.steps_node]
    omega

/-! ### The evaluations are the same -/

/-- A frame leads to the same end for two clients, if the effects that continuations return have
related evaluations. -/
theorem Feeds.transfer {r : Effect S → Effect S → Prop}
    {T : Verdict S → Unfolding → Unfolding → Prop} (ht : fns'.transform = fns.transform)
    (hk : ∀ {k v out s s'}, M.Runs (fns.continuation k v) s out s' →
      ∃ out', M.Runs (fns'.continuation k v) s out' s' ∧ out.Rel r out')
    (ih : ∀ u ∈ o, ∀ {e e' s w s'}, r e e' → Unfolds M fns e s w u s' →
      ∃ u', Unfolds M fns' e' s w u' s' ∧ T w u u')
    (h : Feeds M fns frame w₁ s w o s') :
    ∃ o', Feeds M fns' frame w₁ s w o' s' ∧ Option.Rel (T w) o o' := by
  cases h with
  | stopped => exact ⟨none, .stopped, .none⟩
  | map hf =>
    rw [← ht] at hf
    exact ⟨none, .map hf, .none⟩
  | flatMap hrun he =>
    obtain ⟨out', hrun', hout⟩ := hk hrun
    cases hout with
    | returned hr =>
      obtain ⟨u', he', hu'⟩ := ih _ rfl hr he
      exact ⟨some u', .flatMap hrun' he', .some hu'⟩
  | refused hrun hc =>
    obtain ⟨out', hrun', hout⟩ := hk hrun
    cases hout with
    | returned => cases hc
    | mismatched => exact ⟨none, .refused hrun' hc, .none⟩
    | panicked => exact ⟨none, .refused hrun' hc, .none⟩

theorem Unfolds.sync_congr {t : S.Thunk} (ht : fns'.thunk = fns.thunk)
    (h : Unfolds M fns (.sync t) s w u s') : Unfolds M fns' (.sync t) s w u s' := by
  cases h with
  | sync hr =>
    rw [← ht] at hr
    exact .sync hr

namespace Regrouping

/-- Whatever an effect leads to, it leads to when it is regrouped. -/
theorem unfolds (R : Regrouping M nests fns fns') (h : Regroups nests e e')
    (hu : Unfolds M fns e s w u s') : ∃ u', Unfolds M fns' e' s w u' s' ∧ Saves w u u' := by
  -- On the steps: the trees of the source and of the effect that is returned have less.
  induction hn : u.steps using Nat.strongRecOn generalizing e e' s w u s' with
  | _ n ih =>
    have hfeeds {frame : Frame S} {w₁ w : Verdict S} {s s' : σ} {o : Option Unfolding}
        (ho : o.elim 0 Unfolding.steps < n) (hf : Feeds M fns frame w₁ s w o s') :
        ∃ o', Feeds M fns' frame w₁ s w o' s' ∧ Option.Rel (Saves w) o o' :=
      hf.transfer R.transform R.forth fun u hu _ _ _ _ _ hr he => by
        subst hu
        exact ih u.steps ho hr he rfl
    cases h with
    | sync t => exact ⟨u, hu.sync_congr R.thunk, .refl w u⟩
    | around frame h =>
      obtain ⟨w₁, u₁, s₁, o, he, hframe, rfl⟩ := (unfolds_around_iff frame).1 hu
      rw [Unfolding.steps_node] at hn
      obtain ⟨u₁', he', hsaves⟩ := ih u₁.steps (by omega) h he rfl
      obtain ⟨o', hframe', hsaves'⟩ := hfeeds (by omega) hframe
      refine ⟨_, (unfolds_around_iff frame).2 ⟨_, _, _, _, he', hframe', rfl⟩, ?_⟩
      exact hsaves.node hsaves' fun hw => (hw ▸ hframe).source_ok
    | @nested f h frame e e' hnests hrel =>
      -- Both stages, one after the other, and then the one continuation in their place.
      obtain ⟨w₂, u₂, s₂, o₂, he₂, hframe, rfl⟩ := (unfolds_around_iff frame).1 hu
      obtain ⟨w₁, u₁, s₁, o₁, he, hf, rfl⟩ := (unfolds_around_iff (.flatMap f)).1 he₂
      simp only [Unfolding.steps_node] at hn
      obtain ⟨u₁', he', hsaves⟩ := ih u₁.steps (by omega) hrel he rfl
      obtain ⟨o₁', hf', hsaves₁⟩ := hfeeds (by omega) hf
      obtain ⟨o₂', hframe', hsaves₂⟩ := hfeeds (by omega) hframe
      have hnested := hf'.nest (R.nested hnests) hframe'
      refine ⟨_, (unfolds_around_iff (.flatMap h)).2 ⟨_, _, _, _, he', hnested, rfl⟩, ?_⟩
      refine .trans ?_ (hf'.saves hframe')
      exact .node (hsaves.node hsaves₁ fun hw => (hw ▸ hf).source_ok) hsaves₂
        fun hw => (hw ▸ hframe).source_ok

/-- A regrouped effect leads to nothing else. -/
theorem of_unfolds (R : Regrouping M nests fns fns') (hx : M.Exact) (h : Regroups nests e e')
    (hu : Unfolds M fns' e' s w u' s') : ∃ u, Unfolds M fns e s w u s' ∧ Saves w u u' := by
  induction hn : u'.steps using Nat.strongRecOn generalizing e e' s w u' s' with
  | _ n ih =>
    have hfeeds {frame : Frame S} {w₁ w : Verdict S} {s s' : σ} {o' : Option Unfolding}
        (ho : o'.elim 0 Unfolding.steps < n) (hf : Feeds M fns' frame w₁ s w o' s') :
        ∃ o, Feeds M fns frame w₁ s w o s' ∧ Option.Rel (Saves w) o o' := by
      obtain ⟨o, hf', hrel⟩ := hf.transfer (T := fun w u' u => Saves w u u') R.transform.symm
        (r := fun e' e => Regroups nests e e') (fun hk => by
          obtain ⟨out, hk', hrel⟩ := R.back hk
          exact ⟨out, hk', hrel.flip⟩)
        fun u hu _ _ _ _ _ hr he => by
          subst hu
          exact ih u.steps ho hr he rfl
      exact ⟨o, hf', option_rel_flip hrel⟩
    cases h with
    | sync t => exact ⟨u', hu.sync_congr R.thunk.symm, .refl w u'⟩
    | around frame h =>
      obtain ⟨w₁, u₁', s₁, o', he', hframe', rfl⟩ := (unfolds_around_iff frame).1 hu
      rw [Unfolding.steps_node] at hn
      obtain ⟨u₁, he, hsaves⟩ := ih u₁'.steps (by omega) h he' rfl
      obtain ⟨o, hframe, hsaves'⟩ := hfeeds (by omega) hframe'
      refine ⟨_, (unfolds_around_iff frame).2 ⟨_, _, _, _, he, hframe, rfl⟩, ?_⟩
      exact hsaves.node hsaves' fun hw => (hw ▸ hframe).source_ok
    | @nested f h frame e e' hnests hrel =>
      obtain ⟨w₁, u₁', s₁, o', he', hnested, rfl⟩ := (unfolds_around_iff (.flatMap h)).1 hu
      obtain ⟨w₂, o₁', s₂, o₂', hf', hframe', rfl⟩ :=
        hnested.of_nested hx (R.nested hnests)
      have hle := hf'.steps_le hframe'
      rw [Unfolding.steps_node] at hn
      obtain ⟨u₁, he, hsaves⟩ := ih u₁'.steps (by omega) hrel he' rfl
      obtain ⟨o₁, hf, hsaves₁⟩ := hfeeds (by omega) hf'
      obtain ⟨o₂, hframe, hsaves₂⟩ := hfeeds (by omega) hframe'
      have he₂ := (unfolds_around_iff (.flatMap f)).2 ⟨_, _, _, _, he, hf, rfl⟩
      refine ⟨_, (unfolds_around_iff frame).2 ⟨_, _, _, _, he₂, hframe, rfl⟩, ?_⟩
      refine .trans ?_ (hf'.saves hframe')
      exact .node (hsaves.node hsaves₁ fun hw => (hw ▸ hf).source_ok) hsaves₂
        fun hw => (hw ▸ hframe).source_ok

end Regrouping

/-! ### Where the evaluations get to -/

/-- The one continuation gets wherever both stages get. -/
theorem Reaches.nest {f h : S.Continuation} {e' : Effect S} (hn : fns.Nests f frame h)
    (hr : Reaches M fns (frame.around (.flatMap e f)) s e' s') :
    ∃ e₁, Reaches M fns (.flatMap e h) s e₁ s' := by
  rcases hr.of_around with ⟨e₁, -, hfirst⟩ | ⟨k, v, u, s₁, e₁, s₂, rfl, hu, hk, hlater⟩
  · have hfirst : Reaches M fns (Frame.around e (.flatMap f)) s e₁ s' := hfirst
    rcases hfirst.of_around with
      ⟨e₂, -, hsource⟩ | ⟨_, v, u, s₁, e₂, s₂, hframe, hu, hf, hlater⟩
    · exact ⟨_, .source (.flatMap h) hsource⟩
    · cases hframe
      exact ⟨_, .continued hu (hn.runs hf) (.source frame hlater)⟩
  · cases hu with
    | flatMap he hf he₁ => exact ⟨_, .continued he (hn.runs hf) (.continued he₁ hk hlater)⟩

namespace Regrouping

/-- Wherever an evaluation gets to, the evaluation of the regrouped effect gets to. -/
theorem reaches {e₁ : Effect S} (R : Regrouping M nests fns fns') (h : Regroups nests e e')
    (hr : Reaches M fns e s e₁ s') : ∃ e₁', Reaches M fns' e' s e₁' s' := by
  induction hr generalizing e' with
  | refl => exact ⟨e', .refl⟩
  | @source e e₁ s s' frame _ ih =>
    generalize hx : frame.around e = x at h
    cases h with
    | sync => cases frame <;> cases hx
    | around frame' h =>
      obtain ⟨rfl, rfl⟩ := Frame.around_inj hx
      obtain ⟨e₁', hr⟩ := ih h
      exact ⟨_, .source frame hr⟩
    | @nested f _ frame' a a' hnests h =>
      obtain ⟨rfl, rfl⟩ := Frame.around_inj hx
      obtain ⟨e₁', hr⟩ := ih (.around (.flatMap f) h)
      exact (Reaches.source frame hr).nest (R.nested hnests)
  | @continued e e₁ _ k v u s s₁ s₂ s' hu hk _ ih =>
    have hcontinued {a : Effect S} (h : Regroups nests e a) :
        ∃ e₁', Reaches M fns' (.flatMap a k) s e₁' s' := by
      obtain ⟨u', hu', -⟩ := R.unfolds h hu
      obtain ⟨out, hk', hout⟩ := R.forth hk
      cases hout with
      | returned hrel =>
        obtain ⟨e₁', hr⟩ := ih hrel
        exact ⟨e₁', .continued hu' hk' hr⟩
    generalize hx : Effect.flatMap e k = x at h
    cases h with
    | sync => cases hx
    | around frame' h =>
      have hx : Frame.around e (.flatMap k) = Frame.around _ frame' := hx
      obtain ⟨rfl, rfl⟩ := Frame.around_inj hx
      exact hcontinued h
    | @nested f _ frame' a a' hnests h =>
      have hx : Frame.around e (.flatMap k) = Frame.around _ frame' := hx
      obtain ⟨rfl, rfl⟩ := Frame.around_inj hx
      obtain ⟨e₁', hr⟩ := hcontinued (.around (.flatMap f) h)
      exact Reaches.nest (R.nested hnests) hr

/-- The evaluation of a regrouped effect gets nowhere else. -/
theorem of_reaches {e₁' : Effect S} (R : Regrouping M nests fns fns') (hx : M.Exact)
    (h : Regroups nests e e') (hr : Reaches M fns' e' s e₁' s') :
    ∃ e₁, Reaches M fns e s e₁ s' := by
  induction hr generalizing e with
  | refl => exact ⟨e, .refl⟩
  | @source a' e₁ s s' frame _ ih =>
    generalize hy : frame.around a' = y at h
    cases h with
    | sync => cases frame <;> cases hy
    | around frame' h =>
      obtain ⟨rfl, rfl⟩ := Frame.around_inj hy
      obtain ⟨e₁', hr⟩ := ih h
      exact ⟨_, .source frame hr⟩
    | @nested f k frame' a _ hnests h =>
      have hy : Frame.around a' frame = Frame.around _ (.flatMap k) := hy
      obtain ⟨rfl, rfl⟩ := Frame.around_inj hy
      obtain ⟨e₁', hr⟩ := ih h
      exact ⟨_, .source frame' (.source (.flatMap f) hr)⟩
  | @continued a' e₁ _ k v u s s₁ s₂ s' hu hk _ ih =>
    generalize hy : Effect.flatMap a' k = y at h
    cases h with
    | sync => cases hy
    | around frame' h =>
      have hy : Frame.around a' (.flatMap k) = Frame.around _ frame' := hy
      obtain ⟨rfl, rfl⟩ := Frame.around_inj hy
      obtain ⟨u', hu', -⟩ := R.of_unfolds hx h hu
      obtain ⟨out, hk', hout⟩ := R.back hk
      cases hout with
      | returned hrel =>
        obtain ⟨e₁', hr⟩ := ih hrel
        exact ⟨e₁', .continued hu' hk' hr⟩
    | @nested f _ frame' a _ hnests h =>
      -- What the one continuation returns is the further stage on top of what the first returns.
      cases hy
      obtain ⟨u', hu', -⟩ := R.of_unfolds hx h hu
      obtain ⟨out, hf, hout⟩ := (R.nested hnests).of_runs hx hk
      cases out with
      | mismatched => cases hout
      | panicked => cases hout
      | returned e₂' =>
        cases hout
        obtain ⟨out, hf', hrel⟩ := R.back hf
        cases hrel with
        | returned hrel =>
          obtain ⟨e₁', hr⟩ := ih (.around frame' hrel)
          have hfirst := Reaches.source frame' (.continued hu' hf' .refl)
          exact ⟨e₁', hfirst.trans hr⟩

end Regrouping

/-! ### Slices -/

/-- Slices with any budgets do the same for two effects, but for the frames that they have pending.
The state may be a log of what the functions do. -/
structure RunAlike (M : Meaning m σ) (fns fns' : Functions S m) (e e' : Effect S) : Prop where
  /-- They come to the same ends, be it values or failures, with the same effects; and where the
  ones are suspended, with an end or without, the others can be suspended with the same effects. -/
  outcome {catching : Bool} {s s' : σ} {a : Answer S} :
    (∃ budgets t, M.Runs (Trampoline.drive fns catching budgets (.start e)) s (a, t) s') ↔
      ∃ budgets t, M.Runs (Trampoline.drive fns' catching budgets (.start e')) s (a, t) s'
  /-- Budgets that grant enough nodes to the one grant enough to the other. -/
  saves {catching : Bool} {budgets : List ℕ} {s s' : σ} {a : Answer S} {t : Trampoline S} :
    a ≠ .suspended → M.Runs (Trampoline.drive fns catching budgets (.start e)) s (a, t) s' →
      ∃ t', M.Runs (Trampoline.drive fns' catching budgets (.start e')) s (a, t') s' ∧
        t'.stats.steps ≤ t.stats.steps ∧ t'.stats.maxStack ≤ t.stats.maxStack
  /-- With the same budgets they complete together, after as many steps and suspensions. -/
  completes {catching : Bool} {budgets : List ℕ} {s s' : σ} {v : S.Value} {t : Trampoline S} :
    M.Runs (Trampoline.drive fns catching budgets (.start e)) s (.completed v, t) s' →
      ∃ t', M.Runs (Trampoline.drive fns' catching budgets (.start e')) s (.completed v, t') s' ∧
        t'.stats.steps = t.stats.steps ∧ t'.stats.suspensions = t.stats.suspensions ∧
          t'.stats.maxStack ≤ t.stats.maxStack
  completed {catching : Bool} {budgets : List ℕ} {s s' : σ} {v : S.Value} {t' : Trampoline S} :
    M.Runs (Trampoline.drive fns' catching budgets (.start e')) s (.completed v, t') s' →
      ∃ t, M.Runs (Trampoline.drive fns catching budgets (.start e)) s (.completed v, t) s' ∧
        t'.stats.steps = t.stats.steps ∧ t'.stats.suspensions = t.stats.suspensions ∧
          t'.stats.maxStack ≤ t.stats.maxStack

/-- Two stages may be grouped in either way wherever they occur, in programs and in what
continuations return: outcome and effects are the same, and so are the steps and suspensions of what
completes. -/
theorem Regrouping.drive_agrees (R : Regrouping M nests fns fns') (hx : M.Exact)
    (hs : fns.Silent M) (hs' : fns'.Silent M) (hq : fns.Quiet M) (hq' : fns'.Quiet M)
    (h : Regroups nests e e') : RunAlike M fns fns' e e' where
  outcome {catching s s' a} := by
    by_cases ha : a = .suspended
    · subst ha
      rw [Trampoline.suspended_iff_reaches hx hs hq, Trampoline.suspended_iff_reaches hx hs' hq']
      exact ⟨fun ⟨_, hr⟩ => R.reaches h hr, fun ⟨_, hr⟩ => R.of_reaches hx h hr⟩
    constructor
    · rintro ⟨budgets, t, hr⟩
      obtain ⟨w, u, rfl, hu, -, -⟩ := Trampoline.drive_unfolds hx hq hr ha
      obtain ⟨u', hu', -⟩ := R.unfolds h hu
      obtain ⟨t', hr', -⟩ := Trampoline.unfolds_drive hs' hu' (Nat.le_of_eq List.sum_singleton.symm)
      exact ⟨_, t', hr'⟩
    · rintro ⟨budgets, t', hr'⟩
      obtain ⟨w, u', rfl, hu', -, -⟩ := Trampoline.drive_unfolds hx hq' hr' ha
      obtain ⟨u, hu, -⟩ := R.of_unfolds hx h hu'
      obtain ⟨t, hr, -⟩ := Trampoline.unfolds_drive hs hu (Nat.le_of_eq List.sum_singleton.symm)
      exact ⟨_, t, hr⟩
  saves ha hr := by
    obtain ⟨w, u, rfl, hu, hn, hstats⟩ := Trampoline.drive_unfolds hx hq hr ha
    obtain ⟨u', hu', hsaves⟩ := R.unfolds h hu
    obtain ⟨t', hr', hstats'⟩ := Trampoline.unfolds_drive hs' hu' (Nat.le_trans hsaves.steps_le hn)
    refine ⟨t', hr', ?_⟩
    rw [hstats, hstats']
    exact ⟨hsaves.steps_le, hsaves.peak_le⟩
  completes hr := by
    obtain ⟨w, u, hw, hu, hn, hstats⟩ := Trampoline.drive_unfolds hx hq hr (by simp)
    obtain rfl := Answer.eq_ok_of_completed hw
    obtain ⟨u', hu', hsaves⟩ := R.unfolds h hu
    obtain ⟨t', hr', hstats'⟩ := Trampoline.unfolds_drive hs' hu' (Nat.le_trans hsaves.steps_le hn)
    refine ⟨t', hr', ?_⟩
    rw [hstats, hstats']
    exact hsaves.counters rfl
  completed hr' := by
    obtain ⟨w, u', hw, hu', hn, hstats'⟩ := Trampoline.drive_unfolds hx hq' hr' (by simp)
    obtain rfl := Answer.eq_ok_of_completed hw
    obtain ⟨u, hu, hsaves⟩ := R.of_unfolds hx h hu'
    rw [hsaves.steps_eq rfl] at hn
    obtain ⟨t, hr, hstats⟩ := Trampoline.unfolds_drive hs hu hn
    refine ⟨t, hr, ?_⟩
    rw [hstats, hstats']
    exact hsaves.counters rfl

/-! ### Two stages and one -/

/-- Two stages, and one continuation for both. -/
inductive Stages where
  | first
  | second
  | both

namespace Stages

/-- Codes for stages that take numbers. -/
def signature : Signature where
  Ty := Unit
  typeName _ := "number"
  Value := ℕ
  typeOf _ := ()
  Thunk := ℕ
  Transform := Unit
  Continuation := Stages

/-- The first stage goes on with the next number. It does not take 0. -/
def firstStage (v : ℕ) : StateM (List String) (Outcome signature (Effect signature)) :=
  modifyGet fun log =>
    (if v = 0 then .panicked (.literal "zero") else .returned (.sync (v + 1)), log ++ ["first"])

/-- The second stage doubles. -/
def secondStage (v : ℕ) : StateM (List String) (Outcome signature (Effect signature)) :=
  modifyGet fun log => (.returned (.sync (2 * v)), log ++ ["second"])

/-- What the stages do, with a log of their calls. -/
def functions : Functions signature (StateM (List String)) where
  thunk v := pure (.returned v)
  transform _ v := pure (.returned v)
  continuation
    | .first, v => firstStage v
    | .second, v => secondStage v
    | .both, v => do
      let out ← firstStage v
      pure (out.map (.flatMap · .second))
  observe _ := pure ()

/-- `both` stands for the two stages. -/
inductive Nest : Stages → Frame signature → Stages → Prop where
  | both : Nest .first (.flatMap .second) .both

/-- The two stages below a transform. -/
def chained (v : ℕ) : Effect signature := .map (.flatMap (.flatMap (.sync v) .first) .second) ()

/-- The one continuation below a transform. -/
def nested (v : ℕ) : Effect signature := .map (.flatMap (.sync v) .both) ()

theorem regrouping : Regrouping (.state _) Nest functions functions :=
  .refl fun h => by
    cases h
    exact fun _ => rfl

theorem regroups (v : ℕ) : Regroups Nest (chained v) (nested v) :=
  have hleaf := @Regroups.sync signature Nest v
  have h := Regroups.nested (S := signature) Nest.both hleaf
  Regroups.around (S := signature) (.map ()) h

theorem stages_run_alike :
    (∃ t, (Trampoline.drive functions true [4, 2] (.start (nested 1))).run [] =
        ((.completed (4 : ℕ), t), ["first", "second"]) ∧
      t.stats.steps = 6 ∧ t.stats.suspensions = 1 ∧ t.stats.maxStack ≤ 3) ∧
    ∃ budgets t, (Trampoline.drive functions true budgets (.start (nested 0))).run [] =
      ((.failed (.ofPanic .continuation (.literal "zero")), t), ["first"]) := by
  have hsilent : functions.Silent (.state _) := fun _ _ => rfl
  have hquiet : functions.Quiet (.state _) := fun _ _ _ h => (Prod.mk.inj h).2.symm
  have alike (v : ℕ) : RunAlike (.state _) functions functions (chained v) (nested v) :=
    regrouping.drive_agrees (Meaning.state_exact _) hsilent hsilent hquiet hquiet (regroups v)
  have hchained : (Meaning.state _).Runs
      (Trampoline.drive functions true [4, 2] (.start (chained 1))) []
      (.completed (4 : ℕ), ⟨none, .empty, ⟨6, 1, 3⟩⟩) ["first", "second"] := rfl
  have hrefused : (Meaning.state _).Runs
      (Trampoline.drive functions true [4] (.start (chained 0))) []
      (.failed (.ofPanic .continuation (.literal "zero")),
        ⟨none, Frames.empty.push (.map ()) |>.push (.flatMap .second), ⟨4, 0, 3⟩⟩) ["first"] := rfl
  exact ⟨(alike 1).completes hchained, (alike 0).outcome.1 ⟨_, _, hrefused⟩⟩

end Stages

end LazyEffects
