import LazyEffects.Proofs.Regrouping

/-!
# Programs with marked parts

Four laws of the algebra of effects, each of which replaces a part of a program by a simpler one:
two transforms by one that does both, a continuation that only gives back its argument by nothing,
a continuation of a leaf that has its value at hand by the effect that it returns, and a
continuation that only calls a function by the transform with that function.

The parts that are replaced are marked, in a program and in what its continuations return: any
number of them, one in another, on a branch that may not be taken, in a loop, or nowhere. To mark
them is to write a `Draft`, which can be read before the replacement and after it, and a client
whose continuations return drafts (`Drafting`) can be read in both ways, too.

* `Law.Suits` says which parts a law replaces;
* `Executes` is the evaluation of a draft to a value, with the number of times that a marked part
  is executed;
* `EndsAlike` compares the ends of both readings of a draft and the nodes that they take, and
  `Agree` puts the readings side by side: `Agree.map`, `Agree.flatMap` and the others go from a
  source to the node around it.
-/

namespace LazyEffects

variable {S : Signature} {m : Type → Type} [Monad m] {σ : Type}

/-! ### The laws -/

/-- The laws by which a part of a program is replaced. -/
inductive Law where
  /-- One transform does what two do in a row. -/
  | fusion
  /-- A continuation gives back its argument. -/
  | echo
  /-- A leaf has its value at hand, and the continuation returns without doing anything else. -/
  | immediate
  /-- A continuation calls a function in a leaf of its own. -/
  | deferral

namespace Law

/-- The steps that a law saves each time that the part is executed. -/
def saving : Law → ℕ
  | fusion => 1
  | echo => 2
  | immediate => 2
  | deferral => 1

/-- What stops a program before and after the replacement. -/
inductive SameStop : Law → Stop S → Stop S → Prop where
  | same (law : Law) (c : Stop S) : SameStop law c c
  /-- The function that was called in a leaf is called in a transform. -/
  | restaged (p : Payload) : SameStop deferral (.panicked .thunk p) (.panicked .transform p)

/-- The answers of a program before and after the replacement. -/
inductive SameAnswer : Law → Answer S → Answer S → Prop where
  | same (law : Law) (a : Answer S) : SameAnswer law a a
  /-- The failures differ in the stage that they report. -/
  | restaged (message : String) :
    SameAnswer deferral (.failed (.panicked .thunk message))
      (.failed (.panicked .transform message))

theorem SameStop.answer {law : Law} {c c' : Stop S} (h : law.SameStop c c') (catching : Bool) :
    law.SameAnswer (.ofStop catching c) (.ofStop catching c') := by
  cases h with
  | same => exact .same law _
  | restaged p =>
    cases catching
    · exact .same deferral _
    · exact .restaged p.message

end Law

/-- A transform is applied to what a function has returned. -/
def Functions.andThen (fns : Functions S m) (g : S.Transform) :
    Outcome S S.Value → m (Outcome S S.Value)
  | .returned v => fns.transform g v
  | .mismatched expected => pure (.mismatched expected)
  | .panicked p => pure (.panicked p)

/-- The transform `h` applies `g` to what `f` gives. -/
def Functions.Fuses (fns : Functions S m) (f g h : S.Transform) : Prop :=
  ∀ v, fns.transform h v = fns.transform f v >>= fns.andThen g

/-- The continuation `k` returns a leaf in which `f` is called, if the argument is of the type that
both expect. -/
def Functions.Defers (fns : Functions S m) (f : S.Transform) (k : S.Continuation) : Prop :=
  ∀ v, (∃ t, fns.continuation k v = pure (.returned (.sync t)) ∧
      fns.thunk t = fns.transform f v) ∨
    ∃ expected, fns.continuation k v = pure (.mismatched expected) ∧
      fns.transform f v = pure (.mismatched expected)

/-- The continuation `k` returns a leaf that gives back the argument, for every value of `e`. -/
def Functions.Echoes (M : Meaning m σ) (fns : Functions S m) (e : Effect S) (k : S.Continuation) :
    Prop :=
  ∀ {s v u s'}, Unfolds M fns e s (.ok v) u s' → ∃ t,
    fns.continuation k v = pure (.returned (.sync t)) ∧ fns.thunk t = pure (.returned v)

/-! ### Drafts -/

/-- A program in which parts are marked. -/
inductive Draft (S : Signature) where
  | sync (t : S.Thunk)
  | around (frame : Frame S) (p : Draft S)
  /-- Two transforms, for which a third one stands in. -/
  | fused (p : Draft S) (f g h : S.Transform)
  /-- A continuation that is left out. -/
  | echoed (p : Draft S) (k : S.Continuation)
  /-- A leaf and its continuation, for which the effect stands in that is returned. -/
  | entered (t : S.Thunk) (k : S.Continuation) (p : Draft S)
  /-- A continuation, for which a transform stands in. -/
  | called (p : Draft S) (k : S.Continuation) (f : S.Transform)

namespace Draft

/-- The program before the marked parts are replaced. -/
def before : Draft S → Effect S
  | sync t => .sync t
  | around frame p => frame.around p.before
  | fused p f g _ => .map (.map p.before f) g
  | echoed p k => .flatMap p.before k
  | entered t k _ => .flatMap (.sync t) k
  | called p k _ => .flatMap p.before k

/-- The program after the marked parts are replaced. -/
def after : Draft S → Effect S
  | sync t => .sync t
  | around frame p => frame.around p.after
  | fused p _ _ h => .map p.after h
  | echoed p _ => p.after
  | entered _ _ p => p.after
  | called p _ f => .map p.after f

/-- A program in which nothing is marked. -/
def plain : Effect S → Draft S
  | .sync t => sync t
  | .map e f => around (.map f) (plain e)
  | .flatMap e k => around (.flatMap k) (plain e)

theorem before_plain (e : Effect S) : (plain e).before = e := by
  induction e with
  | sync => rfl
  | map e f ih => exact congrArg (Effect.map · f) ih
  | flatMap e k ih => exact congrArg (Effect.flatMap · k) ih

theorem after_plain (e : Effect S) : (plain e).after = e := by
  induction e with
  | sync => rfl
  | map e f ih => exact congrArg (Effect.map · f) ih
  | flatMap e k ih => exact congrArg (Effect.flatMap · k) ih

end Draft

/-- What the user's functions do, with parts marked in the programs that continuations return. -/
structure Drafting (S : Signature) (m : Type → Type) where
  thunk : S.Thunk → m (Outcome S S.Value)
  transform : S.Transform → S.Value → m (Outcome S S.Value)
  continuation : S.Continuation → S.Value → m (Outcome S (Draft S))
  observe : Event → m Unit

namespace Drafting

/-- The functions, with the drafts that continuations return read as programs. -/
def reading (c : Drafting S m) (read : Draft S → Effect S) : Functions S m where
  thunk := c.thunk
  transform := c.transform
  continuation k v := do
    let out ← c.continuation k v
    pure (out.map read)
  observe := c.observe

/-- The functions before the marked parts are replaced. -/
def before (c : Drafting S m) : Functions S m := c.reading Draft.before

/-- The functions after the marked parts are replaced. -/
def after (c : Drafting S m) : Functions S m := c.reading Draft.after

variable {M : Meaning m σ} {c : Drafting S m} {read : Draft S → Effect S} {k : S.Continuation}
  {v : S.Value} {s s' : σ}

theorem runs_reading {out : Outcome S (Draft S)} (h : M.Runs (c.continuation k v) s out s') :
    M.Runs ((c.reading read).continuation k v) s (out.map read) s' :=
  M.runs_bind h (M.runs_pure _ _)

theorem of_runs_reading (hx : M.Exact) {out : Outcome S (Effect S)}
    (h : M.Runs ((c.reading read).continuation k v) s out s') :
    ∃ out', M.Runs (c.continuation k v) s out' s' ∧ out = out'.map read := by
  obtain ⟨out', s₁, hrun, hpure⟩ := hx.of_bind h
  obtain ⟨hout, rfl⟩ := hx.of_pure hpure
  exact ⟨out', hrun, hout⟩

theorem of_returned (hx : M.Exact) {e : Effect S}
    (h : M.Runs ((c.reading read).continuation k v) s (.returned e) s') :
    ∃ p, M.Runs (c.continuation k v) s (.returned p) s' ∧ e = read p := by
  obtain ⟨out, hrun, hout⟩ := of_runs_reading hx h
  cases out with
  | returned p =>
    cases hout
    exact ⟨p, hrun, rfl⟩
  | mismatched => cases hout
  | panicked => cases hout

/-- A continuation that returns nothing in the one reading returns nothing in the other. -/
theorem runs_refused (hx : M.Exact) {out : Outcome S (Effect S)} {stop : Stop S}
    (h : M.Runs ((c.reading read).continuation k v) s out s')
    (hout : out.within .continuation = .error stop) (read' : Draft S → Effect S) :
    ∃ out', M.Runs ((c.reading read').continuation k v) s out' s' ∧
      out'.within .continuation = .error stop := by
  obtain ⟨out, hrun, rfl⟩ := of_runs_reading hx h
  refine ⟨out.map read', runs_reading hrun, ?_⟩
  cases out with
  | returned => cases hout
  | mismatched => exact hout
  | panicked => exact hout

end Drafting

section

variable (M : Meaning m σ) (c : Drafting S m)

/-- The parts that are marked are of the kind that a law replaces. -/
inductive Law.Suits : Law → Draft S → Prop where
  | sync {law : Law} (t : S.Thunk) : Suits law (.sync t)
  | around {law : Law} {p : Draft S} (frame : Frame S) :
    Suits law p → Suits law (.around frame p)
  | fused {p : Draft S} {f g h : S.Transform} :
    c.before.Fuses f g h → Suits .fusion p → Suits .fusion (.fused p f g h)
  | echoed {p : Draft S} {k : S.Continuation} :
    c.before.Echoes M p.before k → Suits .echo p → Suits .echo (.echoed p k)
  | entered {t : S.Thunk} {v : S.Value} {k : S.Continuation} {p : Draft S} :
    c.thunk t = pure (.returned v) → c.before.continuation k v = pure (.returned p.before) →
    Suits .immediate p → Suits .immediate (.entered t k p)
  | called {p : Draft S} {k : S.Continuation} {f : S.Transform} :
    c.before.Defers f k → Suits .deferral p → Suits .deferral (.called p k f)

/-- The same goes for what continuations return. -/
def Law.Governs (law : Law) : Prop :=
  ∀ {k v s p s'}, M.Runs (c.continuation k v) s (.returned p) s' → law.Suits M c p

/-- `Executes p s v n s'`: the evaluation of `p` from the state `s` comes to the value `v` and the
state `s'`, and in its course marked parts are executed `n` times. -/
inductive Executes : Draft S → σ → S.Value → ℕ → σ → Prop where
  | sync {t : S.Thunk} {v : S.Value} {s s' : σ} :
    M.Runs (c.thunk t) s (.returned v) s' → Executes (.sync t) s v 0 s'
  | map {p : Draft S} {f : S.Transform} {v v' : S.Value} {n : ℕ} {s s₁ s' : σ} :
    Executes p s v n s₁ → M.Runs (c.transform f v) s₁ (.returned v') s' →
    Executes (.around (.map f) p) s v' n s'
  /-- A continuation may return another draft each time, or none with marks. -/
  | flatMap {p p' : Draft S} {k : S.Continuation} {v v' : S.Value} {n n' : ℕ} {s s₁ s₂ s' : σ} :
    Executes p s v n s₁ → M.Runs (c.continuation k v) s₁ (.returned p') s₂ →
    Executes p' s₂ v' n' s' → Executes (.around (.flatMap k) p) s v' (n + n') s'
  | fused {p : Draft S} {f g h : S.Transform} {v v' : S.Value} {n : ℕ} {s s₁ s' : σ} :
    Executes p s v n s₁ → M.Runs (c.transform h v) s₁ (.returned v') s' →
    Executes (.fused p f g h) s v' (n + 1) s'
  | echoed {p : Draft S} {k : S.Continuation} {v : S.Value} {n : ℕ} {s s' : σ} :
    Executes p s v n s' → Executes (.echoed p k) s v (n + 1) s'
  | entered {t : S.Thunk} {k : S.Continuation} {p : Draft S} {v : S.Value} {n : ℕ} {s s' : σ} :
    Executes p s v n s' → Executes (.entered t k p) s v (n + 1) s'
  | called {p : Draft S} {k : S.Continuation} {f : S.Transform} {v v' : S.Value} {n : ℕ}
    {s s₁ s' : σ} : Executes p s v n s₁ → M.Runs (c.transform f v) s₁ (.returned v') s' →
    Executes (.called p k f) s v' (n + 1) s'

end

/-- Nothing needs to be marked. -/
theorem Law.suits_plain (M : Meaning m σ) (c : Drafting S m) (law : Law) (e : Effect S) :
    law.Suits M c (.plain e) := by
  induction e with
  | sync t => exact .sync t
  | map e f ih => exact .around (.map f) ih
  | flatMap e k ih => exact .around (.flatMap k) ih

/-! ### What both readings lead to -/

/-- The ends of two evaluations, after `j` and `j'` nodes: the same value after the nodes less that
a law saves in `n` executions, or failures that correspond, the second after no more nodes than the
first. -/
inductive EndsAlike (law : Law) (n : ℕ) : Verdict S → ℕ → Verdict S → ℕ → Prop where
  | ok {v : S.Value} {j j' : ℕ} :
    j = j' + law.saving * n → EndsAlike law n (.ok v) j (.ok v) j'
  | error {stop stop' : Stop S} {j j' : ℕ} :
    law.SameStop stop stop' → j' ≤ j → EndsAlike law n (.error stop) j (.error stop') j'

namespace EndsAlike

variable {law : Law} {w w' : Verdict S} {i i' j j' n n' : ℕ} {v : S.Value}

/-- More nodes are gone through, and among them are executions of parts. -/
theorem add (h : EndsAlike law n w i w' i') (hj : j = j' + law.saving * n') :
    EndsAlike law (n' + n) w (j + i) w' (j' + i') := by
  cases h with
  | ok hi =>
    refine .ok ?_
    rw [hj, hi, Nat.mul_add]
    omega
  | error hstop hi => exact .error hstop (by omega)

/-- The same call ends both. -/
theorem of_call (stage : Stage) (out : Outcome S S.Value) (hj : j = j' + law.saving * n) :
    EndsAlike law n (out.within stage) j (out.within stage) j' := by
  cases out with
  | returned v => exact .ok hj
  | mismatched expected => exact .error (.same law _) (by omega)
  | panicked p => exact .error (.same law _) (by omega)

theorem le (h : EndsAlike law n w i w' i') : i' ≤ i := by
  cases h with
  | ok hi => omega
  | error _ hi => exact hi

theorem of_ok (h : EndsAlike law n (.ok v) i w' i') : w' = .ok v ∧ i = i' + law.saving * n := by
  cases h with
  | ok hi => exact ⟨rfl, hi⟩

theorem of_error {stop stop' : Stop S} (h : EndsAlike law n (.error stop) i (.error stop') i') :
    law.SameStop stop stop' ∧ i' ≤ i := by
  cases h with
  | error hstop hi => exact ⟨hstop, hi⟩

theorem error_left {stop : Stop S} (h : EndsAlike law n (.error stop) i w' i') :
    ∃ stop', w' = .error stop' := by
  cases h with
  | error => exact ⟨_, rfl⟩

theorem error_right {stop' : Stop S} (h : EndsAlike law n w i (.error stop') i') :
    ∃ stop, w = .error stop := by
  cases h with
  | error => exact ⟨_, rfl⟩

theorem of_ok_right (h : EndsAlike law n w i (.ok v) i') :
    w = .ok v ∧ i = i' + law.saving * n := by
  cases h with
  | ok hi => exact ⟨rfl, hi⟩

theorem answer (h : EndsAlike law n w i w' i') (catching : Bool) :
    law.SameAnswer (.ofVerdict catching w) (.ofVerdict catching w') := by
  cases h with
  | ok => exact .same law _
  | error hstop => exact hstop.answer catching

end EndsAlike

/-- Both readings of `p` lead from `s` to `s'`, through the nodes of `u` and of `u'`, and the ends
are alike after `n` executions of parts. -/
structure Agree (law : Law) (M : Meaning m σ) (c : Drafting S m) (p : Draft S) (s : σ)
    (w : Verdict S) (u : Unfolding) (w' : Verdict S) (u' : Unfolding) (n : ℕ) (s' : σ) :
    Prop where
  before : Unfolds M c.before p.before s w u s'
  after : Unfolds M c.after p.after s w' u' s'
  ends : EndsAlike law n w u.steps w' u'.steps
  executes {v : S.Value} : w = .ok v → Executes M c p s v n s'

theorem Outcome.eq_returned {α : Type} {stage : Stage} {out : Outcome S α} {a : α}
    (h : out.within stage = .ok a) : out = .returned a := by
  cases out with
  | returned =>
    cases h
    rfl
  | mismatched => cases h
  | panicked => cases h

namespace Agree

variable {law : Law} {M : Meaning m σ} {c : Drafting S m} {p p' : Draft S} {s s₁ s₂ s' : σ}
  {w w' : Verdict S} {u u' u₁ u₁' : Unfolding} {n n' : ℕ} {v : S.Value}
  {stop stop' : Stop S} {f g h : S.Transform} {k : S.Continuation} {t : S.Thunk}
  {out : Outcome S S.Value}

theorem sync (hrun : M.Runs (c.thunk t) s out s') :
    Agree law M c (.sync t) s (out.within .thunk) .sync (out.within .thunk) .sync 0 s' where
  before := .sync hrun
  after := .sync hrun
  ends := .of_call .thunk out rfl
  executes hw := .sync (Outcome.eq_returned hw ▸ hrun)

/-- A failure of the source stops both. -/
theorem stopped (hp : Agree law M c p s (.error stop) u (.error stop') u' n s')
    (frame : Frame S) :
    Agree law M c (.around frame p) s (.error stop) (u.node none) (.error stop') (u'.node none) n
      s' where
  before := (unfolds_around_iff frame).2 ⟨_, _, _, none, hp.before, .stopped, rfl⟩
  after := (unfolds_around_iff frame).2 ⟨_, _, _, none, hp.after, .stopped, rfl⟩
  ends := .error hp.ends.of_error.1 (Nat.add_le_add_left hp.ends.of_error.2 1)
  executes hw := nomatch hw

theorem map (hp : Agree law M c p s (.ok v) u (.ok v) u' n s₁)
    (hrun : M.Runs (c.transform f v) s₁ out s') :
    Agree law M c (.around (.map f) p) s (out.within .transform) (.map u) (out.within .transform)
      (.map u') n s' where
  before := .map hp.before hrun
  after := .map hp.after hrun
  ends := .of_call .transform out (by rw [Unfolding.steps, Unfolding.steps, hp.ends.of_ok.2]; omega)
  executes hw := .map (hp.executes rfl) (Outcome.eq_returned hw ▸ hrun)

theorem flatMap (hp : Agree law M c p s (.ok v) u (.ok v) u' n s₁)
    (hrun : M.Runs (c.continuation k v) s₁ (.returned p') s₂)
    (hp' : Agree law M c p' s₂ w u₁ w' u₁' n' s') :
    Agree law M c (.around (.flatMap k) p) s w (.flatMap u u₁) w' (.flatMap u' u₁') (n + n')
      s' where
  before := .flatMap hp.before (Drafting.runs_reading hrun) hp'.before
  after := .flatMap hp.after (Drafting.runs_reading hrun) hp'.after
  ends := hp'.ends.add (by rw [hp.ends.of_ok.2]; omega)
  executes hw := .flatMap (hp.executes rfl) hrun (hp'.executes hw)

/-- A continuation that returns nothing stops both. -/
theorem refused (hx : M.Exact) (hp : Agree law M c p s (.ok v) u (.ok v) u' n s₁)
    {read : Draft S → Effect S} {out : Outcome S (Effect S)}
    (hrun : M.Runs ((c.reading read).continuation k v) s₁ out s')
    (hout : out.within .continuation = .error stop) :
    Agree law M c (.around (.flatMap k) p) s (.error stop) (.map u) (.error stop) (.map u') n
      s' := by
  obtain ⟨out₁, hrun₁, hout₁⟩ := Drafting.runs_refused hx hrun hout Draft.before
  obtain ⟨out₂, hrun₂, hout₂⟩ := Drafting.runs_refused hx hrun hout Draft.after
  refine ⟨.flatMapRefused hp.before hrun₁ hout₁, .flatMapRefused hp.after hrun₂ hout₂, ?_,
    fun hw => nomatch hw⟩
  exact .error (.same law stop) (Nat.add_le_add_left hp.ends.le 1)

end Agree

end LazyEffects
