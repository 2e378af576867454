import LazyEffects.Proofs.Loops

/-!
# The activities at an event loop

Pumps may be nested: a task that one pump has started may pump the loop itself. So there may be
several activities that have tasks of the same event loop running, one above the other, and each of
them knows how many it has run (`ran`). A move adds to these activities and takes from them in a few
ways only.

* `Machine.step_asked`: only client code puts requests;
* `Machine.step_stacked`: what a move does to the activities at an event loop.
-/

namespace LazyEffects

variable {K : Codes} {M : Type} {l : LoopId} {activity : Activity K M}
  {control control' base : List (Activity K M)}

/-- The number of tasks of the event loop that the topmost activity has run, the one it waits for
included. -/
def ran (l : LoopId) : List (Activity K M) → ℕ
  | .pumping l' executed :: _ => if l' = l then executed + 1 else 0
  | .affirming :: .sharing l' :: _ => if l' = l then 1 else 0
  | _ => 0

/-- Who answers that something was done has run a task of the event loop in a turn of it. -/
theorem exists_of_ran_affirming (h : ran l (.affirming :: control) ≠ 0) :
    ∃ base, control = .sharing l :: base := by
  cases control with
  | nil => exact absurd rfl h
  | cons activity base =>
    cases activity with
    | sharing l' =>
      obtain rfl : l' = l := by
        by_contra hl
        exact h (if_neg hl)
      exact ⟨base, rfl⟩
    | _ => exact absurd rfl h

/-- The number of tasks of the event loop that all who wait have run. -/
def credits (l : LoopId) : List (Activity K M) → ℕ
  | [] => 0
  | activity :: control => ran l (activity :: control) + credits l control

theorem credits_cons (activity : Activity K M) (control : List (Activity K M)) :
    credits l (activity :: control) = ran l (activity :: control) + credits l control := rfl

theorem credits_of_ran (h : ran l (activity :: control) = 0) :
    credits l (activity :: control) = credits l control := by
  rw [credits_cons, h, Nat.zero_add]

theorem ran_le_credits : ran l control ≤ credits l control := by
  cases control with
  | nil => exact Nat.le_refl 0
  | cons activity control => exact Nat.le_add_right _ _

theorem credits_le_of_suffix (h : control <:+ control') : credits l control ≤ credits l control' := by
  obtain ⟨above, rfl⟩ := h
  induction above with
  | nil => exact le_rfl
  | cons activity above ih => exact ih.trans (Nat.le_add_left _ _)

/-- The activity begins to pump the event loop. -/
def Activity.opensPump (l : LoopId) : Activity K M → Bool
  | thenPump l' => l' = l
  | _ => false

/-- The event loop is being pumped, and none of its tasks is running. -/
def Focus.isPump (l : LoopId) : Focus K M → Bool
  | pump l' _ => l' = l
  | _ => false

def Focus.isAnswer : Focus K M → Bool
  | answer _ => true
  | _ => false

/-- Those of `base` wait below activities that do not have the event loop pumped. -/
inductive Above (l : LoopId) (base : List (Activity K M)) : List (Activity K M) → Prop where
  | refl : Above l base base
  | push {activity : Activity K M} {control : List (Activity K M)} :
    ran l (activity :: control) = 0 → activity.opensPump l = false → Above l base control →
    Above l base (activity :: control)

theorem Above.one (h : ran l (activity :: base) = 0) (ho : activity.opensPump l = false) :
    Above l base (activity :: base) :=
  .push h ho .refl

theorem Above.uncons (h : Above l base (activity :: control)) : base = activity :: control ∨
    ran l (activity :: control) = 0 ∧ activity.opensPump l = false ∧ Above l base control := by
  cases h with
  | refl => exact .inl rfl
  | push hran ho h => exact .inr ⟨hran, ho, h⟩

theorem Above.trans (h : Above l base control) (h' : Above l control control') :
    Above l base control' := by
  induction h' with
  | refl => exact h
  | push hran ho _ ih => exact .push hran ho ih

theorem Above.suffix (h : Above l base control) : base <:+ control := by
  induction h with
  | refl => exact List.suffix_refl _
  | push _ _ _ ih => exact ih.trans (List.suffix_cons _ _)

theorem Above.credits_eq (h : Above l base control) : credits l control = credits l base := by
  induction h with
  | refl => rfl
  | push hran _ _ ih => rw [credits_of_ran hran, ih]

namespace Machine

variable {client : Client K M} {m m' : Machine K M}

/-- A request is put by client code, which waits for the answer. -/
def Asked (m : Machine K M) : Prop :=
  ∀ r, m.focus = .request r → ∃ role next control, m.control = .code role next :: control

/-- Only client code puts requests. -/
theorem step_asked (hs : m.step client = some m') : m'.Asked := by
  intro r hr
  induction hs using step_induction with
  | finish w control role x =>
    cases role with
    | body => cases x <;> cases hr
    | slice f =>
      obtain ⟨a, t⟩ := x
      cases a with
      | completed v =>
        simp only [finish, afterSlice, go_focus] at hr
        split at hr <;> cases hr
      | _ => cases hr
    | bare => cases hr
    | poll f =>
      obtain ⟨a, t⟩ := x
      cases a <;> cases hr
  | ask w control role r next => exact ⟨role, next, control, rfl⟩
  | request w control r =>
    cases r <;> simp only [perform] at hr <;> (try split at hr) <;> cases hr
  | returned w control activity =>
    cases activity <;> simp only [returnTo] at hr <;> (try split at hr) <;> cases hr
  | panicked w control activity => cases activity <;> cases hr
  | begin w control t => cases t <;> cases hr
  | complete =>
    simp only [complete] at hr
    split at hr <;> cases hr
  | report =>
    simp only [report] at hr
    split at hr <;> cases hr
  | handOver w control host =>
    cases host <;> simp only [handOver] at hr <;> (try split at hr) <;> cases hr
  | drop w control ts =>
    cases ts with
    | nil => cases hr
    | cons t rest => cases t <;> cases hr
  | pump w control l executed =>
    simp only [pump] at hr
    split at hr
    · cases hr
    · split at hr <;> cases hr
  | work w control i wanted =>
    rw [work] at hr
    split at hr
    · cases hr
    · split at hr
      · cases hr
      · simp only at hr
        split at hr
        · cases hr
        · split at hr
          · split at hr <;> cases hr
          · split at hr <;> cases hr
  | update | resume | poll | overflow => cases hr

/-- What a move does to the activities at an event loop. -/
inductive Stacked (l : LoopId) (m m' : Machine K M) : Prop where
  /-- The event loop has nothing to do with it. -/
  | aside : m.focus.isAnswer = false → m.focus.takesFrom l = false → m'.focus.isPump l = false →
    Above l m.control m'.control → Stacked l m m'
  /-- An activity is answered that has not run tasks of the event loop, except for a turn. -/
  | returned {activity : Activity K M} {base : List (Activity K M)} {r : Reply K} :
    m.control = activity :: base → m.focus = .answer (.ok r) →
    (activity = .affirming ∨ ran l (activity :: base) = 0) →
    m'.focus.isPump l = false → Above l base m'.control → Stacked l m m'
  | panicked {activity : Activity K M} {base : List (Activity K M)} {p : Payload} :
    m.control = activity :: base → m.focus = .answer (.error p) →
    m'.focus.isPump l = false → m'.control = base → Stacked l m m'
  | begins {base : List (Activity K M)} {r : Reply K} : m.control = .thenPump l :: base →
    m.focus = .answer (.ok r) → m'.focus = .pump l 0 → m'.control = base → Stacked l m m'
  | goesOn {base : List (Activity K M)} {r : Reply K} {executed : ℕ} :
    m.control = .pumping l executed :: base → m.focus = .answer (.ok r) →
    m'.focus = .pump l (executed + 1) → m'.control = base → Stacked l m m'
  | idles : m.focus = .request (.runUntilIdle l) → m'.focus = .pump l 0 →
    m'.control = .sharing l :: m.control → Stacked l m m'
  | blocks {config : Config} {program : Program K.signature} {c : CellId} :
    m.focus = .request (.blockOn l config program) →
    m'.focus.isPump l = false →
    m'.control = .thenPump l :: .reporting c :: .sharing l :: m.control → Stacked l m m'
  | turns : m.focus = .request (.turn l) → Stacked l m m'
  | pumped {executed : ℕ} : m.focus = .pump l executed → Stacked l m m'

theorem perform_stacked (w : World K M) (control : List (Activity K M)) (role : Role K)
    (next : Except Payload (Reply K) → Script K M role.Ending) (r : Request K) :
    Stacked l ⟨w, .code role next :: control, .request r⟩
      (perform client ⟨w, .code role next :: control, .request r⟩ r) := by
  cases r with
  | turn l' =>
    by_cases hl : l' = l
    · exact .turns (by rw [hl])
    · have hs : step client ⟨w, .code role next :: control, .request (.turn l')⟩ = some _ := rfl
      have htakes : (Focus.request (.turn l') : Focus K M).takesFrom l = false := by
        simp [Focus.takesFrom, hl]
      rcases turn_cases rfl hs with ⟨timer, -, hf, hc⟩ | ⟨-, hc, hf⟩
      · refine .aside rfl htakes (by rw [hf]; rfl) ?_
        rw [hc]
        exact .push (by simp [ran, hl]) rfl (.one rfl rfl)
      · refine .aside rfl htakes (by rw [hf]; rfl) ?_
        rw [hc]
        exact .one rfl rfl
  | runUntilIdle l' =>
    by_cases hl : l' = l
    · subst hl
      exact .idles rfl rfl rfl
    · exact .aside rfl rfl (decide_eq_false hl) (.one rfl rfl)
  | blockOn l' config program =>
    by_cases hl : l' = l
    · subst hl
      exact .blocks rfl rfl rfl
    · exact .aside rfl rfl rfl
        (.push rfl (decide_eq_false hl) (.push rfl rfl (.one rfl rfl)))
  | fire q place | discard q place =>
    simp only [perform]
    split
    · exact .aside rfl rfl rfl (.one rfl rfl)
    · exact .aside rfl rfl rfl .refl
  | stopWorker i =>
    simp only [perform]
    split <;> exact .aside rfl rfl rfl (.one rfl rfl)
  | blockOnWorker | awaitWorker =>
    exact .aside rfl rfl rfl (.push rfl rfl (.one rfl rfl))
  | runAsync => exact .aside rfl rfl rfl (.one rfl rfl)
  | _ => exact .aside rfl rfl rfl .refl

theorem returnTo_stacked (w : World K M) (control : List (Activity K M)) (r : Reply K)
    (activity : Activity K M) : Stacked l ⟨w, activity :: control, .answer (.ok r)⟩
      (returnTo client ⟨w, control, .answer (.ok r)⟩ r activity) := by
  cases activity with
  | pumping l' executed =>
    by_cases hl : l' = l
    · subst hl
      exact .goesOn rfl rfl rfl rfl
    · exact .returned rfl rfl (.inr (if_neg hl)) (decide_eq_false hl) .refl
  | thenPump l' =>
    by_cases hl : l' = l
    · subst hl
      exact .begins rfl rfl rfl rfl
    · exact .returned rfl rfl (.inr rfl) (decide_eq_false hl) .refl
  | affirming => exact .returned rfl rfl (.inl rfl) rfl .refl
  | sharing l' => exact .returned rfl rfl (.inr rfl) rfl (.one rfl rfl)
  | driving =>
    cases r with
    | pending f => exact .returned rfl rfl (.inr rfl) rfl (.one rfl rfl)
    | _ => exact .returned rfl rfl (.inr rfl) rfl .refl
  | stopping i wanted =>
    simp only [returnTo]
    split
    · exact .returned rfl rfl (.inr rfl) rfl (.one rfl rfl)
    · exact .returned rfl rfl (.inr rfl) rfl .refl
  | code | replying | noting | reporting | reportingSignal | dropping | thenWork | working
  | joining => exact .returned rfl rfl (.inr rfl) rfl .refl

variable (l) in
theorem step_stacked (hm : m.Asked) (hs : m.step client = some m') : Stacked l m m' := by
  induction hs using step_induction with
  | finish w control role x =>
    cases role with
    | body => cases x <;> exact .aside rfl rfl rfl .refl
    | slice f =>
      obtain ⟨a, t⟩ := x
      cases a with
      | completed v =>
        refine .aside rfl rfl ?_ .refl
        simp only [finish, afterSlice, go_focus]
        split <;> rfl
      | _ => exact .aside rfl rfl rfl .refl
    | bare => exact .aside rfl rfl rfl .refl
    | poll f =>
      obtain ⟨a, t⟩ := x
      cases a <;> exact .aside rfl rfl rfl .refl
  | ask w control role r next => exact .aside rfl rfl rfl (.one rfl rfl)
  | request w control r =>
    obtain ⟨role, next, control, rfl⟩ := hm r rfl
    exact perform_stacked w control role next r
  | returned w control activity r => exact returnTo_stacked w control r activity
  | panicked w control activity p =>
    cases activity <;> exact .panicked rfl rfl rfl rfl
  | begin w control t => cases t <;> exact .aside rfl rfl rfl .refl
  | complete =>
    simp only [complete]
    split <;> exact .aside rfl rfl rfl .refl
  | report =>
    simp only [report]
    split <;> exact .aside rfl rfl rfl .refl
  | handOver w control host =>
    cases host with
    | eventLoop l' =>
      simp only [handOver]
      split <;> exact .aside rfl rfl rfl .refl
    | recording q =>
      simp only [handOver]
      split <;> exact .aside rfl rfl rfl .refl
    | discarding => exact .aside rfl rfl rfl .refl
    | worker i =>
      simp only [handOver]
      split
      · exact .aside rfl rfl rfl .refl
      · exact .aside rfl rfl rfl (.one rfl rfl)
  | drop w control ts =>
    cases ts with
    | nil => exact .aside rfl rfl rfl .refl
    | cons t rest =>
      cases t with
      | resume | client => exact .aside rfl rfl rfl (.one rfl rfl)
      | signal => exact .aside rfl rfl rfl .refl
  | pump w control l' executed =>
    by_cases hl : l' = l
    · exact .pumped (by rw [hl])
    · have hs : step client ⟨w, control, .pump l' executed⟩ = some _ := rfl
      have htakes : (Focus.pump l' executed : Focus K M).takesFrom l = false := by
        simp [Focus.takesFrom, hl]
      rcases pump_cases rfl hs with ⟨timer, -, hf, hc⟩ | ⟨-, hc, ⟨-, hf⟩ | ⟨-, hf, -⟩⟩
      · refine .aside rfl htakes (by rw [hf]; rfl) ?_
        rw [hc]
        exact .one (by simp [ran, hl]) rfl
      · exact .aside rfl htakes (by rw [hf]; exact decide_eq_false hl) (hc ▸ .refl)
      · exact .aside rfl htakes (by rw [hf]; rfl) (hc ▸ .refl)
  | work w control i wanted =>
    rw [work]
    split
    · exact .aside rfl rfl rfl .refl
    · split
      · exact .aside rfl rfl rfl .refl
      · simp only
        split
        · exact .aside rfl rfl rfl (.one rfl rfl)
        · split
          · split
            · exact .aside rfl rfl rfl .refl
            · exact .aside rfl rfl rfl (.one rfl rfl)
          · split <;> exact .aside rfl rfl rfl .refl
  | update | resume | poll | overflow => exact .aside rfl rfl rfl .refl

end Machine

end LazyEffects
