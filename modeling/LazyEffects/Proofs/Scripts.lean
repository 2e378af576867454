import LazyEffects.Proofs.Fates
import LazyEffects.Proofs.Slices

/-!
# Scripts that ask for nothing

Client code that asks for nothing works on the client's memory until it is over
(`Script.Ends`). The machine then does nothing else in the meantime.

Functions may work on a part of the client's memory, while other client code works on other parts:
`Meaning.own` says what they do to their own part, whatever the rest of the memory is.

* `Machine.Gets`: moves in which some activities stay waiting;
* `Machine.gets_script`: the machine brings a script that ends to its end.
-/

namespace LazyEffects

variable {K : Codes} {M A α β : Type}

/-- The script asks for nothing; begun with a memory it is over with an answer and another one. -/
inductive Script.Ends : Script K M α → M → α → M → Prop where
  | done {a : α} {memory : M} : Ends (.done a) memory a memory
  | update {f : M → M} {next : M → Script K M α} {a : α} {memory memory' : M} :
    Ends (next (f memory)) (f memory) a memory' → Ends (.update f next) memory a memory'

theorem Script.Ends.bind {x : Script K M α} {f : α → Script K M β} {a : α} {b : β}
    {memory memory' memory'' : M} (hx : x.Ends memory a memory')
    (hf : (f a).Ends memory' b memory'') : (x.bind f).Ends memory b memory'' := by
  induction hx with
  | done => exact hf
  | update _ ih => exact .update (ih hf)

/-- The script asks for nothing, whatever the memory is. -/
inductive Script.Quiet : Script K M α → Prop where
  | done (a : α) : Quiet (.done a)
  | update {f : M → M} {next : M → Script K M α} :
    (∀ memory, Quiet (next memory)) → Quiet (.update f next)

theorem Script.Quiet.ends {x : Script K M α} (hx : x.Quiet) (memory : M) :
    ∃ a memory', x.Ends memory a memory' := by
  induction hx generalizing memory with
  | done a => exact ⟨a, memory, .done⟩
  | @update f _ _ ih =>
    obtain ⟨a, memory', h⟩ := ih (f memory) (f memory)
    exact ⟨a, memory', .update h⟩

/-- What scripts do to a part of the memory, whatever the rest of it is. -/
def Meaning.own (own : M → A) : Meaning (Script K M) A where
  Runs x s a s' := ∀ memory, own memory = s → ∃ memory', x.Ends memory a memory' ∧ own memory' = s'
  runs_pure _ _ memory h := ⟨memory, .done, h⟩
  runs_bind hx hf memory h := by
    obtain ⟨memory', hx, h'⟩ := hx memory h
    obtain ⟨memory'', hf, h''⟩ := hf memory' h'
    exact ⟨memory'', hx.bind hf, h''⟩

/-- Events leave the part alone. -/
def Client.Spares (client : Client K M) (own : M → A) : Prop :=
  ∀ e memory, own (client.observe e memory) = own memory

namespace Client.Spares

variable {client : Client K M} {own : M → A}

theorem silent (h : client.Spares own) : client.functions.Silent (.own own) := by
  intro e s memory hm
  exact ⟨client.observe e memory, .update .done, (h e memory).trans hm⟩

theorem observeAll (h : client.Spares own) (events : List Event) (memory : M) :
    own (client.observeAll events memory) = own memory := by
  induction events generalizing memory with
  | nil => rfl
  | cons e events ih => exact (ih (client.observe e memory)).trans (h e memory)

theorem keeps (h : client.Spares own) {w w' : World K M} (hw : w.Keeps client w') :
    own w'.memory = own w.memory := by
  obtain ⟨events, he⟩ := hw.memory
  rw [he, h.observeAll]

end Client.Spares

namespace Machine

variable {client : Client K M} {m m' m'' : Machine K M}

/-! ### Moves above some activities -/

/-- The activities of `base` stay waiting during `n` moves. -/
def Lasts (client : Client K M) (base : List (Activity K M)) (m : Machine K M) (n : ℕ) : Prop :=
  ∀ j ≤ n, base <:+ (m.run client j).control

/-- The machine gets from `m` to `m'` while the activities of `base` stay waiting. -/
def Gets (client : Client K M) (base : List (Activity K M)) (m m' : Machine K M) : Prop :=
  ∃ n, m.run client n = m' ∧ Lasts client base m n

theorem run_add (m : Machine K M) (j n : ℕ) :
    m.run client (j + n) = (m.run client j).run client n := by
  induction n with
  | zero => rfl
  | succ n ih => rw [← Nat.add_assoc, run_succ, run_succ, ih]

variable {base : List (Activity K M)}

theorem Lasts.of_le {n n' : ℕ} (h : Lasts client base m n') (hn : n ≤ n') :
    Lasts client base m n := fun j hj => h j (hj.trans hn)

/-- Moves one after the other. -/
theorem Lasts.add {n i : ℕ} (h : Lasts client base m n)
    (h' : Lasts client base (m.run client n) i) : Lasts client base m (n + i) := by
  intro j hj
  by_cases hjn : j ≤ n
  · exact h j hjn
  · obtain ⟨i', rfl⟩ := Nat.exists_eq_add_of_le (Nat.le_of_not_le hjn)
    rw [run_add]
    exact h' i' (by omega)

theorem Lasts.succ {n : ℕ} (h : Lasts client base m n)
    (h' : base <:+ (m.run client (n + 1)).control) : Lasts client base m (n + 1) := by
  intro j hj
  rcases Nat.le_succ_iff.1 hj with hj | rfl
  · exact h j hj
  · exact h'

theorem Lasts.step {n : ℕ} (h : Lasts client base m n)
    (hs : (m.run client n).step client = some m') (h' : base <:+ m'.control) :
    Lasts client base m (n + 1) := by
  refine h.succ ?_
  rw [run_succ_of_step hs]
  exact h'

theorem Lasts.lt {n n' : ℕ} (h : Lasts client base m n)
    (h' : ¬ base <:+ (m.run client n').control) : n < n' := by
  by_contra hle
  exact h' (h n' (Nat.le_of_not_lt hle))

/-- Activities further down stay waiting as well. -/
theorem Lasts.mono {base' : List (Activity K M)} {n : ℕ} (hb : base' <:+ base)
    (h : Lasts client base m n) : Lasts client base' m n := fun j hj => hb.trans (h j hj)

theorem Lasts.drop {n i : ℕ} (h : Lasts client base m (n + i)) :
    Lasts client base (m.run client n) i := by
  intro j hj
  rw [← run_add]
  exact h (n + j) (by omega)

theorem Lasts.gets {n : ℕ} (h : Lasts client base m n) : Gets client base m (m.run client n) :=
  ⟨n, rfl, h⟩

theorem Gets.refl (h : base <:+ m.control) : Gets client base m m :=
  ⟨0, rfl, fun j hj => by
    obtain rfl := Nat.le_zero.1 hj
    exact h⟩

theorem Gets.trans (h : Gets client base m m') (h' : Gets client base m' m'') :
    Gets client base m m'' := by
  obtain ⟨n, rfl, hn⟩ := h
  obtain ⟨n', rfl, hn'⟩ := h'
  exact ⟨n + n', run_add m n n', hn.add hn'⟩

theorem Gets.head (hs : m.step client = some m') (h : base <:+ m.control)
    (h' : Gets client base m' m'') : Gets client base m m'' := by
  refine Gets.trans ⟨1, ?_, fun j hj => ?_⟩ h'
  · rw [run, hs]
    rfl
  · obtain rfl | rfl : j = 0 ∨ j = 1 := by omega
    · exact h
    · have hrun : m.run client 1 = m' := by
        rw [run, hs]
        rfl
      rw [hrun]
      obtain ⟨n', -, hn'⟩ := h'
      exact hn' 0 (Nat.zero_le _)

theorem Gets.step (hs : m.step client = some m') (h : base <:+ m.control)
    (h' : base <:+ m'.control) : Gets client base m m' :=
  .head hs h (.refl h')

theorem Gets.mono {base' : List (Activity K M)} (hb : base' <:+ base)
    (h : Gets client base m m') : Gets client base' m m' := by
  obtain ⟨n, hm, hn⟩ := h
  exact ⟨n, hm, hn.mono hb⟩

/-- Activities wait until the topmost of them is answered. -/
theorem suffix_step (hs : m.step client = some m') (hb : base <:+ m.control) :
    base <:+ m'.control ∨ m.control = base ∧ ∃ a, m.focus = .answer a := by
  rcases step_suffix hs with hsuffix | ⟨activity, control, a, hc, hf, hsuffix⟩
  · exact .inl (hb.trans hsuffix)
  · rw [hc] at hb ⊢
    rcases List.suffix_cons_iff.1 hb with rfl | hb
    · exact .inr ⟨rfl, a, hf⟩
    · exact .inl (hb.trans hsuffix)

/-- In the first `n` moves those who wait for what is being done are not answered. -/
def Unanswered (client : Client K M) (m : Machine K M) (n : ℕ) : Prop :=
  ∀ j < n, ∀ a, (m.run client j).control = m.control → (m.run client j).focus ≠ .answer a

/-- After `n` moves what is being done is over, and those who wait for it are answered. -/
structure Answered (client : Client K M) (m : Machine K M) (n : ℕ)
    (a : Except Payload (Reply K)) : Prop where
  control : (m.run client n).control = m.control
  focus : (m.run client n).focus = .answer a
  first : Unanswered client m n

/-- The moves before the answer, with those who wait for it. -/
theorem Unanswered.step {n j : ℕ} (h : Unanswered client m n) (hj : j < n) :
    ∃ m', (m.run client j).step client = some m' ∧ m.run client (j + 1) = m' ∧
      m.control <:+ m'.control := by
  -- On the moves: as long as the topmost of those who wait is not answered, all of them wait.
  have hlasts (i : ℕ) (hi : i ≤ n) : m.control <:+ (m.run client i).control := by
    induction i with
    | zero => exact List.suffix_refl _
    | succ i ih =>
      rw [run_succ]
      cases hs : (m.run client i).step client with
      | none => exact ih (Nat.le_of_succ_le hi)
      | some m' =>
        rcases suffix_step hs (ih (Nat.le_of_succ_le hi)) with hsuffix | ⟨hc, a, hf⟩
        · exact hsuffix
        · exact absurd hf (h i hi a hc)
  cases hs : (m.run client j).step client with
  | none =>
    -- A session that is over has nobody waiting, and its last answer is the one.
    obtain ⟨hc, a, hf⟩ := step_eq_none hs
    have hnil : m.control = [] := List.suffix_nil.1 (hc ▸ hlasts j hj.le)
    exact absurd hf (h j hj a (hc.trans hnil.symm))
  | some m' =>
    refine ⟨m', rfl, run_succ_of_step hs, ?_⟩
    rw [← run_succ_of_step hs]
    exact hlasts (j + 1) hj

theorem Unanswered.suffix {n : ℕ} (h : Unanswered client m n) :
    m.control <:+ (m.run client n).control := by
  cases n with
  | zero => exact List.suffix_refl _
  | succ n =>
    obtain ⟨m', -, hrun, hsuffix⟩ := h.step (Nat.lt_succ_self n)
    rw [hrun]
    exact hsuffix

theorem Unanswered.of_le {n n' : ℕ} (h : Unanswered client m n') (hn : n ≤ n') :
    Unanswered client m n := fun j hj => h j (hj.trans_le hn)

theorem Answered.run_eq {n : ℕ} {a : Except Payload (Reply K)} (h : Answered client m n a) :
    m.run client n = ⟨(m.run client n).world, m.control, .answer a⟩ := by
  rw [← h.control, ← h.focus]

/-- If there is an answer, there is a first one. -/
theorem exists_answered {n : ℕ} {a : Except Payload (Reply K)}
    (hc : (m.run client n).control = m.control) (hf : (m.run client n).focus = .answer a) :
    ∃ k a', k ≤ n ∧ Answered client m k a' := by
  classical
  have h : ∃ k, (m.run client k).control = m.control ∧ ∃ a, (m.run client k).focus = .answer a :=
    ⟨n, hc, a, hf⟩
  obtain ⟨hc', a', hf'⟩ := Nat.find_spec h
  exact ⟨Nat.find h, a', Nat.find_min' h ⟨hc, a, hf⟩, hc', hf', fun j hj a ha hfa =>
    Nat.find_min h hj ⟨ha, a, hfa⟩⟩

/-- Those who wait no longer have been answered. -/
theorem exists_answered_of_shorter {n : ℕ}
    (h : (m.run client n).control.length < m.control.length) :
    ∃ k a, k < n ∧ Answered client m k a := by
  have hnot : ¬ Unanswered client m n := fun hu => by
    have := hu.suffix.length_le
    omega
  rw [Unanswered] at hnot
  push Not at hnot
  obtain ⟨j, hj, a, hc, hf⟩ := hnot
  obtain ⟨k, a', hk, ha⟩ := exists_answered hc hf
  exact ⟨k, a', hk.trans_lt hj, ha⟩

/-- The first answer is the only one so far. -/
theorem Answered.eq_of_le {n k : ℕ} {a a' : Except Payload (Reply K)}
    (h : Answered client m n a) (hk : k ≤ n) (hc : (m.run client k).control = m.control)
    (hf : (m.run client k).focus = .answer a') : k = n ∧ a' = a := by
  rcases hk.lt_or_eq with hlt | rfl
  · exact absurd hf (h.first k hlt a' hc)
  · rw [h.focus] at hf
    cases hf
    exact ⟨rfl, rfl⟩

/-- What holds after the first move, and goes on holding until there is an answer, holds up to the
answer. -/
theorem Unanswered.of_step {motive : Machine K M → Prop} {n : ℕ} (h : Unanswered client m n)
    (hn : 1 ≤ n) (hfirst : motive (m.run client 1))
    (hstep : ∀ j < n, motive (m.run client j) → ∀ m', (m.run client j).step client = some m' →
      (∀ a, (m.run client j).control = m.control → (m.run client j).focus ≠ .answer a) →
        motive m') : motive (m.run client n) := by
  have hall (j : ℕ) (hj : 1 ≤ j) : j ≤ n → motive (m.run client j) := by
    induction j, hj using Nat.le_induction with
    | base => exact fun _ => hfirst
    | succ j _ ih =>
      intro hj
      obtain ⟨m', hs, hrun, -⟩ := h.step hj
      rw [hrun]
      exact hstep j hj (ih (Nat.le_of_succ_le hj)) m' hs (h j hj)
  exact hall n hn le_rfl

/-- A request is not answered at once. -/
theorem Answered.pos {n : ℕ} {a : Except Payload (Reply K)} {r : Request K}
    (h : Answered client m n a) (hf : m.focus = .request r) : 1 ≤ n := by
  rcases Nat.eq_zero_or_pos n with rfl | hn
  · have hfocus := h.focus
    rw [run, hf] at hfocus
    cases hfocus
  · exact hn

/-- Someone who has an answer for those of `base`, with the property if it is not a panic, but who
holds an event loop until it has been given up. -/
inductive Releasing (Q : Reply K → Prop) (base : List (Activity K M)) (m : Machine K M) : Prop where
  | holds {l : LoopId} {a : Except Payload (Reply K)} : m.control = .sharing l :: base →
    m.focus = .answer a → (∀ r, a = .ok r → Q r) → Releasing Q base m
  | releases {r : Reply K} : .replying r :: base <:+ m.control → Q r → Releasing Q base m
  | ended {a : Except Payload (Reply K)} : m.control = base → m.focus = .answer a →
    (∀ r, a = .ok r → Q r) → Releasing Q base m

namespace Releasing

variable {Q : Reply K → Prop} {a : Except Payload (Reply K)}

theorem panicked {p : Payload} (hc : m.control = base) (hf : m.focus = .answer (.error p)) :
    Releasing Q base m :=
  .ended hc hf fun r hr => by cases hr

theorem step (h : Releasing Q base m) (hs : m.step client = some m')
    (hbase : ∀ a, m.control = base → m.focus ≠ .answer a) : Releasing Q base m' := by
  cases h with
  | @holds l a hc hf ha =>
    rw [Machine.step, hf, hc] at hs
    cases a with
    | error p =>
      cases hs
      exact .panicked rfl rfl
    | ok r =>
      cases hs
      exact .releases (List.suffix_refl _) (ha r rfl)
  | @releases r hsuffix hr =>
    rcases suffix_step hs hsuffix with hsuffix | ⟨hc, a, hf⟩
    · exact .releases hsuffix hr
    · rw [Machine.step, hf, hc] at hs
      cases a with
      | error p =>
        cases hs
        exact .panicked rfl rfl
      | ok r' =>
        cases hs
        exact .ended rfl rfl fun r' hr' => by
          cases hr'
          exact hr
  | ended hc hf => exact absurd hf (hbase _ hc)

/-- Those of `base` have been answered. -/
theorem answered (h : Releasing Q base m) (hc : m.control = base) (hf : m.focus = .answer a)
    (r : Reply K) (hr : a = .ok r) : Q r := by
  have hne (activity : Activity K M) : ¬ activity :: base <:+ base := fun h => by
    have := h.length_le
    simp only [List.length_cons] at this
    omega
  cases h with
  | @holds l _ hc' =>
    refine absurd ?_ (hne (.sharing l))
    rw [← hc', hc]
  | releases hsuffix => exact absurd (hc ▸ hsuffix) (hne _)
  | ended _ hf' ha =>
    rw [hf] at hf'
    cases hf'
    exact ha r hr

end Releasing

/-- The machine brings a script that asks for nothing to its end. -/
theorem gets_script {w : World K M} {control : List (Activity K M)} {role : Role K}
    {s : Script K M role.Ending} {x : role.Ending} {memory' : M}
    (h : s.Ends w.memory x memory') :
    Gets client control ⟨w, control, .script role s⟩
      ⟨{ w with memory := memory' }, control, .script role (.done x)⟩ := by
  generalize hm : w.memory = memory at h
  induction h generalizing w with
  | done =>
    subst hm
    exact .refl (List.suffix_refl _)
  | update _ ih =>
    subst hm
    exact .head rfl (List.suffix_refl _) (ih rfl)

end Machine

end LazyEffects
