import LazyEffects.Proofs.TimerQueue
import Mathlib.Data.List.Sort

/-!
# Queues of timers as sorted lists

Whatever is pushed and whatever times are asked for, a queue of timers shows what a list shows that
is kept sorted by due time and in which an entry goes behind those due at the same time. Sequence
numbers and the heap are not to be seen from outside.

* `TimerQueue.Lists` ties a heap to the list of its timers in the order in which they leave;
* `Agenda.push_byDue` and `Agenda.popDue_byDue`: a sorted list is, all the time, the stable sort of
  the entries that remain, taken in the order of their arrival;
* `TimerQueue.refines_agenda`: both together, with what becomes of the tasks.
-/

namespace LazyEffects

variable {τ : Type}

/-! ### Agendas -/

/-- A task with its due time. -/
structure Entry (τ : Type) where
  due : Instant
  task : τ

/-- A timer without its number. -/
def Timer.entry (t : Timer τ) : Entry τ := ⟨t.due, t.task⟩

@[simp] theorem Timer.entry_due (t : Timer τ) : t.entry.due = t.due := rfl

@[simp] theorem Timer.entry_task (t : Timer τ) : t.entry.task = t.task := rfl

/-- Entries in the order in which they leave. -/
abbrev Agenda (τ : Type) := List (Entry τ)

namespace Agenda

/-- Put an entry behind all that are not due later. -/
def push (a : Agenda τ) (due : Instant) (task : τ) : Agenda τ :=
  a.orderedInsert (·.due < ·.due) ⟨due, task⟩

/-- Take out the first entry, if it is due at `now`. -/
def popDue : Agenda τ → Instant → Option (τ × Agenda τ)
  | [], _ => none
  | x :: a, now => if x.due ≤ now then some (x.task, a) else none

/-- The due time of the first entry. -/
def nextDue (a : Agenda τ) : Option Instant := a.head?.map Entry.due

/-- The stable sort by due time: entries that are due at the same time stay in their order. -/
def byDue (l : List (Entry τ)) : Agenda τ := l.mergeSort fun x y => x.due ≤ y.due

end Agenda

/-! ### Operations -/

/-- An operation on a queue. -/
inductive Operation (τ : Type) where
  | push (due : Instant) (task : τ)
  | popDue (now : Instant)

/-- What is to be seen of a queue after an operation, with the task that the operation answers. -/
structure Display (τ : Type) where
  popped : Option τ
  size : Nat
  isEmpty : Bool
  nextDue : Option Instant

/-- A kind of queue, whose states are drawn from `Q`. -/
structure Discipline (τ Q : Type) where
  push : Q → Instant → τ → Q
  popDue : Q → Instant → Option (τ × Q)
  size : Q → Nat
  isEmpty : Q → Bool
  nextDue : Q → Option Instant

/-- Queues of timers. -/
def TimerQueue.discipline : Discipline τ (TimerQueue τ) :=
  ⟨push, popDue, size, isEmpty, nextDue⟩

/-- Sorted lists. -/
def Agenda.discipline : Discipline τ (Agenda τ) :=
  ⟨push, popDue, List.length, List.isEmpty, nextDue⟩

namespace Discipline

variable {Q : Type} (d : Discipline τ Q)

/-- Do an operation: the task it answers and the queue it leaves. -/
def operate (q : Q) : Operation τ → Option τ × Q
  | .push due task => (none, d.push q due task)
  | .popDue now =>
    match d.popDue q now with
    | some (task, q) => (some task, q)
    | none => (none, q)

/-- The queue that operations leave. -/
def after (q : Q) (ops : List (Operation τ)) : Q := ops.foldl (fun q op => (d.operate q op).2) q

/-- What is to be seen after each of the operations. -/
def displays (q : Q) : List (Operation τ) → List (Display τ)
  | [] => []
  | op :: ops =>
    let (popped, q) := d.operate q op
    ⟨popped, d.size q, d.isEmpty q, d.nextDue q⟩ :: displays q ops

end Discipline

namespace Operation

/-- The entries that operations push, in order. -/
def arrivals (ops : List (Operation τ)) : List (Entry τ) :=
  ops.filterMap fun
    | .push due task => some ⟨due, task⟩
    | .popDue _ => none

/-- The tasks that operations take out, each with the time that was asked for. -/
def takings (ops : List (Operation τ)) (displays : List (Display τ)) : List (Instant × τ) :=
  (ops.zip displays).filterMap fun
    | (.popDue now, shown) => shown.popped.map fun task => (now, task)
    | (.push _ _, _) => none

@[simp] theorem arrivals_nil : arrivals ([] : List (Operation τ)) = [] := rfl

@[simp] theorem arrivals_push (due : Instant) (task : τ) (ops : List (Operation τ)) :
    arrivals (.push due task :: ops) = ⟨due, task⟩ :: arrivals ops := rfl

@[simp] theorem arrivals_popDue (now : Instant) (ops : List (Operation τ)) :
    arrivals (.popDue now :: ops) = arrivals ops := rfl

end Operation

/-! ### Stable sorting -/

namespace Agenda

variable {x : Entry τ} {l : List (Entry τ)} {a : Agenda τ}

theorem byDue_perm (l : List (Entry τ)) : (byDue l).Perm l := List.mergeSort_perm l _

theorem due_trans (x y z : Entry τ) :
    decide (x.due ≤ y.due) → decide (y.due ≤ z.due) → decide (x.due ≤ z.due) := by
  simpa using Int.le_trans

theorem due_total (x y : Entry τ) : decide (x.due ≤ y.due) || decide (y.due ≤ x.due) := by
  simpa using Int.le_total x.due y.due

theorem byDue_pairwise (l : List (Entry τ)) : (byDue l).Pairwise (·.due ≤ ·.due) := by
  simpa [byDue] using List.pairwise_mergeSort due_trans due_total l

theorem orderedInsert_append {l₁ l₂ : List (Entry τ)} (h₁ : ∀ y ∈ l₁, ¬ x.due ≤ y.due)
    (h₂ : ∀ y ∈ l₂, x.due ≤ y.due) :
    (l₁ ++ l₂).orderedInsert (·.due ≤ ·.due) x = l₁ ++ x :: l₂ := by
  induction l₁ with
  | nil =>
    cases l₂ with
    | nil => rfl
    | cons y l₂ => exact if_pos (h₂ y List.mem_cons_self)
  | cons y l₁ ih =>
    rw [List.cons_append, List.orderedInsert_cons, if_neg (h₁ y List.mem_cons_self),
      ih fun z hz => h₁ z (List.mem_cons_of_mem y hz), List.cons_append]

/-- The first of several entries goes ahead of all others that are not due earlier. -/
theorem byDue_cons (x : Entry τ) (l : List (Entry τ)) :
    byDue (x :: l) = (byDue l).orderedInsert (·.due ≤ ·.due) x := by
  obtain ⟨l₁, l₂, hcons, hl, hlt⟩ := List.mergeSort_cons due_trans due_total x l
  have hsorted := byDue_pairwise (x :: l)
  rw [byDue, hcons, List.pairwise_append, List.pairwise_cons] at hsorted
  rw [byDue, hcons, byDue, hl, orderedInsert_append]
  · simpa using hlt
  · exact hsorted.2.1.1

/-- It makes no difference which of two entries is put in first, when the one goes behind those
due at the same time and the other goes ahead of them. -/
theorem orderedInsert_comm (x y : Entry τ) (a : Agenda τ) :
    (a.orderedInsert (·.due < ·.due) y).orderedInsert (·.due ≤ ·.due) x =
      (a.orderedInsert (·.due ≤ ·.due) x).orderedInsert (·.due < ·.due) y := by
  induction a with
  | nil =>
    by_cases hxy : x.due ≤ y.due
    · simp [hxy, Int.not_lt.2 hxy]
    · simp [hxy, Int.not_le.1 hxy]
  | cons z a ih =>
    simp only [List.orderedInsert_cons]
    split_ifs <;> simp only [List.orderedInsert_cons, ih] <;> split_ifs <;> grind

/-- The last of several entries goes behind all others that are not due later. -/
theorem push_byDue (l : List (Entry τ)) (due : Instant) (task : τ) :
    push (byDue l) due task = byDue (l ++ [⟨due, task⟩]) := by
  induction l with
  | nil => simp [push, byDue]
  | cons y l ih =>
    rw [List.cons_append, byDue_cons, byDue_cons, ← ih, push, push, orderedInsert_comm]

/-- The entries behind the first are what remains when it leaves, still in the order of arrival. -/
theorem byDue_tail (h : byDue l = x :: a) :
    ∃ l', l'.Sublist l ∧ l.Perm (x :: l') ∧ a = byDue l' := by
  induction l generalizing a with
  | nil => simp [byDue] at h
  | cons y l ih =>
    rw [byDue_cons] at h
    cases hl : byDue l with
    | nil =>
      rw [hl] at h
      cases h
      obtain rfl := (hl ▸ byDue_perm l).nil_eq
      exact ⟨[], List.nil_sublist _, .rfl, hl.symm⟩
    | cons z b =>
      rw [hl, List.orderedInsert_cons] at h
      split_ifs at h with hyz
      · -- The entry that has come first is also due first.
        cases h
        exact ⟨l, List.sublist_cons_self _ _, .rfl, hl.symm⟩
      · cases h
        obtain ⟨l', hsub, hperm, rfl⟩ := ih hl
        exact ⟨y :: l', hsub.cons_cons y, (hperm.cons y).trans (.swap ..), (byDue_cons y l').symm⟩

theorem popDue_eq_some {now : Instant} {task : τ} {a' : Agenda τ}
    (h : popDue a now = some (task, a')) : ∃ x, a = x :: a' ∧ x.due ≤ now ∧ x.task = task := by
  cases a with
  | nil => simp [popDue] at h
  | cons x a =>
    rw [popDue] at h
    split_ifs at h with hdue
    cases h
    exact ⟨x, rfl, hdue, rfl⟩

/-- Of what is sorted, an entry leaves that was due, and the others stay sorted. -/
theorem popDue_byDue {now : Instant} {task : τ} (h : popDue (byDue l) now = some (task, a)) :
    ∃ x l', x.due ≤ now ∧ x.task = task ∧ l'.Sublist l ∧ l.Perm (x :: l') ∧ a = byDue l' := by
  obtain ⟨x, hx, hdue, htask⟩ := popDue_eq_some h
  obtain ⟨l', hsub, hperm, ha⟩ := byDue_tail hx
  exact ⟨x, l', hdue, htask, hsub, hperm, ha⟩

/-- No entry is due before the first. -/
theorem nextDue_byDue (l : List (Entry τ)) : nextDue (byDue l) = (l.map Entry.due).min? := by
  have hmem (y : Entry τ) : y ∈ byDue l ↔ y ∈ l := (byDue_perm l).mem_iff
  cases hl : byDue l with
  | nil =>
    obtain rfl := (hl ▸ byDue_perm l).nil_eq
    rfl
  | cons x a =>
    have hsorted := byDue_pairwise l
    simp only [hl, List.mem_cons] at hmem
    rw [hl, List.pairwise_cons] at hsorted
    refine ((List.min?_eq_some_iff).2 ⟨List.mem_map_of_mem ((hmem x).1 (.inl rfl)), ?_⟩).symm
    intro due hdue
    obtain ⟨y, hy, rfl⟩ := List.mem_map.1 hdue
    rcases (hmem y).2 hy with rfl | hy
    · exact Int.le_refl _
    · exact hsorted.1 y hy

end Agenda

/-! ### The timers of a heap -/

namespace TimerQueue

open Agenda Operation

/-- `timers` are the timers of a queue in the order in which they leave. -/
structure Lists (q : TimerQueue τ) (timers : List (Timer τ)) : Prop where
  ordered : Ordered q.heap
  perm : timers.Perm q.heap.toList
  sorted : timers.Pairwise fun a b => a.ahead b
  /-- The timers came before the next one will. -/
  numbered : ∀ t ∈ timers, t.sequence < q.sequence

variable {q q' : TimerQueue τ} {timers : List (Timer τ)}

theorem empty_lists : Lists (empty : TimerQueue τ) [] :=
  ⟨empty_ordered, .rfl, .nil, by simp⟩

theorem map_orderedInsert (timers : List (Timer τ)) (t : Timer τ) :
    (timers.orderedInsert (·.due < ·.due) t).map Timer.entry =
      Agenda.push (timers.map Timer.entry) t.due t.task :=
  List.map_orderedInsert _ _ _ _ _ (fun _ _ => .rfl) fun _ _ => .rfl

namespace Lists

theorem size_eq (h : Lists q timers) : q.size = timers.length := by
  simpa [size] using h.perm.length_eq.symm

/-- The timer at the root is the first. -/
theorem root_eq (h : Lists q timers) : q.heap[0]? = timers.head? := by
  cases timers with
  | nil => simpa [size] using h.size_eq
  | cons t timers =>
    have hpos : 0 < q.heap.size := by
      have := h.size_eq
      simp only [size, List.length_cons] at this
      omega
    have hroot : q.heap[0]? = some q.heap[0] := Array.getElem?_eq_getElem hpos
    have hmem : q.heap[0] ∈ t :: timers := by
      rw [h.perm.mem_iff, Array.mem_toList_iff]
      exact Array.getElem_mem hpos
    rw [hroot, List.head?_cons]
    rcases List.mem_cons.1 hmem with heq | hmem
    · rw [heq]
    · -- Otherwise the first would be ahead of the root.
      have hahead := (List.pairwise_cons.1 h.sorted).1 _ hmem
      have ht : t ∈ q.heap := by
        rw [← Array.mem_toList_iff, ← h.perm.mem_iff]
        exact List.mem_cons_self
      exact absurd hahead (h.ordered.not_ahead_root hroot ht)

theorem nextDue_eq (h : Lists q timers) :
    q.nextDue = Agenda.nextDue (timers.map Timer.entry) := by
  rw [TimerQueue.nextDue, h.root_eq, Agenda.nextDue, List.head?_map, Option.map_map]
  rfl

/-- A timer that is new goes behind those that are not due later, since they came before it. -/
theorem push (h : Lists q timers) (due : Instant) (task : τ) :
    Lists (q.push due task)
      (timers.orderedInsert (·.due < ·.due) ⟨due, q.sequence, task⟩) where
  ordered := push_ordered h.ordered due task
  perm := (List.perm_orderedInsert _ _ _).trans
    ((h.perm.cons _).trans (q.push_toList due task).symm)
  sorted := by
    have hsorted := h.sorted
    have hnumbered := h.numbered
    clear h
    induction timers with
    | nil => simp
    | cons t timers ih =>
      rw [List.pairwise_cons] at hsorted
      rw [List.orderedInsert_cons]
      split_ifs with hlt
      · refine .cons (fun u hu => ?_) (.cons hsorted.1 hsorted.2)
        rw [Timer.ahead_iff]
        rcases List.mem_cons.1 hu with rfl | hu
        · exact .inl hlt
        · have := hsorted.1 u hu
          rw [Timer.ahead_iff] at this
          grind
      · have htail : ∀ u ∈ timers, u.sequence < q.sequence :=
          fun u hu => hnumbered u (List.mem_cons_of_mem t hu)
        refine .cons (fun u hu => ?_) (ih hsorted.2 htail)
        rcases (List.mem_orderedInsert _).1 hu with rfl | hu
        · have := hnumbered t List.mem_cons_self
          rw [Timer.ahead_iff]
          grind
        · exact hsorted.1 u hu
  numbered := by
    intro t ht
    have hseq : (q.push due task).sequence = q.sequence + 1 := rfl
    rw [hseq]
    rcases (List.mem_orderedInsert _).1 ht with rfl | ht
    · exact Nat.lt_succ_self _
    · exact Nat.lt_succ_of_lt (h.numbered t ht)

/-- A queue without timers hands out nothing. -/
theorem popDue_nil (h : Lists q []) (now : Instant) : q.popDue now = none := by
  rw [popDue, h.root_eq]
  rfl

/-- The first timer leaves as soon as it is due, and the others are left. -/
theorem popDue_cons {t : Timer τ} (h : Lists q (t :: timers)) {now : Instant}
    (hdue : t.due ≤ now) :
    ∃ q', q.popDue now = some (t.task, q') ∧ Lists q' timers := by
  have hroot : q.heap[0]? = some t := h.root_eq
  obtain ⟨q', hq'⟩ := popDue_of_root hroot hdue
  have hsorted := List.pairwise_cons.1 h.sorted
  refine ⟨q', hq', popDue_ordered h.ordered hq', ?_, hsorted.2, fun u hu => ?_⟩
  · exact List.Perm.cons_inv (h.perm.trans (popDue_toList hroot hq'))
  · rw [popDue_sequence hq']
    exact h.numbered u (List.mem_cons_of_mem t hu)

/-- An operation on a queue is the operation on the list of its entries. -/
theorem operate (h : Lists q timers) (op : Operation τ) :
    ∃ timers', Lists (discipline.operate q op).2 timers' ∧
      Agenda.discipline.operate (timers.map Timer.entry) op =
        ((discipline.operate q op).1, timers'.map Timer.entry) := by
  cases op with
  | push due task =>
    refine ⟨_, h.push due task, ?_⟩
    rw [map_orderedInsert]
    rfl
  | popDue now =>
    cases timers with
    | nil =>
      refine ⟨[], ?_, ?_⟩
      · simpa [Discipline.operate, discipline, h.popDue_nil] using h
      · simp [Discipline.operate, discipline, Agenda.discipline, h.popDue_nil, Agenda.popDue]
    | cons t timers =>
      by_cases hdue : t.due ≤ now
      · obtain ⟨q', hq', hlists⟩ := h.popDue_cons hdue
        refine ⟨timers, ?_, ?_⟩
        · simpa [Discipline.operate, discipline, hq'] using hlists
        · simp [Discipline.operate, discipline, Agenda.discipline, hq', Agenda.popDue, hdue]
      · have hnone : q.popDue now = none := by simp [popDue, h.root_eq, hdue]
        refine ⟨t :: timers, ?_, ?_⟩
        · simpa [Discipline.operate, discipline, hnone] using h
        · simp [Discipline.operate, discipline, Agenda.discipline, hnone, Agenda.popDue, hdue]

/-- What is to be seen of a queue is what is to be seen of the list of its entries. -/
theorem displays_eq (h : Lists q timers) (ops : List (Operation τ)) :
    discipline.displays q ops = Agenda.discipline.displays (timers.map Timer.entry) ops := by
  induction ops generalizing q timers with
  | nil => rfl
  | cons op ops ih =>
    obtain ⟨timers', h', heq⟩ := h.operate op
    have hempty : (discipline.operate q op).2.isEmpty = timers'.isEmpty := by
      have hsize := h'.size_eq
      rw [size] at hsize
      rw [Bool.eq_iff_iff, isEmpty, Array.isEmpty_iff_size_eq_zero,
        List.isEmpty_iff_length_eq_zero, hsize]
    simp only [Discipline.displays, heq, ih h']
    simp only [discipline, Agenda.discipline] at h' hempty ⊢
    simp [h'.size_eq, hempty, h'.nextDue_eq]

theorem after (h : Lists q timers) (ops : List (Operation τ)) :
    ∃ timers', Lists (discipline.after q ops) timers' ∧
      Agenda.discipline.after (timers.map Timer.entry) ops = timers'.map Timer.entry := by
  induction ops generalizing q timers with
  | nil => exact ⟨timers, h, rfl⟩
  | cons op ops ih =>
    obtain ⟨timers', h', heq⟩ := h.operate op
    obtain ⟨timers'', h'', heq'⟩ := ih h'
    refine ⟨timers'', h'', ?_⟩
    rw [← heq', Discipline.after, List.foldl_cons, heq]
    rfl

end Lists

/-! ### What becomes of the tasks -/

/-- What operations make of the entries that they push to an empty queue: `departed` have left,
each at a time that was asked for, and `remaining` are still there. -/
structure Settles (ops : List (Operation τ)) (departed : List (Entry τ × Instant))
    (remaining : List (Entry τ)) : Prop where
  /-- Every entry that was pushed has left or is still there, once. -/
  conserved : (arrivals ops).Perm (departed.map Prod.fst ++ remaining)
  inOrder : remaining.Sublist (arrivals ops)
  /-- As long as nothing has left, everything is there. -/
  whole : departed = [] → remaining = arrivals ops
  /-- The tasks that were handed out are those that have left, at the times that were asked for. -/
  handedOut : takings ops (discipline.displays .empty ops) =
    departed.map fun x => (x.2, x.1.task)
  /-- None has left before it was due. -/
  punctual : ∀ x ∈ departed, x.1.due ≤ x.2
  held : ((discipline.after .empty ops).heap.toList.map Timer.entry).Perm remaining
  /-- The list that shows what the queue shows is the stable sort of the entries that are there. -/
  sorted : Agenda.discipline.after [] ops = byDue remaining
  earliest : (discipline.after .empty ops).nextDue = (remaining.map Entry.due).min?
  /-- When all are due, they are handed out in the order of the stable sort, and then no more. -/
  drained : ∀ (late : Instant) (n : Nat), (∀ x ∈ remaining, x.due ≤ late) →
    remaining.length ≤ n →
    (discipline.displays (discipline.after .empty ops) (.replicate n (.popDue late))).filterMap
      Display.popped = (byDue remaining).map Entry.task

end TimerQueue

namespace Agenda

open Operation

/-- What operations make of a sorted list: some entries leave, each when it is due, and the others
stay sorted by due time and order of arrival. -/
theorem accounts (ops : List (Operation τ)) (l : List (Entry τ)) :
    ∃ (departed : List (Entry τ × Instant)) (remaining : List (Entry τ)),
      (l ++ arrivals ops).Perm (departed.map Prod.fst ++ remaining) ∧
      remaining.Sublist (l ++ arrivals ops) ∧
      takings ops (discipline.displays (byDue l) ops) = departed.map (fun x => (x.2, x.1.task)) ∧
      (∀ x ∈ departed, x.1.due ≤ x.2) ∧ discipline.after (byDue l) ops = byDue remaining := by
  induction ops generalizing l with
  | nil => exact ⟨[], l, by simp, by simp, rfl, by simp, rfl⟩
  | cons op ops ih =>
    cases op with
    | push due task =>
      obtain ⟨departed, remaining, hperm, hsub, htakings, hdue, hafter⟩ := ih (l ++ [⟨due, task⟩])
      rw [List.append_assoc] at hperm hsub
      refine ⟨departed, remaining, hperm, hsub, ?_, hdue, ?_⟩
      · rw [← htakings, ← push_byDue]
        rfl
      · rw [← hafter, ← push_byDue]
        rfl
    | popDue now =>
      cases hpop : popDue (byDue l) now with
      | none =>
        obtain ⟨departed, remaining, hperm, hsub, htakings, hdue, hafter⟩ := ih l
        refine ⟨departed, remaining, hperm, hsub, ?_, hdue, ?_⟩
        · simp [Discipline.displays, Discipline.operate, discipline, hpop, takings, ← htakings]
        · simp [Discipline.after, Discipline.operate, discipline, hpop, ← hafter]
      | some popped =>
        obtain ⟨task, a⟩ := popped
        obtain ⟨x, l', hx, rfl, hsub', hperm', rfl⟩ := popDue_byDue hpop
        obtain ⟨departed, remaining, hperm, hsub, htakings, hdue, hafter⟩ := ih l'
        refine ⟨(x, now) :: departed, remaining, ?_, ?_, ?_, ?_, ?_⟩
        · exact (hperm'.append_right _).trans (hperm.cons x)
        · exact hsub.trans (hsub'.append_right _)
        · simp [Discipline.displays, Discipline.operate, discipline, hpop, takings, ← htakings]
        · exact List.forall_mem_cons.2 ⟨hx, hdue⟩
        · simp [Discipline.after, Discipline.operate, discipline, hpop, ← hafter]

/-- Entries that are all due are handed out one after the other. -/
theorem drain (late : Instant) (n : Nat) (a : Agenda τ) (hdue : ∀ x ∈ a, x.due ≤ late)
    (hn : a.length ≤ n) :
    (discipline.displays a (.replicate n (.popDue late))).filterMap Display.popped =
      a.map Entry.task := by
  induction n generalizing a with
  | zero =>
    obtain rfl := List.eq_nil_of_length_eq_zero (Nat.le_zero.1 hn)
    rfl
  | succ n ih =>
    cases a with
    | nil => simpa [Discipline.displays, Discipline.operate, discipline, popDue,
        List.replicate_succ] using ih [] (by simp) (Nat.zero_le n)
    | cons x a =>
      have hx : x.due ≤ late := hdue x List.mem_cons_self
      have ha := ih a (fun y hy => hdue y (List.mem_cons_of_mem x hy)) (Nat.le_of_succ_le_succ hn)
      simp [Discipline.displays, Discipline.operate, discipline, popDue, List.replicate_succ, hx,
        ← ha]

end Agenda

/-- After any operations, with any due times and any times asked for, a queue of timers has shown
what a list shows that is kept sorted by due time, with entries due at the same time in the order in
which they came. No task is lost, handed out twice or handed out before it is due. -/
theorem TimerQueue.refines_agenda (ops : List (Operation τ)) :
    discipline.displays .empty ops = Agenda.discipline.displays [] ops ∧
      ∃ departed remaining, Settles ops departed remaining := by
  have hdisplays := empty_lists.displays_eq ops
  refine ⟨hdisplays, ?_⟩
  obtain ⟨departed, remaining, hperm, hsub, htakings, hdue, hafter⟩ := Agenda.accounts ops []
  obtain ⟨timers, hlists, hentries⟩ := empty_lists.after ops
  rw [List.nil_append] at hperm hsub
  have hnil : Agenda.byDue ([] : List (Entry τ)) = [] := by simp [Agenda.byDue]
  rw [hnil] at htakings hafter
  rw [List.map_nil] at hdisplays hentries
  have heq : timers.map Timer.entry = Agenda.byDue remaining := hentries.symm.trans hafter
  have hbyDue := Agenda.byDue_perm remaining
  refine ⟨departed, remaining, hperm, hsub, ?_, ?_, hdue, ?_, hafter, ?_, ?_⟩
  · intro hnone
    rw [hnone] at hperm
    exact hsub.eq_of_length hperm.length_eq.symm
  · rw [hdisplays, htakings]
  · exact (hlists.perm.symm.map _).trans (heq ▸ hbyDue)
  · rw [hlists.nextDue_eq, heq, Agenda.nextDue_byDue]
  · intro late n hlate hn
    rw [hlists.displays_eq, heq]
    refine Agenda.drain late n _ (fun x hx => hlate x (hbyDue.mem_iff.1 hx)) ?_
    rwa [hbyDue.length_eq]

/-- A task that comes late and is due early goes ahead; the first of two that are due at the same
time leaves first. -/
example : (TimerQueue.discipline.displays .empty [.push 5 'a', .push 3 'b', .push 5 'c',
    .popDue 2, .push 3 'd', .popDue 9, .popDue 4, .popDue 4, .popDue 5]).map Display.popped =
    [none, none, none, none, none, some 'b', some 'd', none, some 'a'] := by cbv

end LazyEffects
