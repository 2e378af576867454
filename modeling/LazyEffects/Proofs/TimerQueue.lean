import LazyEffects.TimerQueue
import Mathlib.Data.List.Perm.Basic
import Mathlib.Logic.Equiv.Basic

/-!
# What queues of timers hold

The sifts only change places. So a task that is pushed joins the others, and the task that leaves
is the only one to leave. Between two moves every timer is in order with its parent, so no timer is
due before the root.

* `TimerQueue.push_tasks` and `TimerQueue.popDue_tasks`: the tasks in a queue, up to order;
* `TimerQueue.push_ordered` and `TimerQueue.popDue_ordered`: the order is kept.
-/

namespace LazyEffects

variable {τ : Type}

theorem Timer.ahead_iff (a b : Timer τ) :
    a.ahead b ↔ a.due < b.due ∨ a.due = b.due ∧ a.sequence < b.sequence := by
  simp [ahead]

namespace TimerQueue

theorem siftUp_perm (heap : Array (Timer τ)) (i : Nat) (hi : i < heap.size) :
    (siftUp heap i hi).Perm heap := by
  fun_induction siftUp heap i hi with
  | case1 heap i hi h hp ha ih => exact ih.trans (Array.swap_perm _ _)
  | case2 => exact .rfl
  | case3 => exact .rfl

theorem siftToBottom_perm (heap : Array (Timer τ)) (i : Nat) (hi : i < heap.size) :
    (siftToBottom heap i hi).1.Perm heap := by
  fun_induction siftToBottom heap i hi with
  | case1 heap i hi hr ha ih => exact ih.trans (Array.swap_perm _ _)
  | case2 heap i hi hr ha ih => exact ih.trans (Array.swap_perm _ _)
  | case3 heap i hi hr hl => exact Array.swap_perm _ _
  | case4 heap i hi hr hl => exact .rfl

theorem push_perm (q : TimerQueue τ) (due : Instant) (task : τ) :
    (q.push due task).heap.Perm (q.heap.push ⟨due, q.sequence, task⟩) :=
  siftUp_perm _ _ _

/-- The last entry of a heap whose root has changed places with it is the root. -/
theorem swap_root_perm {heap : Array (Timer τ)} (h : 0 < heap.size) :
    heap.toList.Perm (heap[0] :: ((heap.swap 0 (heap.size - 1)).pop).toList) := by
  -- Dropping the last entry after the swap is the same as taking the root away.
  have hswap : (heap.swap 0 (heap.size - 1)).toList ≠ [] := by
    intro hnil
    have := congrArg List.length hnil
    simp only [Array.length_toList, Array.size_swap, List.length_nil] at this
    omega
  have hlast : (heap.swap 0 (heap.size - 1)).toList.getLast hswap = heap[0] := by
    rw [List.getLast_eq_getElem]
    simp
  have hsplit := List.perm_append_singleton heap[0] (heap.swap 0 (heap.size - 1)).toList.dropLast
  rw [← hlast, List.dropLast_append_getLast hswap, hlast, ← Array.toList_pop] at hsplit
  exact (Array.perm_iff_toList_perm.1 (Array.swap_perm h (by omega))).symm.trans hsplit

/-- The root changes places with the last entry and leaves; the last entry sinks and rises. -/
theorem dropRoot_perm {heap : Array (Timer τ)} {timer : Timer τ} (h : heap[0]? = some timer) :
    heap.toList.Perm (timer :: (dropRoot heap).toList) := by
  obtain ⟨h0, rfl⟩ := Array.getElem?_eq_some_iff.1 h
  refine (swap_root_perm h0).trans (.cons _ ?_)
  rw [← Array.perm_iff_toList_perm]
  by_cases h1 : 1 < heap.size
  · rw [dropRoot, dif_pos h1]
    exact ((siftUp_perm _ _ _).trans (siftToBottom_perm _ _ _)).symm
  · rw [dropRoot, dif_neg h1]
    have : (heap.swap 0 (heap.size - 1)).pop = #[] := by
      apply Array.eq_empty_of_size_eq_zero
      simp only [Array.size_pop, Array.size_swap]
      omega
    rw [this]

/-- A timer that is pushed joins the others. -/
theorem push_toList (q : TimerQueue τ) (due : Instant) (task : τ) :
    (q.push due task).heap.toList.Perm (⟨due, q.sequence, task⟩ :: q.heap.toList) := by
  have hperm := Array.perm_iff_toList_perm.1 (q.push_perm due task)
  rw [Array.toList_push] at hperm
  exact hperm.trans (List.perm_append_singleton _ _)

/-- A task that is pushed joins the others. -/
theorem push_tasks (q : TimerQueue τ) (due : Instant) (task : τ) :
    (q.push due task).tasks.Perm (task :: q.tasks) :=
  (q.push_toList due task).map Timer.task

/-- The task that leaves a queue has been at the root, and it was due. -/
theorem popDue_eq_some {q q' : TimerQueue τ} {now : Instant} {task : τ}
    (h : q.popDue now = some (task, q')) :
    ∃ root, q.heap[0]? = some root ∧ root.due ≤ now ∧ root.task = task ∧
      q'.heap = dropRoot q.heap := by
  rw [popDue] at h
  split at h
  · cases h
  · rename_i root hroot
    split at h
    · rename_i hdue
      cases h
      exact ⟨root, hroot, hdue, rfl, rfl⟩
    · cases h

/-- A root that is due leaves. -/
theorem popDue_of_root {q : TimerQueue τ} {now : Instant} {root : Timer τ}
    (h : q.heap[0]? = some root) (hdue : root.due ≤ now) :
    ∃ q', q.popDue now = some (root.task, q') := by
  simp [popDue, h, hdue]

/-- The numbers of later tasks do not depend on those that have left. -/
theorem popDue_sequence {q q' : TimerQueue τ} {now : Instant} {task : τ}
    (h : q.popDue now = some (task, q')) : q'.sequence = q.sequence := by
  rw [popDue] at h
  split at h
  · cases h
  · split at h
    · cases h
      rfl
    · cases h

/-- The timer at the root is the only one to leave. -/
theorem popDue_toList {q q' : TimerQueue τ} {now : Instant} {task : τ} {timer : Timer τ}
    (hroot : q.heap[0]? = some timer) (h : q.popDue now = some (task, q')) :
    q.heap.toList.Perm (timer :: q'.heap.toList) := by
  obtain ⟨root, hroot', -, -, hheap⟩ := popDue_eq_some h
  rw [hroot] at hroot'
  cases hroot'
  rw [hheap]
  exact dropRoot_perm hroot

/-- The task that leaves a queue is the only one to leave. -/
theorem popDue_tasks {q q' : TimerQueue τ} {now : Instant} {task : τ}
    (h : q.popDue now = some (task, q')) : q.tasks.Perm (task :: q'.tasks) := by
  obtain ⟨root, hroot, -, rfl, -⟩ := popDue_eq_some h
  exact (popDue_toList hroot h).map Timer.task

theorem size_push (q : TimerQueue τ) (due : Instant) (t : τ) : (q.push due t).size = q.size + 1 := by
  simpa [tasks, size] using (q.push_tasks due t).length_eq

theorem size_popDue {q q' : TimerQueue τ} {now : Instant} {task : τ}
    (h : q.popDue now = some (task, q')) : q.size = q'.size + 1 := by
  simpa [tasks, size] using (popDue_tasks h).length_eq

/-- A timer stays until its task leaves. -/
theorem mem_heap_popDue {q q' : TimerQueue τ} {now : Instant} {task : τ}
    (h : q.popDue now = some (task, q')) {timer : Timer τ} (ht : timer ∈ q.heap) :
    timer.task = task ∨ timer ∈ q'.heap := by
  obtain ⟨root, hroot, -, rfl, hheap⟩ := popDue_eq_some h
  rw [← Array.mem_toList_iff, (dropRoot_perm hroot).mem_iff, List.mem_cons] at ht
  rw [hheap, ← Array.mem_toList_iff]
  exact ht.imp_left fun ht => by rw [ht]

/-- A timer that is there has been there before. -/
theorem mem_heap_of_popDue {q q' : TimerQueue τ} {now : Instant} {task : τ}
    (h : q.popDue now = some (task, q')) {timer : Timer τ} (ht : timer ∈ q'.heap) :
    timer ∈ q.heap := by
  obtain ⟨root, hroot, -, -, hheap⟩ := popDue_eq_some h
  rw [hheap, ← Array.mem_toList_iff] at ht
  rw [← Array.mem_toList_iff, (dropRoot_perm hroot).mem_iff]
  exact List.mem_cons_of_mem _ ht

theorem mem_heap_push_iff {q : TimerQueue τ} {timer : Timer τ} {due : Instant} {task : τ} :
    timer ∈ (q.push due task).heap ↔ timer ∈ q.heap ∨ timer = ⟨due, q.sequence, task⟩ := by
  rw [(q.push_perm due task).mem_iff, Array.mem_push]

theorem mem_heap_push {q : TimerQueue τ} {timer : Timer τ} (ht : timer ∈ q.heap) (due : Instant)
    (task : τ) : timer ∈ (q.push due task).heap :=
  mem_heap_push_iff.2 (.inl ht)

theorem mem_heap_push_self (q : TimerQueue τ) (due : Instant) (task : τ) :
    ⟨due, q.sequence, task⟩ ∈ (q.push due task).heap :=
  mem_heap_push_iff.2 (.inr rfl)

/-- The clock has come to the due time of the task that leaves a queue next. -/
theorem popDue_of_nextDue {q : TimerQueue τ} {due now : Instant}
    (h : q.nextDue = some due) (hnow : due ≤ now) : ∃ x, q.popDue now = some x := by
  rw [nextDue, Option.map_eq_some_iff] at h
  obtain ⟨timer, ht, rfl⟩ := h
  obtain ⟨q', hq'⟩ := popDue_of_root ht hnow
  exact ⟨_, hq'⟩

theorem tasks_of_nextDue {q : TimerQueue τ} (h : q.nextDue = none) :
    q.tasks = [] := by
  rw [nextDue, Option.map_eq_none_iff, Array.getElem?_eq_none_iff] at h
  have hsize : q.heap = #[] := Array.eq_empty_of_size_eq_zero (Nat.le_zero.1 h)
  simp [tasks, hsize]

/-! ### The order -/

/-- The timer at `p` may leave before the one at `c`, if both are there. -/
def InOrder (heap : Array (Timer τ)) (p c : ℕ) : Prop :=
  ∀ a b, heap[p]? = some a → heap[c]? = some b → ¬ b.ahead a

variable {heap : Array (Timer τ)} {i j p c : ℕ}

theorem inOrder_refl (heap : Array (Timer τ)) (i : ℕ) : InOrder heap i i := by
  intro a b ha hb
  rw [ha] at hb
  cases hb
  simp [Timer.ahead_iff]

theorem InOrder.trans (hj : j < heap.size) (h : InOrder heap i j) (h' : InOrder heap j c) :
    InOrder heap i c := by
  intro a b ha hb
  have hab := h a _ ha (Array.getElem?_eq_getElem hj)
  have hbc := h' _ b (Array.getElem?_eq_getElem hj) hb
  rw [Timer.ahead_iff] at hab hbc ⊢
  grind

theorem inOrder_of_ahead {hi : i < heap.size} {hj : j < heap.size} (h : heap[i].ahead heap[j]) :
    InOrder heap i j := by
  intro a b ha hb
  rw [Array.getElem?_eq_getElem hi] at ha
  rw [Array.getElem?_eq_getElem hj] at hb
  cases ha
  cases hb
  rw [Timer.ahead_iff] at h ⊢
  grind

theorem inOrder_of_not_ahead {hi : i < heap.size} {hj : j < heap.size}
    (h : ¬ heap[j].ahead heap[i]) : InOrder heap i j := by
  intro a b ha hb
  rw [Array.getElem?_eq_getElem hi] at ha
  rw [Array.getElem?_eq_getElem hj] at hb
  cases ha
  cases hb
  exact h

/-- Nothing is out of order with a timer that is not there. -/
theorem inOrder_of_size_le (h : heap.size ≤ c) : InOrder heap p c := by
  intro a b _ hb
  rw [Array.getElem?_eq_none h] at hb
  cases hb

theorem inOrder_swap (hi : i < heap.size) (hj : j < heap.size) :
    InOrder (heap.swap i j) p c ↔ InOrder heap (Equiv.swap i j p) (Equiv.swap i j c) := by
  have hget (k : ℕ) : (heap.swap i j)[k]? = heap[Equiv.swap i j k]? := by
    rw [Array.getElem?_swap, Equiv.swap_apply_def]
    by_cases hki : k = i
    · subst hki
      by_cases hkj : j = k
      · simp [hkj, hi]
      · simp [hkj, hj]
    · by_cases hkj : k = j
      · subst hkj
        simp [hki, hi]
      · simp [Ne.symm hki, Ne.symm hkj, hki, hkj]
  simp only [InOrder, hget]

/-- Every timer is in order with its parent. -/
def Ordered (heap : Array (Timer τ)) : Prop := ∀ c, InOrder heap ((c - 1) / 2) c

/-- All but the timer at `i` are in order with their parents, and the children of `i` with the
parent of `i`. -/
structure Rising (heap : Array (Timer τ)) (i : ℕ) : Prop where
  others : ∀ c ≠ i, InOrder heap ((c - 1) / 2) c
  children : ∀ c, (c - 1) / 2 = i → InOrder heap ((i - 1) / 2) c

theorem Rising.swap (h : Rising heap i) (hi : i < heap.size) (h0 : 0 < i)
    (hp : (i - 1) / 2 < heap.size) (ha : heap[i].ahead heap[(i - 1) / 2]) :
    Rising (heap.swap i ((i - 1) / 2)) ((i - 1) / 2) := by
  set p := (i - 1) / 2 with hpi
  have hip := inOrder_of_ahead ha
  -- The places that the swap touches are `i`, `p` and their children; the rest is as it was.
  constructor
  · intro c hc
    rw [inOrder_swap hi hp]
    by_cases hci : c = i
    · rw [hci, ← hpi, Equiv.swap_apply_right, Equiv.swap_apply_left]
      exact hip
    · rw [Equiv.swap_apply_of_ne_of_ne hci hc]
      by_cases hcp : (c - 1) / 2 = p
      · rw [hcp, Equiv.swap_apply_right]
        have := h.others c hci
        rw [hcp] at this
        exact hip.trans hp this
      · by_cases hcp' : (c - 1) / 2 = i
        · -- The timer that was the parent of `i` is the parent of its children now.
          rw [hcp', Equiv.swap_apply_left]
          exact h.children c hcp'
        · rw [Equiv.swap_apply_of_ne_of_ne hcp' hcp]
          exact h.others c hci
  · intro c hc
    rw [inOrder_swap hi hp]
    -- The parent of the place to which the timer has gone is at rest.
    have hg : InOrder heap (Equiv.swap i p ((p - 1) / 2)) p := by
      by_cases hp0 : (p - 1) / 2 = p
      · rw [hp0, Equiv.swap_apply_right]
        exact hip
      · rw [Equiv.swap_apply_of_ne_of_ne (by omega) hp0]
        exact h.others p (by omega)
    by_cases hci : c = i
    · rw [hci, Equiv.swap_apply_left]
      exact hg
    · by_cases hcp : c = p
      · subst hcp
        rw [hc]
        exact inOrder_refl heap _
      · rw [Equiv.swap_apply_of_ne_of_ne hci hcp]
        have := h.others c hci
        rw [hc] at this
        exact hg.trans hp this

theorem siftUp_ordered (hi : i < heap.size) (h : Rising heap i) : Ordered (siftUp heap i hi) := by
  fun_induction siftUp heap i hi with
  | case1 heap i hi h0 hp ha ih => exact ih (h.swap hi h0 hp ha)
  | case2 heap i hi h0 hp ha =>
    intro c
    by_cases hc : c = i
    · rw [hc]
      exact inOrder_of_not_ahead ha
    · exact h.others c hc
  | case3 heap i hi h0 =>
    intro c
    by_cases hc : c = i
    · obtain rfl : i = 0 := by omega
      rw [hc]
      exact inOrder_refl heap 0
    · exact h.others c hc

/-- All timers but the one at `i` and its children are in order with their parents, and the children
of `i` with the parent of `i`. -/
structure Sinking (heap : Array (Timer τ)) (i : ℕ) : Prop where
  others : ∀ c ≠ i, (c - 1) / 2 ≠ i → InOrder heap ((c - 1) / 2) c
  children : ∀ c ≠ i, (c - 1) / 2 = i → 0 < i → InOrder heap ((i - 1) / 2) c

/-- The timer at `i` changes places with that of its children that may leave before the other. -/
theorem Sinking.swap (h : Sinking heap i) (hi : i < heap.size) (hj : j < heap.size)
    (hij : (j - 1) / 2 = i) (hne : j ≠ i)
    (ho : ∀ c ≠ i, (c - 1) / 2 = i → InOrder heap j c) : Sinking (heap.swap i j) j := by
  constructor
  · intro c hc hcj
    rw [inOrder_swap hi hj, Equiv.swap_apply_def i j c, if_neg hc]
    by_cases hci : c = i
    · -- The timer that has come up to `i` was a child of `i`.
      rw [if_pos hci, hci]
      by_cases h0 : 0 < i
      · rw [Equiv.swap_apply_of_ne_of_ne (by omega) (by omega)]
        exact h.children j hne hij h0
      · obtain rfl : i = 0 := by omega
        rw [Equiv.swap_apply_left]
        exact inOrder_refl heap j
    · rw [if_neg hci]
      by_cases hpar : (c - 1) / 2 = i
      · rw [hpar, Equiv.swap_apply_left]
        exact ho c hci hpar
      · rw [Equiv.swap_apply_of_ne_of_ne hpar hcj]
        exact h.others c hci hpar
  · intro c hc hcj h0
    rw [inOrder_swap hi hj, hij, Equiv.swap_apply_left, Equiv.swap_apply_of_ne_of_ne (by omega) hc]
    have := h.others c (by omega) (by omega)
    rwa [hcj] at this

theorem Sinking.rising (h : Sinking heap i) (hi : heap.size ≤ 2 * i + 1) : Rising heap i := by
  constructor
  · intro c hc
    by_cases hpar : (c - 1) / 2 = i
    · exact inOrder_of_size_le (by omega)
    · exact h.others c hc hpar
  · intro c hpar
    by_cases hc : c = i
    · obtain rfl : i = 0 := by omega
      rw [hc]
      exact inOrder_refl heap 0
    · exact inOrder_of_size_le (by omega)

theorem siftToBottom_rising (hi : i < heap.size) (h : Sinking heap i) :
    Rising (siftToBottom heap i hi).1 (siftToBottom heap i hi).2 := by
  fun_induction siftToBottom heap i hi with
  | case1 heap i hi hr ha ih =>
    refine ih (h.swap hi (by omega) (by omega) (by omega) fun c hc hpar => ?_)
    obtain rfl | rfl : c = 2 * i + 1 ∨ c = 2 * i + 2 := by omega
    · exact inOrder_refl heap _
    · exact inOrder_of_ahead ha
  | case2 heap i hi hr ha ih =>
    refine ih (h.swap hi hr (by omega) (by omega) fun c hc hpar => ?_)
    obtain rfl | rfl : c = 2 * i + 1 ∨ c = 2 * i + 2 := by omega
    · exact inOrder_of_not_ahead ha
    · exact inOrder_refl heap _
  | case3 heap i hi hr hl =>
    refine (h.swap hi hl (by omega) (by omega) fun c hc hpar => ?_).rising (by simp; omega)
    by_cases hcl : c = 2 * i + 1
    · rw [hcl]
      exact inOrder_refl heap _
    · exact inOrder_of_size_le (by omega)
  | case4 heap i hi hr hl => exact h.rising (by omega)

theorem empty_ordered : Ordered (empty : TimerQueue τ).heap :=
  fun _ => inOrder_of_size_le (Nat.zero_le _)

theorem push_ordered {q : TimerQueue τ} (h : Ordered q.heap) (due : Instant) (task : τ) :
    Ordered (q.push due task).heap := by
  refine siftUp_ordered _ ⟨fun c hc => ?_, fun c hpar => ?_⟩
  · by_cases hlt : c < q.heap.size
    · intro a b ha hb
      rw [Array.getElem?_push, if_neg (by omega)] at ha hb
      exact h c a b ha hb
    · exact inOrder_of_size_le (by simp; omega)
  · by_cases hc : c = 0
    · have : q.heap.size = 0 := by omega
      rw [hc, this]
      exact inOrder_refl _ 0
    · exact inOrder_of_size_le (by simp; omega)

theorem dropRoot_ordered (h : Ordered heap) : Ordered (dropRoot heap) := by
  rw [dropRoot]
  split
  · rename_i h1
    -- The last entry stands at the root: of all places, only this one and its children may be out
    -- of order, and the root has no parent with which the children would have to be in order.
    refine siftUp_ordered _ (siftToBottom_rising _ ⟨fun c hc hpar => ?_, fun c hc hpar h0 => ?_⟩)
    · have hget {k : ℕ} (hk : 0 < k) (hlt : k < heap.size - 1) :
          (heap.swap 0 (heap.size - 1)).pop[k]? = heap[k]? := by
        rw [Array.getElem?_pop, if_pos (by simpa using hlt), Array.getElem?_swap,
          if_neg (by omega), if_neg (by omega)]
      by_cases hlt : c < heap.size - 1
      · intro a b ha hb
        rw [hget (by omega) (by omega)] at ha
        rw [hget (by omega) hlt] at hb
        exact h c a b ha hb
      · exact inOrder_of_size_le (by simp; omega)
    · omega
  · intro c
    exact inOrder_of_size_le (by simp)

theorem popDue_ordered {q q' : TimerQueue τ} {now : Instant} {task : τ}
    (h : Ordered q.heap) (hp : q.popDue now = some (task, q')) : Ordered q'.heap := by
  obtain ⟨root, -, -, -, hheap⟩ := popDue_eq_some hp
  rw [hheap]
  exact dropRoot_ordered h

/-- No timer leaves before the root. -/
theorem Ordered.not_ahead_root (h : Ordered heap) {root timer : Timer τ} (hr : heap[0]? = some root)
    (ht : timer ∈ heap) : ¬ timer.ahead root := by
  obtain ⟨i, hi, rfl⟩ := Array.getElem_of_mem ht
  -- The order passes from parent to child, from the root down to `i`.
  have horder : InOrder heap 0 i := by
    induction i using Nat.strongRecOn with
    | _ i ih =>
      by_cases h0 : i = 0
      · rw [h0]
        exact inOrder_refl heap 0
      · exact (ih ((i - 1) / 2) (by omega) (by omega) (by simp)).trans (by omega) (h i)
  exact horder root _ hr (Array.getElem?_eq_getElem hi)

/-- No timer is due before the root. -/
theorem Ordered.root_le (h : Ordered heap) {root timer : Timer τ} (hr : heap[0]? = some root)
    (ht : timer ∈ heap) : root.due ≤ timer.due := by
  have := h.not_ahead_root hr ht
  rw [Timer.ahead_iff] at this
  grind

/-- Something is handed out as soon as one of the timers is due. -/
theorem Ordered.popDue_ne_none {q : TimerQueue τ} (h : Ordered q.heap) {timer : Timer τ}
    {now : Instant} (ht : timer ∈ q.heap) (hnow : timer.due ≤ now) : q.popDue now ≠ none := by
  obtain ⟨i, hi, -⟩ := Array.getElem_of_mem ht
  have hpos : 0 < q.heap.size := by omega
  have hroot : q.heap[0]? = some q.heap[0] := Array.getElem?_eq_getElem hpos
  have hdue := Int.le_trans (h.root_le hroot ht) hnow
  simp [popDue, hroot, hdue]

end TimerQueue

end LazyEffects
