import LazyEffects.Duration

/-!
# Queues of timers

A queue holds tasks until they are due. The task handed out next is the one with the least pair of
due time and sequence number, so tasks with equal due times leave in the order they came.

The queue is a binary heap in an array: the entry at `i` is ahead of those at `2 * i + 1` and
`2 * i + 2`.

* `TimerQueue.push` and `TimerQueue.popDue` are the operations;
* `TimerQueue.tasks` lists what is in the queue in the order of the array, which is the order in
  which a queue that is dropped gives up its tasks.
-/

namespace LazyEffects

/-- A task with its due time and its number in the order of arrival. -/
structure Timer (τ : Type) where
  due : Instant
  sequence : Nat
  task : τ

/-- `a` leaves the queue before `b`. -/
def Timer.ahead {τ : Type} (a b : Timer τ) : Bool :=
  a.due < b.due || (a.due == b.due && a.sequence < b.sequence)

/-- Tasks waiting for their due time. -/
structure TimerQueue (τ : Type) where
  heap : Array (Timer τ)
  /-- The number of the next task to arrive. -/
  sequence : Nat

namespace TimerQueue

variable {τ : Type}

/-- Move the entry at `i` towards the root until its parent is ahead of it. -/
def siftUp (heap : Array (Timer τ)) (i : Nat) (hi : i < heap.size) : Array (Timer τ) :=
  if h : 0 < i then
    have hp : (i - 1) / 2 < heap.size := by omega
    if heap[i].ahead heap[(i - 1) / 2] then
      siftUp (heap.swap i ((i - 1) / 2)) ((i - 1) / 2) (by simpa using hp)
    else heap
  else heap
termination_by i

theorem size_siftUp (heap : Array (Timer τ)) (i : Nat) (hi : i < heap.size) :
    (siftUp heap i hi).size = heap.size := by
  fun_induction siftUp heap i hi with
  | case1 heap i hi h hp ha ih => rw [ih]; simp
  | case2 => rfl
  | case3 => rfl

/-- Move the entry at `i` down to a place without children, each time changing places with the
child that is ahead of the other; answer the heap and that place. -/
def siftToBottom (heap : Array (Timer τ)) (i : Nat) (hi : i < heap.size) :
    Array (Timer τ) × Nat :=
  if hr : 2 * i + 2 < heap.size then
    if heap[2 * i + 1].ahead heap[2 * i + 2] then
      siftToBottom (heap.swap i (2 * i + 1)) (2 * i + 1) (by simp; omega)
    else siftToBottom (heap.swap i (2 * i + 2)) (2 * i + 2) (by simpa using hr)
  else if hl : 2 * i + 1 < heap.size then (heap.swap i (2 * i + 1), 2 * i + 1)
  else (heap, i)
termination_by heap.size - i

theorem siftToBottom_bounds (heap : Array (Timer τ)) (i : Nat) (hi : i < heap.size) :
    (siftToBottom heap i hi).1.size = heap.size ∧ (siftToBottom heap i hi).2 < heap.size := by
  fun_induction siftToBottom heap i hi with
  | case1 heap i hi hr ha ih => simpa using ih
  | case2 heap i hi hr ha ih => simpa using ih
  | case3 heap i hi hr hl => simpa using hl
  | case4 heap i hi hr hl => exact ⟨rfl, hi⟩

/-- The queue without tasks. -/
def empty : TimerQueue τ := ⟨#[], 0⟩

instance : Inhabited (TimerQueue τ) := ⟨empty⟩

/-- The number of tasks waiting. -/
def size (q : TimerQueue τ) : Nat := q.heap.size

def isEmpty (q : TimerQueue τ) : Bool := q.heap.isEmpty

/-- The due time of the task that leaves next. -/
def nextDue (q : TimerQueue τ) : Option Instant := q.heap[0]?.map Timer.due

/-- The tasks waiting, in the order of the heap's array. -/
def tasks (q : TimerQueue τ) : List τ := q.heap.toList.map Timer.task

/-- Add a task that is due at `due`. -/
def push (q : TimerQueue τ) (due : Instant) (task : τ) : TimerQueue τ where
  heap := siftUp (q.heap.push ⟨due, q.sequence, task⟩) q.heap.size (by simp)
  sequence := q.sequence + 1

/-- The heap without its root: the last entry takes the root's place, sinks to the bottom and
rises again as far as it must. -/
def dropRoot (heap : Array (Timer τ)) : Array (Timer τ) :=
  if h : 1 < heap.size then
    let moved := (heap.swap 0 (heap.size - 1)).pop
    have hm : 0 < moved.size := by
      simp only [moved, Array.size_pop, Array.size_swap]
      omega
    let sunk := siftToBottom moved 0 hm
    siftUp sunk.1 sunk.2 (by have := siftToBottom_bounds moved 0 hm; simp only [sunk]; omega)
  else #[]

/-- Take out the task that leaves next, if it is due at `now`. -/
def popDue (q : TimerQueue τ) (now : Instant) : Option (τ × TimerQueue τ) :=
  match q.heap[0]? with
  | none => none
  | some timer =>
    if timer.due ≤ now then some (timer.task, { q with heap := dropRoot q.heap }) else none

end TimerQueue

end LazyEffects
