import LazyEffects.Proofs.Fates

/-!
# Threads beside each other

The machine of a session lets a worker work while someone waits for it, and lets the one who waits
go on when the worker is done with its task. In a process the two are threads: as soon as the cell
is filled the one who waits may go on, whatever the thread of the worker is doing then.

* `Threads.Step`: a move of one thread or of the other;
* `Machine.parts`: what is done by the thread of a worker, and what by the one who waits for it;
* `Machine.isFilled_run`: a cell that is filled remains so.
-/

namespace LazyEffects

variable {K : Codes} {M : Type}

/-- It is the thread of the worker `i` that waits. -/
def Activity.isOfWorker (i : WorkerId) : Activity K M → Bool
  | working j _ | stopping j _ => j = i
  | _ => false

/-- What one thread does: the activities that wait, the topmost first, and what is being done. -/
structure Thread (K : Codes) (M : Type) where
  control : List (Activity K M)
  focus : Focus K M

namespace Thread

/-- The thread, as the only one in the world `w`. -/
def alone (t : Thread K M) (w : World K M) : Machine K M := ⟨w, t.control, t.focus⟩

/-- The thread has come to its end. -/
def Over (t : Thread K M) : Prop := t.control = [] ∧ ∃ a, t.focus = .answer a

end Thread

/-- The thread of a worker and another one, in the same world. -/
structure Threads (K : Codes) (M : Type) where
  world : World K M
  worker : Thread K M
  caller : Thread K M

namespace Threads

variable {client : Client K M} {i : WorkerId} {s s' s'' : Threads K M}

/-- The caller does not wait for the worker, or what it waits for has come: something is in the
cell, or the worker accepts nothing any more. -/
def Free (i : WorkerId) (s : Threads K M) : Prop :=
  ∀ wanted, s.caller.focus = .work i wanted →
    s.world.isFilled wanted = true ∨ ((s.world.worker? i).filter (·.accepts)).isNone = true

/-- A move of one of the two threads. -/
inductive Step (client : Client K M) (i : WorkerId) : Threads K M → Threads K M → Prop where
  | worker {s : Threads K M} {w : World K M} {control : List (Activity K M)} {focus : Focus K M} :
    (s.worker.alone s.world).step client = some ⟨w, control, focus⟩ →
    Step client i s ⟨w, ⟨control, focus⟩, s.caller⟩
  /-- The thread of the worker has found nothing to do, and looks again. -/
  | again {s : Threads K M} {a : Except Payload (Reply K)} : s.worker = ⟨[], .answer a⟩ →
    Step client i s ⟨s.world, ⟨[], .work i none⟩, s.caller⟩
  | caller {s : Threads K M} {w : World K M} {control : List (Activity K M)} {focus : Focus K M} :
    s.Free i → (s.caller.alone s.world).step client = some ⟨w, control, focus⟩ →
    Step client i s ⟨w, s.worker, ⟨control, focus⟩⟩

/-- Any number of moves, in any order. -/
abbrev Steps (client : Client K M) (i : WorkerId) : Threads K M → Threads K M → Prop :=
  Relation.ReflTransGen (Step client i)

/-- The caller can get to its end. -/
def Ends (client : Client K M) (i : WorkerId) (s : Threads K M) : Prop :=
  ∃ s', Steps client i s s' ∧ s'.caller.Over

namespace Ends

theorem head (h : Step client i s s') (h' : s'.Ends client i) : s.Ends client i :=
  let ⟨s'', hs, hover⟩ := h'
  ⟨s'', .head h hs, hover⟩

/-- A caller who does not wait for the worker makes the next move. -/
theorem of_caller {w w' : World K M} {t : Thread K M} {control control' : List (Activity K M)}
    {focus focus' : Focus K M}
    (hs : Machine.step client ⟨w, control, focus⟩ = some ⟨w', control', focus'⟩)
    (h : Ends client i ⟨w', t, ⟨control', focus'⟩⟩)
    (hf : ∀ wanted, focus ≠ .work i wanted) : Ends client i ⟨w, t, ⟨control, focus⟩⟩ :=
  h.head (.caller (fun wanted hw => absurd hw (hf wanted)) hs)

end Ends

end Threads

namespace Machine

variable {client : Client K M} {m m' : Machine K M} {c : CellId}

/-- What is done by the thread of the worker `i`, and what by the one who waits for it. If nobody
does, the thread of the worker has nothing to do. -/
def parts (i : WorkerId) (m : Machine K M) : Threads K M :=
  let above := m.control.takeWhile (!·.isOfWorker i)
  match m.control.dropWhile (!·.isOfWorker i) with
  | .working _ wanted :: below =>
    ⟨m.world, ⟨above ++ [.working i none], m.focus⟩, ⟨below, .work i wanted⟩⟩
  | .stopping _ wanted :: below =>
    ⟨m.world, ⟨above ++ [.stopping i none], m.focus⟩, ⟨below, .work i wanted⟩⟩
  | _ => ⟨m.world, ⟨[], .work i none⟩, ⟨m.control, m.focus⟩⟩

/-- What is left in a cell fills it. -/
theorem fills_ne_vacant : m.fills c ≠ some .vacant := by
  rw [fills]
  split <;> (try split) <;> simp

/-- Nothing makes a cell vacant again. -/
theorem isFilled_step (hs : m.step client = some m') (h : m.world.isFilled (some c) = true) :
    m'.world.isFilled (some c) = true := by
  have hin : c.index < m.world.cells.size := by
    by_contra hout
    simp [World.isFilled, World.cell, Array.getElem?_eq_none (Nat.le_of_not_lt hout)] at h
  simp only [World.isFilled, (step_frames hs).cell c hin]
  cases hf : m.fills c with
  | none => simpa [World.isFilled] using h
  | some x =>
    cases x with
    | vacant => exact absurd hf fills_ne_vacant
    | signalled | settled => rfl

variable (client) in
theorem isFilled_run (h : m.world.isFilled (some c) = true) (n : ℕ) :
    (m.run client n).world.isFilled (some c) = true := by
  induction n with
  | zero => exact h
  | succ n ih =>
    rw [run_succ]
    cases hs : (m.run client n).step client with
    | none => exact ih
    | some m' => exact isFilled_step hs ih

end Machine

end LazyEffects
