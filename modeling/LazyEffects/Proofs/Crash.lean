import LazyEffects.Proofs.Fates
import Mathlib

/-!
# When the thread of a worker dies

A panic that reaches the thread of a worker destroys all that waits at the worker, and those who
wait for the runs among it never hear of them.

* `Machine.silenced_iff_panicsOn`: of the runs that wait at a worker, exactly those are silenced
  that wait there at the moment at which a panic reaches its thread.
-/

namespace LazyEffects

variable {K : Codes} {M : Type}

namespace Machine

variable {client : Client K M} {m m' : Machine K M}

/-- A panic has reached the thread of the worker `i`. -/
def PanicsOn (m : Machine K M) (i : WorkerId) : Prop :=
  (∃ p, m.focus = .answer (.error p)) ∧ ∃ wanted control,
    m.control = .working i wanted :: control ∨ m.control = .stopping i wanted :: control

/-- The thread dies, and all that waits at the worker is gone. -/
theorem lost_of_panicsOn {i : WorkerId} (h : m.PanicsOn i) :
    m.lost = (m.world.contents (.worker i)).map Task.ticket := by
  obtain ⟨⟨p, hf⟩, wanted, control, hc | hc⟩ := h
  · rw [lost, hf, hc]
  · rw [lost, hf, hc]

/-- What waits at a worker may be lost with the thread of the worker only. -/
theorem panicsOn_of_lost {i : WorkerId} {key : Ticket K → Bool}
    (hw : ∀ h ≠ .worker i, (m.world.contents h).countP (fun t => key t.ticket) = 0)
    (hi : m.inHand.countP key = 0) (hl : m.lost.countP key ≠ 0) : m.PanicsOn i := by
  obtain ⟨w, control, focus⟩ := m
  have hworker (j : WorkerId)
      (hj : ((w.contents (.worker j)).map Task.ticket).countP key ≠ 0) : j = i := by
    by_contra hne
    rw [List.countP_map] at hj
    exact hj (hw (.worker j) (by simpa using hne))
  rw [inHand, List.countP_append, Nat.add_eq_zero_iff] at hi
  obtain ⟨hfocus, hcontrol⟩ := hi
  -- Whatever else a panic may destroy is in hand or waits at another host.
  rw [lost] at hl
  split at hl
  · rename_i f p t hf
    rw [hf] at hfocus
    exact absurd hfocus hl
  · rename_i host delay t hf
    rw [hf] at hfocus
    split at hl
    · exact absurd hfocus hl
    · exact absurd rfl hl
  · rename_i p rest control _ hc
    subst hc
    rw [List.flatMap_cons, List.countP_append, Nat.add_eq_zero_iff] at hcontrol
    exact absurd hcontrol.1 hl
  · rename_i p l control _ hc
    have hrelease := (w.release_handsOut l).self.countP_eq (fun t => key t.ticket)
    rw [List.countP_append, hw (.eventLoop l) (by simp)] at hrelease
    rw [List.countP_map] at hl
    exact absurd (Nat.add_eq_zero_iff.1 hrelease).2 hl
  · rename_i p j wanted control hf hc
    obtain rfl := hworker j hl
    exact ⟨⟨p, hf⟩, wanted, control, .inl hc⟩
  · rename_i p j wanted control hf hc
    obtain rfl := hworker j hl
    exact ⟨⟨p, hf⟩, wanted, control, .inr hc⟩
  · exact absurd rfl hl

/-- A run that waits at a host is in no other condition. -/
theorem alone_of_mem {n : ℕ} {host : Host} {f : Fiber K} (hr : m.world.runs = 0)
    (hm : m.inHand = []) (hw : m.world.hosts = ∅)
    (h : .resume f ∈ (m.run client n).world.contents host) :
    (m.account client n f.run.id).completed = 0 ∧ (m.account client n f.run.id).failed = 0 ∧
      (m.account client n f.run.id).lost = 0 ∧
      (m.run client n).inHand.countP (·.isRun f.run.id) = 0 ∧
      ∀ h ≠ host,
        ((m.run client n).world.contents h).countP (·.ticket.isRun f.run.id) = 0 := by
  have hpos : 0 < ((m.run client n).world.contents host).countP (·.ticket.isRun f.run.id) :=
    List.countP_pos_iff.2 ⟨_, h, by simp [Ticket.isRun]⟩
  have hhost : host ∈ (m.run client n).world.hosts := by
    by_contra hn
    rw [World.contents_of_notMem hn] at h
    cases h
  have hwaiting := World.waiting_eq_add (Finset.Subset.refl (m.run client n).world.hosts)
    (·.ticket.isRun f.run.id) host hhost
  -- The conditions of a run add up to one at most, and it waits.
  have htotal := account_total client m hr hm hw n f.run.id
  have hone : (m.account client n f.run.id).total ≤ 1 := by
    rw [htotal]
    split <;> omega
  simp only [Account.total, account, Finset.sum_range_succ] at hone ⊢
  refine ⟨by omega, by omega, by omega, ?_, fun h hne => ?_⟩
  · rw [inHand_countP]
    omega
  · by_cases hh : h ∈ (m.run client n).world.hosts
    · have hle := Finset.single_le_sum (fun _ _ => Nat.zero_le _)
        (Finset.mem_erase.2 ⟨hne, hh⟩)
        (f := fun h => ((m.run client n).world.contents h).countP (·.ticket.isRun f.run.id))
      omega
    · rw [World.contents_of_notMem hh, List.countP_nil]

/-- The thread takes all that waits at its worker with it, and nothing else. -/
theorem run_succ_of_panicsOn {n : ℕ} {i : WorkerId} (h : (m.run client n).PanicsOn i) :
    (m.run client (n + 1)).world.contents (.worker i) = [] ∧
      ∀ h ≠ .worker i,
        (m.run client (n + 1)).world.contents h = (m.run client n).world.contents h := by
  have hstep : (m.run client (n + 1)).world = crash (m.run client n).world i := by
    rw [run_succ]
    obtain ⟨⟨p, hf⟩, wanted, control, hc | hc⟩ := h
    · rw [step, hf, hc]
      rfl
    · rw [step, hf, hc]
      rfl
  have hcrash := crash_handsOut (m.run client n).world i
  rw [hstep]
  refine ⟨?_, hcrash.others⟩
  have hlength := hcrash.self.length_eq
  rw [List.length_append] at hlength
  exact List.eq_nil_of_length_eq_zero (by omega)

/-- A run that is lost has not been reported and never will be. -/
theorem never_reported (hr : m.world.runs = 0) (hm : m.inHand = []) (hw : m.world.hosts = ∅)
    {n : ℕ} {r : RunId} (h : 0 < (m.account client n r).lost) (k : ℕ) :
    (m.account client k r).completed = 0 ∧ (m.account client k r).failed = 0 := by
  -- Whatever has been reported by then, and all that has been lost by then, is still counted later.
  have htotal := account_total client m hr hm hw (max n k) r
  have hlost : (m.account client n r).lost ≤ (m.account client (max n k) r).lost :=
    Finset.sum_le_sum_of_subset (Finset.range_mono (le_max_left n k))
  have hcompleted : (m.account client k r).completed ≤ (m.account client (max n k) r).completed :=
    Finset.sum_le_sum_of_subset (Finset.range_mono (by omega))
  have hfailed : (m.account client k r).failed ≤ (m.account client (max n k) r).failed :=
    Finset.sum_le_sum_of_subset (Finset.range_mono (by omega))
  rw [Account.total] at htotal
  split at htotal <;> omega

/-- A run that waits at a worker is silenced in the next move if and only if a panic has reached the
thread of that worker. It is then reported neither before nor after, and so it is with all that
waits there, in the queue and in the channel; the other hosts keep what they have. -/
theorem silenced_iff_panicsOn (client : Client K M) (clock : Clock) (memory : M)
    (main : Script K M Ending) (n : ℕ) (i : WorkerId) (f : Fiber K)
    (h : .resume f ∈
      ((initial (World.initial clock memory) main).run client n).world.contents (.worker i)) :
    let s := initial (World.initial clock memory) main
    ((s.account client (n + 1) f.run.id).lost = 1 ↔ (s.run client n).PanicsOn i) ∧
    ((s.run client n).PanicsOn i →
      (∀ k, (s.account client k f.run.id).completed = 0 ∧
        (s.account client k f.run.id).failed = 0) ∧
      (s.run client (n + 1)).world.contents (.worker i) = [] ∧
      ∀ h ≠ .worker i,
        (s.run client (n + 1)).world.contents h = (s.run client n).world.contents h) := by
  intro s
  obtain ⟨-, -, hlost, hhand, hothers⟩ := alone_of_mem (m := s) rfl rfl rfl h
  have hsucc : (s.account client (n + 1) f.run.id).lost =
      (s.run client n).lost.countP (·.isRun f.run.id) := by
    simp only [account] at hlost ⊢
    rw [Finset.sum_range_succ, hlost, Nat.zero_add]
  have hpos (hp : (s.run client n).PanicsOn i) : 0 < (s.account client (n + 1) f.run.id).lost := by
    rw [hsucc, lost_of_panicsOn hp]
    exact List.countP_pos_iff.2 ⟨_, List.mem_map_of_mem h, by simp [Ticket.isRun]⟩
  refine ⟨⟨fun hone => ?_, fun hp => ?_⟩, fun hp => ⟨never_reported rfl rfl rfl (hpos hp),
    run_succ_of_panicsOn hp⟩⟩
  · have hne : (s.run client n).lost.countP (·.isRun f.run.id) ≠ 0 := by omega
    exact panicsOn_of_lost hothers hhand hne
  · have htotal := account_total client s rfl rfl rfl (n + 1) f.run.id
    have := hpos hp
    rw [Account.total] at htotal
    split at htotal <;> omega

end Machine

/-! ### A run among others -/

/-- Codes without values to speak of. A transform returns, or panics with a payload. -/
def Plain : Codes where
  signature :=
    { Ty := Unit, typeName := fun _ => "unit", Value := Unit, typeOf := fun _ => (), Thunk := Unit,
      Transform := Option Payload, Continuation := Empty }
  Task := Unit
  Completion := Unit
  Handler := Unit

namespace Plain

def client : Client Plain Unit where
  thunk _ := .done (.returned ())
  transform f _ := .done (f.elim (.returned ()) .panicked)
  continuation k _ := k.elim
  task _ := .done (.ok ())
  discard _ := .done (.ok ())
  completion _ _ _ := .done (.ok ())
  handler _ _ := .done (.ok ())
  observe _ memory := memory

/-- A run with nothing wrong about it waits at a worker, and then another one, whose panics are not
caught, panics there. -/
def main : Script Plain Unit Ending :=
  .ask .openWorker fun _ =>
    .ask (.start ⟨.worker ⟨0⟩, ⟨1, .ofMillis 3600000, true⟩, .log⟩ ⟨.map (.sync ()) none, ()⟩ ())
      fun _ =>
        .ask (.blockOnWorker ⟨0⟩ ⟨1, .zero, false⟩
          ⟨.map (.sync ()) (some (.literal "boom")), ()⟩) fun _ => .done (.ok ())

/-- The run with nothing wrong about it, after its first slice. -/
def waiting : Fiber Plain :=
  ⟨⟨⟨0⟩, (), .callbacks () .log, .worker ⟨0⟩, ⟨1, .ofMillis 3600000, true⟩⟩,
    ⟨some (.sync ()), ⟨[.map none], 1, rfl⟩, ⟨1, 1, 1⟩⟩⟩

theorem waiting_silenced :
    let s := Machine.initial (World.initial .still ()) main
    .resume waiting ∈ (s.run client 26).world.contents (.worker ⟨0⟩) ∧
      ∀ k, (s.account client k ⟨0⟩).completed = 0 ∧ (s.account client k ⟨0⟩).failed = 0 := by
  intro s
  have hcontents : (s.run client 26).world.contents (.worker ⟨0⟩) = [.resume waiting] := by cbv
  have hmem : .resume waiting ∈ (s.run client 26).world.contents (.worker ⟨0⟩) := by
    rw [hcontents]
    exact List.mem_singleton_self _
  have hpanics : (s.run client 26).PanicsOn ⟨0⟩ := by
    refine ⟨⟨.literal "boom", ?_⟩, some ⟨0⟩, (s.run client 26).control.tail, .inl ?_⟩
    · cbv
    · cbv
  exact ⟨hmem, ((Machine.silenced_iff_panicsOn client .still () main 26 ⟨0⟩ waiting hmem).2
    hpanics).1⟩

end Plain

end LazyEffects
