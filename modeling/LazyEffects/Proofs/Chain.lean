import LazyEffects.Demo
import LazyEffects.Proofs.NodeByNode

/-!
# The chain that counts

The chain of `d` continuations is gone through in two passes. On the way down every node leaves a
frame behind, and the way up runs a leaf for each continuation, which did not exist before. The root
and the nodes of both ways are `2 * d + 2`, and no more than `d + 1` frames are ever pending.

None of the functions does anything but return, so a slice is a script that does nothing but wait
for the reports of its nodes (`Script.idle`).

* `Demo.Chain.At`: the node that comes after so many others, with what is pending there;
* `Demo.Chain.At.pass_node`: from node to node;
* `Demo.Chain.At.descend_node`: a slice is suspended at the node to which its budget takes it, or the
  count is complete.
-/

namespace LazyEffects

/-- A script that hands `n` events to a client that makes nothing of them, and goes on with `s`. -/
def Script.idle {K : Codes} {M α : Type} : (n : ℕ) → Script K M α → Script K M α
  | 0, s => s
  | n + 1, s => .update id fun _ => idle n s

namespace Demo

namespace Chain

open Trampoline

/-- The continuation that adds one. -/
def incrementing : codes.signature.Continuation := ⟨.count, .count, .increment⟩

/-- The transform on top. -/
def showing : codes.signature.Transform := ⟨.count, .text, .showCount⟩

/-- The leaf for a number. -/
def leaf (n : ℕ) : Effect codes.signature := .sync ⟨.count, .count n⟩

/-- The last `k` continuations above the first leaf. -/
def below : (k : ℕ) → Effect codes.signature
  | 0 => leaf 0
  | k + 1 => .flatMap (below k) incrementing

/-- The frames of the transform and of `p` continuations. -/
def pending : (p : ℕ) → Frames codes.signature
  | 0 => Frames.empty.push (.map showing)
  | p + 1 => (pending p).push (.flatMap incrementing)

/-- What the chain of `d` continuations ends with. -/
def counted (d : ℕ) : codes.signature.Value := ⟨.text, s!"n: {d}"⟩

theorem height_pending (p : ℕ) : (pending p).height = p + 1 := by
  induction p with
  | zero => rfl
  | succ p ih => rw [pending, Frames.height_push, ih]

theorem root_incremented {e : Typed typedCodes Ty.count} {k : ℕ} (he : e.root = below k) (d : ℕ) :
    (incremented e d).root = below (k + d) := by
  induction d generalizing e k with
  | zero => exact he
  | succ d ih =>
    have hflatMap : (e.flatMap .increment).root = below (k + 1) :=
      congrArg (Effect.flatMap · incrementing) he
    rw [incremented, ih hflatMap, Nat.add_right_comm, Nat.add_assoc]

theorem root_counting (d : ℕ) : (counting d).root = .map (below d) showing := by
  have hroot : (incremented (.sync (.count 0)) d).root = below d := by
    rw [root_incremented (k := 0) rfl, Nat.zero_add]
  exact congrArg (Effect.map · showing) hroot

/-- The node of the chain of `d` continuations that comes after `j` others. -/
inductive At (d : ℕ) : (j : ℕ) → Effect codes.signature → Frames codes.signature → Prop where
  | root : At d 0 (counting d).root .empty
  /-- On the way down there are `k` continuations left. -/
  | down {k p : ℕ} : k + p = d → At d (p + 1) (below k) (pending p)
  /-- On the way up there are `p` frames left. -/
  | up {i p : ℕ} : i + p = d → At d (d + 1 + i) (leaf i) (pending p)

variable {catching : Bool} {d j : ℕ} {e : Effect codes.signature} {stack : Frames codes.signature}

namespace At

/-- From a leaf to the next, or to the end of the count. -/
theorem pass_leaf (catching : Bool) {i p : ℕ} (hip : i + p = d) :
    (∃ e' rest, At d (d + 1 + i + 1) e' rest ∧
      pass client.functions catching (leaf i) (pending p) = pure (.next e' rest)) ∨
    d + 1 + i = 2 * d + 1 ∧ pass client.functions catching (leaf i) (pending p) =
      pure (.answer (.completed (counted d)) .empty) := by
  cases p with
  | zero =>
    obtain rfl : i = d := by omega
    exact .inr ⟨by omega, rfl⟩
  | succ p =>
    have hnext : At d (d + 1 + (i + 1)) (leaf (i + 1)) (pending p) := .up (by omega)
    exact .inl ⟨leaf (i + 1), pending p, hnext, rfl⟩

/-- From a node to the next, or to the end of the count. -/
theorem pass_node (catching : Bool) (h : At d j e stack) :
    (∃ e' rest, At d (j + 1) e' rest ∧
      pass client.functions catching e stack = pure (.next e' rest)) ∨
    j = 2 * d + 1 ∧ pass client.functions catching e stack =
      pure (.answer (.completed (counted d)) .empty) := by
  cases h with
  | root =>
    rw [root_counting]
    exact .inl ⟨below d, pending 0, .down (Nat.add_zero d), rfl⟩
  | @down k p hkp =>
    cases k with
    | zero =>
      -- The first leaf is the last node of the way down.
      obtain rfl : p = d := by omega
      exact pass_leaf catching (Nat.zero_add p)
    | succ k => exact .inl ⟨below k, pending (p + 1), .down (by omega), rfl⟩
  | up hip => exact pass_leaf catching hip

theorem lt (h : At d j e stack) : j < 2 * d + 2 := by
  cases h with
  | root | down | up => omega

/-- The counters before a node. -/
def counters (d j k : ℕ) : Stats := ⟨j, k, min j (d + 1)⟩

/-- A node is a step, and on the way down it leaves a frame. -/
theorem counters_after (h : At d j e stack) (k : ℕ) :
    (counters d j k).after [.visit e stack.height] = counters d (j + 1) k := by
  cases h with
  | root =>
    rw [root_counting]
    simp [counters, Stats.after, Stats.visit, Stats.reach]
  | @down k' p hkp =>
    rw [height_pending]
    cases k' with
    | zero => simp [below, leaf, counters, Stats.after, Stats.visit]; omega
    | succ k' => simp [below, counters, Stats.after, Stats.visit, Stats.reach]; omega
  | @up i p hip => simp [leaf, counters, Stats.after, Stats.visit]; omega

variable (catching) in
/-- A slice from a node of the chain. -/
theorem descend_node (h : At d j e stack) (n k : ℕ) :
    (j + n < 2 * d + 2 ∧ ∃ e' rest, At d (j + n) e' rest ∧
      descend client.functions catching n e stack (counters d j k) =
        .idle (n + 1) (.done (.suspended, ⟨some e', rest, counters d (j + n) (k + 1)⟩))) ∨
    2 * d + 2 ≤ j + n ∧ descend client.functions catching n e stack (counters d j k) =
      .idle (2 * d + 2 - j) (.done
        (.completed (counted d), ⟨none, .empty, counters d (2 * d + 2) k⟩)) := by
  induction n generalizing j e stack with
  | zero => exact .inl ⟨h.lt, e, stack, h, rfl⟩
  | succ n ih =>
    rw [descend_succ, h.counters_after]
    rcases h.pass_node catching with ⟨e', rest, hnext, hpass⟩ | ⟨rfl, hpass⟩
    · rw [hpass]
      rcases ih hnext with ⟨hlt, e'', rest', hat, hrun⟩ | ⟨hle, hrun⟩
      · rw [Nat.add_right_comm] at hlt hat hrun
        refine .inl ⟨hlt, e'', rest', hat, ?_⟩
        exact congrArg (fun s => Script.update id fun _ => s) hrun
      · have hlt := h.lt
        have hleft : 2 * d + 2 - j = 2 * d + 2 - (j + 1) + 1 := by omega
        refine .inr ⟨by omega, ?_⟩
        rw [hleft]
        exact congrArg (fun s => Script.update id fun _ => s) hrun
    · have hleft : 2 * d + 2 - (2 * d + 1) = 1 := by omega
      rw [hpass, hleft]
      exact .inr ⟨by omega, rfl⟩

end At

end Chain

end Demo

end LazyEffects
