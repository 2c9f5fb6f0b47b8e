import Dana.Transition
import Mathlib.Data.List.Basic
import Mathlib.Data.Nat.ModEq
import Mathlib.Logic.Function.Basic

/-! Circular buffers of a fixed capacity: what the slots hold in order, and how putting
in at the end and taking out at the front move it; and the bounded queues they stand for. -/
namespace RingBuffer
open Transition

variable {α : Type*} {N : ℕ} {slots : ℕ → α} {first last count : ℕ} {xs : List α}

/-- The slots from `first` on hold `xs`, and the next one to fill is `last`. -/
structure Holds (N : ℕ) (slots : ℕ → α) (first last count : ℕ) (xs : List α) : Prop where
  first_lt : first < N
  length_le : xs.length ≤ N
  count_eq : count = xs.length
  last_eq : last = (first+xs.length)%N
  slot : ∀ i (hi : i < xs.length), slots ((first+i)%N) = xs[i]

theorem Holds.nil (hf : first < N) : Holds N slots first first 0 [] :=
  ⟨hf, Nat.zero_le _, rfl, (Nat.mod_eq_of_lt hf).symm, fun _ hi => absurd hi (Nat.not_lt_zero _)⟩

theorem Holds.last_lt (h : Holds N slots first last count xs) : last < N := by
  rw [h.last_eq]
  exact Nat.mod_lt _ (Nat.zero_lt_of_lt h.first_lt)

/-- Different offsets from the front are different slots. -/
theorem slot_inj {i j : ℕ} (hi : i < N) (hj : j < N)
    (h : (first+i)%N = (first+j)%N) : i = j := by
  have hmod : i ≡ j [MOD N] := Nat.ModEq.add_left_cancel' first h
  rwa [Nat.ModEq, Nat.mod_eq_of_lt hi, Nat.mod_eq_of_lt hj] at hmod

theorem Holds.push (h : Holds N slots first last count xs) (hlt : xs.length < N) (x : α) :
    Holds N (Function.update slots last x) first ((last+1)%N) (count+1) (xs ++ [x]) := by
  refine ⟨h.first_lt, ?_, ?_, ?_, fun i hi => ?_⟩
  · rw [List.length_append, List.length_singleton]
    omega
  · rw [h.count_eq, List.length_append, List.length_singleton]
  · rw [h.last_eq, Nat.mod_add_mod, List.length_append, List.length_singleton, Nat.add_assoc]
  · rw [List.length_append, List.length_singleton] at hi
    by_cases hix : i < xs.length
    · rw [Function.update_of_ne, List.getElem_append_left hix, h.slot i hix]
      intro he
      rw [h.last_eq] at he
      have := slot_inj (by omega) hlt he
      omega
    · obtain rfl : i = xs.length := by omega
      rw [← h.last_eq, Function.update_self]
      simp

theorem Holds.front {x : α} (h : Holds N slots first last count (x :: xs)) :
    slots first = x := by
  have := h.slot 0 (Nat.zero_lt_succ _)
  rwa [Nat.add_zero, Nat.mod_eq_of_lt h.first_lt] at this

/-- What is left in the slot at the front does not matter. -/
theorem Holds.pop {x : α} (h : Holds N slots first last count (x :: xs)) (y : α) :
    Holds N (Function.update slots first y) ((first+1)%N) last (count-1) xs := by
  have hlen := h.length_le
  rw [List.length_cons] at hlen
  refine ⟨Nat.mod_lt _ (Nat.zero_lt_of_lt h.first_lt), by omega, ?_, ?_, fun i hi => ?_⟩
  · rw [h.count_eq, List.length_cons, Nat.add_sub_cancel]
  · rw [h.last_eq, List.length_cons, Nat.mod_add_mod]
    congr 1
    omega
  · have he : ((first+1)%N+i)%N = (first+(i+1))%N := by
      rw [Nat.mod_add_mod]
      congr 1
      omega
    rw [he, Function.update_of_ne, h.slot (i+1) (by simpa using hi), List.getElem_cons_succ]
    intro hf
    have h0 : (first+(i+1))%N = (first+0)%N := by
      rw [hf, Nat.add_zero, Nat.mod_eq_of_lt h.first_lt]
    have := slot_inj (by omega) (by omega) h0
    omega

/-- Every slot outside the `count` slots from `first` on holds `z`. -/
def Blank (N : ℕ) (slots : ℕ → α) (first count : ℕ) (z : α) : Prop :=
  ∀ j, j < N → (∀ i, i < count → j ≠ (first+i)%N) → slots j = z

theorem Blank.push {z : α} (hb : Blank N slots first count z)
    (h : Holds N slots first last count xs) (x : α) :
    Blank N (Function.update slots last x) first (count+1) z := by
  intro j hj hout
  have hlast : j ≠ last := by
    rw [h.last_eq, ← h.count_eq]
    exact hout count (Nat.lt_succ_self _)
  rw [Function.update_of_ne hlast]
  exact hb j hj fun i hi => hout i (Nat.lt_succ_of_lt hi)

/-- The slot that leaves the window is the one at its front. -/
theorem Blank.pop {z : α} (hb : Blank N slots first count z) (hf : first < N) :
    Blank N (Function.update slots first z) ((first+1)%N) (count-1) z := by
  intro j hj hout
  by_cases hjf : j = first
  · rw [hjf, Function.update_self]
  · rw [Function.update_of_ne hjf]
    refine hb j hj fun i hi => ?_
    cases i with
    | zero =>
      rw [Nat.add_zero, Nat.mod_eq_of_lt hf]
      exact hjf
    | succ i =>
      have hnext := hout i (by omega)
      rwa [Nat.mod_add_mod, Nat.add_assoc, Nat.add_comm 1 i] at hnext

/-- A queue of at most `N` elements, the oldest first. -/
structure Fifo (α : Type*) (N : ℕ) where
  items : List α
  length_le : items.length ≤ N

inductive FifoOp (α : Type*)
  | push (x : α) (taken : Bool)
  | pop (x : Option α)

def Fifo.empty : Fifo α N := ⟨[], Nat.zero_le _⟩

/-- A full queue takes nothing, and an empty one gives nothing. -/
inductive Fifo.Step : Fifo α N → FifoOp α → Fifo α N → Prop
  | push {q q' : Fifo α N} {x : α} (hq : q'.items = q.items ++ [x]) : Step q (.push x true) q'
  | full {q : Fifo α N} (x : α) (hq : q.items.length = N) : Step q (.push x false) q
  | pop {q q' : Fifo α N} {x : α} (hq : q.items = x :: q'.items) : Step q (.pop (some x)) q'
  | empty {q : Fifo α N} (hq : q.items = []) : Step q (.pop none) q

/-- A call that asks nothing of the queue leaves it as it is. -/
def Fifo.Answers (q : Fifo α N) : Option (FifoOp α) → Fifo α N → Prop
  | some op, q' => Step q op q'
  | none, q' => q' = q

def FifoOp.taken : FifoOp α → Option α
  | .push x true => some x
  | _ => none

def FifoOp.given : FifoOp α → Option α
  | .pop x => x
  | _ => none

/-- What a queue took in, in order, is what it gave out followed by what it holds. -/
theorem Fifo.run_order {q : Fifo α N} {ops : List (FifoOp α)}
    (hr : Run Fifo.Step (Fifo.empty (N := N)) ops q) :
    ops.filterMap FifoOp.taken = ops.filterMap FifoOp.given ++ q.items := by
  refine hr.inv_trace (I := fun ops q =>
    ops.filterMap FifoOp.taken = ops.filterMap FifoOp.given ++ q.items) ?_ rfl
  intro ops q op q' hs ih
  rw [List.filterMap_append, List.filterMap_append, ih]
  cases hs with
  | push hq => simp [List.filterMap_cons, FifoOp.taken, FifoOp.given, hq]
  | full x hq => simp [List.filterMap_cons, FifoOp.taken, FifoOp.given]
  | pop hq => simp [List.filterMap_cons, FifoOp.taken, FifoOp.given, hq]
  | empty hq => simp [List.filterMap_cons, FifoOp.taken, FifoOp.given, hq]

end RingBuffer
