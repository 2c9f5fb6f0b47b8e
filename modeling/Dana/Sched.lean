import Dana.LinkedRing
import Mathlib.Data.BitVec

/-! The run queue of kern/sched.c and the functions that dispatch from it. -/
namespace Dana
open LinkedRing

inductive KernReturn
  | success | invalidArgument | noSpace | notSupported | failure
  deriving DecidableEq, Repr

inductive ThreadState
  | runnable | running | blocked | terminated
  deriving DecidableEq, Repr

/-- `struct thread`; a `thread_t` is its address, 0 for `THREAD_NULL`. -/
structure Thread where
  threadId : BitVec 32
  refCount : BitVec 32
  task : BitVec 64
  taskNext : BitVec 64
  savedRsp : BitVec 64
  ithSelf : BitVec 64
  kernelStackPhys : BitVec 64
  kernelStackTop : BitVec 64
  state : ThreadState
  next : BitVec 64
  prev : BitVec 64
  runTime : BitVec 64

structure SchedRunqueue where
  head : BitVec 64
  tail : BitVec 64
  count : BitVec 32

/-- The run queue, the threads, and the two thread pointers of the CPU. -/
structure Sched where
  runqueue : SchedRunqueue
  threads : BitVec 64 → Thread
  cpuCurrentThread : BitVec 64
  cpuIdleThread : BitVec 64

def threadNull : BitVec 64 := 0

namespace Sched

def setNext (s : Sched) (t v : BitVec 64) : Sched :=
  { s with threads := Function.update s.threads t { s.threads t with next := v } }

def setPrev (s : Sched) (t v : BitVec 64) : Sched :=
  { s with threads := Function.update s.threads t { s.threads t with prev := v } }

def setState (s : Sched) (t : BitVec 64) (v : ThreadState) : Sched :=
  { s with threads := Function.update s.threads t { s.threads t with state := v } }

def setHead (s : Sched) (v : BitVec 64) : Sched :=
  { s with runqueue := { s.runqueue with head := v } }

def setTail (s : Sched) (v : BitVec 64) : Sched :=
  { s with runqueue := { s.runqueue with tail := v } }

def setCount (s : Sched) (v : BitVec 32) : Sched :=
  { s with runqueue := { s.runqueue with count := v } }

end Sched

def schedInit (s : Sched) : Sched :=
  { s with runqueue := { head := threadNull, tail := threadNull, count := 0 } }

def schedEnqueue (s : Sched) (thread : BitVec 64) : KernReturn × Sched :=
  if thread = threadNull then (.invalidArgument, s)
  else
    let s := s.setNext thread threadNull
    let s := s.setPrev thread s.runqueue.tail
    let s := if s.runqueue.tail ≠ threadNull then s.setNext s.runqueue.tail thread
      else s.setHead thread
    let s := s.setTail thread
    (.success, s.setCount (s.runqueue.count+1))

def schedDequeue (s : Sched) (thread : BitVec 64) : KernReturn × Sched :=
  if thread = threadNull then (.invalidArgument, s)
  else
    let s := if (s.threads thread).prev ≠ threadNull then
        s.setNext (s.threads thread).prev (s.threads thread).next
      else s.setHead (s.threads thread).next
    let s := if (s.threads thread).next ≠ threadNull then
        s.setPrev (s.threads thread).next (s.threads thread).prev
      else s.setTail (s.threads thread).prev
    let s := s.setNext thread threadNull
    let s := s.setPrev thread threadNull
    (.success, s.setCount (s.runqueue.count-1))

def schedChoose (s : Sched) : BitVec 64 :=
  if s.runqueue.head ≠ threadNull then s.runqueue.head
  else if s.cpuIdleThread ≠ threadNull then s.cpuIdleThread
  else threadNull

def schedSetState (s : Sched) (thread : BitVec 64) (state : ThreadState) : Sched :=
  if thread = threadNull then s
  else s.setState thread state

def schedBlock (s : Sched) (thread : BitVec 64) : Sched :=
  if thread = threadNull then s
  else (schedDequeue (schedSetState s thread .blocked) thread).2

def schedUnblock (s : Sched) (thread : BitVec 64) : Sched :=
  if thread = threadNull then s
  else (schedEnqueue (schedSetState s thread .runnable) thread).2

/-- The first step of `sched_run`: a current thread that runs is runnable again. -/
def schedRetire (s : Sched) (current : BitVec 64) : Sched :=
  if current ≠ threadNull then
    if (s.threads current).state = .running then schedSetState s current .runnable else s
  else s

/-- The state after `sched_run`, and the `thread_switch(current, next)` it ends with. -/
def schedRun (s : Sched) : Option (BitVec 64 × BitVec 64) × Sched :=
  let next := schedChoose s
  let current := s.cpuCurrentThread
  if next = threadNull ∨ next = current then (none, s)
  else
    let s := schedRetire s current
    let s := schedSetState s next .running
    let s := if (s.threads next).prev ≠ threadNull ∨ (s.threads next).next ≠ threadNull ∨
        s.runqueue.head = next then
        (schedEnqueue (schedDequeue s next).2 next).2
      else s
    (some (current, next), { s with cpuCurrentThread := next })

def threadYield (s : Sched) : Option (BitVec 64 × BitVec 64) × Sched :=
  let next := schedChoose s
  let current := s.cpuCurrentThread
  if next ≠ threadNull ∧ next ≠ current then schedRun s else (none, s)

namespace Sched

/-- The forward links, with the queue's head as the successor of `THREAD_NULL`. -/
def next (s : Sched) : BitVec 64 → BitVec 64 :=
  Function.update (fun t => (s.threads t).next) threadNull s.runqueue.head

/-- The backward links, with the queue's tail as the predecessor of `THREAD_NULL`. -/
def prev (s : Sched) : BitVec 64 → BitVec 64 :=
  Function.update (fun t => (s.threads t).prev) threadNull s.runqueue.tail

def state (s : Sched) (t : BitVec 64) : ThreadState := (s.threads t).state

/-- The run queue holds the threads `qs` in this order: through `THREAD_NULL` it is a
ring. -/
structure Queue (s : Sched) (qs : List (BitVec 64)) : Prop where
  ring : Ring s.next s.prev threadNull qs
  count : s.runqueue.count = BitVec.ofNat 32 qs.length

/-- What an operation on the links leaves alone. -/
structure SameThreads (s s' : Sched) : Prop where
  state : s'.state = s.state
  current : s'.cpuCurrentThread = s.cpuCurrentThread
  idle : s'.cpuIdleThread = s.cpuIdleThread

variable (s : Sched) (t v : BitVec 64)

@[simp] theorem setHead_next : (s.setHead v).next = Function.update s.next threadNull v := by
  simp [next, setHead]

@[simp] theorem setTail_prev : (s.setTail v).prev = Function.update s.prev threadNull v := by
  simp [prev, setTail]

@[simp] theorem setTail_next : (s.setTail v).next = s.next := rfl
@[simp] theorem setHead_prev : (s.setHead v).prev = s.prev := rfl
@[simp] theorem setCount_next (c : BitVec 32) : (s.setCount c).next = s.next := rfl
@[simp] theorem setCount_prev (c : BitVec 32) : (s.setCount c).prev = s.prev := rfl

theorem setNext_next (ht : t ≠ threadNull) :
    (s.setNext t v).next = Function.update s.next t v := by
  funext x
  simp only [next, setNext, Function.update_apply]
  grind

theorem setPrev_prev (ht : t ≠ threadNull) :
    (s.setPrev t v).prev = Function.update s.prev t v := by
  funext x
  simp only [prev, setPrev, Function.update_apply]
  grind

@[simp] theorem setNext_prev : (s.setNext t v).prev = s.prev := by
  funext x
  simp only [prev, setNext, Function.update_apply]
  grind

@[simp] theorem setPrev_next : (s.setPrev t v).next = s.next := by
  funext x
  simp only [next, setPrev, Function.update_apply]
  grind

theorem next_of_ne (ht : t ≠ threadNull) : s.next t = (s.threads t).next :=
  Function.update_of_ne ht ..

theorem prev_of_ne (ht : t ≠ threadNull) : s.prev t = (s.threads t).prev :=
  Function.update_of_ne ht ..

@[simp] theorem next_null : s.next threadNull = s.runqueue.head := Function.update_self ..
@[simp] theorem prev_null : s.prev threadNull = s.runqueue.tail := Function.update_self ..

/-- Linking forward from a thread, or from the queue's head for `THREAD_NULL`. -/
theorem linkNext_next :
    (if t ≠ threadNull then s.setNext t v else s.setHead v).next = Function.update s.next t v := by
  split_ifs with ht
  · exact s.setNext_next t v ht
  · rw [setHead_next, not_ne_iff.mp ht]

theorem linkPrev_prev :
    (if t ≠ threadNull then s.setPrev t v else s.setTail v).prev = Function.update s.prev t v := by
  split_ifs with ht
  · exact s.setPrev_prev t v ht
  · rw [setTail_prev, not_ne_iff.mp ht]

@[simp] theorem linkNext_prev :
    (if t ≠ threadNull then s.setNext t v else s.setHead v).prev = s.prev := by
  split_ifs <;> simp

@[simp] theorem linkPrev_next :
    (if t ≠ threadNull then s.setPrev t v else s.setTail v).next = s.next := by
  split_ifs <;> simp

theorem SameThreads.trans {s s' s'' : Sched} (h : SameThreads s s') (h' : SameThreads s' s'') :
    SameThreads s s'' :=
  ⟨h'.state.trans h.state, h'.current.trans h.current, h'.idle.trans h.idle⟩

theorem setNext_same : SameThreads s (s.setNext t v) := by
  refine ⟨funext fun x => ?_, rfl, rfl⟩
  simp only [state, setNext, Function.update_apply]
  split_ifs with hx
  · rw [hx]
  · rfl

theorem setPrev_same : SameThreads s (s.setPrev t v) := by
  refine ⟨funext fun x => ?_, rfl, rfl⟩
  simp only [state, setPrev, Function.update_apply]
  split_ifs with hx
  · rw [hx]
  · rfl

theorem linkNext_same :
    SameThreads s (if t ≠ threadNull then s.setNext t v else s.setHead v) := by
  split_ifs
  · exact setNext_same s t v
  · exact ⟨rfl, rfl, rfl⟩

theorem linkPrev_same :
    SameThreads s (if t ≠ threadNull then s.setPrev t v else s.setTail v) := by
  split_ifs
  · exact setPrev_same s t v
  · exact ⟨rfl, rfl, rfl⟩

@[simp] theorem linkNext_count :
    (if t ≠ threadNull then s.setNext t v else s.setHead v).runqueue.count = s.runqueue.count := by
  split_ifs <;> rfl

@[simp] theorem linkPrev_count :
    (if t ≠ threadNull then s.setPrev t v else s.setTail v).runqueue.count = s.runqueue.count := by
  split_ifs <;> rfl

end Sched

open Sched

/-- How `sched_enqueue` moves the links, its count, and what it leaves alone. -/
theorem schedEnqueue_spec (s : Sched) (t : BitVec 64) (ht : t ≠ threadNull) :
    (schedEnqueue s t).1 = .success ∧
    (schedEnqueue s t).2.next =
      Function.update (Function.update s.next t threadNull) s.runqueue.tail t ∧
    (schedEnqueue s t).2.prev =
      Function.update (Function.update s.prev t s.runqueue.tail) threadNull t ∧
    (schedEnqueue s t).2.runqueue.count = s.runqueue.count+1 ∧
    SameThreads s (schedEnqueue s t).2 := by
  obtain ⟨s1, hs1⟩ : ∃ s1, s1 = (s.setNext t threadNull).setPrev t s.runqueue.tail := ⟨_, rfl⟩
  obtain ⟨s2, hs2⟩ : ∃ s2, s2 = if s.runqueue.tail ≠ threadNull then
    s1.setNext s.runqueue.tail t else s1.setHead t := ⟨_, rfl⟩
  have he : schedEnqueue s t = (.success, (s2.setTail t).setCount (s2.runqueue.count+1)) := by
    rw [schedEnqueue, if_neg ht, hs2, hs1]
    rfl
  have hsame : SameThreads s s2 := by
    rw [hs2, hs1]
    exact ((setNext_same s t _).trans (setPrev_same _ t _)).trans (linkNext_same _ _ t)
  rw [he]
  refine ⟨rfl, ?_, ?_, ?_, hsame.trans ⟨rfl, rfl, rfl⟩⟩
  · rw [setCount_next, setTail_next, hs2, linkNext_next, hs1, setPrev_next, setNext_next s t _ ht]
  · rw [setCount_prev, setTail_prev, hs2, linkNext_prev, hs1, setPrev_prev _ t _ ht, setNext_prev]
  · rw [hs2, linkNext_count, hs1]
    rfl

/-- How `sched_dequeue` moves the links, its count, and what it leaves alone. -/
theorem schedDequeue_spec (s : Sched) (t : BitVec 64) (ht : t ≠ threadNull) :
    (schedDequeue s t).1 = .success ∧
    (schedDequeue s t).2.next =
      Function.update (Function.update s.next (s.prev t) (s.next t)) t threadNull ∧
    (schedDequeue s t).2.prev =
      Function.update (Function.update s.prev (s.next t) (s.prev t)) t threadNull ∧
    (schedDequeue s t).2.runqueue.count = s.runqueue.count-1 ∧
    SameThreads s (schedDequeue s t).2 := by
  obtain ⟨s1, hs1⟩ : ∃ s1, s1 = if (s.threads t).prev ≠ threadNull then
    s.setNext (s.threads t).prev (s.threads t).next else s.setHead (s.threads t).next := ⟨_, rfl⟩
  obtain ⟨s2, hs2⟩ : ∃ s2, s2 = if (s1.threads t).next ≠ threadNull then
    s1.setPrev (s1.threads t).next (s1.threads t).prev
    else s1.setTail (s1.threads t).prev := ⟨_, rfl⟩
  have hd : schedDequeue s t = (.success,
      ((s2.setNext t threadNull).setPrev t threadNull).setCount (s2.runqueue.count-1)) := by
    rw [schedDequeue, if_neg ht, hs2, hs1]
    rfl
  have hnext1 : s1.next = Function.update s.next (s.prev t) (s.next t) := by
    rw [hs1, linkNext_next, s.next_of_ne t ht, s.prev_of_ne t ht]
  have hprev1 : s1.prev = s.prev := by rw [hs1, linkNext_prev]
  -- if t were its own predecessor, the first write would store what was there
  have hnt : (s1.threads t).next = s.next t := by
    rw [← s1.next_of_ne t ht, hnext1, Function.update_apply]
    split_ifs with h
    · rfl
    · rfl
  have hpt : (s1.threads t).prev = s.prev t := by rw [← s1.prev_of_ne t ht, hprev1]
  have hsame : SameThreads s s2 := by
    have h1 : SameThreads s s1 := by
      rw [hs1]
      exact linkNext_same ..
    have h2 : SameThreads s1 s2 := by
      rw [hs2]
      exact linkPrev_same ..
    exact h1.trans h2
  rw [hd]
  refine ⟨rfl, ?_, ?_, ?_, ?_⟩
  · rw [setCount_next, setPrev_next, setNext_next _ t _ ht, hs2, linkPrev_next, hnext1]
  · rw [setCount_prev, setPrev_prev _ t _ ht, setNext_prev, hs2, linkPrev_prev, hprev1, hnt, hpt]
  · rw [hs2, linkPrev_count, hs1, linkNext_count]
    rfl
  · exact hsame.trans ((setNext_same _ t _).trans ((setPrev_same _ t _).trans ⟨rfl, rfl, rfl⟩))

namespace Sched
variable {s s' : Sched} {t : BitVec 64} {qs xs ys : List (BitVec 64)}

theorem Queue.ne_null (hq : s.Queue qs) (ht : t ∈ qs) : t ≠ threadNull := by
  rintro rfl
  exact (List.nodup_cons.mp hq.ring.nodup).1 ht

theorem Queue.head_eq (hq : s.Queue qs) : s.runqueue.head = (qs ++ [threadNull]).head (by simp) := by
  rw [← next_null, hq.ring.next_sentinel]

/-- The queue depends on its links and its count only. -/
theorem Queue.congr (hq : s.Queue qs) (hn : s'.next = s.next) (hp : s'.prev = s.prev)
    (hc : s'.runqueue.count = s.runqueue.count) : s'.Queue qs :=
  ⟨by rw [hn, hp]; exact hq.ring, by rw [hc]; exact hq.count⟩

theorem Queue.nil : (schedInit s).Queue [] := by
  refine ⟨ring_nil.mpr ⟨?_, ?_⟩, rfl⟩
  · rw [next_null]
    rfl
  · rw [prev_null]
    rfl

/-- `sched_enqueue` appends. -/
theorem Queue.enqueue (hq : s.Queue qs) (ht : t ≠ threadNull) (hnew : t ∉ qs) :
    (schedEnqueue s t).2.Queue (qs ++ [t]) := by
  obtain ⟨_, hn, hp, hc, _⟩ := schedEnqueue_spec s t ht
  refine ⟨?_, ?_⟩
  · rw [hn, hp]
    have hr : Ring s.next s.prev threadNull (qs ++ []) := by
      rw [List.append_nil]
      exact hq.ring
    refine hr.insert ?_ ?_ rfl
    · simp [ht, hnew]
    · rw [← prev_null, hq.ring.prev_sentinel]
  · rw [hc, hq.count, List.length_append, List.length_singleton, BitVec.ofNat_add]
    rfl

/-- `sched_dequeue` removes its argument, wherever it stands. -/
theorem Queue.dequeue (hq : s.Queue (xs ++ t :: ys)) :
    (schedDequeue s t).2.Queue (xs ++ ys) := by
  have ht : t ≠ threadNull := hq.ne_null (by simp)
  obtain ⟨_, hn, hp, hc, _⟩ := schedDequeue_spec s t ht
  have hr := hq.ring.remove hq.ring.prev_eq.symm hq.ring.next_eq.symm
  have hout : t ∉ threadNull :: (xs ++ ys) := by
    have hnd := hq.ring.nodup
    rw [List.nodup_cons, List.nodup_middle, List.nodup_cons] at hnd
    simp [ht, hnd.2.1]
  refine ⟨hr.congr ?_ ?_, ?_⟩
  · intro x hx
    rw [hn, Function.update_of_ne]
    rintro rfl
    exact hout hx
  · intro x hx
    rw [hp, Function.update_of_ne]
    rintro rfl
    exact hout hx
  · rw [hc, hq.count]
    have hlen : (xs ++ t :: ys).length = (xs ++ ys).length+1 := by simp; omega
    rw [hlen, BitVec.ofNat_add]
    exact BitVec.add_sub_cancel _ _

end Sched

end Dana
