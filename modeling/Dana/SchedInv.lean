import Dana.Sched

/-! What the dispatcher keeps: the run queue holds the created threads that can run,
and the only running one is the current thread. -/
namespace Dana
open LinkedRing Sched

/-- A thread that the dispatcher may pick. -/
def ThreadState.CanRun (st : ThreadState) : Prop := st = .runnable ∨ st = .running

structure SchedInv (s : Sched) (created qs : List (BitVec 64)) : Prop where
  queue : s.Queue qs
  mem_iff : ∀ t, t ∈ qs ↔ t ∈ created ∧ (s.state t).CanRun
  running : ∀ t ∈ created, s.state t = .running → t = s.cpuCurrentThread
  idle : s.cpuIdleThread = threadNull ∨ s.cpuIdleThread ∈ qs

section State
variable (s : Sched) (t : BitVec 64) (st : ThreadState)

theorem setState_state : (s.setState t st).state = Function.update s.state t st := by
  funext x
  simp only [Sched.state, Sched.setState, Function.update_apply]
  split_ifs <;> rfl

@[simp] theorem setState_next : (s.setState t st).next = s.next := by
  funext x
  simp only [Sched.next, Sched.setState, Function.update_apply]
  grind

@[simp] theorem setState_prev : (s.setState t st).prev = s.prev := by
  funext x
  simp only [Sched.prev, Sched.setState, Function.update_apply]
  grind

theorem schedSetState_of_ne (ht : t ≠ threadNull) : schedSetState s t st = s.setState t st :=
  if_neg ht

end State

theorem Sched.Queue.setState {s : Sched} {qs : List (BitVec 64)} (hq : s.Queue qs)
    (t : BitVec 64) (st : ThreadState) : (s.setState t st).Queue qs :=
  hq.congr (setState_next s t st) (setState_prev s t st) rfl

variable {s s' : Sched} {created qs : List (BitVec 64)}

/-- `sched_choose` takes the first of the queue. -/
theorem Sched.Queue.choose {q : BitVec 64} (hq : s.Queue (q :: qs)) : schedChoose s = q := by
  have h0 : s.runqueue.head = q := hq.head_eq
  have hq0 : q ≠ threadNull := hq.ne_null (by simp)
  simp [schedChoose, h0, hq0]

/-- Only an empty queue leaves nothing to run. -/
theorem schedChoose_eq (hs : SchedInv s created qs) :
    schedChoose s = (qs ++ [threadNull]).head (by simp) := by
  have hhead := hs.queue.head_eq
  cases qs with
  | nil =>
    have hidle : s.cpuIdleThread = threadNull := by
      rcases hs.idle with h | h
      · exact h
      · simp at h
    have h0 : s.runqueue.head = threadNull := hhead
    simp [schedChoose, h0, hidle]
  | cons q rest => exact hs.queue.choose

theorem schedBlock_spec (s : Sched) {t : BitVec 64} (ht : t ≠ threadNull) :
    (schedBlock s t).state = Function.update s.state t .blocked ∧
    (schedBlock s t).cpuCurrentThread = s.cpuCurrentThread ∧
    (schedBlock s t).cpuIdleThread = s.cpuIdleThread := by
  obtain ⟨_, _, _, _, hsame⟩ := schedDequeue_spec (s.setState t .blocked) t ht
  rw [schedBlock, if_neg ht, schedSetState_of_ne s t _ ht, hsame.state, setState_state,
    hsame.current, hsame.idle]
  exact ⟨rfl, rfl, rfl⟩

theorem schedUnblock_spec (s : Sched) {t : BitVec 64} (ht : t ≠ threadNull) :
    (schedUnblock s t).state = Function.update s.state t .runnable ∧
    (schedUnblock s t).cpuCurrentThread = s.cpuCurrentThread ∧
    (schedUnblock s t).cpuIdleThread = s.cpuIdleThread := by
  obtain ⟨_, _, _, _, hsame⟩ := schedEnqueue_spec (s.setState t .runnable) t ht
  rw [schedUnblock, if_neg ht, schedSetState_of_ne s t _ ht, hsame.state, setState_state,
    hsame.current, hsame.idle]
  exact ⟨rfl, rfl, rfl⟩

/-- `sched_unblock` makes its thread runnable, if it is given one. -/
theorem schedUnblock_state (s : Sched) (t x : BitVec 64) : (schedUnblock s t).state x =
    if t ≠ threadNull ∧ x = t then .runnable else s.state x := by
  by_cases ht : t = threadNull
  · rw [schedUnblock, if_pos ht, if_neg fun hc => hc.1 ht]
  · rw [(schedUnblock_spec s ht).1, Function.update_apply]
    simp only [ne_eq, ht, not_false_eq_true, true_and]

/-- What is left of the queue without one of its threads. -/
theorem Sched.Queue.mem_rest {t : BitVec 64} {xs ys : List (BitVec 64)}
    (hq : s.Queue (xs ++ t :: ys)) (x : BitVec 64) :
    x ∈ xs ++ ys ↔ x ∈ xs ++ t :: ys ∧ x ≠ t := by
  have hnd := (List.nodup_cons.mp hq.ring.nodup).2
  rw [List.nodup_middle, List.nodup_cons] at hnd
  constructor
  · intro hx
    refine ⟨by simp at hx ⊢; tauto, ?_⟩
    rintro rfl
    exact hnd.1 hx
  · rintro ⟨hx, hxt⟩
    simpa [hxt] using hx

theorem SchedInv.block {t : BitVec 64} (hs : SchedInv s created qs) (ht : t ∈ qs)
    (hidle : t ≠ s.cpuIdleThread) :
    ∃ qs', SchedInv (schedBlock s t) created qs' := by
  have hne := hs.queue.ne_null ht
  obtain ⟨xs, ys, rfl⟩ := List.append_of_mem ht
  obtain ⟨hstate, hcur, hid⟩ := schedBlock_spec s hne
  have hmem := hs.queue.mem_rest
  refine ⟨xs ++ ys, ?_, fun x => ?_, fun x hx hrun => ?_, ?_⟩
  · rw [schedBlock, if_neg hne, schedSetState_of_ne s t _ hne]
    exact (hs.queue.setState t .blocked).dequeue
  · rw [hmem, hs.mem_iff, hstate, Function.update_apply]
    by_cases hxt : x = t
    · simp [hxt, ThreadState.CanRun]
    · simp [hxt]
  · rw [hstate, Function.update_apply] at hrun
    split_ifs at hrun with hxt
    rw [hcur]
    exact hs.running x hx hrun
  · rw [hid, hmem]
    rcases hs.idle with h | h
    · exact Or.inl h
    · exact Or.inr ⟨h, hidle.symm⟩

/-- A thread that joins the queue: newly created, or unblocked. -/
theorem SchedInv.enqueue {t : BitVec 64} (hs : SchedInv s created qs) (ht : t ≠ threadNull)
    (hnew : t ∉ qs) (hrun : s.state t = .runnable) {created' : List (BitVec 64)}
    (hc : ∀ x, x ∈ created' ↔ x = t ∨ x ∈ created) :
    SchedInv (schedEnqueue s t).2 created' (qs ++ [t]) := by
  obtain ⟨_, _, _, _, hsame⟩ := schedEnqueue_spec s t ht
  refine ⟨hs.queue.enqueue ht hnew, fun x => ?_, fun x hx hr => ?_, ?_⟩
  · rw [List.mem_append, List.mem_singleton, hs.mem_iff, hsame.state, hc]
    constructor
    · rintro (⟨h1, h2⟩ | rfl)
      · exact ⟨Or.inr h1, h2⟩
      · exact ⟨Or.inl rfl, Or.inl hrun⟩
    · rintro ⟨rfl | h1, h2⟩
      · exact Or.inr rfl
      · exact Or.inl ⟨h1, h2⟩
  · rw [hsame.state] at hr
    rw [hsame.current]
    rcases (hc x).mp hx with rfl | hx
    · rw [hrun] at hr
      cases hr
    · exact hs.running x hx hr
  · rw [hsame.idle]
    rcases hs.idle with h | h
    · exact Or.inl h
    · exact Or.inr (List.mem_append_left _ h)

/-- The queue, the CPU and the threads `created` are the same in both states. -/
structure Untouched (created : List (BitVec 64)) (s s' : Sched) : Prop where
  runqueue : s'.runqueue = s.runqueue
  threads : ∀ t ∈ created, s'.threads t = s.threads t
  current : s'.cpuCurrentThread = s.cpuCurrentThread
  idle : s'.cpuIdleThread = s.cpuIdleThread

theorem Untouched.state (hu : Untouched created s s') {t : BitVec 64} (ht : t ∈ created) :
    s'.state t = s.state t := by
  rw [Sched.state, hu.threads t ht, Sched.state]

theorem Untouched.trans {s'' : Sched} (hu : Untouched created s s') (hu' : Untouched created s' s'') :
    Untouched created s s'' :=
  ⟨hu'.runqueue.trans hu.runqueue, fun t ht => (hu'.threads t ht).trans (hu.threads t ht),
    hu'.current.trans hu.current, hu'.idle.trans hu.idle⟩

theorem Untouched.queue (hu : Untouched created s s') (hq : s.Queue qs)
    (hc : ∀ t ∈ qs, t ∈ created) : s'.Queue qs := by
  refine ⟨hq.ring.congr ?_ ?_, by rw [hu.runqueue]; exact hq.count⟩
  · intro x hx
    rcases List.mem_cons.mp hx with rfl | hx
    · rw [next_null, next_null, hu.runqueue]
    · rw [next_of_ne _ _ (hq.ne_null hx), next_of_ne _ _ (hq.ne_null hx), hu.threads x (hc x hx)]
  · intro x hx
    rcases List.mem_cons.mp hx with rfl | hx
    · rw [prev_null, prev_null, hu.runqueue]
    · rw [prev_of_ne _ _ (hq.ne_null hx), prev_of_ne _ _ (hq.ne_null hx), hu.threads x (hc x hx)]

theorem SchedInv.congr (hs : SchedInv s created qs) (hu : Untouched created s s') :
    SchedInv s' created qs := by
  refine ⟨hu.queue hs.queue fun x hx => ((hs.mem_iff x).mp hx).1, fun t => ?_, ?_, ?_⟩
  · rw [hs.mem_iff]
    refine and_congr_right fun hc => ?_
    rw [hu.state hc]
  · intro t hc hr
    rw [hu.current]
    refine hs.running t hc ?_
    rwa [← hu.state hc]
  · rw [hu.idle]
    exact hs.idle

theorem SchedInv.unblock {t : BitVec 64} (hs : SchedInv s created qs) (ht : t ∈ created)
    (ht0 : t ≠ threadNull) (hst : s.state t = .blocked) :
    SchedInv (schedUnblock s t) created (qs ++ [t]) := by
  have hnew : t ∉ qs := by
    intro hq
    have := ((hs.mem_iff t).mp hq).2
    rw [hst] at this
    simp [ThreadState.CanRun] at this
  rw [schedUnblock, if_neg ht0, schedSetState_of_ne s t _ ht0]
  have hs' : SchedInv (s.setState t .runnable) (created.filter (· ≠ t)) qs := by
    have hstate (x : BitVec 64) (hx : x ≠ t) : (s.setState t .runnable).state x = s.state x := by
      rw [setState_state, Function.update_of_ne hx]
    refine ⟨hs.queue.setState t _, fun x => ?_, fun x hx hr => ?_, hs.idle⟩
    · rw [hs.mem_iff, List.mem_filter, decide_eq_true_iff]
      by_cases hx : x = t
      · subst hx
        simp [hst, ThreadState.CanRun]
      · rw [hstate x hx]
        simp [hx]
    · obtain ⟨hc, hx⟩ := List.mem_filter.mp hx
      have hx : x ≠ t := by simpa using hx
      rw [hstate x hx] at hr
      exact hs.running x hc hr
  refine hs'.enqueue ht0 hnew ?_ fun x => ?_
  · rw [setState_state, Function.update_self]
  · rw [List.mem_filter, decide_eq_true_iff]
    by_cases hx : x = t
    · simp [hx, ht]
    · simp [hx]

theorem schedRetire_spec (hq : s.Queue qs) (t : BitVec 64) :
    (schedRetire s t).Queue qs ∧ (schedRetire s t).runqueue = s.runqueue ∧
    (schedRetire s t).cpuIdleThread = s.cpuIdleThread ∧
    (∀ x, x ≠ t → (schedRetire s t).state x = s.state x) ∧
    (t ≠ threadNull → (schedRetire s t).state t ≠ .running) ∧
    (((schedRetire s t).state t).CanRun ↔ (s.state t).CanRun) := by
  unfold schedRetire
  split_ifs with h1 h2
  · have h2 : s.state t = .running := h2
    rw [schedSetState_of_ne s _ _ h1, setState_state, Function.update_self, h2]
    refine ⟨hq.setState _ _, rfl, rfl, fun x hx => ?_, fun _ => by decide, ?_⟩
    · rw [Function.update_of_ne hx]
    · simp [ThreadState.CanRun]
  · exact ⟨hq, rfl, rfl, fun _ _ => rfl, fun _ => h2, Iff.rfl⟩
  · exact ⟨hq, rfl, rfl, fun _ _ => rfl, fun h => absurd h h1, Iff.rfl⟩

/-- The state that `sched_run` leaves when it dispatches `n`. -/
theorem schedRun_eq {n : BitVec 64} {rest : List (BitVec 64)} (hq : s.Queue (n :: rest))
    (hcur : n ≠ s.cpuCurrentThread) :
    schedRun s = (some (s.cpuCurrentThread, n), { (schedEnqueue (schedDequeue
      ((schedRetire s s.cpuCurrentThread).setState n .running) n).2 n).2 with
        cpuCurrentThread := n }) := by
  have hn0 : n ≠ threadNull := hq.ne_null (by simp)
  obtain ⟨s1, hs1⟩ : ∃ s1, s1 = schedRetire s s.cpuCurrentThread := ⟨_, rfl⟩
  obtain ⟨_, hrq, _⟩ := schedRetire_spec hq s.cpuCurrentThread
  rw [← hs1] at hrq
  have hhead : (s1.setState n .running).runqueue.head = n := by
    have : (s1.setState n .running).runqueue = s.runqueue := hrq
    rw [this, hq.head_eq]
    rfl
  rw [schedRun, hq.choose, if_neg (not_or.mpr ⟨hn0, hcur⟩)]
  simp only [← hs1, schedSetState_of_ne s1 n _ hn0]
  rw [if_pos (Or.inr (Or.inr hhead))]

/-- `sched_run` dispatches the first of the queue, which was runnable and not current,
and moves it to the back; or the queue is empty or headed by the current thread. -/
theorem schedRun_spec (hs : SchedInv s created qs) :
    (∃ n rest, qs = n :: rest ∧ s.state n = .runnable ∧ n ≠ s.cpuCurrentThread ∧
      (schedRun s).1 = some (s.cpuCurrentThread, n) ∧
      (schedRun s).2.cpuCurrentThread = n ∧
      SchedInv (schedRun s).2 created (rest ++ [n]) ∧
      (schedRun s).2.state = Function.update (schedRetire s s.cpuCurrentThread).state n .running) ∨
    schedRun s = (none, s) := by
  have hchoose := schedChoose_eq hs
  cases qs with
  | nil =>
    right
    have hc : schedChoose s = threadNull := hchoose
    rw [schedRun, hc, if_pos (Or.inl rfl)]
  | cons n rest =>
    have hc : schedChoose s = n := hchoose
    by_cases hcur : n = s.cpuCurrentThread
    · right
      rw [schedRun, hc, if_pos (Or.inr hcur)]
    left
    have hn := (hs.mem_iff n).mp (by simp)
    have hn0 : n ≠ threadNull := hs.queue.ne_null (by simp)
    have hrunnable : s.state n = .runnable := by
      rcases hn.2 with h | h
      · exact h
      · exact absurd (hs.running n hn.1 h) hcur
    obtain ⟨s1, hs1⟩ : ∃ s1, s1 = schedRetire s s.cpuCurrentThread := ⟨_, rfl⟩
    obtain ⟨hq, hrq, hid, hother, hnotrun, hcan⟩ := schedRetire_spec hs.queue s.cpuCurrentThread
    rw [← hs1] at hq hrq hid hother hnotrun hcan
    obtain ⟨s2, hs2⟩ : ∃ s2, s2 = s1.setState n .running := ⟨_, rfl⟩
    obtain ⟨s3, hs3⟩ : ∃ s3, s3 = (schedEnqueue (schedDequeue s2 n).2 n).2 := ⟨_, rfl⟩
    have hrun : schedRun s =
        (some (s.cpuCurrentThread, n), { s3 with cpuCurrentThread := n }) := by
      rw [schedRun_eq hs.queue hcur, hs3, hs2, hs1]
    have hq2 : s2.Queue ([] ++ n :: rest) := by
      rw [hs2]
      exact hq.setState n _
    obtain ⟨_, _, _, _, hsame⟩ := schedDequeue_spec s2 n hn0
    obtain ⟨_, _, _, _, hsame'⟩ := schedEnqueue_spec (schedDequeue s2 n).2 n hn0
    have hq3 : s3.Queue (rest ++ [n]) := by
      rw [hs3]
      refine hq2.dequeue.enqueue hn0 ?_
      exact (List.nodup_cons.mp (List.nodup_cons.mp hs.queue.ring.nodup).2).1
    have hst3 : s3.state = Function.update s1.state n .running := by
      rw [hs3, hsame'.state, hsame.state, hs2, setState_state]
    have hid3 : s3.cpuIdleThread = s.cpuIdleThread := by
      rw [hs3, hsame'.idle, hsame.idle, hs2, ← hid]
      rfl
    have hmem (x : BitVec 64) : x ∈ rest ++ [n] ↔ x ∈ n :: rest := by
      simp [or_comm]
    refine ⟨n, rest, rfl, hrunnable, hcur, by rw [hrun], by rw [hrun], ?_, by rw [hrun, ← hs1, ← hst3]; rfl⟩
    rw [hrun]
    refine ⟨hq3.congr rfl rfl rfl, fun x => ?_, fun x hx hr => ?_, ?_⟩
    · change _ ↔ x ∈ created ∧ (s3.state x).CanRun
      rw [hmem, hs.mem_iff, hst3, Function.update_apply]
      split_ifs with hx
      · subst hx
        simp [hn.1, ThreadState.CanRun, hrunnable]
      · by_cases hxc : x = s.cpuCurrentThread
        · rw [hxc, hcan]
        · rw [hother x hxc]
    · change s3.state x = .running at hr
      rw [hst3, Function.update_apply] at hr
      split_ifs at hr with hxn
      · exact hxn
      by_cases hxc : x = s.cpuCurrentThread
      · -- the current thread has left RUNNING, unless there is none
        have h0 : s.cpuCurrentThread = threadNull := by
          by_contra h0
          exact hnotrun h0 (hxc ▸ hr)
        have hcr : (s.state s.cpuCurrentThread).CanRun := hcan.mp (Or.inr (hxc ▸ hr))
        have hq0 := (hs.mem_iff x).mpr ⟨hx, hxc ▸ hcr⟩
        exact absurd (hxc.trans h0) (hs.queue.ne_null hq0)
      · rw [hother x hxc] at hr
        exact absurd (hs.running x hx hr) hxc
    · change s3.cpuIdleThread = _ ∨ s3.cpuIdleThread ∈ _
      rw [hid3, hmem]
      exact hs.idle

theorem SchedInv.run (hs : SchedInv s created qs) : ∃ qs', SchedInv (schedRun s).2 created qs' := by
  rcases schedRun_spec hs with ⟨n, rest, _, _, _, _, _, h, _⟩ | h
  · exact ⟨_, h⟩
  · rw [h]
    exact ⟨qs, hs⟩

/-- `thread_yield` makes the check of `sched_run` once more. -/
theorem threadYield_eq (s : Sched) : threadYield s = schedRun s := by
  by_cases h : schedChoose s ≠ threadNull ∧ schedChoose s ≠ s.cpuCurrentThread
  · rw [threadYield, if_pos h]
  · rw [threadYield, if_neg h, schedRun, if_pos]
    by_contra hn
    exact h (not_or.mp hn)

/-- What the functions of the scheduler leave alone in a thread: all but its state and
its links. -/
def Thread.body (v : Thread) : Thread :=
  { v with state := .runnable, next := threadNull, prev := threadNull }

def Sched.body (s : Sched) (t : BitVec 64) : Thread := (s.threads t).body

def Sched.task (s : Sched) (t : BitVec 64) : BitVec 64 := (s.threads t).task

section Body
variable (s : Sched) (t v : BitVec 64)

@[simp] theorem body_task : (s.body t).task = (s.threads t).task := rfl
@[simp] theorem body_taskNext : (s.body t).taskNext = (s.threads t).taskNext := rfl
@[simp] theorem body_refCount : (s.body t).refCount = (s.threads t).refCount := rfl
@[simp] theorem body_kernelStackPhys :
    (s.body t).kernelStackPhys = (s.threads t).kernelStackPhys := rfl

/-- Threads that agree up to state and links, one of them written. -/
theorem update_body {f : BitVec 64 → Thread} {v : Thread} (hv : v.body = (f t).body)
    (x : BitVec 64) : (Function.update f t v x).body = (f x).body := by
  rw [Function.update_apply]
  split_ifs with hx
  · rw [hx, hv]
  · rfl

@[simp] theorem setNext_body : (s.setNext t v).body = s.body :=
  funext (update_body t rfl)

@[simp] theorem setPrev_body : (s.setPrev t v).body = s.body :=
  funext (update_body t rfl)

@[simp] theorem setState_body (st : ThreadState) : (s.setState t st).body = s.body :=
  funext (update_body t rfl)

@[simp] theorem setHead_body : (s.setHead v).body = s.body := rfl
@[simp] theorem setTail_body : (s.setTail v).body = s.body := rfl
@[simp] theorem setCount_body (c : BitVec 32) : (s.setCount c).body = s.body := rfl

theorem schedSetState_body (st : ThreadState) : (schedSetState s t st).body = s.body := by
  unfold schedSetState
  split_ifs <;> simp

theorem linkNext_body (u : BitVec 64) :
    (if u ≠ threadNull then s.setNext t v else s.setHead v).body = s.body := by
  split_ifs <;> simp

theorem linkPrev_body (u : BitVec 64) :
    (if u ≠ threadNull then s.setPrev t v else s.setTail v).body = s.body := by
  split_ifs <;> simp

theorem schedEnqueue_body : (schedEnqueue s t).2.body = s.body := by
  unfold schedEnqueue
  split_ifs
  · rfl
  · simp only [setCount_body, setTail_body, linkNext_body, setPrev_body, setNext_body]

theorem schedDequeue_body : (schedDequeue s t).2.body = s.body := by
  unfold schedDequeue
  split_ifs
  · rfl
  all_goals
    simp only [setCount_body, setPrev_body, setNext_body, linkPrev_body, setHead_body]

theorem schedBlock_body : (schedBlock s t).body = s.body := by
  unfold schedBlock
  split_ifs
  · rfl
  · rw [schedDequeue_body, schedSetState_body]

theorem schedUnblock_body : (schedUnblock s t).body = s.body := by
  unfold schedUnblock
  split_ifs
  · rfl
  · rw [schedEnqueue_body, schedSetState_body]

theorem schedRetire_body : (schedRetire s t).body = s.body := by
  unfold schedRetire
  split_ifs
  · exact schedSetState_body s t _
  · rfl
  · rfl

theorem schedRun_body : (schedRun s).2.body = s.body := by
  unfold schedRun
  simp only
  split_ifs
  · rfl
  · change (schedEnqueue _ _).2.body = _
    rw [schedEnqueue_body, schedDequeue_body, schedSetState_body, schedRetire_body]
  · change (schedSetState _ _ _).body = _
    rw [schedSetState_body, schedRetire_body]

/-- The task of a thread is in its body. -/
theorem task_of_body {s s' : Sched} (hb : s'.body = s.body) : s'.task = s.task := by
  funext t
  rw [Sched.task, ← body_task, hb, body_task, Sched.task]

theorem schedBlock_task : (schedBlock s t).task = s.task := task_of_body (schedBlock_body s t)

theorem schedUnblock_task : (schedUnblock s t).task = s.task :=
  task_of_body (schedUnblock_body s t)

theorem schedRun_task : (schedRun s).2.task = s.task := task_of_body (schedRun_body s)

end Body

theorem schedBlock_current (s : Sched) (t : BitVec 64) :
    (schedBlock s t).cpuCurrentThread = s.cpuCurrentThread := by
  by_cases ht : t = threadNull
  · rw [schedBlock, if_pos ht]
  · exact (schedBlock_spec s ht).2.1

theorem schedUnblock_current (s : Sched) (t : BitVec 64) :
    (schedUnblock s t).cpuCurrentThread = s.cpuCurrentThread := by
  by_cases ht : t = threadNull
  · rw [schedUnblock, if_pos ht]
  · exact (schedUnblock_spec s ht).2.1

theorem schedEnqueue_current (s : Sched) (t : BitVec 64) :
    (schedEnqueue s t).2.cpuCurrentThread = s.cpuCurrentThread := by
  by_cases ht : t = threadNull
  · rw [schedEnqueue, if_pos ht]
  · obtain ⟨_, _, _, _, hsame⟩ := schedEnqueue_spec s t ht
    exact hsame.current

/-- `sched_run` switches from the current thread to another, which becomes current. -/
theorem schedRun_pair {s s' : Sched} {old new : BitVec 64} (h : schedRun s = (some (old, new), s')) :
    old = s.cpuCurrentThread ∧ new ≠ old ∧ s'.cpuCurrentThread = new := by
  unfold schedRun at h
  by_cases hc : schedChoose s = threadNull ∨ schedChoose s = s.cpuCurrentThread
  · rw [if_pos hc] at h
    exact absurd (congrArg Prod.fst h) (by simp)
  · rw [if_neg hc] at h
    obtain ⟨hpair, hs'⟩ := Prod.mk.inj h
    obtain ⟨rfl, rfl⟩ := Prod.mk.inj (Option.some.inj hpair)
    exact ⟨rfl, (not_or.mp hc).2, by rw [← hs']⟩

theorem schedEnqueue_idle (s : Sched) (t : BitVec 64) :
    (schedEnqueue s t).2.cpuIdleThread = s.cpuIdleThread := by
  by_cases ht : t = threadNull
  · rw [schedEnqueue, if_pos ht]
  · obtain ⟨_, _, _, _, hsame⟩ := schedEnqueue_spec s t ht
    exact hsame.idle

theorem schedDequeue_idle (s : Sched) (t : BitVec 64) :
    (schedDequeue s t).2.cpuIdleThread = s.cpuIdleThread := by
  by_cases ht : t = threadNull
  · rw [schedDequeue, if_pos ht]
  · obtain ⟨_, _, _, _, hsame⟩ := schedDequeue_spec s t ht
    exact hsame.idle

theorem schedSetState_idle (s : Sched) (t : BitVec 64) (st : ThreadState) :
    (schedSetState s t st).cpuIdleThread = s.cpuIdleThread := by
  unfold schedSetState
  split_ifs <;> rfl

theorem schedRetire_idle (s : Sched) (t : BitVec 64) :
    (schedRetire s t).cpuIdleThread = s.cpuIdleThread := by
  unfold schedRetire
  split_ifs
  · exact schedSetState_idle s t _
  · rfl
  · rfl

theorem schedRun_idle (s : Sched) : (schedRun s).2.cpuIdleThread = s.cpuIdleThread := by
  unfold schedRun
  simp only
  split_ifs
  · rfl
  · change (schedEnqueue _ _).2.cpuIdleThread = _
    rw [schedEnqueue_idle, schedDequeue_idle, schedSetState_idle, schedRetire_idle]
  · change (schedSetState _ _ _).cpuIdleThread = _
    rw [schedSetState_idle, schedRetire_idle]

theorem schedRetire_blocked (s : Sched) (t x : BitVec 64) :
    (schedRetire s t).state x = .blocked ↔ s.state x = .blocked := by
  unfold schedRetire
  split_ifs with h1 h2
  · have h2 : s.state t = .running := h2
    rw [schedSetState_of_ne s _ _ h1, setState_state, Function.update_apply]
    split_ifs with hx
    · simp [hx, h2]
    · rfl
  · rfl
  · rfl

/-- A dispatch blocks nobody and wakes nobody. -/
theorem schedRun_blocked (hs : SchedInv s created qs) (x : BitVec 64) :
    (schedRun s).2.state x = .blocked ↔ s.state x = .blocked := by
  rcases schedRun_spec hs with ⟨n, rest, _, hst, _, _, _, _, he⟩ | he
  · rw [he, Function.update_apply]
    split_ifs with hx
    · simp [hx, hst]
    · exact schedRetire_blocked s _ x
  · rw [he]

/-- The thread that a dispatch leaves current is running, if the one before was. -/
theorem schedRun_current (hs : SchedInv s created qs) (hc : s.cpuCurrentThread ∈ created)
    (hr : s.state s.cpuCurrentThread = .running) :
    (schedRun s).2.cpuCurrentThread ∈ created ∧
      (schedRun s).2.state (schedRun s).2.cpuCurrentThread = .running := by
  rcases schedRun_spec hs with ⟨n, rest, hqs, _, _, _, hcur, _, he⟩ | he
  · rw [hcur, he, Function.update_self]
    exact ⟨((hs.mem_iff n).mp (by simp [hqs])).1, rfl⟩
  · rw [he]
    exact ⟨hc, hr⟩

/-- A current thread that has left the queue is switched away from, when another waits. -/
theorem schedRun_switch (hs : SchedInv s created qs) (hc : s.cpuCurrentThread ∉ qs)
    (hne : qs ≠ []) : (schedRun s).1 ≠ none ∧
    (schedRun s).2.cpuCurrentThread ∈ created ∧
      (schedRun s).2.state (schedRun s).2.cpuCurrentThread = .running := by
  rcases schedRun_spec hs with ⟨n, rest, hqs, _, _, hsw, hcur, _, he⟩ | he
  · rw [hsw, hcur, he, Function.update_self]
    exact ⟨Option.some_ne_none _, ((hs.mem_iff n).mp (by simp [hqs])).1, rfl⟩
  · have hchoose := schedChoose_eq hs
    obtain ⟨q, rest, rfl⟩ := List.exists_cons_of_ne_nil hne
    have hq : schedChoose s = q := hchoose
    have hq0 : q ≠ threadNull := hs.queue.ne_null (by simp)
    have hqc : q ≠ s.cpuCurrentThread := by
      rintro rfl
      exact hc (by simp)
    have hfst := congrArg Prod.fst he
    rw [schedRun, hq, if_neg (not_or.mpr ⟨hq0, hqc⟩)] at hfst
    cases hfst

end Dana
