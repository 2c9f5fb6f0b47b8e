import Dana.SchedInv

/-! The links of threads that the queue does not hold, and a thread that leaves for good. -/
namespace Dana
open LinkedRing Sched

/-- Created threads that cannot run are linked to nothing. -/
def Unlinked (s : Sched) (created : List (BitVec 64)) : Prop :=
  ∀ t ∈ created, t ≠ threadNull → ¬ (s.state t).CanRun →
    s.next t = threadNull ∧ s.prev t = threadNull

/-- The dispatcher sees no difference between the two. -/
structure SameLinks (s s' : Sched) : Prop where
  next : s'.next = s.next
  prev : s'.prev = s.prev
  count : s'.runqueue.count = s.runqueue.count
  same : SameThreads s s'

section Same
variable {s s' : Sched} {created qs : List (BitVec 64)}

/-- A thread is written, but not its state or its links. -/
theorem sameLinks_update {s : Sched} {t : BitVec 64} {v : Thread}
    (hn : v.next = (s.threads t).next) (hp : v.prev = (s.threads t).prev)
    (hst : v.state = (s.threads t).state) :
    SameLinks s { s with threads := Function.update s.threads t v } := by
  have hfield {α : Type} (f : Thread → α) (hf : f v = f (s.threads t)) (x : BitVec 64) :
      f (Function.update s.threads t v x) = f (s.threads x) := by
    rw [Function.update_apply]
    split_ifs with hx
    · rw [hx, hf]
    · rfl
  refine ⟨?_, ?_, rfl, ⟨funext (hfield Thread.state hst), rfl, rfl⟩⟩
  · exact congrArg (Function.update · threadNull s.runqueue.head) (funext (hfield Thread.next hn))
  · exact congrArg (Function.update · threadNull s.runqueue.tail) (funext (hfield Thread.prev hp))

theorem SameLinks.trans {s'' : Sched} (h : SameLinks s s') (h' : SameLinks s' s'') :
    SameLinks s s'' :=
  ⟨h'.next.trans h.next, h'.prev.trans h.prev, h'.count.trans h.count, h.same.trans h'.same⟩

theorem SameLinks.dequeue (h : SameLinks s s') {t : BitVec 64} (ht : t ≠ threadNull) :
    SameLinks (schedDequeue s t).2 (schedDequeue s' t).2 := by
  obtain ⟨_, hn, hp, hc, hs⟩ := schedDequeue_spec s t ht
  obtain ⟨_, hn', hp', hc', hs'⟩ := schedDequeue_spec s' t ht
  refine ⟨?_, ?_, ?_, ⟨?_, ?_, ?_⟩⟩
  · rw [hn', hn, h.next, h.prev]
  · rw [hp', hp, h.next, h.prev]
  · rw [hc', hc, h.count]
  · rw [hs'.state, hs.state, h.same.state]
  · rw [hs'.current, hs.current, h.same.current]
  · rw [hs'.idle, hs.idle, h.same.idle]

theorem SchedInv.of_same (hs : SchedInv s created qs) (h : SameLinks s s') :
    SchedInv s' created qs := by
  refine ⟨hs.queue.congr h.next h.prev h.count, ?_, ?_, ?_⟩
  · rw [h.same.state]
    exact hs.mem_iff
  · rw [h.same.state, h.same.current]
    exact hs.running
  · rw [h.same.idle]
    exact hs.idle

theorem Unlinked.of_same (hu : Unlinked s created) (h : SameLinks s s') : Unlinked s' created := by
  rw [Unlinked, h.same.state, h.next, h.prev]
  exact hu

theorem Unlinked.congr (hu : Unlinked s created) (h : Untouched created s s') :
    Unlinked s' created := by
  intro t ht ht0 hrun
  have hst : s'.state t = s.state t := by rw [Sched.state, h.threads t ht, Sched.state]
  rw [hst] at hrun
  rw [next_of_ne _ _ ht0, prev_of_ne _ _ ht0, h.threads t ht, ← next_of_ne _ _ ht0,
    ← prev_of_ne _ _ ht0]
  exact hu t ht ht0 hrun

end Same

section Outside
variable {s : Sched} {created qs : List (BitVec 64)} {t x : BitVec 64}

theorem not_mem_of_blocked (hs : SchedInv s created qs) (hx : ¬ (s.state x).CanRun) : x ∉ qs :=
  fun hq => hx ((hs.mem_iff x).mp hq).2

/-- `sched_enqueue` writes the links of its argument and of the queue only. -/
theorem schedEnqueue_outside (hq : s.Queue qs) (ht : t ≠ threadNull) (hx0 : x ≠ threadNull)
    (hxt : x ≠ t) (hx : x ∉ qs) :
    (schedEnqueue s t).2.next x = s.next x ∧ (schedEnqueue s t).2.prev x = s.prev x := by
  obtain ⟨_, hn, hp, _, _⟩ := schedEnqueue_spec s t ht
  have htail : x ≠ s.runqueue.tail := by
    intro he
    have hm := hq.ring.prev_mem List.mem_cons_self
    rw [prev_null, ← he] at hm
    exact (List.mem_cons.mp hm).elim hx0 hx
  constructor
  · rw [hn, Function.update_of_ne htail, Function.update_of_ne hxt]
  · rw [hp, Function.update_of_ne hx0, Function.update_of_ne hxt]

theorem schedDequeue_outside (hq : s.Queue qs) (ht : t ∈ qs) (hx0 : x ≠ threadNull)
    (hx : x ∉ qs) :
    (schedDequeue s t).2.next x = s.next x ∧ (schedDequeue s t).2.prev x = s.prev x := by
  obtain ⟨_, hn, hp, _, _⟩ := schedDequeue_spec s t (hq.ne_null ht)
  have hxt : x ≠ t := by
    rintro rfl
    exact hx ht
  have hout (y : BitVec 64) (hy : y ∈ threadNull :: qs) : x ≠ y := by
    rintro rfl
    exact (List.mem_cons.mp hy).elim hx0 hx
  have hmem : t ∈ threadNull :: qs := List.mem_cons_of_mem _ ht
  constructor
  · rw [hn, Function.update_of_ne hxt, Function.update_of_ne (hout _ (hq.ring.prev_mem hmem))]
  · rw [hp, Function.update_of_ne hxt, Function.update_of_ne (hout _ (hq.ring.next_mem hmem))]

/-- A thread that has been dequeued is linked to nothing. -/
theorem schedDequeue_self (s : Sched) (ht : t ≠ threadNull) :
    (schedDequeue s t).2.next t = threadNull ∧ (schedDequeue s t).2.prev t = threadNull := by
  obtain ⟨_, hn, hp, _, _⟩ := schedDequeue_spec s t ht
  constructor
  · rw [hn, Function.update_self]
  · rw [hp, Function.update_self]

theorem Unlinked.block (hu : Unlinked s created) (hs : SchedInv s created qs) (ht : t ∈ qs) :
    Unlinked (schedBlock s t) created := by
  have ht0 := hs.queue.ne_null ht
  intro x hx hx0 hrun
  have hb : schedBlock s t = (schedDequeue (s.setState t .blocked) t).2 := by
    rw [schedBlock, if_neg ht0, schedSetState_of_ne s t _ ht0]
  rw [(schedBlock_spec s ht0).1, Function.update_apply] at hrun
  rw [hb]
  by_cases hxt : x = t
  · rw [hxt]
    exact schedDequeue_self _ ht0
  · rw [if_neg hxt] at hrun
    have hout := schedDequeue_outside (hs.queue.setState t .blocked) ht hx0
      (not_mem_of_blocked hs hrun)
    rw [hout.1, hout.2, setState_next, setState_prev]
    exact hu x hx hx0 hrun

theorem Unlinked.enqueue (hu : Unlinked s created) (hs : SchedInv s created qs)
    (ht : t ≠ threadNull) (hst : s.state t = .runnable) {created' : List (BitVec 64)}
    (hc : ∀ x ∈ created', x = t ∨ x ∈ created) : Unlinked (schedEnqueue s t).2 created' := by
  intro x hx hx0 hrun
  obtain ⟨_, _, _, _, hsame⟩ := schedEnqueue_spec s t ht
  rw [hsame.state] at hrun
  have hxt : x ≠ t := by
    rintro rfl
    exact hrun (Or.inl hst)
  have hout := schedEnqueue_outside hs.queue ht hx0 hxt (not_mem_of_blocked hs hrun)
  rw [hout.1, hout.2]
  exact hu x ((hc x hx).resolve_left hxt) hx0 hrun

theorem Unlinked.unblock (hu : Unlinked s created) (hs : SchedInv s created qs)
    (ht : t ≠ threadNull) : Unlinked (schedUnblock s t) created := by
  intro x hx hx0 hrun
  rw [(schedUnblock_spec s ht).1, Function.update_apply] at hrun
  have hxt : x ≠ t := by
    rintro rfl
    rw [if_pos rfl] at hrun
    exact hrun (Or.inl rfl)
  rw [if_neg hxt] at hrun
  have hout := schedEnqueue_outside (hs.queue.setState t .runnable) ht hx0 hxt
    (not_mem_of_blocked hs hrun)
  rw [schedUnblock, if_neg ht, schedSetState_of_ne s t _ ht, hout.1, hout.2, setState_next,
    setState_prev]
  exact hu x hx hx0 hrun

/-- A dispatch changes which threads are blocked for none. -/
theorem schedRun_canRun (hs : SchedInv s created qs) (hx : x ∈ created) :
    ((schedRun s).2.state x).CanRun ↔ (s.state x).CanRun := by
  rcases schedRun_spec hs with ⟨n, rest, rfl, _, _, _, _, hs', _⟩ | he
  · have hiff : x ∈ rest ++ [n] ↔ x ∈ n :: rest := by simp [or_comm]
    rw [hs'.mem_iff, hs.mem_iff] at hiff
    simpa [hx] using hiff
  · rw [he]

theorem schedRetire_links (s : Sched) (t : BitVec 64) :
    (schedRetire s t).next = s.next ∧ (schedRetire s t).prev = s.prev := by
  unfold schedRetire schedSetState
  split_ifs <;> simp

/-- A dispatch from the queue writes the links of the queue only. -/
theorem schedRun_outside {n : BitVec 64} {rest : List (BitVec 64)} (hq : s.Queue (n :: rest))
    (hcur : n ≠ s.cpuCurrentThread) (hx0 : x ≠ threadNull) (hout : x ∉ n :: rest) :
    (schedRun s).2.next x = s.next x ∧ (schedRun s).2.prev x = s.prev x := by
  have hq2 : ((schedRetire s s.cpuCurrentThread).setState n .running).Queue ([] ++ n :: rest) :=
    ((schedRetire_spec hq _).1).setState n _
  obtain ⟨hn1, hp1⟩ := schedDequeue_outside (t := n) hq2 (by simp) hx0 hout
  obtain ⟨hn2, hp2⟩ := schedEnqueue_outside (t := n) hq2.dequeue (hq.ne_null (by simp)) hx0
    (fun he => hout (by simp [he])) (fun hm => hout (List.mem_cons_of_mem _ hm))
  obtain ⟨hn, hp⟩ := schedRetire_links s s.cpuCurrentThread
  rw [schedRun_eq hq hcur]
  change (schedEnqueue _ _).2.next x = _ ∧ (schedEnqueue _ _).2.prev x = _
  rw [hn2, hp2, hn1, hp1, setState_next, setState_prev, hn, hp]
  exact ⟨rfl, rfl⟩

theorem Unlinked.run (hu : Unlinked s created) (hs : SchedInv s created qs) :
    Unlinked (schedRun s).2 created := by
  intro x hx hx0 hrun
  rw [schedRun_canRun hs hx] at hrun
  have hout := not_mem_of_blocked hs hrun
  rcases schedRun_spec hs with ⟨n, rest, rfl, _, hcur, _⟩ | he
  · obtain ⟨hn, hp⟩ := schedRun_outside hs.queue hcur hx0 hout
    rw [hn, hp]
    exact hu x hx hx0 hrun
  · rw [he]
    exact hu x hx hx0 hrun

/-- A queued thread that is not the idle thread leaves the queue and the created ones. -/
theorem SchedInv.dequeue (hs : SchedInv s created qs) (ht : t ∈ qs) (hidle : t ≠ s.cpuIdleThread)
    {created' : List (BitVec 64)} (hc : ∀ x, x ∈ created' ↔ x ∈ created ∧ x ≠ t) :
    ∃ qs', SchedInv (schedDequeue s t).2 created' qs' ∧ t ∉ qs' := by
  obtain ⟨_, _, _, _, hsame⟩ := schedDequeue_spec s t (hs.queue.ne_null ht)
  obtain ⟨xs, ys, rfl⟩ := List.append_of_mem ht
  have hmem := hs.queue.mem_rest
  refine ⟨xs ++ ys, ⟨hs.queue.dequeue, fun x => ?_, fun x hx hrun => ?_, ?_⟩,
    fun hm => ((hmem t).mp hm).2 rfl⟩
  · rw [hmem, hs.mem_iff, hsame.state, hc]
    tauto
  · rw [hsame.state] at hrun
    rw [hsame.current]
    exact hs.running x ((hc x).mp hx).1 hrun
  · rw [hsame.idle, hmem]
    rcases hs.idle with h | h
    · exact Or.inl h
    · exact Or.inr ⟨h, hidle.symm⟩

theorem Unlinked.dequeue (hu : Unlinked s created) (hs : SchedInv s created qs) (ht : t ∈ qs)
    {created' : List (BitVec 64)} (hc : ∀ x ∈ created', x ∈ created) :
    Unlinked (schedDequeue s t).2 created' := by
  intro x hx hx0 hrun
  obtain ⟨_, _, _, _, hsame⟩ := schedDequeue_spec s t (hs.queue.ne_null ht)
  rw [hsame.state] at hrun
  have hout := schedDequeue_outside hs.queue ht hx0 (not_mem_of_blocked hs hrun)
  rw [hout.1, hout.2]
  exact hu x (hc x hx) hx0 hrun

/-- No link of a created thread or of the queue leads to a thread that is not created. -/
theorem SchedInv.no_link (hs : SchedInv s created qs) (hu : Unlinked s created)
    (ht0 : t ≠ threadNull) (ht : t ∉ created) :
    s.runqueue.head ≠ t ∧ s.runqueue.tail ≠ t ∧ ∀ x ∈ created, x ≠ threadNull →
      (s.threads x).next ≠ t ∧ (s.threads x).prev ≠ t := by
  have hout (y : BitVec 64) (hy : y ∈ threadNull :: qs) : y ≠ t := by
    rintro rfl
    rcases List.mem_cons.mp hy with h | h
    · exact ht0 h
    · exact ht ((hs.mem_iff y).mp h).1
  refine ⟨?_, ?_, fun x hx hx0 => ?_⟩
  · rw [← next_null]
    exact hout _ (hs.queue.ring.next_mem List.mem_cons_self)
  · rw [← prev_null]
    exact hout _ (hs.queue.ring.prev_mem List.mem_cons_self)
  · rw [← s.next_of_ne x hx0, ← s.prev_of_ne x hx0]
    by_cases hrun : (s.state x).CanRun
    · have hm : x ∈ threadNull :: qs := List.mem_cons_of_mem _ ((hs.mem_iff x).mpr ⟨hx, hrun⟩)
      exact ⟨hout _ (hs.queue.ring.next_mem hm), hout _ (hs.queue.ring.prev_mem hm)⟩
    · obtain ⟨hn, hp⟩ := hu x hx hx0 hrun
      rw [hn, hp]
      exact ⟨ht0.symm, ht0.symm⟩

end Outside
end Dana
