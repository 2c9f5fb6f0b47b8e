import Dana.Thread

/-! Runs of the scheduler from `sched_init` and `sched_create_idle` on. -/
namespace Dana
open ByteMem LinkedRing Sched

/-- Before `sched_init` no thread exists, and the PMM never hands out page 0. -/
structure SchedBoot (k : Kern) : Prop where
  pageZero : ¬ k.kmem.pmm.Free 0
  zone : k.threadZone = none
  idle : k.sched.cpuIdleThread = threadNull

/-- A thread met on the way from the head of the run queue to `THREAD_NULL`. -/
def Queued (s : Sched) (t : Word) : Prop :=
  ∃ n l, follow (fun x => (s.threads x).next) threadNull n s.runqueue.head = some l ∧ t ∈ l

/-- The reachable states, each with the threads that `thread_create` has returned. -/
inductive SchedReach (h : Hhdm) (threadTrampoline : Word) : Kern → List Word → Prop
  | idle {k : Kern} (hk : SchedBoot k) (idleThreadEntry : Word) :
    SchedReach h threadTrampoline
      (schedCreateIdle h threadTrampoline idleThreadEntry
        { k with sched := schedInit k.sched }).2.2
      (schedCreateIdle h threadTrampoline idleThreadEntry
        { k with sched := schedInit k.sched }).2.1.toList
  | create {k : Kern} {created : List Word} (hr : SchedReach h threadTrampoline k created)
      (task entry arg : Word) :
    SchedReach h threadTrampoline (threadCreate h threadTrampoline task entry arg k).2.2
      ((threadCreate h threadTrampoline task entry arg k).2.1.toList ++ created)
  | run {k : Kern} {created : List Word} (hr : SchedReach h threadTrampoline k created) :
    SchedReach h threadTrampoline { k with sched := (schedRun k.sched).2 } created
  | yield {k : Kern} {created : List Word} (hr : SchedReach h threadTrampoline k created) :
    SchedReach h threadTrampoline { k with sched := (threadYield k.sched).2 } created
  | block {k : Kern} {created : List Word} (hr : SchedReach h threadTrampoline k created)
      (t : Word) (hq : Queued k.sched t) (hidle : t ≠ k.sched.cpuIdleThread) :
    SchedReach h threadTrampoline { k with sched := schedBlock k.sched t } created
  | unblock {k : Kern} {created : List Word} (hr : SchedReach h threadTrampoline k created)
      (t : Word) (ht : t ∈ created) (hst : k.sched.state t = .blocked) :
    SchedReach h threadTrampoline { k with sched := schedUnblock k.sched t } created

variable {h : Hhdm} {k : Kern} {created qs : List Word}

theorem KernInv.withSched (hk : KernInv h k created qs) {s : Sched} {qs' : List Word}
    (hs : SchedInv s created qs') : KernInv h { k with sched := s } created qs' :=
  ⟨hs, hk.pageZero, hk.noZone, hk.zone⟩

theorem KernInv.ne_null (hk : KernInv h k created qs) {t : Word} (ht : t ∈ created) :
    t ≠ threadNull := hk.zones.ne_null ht

/-- The walk along the `next` fields of the threads. -/
theorem Sched.Queue.follow_next {s : Sched} (hq : s.Queue qs) (n : ℕ) (hn : qs.length ≤ n) :
    follow (fun t => (s.threads t).next) threadNull n s.runqueue.head = some qs := by
  rw [← next_null, ← hq.ring.follow_next n hn]
  exact follow_congr fun x hx => (s.next_of_ne x hx).symm

theorem Sched.Queue.follow_prev {s : Sched} (hq : s.Queue qs) (n : ℕ) (hn : qs.length ≤ n) :
    follow (fun t => (s.threads t).prev) threadNull n s.runqueue.tail = some qs.reverse := by
  rw [← prev_null, ← hq.ring.follow_prev n hn]
  exact follow_congr fun x hx => (s.prev_of_ne x hx).symm

theorem Sched.Queue.queued_iff {s : Sched} (hq : s.Queue qs) (t : Word) : Queued s t ↔ t ∈ qs := by
  constructor
  · rintro ⟨n, l, hl, ht⟩
    obtain rfl := follow_unique hl (hq.follow_next qs.length le_rfl)
    exact ht
  · exact fun ht => ⟨qs.length, qs, hq.follow_next _ le_rfl, ht⟩

/-- The idle thread is created, running and current, and queued. -/
theorem schedCreateIdle_inv (hk : SchedBoot k) (trampoline idleEntry : Word) :
    KernInv h
      (schedCreateIdle h trampoline idleEntry { k with sched := schedInit k.sched }).2.2
      (schedCreateIdle h trampoline idleEntry { k with sched := schedInit k.sched }).2.1.toList
      (schedCreateIdle h trampoline idleEntry { k with sched := schedInit k.sched }).2.1.toList ∧
    ∀ t ∈ (schedCreateIdle h trampoline idleEntry { k with sched := schedInit k.sched }).2.1,
      (schedCreateIdle h trampoline idleEntry
        { k with sched := schedInit k.sched }).2.2.sched.cpuCurrentThread = t ∧
      (schedCreateIdle h trampoline idleEntry
        { k with sched := schedInit k.sched }).2.2.sched.cpuIdleThread = t := by
  have hinit : KernInv h { k with sched := schedInit k.sched } [] [] := by
    refine ⟨⟨Queue.nil, by simp, by simp, Or.inl hk.idle⟩, hk.pageZero, fun _ => rfl, ?_⟩
    intro z hz
    cases hk.zone.symm.trans hz
  rcases threadCreate_spec hinit trampoline taskNull idleEntry threadNull with
    ⟨t, k', he, _, hk', _, _⟩ | ⟨k', he, hk', _⟩
  · have ht0 : t ≠ threadNull := hk'.ne_null (by simp)
    have hq : Queue { k'.sched with cpuIdleThread := t, cpuCurrentThread := t } [t] :=
      hk'.sched.queue.congr rfl rfl rfl
    simp only [schedCreateIdle, he, schedSetState_of_ne _ t _ ht0, Option.toList]
    refine ⟨hk'.withSched ⟨?_, fun x => ?_, fun x hx _ => ?_, Or.inr (by simp [setState])⟩, ?_⟩
    · exact hq.setState t _
    · rw [setState_state, Function.update_apply]
      by_cases hx : x = t
      · simp [hx, ThreadState.CanRun]
      · simp [hx]
    · exact List.mem_singleton.mp hx
    · intro x hx
      exact ⟨Option.some.inj hx, Option.some.inj hx⟩
  · simp only [schedCreateIdle, he]
    exact ⟨hk', fun x hx => absurd hx (by simp)⟩

/-- Every step of the scheduler keeps the invariant. -/
theorem schedReach_inv {trampoline : Word} (hr : SchedReach h trampoline k created) :
    ∃ qs, KernInv h k created qs := by
  induction hr with
  | idle hk e => exact ⟨_, (schedCreateIdle_inv hk trampoline e).1⟩
  | create _ task entry arg ih =>
    obtain ⟨qs, hk⟩ := ih
    rcases threadCreate_spec hk trampoline task entry arg with
      ⟨t, k', he, _, hk', _, _⟩ | ⟨k', he, hk', _⟩
    · rw [he]
      exact ⟨_, hk'⟩
    · rw [he]
      exact ⟨_, hk'⟩
  | run _ ih =>
    obtain ⟨qs, hk⟩ := ih
    obtain ⟨qs', hs⟩ := hk.sched.run
    exact ⟨qs', hk.withSched hs⟩
  | yield _ ih =>
    obtain ⟨qs, hk⟩ := ih
    obtain ⟨qs', hs⟩ := hk.sched.run
    rw [threadYield_eq]
    exact ⟨qs', hk.withSched hs⟩
  | block _ t hq hidle ih =>
    obtain ⟨qs, hk⟩ := ih
    obtain ⟨qs', hs⟩ := hk.sched.block ((hk.sched.queue.queued_iff t).mp hq) hidle
    exact ⟨qs', hk.withSched hs⟩
  | unblock _ t ht hst ih =>
    obtain ⟨qs, hk⟩ := ih
    exact ⟨_, hk.withSched (hk.sched.unblock ht (hk.ne_null ht) hst)⟩

/-- In every reachable state the run queue is a well-formed doubly linked list of the
created threads that can run; only the current thread is running; a dispatch takes a
runnable thread; and a `thread_create` that fails changes none of this. -/
theorem sched_reach_queue (h : Hhdm) (threadTrampoline : Word) (k : Kern) (created : List Word)
    (hr : SchedReach h threadTrampoline k created) : ∃ qs : List Word,
    qs.Nodup ∧
    (∃ n, follow (fun t => (k.sched.threads t).next) threadNull n k.sched.runqueue.head =
      some qs) ∧
    (∃ n, follow (fun t => (k.sched.threads t).prev) threadNull n k.sched.runqueue.tail =
      some qs.reverse) ∧
    (∀ t ∈ qs.head?, (k.sched.threads t).prev = threadNull) ∧
    (∀ t ∈ qs.getLast?, (k.sched.threads t).next = threadNull) ∧
    k.sched.runqueue.count.toNat = qs.length ∧
    (∀ t, t ∈ qs ↔ t ∈ created ∧ ((k.sched.threads t).state = .runnable ∨
      (k.sched.threads t).state = .running)) ∧
    (∀ t ∈ created, (k.sched.threads t).state = .running → t = k.sched.cpuCurrentThread) ∧
    (∀ current next, (schedRun k.sched).1 = some (current, next) ∨
        (threadYield k.sched).1 = some (current, next) →
      next ∈ created ∧ (k.sched.threads next).state = .runnable) ∧
    ∀ task entry arg, (threadCreate h threadTrampoline task entry arg k).1 ≠ .success →
      (threadCreate h threadTrampoline task entry arg k).2.1 = none ∧
      Untouched created k.sched (threadCreate h threadTrampoline task entry arg k).2.2.sched := by
  obtain ⟨qs, hk⟩ := schedReach_inv hr
  have hq := hk.sched.queue
  have hnd := (List.nodup_cons.mp hq.ring.nodup).2
  refine ⟨qs, hnd, ⟨_, hq.follow_next _ le_rfl⟩, ⟨_, hq.follow_prev _ le_rfl⟩, fun t ht => ?_,
    fun t ht => ?_, ?_, hk.sched.mem_iff, hk.sched.running, fun current next hn => ?_, ?_⟩
  · obtain ⟨ys, rfl⟩ := List.head?_eq_some_iff.mp ht
    have hr : Ring k.sched.next k.sched.prev threadNull ([] ++ t :: ys) := hq.ring
    rw [← k.sched.prev_of_ne t (hq.ne_null (by simp)), hr.prev_eq, List.getLast_singleton]
  · obtain ⟨xs, rfl⟩ := List.getLast?_eq_some_iff.mp ht
    rw [← k.sched.next_of_ne t (hq.ne_null (by simp)), hq.ring.next_eq]
    rfl
  · rw [hq.count, BitVec.toNat_ofNat, Nat.mod_eq_of_lt hk.length_lt]
  · rw [threadYield_eq, or_self] at hn
    rcases schedRun_spec hk.sched with ⟨n, rest, hqs, hst, _, he, _⟩ | he
    · rw [he] at hn
      cases hn
      exact ⟨((hk.sched.mem_iff next).mp (by simp [hqs])).1, hst⟩
    · rw [he] at hn
      cases hn
  · intro task entry arg hfail
    rcases threadCreate_spec hk threadTrampoline task entry arg with
      ⟨t, k', he, _⟩ | ⟨k', he, _, hu⟩
    · rw [he] at hfail
      exact absurd rfl hfail
    · rw [he]
      exact ⟨rfl, hu⟩

def kernBoot : Kern where
  kmem := ⟨pmmBoot, fun _ => 0⟩
  zoneStore := ⟨fun _ => ⟨0, 0, 0, 0, 0, 0⟩, 0⟩
  threadZone := none
  nextThreadId := 1
  tasks := fun _ => ⟨0, 0⟩
  sched := ⟨⟨0, 0, 0⟩, fun _ => Thread.zero, 0, 0⟩

/-- The idle thread, a second thread and a yield to it, from a machine that has just booted. -/
theorem sched_reach_queue_yield : ∃ k created,
    SchedReach higherHalf 0x1000 k created ∧ created.length = 2 ∧ ∃ qs : List Word, qs.Nodup ∧
      k.sched.runqueue.count.toNat = qs.length ∧
      ∀ t, t ∈ qs ↔ t ∈ created ∧ ((k.sched.threads t).state = .runnable ∨
        (k.sched.threads t).state = .running) := by
  have hk : SchedBoot kernBoot := ⟨by decide, rfl, rfl⟩
  have hr : SchedReach higherHalf 0x1000 _ _ := .yield (.create (.idle hk 0x2000) 0 0x3000 0)
  refine ⟨_, _, hr, by decide +kernel, ?_⟩
  obtain ⟨qs, hnd, _, _, _, _, hc, hm, _⟩ := sched_reach_queue _ _ _ _ hr
  exact ⟨qs, hnd, hc, hm⟩

end Dana
