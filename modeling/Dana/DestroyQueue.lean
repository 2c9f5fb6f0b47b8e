import Dana.SchedTurns
import Dana.ThreadDestroy

/-! What `thread_destroy` does to the run queue. -/
namespace Dana
open ByteMem LinkedRing Sched

theorem getThreadZone_sched {k k' : Kern} {z : Option ℕ} (hg : getThreadZone k = (z, k')) :
    k'.sched = k.sched := by
  have h : (getThreadZone k).2.sched = k.sched := by
    unfold getThreadZone
    cases k.threadZone <;> rfl
  rwa [hg] at h

/-- With the last reference gone, the scheduler is left as `sched_dequeue` leaves it. -/
theorem threadDestroy_links {t : Word} {k : Kern} (ht : t ≠ threadNull)
    (href : (k.sched.threads t).refCount = 1) :
    SameLinks (schedDequeue k.sched t).2 (threadDestroy t k).2.sched := by
  obtain ⟨v0, hv0⟩ : ∃ v0, v0 = { k.sched.threads t with refCount := 0 } := ⟨_, rfl⟩
  obtain ⟨s0, hs0⟩ : ∃ s0, s0 = { k.sched with
    threads := Function.update k.sched.threads t v0 } := ⟨_, rfl⟩
  have h0 : SameLinks (schedDequeue k.sched t).2 (schedDequeue s0 t).2 := by
    refine SameLinks.dequeue ?_ ht
    rw [hs0]
    exact sameLinks_update (by rw [hv0]) (by rw [hv0]) (by rw [hv0])
  have href0 : (k.sched.threads t).refCount-1 = 0 := by
    rw [href]
    rfl
  have hlt : ¬ (0 : BitVec 32) < 0 := by decide
  rw [threadDestroy, if_neg ht]
  simp only [Kern.setThread, href0, ← hv0, ← hs0, hlt, ↓reduceIte]
  -- freeing the stack and making the zone do not touch the scheduler
  split
  · next k' hg =>
    have hsched : k'.sched = (schedDequeue s0 t).2 := by
      rw [getThreadZone_sched hg]
      split_ifs <;> rfl
    change SameLinks _ k'.sched
    rw [hsched]
    exact h0
  · next z k' hg =>
    have hsched : k'.sched = (schedDequeue s0 t).2 := by
      rw [getThreadZone_sched hg]
      split_ifs <;> rfl
    rw [← hsched] at h0
    exact h0.trans (sameLinks_update rfl rfl rfl)

/-- A thread that is not queued is linked to nothing, so dequeuing it empties the queue and
counts one thread less. -/
theorem schedDequeue_unqueued {s : Sched} {created qs : List Word} {t : Word}
    (hI : QueueInv s created qs) (ht : t ∈ created) (ht0 : t ≠ threadNull) (hq : t ∉ qs) :
    (schedDequeue s t).2.next threadNull = threadNull ∧
      (schedDequeue s t).2.prev threadNull = threadNull ∧
      (schedDequeue s t).2.runqueue.count = s.runqueue.count-1 := by
  obtain ⟨hn0, hp0⟩ := hI.unlinked t ht ht0 hq
  obtain ⟨_, hn, hp, hc, _⟩ := schedDequeue_spec s t ht0
  refine ⟨?_, ?_, hc⟩
  · rw [hn, Function.update_of_ne ht0.symm, hp0, Function.update_self, hn0]
  · rw [hp, Function.update_of_ne ht0.symm, hn0, Function.update_self, hp0]

/-- `thread_destroy` of a live thread, its last reference, leaves the queue without it exactly
when the thread is queued. -/
theorem thread_destroy_queue {h : Hhdm} {w : SchedWorld} {qs : List Word} {t : Word}
    (hw : SchedOk h w qs) (ht : t ∈ w.created) (href : (w.sched.threads t).refCount = 1) :
    (threadDestroy t w.kern).2.sched.Queue (qs.erase t) ↔ Queued w.sched t := by
  have ht0 := hw.zones.ne_null ht
  have hlinks := threadDestroy_links ht0 href
  rw [hw.queue.queue.queued_iff]
  constructor
  · intro hq
    by_contra hnot
    -- the count is one too low
    obtain ⟨_, _, hc⟩ := schedDequeue_unqueued hw.queue ht ht0 hnot
    have hcount := hq.count
    rw [hlinks.count, List.erase_of_not_mem hnot, ← hw.queue.queue.count] at hcount
    have hc' : (schedDequeue w.kern.sched t).2.runqueue.count = w.sched.runqueue.count-1 := hc
    rw [hc'] at hcount
    bv_omega
  · intro hq
    have hdeq : (schedDequeue w.kern.sched t).2.Queue (qs.erase t) := hw.queue.queue.erase hq
    exact hdeq.congr hlinks.next hlinks.prev hlinks.count

theorem schedLast_ref : (schedIdle.made.made.sched.threads
    (schedIdle.made.made.created.headD 0)).refCount = 1 := by
  decide +kernel

/-- A queued thread is destroyed: the two others stay. -/
theorem thread_destroy_queue_last : ∃ w i t u, SchedOk higherHalf w [i, t, u] ∧ u ∈ w.created ∧
    (w.sched.threads u).refCount = 1 ∧ (threadDestroy u w.kern).2.sched.Queue ([i, t, u].erase u) := by
  obtain ⟨i, t, u, hw, _, _, _, hu, _⟩ := schedTwo_ok
  have hcreated : u ∈ schedIdle.made.made.created := List.mem_of_head? hu
  have hqueued : Queued schedIdle.made.made.sched u := (hw.queue.queue.queued_iff u).mpr (by simp)
  have href := schedLast_ref
  rw [List.headD_eq_head?_getD, hu] at href
  exact ⟨_, i, t, u, hw, hcreated, href, (thread_destroy_queue hw hcreated href).mpr hqueued⟩

/-- A blocked thread is destroyed: the two that are queued are lost. -/
theorem thread_destroy_empties_queue : ∃ w i t u, SchedOk higherHalf w [i, t] ∧ u ∈ w.created ∧
    u ≠ w.sched.cpuIdleThread ∧ w.sched.state u = .blocked ∧ (w.sched.threads u).refCount = 1 ∧
    (threadDestroy u w.kern).2.sched.runqueue.head = threadNull ∧
    ¬ (threadDestroy u w.kern).2.sched.Queue ([i, t].erase u) := by
  obtain ⟨i, t, u, hw, _, hid, hnd, hu, _⟩ := schedTwo_ok
  have hmem : u ∈ [i, t, u] := by simp
  have hiu : i ≠ u := fun he => by simp [he] at hnd
  have htu : t ≠ u := fun he => by simp [he] at hnd
  have hu0 := hw.queue.queue.ne_null hmem
  have href := schedLast_ref
  rw [List.headD_eq_head?_getD, hu] at href
  obtain ⟨hstate, _, hid'⟩ := schedBlock_spec schedIdle.made.made.sched hu0
  obtain ⟨hw', _⟩ := hw.blocked hmem
  rw [show [i, t, u].erase u = [i, t] by simp [hiu, htu]] at hw'
  have hout : u ∉ [i, t] := by simp [hiu.symm, htu.symm]
  have hcreated : u ∈ (schedIdle.made.made.blocked u).created := List.mem_of_head? hu
  have href' : ((schedIdle.made.made.blocked u).sched.threads u).refCount = 1 := by
    change ((schedBlock schedIdle.made.made.sched u).threads u).refCount = 1
    rw [← body_refCount, schedBlock_body, body_refCount]
    exact href
  have hlinks : SameLinks (schedDequeue (schedIdle.made.made.blocked u).sched u).2
    (threadDestroy u (schedIdle.made.made.blocked u).kern).2.sched := threadDestroy_links hu0 href'
  obtain ⟨hn, _, _⟩ := schedDequeue_unqueued hw'.queue hcreated hu0 hout
  refine ⟨_, i, t, u, hw', hcreated, ?_, ?_, href', ?_, fun hq => ?_⟩
  · change u ≠ (schedBlock schedIdle.made.made.sched u).cpuIdleThread
    rw [hid', hid]
    exact hiu.symm
  · change (schedBlock schedIdle.made.made.sched u).state u = .blocked
    rw [hstate, Function.update_self]
  · rw [← next_null, hlinks.next, hn]
  · -- an empty queue is not the one with the two others
    have hhead := hq.ring.next_sentinel
    rw [hlinks.next, hn, List.erase_of_not_mem hout] at hhead
    exact hw'.queue.queue.ne_null List.mem_cons_self hhead.symm

end Dana
