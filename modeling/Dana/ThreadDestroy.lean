import Dana.SchedLinks
import Dana.Thread

/-! `thread_destroy` of kern/thread.c. -/
namespace Dana
open ByteMem Sched

/-- `zfree` links the thread through its first word, where `thread_id` and `ref_count`
are. A zone that cannot be made is a null pointer to it; no thread exists then. -/
def threadDestroy (t : Word) (k : Kern) : KernReturn × Kern :=
  if t = threadNull then (.invalidArgument, k)
  else
    let v := k.sched.threads t
    let k := k.setThread t { v with refCount := v.refCount-1 }
    if 0 < v.refCount-1 then (.success, k)
    else
      let k := { k with sched := (schedDequeue k.sched t).2 }
      let phys := (k.sched.threads t).kernelStackPhys
      let k := if phys ≠ 0 then
          { k with kmem := { k.kmem with pmm := pmmFreePage k.kmem.pmm phys } }
        else k
      match getThreadZone k with
      | (none, k) => (.success, k)
      | (some z, k) =>
        let link := (k.zoneStore.zones z).freeList
        let (zone, kmem) := zfree (k.zoneStore.zones z) t k.kmem
        let k := { k with kmem := kmem, zoneStore := k.zoneStore.set z zone }
        (.success, k.setThread t { k.sched.threads t with
          threadId := link.setWidth 32
          refCount := (link >>> 32).setWidth 32 })

/-- The last reference: the thread leaves the queue, and its stack and itself are freed. -/
theorem threadDestroy_last {t : Word} {k : Kern} {z : ℕ} (ht : t ≠ threadNull)
    (href : (k.sched.threads t).refCount = 1) (hz : k.threadZone = some z)
    (hphys : (k.sched.threads t).kernelStackPhys ≠ 0) {zone : Zone} {kmem : Kmem}
    (hf : zfree (k.zoneStore.zones z) t { k.kmem with
      pmm := pmmFreePage k.kmem.pmm (k.sched.threads t).kernelStackPhys } = (zone, kmem)) :
    ∃ s : Sched, threadDestroy t k = (.success, { k with
        kmem := kmem, zoneStore := k.zoneStore.set z zone, sched := s }) ∧
      SameLinks (schedDequeue k.sched t).2 s ∧ (∀ x, x ≠ t → s.body x = k.sched.body x) ∧
      ∀ x, (s.threads x).taskNext = (k.sched.threads x).taskNext := by
  obtain ⟨v0, hv0⟩ : ∃ v0, v0 = { k.sched.threads t with refCount := 0 } := ⟨_, rfl⟩
  obtain ⟨s0, hs0⟩ : ∃ s0, s0 = { k.sched with
    threads := Function.update k.sched.threads t v0 } := ⟨_, rfl⟩
  obtain ⟨s1, hs1⟩ : ∃ s1, s1 = (schedDequeue s0 t).2 := ⟨_, rfl⟩
  obtain ⟨v1, hv1⟩ : ∃ v1, v1 = { s1.threads t with
    threadId := (k.zoneStore.zones z).freeList.setWidth 32
    refCount := ((k.zoneStore.zones z).freeList >>> 32).setWidth 32 } := ⟨_, rfl⟩
  have hself : s0.threads t = v0 := by
    rw [hs0]
    exact Function.update_self ..
  have hbody (x : Word) : s1.body x = s0.body x := by rw [hs1, schedDequeue_body]
  have hphys1 : (s1.threads t).kernelStackPhys = (k.sched.threads t).kernelStackPhys := by
    rw [← body_kernelStackPhys, hbody, body_kernelStackPhys, hself, hv0]
  have href0 : (k.sched.threads t).refCount-1 = 0 := by rw [href]; rfl
  refine ⟨{ s1 with threads := Function.update s1.threads t v1 }, ?_, ?_, fun x hx => ?_,
    fun x => ?_⟩
  · have hlt : ¬ (0 : BitVec 32) < 0 := by decide
    rw [threadDestroy, if_neg ht, hv1]
    simp only [Kern.setThread, href0, ← hv0, ← hs0, ← hs1, hphys1, hphys, hlt, ↓reduceIte, ne_eq,
      not_false_eq_true, getThreadZone, hz, hf]
  · have h0 : SameLinks k.sched s0 := by
      rw [hs0]
      exact sameLinks_update (by rw [hv0]) (by rw [hv0]) (by rw [hv0])
    have h1 : SameLinks (schedDequeue k.sched t).2 s1 := by
      rw [hs1]
      exact h0.dequeue ht
    exact h1.trans (sameLinks_update (by rw [hv1]) (by rw [hv1]) (by rw [hv1]))
  · have hupd : Function.update s1.threads t v1 x = s1.threads x := Function.update_of_ne hx ..
    have hupd0 : s0.threads x = k.sched.threads x := by
      rw [hs0]
      exact Function.update_of_ne hx ..
    calc (Function.update s1.threads t v1 x).body = s1.body x := by rw [hupd, Sched.body]
      _ = s0.body x := hbody x
      _ = k.sched.body x := by rw [Sched.body, hupd0, Sched.body]
  · have h1 : (s1.threads x).taskNext = (s0.threads x).taskNext := by
      rw [← body_taskNext, hbody, body_taskNext]
    change (Function.update s1.threads t v1 x).taskNext = _
    by_cases hx : x = t
    · rw [hx] at h1 ⊢
      rw [Function.update_self, hv1]
      change (s1.threads t).taskNext = _
      rw [h1, hself, hv0]
    · rw [Function.update_of_ne hx, h1, hs0]
      change (Function.update k.sched.threads t v0 x).taskNext = _
      rw [Function.update_of_ne hx]

/-- The handler of `SYSCALL_THREAD_EXIT`; its arguments are not read. -/
def sysThreadExitWrapper (k : Kern) : KernReturn × Kern :=
  let current := k.sched.cpuCurrentThread
  if current ≠ threadNull then (.success, (threadDestroy current k).2) else (.success, k)

end Dana
