import Dana.SchedInv
import Dana.ThreadSwitch
import Dana.Zalloc

/-! `thread_create` of kern/thread.c, and runs of threads under the scheduler. -/
namespace Dana
open ByteMem LinkedRing Sched

def sizeofThread : Word := 88

def taskNull : Word := 0
def ipcPortNull : Word := 0

/-- The fields of `struct task` that `thread_create` uses. -/
structure Task where
  threads : Word
  threadCount : BitVec 32

/-- The state of kern/thread.c and kern/sched.c, with the memory they allocate from. -/
structure Kern where
  kmem : Kmem
  zoneStore : ZoneStore
  threadZone : Option ℕ
  nextThreadId : BitVec 32
  tasks : Word → Task
  sched : Sched

def Kern.setThread (k : Kern) (t : Word) (v : Thread) : Kern :=
  { k with sched := { k.sched with threads := Function.update k.sched.threads t v } }

/-- A thread whose bytes are all 0. -/
def Thread.zero : Thread where
  threadId := 0
  refCount := 0
  task := 0
  taskNext := 0
  savedRsp := 0
  ithSelf := 0
  kernelStackPhys := 0
  kernelStackTop := 0
  state := .runnable
  next := 0
  prev := 0
  runTime := 0

def getThreadZone (k : Kern) : Option ℕ × Kern :=
  match k.threadZone with
  | some z => (some z, k)
  | none =>
    let (z, zoneStore) := zinit k.zoneStore sizeofThread 0
    (z, { k with zoneStore := zoneStore, threadZone := z })

/-- The rest of `thread_create`, from a thread and a kernel stack on. -/
def threadSetup (h : Hhdm) (threadTrampoline task entry arg t stackPhys : Word) (k : Kern) :
    Kern :=
  let top := physToVirt h stackPhys+kstackSize
  let (mem, sp) := threadInitStack k.kmem.mem top threadTrampoline entry arg
  let v : Thread :=
    { threadId := k.nextThreadId, refCount := 1, task := task, taskNext := threadNull,
      savedRsp := sp, ithSelf := ipcPortNull, kernelStackPhys := stackPhys,
      kernelStackTop := top, state := .runnable, next := threadNull, prev := threadNull,
      runTime := 0 }
  let k := { k with kmem := { k.kmem with mem := mem }, nextThreadId := k.nextThreadId+1 }
  let k := if task ≠ taskNull then
      { k.setThread t { v with taskNext := (k.tasks task).threads } with
        tasks := Function.update k.tasks task ⟨t, (k.tasks task).threadCount+1⟩ }
    else k.setThread t v
  { k with sched := (schedEnqueue k.sched t).2 }

/-- The part of `thread_create` after `zalloc` has returned `t`. -/
def threadStack (h : Hhdm) (threadTrampoline task entry arg : Word) (z : ℕ) (t : Word)
    (k : Kern) : KernReturn × Option Word × Kern :=
  let (stackPhys, pmm) := pmmAllocPage k.kmem.pmm
  let k := { k with kmem := { k.kmem with pmm := pmm } }
  if stackPhys = pmmNull then
    let (zone, kmem) := zfree (k.zoneStore.zones z) t k.kmem
    (.noSpace, none, { k with kmem := kmem, zoneStore := k.zoneStore.set z zone })
  else (.success, some t, threadSetup h threadTrampoline task entry arg t stackPhys k)

/-- The result, the thread stored through `thread_out` (if any) and the new state. -/
def threadCreate (h : Hhdm) (threadTrampoline task entry arg : Word) (k : Kern) :
    KernReturn × Option Word × Kern :=
  match getThreadZone k with
  | (none, k) => (.noSpace, none, k)
  | (some z, k) =>
    let (t, zone, kmem) := zalloc h (k.zoneStore.zones z) k.kmem
    let k := { k with kmem := kmem, zoneStore := k.zoneStore.set z zone }
    if t = threadNull then (.noSpace, none, k)
    else threadStack h threadTrampoline task entry arg z t (k.setThread t Thread.zero)

def schedCreateIdle (h : Hhdm) (threadTrampoline idleThreadEntry : Word) (k : Kern) :
    KernReturn × Option Word × Kern :=
  match threadCreate h threadTrampoline taskNull idleThreadEntry threadNull k with
  | (.success, some idle, k) =>
    let s := { k.sched with cpuIdleThread := idle, cpuCurrentThread := idle }
    (.success, some idle, { k with sched := schedSetState s idle .running })
  | r => r

/-- `thread_create` fails for want of an element or of a stack, then handing the element
back, or sets the thread up. -/
theorem threadCreate_eq {h : Hhdm} {k k1 k2 : Kern} {z : ℕ} {t pa : Word} {zone : Zone}
    {kmem : Kmem} {pmm : Pmm} (hg : getThreadZone k = (some z, k1))
    (ha : zalloc h (k1.zoneStore.zones z) k1.kmem = (t, zone, kmem))
    (hp : pmmAllocPage kmem.pmm = (pa, pmm))
    (hk2 : k2 = Kern.setThread { k1 with
      kmem := { kmem with pmm := pmm }, zoneStore := k1.zoneStore.set z zone } t Thread.zero)
    (trampoline task entry arg : Word) :
    threadCreate h trampoline task entry arg k =
      if t = threadNull then (.noSpace, none, { k1 with
        kmem := kmem, zoneStore := k1.zoneStore.set z zone })
      else if pa = pmmNull then (.noSpace, none, { k2 with
        kmem := (zfree (k2.zoneStore.zones z) t k2.kmem).2
        zoneStore := k2.zoneStore.set z (zfree (k2.zoneStore.zones z) t k2.kmem).1 })
      else (.success, some t, threadSetup h trampoline task entry arg t pa k2) := by
  rw [threadCreate, hg]
  simp only [ha, threadStack, Kern.setThread, hp, hk2]

/-- What holds of the scheduler, the thread zone and the PMM: the created threads are
the live elements of the zone. -/
structure KernInv (h : Hhdm) (k : Kern) (created qs : List Word) : Prop where
  sched : SchedInv k.sched created qs
  pageZero : ¬ k.kmem.pmm.Free 0
  noZone : k.threadZone = none → created = []
  zone : ∀ z, k.threadZone = some z → ∃ pages free,
    ZoneOk h k.kmem pages (k.zoneStore.zones z) free {t | t ∈ created}

/-- The part of it that is not about the scheduler. -/
structure KernZone (h : Hhdm) (k : Kern) (created : List Word) : Prop where
  pageZero : ¬ k.kmem.pmm.Free 0
  noZone : k.threadZone = none → created = []
  zone : ∀ z, k.threadZone = some z → ∃ pages free,
    ZoneOk h k.kmem pages (k.zoneStore.zones z) free {t | t ∈ created}

theorem KernInv.zones {h : Hhdm} {k : Kern} {created qs : List Word}
    (hk : KernInv h k created qs) : KernZone h k created := ⟨hk.pageZero, hk.noZone, hk.zone⟩

theorem KernZone.ne_null {h : Hhdm} {k : Kern} {created : List Word} (hk : KernZone h k created)
    {t : Word} (ht : t ∈ created) : t ≠ threadNull := by
  cases hz : k.threadZone with
  | none => simp [hk.noZone hz] at ht
  | some z =>
    obtain ⟨pages, free, hzone⟩ := hk.zone z hz
    exact hzone.live_ne_zero ht

/-- Two created threads are different slots, so a 32-bit count of them is exact. -/
theorem KernZone.length_lt {h : Hhdm} {k : Kern} {created qs : List Word}
    (hk : KernZone h k created) (hnd : qs.Nodup) (hc : ∀ t ∈ qs, t ∈ created) :
    qs.length < 2^32 := by
  cases hz : k.threadZone with
  | none =>
    have hnil : qs = [] := List.eq_nil_iff_forall_not_mem.mpr fun t ht => by
      have := hc t ht
      simp [hk.noZone hz] at this
    simp [hnil]
  | some z =>
    obtain ⟨pages, free, hzone⟩ := hk.zone z hz
    exact hzone.live_length hnd hc

theorem KernInv.length_lt {h : Hhdm} {k : Kern} {created qs : List Word}
    (hk : KernInv h k created qs) : qs.length < 2^32 :=
  hk.zones.length_lt (List.nodup_cons.mp hk.sched.queue.ring.nodup).2
    fun t ht => ((hk.sched.mem_iff t).mp ht).1

/-- The initial stack is written in the page of the stack only. -/
theorem threadInitStack_frame_of (h : Hhdm) (m : Mem) (stackPhys trampoline entry arg x : Word)
    (ha : PageAligned stackPhys) (hx : frameOf h x ≠ pageOf stackPhys) :
    (threadInitStack m (physToVirt h stackPhys+kstackSize) trampoline entry arg).1 x = m x := by
  apply X86.pushAll_byte
  intro i hi hlt
  have hi8 : i < 8 := hi
  apply hx
  rw [← sub_lt_iff_frameOf h stackPhys x ha]
  simp only [pmmPageSize, kstackSize, X86.below] at *
  bv_omega

variable {h : Hhdm} {k : Kern} {created qs : List Word}

/-- The zone is there already, is made now with no thread in it, or cannot be made. -/
theorem getThreadZone_spec (hk : KernZone h k created) :
    ∃ k1, (getThreadZone k).2 = k1 ∧ k1.sched = k.sched ∧ k1.kmem = k.kmem ∧
      k1.threadZone = (getThreadZone k).1 ∧ KernZone h k1 created := by
  refine ⟨_, rfl, ?_⟩
  unfold getThreadZone
  cases hz : k.threadZone with
  | some z => exact ⟨rfl, rfl, hz, hk⟩
  | none =>
    refine ⟨rfl, rfl, rfl, hk.pageZero, fun _ => hk.noZone hz, fun z hz' => ?_⟩
    have hlive : {t | t ∈ created} = (∅ : Set Word) := by simp [hk.noZone hz]
    refine ⟨∅, [], ?_⟩
    rw [hlive, zinit_zone hz']
    exact zoneOk_new k.kmem _ (by decide) (by decide) rfl

theorem Kern.setThread_untouched (k : Kern) (t : Word) (v : Thread) (ht : t ∉ created) :
    Untouched created k.sched (k.setThread t v).sched := by
  refine ⟨rfl, fun x hx => Function.update_of_ne ?_ _ _, rfl, rfl⟩
  rintro rfl
  exact ht hx

/-- The thread that `thread_create` fills in, and the state around it. -/
theorem threadSetup_eq (h : Hhdm) (trampoline task entry arg t stackPhys : Word) (k : Kern) :
    ∃ v : Thread, v.state = .runnable ∧ v.refCount = 1 ∧ v.task = task ∧
      v.taskNext = (if task ≠ taskNull then (k.tasks task).threads else threadNull) ∧
      v.kernelStackPhys = stackPhys ∧
      threadSetup h trampoline task entry arg t stackPhys k = { k with
        kmem := { k.kmem with
          mem := (threadInitStack k.kmem.mem (physToVirt h stackPhys+kstackSize) trampoline
            entry arg).1 }
        nextThreadId := k.nextThreadId+1
        tasks := if task ≠ taskNull then
            Function.update k.tasks task ⟨t, (k.tasks task).threadCount+1⟩
          else k.tasks
        sched := (schedEnqueue { k.sched with
          threads := Function.update k.sched.threads t v } t).2 } := by
  unfold threadSetup
  by_cases htask : task = taskNull
  · simp only [htask, ne_eq, not_true_eq_false, ↓reduceIte]
    exact ⟨_, rfl, rfl, rfl, rfl, rfl, rfl⟩
  · simp only [htask, ne_eq, not_false_eq_true, ↓reduceIte]
    exact ⟨_, rfl, rfl, rfl, rfl, rfl, rfl⟩

/-- Setting up a new element `t` of the thread zone makes it a live thread, put at the end
of the run queue. -/
theorem threadSetup_zone {z : ℕ} {t stackPhys : Word} {pages : Set ℕ} {free : List Word}
    (h0 : ¬ k.kmem.pmm.Free 0) (hz : k.threadZone = some z)
    (hzok : ZoneOk h k.kmem pages (k.zoneStore.zones z) free (insert t {t | t ∈ created}))
    (ha : PageAligned stackPhys) (hstack : pageOf stackPhys ∉ pages)
    (trampoline task entry arg : Word) :
    KernZone h (threadSetup h trampoline task entry arg t stackPhys k) (t :: created) ∧
      ∃ v : Thread, v.state = .runnable ∧
        (threadSetup h trampoline task entry arg t stackPhys k).sched =
          (schedEnqueue { k.sched with
            threads := Function.update k.sched.threads t v } t).2 := by
  obtain ⟨v, hv, _, _, _, _, he⟩ := threadSetup_eq h trampoline task entry arg t stackPhys k
  rw [he]
  refine ⟨⟨h0, fun hn => ?_, fun z' hz' => ⟨pages, free, ?_⟩⟩, v, hv, rfl⟩
  · cases hz.symm.trans hn
  · obtain rfl := Option.some.inj (hz.symm.trans hz')
    have hlive : {x | x ∈ t :: created} = insert t {x | x ∈ created} := by
      ext x
      simp
    rw [hlive]
    refine hzok.congr (fun n _ hf => hf) fun x hx => ?_
    refine threadInitStack_frame_of h _ stackPhys trampoline entry arg x ha fun he => ?_
    exact hstack (he ▸ hx)

theorem threadStack_zone {z : ℕ} {t : Word} {pages : Set ℕ} {free : List Word}
    (h0 : ¬ k.kmem.pmm.Free 0) (hz : k.threadZone = some z)
    (hzok : ZoneOk h k.kmem pages (k.zoneStore.zones z) free (insert t {t | t ∈ created}))
    (htc : t ∉ created) (trampoline task entry arg : Word) :
    (∃ k' v, threadStack h trampoline task entry arg z t k = (.success, some t, k') ∧
      KernZone h k' (t :: created) ∧ v.state = .runnable ∧
      k'.sched = (schedEnqueue { k.sched with
        threads := Function.update k.sched.threads t v } t).2) ∨
    ∃ k', threadStack h trampoline task entry arg z t k = (.noSpace, none, k') ∧
      KernZone h k' created ∧ k'.sched = k.sched := by
  obtain ⟨stackPhys, pmm, hpa⟩ : ∃ stackPhys pmm,
    pmmAllocPage k.kmem.pmm = (stackPhys, pmm) := ⟨_, _, rfl⟩
  simp only [threadStack, hpa]
  by_cases hnull : stackPhys = pmmNull
  · right
    obtain ⟨zone, kmem, hzf⟩ : ∃ zone kmem, zfree (k.zoneStore.zones z) t
      { k.kmem with pmm := pmm } = (zone, kmem) := ⟨_, _, rfl⟩
    rw [if_pos hnull]
    simp only [hzf]
    have hpmm := pmmAllocPage_none h0 (hnull ▸ hpa)
    rw [hpmm] at hzf
    obtain ⟨_, hpmm', hzok', _⟩ := zfree_spec hzok (Set.mem_insert _ _) hzf
    refine ⟨_, rfl, ⟨?_, fun hn => ?_, fun z' hz' => ⟨pages, t :: free, ?_⟩⟩, rfl⟩
    · rw [hpmm']
      exact h0
    · rw [hz] at hn
      cases hn
    · obtain rfl := Option.some.inj (hz.symm.trans hz')
      have hlive : insert t {x | x ∈ created} \ {t} = {x | x ∈ created} := by
        rw [Set.insert_sdiff_of_mem _ (Set.mem_singleton t)]
        exact Set.sdiff_singleton_eq_self htc
      rw [hlive] at hzok'
      rw [ZoneStore.set_zones]
      exact hzok'
  · left
    obtain ⟨hal, hfree, hiff⟩ := pmmAllocPage_some h0 hpa hnull
    rw [if_neg hnull]
    obtain ⟨hzone, v, hv, hs⟩ := threadSetup_zone (k := { k with kmem := { k.kmem with pmm := pmm } })
      (fun hf => h0 ((hiff 0).mp hf).1) hz
      (hzok.congr (fun n _ hf => ((hiff n).mp hf).1) fun _ _ => rfl) hal
      (fun hp => (hzok.pages_used _ hp).2.2 hfree) trampoline task entry arg
    exact ⟨_, v, rfl, hzone, hv, hs⟩

/-- `thread_create` puts a new runnable thread at the end of the queue, or fails and leaves
the scheduler as it was. -/
theorem threadCreate_effect (hk : KernZone h k created) (trampoline task entry arg : Word) :
    (∃ t k' s, threadCreate h trampoline task entry arg k = (.success, some t, k') ∧
      t ∉ created ∧ KernZone h k' (t :: created) ∧ Untouched created k.sched s ∧
      s.state t = .runnable ∧ k'.sched = (schedEnqueue s t).2) ∨
    ∃ k', threadCreate h trampoline task entry arg k = (.noSpace, none, k') ∧
      KernZone h k' created ∧ Untouched created k.sched k'.sched := by
  obtain ⟨k1, hk1, hsched1, _, hzone1, hinv1⟩ := getThreadZone_spec hk
  have hpair : getThreadZone k = ((getThreadZone k).1, k1) := by rw [← hk1]
  have hrefl : Untouched created k.sched k1.sched := by
    rw [hsched1]
    exact ⟨rfl, fun _ _ => rfl, rfl, rfl⟩
  unfold threadCreate
  rw [hpair]
  cases hz : (getThreadZone k).1 with
  | none => exact Or.inr ⟨k1, rfl, hinv1, hrefl⟩
  | some z =>
    rw [hz] at hzone1
    obtain ⟨pages, free, hzok⟩ := hinv1.zone z hzone1
    obtain ⟨t, zone, kmem, hza⟩ : ∃ t zone kmem,
      zalloc h (k1.zoneStore.zones z) k1.kmem = (t, zone, kmem) := ⟨_, _, _, rfl⟩
    simp only [hza]
    rcases zalloc_spec hzok hinv1.pageZero hza with ⟨rfl, rfl, rfl⟩ |
      ⟨ht0, htc, _, _, pages', free', hzok', hgr, _⟩
    · right
      rw [if_pos (show (0 : Word) = threadNull from rfl)]
      have hstore : k1.zoneStore.set z (k1.zoneStore.zones z) = k1.zoneStore := by
        simp [ZoneStore.set]
      refine ⟨_, rfl, ?_, hrefl⟩
      rw [hstore]
      exact hinv1
    · obtain ⟨k2, hk2⟩ : ∃ k2, k2 = Kern.setThread { k1 with
        kmem := kmem, zoneStore := k1.zoneStore.set z zone } t Thread.zero := ⟨_, rfl⟩
      have ht0' : t ≠ threadNull := ht0
      rw [if_neg ht0', ← hk2]
      have hunt : Untouched created k.sched k2.sched := by
        rw [hk2, ← hsched1]
        exact Kern.setThread_untouched k1 t Thread.zero htc
      have hp2 : ¬ k2.kmem.pmm.Free 0 := by
        rw [hk2]
        exact fun hf => hinv1.pageZero ((hgr.free 0).mp hf).1
      have hz2 : k2.threadZone = some z := by
        rw [hk2]
        exact hzone1
      have hzok2 : ZoneOk h k2.kmem pages' (k2.zoneStore.zones z) free'
          (insert t {t | t ∈ created}) := by
        rw [hk2]
        simpa [Kern.setThread] using hzok'
      rcases threadStack_zone hp2 hz2 hzok2 htc trampoline task entry arg with
        ⟨k', v, he, hk', hv, hs⟩ | ⟨k', he, hk', hsame⟩
      · refine Or.inl ⟨t, k', _, he, htc, hk', hunt.trans (k2.setThread_untouched t v htc), ?_, hs⟩
        change (Function.update k2.sched.threads t v t).state = .runnable
        rw [Function.update_self, hv]
      · exact Or.inr ⟨k', he, hk', hsame ▸ hunt⟩

/-- `thread_create` keeps the invariant, with the new thread queued. -/
theorem threadCreate_spec (hk : KernInv h k created qs) (trampoline task entry arg : Word) :
    (∃ t k', threadCreate h trampoline task entry arg k = (.success, some t, k') ∧
      t ∉ created ∧ KernInv h k' (t :: created) (qs ++ [t]) ∧
      k'.sched.cpuCurrentThread = k.sched.cpuCurrentThread ∧
      k'.sched.cpuIdleThread = k.sched.cpuIdleThread) ∨
    ∃ k', threadCreate h trampoline task entry arg k = (.noSpace, none, k') ∧
      KernInv h k' created qs ∧ Untouched created k.sched k'.sched := by
  rcases threadCreate_effect hk.zones trampoline task entry arg with
    ⟨t, k', s, he, htc, hk', hunt, hst, hs⟩ | ⟨k', he, hk', hunt⟩
  · have ht0 : t ≠ threadNull := hk'.ne_null List.mem_cons_self
    have hnew : t ∉ qs := fun hq => htc ((hk.sched.mem_iff t).mp hq).1
    obtain ⟨_, _, _, _, hsame⟩ := schedEnqueue_spec s t ht0
    have hsched : SchedInv k'.sched (t :: created) (qs ++ [t]) := by
      rw [hs]
      exact (hk.sched.congr hunt).enqueue ht0 hnew hst fun x => List.mem_cons
    refine Or.inl ⟨t, k', he, htc, ⟨hsched, hk'.pageZero, hk'.noZone, hk'.zone⟩, ?_, ?_⟩
    · rw [hs, hsame.current, hunt.current]
    · rw [hs, hsame.idle, hunt.idle]
  · exact Or.inr ⟨k', he, ⟨hk.sched.congr hunt, hk'.pageZero, hk'.noZone, hk'.zone⟩, hunt⟩

end Dana
