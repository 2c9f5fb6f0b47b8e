import Dana.IpcOwnership
import Dana.SchedRuns
import Dana.ThreadZones

/-! The life of threads: made, run, blocked on ports, and destroyed. Who still refers to a
thread when it has been freed. -/
namespace Dana
open ByteMem LinkedRing Sched Transition

/-- The threads are those that have been created and not freed. -/
structure ThreadWorld where
  msgs : IpcWorld
  threads : List Word

inductive ThreadOp
  | ipc (op : IpcOp)
  | create (task entry arg : Word) (r : Option Word)
  | destroy (t : Word)
  | exit

namespace ThreadWorld

def kern (w : ThreadWorld) : Kern := w.msgs.ipc.kern

def sched (w : ThreadWorld) : Sched := w.msgs.sched

def current (w : ThreadWorld) : Word := w.msgs.current

/-- The state after a call that changes threads only. -/
def withKern (w : ThreadWorld) (k : Kern) (threads : List Word) : ThreadWorld :=
  ⟨{ w.msgs with ipc := { w.msgs.ipc with kern := k } }, threads⟩

/-- The thread whose last reference `thread_destroy(t)` drops. -/
def lastRef (w : ThreadWorld) (t : Word) : Option Word :=
  if (w.sched.threads t).refCount = 1 then some t else none

/-- The threads left when `t` has lost a reference. -/
def without (w : ThreadWorld) (t : Word) : List Word :=
  if (w.sched.threads t).refCount = 1 then w.threads.erase t else w.threads

/-- `task->threads`, followed along `task_next`. -/
def TaskChain (w : ThreadWorld) (task : Word) (l : List Word) : Prop :=
  ∃ n, follow (fun t => (w.sched.threads t).taskNext) threadNull n (w.kern.tasks task).threads =
    some l

end ThreadWorld

/-- The thread that an operation frees. -/
def ThreadOp.frees (w : ThreadWorld) : ThreadOp → Option Word
  | .destroy t => w.lastRef t
  | .exit => w.lastRef w.current
  | _ => none

/-- One step: of the threads that exchange messages, a thread made for any task or none, one
destroyed by a holder of a live one, or the thread-exit system call. -/
inductive ThreadStep (h : Hhdm) (threadTrampoline : Word) :
    ThreadWorld → ThreadOp → ThreadWorld → Prop
  | ipc (w : ThreadWorld) {op : IpcOp} {m : IpcWorld} (hs : IpcStep h w.msgs op m) :
    ThreadStep h threadTrampoline w (.ipc op) { w with msgs := m }
  | create (w : ThreadWorld) {task entry arg : Word} {kr : KernReturn} {r : Option Word} {k : Kern}
    (hw : w.msgs.waits w.current = none)
    (he : threadCreate h threadTrampoline task entry arg w.kern = (kr, r, k)) :
    ThreadStep h threadTrampoline w (.create task entry arg r)
      (w.withKern k (r.toList ++ w.threads))
  | destroy (w : ThreadWorld) {t : Word} {kr : KernReturn} {k : Kern}
    (hw : w.msgs.waits w.current = none) (ht : t ∈ w.threads)
    (he : threadDestroy t w.kern = (kr, k)) :
    ThreadStep h threadTrampoline w (.destroy t) (w.withKern k (w.without t))
  | exit (w : ThreadWorld) {kr : KernReturn} {k : Kern} (hw : w.msgs.waits w.current = none)
    (he : sysThreadExitWrapper w.kern = (kr, k)) :
    ThreadStep h threadTrampoline w .exit (w.withKern k (w.without w.current))

/-- No run-queue link, CPU pointer, task's chain or port's waiter is `t`, and every task
counts the threads of its chain. -/
structure NoDangling (w : ThreadWorld) (t : Word) : Prop where
  queue : w.sched.runqueue.head ≠ t ∧ w.sched.runqueue.tail ≠ t
  links : ∀ u ∈ w.threads, (w.sched.threads u).next ≠ t ∧ (w.sched.threads u).prev ≠ t
  cpu : w.sched.cpuCurrentThread ≠ t ∧ w.sched.cpuIdleThread ≠ t
  waiter : ∀ p ∈ w.msgs.livePorts, (w.msgs.port p).waitingThread ≠ t
  chain : ∀ task, task ≠ taskNull → ∀ l, w.TaskChain task l → t ∉ l
  count : ∀ task, task ≠ taskNull →
    ∃ l, w.TaskChain task l ∧ (w.kern.tasks task).threadCount.toNat = l.length

/-- `t` has no task, does not run, and is not the idle thread. -/
def Unreferenced (w : ThreadWorld) (t : Word) : Prop :=
  (w.sched.threads t).task = taskNull ∧ t ≠ w.sched.cpuCurrentThread ∧ t ≠ w.sched.cpuIdleThread

/-- Only such threads are freed. -/
def FreesUnreferenced (w : ThreadWorld) (op : ThreadOp) : Prop :=
  ∀ t, op.frees w = some t → Unreferenced w t

/-- The pages of ports and of the stacks of `threads`. -/
def heldPages (R : Set ℕ) (s : Sched) (threads : List Word) : Set ℕ :=
  R ∪ {n | ∃ t ∈ threads, pageOf (s.threads t).kernelStackPhys = n}

/-- The threads of a task are those of its chain, each once. -/
def ChainOk (w : ThreadWorld) (task : Word) : Prop :=
  ∃ l, w.TaskChain task l ∧ l.Nodup ∧
    (∀ t, t ∈ l ↔ t ∈ w.threads ∧ (w.sched.threads t).task = task) ∧
    (w.kern.tasks task).threadCount = BitVec.ofNat 32 l.length

/-- Threads that were created with stacks of their own and can all run, ports that hold
nothing yet, and every zone but the port zone in order. -/
structure ThreadBoot (h : Hhdm) (R : Set ℕ) (w : ThreadWorld) : Prop where
  ipc : IpcBoot h w.msgs w.threads
  ready : ∀ t ∈ w.threads, (w.sched.state t).CanRun
  ref : ∀ t ∈ w.threads, (w.sched.threads t).refCount = 1
  chain : ∀ task, task ≠ taskNull → ChainOk w task
  ports : ∀ p ∈ w.msgs.livePorts, ∀ x, x-p < 8 → frameOf h x ∈ R
  stack : ∀ t ∈ w.threads, (w.sched.threads t).kernelStackPhys ≠ 0 ∧
    pageOf (w.sched.threads t).kernelStackPhys ∉ R
  apart : ∀ t ∈ w.threads, ∀ u ∈ w.threads, pageOf (w.sched.threads t).kernelStackPhys =
    pageOf (w.sched.threads u).kernelStackPhys → t = u
  zones : ∃ z zp, KernZones h (heldPages R w.sched w.threads) w.msgs.ipc z zp w.threads []

/-- What every run keeps that frees only threads nothing refers to. -/
structure ThreadInv (h : Hhdm) (R : Set ℕ) (ports : List Word) (w : ThreadWorld) : Prop where
  inv : IpcInv w.threads w.msgs
  kmsg : KmsgInv (HeldZones h (heldPages R w.sched w.threads) w.kern.tasks w.threads) w.msgs
  among : PortsAmong ports w.msgs
  mem : ∀ p ∈ ports, ∀ x, x-p < 8 → frameOf h x ∈ R
  stack : ∀ t ∈ w.threads, (w.sched.threads t).kernelStackPhys ≠ 0 ∧
    pageOf (w.sched.threads t).kernelStackPhys ∉ R
  apart : ∀ t ∈ w.threads, ∀ u ∈ w.threads, pageOf (w.sched.threads t).kernelStackPhys =
    pageOf (w.sched.threads u).kernelStackPhys → t = u
  unlinked : Unlinked w.sched w.threads
  taskless : ∀ t ∈ w.threads, (w.sched.threads t).task = taskNull → (w.sched.state t).CanRun
  waits : ∀ t, w.msgs.waits t ≠ none → (w.sched.threads t).task ≠ taskNull
  ref : ∀ t ∈ w.threads, (w.sched.threads t).refCount = 1
  chain : ∀ task, task ≠ taskNull → ChainOk w task

section Life
variable {h : Hhdm} {R : Set ℕ} {ports : List Word} {w w' : ThreadWorld} {t : Word}

theorem ThreadInv.rules (hI : ThreadInv h R ports w) :
    KmsgRules h (fun _ p => p ∈ ports)
      (HeldZones h (heldPages R w.sched w.threads) w.kern.tasks w.threads) :=
  heldZones_rules fun p hp x hx => Or.inl (hI.mem p hp x hx)

/-- The threads are different elements of the thread zone. -/
theorem ThreadInv.threads (hI : ThreadInv h R ports w) :
    w.threads.Nodup ∧ (∀ t ∈ w.threads, t ≠ threadNull) ∧
      ∀ l : List Word, l.Nodup → (∀ t ∈ l, t ∈ w.threads) → l.length < 2^32 := by
  obtain ⟨_, z, zp, hK⟩ := hI.kmsg.zone
  refine ⟨hK.nodup.1, fun t ht => ?_, fun l hnd hl => ?_⟩
  · rcases hK.thread with ⟨_, hnil⟩ | ⟨n, _, _, _, hlive⟩
    · rw [hnil] at ht
      cases ht
    · apply hK.inv.live_ne_zero (z := n)
      rw [hlive]
      exact ht
  · rcases hK.thread with ⟨_, hnil⟩ | ⟨n, _, hlt, _, hlive⟩
    · have hl0 : l = [] := List.eq_nil_iff_forall_not_mem.mpr fun t ht => by
        have := hl t ht
        rw [hnil] at this
        cases this
      rw [hl0]
      decide
    · obtain ⟨free, hok, _⟩ := hK.inv.zones.zone n hlt
      refine hok.live_length hnd fun t ht => ?_
      rw [hlive]
      exact hl t ht

/-- The chain of a task depends on its head and on the links of its threads. -/
theorem ThreadWorld.TaskChain.congr {task : Word} {l : List Word} (hc : w.TaskChain task l)
    (hh : (w'.kern.tasks task).threads = (w.kern.tasks task).threads)
    (hn : ∀ t ∈ l, (w'.sched.threads t).taskNext = (w.sched.threads t).taskNext) :
    w'.TaskChain task l := by
  obtain ⟨n, hf⟩ := hc
  refine ⟨n, ?_⟩
  rw [hh]
  exact follow_congr_mem hf hn

theorem ThreadWorld.TaskChain.unique {task : Word} {l l' : List Word} (hc : w.TaskChain task l)
    (hc' : w.TaskChain task l') : l = l' := by
  obtain ⟨n, hf⟩ := hc
  obtain ⟨n', hf'⟩ := hc'
  exact follow_unique hf hf'

/-- Where the threads keep their bodies and the tasks are the same. -/
theorem ChainOk.of_body {task : Word} (hc : ChainOk w task) (hth : w'.threads = w.threads)
    (hb : w'.sched.body = w.sched.body) (ht : w'.kern.tasks = w.kern.tasks) :
    ChainOk w' task := by
  obtain ⟨l, hl, hnd, hiff, hcount⟩ := hc
  refine ⟨l, hl.congr (by rw [ht]) fun t _ => ?_, hnd, fun t => ?_, by rw [ht]; exact hcount⟩
  · rw [← body_taskNext, hb, body_taskNext]
  · rw [hiff, hth, ← body_task, ← body_task, hb]

/-- What an IPC step does to the threads. -/
theorem ThreadInv.ipc_sched (hI : ThreadInv h R ports w) {op : IpcOp} {m : IpcWorld}
    (hs : IpcStep h w.msgs op m) : m.sched.body = w.sched.body ∧ Unlinked m.sched w.threads ∧
      ∀ t ∈ w.threads, (w.sched.threads t).task = taskNull → (m.sched.state t).CanRun := by
  obtain ⟨qs, hqs⟩ := hI.inv.sched
  have hu := hI.unlinked
  rcases (hI.inv.sched_step hs).1 with he | he | ⟨t, ht0, hst, he⟩ | ⟨ht, he⟩
  · rw [he]
    exact ⟨rfl, hu, hI.taskless⟩
  · rw [he]
    refine ⟨schedRun_body _, hu.run hqs, fun t ht htask => ?_⟩
    rw [schedRun_canRun hqs ht]
    exact hI.taskless t ht htask
  · rw [he]
    refine ⟨schedUnblock_body _ t, hu.unblock hqs ht0, fun x hx htask => ?_⟩
    rw [(schedUnblock_spec _ ht0).1, Function.update_apply]
    split_ifs
    · exact Or.inl rfl
    · exact hI.taskless x hx htask
  · -- the current thread, which has a task, leaves the queue
    have hcur : w.msgs.current ∈ qs := (hqs.mem_iff _).mpr ⟨hI.inv.current.1, Or.inr hI.inv.current.2⟩
    have hcur0 := hqs.queue.ne_null hcur
    obtain ⟨qs', hqs', _⟩ := hI.inv.block_current (hI.inv.current_ne_idle ht)
    rw [he]
    refine ⟨(schedRun_body _).trans (schedBlock_body ..), (hu.block hqs hcur).run hqs',
      fun x hx htask => ?_⟩
    rw [schedRun_canRun hqs' hx, (schedBlock_spec _ hcur0).1, Function.update_apply]
    split_ifs with hxc
    · rw [hxc] at htask
      exact absurd htask ht
    · exact hI.taskless x hx htask

theorem heldPages_body {s s' : Sched} (hb : s'.body = s.body) (threads : List Word) :
    heldPages R s' threads = heldPages R s threads := by
  unfold heldPages
  simp only [← body_kernelStackPhys, hb]

theorem ThreadInv.ipc (hI : ThreadInv h R ports w) {op : IpcOp} {m : IpcWorld}
    (hs : IpcStep h w.msgs op m) : ThreadInv h R ports { w with msgs := m } := by
  obtain ⟨hb, hu, htl⟩ := hI.ipc_sched hs
  have hkmsg := hI.kmsg.step hI.rules hI.inv hs fun _ hp => hI.among.releases hs hp
  have htasks : m.ipc.kern.tasks = w.kern.tasks := hkmsg.zone.1
  have hbody (x : Word) : m.sched.body x = w.sched.body x := by rw [hb]
  refine ⟨hI.inv.step hs, ?_, hI.among.step hI.inv hs, hI.mem, fun t ht => ?_,
    fun t ht u hu' => ?_, hu, fun t ht htask => ?_, fun t ht => ?_, fun t ht => ?_,
    fun task htask => (hI.chain task htask).of_body rfl hb htasks⟩
  · change KmsgInv (HeldZones h (heldPages R m.sched w.threads) m.ipc.kern.tasks w.threads) m
    rw [heldPages_body hb, htasks]
    exact hkmsg
  · change (m.sched.threads t).kernelStackPhys ≠ 0 ∧ pageOf (m.sched.threads t).kernelStackPhys ∉ R
    rw [← body_kernelStackPhys, hbody]
    exact hI.stack t ht
  · change pageOf (m.sched.threads t).kernelStackPhys = pageOf (m.sched.threads u).kernelStackPhys →
      t = u
    rw [← body_kernelStackPhys, ← body_kernelStackPhys, hbody, hbody]
    exact hI.apart t ht u hu'
  · refine htl t ht ?_
    rw [← body_task, ← hbody]
    exact htask
  · change (m.sched.threads t).task ≠ taskNull
    rw [← body_task, hbody]
    rcases (hI.inv.sched_step hs).2 t ht with hw | ⟨htc, hcur⟩
    · exact hI.waits t hw
    · rw [htc]
      exact hcur
  · change (m.sched.threads t).refCount = 1
    rw [← body_refCount, hbody]
    exact hI.ref t ht

/-- Where a kernel call leaves ports, messages and waiting threads alone. -/
theorem KmsgInv.of_kern {Z Z' : Ipc → List Word → Prop} {m : IpcWorld} (hK : KmsgInv Z m)
    {k : Kern} (hz : Z' { m.ipc with kern := k } (liveOf m.ipc.kmsgLog)) :
    KmsgInv Z' { m with ipc := { m.ipc with kern := k } } :=
  ⟨hz, hK.queued, hK.nodup, hK.unique⟩

/-- A kernel call that may add or take away threads, and keeps those that stay. -/
theorem ThreadInv.of_kern (hI : ThreadInv h R ports w) {k : Kern} {threads : List Word}
    (qs : List Word) (hs : SchedInv k.sched threads qs) (hu : Unlinked k.sched threads)
    (hcur : k.sched.cpuCurrentThread = w.current)
    (hidle : k.sched.cpuIdleThread = w.sched.cpuIdleThread)
    (hbody : ∀ t ∈ w.threads, t ∈ threads ∨ t = w.sched.cpuIdleThread →
      k.sched.body t = w.sched.body t)
    (hst : ∀ t ∈ w.threads, t ∈ threads → k.sched.state t = w.sched.state t)
    (hmem : ∀ t ∈ w.threads, t = w.current ∨ w.msgs.waits t ≠ none → t ∈ threads)
    (hz : HeldZones h (heldPages R k.sched threads) k.tasks threads { w.msgs.ipc with kern := k }
      (liveOf w.msgs.ipc.kmsgLog))
    (hnew : ∀ t ∈ threads, t ∉ w.threads → (k.sched.state t).CanRun ∧
      (k.sched.threads t).refCount = 1 ∧ (k.sched.threads t).kernelStackPhys ≠ 0 ∧
      pageOf (k.sched.threads t).kernelStackPhys ∉ heldPages R w.sched w.threads)
    (hone : ∀ t ∈ threads, ∀ u ∈ threads, t ∉ w.threads → u ∉ w.threads → t = u)
    (hchain : ∀ task, task ≠ taskNull → ChainOk (w.withKern k threads) task) :
    ThreadInv h R ports (w.withKern k threads) := by
  have hold (t : Word) (ht : t ∈ threads) (hw : t ∈ w.threads) :
      (k.sched.threads t).task = (w.sched.threads t).task ∧
      (k.sched.threads t).refCount = (w.sched.threads t).refCount ∧
      (k.sched.threads t).kernelStackPhys = (w.sched.threads t).kernelStackPhys := by
    have hb := hbody t hw (Or.inl ht)
    refine ⟨?_, ?_, ?_⟩
    · rw [← body_task, hb, body_task]
    · rw [← body_refCount, hb, body_refCount]
    · rw [← body_kernelStackPhys, hb, body_kernelStackPhys]
  have hpage (t u : Word) (ht : t ∈ threads) (htw : t ∉ w.threads) (hu' : u ∈ threads)
      (huw : u ∈ w.threads) : pageOf (k.sched.threads t).kernelStackPhys ≠
        pageOf (k.sched.threads u).kernelStackPhys := by
    intro he
    refine (hnew t ht htw).2.2.2 (Or.inr ⟨u, huw, ?_⟩)
    rw [← (hold u hu' huw).2.2, he]
  have hwaits (t : Word) (ht : w.msgs.waits t ≠ none) : t ∈ w.threads ∧ t ∈ threads := by
    obtain ⟨wt, hwt⟩ := Option.ne_none_iff_exists'.mp ht
    have hm := (hI.inv.waits t wt hwt).1
    exact ⟨hm, hmem t hm (Or.inr ht)⟩
  refine ⟨hI.inv.of_kern hs hcur hidle ?_ hmem hst, hI.kmsg.of_kern hz,
    ⟨hI.among.names, hI.among.live⟩, hI.mem, fun t ht => ?_, fun t ht u hu' he => ?_, hu,
    fun t ht htask => ?_, fun t ht => ?_, fun t ht => ?_, hchain⟩
  · rw [Sched.task, ← body_task, hbody _ hI.inv.idle_mem (Or.inr rfl), body_task]
    rfl
  · by_cases htw : t ∈ w.threads
    · change (k.sched.threads t).kernelStackPhys ≠ 0 ∧
        pageOf (k.sched.threads t).kernelStackPhys ∉ R
      rw [(hold t ht htw).2.2]
      exact hI.stack t htw
    · obtain ⟨_, _, h0, hH⟩ := hnew t ht htw
      exact ⟨h0, fun hR => hH (Or.inl hR)⟩
  · change pageOf (k.sched.threads t).kernelStackPhys = pageOf (k.sched.threads u).kernelStackPhys
      at he
    by_cases htw : t ∈ w.threads
    · by_cases huw : u ∈ w.threads
      · rw [(hold t ht htw).2.2, (hold u hu' huw).2.2] at he
        exact hI.apart t htw u huw he
      · exact absurd he.symm (hpage u t hu' huw ht htw)
    · by_cases huw : u ∈ w.threads
      · exact absurd he (hpage t u ht htw hu' huw)
      · exact hone t ht u hu' htw huw
  · change (k.sched.state t).CanRun
    by_cases htw : t ∈ w.threads
    · rw [hst t htw ht]
      refine hI.taskless t htw ?_
      rw [← (hold t ht htw).1]
      exact htask
    · exact (hnew t ht htw).1
  · obtain ⟨hm, hm'⟩ := hwaits t ht
    change (k.sched.threads t).task ≠ taskNull
    rw [(hold t hm' hm).1]
    exact hI.waits t ht
  · change (k.sched.threads t).refCount = 1
    by_cases htw : t ∈ w.threads
    · rw [(hold t ht htw).2.1]
      exact hI.ref t htw
    · exact (hnew t ht htw).2.1

section Create
variable {task pa : Word} {k : Kern} {v : Thread} {zp : ℕ} {live : List Word}

/-- The threads other than a new one. -/
theorem created_body (ht : t ∉ w.threads) (hk : k.sched = (schedEnqueue { w.sched with
      threads := Function.update w.sched.threads t v } t).2) :
    k.sched.body t = v.body ∧ ∀ x ∈ w.threads, k.sched.body x = w.sched.body x := by
  have hb : k.sched.body = Sched.body { w.sched with
      threads := Function.update w.sched.threads t v } := by
    rw [hk, schedEnqueue_body]
  rw [hb]
  refine ⟨congrArg Thread.body (Function.update_self ..), fun x hx => ?_⟩
  refine congrArg Thread.body (Function.update_of_ne ?_ _ _)
  rintro rfl
  exact ht hx

theorem created_held (ht : t ∉ w.threads) (hphys : v.kernelStackPhys = pa)
    (hk : k.sched = (schedEnqueue { w.sched with
      threads := Function.update w.sched.threads t v } t).2) :
    heldPages R k.sched (t :: w.threads) = insert (pageOf pa) (heldPages R w.sched w.threads) := by
  obtain ⟨hbt, hbx⟩ := created_body ht hk
  have hpt : (k.sched.threads t).kernelStackPhys = pa := by
    rw [← body_kernelStackPhys, hbt]
    exact hphys
  have hpx (x : Word) (hx : x ∈ w.threads) :
      (k.sched.threads x).kernelStackPhys = (w.sched.threads x).kernelStackPhys := by
    rw [← body_kernelStackPhys, hbx x hx, body_kernelStackPhys]
  ext n
  constructor
  · rintro (hR | ⟨u, hu, rfl⟩)
    · exact Or.inr (Or.inl hR)
    · rcases List.mem_cons.mp hu with rfl | hu
      · rw [hpt]
        exact Or.inl rfl
      · rw [hpx u hu]
        exact Or.inr (Or.inr ⟨u, hu, rfl⟩)
  · rintro (rfl | hR | ⟨u, hu, rfl⟩)
    · exact Or.inr ⟨t, List.mem_cons_self, by rw [hpt]⟩
    · exact Or.inl hR
    · exact Or.inr ⟨u, List.mem_cons_of_mem _ hu, by rw [hpx u hu]⟩

/-- A new thread is the first of its task's chain. -/
theorem created_own (hI : ThreadInv h R ports w)
    (hC : Created h (heldPages R w.sched w.threads) w.msgs.ipc w.threads live zp task t pa k)
    (hsome : task ≠ taskNull) : ChainOk (w.withKern k (t :: w.threads)) task := by
  obtain ⟨v, _, _, htask, hnext, _, hk⟩ := hC.sched
  obtain ⟨hbt, hbx⟩ := created_body hC.fresh hk
  obtain ⟨l, ⟨n, hf⟩, hnd, hiff, hcount⟩ := hI.chain task hsome
  have htl : t ∉ l := fun hm => hC.fresh ((hiff t).mp hm).1
  have hnx (x : Word) (hx : x ∈ l) :
      (k.sched.threads x).taskNext = (w.sched.threads x).taskNext := by
    rw [← body_taskNext, hbx x ((hiff x).mp hx).1, body_taskNext]
  have htt : (k.sched.threads t).task = task := by
    rw [← body_task, hbt]
    exact htask
  have htx (x : Word) (hx : x ∈ w.threads) :
      (k.sched.threads x).task = (w.sched.threads x).task := by
    rw [← body_task, hbx x hx, body_task]
  have hnt : (k.sched.threads t).taskNext = (w.kern.tasks task).threads := by
    rw [← body_taskNext, hbt]
    change v.taskNext = _
    rw [hnext, if_pos hsome]
    rfl
  have htk : k.tasks task = ⟨t, (w.kern.tasks task).threadCount+1⟩ := by
    rw [hC.tasks, if_pos hsome, Function.update_self]
    rfl
  refine ⟨t :: l, ⟨n+1, ?_⟩, List.nodup_cons.mpr ⟨htl, hnd⟩, fun x => ?_, ?_⟩
  · change follow (fun x => (k.sched.threads x).taskNext) threadNull (n+1)
      (k.tasks task).threads = _
    rw [htk]
    simp only [follow, hC.ne_null, ↓reduceIte, hnt, Option.map_eq_some_iff]
    exact ⟨l, follow_congr_mem hf hnx, rfl⟩
  · change x ∈ t :: l ↔ x ∈ t :: w.threads ∧ (k.sched.threads x).task = task
    rw [List.mem_cons, List.mem_cons, hiff]
    constructor
    · rintro (rfl | ⟨hx, hxt⟩)
      · exact ⟨Or.inl rfl, htt⟩
      · exact ⟨Or.inr hx, (htx x hx).trans hxt⟩
    · rintro ⟨rfl | hx, hxt⟩
      · exact Or.inl rfl
      · exact Or.inr ⟨hx, (htx x hx).symm.trans hxt⟩
  · change (k.tasks task).threadCount = _
    rw [htk, List.length_cons, BitVec.ofNat_add, ← hcount]
    rfl

/-- The chains of the other tasks are as before. -/
theorem created_other (hI : ThreadInv h R ports w)
    (hC : Created h (heldPages R w.sched w.threads) w.msgs.ipc w.threads live zp task t pa k)
    {task' : Word} (ht' : task' ≠ taskNull) (hne : task' ≠ task) :
    ChainOk (w.withKern k (t :: w.threads)) task' := by
  obtain ⟨v, _, _, htask, _, _, hk⟩ := hC.sched
  obtain ⟨hbt, hbx⟩ := created_body hC.fresh hk
  obtain ⟨l, hl, hnd, hiff, hcount⟩ := hI.chain task' ht'
  have htt : (k.sched.threads t).task = task := by
    rw [← body_task, hbt]
    exact htask
  have htx (x : Word) (hx : x ∈ w.threads) :
      (k.sched.threads x).task = (w.sched.threads x).task := by
    rw [← body_task, hbx x hx, body_task]
  have htk : k.tasks task' = w.kern.tasks task' := by
    rw [hC.tasks]
    split_ifs
    · rw [Function.update_of_ne hne]
      rfl
    · rfl
  refine ⟨l, hl.congr (congrArg Task.threads htk) fun x hx => ?_, hnd, fun x => ?_, ?_⟩
  · change (k.sched.threads x).taskNext = (w.sched.threads x).taskNext
    rw [← body_taskNext, hbx x ((hiff x).mp hx).1, body_taskNext]
  · change x ∈ l ↔ x ∈ t :: w.threads ∧ (k.sched.threads x).task = task'
    rw [List.mem_cons, hiff]
    constructor
    · rintro ⟨hx, hxt⟩
      exact ⟨Or.inr hx, (htx x hx).trans hxt⟩
    · rintro ⟨rfl | hx, hxt⟩
      · exact absurd (hxt.symm.trans htt) hne
      · exact ⟨hx, (htx x hx).symm.trans hxt⟩
  · change (k.tasks task').threadCount = _
    rw [htk]
    exact hcount

theorem created_chain (hI : ThreadInv h R ports w)
    (hC : Created h (heldPages R w.sched w.threads) w.msgs.ipc w.threads live zp task t pa k)
    (task' : Word) (ht' : task' ≠ taskNull) : ChainOk (w.withKern k (t :: w.threads)) task' := by
  by_cases he : task' = task
  · obtain rfl := he
    exact created_own hI hC ht'
  · exact created_other hI hC ht' he

/-- `thread_create` has made the thread `t`. -/
theorem ThreadInv.created (hI : ThreadInv h R ports w)
    (hC : Created h (heldPages R w.sched w.threads) w.msgs.ipc w.threads
      (liveOf w.msgs.ipc.kmsgLog) zp task t pa k) :
    ThreadInv h R ports (w.withKern k (t :: w.threads)) := by
  obtain ⟨qs, hqs⟩ := hI.inv.sched
  obtain ⟨v, hvst, href, htask, _, hphys, hk⟩ := hC.sched
  obtain ⟨s1, hs1⟩ : ∃ s1, s1 = { w.sched with
    threads := Function.update w.sched.threads t v } := ⟨_, rfl⟩
  have hk1 : k.sched = (schedEnqueue s1 t).2 := by
    rw [hs1]
    exact hk
  have hunt : Untouched w.threads w.sched s1 := by
    rw [hs1]
    exact w.kern.setThread_untouched t v hC.fresh
  have hst1 : s1.state t = .runnable := by
    have hupd : s1.threads t = v := by
      rw [hs1]
      exact Function.update_self ..
    rw [Sched.state, hupd, hvst]
  have hnq : t ∉ qs := fun hq => hC.fresh ((hqs.mem_iff t).mp hq).1
  obtain ⟨_, _, _, _, hsame⟩ := schedEnqueue_spec s1 t hC.ne_null
  obtain ⟨hbt, hbx⟩ := created_body hC.fresh hk
  obtain ⟨z', hK'⟩ := hC.zones
  have hphys' : (k.sched.threads t).kernelStackPhys = pa := by
    rw [← body_kernelStackPhys, hbt]
    exact hphys
  have honly (x : Word) (hx : x ∈ t :: w.threads) (hxw : x ∉ w.threads) : x = t :=
    (List.mem_cons.mp hx).resolve_right hxw
  refine hI.of_kern (qs ++ [t]) ?_ ?_ ?_ ?_ (fun x hx _ => hbx x hx) (fun x hx _ => ?_)
    (fun x hx _ => List.mem_cons_of_mem _ hx) ⟨rfl, z', zp, ?_⟩ (fun x hx hxw => ?_)
    (fun x hx u hu hxw huw => (honly x hx hxw).trans (honly u hu huw).symm)
    (created_chain hI hC)
  · rw [hk1]
    exact (hqs.congr hunt).enqueue hC.ne_null hnq hst1 fun x => List.mem_cons
  · rw [hk1]
    exact (hI.unlinked.congr hunt).enqueue (hqs.congr hunt) hC.ne_null hst1
      fun x => List.mem_cons.mp
  · rw [hk1, hsame.current, hunt.current]
    rfl
  · rw [hk1, hsame.idle, hunt.idle]
  · rw [hk1, hsame.state]
    exact hunt.state hx
  · rw [created_held hC.fresh hphys hk]
    exact hK'
  · obtain rfl := honly x hx hxw
    rw [hphys', hk1, hsame.state, hst1]
    refine ⟨Or.inl rfl, ?_, hC.stack.2.1, hC.stack.2.2⟩
    rw [← hk1, ← body_refCount, hbt]
    exact href

/-- A call that makes no thread leaves the pages and the chains alone. -/
theorem ThreadInv.untouched (hI : ThreadInv h R ports w) {z : ZoneWorld}
    (hK : KernZones h (heldPages R w.sched w.threads) { w.msgs.ipc with kern := k } z zp w.threads
      (liveOf w.msgs.ipc.kmsgLog))
    (htk : k.tasks = w.kern.tasks) (hunt : Untouched w.threads w.sched k.sched) :
    ThreadInv h R ports (w.withKern k w.threads) := by
  obtain ⟨qs, hqs⟩ := hI.inv.sched
  have hbody (x : Word) (hx : x ∈ w.threads) : k.sched.body x = w.sched.body x := by
    rw [Sched.body, hunt.threads x hx]
    rfl
  have hheld : heldPages R k.sched w.threads = heldPages R w.sched w.threads := by
    unfold heldPages
    congr 1
    ext n
    refine exists_congr fun x => and_congr_right fun hx => ?_
    rw [hunt.threads x hx]
  refine hI.of_kern qs (hqs.congr hunt) (hI.unlinked.congr hunt) hunt.current hunt.idle
    (fun x hx _ => hbody x hx) (fun x hx _ => hunt.state hx) (fun x hx _ => hx)
    ⟨rfl, z, zp, ?_⟩ (fun x hx hxw => absurd hx hxw) (fun x hx _ _ hxw => absurd hx hxw)
    fun task' ht' => ?_
  · rw [hheld]
    exact hK
  · obtain ⟨l, hl, hnd, hiff, hcount⟩ := hI.chain task' ht'
    refine ⟨l, hl.congr (congrArg (fun f => (f task').threads) htk) fun x hx => ?_, hnd,
      fun x => ?_, ?_⟩
    · change (k.sched.threads x).taskNext = _
      rw [hunt.threads x ((hiff x).mp hx).1]
    · rw [hiff]
      refine and_congr_right fun hx => ?_
      change _ ↔ (k.sched.threads x).task = task'
      rw [hunt.threads x hx]
    · change (k.tasks task').threadCount = _
      rw [htk]
      exact hcount

end Create

theorem ThreadInv.create (hI : ThreadInv h R ports w) {trampoline task entry arg : Word}
    {kr : KernReturn} {r : Option Word} {k : Kern}
    (he : threadCreate h trampoline task entry arg w.kern = (kr, r, k)) :
    ThreadInv h R ports (w.withKern k (r.toList ++ w.threads)) := by
  obtain ⟨_, z, zp, hK⟩ := hI.kmsg.zone
  rcases hK.create trampoline task entry arg he with
    ⟨t, pa, _, rfl, hC⟩ | ⟨_, rfl, ⟨z', hK'⟩, htk, hunt⟩
  · exact hI.created hC
  · exact hI.untouched hK' htk hunt

/-- Destroying a live thread drops its last reference. -/
theorem ThreadInv.destroy_eq (hI : ThreadInv h R ports w) (ht : t ∈ w.threads) :
    ∃ k, threadDestroy t w.kern = (.success, k) ∧ k.tasks = w.kern.tasks ∧
      (∃ z zp, KernZones h (heldPages R w.sched w.threads \
        {pageOf (w.sched.threads t).kernelStackPhys}) { w.msgs.ipc with kern := k } z zp
        (w.threads.erase t) (liveOf w.msgs.ipc.kmsgLog)) ∧
      SameLinks (schedDequeue w.sched t).2 k.sched ∧
      (∀ x, x ≠ t → k.sched.body x = w.sched.body x) ∧
      ∀ x, (k.sched.threads x).taskNext = (w.sched.threads x).taskNext := by
  obtain ⟨_, z, zp, hK⟩ := hI.kmsg.zone
  obtain ⟨k, he, htk, ⟨z', hK'⟩, hlinks, hbody, hnext⟩ :=
    hK.destroy ht (hI.ref t ht) (hI.stack t ht).1 (Or.inr ⟨t, ht, rfl⟩)
  exact ⟨k, he, htk, ⟨z', zp, hK'⟩, hlinks, hbody, hnext⟩

/-- The stack of a freed thread is no longer held, those of the others are. -/
theorem heldPages_erase (hI : ThreadInv h R ports w) (ht : t ∈ w.threads) {s : Sched}
    (hbody : ∀ x, x ≠ t → s.body x = w.sched.body x) :
    heldPages R s (w.threads.erase t) =
      heldPages R w.sched w.threads \ {pageOf (w.sched.threads t).kernelStackPhys} := by
  have hmem (x : Word) : x ∈ w.threads.erase t ↔ x ≠ t ∧ x ∈ w.threads :=
    hI.threads.1.mem_erase_iff
  have hphys (x : Word) (hx : x ≠ t) :
      (s.threads x).kernelStackPhys = (w.sched.threads x).kernelStackPhys := by
    rw [← body_kernelStackPhys, hbody x hx, body_kernelStackPhys]
  ext n
  constructor
  · rintro (hR | ⟨u, hu, rfl⟩)
    · refine ⟨Or.inl hR, ?_⟩
      rintro rfl
      exact (hI.stack t ht).2 hR
    · obtain ⟨hut, hu⟩ := (hmem u).mp hu
      rw [hphys u hut]
      exact ⟨Or.inr ⟨u, hu, rfl⟩, fun he => hut (hI.apart u hu t ht he)⟩
  · rintro ⟨hR | ⟨u, hu, rfl⟩, hne⟩
    · exact Or.inl hR
    · have hut : u ≠ t := by
        rintro rfl
        exact hne rfl
      exact Or.inr ⟨u, (hmem u).mpr ⟨hut, hu⟩, by rw [hphys u hut]⟩

/-- Freeing a thread that nothing refers to. -/
theorem ThreadInv.destroyed (hI : ThreadInv h R ports w) (ht : t ∈ w.threads)
    (hun : Unreferenced w t) {k : Kern} (he : threadDestroy t w.kern = (.success, k)) :
    ThreadInv h R ports (w.withKern k (w.threads.erase t)) := by
  obtain ⟨htask, hcur, hidle⟩ := hun
  obtain ⟨k', he', htk, ⟨z, zp, hK⟩, hlinks, hbody, hnext⟩ := hI.destroy_eq ht
  rw [he] at he'
  obtain rfl : k = k' := congrArg Prod.snd he'
  obtain ⟨qs, hqs⟩ := hI.inv.sched
  have htq : t ∈ qs := (hqs.mem_iff t).mpr ⟨ht, hI.taskless t ht htask⟩
  have hmem (x : Word) : x ∈ w.threads.erase t ↔ x ∈ w.threads ∧ x ≠ t := by
    rw [hI.threads.1.mem_erase_iff, and_comm]
  obtain ⟨qs', hqs', _⟩ := SchedInv.dequeue hqs htq hidle hmem
  obtain ⟨_, _, _, _, hsame⟩ := schedDequeue_spec w.sched t (hqs.queue.ne_null htq)
  have hnew {P : Prop} (x : Word) (hx : x ∈ w.threads.erase t) (hxw : x ∉ w.threads) : P :=
    absurd ((hmem x).mp hx).1 hxw
  refine hI.of_kern qs' (hqs'.of_same hlinks) ?_ ?_ ?_ (fun x hx hx' => hbody x ?_)
    (fun x hx hx' => ?_) (fun x hx hw => (hmem x).mpr ⟨hx, ?_⟩) ⟨rfl, z, zp, ?_⟩ (fun x => hnew x)
    (fun x hx u _ hxw => hnew x hx hxw) fun task' ht' => ?_
  · exact (hI.unlinked.dequeue hqs htq fun x hx => ((hmem x).mp hx).1).of_same hlinks
  · exact hlinks.same.current.trans hsame.current
  · exact hlinks.same.idle.trans hsame.idle
  · rcases hx' with hx' | hx'
    · exact ((hmem x).mp hx').2
    · rw [hx']
      exact hidle.symm
  · rw [hlinks.same.state, hsame.state]
  · rintro rfl
    rcases hw with hc | hw
    · exact hcur hc
    · exact hI.waits x hw htask
  · rw [heldPages_erase hI ht hbody]
    exact hK
  · obtain ⟨l, hl, hnd, hiff, hcount⟩ := hI.chain task' ht'
    refine ⟨l, hl.congr (congrArg (fun f => (f task').threads) htk) fun x _ => hnext x, hnd,
      fun x => ?_, ?_⟩
    · rw [hiff]
      change _ ↔ x ∈ w.threads.erase t ∧ (k.sched.threads x).task = task'
      rw [hmem]
      by_cases hx : x = t
      · -- the freed thread had no task
        constructor
        · rintro ⟨_, hxt⟩
          rw [hx, htask] at hxt
          exact absurd hxt.symm ht'
        · rintro ⟨⟨_, hne⟩, _⟩
          exact absurd hx hne
      · rw [← body_task (s := k.sched), hbody x hx, body_task]
        simp [hx]
    · change (k.tasks task').threadCount = _
      rw [htk]
      exact hcount

/-- Nothing refers to an address that is no live thread. -/
theorem ThreadInv.noDangling (hI : ThreadInv h R ports w) (ht0 : t ≠ threadNull)
    (ht : t ∉ w.threads) : NoDangling w t := by
  have hout (x : Word) (hx : x ∈ w.threads) : x ≠ t := by
    rintro rfl
    exact ht hx
  obtain ⟨qs, hqs⟩ := hI.inv.sched
  obtain ⟨hhead, htail, hlinks⟩ := hqs.no_link hI.unlinked ht0 ht
  refine ⟨⟨hhead, htail⟩, fun u hu => hlinks u hu (hI.threads.2.1 u hu),
    ⟨hout _ hI.inv.current.1, hout _ hI.inv.idle_mem⟩, fun p _ => ?_, fun task htask l hl => ?_,
    fun task htask => ?_⟩
  · by_cases hw : (w.msgs.port p).waitingThread = 0
    · rw [hw]
      exact ht0.symm
    · obtain ⟨_, wt, hwt, _⟩ := hI.inv.slot p hw
      exact hout _ (hI.inv.waits _ wt hwt).1
  · obtain ⟨l', hl', _, hiff, _⟩ := hI.chain task htask
    rw [hl.unique hl']
    exact fun hm => ht ((hiff t).mp hm).1
  · obtain ⟨l, hl, hnd, hiff, hcount⟩ := hI.chain task htask
    refine ⟨l, hl, ?_⟩
    rw [hcount, BitVec.toNat_ofNat, Nat.mod_eq_of_lt]
    exact hI.threads.2.2 l hnd fun x hx => ((hiff x).mp hx).1

/-- What still refers to a thread when it is freed refers to it afterwards. -/
theorem ThreadInv.unreferenced (hI : ThreadInv h R ports w) (ht : t ∈ w.threads) {k : Kern}
    (he : threadDestroy t w.kern = (.success, k)) {threads : List Word}
    (hN : NoDangling (w.withKern k threads) t) : Unreferenced w t := by
  obtain ⟨k', he', htk, _, hlinks, _, hnext⟩ := hI.destroy_eq ht
  rw [he] at he'
  obtain rfl : k = k' := congrArg Prod.snd he'
  obtain ⟨_, _, _, _, hsame⟩ := schedDequeue_spec w.sched t (hI.threads.2.1 t ht)
  refine ⟨?_, ?_, ?_⟩
  · by_contra htask
    obtain ⟨l, hl, _, hiff, _⟩ := hI.chain _ htask
    have hl' : (w.withKern k threads).TaskChain (w.sched.threads t).task l :=
      hl.congr (congrArg (fun f => (f (w.sched.threads t).task).threads) htk) fun x _ => hnext x
    exact hN.chain _ htask l hl' ((hiff t).mpr ⟨ht, rfl⟩)
  · rw [← hsame.current, ← hlinks.same.current]
    exact hN.cpu.1.symm
  · rw [← hsame.idle, ← hlinks.same.idle]
    exact hN.cpu.2.symm

theorem ThreadInv.without_eq (hI : ThreadInv h R ports w) (ht : t ∈ w.threads) :
    w.lastRef t = some t ∧ w.without t = w.threads.erase t := by
  rw [ThreadWorld.lastRef, ThreadWorld.without, if_pos (hI.ref t ht), if_pos (hI.ref t ht)]
  exact ⟨rfl, rfl⟩

/-- Every step that frees only threads nothing refers to keeps the invariant. -/
theorem ThreadInv.step (hI : ThreadInv h R ports w) {trampoline : Word} {op : ThreadOp}
    (hs : ThreadStep h trampoline w op w') (hf : FreesUnreferenced w op) :
    ThreadInv h R ports w' := by
  cases hs with
  | ipc hs => exact hI.ipc hs
  | create hw he => exact hI.create he
  | @destroy t kr k hw ht he =>
    obtain ⟨k', he', _⟩ := hI.destroy_eq ht
    obtain ⟨rfl, rfl⟩ := Prod.mk.inj (he.symm.trans he')
    obtain ⟨hlast, hwo⟩ := hI.without_eq ht
    rw [hwo]
    exact hI.destroyed ht (hf t hlast) he
  | exit hw he =>
    obtain ⟨hlast, _⟩ := hI.without_eq hI.inv.current.1
    exact absurd rfl (hf _ hlast).2.1

theorem ThreadBoot.inv (hb : ThreadBoot h R w) : ThreadInv h R w.msgs.livePorts w := by
  have hlive : liveOf w.msgs.ipc.kmsgLog = [] := by
    rw [hb.ipc.kmsgs.2, liveOf]
  have hq (p : Word) : (w.msgs.port p).queue = [] :=
    (hb.ipc.inv.ok p).queue_eq_nil_iff.mpr (hb.ipc.empty p).2.1
  obtain ⟨z, zp, hK⟩ := hb.zones
  refine ⟨hb.ipc.inv, ⟨⟨rfl, z, zp, hlive ▸ hK⟩, fun m => ?_, fun p => ?_, fun p q m hm => ?_⟩,
    ⟨hb.ipc.names, fun p hp => hp⟩, hb.ports, hb.stack, hb.apart,
    fun t ht _ hrun => absurd (hb.ready t ht) hrun, fun t ht _ => hb.ready t ht, fun t ht => ?_,
    hb.ref, hb.chain⟩
  · rw [hlive]
    simp [hq]
  · rw [hq]
    exact List.nodup_nil
  · rw [hq] at hm
    cases hm
  · rw [hb.ipc.waits] at ht
    exact absurd rfl ht

/-- After any run that frees only threads nothing refers to, the next thread that is freed
leaves no reference behind if and only if nothing referred to it. -/
theorem thread_run_no_dangling (h : Hhdm) (threadTrampoline : Word) (R : Set ℕ)
    (w₀ w : ThreadWorld) (ops : List ThreadOp) (hb : ThreadBoot h R w₀)
    (hr : Run (fun w op w' => ThreadStep h threadTrampoline w op w' ∧ FreesUnreferenced w op)
      w₀ ops w) (op : ThreadOp) (t : Word) (w' : ThreadWorld)
    (hs : ThreadStep h threadTrampoline w op w') (ht : op.frees w = some t) :
    NoDangling w' t ↔ Unreferenced w t := by
  have hI : ThreadInv h R w₀.msgs.livePorts w :=
    hr.inv (I := ThreadInv h R w₀.msgs.livePorts) (fun w op w' hs hI => hI.step hs.1 hs.2) hb.inv
  constructor
  · intro hN
    cases hs with
    | ipc hs => cases ht
    | create hw he => cases ht
    | @destroy t' kr k hw hlive he =>
      obtain ⟨k', he', _⟩ := hI.destroy_eq hlive
      obtain ⟨rfl, rfl⟩ := Prod.mk.inj (he.symm.trans he')
      obtain rfl : t' = t := Option.some.inj ((hI.without_eq hlive).1.symm.trans ht)
      exact hI.unreferenced hlive he hN
    | @exit kr k hw he =>
      have hcur := hI.inv.current.1
      have hcur0 : w.current ≠ threadNull := hI.threads.2.1 _ hcur
      obtain ⟨k', he', _⟩ := hI.destroy_eq hcur
      have hk : sysThreadExitWrapper w.kern = (.success, k') := by
        have hne : w.kern.sched.cpuCurrentThread ≠ threadNull := hcur0
        rw [sysThreadExitWrapper]
        simp only [hne, ne_eq, not_false_eq_true, ↓reduceIte]
        exact congrArg (Prod.mk _) (congrArg Prod.snd he')
      obtain ⟨rfl, rfl⟩ := Prod.mk.inj (he.symm.trans hk)
      obtain rfl : w.current = t := Option.some.inj ((hI.without_eq hcur).1.symm.trans ht)
      exact hI.unreferenced hcur he' hN
  · intro hun
    have hf : FreesUnreferenced w op := by
      intro u hu
      rw [ht] at hu
      cases hu
      exact hun
    have hI' := hI.step hs hf
    have hgone : t ≠ threadNull ∧ t ∉ w'.threads := by
      cases hs with
      | ipc hs => cases ht
      | create hw he => cases ht
      | @destroy t' kr k hw hlive he =>
        obtain ⟨hlast, hwo⟩ := hI.without_eq hlive
        obtain rfl : t' = t := Option.some.inj (hlast.symm.trans ht)
        refine ⟨hI.threads.2.1 _ hlive, ?_⟩
        change t' ∉ w.without t'
        rw [hwo, hI.threads.1.mem_erase_iff]
        exact fun hm => hm.1 rfl
      | exit hw he =>
        obtain ⟨hlast, _⟩ := hI.without_eq hI.inv.current.1
        obtain rfl : w.current = t := Option.some.inj (hlast.symm.trans ht)
        exact absurd rfl hun.2.1
    exact hI'.noDangling hgone.1 hgone.2

/-- The kernel before `sched_init`: no thread, no message, and ports in pages of their own. -/
structure KernelStart (h : Hhdm) (R : Set ℕ) (s : Ipc) : Prop where
  zones : ∃ z zp, KernZones h R s z zp [] []
  threads : s.kern.threadZone = none ∧ s.kern.sched.cpuIdleThread = threadNull
  tasks : ∀ task, s.kern.tasks task = ⟨threadNull, 0⟩
  kmsgs : s.kmsgZone = none ∧ s.kmsgLog = []
  empty : ∀ p, (s.ports p).waitingThread = 0 ∧ (s.ports p).msgCount = 0 ∧
    (s.ports p).msgLast = (s.ports p).msgFirst ∧ (s.ports p).msgFirst.toNat < ipcPortQueueMax
  nodup : (liveOf s.portLog).Nodup
  ports : ∀ p ∈ liveOf s.portLog, p ≠ ipcPortNull ∧ ∀ x, x-p < 8 → frameOf h x ∈ R
  names : ∀ space name port, ipcSpaceLookup s space name = (.success, some port) →
    port ∈ liveOf s.portLog

/-- `sched_init` and `sched_create_idle` lead to a state that runs may start from. -/
theorem KernelStart.boot {s : Ipc} (hS : KernelStart h R s) {trampoline entry idle : Word}
    {k : Kern} (he : schedCreateIdle h trampoline entry
      { s.kern with sched := schedInit s.kern.sched } = (.success, some idle, k)) :
    ThreadBoot h R ⟨⟨{ s with kern := k }, fun _ => none⟩, [idle]⟩ := by
  obtain ⟨z, zp, hK⟩ := hS.zones
  have hK0 : KernZones h R { s with kern := { s.kern with sched := schedInit s.kern.sched } }
      z zp [] [] := hK.congr rfl rfl rfl rfl rfl
  have hpage : ¬ s.kern.kmem.pmm.Free 0 := by
    rw [← hK.kmem]
    exact hK.inv.zones.pageZero
  obtain ⟨hinv, _⟩ := schedCreateIdle_inv (h := h) (k := s.kern)
    ⟨hpage, hS.threads.1, hS.threads.2⟩ trampoline entry
  rw [he] at hinv
  obtain ⟨kr, r, k1, hc⟩ : ∃ kr r k1, threadCreate h trampoline taskNull entry threadNull
    { s.kern with sched := schedInit s.kern.sched } = (kr, r, k1) := ⟨_, _, _, rfl⟩
  rcases hK0.create trampoline taskNull entry threadNull hc with
    ⟨t, pa, rfl, rfl, hC⟩ | ⟨hkr, rfl, _⟩
  · simp only [schedCreateIdle, hc] at he
    rw [schedSetState_of_ne _ t _ hC.ne_null] at he
    cases he
    obtain ⟨v, _, href, htask, _, hphys, hk⟩ := hC.sched
    obtain ⟨z', hK'⟩ := hC.zones
    have hbody : (Sched.setState { k1.sched with cpuIdleThread := idle, cpuCurrentThread := idle }
        idle .running).body idle = v.body := by
      rw [setState_body]
      change k1.sched.body idle = _
      rw [hk, schedEnqueue_body]
      exact congrArg Thread.body (Function.update_self ..)
    obtain ⟨s', hs'⟩ : ∃ s', s' = Sched.setState { k1.sched with
      cpuIdleThread := idle, cpuCurrentThread := idle } idle .running := ⟨_, rfl⟩
    rw [← hs'] at hbody hinv ⊢
    have hst : s'.state idle = .running := by
      rw [hs', setState_state, Function.update_self]
    have hcpu : s'.cpuCurrentThread = idle ∧ s'.cpuIdleThread = idle := by
      rw [hs']
      exact ⟨rfl, rfl⟩
    have htk : k1.tasks = s.kern.tasks := by
      rw [hC.tasks, if_neg (not_not.mpr rfl)]
    have hone (x : Word) (hx : x ∈ [idle]) : x = idle := List.mem_singleton.mp hx
    have hfield : (s'.threads idle).task = taskNull ∧ (s'.threads idle).refCount = 1 ∧
        (s'.threads idle).kernelStackPhys = pa := by
      rw [← body_task, ← body_refCount, ← body_kernelStackPhys, hbody]
      exact ⟨htask, href, hphys⟩
    refine ⟨⟨⟨_, hinv.sched⟩, ?_, ?_, rfl, hS.empty, ?_, hS.kmsgs, ?_, hS.nodup, fun p hp => ?_,
      hS.names⟩, fun x hx => ?_, fun x hx => ?_, fun task htask => ?_, fun p hp => (hS.ports p hp).2,
      fun x hx => ?_, fun x hx u hu _ => (hone x hx).trans (hone u hu).symm, z', zp, ?_⟩
    · change s'.cpuCurrentThread ∈ [idle] ∧ s'.state s'.cpuCurrentThread = .running
      rw [hcpu.1]
      exact ⟨List.mem_singleton.mpr rfl, hst⟩
    · change s'.cpuIdleThread ≠ threadNull ∧ (s'.threads s'.cpuIdleThread).task = taskNull
      rw [hcpu.2]
      exact ⟨hC.ne_null, hfield.1⟩
    · exact hinv.pageZero
    · exact ⟨zp, hK'.port⟩
    · obtain ⟨hp0, hpR⟩ := hS.ports p hp
      refine ⟨hp0, fun x hx hf => ?_⟩
      have hheld := (hK'.inv.taken (frameOf h x) (by rw [hK'.taken]; exact Or.inr (hpR x hx))).1
      rw [hK'.kmem] at hheld
      exact hheld hf
    · rw [hone x hx]
      exact Or.inr hst
    · rw [hone x hx]
      exact hfield.2.1
    · refine ⟨[], ⟨0, ?_⟩, List.nodup_nil, fun x => ?_, ?_⟩
      · change follow _ threadNull 0 (k1.tasks task).threads = some []
        rw [htk, hS.tasks]
        exact follow_sentinel _ _ 0
      · refine ⟨fun hx => (by cases hx), fun hx => ?_⟩
        obtain ⟨hx, hxt⟩ := hx
        rw [hone x hx] at hxt
        exact absurd (hxt.symm.trans hfield.1) htask
      · change (k1.tasks task).threadCount = _
        rw [htk, hS.tasks]
        rfl
    · rw [hone x hx]
      change (s'.threads idle).kernelStackPhys ≠ 0 ∧ pageOf (s'.threads idle).kernelStackPhys ∉ R
      rw [hfield.2.2]
      exact hC.stack.2
    · have hheld : heldPages R s' [idle] = insert (pageOf pa) R := by
        ext n
        simp only [heldPages, List.mem_singleton, exists_eq_left, hfield.2.2]
        rw [Set.union_comm, Set.mem_union, Set.mem_insert_iff]
        exact or_congr_left eq_comm
      change KernZones h (heldPages R s' [idle]) _ _ _ _ _
      rw [hheld]
      exact hK'.congr rfl rfl rfl rfl rfl
  · simp only [schedCreateIdle, hc] at he
    cases kr with
    | success => exact absurd rfl hkr
    | _ => cases he

end Life
/-- A kernel with one zone, of ports, and no port allocated. -/
def threadKernel : Ipc where
  kern := { kernBoot with zoneStore := ⟨fun _ => ⟨312, 0, 0, 0, 0, 0⟩, 1⟩ }
  itkSpace := fun _ => 0
  ports := fun _ => IpcPort.zero
  kmsgs := fun _ => ⟨0, 0, 0, 0, fun _ => 0, fun _ => 0⟩
  spaces := fun _ => ⟨0, fun _ => ⟨0, 0, 0⟩⟩
  portZone := some 0
  kmsgZone := none
  spaceZone := none
  user := fun _ => 0
  portLog := []
  kmsgLog := []

/-- It with an idle thread. -/
def threadIdle : ThreadWorld where
  msgs := ⟨{ threadKernel with kern := (schedCreateIdle higherHalf 0x1000 0x2000
    { threadKernel.kern with sched := schedInit threadKernel.kern.sched }).2.2 }, fun _ => none⟩
  threads := [0xffff800000001f78]

theorem threadIdle_boot : ThreadBoot higherHalf ∅ threadIdle := by
  have hstart : KernelStart higherHalf ∅ threadKernel := by
    refine ⟨⟨⟨threadKernel.kern.zoneStore.set 0 blankZone, threadKernel.kern.kmem, fun _ => ∅,
      fun _ => ∅, ∅⟩, 0, ⟨⟨⟨by decide, fun z hz => ?_, fun z hz => ⟨rfl, rfl⟩,
      fun z z' hne n hn => hn.elim⟩, fun n hn => hn.elim⟩, rfl, rfl, rfl, ⟨rfl, by decide⟩,
      Or.inl ⟨rfl, rfl⟩, Or.inl ⟨rfl, rfl⟩, fun z hz => (by cases hz), List.nodup_nil,
      List.nodup_nil⟩⟩, ⟨rfl, rfl⟩, fun task => rfl, ⟨rfl, rfl⟩, fun p =>
      ⟨rfl, rfl, rfl, show (0 : BitVec 32).toNat < 32 by decide⟩,
      List.nodup_nil, fun p hp => (by cases hp), fun space name port hl => ?_⟩
    · obtain rfl : z = 0 := Nat.lt_one_iff.mp hz
      exact ⟨[], zoneOk_new _ blankZone (by decide) (by decide) rfl,
        zoneCounts_new blankZone rfl rfl rfl⟩
    · unfold ipcSpaceLookup at hl
      simp only at hl
      split_ifs at hl with h1 h2 h3
      · cases hl
      · cases hl
      · cases hl
      · exact absurd rfl h3
  exact hstart.boot (Prod.ext (by decide +kernel) (Prod.ext (by decide +kernel) rfl))

/-- A second thread, of `task`. -/
def threadTwo (task : Word) : ThreadWorld :=
  threadIdle.withKern (threadCreate higherHalf 0x1000 task 0x3000 0 threadIdle.kern).2.2
    [0xffff800000001f20, 0xffff800000001f78]

theorem threadTwo_step (task : Word)
    (hr : (threadCreate higherHalf 0x1000 task 0x3000 0 threadIdle.kern).2.1 =
      some 0xffff800000001f20) : ThreadStep higherHalf 0x1000 threadIdle
      (.create task 0x3000 0 (some 0xffff800000001f20)) (threadTwo task) :=
  .create threadIdle rfl (Prod.ext rfl (Prod.ext hr rfl))

/-- A kernel thread is made and destroyed, and nothing refers to it any more. -/
theorem thread_run_no_dangling_kernel : ∃ w', ThreadStep higherHalf 0x1000 (threadTwo 0)
    (.destroy 0xffff800000001f20) w' ∧ NoDangling w' 0xffff800000001f20 := by
  have hstep := threadTwo_step 0 (by decide +kernel)
  have hr : Run (fun w op w' => ThreadStep higherHalf 0x1000 w op w' ∧ FreesUnreferenced w op)
      threadIdle _ (threadTwo 0) := Run.start.snoc ⟨hstep, fun t ht => by cases ht⟩
  have hs : ThreadStep higherHalf 0x1000 (threadTwo 0) (.destroy 0xffff800000001f20) _ :=
    .destroy (threadTwo 0) rfl (by decide) rfl
  refine ⟨_, hs, ?_⟩
  exact (thread_run_no_dangling higherHalf 0x1000 ∅ _ _ _ threadIdle_boot hr _ _ _ hs
    (by decide +kernel)).mpr ⟨by decide +kernel, by decide +kernel, by decide +kernel⟩

/-- A thread of a task is destroyed, and stays the first of the task's chain; the running
thread exits, and stays the current one. -/
theorem thread_destroy_dangles : ∃ w' w'',
    ThreadBoot higherHalf ∅ threadIdle ∧
    ThreadStep higherHalf 0x1000 threadIdle
      (.create 0x10 0x3000 0 (some 0xffff800000001f20)) (threadTwo 0x10) ∧
    ThreadStep higherHalf 0x1000 (threadTwo 0x10) (.destroy 0xffff800000001f20) w' ∧
    ThreadOp.frees (threadTwo 0x10) (.destroy 0xffff800000001f20) = some 0xffff800000001f20 ∧
    w'.TaskChain 0x10 [0xffff800000001f20] ∧ ¬ NoDangling w' 0xffff800000001f20 ∧
    ThreadStep higherHalf 0x1000 threadIdle .exit w'' ∧
    ThreadOp.frees threadIdle .exit = some 0xffff800000001f78 ∧
    w''.current = 0xffff800000001f78 ∧ ¬ NoDangling w'' 0xffff800000001f78 := by
  have hs : ThreadStep higherHalf 0x1000 (threadTwo 0x10) (.destroy 0xffff800000001f20)
      ((threadTwo 0x10).withKern (threadDestroy 0xffff800000001f20 (threadTwo 0x10).kern).2
        ((threadTwo 0x10).without 0xffff800000001f20)) := .destroy _ rfl (by decide) rfl
  have he : ThreadStep higherHalf 0x1000 threadIdle .exit
      (threadIdle.withKern (sysThreadExitWrapper threadIdle.kern).2
        (threadIdle.without threadIdle.current)) := .exit _ rfl rfl
  have hchain : ((threadTwo 0x10).withKern
      (threadDestroy 0xffff800000001f20 (threadTwo 0x10).kern).2
        ((threadTwo 0x10).without 0xffff800000001f20)).TaskChain 0x10 [0xffff800000001f20] :=
    ⟨1, by decide +kernel⟩
  have hcur : (threadIdle.withKern (sysThreadExitWrapper threadIdle.kern).2
      (threadIdle.without threadIdle.current)).current = 0xffff800000001f78 := by decide +kernel
  refine ⟨_, _, threadIdle_boot, threadTwo_step 0x10 (by decide +kernel), hs, by decide +kernel,
    hchain, fun hN => ?_, he, by decide +kernel, hcur, fun hN => hN.cpu.1 hcur⟩
  exact hN.chain 0x10 (by decide) _ hchain (by simp)

end Dana
