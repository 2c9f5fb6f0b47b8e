import Dana.ExecDarwin
import Dana.PagesLeft

/-! The stores that a system call makes through the pointers among its arguments, and which
of them leave the user range. -/
namespace Dana
open ByteMem

/-- The state behind the system calls. `image` is the memory that `exec_load` reads. -/
structure KernelState where
  ipc : Ipc
  exec : ExecState
  image : Mem

/-- `none` when the call does not return. -/
abbrev KernelHandler := Word → Word → Word → Word → Word → Word → KernelState →
  Option SyscallResult × KernelState

def kernelHandler (handler : SyscallHandler) : KernelHandler :=
  fun arg1 arg2 arg3 arg4 arg5 arg6 s =>
    let (r, ipc) := handler arg1 arg2 arg3 arg4 arg5 arg6 s.ipc
    (some r, { s with ipc := ipc })

def sysExecWrapper (h : Hhdm) : KernelHandler := fun arg1 arg2 arg3 _ _ _ s =>
  let (r, exec) := execLoad h s.image arg1 arg2 arg3 localPtr s.exec
  (r.map .done, { s with exec := exec })

/-- `syscall_table` after `syscall_init`. -/
def syscallTable (h : Hhdm) (threadTrampoline : Word) : ℕ → Option KernelHandler :=
  Function.update (fun n => (syscallInit h threadTrampoline noExec n).map kernelHandler)
    syscallExecNum (some (sysExecWrapper h))

def kernelDispatch (h : Hhdm) (threadTrampoline : Word) (syscallNum : ℤ)
    (arg1 arg2 arg3 arg4 arg5 arg6 : Word) (s : KernelState) : Option SyscallResult × KernelState :=
  if syscallNum < 0 ∨ (maxSyscall : ℤ) ≤ syscallNum then (some (.done .notSupported), s)
  else
    match syscallTable h threadTrampoline syscallNum.toNat with
    | none => (some (.done .notSupported), s)
    | some handler => handler arg1 arg2 arg3 arg4 arg5 arg6 s

/-- Offsets in `struct task`. -/
def taskMapOffset : Word := 8
def taskThreadsOffset : Word := 16
def taskThreadCountOffset : Word := 32

/-- A store through a pointer that the caller has passed: to a message buffer, or to a field
of a task. -/
inductive UserStore
  | word (addr v : Word)
  | copy (addr : Word) (src : Mem) (n : Word)
  | threads (task t : Word)
  | threadCount (task : Word) (n : BitVec 32)
  | map (task : Word) (m : VmMapPtr)

namespace UserStore

def addr : UserStore → Word
  | word a _ => a
  | copy a _ _ => a
  | threads task _ => task+taskThreadsOffset
  | threadCount task _ => task+taskThreadCountOffset
  | map task _ => task+taskMapOffset

def size : UserStore → ℕ
  | word _ _ => 8
  | copy _ _ n => n.toNat
  | threads _ _ => 8
  | threadCount _ _ => 4
  | map _ _ => 8

/-- The location `x` is written. -/
def Writes (w : UserStore) (x : Word) : Prop := ∃ i < w.size, x = w.addr+BitVec.ofNat 64 i

end UserStore

/-- What the pointers among the arguments lead to. -/
structure ArgMemory where
  user : Mem
  tasks : Word → Task
  taskMap : Word → VmMapPtr

def Ipc.argMemory (s : Ipc) (taskMap : Word → VmMapPtr) : ArgMemory :=
  ⟨s.user, s.kern.tasks, taskMap⟩

def KernelState.argMemory (s : KernelState) : ArgMemory := s.ipc.argMemory s.exec.taskMap

def UserStore.apply (m : ArgMemory) : UserStore → ArgMemory
  | word a v => { m with user := store64 m.user a v }
  | copy a src n => { m with user := ByteMem.copy m.user a src 0 n }
  | threads task t => { m with
      tasks := Function.update m.tasks task { m.tasks task with threads := t } }
  | threadCount task n => { m with
      tasks := Function.update m.tasks task { m.tasks task with threadCount := n } }
  | map task v => { m with taskMap := Function.update m.taskMap task v }

def ipcKmsgCopyoutStores (s : Ipc) (kmsg userMsg : Word) (size : Option Word) : List UserStore :=
  match size with
  | none => []
  | some n =>
    if kmsg = ipcKmsgNull ∨ userMsg = 0 then []
    else
      let k := s.kmsgs kmsg
      if n < k.size then []
      else
        let dataSize := k.size-sizeofMachMsgHeader
        .copy userMsg k.header sizeofMachMsgHeader ::
          if 0 < dataSize then [.copy (userMsg+sizeofMachMsgHeader) k.data dataSize] else []

def machMsgReceiveMessageStores (s : Ipc) (port msg : Word) (size : Option Word) :
    List UserStore :=
  let (kmsg, s) := ipcPortDequeue s port
  if kmsg = ipcKmsgNull then [] else ipcKmsgCopyoutStores s kmsg msg size

def machMsgReceiveResumeStores (s : Ipc) (port msg : Word) (size : Option Word) :
    List UserStore :=
  if (s.ports port).msgCount = 0 then [] else machMsgReceiveMessageStores s port msg size

/-- A receive that blocks stores nothing until it resumes. -/
def machMsgReceiveStores (s : Ipc) (msg : Word) (size : Option Word) : List UserStore :=
  if msg = 0 ∨ size = none then []
  else
    let localPort := load64 s.user (msg+msghLocalPort)
    if localPort = machPortNull then []
    else if currentTask s = taskNull ∨ s.itkSpace (currentTask s) = ipcSpaceNull then []
    else
      let (kr, port) := ipcSpaceLookup s (s.itkSpace (currentTask s)) localPort
      if kr ≠ .success then []
      else
        let port := port.getD ipcPortNull
        if (s.ports port).msgCount = 0 then
          let thread := s.kern.sched.cpuCurrentThread
          let s := s.setPort port { s.ports port with waitingThread := thread }
          let (switch, sched) := schedRun (schedBlock s.kern.sched thread)
          let s := { s with kern := { s.kern with sched := sched } }
          match switch with
          | some _ => []
          | none => machMsgReceiveResumeStores s port msg size
        else machMsgReceiveMessageStores s port msg size

def machMsgStores (h : Hhdm) (s : Ipc) (msg option sendSize rcvSize rcvName rcvMsg : Word) :
    List UserStore :=
  let (kr, s) := if option &&& 1 ≠ 0 then machMsgSend h s msg sendSize else (.success, s)
  if kr ≠ .success then []
  else if option &&& 2 ≠ 0 then
    if rcvMsg ≠ 0 then
      .word (rcvMsg+msghLocalPort) rcvName :: machMsgReceiveStores
        { s with user := store64 s.user (rcvMsg+msghLocalPort) rcvName } rcvMsg (some rcvSize)
    else machMsgReceiveStores s msg (some rcvSize)
  else []

def threadCreateStores (h : Hhdm) (task : Word) (k : Kern) : List UserStore :=
  match getThreadZone k with
  | (none, _) => []
  | (some z, k) =>
    let (t, _, kmem) := zalloc h (k.zoneStore.zones z) k.kmem
    if t = threadNull ∨ (pmmAllocPage kmem.pmm).1 = pmmNull ∨ task = taskNull then []
    else [.threads task t, .threadCount task ((k.tasks task).threadCount+1)]

def execLoadStores (h : Hhdm) (task imageData entryPoint : Word) (s : ExecState) :
    List UserStore :=
  if task = 0 ∨ imageData = 0 ∨ entryPoint = 0 ∨ s.taskMap task ≠ vmMapNull then []
  else
    match pmapCreate h s.load.vm.pm with
    | (none, _) => []
    | (some pmap, pm) =>
      [.map task (vmMapCreate h { s.load.vm with pm := pm } pmap userMapMin userMapMax).1]

/-- The stores of each handler, in order; `sys_thread_exit_wrapper` reads no argument. -/
def syscallStores (h : Hhdm) (syscallNum : ℤ) (arg1 arg2 arg3 arg4 : Word) (s : KernelState) :
    List UserStore :=
  if syscallNum = syscallMachMsgNum then
    machMsgStores h s.ipc arg1 ((arg2.setWidth 32).setWidth 64) ((arg3.setWidth 32).setWidth 64)
      ((arg4.setWidth 32).setWidth 64) 0 arg1
  else if syscallNum = syscallThreadCreateNum then threadCreateStores h arg1 s.ipc.kern
  else if syscallNum = syscallExecNum then execLoadStores h arg1 arg2 localPtr s.exec
  else []

section Replay
variable {h : Hhdm} {s : Ipc} {f : Word → VmMapPtr} {msg kmsg port size : Word}

theorem getKmsgZone_argMemory : (getKmsgZone s).2.argMemory f = s.argMemory f := by
  unfold getKmsgZone Ipc.getZone
  cases s.kmsgZone <;> rfl

theorem ipcKmsgAlloc_argMemory : (ipcKmsgAlloc h s size).2.argMemory f = s.argMemory f := by
  have hzone := getKmsgZone_argMemory (s := s) (f := f)
  unfold ipcKmsgAlloc
  cases hg : getKmsgZone s with
  | mk zone s1 =>
    rw [hg] at hzone
    cases zone with
    | none => exact hzone
    | some z =>
      dsimp only
      split_ifs <;> exact hzone

theorem ipcKmsgFree_argMemory : (ipcKmsgFree s kmsg).argMemory f = s.argMemory f := by
  have hzone := getKmsgZone_argMemory (s := s) (f := f)
  unfold ipcKmsgFree
  split_ifs
  · rfl
  cases hg : getKmsgZone s with
  | mk zone s1 =>
    rw [hg] at hzone
    cases zone <;> exact hzone

theorem ipcPortDequeue_argMemory : (ipcPortDequeue s port).2.argMemory f = s.argMemory f := by
  unfold ipcPortDequeue
  split_ifs <;> rfl

/-- A send stores nothing through the pointer to the message. -/
theorem machMsgSend_argMemory : (machMsgSend h s msg size).2.argMemory f = s.argMemory f := by
  cases he : machMsgSend h s msg size with
  | mk kr s' =>
    rcases machMsgSend_cases he with ⟨_, rfl⟩ | ⟨port, m, s1, _, _, _, _, ha, hs⟩
    · rfl
    have h1 : s1.argMemory f = s.argMemory f := by
      have halloc := @ipcKmsgAlloc_argMemory h s f size
      rwa [ha] at halloc
    rcases hs with ⟨_, _, rfl⟩ | ⟨_, s2, rfl, ⟨_, _, rfl⟩ | ⟨_, _, rfl⟩⟩
    · exact h1
    · rw [ipcKmsgFree_argMemory]
      exact h1
    · exact h1

theorem ipcKmsgCopyout_stores (n : Option Word) :
    (ipcKmsgCopyout s kmsg msg n).2.2.argMemory f =
      (ipcKmsgCopyoutStores s kmsg msg n).foldl UserStore.apply (s.argMemory f) := by
  unfold ipcKmsgCopyout ipcKmsgCopyoutStores
  cases n with
  | none => rfl
  | some n =>
    dsimp only
    split_ifs <;> rfl

theorem machMsgReceiveMessage_stores (n : Option Word) :
    (machMsgReceiveMessage s port msg n).2.2.argMemory f =
      (machMsgReceiveMessageStores s port msg n).foldl UserStore.apply (s.argMemory f) := by
  have hdeq := @ipcPortDequeue_argMemory s f port
  unfold machMsgReceiveMessage machMsgReceiveMessageStores
  cases hd : ipcPortDequeue s port with
  | mk kmsg s1 =>
    rw [hd] at hdeq
    rw [← hdeq]
    dsimp only
    split_ifs with hnull
    · rfl
    · rw [ipcKmsgFree_argMemory]
      exact ipcKmsgCopyout_stores n

theorem machMsgReceiveResume_stores (n : Option Word) :
    (machMsgReceiveResume s port msg n).2.2.argMemory f =
      (machMsgReceiveResumeStores s port msg n).foldl UserStore.apply (s.argMemory f) := by
  unfold machMsgReceiveResume machMsgReceiveResumeStores
  split_ifs
  · rfl
  · exact machMsgReceiveMessage_stores n

theorem machMsgReceive_stores (n : Option Word) :
    (machMsgReceive s msg n).2.argMemory f =
      (machMsgReceiveStores s msg n).foldl UserStore.apply (s.argMemory f) := by
  unfold machMsgReceive machMsgReceiveStores
  by_cases h1 : msg = 0 ∨ n = none
  · simp only [h1, ↓reduceIte, List.foldl_nil]
  by_cases h2 : load64 s.user (msg+msghLocalPort) = machPortNull
  · simp only [h1, h2, ↓reduceIte, List.foldl_nil]
  by_cases h3 : currentTask s = taskNull ∨ s.itkSpace (currentTask s) = ipcSpaceNull
  · simp only [h1, h2, h3, ↓reduceIte, List.foldl_nil]
  obtain ⟨kr, port, hl⟩ : ∃ kr port, ipcSpaceLookup s (s.itkSpace (currentTask s))
    (load64 s.user (msg+msghLocalPort)) = (kr, port) := ⟨_, _, rfl⟩
  obtain ⟨switch, sched, hsw⟩ : ∃ switch sched,
    schedRun (schedBlock s.kern.sched s.kern.sched.cpuCurrentThread) = (switch, sched) :=
    ⟨_, _, rfl⟩
  simp only [h1, h2, h3, hl, ↓reduceIte, Ipc.setPort_kern, hsw]
  by_cases hkr : kr = .success
  swap
  · rw [if_pos hkr, if_pos hkr]
    rfl
  rw [if_neg (not_not.mpr hkr), if_neg (not_not.mpr hkr)]
  by_cases hc : (s.ports (port.getD ipcPortNull)).msgCount = 0
  · rw [if_pos hc, if_pos hc]
    cases switch with
    | some _ => rfl
    | none => exact machMsgReceiveResume_stores n
  · rw [if_neg hc, if_neg hc]
    exact machMsgReceiveMessage_stores n

theorem machMsg_stores (option sendSize rcvSize rcvName rcvMsg : Word) :
    (machMsg h s msg option sendSize rcvSize rcvName rcvMsg).2.argMemory f =
      (machMsgStores h s msg option sendSize rcvSize rcvName rcvMsg).foldl UserStore.apply
        (s.argMemory f) := by
  have hsend := @machMsgSend_argMemory h s f msg sendSize
  unfold machMsg machMsgStores
  obtain ⟨kr, s1, hs⟩ : ∃ kr s1,
    (if option &&& 1 ≠ 0 then machMsgSend h s msg sendSize else (.success, s)) = (kr, s1) :=
    ⟨_, _, rfl⟩
  have h1 : s1.argMemory f = s.argMemory f := by
    split_ifs at hs with ho
    · rwa [hs] at hsend
    · rw [← (Prod.mk.inj hs).2]
  simp only [hs, ← h1]
  by_cases hkr : kr = .success
  swap
  · rw [if_pos hkr, if_pos hkr]
    rfl
  rw [if_neg (not_not.mpr hkr), if_neg (not_not.mpr hkr)]
  by_cases h2 : option &&& 2 ≠ 0
  swap
  · rw [if_neg h2, if_neg h2]
    rfl
  rw [if_pos h2, if_pos h2]
  by_cases hmsg : rcvMsg ≠ 0
  · rw [if_pos hmsg, if_pos hmsg, if_pos hmsg]
    exact machMsgReceive_stores (some rcvSize)
  · rw [if_neg hmsg, if_neg hmsg, if_neg hmsg]
    exact machMsgReceive_stores (some rcvSize)

theorem getThreadZone_tasks (k : Kern) : (getThreadZone k).2.tasks = k.tasks := by
  unfold getThreadZone
  cases k.threadZone <;> rfl

theorem threadCreate_stores {trampoline task entry arg : Word} {k : Kern} {user : Mem} :
    (⟨user, (threadCreate h trampoline task entry arg k).2.2.tasks, f⟩ : ArgMemory) =
      (threadCreateStores h task k).foldl UserStore.apply ⟨user, k.tasks, f⟩ := by
  have htasks := getThreadZone_tasks k
  unfold threadCreateStores
  cases hg : getThreadZone k with
  | mk zone k1 =>
    rw [hg] at htasks
    rw [← htasks]
    cases zone with
    | none => simp only [threadCreate, hg, List.foldl_nil]
    | some z =>
      obtain ⟨t, zn, kmem, ha⟩ : ∃ t zn kmem, zalloc h (k1.zoneStore.zones z) k1.kmem =
        (t, zn, kmem) := ⟨_, _, _, rfl⟩
      obtain ⟨pa, pmm, hp⟩ : ∃ pa pmm, pmmAllocPage kmem.pmm = (pa, pmm) := ⟨_, _, rfl⟩
      rw [threadCreate_eq hg ha hp rfl]
      simp only [ha, hp]
      by_cases ht : t = threadNull
      · simp only [ht, ↓reduceIte, true_or, List.foldl_nil]
      by_cases hpa : pa = pmmNull
      · simp only [ht, hpa, ↓reduceIte, false_or, true_or, List.foldl_nil]
        rfl
      by_cases htask : task = taskNull
      · simp only [ht, hpa, htask, ↓reduceIte, false_or, List.foldl_nil, threadSetup, ne_eq,
          not_true_eq_false]
        rfl
      · simp only [ht, hpa, htask, ↓reduceIte, false_or, threadSetup, ne_eq, not_false_eq_true,
          List.foldl_cons, List.foldl_nil, UserStore.apply, Function.update_self,
          Function.update_idem]
        rfl

theorem threadDestroy_tasks (t : Word) (k : Kern) : (threadDestroy t k).2.tasks = k.tasks := by
  unfold threadDestroy
  by_cases ht : t = threadNull
  · rw [if_pos ht]
  rw [if_neg ht]
  dsimp only
  split_ifs
  · rfl
  all_goals
    split <;> rename_i hg
    all_goals
      have hz := congrArg (fun r => r.2.tasks) hg
      rw [getThreadZone_tasks] at hz
      exact hz.symm

/-- `exec_load` stores the field `map` of the task, and only where it was `VM_MAP_NULL`. -/
theorem execMap_stores {task : Word} {e : ExecState} :
    s.argMemory (execMap h task e).2.taskMap =
      (if e.taskMap task ≠ vmMapNull then []
        else match pmapCreate h e.load.vm.pm with
          | (none, _) => []
          | (some pmap, pm) => [UserStore.map task
              (vmMapCreate h { e.load.vm with pm := pm } pmap userMapMin userMapMax).1]).foldl
        UserStore.apply (s.argMemory e.taskMap) := by
  unfold execMap
  by_cases hnull : e.taskMap task = vmMapNull
  swap
  · rw [if_neg hnull, if_pos hnull]
    rfl
  rw [if_pos hnull, if_neg (not_not.mpr hnull)]
  cases hp : pmapCreate h e.load.vm.pm with
  | mk r pm =>
    cases r with
    | none => rfl
    | some p =>
      dsimp only
      split_ifs <;> rfl

theorem execLoad_stores {img : Mem} {task imageData imageSize entryPoint : Word} {e : ExecState} :
    s.argMemory (execLoad h img task imageData imageSize entryPoint e).2.taskMap =
      (execLoadStores h task imageData entryPoint e).foldl UserStore.apply
        (s.argMemory e.taskMap) := by
  have hmap := @execMap_stores h s task e
  unfold execLoadStores
  rcases execLoad_cases h img task imageData imageSize entryPoint e with ⟨hbad, hr⟩ |
    ⟨hargs, ⟨e₁, hm, hr⟩ | ⟨e₁, hm, ⟨_, _, hr⟩ | ⟨_, _, _, _, hr⟩⟩⟩
  · rw [hr, if_pos (by tauto)]
    rfl
  all_goals
    have hor : (task = 0 ∨ imageData = 0 ∨ entryPoint = 0 ∨ e.taskMap task ≠ vmMapNull) ↔
        e.taskMap task ≠ vmMapNull := by tauto
    rw [hm] at hmap
    simp only [hor]
    rw [hr]
    exact hmap

end Replay

section Dispatch
variable {h : Hhdm} {trampoline : Word}

theorem syscallTable_none {n : ℕ} (hn : n ≠ 1 ∧ n ≠ 2 ∧ n ≠ 3 ∧ n ≠ 7) :
    syscallTable h trampoline n = none := by
  simp only [syscallTable, syscallInit, syscallMachMsgNum, syscallThreadCreateNum,
    syscallThreadExitNum, syscallExecNum]
  rw [Function.update_of_ne hn.2.2.2, Function.update_of_ne hn.2.2.2,
    Function.update_of_ne hn.2.2.1, Function.update_of_ne hn.2.1, Function.update_of_ne hn.1]
  rfl

/-- The number selects one of the four handlers, or none. -/
theorem kernelDispatch_cases (n : ℤ) (a b c d e f : Word) (s : KernelState) :
    (n = 1 ∧ kernelDispatch h trampoline n a b c d e f s =
      kernelHandler (sysMachMsgWrapper h) a b c d e f s) ∨
    (n = 2 ∧ kernelDispatch h trampoline n a b c d e f s =
      kernelHandler (sysThreadCreateWrapper h trampoline) a b c d e f s) ∨
    (n = 3 ∧ kernelDispatch h trampoline n a b c d e f s =
      kernelHandler sysThreadExit a b c d e f s) ∨
    (n = 7 ∧ kernelDispatch h trampoline n a b c d e f s = sysExecWrapper h a b c d e f s) ∨
    ((n ≠ 1 ∧ n ≠ 2 ∧ n ≠ 3 ∧ n ≠ 7) ∧
      kernelDispatch h trampoline n a b c d e f s = (some (.done .notSupported), s)) := by
  by_cases h1 : n = 1
  · exact Or.inl ⟨h1, by rw [h1]; rfl⟩
  by_cases h2 : n = 2
  · exact Or.inr (Or.inl ⟨h2, by rw [h2]; rfl⟩)
  by_cases h3 : n = 3
  · exact Or.inr (Or.inr (Or.inl ⟨h3, by rw [h3]; rfl⟩))
  by_cases h7 : n = 7
  · exact Or.inr (Or.inr (Or.inr (Or.inl ⟨h7, by rw [h7]; rfl⟩)))
  refine Or.inr (Or.inr (Or.inr (Or.inr ⟨⟨h1, h2, h3, h7⟩, ?_⟩)))
  unfold kernelDispatch
  split_ifs with hrange
  · rfl
  · rw [syscallTable_none (by omega)]

theorem syscallStores_machMsg (a b c d : Word) (s : KernelState) : syscallStores h 1 a b c d s =
    machMsgStores h s.ipc a ((b.setWidth 32).setWidth 64) ((c.setWidth 32).setWidth 64)
      ((d.setWidth 32).setWidth 64) 0 a := rfl

theorem syscallStores_threadCreate (a b c d : Word) (s : KernelState) :
    syscallStores h 2 a b c d s = threadCreateStores h a s.ipc.kern := rfl

theorem syscallStores_exec (a b c d : Word) (s : KernelState) :
    syscallStores h 7 a b c d s = execLoadStores h a b localPtr s.exec := rfl

theorem syscallStores_none {n : ℤ} (hn : n ≠ 1 ∧ n ≠ 2 ∧ n ≠ 7) (a b c d : Word)
    (s : KernelState) : syscallStores h n a b c d s = [] := by
  unfold syscallStores syscallMachMsgNum syscallThreadCreateNum syscallExecNum
  rw [if_neg (by omega), if_neg (by omega), if_neg (by omega)]

/-- After a call, what the pointers lead to is what it was with the stores done in order. -/
theorem kernelDispatch_stores (n : ℤ) (a b c d e f : Word) (s : KernelState) :
    (kernelDispatch h trampoline n a b c d e f s).2.argMemory =
      (syscallStores h n a b c d s).foldl UserStore.apply s.argMemory := by
  rcases @kernelDispatch_cases h trampoline n a b c d e f s with ⟨rfl, hd⟩ | ⟨rfl, hd⟩ |
    ⟨rfl, hd⟩ | ⟨rfl, hd⟩ | ⟨hn, hd⟩
  · rw [hd, syscallStores_machMsg]
    exact machMsg_stores ..
  · rw [hd, syscallStores_threadCreate]
    exact threadCreate_stores
  · rw [hd, syscallStores_none (by decide)]
    have htasks : (sysThreadExitWrapper s.ipc.kern).2.tasks = s.ipc.kern.tasks := by
      unfold sysThreadExitWrapper
      dsimp only
      split_ifs
      · exact threadDestroy_tasks ..
      · rfl
    simp only [kernelHandler, sysThreadExit, KernelState.argMemory, Ipc.argMemory, htasks,
      List.foldl_nil]
  · rw [hd, syscallStores_exec]
    exact execLoad_stores
  · rw [hd, syscallStores_none ⟨hn.1, hn.2.1, hn.2.2.2⟩]
    rfl

end Dispatch

/-- `mach_msg_send` queues the message: the buffer is there and of a size that a kmsg has room
for, the name is one of a port of the current task with room in its queue, and there is
memory for the kmsg. -/
structure SendAccepted (s : Ipc) (msg size : Word) : Prop where
  buffer : msg ≠ 0
  lower : sizeofMachMsgHeader ≤ size
  upper : size ≤ kmsgZoneSize
  task : currentTask s ≠ taskNull
  port : ∃ port, ipcSpaceLookup s (s.itkSpace (currentTask s))
      (load64 s.user (msg+msghRemotePort)) = (.success, some port) ∧
    (s.ports port).msgCount.toNat < ipcPortQueueMax
  memory : ZoneReady s.kern.zoneStore s.kmsgZone s.kern.kmem.pmm 0

/-- `n` bytes from `a` on are in the user range. -/
def InUserRange (a : Word) (n : ℕ) : Prop :=
  userMapMin.toNat ≤ a.toNat ∧ a.toNat+n ≤ userMapMax.toNat+1

instance (a : Word) (n : ℕ) : Decidable (InUserRange a n) := inferInstanceAs (Decidable (_ ∧ _))

/-- Where a call gets to its stores, they are in the user range. -/
structure PointersConfined (syscallNum : ℤ) (arg1 arg2 arg3 : Word) (s : KernelState) :
    Prop where
  machMsg : syscallNum = syscallMachMsgNum → arg1 ≠ 0 → arg2 &&& 2 ≠ 0 →
    (arg2 &&& 1 = 0 ∨ SendAccepted s.ipc arg1 ((arg3.setWidth 32).setWidth 64)) →
    InUserRange (arg1+msghLocalPort) 8
  threadCreate : syscallNum = syscallThreadCreateNum → arg1 ≠ taskNull →
    ZoneReady s.ipc.kern.zoneStore s.ipc.kern.threadZone s.ipc.kern.kmem.pmm 1 →
    InUserRange (arg1+taskThreadsOffset) 8 ∧ InUserRange (arg1+taskThreadCountOffset) 4
  exec : syscallNum = syscallExecNum → arg1 ≠ 0 → arg2 ≠ 0 →
    s.exec.taskMap arg1 = vmMapNull → PagesLeft s.exec.load.vm.pm.kmem.pmm 2 →
    InUserRange (arg1+taskMapOffset) 8

section Confined
variable {h : Hhdm} {s : Ipc} {msg size : Word}

/-- A name that resolves is not null, and neither is the space. -/
theorem ipcSpaceLookup_resolved {space name port : Word}
    (hl : ipcSpaceLookup s space name = (.success, some port)) :
    space ≠ ipcSpaceNull ∧ name ≠ machPortNull := by
  have hsp : space ≠ ipcSpaceNull := by
    intro hnull
    rw [ipcSpaceLookup, if_pos hnull] at hl
    cases hl
  refine ⟨hsp, fun hnull => ?_⟩
  rw [ipcSpaceLookup, if_neg hsp, if_pos (Or.inl hnull)] at hl
  cases hl

theorem machMsgSend_accepted :
    (machMsgSend h s msg size).1 = .success ↔ SendAccepted s msg size := by
  constructor
  · intro hs
    obtain ⟨kr, s', he⟩ : ∃ kr s', machMsgSend h s msg size = (kr, s') := ⟨_, _, rfl⟩
    rw [he] at hs
    obtain rfl : kr = .success := hs
    have hmsg : msg ≠ 0 := by
      rintro rfl
      rw [machMsgSend, if_pos (Or.inl rfl)] at he
      cases he
    rcases machMsgSend_cases he with ⟨hne, _⟩ | ⟨port, m, s1, ht, hl, _, hsize, ha, hs⟩
    · exact absurd rfl hne
    rcases hs with ⟨_, hk, _⟩ | ⟨hm, _, _, ⟨_, hk, _⟩ | ⟨hroom, _⟩⟩
    · cases hk
    · cases hk
    · obtain ⟨hupper, hmem⟩ := ipcKmsgAlloc_left.mp (show (ipcKmsgAlloc h s size).1 ≠ _ by rwa [ha])
      exact ⟨hmsg, BitVec.not_lt.mp hsize, hupper, ht, ⟨port, hl, hroom⟩, hmem⟩
  · rintro ⟨hmsg, hlower, hupper, ht, ⟨port, hl, hroom⟩, hmem⟩
    obtain ⟨m, s1, ha⟩ : ∃ m s1, ipcKmsgAlloc h s size = (m, s1) := ⟨_, _, rfl⟩
    have hm : m ≠ ipcKmsgNull := by
      have halloc := (ipcKmsgAlloc_left (h := h)).mpr ⟨hupper, hmem⟩
      rwa [ha] at halloc
    rcases ipcSpaceLookup_success hl with ⟨hk, _⟩ | ⟨p, _, hp', hp⟩
    · cases hk
    obtain rfl : port = p := Option.some.inj hp'
    have h1 : ¬ (msg = 0 ∨ size < sizeofMachMsgHeader) := by
      rw [not_or, BitVec.not_lt]
      exact ⟨hmsg, hlower⟩
    obtain ⟨hspace, hname⟩ := ipcSpaceLookup_resolved hl
    have honly := ipcKmsgAlloc_kmsgOnly ha
    obtain ⟨s2, hc, hfill⟩ := ipcKmsgCopyin_alloc hm hmsg (BitVec.not_lt.mpr hlower) honly.user
      (ipcKmsgAlloc_content ha hm) port
    have hports : (s1.setKmsg m (filledKmsg s msg size port)).ports = s.ports := honly.ports
    rw [machMsgSend, if_neg h1]
    simp only [hname, ht, hspace, hl, ha, hm, hc, or_self, ne_eq, not_true_eq_false, ↓reduceIte,
      Option.getD_some, hfill, ipcPortEnqueue_cases hp hm, hports, Nat.not_le.mpr hroom]

/-- The location of the first byte and that of the last decide. -/
theorem UserStore.writes_user {n : ℕ} (w : UserStore) (hw : w.size = n) (hpos : 0 < n)
    (hsize : n ≤ 2^32) :
    (∀ x, w.Writes x → userMapMin ≤ x ∧ x ≤ userMapMax) ↔ InUserRange w.addr n := by
  subst hw
  have hmax : userMapMax.toNat = 0x7fffffffffff := rfl
  have hat (i : ℕ) (hi : i < w.size) : (BitVec.ofNat 64 i).toNat = i := by
    rw [BitVec.toNat_ofNat]
    exact Nat.mod_eq_of_lt (by omega)
  constructor
  · intro hw
    obtain ⟨hlow, hhigh⟩ := hw w.addr ⟨0, hpos, (BitVec.add_zero _).symm⟩
    obtain ⟨_, hlast⟩ := hw (w.addr+BitVec.ofNat 64 (w.size-1)) ⟨w.size-1, by omega, rfl⟩
    rw [BitVec.le_def] at hlow hhigh hlast
    rw [BitVec.toNat_add, hat (w.size-1) (by omega)] at hlast
    refine ⟨hlow, ?_⟩
    omega
  · rintro ⟨hlow, hhigh⟩ x ⟨i, hi, rfl⟩
    rw [BitVec.le_def, BitVec.le_def, BitVec.toNat_add, hat i hi]
    omega

/-- Through the trap the receive name that is stored is 0, so the receive itself stores
nothing. -/
theorem machMsgStores_trap (option sendSize rcvSize : Word) :
    ((msg ≠ 0 ∧ option &&& 2 ≠ 0 ∧ (option &&& 1 = 0 ∨ SendAccepted s msg sendSize)) ∧
      machMsgStores h s msg option sendSize rcvSize 0 msg = [.word (msg+msghLocalPort) 0]) ∨
    ¬ (msg ≠ 0 ∧ option &&& 2 ≠ 0 ∧ (option &&& 1 = 0 ∨ SendAccepted s msg sendSize)) ∧
      machMsgStores h s msg option sendSize rcvSize 0 msg = [] := by
  obtain ⟨kr, s1, hs⟩ : ∃ kr s1,
    (if option &&& 1 ≠ 0 then machMsgSend h s msg sendSize else (.success, s)) = (kr, s1) :=
    ⟨_, _, rfl⟩
  have hkr : kr = .success ↔ option &&& 1 = 0 ∨ SendAccepted s msg sendSize := by
    rw [← machMsgSend_accepted (h := h)]
    split_ifs at hs with ho
    · rw [hs]
      tauto
    · have := (Prod.mk.inj hs).1
      tauto
  rw [← hkr]
  unfold machMsgStores
  simp only [hs]
  by_cases hk : kr = .success
  swap
  · rw [if_pos hk]
    exact Or.inr ⟨by tauto, rfl⟩
  rw [if_neg (not_not.mpr hk)]
  by_cases h2 : option &&& 2 ≠ 0
  swap
  · rw [if_neg h2]
    exact Or.inr ⟨by tauto, rfl⟩
  rw [if_pos h2]
  by_cases hmsg : msg ≠ 0
  swap
  · rw [if_neg hmsg, machMsgReceiveStores, if_pos (Or.inl (not_not.mp hmsg))]
    exact Or.inr ⟨by tauto, rfl⟩
  have hnone : ¬ (msg = 0 ∨ some rcvSize = none) := by simpa using hmsg
  have hload : load64 (store64 s1.user (msg+msghLocalPort) 0) (msg+msghLocalPort) = machPortNull :=
    load64_store64_same ..
  rw [if_pos hmsg, machMsgReceiveStores, if_neg hnone]
  simp only [hload, ↓reduceIte]
  exact Or.inl ⟨⟨hmsg, h2, hk⟩, trivial⟩

theorem threadCreateStores_exact (task : Word) (k : Kern) :
    ((task ≠ taskNull ∧ ZoneReady k.zoneStore k.threadZone k.kmem.pmm 1) ∧
      ∃ t n, threadCreateStores h task k = [.threads task t, .threadCount task n]) ∨
    ¬ (task ≠ taskNull ∧ ZoneReady k.zoneStore k.threadZone k.kmem.pmm 1) ∧
      threadCreateStores h task k = [] := by
  rw [← @threadCreate_left h 0 task 0 0 k]
  unfold threadCreateStores
  cases hg : getThreadZone k with
  | mk zone k1 =>
    cases zone with
    | none =>
      right
      simp [threadCreate, hg]
    | some z =>
      obtain ⟨t, zn, kmem, ha⟩ : ∃ t zn kmem, zalloc h (k1.zoneStore.zones z) k1.kmem =
        (t, zn, kmem) := ⟨_, _, _, rfl⟩
      obtain ⟨pa, pmm, hp⟩ : ∃ pa pmm, pmmAllocPage kmem.pmm = (pa, pmm) := ⟨_, _, rfl⟩
      rw [threadCreate_eq hg ha hp rfl]
      simp only [ha, hp]
      by_cases ht : t = threadNull
      · right
        simp [ht]
      by_cases hpa : pa = pmmNull
      · right
        simp [ht, hpa]
      by_cases htask : task = taskNull
      · right
        simp [htask]
      · left
        simp [ht, hpa, htask]

theorem execLoadStores_exact (task imageData : Word) (e : ExecState) :
    ((task ≠ 0 ∧ imageData ≠ 0 ∧ e.taskMap task = vmMapNull ∧
        PagesLeft e.load.vm.pm.kmem.pmm 2) ∧
      ∃ m, execLoadStores h task imageData localPtr e = [.map task m]) ∨
    ¬ (task ≠ 0 ∧ imageData ≠ 0 ∧ e.taskMap task = vmMapNull ∧
        PagesLeft e.load.vm.pm.kmem.pmm 2) ∧
      execLoadStores h task imageData localPtr e = [] := by
  have hlocal : localPtr ≠ 0 := by decide
  rw [← pmapCreate_left (h := h)]
  unfold execLoadStores
  by_cases hbad : task = 0 ∨ imageData = 0 ∨ localPtr = 0 ∨ e.taskMap task ≠ vmMapNull
  · rw [if_pos hbad]
    exact Or.inr ⟨by tauto, rfl⟩
  rw [if_neg hbad]
  cases hp : pmapCreate h e.load.vm.pm with
  | mk r pm =>
    cases r with
    | none => exact Or.inr ⟨by tauto, rfl⟩
    | some p => exact Or.inl ⟨by tauto, _, rfl⟩

theorem machMsg_confined (a b c d : Word) (s : KernelState) :
    (∀ w ∈ syscallStores h 1 a b c d s, ∀ x, w.Writes x → userMapMin ≤ x ∧ x ≤ userMapMax) ↔
      PointersConfined 1 a b c s := by
  have h1 : ((b.setWidth 32).setWidth 64) &&& (1 : Word) = b &&& 1 := option_bit b (by decide)
  have h2 : ((b.setWidth 32).setWidth 64) &&& (2 : Word) = b &&& 2 := option_bit b (by decide)
  have hstore := (UserStore.word (a+msghLocalPort) 0).writes_user (n := 8) rfl (by decide) (by decide)
  rw [syscallStores_machMsg]
  rcases @machMsgStores_trap h s.ipc a ((b.setWidth 32).setWidth 64) ((c.setWidth 32).setWidth 64)
    ((d.setWidth 32).setWidth 64) with ⟨⟨hmsg, hrcv, hsend⟩, hw⟩ | ⟨hno, hw⟩
  · rw [h1] at hsend
    rw [h2] at hrcv
    rw [hw, List.forall_mem_singleton, hstore]
    constructor
    · intro hin
      exact ⟨fun _ _ _ _ => hin, fun hn => absurd hn (by decide), fun hn => absurd hn (by decide)⟩
    · intro hp
      exact hp.machMsg rfl hmsg hrcv hsend
  · rw [h1, h2] at hno
    rw [hw]
    refine ⟨fun _ => ⟨fun _ hm hr hs => absurd ⟨hm, hr, hs⟩ hno, fun hn => absurd hn (by decide),
      fun hn => absurd hn (by decide)⟩, fun _ w hmem => ?_⟩
    cases hmem

theorem threadCreate_confined (a b c d : Word) (s : KernelState) :
    (∀ w ∈ syscallStores h 2 a b c d s, ∀ x, w.Writes x → userMapMin ≤ x ∧ x ≤ userMapMax) ↔
      PointersConfined 2 a b c s := by
  rw [syscallStores_threadCreate]
  rcases @threadCreateStores_exact h a s.ipc.kern with ⟨⟨htask, hmem⟩, t, n, hw⟩ | ⟨hno, hw⟩
  · have h1 := (UserStore.threads a t).writes_user (n := 8) rfl (by decide) (by decide)
    have h2 := (UserStore.threadCount a n).writes_user (n := 4) rfl (by decide) (by decide)
    rw [hw, List.forall_mem_cons, List.forall_mem_singleton, h1, h2]
    constructor
    · intro hin
      exact ⟨fun hn => absurd hn (by decide), fun _ _ _ => hin, fun hn => absurd hn (by decide)⟩
    · intro hp
      exact hp.threadCreate rfl htask hmem
  · rw [hw]
    refine ⟨fun _ => ⟨fun hn => absurd hn (by decide), fun _ ht hm => absurd ⟨ht, hm⟩ hno,
      fun hn => absurd hn (by decide)⟩, fun _ w hmem => ?_⟩
    cases hmem

theorem exec_confined (a b c d : Word) (s : KernelState) :
    (∀ w ∈ syscallStores h 7 a b c d s, ∀ x, w.Writes x → userMapMin ≤ x ∧ x ≤ userMapMax) ↔
      PointersConfined 7 a b c s := by
  rw [syscallStores_exec]
  rcases @execLoadStores_exact h a b s.exec with ⟨⟨htask, himage, hnull, hmem⟩, m, hw⟩ | ⟨hno, hw⟩
  · have h1 := (UserStore.map a m).writes_user (n := 8) rfl (by decide) (by decide)
    rw [hw, List.forall_mem_singleton, h1]
    constructor
    · intro hin
      exact ⟨fun hn => absurd hn (by decide), fun hn => absurd hn (by decide),
        fun _ _ _ _ _ => hin⟩
    · intro hp
      exact hp.exec rfl htask himage hnull hmem
  · rw [hw]
    refine ⟨fun _ => ⟨fun hn => absurd hn (by decide), fun hn => absurd hn (by decide),
      fun _ ht hi hn hm => absurd ⟨ht, hi, hn, hm⟩ hno⟩, fun _ w hmem => ?_⟩
    cases hmem

end Confined

/-- The stores of every system call are those that `syscallStores` lists, and they are in the
user range if and only if the pointers are confined where the call gets to its stores. -/
theorem syscall_writes_confined (h : Hhdm) (threadTrampoline : Word) (syscallNum : ℤ)
    (arg1 arg2 arg3 arg4 arg5 arg6 : Word) (s : KernelState) :
    (kernelDispatch h threadTrampoline syscallNum arg1 arg2 arg3 arg4 arg5 arg6 s).2.argMemory =
      (syscallStores h syscallNum arg1 arg2 arg3 arg4 s).foldl UserStore.apply s.argMemory ∧
    ((∀ w ∈ syscallStores h syscallNum arg1 arg2 arg3 arg4 s, ∀ x, w.Writes x →
        userMapMin ≤ x ∧ x ≤ userMapMax) ↔
      PointersConfined syscallNum arg1 arg2 arg3 s) := by
  refine ⟨kernelDispatch_stores syscallNum arg1 arg2 arg3 arg4 arg5 arg6 s, ?_⟩
  by_cases h1 : syscallNum = 1
  · rw [h1]
    exact machMsg_confined ..
  by_cases h2 : syscallNum = 2
  · rw [h2]
    exact threadCreate_confined ..
  by_cases h7 : syscallNum = 7
  · rw [h7]
    exact exec_confined ..
  rw [syscallStores_none ⟨h1, h2, h7⟩]
  refine ⟨fun _ => ⟨fun hn => absurd hn h1, fun hn => absurd hn h2, fun hn => absurd hn h7⟩,
    fun _ w hmem => ?_⟩
  cases hmem

/-- A thread has sent itself a message; the first task has no map. -/
def kernelSent : KernelState := ⟨ipcSent.ipc, execFirst, fun _ => 0⟩

/-- A receive into a buffer at the base of the kernel image stores in the kernel image. -/
theorem syscall_writes_kernel_image :
    ¬ (∀ w ∈ syscallStores higherHalf 1 0xffffffff80000000 2 0 512 kernelSent, ∀ x, w.Writes x →
      userMapMin ≤ x ∧ x ≤ userMapMax) ∧
    (UserStore.word 0xffffffff80000018 0).Writes 0xffffffff80000018 ∧
    UserStore.word 0xffffffff80000018 0 ∈
      syscallStores higherHalf 1 0xffffffff80000000 2 0 512 kernelSent := by
  have hmem : UserStore.word 0xffffffff80000018 0 ∈
      syscallStores higherHalf 1 0xffffffff80000000 2 0 512 kernelSent := by
    rw [syscallStores_machMsg]
    rcases @machMsgStores_trap higherHalf kernelSent.ipc 0xffffffff80000000 2 0 512 with
      ⟨_, hw⟩ | ⟨hno, _⟩
    · exact hw ▸ List.mem_singleton.mpr rfl
    · exact absurd ⟨by decide, by decide, Or.inl (by decide)⟩ hno
  have hwrites : (UserStore.word 0xffffffff80000018 0).Writes 0xffffffff80000018 :=
    ⟨0, by decide, by decide⟩
  refine ⟨fun hall => ?_, hwrites, hmem⟩
  exact absurd (hall _ hmem _ hwrites).2 (by decide)

end Dana
