import Dana.IpcRuns

/-! What each function of the IPC code can do, said once. -/
namespace Dana
open ByteMem Sched RingBuffer

/-- The messages queued in a port, first to last. -/
def IpcPort.queue (v : IpcPort) : List Word :=
  (List.range v.msgCount.toNat).map fun i => v.messages ((v.msgFirst.toNat+i)%ipcPortQueueMax)

/-- The indices and the count of a port agree. -/
def IpcPort.Ok (v : IpcPort) : Prop :=
  Holds ipcPortQueueMax v.messages v.msgFirst.toNat v.msgLast.toNat v.msgCount.toNat v.queue

/-- Only the kmsg zone, its elements and the memory behind it change. -/
structure KmsgOnly (s s' : Ipc) : Prop where
  sched : s'.kern.sched = s.kern.sched
  ports : s'.ports = s.ports
  spaces : s'.spaces = s.spaces
  itkSpace : s'.itkSpace = s.itkSpace
  user : s'.user = s.user
  portLog : s'.portLog = s.portLog

@[simp] theorem Ipc.setPort_kern (s : Ipc) (p : Word) (v : IpcPort) :
    (s.setPort p v).kern = s.kern := rfl

theorem KmsgOnly.refl (s : Ipc) : KmsgOnly s s := ⟨rfl, rfl, rfl, rfl, rfl, rfl⟩

theorem KmsgOnly.trans {s s' s'' : Ipc} (h : KmsgOnly s s') (h' : KmsgOnly s' s'') :
    KmsgOnly s s'' :=
  ⟨h'.sched.trans h.sched, h'.ports.trans h.ports, h'.spaces.trans h.spaces,
    h'.itkSpace.trans h.itkSpace, h'.user.trans h.user, h'.portLog.trans h.portLog⟩

theorem KmsgOnly.setKmsg (s : Ipc) (m : Word) (v : IpcKmsg) : KmsgOnly s (s.setKmsg m v) :=
  ⟨rfl, rfl, rfl, rfl, rfl, rfl⟩

section Kmsg
variable (h : Hhdm) (s : Ipc)

theorem getKmsgZone_only : KmsgOnly s (getKmsgZone s).2 := by
  unfold getKmsgZone Ipc.getZone
  cases s.kmsgZone <;> exact ⟨rfl, rfl, rfl, rfl, rfl, rfl⟩

theorem ipcKmsgAlloc_only (size : Word) : KmsgOnly s (ipcKmsgAlloc h s size).2 := by
  obtain ⟨z, s1, hz⟩ : ∃ z s1, getKmsgZone s = (z, s1) := ⟨_, _, rfl⟩
  have h1 : KmsgOnly s s1 := by
    have := getKmsgZone_only s
    rwa [hz] at this
  unfold ipcKmsgAlloc
  rw [hz]
  cases z with
  | none => exact h1
  | some z =>
    simp only
    split_ifs
    · exact h1
    · exact h1.trans ⟨rfl, rfl, rfl, rfl, rfl, rfl⟩
    · exact h1.trans ⟨rfl, rfl, rfl, rfl, rfl, rfl⟩

theorem ipcKmsgFree_only (kmsg : Word) : KmsgOnly s (ipcKmsgFree s kmsg) := by
  obtain ⟨z, s1, hz⟩ : ∃ z s1, getKmsgZone s = (z, s1) := ⟨_, _, rfl⟩
  have h1 : KmsgOnly s s1 := by
    have := getKmsgZone_only s
    rwa [hz] at this
  unfold ipcKmsgFree
  split_ifs
  · exact KmsgOnly.refl s
  · rw [hz]
    cases z with
    | none => exact h1
    | some z => exact h1.trans ⟨rfl, rfl, rfl, rfl, rfl, rfl⟩

end Kmsg

theorem ipcKmsgAlloc_kmsgOnly {h : Hhdm} {s s' : Ipc} {size m : Word} (ha : ipcKmsgAlloc h s size = (m, s')) :
    KmsgOnly s s' := by
  have honly := ipcKmsgAlloc_only h s size
  rwa [ha] at honly

/-- A message that is made, filled and freed again. -/
theorem KmsgOnly.full {h : Hhdm} {s s' : Ipc} {size m : Word}
    (ha : ipcKmsgAlloc h s size = (m, s')) (k : IpcKmsg) :
    KmsgOnly s (ipcKmsgFree (s'.setKmsg m k) m) :=
  ((ipcKmsgAlloc_kmsgOnly ha).trans (KmsgOnly.setKmsg s' m k)).trans (ipcKmsgFree_only _ m)

/-- The message as `mach_msg_send` queues it. -/
def filledKmsg (s : Ipc) (msg size port : Word) : IpcKmsg where
  next := ipcKmsgNull
  port := port
  size := size
  headerSize := sizeofMachMsgHeader
  header := copy (fun _ => 0) 0 s.user msg sizeofMachMsgHeader
  data := if 0 < size-sizeofMachMsgHeader then
      copy (fun _ => 0) 0 s.user (msg+sizeofMachMsgHeader) (size-sizeofMachMsgHeader)
    else fun _ => 0

theorem ipcKmsgAlloc_content {h : Hhdm} {s s' : Ipc} {size m : Word}
    (ha : ipcKmsgAlloc h s size = (m, s')) (hm : m ≠ ipcKmsgNull) :
    s'.kmsgs m = ⟨ipcKmsgNull, ipcPortNull, size, sizeofMachMsgHeader, fun _ => 0, fun _ => 0⟩ := by
  obtain ⟨z, s1, hz⟩ : ∃ z s1, getKmsgZone s = (z, s1) := ⟨_, _, rfl⟩
  unfold ipcKmsgAlloc at ha
  rw [hz] at ha
  cases z with
  | none =>
    cases ha
    exact absurd rfl hm
  | some z =>
    simp only at ha
    split_ifs at ha
    · cases ha
      exact absurd rfl hm
    · cases ha
      exact absurd rfl hm
    · cases ha
      exact Function.update_self ..

/-- Filling in the kmsg that was just allocated. -/
theorem ipcKmsgCopyin_alloc {s s1 : Ipc} {m msg size : Word} (hm : m ≠ ipcKmsgNull)
    (h0 : msg ≠ 0) (hsize : ¬ size < sizeofMachMsgHeader) (hu : s1.user = s.user)
    (hk : s1.kmsgs m =
      ⟨ipcKmsgNull, ipcPortNull, size, sizeofMachMsgHeader, fun _ => 0, fun _ => 0⟩) (port : Word) :
    ∃ s2, ipcKmsgCopyin s1 m msg size = (.success, s2) ∧
      s2.setKmsg m { s2.kmsgs m with port := port } =
        s1.setKmsg m (filledKmsg s msg size port) := by
  refine ⟨_, by rw [ipcKmsgCopyin, if_neg (not_or.mpr ⟨hm, h0⟩), if_neg hsize], ?_⟩
  simp only [Ipc.setKmsg, Function.update_self, Function.update_idem, hk, hu]
  by_cases hd : 0 < size-sizeofMachMsgHeader
  · simp only [filledKmsg, hd, ↓reduceIte]
  · simp only [filledKmsg, hd, ↓reduceIte]

/-- A port with one message more, and no waiter. -/
def IpcPort.pushed (v : IpcPort) (kmsg : Word) : IpcPort :=
  { v with
    messages := Function.update v.messages v.msgLast.toNat kmsg
    msgLast := (v.msgLast+1)%BitVec.ofNat 32 ipcPortQueueMax
    msgCount := v.msgCount+1
    waitingThread := 0 }

/-- A port with its first message taken out. -/
def IpcPort.popped (v : IpcPort) : IpcPort :=
  { v with
    messages := Function.update v.messages v.msgFirst.toNat ipcKmsgNull
    msgFirst := (v.msgFirst+1)%BitVec.ofNat 32 ipcPortQueueMax
    msgCount := v.msgCount-1 }

theorem contents_eq {v : IpcPort} {xs : List Word} (hv : Holds ipcPortQueueMax v.messages
    v.msgFirst.toNat v.msgLast.toNat v.msgCount.toNat xs) : v.queue = xs := by
  refine List.ext_getElem ?_ fun i hi hi' => ?_
  · rw [IpcPort.queue, List.length_map, List.length_range, hv.count_eq]
  · rw [← hv.slot i hi']
    simp [IpcPort.queue]

theorem IpcPort.Ok.of_holds {v : IpcPort} {xs : List Word} (hv : Holds ipcPortQueueMax v.messages
    v.msgFirst.toNat v.msgLast.toNat v.msgCount.toNat xs) : v.Ok := by
  rw [IpcPort.Ok, contents_eq hv]
  exact hv

section Port
variable {v : IpcPort} (hv : v.Ok)
include hv

theorem IpcPort.Ok.length : v.queue.length = v.msgCount.toNat := hv.count_eq.symm

theorem IpcPort.Ok.push (hlt : v.msgCount.toNat < ipcPortQueueMax) (kmsg : Word) :
    (v.pushed kmsg).Ok ∧ (v.pushed kmsg).queue = v.queue ++ [kmsg] := by
  have hmax : ipcPortQueueMax = 32 := rfl
  have hone : (1 : BitVec 32).toNat = 1 := rfl
  have hlast := hv.last_lt
  have hpush := Holds.push hv (by rw [hv.length]; exact hlt) kmsg
  have hl : (v.pushed kmsg).msgLast.toNat = (v.msgLast.toNat+1)%ipcPortQueueMax := by
    have h1 : ((v.msgLast+1 : BitVec 32)).toNat = v.msgLast.toNat+1 := by
      rw [BitVec.toNat_add]
      omega
    rw [IpcPort.pushed, BitVec.toNat_umod, h1]
    rfl
  have hc : (v.pushed kmsg).msgCount.toNat = v.msgCount.toNat+1 := by
    rw [IpcPort.pushed, BitVec.toNat_add]
    omega
  rw [← hl, ← hc] at hpush
  exact ⟨.of_holds hpush, contents_eq hpush⟩

theorem IpcPort.Ok.pop {m : Word} {rest : List Word} (hq : v.queue = m :: rest) :
    v.messages v.msgFirst.toNat = m ∧ v.popped.Ok ∧ v.popped.queue = rest := by
  have hmax : ipcPortQueueMax = 32 := rfl
  have hone : (1 : BitVec 32).toNat = 1 := rfl
  have hlen := hv.length
  rw [IpcPort.Ok, hq] at hv
  have hpop := hv.pop ipcKmsgNull
  have hfirst := hv.first_lt
  have hf : v.popped.msgFirst.toNat = (v.msgFirst.toNat+1)%ipcPortQueueMax := by
    have h1 : ((v.msgFirst+1 : BitVec 32)).toNat = v.msgFirst.toNat+1 := by
      rw [BitVec.toNat_add]
      omega
    rw [IpcPort.popped, BitVec.toNat_umod, h1]
    rfl
  have hc : v.popped.msgCount.toNat = v.msgCount.toNat-1 := by
    rw [hq, List.length_cons] at hlen
    rw [IpcPort.popped, BitVec.toNat_sub]
    omega
  rw [← hf, ← hc] at hpop
  exact ⟨hv.front, .of_holds hpop, contents_eq hpop⟩

theorem IpcPort.Ok.queue_eq_nil_iff : v.queue = [] ↔ v.msgCount = 0 := by
  rw [← List.length_eq_zero_iff, hv.length]
  constructor
  · exact fun hz => BitVec.eq_of_toNat_eq hz
  · rintro hz
    rw [hz]
    rfl

end Port

theorem ipcSpaceLookup_success {s : Ipc} {space name : Word} {kr : KernReturn} {port : Option Word}
    (he : ipcSpaceLookup s space name = (kr, port)) :
    (kr = .invalidArgument ∧ port = none) ∨ ∃ p, kr = .success ∧ port = some p ∧ p ≠ ipcPortNull := by
  unfold ipcSpaceLookup at he
  simp only at he
  split_ifs at he with h1 h2 h3
  · cases he
    exact Or.inl ⟨rfl, rfl⟩
  · cases he
    exact Or.inl ⟨rfl, rfl⟩
  · cases he
    exact Or.inl ⟨rfl, rfl⟩
  · cases he
    exact Or.inr ⟨_, rfl, rfl, h3⟩

/-- The state after a message has been put into a port's queue and its waiter woken. -/
def Ipc.enqueued (s : Ipc) (port kmsg : Word) : Ipc :=
  { s.setPort port ((s.ports port).pushed kmsg) with
    kern := { s.kern with sched := schedUnblock s.kern.sched (s.ports port).waitingThread } }

theorem ipcPortEnqueue_cases {s : Ipc} {port kmsg : Word} (hp : port ≠ ipcPortNull)
    (hm : kmsg ≠ ipcKmsgNull) :
    ipcPortEnqueue s port kmsg =
      if ipcPortQueueMax ≤ (s.ports port).msgCount.toNat then (.noSpace, s)
      else (.success, s.enqueued port kmsg) := by
  rw [ipcPortEnqueue, if_neg (not_or.mpr ⟨hp, hm⟩)]
  simp only
  split_ifs with hfull hw
  · rfl
  · rfl
  · have hw : (s.ports port).waitingThread = 0 := by simpa using hw
    have hs : schedUnblock s.kern.sched 0 = s.kern.sched := if_pos rfl
    simp only [Ipc.enqueued, IpcPort.pushed, hw, hs, Ipc.setPort]

/-- `mach_msg_send` fails at once; or it resolves the name and then fails for lack of a
kmsg, fails and frees the kmsg when the queue is full, or queues the kmsg. -/
theorem machMsgSend_cases {h : Hhdm} {s s' : Ipc} {msg size : Word} {kr : KernReturn}
    (he : machMsgSend h s msg size = (kr, s')) :
    (kr ≠ .success ∧ s' = s) ∨
    ∃ port m s1, currentTask s ≠ taskNull ∧
      ipcSpaceLookup s (s.itkSpace (currentTask s)) (load64 s.user (msg+msghRemotePort)) =
        (.success, some port) ∧ port ≠ ipcPortNull ∧ ¬ size < sizeofMachMsgHeader ∧
      ipcKmsgAlloc h s size = (m, s1) ∧
      ((m = ipcKmsgNull ∧ kr = .noSpace ∧ s' = s1) ∨
      m ≠ ipcKmsgNull ∧ ∃ s2, s2 = s1.setKmsg m (filledKmsg s msg size port) ∧
        ((ipcPortQueueMax ≤ (s.ports port).msgCount.toNat ∧ kr = .noSpace ∧
            s' = ipcKmsgFree s2 m) ∨
        ((s.ports port).msgCount.toNat < ipcPortQueueMax ∧ kr = .success ∧
          s' = s2.enqueued port m))) := by
  by_cases h1 : msg = 0 ∨ size < sizeofMachMsgHeader
  · rw [machMsgSend, if_pos h1] at he
    cases he
    exact Or.inl ⟨by decide, rfl⟩
  obtain ⟨h0, hsize⟩ := not_or.mp h1
  by_cases h2 : load64 s.user (msg+msghRemotePort) = machPortNull
  · rw [machMsgSend, if_neg h1] at he
    simp only [h2, ↓reduceIte] at he
    cases he
    exact Or.inl ⟨by decide, rfl⟩
  by_cases h3 : currentTask s = taskNull ∨ s.itkSpace (currentTask s) = ipcSpaceNull
  · rw [machMsgSend, if_neg h1] at he
    simp only [h2, h3, ↓reduceIte] at he
    cases he
    exact Or.inl ⟨by decide, rfl⟩
  obtain ⟨r, port, hl⟩ : ∃ r port, ipcSpaceLookup s (s.itkSpace (currentTask s))
    (load64 s.user (msg+msghRemotePort)) = (r, port) := ⟨_, _, rfl⟩
  obtain ⟨m, s1, ha⟩ : ∃ m s1, ipcKmsgAlloc h s size = (m, s1) := ⟨_, _, rfl⟩
  rw [machMsgSend, if_neg h1] at he
  simp only [h2, h3, hl, ha, ↓reduceIte] at he
  rcases ipcSpaceLookup_success hl with ⟨rfl, rfl⟩ | ⟨p, rfl, rfl, hp⟩
  · cases he
    exact Or.inl ⟨by decide, rfl⟩
  refine Or.inr ⟨p, m, s1, (not_or.mp h3).1, hl, hp, hsize, ha, ?_⟩
  by_cases hm : m = ipcKmsgNull
  · simp only [hm, ne_eq, not_true_eq_false, ↓reduceIte] at he
    cases he
    exact Or.inl ⟨hm, rfl, rfl⟩
  · right
    refine ⟨hm, _, rfl, ?_⟩
    have honly := ipcKmsgAlloc_kmsgOnly ha
    obtain ⟨s2, hc, hfill⟩ :=
      ipcKmsgCopyin_alloc hm h0 hsize honly.user (ipcKmsgAlloc_content ha hm) p
    have hports : (s1.setKmsg m (filledKmsg s msg size p)).ports = s.ports := honly.ports
    simp only [hc, hm, ne_eq, not_true_eq_false, ↓reduceIte, Option.getD_some, hfill,
      ipcPortEnqueue_cases hp hm, hports] at he
    by_cases hfull : ipcPortQueueMax ≤ (s.ports p).msgCount.toNat
    · rw [if_pos hfull] at he
      cases he
      exact Or.inl ⟨hfull, rfl, rfl⟩
    · rw [if_neg hfull] at he
      cases he
      exact Or.inr ⟨by omega, rfl, rfl⟩

/-- The state after the first message of a port has been taken out. -/
def Ipc.dequeued (s : Ipc) (port : Word) : Ipc := s.setPort port (s.ports port).popped

/-- A message buffer after `ipc_kmsg_copyout`. -/
def delivered (user : Mem) (msg : Word) (k : IpcKmsg) : Mem :=
  if 0 < k.size-sizeofMachMsgHeader then
    copy (copy user msg k.header 0 sizeofMachMsgHeader) (msg+sizeofMachMsgHeader) k.data 0
      (k.size-sizeofMachMsgHeader)
  else copy user msg k.header 0 sizeofMachMsgHeader

theorem ipcPortDequeue_cons {s : Ipc} {port m : Word} {rest : List Word} (hp : port ≠ ipcPortNull)
    (hv : (s.ports port).Ok) (hq : (s.ports port).queue = m :: rest) :
    ipcPortDequeue s port = (m, s.dequeued port) := by
  have hne : ¬ (s.ports port).msgCount = 0 := by
    rw [← hv.queue_eq_nil_iff, hq]
    exact List.cons_ne_nil _ _
  rw [ipcPortDequeue, if_neg (not_or.mpr ⟨hp, hne⟩)]
  simp only [(hv.pop hq).1]
  rfl

/-- With a message queued, a receive takes the first out, and copies it where it fits. -/
theorem machMsgReceiveMessage_cons {s : Ipc} {port msg m n : Word} {rest : List Word}
    (hp : port ≠ ipcPortNull) (hmsg : msg ≠ 0) (hv : (s.ports port).Ok)
    (hq : (s.ports port).queue = m :: rest) (hm : m ≠ ipcKmsgNull) :
    machMsgReceiveMessage s port msg (some n) =
      if n < (s.kmsgs m).size then (.noSpace, some n, ipcKmsgFree (s.dequeued port) m)
      else (.success, some (s.kmsgs m).size,
        ipcKmsgFree { s.dequeued port with user := delivered s.user msg (s.kmsgs m) } m) := by
  rw [machMsgReceiveMessage, ipcPortDequeue_cons hp hv hq]
  simp only [hm, ↓reduceIte, ipcKmsgCopyout, hmsg, or_self]
  have hk : (s.dequeued port).kmsgs = s.kmsgs := rfl
  have hu : (s.dequeued port).user = s.user := rfl
  rw [hk, hu]
  by_cases h1 : n < (s.kmsgs m).size
  · rw [if_pos h1, if_pos h1]
  · rw [if_neg h1, if_neg h1]
    rfl

/-- The state of a thread that waits on a port, after the dispatcher has run. -/
def Ipc.waitOn (s : Ipc) (port : Word) : Ipc :=
  { s.setPort port { s.ports port with waitingThread := s.kern.sched.cpuCurrentThread } with
    kern := { s.kern with
      sched := (schedRun (schedBlock s.kern.sched s.kern.sched.cpuCurrentThread)).2 } }

/-- `mach_msg_receive` fails at once; or it resolves the name and takes a message, or waits
for one, blocked where the dispatcher switches. -/
theorem machMsgReceive_cases {s s' : Ipc} {msg : Word} {size : Option Word} {r : MsgResult}
    (he : machMsgReceive s msg size = (r, s')) :
    (∃ kr, r = .done kr size ∧ kr = .invalidArgument ∧ s' = s) ∨
    ∃ port n, size = some n ∧ msg ≠ 0 ∧ currentTask s ≠ taskNull ∧
      ipcSpaceLookup s (s.itkSpace (currentTask s)) (load64 s.user (msg+msghLocalPort)) =
        (.success, some port) ∧ port ≠ ipcPortNull ∧
      (((s.ports port).msgCount ≠ 0 ∧ ∃ kr size', r = .done kr size' ∧
        machMsgReceiveMessage s port msg size = (kr, size', s')) ∨
      (s.ports port).msgCount = 0 ∧
        (((schedRun (schedBlock s.kern.sched s.kern.sched.cpuCurrentThread)).1 ≠ none ∧
          r = .blocked port ∧ s' = s.waitOn port) ∨
        ((schedRun (schedBlock s.kern.sched s.kern.sched.cpuCurrentThread)).1 = none ∧
          ∃ kr size', r = .done kr size' ∧
            machMsgReceiveResume (s.waitOn port) port msg size = (kr, size', s')))) := by
  by_cases h1 : msg = 0 ∨ size = none
  · rw [machMsgReceive, if_pos h1] at he
    cases he
    exact Or.inl ⟨_, rfl, rfl, rfl⟩
  obtain ⟨h0, hsize⟩ := not_or.mp h1
  by_cases h2 : load64 s.user (msg+msghLocalPort) = machPortNull
  · rw [machMsgReceive, if_neg h1] at he
    simp only [h2, ↓reduceIte] at he
    cases he
    exact Or.inl ⟨_, rfl, rfl, rfl⟩
  by_cases h3 : currentTask s = taskNull ∨ s.itkSpace (currentTask s) = ipcSpaceNull
  · rw [machMsgReceive, if_neg h1] at he
    simp only [h2, h3, ↓reduceIte] at he
    cases he
    exact Or.inl ⟨_, rfl, rfl, rfl⟩
  obtain ⟨kr, port, hl⟩ : ∃ kr port, ipcSpaceLookup s (s.itkSpace (currentTask s))
    (load64 s.user (msg+msghLocalPort)) = (kr, port) := ⟨_, _, rfl⟩
  obtain ⟨switch, sched, hsw⟩ : ∃ switch sched,
    schedRun (schedBlock s.kern.sched s.kern.sched.cpuCurrentThread) = (switch, sched) :=
    ⟨_, _, rfl⟩
  rw [machMsgReceive, if_neg h1] at he
  simp only [h2, h3, hl, ↓reduceIte] at he
  rcases ipcSpaceLookup_success hl with ⟨rfl, rfl⟩ | ⟨p, rfl, rfl, hp⟩
  · cases he
    exact Or.inl ⟨_, rfl, rfl, rfl⟩
  obtain ⟨n, rfl⟩ := Option.ne_none_iff_exists'.mp hsize
  refine Or.inr ⟨p, n, rfl, h0, (not_or.mp h3).1, hl, hp, ?_⟩
  simp only [ne_eq, not_true_eq_false, ↓reduceIte, Option.getD_some] at he
  by_cases hc : (s.ports p).msgCount = 0
  · right
    rw [if_pos hc] at he
    refine ⟨hc, ?_⟩
    have hw : s.waitOn p =
        { s.setPort p { s.ports p with waitingThread := s.kern.sched.cpuCurrentThread } with
          kern := { s.kern with sched := sched } } := by
      rw [Ipc.waitOn, hsw]
    simp only [Ipc.setPort_kern, hsw] at he
    rw [hsw, hw]
    cases switch with
    | some sw =>
      cases he
      exact Or.inl ⟨Option.some_ne_none _, rfl, rfl⟩
    | none =>
      cases he
      exact Or.inr ⟨rfl, _, _, rfl, rfl⟩
  · left
    rw [if_neg hc] at he
    cases he
    exact ⟨hc, _, _, rfl, rfl⟩

section Release
variable {s : Ipc} {port : Word}

/-- One round of the loop of `ipc_port_release` frees the first message; what every round
keeps holds at the end, when the queue is empty. -/
theorem ipcPortDrain_rule {I : List Word → Ipc → Prop} (hp : port ≠ ipcPortNull)
    (hstep : ∀ m rest s, m ≠ ipcKmsgNull → (s.ports port).Ok →
      (s.ports port).queue = m :: rest → I (m :: rest) s → I rest (ipcKmsgFree (s.dequeued port) m))
    (ms : List Word) (s : Ipc) (hv : (s.ports port).Ok) (hq : (s.ports port).queue = ms)
    (hm : ∀ m ∈ ms, m ≠ ipcKmsgNull) (hI : I ms s) :
    I [] (ipcPortDrain port ms.length s) ∧ ((ipcPortDrain port ms.length s).ports port).Ok ∧
      ((ipcPortDrain port ms.length s).ports port).queue = [] := by
  induction ms generalizing s with
  | nil => exact ⟨hI, hv, hq⟩
  | cons m rest ih =>
    have hm0 := hm m (by simp)
    have hpos : 0 < (s.ports port).msgCount := by
      have hlen := hv.length
      rw [hq, List.length_cons] at hlen
      rw [BitVec.lt_def]
      exact Nat.lt_of_lt_of_eq (Nat.zero_lt_succ _) hlen
    have hports : (ipcKmsgFree (s.dequeued port) m).ports port = (s.ports port).popped := by
      rw [(ipcKmsgFree_only _ m).ports]
      exact Function.update_self ..
    obtain ⟨_, hok, hrest⟩ := hv.pop hq
    have hround : ipcPortDrain port (m :: rest).length s =
        ipcPortDrain port rest.length (ipcKmsgFree (s.dequeued port) m) := by
      rw [List.length_cons, ipcPortDrain, if_pos hpos, ipcPortDequeue_cons hp hv hq]
      simp only [ne_eq, hm0, not_false_eq_true, ↓reduceIte]
    rw [hround]
    exact ih _ (hports ▸ hok) (hports ▸ hrest) (fun x hx => hm x (by simp [hx]))
      (hstep m rest s hm0 hv hq hI)

/-- What the release of a port leaves alone. -/
structure ReleaseFrame (port : Word) (s s' : Ipc) : Prop where
  sched : s'.kern.sched = s.kern.sched
  spaces : s'.spaces = s.spaces
  itkSpace : s'.itkSpace = s.itkSpace
  user : s'.user = s.user
  others : ∀ q, q ≠ port → s'.ports q = s.ports q
  waiter : (s'.ports port).waitingThread = (s.ports port).waitingThread

theorem ReleaseFrame.trans {s s' s'' : Ipc} (h : ReleaseFrame port s s')
    (h' : ReleaseFrame port s' s'') : ReleaseFrame port s s'' :=
  ⟨h'.sched.trans h.sched, h'.spaces.trans h.spaces, h'.itkSpace.trans h.itkSpace,
    h'.user.trans h.user, fun q hq => (h'.others q hq).trans (h.others q hq),
    h'.waiter.trans h.waiter⟩

theorem ReleaseFrame.setPort (s : Ipc) {v : IpcPort}
    (hv : v.waitingThread = (s.ports port).waitingThread) :
    ReleaseFrame port s (s.setPort port v) := by
  refine ⟨rfl, rfl, rfl, rfl, fun q hq => Function.update_of_ne hq _ _, ?_⟩
  have hself : (s.setPort port v).ports port = v := Function.update_self ..
  rw [hself, hv]

theorem KmsgOnly.releaseFrame {s s' : Ipc} (h : KmsgOnly s s') : ReleaseFrame port s s' :=
  ⟨h.sched, h.spaces, h.itkSpace, h.user, fun q _ => by rw [h.ports], by rw [h.ports]⟩

theorem getKmsgZone_portZone (s : Ipc) : (getKmsgZone s).2.portZone = s.portZone := by
  unfold getKmsgZone Ipc.getZone
  cases s.kmsgZone <;> rfl

theorem ipcKmsgFree_portZone (s : Ipc) (m : Word) : (ipcKmsgFree s m).portZone = s.portZone := by
  have h1 := getKmsgZone_portZone s
  obtain ⟨z, s1, hz⟩ : ∃ z s1, getKmsgZone s = (z, s1) := ⟨_, _, rfl⟩
  rw [hz] at h1
  unfold ipcKmsgFree
  split_ifs
  · rfl
  · rw [hz]
    cases z <;> exact h1

theorem ipcPortRelease_keep (hp : port ≠ ipcPortNull) (href : (s.ports port).refCount ≠ 1) :
    ipcPortRelease s port =
      s.setPort port { s.ports port with refCount := (s.ports port).refCount-1 } := by
  have hpos : 0 < (s.ports port).refCount-1 := by
    bv_omega
  rw [ipcPortRelease, if_neg hp]
  simp only [Ipc.setPort, Function.update_self, hpos, ↓reduceIte]

/-- The state before the last reference of a port is gone. -/
def Ipc.unreferenced (s : Ipc) (port : Word) : Ipc :=
  s.setPort port { s.ports port with refCount := 0 }

theorem Ipc.unreferenced_port (s : Ipc) (port : Word) :
    (s.unreferenced port).ports port = { s.ports port with refCount := 0 } :=
  Function.update_self ..

/-- The last reference: the queue is emptied, and the port returned to its zone. -/
theorem ipcPortRelease_last {z : ℕ} (hp : port ≠ ipcPortNull) (hz : s.portZone = some z)
    (hv : (s.ports port).Ok) (hm : ∀ m ∈ (s.ports port).queue, m ≠ ipcKmsgNull)
    (href : (s.ports port).refCount = 1) :
    ∃ s2, s2 = ipcPortDrain port (s.ports port).queue.length (s.unreferenced port) ∧
      ipcPortRelease s port = { s2.zfree z port with portLog := .free port :: s2.portLog } ∧
      ReleaseFrame port s s2 ∧ s2.portLog = s.portLog ∧ s2.portZone = some z ∧
      (s2.ports port).Ok ∧ (s2.ports port).queue = [] := by
  obtain ⟨s1, hs1⟩ : ∃ s1, s1 = s.unreferenced port := ⟨_, rfl⟩
  have hport1 : s1.ports port = { s.ports port with refCount := 0 } := by
    rw [hs1, s.unreferenced_port]
  have hf1 : ReleaseFrame port s s1 := by
    rw [hs1]
    exact ReleaseFrame.setPort s rfl
  have hlog1 : s1.portLog = s.portLog ∧ s1.portZone = some z := by
    rw [hs1]
    exact ⟨rfl, hz⟩
  have hok1 : (s1.ports port).Ok := by
    rw [hport1]
    exact hv
  have hq1 : (s1.ports port).queue = (s.ports port).queue := by
    rw [hport1]
    rfl
  obtain ⟨⟨hf, hlog, hzone⟩, hok, hq⟩ := ipcPortDrain_rule
    (I := fun _ s' => ReleaseFrame port s s' ∧ s'.portLog = s.portLog ∧ s'.portZone = some z) hp
    (fun m rest s' _ hv' hq' hI => by
      have hpop : ReleaseFrame port s' (s'.dequeued port) := ReleaseFrame.setPort s' rfl
      have honly := ipcKmsgFree_only (s'.dequeued port) m
      refine ⟨hI.1.trans (hpop.trans honly.releaseFrame), honly.portLog.trans hI.2.1, ?_⟩
      rw [ipcKmsgFree_portZone]
      exact hI.2.2)
    _ s1 hok1 hq1 hm ⟨hf1, hlog1⟩
  refine ⟨_, by rw [← hs1], ?_, hf, hlog, hzone, hok, hq⟩
  have hlen : (s1.ports port).msgCount.toNat = (s.ports port).queue.length := by
    rw [← hok1.length, hq1]
  have hs1' : s.setPort port { s.ports port with refCount := (s.ports port).refCount-1 } = s1 := by
    rw [hs1, Ipc.unreferenced, href]
    rfl
  have hnp : ¬ 0 < (s1.ports port).refCount := by
    rw [hport1]
    exact BitVec.lt_irrefl 0#32
  rw [ipcPortRelease, if_neg hp]
  simp only [hs1', hnp, ↓reduceIte, hlen]
  have hget : getIpcPortZone (ipcPortDrain port (s.ports port).queue.length s1) =
      (some z, ipcPortDrain port (s.ports port).queue.length s1) := by
    rw [getIpcPortZone, hzone]
    simp only [Ipc.getZone, ← hzone]
  rw [hget]

/-- The state after a name has been taken out of a space. -/
def Ipc.cleared (s : Ipc) (space name : Word) : Ipc :=
  s.setSpace space { s.spaces space with
    entries := Function.update (s.spaces space).entries (name-1).toNat
      { (s.spaces space).entries (name-1).toNat with port := ipcPortNull, rights := 0 } }

theorem ipcSpaceRemove_cases (s : Ipc) (space name : Word) :
    ((ipcSpaceLookup s space name).2 = none ∧ (ipcSpaceRemove s space name).2 = s) ∨
    ∃ port, ipcSpaceLookup s space name = (.success, some port) ∧ port ≠ ipcPortNull ∧
      (ipcSpaceRemove s space name).2 = (ipcPortRelease s port).cleared space name := by
  unfold ipcSpaceRemove ipcSpaceLookup
  by_cases h1 : space = ipcSpaceNull
  · simp [h1]
  by_cases h2 : name = machPortNull ∨ (s.spaces space).portCount.setWidth 64 < name
  · simp [h1, h2]
  by_cases h3 : ((s.spaces space).entries (name-1).toNat).port = ipcPortNull
  · left
    rw [if_neg h1, if_neg h2, if_neg h1, if_neg h2]
    simp only [h3, ne_eq, not_true_eq_false, ↓reduceIte, and_self]
  · right
    refine ⟨_, ?_, h3, ?_⟩
    · rw [if_neg h1, if_neg h2]
      simp only [h3, ↓reduceIte]
    · rw [if_neg h1, if_neg h2]
      simp only [ne_eq, h3, not_false_eq_true, ↓reduceIte]
      rfl

/-- A cleared name resolves to nothing, and every other name as before. -/
theorem ipcSpaceLookup_cleared {space name space' name' q : Word}
    (hl : ipcSpaceLookup (s.cleared space name) space' name' = (.success, some q)) :
    ipcSpaceLookup s space' name' = (.success, some q) ∧
      (space' = space → (name'-1).toNat ≠ (name-1).toNat) := by
  by_cases hs : space' = space
  · subst hs
    have hsp : (s.cleared space' name).spaces space' = { s.spaces space' with
        entries := Function.update (s.spaces space').entries (name-1).toNat
          { (s.spaces space').entries (name-1).toNat with port := ipcPortNull, rights := 0 } } :=
      Function.update_self ..
    unfold ipcSpaceLookup at hl ⊢
    rw [hsp] at hl
    simp only at hl ⊢
    by_cases hi : (name'-1).toNat = (name-1).toNat
    · rw [hi, Function.update_self] at hl
      simp at hl
    · rw [Function.update_of_ne hi] at hl
      exact ⟨hl, fun _ => hi⟩
  · have hsp : (s.cleared space name).spaces space' = s.spaces space' :=
      Function.update_of_ne hs _ _
    refine ⟨?_, fun h => absurd h hs⟩
    unfold ipcSpaceLookup at hl ⊢
    rwa [hsp] at hl

end Release

end Dana
