import Dana.IpcSpec

/-! What every run of the IPC code keeps, and what one step of it can do. -/
namespace Dana
open ByteMem Sched

/-- The state of the threads and ports in every run: a port's waiter is blocked on it. -/
structure IpcInv (created : List Word) (w : IpcWorld) : Prop where
  sched : ∃ qs, SchedInv w.sched created qs
  current : w.current ∈ created ∧ w.sched.state w.current = .running
  idle : w.sched.cpuIdleThread ≠ threadNull ∧ w.sched.task w.sched.cpuIdleThread = taskNull
  waits : ∀ t wt, w.waits t = some wt →
    t ∈ created ∧ t ≠ threadNull ∧ wt.port ≠ ipcPortNull ∧ wt.msg ≠ 0 ∧ wt.size ≠ none
  slot : ∀ p, (w.port p).waitingThread ≠ 0 → w.BlockedOn (w.port p).waitingThread p
  ok : ∀ p, (w.port p).Ok
  nonnull : ∀ p, ∀ m ∈ (w.port p).queue, m ≠ ipcKmsgNull
  zone : w.ipc.portZone ≠ none
  live : ∀ p ∈ w.livePorts, p ≠ ipcPortNull

/-- A receive with the first message `m` of a port: result, `*size`, and new state. -/
def Ipc.taken (s : Ipc) (port msg n m : Word) : KernReturn × Option Word × Ipc :=
  if n < (s.kmsgs m).size then (.noSpace, some n, ipcKmsgFree (s.dequeued port) m)
  else (.success, some (s.kmsgs m).size,
    ipcKmsgFree { s.dequeued port with user := delivered s.user msg (s.kmsgs m) } m)

/-- A call that fails before it changes anything. -/
def IpcOp.Refused (w : IpcWorld) : IpcOp → Prop
  | .send _ _ kr => kr ≠ .success
  | .receive _ _ r => ∃ size, r = .done .invalidArgument size
  | .remove space name => (ipcSpaceLookup w.ipc space name).2 = none
  | _ => False

/-- What one step can do. -/
inductive IpcMove (h : Hhdm) (w : IpcWorld) : IpcOp → IpcWorld → Prop
  | yield : IpcMove h w .yield { w with ipc := { w.ipc with
      kern := { w.ipc.kern with sched := (schedRun w.sched).2 } } }
  | refused {op : IpcOp} (hop : op.Refused w) : IpcMove h w op w
  | noKmsg {msg size : Word} {s : Ipc} (ha : ipcKmsgAlloc h w.ipc size = (ipcKmsgNull, s)) :
    IpcMove h w (.send msg size .noSpace) { w with ipc := s }
  | full {msg size port m : Word} {s : Ipc} (ha : ipcKmsgAlloc h w.ipc size = (m, s))
    (hm : m ≠ ipcKmsgNull) : IpcMove h w (.send msg size .noSpace)
      { w with ipc := ipcKmsgFree (s.setKmsg m (filledKmsg w.ipc msg size port)) m }
  | sent {msg size port m : Word} {s : Ipc}
    (hl : w.lookup (load64 w.ipc.user (msg+msghRemotePort)) = some port) (hp : port ≠ ipcPortNull)
    (hsize : ¬ size < sizeofMachMsgHeader) (ha : ipcKmsgAlloc h w.ipc size = (m, s))
    (hm : m ≠ ipcKmsgNull) (hlt : (w.port port).msgCount.toNat < ipcPortQueueMax) :
    IpcMove h w (.send msg size .success)
      { w with ipc := (s.setKmsg m (filledKmsg w.ipc msg size port)).enqueued port m }
  | took {msg port n m : Word} {rest : List Word} {kr : KernReturn} {size' : Option Word} {s : Ipc}
    (hl : w.lookup (load64 w.ipc.user (msg+msghLocalPort)) = some port) (hp : port ≠ ipcPortNull)
    (hmsg : msg ≠ 0) (hq : (w.port port).queue = m :: rest)
    (he : w.ipc.taken port msg n m = (kr, size', s)) :
    IpcMove h w (.receive msg (some n) (.done kr size')) { w with ipc := s }
  | blocked {msg port n : Word}
    (hl : w.lookup (load64 w.ipc.user (msg+msghLocalPort)) = some port) (hp : port ≠ ipcPortNull)
    (hw : w.waits w.current = none) (hmsg : msg ≠ 0) (hc : (w.port port).msgCount = 0)
    (htask : currentTask w.ipc ≠ taskNull) :
    IpcMove h w (.receive msg (some n) (.blocked port))
      ⟨w.ipc.waitOn port, Function.update w.waits w.current (some ⟨port, msg, some n⟩)⟩
  | empty {wt : Wait} (hw : w.waits w.current = some wt) (hc : (w.port wt.port).msgCount = 0) :
    IpcMove h w (.resume .failure wt.size) ⟨w.ipc, Function.update w.waits w.current none⟩
  | resumed {wt : Wait} {n m : Word} {rest : List Word} {kr : KernReturn} {size' : Option Word}
    {s : Ipc} (hw : w.waits w.current = some wt) (hn : wt.size = some n)
    (hq : (w.port wt.port).queue = m :: rest)
    (he : w.ipc.taken wt.port wt.msg n m = (kr, size', s)) :
    IpcMove h w (.resume kr size') ⟨s, Function.update w.waits w.current none⟩
  | removed {space name port : Word}
    (hl : ipcSpaceLookup w.ipc space name = (.success, some port)) (hp : port ≠ ipcPortNull) :
    IpcMove h w (.remove space name)
      { w with ipc := (ipcPortRelease w.ipc port).cleared space name }
  | released {port : Word} (hp : port ∈ w.livePorts) :
    IpcMove h w (.release port) { w with ipc := ipcPortRelease w.ipc port }
  | user (m : Mem) : IpcMove h w .user { w with ipc := { w.ipc with user := m } }

section Step
variable {h : Hhdm} {created : List Word} {w w' : IpcWorld} {op : IpcOp}

theorem IpcWorld.lookup_eq {name port : Word} (ht : currentTask w.ipc ≠ taskNull)
    (hl : ipcSpaceLookup w.ipc (w.ipc.itkSpace (currentTask w.ipc)) name =
      (.success, some port)) : w.lookup name = some port := by
  rw [IpcWorld.lookup, if_neg ht, hl]

/-- The idle thread has no task, so whoever waits on a port is not it. -/
theorem IpcInv.current_ne_idle (hI : IpcInv created w) (ht : currentTask w.ipc ≠ taskNull) :
    w.current ≠ w.sched.cpuIdleThread := by
  intro he
  apply ht
  have := hI.idle.2
  rwa [← he] at this

theorem IpcInv.current_ne_null (hI : IpcInv created w) : w.current ≠ threadNull := by
  obtain ⟨qs, hs⟩ := hI.sched
  exact hs.queue.ne_null ((hs.mem_iff _).mpr ⟨hI.current.1, Or.inr hI.current.2⟩)

/-- The current thread leaves the queue, and the dispatcher finds another to run. -/
theorem IpcInv.block_current (hI : IpcInv created w) (hidle : w.current ≠ w.sched.cpuIdleThread) :
    ∃ qs, SchedInv (schedBlock w.sched w.current) created qs ∧ w.current ∉ qs ∧ qs ≠ [] := by
  obtain ⟨qs, hs⟩ := hI.sched
  have hq : w.current ∈ qs := (hs.mem_iff _).mpr ⟨hI.current.1, Or.inr hI.current.2⟩
  obtain ⟨hst, _, hid⟩ := schedBlock_spec w.sched (hs.queue.ne_null hq)
  obtain ⟨qs', hs'⟩ := hs.block hq hidle
  refine ⟨qs', hs', fun hc => ?_, ?_⟩
  · have := ((hs'.mem_iff _).mp hc).2
    rw [hst, Function.update_self] at this
    simp [ThreadState.CanRun] at this
  · rcases hs'.idle with hn | hm
    · exact absurd (hid ▸ hn) hI.idle.1
    · exact List.ne_nil_of_mem hm

theorem IpcInv.move (hI : IpcInv created w) (hs : IpcStep h w op w') : IpcMove h w op w' := by
  cases hs with
  | yield hw =>
    have := @IpcMove.yield h w
    rwa [← threadYield_eq] at this
  | send hw he =>
    rcases machMsgSend_cases he with
      ⟨hkr, rfl⟩ | ⟨port, m, s1, ht, hl, hp, hsize, ha, ⟨rfl, rfl, rfl⟩ | ⟨hm, s2, rfl,
        ⟨_, rfl, rfl⟩ | ⟨hlt, rfl, rfl⟩⟩⟩
    · exact .refused hkr
    · exact .noKmsg ha
    · exact .full ha hm
    · exact .sent (w.lookup_eq ht hl) hp hsize ha hm hlt
  | receive hw he =>
    rcases machMsgReceive_cases he with
      ⟨kr, hr, rfl, rfl⟩ | ⟨port, n, rfl, hmsg, ht, hl, hp, ⟨hc, kr, size', hr, hm⟩ | ⟨hc, hsw⟩⟩
    · cases hr
      exact .refused ⟨_, rfl⟩
    · cases hr
      have hok : (w.ipc.ports port).Ok := hI.ok port
      have hne : (w.ipc.ports port).queue ≠ [] := fun hq => hc (hok.queue_eq_nil_iff.mp hq)
      obtain ⟨m, rest, hq⟩ := List.exists_cons_of_ne_nil hne
      have hm0 : m ≠ ipcKmsgNull := hI.nonnull port m (by rw [IpcWorld.port, hq]; simp)
      rw [machMsgReceiveMessage_cons hp hmsg hok hq hm0] at hm
      exact .took (w.lookup_eq ht hl) hp hmsg hq hm
    · -- the queue holds another thread, so the dispatcher switches
      obtain ⟨qs, hqs, hnc, hne⟩ := hI.block_current (hI.current_ne_idle ht)
      rcases hsw with ⟨_, hr, _⟩ | ⟨hnone, _⟩
      · cases hr
      · obtain ⟨_, hcur, _⟩ := schedBlock_spec w.sched hI.current_ne_null
        refine absurd hnone (schedRun_switch hqs ?_ hne).1
        rw [hcur]
        exact hnc
  | block hw he =>
    rcases machMsgReceive_cases he with
      ⟨kr, hr, _⟩ | ⟨port, n, rfl, hmsg, ht, hl, hp, ⟨hc, kr, size', hr, hm⟩ | ⟨hc, hsw⟩⟩
    · cases hr
    · cases hr
    · rcases hsw with ⟨_, hr, rfl⟩ | ⟨_, kr, size', hr, _⟩
      · cases hr
        exact .blocked (w.lookup_eq ht hl) hp hw hmsg hc ht
      · cases hr
  | @resume wt size' kr s hw he =>
    obtain ⟨_, _, hp, hmsg, hsize⟩ := hI.waits _ _ hw
    obtain ⟨n, hn⟩ := Option.ne_none_iff_exists'.mp hsize
    by_cases hc : (w.port wt.port).msgCount = 0
    · have hc' : (w.ipc.ports wt.port).msgCount = 0 := hc
      rw [machMsgReceiveResume, if_pos hc'] at he
      cases he
      exact .empty hw hc
    · have hok := hI.ok wt.port
      have hne : (w.port wt.port).queue ≠ [] := fun hq => hc (hok.queue_eq_nil_iff.mp hq)
      obtain ⟨m, rest, hq⟩ := List.exists_cons_of_ne_nil hne
      have hm0 : m ≠ ipcKmsgNull := hI.nonnull wt.port m (by rw [hq]; simp)
      have hc' : ¬ (w.ipc.ports wt.port).msgCount = 0 := hc
      rw [machMsgReceiveResume, if_neg hc', hn, machMsgReceiveMessage_cons hp hmsg hok hq hm0] at he
      exact .resumed hw hn hq he
  | remove space name hw =>
    rcases ipcSpaceRemove_cases w.ipc space name with ⟨hnone, he⟩ | ⟨port, hl, hp, he⟩
    · rw [he]
      exact .refused hnone
    · rw [he]
      exact .removed hl hp
  | release hw hp => exact .released hp
  | user m => exact .user m

/-- Where the scheduler and the waiters stay the same, so does their part. -/
theorem IpcInv.of_same_sched (hI : IpcInv created w) (hsched : w'.sched = w.sched)
    (hwaits : w'.waits = w.waits)
    (hslot : ∀ p, (w'.port p).waitingThread = (w.port p).waitingThread)
    (hok : ∀ p, (w'.port p).Ok) (hnn : ∀ p, ∀ m ∈ (w'.port p).queue, m ≠ ipcKmsgNull)
    (hzone : w'.ipc.portZone ≠ none) (hlive : ∀ p ∈ w'.livePorts, p ≠ ipcPortNull) :
    IpcInv created w' := by
  have hcur : w'.current = w.current := by rw [IpcWorld.current, hsched, IpcWorld.current]
  refine ⟨hsched ▸ hI.sched, ?_, hsched ▸ hI.idle, hwaits ▸ hI.waits, fun p hp => ?_, hok, hnn,
    hzone, hlive⟩
  · rw [hcur, hsched]
    exact hI.current
  · rw [hslot] at hp ⊢
    rw [IpcWorld.BlockedOn, hsched, hwaits]
    exact hI.slot p hp

theorem IpcInv.of_kmsgOnly (hI : IpcInv created w) {s : Ipc} (hs : KmsgOnly w.ipc s)
    (hz : s.portZone = w.ipc.portZone) : IpcInv created { w with ipc := s } := by
  have hport (p : Word) : IpcWorld.port { w with ipc := s } p = w.port p := by
    rw [IpcWorld.port, IpcWorld.port, hs.ports]
  refine hI.of_same_sched hs.sched rfl (fun p => by rw [hport]) (fun p => ?_) (fun p => ?_) ?_ ?_
  · rw [hport]
    exact hI.ok p
  · rw [hport]
    exact hI.nonnull p
  · rw [show ({ w with ipc := s } : IpcWorld).ipc.portZone = s.portZone from rfl, hz]
    exact hI.zone
  · rw [IpcWorld.livePorts, hs.portLog]
    exact hI.live

/-- What a receive does besides the copy and the free. -/
theorem taken_spec {s s' : Ipc} {port msg n m : Word} {kr : KernReturn} {size' : Option Word}
    (he : s.taken port msg n m = (kr, size', s')) :
    s'.kern.sched = s.kern.sched ∧ s'.ports = Function.update s.ports port (s.ports port).popped ∧
      s'.spaces = s.spaces ∧ s'.itkSpace = s.itkSpace ∧ s'.portLog = s.portLog ∧
      s'.portZone = s.portZone ∧ kr ≠ .failure := by
  unfold Ipc.taken at he
  split_ifs at he
  · cases he
    have hf := ipcKmsgFree_only (s.dequeued port) m
    exact ⟨hf.sched, hf.ports, hf.spaces, hf.itkSpace, hf.portLog, ipcKmsgFree_portZone _ m,
      by decide⟩
  · cases he
    have hf := ipcKmsgFree_only
      { s.dequeued port with user := delivered s.user msg (s.kmsgs m) } m
    exact ⟨hf.sched, hf.ports, hf.spaces, hf.itkSpace, hf.portLog, ipcKmsgFree_portZone _ m,
      by decide⟩

theorem ipcKmsgAlloc_portZone (s : Ipc) (size : Word) :
    (ipcKmsgAlloc h s size).2.portZone = s.portZone := by
  have h1 := getKmsgZone_portZone s
  obtain ⟨z, s1, hz⟩ : ∃ z s1, getKmsgZone s = (z, s1) := ⟨_, _, rfl⟩
  rw [hz] at h1
  unfold ipcKmsgAlloc
  rw [hz]
  cases z with
  | none => exact h1
  | some z =>
    simp only
    split_ifs
    · exact h1
    · exact h1
    · exact h1

theorem IpcInv.taken (hI : IpcInv created w) {port msg n m : Word} {rest : List Word}
    {kr : KernReturn} {size' : Option Word} {s : Ipc} (hq : (w.port port).queue = m :: rest)
    (he : w.ipc.taken port msg n m = (kr, size', s)) : IpcInv created { w with ipc := s } := by
  obtain ⟨hsched, hports, _, _, hlog, hzone, _⟩ := taken_spec he
  obtain ⟨_, hok, hrest⟩ := (hI.ok port).pop hq
  have hport (p : Word) : IpcWorld.port { w with ipc := s } p =
      if p = port then (w.port port).popped else w.port p := by
    rw [IpcWorld.port, hports, Function.update_apply]
    rfl
  refine hI.of_same_sched hsched rfl (fun p => ?_) (fun p => ?_) (fun p => ?_) ?_ ?_
  · rw [hport]
    split_ifs with hp
    · rw [hp]
      rfl
    · rfl
  · rw [hport]
    split_ifs
    · exact hok
    · exact hI.ok p
  · rw [hport]
    split_ifs
    · rw [hrest]
      exact fun x hx => hI.nonnull port x (by rw [hq]; simp [hx])
    · exact hI.nonnull p
  · change s.portZone ≠ none
    rw [hzone]
    exact hI.zone
  · rw [IpcWorld.livePorts, hlog]
    exact hI.live

/-- A thread that has been switched away from inside a receive waits; every other does as
before. -/
theorem IpcInv.withWaits (hI : IpcInv created w) {waits : Word → Option Wait}
    (hw : ∀ t wt, waits t = some wt →
      t ∈ created ∧ t ≠ threadNull ∧ wt.port ≠ ipcPortNull ∧ wt.msg ≠ 0 ∧ wt.size ≠ none)
    (hsame : ∀ t, t ≠ w.current → waits t = w.waits t) : IpcInv created { w with waits := waits } := by
  refine ⟨hI.sched, hI.current, hI.idle, hw, fun p hp => ?_, hI.ok, hI.nonnull, hI.zone, hI.live⟩
  obtain ⟨hst, wt, hwt, hport⟩ := hI.slot p hp
  refine ⟨hst, wt, (hsame _ fun he => ?_).trans hwt, hport⟩
  have he' : (w.port p).waitingThread = w.current := he
  have hrun := hI.current.2
  rw [← he', hst] at hrun
  cases hrun

/-- What a release does, whether or not the reference was the last. -/
theorem ipcPortRelease_frame {s : Ipc} {port : Word} (hp : port ≠ ipcPortNull)
    (hz : s.portZone ≠ none) (hv : (s.ports port).Ok)
    (hm : ∀ m ∈ (s.ports port).queue, m ≠ ipcKmsgNull) :
    ReleaseFrame port s (ipcPortRelease s port) ∧ ((ipcPortRelease s port).ports port).Ok ∧
      (ipcPortRelease s port).portZone = s.portZone ∧
      (((s.ports port).refCount ≠ 1 ∧ (ipcPortRelease s port).portLog = s.portLog ∧
        ((ipcPortRelease s port).ports port).queue = (s.ports port).queue) ∨
      ((s.ports port).refCount = 1 ∧ (ipcPortRelease s port).portLog = .free port :: s.portLog ∧
        ((ipcPortRelease s port).ports port).queue = [])) := by
  by_cases href : (s.ports port).refCount = 1
  · obtain ⟨z, hz⟩ := Option.ne_none_iff_exists'.mp hz
    obtain ⟨s2, _, he, hf, hlog, hzone, hok, hq⟩ := ipcPortRelease_last hp hz hv hm href
    rw [he]
    exact ⟨⟨hf.sched, hf.spaces, hf.itkSpace, hf.user, hf.others, hf.waiter⟩, hok,
      hzone.trans hz.symm, Or.inr ⟨href, congrArg (_ :: ·) hlog, hq⟩⟩
  · have hport : (ipcPortRelease s port).ports port =
        { s.ports port with refCount := (s.ports port).refCount-1 } := by
      rw [ipcPortRelease_keep hp href]
      exact Function.update_self ..
    rw [hport]
    rw [ipcPortRelease_keep hp href]
    exact ⟨ReleaseFrame.setPort s rfl, hv, rfl, Or.inl ⟨href, rfl, rfl⟩⟩

theorem liveOf_free_subset {log : List ZoneEvent} {p e : Word} (he : e ∈ liveOf (.free p :: log)) :
    e ∈ liveOf log := List.mem_of_mem_erase he

/-- The queues after a release: the port's is emptied with its last reference. -/
theorem IpcInv.released_queue (hI : IpcInv created w) {port : Word} (hp : port ≠ ipcPortNull)
    (p : Word) : ((ipcPortRelease w.ipc port).ports p).queue =
      if p = port ∧ (w.port port).refCount = 1 then [] else (w.port p).queue := by
  obtain ⟨hf, _, _, hcase⟩ := ipcPortRelease_frame hp hI.zone (hI.ok port) (hI.nonnull port)
  by_cases hpp : p = port
  · rw [hpp]
    rcases hcase with ⟨href, _, hq⟩ | ⟨href, _, hq⟩
    · have href : ¬ (w.port port).refCount = 1 := href
      rw [if_neg (fun hc => href hc.2)]
      exact hq
    · have href : (w.port port).refCount = 1 := href
      rw [if_pos ⟨rfl, href⟩]
      exact hq
  · rw [if_neg (fun hc => hpp hc.1)]
    exact congrArg _ (hf.others p hpp)

/-- The queues after a message has been taken from one. -/
theorem IpcInv.taken_queue (hI : IpcInv created w) {port msg n m : Word} {rest : List Word}
    {kr : KernReturn} {size' : Option Word} {s : Ipc} (hq : (w.port port).queue = m :: rest)
    (he : w.ipc.taken port msg n m = (kr, size', s)) (p : Word) :
    (s.ports p).queue = if p = port then rest else (w.port p).queue := by
  rw [(taken_spec he).2.1, Function.update_apply]
  split_ifs
  · exact ((hI.ok port).pop hq).2.2
  · rfl

/-- The queues after a message has been put into one. -/
theorem IpcInv.enqueued_queue (hI : IpcInv created w) {port m : Word} {s : Ipc}
    (hs : s.ports = w.ipc.ports) (hlt : (w.port port).msgCount.toNat < ipcPortQueueMax)
    (p : Word) : ((s.enqueued port m).ports p).queue =
      if p = port then (w.port port).queue ++ [m] else (w.port p).queue := by
  change (Function.update s.ports port ((s.ports port).pushed m) p).queue = _
  rw [Function.update_apply, hs]
  split_ifs
  · exact ((hI.ok port).push hlt m).2
  · rfl

theorem IpcInv.released (hI : IpcInv created w) {port : Word} (hp : port ≠ ipcPortNull) :
    IpcInv created { w with ipc := ipcPortRelease w.ipc port } := by
  obtain ⟨hf, hok, hzone, hcase⟩ :=
    ipcPortRelease_frame hp hI.zone (hI.ok port) (hI.nonnull port)
  have hother (p : Word) (hne : p ≠ port) :
      IpcWorld.port { w with ipc := ipcPortRelease w.ipc port } p = w.port p := hf.others p hne
  refine hI.of_same_sched hf.sched rfl (fun p => ?_) (fun p => ?_) (fun p => ?_) ?_ ?_
  · by_cases hne : p = port
    · rw [hne]
      exact hf.waiter
    · rw [hother p hne]
  · by_cases hne : p = port
    · rw [hne]
      exact hok
    · rw [hother p hne]
      exact hI.ok p
  · by_cases hne : p = port
    · rw [hne]
      intro m hm
      rcases hcase with ⟨_, _, hq⟩ | ⟨_, _, hq⟩
      · exact hI.nonnull port m (hq ▸ hm)
      · have hm' : m ∈ ((ipcPortRelease w.ipc port).ports port).queue := hm
        rw [hq] at hm'
        simp at hm'
    · rw [hother p hne]
      exact hI.nonnull p
  · change (ipcPortRelease w.ipc port).portZone ≠ none
    rw [hzone]
    exact hI.zone
  · intro p hp'
    rcases hcase with ⟨_, hlog, _⟩ | ⟨_, hlog, _⟩
    · rw [IpcWorld.livePorts, hlog] at hp'
      exact hI.live p hp'
    · rw [IpcWorld.livePorts, hlog] at hp'
      exact hI.live p (liveOf_free_subset hp')

/-- A message that arrives wakes the waiter of its port. -/
theorem KmsgOnly.enqueued_sched {s : Ipc} (hs : KmsgOnly w.ipc s) (port m : Word) :
    (s.enqueued port m).kern.sched = schedUnblock w.sched (w.port port).waitingThread := by
  change schedUnblock s.kern.sched (s.ports port).waitingThread = _
  rw [hs.sched, hs.ports]
  rfl

theorem IpcInv.sent (hI : IpcInv created w) {port m : Word} {s : Ipc} (hs : KmsgOnly w.ipc s)
    (hz : s.portZone = w.ipc.portZone) (hm : m ≠ ipcKmsgNull)
    (hlt : (w.port port).msgCount.toNat < ipcPortQueueMax) :
    IpcInv created { w with ipc := s.enqueued port m } := by
  obtain ⟨hok, hq⟩ := (hI.ok port).push hlt m
  have hport (p : Word) : IpcWorld.port { w with ipc := s.enqueued port m } p =
      if p = port then (w.port port).pushed m else w.port p := by
    change Function.update s.ports port ((s.ports port).pushed m) p = _
    rw [Function.update_apply, hs.ports]
    rfl
  have hsched := hs.enqueued_sched port m
  have hrest : (∀ p, (IpcWorld.port { w with ipc := s.enqueued port m } p).Ok) ∧
      (∀ p, ∀ x ∈ (IpcWorld.port { w with ipc := s.enqueued port m } p).queue,
        x ≠ ipcKmsgNull) := by
    constructor
    · intro p
      rw [hport]
      split_ifs
      · exact hok
      · exact hI.ok p
    · intro p x hx
      rw [hport] at hx
      split_ifs at hx
      · rw [hq, List.mem_append, List.mem_singleton] at hx
        rcases hx with hx | rfl
        · exact hI.nonnull port x hx
        · exact hm
      · exact hI.nonnull p x hx
  have hzone : (s.enqueued port m).portZone ≠ none := by
    change s.portZone ≠ none
    rw [hz]
    exact hI.zone
  have hlive : ∀ p ∈ IpcWorld.livePorts { w with ipc := s.enqueued port m }, p ≠ ipcPortNull := by
    change ∀ p ∈ liveOf s.portLog, _
    rw [hs.portLog]
    exact hI.live
  by_cases hw : (w.port port).waitingThread = 0
  · have hun : schedUnblock w.sched (w.port port).waitingThread = w.sched := by
      rw [hw]
      exact if_pos rfl
    refine hI.of_same_sched (hsched.trans hun) rfl (fun p => ?_) hrest.1 hrest.2 hzone hlive
    rw [hport]
    split_ifs with hp
    · rw [hp, hw]
      rfl
    · rfl
  · -- the waiter is blocked on this port only
    obtain ⟨hst, wt, hwt, hwp⟩ := hI.slot port hw
    obtain ⟨t, ht⟩ : ∃ t, t = (w.port port).waitingThread := ⟨_, rfl⟩
    rw [← ht] at hst hwt hsched hw
    obtain ⟨qs, hqs⟩ := hI.sched
    have htc := (hI.waits t wt hwt).1
    obtain ⟨hst', hcur', hid'⟩ := schedUnblock_spec w.sched (t := t) hw
    have hne : w.current ≠ t := by
      intro he
      have hrun := hI.current.2
      rw [he, hst] at hrun
      cases hrun
    have hcur : IpcWorld.current { w with ipc := s.enqueued port m } = w.current := by
      rw [IpcWorld.current, IpcWorld.sched, hsched, hcur']
      rfl
    refine ⟨⟨qs ++ [t], ?_⟩, ?_, ?_, hI.waits, fun p hp => ?_, hrest.1, hrest.2, hzone, hlive⟩
    · rw [IpcWorld.sched, hsched]
      exact hqs.unblock htc hw hst
    · rw [hcur, IpcWorld.sched, hsched, hst', Function.update_of_ne hne]
      exact hI.current
    · rw [IpcWorld.sched, hsched, hid', schedUnblock_task]
      exact hI.idle
    · rw [hport] at hp ⊢
      split_ifs at hp ⊢ with hpp
      · exact absurd rfl hp
      obtain ⟨hstp, wtp, hwtp, hpp'⟩ := hI.slot p hp
      refine ⟨?_, wtp, hwtp, hpp'⟩
      rw [IpcWorld.sched, hsched, hst', Function.update_of_ne]
      · exact hstp
      · intro he
        rw [he, hwt] at hwtp
        obtain rfl := Option.some.inj hwtp
        exact hpp (hpp'.symm.trans hwp)

theorem IpcInv.blocked (hI : IpcInv created w) {port msg n : Word} (hp : port ≠ ipcPortNull)
    (hmsg : msg ≠ 0) (hw : w.waits w.current = none) (ht : currentTask w.ipc ≠ taskNull) :
    IpcInv created
      ⟨w.ipc.waitOn port, Function.update w.waits w.current (some ⟨port, msg, some n⟩)⟩ := by
  obtain ⟨qs, hqs, hnc, hne⟩ := hI.block_current (hI.current_ne_idle ht)
  obtain ⟨hst, hcur, hid⟩ := schedBlock_spec w.sched hI.current_ne_null
  obtain ⟨_, hsw⟩ := schedRun_switch hqs (by rw [hcur]; exact hnc) hne
  have hblk := schedRun_blocked hqs
  have hport (p : Word) : (w.ipc.waitOn port).ports p =
      if p = port then { w.port port with waitingThread := w.current } else w.port p :=
    Function.update_apply ..
  have hok : ∀ p, ((w.ipc.waitOn port).ports p).Ok ∧
      ∀ m ∈ ((w.ipc.waitOn port).ports p).queue, m ≠ ipcKmsgNull := by
    intro p
    rw [hport]
    split_ifs
    · exact ⟨hI.ok port, hI.nonnull port⟩
    · exact ⟨hI.ok p, hI.nonnull p⟩
  refine ⟨hqs.run, hsw, ?_, fun t wt hwt => ?_, fun p hp' => ?_, fun p => (hok p).1,
    fun p => (hok p).2, hI.zone, hI.live⟩
  · change (schedRun (schedBlock w.sched w.current)).2.cpuIdleThread ≠ _ ∧
      (schedRun (schedBlock w.sched w.current)).2.task
        (schedRun (schedBlock w.sched w.current)).2.cpuIdleThread = _
    rw [schedRun_idle, schedRun_task, schedBlock_task, hid]
    exact hI.idle
  · change Function.update w.waits w.current _ t = some wt at hwt
    rw [Function.update_apply] at hwt
    split_ifs at hwt with htc
    · obtain rfl := Option.some.inj hwt
      rw [htc]
      exact ⟨hI.current.1, hI.current_ne_null, hp, hmsg, Option.some_ne_none _⟩
    · exact hI.waits t wt hwt
  · have hslot : ∀ t q, w.BlockedOn t q → IpcWorld.BlockedOn ⟨w.ipc.waitOn port,
        Function.update w.waits w.current (some ⟨port, msg, some n⟩)⟩ t q := by
      rintro t q ⟨hb, wt, hwt, hq⟩
      have hne : t ≠ w.current := by
        rintro rfl
        rw [hw] at hwt
        cases hwt
      refine ⟨(hblk t).mpr ?_, wt, ?_, hq⟩
      · rw [hst, Function.update_of_ne hne]
        exact hb
      · exact (Function.update_of_ne hne _ _).trans hwt
    have hpv : IpcWorld.port ⟨w.ipc.waitOn port,
        Function.update w.waits w.current (some ⟨port, msg, some n⟩)⟩ p =
        if p = port then { w.port port with waitingThread := w.current } else w.port p := hport p
    rw [hpv] at hp' ⊢
    split_ifs at hp' ⊢ with hpp
    · refine ⟨(hblk _).mpr ?_, ⟨port, msg, some n⟩, Function.update_self .., hpp.symm⟩
      rw [hst, Function.update_self]
    · exact hslot _ p (hI.slot p hp')

/-- Every step keeps the invariant. -/
theorem IpcInv.step (hI : IpcInv created w) (hs : IpcStep h w op w') : IpcInv created w' := by
  have hgone (t : Word) (wt : Wait) (hwt : Function.update w.waits w.current none t = some wt) :
      t ∈ created ∧ t ≠ threadNull ∧ wt.port ≠ ipcPortNull ∧ wt.msg ≠ 0 ∧ wt.size ≠ none := by
    rw [Function.update_apply] at hwt
    split_ifs at hwt
    exact hI.waits t wt hwt
  cases hI.move hs with
  | yield =>
    obtain ⟨qs, hqs⟩ := hI.sched
    refine ⟨hqs.run, schedRun_current hqs hI.current.1 hI.current.2, ?_, hI.waits, fun p hp => ?_,
      hI.ok, hI.nonnull, hI.zone, hI.live⟩
    · change (schedRun w.sched).2.cpuIdleThread ≠ _ ∧
        (schedRun w.sched).2.task (schedRun w.sched).2.cpuIdleThread = _
      rw [schedRun_idle, schedRun_task]
      exact hI.idle
    · obtain ⟨hst, hwt⟩ := hI.slot p hp
      exact ⟨(schedRun_blocked hqs _).mpr hst, hwt⟩
  | refused hop => exact hI
  | @noKmsg msg size s ha =>
    have honly := ipcKmsgAlloc_kmsgOnly ha
    have hz := ipcKmsgAlloc_portZone (h := h) w.ipc size
    rw [ha] at hz
    exact hI.of_kmsgOnly honly hz
  | @full msg size port m s ha hm =>
    have hz := ipcKmsgAlloc_portZone (h := h) w.ipc size
    rw [ha] at hz
    exact hI.of_kmsgOnly (KmsgOnly.full ha _) ((ipcKmsgFree_portZone _ m).trans hz)
  | @sent msg size port m s hl hp hsize ha hm hlt =>
    have honly := ipcKmsgAlloc_kmsgOnly ha
    have hz := ipcKmsgAlloc_portZone (h := h) w.ipc size
    rw [ha] at hz
    exact hI.sent (honly.trans (KmsgOnly.setKmsg s m _)) hz hm hlt
  | took hl hp hmsg hq he => exact hI.taken hq he
  | blocked hl hp hw hmsg hc ht => exact hI.blocked hp hmsg hw ht
  | empty hw hc => exact hI.withWaits hgone fun t ht => Function.update_of_ne ht _ _
  | resumed hw hn hq he =>
    have hcur : ∀ {s : Ipc}, s.kern.sched = w.sched →
        IpcWorld.current { w with ipc := s } = w.current := by
      intro s hs
      rw [IpcWorld.current, IpcWorld.sched, hs]
      rfl
    refine (hI.taken hq he).withWaits hgone fun t ht => ?_
    rw [hcur (taken_spec he).1] at ht
    exact Function.update_of_ne ht _ _
  | removed hl hp =>
    have hI' := hI.released hp
    exact ⟨hI'.sched, hI'.current, hI'.idle, hI'.waits, hI'.slot, hI'.ok, hI'.nonnull, hI'.zone,
      hI'.live⟩
  | released hp => exact hI.released (hI.live _ hp)
  | user m =>
    exact ⟨hI.sched, hI.current, hI.idle, hI.waits, hI.slot, hI.ok, hI.nonnull, hI.zone, hI.live⟩

/-- What a step does to the scheduler, and who is inside a receive after it. -/
theorem IpcInv.sched_step (hI : IpcInv created w) (hs : IpcStep h w op w') :
    (w'.sched = w.sched ∨ w'.sched = (schedRun w.sched).2 ∨
      (∃ t, t ≠ threadNull ∧ w.sched.state t = .blocked ∧ w'.sched = schedUnblock w.sched t) ∨
      (currentTask w.ipc ≠ taskNull ∧
        w'.sched = (schedRun (schedBlock w.sched w.current)).2)) ∧
    ∀ t, w'.waits t ≠ none → w.waits t ≠ none ∨ (t = w.current ∧ currentTask w.ipc ≠ taskNull) := by
  have hgone (t : Word) (ht : Function.update w.waits w.current none t ≠ none) :
      w.waits t ≠ none ∨ (t = w.current ∧ currentTask w.ipc ≠ taskNull) := by
    rw [Function.update_apply] at ht
    split_ifs at ht
    · exact absurd rfl ht
    · exact Or.inl ht
  cases hI.move hs with
  | yield => exact ⟨Or.inr (Or.inl rfl), fun t => Or.inl⟩
  | refused hop => exact ⟨Or.inl rfl, fun t => Or.inl⟩
  | @noKmsg msg size s ha =>
    have honly := ipcKmsgAlloc_kmsgOnly ha
    exact ⟨Or.inl honly.sched, fun t => Or.inl⟩
  | @full msg size port m s ha hm =>
    have hall := KmsgOnly.full ha (filledKmsg w.ipc msg size port)
    exact ⟨Or.inl hall.sched, fun t => Or.inl⟩
  | @sent msg size port m s hl hp hsize ha hm hlt =>
    have honly := ipcKmsgAlloc_kmsgOnly ha
    have hsched : ((s.setKmsg m (filledKmsg w.ipc msg size port)).enqueued port m).kern.sched =
        schedUnblock w.sched (w.port port).waitingThread := by
      change schedUnblock s.kern.sched (s.ports port).waitingThread = _
      rw [honly.sched, honly.ports]
      rfl
    refine ⟨?_, fun t => Or.inl⟩
    by_cases hw : (w.port port).waitingThread = 0
    · left
      exact hsched.trans (by rw [hw]; exact if_pos rfl)
    · exact Or.inr (Or.inr (Or.inl ⟨_, hw, (hI.slot port hw).1, hsched⟩))
  | took hl hp hmsg hq he => exact ⟨Or.inl (taken_spec he).1, fun t => Or.inl⟩
  | blocked hl hp hw hmsg hc ht =>
    refine ⟨Or.inr (Or.inr (Or.inr ⟨ht, rfl⟩)), fun t hwt => ?_⟩
    change Function.update w.waits w.current _ t ≠ none at hwt
    rw [Function.update_apply] at hwt
    split_ifs at hwt with htc
    · exact Or.inr ⟨htc, ht⟩
    · exact Or.inl hwt
  | empty hw hc => exact ⟨Or.inl rfl, hgone⟩
  | resumed hw hn hq he => exact ⟨Or.inl (taken_spec he).1, hgone⟩
  | @removed space name port hl hp =>
    obtain ⟨hf, _⟩ := ipcPortRelease_frame hp hI.zone (hI.ok port) (hI.nonnull port)
    exact ⟨Or.inl hf.sched, fun t => Or.inl⟩
  | @released port hp =>
    obtain ⟨hf, _⟩ := ipcPortRelease_frame (hI.live _ hp) hI.zone (hI.ok port) (hI.nonnull port)
    exact ⟨Or.inl hf.sched, fun t => Or.inl⟩
  | user m => exact ⟨Or.inl rfl, fun t => Or.inl⟩

/-- Where only the kernel's threads change, and those that live keep their states. -/
theorem IpcInv.of_kern (hI : IpcInv created w) {k : Kern} {created' qs : List Word}
    (hs : SchedInv k.sched created' qs) (hcur : k.sched.cpuCurrentThread = w.current)
    (hidle : k.sched.cpuIdleThread = w.sched.cpuIdleThread)
    (htask : k.sched.task w.sched.cpuIdleThread = w.sched.task w.sched.cpuIdleThread)
    (hmem : ∀ t ∈ created, t = w.current ∨ w.waits t ≠ none → t ∈ created')
    (hst : ∀ t ∈ created, t ∈ created' → k.sched.state t = w.sched.state t) :
    IpcInv created' { w with ipc := { w.ipc with kern := k } } := by
  have hwaits (t : Word) (wt : Wait) (hwt : w.waits t = some wt) : t ∈ created' := by
    apply hmem t (hI.waits t wt hwt).1
    right
    rw [hwt]
    exact Option.some_ne_none wt
  have hc := hmem _ hI.current.1 (Or.inl rfl)
  refine ⟨⟨qs, hs⟩, ?_, ?_, fun t wt hwt => ⟨hwaits t wt hwt, (hI.waits t wt hwt).2⟩, fun p hp => ?_,
    hI.ok, hI.nonnull, hI.zone, hI.live⟩
  · change k.sched.cpuCurrentThread ∈ created' ∧ k.sched.state k.sched.cpuCurrentThread = _
    rw [hcur, hst _ hI.current.1 hc]
    exact ⟨hc, hI.current.2⟩
  · change k.sched.cpuIdleThread ≠ _ ∧ k.sched.task k.sched.cpuIdleThread = _
    rw [hidle, htask]
    exact hI.idle
  · obtain ⟨hb, wt, hwt, hpp⟩ := hI.slot p hp
    refine ⟨?_, wt, hwt, hpp⟩
    exact (hst _ (hI.waits _ wt hwt).1 (hwaits _ wt hwt)).trans hb

/-- The idle thread has been created. -/
theorem IpcInv.idle_mem (hI : IpcInv created w) : w.sched.cpuIdleThread ∈ created := by
  obtain ⟨qs, hs⟩ := hI.sched
  rcases hs.idle with hn | hm
  · exact absurd hn hI.idle.1
  · exact ((hs.mem_iff _).mp hm).1

theorem IpcBoot.inv (hb : IpcBoot h w created) : IpcInv created w := by
  have hok (p : Word) : (w.port p).Ok ∧ (w.port p).queue = [] := by
    obtain ⟨_, hc, hl, hf⟩ := hb.empty p
    have hnil : RingBuffer.Holds ipcPortQueueMax (w.port p).messages (w.port p).msgFirst.toNat
        (w.port p).msgLast.toNat (w.port p).msgCount.toNat [] := by
      rw [hl, hc]
      exact RingBuffer.Holds.nil hf
    exact ⟨.of_holds hnil, contents_eq hnil⟩
  refine ⟨hb.sched, hb.current, hb.idle, fun t wt hwt => ?_, fun p hp => ?_, fun p => (hok p).1,
    fun p m hm => ?_, ?_, fun p hp => (hb.portMem p hp).1⟩
  · rw [hb.waits] at hwt
    cases hwt
  · exact absurd (hb.empty p).1 hp
  · rw [(hok p).2] at hm
    simp at hm
  · obtain ⟨z, hz, _⟩ := hb.portZone
    rw [hz]
    exact Option.some_ne_none z

end Step

/-- Two threads of one task, and the idle thread, queued in this order. -/
def ipcThreads : Word → Thread := fun t =>
  if t = 0x1000 then { Thread.zero with task := 0x10, state := .running, next := 0x2000 }
  else if t = 0x2000 then { Thread.zero with task := 0x10, next := 0x3000, prev := 0x1000 }
  else if t = 0x3000 then { Thread.zero with prev := 0x2000 }
  else Thread.zero

/-- The task's space names one port, and the message buffer at 0x100 has that name as its
remote and its local port. -/
def ipcStart : IpcWorld where
  ipc := {
    kern := {
      kmem := ⟨pmmBoot, fun _ => 0⟩
      zoneStore := ⟨fun _ => ⟨312, 0, 0, 0, 0, 0⟩, 1⟩
      threadZone := none
      nextThreadId := 1
      tasks := fun _ => ⟨0, 0⟩
      sched := ⟨⟨0x1000, 0x3000, 3⟩, ipcThreads, 0x1000, 0x3000⟩ }
    itkSpace := fun _ => 0x20
    ports := fun _ => { IpcPort.zero with refCount := 1 }
    kmsgs := fun _ => ⟨0, 0, 0, 0, fun _ => 0, fun _ => 0⟩
    spaces := fun _ => ⟨1, fun _ => ⟨0x30, 1, 1⟩⟩
    portZone := some 0
    kmsgZone := none
    spaceZone := none
    user := fun x => if x = 0x110 ∨ x = 0x118 then 1 else 0
    portLog := [.alloc 0x30]
    kmsgLog := [] }
  waits := fun _ => none

theorem ipcStart_sched :
    SchedInv ipcStart.sched [0x1000, 0x2000, 0x3000] [0x1000, 0x2000, 0x3000] := by
  have hrun : ∀ t ∈ [(0x1000 : Word), 0x2000, 0x3000], (ipcStart.sched.state t).CanRun := by
    simp only [List.mem_cons, List.not_mem_nil, or_false, forall_eq_or_imp, forall_eq]
    exact ⟨Or.inr rfl, Or.inl rfl, Or.inl rfl⟩
  refine ⟨⟨⟨?_, by decide⟩, rfl⟩, fun t => ⟨fun ht => ⟨ht, hrun t ht⟩, And.left⟩, ?_, Or.inr (by decide)⟩
  · unfold LinkedRing.Linked
    decide
  · simp only [List.mem_cons, List.not_mem_nil, or_false, forall_eq_or_imp, forall_eq]
    exact ⟨fun _ => rfl, fun hr => (by cases hr), fun hr => (by cases hr)⟩

theorem ipcStart_boot : IpcBoot higherHalf ipcStart [0x1000, 0x2000, 0x3000] := by
  refine ⟨⟨_, ipcStart_sched⟩, ⟨by decide, rfl⟩, ⟨by decide, rfl⟩, rfl,
    fun p => ⟨rfl, rfl, rfl, show (0 : BitVec 32).toNat < 32 by decide⟩, by decide, ⟨rfl, rfl⟩, ⟨0, rfl, by decide⟩, by decide,
    fun p hp => ?_, fun space name port hl => ?_⟩
  · obtain rfl : p = 0x30 := List.mem_singleton.mp hp
    refine ⟨by decide, fun x hx hf => ?_⟩
    have hlt : frameOf higherHalf x < 2^20 := hf.1
    rw [frameOf, pageOf_eq, virtToPhys] at hlt
    have hoff : higherHalf.offset = 0xffff800000000000 := rfl
    rw [hoff] at hlt
    bv_omega
  · unfold ipcSpaceLookup at hl
    simp only at hl
    split_ifs at hl
    · cases hl
    · cases hl
    · cases hl
    · have hport : (0x30 : Word) = port := Option.some.inj (congrArg Prod.snd hl)
      exact List.mem_singleton.mpr hport.symm

end Dana
