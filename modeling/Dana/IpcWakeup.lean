import Dana.IpcInv

/-! Blocked receivers: who is recorded as waiting on a port, and who wakes whom. -/
namespace Dana
open ByteMem Sched Transition

/-- The port that a `mach_msg_receive` with these arguments gets to. -/
def IpcWorld.receivesOn (w : IpcWorld) (msg : Word) (size : Option Word) : Option Word :=
  if msg = 0 ∨ size = none then none else w.lookup (load64 w.ipc.user (msg+msghLocalPort))

/-- A receive that finds its port empty finds the port allocated and no thread waiting on
it, and nobody waits on a port whose last reference goes. -/
def WaiterSafe (w : IpcWorld) : IpcOp → Prop
  | .receive msg size _ => ∀ p, w.receivesOn msg size = some p → (w.port p).msgCount = 0 →
    p ∈ w.livePorts ∧ (w.port p).waitingThread = 0
  | .remove space name => ∀ p, (ipcSpaceLookup w.ipc space name).2 = some p →
    (w.port p).refCount = 1 → (w.port p).waitingThread = 0
  | .release p => (w.port p).refCount = 1 → (w.port p).waitingThread = 0
  | _ => True

/-- No wakeup is lost: a blocked receiver is its port's waiter, the next message wakes a
receiver, and none stays blocked over a message that nobody else is about to take. -/
structure NoLostWakeup (w : IpcWorld) : Prop where
  waiter : ∀ t p, w.BlockedOn t p → (w.port p).waitingThread = t ∧ p ∈ w.livePorts
  wakes : ∀ t p kmsg, w.BlockedOn t p → kmsg ≠ ipcKmsgNull →
    ∃ t', w.BlockedOn t' p ∧ (ipcPortEnqueue w.ipc p kmsg).2.kern.sched.state t' = .runnable
  queued : ∀ t p, w.BlockedOn t p → (w.port p).msgCount ≠ 0 →
    ∃ t' wt, t' ≠ t ∧ w.waits t' = some wt ∧ wt.port = p ∧ (w.sched.state t').CanRun

/-- A blocked receiver is the waiter of an allocated port that holds no message. -/
def WaiterInv (w : IpcWorld) : Prop :=
  ∀ t p, w.BlockedOn t p →
    (w.port p).waitingThread = t ∧ p ∈ w.livePorts ∧ (w.port p).msgCount = 0

section Step
variable {h : Hhdm} {created : List Word} {w w' : IpcWorld} {op : IpcOp}

theorem IpcInv.blockedOn_ne_null (hI : IpcInv created w) {t p : Word} (hb : w.BlockedOn t p) :
    t ≠ threadNull ∧ p ≠ ipcPortNull := by
  obtain ⟨_, wt, hwt, rfl⟩ := hb
  obtain ⟨_, ht, hp, _⟩ := hI.waits t wt hwt
  exact ⟨ht, hp⟩

theorem WaiterInv.noLostWakeup (hI : IpcInv created w) (hw : WaiterInv w) : NoLostWakeup w := by
  refine ⟨fun t p hb => ⟨(hw t p hb).1, (hw t p hb).2.1⟩, fun t p kmsg hb hk => ⟨t, hb, ?_⟩,
    fun t p hb hc => absurd (hw t p hb).2.2 hc⟩
  obtain ⟨hslot, _, hc⟩ := hw t p hb
  obtain ⟨ht, hp⟩ := hI.blockedOn_ne_null hb
  have hfull : ¬ ipcPortQueueMax ≤ (w.ipc.ports p).msgCount.toNat := by
    change ¬ ipcPortQueueMax ≤ (w.port p).msgCount.toNat
    rw [hc]
    decide
  rw [ipcPortEnqueue_cases hp hk, if_neg hfull]
  change (schedUnblock w.sched (w.port p).waitingThread).state t = _
  rw [hslot, (schedUnblock_spec w.sched ht).1, Function.update_self]

/-- Where no thread is newly blocked and the ports of blocked threads stay as they are. -/
theorem WaiterInv.of_blockedOn (hw : WaiterInv w)
    (hb : ∀ t p, w'.BlockedOn t p → w.BlockedOn t p ∧
      (w'.port p).waitingThread = (w.port p).waitingThread ∧
      (w'.port p).msgCount = (w.port p).msgCount ∧ (p ∈ w.livePorts → p ∈ w'.livePorts)) :
    WaiterInv w' := by
  intro t p hbp
  obtain ⟨hold, hslot, hcount, hlive⟩ := hb t p hbp
  obtain ⟨h1, h2, h3⟩ := hw t p hold
  exact ⟨hslot.trans h1, hlive h2, hcount.trans h3⟩

theorem WaiterInv.of_kmsgOnly (hw : WaiterInv w) {s : Ipc} (hs : KmsgOnly w.ipc s) :
    WaiterInv { w with ipc := s } := by
  refine hw.of_blockedOn fun t p hb => ?_
  rw [IpcWorld.BlockedOn, IpcWorld.sched, hs.sched] at hb
  rw [IpcWorld.port, IpcWorld.port, IpcWorld.livePorts, IpcWorld.livePorts, hs.ports, hs.portLog]
  exact ⟨hb, rfl, rfl, id⟩

/-- A message goes to the waiter of its port; whoever is blocked then waits elsewhere. -/
theorem WaiterInv.sent (hI : IpcInv created w) (hw : WaiterInv w) {s : Ipc}
    (hs : KmsgOnly w.ipc s) (port m : Word) : WaiterInv { w with ipc := s.enqueued port m } := by
  have hsched := hs.enqueued_sched port m
  refine hw.of_blockedOn fun t p hb => ?_
  have hold : w.BlockedOn t p ∧ t ≠ (w.port port).waitingThread := by
    obtain ⟨hst, hwt⟩ := hb
    rw [IpcWorld.sched, hsched] at hst
    rw [schedUnblock_state] at hst
    split_ifs at hst with ht
    have hbt : w.BlockedOn t p := ⟨hst, hwt⟩
    exact ⟨hbt, fun hc => ht ⟨hc ▸ (hI.blockedOn_ne_null hbt).1, hc⟩⟩
  have hp : p ≠ port := by
    rintro rfl
    exact hold.2 (hw t p hold.1).1.symm
  have hport : (s.enqueued port m).ports p = w.port p := by
    change Function.update s.ports port _ p = _
    rw [Function.update_of_ne hp, hs.ports]
    rfl
  refine ⟨hold.1, congrArg _ hport, congrArg _ hport, fun hl => ?_⟩
  change p ∈ liveOf s.portLog
  rw [hs.portLog]
  exact hl

/-- A port that a message is taken from has no blocked receiver. -/
theorem WaiterInv.taken (hI : IpcInv created w) (hw : WaiterInv w) {port msg n m : Word}
    {rest : List Word} {kr : KernReturn} {size' : Option Word} {s : Ipc}
    (hq : (w.port port).queue = m :: rest) (he : w.ipc.taken port msg n m = (kr, size', s)) :
    WaiterInv { w with ipc := s } := by
  obtain ⟨hsched, hports, _, _, hlog, _⟩ := taken_spec he
  refine hw.of_blockedOn fun t p hb => ?_
  rw [IpcWorld.BlockedOn, IpcWorld.sched, hsched] at hb
  have hbt : w.BlockedOn t p := hb
  have hp : p ≠ port := by
    rintro rfl
    have hnil := (hI.ok p).queue_eq_nil_iff.mpr (hw t p hbt).2.2
    rw [hnil] at hq
    cases hq
  have hport : s.ports p = w.port p := by
    rw [hports, Function.update_of_ne hp]
    rfl
  refine ⟨hbt, congrArg _ hport, congrArg _ hport, fun hl => ?_⟩
  rw [IpcWorld.livePorts, hlog]
  exact hl

/-- The current thread leaves its receive. -/
theorem WaiterInv.resume (hw : WaiterInv w) :
    WaiterInv { w with waits := Function.update w.waits w.current none } := by
  refine hw.of_blockedOn fun t p hb => ?_
  obtain ⟨hst, wt, hwt, hp⟩ := hb
  refine ⟨⟨hst, wt, ?_, hp⟩, rfl, rfl, id⟩
  change Function.update w.waits w.current none t = some wt at hwt
  rw [Function.update_apply] at hwt
  split_ifs at hwt
  exact hwt

theorem WaiterInv.blocked (hI : IpcInv created w) (hw : WaiterInv w) {port msg n : Word}
    (hc : (w.port port).msgCount = 0) (ht : currentTask w.ipc ≠ taskNull)
    (hlive : port ∈ w.livePorts) (hslot : (w.port port).waitingThread = 0) :
    WaiterInv ⟨w.ipc.waitOn port, Function.update w.waits w.current (some ⟨port, msg, some n⟩)⟩ := by
  obtain ⟨qs, hqs, _, _⟩ := hI.block_current (hI.current_ne_idle ht)
  have hst := (schedBlock_spec w.sched hI.current_ne_null).1
  intro t p hb
  obtain ⟨hbst, wt, hwt, hp⟩ := hb
  have hbst := (schedRun_blocked hqs t).mp hbst
  change Function.update w.waits w.current _ t = some wt at hwt
  change (Function.update w.ipc.ports port _ p).waitingThread = t ∧ p ∈ w.livePorts ∧
    (Function.update w.ipc.ports port _ p).msgCount = 0
  by_cases htc : t = w.current
  · rw [htc, Function.update_self] at hwt
    obtain rfl := Option.some.inj hwt
    obtain rfl : port = p := hp
    rw [Function.update_self, htc]
    exact ⟨rfl, hlive, hc⟩
  · rw [Function.update_of_ne htc] at hwt
    rw [hst, Function.update_of_ne htc] at hbst
    have hbt : w.BlockedOn t p := ⟨hbst, wt, hwt, hp⟩
    have hpp : p ≠ port := by
      rintro rfl
      exact (hI.blockedOn_ne_null hbt).1 ((hw t p hbt).1.symm.trans hslot)
    rw [Function.update_of_ne hpp]
    exact hw t p hbt

theorem WaiterInv.released (hI : IpcInv created w) (hw : WaiterInv w) {port : Word}
    (hp : port ≠ ipcPortNull)
    (hslot : (w.port port).refCount = 1 → (w.port port).waitingThread = 0) :
    WaiterInv { w with ipc := ipcPortRelease w.ipc port } := by
  obtain ⟨hf, hok, _, hcase⟩ := ipcPortRelease_frame hp hI.zone (hI.ok port) (hI.nonnull port)
  refine hw.of_blockedOn fun t p hb => ?_
  rw [IpcWorld.BlockedOn, IpcWorld.sched, hf.sched] at hb
  have hbt : w.BlockedOn t p := hb
  refine ⟨hbt, ?_⟩
  by_cases hpp : p = port
  · subst hpp
    rcases hcase with ⟨_, hlog, hq⟩ | ⟨href, _, _⟩
    · refine ⟨hf.waiter, BitVec.eq_of_toNat_eq ?_, fun hl => ?_⟩
      · have hlen := hok.length
        rw [hq] at hlen
        exact hlen.symm.trans (hI.ok p).length
      · rw [IpcWorld.livePorts, hlog]
        exact hl
    · exact absurd ((hw t p hbt).1.symm.trans (hslot href)) (hI.blockedOn_ne_null hbt).1
  · have hport : (ipcPortRelease w.ipc port).ports p = w.port p := hf.others p hpp
    refine ⟨congrArg _ hport, congrArg _ hport, fun hl => ?_⟩
    rcases hcase with ⟨_, hlog, _⟩ | ⟨_, hlog, _⟩
    · rw [IpcWorld.livePorts, hlog]
      exact hl
    · rw [IpcWorld.livePorts, hlog]
      exact (List.mem_erase_of_ne hpp).mpr hl

theorem WaiterInv.step (hI : IpcInv created w) (hw : WaiterInv w) (hs : IpcStep h w op w')
    (hsafe : WaiterSafe w op) : WaiterInv w' := by
  cases hI.move hs with
  | yield =>
    obtain ⟨qs, hqs⟩ := hI.sched
    refine hw.of_blockedOn fun t p hb => ⟨⟨(schedRun_blocked hqs t).mp hb.1, hb.2⟩, rfl, rfl, id⟩
  | refused hop => exact hw
  | @noKmsg msg size s ha =>
    have honly := ipcKmsgAlloc_kmsgOnly ha
    exact hw.of_kmsgOnly honly
  | @full msg size port m s ha hm =>
    exact hw.of_kmsgOnly (KmsgOnly.full ha _)
  | @sent msg size port m s hl hp hsize ha hm hlt =>
    have honly := ipcKmsgAlloc_kmsgOnly ha
    exact hw.sent hI (honly.trans (KmsgOnly.setKmsg s m _)) port m
  | took hl hp hmsg hq he => exact hw.taken hI hq he
  | @blocked msg port n hl hp hn hmsg hc ht =>
    have hrec : w.receivesOn msg (some n) = some port := by
      rw [IpcWorld.receivesOn, if_neg (by simpa using hmsg), hl]
    obtain ⟨hlive, hslot⟩ := hsafe port hrec hc
    exact hw.blocked hI hc ht hlive hslot
  | empty hn hc => exact hw.resume
  | resumed hn hsize hq he =>
    have := (hw.taken hI hq he).resume
    rwa [IpcWorld.current, IpcWorld.sched, (taken_spec he).1] at this
  | removed hl hp =>
    have := hw.released hI hp (hsafe _ (by rw [hl]))
    exact this.of_blockedOn fun t p hb => ⟨hb, rfl, rfl, id⟩
  | released hp => exact hw.released hI (hI.live _ hp) hsafe
  | user m => exact hw.of_blockedOn fun t p hb => ⟨hb, rfl, rfl, id⟩

/-- A run in which each receive that has to wait finds its port allocated and unwaited-on,
and no waited-on port is freed, loses no wakeup. -/
theorem ipc_run_no_lost_wakeup (h : Hhdm) (created : List Word) (w₀ w : IpcWorld)
    (ops : List IpcOp) (hb : IpcBoot h w₀ created)
    (hr : Run (fun w op w' => IpcStep h w op w' ∧ WaiterSafe w op) w₀ ops w) :
    NoLostWakeup w := by
  have hinv : IpcInv created w ∧ WaiterInv w := by
    refine hr.inv (I := fun w => IpcInv created w ∧ WaiterInv w)
      (fun w op w' hs hI => ⟨hI.1.step hs.1, hI.2.step hI.1 hs.1 hs.2⟩) ⟨hb.inv, ?_⟩
    rintro t p ⟨_, wt, hwt, _⟩
    rw [hb.waits] at hwt
    cases hwt
  exact hinv.2.noLostWakeup hinv.1

end Step

/-- The first thread of `ipcStart` waits on the port. -/
def ipcOneWaits : IpcWorld :=
  ⟨(machMsgReceive ipcStart.ipc 0x100 (some 512)).2,
    Function.update ipcStart.waits 0x1000 (some ⟨0x30, 0x100, some 512⟩)⟩

theorem ipcOneWaits_step : IpcStep higherHalf ipcStart
    (.receive 0x100 (some 512) (.blocked 0x30)) ipcOneWaits :=
  .block ipcStart rfl (Prod.ext (by decide +kernel) rfl)

/-- The second thread of `ipcStart` has woken the first with a message. -/
def ipcOneWoken : IpcWorld :=
  { ipcOneWaits with ipc := (machMsgSend higherHalf ipcOneWaits.ipc 0x100 48).2 }

theorem ipcOneWoken_step : IpcStep higherHalf ipcOneWaits (.send 0x100 48 .success) ipcOneWoken :=
  .send ipcOneWaits (by decide +kernel) (Prod.ext (by decide +kernel) rfl)

theorem ipcStart_receivesOn : ipcStart.receivesOn 0x100 (some 512) = some 0x30 := by decide +kernel

/-- A receive from the empty port, woken by a message from the other thread. -/
theorem ipc_run_no_lost_wakeup_send : ∃ w, Run (fun w op w' => IpcStep higherHalf w op w' ∧
    WaiterSafe w op) ipcStart
    [.receive 0x100 (some 512) (.blocked 0x30), .send 0x100 48 .success] w ∧
      NoLostWakeup w ∧ w.current = 0x2000 ∧ w.sched.state 0x1000 = .runnable := by
  have h1 : WaiterSafe ipcStart (.receive 0x100 (some 512) (.blocked 0x30)) := by
    rintro p hp _
    obtain rfl : 0x30 = p := Option.some.inj (ipcStart_receivesOn.symm.trans hp)
    exact ⟨by decide, by decide⟩
  have hr : Run (fun w op w' => IpcStep higherHalf w op w' ∧ WaiterSafe w op) ipcStart _ _ :=
    (Run.start.snoc ⟨ipcOneWaits_step, h1⟩).snoc ⟨ipcOneWoken_step, trivial⟩
  refine ⟨_, hr, ipc_run_no_lost_wakeup higherHalf _ _ _ _ ipcStart_boot hr, ?_, ?_⟩
  · decide +kernel
  · decide +kernel

/-- A second receiver on the port takes the place of the first, which stays blocked with
nothing to wake it. -/
theorem ipc_second_receiver_loses_wakeup : ∃ w, IpcBoot higherHalf ipcStart
    [0x1000, 0x2000, 0x3000] ∧ Run (IpcStep higherHalf) ipcStart
      [.receive 0x100 (some 512) (.blocked 0x30), .receive 0x100 (some 512) (.blocked 0x30)] w ∧
    w.BlockedOn 0x1000 0x30 ∧ (w.port 0x30).waitingThread = 0x2000 ∧ ¬ NoLostWakeup w := by
  have h2 : IpcStep higherHalf ipcOneWaits (.receive 0x100 (some 512) (.blocked 0x30))
      ⟨(machMsgReceive ipcOneWaits.ipc 0x100 (some 512)).2, Function.update ipcOneWaits.waits
        ipcOneWaits.current (some ⟨0x30, 0x100, some 512⟩)⟩ :=
    .block ipcOneWaits (by decide +kernel) (Prod.ext (by decide +kernel) rfl)
  obtain ⟨w, hw⟩ : ∃ w : IpcWorld, w = ⟨(machMsgReceive ipcOneWaits.ipc 0x100 (some 512)).2,
    Function.update ipcOneWaits.waits ipcOneWaits.current (some ⟨0x30, 0x100, some 512⟩)⟩ :=
    ⟨_, rfl⟩
  have hblocked : w.BlockedOn 0x1000 0x30 := by
    rw [hw]
    exact ⟨by decide +kernel, ⟨0x30, 0x100, some 512⟩, by decide +kernel, rfl⟩
  have hslot : (w.port 0x30).waitingThread = 0x2000 := by
    rw [hw]
    decide +kernel
  refine ⟨w, ipcStart_boot, hw ▸ (Run.start.snoc ipcOneWaits_step).snoc h2, hblocked, hslot,
    fun hn => ?_⟩
  have hw1 := (hn.waiter _ _ hblocked).1
  rw [hslot] at hw1
  exact absurd hw1 (by decide)

end Dana
