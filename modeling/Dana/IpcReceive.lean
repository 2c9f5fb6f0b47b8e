import Dana.IpcWakeup
import Mathlib.Data.Set.Card

/-! Woken receivers: between the send that wakes one and its resumption, others may run and
take the message. -/
namespace Dana
open ByteMem Sched Transition

/-- The steps of threads that only send and receive. -/
def IpcOp.Messaging : IpcOp → Prop
  | .remove _ _ => False
  | .release _ => False
  | _ => True

/-- A receive that finds messages finds more of them than receivers of the port that have
been woken and have yet to resume. -/
def TakesSpare (w : IpcWorld) : IpcOp → Prop
  | .receive msg size _ => ∀ p, w.receivesOn msg size = some p → (w.port p).msgCount ≠ 0 →
    {t | w.WokenOn t p}.ncard < (w.port p).msgCount.toNat
  | _ => True

/-- A receive does not report `KERN_FAILURE`, and one that had to block returns with the
first message of its port taken out. -/
def ReceiveSucceeds (w : IpcWorld) (op : IpcOp) (w' : IpcWorld) : Prop :=
  match op with
  | .receive _ _ r => ∀ size, r ≠ .done .failure size
  | .resume kr _ => kr ≠ .failure ∧ ∃ wt m, w.waits w.current = some wt ∧
    (w.port wt.port).queue = m :: (w'.port wt.port).queue
  | _ => True

/-- Every woken receiver has a message of its port to take. -/
def SpareInv (w : IpcWorld) : Prop := ∀ p, {t | w.WokenOn t p}.ncard ≤ (w.port p).msgCount.toNat

section Step
variable {h : Hhdm} {created : List Word} {w w' : IpcWorld} {op : IpcOp}

theorem IpcInv.woken_finite (hI : IpcInv created w) (p : Word) : {t | w.WokenOn t p}.Finite := by
  refine created.finite_toSet.subset ?_
  rintro t ⟨_, wt, hwt, _⟩
  exact (hI.waits t wt hwt).1

/-- Where the same receivers are woken and no queue is shorter. -/
theorem SpareInv.of_woken (hw : SpareInv w) (hwoken : ∀ t p, w'.WokenOn t p ↔ w.WokenOn t p)
    (hcount : ∀ p, (w'.port p).msgCount = (w.port p).msgCount) : SpareInv w' := by
  intro p
  have hset : {t | w'.WokenOn t p} = {t | w.WokenOn t p} := Set.ext fun t => hwoken t p
  rw [hset, hcount]
  exact hw p

theorem SpareInv.of_kmsgOnly (hw : SpareInv w) {s : Ipc} (hs : KmsgOnly w.ipc s) :
    SpareInv { w with ipc := s } := by
  refine hw.of_woken (fun t p => ?_) fun p => ?_
  · rw [IpcWorld.WokenOn, IpcWorld.sched, hs.sched]
    rfl
  · rw [IpcWorld.port, hs.ports]
    rfl

/-- A message more, and at most one receiver more that has been woken for it. -/
theorem SpareInv.sent (hI : IpcInv created w) (hw : SpareInv w) {s : Ipc}
    (hs : KmsgOnly w.ipc s) {port m : Word} (hlt : (w.port port).msgCount.toNat < ipcPortQueueMax) :
    SpareInv { w with ipc := s.enqueued port m } := by
  have hsched := hs.enqueued_sched port m
  have hwoken (t p : Word) (hb : IpcWorld.WokenOn { w with ipc := s.enqueued port m } t p) :
      w.WokenOn t p ∨ (t = (w.port port).waitingThread ∧ p = port) := by
    obtain ⟨hst, wt, hwt, hp⟩ := hb
    rw [IpcWorld.sched, hsched] at hst
    rw [schedUnblock_state] at hst
    split_ifs at hst with ht
    · -- the waiter waits on this port, and on no other
      obtain ⟨_, wt', hwt', hp'⟩ := hI.slot port ht.1
      rw [← ht.2] at hwt'
      obtain rfl := Option.some.inj (hwt.symm.trans hwt')
      exact Or.inr ⟨ht.2, hp.symm.trans hp'⟩
    · exact Or.inl ⟨hst, wt, hwt, hp⟩
  intro p
  by_cases hp : p = port
  · have hsub : {t | IpcWorld.WokenOn { w with ipc := s.enqueued port m } t p} ⊆
        insert (w.port port).waitingThread {t | w.WokenOn t p} := by
      intro t ht
      rcases hwoken t p ht with hold | ⟨rfl, _⟩
      · exact Or.inr hold
      · exact Or.inl rfl
    have hcard := Set.ncard_le_ncard hsub ((hI.woken_finite p).insert _)
    have hins := Set.ncard_insert_le (w.port port).waitingThread {t | w.WokenOn t p}
    have hcount : (IpcWorld.port { w with ipc := s.enqueued port m } p).msgCount.toNat =
        (w.port p).msgCount.toNat+1 := by
      have hone : (1 : BitVec 32).toNat = 1 := rfl
      have hmax : ipcPortQueueMax = 32 := rfl
      change (Function.update s.ports port ((s.ports port).pushed m) p).msgCount.toNat = _
      rw [hp, Function.update_self, hs.ports, IpcPort.pushed, BitVec.toNat_add]
      change ((w.port port).msgCount.toNat+(1 : BitVec 32).toNat)%2^32 = _
      omega
    have := hw p
    omega
  · have hsub : {t | IpcWorld.WokenOn { w with ipc := s.enqueued port m } t p} ⊆
        {t | w.WokenOn t p} := by
      intro t ht
      rcases hwoken t p ht with hold | ⟨_, hpp⟩
      · exact hold
      · exact absurd hpp hp
    have hcard := Set.ncard_le_ncard hsub (hI.woken_finite p)
    have hcount : (IpcWorld.port { w with ipc := s.enqueued port m } p).msgCount =
        (w.port p).msgCount := by
      change (Function.update s.ports port ((s.ports port).pushed m) p).msgCount = _
      rw [Function.update_of_ne hp, hs.ports]
      rfl
    rw [hcount]
    exact hcard.trans (hw p)

/-- The count of the port that a message is taken from, and of every other. -/
theorem IpcInv.taken_count (hI : IpcInv created w) {port msg n m : Word} {rest : List Word}
    {kr : KernReturn} {size' : Option Word} {s : Ipc} (hq : (w.port port).queue = m :: rest)
    (he : w.ipc.taken port msg n m = (kr, size', s)) :
    (s.ports port).queue = rest ∧ (s.ports port).msgCount.toNat+1 = (w.port port).msgCount.toNat ∧
      ∀ p, p ≠ port → (s.ports p).msgCount = (w.port p).msgCount := by
  obtain ⟨_, hports, _⟩ := taken_spec he
  obtain ⟨_, hok, hrest⟩ := (hI.ok port).pop hq
  have hlen := (hI.ok port).length
  rw [hq, List.length_cons] at hlen
  have hport : s.ports port = (w.port port).popped := by
    rw [hports, Function.update_self]
    rfl
  refine ⟨hport ▸ hrest, ?_, fun p hp => ?_⟩
  · rw [hport, ← hok.length, hrest, hlen]
  · rw [hports, Function.update_of_ne hp]
    rfl

/-- A thread that runs after it has waited for a message has been woken. -/
theorem IpcInv.current_woken (hI : IpcInv created w) {wt : Wait}
    (hn : w.waits w.current = some wt) : w.WokenOn w.current wt.port := by
  refine ⟨?_, wt, hn, rfl⟩
  rw [hI.current.2]
  decide

/-- A receiver that goes on after it has waited finds a message. -/
theorem SpareInv.not_empty (hw : SpareInv w) (hI : IpcInv created w) {wt : Wait}
    (hn : w.waits w.current = some wt) : (w.port wt.port).msgCount ≠ 0 := by
  intro hc
  have hmem : w.current ∈ {t | w.WokenOn t wt.port} := hI.current_woken hn
  have hpos := (Set.ncard_pos (hI.woken_finite wt.port)).mpr ⟨_, hmem⟩
  have hle := hw wt.port
  rw [hc] at hle
  exact absurd (hpos.trans_le hle) (by decide)

/-- A message less, of a port that a receiver finds to spare. -/
theorem SpareInv.took (hI : IpcInv created w) (hw : SpareInv w) {port msg n m : Word}
    {rest : List Word} {kr : KernReturn} {size' : Option Word} {s : Ipc}
    (hq : (w.port port).queue = m :: rest) (he : w.ipc.taken port msg n m = (kr, size', s))
    (hlt : {t | w.WokenOn t port}.ncard < (w.port port).msgCount.toNat) :
    SpareInv { w with ipc := s } := by
  obtain ⟨_, hcount, hother⟩ := hI.taken_count hq he
  have hset (p : Word) : {t | IpcWorld.WokenOn { w with ipc := s } t p} = {t | w.WokenOn t p} := by
    refine Set.ext fun t => ?_
    rw [Set.mem_ofPred_eq, IpcWorld.WokenOn, IpcWorld.sched, (taken_spec he).1]
    rfl
  intro p
  rw [hset]
  by_cases hpp : p = port
  · change _ ≤ (s.ports p).msgCount.toNat
    rw [hpp]
    omega
  · change _ ≤ (s.ports p).msgCount.toNat
    rw [hother p hpp]
    exact hw p

/-- A thread that blocks is not among those that have been woken. -/
theorem SpareInv.blocked (hI : IpcInv created w) (hw : SpareInv w) {msg port n : Word}
    (hn : w.waits w.current = none) (ht : currentTask w.ipc ≠ taskNull) :
    SpareInv ⟨w.ipc.waitOn port, Function.update w.waits w.current (some ⟨port, msg, some n⟩)⟩ := by
  obtain ⟨qs, hqs, _, _⟩ := hI.block_current (hI.current_ne_idle ht)
  have hst := (schedBlock_spec w.sched hI.current_ne_null).1
  refine hw.of_woken (fun t p => ?_) fun p => ?_
  · have hblk : (schedRun (schedBlock w.sched w.current)).2.state t = .blocked ↔
        Function.update w.sched.state w.current .blocked t = .blocked := by
      rw [← hst]
      exact schedRun_blocked hqs t
    change ¬ (schedRun (schedBlock w.sched w.current)).2.state t = .blocked ∧
      (∃ wt, Function.update w.waits w.current _ t = some wt ∧ wt.port = p) ↔ _
    rw [hblk]
    by_cases htc : t = w.current
    · rw [htc, Function.update_self, Function.update_self]
      refine iff_of_false (fun hf => hf.1 rfl) fun hf => ?_
      obtain ⟨_, wt, hwt, _⟩ := hf
      rw [hn] at hwt
      cases hwt
    · rw [Function.update_of_ne htc, Function.update_of_ne htc]
      rfl
  · change (Function.update w.ipc.ports port _ p).msgCount = _
    by_cases hpp : p = port
    · rw [hpp, Function.update_self]
      rfl
    · rw [Function.update_of_ne hpp]
      rfl

/-- A message less, and the receiver that it woke. -/
theorem SpareInv.resumed (hI : IpcInv created w) (hw : SpareInv w) {wt : Wait} {n m : Word}
    {rest : List Word} {kr : KernReturn} {size' : Option Word} {s : Ipc}
    (hn : w.waits w.current = some wt) (hq : (w.port wt.port).queue = m :: rest)
    (he : w.ipc.taken wt.port wt.msg n m = (kr, size', s)) :
    SpareInv ⟨s, Function.update w.waits w.current none⟩ := by
  obtain ⟨_, hcount, hother⟩ := hI.taken_count hq he
  have hset (p : Word) : {t | IpcWorld.WokenOn
      ⟨s, Function.update w.waits w.current none⟩ t p} = {t | w.WokenOn t p} \ {w.current} := by
    refine Set.ext fun t => ?_
    change (s.kern.sched.state t ≠ .blocked ∧ ∃ wt', Function.update w.waits w.current none t =
      some wt' ∧ wt'.port = p) ↔ w.WokenOn t p ∧ t ≠ w.current
    rw [(taken_spec he).1]
    by_cases htc : t = w.current
    · rw [htc, Function.update_self]
      exact iff_of_false (fun hf => by obtain ⟨_, _, hwt, _⟩ := hf; cases hwt) fun hf => hf.2 rfl
    · rw [Function.update_of_ne htc]
      exact ⟨fun hf => ⟨hf, htc⟩, And.left⟩
  intro p
  rw [hset]
  change _ ≤ (s.ports p).msgCount.toNat
  by_cases hpp : p = wt.port
  · have hmem : w.current ∈ {t | w.WokenOn t p} := hpp ▸ hI.current_woken hn
    have hcard := Set.ncard_sdiff_singleton_add_one hmem (hI.woken_finite p)
    have hle := hw p
    rw [hpp] at hcard hle ⊢
    omega
  · rw [hother p hpp]
    exact (Set.ncard_le_ncard Set.sdiff_subset (hI.woken_finite p)).trans (hw p)

theorem SpareInv.step (hI : IpcInv created w) (hw : SpareInv w) (hs : IpcStep h w op w')
    (hm : op.Messaging) (hsafe : TakesSpare w op) : SpareInv w' := by
  cases hI.move hs with
  | yield =>
    obtain ⟨qs, hqs⟩ := hI.sched
    refine hw.of_woken (fun t p => ?_) fun p => rfl
    exact and_congr_left fun _ => not_congr (schedRun_blocked hqs t)
  | refused hop => exact hw
  | @noKmsg msg size s ha =>
    have honly := ipcKmsgAlloc_kmsgOnly ha
    exact hw.of_kmsgOnly honly
  | @full msg size port m s ha hm0 =>
    exact hw.of_kmsgOnly (KmsgOnly.full ha _)
  | @sent msg size port m s hl hp hsize ha hm0 hlt =>
    have honly := ipcKmsgAlloc_kmsgOnly ha
    exact hw.sent hI (honly.trans (KmsgOnly.setKmsg s m _)) hlt
  | @took msg port n m rest kr size' s hl hp hmsg hq he =>
    have hrec : w.receivesOn msg (some n) = some port := by
      rw [IpcWorld.receivesOn, if_neg (by simpa using hmsg), hl]
    have hlt := hsafe port hrec (by
      intro hz
      rw [(hI.ok port).queue_eq_nil_iff.mpr hz] at hq
      cases hq)
    exact hw.took hI hq he hlt
  | @blocked msg port n hl hp hn hmsg hc ht => exact hw.blocked hI hn ht
  | @empty wt hn hc => exact absurd hc (hw.not_empty hI hn)
  | @resumed wt n m rest kr size' s hn hsize hq he => exact hw.resumed hI hn hq he
  | removed hl hp => exact hm.elim
  | released hp => exact hm.elim
  | user m => exact hw.of_woken (fun t p => Iff.rfl) fun p => rfl

theorem SpareInv.succeeds (hI : IpcInv created w) (hw : SpareInv w) (hs : IpcStep h w op w') :
    ReceiveSucceeds w op w' := by
  cases hI.move hs with
  | yield => trivial
  | @refused op hop =>
    cases op with
    | receive msg size r =>
      obtain ⟨size', rfl⟩ := hop
      intro size hr
      cases hr
    | resume kr size => exact hop.elim
    | yield => trivial
    | send msg size kr => trivial
    | remove space name => trivial
    | release p => trivial
    | user => trivial
  | noKmsg ha => trivial
  | full ha hm => trivial
  | sent hl hp hsize ha hm hlt => trivial
  | took hl hp hmsg hq he =>
    intro size hr
    have hkr := (taken_spec he).2.2.2.2.2.2
    cases hr
    exact hkr rfl
  | blocked hl hp hn hmsg hc ht =>
    intro size hr
    cases hr
  | @empty wt hn hc => exact absurd hc (hw.not_empty hI hn)
  | @resumed wt n m rest kr size' s hn hsize hq he =>
    refine ⟨(taken_spec he).2.2.2.2.2.2, wt, m, hn, ?_⟩
    rw [hq]
    exact congrArg (m :: ·) (hI.taken_count hq he).1.symm
  | removed hl hp => trivial
  | released hp => trivial
  | user m => trivial

/-- A run in which each receive that finds messages leaves enough of them for the receivers
woken before it: no receive ever fails for want of a message. -/
theorem ipc_run_receive_succeeds (h : Hhdm) (created : List Word) (w₀ w : IpcWorld)
    (ops : List IpcOp) (hb : IpcBoot h w₀ created)
    (hr : Run (fun w op w' => IpcStep h w op w' ∧ op.Messaging ∧ TakesSpare w op) w₀ ops w) :
    ∀ op w', IpcStep h w op w' → ReceiveSucceeds w op w' := by
  have hinv : IpcInv created w ∧ SpareInv w := by
    refine hr.inv (I := fun w => IpcInv created w ∧ SpareInv w)
      (fun w op w' hs hI => ⟨hI.1.step hs.1, hI.2.step hI.1 hs.1 hs.2.1 hs.2.2⟩)
      ⟨hb.inv, fun p => ?_⟩
    have hnone : {t | w₀.WokenOn t p} = ∅ := by
      refine Set.eq_empty_of_forall_notMem ?_
      rintro t ⟨_, wt, hwt, _⟩
      rw [hb.waits] at hwt
      cases hwt
    rw [hnone, Set.ncard_empty]
    exact Nat.zero_le _
  exact fun op w' hs => hinv.2.succeeds hinv.1 hs

end Step

/-- One receiver waits and is woken: whatever runs next, no receive fails. -/
theorem ipc_run_receive_succeeds_woken : ∃ w, Run (fun w op w' => IpcStep higherHalf w op w' ∧
    op.Messaging ∧ TakesSpare w op) ipcStart
    [.receive 0x100 (some 512) (.blocked 0x30), .send 0x100 48 .success] w ∧
      w.WokenOn 0x1000 0x30 ∧ ∀ op w', IpcStep higherHalf w op w' → ReceiveSucceeds w op w' := by
  have h1 : TakesSpare ipcStart (.receive 0x100 (some 512) (.blocked 0x30)) :=
    fun p _ hc => absurd rfl hc
  have hr : Run (fun w op w' => IpcStep higherHalf w op w' ∧ op.Messaging ∧ TakesSpare w op)
      ipcStart _ _ :=
    (Run.start.snoc ⟨ipcOneWaits_step, trivial, h1⟩).snoc ⟨ipcOneWoken_step, trivial, trivial⟩
  refine ⟨_, hr, ⟨by decide +kernel, ⟨0x30, 0x100, some 512⟩, by decide +kernel, rfl⟩, ?_⟩
  exact ipc_run_receive_succeeds higherHalf _ _ _ _ ipcStart_boot hr

def IpcWorld.yielded (w : IpcWorld) : IpcWorld :=
  { w with ipc := { w.ipc with kern := { w.ipc.kern with sched := (threadYield w.sched).2 } } }

/-- The woken receiver's message has been taken by the thread that sent it. -/
def ipcTaken : IpcWorld :=
  { ipcOneWoken with ipc := (machMsgReceive ipcOneWoken.ipc 0x100 (some 512)).2 }

/-- Before the woken receiver runs, the sender takes its own message back: the receiver
resumes with `KERN_FAILURE`. -/
theorem ipc_woken_receive_fails : ∃ w w', Run (IpcStep higherHalf) ipcStart
    [.receive 0x100 (some 512) (.blocked 0x30), .send 0x100 48 .success,
      .receive 0x100 (some 512) (.done .success (some 48)), .yield, .yield, .yield] w ∧
    IpcStep higherHalf w (.resume .failure (some 512)) w' ∧
    ¬ ReceiveSucceeds w (.resume .failure (some 512)) w' := by
  have h3 : IpcStep higherHalf ipcOneWoken
      (.receive 0x100 (some 512) (.done .success (some 48))) ipcTaken :=
    .receive ipcOneWoken (by decide +kernel) (Prod.ext (by decide +kernel) rfl)
  have h4 : IpcStep higherHalf ipcTaken .yield ipcTaken.yielded := .yield _ (by decide +kernel)
  have h5 : IpcStep higherHalf ipcTaken.yielded .yield ipcTaken.yielded.yielded :=
    .yield _ (by decide +kernel)
  have h6 : IpcStep higherHalf ipcTaken.yielded.yielded .yield ipcTaken.yielded.yielded.yielded :=
    .yield _ (by decide +kernel)
  have hw : ipcTaken.yielded.yielded.yielded.waits ipcTaken.yielded.yielded.yielded.current =
      some ⟨0x30, 0x100, some 512⟩ := by decide +kernel
  have h7 : IpcStep higherHalf ipcTaken.yielded.yielded.yielded (.resume .failure (some 512)) _ :=
    .resume _ hw (by
      rw [machMsgReceiveResume, if_pos (by decide +kernel)])
  exact ⟨_, _, (((((Run.start.snoc ipcOneWaits_step).snoc ipcOneWoken_step).snoc h3).snoc h4).snoc
    h5).snoc h6, h7, fun hs => hs.1 rfl⟩

end Dana
