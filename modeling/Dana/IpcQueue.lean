import Dana.IpcInv

/-! The message queue of a port as a bounded queue, whatever else runs between the calls. -/
namespace Dana
open ByteMem Sched RingBuffer Transition

/-- A call of `ipc_port_enqueue` or `ipc_port_dequeue` with its result, or other code. -/
inductive QueueCall
  | enqueue (kmsg : Word) (kr : KernReturn)
  | dequeue (kmsg : Word)
  | other

/-- Code between the calls may do anything but write the queue of the port. -/
inductive QueueStep (port : Word) : Ipc → QueueCall → Ipc → Prop
  | enqueue (s : Ipc) {kmsg : Word} {kr : KernReturn} {s' : Ipc}
    (he : ipcPortEnqueue s port kmsg = (kr, s')) : QueueStep port s (.enqueue kmsg kr) s'
  | dequeue (s : Ipc) {kmsg : Word} {s' : Ipc} (hd : ipcPortDequeue s port = (kmsg, s')) :
    QueueStep port s (.dequeue kmsg) s'
  | other {s s' : Ipc}
    (hsame : ∃ t ref waiter, s'.ports port = { s.ports port with
      ipType := t, refCount := ref, waitingThread := waiter }) :
    QueueStep port s .other s'

/-- What a call asks of the bounded queue; a call without a kmsg asks nothing. -/
def QueueCall.op : QueueCall → Option (FifoOp Word)
  | .enqueue kmsg kr => if kmsg = ipcKmsgNull then none else some (.push kmsg (kr = .success))
  | .dequeue kmsg => some (.pop (if kmsg = ipcKmsgNull then none else some kmsg))
  | .other => none

/-- The slots, the indices and the count of a port stand for the queue `q`. -/
structure PortHolds (v : IpcPort) (q : Fifo Word ipcPortQueueMax) : Prop where
  ok : v.Ok
  queue : v.queue = q.items
  kmsgs : ∀ m ∈ q.items, m ≠ ipcKmsgNull
  blank : Blank ipcPortQueueMax v.messages v.msgFirst.toNat v.msgCount.toNat ipcKmsgNull

section Holds
variable {v : IpcPort} {q : Fifo Word ipcPortQueueMax}

theorem PortHolds.count (hv : PortHolds v q) : v.msgCount.toNat = q.items.length := by
  rw [← hv.ok.length, hv.queue]

theorem PortHolds.fresh (t : IpcPortType) (ref : BitVec 32) :
    PortHolds { IpcPort.zero with ipType := t, refCount := ref } Fifo.empty := by
  have hf : (0 : ℕ) < ipcPortQueueMax := by decide
  refine ⟨.of_holds (Holds.nil hf), rfl, fun m hm => ?_, fun _ _ _ => rfl⟩
  exact absurd hm (List.not_mem_nil)

theorem PortHolds.push (hv : PortHolds v q) {kmsg : Word} (hm : kmsg ≠ ipcKmsgNull)
    (hlt : v.msgCount.toNat < ipcPortQueueMax) :
    ∃ q' : Fifo Word ipcPortQueueMax, q'.items = q.items ++ [kmsg] ∧ PortHolds (v.pushed kmsg) q' := by
  obtain ⟨hok, hq⟩ := hv.ok.push hlt kmsg
  rw [hv.queue] at hq
  have hlen : (q.items ++ [kmsg]).length ≤ ipcPortQueueMax := by
    rw [List.length_append, List.length_singleton, ← hv.count]
    exact hlt
  refine ⟨⟨_, hlen⟩, rfl, hok, hq, fun m hmem => ?_, ?_⟩
  · rw [List.mem_append, List.mem_singleton] at hmem
    rcases hmem with hmem | rfl
    · exact hv.kmsgs m hmem
    · exact hm
  · have hcount : (v.pushed kmsg).msgCount.toNat = v.msgCount.toNat+1 := by
      rw [← hok.length, hq, List.length_append, List.length_singleton, hv.count]
    rw [hcount]
    exact hv.blank.push hv.ok kmsg

theorem PortHolds.pop (hv : PortHolds v q) {m : Word} {rest : List Word}
    (hq : q.items = m :: rest) :
    ∃ q' : Fifo Word ipcPortQueueMax, q.items = m :: q'.items ∧ PortHolds v.popped q' := by
  obtain ⟨_, hok, hrest⟩ := hv.ok.pop (hv.queue.trans hq)
  have hlen : rest.length ≤ ipcPortQueueMax := by
    have := q.length_le
    rw [hq, List.length_cons] at this
    omega
  refine ⟨⟨rest, hlen⟩, hq, hok, hrest, fun x hx => hv.kmsgs x (by simp [hq, hx]), ?_⟩
  have hcount : v.popped.msgCount.toNat = v.msgCount.toNat-1 := by
    rw [← hok.length, hrest, hv.count, hq, List.length_cons, Nat.add_sub_cancel]
  have hfirst : v.popped.msgFirst.toNat = (v.msgFirst.toNat+1)%ipcPortQueueMax := by
    have hlt : v.msgFirst.toNat < 32 := hv.ok.first_lt
    have hone : (v.msgFirst+1 : BitVec 32).toNat = v.msgFirst.toNat+1 := by
      bv_omega
    rw [IpcPort.popped, BitVec.toNat_umod, hone]
    rfl
  rw [hcount, hfirst]
  exact hv.blank.pop hv.ok.first_lt

end Holds

section Calls
variable {s s' : Ipc} {port kmsg : Word} {q : Fifo Word ipcPortQueueMax}

theorem ipcPortAlloc_fresh {h : Hhdm} {kr : KernReturn}
    (ha : ipcPortAlloc h s = (kr, some port, s')) :
    port ≠ ipcPortNull ∧ PortHolds (s'.ports port) Fifo.empty := by
  obtain ⟨z, s1, hz⟩ : ∃ z s1, getIpcPortZone s = (z, s1) := ⟨_, _, rfl⟩
  rw [ipcPortAlloc, hz] at ha
  cases z with
  | none => simp at ha
  | some z =>
    obtain ⟨e, s2, he⟩ : ∃ e s2, s1.zalloc h z = (e, s2) := ⟨_, _, rfl⟩
    simp only [he] at ha
    split_ifs at ha with h0
    · cases ha
    · cases ha
      refine ⟨h0, ?_⟩
      have hself : (s2.setPort port { IpcPort.zero with ipType := .receive, refCount := 1 }).ports
          port = { IpcPort.zero with ipType := .receive, refCount := 1 } := Function.update_self ..
      change PortHolds ((s2.setPort port _).ports port) _
      rw [hself]
      exact PortHolds.fresh _ _

/-- With 32 messages queued a call changes nothing at all; otherwise the kmsg is the last. -/
theorem PortHolds.enqueue (hv : PortHolds (s.ports port) q) (hp : port ≠ ipcPortNull)
    (hm : kmsg ≠ ipcKmsgNull) :
    (q.items.length = ipcPortQueueMax ∧ ipcPortEnqueue s port kmsg = (.noSpace, s)) ∨
    (q.items.length < ipcPortQueueMax ∧
      ipcPortEnqueue s port kmsg = (.success, s.enqueued port kmsg) ∧
      ∃ q' : Fifo Word ipcPortQueueMax, q'.items = q.items ++ [kmsg] ∧
        PortHolds ((s.enqueued port kmsg).ports port) q') := by
  rw [ipcPortEnqueue_cases hp hm]
  have hcount := hv.count
  have hle := q.length_le
  by_cases hfull : ipcPortQueueMax ≤ (s.ports port).msgCount.toNat
  · rw [if_pos hfull]
    exact Or.inl ⟨by omega, rfl⟩
  · rw [if_neg hfull]
    have hself : (s.enqueued port kmsg).ports port = (s.ports port).pushed kmsg :=
      Function.update_self ..
    rw [hself]
    exact Or.inr ⟨by omega, rfl, hv.push hm (by omega)⟩

theorem PortHolds.dequeue (hv : PortHolds (s.ports port) q) (hp : port ≠ ipcPortNull) :
    (q.items = [] ∧ ipcPortDequeue s port = (ipcKmsgNull, s)) ∨
    ∃ (m : Word) (q' : Fifo Word ipcPortQueueMax), q.items = m :: q'.items ∧ m ≠ ipcKmsgNull ∧
      ipcPortDequeue s port = (m, s.dequeued port) ∧
      PortHolds ((s.dequeued port).ports port) q' := by
  cases hq : q.items with
  | nil =>
    have hc : (s.ports port).msgCount = 0 := by
      rw [← hv.ok.queue_eq_nil_iff, hv.queue, hq]
    left
    rw [ipcPortDequeue, if_pos (Or.inr hc)]
    exact ⟨rfl, rfl⟩
  | cons m rest =>
    obtain ⟨q', hq', hv'⟩ := hv.pop hq
    have hself : (s.dequeued port).ports port = (s.ports port).popped := Function.update_self ..
    right
    refine ⟨m, q', hq ▸ hq', hv.kmsgs m (by simp [hq]), ?_, hself ▸ hv'⟩
    exact ipcPortDequeue_cons hp hv.ok (hv.queue.trans hq)

/-- Each call is matched by the bounded queue, with the same result. -/
theorem PortHolds.step (hp : port ≠ ipcPortNull) {c : QueueCall} (hs : QueueStep port s c s')
    (hv : PortHolds (s.ports port) q) :
    ∃ q', q.Answers c.op q' ∧ PortHolds (s'.ports port) q' := by
  cases hs with
  | @enqueue m kr _ he =>
    by_cases hm : m = ipcKmsgNull
    · rw [ipcPortEnqueue, if_pos (Or.inr hm)] at he
      cases he
      exact ⟨q, by simp [QueueCall.op, Fifo.Answers, hm], hv⟩
    · rcases hv.enqueue hp hm with ⟨hlen, heq⟩ | ⟨_, heq, q', hq', hv'⟩
      · cases heq.symm.trans he
        exact ⟨q, by simpa [QueueCall.op, Fifo.Answers, hm] using Fifo.Step.full m hlen, hv⟩
      · cases heq.symm.trans he
        exact ⟨q', by simpa [QueueCall.op, Fifo.Answers, hm] using Fifo.Step.push hq', hv'⟩
  | @dequeue m' _ hd =>
    rcases hv.dequeue hp with ⟨hq, heq⟩ | ⟨m, q', hq', hm, heq, hv'⟩
    · cases heq.symm.trans hd
      exact ⟨q, by simpa [QueueCall.op, Fifo.Answers] using Fifo.Step.empty hq, hv⟩
    · cases heq.symm.trans hd
      exact ⟨q', by simpa [QueueCall.op, Fifo.Answers, hm] using Fifo.Step.pop hq', hv'⟩
  | other hsame =>
    obtain ⟨t, ref, waiter, hsame⟩ := hsame
    refine ⟨q, rfl, ?_⟩
    rw [hsame]
    exact ⟨hv.ok, hv.queue, hv.kmsgs, hv.blank⟩

end Calls

theorem queue_run_holds {s s' : Ipc} {port : Word} {calls : List QueueCall}
    (hp : port ≠ ipcPortNull) (hr : Run (QueueStep port) s calls s')
    (hv : PortHolds (s.ports port) Fifo.empty) :
    ∃ q, Run Fifo.Step Fifo.empty (calls.filterMap QueueCall.op) q ∧ PortHolds (s'.ports port) q := by
  refine hr.simulates_seen (R := fun s q => PortHolds (s.ports port) q) ?_ hv
  intro s c s' q hs hv
  obtain ⟨q', hstep, hv'⟩ := hv.step hp hs
  refine ⟨q', fun op hop => ?_, fun hop => ?_, hv'⟩
  · rw [hop] at hstep
    exact hstep
  · rw [hop] at hstep
    exact hstep

/-- After any calls on a port from `ipc_port_alloc`, all of whose results are those of a queue
of at most 32 messages: what was taken in is what was given out followed by what is queued,
the indices and the count agree, no other slot is in use, and so are the results of the
next call. -/
theorem port_run_fifo {h : Hhdm} {s₀ s s' : Ipc} {port : Word} {kr : KernReturn}
    {calls : List QueueCall} (ha : ipcPortAlloc h s₀ = (kr, some port, s))
    (hr : Run (QueueStep port) s calls s') :
    ∃ q : Fifo Word ipcPortQueueMax,
      Run Fifo.Step Fifo.empty (calls.filterMap QueueCall.op) q ∧
      (calls.filterMap QueueCall.op).filterMap FifoOp.taken =
        (calls.filterMap QueueCall.op).filterMap FifoOp.given ++ q.items ∧
      (s'.ports port).queue = q.items ∧ (s'.ports port).msgCount.toNat = q.items.length ∧
      (s'.ports port).msgLast.toNat =
        ((s'.ports port).msgFirst.toNat+(s'.ports port).msgCount.toNat)%ipcPortQueueMax ∧
      (∀ j, j < ipcPortQueueMax →
        (∀ i, i < (s'.ports port).msgCount.toNat →
          j ≠ ((s'.ports port).msgFirst.toNat+i)%ipcPortQueueMax) →
        (s'.ports port).messages j = ipcKmsgNull) ∧
      (∀ kmsg, kmsg ≠ ipcKmsgNull →
        ((ipcPortEnqueue s' port kmsg).1 = .noSpace ↔ q.items.length = ipcPortQueueMax) ∧
        (q.items.length = ipcPortQueueMax → (ipcPortEnqueue s' port kmsg).2 = s') ∧
        (q.items.length ≠ ipcPortQueueMax → (ipcPortEnqueue s' port kmsg).1 = .success ∧
          ((ipcPortEnqueue s' port kmsg).2.ports port).queue = q.items ++ [kmsg])) ∧
      (ipcPortDequeue s' port).1 = q.items.head?.getD ipcKmsgNull ∧
      ((ipcPortDequeue s' port).2.ports port).queue = q.items.tail := by
  obtain ⟨hp, hv₀⟩ := ipcPortAlloc_fresh ha
  obtain ⟨q, hq, hv⟩ := queue_run_holds hp hr hv₀
  have hlast : (s'.ports port).msgLast.toNat =
      ((s'.ports port).msgFirst.toNat+(s'.ports port).msgCount.toNat)%ipcPortQueueMax := by
    rw [← hv.ok.length]
    exact hv.ok.last_eq
  refine ⟨q, hq, Fifo.run_order hq, hv.queue, hv.count, hlast, hv.blank, fun kmsg hm => ?_, ?_⟩
  · rcases hv.enqueue hp hm with ⟨hlen, heq⟩ | ⟨hlt, heq, q', hq', hv'⟩
    · rw [heq]
      exact ⟨by simp [hlen], fun _ => rfl, fun hne => absurd hlen hne⟩
    · have hne := Nat.ne_of_lt hlt
      rw [heq]
      exact ⟨by simp [hne], fun he => absurd he hne, fun _ => ⟨rfl, hv'.queue.trans hq'⟩⟩
  · rcases hv.dequeue hp with ⟨hnil, heq⟩ | ⟨m, q', hcons, _, heq, hv'⟩
    · rw [heq, hnil]
      exact ⟨rfl, hv.queue.trans hnil⟩
    · rw [heq, hcons]
      exact ⟨rfl, hv'.queue⟩

/-- A zone of ports with one element, which the next `ipc_port_alloc` takes. -/
def ipcSpare : Ipc :=
  { ipcStart.ipc with kern := { ipcStart.ipc.kern with
      zoneStore := ⟨fun _ => ⟨312, 0, 0x1000, 0xffff800000300000, 1, 0⟩, 1⟩ } }

/-- A message goes through the new port, and its queue is empty again. -/
theorem port_run_fifo_once : ∃ s s' calls,
    ipcPortAlloc higherHalf ipcSpare = (.success, some 0xffff800000300000, s) ∧
    Run (QueueStep 0xffff800000300000) s calls s' ∧
    calls = [.enqueue 0x5000 .success, .dequeue 0x5000] ∧
    (s'.ports 0xffff800000300000).queue = [] := by
  obtain ⟨s, hs⟩ : ∃ s, s = (ipcPortAlloc higherHalf ipcSpare).2.2 := ⟨_, rfl⟩
  have ha : ipcPortAlloc higherHalf ipcSpare = (.success, some 0xffff800000300000, s) := by
    rw [hs]
    rfl
  obtain ⟨q, _, horder, _, _, _, _, henq, _⟩ := port_run_fifo ha Run.start
  have hnil : q.items = [] := horder.symm
  rw [hnil] at henq
  obtain ⟨hsuccess, hone⟩ := (henq 0x5000 (by decide)).2.2 (by decide)
  have hr : Run (QueueStep 0xffff800000300000) s [.enqueue 0x5000 .success] _ :=
    Run.start.snoc (.enqueue s (Prod.ext hsuccess rfl))
  obtain ⟨q', _, _, hqueue, _, _, _, _, hdeq, htail⟩ := port_run_fifo ha hr
  have hitems : q'.items = [0x5000] := hqueue.symm.trans hone
  rw [hitems] at hdeq htail
  exact ⟨_, _, _, ha, hr.snoc (.dequeue _ (Prod.ext hdeq rfl)), rfl, htail⟩

end Dana
