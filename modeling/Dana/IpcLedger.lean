import Dana.Mailbox
import Dana.IpcOwnership

/-! What becomes of each message: ports as mailboxes of byte strings, and the ledger of
every run in which receivers bring large enough buffers. -/
namespace Dana
open ByteMem Sched Transition Mailbox

/-- The message as its sender laid it out. -/
def IpcKmsg.bytes (k : IpcKmsg) : List Byte :=
  ByteMem.bytes k.header 0 sizeofMachMsgHeader ++ ByteMem.bytes k.data 0 (k.size-sizeofMachMsgHeader)

/-- The messages queued in a port, as bytes. -/
def IpcWorld.mail (w : IpcWorld) (p : Word) : List (List Byte) :=
  (w.port p).queue.map fun m => (w.ipc.kmsgs m).bytes

/-- What a step did to the messages: `mach_msg_send` took one from its caller's buffer,
`mach_msg_receive` left one in its caller's buffer, or the last reference of a port went. -/
def IpcWorld.event (w : IpcWorld) (op : IpcOp) (w' : IpcWorld) : Option (Event Word (List Byte)) :=
  match op with
  | .send msg size .success =>
    (w.lookup (load64 w.ipc.user (msg+msghRemotePort))).map fun p =>
      .sent p (bytes w.ipc.user msg size)
  | .receive msg size (.done .success (some n)) =>
    (w.receivesOn msg size).map fun p => .received p (bytes w'.ipc.user msg n)
  | .resume .success (some n) =>
    (w.waits w.current).map fun wt => .received wt.port (bytes w'.ipc.user wt.msg n)
  | op => (op.releases w).bind fun p => if (w.port p).refCount = 1 then some (.closed p) else none

/-- A receive that finds a message at the head of its queue has room for it. -/
def FitsFirst (w : IpcWorld) : IpcOp → Prop
  | .receive msg size _ => ∀ p n m, w.receivesOn msg size = some p → size = some n →
    (w.port p).queue.head? = some m → ¬ n < (w.ipc.kmsgs m).size
  | .resume _ _ => ∀ wt n m, w.waits w.current = some wt → wt.size = some n →
    (w.port wt.port).queue.head? = some m → ¬ n < (w.ipc.kmsgs m).size
  | _ => True

/-- Queued messages have a header, and fit the elements of their zone. -/
def MailSizes (w : IpcWorld) : Prop :=
  ∀ p, ∀ m ∈ (w.port p).queue,
    ¬ (w.ipc.kmsgs m).size < sizeofMachMsgHeader ∧ ¬ kmsgZoneSize < (w.ipc.kmsgs m).size

theorem filledKmsg_bytes (s : Ipc) {msg size port : Word} (h1 : ¬ size < sizeofMachMsgHeader)
    (h2 : ¬ kmsgZoneSize < size) : (filledKmsg s msg size port).bytes = bytes s.user msg size := by
  have h48 : sizeofMachMsgHeader = 48 := rfl
  have h512 : kmsgZoneSize = 512 := rfl
  rw [h48] at h1
  rw [h512] at h2
  have hsplit : bytes s.user msg size =
      bytes s.user msg 48 ++ bytes s.user (msg+48) (size-48) := by
    rw [← bytes_add _ _ _ _ (by bv_omega)]
    congr 1
    bv_omega
  rw [hsplit, IpcKmsg.bytes, filledKmsg, h48]
  simp only [bytes_copy_same]
  by_cases hd : 0 < size-48
  · simp only [hd, ↓reduceIte, bytes_copy_same]
  · have h0 : size-48 = 0 := by bv_omega
    simp only [h0]
    rfl

/-- The buffer holds the whole message after `ipc_kmsg_copyout`. -/
theorem delivered_bytes (user : Mem) (msg : Word) {k : IpcKmsg}
    (h1 : ¬ k.size < sizeofMachMsgHeader) (h2 : ¬ kmsgZoneSize < k.size) :
    bytes (delivered user msg k) msg k.size = k.bytes := by
  have h48 : sizeofMachMsgHeader = 48 := rfl
  have h512 : kmsgZoneSize = 512 := rfl
  rw [h48] at h1
  rw [h512] at h2
  have hsplit : bytes (delivered user msg k) msg k.size =
      bytes (delivered user msg k) msg 48 ++ bytes (delivered user msg k) (msg+48) (k.size-48) := by
    rw [← bytes_add _ _ _ _ (by bv_omega)]
    congr 1
    bv_omega
  rw [hsplit, IpcKmsg.bytes, delivered, h48]
  by_cases hd : 0 < k.size-48
  · simp only [hd, ↓reduceIte, bytes_copy_same]
    rw [bytes_copy_apart _ _ _ _ _ _ _ (fun i hi => by bv_omega), bytes_copy_same]
  · have h0 : k.size-48 = 0 := by bv_omega
    rw [if_neg hd, bytes_copy_same, h0]
    rfl

section Step
variable {h : Hhdm} {k₀ : Kmem} {created ports : List Word} {w w' : IpcWorld} {op : IpcOp}

/-- Where no queue changes, nor what the queued kmsgs hold. -/
theorem mail_congr (hq : ∀ p, (w'.port p).queue = (w.port p).queue)
    (hk : ∀ p, ∀ m ∈ (w.port p).queue, w'.ipc.kmsgs m = w.ipc.kmsgs m) :
    w'.mail = w.mail ∧ (MailSizes w → MailSizes w') := by
  constructor
  · funext p
    rw [IpcWorld.mail, hq]
    exact List.map_congr_left fun m hm => congrArg _ (hk p m hm)
  · intro hw p m hm
    rw [hq] at hm
    rw [hk p m hm]
    exact hw p m hm

theorem mail_sent (hO : OwnInv h k₀ created ports w) (hS : MailSizes w)
    {msg size port m : Word} {s : Ipc} (hsize : ¬ size < sizeofMachMsgHeader)
    (ha : ipcKmsgAlloc h w.ipc size = (m, s)) (hm : m ≠ ipcKmsgNull)
    (hlt : (w.port port).msgCount.toNat < ipcPortQueueMax)
    (hw' : w' = { w with ipc := (s.setKmsg m (filledKmsg w.ipc msg size port)).enqueued port m }) :
    w'.mail = Function.update w.mail port (w.mail port ++ [bytes w.ipc.user msg size]) ∧
      MailSizes w' := by
  have hI := hO.inv
  have hK := hO.kmsg
  rcases hO.rules.alloc hK.zone ha with ⟨h0, _⟩ | ⟨_, hnew, _, hkmsgs, _, hmax⟩
  · exact absurd h0 hm
  have honly := ipcKmsgAlloc_kmsgOnly ha
  have hq (p : Word) : (w'.port p).queue =
      if p = port then (w.port port).queue ++ [m] else (w.port p).queue := by
    rw [hw']
    exact hI.enqueued_queue honly.ports hlt p
  have hself : w'.ipc.kmsgs m = filledKmsg w.ipc msg size port := by
    rw [hw']
    exact Function.update_self ..
  have hold (p x : Word) (hx : x ∈ (w.port p).queue) : w'.ipc.kmsgs x = w.ipc.kmsgs x := by
    have hne : x ≠ m := by
      rintro rfl
      exact hnew ((hK.queued x).mpr ⟨p, hx⟩)
    rw [hw', ← hkmsgs x hne]
    exact Function.update_of_ne hne _ _
  constructor
  · funext p
    rw [IpcWorld.mail, hq, Function.update_apply]
    split_ifs with hp
    · rw [List.map_append, List.map_singleton, hself, filledKmsg_bytes w.ipc hsize hmax]
      exact congrArg (· ++ _) (List.map_congr_left fun x hx => congrArg _ (hold port x hx))
    · exact List.map_congr_left fun x hx => congrArg _ (hold p x hx)
  · intro p x hx
    rw [hq] at hx
    split_ifs at hx
    · rw [List.mem_append, List.mem_singleton] at hx
      rcases hx with hx | rfl
      · rw [hold port x hx]
        exact hS port x hx
      · rw [hself]
        exact ⟨hsize, hmax⟩
    · rw [hold p x hx]
      exact hS p x hx

/-- A receive with room for its message takes that one, and leaves it in the buffer. -/
theorem mail_taken (hO : OwnInv h k₀ created ports w) (hS : MailSizes w)
    {msg n m port : Word} {rest : List Word} {kr : KernReturn} {size' : Option Word} {s : Ipc}
    (hq : (w.port port).queue = m :: rest) (he : w.ipc.taken port msg n m = (kr, size', s))
    (hfit : ¬ n < (w.ipc.kmsgs m).size) (waits : Word → Option Wait) :
    kr = .success ∧ size' = some (w.ipc.kmsgs m).size ∧
      bytes s.user msg (w.ipc.kmsgs m).size = (w.ipc.kmsgs m).bytes ∧
      w.mail port = (w.ipc.kmsgs m).bytes :: rest.map (fun x => (w.ipc.kmsgs x).bytes) ∧
      IpcWorld.mail ⟨s, waits⟩ =
        Function.update w.mail port (rest.map fun x => (w.ipc.kmsgs x).bytes) ∧
      MailSizes ⟨s, waits⟩ := by
  have hI := hO.inv
  obtain ⟨_, hk⟩ := hO.kmsg.taken hO.rules hI hq he waits
  have hq' (p : Word) : (IpcWorld.port ⟨s, waits⟩ p).queue =
      if p = port then rest else (w.port p).queue := hI.taken_queue hq he p
  have hres : kr = .success ∧ size' = some (w.ipc.kmsgs m).size ∧
      s.user = delivered w.ipc.user msg (w.ipc.kmsgs m) := by
    unfold Ipc.taken at he
    rw [if_neg hfit] at he
    cases he
    exact ⟨rfl, rfl, (ipcKmsgFree_only _ m).user⟩
  obtain ⟨hkr, hsz, huser⟩ := hres
  obtain ⟨h1, h2⟩ := hS port m (by rw [hq]; simp)
  refine ⟨hkr, hsz, ?_, ?_, ?_, fun p x hx => ?_⟩
  · rw [huser]
    exact delivered_bytes _ _ h1 h2
  · rw [IpcWorld.mail, hq]
    rfl
  · funext p
    rw [IpcWorld.mail, hq', Function.update_apply, hk]
    split_ifs <;> rfl
  · rw [hq'] at hx
    change ¬ (s.kmsgs x).size < _ ∧ ¬ _ < (s.kmsgs x).size
    rw [hk]
    split_ifs at hx
    · exact hS port x (by rw [hq]; simp [hx])
    · exact hS p x hx

theorem mail_released (hO : OwnInv h k₀ created ports w) (hS : MailSizes w)
    {port : Word} (hp : port ≠ ipcPortNull) (hmem : port ∈ ports) :
    IpcWorld.mail { w with ipc := ipcPortRelease w.ipc port } =
        (if (w.port port).refCount = 1 then Function.update w.mail port [] else w.mail) ∧
      MailSizes { w with ipc := ipcPortRelease w.ipc port } := by
  obtain ⟨_, hk, _⟩ := hO.kmsg.release_kmsgs hO.rules hO.inv hp hmem
  have hq := hO.inv.released_queue hp
  constructor
  · funext p
    change ((ipcPortRelease w.ipc port).ports p).queue.map
      (fun m => ((ipcPortRelease w.ipc port).kmsgs m).bytes) = _
    rw [hq, hk]
    split_ifs with h1 h2 h2
    · rw [h1.1, Function.update_self]
      rfl
    · exact absurd h1.2 h2
    · have hne : p ≠ port := fun he => h1 ⟨he, h2⟩
      rw [Function.update_of_ne hne]
      rfl
    · rfl
  · intro p m hm
    have hm' : m ∈ ((ipcPortRelease w.ipc port).ports p).queue := hm
    change ¬ ((ipcPortRelease w.ipc port).kmsgs m).size < _ ∧
      ¬ _ < ((ipcPortRelease w.ipc port).kmsgs m).size
    rw [hk]
    rw [hq] at hm'
    split_ifs at hm'
    · simp at hm'
    · exact hS p m hm'

/-- A call that is refused is no event. -/
theorem event_refused (hop : op.Refused w) : w.event op w' = none := by
  cases op with
  | send msg size kr =>
    cases kr with
    | success => exact absurd rfl hop
    | _ => rfl
  | receive msg size r =>
    obtain ⟨size', rfl⟩ := hop
    rfl
  | remove space name =>
    change Option.bind (ipcSpaceLookup w.ipc space name).2 _ = none
    rw [hop]
    rfl
  | _ => exact hop.elim

/-- Each step does to the mailboxes what its event says. -/
theorem mail_step (hO : OwnInv h k₀ created ports w) (hS : MailSizes w)
    (hs : IpcStep h w op w') (hfit : FitsFirst w op) :
    Step w.mail (w.event op w') w'.mail ∧ MailSizes w' := by
  have idle (hmail : w'.mail = w.mail ∧ (MailSizes w → MailSizes w'))
      (hev : w.event op w' = none) : Step w.mail (w.event op w') w'.mail ∧ MailSizes w' := by
    rw [hmail.1, hev]
    exact ⟨.idle _, hmail.2 hS⟩
  have hI := hO.inv
  have hK := hO.kmsg
  cases hI.move hs with
  | yield => exact idle (mail_congr (fun _ => rfl) fun _ _ _ => rfl) rfl
  | refused hop => exact idle ⟨rfl, id⟩ (event_refused hop)
  | @noKmsg msg size s ha =>
    have honly := ipcKmsgAlloc_kmsgOnly ha
    rcases hO.rules.alloc hK.zone ha with ⟨_, _, hk, _⟩ | ⟨h0, _⟩
    · refine idle (mail_congr (fun p => ?_) fun p m _ => congrFun hk m) rfl
      exact congrArg (fun f => IpcPort.queue (f p)) honly.ports
    · exact absurd rfl h0
  | @full msg size port m s ha hm =>
    have hall := KmsgOnly.full ha (filledKmsg w.ipc msg size port)
    obtain ⟨_, _, hk⟩ := hK.of_alloc_free hO.rules ha hm (filledKmsg w.ipc msg size port)
    refine idle (mail_congr (fun p => ?_) fun p x hx => hk x ((hK.queued x).mpr ⟨p, hx⟩)) rfl
    exact congrArg (fun f => IpcPort.queue (f p)) hall.ports
  | @sent msg size port m s hl hp hsize ha hm hlt =>
    obtain ⟨hmail, hS'⟩ := mail_sent hO hS hsize ha hm hlt rfl
    refine ⟨?_, hS'⟩
    have hev (v : IpcWorld) : w.event (.send msg size .success) v =
        some (.sent port (bytes w.ipc.user msg size)) := by
      simp only [IpcWorld.event, hl, Option.map_some]
    rw [hmail, hev]
    exact .sent _ _ _
  | @took msg port n m rest kr size' s hl hp hmsg hq he =>
    have hrec : w.receivesOn msg (some n) = some port := by
      rw [IpcWorld.receivesOn, if_neg (by simpa using hmsg), hl]
    have hroom := hfit port n m hrec rfl (by rw [hq]; rfl)
    obtain ⟨rfl, rfl, hb, hmail, hmail', hS'⟩ := mail_taken hO hS hq he hroom w.waits
    refine ⟨?_, hS'⟩
    have hev : w.event (.receive msg (some n) (.done .success (some (w.ipc.kmsgs m).size)))
        { w with ipc := s } = some (.received port (w.ipc.kmsgs m).bytes) := by
      simp only [IpcWorld.event, hrec, Option.map_some, hb]
    rw [hev, hmail']
    exact .received _ hmail
  | @blocked msg port n hl hp hw hmsg hc ht =>
    refine idle (mail_congr (fun p => ?_) fun p m _ => rfl) rfl
    change (Function.update w.ipc.ports port _ p).queue = _
    by_cases hpp : p = port
    · rw [hpp, Function.update_self]
      rfl
    · rw [Function.update_of_ne hpp]
      rfl
  | empty hw hc => exact idle (mail_congr (fun _ => rfl) fun _ _ _ => rfl) rfl
  | @resumed wt n m rest kr size' s hw hn hq he =>
    have hroom := hfit wt n m hw hn (by rw [hq]; rfl)
    obtain ⟨rfl, rfl, hb, hmail, hmail', hS'⟩ :=
      mail_taken hO hS hq he hroom (Function.update w.waits w.current none)
    refine ⟨?_, hS'⟩
    have hev (v : IpcWorld) (hv : v.ipc = s) :
        w.event (.resume .success (some (w.ipc.kmsgs m).size)) v =
          some (.received wt.port (w.ipc.kmsgs m).bytes) := by
      simp only [IpcWorld.event, hw, Option.map_some, hv, hb]
    rw [hev _ rfl, hmail']
    exact .received _ hmail
  | @removed space name port hl hp =>
    obtain ⟨hmail, hS'⟩ := mail_released hO hS hp (hO.among.names _ _ _ hl)
    have hmail' : IpcWorld.mail { w with ipc := (ipcPortRelease w.ipc port).cleared space name } =
        if (w.port port).refCount = 1 then Function.update w.mail port [] else w.mail := hmail
    have hev (v : IpcWorld) : w.event (.remove space name) v =
        if (w.port port).refCount = 1 then some (.closed port) else none := by
      simp only [IpcWorld.event, IpcOp.releases, hl, Option.bind_some]
    refine ⟨?_, hS'⟩
    rw [hmail', hev]
    split_ifs
    · exact .closed _ _
    · exact .idle _
  | @released port hp =>
    obtain ⟨hmail, hS'⟩ := mail_released hO hS (hI.live _ hp) (hO.among.live _ hp)
    have hev (v : IpcWorld) : w.event (.release port) v =
        if (w.port port).refCount = 1 then some (.closed port) else none := rfl
    refine ⟨?_, hS'⟩
    rw [hmail, hev]
    split_ifs
    · exact .closed _ _
    · exact .idle _
  | user m => exact idle (mail_congr (fun _ => rfl) fun _ _ _ => rfl) rfl

/-- A `mach_msg_receive` that returns an error. -/
def IpcOp.ReceiveFails : IpcOp → Prop
  | .receive _ _ (.done kr _) => kr ≠ .success
  | .resume kr _ => kr ≠ .success
  | _ => False

/-- After a run with these events every message sent is accounted for, and a receive that
fails next leaves every queue alone. -/
structure NoMessageLoss (h : Hhdm) (es : List (Option (Event Word (List Byte)))) (w : IpcWorld) :
    Prop where
  ledger : ∃ ls, Ledger es w.mail ls
  failed : ∀ op w', IpcStep h w op w' → FitsFirst w op → op.ReceiveFails →
    ∀ p, (w'.port p).queue = (w.port p).queue ∧ w'.mail p = w.mail p

theorem receive_fails_queue (hO : OwnInv h k₀ created ports w) (hS : MailSizes w)
    (hs : IpcStep h w op w') (hfit : FitsFirst w op) (hop : op.ReceiveFails)
    (p : Word) : (w'.port p).queue = (w.port p).queue ∧ w'.mail p = w.mail p := by
  cases hO.inv.move hs with
  | refused hr => exact ⟨rfl, rfl⟩
  | @took msg port n m rest kr size' s hl hp hmsg hq he =>
    have hrec : w.receivesOn msg (some n) = some port := by
      rw [IpcWorld.receivesOn, if_neg (by simpa using hmsg), hl]
    exact absurd (mail_taken hO hS hq he (hfit port n m hrec rfl (by rw [hq]; rfl)) w.waits).1 hop
  | empty hw hc => exact ⟨rfl, rfl⟩
  | resumed hw hn hq he =>
    exact absurd (mail_taken hO hS hq he (hfit _ _ _ hw hn (by rw [hq]; rfl)) w.waits).1 hop
  | _ => exact hop.elim

/-- A run in which each receive has room for the message it finds loses no message. -/
theorem ipc_run_no_message_loss (h : Hhdm) (created : List Word) (w₀ w : IpcWorld)
    (es : List (Option (Event Word (List Byte)))) (hb : IpcBoot h w₀ created)
    (hr : Run (fun w e w' => ∃ op, IpcStep h w op w' ∧ FitsFirst w op ∧ e = w.event op w') w₀ es w) :
    NoMessageLoss h es w := by
  have hq (p : Word) : (w₀.port p).queue = [] :=
    (hb.inv.ok p).queue_eq_nil_iff.mpr (hb.empty p).2.1
  have hmail : w₀.mail = fun _ => [] := by
    funext p
    rw [IpcWorld.mail, hq]
    rfl
  obtain ⟨b, hrun, hO, hS, rfl⟩ := hr.simulates
    (R := fun w b => OwnInv h w₀.ipc.kern.kmem created w₀.livePorts w ∧ MailSizes w ∧ b = w.mail)
    (fun w e w' b hs hR => by
      obtain ⟨op, hop, hfit, rfl⟩ := hs
      obtain ⟨hO, hS, rfl⟩ := hR
      obtain ⟨hstep, hS'⟩ := mail_step hO hS hop hfit
      exact ⟨_, hstep, hO.step hop, hS', rfl⟩)
    ⟨hb.own, fun p m hm => by rw [hq] at hm; simp at hm, hmail.symm⟩
  exact ⟨run_ledger hrun, fun op w' hs hfit hop => receive_fails_queue hO hS hs hfit hop⟩

end Step

/-- The first thread of `ipcStart` has sent a message of a header only. -/
def ipcSent : IpcWorld :=
  { ipcStart with ipc := (machMsgSend higherHalf ipcStart.ipc 0x100 48).2 }

theorem ipcSent_step : IpcStep higherHalf ipcStart (.send 0x100 48 .success) ipcSent :=
  .send ipcStart rfl (Prod.ext (by decide +kernel) rfl)

theorem ipcSent_event (msg : Word) : ipcStart.event (.send 0x100 msg .success) ipcSent =
    some (.sent 0x30 (bytes ipcStart.ipc.user 0x100 msg)) := by
  have hl : ipcStart.lookup (load64 ipcStart.ipc.user (0x100+msghRemotePort)) = some 0x30 := by
    decide +kernel
  simp only [IpcWorld.event, hl, Option.map_some]

theorem ipcSent_receivesOn (n : Word) : ipcSent.receivesOn 0x100 (some n) = some 0x30 := by
  rw [IpcWorld.receivesOn, if_neg (by simp)]
  decide +kernel

/-- A message sent and received by the same thread, in the one step after. -/
theorem ipc_run_no_message_loss_roundtrip : ∃ w es, Run (fun w e w' => ∃ op,
    IpcStep higherHalf w op w' ∧ FitsFirst w op ∧ e = w.event op w') ipcStart es w ∧
      NoMessageLoss higherHalf es w ∧ es.length = 2 ∧ w.mail 0x30 = [] := by
  have h2 : IpcStep higherHalf ipcSent (.receive 0x100 (some 512) (.done .success (some 48)))
      { ipcSent with ipc := (machMsgReceive ipcSent.ipc 0x100 (some 512)).2 } :=
    .receive ipcSent rfl (Prod.ext (by decide +kernel) rfl)
  have hfit : FitsFirst ipcSent (.receive 0x100 (some 512) (.done .success (some 48))) := by
    rintro p n m hp hn hm
    obtain rfl : 0x30 = p := Option.some.inj ((ipcSent_receivesOn 512).symm.trans hp)
    obtain rfl := Option.some.inj hn
    have hhead : (ipcSent.port 0x30).queue.head?.map (fun m => (ipcSent.ipc.kmsgs m).size) =
        some 48 := by decide +kernel
    rw [hm] at hhead
    have hsize : (ipcSent.ipc.kmsgs m).size = 48 := Option.some.inj hhead
    rw [hsize]
    decide
  have hr : Run (fun w e w' => ∃ op, IpcStep higherHalf w op w' ∧ FitsFirst w op ∧
      e = w.event op w') ipcStart _ _ :=
    (Run.start.snoc ⟨_, ipcSent_step, trivial, rfl⟩).snoc ⟨_, h2, hfit, rfl⟩
  refine ⟨_, _, hr, ipc_run_no_message_loss higherHalf _ _ _ _ ipcStart_boot hr, rfl, ?_⟩
  decide +kernel

/-- Received into a buffer one byte too small, a message is gone: the receive fails, the
queue is empty, and no ledger accounts for it. -/
theorem ipc_short_receive_loses_message : ∃ w es,
    IpcBoot higherHalf ipcStart [0x1000, 0x2000, 0x3000] ∧
    Run (fun w e w' => ∃ op, IpcStep higherHalf w op w' ∧ e = w.event op w') ipcStart es ipcSent ∧
    IpcStep higherHalf ipcSent (.receive 0x100 (some 47) (.done .noSpace (some 47))) w ∧
    (ipcSent.port 0x30).queue.length = 1 ∧ (w.port 0x30).queue = [] ∧
    ¬ ∃ ls, Ledger (es ++ [none]) w.mail ls := by
  have h2 : IpcStep higherHalf ipcSent (.receive 0x100 (some 47) (.done .noSpace (some 47)))
      { ipcSent with ipc := (machMsgReceive ipcSent.ipc 0x100 (some 47)).2 } :=
    .receive ipcSent rfl (Prod.ext (by decide +kernel) rfl)
  have h0 : Run (fun w e w' => ∃ op, IpcStep higherHalf w op w' ∧ e = w.event op w') ipcStart
      [] ipcStart := .start
  have hr : Run (fun w e w' => ∃ op, IpcStep higherHalf w op w' ∧ e = w.event op w') ipcStart
      [some (.sent 0x30 (bytes ipcStart.ipc.user 0x100 48))] ipcSent :=
    h0.snoc ⟨_, ipcSent_step, (ipcSent_event 48).symm⟩
  obtain ⟨w, hw⟩ : ∃ w, w = { ipcSent with ipc := (machMsgReceive ipcSent.ipc 0x100 (some 47)).2 } :=
    ⟨_, rfl⟩
  have hempty : (w.port 0x30).queue = [] := by
    rw [hw]
    decide +kernel
  refine ⟨w, _, ipcStart_boot, hr, hw ▸ h2, by decide +kernel, hempty, ?_⟩
  rintro ⟨ls, hl⟩
  -- the one letter neither waits nor has an event that ends it
  obtain ⟨l, hmem, hport⟩ : ∃ l ∈ ls, l.port = 0x30 := by
    have hs := hl.sent
    cases ls with
    | nil => simp [Event.letter] at hs
    | cons l ls =>
      simp only [List.map_cons, List.singleton_append, List.filterMap_cons, Event.letter,
        List.filterMap_nil] at hs
      exact ⟨l, List.mem_cons_self, congrArg Prod.fst (List.cons.inj hs).1⟩
  have hmail : w.mail 0x30 = [] := by
    rw [IpcWorld.mail, hempty]
    rfl
  rcases hl.accounted hmem with hb | ⟨k, hk⟩ | ⟨k, hk⟩
  · rw [hport, hmail] at hb
    simp at hb
  · have hmem' := List.mem_of_getElem? hk
    simp at hmem'
  · have hmem' := List.mem_of_getElem? hk
    simp at hmem'

end Dana
