import Dana.IpcLedger

/-! A message arrives as it was sent: what is queued in between stays untouched, and both copies
keep to the kmsg's zone element and to the receiver's buffer. -/
namespace Dana
open ByteMem Sched Transition

/-- The bytes of the zone element, as `struct ipc_kmsg` lays them out: four words, `ikm_header`
at offset 32, `ikm_data` at offset 80. -/
def IpcKmsg.elem (k : IpcKmsg) : Mem := fun o =>
  if o < 32 then store64 (store64 (store64 (store64 (fun _ => 0) 0 k.next) 8 k.port) 16 k.size)
    24 k.headerSize o
  else if o < sizeofIpcKmsg then k.header (o-32)
  else k.data (o-sizeofIpcKmsg)

/-- The buffer of a `mach_msg_receive`, and `*size` as it was given. -/
def IpcWorld.buffer (w : IpcWorld) : IpcOp → Option (Word × Word)
  | .receive msg (some n) _ => some (msg, n)
  | .resume _ _ => (w.waits w.current).bind fun wt => wt.size.map fun n => (wt.msg, n)
  | _ => none

/-- What a `mach_msg_receive` that has returned gave back, with `*size`. -/
def IpcOp.returned : IpcOp → Option (KernReturn × Option Word)
  | .receive _ _ (.done kr size) => some (kr, size)
  | .resume kr size => some (kr, size)
  | _ => none

/-- The elements of the kmsg zone have room for a header and `KMSG_ZONE_SIZE` bytes. -/
def KmsgElems (s : Ipc) : Prop :=
  ∀ z, s.kmsgZone = some z → (s.kern.zoneStore.zones z).elemSize = sizeofIpcKmsg+kmsgZoneSize

section Elems
variable {h : Hhdm} {k₀ : Kmem} {s s' : Ipc} {ports live : List Word}

theorem zoneGrowLoop_elemSize (page : Word) (r i : ℕ) (z : Zone) (m : Mem) :
    (zoneGrowLoop page r i z m).1.elemSize = z.elemSize := by
  induction r generalizing i z m with
  | zero => rfl
  | succ r ih => exact ih (i+1) _ _

theorem zoneGrow_elemSize (z : Zone) (k : Kmem) : (zoneGrow h z k).2.1.elemSize = z.elemSize := by
  unfold zoneGrow
  generalize pmmAllocPage k.pmm = r
  by_cases hmax : z.maxSize ≠ 0 ∧ z.maxSize ≤ z.curSize
  · rw [if_pos hmax]
  rw [if_neg hmax]
  by_cases hnull : r.1 = pmmNull
  · simp only [hnull, ↓reduceIte]
  · simp only [hnull, ↓reduceIte]
    exact zoneGrowLoop_elemSize _ _ _ _ _

theorem zalloc_elemSize (z : Zone) (k : Kmem) : (zalloc h z k).2.1.elemSize = z.elemSize := by
  have hgrow := zoneGrow_elemSize (h := h) z k
  rw [zalloc]
  split_ifs
  · obtain ⟨r, z', k', he⟩ : ∃ r z' k', zoneGrow h z k = (r, z', k') := ⟨_, _, _, rfl⟩
    rw [he] at hgrow ⊢
    simp only
    split_ifs
    · exact hgrow
    · exact hgrow
  · rfl

theorem KmsgElems.setZone (hE : KmsgElems s) {z : ℕ} {zone : Zone} (kmem : Kmem)
    (hz : zone.elemSize = (s.kern.zoneStore.zones z).elemSize) :
    KmsgElems (s.setZone z zone kmem) := by
  intro z' hz'
  change (Function.update s.kern.zoneStore.zones z zone z').elemSize = _
  by_cases he : z' = z
  · rw [he, Function.update_self, hz, ← he]
    exact hE z' hz'
  · rw [Function.update_of_ne he]
    exact hE z' hz'

theorem KmsgElems.zfree (hE : KmsgElems s) (z : ℕ) (e : Word) : KmsgElems (s.zfree z e) :=
  hE.setZone _ rfl

theorem KmsgElems.zalloc (hE : KmsgElems s) {z : ℕ} {e : Word} (ha : s.zalloc h z = (e, s')) :
    KmsgElems s' := by
  cases ha
  exact hE.setZone _ (zalloc_elemSize _ _)

theorem KmsgElems.get (hE : KmsgElems s) {z : Option ℕ}
    (hg : s.getZone s.kmsgZone (sizeofIpcKmsg+kmsgZoneSize) = (z, s')) :
    KmsgElems { s' with kmsgZone := z } := by
  unfold Ipc.getZone at hg
  cases hk : s.kmsgZone with
  | some z1 =>
    rw [hk] at hg
    cases hg
    intro z' hz'
    exact hE z' (hk.trans hz')
  | none =>
    rw [hk] at hg
    cases hg
    intro z' hz'
    change (zinit s.kern.zoneStore _ 0).1 = some z' at hz'
    change ((zinit s.kern.zoneStore _ 0).2.zones z').elemSize = _
    have hsize : ¬ sizeofIpcKmsg+kmsgZoneSize < 8 := by decide
    rw [zinit] at hz' ⊢
    split_ifs at hz' ⊢ with hmax
    obtain rfl := Option.some.inj hz'
    simp only [Function.update_self]
    decide

/-- The kmsg zone in a run, with the size of its elements. -/
theorem kmsgElems_rules (hmem : ∀ p ∈ ports, ∀ x, x-p < 8 → ¬ k₀.pmm.Free (frameOf h x)) :
    KmsgRules h (fun _ p => p ∈ ports) (fun s live => KmsgZone h k₀ s live ∧ KmsgElems s) := by
  apply KmsgZoneRules.rules
  refine ⟨fun hz => StaticZone.nodup hz.1, fun hz hs => ⟨hz.1.congr hs, fun z hk => ?_⟩,
    fun hz hk => ?_, fun hz hg => ⟨hz.1.get hg, hz.2.get hg⟩, fun hz hk ha => ?_,
    fun hz hk he => ⟨(hz.1.zfree hk he).1, (hz.1.zfree hk he).2, hz.2.zfree _ _⟩,
    fun hz hp hport => ⟨hz.1.freePort hp (hmem _ hport), ?_⟩⟩
  · rw [hs.kmsgZone] at hk
    rw [hs.zoneStore]
    exact hz.2 z hk
  · rcases StaticZone.zone hz.1 with ⟨_, hl⟩ | ⟨_, _, _, hsome, _⟩
    · exact hl
    · rw [hk] at hsome
      cases hsome
  · exact (hz.1.zalloc hk ha).imp (fun hn => ⟨hn.1, hn.2, hz.2.zalloc ha⟩)
      fun hn => ⟨hn.1, hn.2.1, hn.2.2, hz.2.zalloc ha⟩
  · exact hz.2.zfree _ _

end Elems

/-- `ipc_kmsg_copyin` of a message that the zone has room for writes inside the element. -/
theorem ipcKmsgCopyin_inside (s : Ipc) {kmsg msg size : Word} (h1 : ¬ size < sizeofMachMsgHeader)
    (h2 : ¬ kmsgZoneSize < size) :
    (∀ x, x ≠ kmsg → (ipcKmsgCopyin s kmsg msg size).2.kmsgs x = s.kmsgs x) ∧
    (∀ o, ¬ o < sizeofIpcKmsg+kmsgZoneSize →
      ((ipcKmsgCopyin s kmsg msg size).2.kmsgs kmsg).elem o = (s.kmsgs kmsg).elem o) ∧
    (ipcKmsgCopyin s kmsg msg size).2 =
      { s with kmsgs := (ipcKmsgCopyin s kmsg msg size).2.kmsgs } := by
  rw [ipcKmsgCopyin]
  split_ifs with hnull
  · exact ⟨fun _ _ => rfl, fun _ _ => rfl, rfl⟩
  simp only
  refine ⟨fun x hx => Function.update_of_ne hx _ _, fun o ho => ?_, rfl⟩
  have hsum : sizeofIpcKmsg+kmsgZoneSize = 592 := rfl
  have h80 : sizeofIpcKmsg = 80 := rfl
  have h48 : sizeofMachMsgHeader = 48 := rfl
  have h512 : kmsgZoneSize = 512 := rfl
  rw [hsum] at ho
  rw [h48] at h1
  rw [h512] at h2
  have hlow : ¬ o < 32 ∧ ¬ o < 80 := ⟨by bv_omega, by bv_omega⟩
  simp only [Ipc.setKmsg, Function.update_self, IpcKmsg.elem, h80, hlow.1, hlow.2, ↓reduceIte]
  split_ifs
  · have hout : ¬ o-80-0 < size-sizeofMachMsgHeader := by
      rw [h48]
      bv_omega
    simp only [copy, hout, ↓reduceIte]
  · rfl

/-- `ipc_kmsg_copyout` writes `ikm_size` bytes of the buffer. -/
theorem delivered_outside (user : Mem) (msg : Word) {k : IpcKmsg}
    (h1 : ¬ k.size < sizeofMachMsgHeader) {a : Word} (ha : ¬ a-msg < k.size) :
    delivered user msg k a = user a := by
  have h48 : sizeofMachMsgHeader = 48 := rfl
  rw [h48] at h1
  have hhead : ¬ a-msg < sizeofMachMsgHeader := by
    rw [h48]
    bv_omega
  have hbody : ¬ a-(msg+sizeofMachMsgHeader) < k.size-sizeofMachMsgHeader := by
    rw [h48]
    bv_omega
  rw [delivered]
  split_ifs
  · simp only [copy, hhead, hbody, ↓reduceIte]
  · simp only [copy, hhead, ↓reduceIte]

section Run
variable {h : Hhdm} {Z : Ipc → List Word → Prop} {P : List ZoneEvent → Word → Prop}
variable {k₀ : Kmem} {created ports : List Word} {w w' : IpcWorld} {op : IpcOp}

/-- No step writes a kmsg that is handed out. -/
theorem KmsgInv.kept (hZ : KmsgRules h P Z) (hI : IpcInv created w) (hK : KmsgInv Z w)
    (hs : IpcStep h w op w') (hP : ∀ p, op.releases w = some p → P w.ipc.portLog p) {m : Word}
    (hm : m ∈ liveOf w.ipc.kmsgLog) : w'.ipc.kmsgs m = w.ipc.kmsgs m := by
  cases hI.move hs with
  | @noKmsg msg size s ha =>
    rcases hZ.alloc hK.zone ha with ⟨_, _, hk, _⟩ | ⟨h0, _⟩
    · exact congrFun hk m
    · exact absurd rfl h0
  | full ha hm0 => exact (hK.of_alloc_free hZ ha hm0 _).2.2 m hm
  | @sent msg size port e s hl hp hsize ha he hlt =>
    rcases hZ.alloc hK.zone ha with ⟨h0, _⟩ | ⟨_, hnew, _, hk, _⟩
    · exact absurd h0 he
    · have hne : m ≠ e := by
        rintro rfl
        exact hnew hm
      rw [← hk m hne]
      exact Function.update_of_ne hne _ _
  | took hl hp hmsg hq he => exact congrFun (hK.taken hZ hI hq he w.waits).2 m
  | resumed hw hn hq he => exact congrFun (hK.taken hZ hI hq he w.waits).2 m
  | removed hl hp =>
    exact congrFun (hK.release_kmsgs hZ hI hp (hP _ (by rw [IpcOp.releases, hl]))).2.1 m
  | released hp => exact congrFun (hK.release_kmsgs hZ hI (hI.live _ hp) (hP _ rfl)).2.1 m
  | _ => rfl

/-- What the run of a message keeps: the owners of the kmsgs, and the size of their elements. -/
structure ElemInv (h : Hhdm) (k₀ : Kmem) (created ports : List Word) (w : IpcWorld) : Prop where
  own : OwnInv h k₀ created ports w
  elems : KmsgInv (fun s live => KmsgZone h k₀ s live ∧ KmsgElems s) w

theorem ElemInv.rules (hE : ElemInv h k₀ created ports w) :
    KmsgRules h (fun _ p => p ∈ ports) (fun s live => KmsgZone h k₀ s live ∧ KmsgElems s) :=
  kmsgElems_rules hE.own.mem

theorem ElemInv.step (hE : ElemInv h k₀ created ports w) (hs : IpcStep h w op w') :
    ElemInv h k₀ created ports w' :=
  ⟨hE.own.step hs, hE.elems.step hE.rules hE.own.inv hs fun _ hp => hE.own.among.releases hs hp⟩

theorem IpcBoot.elems (hb : IpcBoot h w created) :
    ElemInv h w.ipc.kern.kmem created w.livePorts w := by
  have hO := hb.own
  refine ⟨hO, ⟨hO.kmsg.zone, fun z hz => ?_⟩, hO.kmsg.queued, hO.kmsg.nodup, hO.kmsg.unique⟩
  rw [hb.kmsgs.1] at hz
  cases hz

/-- The receive that takes `m` out of a queue delivers it, where the buffer has room. -/
theorem ElemInv.delivers (hE : ElemInv h k₀ created ports w) (hs : IpcStep h w op w')
    {p m msg n : Word} (hm : m ∈ (w.port p).queue) (hgone : m ∉ (w'.port p).queue)
    (hbuf : w.buffer op = some (msg, n)) (hroom : ¬ n < (w.ipc.kmsgs m).size) :
    op.returned = some (.success, some (w.ipc.kmsgs m).size) ∧
      w'.ipc.user = delivered w.ipc.user msg (w.ipc.kmsgs m) ∧ w'.ipc.kmsgs = w.ipc.kmsgs := by
  have hI := hE.own.inv
  have taken {port msg n m' : Word} {rest : List Word} {kr : KernReturn} {size' : Option Word}
      {s : Ipc} (hq : (w.port port).queue = m' :: rest)
      (he : w.ipc.taken port msg n m' = (kr, size', s)) (waits : Word → Option Wait)
      (hgone : m ∉ (IpcWorld.port ⟨s, waits⟩ p).queue) (hroom : ¬ n < (w.ipc.kmsgs m).size) :
      some (kr, size') = some (KernReturn.success, some (w.ipc.kmsgs m).size) ∧
        s.user = delivered w.ipc.user msg (w.ipc.kmsgs m) ∧ s.kmsgs = w.ipc.kmsgs := by
    have hk := (hE.own.kmsg.taken hE.own.rules hI hq he waits).2
    have hq' : (IpcWorld.port ⟨s, waits⟩ p).queue = if p = port then rest else (w.port p).queue :=
      hI.taken_queue hq he p
    rw [hq'] at hgone
    split_ifs at hgone with hp
    · obtain rfl : m = m' := by
        rw [hp, hq, List.mem_cons] at hm
        exact hm.resolve_right hgone
      unfold Ipc.taken at he
      rw [if_neg hroom] at he
      cases he
      exact ⟨rfl, (ipcKmsgFree_only _ m).user, hk⟩
    · exact absurd hm hgone
  cases hI.move hs with
  | refused hop => exact absurd hm hgone
  | took hl hp hmsg hq he =>
    obtain ⟨rfl, rfl⟩ := Prod.mk.inj (Option.some.inj hbuf)
    exact taken hq he _ hgone hroom
  | @blocked msg port n hl hp hw hmsg hc ht =>
    refine absurd ?_ hgone
    change m ∈ (Function.update w.ipc.ports port _ p).queue
    by_cases hpp : p = port
    · rw [hpp, Function.update_self]
      exact hpp ▸ hm
    · rw [Function.update_of_ne hpp]
      exact hm
  | empty hw hc => exact absurd hm hgone
  | resumed hw hn hq he =>
    simp only [IpcWorld.buffer, hw, Option.bind_some, hn, Option.map_some] at hbuf
    obtain ⟨rfl, rfl⟩ := Prod.mk.inj (Option.some.inj hbuf)
    exact taken hq he _ hgone hroom
  | _ => cases hbuf

/-- The copies of a message's round trip: copy-in writes no byte outside the element. -/
def CopiesInside (h : Hhdm) (s : Ipc) (m msg size : Word) : Prop :=
  ∃ s1 z, ipcKmsgAlloc h s size = (m, s1) ∧ s1.kmsgZone = some z ∧
    (∀ x, x ≠ m → (ipcKmsgCopyin s1 m msg size).2.kmsgs x = s1.kmsgs x) ∧
    (∀ o, ¬ o < (s1.kern.zoneStore.zones z).elemSize →
      ((ipcKmsgCopyin s1 m msg size).2.kmsgs m).elem o = (s1.kmsgs m).elem o) ∧
    (ipcKmsgCopyin s1 m msg size).2 = { s1 with kmsgs := (ipcKmsgCopyin s1 m msg size).2.kmsgs }

/-- A message that was sent is queued in one kmsg; whatever happens until a receive takes that
kmsg out of the queue, a large enough buffer then holds the message, byte for byte. -/
theorem ipc_run_round_trip {w₀ w1 : IpcWorld} (hb : IpcBoot h w₀ created) {ops : List IpcOp}
    (hr : Run (IpcStep h) w₀ ops w) {msg size : Word}
    (hsend : IpcStep h w (.send msg size .success) w1) :
    ∃ p m, w.lookup (load64 w.ipc.user (msg+msghRemotePort)) = some p ∧
      (w1.port p).queue = (w.port p).queue ++ [m] ∧ CopiesInside h w.ipc m msg size ∧
      ∀ ops' w2 op w3 msg' n,
        Run (fun v op v' => IpcStep h v op v' ∧ m ∈ (v'.port p).queue) w1 ops' w2 →
        IpcStep h w2 op w3 → m ∉ (w3.port p).queue → w2.buffer op = some (msg', n) → size ≤ n →
        op.returned = some (.success, some size) ∧
          bytes w3.ipc.user msg' size = bytes w.ipc.user msg size ∧
          (∀ a, ¬ a-msg' < size → w3.ipc.user a = w2.ipc.user a) ∧
          w3.ipc.kmsgs = w2.ipc.kmsgs := by
  have hE : ElemInv h w₀.ipc.kern.kmem created w₀.livePorts w :=
    hr.inv (fun _ _ _ hs hE => hE.step hs) hb.elems
  have hE1 := hE.step hsend
  cases hE.own.inv.move hsend with
  | refused hop => exact absurd rfl hop
  | @sent msg size port m s hl hp hsize ha hm hlt =>
    rcases hE.rules.alloc hE.elems.zone ha with ⟨h0, _⟩ | ⟨_, _, ⟨hz, hel⟩, _, _, hmax⟩
    · exact absurd h0 hm
    have honly := ipcKmsgAlloc_kmsgOnly ha
    have hq := hE.own.inv.enqueued_queue (s := s.setKmsg m (filledKmsg w.ipc msg size port)) (m := m)
      honly.ports hlt port
    rw [if_pos rfl] at hq
    refine ⟨port, m, hl, hq, ?_, fun ops' w2 op w3 msg' n hrun hs hgone hbuf hroom => ?_⟩
    · rcases StaticZone.zone hz with ⟨_, hl⟩ | ⟨z, _, _, hsome, _⟩
      · cases hl
      · obtain ⟨hother, hin, hrest⟩ := @ipcKmsgCopyin_inside s m msg size hsize hmax
        refine ⟨s, z, ha, hsome, hother, ?_, hrest⟩
        rw [hel z hsome]
        exact hin
    · -- the kmsg stays as it was filled for as long as it is queued
      have hfirst : m ∈
          (((s.setKmsg m (filledKmsg w.ipc msg size port)).enqueued port m).ports port).queue := by
        rw [hq]
        simp
      have hkeep := hrun.inv
        (I := fun v => ElemInv h w₀.ipc.kern.kmem created w₀.livePorts v ∧ m ∈ (v.port port).queue ∧
          v.ipc.kmsgs m = filledKmsg w.ipc msg size port)
        (fun v op v' hs hv => by
          obtain ⟨hEv, hmv, hkv⟩ := hv
          refine ⟨hEv.step hs.1, hs.2, ?_⟩
          rw [hEv.own.kmsg.kept hEv.own.rules hEv.own.inv hs.1
            (fun _ hp => hEv.own.among.releases hs.1 hp) ((hEv.own.kmsg.queued m).mpr ⟨port, hmv⟩)]
          exact hkv)
        ⟨hE1, hfirst, Function.update_self ..⟩
      obtain ⟨hE2, hm2, hk2⟩ := hkeep
      have hsize2 : (w2.ipc.kmsgs m).size = size := by
        rw [hk2]
        rfl
      obtain ⟨hret, huser, hkmsgs⟩ := hE2.delivers hs hm2 hgone hbuf (by
        rw [hsize2, BitVec.not_lt]
        exact hroom)
      rw [hsize2] at hret
      refine ⟨hret, ?_, fun a ha => ?_, hkmsgs⟩
      · have hbytes := delivered_bytes w2.ipc.user msg' (k := w2.ipc.kmsgs m)
          (by rw [hsize2]; exact hsize) (by rw [hsize2]; exact hmax)
        rw [hsize2] at hbytes
        rw [huser, hbytes, hk2, filledKmsg_bytes w.ipc hsize hmax]
      · rw [huser]
        apply delivered_outside
        · rw [hsize2]
          exact hsize
        · rw [hsize2]
          exact ha

end Run

/-- `ipcSent` with another first byte in the buffer. -/
def ipcOverwritten : IpcWorld :=
  { ipcSent with ipc := { ipcSent.ipc with user := Function.update ipcSent.ipc.user 0x100 0x77 } }

/-- The receive brings the byte back that was overwritten after the message was sent. -/
theorem ipc_run_round_trip_overwritten : ∃ w, IpcStep higherHalf ipcOverwritten
      (.receive 0x100 (some 512) (.done .success (some 48))) w ∧
    bytes w.ipc.user 0x100 48 = bytes ipcStart.ipc.user 0x100 48 := by
  obtain ⟨p, m, hl, hq, _, hall⟩ := ipc_run_round_trip ipcStart_boot .start ipcSent_step
  have hp : ipcStart.lookup (load64 ipcStart.ipc.user (0x100+msghRemotePort)) = some 0x30 := by
    decide +kernel
  obtain rfl : p = 0x30 := Option.some.inj (hl.symm.trans hp)
  have hm : m ∈ (ipcOverwritten.port 0x30).queue := by
    change m ∈ (ipcSent.port 0x30).queue
    rw [hq]
    simp
  obtain ⟨w, hw⟩ : ∃ w, w =
      { ipcOverwritten with ipc := (machMsgReceive ipcOverwritten.ipc 0x100 (some 512)).2 } :=
    ⟨_, rfl⟩
  have hs : IpcStep higherHalf ipcOverwritten
      (.receive 0x100 (some 512) (.done .success (some 48))) w := by
    rw [hw]
    exact .receive ipcOverwritten rfl (Prod.ext (by decide +kernel) rfl)
  have hempty : (w.port 0x30).queue = [] := by
    rw [hw]
    decide +kernel
  have hrun : Run (fun v op v' => IpcStep higherHalf v op v' ∧ m ∈ (v'.port 0x30).queue) ipcSent
      [.user] ipcOverwritten :=
    Run.start.snoc ⟨.user ipcSent _, hm⟩
  have hbytes := (hall _ _ _ _ 0x100 512 hrun hs (by rw [hempty]; simp) rfl (by decide)).2.1
  exact ⟨w, hs, hbytes⟩

end Dana
