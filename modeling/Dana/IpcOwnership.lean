import Dana.IpcKmsgZone
import Dana.IpcWakeup

/-! Who owns a message: between calls a kmsg that is handed out is in one slot of one
port's queue. -/
namespace Dana
open ByteMem Sched Transition

/-- The port that a call gives up a reference to. -/
def IpcOp.releases (w : IpcWorld) : IpcOp → Option Word
  | .remove space name => (ipcSpaceLookup w.ipc space name).2
  | .release p => some p
  | _ => none

/-- The kmsgs handed out are those queued, each once. -/
structure KmsgInv (Z : Ipc → List Word → Prop) (w : IpcWorld) : Prop where
  zone : Z w.ipc (liveOf w.ipc.kmsgLog)
  queued : ∀ m, m ∈ liveOf w.ipc.kmsgLog ↔ ∃ p, m ∈ (w.port p).queue
  nodup : ∀ p, (w.port p).queue.Nodup
  unique : ∀ p q m, m ∈ (w.port p).queue → m ∈ (w.port q).queue → p = q

section Inv
variable {h : Hhdm} {Z : Ipc → List Word → Prop} {P : List ZoneEvent → Word → Prop}
variable {created ports : List Word} {w w' : IpcWorld} {op : IpcOp}

theorem ipcSpaceLookup_congr {s s' : Ipc} (hs : s'.spaces = s.spaces) (space name : Word) :
    ipcSpaceLookup s' space name = ipcSpaceLookup s space name := by
  rw [ipcSpaceLookup, ipcSpaceLookup, hs]

/-- Where the queues and the handed-out kmsgs stay the same. -/
theorem KmsgInv.of_queues (hK : KmsgInv Z w) (s : Ipc) (hz : Z s (liveOf s.kmsgLog))
    (hlog : liveOf s.kmsgLog = liveOf w.ipc.kmsgLog)
    (hq : ∀ p, (s.ports p).queue = (w.port p).queue) (waits : Word → Option Wait) :
    KmsgInv Z ⟨s, waits⟩ := by
  have hq' (p : Word) : (IpcWorld.port ⟨s, waits⟩ p).queue = (w.port p).queue := hq p
  refine ⟨hz, fun m => ?_, fun p => ?_, fun p q m hp hq1 => ?_⟩
  · rw [hlog, hK.queued]
    exact exists_congr fun p => by rw [hq' p]
  · rw [hq']
    exact hK.nodup p
  · rw [hq'] at hp hq1
    exact hK.unique p q m hp hq1

section Rules
variable (hZ : KmsgRules h P Z)
include hZ

/-- A new kmsg goes to the end of one queue. -/
theorem KmsgInv.sent (hI : IpcInv created w) (hK : KmsgInv Z w) {size m port : Word}
    {s : Ipc} (ha : ipcKmsgAlloc h w.ipc size = (m, s)) (hm : m ≠ ipcKmsgNull) (v : IpcKmsg)
    (hlt : (w.port port).msgCount.toNat < ipcPortQueueMax) :
    KmsgInv Z { w with ipc := (s.setKmsg m v).enqueued port m } := by
  rcases hZ.alloc hK.zone ha with ⟨h0, _⟩ | ⟨_, hnew, hz, _, hlog, _⟩
  · exact absurd h0 hm
  have honly := ipcKmsgAlloc_kmsgOnly ha
  have hfresh (p : Word) : m ∉ (w.port p).queue := fun hq => hnew ((hK.queued m).mpr ⟨p, hq⟩)
  have hq (p : Word) : (IpcWorld.port { w with ipc := (s.setKmsg m v).enqueued port m } p).queue =
      if p = port then (w.port port).queue ++ [m] else (w.port p).queue :=
    hI.enqueued_queue (s := s.setKmsg m v) honly.ports hlt p
  have hmem (p x : Word) (hx : x ∈ (IpcWorld.port
      { w with ipc := (s.setKmsg m v).enqueued port m } p).queue) :
      x ∈ (w.port p).queue ∨ (x = m ∧ p = port) := by
    rw [hq] at hx
    split_ifs at hx with hp
    · rw [List.mem_append, List.mem_singleton, ← hp] at hx
      exact hx.imp_right fun hxm => ⟨hxm, hp⟩
    · exact Or.inl hx
  have hlive : liveOf ((s.setKmsg m v).enqueued port m).kmsgLog = m :: liveOf w.ipc.kmsgLog := by
    change liveOf s.kmsgLog = _
    rw [hlog, liveOf]
  refine ⟨?_, fun x => ?_, fun p => ?_, fun p q x hp hq' => ?_⟩
  · rw [hlive]
    exact hZ.congr hz ⟨rfl, rfl, rfl, rfl, rfl, rfl, rfl⟩
  · rw [hlive, List.mem_cons, hK.queued]
    constructor
    · rintro (rfl | ⟨p, hp⟩)
      · refine ⟨port, ?_⟩
        rw [hq, if_pos rfl]
        simp
      · refine ⟨p, ?_⟩
        rw [hq]
        split_ifs with hpp
        · rw [← hpp]
          exact List.mem_append_left _ hp
        · exact hp
    · rintro ⟨p, hp⟩
      rcases hmem p x hp with hold | ⟨hx, _⟩
      · exact Or.inr ⟨p, hold⟩
      · exact Or.inl hx
  · rw [hq]
    split_ifs
    · refine List.nodup_append.mpr ⟨hK.nodup port, List.nodup_singleton m, fun a hma b hb => ?_⟩
      rintro rfl
      obtain rfl := List.mem_singleton.mp hb
      exact hfresh port hma
    · exact hK.nodup p
  · rcases hmem p x hp with h1 | ⟨rfl, rfl⟩
    · rcases hmem q x hq' with h2 | ⟨rfl, rfl⟩
      · exact hK.unique p q x h1 h2
      · exact absurd h1 (hfresh p)
    · rcases hmem q x hq' with h2 | ⟨_, hqp⟩
      · exact absurd h2 (hfresh q)
      · exact hqp.symm

/-- The first kmsg of a queue is taken out and handed back. -/
theorem KmsgInv.taken (hI : IpcInv created w) (hK : KmsgInv Z w) {port msg n m : Word}
    {rest : List Word} {kr : KernReturn} {size' : Option Word} {s : Ipc}
    (hq : (w.port port).queue = m :: rest) (he : w.ipc.taken port msg n m = (kr, size', s))
    (waits : Word → Option Wait) : KmsgInv Z ⟨s, waits⟩ ∧ s.kmsgs = w.ipc.kmsgs := by
  have hmem : m ∈ liveOf w.ipc.kmsgLog := (hK.queued m).mpr ⟨port, by rw [hq]; simp⟩
  have hfree : ∃ s1 : Ipc, Z s1 (liveOf w.ipc.kmsgLog) ∧
      s1.kmsgLog = w.ipc.kmsgLog ∧ s1.kmsgs = w.ipc.kmsgs ∧ s = ipcKmsgFree s1 m := by
    unfold Ipc.taken at he
    split_ifs at he
    · cases he
      exact ⟨w.ipc.dequeued port, hZ.congr hK.zone ⟨rfl, rfl, rfl, rfl, rfl, rfl, rfl⟩, rfl, rfl, rfl⟩
    · cases he
      exact ⟨{ w.ipc.dequeued port with user := delivered w.ipc.user msg (w.ipc.kmsgs m) },
        hZ.congr hK.zone ⟨rfl, rfl, rfl, rfl, rfl, rfl, rfl⟩, rfl, rfl, rfl⟩
  obtain ⟨s1, hz1, hlog1, hk1, rfl⟩ := hfree
  obtain ⟨hz, hkmsgs, hlog⟩ := hZ.free hz1 hmem
  have hlive : liveOf (ipcKmsgFree s1 m).kmsgLog = (liveOf w.ipc.kmsgLog).erase m := by
    rw [hlog, hlog1, liveOf]
  have hqueue (p : Word) : (IpcWorld.port ⟨ipcKmsgFree s1 m, waits⟩ p).queue =
      if p = port then rest else (w.port p).queue := hI.taken_queue hq he p
  have hnd := hK.nodup port
  rw [hq, List.nodup_cons] at hnd
  have hmemq (p x : Word) : x ∈ (IpcWorld.port ⟨ipcKmsgFree s1 m, waits⟩ p).queue ↔
      x ∈ (w.port p).queue ∧ x ≠ m := by
    rw [hqueue]
    split_ifs with hp
    · rw [hp, hq, List.mem_cons]
      constructor
      · intro hx
        refine ⟨Or.inr hx, ?_⟩
        rintro rfl
        exact hnd.1 hx
      · rintro ⟨rfl | hx, hne⟩
        · exact absurd rfl hne
        · exact hx
    · refine ⟨fun hx => ⟨hx, ?_⟩, And.left⟩
      rintro rfl
      exact hp (hK.unique p port x hx (by rw [hq]; simp))
  refine ⟨⟨?_, fun x => ?_, fun p => ?_, fun p q x hp hq' => ?_⟩, hkmsgs.trans hk1⟩
  · rw [hlive]
    exact hz
  · rw [hlive, (hZ.nodup hK.zone).mem_erase_iff, hK.queued]
    constructor
    · rintro ⟨hne, p, hp⟩
      exact ⟨p, (hmemq p x).mpr ⟨hp, hne⟩⟩
    · rintro ⟨p, hp⟩
      obtain ⟨hx, hne⟩ := (hmemq p x).mp hp
      exact ⟨hne, p, hx⟩
  · rw [hqueue]
    split_ifs
    · exact hnd.2
    · exact hK.nodup p
  · exact hK.unique p q x ((hmemq p x).mp hp).1 ((hmemq q x).mp hq').1

/-- The release of a port's last reference hands back what it had queued, and no more. -/
theorem KmsgInv.release_kmsgs (hI : IpcInv created w) (hK : KmsgInv Z w) {port : Word}
    (hp : port ≠ ipcPortNull) (hP : P w.ipc.portLog port) :
    Z (ipcPortRelease w.ipc port) (liveOf (ipcPortRelease w.ipc port).kmsgLog) ∧
      (ipcPortRelease w.ipc port).kmsgs = w.ipc.kmsgs ∧
      ∀ m, m ∈ liveOf (ipcPortRelease w.ipc port).kmsgLog ↔ m ∈ liveOf w.ipc.kmsgLog ∧
        ((w.port port).refCount = 1 → m ∉ (w.port port).queue) := by
  by_cases href : (w.port port).refCount = 1
  · obtain ⟨z, hz⟩ := Option.ne_none_iff_exists'.mp hI.zone
    obtain ⟨s2, hs2, he, _, hlog2, hz2, _⟩ :=
      ipcPortRelease_last hp hz (hI.ok port) (hI.nonnull port) href
    obtain ⟨s1, hs1⟩ : ∃ s1, s1 = w.ipc.unreferenced port := ⟨_, rfl⟩
    have hport1 : s1.ports port = { w.port port with refCount := 0 } := by
      rw [hs1]
      exact w.ipc.unreferenced_port port
    have hrule := ipcPortDrain_rule
      (I := fun ms s => Z s (liveOf s.kmsgLog) ∧ s.kmsgs = w.ipc.kmsgs ∧
        (∃ done, (w.port port).queue = done ++ ms) ∧
        ∀ m, m ∈ liveOf s.kmsgLog ↔ m ∈ ms ∨ m ∈ liveOf w.ipc.kmsgLog ∧ m ∉ (w.port port).queue)
      hp (fun m rest s hm0 hv hq hI' => by
        obtain ⟨hzs, hks, ⟨done, hdone⟩, hiff⟩ := hI'
        have hml : m ∈ liveOf s.kmsgLog := (hiff m).mpr (Or.inl (by simp))
        have hzd : Z (s.dequeued port) (liveOf s.kmsgLog) :=
          hZ.congr hzs ⟨rfl, rfl, rfl, rfl, rfl, rfl, rfl⟩
        obtain ⟨hz', hk', hlog'⟩ := hZ.free hzd hml
        have hlog'' : liveOf (ipcKmsgFree (s.dequeued port) m).kmsgLog =
            (liveOf s.kmsgLog).erase m := by
          rw [hlog', liveOf]
          rfl
        have hnd := hK.nodup port
        rw [hdone, List.nodup_append] at hnd
        have hnd' := List.nodup_cons.mp hnd.2.1
        refine ⟨hlog'' ▸ hz', hk'.trans hks, ⟨done ++ [m], by simp [hdone]⟩, fun x => ?_⟩
        rw [hlog'', (hZ.nodup hzs).mem_erase_iff, hiff, List.mem_cons]
        constructor
        · rintro ⟨hne, (rfl | hx) | hx⟩
          · exact absurd rfl hne
          · exact Or.inl hx
          · exact Or.inr hx
        · rintro (hx | hx)
          · refine ⟨?_, Or.inl (Or.inr hx)⟩
            rintro rfl
            exact hnd'.1 hx
          · refine ⟨?_, Or.inr hx⟩
            rintro rfl
            exact hx.2 (by rw [hdone]; simp))
      (w.port port).queue s1 (by rw [hport1]; exact hI.ok port) (by rw [hport1]; rfl)
      (hI.nonnull port) ⟨hs1 ▸ hZ.congr hK.zone ⟨rfl, rfl, rfl, rfl, rfl, rfl, rfl⟩, by rw [hs1]; rfl,
        ⟨[], rfl⟩, fun m => by
          rw [hs1]
          change m ∈ liveOf w.ipc.kmsgLog ↔ _
          constructor
          · intro hm
            by_cases hq : m ∈ (w.port port).queue
            · exact Or.inl hq
            · exact Or.inr ⟨hm, hq⟩
          · rintro (hm | hm)
            · exact (hK.queued m).mpr ⟨port, hm⟩
            · exact hm.1⟩
    rw [hs1] at hrule
    change s2 = ipcPortDrain port (w.port port).queue.length (w.ipc.unreferenced port) at hs2
    rw [← hs2] at hrule
    obtain ⟨⟨hzs, hks, _, hiff⟩, _⟩ := hrule
    rw [he]
    refine ⟨hZ.freePort hzs hz2 (hlog2.symm ▸ hP), hks, fun m => ?_⟩
    change m ∈ liveOf s2.kmsgLog ↔ _
    rw [hiff]
    simp [href]
  · have href' : (w.ipc.ports port).refCount ≠ 1 := href
    rw [ipcPortRelease_keep hp href']
    refine ⟨hZ.congr hK.zone ⟨rfl, rfl, rfl, rfl, rfl, rfl, rfl⟩, rfl, fun m => ?_⟩
    exact ⟨fun hm => ⟨hm, fun h1 => absurd h1 href⟩, And.left⟩

theorem KmsgInv.released (hI : IpcInv created w) (hK : KmsgInv Z w) {port : Word}
    (hp : port ≠ ipcPortNull) (hP : P w.ipc.portLog port) :
    KmsgInv Z { w with ipc := ipcPortRelease w.ipc port } := by
  obtain ⟨hz, _, hiff⟩ := hK.release_kmsgs hZ hI hp hP
  have hqueue (p : Word) : (IpcWorld.port { w with ipc := ipcPortRelease w.ipc port } p).queue =
      if p = port ∧ (w.port port).refCount = 1 then [] else (w.port p).queue :=
    hI.released_queue hp p
  have hsub (p x : Word) (hx : x ∈ (IpcWorld.port
      { w with ipc := ipcPortRelease w.ipc port } p).queue) : x ∈ (w.port p).queue := by
    rw [hqueue] at hx
    split_ifs at hx
    · simp at hx
    · exact hx
  refine ⟨hz, fun m => ?_, fun p => ?_, fun p q m hm hm' => ?_⟩
  · rw [hiff, hK.queued]
    constructor
    · rintro ⟨⟨p, hm⟩, hnq⟩
      refine ⟨p, ?_⟩
      rw [hqueue, if_neg]
      · exact hm
      · rintro ⟨rfl, href⟩
        exact hnq href hm
    · rintro ⟨p, hm⟩
      refine ⟨⟨p, hsub p m hm⟩, fun href hmq => ?_⟩
      obtain rfl := hK.unique p port m (hsub p m hm) hmq
      rw [hqueue, if_pos ⟨rfl, href⟩] at hm
      simp at hm
  · rw [hqueue]
    split_ifs
    · exact List.nodup_nil
    · exact hK.nodup p
  · exact hK.unique p q m (hsub p m hm) (hsub q m hm')

/-- A kmsg handed out and taken back at once. -/
theorem KmsgInv.of_alloc_free (hK : KmsgInv Z w) {size m : Word} {s : Ipc}
    (ha : ipcKmsgAlloc h w.ipc size = (m, s)) (hm : m ≠ ipcKmsgNull) (v : IpcKmsg) :
    Z (ipcKmsgFree (s.setKmsg m v) m) (liveOf (ipcKmsgFree (s.setKmsg m v) m).kmsgLog) ∧
      liveOf (ipcKmsgFree (s.setKmsg m v) m).kmsgLog = liveOf w.ipc.kmsgLog ∧
      ∀ x ∈ liveOf w.ipc.kmsgLog, (ipcKmsgFree (s.setKmsg m v) m).kmsgs x = w.ipc.kmsgs x := by
  rcases hZ.alloc hK.zone ha with ⟨h0, _⟩ | ⟨_, hnew, hz, hkmsgs, hlog, _⟩
  · exact absurd h0 hm
  have hz1 : Z (s.setKmsg m v) (m :: liveOf w.ipc.kmsgLog) :=
    hZ.congr hz ⟨rfl, rfl, rfl, rfl, rfl, rfl, rfl⟩
  obtain ⟨hz', hk', hlog'⟩ := hZ.free hz1 List.mem_cons_self
  have hlive : liveOf (ipcKmsgFree (s.setKmsg m v) m).kmsgLog = liveOf w.ipc.kmsgLog := by
    rw [hlog', liveOf]
    change (liveOf s.kmsgLog).erase m = _
    rw [hlog, liveOf, List.erase_cons_head]
  rw [List.erase_cons_head, ← hlive] at hz'
  refine ⟨hz', hlive, fun x hx => ?_⟩
  have hne : x ≠ m := by
    rintro rfl
    exact hnew hx
  rw [hk', ← hkmsgs x hne]
  exact Function.update_of_ne hne _ _

/-- Every step keeps the invariant. -/
theorem KmsgInv.step (hI : IpcInv created w) (hK : KmsgInv Z w) (hs : IpcStep h w op w')
    (hP : ∀ p, op.releases w = some p → P w.ipc.portLog p) : KmsgInv Z w' := by
  cases hI.move hs with
  | yield =>
    exact hK.of_queues { w.ipc with kern := { w.ipc.kern with sched := (schedRun w.sched).2 } }
      (hZ.congr hK.zone ⟨rfl, rfl, rfl, rfl, rfl, rfl, rfl⟩) rfl (fun _ => rfl) _
  | refused hop => exact hK
  | @noKmsg msg size s ha =>
    have honly := ipcKmsgAlloc_kmsgOnly ha
    rcases hZ.alloc hK.zone ha with ⟨_, hz, _, hlog⟩ | ⟨h0, _⟩
    · refine hK.of_queues _ (hlog ▸ hz) (congrArg liveOf hlog) (fun p => ?_) _
      rw [honly.ports]
      rfl
    · exact absurd rfl h0
  | @full msg size port m s ha hm =>
    have hall := KmsgOnly.full ha (filledKmsg w.ipc msg size port)
    obtain ⟨hz, hlive, _⟩ := hK.of_alloc_free hZ ha hm (filledKmsg w.ipc msg size port)
    refine hK.of_queues _ hz hlive (fun p => ?_) _
    rw [hall.ports]
    rfl
  | sent hl hp hsize ha hm hlt => exact hK.sent hZ hI ha hm _ hlt
  | took hl hp hmsg hq he => exact (hK.taken hZ hI hq he _).1
  | @blocked msg port n hl hp hn hmsg hc ht =>
    refine hK.of_queues (w.ipc.waitOn port) (hZ.congr hK.zone ⟨rfl, rfl, rfl, rfl, rfl, rfl, rfl⟩) rfl
      (fun p => ?_) _
    change (Function.update w.ipc.ports port _ p).queue = _
    by_cases hpp : p = port
    · rw [hpp, Function.update_self]
      rfl
    · rw [Function.update_of_ne hpp]
      rfl
  | empty hw hc => exact hK.of_queues _ hK.zone rfl (fun _ => rfl) _
  | resumed hw hn hq he => exact (hK.taken hZ hI hq he _).1
  | removed hl hp =>
    have hK' := hK.released hZ hI hp (hP _ (by rw [IpcOp.releases, hl]))
    exact ⟨hZ.congr hK'.zone ⟨rfl, rfl, rfl, rfl, rfl, rfl, rfl⟩, hK'.queued, hK'.nodup, hK'.unique⟩
  | released hp => exact hK.released hZ hI (hI.live _ hp) (hP _ rfl)
  | user m =>
    exact hK.of_queues { w.ipc with user := m }
      (hZ.congr hK.zone ⟨rfl, rfl, rfl, rfl, rfl, rfl, rfl⟩) rfl (fun _ => rfl) _

end Rules

/-- Every port that is allocated or that a name resolves to is one of `ports`. -/
structure PortsAmong (ports : List Word) (w : IpcWorld) : Prop where
  names : ∀ space name p, ipcSpaceLookup w.ipc space name = (.success, some p) → p ∈ ports
  live : ∀ p ∈ w.livePorts, p ∈ ports

theorem PortsAmong.of_same (hN : PortsAmong ports w) (hsp : w'.ipc.spaces = w.ipc.spaces)
    (hlog : w'.ipc.portLog = w.ipc.portLog) : PortsAmong ports w' := by
  refine ⟨fun space name p hl => ?_, ?_⟩
  · rw [ipcSpaceLookup_congr hsp] at hl
    exact hN.names space name p hl
  · rw [IpcWorld.livePorts, hlog]
    exact hN.live

theorem PortsAmong.released (hI : IpcInv created w) (hN : PortsAmong ports w) {port : Word}
    (hp : port ≠ ipcPortNull) : PortsAmong ports { w with ipc := ipcPortRelease w.ipc port } := by
  obtain ⟨hf, _, _, hcase⟩ := ipcPortRelease_frame hp hI.zone (hI.ok port) (hI.nonnull port)
  refine ⟨fun space name p hl => ?_, fun p hp' => ?_⟩
  · rw [ipcSpaceLookup_congr hf.spaces] at hl
    exact hN.names space name p hl
  · rcases hcase with ⟨_, hlog, _⟩ | ⟨_, hlog, _⟩
    · rw [IpcWorld.livePorts, hlog] at hp'
      exact hN.live p hp'
    · rw [IpcWorld.livePorts, hlog] at hp'
      exact hN.live p (liveOf_free_subset hp')

theorem PortsAmong.step (hI : IpcInv created w) (hN : PortsAmong ports w)
    (hs : IpcStep h w op w') : PortsAmong ports w' := by
  cases hI.move hs with
  | yield => exact hN.of_same rfl rfl
  | refused hop => exact hN
  | @noKmsg msg size s ha =>
    have honly := ipcKmsgAlloc_kmsgOnly ha
    exact hN.of_same honly.spaces honly.portLog
  | @full msg size port m s ha hm =>
    have hall := KmsgOnly.full ha (filledKmsg w.ipc msg size port)
    exact hN.of_same hall.spaces hall.portLog
  | @sent msg size port m s hl hp hsize ha hm hlt =>
    have honly := ipcKmsgAlloc_kmsgOnly ha
    exact hN.of_same honly.spaces honly.portLog
  | took hl hp hmsg hq he =>
    obtain ⟨_, _, hsp, _, hlog, _⟩ := taken_spec he
    exact hN.of_same hsp hlog
  | blocked hl hp hn hmsg hc ht => exact hN.of_same rfl rfl
  | empty hw hc => exact hN.of_same rfl rfl
  | resumed hw hn hq he =>
    obtain ⟨_, _, hsp, _, hlog, _⟩ := taken_spec he
    exact hN.of_same hsp hlog
  | removed hl hp =>
    have hN' := hN.released hI hp
    exact ⟨fun space name p hl' => hN'.names space name p (ipcSpaceLookup_cleared hl').1, hN'.live⟩
  | released hp => exact hN.released hI (hI.live _ hp)
  | user m => exact hN.of_same rfl rfl

/-- The ports a call may release are among those. -/
theorem PortsAmong.releases (hN : PortsAmong ports w) (hs : IpcStep h w op w') {p : Word}
    (hp : op.releases w = some p) : p ∈ ports := by
  cases hs with
  | remove space name hw =>
    rcases ipcSpaceRemove_cases w.ipc space name with ⟨hnone, _⟩ | ⟨port, hl, _, _⟩
    · rw [IpcOp.releases, hnone] at hp
      cases hp
    · rw [IpcOp.releases, hl] at hp
      cases hp
      exact hN.names _ _ _ hl
  | release hw hlive =>
    cases hp
    exact hN.live _ hlive
  | _ => cases hp

/-- What the runs of messages keep: who owns each kmsg, and which ports there are. -/
structure OwnInv (h : Hhdm) (k₀ : Kmem) (created ports : List Word) (w : IpcWorld) : Prop where
  inv : IpcInv created w
  kmsg : KmsgInv (KmsgZone h k₀) w
  among : PortsAmong ports w
  mem : ∀ p ∈ ports, ∀ x, x-p < 8 → ¬ k₀.pmm.Free (frameOf h x)

theorem OwnInv.rules {k₀ : Kmem} (hO : OwnInv h k₀ created ports w) :
    KmsgRules h (fun _ p => p ∈ ports) (KmsgZone h k₀) := kmsgZone_rules h k₀ hO.mem

theorem OwnInv.step {k₀ : Kmem} (hO : OwnInv h k₀ created ports w) (hs : IpcStep h w op w') :
    OwnInv h k₀ created ports w' :=
  ⟨hO.inv.step hs, hO.kmsg.step hO.rules hO.inv hs fun _ hp => hO.among.releases hs hp,
    hO.among.step hO.inv hs, hO.mem⟩

theorem IpcBoot.own (hb : IpcBoot h w created) :
    OwnInv h w.ipc.kern.kmem created w.livePorts w := by
  have hq (p : Word) : (w.port p).queue = [] :=
    (hb.inv.ok p).queue_eq_nil_iff.mpr (hb.empty p).2.1
  obtain ⟨hz, hlog⟩ := hb.kmsgs
  obtain ⟨zp, hzp, hlt⟩ := hb.portZone
  have hlive : liveOf w.ipc.kmsgLog = [] := by rw [hlog, liveOf]
  have hother (z : ℕ) (he : w.ipc.portZone = some z) : z < w.ipc.kern.zoneStore.zoneCount := by
    rw [hzp] at he
    exact Option.some.inj he ▸ hlt
  refine ⟨hb.inv, ⟨⟨hb.pageZero, fun _ hn => hn, hother, ?_, Or.inl ⟨hz, hlive⟩⟩, fun m => ?_,
    fun p => ?_, fun p q m hm => ?_⟩, ⟨hb.names, fun p hp => hp⟩, fun p hp => (hb.portMem p hp).2⟩
  · rw [hlive]
    exact List.nodup_nil
  · rw [hlive]
    simp [hq]
  · rw [hq]
    exact List.nodup_nil
  · rw [hq] at hm
    simp at hm

/-- A port that is not allocated holds no message. -/
def DeadEmpty (w : IpcWorld) : Prop := ∀ p, p ∉ w.livePorts → (w.port p).queue = []

/-- Where no port is freed and only `port`, which is allocated, may gain messages. -/
theorem DeadEmpty.of_port (hD : DeadEmpty w) (hlive : w'.livePorts = w.livePorts)
    (hq : ∀ p, p ∉ w.livePorts → (w.port p).queue = [] → (w'.port p).queue = []) :
    DeadEmpty w' := by
  intro p hp
  rw [hlive] at hp
  exact hq p hp (hD p hp)

theorem DeadEmpty.of_kmsgOnly (hD : DeadEmpty w) {s : Ipc} (hs : KmsgOnly w.ipc s) :
    DeadEmpty { w with ipc := s } := by
  refine hD.of_port (congrArg liveOf hs.portLog) fun p _ hq => ?_
  rw [IpcWorld.port, hs.ports]
  exact hq

theorem DeadEmpty.taken (hD : DeadEmpty w) {port msg n m : Word}
    {rest : List Word} {kr : KernReturn} {size' : Option Word} {s : Ipc}
    (hq : (w.port port).queue = m :: rest) (he : w.ipc.taken port msg n m = (kr, size', s))
    (waits : Word → Option Wait) : DeadEmpty ⟨s, waits⟩ := by
  obtain ⟨_, hports, _, _, hlog, _⟩ := taken_spec he
  refine hD.of_port (congrArg liveOf hlog) fun p _ hnil => ?_
  have hne : p ≠ port := by
    rintro rfl
    rw [hq] at hnil
    cases hnil
  rw [IpcWorld.port, hports, Function.update_of_ne hne]
  exact hnil

theorem DeadEmpty.released (hI : IpcInv created w) (hD : DeadEmpty w) {port : Word}
    (hp : port ≠ ipcPortNull) : DeadEmpty { w with ipc := ipcPortRelease w.ipc port } := by
  obtain ⟨hf, _, _, hcase⟩ := ipcPortRelease_frame hp hI.zone (hI.ok port) (hI.nonnull port)
  have hother (p : Word) (hne : p ≠ port) :
      IpcWorld.port { w with ipc := ipcPortRelease w.ipc port } p = w.port p := hf.others p hne
  rcases hcase with ⟨_, hlog, hq⟩ | ⟨_, hlog, hq⟩
  · refine hD.of_port (congrArg liveOf hlog) fun p _ hnil => ?_
    by_cases hne : p = port
    · rw [hne] at hnil ⊢
      exact hq.trans hnil
    · rw [hother p hne]
      exact hnil
  · intro p hdead
    by_cases hne : p = port
    · rw [hne]
      exact hq
    · rw [hother p hne]
      refine hD p fun hl => hdead ?_
      rw [IpcWorld.livePorts, hlog, liveOf]
      exact (List.mem_erase_of_ne hne).mpr hl

/-- No message is sent to a port that has been freed. -/
def SendsToLive (w : IpcWorld) : IpcOp → Prop
  | .send msg _ _ => ∀ p, w.lookup (load64 w.ipc.user (msg+msghRemotePort)) = some p →
    p ∈ w.livePorts
  | _ => True

theorem DeadEmpty.step (hI : IpcInv created w) (hD : DeadEmpty w) (hs : IpcStep h w op w')
    (hsafe : SendsToLive w op) : DeadEmpty w' := by
  cases hI.move hs with
  | yield => exact hD
  | refused hop => exact hD
  | @noKmsg msg size s ha =>
    have honly := ipcKmsgAlloc_kmsgOnly ha
    exact hD.of_kmsgOnly honly
  | @full msg size port m s ha hm =>
    exact hD.of_kmsgOnly (KmsgOnly.full ha _)
  | @sent msg size port m s hl hp hsize ha hm hlt =>
    have honly := ipcKmsgAlloc_kmsgOnly ha
    refine hD.of_port (congrArg liveOf honly.portLog) fun p hdead hnil => ?_
    have hne : p ≠ port := by
      rintro rfl
      exact hdead (hsafe p hl)
    change (Function.update s.ports port _ p).queue = []
    rw [Function.update_of_ne hne, honly.ports]
    exact hnil
  | took hl hp hmsg hq he => exact hD.taken hq he _
  | @blocked msg port n hl hp hn hmsg hc ht =>
    refine hD.of_port rfl fun p _ hnil => ?_
    change (Function.update w.ipc.ports port _ p).queue = []
    by_cases hne : p = port
    · rw [hne] at hnil ⊢
      rw [Function.update_self]
      exact hnil
    · rw [Function.update_of_ne hne]
      exact hnil
  | empty hn hc => exact hD
  | resumed hn hsize hq he => exact hD.taken hq he _
  | removed hl hp => exact hD.released hI hp
  | released hp => exact hD.released hI (hI.live _ hp)
  | user m => exact hD

/-- Every kmsg that the zone has handed out is in one slot of one allocated port's queue;
and the next call keeps it so where it fails to send, or frees a port. -/
structure KmsgOwnership (h : Hhdm) (w : IpcWorld) : Prop where
  owned : ∀ m, m ∈ liveOf w.ipc.kmsgLog ↔ ∃ p ∈ w.livePorts, m ∈ (w.port p).queue
  slot : ∀ (p q : Word) (i j : ℕ) (m : Word), (w.port p).queue[i]? = some m →
    (w.port q).queue[j]? = some m → p = q ∧ i = j
  zone : (w.ipc.kmsgZone = none ∧ liveOf w.ipc.kmsgLog = []) ∨
    ∃ z pages free, w.ipc.kmsgZone = some z ∧ ZoneOk h w.ipc.kern.kmem pages
      (w.ipc.kern.zoneStore.zones z) free {m | m ∈ liveOf w.ipc.kmsgLog}
  unsent : ∀ msg size kr w', IpcStep h w (.send msg size kr) w' → kr ≠ .success →
    w'.ipc.ports = w.ipc.ports ∧ w'.sched = w.sched ∧
      liveOf w'.ipc.kmsgLog = liveOf w.ipc.kmsgLog
  last : ∀ op p w', IpcStep h w op w' → op.releases w = some p → (w.port p).refCount = 1 →
    (w'.port p).queue = [] ∧ ∀ m, m ∈ liveOf w'.ipc.kmsgLog ↔
      m ∈ liveOf w.ipc.kmsgLog ∧ m ∉ (w.port p).queue

theorem KmsgInv.slot (hK : KmsgInv Z w) {p q m : Word} {i j : ℕ}
    (hp : (w.port p).queue[i]? = some m) (hq : (w.port q).queue[j]? = some m) :
    p = q ∧ i = j := by
  obtain rfl := hK.unique p q m (List.mem_of_getElem? hp) (List.mem_of_getElem? hq)
  obtain ⟨hi, rfl⟩ := List.getElem?_eq_some_iff.mp hp
  obtain ⟨hj, he⟩ := List.getElem?_eq_some_iff.mp hq
  exact ⟨rfl, ((hK.nodup p).getElem_inj_iff).mp he.symm⟩

theorem KmsgInv.unsent (hZ : KmsgRules h P Z) (hI : IpcInv created w) (hK : KmsgInv Z w)
    {msg size : Word}
    {kr : KernReturn} (hs : IpcStep h w (.send msg size kr) w') (hkr : kr ≠ .success) :
    w'.ipc.ports = w.ipc.ports ∧ w'.sched = w.sched ∧
      liveOf w'.ipc.kmsgLog = liveOf w.ipc.kmsgLog := by
  cases hI.move hs with
  | refused hop => exact ⟨rfl, rfl, rfl⟩
  | @noKmsg msg size s ha =>
    have honly := ipcKmsgAlloc_kmsgOnly ha
    refine ⟨honly.ports, honly.sched, ?_⟩
    rcases hZ.alloc hK.zone ha with ⟨_, _, _, hlog⟩ | ⟨h0, _⟩
    · exact congrArg liveOf hlog
    · exact absurd rfl h0
  | @full msg size port m s ha hm =>
    have hall := KmsgOnly.full ha (filledKmsg w.ipc msg size port)
    exact ⟨hall.ports, hall.sched, (hK.of_alloc_free hZ ha hm _).2.1⟩
  | sent hl hp hsize ha hm hlt => exact absurd rfl hkr

theorem KmsgInv.last (hZ : KmsgRules h P Z) (hI : IpcInv created w) (hK : KmsgInv Z w) {p : Word}
    (hs : IpcStep h w op w') (hop : op.releases w = some p) (hP : P w.ipc.portLog p)
    (href : (w.port p).refCount = 1) :
    (w'.port p).queue = [] ∧ ∀ m, m ∈ liveOf w'.ipc.kmsgLog ↔
      m ∈ liveOf w.ipc.kmsgLog ∧ m ∉ (w.port p).queue := by
  have hrel (hp : p ≠ ipcPortNull) : ((ipcPortRelease w.ipc p).ports p).queue = [] ∧
      ∀ m, m ∈ liveOf (ipcPortRelease w.ipc p).kmsgLog ↔
        m ∈ liveOf w.ipc.kmsgLog ∧ m ∉ (w.port p).queue := by
    obtain ⟨_, _, hiff⟩ := hK.release_kmsgs hZ hI hp hP
    refine ⟨?_, fun m => ?_⟩
    · rw [hI.released_queue hp, if_pos ⟨rfl, href⟩]
    · rw [hiff]
      exact and_congr_right fun _ => ⟨fun hm => hm href, fun hm _ => hm⟩
  cases hI.move hs with
  | @refused op hr =>
    cases op with
    | remove space name =>
      rw [IpcOp.releases, hr] at hop
      cases hop
    | release port => exact hr.elim
    | _ => cases hop
  | removed hl hp =>
    rw [IpcOp.releases, hl] at hop
    cases hop
    exact hrel hp
  | released hp =>
    cases hop
    exact hrel (hI.live _ hp)
  | _ => cases hop

/-- Where no message goes to a freed port, every kmsg in use is in one queue slot of a port
that is allocated. -/
theorem ipc_run_kmsg_ownership (h : Hhdm) (created : List Word) (w₀ w : IpcWorld)
    (ops : List IpcOp) (hb : IpcBoot h w₀ created)
    (hr : Run (fun w op w' => IpcStep h w op w' ∧ SendsToLive w op) w₀ ops w) :
    KmsgOwnership h w := by
  obtain ⟨hO, hD⟩ : OwnInv h w₀.ipc.kern.kmem created w₀.livePorts w ∧ DeadEmpty w := by
    refine hr.inv (I := fun w => OwnInv h w₀.ipc.kern.kmem created w₀.livePorts w ∧ DeadEmpty w)
      (fun w op w' hs hI => ⟨hI.1.step hs.1, hI.2.step hI.1.inv hs.1 hs.2⟩)
      ⟨hb.own, fun p _ => ?_⟩
    exact (hb.inv.ok p).queue_eq_nil_iff.mpr (hb.empty p).2.1
  have hI := hO.inv
  have hK := hO.kmsg
  refine ⟨fun m => ?_, fun p q i j m => hK.slot, ?_, fun msg size kr w' => hK.unsent hO.rules hI,
    fun op p w' hs hop href => hK.last hO.rules hI hs hop (hO.among.releases hs hop) href⟩
  · rw [hK.queued]
    constructor
    · rintro ⟨p, hm⟩
      refine ⟨p, ?_, hm⟩
      by_contra hp
      rw [hD p hp] at hm
      simp at hm
    · rintro ⟨p, _, hm⟩
      exact ⟨p, hm⟩
  · rcases StaticZone.zone hK.zone with hnone | ⟨z, pages, free, hz, _, _, hok, _⟩
    · exact Or.inl hnone
    · exact Or.inr ⟨z, pages, free, hz, hok⟩

end Inv

/-- A message sent to the waiting receiver is the one kmsg in use. -/
theorem ipc_run_kmsg_ownership_send : ∃ w, Run (fun w op w' => IpcStep higherHalf w op w' ∧
    SendsToLive w op) ipcStart
    [.receive 0x100 (some 512) (.blocked 0x30), .send 0x100 48 .success] w ∧
      KmsgOwnership higherHalf w ∧ liveOf w.ipc.kmsgLog = (w.port 0x30).queue ∧
      (w.port 0x30).queue.length = 1 := by
  have h2 : SendsToLive ipcOneWaits (.send 0x100 48 .success) := by
    rintro p hp
    have hl : ipcOneWaits.lookup (load64 ipcOneWaits.ipc.user (0x100+msghRemotePort)) =
        some 0x30 := by decide +kernel
    obtain rfl : 0x30 = p := Option.some.inj (hl.symm.trans hp)
    decide +kernel
  have hr : Run (fun w op w' => IpcStep higherHalf w op w' ∧ SendsToLive w op) ipcStart _ _ :=
    (Run.start.snoc ⟨ipcOneWaits_step, trivial⟩).snoc ⟨ipcOneWoken_step, h2⟩
  refine ⟨_, hr, ipc_run_kmsg_ownership higherHalf _ _ _ _ ipcStart_boot hr, ?_, ?_⟩
  · decide +kernel
  · decide +kernel

end Dana
