import Dana.IpcKmsgZone
import Dana.ThreadDestroy
import Dana.Zones

/-! The zones of threads and of messages beside a zone of ports that is left to itself, in
a kernel whose stacks and ports hold pages of their own. -/
namespace Dana
open ByteMem

theorem ZoneStore.set_comm (s : ZoneStore) {z z' : ℕ} (hne : z ≠ z') (v v' : Zone) :
    (s.set z v).set z' v' = (s.set z' v').set z v := by
  unfold ZoneStore.set
  rw [Function.update_comm hne]

theorem ZoneStore.set_set (s : ZoneStore) (z : ℕ) (v v' : Zone) :
    (s.set z v).set z v' = s.set z v' := by
  unfold ZoneStore.set
  rw [Function.update_idem]

/-- Making a zone does not touch one that exists. -/
theorem zinit_set (s : ZoneStore) {z : ℕ} (hz : z < s.zoneCount) (v : Zone) (size max : Word) :
    zinit (s.set z v) size max = ((zinit s size max).1, (zinit s size max).2.set z v) := by
  by_cases hmax : zoneMax ≤ s.zoneCount
  · have hmax' : zoneMax ≤ (s.set z v).zoneCount := hmax
    rw [zinit, zinit, if_pos hmax, if_pos hmax']
  · have hmax' : ¬ zoneMax ≤ (s.set z v).zoneCount := hmax
    rw [zinit, zinit, if_neg hmax, if_neg hmax']
    unfold ZoneStore.set
    simp only
    rw [Function.update_comm (Nat.ne_of_lt hz)]

section World
variable {h : Hhdm} {w : ZoneWorld} {z : ℕ} {e : Word} {zone : Zone} {k : Kmem}

theorem ZoneWorldInv.zalloc (hI : ZoneWorldInv h w) (hz : z < w.store.zoneCount)
    (ha : zalloc h (w.store.zones z) w.kmem = (e, zone, k)) :
    (e = 0 ∧ zone = w.store.zones z ∧ k = w.kmem) ∨
    (e ≠ 0 ∧ e ∉ w.live z ∧ ∃ w', ZoneWorldInv h w' ∧ w'.kmem = k ∧
      w'.store = w.store.set z zone ∧ w'.taken = w.taken ∧
      w'.live = Function.update w.live z (insert e (w.live z))) := by
  rcases hI.zones.zalloc hz ha with hfail | ⟨hne, hnl, _⟩
  · exact Or.inl hfail
  · refine Or.inr ⟨hne, hnl, _, hI.step (.zalloc w hz ha), rfl, rfl, rfl, ?_⟩
    have hset : w.live z ∪ {x | x = e ∧ e ≠ 0} = insert e (w.live z) := by
      have hne' : ¬ e = 0#64 := hne
      ext x
      simp [hne']
    rw [← hset]

theorem ZoneWorldInv.zfree (hI : ZoneWorldInv h w) (he : e ∈ w.live z)
    (hf : zfree (w.store.zones z) e w.kmem = (zone, k)) :
    ∃ w', ZoneWorldInv h w' ∧ w'.kmem = k ∧ w'.store = w.store.set z zone ∧
      w'.taken = w.taken ∧ w'.live = Function.update w.live z (w.live z \ {e}) :=
  ⟨_, hI.step (.zfree w he hf), rfl, rfl, rfl, rfl⟩

theorem ZoneWorldInv.live_ne_zero (hI : ZoneWorldInv h w) (he : e ∈ w.live z) : e ≠ 0 := by
  obtain ⟨free, hok, _⟩ := hI.zones.zone z (hI.zones.lt_of_live he)
  exact hok.live_ne_zero he

end World

/-- The zone kept in a static variable has handed out `l`, and is not zone `zp`. -/
def ZoneHolds (w : ZoneWorld) (zp : ℕ) (zone : Option ℕ) (l : List Word) : Prop :=
  (zone = none ∧ l = []) ∨
    ∃ z, zone = some z ∧ z < w.store.zoneCount ∧ z ≠ zp ∧ w.live z = {x | x ∈ l}

/-- A zone with no page, in the place of the port zone. -/
def blankZone : Zone := ⟨8, 0, 0, 0, 0, 0⟩

/-- The zones `w` of a kernel, but for the port zone `zp`. The pages `H` are in the hands of
others: ports and kernel stacks. -/
structure KernZones (h : Hhdm) (H : Set ℕ) (s : Ipc) (w : ZoneWorld) (zp : ℕ)
    (threads live : List Word) : Prop where
  inv : ZoneWorldInv h w
  kmem : w.kmem = s.kern.kmem
  store : w.store = s.kern.zoneStore.set zp blankZone
  taken : w.taken = H
  port : s.portZone = some zp ∧ zp < s.kern.zoneStore.zoneCount
  thread : ZoneHolds w zp s.kern.threadZone threads
  kmsg : ZoneHolds w zp s.kmsgZone live
  apart : ∀ z, s.kern.threadZone = some z → s.kmsgZone ≠ some z
  nodup : threads.Nodup ∧ live.Nodup

section Zones
variable {h : Hhdm} {H : Set ℕ} {s s' : Ipc} {w w' : ZoneWorld} {zp z : ℕ}
variable {threads live l : List Word} {e : Word} {zone : Zone} {k : Kmem} {o : Option ℕ}

theorem ZoneHolds.congr (hz : ZoneHolds w zp o l)
    (hc : w.store.zoneCount ≤ w'.store.zoneCount)
    (hl : ∀ z, o = some z → w'.live z = w.live z) : ZoneHolds w' zp o l := by
  rcases hz with hnone | ⟨z, ho, hlt, hne, hlive⟩
  · exact Or.inl hnone
  · exact Or.inr ⟨z, ho, hlt.trans_le hc, hne, (hl z ho).trans hlive⟩

theorem ZoneHolds.some (hz : ZoneHolds w zp (some z) l) :
    z < w.store.zoneCount ∧ z ≠ zp ∧ w.live z = {x | x ∈ l} := by
  rcases hz with ⟨hnone, _⟩ | ⟨z', ho, hlt, hne, hlive⟩
  · cases hnone
  · cases ho
    exact ⟨hlt, hne, hlive⟩

theorem ZoneHolds.empty (hz : ZoneHolds w zp none l) : l = [] := by
  rcases hz with ⟨_, hl⟩ | ⟨z, hz', _⟩
  · exact hl
  · cases hz'

/-- What the zone has handed out becomes `l'`. -/
theorem ZoneHolds.changed {l' : List Word} (hz : ZoneHolds w zp (Option.some z) l)
    (hst : w'.store = w.store.set z zone)
    (hl : w'.live = Function.update w.live z {x | x ∈ l'}) :
    ZoneHolds w' zp (Option.some z) l' := by
  refine Or.inr ⟨z, rfl, ?_, hz.some.2.1, ?_⟩
  · rw [hst]
    exact hz.some.1
  · rw [hl, Function.update_self]

/-- Another zone holds what it did. -/
theorem ZoneHolds.kept {S : Set Word} (ho : ZoneHolds w zp o l) (hne : o ≠ Option.some z)
    (hst : w'.store = w.store.set z zone) (hl : w'.live = Function.update w.live z S) :
    ZoneHolds w' zp o l := by
  refine ho.congr (by rw [hst]; exact le_rfl) fun z' hz' => ?_
  rw [hl, Function.update_of_ne]
  rintro rfl
  exact hne hz'

theorem KernZones.congr (hK : KernZones h H s w zp threads live) (hk : s'.kern.kmem = s.kern.kmem)
    (hst : s'.kern.zoneStore = s.kern.zoneStore) (ht : s'.kern.threadZone = s.kern.threadZone)
    (hz : s'.kmsgZone = s.kmsgZone) (hp : s'.portZone = s.portZone) :
    KernZones h H s' w zp threads live := by
  refine ⟨hK.inv, hK.kmem.trans hk.symm, ?_, hK.taken, ?_, ?_, ?_, ?_, hK.nodup⟩
  · rw [hst]
    exact hK.store
  · rw [hp, hst]
    exact hK.port
  · rw [ht]
    exact hK.thread
  · rw [hz]
    exact hK.kmsg
  · rw [ht, hz]
    exact hK.apart

/-- The zone of the store, where it is not the port zone. -/
theorem KernZones.zones_eq (hK : KernZones h H s w zp threads live) (hz : z ≠ zp) :
    w.store.zones z = s.kern.zoneStore.zones z := by
  rw [hK.store, ZoneStore.set_zones_of_ne _ _ hz]

/-- A call on zone `z` has changed the memory and that zone. -/
theorem KernZones.set_store (hK : KernZones h H s w zp threads live) (hz : z ≠ zp) (v : Zone) :
    w.store.set z v = (s.kern.zoneStore.set z v).set zp blankZone := by
  rw [hK.store, ZoneStore.set_comm _ (Ne.symm hz)]

theorem insert_set (l : List Word) (e : Word) : insert e {x | x ∈ l} = {x | x ∈ e :: l} := by
  ext x
  simp

/-- What is left of a list of elements without one of them. -/
theorem erase_set (hnd : l.Nodup) (e : Word) : {x | x ∈ l} \ {e} = {x | x ∈ l.erase e} := by
  ext x
  simp [hnd.mem_erase_iff, and_comm]

/-- `zalloc` from the thread zone. -/
theorem KernZones.zallocThread (hK : KernZones h H s w zp threads live)
    (ht : s.kern.threadZone = some z)
    (ha : zalloc h (s.kern.zoneStore.zones z) s.kern.kmem = (e, zone, k)) :
    (e = 0 ∧ zone = s.kern.zoneStore.zones z ∧ k = s.kern.kmem) ∨
    (e ≠ 0 ∧ e ∉ threads ∧
      ∃ w', KernZones h H (s.setZone z zone k) w' zp (e :: threads) live) := by
  obtain ⟨hlt, hne, hlive⟩ := (ht ▸ hK.thread).some
  rw [← hK.zones_eq hne, ← hK.kmem] at ha ⊢
  rcases hK.inv.zalloc hlt ha with hfail | ⟨he0, hel, w', hI, hk, hst, htk, hl⟩
  · exact Or.inl hfail
  have hnew : e ∉ threads := by
    rw [hlive] at hel
    exact hel
  rw [hlive, insert_set] at hl
  refine Or.inr ⟨he0, hnew, w', hI, hk, ?_, htk.trans hK.taken, hK.port, ?_,
    hK.kmsg.kept (hK.apart z ht) hst hl, hK.apart, List.nodup_cons.mpr ⟨hnew, hK.nodup.1⟩,
    hK.nodup.2⟩
  · rw [hst, hK.set_store hne]
    rfl
  · exact ht ▸ (ht ▸ hK.thread).changed hst hl

theorem KernZones.zallocKmsg (hK : KernZones h H s w zp threads live)
    (hz : s.kmsgZone = some z)
    (ha : zalloc h (s.kern.zoneStore.zones z) s.kern.kmem = (e, zone, k)) :
    (e = 0 ∧ zone = s.kern.zoneStore.zones z ∧ k = s.kern.kmem) ∨
    (e ≠ 0 ∧ e ∉ live ∧ ∃ w', KernZones h H (s.setZone z zone k) w' zp threads (e :: live)) := by
  obtain ⟨hlt, hne, hlive⟩ := (hz ▸ hK.kmsg).some
  rw [← hK.zones_eq hne, ← hK.kmem] at ha ⊢
  rcases hK.inv.zalloc hlt ha with hfail | ⟨he0, hel, w', hI, hk, hst, htk, hl⟩
  · exact Or.inl hfail
  have hnew : e ∉ live := by
    rw [hlive] at hel
    exact hel
  rw [hlive, insert_set] at hl
  refine Or.inr ⟨he0, hnew, w', hI, hk, ?_, htk.trans hK.taken, hK.port,
    hK.thread.kept (fun ht => hK.apart z ht hz) hst hl, ?_, hK.apart, hK.nodup.1,
    List.nodup_cons.mpr ⟨hnew, hK.nodup.2⟩⟩
  · rw [hst, hK.set_store hne]
    rfl
  · exact hz ▸ (hz ▸ hK.kmsg).changed hst hl

theorem KernZones.zfreeThread (hK : KernZones h H s w zp threads live)
    (ht : s.kern.threadZone = some z) (he : e ∈ threads)
    (hf : zfree (s.kern.zoneStore.zones z) e s.kern.kmem = (zone, k)) :
    ∃ w', KernZones h H (s.setZone z zone k) w' zp (threads.erase e) live := by
  obtain ⟨hlt, hne, hlive⟩ := (ht ▸ hK.thread).some
  rw [← hK.zones_eq hne, ← hK.kmem] at hf
  have hmem : e ∈ w.live z := by
    rw [hlive]
    exact he
  obtain ⟨w', hI, hk, hst, htk, hl⟩ := hK.inv.zfree hmem hf
  rw [hlive, erase_set hK.nodup.1] at hl
  refine ⟨w', hI, hk, ?_, htk.trans hK.taken, hK.port, ?_, hK.kmsg.kept (hK.apart z ht) hst hl,
    hK.apart, hK.nodup.1.erase e, hK.nodup.2⟩
  · rw [hst, hK.set_store hne]
    rfl
  · exact ht ▸ (ht ▸ hK.thread).changed hst hl

theorem KernZones.zfreeKmsg (hK : KernZones h H s w zp threads live)
    (hz : s.kmsgZone = some z) (he : e ∈ live) :
    e ≠ 0 ∧ ∃ w', KernZones h H (s.zfree z e) w' zp threads (live.erase e) := by
  obtain ⟨zone, k, hf⟩ : ∃ zone k, zfree (s.kern.zoneStore.zones z) e s.kern.kmem = (zone, k) :=
    ⟨_, _, rfl⟩
  have hs : s.zfree z e = s.setZone z zone k := by
    simp only [Ipc.zfree, hf]
  obtain ⟨hlt, hne, hlive⟩ := (hz ▸ hK.kmsg).some
  rw [← hK.zones_eq hne, ← hK.kmem] at hf
  have hmem : e ∈ w.live z := by
    rw [hlive]
    exact he
  obtain ⟨w', hI, hk, hst, htk, hl⟩ := hK.inv.zfree hmem hf
  rw [hs]
  rw [hlive, erase_set hK.nodup.2] at hl
  refine ⟨hK.inv.live_ne_zero hmem, w', hI, hk, ?_, htk.trans hK.taken, hK.port,
    hK.thread.kept (fun ht => hK.apart z ht hz) hst hl, ?_, hK.apart, hK.nodup.1,
    hK.nodup.2.erase e⟩
  · rw [hst, hK.set_store hne]
    rfl
  · exact hz ▸ (hz ▸ hK.kmsg).changed hst hl

/-- `zinit` leaves what the zones hold, and a zone it makes is empty and new. -/
theorem KernZones.made (hK : KernZones h H s w zp threads live) {size : Word} {r : Option ℕ}
    {st : ZoneStore} (h1 : 1 ≤ size.toNat) (h2 : size.toNat ≤ 4096)
    (hi : zinit s.kern.zoneStore size 0 = (r, st)) :
    ∃ w', ZoneWorldInv h w' ∧ w'.kmem = s.kern.kmem ∧ w'.store = st.set zp blankZone ∧
      w'.taken = H ∧ s.kern.zoneStore.zoneCount ≤ st.zoneCount ∧ ZoneHolds w' zp r [] ∧
      ∀ o l, ZoneHolds w zp o l → ZoneHolds w' zp o l ∧ ∀ z, o = some z → r ≠ some z := by
  obtain ⟨hle, _, hnew⟩ := zinit_old hi
  have hstore : (Dana.zinit w.store size 0).2 = st.set zp blankZone := by
    rw [hK.store, zinit_set _ hK.port.2, hi]
  have hcount : w.store.zoneCount ≤ (Dana.zinit w.store size 0).2.zoneCount := by
    rw [hstore, hK.store]
    exact hle
  refine ⟨_, hK.inv.step (.zinit w 0 h1 h2), hK.kmem, hstore, hK.taken, hle, ?_, fun o l ho =>
    ⟨ho.congr hcount fun _ _ => rfl, ?_⟩⟩
  · cases r with
    | none => exact Or.inl ⟨rfl, rfl⟩
    | some z =>
      obtain ⟨hzc, hlt⟩ := hnew z rfl
      refine Or.inr ⟨z, rfl, ?_, ?_, ?_⟩
      · dsimp only
        rw [hstore]
        exact hlt
      · rw [hzc]
        exact Nat.ne_of_gt hK.port.2
      · have hempty := (hK.inv.zones.unmade z (by rw [hK.store, hzc]; exact le_rfl)).2
        simpa using hempty
  · rintro z rfl hz
    have hlt := ho.some.1
    rw [hK.store] at hlt
    exact Nat.ne_of_lt hlt (hnew z hz).1

/-- The zone of messages is there, or made now, or cannot be made. -/
theorem KernZones.getKmsg (hK : KernZones h H s w zp threads live)
    (hg : s.getZone s.kmsgZone (sizeofIpcKmsg+kmsgZoneSize) = (o, s')) :
    ∃ w', KernZones h H { s' with kmsgZone := o } w' zp threads live := by
  unfold Ipc.getZone at hg
  cases hz : s.kmsgZone with
  | some z =>
    rw [hz] at hg
    cases hg
    exact ⟨w, hK.congr rfl rfl rfl hz.symm rfl⟩
  | none =>
    obtain ⟨r, st, hi⟩ : ∃ r st, zinit s.kern.zoneStore (sizeofIpcKmsg+kmsgZoneSize) 0 = (r, st) :=
      ⟨_, _, rfl⟩
    rw [hz] at hg
    simp only [hi] at hg
    cases hg
    obtain ⟨w', hI, hk, hst, htk, hle, hnew, hold⟩ := hK.made (by decide) (by decide) hi
    obtain ⟨hthread, hne⟩ := hold _ _ hK.thread
    have hlive : live = [] := (hz ▸ hK.kmsg).empty
    rw [← hlive] at hnew
    exact ⟨w', hI, hk, hst, htk, ⟨hK.port.1, hK.port.2.trans_le hle⟩, hthread, hnew, hne,
      hK.nodup⟩

/-- The zone of threads is there, or made now, or cannot be made. -/
theorem KernZones.getThread (hK : KernZones h H s w zp threads live) {k' : Kern}
    (hg : getThreadZone s.kern = (o, k')) :
    ∃ w', KernZones h H { s with kern := k' } w' zp threads live ∧ k'.threadZone = o ∧
      k'.sched = s.kern.sched ∧ k'.tasks = s.kern.tasks := by
  unfold getThreadZone at hg
  cases hz : s.kern.threadZone with
  | some z =>
    rw [hz] at hg
    cases hg
    exact ⟨w, hK, hz, rfl, rfl⟩
  | none =>
    obtain ⟨r, st, hi⟩ : ∃ r st, zinit s.kern.zoneStore sizeofThread 0 = (r, st) := ⟨_, _, rfl⟩
    rw [hz] at hg
    simp only [hi] at hg
    cases hg
    obtain ⟨w', hI, hk, hst, htk, hle, hnew, hold⟩ := hK.made (by decide) (by decide) hi
    obtain ⟨hkmsg, hne⟩ := hold _ _ hK.kmsg
    have hthreads : threads = [] := (hz ▸ hK.thread).empty
    rw [← hthreads] at hnew
    exact ⟨w', ⟨hI, hk, hst, htk, ⟨hK.port.1, hK.port.2.trans_le hle⟩, hnew, hkmsg,
      fun z ht hz' => hne z hz' ht, hK.nodup⟩, rfl, rfl, rfl⟩

/-- Memory is written in the pages of others. -/
theorem KernZones.write (hK : KernZones h H s w zp threads live) {m : Mem}
    (hm : ∀ x, frameOf h x ∉ H → m x = s.kern.kmem.mem x) :
    ∃ w', KernZones h H { s with kern := { s.kern with
      kmem := { s.kern.kmem with mem := m } } } w' zp threads live := by
  refine ⟨_, hK.inv.step (.write w (m := m) fun z x hx hne => ?_), ?_, hK.store, hK.taken, hK.port,
    hK.thread, hK.kmsg, hK.apart, hK.nodup⟩
  · refine absurd ?_ hne
    rw [hK.kmem]
    apply hm
    intro hH
    rw [← hK.taken] at hH
    exact (hK.inv.taken _ hH).2 z hx
  · rw [hK.kmem]

/-- A page goes from the PMM to another holder. -/
theorem KernZones.allocPage (hK : KernZones h H s w zp threads live) {pa : Word} {pmm : Pmm}
    (ha : pmmAllocPage s.kern.kmem.pmm = (pa, pmm)) (hpa : pa ≠ pmmNull) :
    PageAligned pa ∧ pageOf pa ∉ H ∧
      ∃ w', KernZones h (insert (pageOf pa) H) { s with kern := { s.kern with
        kmem := { s.kern.kmem with pmm := pmm } } } w' zp threads live := by
  rw [← hK.kmem] at ha
  obtain ⟨hal, hfree, _⟩ := pmmAllocPage_some hK.inv.zones.pageZero ha hpa
  refine ⟨hal, fun hH => ?_, _, hK.inv.step (.alloc w ha hpa), ?_, hK.store, ?_, hK.port,
    hK.thread, hK.kmsg, hK.apart, hK.nodup⟩
  · rw [← hK.taken] at hH
    exact (hK.inv.taken _ hH).1 hfree
  · rw [hK.kmem]
  · rw [hK.taken]

theorem KernZones.freePage (hK : KernZones h H s w zp threads live) {pa : Word}
    (hpa : pageOf pa ∈ H) :
    ∃ w', KernZones h (H \ {pageOf pa}) { s with kern := { s.kern with
      kmem := { s.kern.kmem with pmm := pmmFreePage s.kern.kmem.pmm pa } } } w' zp threads live := by
  rw [← hK.taken] at hpa
  refine ⟨_, hK.inv.step (.free w hpa), ?_, hK.store, ?_, hK.port, hK.thread, hK.kmsg, hK.apart,
    hK.nodup⟩
  · rw [hK.kmem]
  · rw [hK.taken]

/-- A port returned to its zone is linked through memory of ports. -/
theorem KernZones.freePort (hK : KernZones h H s w zp threads live) {port : Word}
    (hmem : ∀ x, x-port < 8 → frameOf h x ∈ H) (hz : s.portZone = some z) :
    ∃ w', KernZones h H (s.zfree z port) w' zp threads live := by
  obtain rfl : z = zp := Option.some.inj (hz.symm.trans hK.port.1)
  obtain ⟨zone, k, hf⟩ : ∃ zone k, zfree (s.kern.zoneStore.zones z) port s.kern.kmem = (zone, k) :=
    ⟨_, _, rfl⟩
  have hm (x : Word) (hx : frameOf h x ∉ H) : k.mem x = s.kern.kmem.mem x := by
    cases hf
    have hout : ¬ x-port < 8 := fun hlt => hx (hmem x hlt)
    simp only [store64, hout, ↓reduceIte]
  have hpmm : { s.kern.kmem with mem := k.mem } = k := by
    cases hf
    rfl
  obtain ⟨w', hK'⟩ := hK.write hm
  rw [hpmm] at hK'
  refine ⟨w', hK'.inv, ?_, ?_, hK'.taken, hK'.port, hK'.thread, hK'.kmsg, hK'.apart, hK'.nodup⟩
  · rw [hK'.kmem]
    simp only [Ipc.zfree, hf, Ipc.setZone]
  · rw [hK'.store]
    simp only [Ipc.zfree, hf, Ipc.setZone, ZoneStore.set_set]

/-- As an invariant of the zones, with the tasks of the kernel. -/
def HeldZones (h : Hhdm) (H : Set ℕ) (tasks : Word → Task) (threads : List Word) (s : Ipc)
    (live : List Word) : Prop :=
  s.kern.tasks = tasks ∧ ∃ w zp, KernZones h H s w zp threads live

/-- Beside ports whose memory is in pages of others. -/
theorem heldZones_rules {tasks : Word → Task} {ports : List Word}
    (hmem : ∀ p ∈ ports, ∀ x, x-p < 8 → frameOf h x ∈ H) :
    KmsgRules h (fun _ p => p ∈ ports) (HeldZones h H tasks threads) := by
  apply KmsgZoneRules.rules
  refine ⟨?_, ?_, ?_, ?_, ?_, ?_, ?_⟩
  · rintro s live ⟨_, w, zp, hK⟩
    exact hK.nodup.2
  · rintro s s' live ⟨ht, w, zp, hK⟩ hs
    exact ⟨hs.tasks.trans ht, w, zp,
      hK.congr hs.kmem hs.zoneStore hs.threadZone hs.kmsgZone hs.portZone⟩
  · rintro s live ⟨_, w, zp, hK⟩ hz
    rcases hK.kmsg with ⟨_, hl⟩ | ⟨z, hz', _⟩
    · exact hl
    · cases hz.symm.trans hz'
  · rintro s s' live o ⟨ht, w, zp, hK⟩ hg
    obtain ⟨w', hK'⟩ := hK.getKmsg hg
    obtain ⟨st, rfl⟩ := Ipc.getZone_frame hg
    exact ⟨ht, w', zp, hK'⟩
  · rintro s s' live z e ⟨ht, w, zp, hK⟩ hz ha
    obtain ⟨e1, zone, k, he⟩ : ∃ e1 zone k,
      zalloc h (s.kern.zoneStore.zones z) s.kern.kmem = (e1, zone, k) := ⟨_, _, _, rfl⟩
    simp only [Ipc.zalloc, he] at ha
    cases ha
    rcases hK.zallocKmsg hz he with ⟨rfl, rfl, rfl⟩ | ⟨he0, hel, w', hK'⟩
    · refine Or.inl ⟨rfl, ht, w, zp, hK.congr rfl ?_ rfl rfl rfl⟩
      simp [Ipc.setZone, ZoneStore.set]
    · exact Or.inr ⟨he0, hel, ht, w', zp, hK'⟩
  · rintro s live z e ⟨ht, w, zp, hK⟩ hz he
    obtain ⟨he0, w', hK'⟩ := hK.zfreeKmsg hz he
    exact ⟨he0, ht, w', zp, hK'⟩
  · rintro s live z port ⟨ht, w, zp, hK⟩ hz hport
    obtain ⟨w', hK'⟩ := hK.freePort (hmem port hport) hz
    exact ⟨ht, w', zp, hK'.congr rfl rfl rfl rfl rfl⟩

/-- A thread that `thread_create` has made: new, with a page that nobody held. -/
structure Created (h : Hhdm) (H : Set ℕ) (s : Ipc) (threads live : List Word) (zp : ℕ)
    (task t pa : Word) (k' : Kern) : Prop where
  ne_null : t ≠ threadNull
  fresh : t ∉ threads
  stack : PageAligned pa ∧ pa ≠ pmmNull ∧ pageOf pa ∉ H
  zones : ∃ w', KernZones h (insert (pageOf pa) H) { s with kern := k' } w' zp (t :: threads) live
  tasks : k'.tasks = if task ≠ taskNull then
      Function.update s.kern.tasks task ⟨t, (s.kern.tasks task).threadCount+1⟩
    else s.kern.tasks
  sched : ∃ v : Thread, v.state = .runnable ∧ v.refCount = 1 ∧ v.task = task ∧
    v.taskNext = (if task ≠ taskNull then (s.kern.tasks task).threads else threadNull) ∧
    v.kernelStackPhys = pa ∧ k'.sched = (schedEnqueue { s.kern.sched with
      threads := Function.update s.kern.sched.threads t v } t).2

/-- `thread_create` makes a thread, or leaves the threads and the tasks as they were. -/
theorem KernZones.create (hK : KernZones h H s w zp threads live)
    (trampoline task entry arg : Word) {kr : KernReturn} {r : Option Word} {k' : Kern}
    (he : threadCreate h trampoline task entry arg s.kern = (kr, r, k')) :
    (∃ t pa, kr = .success ∧ r = some t ∧ Created h H s threads live zp task t pa k') ∨
    (kr ≠ .success ∧ r = none ∧ (∃ w', KernZones h H { s with kern := k' } w' zp threads live) ∧
      k'.tasks = s.kern.tasks ∧ Untouched threads s.kern.sched k'.sched) := by
  obtain ⟨o, k1, hg⟩ : ∃ o k1, getThreadZone s.kern = (o, k1) := ⟨_, _, rfl⟩
  obtain ⟨w1, hK1, hz1, hsched1, htasks1⟩ := hK.getThread hg
  have hsame {sched : Sched} (hs : sched = s.kern.sched) : Untouched threads s.kern.sched sched := by
    rw [hs]
    exact ⟨rfl, fun _ _ => rfl, rfl, rfl⟩
  cases o with
  | none =>
    rw [threadCreate, hg] at he
    cases he
    exact Or.inr ⟨by decide, rfl, ⟨w1, hK1⟩, htasks1, hsame hsched1⟩
  | some z =>
    obtain ⟨t, zone, kmem, ha⟩ : ∃ t zone kmem,
      zalloc h (k1.zoneStore.zones z) k1.kmem = (t, zone, kmem) := ⟨_, _, _, rfl⟩
    obtain ⟨pa, pmm, hp⟩ : ∃ pa pmm, pmmAllocPage kmem.pmm = (pa, pmm) := ⟨_, _, rfl⟩
    obtain ⟨k2, hk2⟩ : ∃ k2, k2 = Kern.setThread { k1 with
      kmem := { kmem with pmm := pmm }, zoneStore := k1.zoneStore.set z zone } t Thread.zero :=
      ⟨_, rfl⟩
    rw [threadCreate_eq hg ha hp hk2] at he
    rcases hK1.zallocThread hz1 ha with ⟨rfl, rfl, rfl⟩ | ⟨ht0, hnew, w2, hK2⟩
    · rw [if_pos (show (0 : Word) = threadNull from rfl)] at he
      cases he
      refine Or.inr ⟨by decide, rfl, ⟨w1, hK1.congr rfl ?_ rfl rfl rfl⟩, htasks1, hsame hsched1⟩
      simp [ZoneStore.set]
    have ht0' : t ≠ threadNull := ht0
    have hunt : Untouched threads s.kern.sched k2.sched := by
      rw [hk2, ← hsched1]
      exact k1.setThread_untouched t Thread.zero hnew
    have htasks2 : k2.tasks = s.kern.tasks := by
      rw [hk2]
      exact htasks1
    rw [if_neg ht0'] at he
    by_cases hpa : pa = pmmNull
    · -- no stack: the element goes back to the zone
      have hpmm : pmm = kmem.pmm := by
        have h0 := hK2.inv.zones.pageZero
        rw [hK2.kmem] at h0
        exact pmmAllocPage_none h0 (hpa ▸ hp)
      obtain ⟨w3, hK3⟩ := hK2.zfreeThread (z := z) (e := t) hz1 List.mem_cons_self rfl
      rw [if_pos hpa] at he
      cases he
      rw [List.erase_cons_head] at hK3
      refine Or.inr ⟨by decide, rfl, ⟨w3, hK3.congr ?_ ?_ ?_ rfl rfl⟩, htasks2, hunt⟩
      all_goals
        rw [hk2, hpmm]
        rfl
    · obtain ⟨hal, hpH, w3, hK3⟩ := hK2.allocPage hp hpa
      rw [if_neg hpa] at he
      cases he
      obtain ⟨v, hst, href, htask, hnext, hphys, hset⟩ :=
        threadSetup_eq h trampoline task entry arg t pa k2
      obtain ⟨w4, hK4⟩ := hK3.write (m := (threadInitStack kmem.mem (physToVirt h pa+kstackSize)
        trampoline entry arg).1) fun x hx =>
          threadInitStack_frame_of h _ pa trampoline entry arg x hal fun hf => hx (Or.inl hf)
      refine Or.inl ⟨t, pa, rfl, rfl, ht0, hnew, ⟨hal, hpa, hpH⟩, ⟨w4, ?_⟩, ?_, v, hst, href, htask,
        ?_, hphys, ?_⟩
      · rw [hset]
        refine hK4.congr ?_ ?_ ?_ rfl rfl
        all_goals
          rw [hk2]
          rfl
      · rw [hset, ← htasks2]
      · rw [hnext, htasks2]
      · rw [hset, ← hsched1, hk2]
        simp only [Kern.setThread, Function.update_idem]

/-- `thread_destroy` of the last reference gives the stack's page and the thread back. -/
theorem KernZones.destroy (hK : KernZones h H s w zp threads live) {t : Word} (ht : t ∈ threads)
    (href : (s.kern.sched.threads t).refCount = 1)
    (hphys : (s.kern.sched.threads t).kernelStackPhys ≠ 0)
    (hH : pageOf (s.kern.sched.threads t).kernelStackPhys ∈ H) :
    ∃ k', threadDestroy t s.kern = (.success, k') ∧ k'.tasks = s.kern.tasks ∧
      (∃ w', KernZones h (H \ {pageOf (s.kern.sched.threads t).kernelStackPhys})
        { s with kern := k' } w' zp (threads.erase t) live) ∧
      SameLinks (schedDequeue s.kern.sched t).2 k'.sched ∧
      (∀ x, x ≠ t → k'.sched.body x = s.kern.sched.body x) ∧
      ∀ x, (k'.sched.threads x).taskNext = (s.kern.sched.threads x).taskNext := by
  rcases hK.thread with ⟨_, hnil⟩ | ⟨z, hz, _, _, hlive⟩
  · rw [hnil] at ht
    cases ht
  have ht0 : t ≠ threadNull := by
    apply hK.inv.live_ne_zero (z := z)
    rw [hlive]
    exact ht
  obtain ⟨zone, kmem, hf⟩ : ∃ zone kmem, zfree (s.kern.zoneStore.zones z) t { s.kern.kmem with
    pmm := pmmFreePage s.kern.kmem.pmm (s.kern.sched.threads t).kernelStackPhys } = (zone, kmem) :=
    ⟨_, _, rfl⟩
  obtain ⟨sched, he, hlinks, hbody, hnext⟩ := threadDestroy_last ht0 href hz hphys hf
  obtain ⟨w1, hK1⟩ := hK.freePage hH
  obtain ⟨w2, hK2⟩ := hK1.zfreeThread hz ht hf
  exact ⟨_, he, rfl, ⟨w2, hK2.congr rfl rfl rfl rfl rfl⟩, hlinks, hbody, hnext⟩

end Zones
end Dana
