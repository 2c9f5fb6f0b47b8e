import Dana.IpcZone

/-! The zone of messages in a run: what it has to promise those who queue its elements,
and that it does beside a zone of ports that is left to itself. -/
namespace Dana
open ByteMem

/-- What an invariant of the zones may depend on. -/
structure SameZones (s s' : Ipc) : Prop where
  kmem : s'.kern.kmem = s.kern.kmem
  zoneStore : s'.kern.zoneStore = s.kern.zoneStore
  threadZone : s'.kern.threadZone = s.kern.threadZone
  tasks : s'.kern.tasks = s.kern.tasks
  kmsgZone : s'.kmsgZone = s.kmsgZone
  portZone : s'.portZone = s.portZone
  portLog : s'.portLog = s.portLog

/-- An invariant `Z` of the zones, by which the kmsgs handed out are `live`. `P` says which
ports may be returned to their zone. -/
structure KmsgRules (h : Hhdm) (P : List ZoneEvent → Word → Prop) (Z : Ipc → List Word → Prop) :
    Prop where
  nodup : ∀ {s live}, Z s live → live.Nodup
  congr : ∀ {s s' live}, Z s live → SameZones s s' → Z s' live
  alloc : ∀ {s s' live size m}, Z s live → ipcKmsgAlloc h s size = (m, s') →
    (m = ipcKmsgNull ∧ Z s' live ∧ s'.kmsgs = s.kmsgs ∧ s'.kmsgLog = s.kmsgLog) ∨
    (m ≠ ipcKmsgNull ∧ m ∉ live ∧ Z s' (m :: live) ∧
      (∀ x, x ≠ m → s'.kmsgs x = s.kmsgs x) ∧ s'.kmsgLog = .alloc m :: s.kmsgLog ∧
      ¬ kmsgZoneSize < size)
  free : ∀ {s live m}, Z s live → m ∈ live →
    Z (ipcKmsgFree s m) (live.erase m) ∧ (ipcKmsgFree s m).kmsgs = s.kmsgs ∧
      (ipcKmsgFree s m).kmsgLog = .free m :: s.kmsgLog
  freePort : ∀ {s live z port}, Z s live → s.portZone = some z → P s.portLog port →
    Z { s.zfree z port with portLog := .free port :: s.portLog } live

/-- The same in terms of the calls on zones. -/
structure KmsgZoneRules (h : Hhdm) (P : List ZoneEvent → Word → Prop)
    (Z : Ipc → List Word → Prop) : Prop where
  nodup : ∀ {s live}, Z s live → live.Nodup
  congr : ∀ {s s' live}, Z s live → SameZones s s' → Z s' live
  unused : ∀ {s live}, Z s live → s.kmsgZone = none → live = []
  get : ∀ {s s' live z}, Z s live →
    s.getZone s.kmsgZone (sizeofIpcKmsg+kmsgZoneSize) = (z, s') → Z { s' with kmsgZone := z } live
  zalloc : ∀ {s s' live z e}, Z s live → s.kmsgZone = some z → s.zalloc h z = (e, s') →
    (e = 0 ∧ Z s' live) ∨ (e ≠ 0 ∧ e ∉ live ∧ Z s' (e :: live))
  zfree : ∀ {s live z e}, Z s live → s.kmsgZone = some z → e ∈ live →
    e ≠ 0 ∧ Z (s.zfree z e) (live.erase e)
  freePort : ∀ {s live z port}, Z s live → s.portZone = some z → P s.portLog port →
    Z { s.zfree z port with portLog := .free port :: s.portLog } live

section Rules
variable {h : Hhdm} {P : List ZoneEvent → Word → Prop} {Z : Ipc → List Word → Prop}
variable {s s' : Ipc} {live : List Word}

theorem KmsgZoneRules.getKmsg (hZ : KmsgZoneRules h P Z) (hz : Z s live) {z : Option ℕ}
    (hg : getKmsgZone s = (z, s')) :
    Z s' live ∧ s'.kmsgZone = z ∧ s'.kmsgs = s.kmsgs ∧ s'.kmsgLog = s.kmsgLog := by
  obtain ⟨z1, s1, hg1⟩ : ∃ z1 s1, s.getZone s.kmsgZone (sizeofIpcKmsg+kmsgZoneSize) = (z1, s1) :=
    ⟨_, _, rfl⟩
  have h1 := hZ.get hz hg1
  obtain ⟨st, rfl⟩ := Ipc.getZone_frame hg1
  simp only [getKmsgZone, hg1] at hg
  cases hg
  exact ⟨h1, rfl, rfl, rfl⟩

/-- A kmsg handed out was not in use before. -/
theorem KmsgZoneRules.alloc (hZ : KmsgZoneRules h P Z) (hz : Z s live) {size m : Word}
    (ha : ipcKmsgAlloc h s size = (m, s')) :
    (m = ipcKmsgNull ∧ Z s' live ∧ s'.kmsgs = s.kmsgs ∧ s'.kmsgLog = s.kmsgLog) ∨
    (m ≠ ipcKmsgNull ∧ m ∉ live ∧ Z s' (m :: live) ∧
      (∀ x, x ≠ m → s'.kmsgs x = s.kmsgs x) ∧ s'.kmsgLog = .alloc m :: s.kmsgLog ∧
      ¬ kmsgZoneSize < size) := by
  obtain ⟨z, s1, hg⟩ : ∃ z s1, getKmsgZone s = (z, s1) := ⟨_, _, rfl⟩
  obtain ⟨hz1, hkz, hmsgs, hlog⟩ := hZ.getKmsg hz hg
  unfold ipcKmsgAlloc at ha
  rw [hg] at ha
  cases z with
  | none =>
    cases ha
    exact Or.inl ⟨rfl, hz1, hmsgs, hlog⟩
  | some z =>
    simp only at ha
    by_cases hsize : kmsgZoneSize < size
    · rw [if_pos hsize] at ha
      cases ha
      exact Or.inl ⟨rfl, hz1, hmsgs, hlog⟩
    rw [if_neg hsize] at ha
    obtain ⟨e, s2, he⟩ : ∃ e s2, s1.zalloc h z = (e, s2) := ⟨_, _, rfl⟩
    have hframe : s2.kmsgs = s1.kmsgs ∧ s2.kmsgLog = s1.kmsgLog := by
      cases he
      exact ⟨rfl, rfl⟩
    obtain ⟨hm2, hl2⟩ := hframe
    simp only [he] at ha
    rcases hZ.zalloc hz1 hkz he with ⟨rfl, hz2⟩ | ⟨he0, hel, hz2⟩
    · rw [if_pos (show (0 : Word) = ipcKmsgNull from rfl)] at ha
      cases ha
      exact Or.inl ⟨rfl, hz2, hm2.trans hmsgs, hl2.trans hlog⟩
    · have he0' : e ≠ ipcKmsgNull := he0
      rw [if_neg he0'] at ha
      cases ha
      refine Or.inr ⟨he0, hel, hZ.congr hz2 ⟨rfl, rfl, rfl, rfl, rfl, rfl, rfl⟩, fun x hx => ?_, ?_, hsize⟩
      · rw [← hmsgs, ← hm2]
        exact Function.update_of_ne hx _ _
      · rw [← hlog, ← hl2]

/-- A kmsg in use is taken back. -/
theorem KmsgZoneRules.free (hZ : KmsgZoneRules h P Z) (hz : Z s live) {m : Word}
    (hm : m ∈ live) : Z (ipcKmsgFree s m) (live.erase m) ∧ (ipcKmsgFree s m).kmsgs = s.kmsgs ∧
      (ipcKmsgFree s m).kmsgLog = .free m :: s.kmsgLog := by
  obtain ⟨z, s1, hg⟩ : ∃ z s1, getKmsgZone s = (z, s1) := ⟨_, _, rfl⟩
  obtain ⟨hz1, hkz, hmsgs, hlog⟩ := hZ.getKmsg hz hg
  cases z with
  | none =>
    rw [hZ.unused hz1 hkz] at hm
    cases hm
  | some z =>
    obtain ⟨hm0, hz2⟩ := hZ.zfree hz1 hkz hm
    have he : ipcKmsgFree s m = { s1.zfree z m with kmsgLog := .free m :: s1.kmsgLog } := by
      have hm0' : m ≠ ipcKmsgNull := hm0
      rw [ipcKmsgFree, if_neg hm0', hg]
    rw [he]
    exact ⟨hZ.congr hz2 ⟨rfl, rfl, rfl, rfl, rfl, rfl, rfl⟩, hmsgs, congrArg (_ :: ·) hlog⟩

theorem KmsgZoneRules.rules (hZ : KmsgZoneRules h P Z) : KmsgRules h P Z :=
  ⟨hZ.nodup, hZ.congr, fun hz ha => hZ.alloc hz ha, fun hz hm => hZ.free hz hm, hZ.freePort⟩

end Rules

/-- The kmsg zone has handed out `live`, in pages that were free in `k₀`. -/
def KmsgZone (h : Hhdm) (k₀ : Kmem) (s : Ipc) (live : List Word) : Prop :=
  StaticZone h k₀ s s.kmsgZone s.portZone live

section Zone
variable {h : Hhdm} {k₀ : Kmem} {s s' : Ipc} {live : List Word}

theorem KmsgZone.congr (hz : KmsgZone h k₀ s live) (hs : SameZones s s') :
    KmsgZone h k₀ s' live := by
  rw [KmsgZone, hs.kmsgZone, hs.portZone]
  exact StaticZone.congr hz hs.kmem hs.zoneStore

theorem KmsgZone.get (hz : KmsgZone h k₀ s live) {z : Option ℕ}
    (hg : s.getZone s.kmsgZone (sizeofIpcKmsg+kmsgZoneSize) = (z, s')) :
    KmsgZone h k₀ { s' with kmsgZone := z } live := by
  have h1 := StaticZone.get hz (by decide) (by decide) hg
  obtain ⟨st, rfl⟩ := Ipc.getZone_frame hg
  exact StaticZone.congr h1 rfl rfl

theorem KmsgZone.zalloc (hz : KmsgZone h k₀ s live) {z : ℕ} (hk : s.kmsgZone = some z) {e : Word}
    (ha : s.zalloc h z = (e, s')) :
    (e = 0 ∧ KmsgZone h k₀ s' live) ∨ (e ≠ 0 ∧ e ∉ live ∧ KmsgZone h k₀ s' (e :: live)) := by
  have hframe : s'.kmsgZone = s.kmsgZone ∧ s'.portZone = s.portZone := by
    cases ha
    exact ⟨rfl, rfl⟩
  rw [KmsgZone, KmsgZone, hframe.1, hframe.2, hk]
  rw [KmsgZone, hk] at hz
  exact StaticZone.alloc hz ha

theorem KmsgZone.zfree (hz : KmsgZone h k₀ s live) {z : ℕ} (hk : s.kmsgZone = some z) {e : Word}
    (he : e ∈ live) : e ≠ 0 ∧ KmsgZone h k₀ (s.zfree z e) (live.erase e) := by
  rw [KmsgZone, hk] at hz
  change e ≠ 0 ∧ StaticZone h k₀ (s.zfree z e) s.kmsgZone s.portZone (live.erase e)
  rw [hk]
  exact StaticZone.free hz he

/-- A port returned to its own zone is linked through memory that is no kmsg. -/
theorem KmsgZone.freePort (hz : KmsgZone h k₀ s live) {z : ℕ} (hp : s.portZone = some z)
    {port : Word} (hmem : ∀ x, x-port < 8 → ¬ k₀.pmm.Free (frameOf h x)) :
    KmsgZone h k₀ { s.zfree z port with portLog := .free port :: s.portLog } live := by
  rw [KmsgZone, hp] at hz
  change StaticZone h k₀ _ s.kmsgZone s.portZone live
  rw [hp]
  exact StaticZone.congr (hz.freeOther hmem) rfl rfl

/-- Beside ports whose memory was in use in `k₀`. -/
theorem kmsgZone_rules (h : Hhdm) (k₀ : Kmem) {ports : List Word}
    (hmem : ∀ p ∈ ports, ∀ x, x-p < 8 → ¬ k₀.pmm.Free (frameOf h x)) :
    KmsgRules h (fun _ p => p ∈ ports) (KmsgZone h k₀) := by
  apply KmsgZoneRules.rules
  refine ⟨fun hz => StaticZone.nodup hz, fun hz hs => hz.congr hs, fun hz hk => ?_,
    fun hz hg => hz.get hg, fun hz hk ha => hz.zalloc hk ha, fun hz hk he => hz.zfree hk he,
    fun hz hp hport => hz.freePort hp (hmem _ hport)⟩
  rcases StaticZone.zone hz with ⟨_, hl⟩ | ⟨_, _, _, hsome, _⟩
  · exact hl
  · rw [hk] at hsome
    cases hsome

end Zone
end Dana
