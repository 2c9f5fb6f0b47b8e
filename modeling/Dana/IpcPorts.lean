import Dana.IpcZone

/-! The life of a port: allocated, named in spaces, and released through its names. -/
namespace Dana
open ByteMem Transition

/-- The IPC state with the spaces that have not been destroyed. -/
structure PortWorld where
  ipc : Ipc
  spaces : List Word

inductive PortOp
  | alloc (kr : KernReturn) (port : Option Word)
  | insert (space port : Word)
  | remove (space name : Word)
  | destroy (space : Word)

/-- The calls on ports and spaces; only a live port is inserted. -/
inductive PortStep (h : Hhdm) : PortWorld → PortOp → PortWorld → Prop
  | alloc (w : PortWorld) {kr : KernReturn} {port : Option Word} {s : Ipc}
    (he : ipcPortAlloc h w.ipc = (kr, port, s)) : PortStep h w (.alloc kr port) { w with ipc := s }
  | insert (w : PortWorld) {space port : Word} (hs : space ∈ w.spaces)
    (hp : port ∈ liveOf w.ipc.portLog) :
    PortStep h w (.insert space port) { w with ipc := (ipcSpaceInsert w.ipc space port).2.2 }
  | remove (w : PortWorld) {space : Word} (name : Word) (hs : space ∈ w.spaces) :
    PortStep h w (.remove space name) { w with ipc := (ipcSpaceRemove w.ipc space name).2 }
  | destroy (w : PortWorld) {space : Word} (hs : space ∈ w.spaces) :
    PortStep h w (.destroy space) ⟨ipcSpaceDestroy w.ipc space, w.spaces.erase space⟩

/-- Empty spaces in memory that is in use, and no port yet. -/
structure PortBoot (h : Hhdm) (w : PortWorld) : Prop where
  pageZero : ¬ w.ipc.kern.kmem.pmm.Free 0
  zones : w.ipc.portZone = none ∧ w.ipc.spaceZone = none ∧ w.ipc.portLog = []
  nodup : w.spaces.Nodup
  spaces : ∀ space ∈ w.spaces, space ≠ ipcSpaceNull ∧ (w.ipc.spaces space).portCount = 0 ∧
    ∀ x, x-space < 8 → ¬ w.ipc.kern.kmem.pmm.Free (frameOf h x)

/-- Latest call first, whatever was taken back had been handed out and not taken back. -/
def NoDoubleFree : List ZoneEvent → Prop
  | [] => True
  | .alloc _ :: l => NoDoubleFree l
  | .free e :: l => e ∈ liveOf l ∧ NoDoubleFree l

/-- What the names of live spaces resolve to is allocated, and no port was freed twice. -/
structure PortLifetime (h : Hhdm) (w : PortWorld) : Prop where
  named : ∀ space ∈ w.spaces, ∀ name p, ipcSpaceLookup w.ipc space name = (.success, some p) →
    p ∈ liveOf w.ipc.portLog
  once : NoDoubleFree w.ipc.portLog
  zone : (w.ipc.portZone = none ∧ liveOf w.ipc.portLog = []) ∨
    ∃ z pages free, w.ipc.portZone = some z ∧ ZoneOk h w.ipc.kern.kmem pages
      (w.ipc.kern.zoneStore.zones z) free {p | p ∈ liveOf w.ipc.portLog}

/-- A port is released through a name only when no other live name is left for it: none at
all for `ipc_space_remove`, none in another space for `ipc_space_destroy`. -/
def LastName (w : PortWorld) : PortOp → Prop
  | .remove space name => ∀ p, ipcSpaceLookup w.ipc space name = (.success, some p) →
    ∀ space' ∈ w.spaces, ∀ name', ipcSpaceLookup w.ipc space' name' = (.success, some p) →
      space' = space ∧ name' = name
  | .destroy space => ∀ name p, ipcSpaceLookup w.ipc space name = (.success, some p) →
    ∀ space' ∈ w.spaces, ∀ name', ipcSpaceLookup w.ipc space' name' = (.success, some p) →
      space' = space
  | _ => True

/-- What every such run keeps: allocated ports have one reference and no message. -/
structure PortInv (h : Hhdm) (k₀ : Kmem) (w : PortWorld) : Prop where
  zone : StaticZone h k₀ w.ipc w.ipc.portZone w.ipc.spaceZone (liveOf w.ipc.portLog)
  one : ∀ p ∈ liveOf w.ipc.portLog, (w.ipc.ports p).refCount = 1 ∧ (w.ipc.ports p).msgCount = 0
  count : ∀ space ∈ w.spaces, (w.ipc.spaces space).portCount ≤ ipcSpaceMaxPorts
  named : ∀ space ∈ w.spaces, ∀ name p, ipcSpaceLookup w.ipc space name = (.success, some p) →
    p ∈ liveOf w.ipc.portLog
  once : NoDoubleFree w.ipc.portLog
  nodup : w.spaces.Nodup
  mem : ∀ space ∈ w.spaces, space ≠ ipcSpaceNull ∧
    ∀ x, x-space < 8 → ¬ k₀.pmm.Free (frameOf h x)

section Step
variable {h : Hhdm} {k₀ : Kmem} {w w' : PortWorld} {s s' : Ipc} {op : PortOp}

theorem ipcSpaceLookup_frame (hs : s'.spaces = s.spaces) (space name : Word) :
    ipcSpaceLookup s' space name = ipcSpaceLookup s space name := by
  rw [ipcSpaceLookup, ipcSpaceLookup, hs]

/-- The last reference of a port that holds no message. -/
theorem ipcPortRelease_empty {p : Word} {z : ℕ} (hp : p ≠ ipcPortNull) (hz : s.portZone = some z)
    (href : (s.ports p).refCount = 1) (hc : (s.ports p).msgCount = 0) :
    ipcPortRelease s p =
      { (s.unreferenced p).zfree z p with portLog := .free p :: s.portLog } := by
  obtain ⟨s1, hs1⟩ : ∃ s1, s1 = s.unreferenced p := ⟨_, rfl⟩
  have hset : s.setPort p { s.ports p with refCount := (s.ports p).refCount-1 } = s1 := by
    rw [hs1, Ipc.unreferenced, href]
    rfl
  have hport : s1.ports p = { s.ports p with refCount := 0 } := by
    rw [hs1, s.unreferenced_port]
  have hdrain : ipcPortDrain p (s1.ports p).msgCount.toNat s1 = s1 := by
    rw [hport, hc]
    rfl
  have hnp : ¬ 0 < (s1.ports p).refCount := by
    rw [hport]
    exact BitVec.lt_irrefl 0#32
  have hz1 : s1.portZone = some z := by
    rw [hs1]
    exact hz
  have hget : getIpcPortZone s1 = (some z, s1) := by
    rw [getIpcPortZone, hz1]
    simp only [Ipc.getZone, ← hz1]
  rw [ipcPortRelease, if_neg hp]
  simp only [hset, hnp, ↓reduceIte, hdrain, hget]
  rw [hs1]
  rfl

/-- Releasing an allocated port frees it. -/
theorem StaticZone.release (hz : StaticZone h k₀ s s.portZone s.spaceZone (liveOf s.portLog))
    {p : Word} (hp : p ∈ liveOf s.portLog) (href : (s.ports p).refCount = 1)
    (hc : (s.ports p).msgCount = 0) :
    p ≠ ipcPortNull ∧
    StaticZone h k₀ (ipcPortRelease s p) (ipcPortRelease s p).portZone
      (ipcPortRelease s p).spaceZone (liveOf (ipcPortRelease s p).portLog) ∧
    (ipcPortRelease s p).portLog = .free p :: s.portLog ∧
    (ipcPortRelease s p).spaces = s.spaces ∧
    (ipcPortRelease s p).ports = Function.update s.ports p { s.ports p with refCount := 0 } := by
  obtain ⟨z, hpz⟩ : ∃ z, s.portZone = some z := by
    rcases hz.zone with ⟨_, hnil⟩ | ⟨z, _, _, hpz, _⟩
    · rw [hnil] at hp
      simp at hp
    · exact ⟨z, hpz⟩
  rw [hpz] at hz
  obtain ⟨hp0, hz'⟩ := StaticZone.free (s := s.unreferenced p) (hz.congr rfl rfl) hp
  rw [ipcPortRelease_empty hp0 hpz href hc]
  refine ⟨hp0, ?_, rfl, rfl, rfl⟩
  change StaticZone h k₀ _ s.portZone s.spaceZone _
  rw [hpz]
  exact hz'.congr rfl rfl

theorem mem_liveOf_free {l : List ZoneEvent} (hnd : (liveOf l).Nodup) (p q : Word) :
    q ∈ liveOf (.free p :: l) ↔ q ≠ p ∧ q ∈ liveOf l := hnd.mem_erase_iff

/-- A port handed out was not allocated; it starts with one reference and no message. -/
theorem ipcPortAlloc_spec (hz : StaticZone h k₀ s s.portZone s.spaceZone (liveOf s.portLog))
    {kr : KernReturn} {port : Option Word} (he : ipcPortAlloc h s = (kr, port, s')) :
    s'.spaces = s.spaces ∧
    StaticZone h k₀ s' s'.portZone s'.spaceZone (liveOf s'.portLog) ∧
    ((s'.portLog = s.portLog ∧ s'.ports = s.ports) ∨
      ∃ p, p ∉ liveOf s.portLog ∧ s'.portLog = .alloc p :: s.portLog ∧
        s'.ports = Function.update s.ports p
          { IpcPort.zero with ipType := .receive, refCount := 1 }) := by
  obtain ⟨z, s1, hg⟩ : ∃ z s1, s.getZone s.portZone sizeofIpcPort = (z, s1) := ⟨_, _, rfl⟩
  have hz1 := hz.get (by decide) (by decide) hg
  obtain ⟨st, rfl⟩ := Ipc.getZone_frame hg
  simp only [ipcPortAlloc, getIpcPortZone, hg] at he
  cases z with
  | none =>
    cases he
    exact ⟨rfl, hz1.congr rfl rfl, Or.inl ⟨rfl, rfl⟩⟩
  | some z =>
    obtain ⟨s1, hs1⟩ : ∃ s1 : Ipc, s1 = { s with
      kern := { s.kern with zoneStore := st }, portZone := some z } := ⟨_, rfl⟩
    have hz1 : StaticZone h k₀ s1 (some z) s.spaceZone (liveOf s.portLog) := by
      rw [hs1]
      exact hz1.congr rfl rfl
    rw [← hs1] at he
    obtain ⟨p, s2, ha⟩ : ∃ p s2, s1.zalloc h z = (p, s2) := ⟨_, _, rfl⟩
    have hframe : s2.spaces = s.spaces ∧ s2.portZone = some z ∧ s2.spaceZone = s.spaceZone ∧
        s2.ports = s.ports ∧ s2.portLog = s.portLog := by
      cases ha
      rw [hs1]
      exact ⟨rfl, rfl, rfl, rfl, rfl⟩
    obtain ⟨hsp, hpz, hsz, hports, hlog⟩ := hframe
    simp only [ha] at he
    rcases hz1.alloc ha with ⟨h0, hz2⟩ | ⟨h0, hnew, hz2⟩
    · rw [if_pos h0] at he
      cases he
      refine ⟨hsp, ?_, Or.inl ⟨hlog, hports⟩⟩
      rw [hpz, hsz, hlog]
      exact hz2
    · rw [if_neg h0] at he
      cases he
      refine ⟨hsp, ?_, Or.inr ⟨p, hnew, congrArg (_ :: ·) hlog, ?_⟩⟩
      · change StaticZone h k₀ _ s2.portZone s2.spaceZone (p :: liveOf s2.portLog)
        rw [hpz, hsz, hlog]
        exact hz2.congr rfl rfl
      · rw [← hports]
        rfl

/-- `ipc_space_insert` leaves everything but the space alone. -/
theorem ipcSpaceInsert_cases (s : Ipc) (space port : Word) :
    (ipcSpaceInsert s space port).2.2 = s ∨
    ((s.spaces space).portCount < ipcSpaceMaxPorts ∧ (ipcSpaceInsert s space port).2.2 =
      s.setSpace space ⟨(s.spaces space).portCount+1, Function.update (s.spaces space).entries
        (s.spaces space).portCount.toNat
        ⟨port, ((s.spaces space).portCount+1).setWidth 64, 1⟩⟩) := by
  unfold ipcSpaceInsert
  by_cases h1 : space = ipcSpaceNull ∨ port = ipcPortNull
  · left
    rw [if_pos h1]
  by_cases h2 : ipcSpaceMaxPorts ≤ (s.spaces space).portCount
  · left
    rw [if_neg h1]
    simp only [h2, ↓reduceIte]
  · right
    rw [if_neg h1]
    simp only [h2, ↓reduceIte, and_true]
    exact BitVec.not_le.mp h2

/-- What a name resolves to after an insert. -/
theorem ipcSpaceLookup_inserted {space port space' name p : Word}
    (hl : ipcSpaceLookup (ipcSpaceInsert s space port).2.2 space' name = (.success, some p)) :
    p = port ∨ ipcSpaceLookup s space' name = (.success, some p) := by
  rcases ipcSpaceInsert_cases s space port with he | ⟨hlt, he⟩
  · rw [he] at hl
    exact Or.inr hl
  rw [he] at hl
  by_cases hs : space' = space
  · subst hs
    have hmax : ipcSpaceMaxPorts = 1024 := rfl
    rw [hmax] at hlt
    obtain ⟨v, hv⟩ : ∃ v, v = s.spaces space' := ⟨_, rfl⟩
    rw [← hv] at hl hlt
    have hsp (x : IpcSpace) : (s.setSpace space' x).spaces space' = x := Function.update_self ..
    unfold ipcSpaceLookup at hl ⊢
    rw [← hv]
    simp only [hsp] at hl ⊢
    split_ifs at hl with h1 h2 h3
    · cases hl
    · cases hl
    · cases hl
    have hport := Option.some.inj (congrArg Prod.snd hl)
    by_cases hi : (name-1).toNat = v.portCount.toNat
    · rw [hi, Function.update_self] at hport
      exact Or.inl hport.symm
    · rw [Function.update_of_ne hi] at hport h3
      right
      -- the name is below the new one
      have hle : ¬ (name = machPortNull ∨ v.portCount.setWidth 64 < name) := by
        have h0 : machPortNull = 0 := rfl
        rw [h0, not_or] at h2 ⊢
        refine ⟨h2.1, ?_⟩
        have h2' := h2.2
        bv_omega
      rw [if_neg h1, if_neg hle, if_neg h3, hport]
  · right
    have hsp (x : IpcSpace) : (s.setSpace space x).spaces space' = s.spaces space' :=
      Function.update_of_ne hs _ _
    unfold ipcSpaceLookup at hl ⊢
    rwa [hsp] at hl

theorem PortInv.insert (hP : PortInv h k₀ w) {space port : Word}
    (hp : port ∈ liveOf w.ipc.portLog) :
    PortInv h k₀ { w with ipc := (ipcSpaceInsert w.ipc space port).2.2 } := by
  have hframe : (ipcSpaceInsert w.ipc space port).2.2.kern = w.ipc.kern ∧
      (ipcSpaceInsert w.ipc space port).2.2.portZone = w.ipc.portZone ∧
      (ipcSpaceInsert w.ipc space port).2.2.spaceZone = w.ipc.spaceZone ∧
      (ipcSpaceInsert w.ipc space port).2.2.portLog = w.ipc.portLog ∧
      (ipcSpaceInsert w.ipc space port).2.2.ports = w.ipc.ports := by
    rcases ipcSpaceInsert_cases w.ipc space port with he | ⟨_, he⟩
    · rw [he]
      exact ⟨rfl, rfl, rfl, rfl, rfl⟩
    · rw [he]
      exact ⟨rfl, rfl, rfl, rfl, rfl⟩
  obtain ⟨hk, hpz, hsz, hlog, hports⟩ := hframe
  refine ⟨?_, ?_, fun space' hs => ?_, fun space' hs name p hl => ?_, ?_, hP.nodup, hP.mem⟩
  · change StaticZone h k₀ _ (ipcSpaceInsert w.ipc space port).2.2.portZone
      (ipcSpaceInsert w.ipc space port).2.2.spaceZone
      (liveOf (ipcSpaceInsert w.ipc space port).2.2.portLog)
    rw [hpz, hsz, hlog]
    exact hP.zone.congr (congrArg _ hk) (congrArg _ hk)
  · change ∀ p ∈ liveOf (ipcSpaceInsert w.ipc space port).2.2.portLog, _
    rw [hlog, hports]
    exact hP.one
  · have hold := hP.count space' hs
    rcases ipcSpaceInsert_cases w.ipc space port with he | ⟨hlt, he⟩
    · rw [he]
      exact hold
    · rw [he]
      change (Function.update w.ipc.spaces space _ space').portCount ≤ _
      by_cases hss : space' = space
      · rw [hss, Function.update_self]
        have hmax : ipcSpaceMaxPorts = 1024 := rfl
        rw [hmax] at hlt ⊢
        bv_omega
      · rw [Function.update_of_ne hss]
        exact hold
  · change p ∈ liveOf (ipcSpaceInsert w.ipc space port).2.2.portLog
    rw [hlog]
    rcases ipcSpaceLookup_inserted hl with rfl | hold
    · exact hp
    · exact hP.named space' hs name p hold
  · change NoDoubleFree (ipcSpaceInsert w.ipc space port).2.2.portLog
    rw [hlog]
    exact hP.once

theorem PortInv.alloc (hP : PortInv h k₀ w) {kr : KernReturn} {port : Option Word}
    (he : ipcPortAlloc h w.ipc = (kr, port, s)) : PortInv h k₀ { w with ipc := s } := by
  obtain ⟨hsp, hz, hcase⟩ := ipcPortAlloc_spec hP.zone he
  have hnamed (q : List ZoneEvent) (hq : ∀ p ∈ liveOf w.ipc.portLog, p ∈ liveOf q)
      (space : Word) (hs : space ∈ w.spaces) (name p : Word)
      (hl : ipcSpaceLookup s space name = (.success, some p)) : p ∈ liveOf q := by
    rw [ipcSpaceLookup_frame hsp] at hl
    exact hq p (hP.named space hs name p hl)
  rcases hcase with ⟨hlog, hports⟩ | ⟨p, hnew, hlog, hports⟩
  · refine ⟨hz, ?_, ?_, ?_, ?_, hP.nodup, hP.mem⟩
    · change ∀ p ∈ liveOf s.portLog, (s.ports p).refCount = 1 ∧ (s.ports p).msgCount = 0
      rw [hlog, hports]
      exact hP.one
    · change ∀ space ∈ w.spaces, (s.spaces space).portCount ≤ _
      rw [hsp]
      exact hP.count
    · exact hnamed s.portLog (fun p hp => hlog ▸ hp)
    · change NoDoubleFree s.portLog
      rw [hlog]
      exact hP.once
  · refine ⟨hz, ?_, ?_, ?_, ?_, hP.nodup, hP.mem⟩
    · change ∀ q ∈ liveOf s.portLog, (s.ports q).refCount = 1 ∧ (s.ports q).msgCount = 0
      rw [hlog, hports]
      intro q hq
      by_cases hqp : q = p
      · rw [hqp, Function.update_self]
        exact ⟨rfl, rfl⟩
      · rw [Function.update_of_ne hqp]
        exact hP.one q (List.mem_of_ne_of_mem hqp hq)
    · change ∀ space ∈ w.spaces, (s.spaces space).portCount ≤ _
      rw [hsp]
      exact hP.count
    · exact hnamed s.portLog (fun q hq => by rw [hlog]; exact List.mem_cons_of_mem _ hq)
    · change NoDoubleFree s.portLog
      rw [hlog]
      exact hP.once

theorem PortInv.remove (hP : PortInv h k₀ w) {space name : Word} (hs : space ∈ w.spaces)
    (hlast : LastName w (.remove space name)) :
    PortInv h k₀ { w with ipc := (ipcSpaceRemove w.ipc space name).2 } := by
  rcases ipcSpaceRemove_cases w.ipc space name with ⟨_, he⟩ | ⟨p, hl, _, he⟩
  · rw [he]
    exact hP
  have hp := hP.named space hs name p hl
  obtain ⟨href, hc⟩ := hP.one p hp
  obtain ⟨_, hz, hlog, hsp, hports⟩ := hP.zone.release hp href hc
  have hmem (q : Word) : q ∈ liveOf (ipcPortRelease w.ipc p).portLog ↔
      q ≠ p ∧ q ∈ liveOf w.ipc.portLog := by
    rw [hlog]
    exact mem_liveOf_free hP.zone.nodup p q
  rw [he]
  refine ⟨hz.congr rfl rfl, fun q hq => ?_, fun space' hs' => ?_, fun space' hs' name' q hl' => ?_,
    ?_, hP.nodup, hP.mem⟩
  · obtain ⟨hqp, hq⟩ := (hmem q).mp hq
    change ((ipcPortRelease w.ipc p).ports q).refCount = 1 ∧ _
    rw [hports, Function.update_of_ne hqp]
    refine ⟨(hP.one q hq).1, ?_⟩
    change ((ipcPortRelease w.ipc p).ports q).msgCount = 0
    rw [hports, Function.update_of_ne hqp]
    exact (hP.one q hq).2
  · change (Function.update (ipcPortRelease w.ipc p).spaces space _ space').portCount ≤ _
    rw [hsp]
    by_cases hss : space' = space
    · rw [hss, Function.update_self]
      exact hP.count space hs
    · rw [Function.update_of_ne hss]
      exact hP.count space' hs'
  · obtain ⟨hold, hne⟩ := ipcSpaceLookup_cleared hl'
    rw [ipcSpaceLookup_frame hsp] at hold
    refine (hmem q).mpr ⟨?_, hP.named space' hs' name' q hold⟩
    rintro rfl
    obtain ⟨h1, h2⟩ := hlast q hl space' hs' name' hold
    exact hne h1 (by rw [h2])
  · change NoDoubleFree (ipcPortRelease w.ipc p).portLog
    rw [hlog]
    exact ⟨hp, hP.once⟩

/-- The loop of `ipc_space_destroy` after entry `i`: the ports before it are freed, and one
met again has a reference count that has wrapped round below 0. -/
structure ReleaseLoop (h : Hhdm) (k₀ : Kmem) (s₀ : Ipc) (space : Word) (i : ℕ) (s : Ipc) :
    Prop where
  spaces : s.spaces = s₀.spaces
  zone : StaticZone h k₀ s s.portZone s.spaceZone (liveOf s.portLog)
  one : ∀ p ∈ liveOf s.portLog, (s.ports p).refCount = 1 ∧ (s.ports p).msgCount = 0
  live : ∀ p, p ∈ liveOf s.portLog ↔
    p ∈ liveOf s₀.portLog ∧ ∀ j < i, ((s₀.spaces space).entries j).port ≠ p
  gone : ∀ p, p ∈ liveOf s₀.portLog → p ∉ liveOf s.portLog →
    (s.ports p).refCount = 0 ∨ 2^32-i ≤ (s.ports p).refCount.toNat
  once : NoDoubleFree s.portLog

/-- One round of the loop. -/
theorem ReleaseLoop.next {s₀ : Ipc} {space : Word} {i : ℕ} (hL : ReleaseLoop h k₀ s₀ space i s)
    (hi : i < 1024) (hnamed : ((s₀.spaces space).entries i).port ≠ ipcPortNull →
      ((s₀.spaces space).entries i).port ∈ liveOf s₀.portLog) :
    ReleaseLoop h k₀ s₀ space (i+1)
      (if ((s.spaces space).entries i).port ≠ ipcPortNull then
        ipcPortRelease s ((s.spaces space).entries i).port else s) := by
  rw [hL.spaces]
  obtain ⟨p, hp⟩ : ∃ p, p = ((s₀.spaces space).entries i).port := ⟨_, rfl⟩
  rw [← hp] at hnamed ⊢
  have hstep (q : Word) : (∀ j < i+1, ((s₀.spaces space).entries j).port ≠ q) ↔
      (∀ j < i, ((s₀.spaces space).entries j).port ≠ q) ∧ p ≠ q := by
    rw [Nat.forall_lt_succ_right, ← hp]
  have hskip (hne : p ∉ liveOf s.portLog) (q : Word) : q ∈ liveOf s.portLog ↔
      q ∈ liveOf s₀.portLog ∧ ∀ j < i+1, ((s₀.spaces space).entries j).port ≠ q := by
    rw [hstep, ← and_assoc, ← hL.live]
    refine ⟨fun hq => ⟨hq, ?_⟩, And.left⟩
    rintro rfl
    exact hne hq
  by_cases h0 : p = ipcPortNull
  · rw [if_neg (not_not.mpr h0)]
    refine ⟨hL.spaces, hL.zone, hL.one, hskip fun hlive => ?_, fun q hq hd => ?_, hL.once⟩
    · obtain ⟨hne, _⟩ := hL.zone.release hlive (hL.one p hlive).1 (hL.one p hlive).2
      exact hne h0
    · exact (hL.gone q hq hd).imp_right fun hle => by omega
  rw [if_pos h0]
  by_cases hlive : p ∈ liveOf s.portLog
  · obtain ⟨href, hc⟩ := hL.one p hlive
    obtain ⟨_, hz, hlog, hsp, hports⟩ := hL.zone.release hlive href hc
    have hmem (q : Word) : q ∈ liveOf (ipcPortRelease s p).portLog ↔
        q ≠ p ∧ q ∈ liveOf s.portLog := by
      rw [hlog]
      exact mem_liveOf_free hL.zone.nodup p q
    refine ⟨hsp.trans hL.spaces, hz, fun q hq => ?_, fun q => ?_, fun q hq hd => ?_, ?_⟩
    · obtain ⟨hqp, hq⟩ := (hmem q).mp hq
      rw [hports, Function.update_of_ne hqp]
      exact hL.one q hq
    · rw [hmem, hstep, ← and_assoc, ← hL.live]
      exact ⟨fun ⟨hne, hq⟩ => ⟨hq, hne.symm⟩, fun ⟨hq, hne⟩ => ⟨hne.symm, hq⟩⟩
    · rw [hports]
      by_cases hqp : q = p
      · rw [hqp, Function.update_self]
        exact Or.inl rfl
      · rw [Function.update_of_ne hqp]
        refine (hL.gone q hq fun hql => hd ((hmem q).mpr ⟨hqp, hql⟩)).imp_right fun hle => ?_
        omega
    · rw [hlog]
      exact ⟨hlive, hL.once⟩
  · -- freed earlier in the loop: the count wraps, and nothing is freed again
    have hgone := hL.gone p (hnamed h0) hlive
    have href : (s.ports p).refCount ≠ 1 := by
      intro h1
      rw [h1] at hgone
      rcases hgone with h | h
      · exact absurd h (by decide)
      · have h1' : (1 : BitVec 32).toNat = 1 := rfl
        omega
    rw [ipcPortRelease_keep h0 href]
    have hport (q : Word) : (s.setPort p { s.ports p with
        refCount := (s.ports p).refCount-1 }).ports q =
        if q = p then { s.ports p with refCount := (s.ports p).refCount-1 } else s.ports q :=
      Function.update_apply ..
    refine ⟨hL.spaces, hL.zone.congr rfl rfl, fun q hq => ?_, hskip hlive, fun q hq hd => ?_,
      hL.once⟩
    · have hqp : q ≠ p := by
        rintro rfl
        exact hlive hq
      rw [hport, if_neg hqp]
      exact hL.one q hq
    · rw [hport]
      split_ifs with hqp
      · right
        change 2^32-(i+1) ≤ ((s.ports p).refCount-1).toNat
        have h1 : (1 : BitVec 32).toNat = 1 := rfl
        rw [BitVec.toNat_sub, h1]
        rcases hgone with h | h
        · rw [h]
          have hz : (0 : BitVec 32).toNat = 0 := rfl
          omega
        · omega
      · exact (hL.gone q hq hd).imp_right fun hle => by omega

theorem ReleaseLoop.run {s₀ : Ipc} {space : Word} (n : ℕ) {i : ℕ}
    (hL : ReleaseLoop h k₀ s₀ space i s) (hi : i+n ≤ 1024)
    (hnamed : ∀ j < i+n, ((s₀.spaces space).entries j).port ≠ ipcPortNull →
      ((s₀.spaces space).entries j).port ∈ liveOf s₀.portLog) :
    ReleaseLoop h k₀ s₀ space (i+n) (ipcSpaceReleaseAll space n i s) := by
  induction n generalizing i s with
  | zero => exact hL
  | succ n ih =>
    rw [ipcSpaceReleaseAll]
    have hnext := hL.next (by omega) (hnamed i (by omega))
    have := ih hnext (by omega) fun j hj => hnamed j (by omega)
    rwa [Nat.add_right_comm, Nat.add_assoc] at this

/-- Every other name resolves as before. -/
theorem ipcSpaceLookup_uncleared {space name space' name' q : Word}
    (hl : ipcSpaceLookup s space' name' = (.success, some q))
    (hne : ¬ (space' = space ∧ name' = name)) :
    ipcSpaceLookup (s.cleared space name) space' name' = (.success, some q) := by
  by_cases hs : space' = space
  · subst hs
    have hi : (name'-1).toNat ≠ (name-1).toNat := by
      intro he
      exact hne ⟨rfl, by bv_omega⟩
    have hsp : (s.cleared space' name).spaces space' = { s.spaces space' with
        entries := Function.update (s.spaces space').entries (name-1).toNat
          { (s.spaces space').entries (name-1).toNat with port := ipcPortNull, rights := 0 } } :=
      Function.update_self ..
    unfold ipcSpaceLookup at hl ⊢
    rw [hsp]
    simp only [Function.update_of_ne hi]
    exact hl
  · have hsp : (s.cleared space name).spaces space' = s.spaces space' :=
      Function.update_of_ne hs _ _
    unfold ipcSpaceLookup at hl ⊢
    rwa [hsp]

/-- Entry `j` of a space in use has name `j+1`. -/
theorem ipcSpaceLookup_entry {space : Word} {j : ℕ} (hs : space ≠ ipcSpaceNull)
    (hj : j < (s.spaces space).portCount.toNat)
    (hp : ((s.spaces space).entries j).port ≠ ipcPortNull) :
    ipcSpaceLookup s space (BitVec.ofNat 64 (j+1)) =
      (.success, some ((s.spaces space).entries j).port) := by
  have hlt := (s.spaces space).portCount.isLt
  have hname : (BitVec.ofNat 64 (j+1)).toNat = j+1 := by
    rw [BitVec.toNat_ofNat]
    omega
  have h1 : ¬ (BitVec.ofNat 64 (j+1) = machPortNull ∨
      (s.spaces space).portCount.setWidth 64 < BitVec.ofNat 64 (j+1)) := by
    have h0 : machPortNull = 0 := rfl
    rw [h0]
    bv_omega
  have hidx : (BitVec.ofNat 64 (j+1)-1).toNat = j := by
    bv_omega
  rw [ipcSpaceLookup, if_neg hs, if_neg h1]
  simp only [hidx, hp, ↓reduceIte]

theorem ipcSpaceLookup_index {space name p : Word}
    (hl : ipcSpaceLookup s space name = (.success, some p)) :
    ∃ j < (s.spaces space).portCount.toNat, ((s.spaces space).entries j).port = p := by
  unfold ipcSpaceLookup at hl
  simp only at hl
  split_ifs at hl with h1 h2 h3
  · cases hl
  · cases hl
  · cases hl
  · refine ⟨(name-1).toNat, ?_, Option.some.inj (congrArg Prod.snd hl)⟩
    have h0 : machPortNull = 0 := rfl
    rw [h0, not_or] at h2
    obtain ⟨hne, hle⟩ := h2
    bv_omega

/-- The space itself goes back to its zone. -/
theorem ipcSpaceDestroy_spec {space : Word} (hs : space ≠ ipcSpaceNull) {s₁ : Ipc}
    (h1 : s₁ = ipcSpaceReleaseAll space (s.spaces space).portCount.toNat 0 s)
    (hz : StaticZone h k₀ s₁ s₁.portZone s₁.spaceZone (liveOf s₁.portLog))
    (hmem : ∀ x, x-space < 8 → ¬ k₀.pmm.Free (frameOf h x)) :
    (ipcSpaceDestroy s space).portLog = s₁.portLog ∧
    (ipcSpaceDestroy s space).ports = s₁.ports ∧
    (∀ q, q ≠ space → (ipcSpaceDestroy s space).spaces q = s₁.spaces q) ∧
    StaticZone h k₀ (ipcSpaceDestroy s space) (ipcSpaceDestroy s space).portZone
      (ipcSpaceDestroy s space).spaceZone (liveOf s₁.portLog) := by
  obtain ⟨z, s2, hg⟩ : ∃ z s2, s₁.getZone s₁.spaceZone sizeofIpcSpace = (z, s2) := ⟨_, _, rfl⟩
  have hz2 := hz.getOther hg
  obtain ⟨st, rfl⟩ := Ipc.getZone_frame hg
  simp only [ipcSpaceDestroy, hs, ↓reduceIte, ← h1, getIpcSpaceZone, hg]
  cases z with
  | none => exact ⟨rfl, rfl, fun _ _ => rfl, hz2.congr rfl rfl⟩
  | some z =>
    refine ⟨rfl, rfl, fun q hq => Function.update_of_ne hq _ _, ?_⟩
    have hz3 : StaticZone h k₀ { s₁ with
        kern := { s₁.kern with zoneStore := st }, spaceZone := some z } s₁.portZone (some z)
        (liveOf s₁.portLog) := hz2.congr rfl rfl
    exact (hz3.freeOther hmem).congr rfl rfl

/-- The whole loop of `ipc_space_destroy`. -/
theorem PortInv.releaseAll (hP : PortInv h k₀ w) {space : Word} (hs : space ∈ w.spaces) :
    ReleaseLoop h k₀ w.ipc space (w.ipc.spaces space).portCount.toNat
      (ipcSpaceReleaseAll space (w.ipc.spaces space).portCount.toNat 0 w.ipc) := by
  have hcount : (w.ipc.spaces space).portCount.toNat ≤ 1024 := by
    have := hP.count space hs
    rw [BitVec.le_def] at this
    exact this
  have hstart : ReleaseLoop h k₀ w.ipc space 0 w.ipc :=
    ⟨rfl, hP.zone, hP.one, fun p => by simp, fun p hp hd => absurd hp hd, hP.once⟩
  have hL := hstart.run (w.ipc.spaces space).portCount.toNat (by omega) fun j hj hp =>
    hP.named space hs _ _ (ipcSpaceLookup_entry (hP.mem space hs).1 (by omega) hp)
  rwa [Nat.zero_add] at hL

theorem PortInv.destroy (hP : PortInv h k₀ w) {space : Word} (hs : space ∈ w.spaces)
    (hlast : LastName w (.destroy space)) :
    PortInv h k₀ ⟨ipcSpaceDestroy w.ipc space, w.spaces.erase space⟩ := by
  obtain ⟨hs0, hsm⟩ := hP.mem space hs
  have hL := hP.releaseAll hs
  obtain ⟨hlog, hports, hsp, hz⟩ := ipcSpaceDestroy_spec hs0 rfl hL.zone hsm
  have hother (q : Word) (hq : q ∈ w.spaces.erase space) : q ∈ w.spaces ∧ q ≠ space := by
    obtain ⟨hne, hq⟩ := hP.nodup.mem_erase_iff.mp hq
    exact ⟨hq, hne⟩
  have hsame (q : Word) (hq : q ≠ space) :
      (ipcSpaceDestroy w.ipc space).spaces q = w.ipc.spaces q := by
    rw [hsp q hq, hL.spaces]
  refine ⟨?_, ?_, fun q hq => ?_, fun q hq name p hl => ?_, ?_, hP.nodup.erase space,
    fun q hq => hP.mem q (hother q hq).1⟩
  · change StaticZone h k₀ _ _ _ (liveOf (ipcSpaceDestroy w.ipc space).portLog)
    rw [hlog]
    exact hz
  · change ∀ p ∈ liveOf (ipcSpaceDestroy w.ipc space).portLog, _
    rw [hlog, hports]
    exact hL.one
  · change ((ipcSpaceDestroy w.ipc space).spaces q).portCount ≤ _
    rw [hsame q (hother q hq).2]
    exact hP.count q (hother q hq).1
  · obtain ⟨hqs, hne⟩ := hother q hq
    have hl' : ipcSpaceLookup w.ipc q name = (.success, some p) := by
      rw [← hl, ipcSpaceLookup, ipcSpaceLookup, hsame q hne]
    have hp0 : p ≠ ipcPortNull := by
      rcases ipcSpaceLookup_success hl' with ⟨h, _⟩ | ⟨_, _, hp, hp0⟩
      · cases h
      · cases hp
        exact hp0
    change p ∈ liveOf (ipcSpaceDestroy w.ipc space).portLog
    rw [hlog, hL.live]
    refine ⟨hP.named q hqs name p hl', fun j hj hjp => hne ?_⟩
    have hlj := ipcSpaceLookup_entry hs0 hj (by rw [hjp]; exact hp0)
    rw [hjp] at hlj
    exact hlast _ p hlj q hqs name hl'
  · change NoDoubleFree (ipcSpaceDestroy w.ipc space).portLog
    rw [hlog]
    exact hL.once

/-- A port that is released under another name than its last is named and not allocated. -/
theorem PortInv.lastName (hP : PortInv h k₀ w) (hs : PortStep h w op w')
    (hlife : PortLifetime h w') : LastName w op := by
  cases hs with
  | alloc he => trivial
  | insert hs hp => trivial
  | @remove space name hs =>
    intro p hl space' hs' name' hl'
    by_contra hne
    rcases ipcSpaceRemove_cases w.ipc space name with ⟨hnone, _⟩ | ⟨q, hq, _, he⟩
    · rw [hl] at hnone
      cases hnone
    · obtain rfl : p = q := by
        rw [hl] at hq
        exact Option.some.inj (congrArg Prod.snd hq)
      obtain ⟨href, hc⟩ := hP.one p (hP.named space hs name p hl)
      obtain ⟨_, _, hlog, hsp, _⟩ := hP.zone.release (hP.named space hs name p hl) href hc
      have hstill : ipcSpaceLookup ((ipcPortRelease w.ipc p).cleared space name) space' name' =
          (.success, some p) := by
        refine ipcSpaceLookup_uncleared ?_ hne
        rw [ipcSpaceLookup_frame hsp]
        exact hl'
      have hmem := hlife.named space' hs' name' p (by rw [he]; exact hstill)
      rw [he] at hmem
      change p ∈ liveOf (ipcPortRelease w.ipc p).portLog at hmem
      rw [hlog] at hmem
      exact ((mem_liveOf_free hP.zone.nodup p p).mp hmem).1 rfl
  | @destroy space hs =>
    intro name p hl space' hs' name' hl'
    by_contra hne
    obtain ⟨hs0, hsm⟩ := hP.mem space hs
    have hL := hP.releaseAll hs
    obtain ⟨hlog, _, hsp, _⟩ := ipcSpaceDestroy_spec hs0 rfl hL.zone hsm
    have hstill : ipcSpaceLookup (ipcSpaceDestroy w.ipc space) space' name' = (.success, some p) := by
      rw [← hl', ipcSpaceLookup, ipcSpaceLookup, hsp space' hne, hL.spaces]
    have hmem := hlife.named space' ((List.mem_erase_of_ne hne).mpr hs') name' p hstill
    change p ∈ liveOf (ipcSpaceDestroy w.ipc space).portLog at hmem
    rw [hlog, hL.live] at hmem
    obtain ⟨j, hj, hp⟩ := ipcSpaceLookup_index hl
    exact hmem.2 j hj hp

theorem PortInv.step (hP : PortInv h k₀ w) (hs : PortStep h w op w') (hlast : LastName w op) :
    PortInv h k₀ w' := by
  cases hs with
  | alloc he => exact hP.alloc he
  | insert hs hp => exact hP.insert hp
  | remove name hs => exact hP.remove hs hlast
  | destroy hs => exact hP.destroy hs hlast

theorem PortInv.lifetime (hP : PortInv h k₀ w) : PortLifetime h w := by
  refine ⟨hP.named, hP.once, hP.zone.zone.imp_right ?_⟩
  exact fun ⟨z, pages, free, hz, _, _, hok, _⟩ => ⟨z, pages, free, hz, hok⟩

theorem PortBoot.inv (hb : PortBoot h w) : PortInv h w.ipc.kern.kmem w := by
  obtain ⟨hpz, hsz, hlog⟩ := hb.zones
  have hlive : liveOf w.ipc.portLog = [] := by rw [hlog, liveOf]
  refine ⟨⟨hb.pageZero, fun _ hn => hn, fun z hz => ?_, ?_, Or.inl ⟨hpz, hlive⟩⟩, fun p hp => ?_,
    fun space hs => ?_, fun space hs name p hl => ?_, ?_, hb.nodup, fun space hs => ?_⟩
  · rw [hsz] at hz
    cases hz
  · rw [hlive]
    exact List.nodup_nil
  · rw [hlive] at hp
    simp at hp
  · rw [(hb.spaces space hs).2.1]
    decide
  · -- an empty space has no name
    obtain ⟨j, hj, _⟩ := ipcSpaceLookup_index hl
    rw [(hb.spaces space hs).2.1] at hj
    simp at hj
  · rw [hlog]
    trivial
  · exact ⟨(hb.spaces space hs).1, (hb.spaces space hs).2.2⟩

/-- Where every port is released through its last name, names resolve to allocated ports;
and the next step keeps it so exactly when it does the same. -/
theorem port_run_lifetime (h : Hhdm) (w₀ w : PortWorld) (ops : List PortOp) (hb : PortBoot h w₀)
    (hr : Run (fun w op w' => PortStep h w op w' ∧ LastName w op) w₀ ops w) :
    PortLifetime h w ∧ ∀ op w', PortStep h w op w' → (PortLifetime h w' ↔ LastName w op) := by
  have hP : PortInv h w₀.ipc.kern.kmem w :=
    hr.inv (I := PortInv h w₀.ipc.kern.kmem) (fun w op w' hs hP => hP.step hs.1 hs.2) hb.inv
  exact ⟨hP.lifetime, fun op w' hs => ⟨hP.lastName hs, fun hlast => (hP.step hs hlast).lifetime⟩⟩

end Step

/-- Two empty spaces, and no port. -/
def portStart : PortWorld where
  ipc := { ipcStart.ipc with
    kern := { ipcStart.ipc.kern with zoneStore := ⟨fun _ => ⟨0, 0, 0, 0, 0, 0⟩, 0⟩ }
    spaces := fun _ => ⟨0, fun _ => ⟨0, 0, 0⟩⟩
    portZone := none
    portLog := [] }
  spaces := [0x20, 0x40]

theorem portStart_boot : PortBoot higherHalf portStart := by
  refine ⟨by decide, ⟨rfl, rfl, rfl⟩, by decide, fun space hs => ⟨?_, rfl, fun x hx hf => ?_⟩⟩
  · simp only [portStart, List.mem_cons, List.not_mem_nil, or_false] at hs
    rcases hs with rfl | rfl <;> decide
  · have hlt : frameOf higherHalf x < 2^20 := hf.1
    rw [frameOf, pageOf_eq, virtToPhys] at hlt
    have hoff : higherHalf.offset = 0xffff800000000000 := rfl
    rw [hoff] at hlt
    simp only [portStart, List.mem_cons, List.not_mem_nil, or_false] at hs
    rcases hs with rfl | rfl <;> bv_omega

/-- One port is allocated. -/
def portAllocated : PortWorld := { portStart with ipc := (ipcPortAlloc higherHalf portStart.ipc).2.2 }

def PortWorld.inserted (w : PortWorld) (space port : Word) : PortWorld :=
  { w with ipc := (ipcSpaceInsert w.ipc space port).2.2 }

/-- The port has two names in one space. -/
def portTwice : PortWorld :=
  (portAllocated.inserted 0x20 0xffff800000001ea0).inserted 0x20 0xffff800000001ea0

theorem portAllocated_step : PortStep higherHalf portStart
    (.alloc .success (some 0xffff800000001ea0)) portAllocated :=
  .alloc portStart (Prod.ext (by decide +kernel) (Prod.ext (by decide +kernel) rfl))

theorem portInserted_step : PortStep higherHalf portAllocated (.insert 0x20 0xffff800000001ea0)
    (portAllocated.inserted 0x20 0xffff800000001ea0) :=
  .insert portAllocated (by decide) (by decide +kernel)

theorem portTwice_step : PortStep higherHalf (portAllocated.inserted 0x20 0xffff800000001ea0)
    (.insert 0x20 0xffff800000001ea0) portTwice :=
  .insert _ (by decide) (by decide +kernel)

/-- Destroying the only space that names the port, twice at that, frees it once. -/
theorem port_run_lifetime_destroy : ∃ w ops, Run (fun w op w' => PortStep higherHalf w op w' ∧
    LastName w op) portStart ops w ∧ ops.length = 4 ∧ PortLifetime higherHalf w ∧
    w.ipc.portLog = [.free 0xffff800000001ea0, .alloc 0xffff800000001ea0] := by
  have hlast : LastName portTwice (.destroy 0x20) := by
    intro name p hl space' hs' name' hl'
    simp only [portTwice, PortWorld.inserted, portAllocated, portStart, List.mem_cons,
      List.not_mem_nil, or_false] at hs'
    rcases hs' with rfl | rfl
    · rfl
    · -- the other space is still empty
      obtain ⟨j, hj, _⟩ := ipcSpaceLookup_index hl'
      have hc : (portTwice.ipc.spaces 0x40).portCount = 0 := by decide +kernel
      rw [hc] at hj
      simp at hj
  have hr : Run (fun w op w' => PortStep higherHalf w op w' ∧ LastName w op) portStart _ _ :=
    (((Run.start.snoc ⟨portAllocated_step, trivial⟩).snoc ⟨portInserted_step, trivial⟩).snoc
      ⟨portTwice_step, trivial⟩).snoc ⟨.destroy portTwice (by decide), hlast⟩
  exact ⟨_, _, hr, rfl, (port_run_lifetime higherHalf _ _ _ portStart_boot hr).1, by decide +kernel⟩

/-- One of two names of a port is removed: the port is freed, and the other name resolves
to it all the same. -/
theorem port_two_names_dangle : ∃ w ops, PortBoot higherHalf portStart ∧
    Run (PortStep higherHalf) portStart ops w ∧ 0x20 ∈ w.spaces ∧
    ipcSpaceLookup w.ipc 0x20 2 = (.success, some 0xffff800000001ea0) ∧
    0xffff800000001ea0 ∉ liveOf w.ipc.portLog ∧ ¬ PortLifetime higherHalf w := by
  have hrun : Run (PortStep higherHalf) portStart
      [.alloc .success (some 0xffff800000001ea0), .insert 0x20 0xffff800000001ea0,
        .insert 0x20 0xffff800000001ea0] portTwice :=
    ((Run.start.snoc portAllocated_step).snoc portInserted_step).snoc portTwice_step
  have hstep : PortStep higherHalf portTwice (.remove 0x20 1)
      { portTwice with ipc := (ipcSpaceRemove portTwice.ipc 0x20 1).2 } :=
    .remove portTwice 1 (by decide)
  have hl : ipcSpaceLookup (ipcSpaceRemove portTwice.ipc 0x20 1).2 0x20 2 =
      (.success, some 0xffff800000001ea0) := by decide +kernel
  have hdead : 0xffff800000001ea0 ∉ liveOf (ipcSpaceRemove portTwice.ipc 0x20 1).2.portLog := by
    decide +kernel
  exact ⟨_, _, portStart_boot, hrun.snoc hstep, by decide, hl, hdead,
    fun hlife => hdead (hlife.named 0x20 (by decide) 2 _ hl)⟩

end Dana
