import Dana.Boot
import Dana.PageTrees

/-! Page faults. The trap handler resolves them on the kernel's own map, into which no code enters
anything, whatever map the processor is on. -/
namespace Dana
open ByteMem AddrLoop Transition

/-- What `isr_14` prints before it halts. -/
structure PageFault where
  cr2 : Word
  errorCode : Word
  rip : Word
  why : String

/-- The `fault_type` of an error code. -/
def isr14FaultType (errorCode : Word) : BitVec 32 :=
  let faultType := vmFaultRead
  let faultType := if errorCode &&& 2 ≠ 0 then vmFaultWrite else faultType
  if errorCode &&& 16 ≠ 0 then vmFaultExecute else faultType

def VmFaultReturn.why : VmFaultReturn → String
  | .badAddress => "bad address"
  | .protection => "protection"
  | _ => "oom"

/-- `isr_14`. Without a `PageFault` the interrupted instruction goes on, else the processor halts
with interrupts off; `none` when `vm_fault` does not return. -/
def isr14 (h : Hhdm) (cr2 errorCode rip : Word) (s : VmState) : Option (Option PageFault × VmState) :=
  (vmFault h s .kernel cr2 (isr14FaultType errorCode)).map fun (ret, s) =>
    if ret = .success then (none, s) else (some ⟨cr2, errorCode, rip, ret.why⟩, s)

/-- The kernel's map has no entry, and no entry of another map leads to it. -/
structure KernelMapEmpty (s : VmState) : Prop where
  pmap : (s.maps .kernel).pmap = .kernel
  next : (s.entries (.header .kernel)).next = .header .kernel
  links : ∀ e, e ≠ .header .kernel →
    (s.entries e).next ≠ .header .kernel ∧ (s.entries e).prev ≠ .header .kernel

section Empty
variable {h : Hhdm} {s s' : VmState} {m : VmMapPtr} {e : EntryPtr} {v : VmMapEntry}

theorem KernelMapEmpty.congr (hk : KernelMapEmpty s) (hmap : (s'.maps .kernel).pmap = (s.maps .kernel).pmap)
    (he : s'.entries = s.entries) : KernelMapEmpty s' := by
  refine ⟨hmap.trans hk.pmap, ?_, fun e hne => ?_⟩
  · rw [he]
    exact hk.next
  · rw [he]
    exact hk.links e hne

theorem KernelMapEmpty.setMap (hk : KernelMapEmpty s) (hm : m ≠ .kernel) (v : VmMap) :
    KernelMapEmpty (s.setMap m v) := by
  apply hk.congr
  · exact congrArg VmMap.pmap (Function.update_of_ne hm.symm _ _)
  · rfl

theorem KernelMapEmpty.setEntry (hk : KernelMapEmpty s) (he : e ≠ .header .kernel)
    (hnext : v.next ≠ .header .kernel) (hprev : v.prev ≠ .header .kernel) :
    KernelMapEmpty (s.setEntry e v) := by
  refine ⟨hk.pmap, ?_, fun e' he' => ?_⟩
  · exact (congrArg VmMapEntry.next (Function.update_of_ne he.symm _ _)).trans hk.next
  · change (Function.update s.entries e v e').next ≠ _ ∧ (Function.update s.entries e v e').prev ≠ _
    by_cases heq : e' = e
    · rw [heq, Function.update_self]
      exact ⟨hnext, hprev⟩
    · rw [Function.update_of_ne heq]
      exact hk.links e' he'

theorem KernelMapEmpty.insert (hk : KernelMapEmpty s) {pos e : EntryPtr} (hp : pos ≠ .header .kernel)
    (he : e ≠ .header .kernel) : KernelMapEmpty (mapListInsertAfter s pos e) := by
  have hx := (hk.links pos hp).1
  have h1 := hk.setEntry (v := { s.entries e with prev := pos, next := (s.entries pos).next }) he hx hp
  obtain ⟨t, ht⟩ : ∃ t, t = s.setEntry e { s.entries e with prev := pos, next := (s.entries pos).next } :=
    ⟨_, rfl⟩
  rw [← ht] at h1
  have h2 := h1.setEntry (v := { t.entries (s.entries pos).next with prev := e }) hx (h1.links _ hx).1 he
  rw [mapListInsertAfter]
  dsimp only
  rw [← ht]
  refine h2.setEntry hp he ?_
  exact (h2.links _ hp).2

theorem KernelMapEmpty.remove (hk : KernelMapEmpty s) (he : e ≠ .header .kernel) :
    KernelMapEmpty (mapListRemove s e) := by
  have hprev := (hk.links e he).2
  have h1 := hk.setEntry (v := { s.entries (s.entries e).prev with next := (s.entries e).next })
    hprev (hk.links e he).1 (hk.links _ hprev).2
  obtain ⟨t, ht⟩ : ∃ t, t = s.setEntry (s.entries e).prev
    { s.entries (s.entries e).prev with next := (s.entries e).next } := ⟨_, rfl⟩
  rw [← ht] at h1
  have hnext := (h1.links e he).1
  rw [mapListRemove]
  dsimp only
  rw [← ht]
  refine h1.setEntry hnext (h1.links _ hnext).1 ?_
  exact (h1.links e he).2

/-- No call on another map changes it. -/
theorem KernelMapEmpty.keeps (hm : m ≠ .kernel) :
    VmKeeps m KernelMapEmpty fun e => e ≠ .header .kernel where
  header hc := hm (EntryPtr.header.inj hc)
  elem _ hc := by cases hc
  links _ e hk he := hk.links e he
  pages s s' hs hk := hk.congr (by rw [hs.maps]) hs.entries
  zone _ _ _ _ hk := hk.congr rfl rfl
  pm _ _ hk := hk.congr rfl rfl
  map _ v hk := hk.setMap hm v
  entry _ _ _ hk hnext hprev := hk.setEntry (fun hc => by cases hc) hnext hprev
  insert _ _ _ hk hp := hk.insert hp fun hc => by cases hc
  remove _ _ hk he := hk.remove he

theorem KernelMapEmpty.create (hk : KernelMapEmpty s) {p : PmapPtr} {min max : Word}
    (hr : vmMapCreate h s p min max = (m, s')) : KernelMapEmpty s' := by
  have hz : KernelMapEmpty (s.zalloc h s.vmMapZone).2 := hk.congr rfl rfl
  have hh (a : Word) : EntryPtr.header (.elem a) ≠ .header .kernel := fun hc => by cases hc
  obtain rfl : (vmMapCreate h s p min max).2 = s' := congrArg Prod.snd hr
  rw [vmMapCreate]
  dsimp only
  split_ifs
  · exact hz
  · exact ((hz.setMap (by simp) _).setEntry (hh _) (by simp [vmMapEntryZero])
      (by simp [vmMapEntryZero])).setEntry (hh _) (hh _) (hh _)

theorem VmLifeStep.kernelMap {w w' : VmWorld} {l : VmLifeOp} (hs : VmLifeStep h w l w')
    (hne : ∀ m ∈ w.maps, m ≠ .kernel) (hk : KernelMapEmpty w.vm) : KernelMapEmpty w'.vm := by
  cases hs with
  | op hs =>
    cases hs with
    | pmapCreate hr => exact hk.congr rfl rfl
    | mapCreate hp hr => exact hk.create hr
    | mapCreated hp hr hm => exact hk.create hr
    | call hm hr => exact (KernelMapEmpty.keeps (hne _ hm)).run hk hr
    | write b hm hva he => exact hk.congr rfl rfl
  | destroy hm hr => exact (KernelMapEmpty.keeps (hne _ hm)).mapDestroy hk hr
  | drop hp => exact hk.congr rfl rfl

/-- What the rest of the kernel does is not seen by the maps. -/
theorem MachineStep.kernelMap {trampoline : Word} {m m' : Machine} {l : MachineOp}
    (hs : MachineStep h trampoline m l m') (hne : ∀ p ∈ m.world.maps, p ≠ .kernel)
    (hk : KernelMapEmpty m.world.vm) : KernelMapEmpty m'.world.vm := by
  cases hs with
  | vm hs => exact hs.kernelMap hne hk
  | sched hs => exact hk.congr rfl rfl
  | idle he => exact hk.congr rfl rfl
  | destroy ht he => exact hk.congr rfl rfl
  | exit ht he => exact hk.congr rfl rfl
  | stack b ht hx => exact hk.congr rfl rfl

theorem MachineInv.maps_ne {s₀ : VmState} {m : Machine} (hI : MachineInv h s₀ m) :
    ∀ p ∈ m.world.maps, p ≠ .kernel := by
  obtain ⟨pages, n, g, lists, hI⟩ := hI
  rintro p hp rfl
  obtain ⟨a, -, ha⟩ := hI.vm.inv.elem _ hp
  cases ha

/-- In every run the kernel's map stays empty. -/
theorem MachineInv.run_kernelMap {s₀ : VmState} {m m' : Machine} {trampoline : Word}
    {trace : List MachineOp} (hb : VmBoot h s₀) (hI : MachineInv h s₀ m)
    (hk : KernelMapEmpty m.world.vm) (hl : ∀ l ∈ trace, l.retires = true → SafeToRetire h s₀.pm)
    (hr : Run (MachineStep h trampoline) m trace m') : KernelMapEmpty m'.world.vm := by
  induction hr with
  | start => exact hk
  | @snoc trace l m₁ m₂ hr hs ih =>
    have hl' : ∀ l ∈ trace, l.retires = true → SafeToRetire h s₀.pm :=
      fun l hc => hl l (List.mem_append_left _ hc)
    exact hs.kernelMap (hI.run hb hl' hr).maps_ne (ih hl')

theorem KernelMapEmpty.lookup (hk : KernelMapEmpty s) (addr : Word) :
    vmMapLookupEntry s .kernel addr = some none := by
  rw [vmMapLookupEntry, vmMapFind, hk.next, forNodes_stop]
  rfl

/-- A fault is over if the kernel's tables map the page, and fatal otherwise. -/
theorem KernelMapEmpty.isr14 (hk : KernelMapEmpty s) (cr2 errorCode rip : Word) :
    isr14 h cr2 errorCode rip s =
      some (if pmapQuery h s.pm .kernel (cr2 &&& ~~~(pmmPageSize-1)) = 0
        then some ⟨cr2, errorCode, rip, "bad address"⟩ else none, s) := by
  rw [Dana.isr14, vmFault, hk.pmap]
  dsimp only
  by_cases hq : pmapQuery h s.pm .kernel (cr2 &&& ~~~(pmmPageSize-1)) = 0
  · rw [if_neg (not_not.mpr hq), hk.lookup, if_pos hq]
    rfl
  · rw [if_pos hq, if_neg hq]
    rfl

/-- The boot loader's tables map no large page at `va`. -/
def BootSmall (h : Hhdm) (s₀ : VmState) (va : Word) : Prop :=
  pteAt h s₀.pm.kmem.mem (s₀.pm.pmaps .kernel).pml4Phys (pml4Idx va) &&& ptePS = 0 ∧
    ¬ MapsLarge h s₀.pm.kmem.mem (s₀.pm.pmaps .kernel).pml4Phys va

/-- They map the page at `va` to a frame other than frame 0. -/
def BootMaps (h : Hhdm) (s₀ : VmState) (va : Word) : Prop :=
  ∃ e, hwWalk h s₀.pm.kmem.mem (s₀.pm.pmaps .kernel).pml4Phys va = some (0, e) ∧ pteFrame e ≠ 0

/-- What `pmap_query` finds for the kernel is what the boot loader mapped, large pages aside. -/
theorem MachineInv.kernel_query {s₀ : VmState} {m : Machine} (hb : VmBoot h s₀) (hI : MachineInv h s₀ m)
    {va : Word} (hoff : va &&& (pmmPageSize-1) = 0) (hs : BootSmall h s₀ va) :
    pmapQuery h m.world.vm.pm .kernel va = 0 ↔ ¬ BootMaps h s₀ va := by
  obtain ⟨pages, n, g, lists, hI⟩ := hI
  obtain ⟨hslot, hwalk⟩ := hI.vm.kernel_walk hb va
  change pteAt h m.world.vm.pm.kmem.mem (m.world.vm.pm.pmaps .kernel).pml4Phys (pml4Idx va) = _ at hslot
  change hwWalk h m.world.vm.pm.kmem.mem (m.world.vm.pm.pmaps .kernel).pml4Phys va = _ at hwalk
  have hs' : ¬ MapsLarge h m.world.vm.pm.kmem.mem (m.world.vm.pm.pmaps .kernel).pml4Phys va := by
    rw [MapsLarge, hwalk]
    exact hs.2
  obtain ⟨htab, hpage⟩ := tableAt_small (hslot ▸ hs.1) hs'
  rw [BootMaps, ← hwalk, hpage, pmapQuery_eq, pteOf_eq, htab, hoff]
  cases hwTable h m.world.vm.pm.kmem.mem (m.world.vm.pm.pmaps .kernel).pml4Phys (vaPath va) with
  | none => simp
  | some pt =>
    rw [Option.bind_some, Option.bind_some]
    cases ptePresent (pteAt h m.world.vm.pm.kmem.mem pt (ptIdx va)) with
    | none => simp
    | some e => simp [pteFrame]

end Empty

section Boot
variable {b : Handover} {h : Hhdm} {mmap : List MemmapEntry} {trampoline idle : Word} {m : Machine}

theorem vmMapInit_empty {s s' : VmState} (hs : vmMapInit s = some s')
    (he : ∀ e, s.entries e = vmMapEntryZero) : KernelMapEmpty s' := by
  rw [vmMapInit] at hs
  split at hs
  · cases hs
  · split at hs
    · cases hs
    · obtain rfl := Option.some.inj hs
      refine ⟨?_, ?_, fun e hne => ?_⟩
      · change VmMap.pmap (Function.update s.maps _ _ _) = _
        rw [Function.update_self]
      · change VmMapEntry.next (Function.update (Function.update s.entries _ _) _ _ _) = _
        rw [Function.update_self]
      change (Function.update (Function.update s.entries _ _) _ _ e).next ≠ _ ∧
        (Function.update (Function.update s.entries _ _) _ _ e).prev ≠ _
      rw [Function.update_of_ne hne, Function.update_of_ne hne, he]
      exact ⟨fun hc => (by cases hc), fun hc => (by cases hc)⟩

theorem kmainMemory_state {s : VmState} (hm : kmainMemory b = some (h, s)) :
    ∃ pmm, s = kmainState b pmm := by
  rw [kmainMemory] at hm
  split_ifs at hm
  split at hm
  · obtain ⟨pmm, -, hp⟩ := Option.map_eq_some_iff.mp hm
    exact ⟨pmm, (Prod.mk.inj hp).2.symm⟩
  · cases hm

/-- `kmain` enters nothing into the kernel's map. -/
theorem kmain_kernelMap (hm : kmain trampoline idle b = some m) : KernelMapEmpty m.world.vm := by
  obtain ⟨⟨h, s⟩, hmem, hm⟩ := Option.bind_eq_some_iff.mp hm
  obtain ⟨s', hs', rfl⟩ := Option.map_eq_some_iff.mp hm
  obtain ⟨pmm, rfl⟩ := kmainMemory_state hmem
  exact (vmMapInit_empty hs' fun _ => rfl).congr rfl rfl

/-- From `kmain` on the page-fault handler maps nothing, whatever the processes have entered into
their maps and whatever kind of access it was: it returns to the instruction if the boot loader's
own tables map the page, and halts with "bad address" otherwise. -/
theorem kmain_page_faults (hok : b.Ok h mmap) (trampoline idle : Word) : ∃ s₀ m₀,
    kmainMemory b = some (h, s₀) ∧ kmain trampoline idle b = some m₀ ∧
    ∀ trace m, (∀ l ∈ trace, l.retires = true → SafeToRetire h s₀.pm) →
      Run (MachineStep h trampoline) m₀ trace m → ∀ cr2 errorCode rip, ∃ out,
        isr14 h cr2 errorCode rip m.world.vm = some (out, m.world.vm) ∧
        (out = none ∨ out = some ⟨cr2, errorCode, rip, "bad address"⟩) ∧
        (BootSmall h s₀ (cr2 &&& ~~~(pmmPageSize-1)) →
          (out = none ↔ BootMaps h s₀ (cr2 &&& ~~~(pmmPageSize-1)))) := by
  obtain ⟨s₀, m₀, hmem, hb, hrun, hI, -⟩ := kmain_inv hok trampoline idle
  refine ⟨s₀, m₀, hmem, hrun, fun trace m hl hr cr2 errorCode rip => ?_⟩
  have hk := hI.run_kernelMap hb (kmain_kernelMap hrun) hl hr
  have hoff : (cr2 &&& ~~~(pmmPageSize-1)) &&& (pmmPageSize-1) = 0 := by
    rw [BitVec.and_assoc, BitVec.and_comm (~~~(pmmPageSize-1)), BitVec.and_not_self]
    exact BitVec.and_zero
  refine ⟨_, hk.isr14 cr2 errorCode rip, ?_, fun hs => ?_⟩
  · split_ifs
    · exact Or.inr rfl
    · exact Or.inl rfl
  · have hquery := (hI.run hb hl hr).kernel_query hb hoff hs
    split_ifs with hq
    · exact ⟨fun hc => (by cases hc), fun hc => absurd hc (hquery.mp hq)⟩
    · exact ⟨fun _ => not_not.mp fun hc => hq (hquery.mpr hc), fun _ => rfl⟩

end Boot

/-- Where the boot loader maps nothing, the first fault is fatal. -/
theorem kmain_page_faults_plain : ∃ m, kmain 0x9000 0x9100 plainHandover = some m ∧
    isr14 higherHalf 0x1234 2 0 m.world.vm = some (some ⟨0x1234, 2, 0, "bad address"⟩, m.world.vm) := by
  obtain ⟨s₀, m₀, hmem, hm, hall⟩ := kmain_page_faults plainHandover_ok 0x9000 0x9100
  obtain ⟨out, hout, hor, hiff⟩ := hall [] m₀ (fun l hl => by cases hl) Run.start 0x1234 2 0
  obtain ⟨pmm, rfl⟩ := kmainMemory_state hmem
  have hzero (r f : Word) : pteAt higherHalf (fun _ => 0) r (pml4Idx 0x1000) &&& f = 0 := by
    rw [pteAt_blank]
    exact BitVec.zero_and
  have hnone (r : Word) : hwWalk higherHalf (fun _ => 0) r 0x1000 = none := hwWalk_absent (hzero r pteP)
  have hsmall : BootSmall higherHalf (kmainState plainHandover pmm) (0x1234 &&& ~~~(pmmPageSize-1)) := by
    refine ⟨?_, ?_⟩
    · exact hzero _ ptePS
    · rintro ⟨l, e, he⟩
      cases he.symm.trans (hnone _)
  have hno : ¬ BootMaps higherHalf (kmainState plainHandover pmm) (0x1234 &&& ~~~(pmmPageSize-1)) := by
    rintro ⟨e, he, -⟩
    cases he.symm.trans (hnone _)
  refine ⟨m₀, hm, ?_⟩
  rw [hout, hor.resolve_left fun hc => hno ((hiff hsmall).mp hc)]

end Dana
