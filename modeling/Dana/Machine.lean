import Dana.SchedSteps
import Dana.ThreadPages

/-! Maps and threads in one kernel, over one PMM and one table of zones, in any order of steps. -/
namespace Dana
open ByteMem Sched Transition

/-- The maps, with the memory and the zones of the kernel, and the threads beside them. -/
structure Machine where
  world : VmWorld
  threadZone : Option ℕ
  nextThreadId : BitVec 32
  tasks : Word → Task
  sched : Sched
  threads : List Word

inductive MachineOp
  | vm (l : VmLifeOp)
  | sched (l : SchedOp)
  | idle (r : Option Word)
  | destroy (t : Word)
  | exit (t : Word)
  | stack (t x : Word) (b : Byte)

namespace Machine

/-- What the functions of kern/thread.c and kern/sched.c see. -/
def kern (m : Machine) : Kern :=
  ⟨m.world.vm.pm.kmem, m.world.vm.zoneStore, m.threadZone, m.nextThreadId, m.tasks, m.sched⟩

def withKern (m : Machine) (k : Kern) (threads : List Word) : Machine :=
  ⟨m.world.withMem k.kmem k.zoneStore, k.threadZone, k.nextThreadId, k.tasks, k.sched, threads⟩

/-- The threads left when `t` has lost a reference. -/
def without (m : Machine) (t : Word) : List Word :=
  if (m.sched.threads t).refCount = 1 then m.threads.erase t else m.threads

end Machine

/-- One step: of the maps, of the scheduler, a thread made or destroyed, the thread that runs
leaves, or a thread writes a byte of its stack. Only a thread that has not been freed is
destroyed or leaves. -/
inductive MachineStep (h : Hhdm) (threadTrampoline : Word) : Machine → MachineOp → Machine → Prop
  | vm (m : Machine) {l : VmLifeOp} {w : VmWorld} (hs : VmLifeStep h m.world l w) :
    MachineStep h threadTrampoline m (.vm l) { m with world := w }
  | sched (m : Machine) {l : SchedOp} {w : SchedWorld}
    (hs : SchedStep h threadTrampoline ⟨m.kern, m.threads⟩ l w) :
    MachineStep h threadTrampoline m (.sched l) (m.withKern w.kern w.created)
  | idle (m : Machine) {entry : Word} {kr : KernReturn} {r : Option Word} {k : Kern}
    (he : schedCreateIdle h threadTrampoline entry m.kern = (kr, r, k)) :
    MachineStep h threadTrampoline m (.idle r) (m.withKern k (r.toList ++ m.threads))
  | destroy (m : Machine) {t : Word} {kr : KernReturn} {k : Kern} (ht : t ∈ m.threads)
    (he : threadDestroy t m.kern = (kr, k)) :
    MachineStep h threadTrampoline m (.destroy t) (m.withKern k (m.without t))
  | exit (m : Machine) {kr : KernReturn} {k : Kern} (ht : m.sched.cpuCurrentThread ∈ m.threads)
    (he : sysThreadExitWrapper m.kern = (kr, k)) :
    MachineStep h threadTrampoline m (.exit m.sched.cpuCurrentThread)
      (m.withKern k (m.without m.sched.cpuCurrentThread))
  | stack (m : Machine) {t x : Word} (b : Byte) (ht : t ∈ m.threads)
    (hx : frameOf h x = stackFrame m.sched t) :
    MachineStep h threadTrampoline m (.stack t x b)
      (m.withKern { m.kern with kmem := { m.kern.kmem with
        mem := Function.update m.kern.kmem.mem x b } } m.threads)

/-- The kernel has set up its maps, and there is no thread yet. -/
structure MachineBoot (s : VmState) (m : Machine) : Prop where
  world : m.world = VmWorld.boot s
  zone : m.threadZone = none
  threads : m.threads = []

/-- The step may free the thread or write to its stack. -/
def MachineOp.Touches (t : Word) : MachineOp → Prop
  | .destroy u => u = t
  | .exit u => u = t
  | .stack u _ _ => u = t
  | _ => False

/-- The step gives back a pmap. -/
def MachineOp.retires : MachineOp → Bool
  | .vm l => l.retires
  | _ => false

/-- The maps as if there were no other zones than theirs. -/
def VmWorld.alone (w : VmWorld) : VmWorld :=
  w.onStore ⟨fun _ => blankZone, w.vm.zoneStore.zoneCount⟩

/-- The state of the maps, the pages of the threads, and that they are apart. -/
structure MachineAt (h : Hhdm) (s₀ : VmState) (pages : Set ℕ) (n : ℕ) (g : VmGhost)
    (lists : VmMapPtr → List EntryPtr) (m : Machine) : Prop where
  vm : VmLifeInv h s₀ (heldPages pages m.sched m.threads) m.world.vm.pm.kmem.mem n g lists
    m.world.alone
  threads : ThreadPages h pages m.kern m.threads
  apart : ∀ z, m.threadZone = some z → z ≠ m.world.vm.vmMapZone ∧ z ≠ m.world.vm.vmMapEntryZone

def MachineInv (h : Hhdm) (s₀ : VmState) (m : Machine) : Prop :=
  ∃ pages n g lists, MachineAt h s₀ pages n g lists m

section Steps
variable {h : Hhdm} {s₀ s : VmState} {m m' : Machine} {w w' : VmWorld} {t : Word}

theorem VmLifeStep.alone {l : VmLifeOp} (hs : VmLifeStep h w l w') : VmLifeStep h w.alone l w'.alone := by
  have hon := hs.onStore ⟨fun _ => blankZone, w.vm.zoneStore.zoneCount⟩
  rwa [VmWorld.alone, VmWorld.alone, hs.others.1]

/-- The bytes of the rest are told from the memory as it is now. -/
theorem VmLifeInv.now {R : Set ℕ} {rm : Mem} {n : ℕ} {g : VmGhost} {lists : VmMapPtr → List EntryPtr}
    (hI : VmLifeInv h s₀ R rm n g lists w) : VmLifeInv h s₀ R w.vm.pm.kmem.mem n g lists w :=
  { hI with kernel := { hI.kernel with restMem := fun _ _ => rfl } }

/-- Nothing but the maps holds anything at first. -/
theorem MachineBoot.inv (hb : VmBoot h s₀) (hs : vmMapInit s₀ = some s) (h0 : MachineBoot s m) :
    MachineInv h s₀ m := by
  obtain ⟨hworld, hzone, hthreads⟩ := h0
  have hI := hb.life hs
  -- `vm_map_init` has made two zones, and both are of the maps
  have hpos : s.zoneStore.zoneCount = 2 ∧ s.vmMapZone = 1 ∧ s.vmMapEntryZone = 0 := by
    rw [vmMapInit, zinit, hb.zones, if_neg (by decide)] at hs
    obtain rfl := Option.some.inj hs
    exact ⟨rfl, rfl, rfl⟩
  have hmore : (VmWorld.boot s).vm.zoneStore.More (VmWorld.boot s).alone.vm.zoneStore := by
    refine ⟨Nat.le_refl _, fun z hz => if_pos ?_, fun z hz hle => absurd hz (Nat.not_lt.mpr hle)⟩
    change z < s.zoneStore.zoneCount at hz
    change z = s.vmMapZone ∨ z = s.vmMapEntryZone
    omega
  have hheld : heldPages ∅ m.sched m.threads = ∅ := by
    rw [hthreads]
    simp [heldPages]
  have hrest := VmLifeInv.rest hb hI (RestStep.refl (R := ∅) fun n hn => hn.elim) hmore
  refine ⟨∅, 0, _, fun _ => [], ⟨(?_ : VmLifeInv h s₀ _ _ 0
    { vmGhostBoot s₀.pm.kmem.pmm with own := restOwner (vmGhostBoot s₀.pm.kmem.pmm).own ∅ ∅ } _ _),
    ⟨?_, ?_, ?_⟩, fun z hz => ?_⟩⟩
  · rw [hheld, hworld]
    exact hrest
  · change ¬ m.world.vm.pm.kmem.pmm.Free 0
    rw [hworld]
    exact hI.inv.mem.pmap.pageZero
  · exact Or.inl ⟨hzone, by simp [hthreads], rfl⟩
  · rw [hthreads]
    exact ⟨List.nodup_nil, by simp, by simp, by simp⟩
  · rw [hzone] at hz
    cases hz

/-- A step of the maps leaves every thread its page and its stack. -/
theorem MachineAt.vm_step (hb : VmBoot h s₀) {pages : Set ℕ} {n : ℕ} {g : VmGhost}
    {lists : VmMapPtr → List EntryPtr} (hI : MachineAt h s₀ pages n g lists m) {l : VmLifeOp}
    (hl : l.retires = true → SafeToRetire h s₀.pm) (hs : VmLifeStep h m.world l w') :
    (∃ n' g' lists', MachineAt h s₀ pages n' g' lists' { m with world := w' }) ∧
    ∀ t ∈ m.threads, StackKept h m.kern (Machine.kern { m with world := w' }) t := by
  obtain ⟨g', lists', hI', _⟩ := hI.vm.step hb hl hs.alone
  obtain ⟨hcount, hzones⟩ := hs.others
  obtain ⟨hmap, hentry⟩ := Prod.mk.inj hs.zoneIds
  have hmem (x : Word) (hx : frameOf h x ∈ heldPages pages m.sched m.threads) :
      w'.vm.pm.kmem.mem x = m.world.vm.pm.kmem.mem x := hI'.kernel.restMem x hx
  refine ⟨⟨_, g', lists', hI'.now, ?_, fun z hz => ?_⟩, fun t ht => ⟨rfl, fun x hx => hmem x ?_⟩⟩
  · refine hI.threads.congr ?_ (fun x hx => hmem x (Or.inl hx)) hcount.ge fun z hz => ?_
    · rintro x (rfl | hx)
      · exact hI'.inv.mem.pmap.pageZero
      · exact hI'.rest_used x hx
    · exact hzones z (hI.apart z hz).1 (hI.apart z hz).2
  · change z ≠ w'.vm.vmMapZone ∧ z ≠ w'.vm.vmMapEntryZone
    rw [hmap, hentry]
    exact hI.apart z hz
  · exact Or.inr ⟨t, ht, hx.symm⟩

/-- The maps do not see what threads do. -/
theorem MachineAt.rest (hb : VmBoot h s₀) {pages pages' : Set ℕ} {n : ℕ} {g : VmGhost}
    {lists : VmMapPtr → List EntryPtr} (hI : MachineAt h s₀ pages n g lists m) {k : Kern}
    {threads : List Word} (hT : ThreadPages h pages' k threads)
    (hr : RestStep h (heldPages pages m.sched m.threads) (heldPages pages' k.sched threads) m.kern.kmem k.kmem)
    (hz : ThreadZoneOnly m.kern k) :
    ∃ g', MachineAt h s₀ pages' n g' lists (m.withKern k threads) := by
  have hmap : m.world.vm.vmMapZone < m.kern.zoneStore.zoneCount := hI.vm.inv.mapZone
  have hentry : m.world.vm.vmMapEntryZone < m.kern.zoneStore.zoneCount := hI.vm.inv.entryZone
  -- the zone of the threads is none of the two that the maps take from
  have hkeep (z : ℕ) (hm : z = m.world.vm.vmMapZone ∨ z = m.world.vm.vmMapEntryZone) :
      k.zoneStore.zones z = m.world.vm.zoneStore.zones z := by
    refine hz.zones z ?_ fun hc => ?_
    · rcases hm with rfl | rfl
      · exact hmap
      · exact hentry
    · exact hm.elim (hI.apart z hc).1 (hI.apart z hc).2
  have hmore : m.world.alone.vm.zoneStore.More (m.withKern k threads).world.alone.vm.zoneStore := by
    refine ⟨hz.count, fun z _ => ?_, fun z _ hle => if_neg ?_⟩
    · by_cases hm : z = m.world.vm.vmMapZone ∨ z = m.world.vm.vmMapEntryZone
      · exact (if_pos hm).trans ((hkeep z hm).trans (if_pos hm).symm)
      · exact (if_neg hm).trans (if_neg hm).symm
    · change m.kern.zoneStore.zoneCount ≤ z at hle
      change ¬ (z = m.world.vm.vmMapZone ∨ z = m.world.vm.vmMapEntryZone)
      omega
  have hrest : VmLifeInv h s₀ (heldPages pages' k.sched threads) k.kmem.mem n _ lists
      (m.world.alone.withMem k.kmem (m.withKern k threads).world.alone.vm.zoneStore) :=
    VmLifeInv.rest hb hI.vm hr hmore
  refine ⟨_, hrest, hT, fun z hz' => ?_⟩
  rcases hz.zone z hz' with hc | hc
  · exact hI.apart z hc
  · change z ≠ m.world.vm.vmMapZone ∧ z ≠ m.world.vm.vmMapEntryZone
    omega

/-- A call on threads. -/
theorem MachineAt.move (hb : VmBoot h s₀) {pages pages' : Set ℕ} {n : ℕ} {g : VmGhost}
    {lists : VmMapPtr → List EntryPtr} (hI : MachineAt h s₀ pages n g lists m) {k : Kern}
    {threads : List Word} (hM : ThreadMove h pages pages' m.kern k m.threads threads) :
    MachineInv h s₀ (m.withKern k threads) ∧
    ∀ t ∈ m.threads, t ∈ threads → StackKept h m.kern (m.withKern k threads).kern t := by
  obtain ⟨g', hI'⟩ := hI.rest hb hM.inv hM.rest hM.zones
  exact ⟨⟨pages', n, g', lists, hI'⟩, hM.kept⟩

/-- A thread's last reference goes. -/
theorem MachineAt.freed (hb : VmBoot h s₀) {pages : Set ℕ} {n : ℕ} {g : VmGhost}
    {lists : VmMapPtr → List EntryPtr} (hI : MachineAt h s₀ pages n g lists m) (ht : t ∈ m.threads)
    {kr : KernReturn} {k : Kern} (he : threadDestroy t m.kern = (kr, k)) :
    MachineInv h s₀ (m.withKern k (m.without t)) ∧
    ∀ u ∈ m.threads, t ≠ u → u ∈ m.without t ∧ StackKept h m.kern (m.withKern k (m.without t)).kern u := by
  have hwo : m.without t = m.threads.erase t := if_pos (hI.threads.owned.ref t ht)
  rw [hwo]
  obtain ⟨hI', hkept⟩ := hI.move hb (hI.threads.destroy ht he)
  refine ⟨hI', fun u hu hne => ?_⟩
  have hmem : u ∈ m.threads.erase t := hI.threads.owned.nodup.mem_erase_iff.mpr ⟨hne.symm, hu⟩
  exact ⟨hmem, hkept u hu hmem⟩

theorem MachineInv.step (hb : VmBoot h s₀) (hI : MachineInv h s₀ m) {trampoline : Word}
    {l : MachineOp} (hl : l.retires = true → SafeToRetire h s₀.pm) (hs : MachineStep h trampoline m l m') :
    MachineInv h s₀ m' ∧
    ∀ t ∈ m.threads, ¬ l.Touches t → t ∈ m'.threads ∧ StackKept h m.kern m'.kern t := by
  obtain ⟨pages, n, g, lists, hI⟩ := hI
  -- what leaves the list of threads as it is
  have hsame {k : Kern} (hM : ∃ pages', ThreadMove h pages pages' m.kern k m.threads m.threads) :
      MachineInv h s₀ (m.withKern k m.threads) ∧ ∀ t ∈ m.threads, ¬ l.Touches t →
        t ∈ m.threads ∧ StackKept h m.kern (m.withKern k m.threads).kern t := by
    obtain ⟨pages', hM⟩ := hM
    obtain ⟨hI', hkept⟩ := hI.move hb hM
    exact ⟨hI', fun t ht _ => ⟨ht, hkept t ht ht⟩⟩
  -- what may put a thread in front of it
  have hmade {k : Kern} {r : Option Word}
      (hM : ∃ pages', ThreadMove h pages pages' m.kern k m.threads (r.toList ++ m.threads)) :
      MachineInv h s₀ (m.withKern k (r.toList ++ m.threads)) ∧ ∀ t ∈ m.threads, ¬ l.Touches t →
        t ∈ r.toList ++ m.threads ∧
          StackKept h m.kern (m.withKern k (r.toList ++ m.threads)).kern t := by
    obtain ⟨pages', hM⟩ := hM
    obtain ⟨hI', hkept⟩ := hI.move hb hM
    have hmem (t : Word) (ht : t ∈ m.threads) : t ∈ r.toList ++ m.threads :=
      List.mem_append_right _ ht
    exact ⟨hI', fun t ht _ => ⟨hmem t ht, hkept t ht (hmem t ht)⟩⟩
  cases hs with
  | vm hs =>
    obtain ⟨⟨n', g', lists', hI'⟩, hkept⟩ := hI.vm_step hb hl hs
    exact ⟨⟨pages, n', g', lists', hI'⟩, fun t ht _ => ⟨ht, hkept t ht⟩⟩
  | sched hs =>
    cases hs with
    | create he => exact hmade (hI.threads.create he)
    | run => exact hsame ⟨pages, hI.threads.withSched (schedRun_body _)⟩
    | yield =>
      refine hsame ⟨pages, hI.threads.withSched ?_⟩
      rw [threadYield_eq]
      exact schedRun_body _
    | block hq => exact hsame ⟨pages, hI.threads.withSched (schedBlock_body _ _)⟩
    | unblock ht hst => exact hsame ⟨pages, hI.threads.withSched (schedUnblock_body _ _)⟩
  | idle he => exact hmade (hI.threads.createIdle he)
  | destroy ht he => exact hI.freed hb ht he
  | exit ht he =>
    have hne : m.kern.sched.cpuCurrentThread ≠ threadNull := hI.threads.zone.ne_null ht
    rw [sysThreadExitWrapper] at he
    rw [if_pos hne] at he
    obtain ⟨-, rfl⟩ := Prod.mk.inj he
    exact hI.freed hb ht (Prod.mk.eta).symm
  | @stack t x b ht hx =>
    have hout (y : Word) (hy : frameOf h y ≠ stackFrame m.kern.sched t) :
        Function.update m.kern.kmem.mem x b y = m.kern.kmem.mem y := by
      refine Function.update_of_ne ?_ _ _
      rintro rfl
      exact hy hx
    obtain ⟨hT, hr, hkept⟩ := hI.threads.write ht hout
    obtain ⟨g', hI'⟩ := hI.rest hb hT hr ⟨Nat.le_refl _, fun _ _ _ => rfl, fun _ hz => Or.inl hz⟩
    exact ⟨⟨pages, n, g', lists, hI'⟩, fun u hu hne => ⟨hu, hkept u hu (Ne.symm hne)⟩⟩

theorem MachineInv.run (hb : VmBoot h s₀) {trampoline : Word} (hI : MachineInv h s₀ m)
    {trace : List MachineOp} (hl : ∀ l ∈ trace, l.retires = true → SafeToRetire h s₀.pm)
    (hr : Run (MachineStep h trampoline) m trace m') : MachineInv h s₀ m' := by
  induction hr with
  | start => exact hI
  | snoc _ hs ih =>
    have hI1 := ih fun l hl' => hl l (List.mem_append_left _ hl')
    exact (hI1.step hb (hl _ (by simp)) hs).1

/-- A run that does not touch a thread leaves it its stack. -/
theorem MachineInv.run_kept (hb : VmBoot h s₀) {trampoline : Word} (hI : MachineInv h s₀ m)
    (ht : t ∈ m.threads) {trace : List MachineOp}
    (hl : ∀ l ∈ trace, l.retires = true → SafeToRetire h s₀.pm)
    (hr : Run (MachineStep h trampoline) m trace m') (hno : ∀ l ∈ trace, ¬ l.Touches t) :
    t ∈ m'.threads ∧ StackKept h m.kern m'.kern t := by
  induction hr with
  | start => exact ⟨ht, rfl, fun _ _ => rfl⟩
  | snoc hr hs ih =>
    have hl' := fun l hm => hl l (List.mem_append_left _ hm)
    obtain ⟨ht1, hk1⟩ := ih hl' fun l hm => hno l (List.mem_append_left _ hm)
    have hI1 := hI.run hb hl' hr
    obtain ⟨ht2, hk2⟩ := (hI1.step hb (hl _ (by simp)) hs).2 t ht1 (hno _ (by simp))
    exact ⟨ht2, hk1.trans hk2⟩

end Steps

/-- The frames that threads have bytes in. -/
def Machine.threadFrames (h : Hhdm) (m : Machine) : Set ℕ :=
  {n | ∃ t ∈ m.threads, n = stackFrame m.sched t ∨ ∃ x, x-t < sizeofThread ∧ n = frameOf h x}

/-- They are pages of the threads. -/
theorem ThreadPages.held {h : Hhdm} {pages : Set ℕ} {m : Machine}
    (hT : ThreadPages h pages m.kern m.threads) {n : ℕ} (hn : n ∈ m.threadFrames h) :
    n ∈ heldPages pages m.sched m.threads := by
  obtain ⟨t, ht, rfl | ⟨x, hx, rfl⟩⟩ := hn
  · exact Or.inr ⟨t, ht, rfl⟩
  · exact Or.inl (hT.thread_frame ht hx)

/-- No byte has two owners. -/
structure MachineApart (h : Hhdm) (m : Machine) : Prop where
  stack : ∀ t ∈ m.threads, ∀ u ∈ m.threads, stackFrame m.sched t = stackFrame m.sched u → t = u
  thread : ∀ t ∈ m.threads, ∀ u ∈ m.threads, ∀ x, x-t < sizeofThread →
    (x-u < sizeofThread → t = u) ∧ frameOf h x ≠ stackFrame m.sched u
  used : ∀ n ∈ m.threadFrames h, ¬ m.world.vm.pm.kmem.pmm.Free n
  table : ∀ p ∈ m.world.maps, ∀ n ∈ m.threadFrames h,
    n ∉ pmapTables h m.world.vm.pm (m.world.vm.maps p).pmap
  page : ∀ p ∈ m.world.maps, ∀ va e, UserVa va →
    pteOf h m.world.vm.pm (m.world.vm.maps p).pmap va = some e →
    pageOf (pteFrame e) ∉ m.threadFrames h ∧ ¬ m.world.vm.pm.kmem.pmm.Free (pageOf (pteFrame e)) ∧
    (∀ p' ∈ m.world.wrote (leafByte h e va), p' = p) ∧
    (p ∉ m.world.wrote (leafByte h e va) → m.world.vm.pm.kmem.mem (leafByte h e va) = 0)

section Results
variable {h : Hhdm} {s₀ s : VmState} {m₀ m m' : Machine} {trampoline : Word}

theorem MachineInv.apart (hI : MachineInv h s₀ m) : MachineApart h m := by
  obtain ⟨pages, n, g, lists, hI⟩ := hI
  have hkernel (n : ℕ) (hn : n ∈ m.threadFrames h) : g.own n = .kernel :=
    (hI.vm.kernel.rest n (hI.threads.held hn)).1
  refine ⟨hI.threads.owned.apart, fun t ht u hu x hx => ⟨hI.threads.thread_apart ht hu hx, ?_⟩,
    fun n hn => hI.threads.used n (hI.threads.held hn), fun p hp n hn htab => ?_, fun p hp va e hva he => ?_⟩
  · intro hc
    exact (hI.threads.owned.stack u hu).2.2.2 (hc ▸ hI.threads.thread_frame ht hx)
  · obtain ⟨q, hq⟩ := (hI.vm.inv.mem.pmap.mem_tables (hI.vm.inv.pmap p hp) n).mp htab
    have hn := hkernel n hn
    rw [hq] at hn
    cases hn
  · have hd := hI.vm.inv.mem.leaf _ (hI.vm.inv.pmap p hp) va e hva he
    obtain ⟨h1, h2, h3, -⟩ := hI.vm.page_private hp hva he
    refine ⟨fun hn => ?_, h1, h2, h3⟩
    have ho := hkernel _ hn
    rw [hd.owner] at ho
    cases ho

/-- Maps and threads made, used and freed in any order: no two threads share a stack or a byte
of theirs, and no thread has anything in a page or a table of a process, whose bytes are its
own. -/
theorem machine_isolation (hb : VmBoot h s₀) (hs : vmMapInit s₀ = some s) (h0 : MachineBoot s m₀)
    {trace : List MachineOp} (hl : ∀ l ∈ trace, l.retires = true → SafeToRetire h s₀.pm)
    (hr : Run (MachineStep h trampoline) m₀ trace m) : MachineApart h m :=
  ((h0.inv hb hs).run hb hl hr).apart

theorem threadSetup_frame (h : Hhdm) (trampoline task entry arg t pa : Word) (k : Kern) :
    ((threadSetup h trampoline task entry arg t pa k).sched.threads t).kernelStackPhys = pa ∧
    ((threadSetup h trampoline task entry arg t pa k).sched.threads t).savedRsp =
      (threadInitStack k.kmem.mem (physToVirt h pa+kstackSize) trampoline entry arg).2 ∧
    (threadSetup h trampoline task entry arg t pa k).kmem.mem =
      (threadInitStack k.kmem.mem (physToVirt h pa+kstackSize) trampoline entry arg).1 := by
  have hbody (s : Sched) (v : Thread) :
      Sched.body (schedEnqueue { s with threads := Function.update s.threads t v } t).2 t = v.body := by
    rw [schedEnqueue_body]
    exact congrArg Thread.body (Function.update_self ..)
  unfold threadSetup
  by_cases htask : task ≠ taskNull
  · simp only [if_pos htask, Kern.setThread]
    refine ⟨?_, ?_, trivial⟩
    · rw [← body_kernelStackPhys, hbody]
      rfl
    · rw [← body_savedRsp, hbody]
      rfl
  · simp only [if_neg htask, Kern.setThread]
    refine ⟨?_, ?_, trivial⟩
    · rw [← body_kernelStackPhys, hbody]
      rfl
    · rw [← body_savedRsp, hbody]
      rfl

/-- Where a thread is made, there is the frame that `machine_switch_context` is to resume. -/
theorem threadCreate_frame {k k' : Kern} {pages : Set ℕ} {threads : List Word}
    (hT : ThreadPages h pages k threads) {task entry arg : Word} {kr : KernReturn} {t : Word}
    (he : threadCreate h trampoline task entry arg k = (kr, some t, k')) :
    PageAligned (k'.sched.threads t).kernelStackPhys ∧
    FrameAt k'.kmem.mem (k'.sched.threads t).savedRsp
      (freshSnapshot (physToVirt h (k'.sched.threads t).kernelStackPhys+kstackSize) trampoline entry arg) := by
  obtain ⟨o, k1, hg⟩ : ∃ o k1, getThreadZone k = (o, k1) := ⟨_, _, rfl⟩
  cases o with
  | none =>
    rw [threadCreate, hg] at he
    cases he
  | some z =>
    obtain ⟨hT1, -, ho, -, -⟩ := hT.getZone hg
    obtain ⟨t', zone, kmem, ha⟩ : ∃ t zone kmem,
      zalloc h (k1.zoneStore.zones z) k1.kmem = (t, zone, kmem) := ⟨_, _, _, rfl⟩
    obtain ⟨pa, pmm, hp⟩ : ∃ pa pmm, pmmAllocPage kmem.pmm = (pa, pmm) := ⟨_, _, rfl⟩
    rw [threadCreate_eq hg ha hp rfl] at he
    obtain ⟨-, ⟨rfl, -, -⟩ | ⟨ht0, -, -, pages', free, -, hgrown⟩⟩ := hT1.zalloc ho ha
    · rw [if_pos (show (0 : Word) = threadNull from rfl)] at he
      cases he
    rw [if_neg ht0] at he
    by_cases hpa : pa = pmmNull
    · rw [if_pos hpa] at he
      cases he
    · rw [if_neg hpa] at he
      obtain ⟨-, ht, hk'⟩ := Prod.mk.inj he |>.imp_right Prod.mk.inj
      obtain rfl := Option.some.inj ht
      have hal := (pmmAllocPage_some (fun hf => hT1.pageZero ((hgrown.free 0).mp hf).1) hp hpa).1
      rw [← hk']
      obtain ⟨hphys, hrsp, hmem⟩ := threadSetup_frame h trampoline task entry arg t' pa
        (Kern.setThread { k1 with kmem := { kmem with pmm := pmm }, zoneStore := k1.zoneStore.set z zone }
          t' Thread.zero)
      rw [hphys, hrsp, hmem]
      exact ⟨hal, threadInitStack_frame _ _ _ _ _⟩

end Results

/-- A kernel that has just set up its maps. -/
def machineBoot : Machine :=
  ⟨VmWorld.boot vmBooted, none, 1, fun _ => ⟨0, 0⟩, ⟨⟨0, 0, 0⟩, fun _ => Thread.zero, 0, 0⟩, []⟩

theorem machineBoot_boot : MachineBoot vmBooted machineBoot := ⟨rfl, rfl, rfl⟩

theorem machineBoot_create : ∃ kr t k,
    threadCreate higherHalf 0x1000 0 0x3000 0 machineBoot.kern = (kr, some t, k) := by
  obtain ⟨kr, r, k, he⟩ : ∃ kr r k,
    threadCreate higherHalf 0x1000 0 0x3000 0 machineBoot.kern = (kr, r, k) := ⟨_, _, _, rfl⟩
  have hsome : (threadCreate higherHalf 0x1000 0 0x3000 0 machineBoot.kern).2.1.isSome = true := by
    decide +kernel
  rw [he] at hsome
  obtain ⟨t, rfl⟩ := Option.isSome_iff_exists.mp hsome
  exact ⟨kr, t, k, he⟩

/-- A pmap is made. -/
theorem machine_pmapCreate (m : Machine) :
    ∃ m', Run (MachineStep higherHalf 0x1000) m [.vm (.op .pmapCreate)] m' :=
  ⟨_, Run.start.snoc (MachineStep.vm m (VmLifeStep.op (VmStep.pmapCreate _ rfl)))⟩

/-- A thread is made, and then a pmap. -/
theorem machineBoot_run : ∃ m m' t, Run (MachineStep higherHalf 0x1000) machineBoot
      [.sched (.create (some t))] m ∧ t ∈ m.threads ∧
    Run (MachineStep higherHalf 0x1000) m [.vm (.op .pmapCreate)] m' := by
  obtain ⟨kr, t, k, he⟩ := machineBoot_create
  have h1 := MachineStep.sched machineBoot (SchedStep.create ⟨machineBoot.kern, machineBoot.threads⟩ he)
  obtain ⟨m', hr'⟩ := machine_pmapCreate (machineBoot.withKern k (t :: machineBoot.threads))
  exact ⟨_, m', t, Run.start.snoc h1, List.mem_cons_self, hr'⟩

/-- The new thread's stack is no page of a process. -/
theorem machine_isolation_first : ∃ (m : Machine) (t : Word), t ∈ m.threads ∧ MachineApart higherHalf m := by
  obtain ⟨m, _, t, hr, ht, _⟩ := machineBoot_run
  exact ⟨m, t, ht, machine_isolation vmBootState_boot vmBooted_init machineBoot_boot
    (by simp [MachineOp.retires]) hr⟩

end Dana
