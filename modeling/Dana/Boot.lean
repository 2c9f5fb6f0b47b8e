import Dana.Machine
import Dana.PmmInit
import Dana.SchedRuns

/-! `kmain`: from what the boot loader hands over to the idle loop. -/
namespace Dana
open ByteMem Sched Transition

/-- The responses of the boot loader that `kmain` reads, the end of the kernel image, `CR3` and
the memory. The bitmap of the PMM is kept apart from the memory. -/
structure Handover where
  revisionSupported : Bool
  hhdm : Option Hhdm
  memmap : Option (List MemmapEntry)
  executable : Option (Word × Word)
  kernelEnd : Word
  cr3 : Word
  mem : Mem

/-- The static variables of kern/ and vm/ before anything runs. -/
def vmStatics (k : Kmem) : VmState where
  pm := ⟨k, fun _ => ⟨0, 0⟩⟩
  zoneStore := ⟨fun _ => ⟨0, 0, 0, 0, 0, 0⟩, 0⟩
  vmMapZone := 0
  vmMapEntryZone := 0
  maps := fun _ => vmMapZero
  entries := fun _ => vmMapEntryZero
  active := .kernel
  data := []

/-- `pmap_init`. -/
def pmapInit (cr3 : Word) (s : PmapState) : PmapState :=
  { s with pmaps := Function.update s.pmaps .kernel ⟨cr3 &&& pteAddrMask, 1⟩ }

/-- `kern_phys_start` and `kern_phys_end`. -/
def Handover.kernPhys (b : Handover) : Word × Word :=
  match b.executable with
  | none => (0x200000, 0x200000)
  | some (physicalBase, virtualBase) => (physicalBase, physicalBase+(b.kernelEnd-virtualBase))

/-- The state that `vm_map_init` finds. -/
def kmainState (b : Handover) (pmm : Pmm) : VmState :=
  { vmStatics ⟨pmm, b.mem⟩ with pm := pmapInit b.cr3 (vmStatics ⟨pmm, b.mem⟩).pm }

/-- `kmain` up to `pmap_init`, unless the machine halts before or the PMM has no place for its
bitmap. -/
def kmainMemory (b : Handover) : Option (Hhdm × VmState) :=
  if !b.revisionSupported then none
  else match b.hhdm, b.memmap with
  | some h, some mmap =>
    (pmmInit mmap b.kernPhys.1 b.kernPhys.2).map fun pmm => (h, kmainState b pmm)
  | _, _ => none

/-- The threads and the scheduler before the idle thread is made. -/
def kmainThreads (w : VmWorld) : Machine :=
  ⟨w, none, 1, fun _ => ⟨0, 0⟩, schedInit ⟨⟨0, 0, 0⟩, fun _ => Thread.zero, 0, 0⟩, []⟩

/-- `kmain` up to `sched_idle`; what `sched_create_idle` returns is not looked at. -/
def kmain (threadTrampoline idleThreadEntry : Word) (b : Handover) : Option Machine :=
  (kmainMemory b).bind fun (h, s) =>
  (vmMapInit s).map fun s =>
    let m := kmainThreads (VmWorld.boot s)
    let (_, r, k) := schedCreateIdle h threadTrampoline idleThreadEntry m.kern
    m.withKern k (r.toList ++ m.threads)

/-- What the boot loader promises: USABLE regions are physical memory, and hold none of the page
tables that it has made; the kernel image begins at a page and ends in the address space. One
region has room for the bitmap of the PMM. -/
structure Handover.Ok (b : Handover) (h : Hhdm) (mmap : List MemmapEntry) : Prop where
  revision : b.revisionSupported = true
  hhdm : b.hhdm = some h
  memmap : b.memmap = some mmap
  physical : PhysicalMap mmap
  room : pmmBitmapRegion mmap ≠ 0
  tables : ∀ q t, q.length ≤ 3 → hwTable h b.mem (b.cr3 &&& pteAddrMask) q = some t →
    ¬ InUsable mmap (pageOf t)
  start : PageAligned b.kernPhys.1
  stop : b.kernPhys.2.toNat+4096 ≤ 2^64

/-- A frame that the boot loader has given away, off the kernel image and the bitmap. -/
structure Handover.Gives (b : Handover) (mmap : List MemmapEntry) (n : ℕ) : Prop where
  ne_zero : n ≠ 0
  usable : InUsable mmap n
  bitmap : ¬ Overlaps n (pmmBitmapRegion mmap).toNat
    ((pmmBitmapRegion mmap).toNat+pmmBitmapBytes.toNat)
  image : ¬ Overlaps n b.kernPhys.1.toNat b.kernPhys.2.toNat

section Boot
variable {b : Handover} {h : Hhdm} {mmap : List MemmapEntry} {trampoline idle : Word}

/-- With such a hand-over the memory gets set up, and nothing of the boot loader's is free. -/
theorem kmainMemory_boot (hok : b.Ok h mmap) : ∃ s₀, kmainMemory b = some (h, s₀) ∧ VmBoot h s₀ ∧
    ∀ n, s₀.pm.kmem.pmm.Free n → b.Gives mmap n := by
  obtain ⟨pmm, hp⟩ := pmmInit_total mmap b.kernPhys.1 b.kernPhys.2 hok.room hok.stop
  have hfree (n : ℕ) (hf : pmm.Free n) : b.Gives mmap n := by
    obtain ⟨hne, hbit, hker, hin⟩ := pmmInit_free mmap _ _ pmm hp n hf
    exact ⟨hne, hin hok.physical, hbit, fun ho => hker (overlaps_visited _ _ n hok.start ho)⟩
  have htables (q : List Idx) (t : Word) (hq : q.length ≤ 3)
      (ht : hwTable h b.mem (b.cr3 &&& pteAddrMask) q = some t) : ¬ pmm.Free (pageOf t) :=
    fun hf => hok.tables q t hq ht (hfree _ hf).usable
  have hroot : (kmainState b pmm).pm.pmaps .kernel = ⟨b.cr3 &&& pteAddrMask, 1⟩ := by
    simp only [kmainState, pmapInit, Function.update_self]
  refine ⟨kmainState b pmm, ?_, ?_, hfree⟩
  · rw [kmainMemory, hok.revision, hok.hhdm, hok.memmap]
    change (pmmInit mmap b.kernPhys.1 b.kernPhys.2).map (fun pmm => (h, kmainState b pmm)) = _
    rw [hp, Option.map_some]
  · refine ⟨⟨fun hf => (hfree 0 hf).ne_zero rfl, ?_, ?_⟩, fun q t _ hq ht => ?_, rfl, rfl⟩
    · rw [hroot]
      exact mask_aligned b.cr3
    · rw [hroot]
      exact htables [] _ (by decide) rfl
    · rw [hroot] at ht
      exact htables q t hq ht

/-- `kmain` gets as far as the idle loop, with the threads and maps of a machine that has just
booted. -/
theorem kmain_inv (hok : b.Ok h mmap) (trampoline idle : Word) : ∃ s₀ m, kmainMemory b = some (h, s₀) ∧
    VmBoot h s₀ ∧ kmain trampoline idle b = some m ∧ MachineInv h s₀ m ∧
    ∀ n, s₀.pm.kmem.pmm.Free n → b.Gives mmap n := by
  obtain ⟨s₀, hmem, hb, hfree⟩ := kmainMemory_boot hok
  obtain ⟨s, hs, -⟩ := hb.init
  have h0 : MachineBoot s (kmainThreads (VmWorld.boot s)) := ⟨rfl, rfl, rfl⟩
  obtain ⟨kr, r, k, he⟩ : ∃ kr r k,
    schedCreateIdle h trampoline idle (kmainThreads (VmWorld.boot s)).kern = (kr, r, k) := ⟨_, _, _, rfl⟩
  refine ⟨s₀, _, hmem, hb, ?_, ((h0.inv hb hs).step hb (by simp [MachineOp.retires])
    (MachineStep.idle (kmainThreads (VmWorld.boot s)) he)).1, hfree⟩
  rw [kmain, hmem, Option.bind_some]
  dsimp only
  rw [hs, Option.map_some, he]

/-- In the states of a run the frames of threads and of the pages of processes were free at boot. -/
theorem MachineInv.free_at_boot {s₀ : VmState} {m : Machine} (hI : MachineInv h s₀ m) :
    (∀ n ∈ m.threadFrames h, s₀.pm.kmem.pmm.Free n) ∧
    ∀ p ∈ m.world.maps, ∀ va e, UserVa va →
      pteOf h m.world.vm.pm (m.world.vm.maps p).pmap va = some e →
      s₀.pm.kmem.pmm.Free (pageOf (pteFrame e)) := by
  obtain ⟨pages, n, g, lists, hI⟩ := hI
  refine ⟨fun n hn => (hI.vm.kernel.rest n (hI.threads.held hn)).2, fun p hp va e hva he => ?_⟩
  by_contra hc
  have ho := hI.vm.kernel.frames _ hc
  rw [(hI.vm.inv.mem.leaf _ (hI.vm.inv.pmap p hp) va e hva he).owner] at ho
  cases ho

/-- From a hand-over as the boot loader promises it `kmain` reaches its idle loop, and whatever is
done from there on, each page of a process and each page of a thread is one that the boot loader
gave away, off the kernel image and the bitmap, and they are apart. -/
theorem kmain_pages (hok : b.Ok h mmap) (trampoline idle : Word) : ∃ s₀ m₀,
    kmainMemory b = some (h, s₀) ∧ kmain trampoline idle b = some m₀ ∧
    ∀ trace m, (∀ l ∈ trace, l.retires = true → SafeToRetire h s₀.pm) →
      Run (MachineStep h trampoline) m₀ trace m → MachineApart h m ∧
        (∀ n ∈ m.threadFrames h, b.Gives mmap n) ∧
        ∀ p ∈ m.world.maps, ∀ va e, UserVa va →
          pteOf h m.world.vm.pm (m.world.vm.maps p).pmap va = some e →
          b.Gives mmap (pageOf (pteFrame e)) := by
  obtain ⟨s₀, m₀, hmem, hb, hrun, hI, hfree⟩ := kmain_inv hok trampoline idle
  refine ⟨s₀, m₀, hmem, hrun, fun trace m hl hr => ?_⟩
  have hI' := hI.run hb hl hr
  obtain ⟨hthread, hpage⟩ := hI'.free_at_boot
  exact ⟨hI'.apart, fun n hn => hfree n (hthread n hn),
    fun p hp va e hva he => hfree _ (hpage p hp va e hva he)⟩

end Boot

/-- One round of the loop of `sched_idle`: the switch it makes, and whether it ends in `cpu_halt`,
which turns interrupts off before it halts. -/
def schedIdleRound (s : Sched) : Option (Word × Word) × Sched × Bool :=
  let next := schedChoose s
  let current := s.cpuCurrentThread
  if next ≠ threadNull ∧ next ≠ current then ((schedRun s).1, (schedRun s).2, false)
  else (none, s, true)

/-- The processor once `kmain` has enabled interrupts, with `pit_ticks`. -/
structure IdleWorld where
  sched : Sched
  ticks : Word
  halted : Bool

inductive IdleOp
  | tick (switch : Option (Word × Word))
  | round (switch : Option (Word × Word))

def IdleOp.switch : IdleOp → Option (Word × Word)
  | .tick r => r
  | .round r => r

def IdleOp.isTick : IdleOp → Bool
  | .tick _ => true
  | .round _ => false

/-- The timer interrupts (`irq_0`), or the loop goes round; neither when the processor has halted
with interrupts off. -/
inductive IdleStep : IdleWorld → IdleOp → IdleWorld → Prop
  | tick (w : IdleWorld) (hon : w.halted = false) :
    IdleStep w (.tick (threadYield w.sched).1)
      { w with sched := (threadYield w.sched).2, ticks := w.ticks+1 }
  | round (w : IdleWorld) (hon : w.halted = false) :
    IdleStep w (.round (schedIdleRound w.sched).1)
      { w with sched := (schedIdleRound w.sched).2.1, halted := (schedIdleRound w.sched).2.2 }

/-- The scheduler finds nothing but the thread that is current, if any. -/
def Idle (s : Sched) : Prop := schedChoose s = threadNull ∨ schedChoose s = s.cpuCurrentThread

theorem Idle.yield {s : Sched} (hi : Idle s) : threadYield s = (none, s) := by
  rw [threadYield]
  exact if_neg fun hc => hi.elim hc.1 hc.2

theorem Idle.round {s : Sched} (hi : Idle s) : schedIdleRound s = (none, s, true) := by
  rw [schedIdleRound]
  exact if_neg fun hc => hi.elim hc.1 hc.2

theorem IdleStep.running {w w' : IdleWorld} {l : IdleOp} (hs : IdleStep w l w') : w.halted = false := by
  cases hs with
  | tick hon => exact hon
  | round hon => exact hon

/-- What a step does when there is nothing to switch to. -/
theorem IdleStep.idle {w w' : IdleWorld} {l : IdleOp} (hs : IdleStep w l w') (hi : Idle w.sched) :
    w'.sched = w.sched ∧ (l = .tick none ∧ w'.ticks = w.ticks+1 ∧ w'.halted = false ∨
      l = .round none ∧ w'.ticks = w.ticks ∧ w'.halted = true) := by
  cases hs with
  | tick hon =>
    rw [hi.yield]
    exact ⟨rfl, Or.inl ⟨rfl, rfl, hon⟩⟩
  | round hon =>
    rw [hi.round]
    exact ⟨rfl, Or.inr ⟨rfl, rfl, rfl⟩⟩

section Idle
variable {b : Handover} {h : Hhdm} {mmap : List MemmapEntry} {trampoline idle : Word}

/-- Whether the idle thread was made or not. -/
theorem kmain_idle (hok : b.Ok h mmap) (trampoline idle : Word) :
    ∃ m, kmain trampoline idle b = some m ∧ Idle m.sched := by
  obtain ⟨s₀, hmem, hb, -⟩ := kmainMemory_boot hok
  obtain ⟨s, hs, -, hpm, -⟩ := hb.init
  obtain ⟨m₁, hm₁⟩ : ∃ m₁, m₁ = kmainThreads (VmWorld.boot s) := ⟨_, rfl⟩
  have hboot : SchedBoot m₁.kern := by
    rw [hm₁]
    refine ⟨?_, rfl, rfl⟩
    change ¬ s.pm.kmem.pmm.Free 0
    rw [hpm]
    exact hb.pmap.pageZero
  have hinit : { m₁.kern with sched := schedInit m₁.kern.sched } = m₁.kern := by
    rw [hm₁]
    rfl
  have hinv := schedCreateIdle_inv (h := h) hboot trampoline idle
  rw [hinit] at hinv
  obtain ⟨kr, r, k, he⟩ : ∃ kr r k, schedCreateIdle h trampoline idle m₁.kern = (kr, r, k) :=
    ⟨_, _, _, rfl⟩
  rw [he] at hinv
  obtain ⟨hk, hcur⟩ := hinv
  refine ⟨m₁.withKern k (r.toList ++ m₁.threads), ?_, ?_⟩
  · rw [kmain, hmem, Option.bind_some]
    dsimp only
    rw [hs, Option.map_some, ← hm₁, he]
  · change schedChoose k.sched = _ ∨ schedChoose k.sched = _
    cases r with
    | none =>
      -- no memory for the idle thread: the run queue is empty, and there is nothing to fall back on
      have hhead : k.sched.runqueue.head = threadNull := hk.sched.queue.head_eq
      have hidle : k.sched.cpuIdleThread = threadNull := hk.sched.idle.resolve_right (by simp)
      rw [schedChoose, hhead, hidle]
      exact Or.inl rfl
    | some t =>
      -- the idle thread is the only one in the queue, and it is current
      rw [hk.sched.queue.choose]
      exact Or.inr (hcur t rfl).1.symm

/-- Once `kmain` is done no thread is ever switched to. The timer only counts, until the idle loop
goes round for the first time, which stops the processor with interrupts off. -/
theorem kmain_halts (hok : b.Ok h mmap) (trampoline idle : Word) : ∃ m,
    kmain trampoline idle b = some m ∧
    ∀ trace w, Run IdleStep ⟨m.sched, 0, false⟩ trace w →
      w.sched = m.sched ∧ (∀ l ∈ trace, l.switch = none) ∧
      w.ticks = BitVec.ofNat 64 (trace.countP IdleOp.isTick) ∧
      (w.halted = true ↔ IdleOp.round none ∈ trace) ∧
      (w.halted = true → ∀ l w', ¬ IdleStep w l w') := by
  obtain ⟨m, hm, hi⟩ := kmain_idle hok trampoline idle
  refine ⟨m, hm, fun trace w hr => ?_⟩
  -- by induction on the run: no step changes the scheduler, so it goes on finding nothing
  induction hr with
  | start => exact ⟨rfl, by simp, rfl, by simp, by simp⟩
  | @snoc trace l w w' hr hs ih =>
    obtain ⟨hsched, hnone, hticks, hiff, _⟩ := ih
    obtain ⟨hsame, hop⟩ := hs.idle (hsched ▸ hi)
    have hno (hw : w'.halted = true) (l : IdleOp) (w₁ : IdleWorld) : ¬ IdleStep w' l w₁ := by
      intro hs
      rw [hs.running] at hw
      cases hw
    have hall (hl : l.switch = none) : ∀ l' ∈ trace ++ [l], l'.switch = none := by
      intro l' hl'
      rcases List.mem_append.mp hl' with hl' | hl'
      · exact hnone l' hl'
      · rw [List.mem_singleton.mp hl', hl]
    rcases hop with ⟨rfl, ht, hh⟩ | ⟨rfl, ht, hh⟩
    · have hout : IdleOp.round none ∉ trace := by
        intro hc
        have hon := hs.running
        rw [hiff.mpr hc] at hon
        cases hon
      refine ⟨hsame.trans hsched, hall rfl, ?_, ?_, hno⟩
      · rw [ht, hticks, List.countP_append, BitVec.ofNat_add]
        rfl
      · rw [hh]
        simp [hout]
    · refine ⟨hsame.trans hsched, hall rfl, ?_, ?_, hno⟩
      · rw [ht, hticks, List.countP_append]
        rfl
      · rw [hh]
        simp

end Idle

/-- 2 MB of memory from 1 MB on, an empty PML4 below, and no kernel image. -/
def plainHandover : Handover :=
  ⟨true, some higherHalf, some [⟨0x100000, 0x200000, 0⟩], none, 0, 0x1000, fun _ => 0⟩

theorem plainHandover_ok : plainHandover.Ok higherHalf [⟨0x100000, 0x200000, 0⟩] := by
  refine ⟨rfl, rfl, rfl, ?_, by decide, fun q t _ ht => ?_, by decide, by decide⟩
  · intro e he _
    obtain rfl := List.mem_singleton.mp he
    decide
  · have hroot : t = plainHandover.cr3 &&& pteAddrMask := (hwTable_blank ht).2
    rw [hroot]
    rintro ⟨e, he, _, hholds⟩
    obtain rfl := List.mem_singleton.mp he
    exact absurd hholds.1 (by decide)

/-- The idle thread of such a machine. -/
theorem kmain_pages_plain : ∃ m, kmain 0x9000 0x9100 plainHandover = some m ∧
    MachineApart higherHalf m := by
  obtain ⟨s₀, m₀, -, hm, hall⟩ := kmain_pages plainHandover_ok 0x9000 0x9100
  exact ⟨m₀, hm, (hall [] m₀ (fun l hl => by cases hl) Run.start).1⟩

/-- It halts in its first round. -/
theorem kmain_halts_plain : ∃ m w, kmain 0x9000 0x9100 plainHandover = some m ∧
    Run IdleStep ⟨m.sched, 0, false⟩ [.round none] w ∧ w.halted = true := by
  obtain ⟨m, hm, hall⟩ := kmain_halts plainHandover_ok 0x9000 0x9100
  obtain ⟨l, w, hl, hr⟩ : ∃ l w, l = IdleOp.round (schedIdleRound m.sched).1 ∧
    Run IdleStep ⟨m.sched, 0, false⟩ [l] w := ⟨_, _, rfl, Run.start.snoc (IdleStep.round _ rfl)⟩
  have hnone := (hall _ w hr).2.1 l List.mem_cons_self
  have hround : l = .round none := by
    rw [hl] at hnone ⊢
    exact congrArg IdleOp.round hnone
  rw [hround] at hr
  exact ⟨m, w, hm, hr, (hall _ w hr).2.2.2.1.mpr List.mem_cons_self⟩

end Dana
