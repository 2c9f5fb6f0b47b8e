import Dana.PageTrees
import Dana.Transition

/-! The TLB, which the processor fills as it likes and which only `invlpg` and a write of CR3
empty, under the operations of pmap.c. -/
namespace Dana
open ByteMem RadixTree Transition

/-- A virtual page: bits 12 to 47 of an address, those that a walk uses. -/
abbrev Vpn := BitVec 36

def vpnOf (va : Word) : Vpn := (va >>> 12).setWidth 36

abbrev Tlb := Vpn → Option Word

structure Cpu where
  mem : Mem
  cr3 : Word
  tlb : Tlb

/-- What the processor sees of an instruction of pmap.c. -/
inductive CpuEvent
  | write (mem : Mem)
  | invlpg (va : Word)
  | writeCr3 (v : Word)

def Cpu.after (c : Cpu) : CpuEvent → Cpu
  | .write m => { c with mem := m }
  | .invlpg va => { c with tlb := Function.update c.tlb (vpnOf va) none }
  | .writeCr3 v => { c with cr3 := v, tlb := fun _ => none }

/-- The events in order. Before, between and after them the processor caches present leaf PTEs
of the tables in CR3, and drops what it has cached, any number of times. -/
inductive CpuRun (h : Hhdm) : List CpuEvent → Cpu → Cpu → Prop
  | done (c : Cpu) : CpuRun h [] c c
  | fill {es : List CpuEvent} {c c' : Cpu} {va e : Word} (hw : hwWalk h c.mem c.cr3 va = some (0, e))
    (hr : CpuRun h es { c with tlb := Function.update c.tlb (vpnOf va) (some e) } c') :
    CpuRun h es c c'
  | drop {es : List CpuEvent} {c c' : Cpu} (n : Vpn)
    (hr : CpuRun h es { c with tlb := Function.update c.tlb n none } c') : CpuRun h es c c'
  | event {e : CpuEvent} {es : List CpuEvent} {c c' : Cpu} (hr : CpuRun h es (c.after e) c') :
    CpuRun h (e :: es) c c'

/-- What is cached for the pages outside `N` is the leaf PTE of the tables in CR3. -/
def Cpu.CoherentBut (h : Hhdm) (N : Set Vpn) (c : Cpu) : Prop :=
  ∀ va e, vpnOf va ∉ N → c.tlb (vpnOf va) = some e → hwWalk h c.mem c.cr3 va = some (0, e)

/-- The stores of `kmemset(PHYS_TO_VIRT(pa), 0, PMM_PAGE_SIZE)`, byte by byte. -/
def zeroPageEvents (h : Hhdm) (m : Mem) (pa : Word) : List CpuEvent :=
  (List.range 4097).map fun n => .write (fill m (physToVirt h pa) 0 (BitVec.ofNat 64 n))

/-- The stores of one level of `pmap_walk` that creates tables: the new table is zeroed, and then
linked. -/
def pmapWalkLevelEvents (h : Hhdm) (t : Word) (i : Idx) (k : Kmem) : List CpuEvent :=
  if pteAt h k.mem t i &&& pteP = 0 then
    let (pa, _) := pmmAllocPage k.pmm
    if pa = pmmNull then []
    else zeroPageEvents h k.mem pa ++ [.write (linkMem h k.mem t i pa)]
  else []

def pmapWalkEvents (h : Hhdm) (pml4Phys vaddr : Word) (k : Kmem) : List CpuEvent :=
  pmapWalkLevelEvents h pml4Phys (pml4Idx vaddr) k ++
    match pmapWalkLevel h pml4Phys (pml4Idx vaddr) true k with
    | (none, _) => []
    | (some pdpt, k) => pmapWalkLevelEvents h pdpt (pdptIdx vaddr) k ++
      match pmapWalkLevel h pdpt (pdptIdx vaddr) true k with
      | (none, _) => []
      | (some pd, k) => pmapWalkLevelEvents h pd (pdIdx vaddr) k

/-- The operations that return 0 have just written the entry and flushed the address. -/
def leafEvents (vaddr : Word) (r : Int × PmapState) : List CpuEvent :=
  if r.1 = 0 then [.write r.2.kmem.mem, .invlpg vaddr] else []

/-- The new PML4 is zeroed, and then the 256 entries are copied. -/
def pmapCreateEvents (h : Hhdm) (s : PmapState) : List CpuEvent :=
  let (pa, _) := pmmAllocPage s.kmem.pmm
  if pa = pmmNull then []
  else zeroPageEvents h s.kmem.mem pa ++ (List.range 257).map fun n =>
    .write (pmapCopyKernel h pa (s.pmaps .kernel).pml4Phys n 256 (zeroPage h s.kmem.mem pa))

/-- The pmaps, the one in CR3, and what is cached. -/
structure TlbWorld where
  pm : PmapState
  live : Set PmapPtr
  active : PmapPtr
  tlb : Tlb

inductive TlbOp
  | create
  | map (p : PmapPtr) (vaddr paddr flags : Word)
  | unmap (p : PmapPtr) (vaddr : Word)
  | protect (p : PmapPtr) (vaddr flags : Word)
  | switch (p : PmapPtr)

/-- The pmap that the call is given. -/
def TlbOp.pmap : TlbOp → PmapPtr
  | .create => .kernel
  | .map p _ _ _ => p
  | .unmap p _ => p
  | .protect p _ _ => p
  | .switch p => p

def TlbOp.run (h : Hhdm) (w : TlbWorld) : TlbOp → TlbWorld
  | .create => { w with
      pm := (pmapCreate h w.pm).2
      live := {p | (pmapCreate h w.pm).1 = some p} ∪ w.live }
  | .map p va pa flags => { w with pm := (pmapMap h w.pm p va pa flags).2 }
  | .unmap p va => { w with pm := (pmapUnmap h w.pm p va).2 }
  | .protect p va flags => { w with pm := (pmapProtect h w.pm p va flags).2 }
  | .switch p => { w with active := p }

def TlbOp.events (h : Hhdm) (w : TlbWorld) : TlbOp → List CpuEvent
  | .create => pmapCreateEvents h w.pm
  | .map p va pa flags => pmapWalkEvents h (w.pm.pmaps p).pml4Phys va w.pm.kmem ++
      leafEvents va (pmapMap h w.pm p va pa flags)
  | .unmap p va => leafEvents va (pmapUnmap h w.pm p va)
  | .protect p va flags => leafEvents va (pmapProtect h w.pm p va flags)
  | .switch p => [.writeCr3 (w.pm.pmaps p).pml4Phys]

def TlbWorld.cpu (w : TlbWorld) : Cpu := ⟨w.pm.kmem.mem, (w.pm.pmaps w.active).pml4Phys, w.tlb⟩

/-- The kernel's pmap and those that `pmap_create` has returned. -/
def TlbWorld.Pmap (w : TlbWorld) (p : PmapPtr) : Prop := p = .kernel ∨ p ∈ w.live

/-- A call, with the processor running beside it. -/
inductive TlbStep (h : Hhdm) (w : TlbWorld) (op : TlbOp) : TlbWorld → Prop
  | mk {c : Cpu} (hp : w.Pmap op.pmap) (hr : CpuRun h (op.events h w) w.cpu c) :
    TlbStep h w op { op.run h w with tlb := c.tlb }

/-- `pmap_kernel` is in CR3, and nothing is cached yet. -/
def TlbWorld.boot (s : PmapState) : TlbWorld := ⟨s, ∅, .kernel, fun _ => none⟩

/-- Every cached translation is the present leaf PTE of the active pmap. -/
def TlbWorld.Coherent (h : Hhdm) (w : TlbWorld) : Prop := w.cpu.CoherentBut h ∅

/-- The addresses of a page share their tables and their entry. -/
theorem vpnOf_eq {va va' : Word} :
    vpnOf va' = vpnOf va ↔ vaPath va' = vaPath va ∧ ptIdx va' = ptIdx va := by
  have hvpn (va : Word) : (vpnOf va).toNat = va.toNat/2^12%2^36 := by
    rw [vpnOf, BitVec.toNat_setWidth, BitVec.toNat_ushiftRight, Nat.shiftRight_eq_div_pow]
  have hlt := va.isLt
  have hlt' := va'.isLt
  simp only [vaPath, List.cons.injEq, and_true, pml4Idx, pdptIdx, pdIdx, ptIdx,
    ← BitVec.toNat_inj, idx_toNat, hvpn]
  omega

theorem hwWalk_vpn {h : Hhdm} {m : Mem} {r va va' : Word} (hv : vpnOf va' = vpnOf va) :
    hwWalk h m r va' = hwWalk h m r va := by
  obtain ⟨hpath, hpt⟩ := vpnOf_eq.mp hv
  simp only [vaPath, List.cons.injEq, and_true] at hpath
  rw [hwWalk, hwWalk, hpath.1, hpath.2.1, hpath.2.2, hpt]

section Run
variable {h : Hhdm} {es fs : List CpuEvent} {e : CpuEvent} {c c' : Cpu} {N : Set Vpn}

theorem CpuRun.cons (hr : CpuRun h (e :: es) c c') :
    ∃ c₁, CpuRun h [] c c₁ ∧ CpuRun h es (c₁.after e) c' := by
  obtain ⟨l, hl⟩ : ∃ l, l = e :: es := ⟨_, rfl⟩
  rw [← hl] at hr
  induction hr with
  | done => cases hl
  | fill hw _ ih =>
    obtain ⟨c₁, h1, h2⟩ := ih hl
    exact ⟨c₁, .fill hw h1, h2⟩
  | drop n _ ih =>
    obtain ⟨c₁, h1, h2⟩ := ih hl
    exact ⟨c₁, .drop n h1, h2⟩
  | event hr =>
    obtain ⟨rfl, rfl⟩ := List.cons.inj hl
    exact ⟨_, .done _, hr⟩

theorem CpuRun.append (hr : CpuRun h (es ++ fs) c c') :
    ∃ c₁, CpuRun h es c c₁ ∧ CpuRun h fs c₁ c' := by
  obtain ⟨l, hl⟩ : ∃ l, l = es ++ fs := ⟨_, rfl⟩
  rw [← hl] at hr
  induction hr generalizing es with
  | done c =>
    obtain ⟨rfl, rfl⟩ := List.append_eq_nil_iff.mp hl.symm
    exact ⟨c, .done c, .done c⟩
  | fill hw _ ih =>
    obtain ⟨c₁, h1, h2⟩ := ih hl
    exact ⟨c₁, .fill hw h1, h2⟩
  | drop n _ ih =>
    obtain ⟨c₁, h1, h2⟩ := ih hl
    exact ⟨c₁, .drop n h1, h2⟩
  | @event e es' c c' hr ih =>
    cases es with
    | nil =>
      rw [List.nil_append] at hl
      exact ⟨c, .done c, hl ▸ .event hr⟩
    | cons e' es =>
      obtain ⟨rfl, rfl⟩ := List.cons.inj hl
      obtain ⟨c₁, h1, h2⟩ := ih rfl
      exact ⟨c₁, .event h1, h2⟩

/-- What the processor does by itself leaves memory and CR3 alone, and caches what is there. -/
theorem CpuRun.idle (hr : CpuRun h [] c c') :
    c'.mem = c.mem ∧ c'.cr3 = c.cr3 ∧ (c.CoherentBut h N → c'.CoherentBut h N) := by
  obtain ⟨l, hl⟩ : ∃ l : List CpuEvent, l = [] := ⟨_, rfl⟩
  rw [← hl] at hr
  induction hr with
  | done => exact ⟨rfl, rfl, id⟩
  | @fill es c c' va e hw _ ih =>
    obtain ⟨hm, h3, hc⟩ := ih hl
    refine ⟨hm, h3, fun hcoh => hc fun va' e' hn he => ?_⟩
    dsimp only at he ⊢
    by_cases hv : vpnOf va' = vpnOf va
    · rw [hv, Function.update_self] at he
      rw [hwWalk_vpn hv, hw, Option.some.inj he]
    · rw [Function.update_of_ne hv] at he
      exact hcoh va' e' hn he
  | @drop es c c' n _ ih =>
    obtain ⟨hm, h3, hc⟩ := ih hl
    refine ⟨hm, h3, fun hcoh => hc fun va' e' hn he => ?_⟩
    dsimp only at he ⊢
    by_cases hv : vpnOf va' = n
    · rw [hv, Function.update_self] at he
      cases he
    · rw [Function.update_of_ne hv] at he
      exact hcoh va' e' hn he
  | event => cases hl

theorem Cpu.after_state {c₁ : Cpu} (hm : c₁.mem = c.mem) (h3 : c₁.cr3 = c.cr3) (e : CpuEvent) :
    (c₁.after e).mem = (c.after e).mem ∧ (c₁.after e).cr3 = (c.after e).cr3 := by
  cases e with
  | write m => exact ⟨rfl, h3⟩
  | invlpg va => exact ⟨hm, h3⟩
  | writeCr3 v => exact ⟨hm, rfl⟩

/-- Memory and CR3 are what the events make them. -/
theorem CpuRun.state (hr : CpuRun h es c c') {c₀ : Cpu} (hm : c.mem = c₀.mem) (h3 : c.cr3 = c₀.cr3) :
    c'.mem = (es.foldl Cpu.after c₀).mem ∧ c'.cr3 = (es.foldl Cpu.after c₀).cr3 := by
  induction es generalizing c c₀ with
  | nil => exact ⟨hr.idle (N := ∅).1.trans hm, (hr.idle (N := ∅)).2.1.trans h3⟩
  | cons e es ih =>
    obtain ⟨c₁, h1, h2⟩ := hr.cons
    obtain ⟨hm1, h31, _⟩ := h1.idle (N := ∅)
    obtain ⟨hm2, h32⟩ := Cpu.after_state (hm1.trans hm) (h31.trans h3) e
    exact ih h2 hm2 h32

/-- Stores that change no translation of the tables in CR3. -/
def Quiet (h : Hhdm) (m : Mem) (r : Word) (es : List CpuEvent) : Prop :=
  ∀ e ∈ es, ∃ m', e = .write m' ∧ ∀ va, hwWalk h m' r va = hwWalk h m r va

theorem CpuRun.quiet {m : Mem} (hr : CpuRun h es c c') (hq : Quiet h m c.cr3 es)
    (hm : ∀ va, hwWalk h c.mem c.cr3 va = hwWalk h m c.cr3 va) (hc : c.CoherentBut h N) :
    c'.cr3 = c.cr3 ∧ (∀ va, hwWalk h c'.mem c.cr3 va = hwWalk h m c.cr3 va) ∧ c'.CoherentBut h N := by
  induction es generalizing c with
  | nil =>
    obtain ⟨hm', h3, hc'⟩ := hr.idle (N := N)
    refine ⟨h3, fun va => ?_, hc' hc⟩
    rw [hm', hm]
  | cons e es ih =>
    obtain ⟨c₁, h1, h2⟩ := hr.cons
    obtain ⟨hm1, h31, hc1⟩ := h1.idle (N := N)
    obtain ⟨m', rfl, hm'⟩ := hq e (List.mem_cons_self ..)
    have hcr3 : (c₁.after (.write m')).cr3 = c.cr3 := h31
    have hcoh : (c₁.after (.write m')).CoherentBut h N := by
      intro va e hn he
      have hold := hc1 hc va e hn he
      rw [hm1, h31, hm] at hold
      rw [hcr3]
      exact (hm' va).trans hold
    obtain ⟨h4, h5, h6⟩ := ih h2 (by rw [hcr3]; exact fun e he => hq e (List.mem_cons_of_mem _ he))
      (by rw [hcr3]; exact hm') hcoh
    rw [hcr3] at h4 h5
    exact ⟨h4, h5, h6⟩

/-- A store that changes the translation of one page, with the flush after it. -/
theorem CpuRun.leaf {m : Mem} {va : Word} (hr : CpuRun h [.write m, .invlpg va] c c')
    (hm : ∀ va', vpnOf va' ≠ vpnOf va → hwWalk h m c.cr3 va' = hwWalk h c.mem c.cr3 va')
    (hc : c.CoherentBut h ∅) : c'.CoherentBut h ∅ := by
  obtain ⟨c₁, h1, hr⟩ := hr.cons
  obtain ⟨c₂, h2, hr⟩ := hr.cons
  obtain ⟨hm1, h31, hc1⟩ := h1.idle (N := ∅)
  -- between the store and the flush the old entry may still be cached
  have hbut : (c₁.after (.write m)).CoherentBut h {vpnOf va} := by
    intro va' e hn he
    have hold := hc1 hc va' e (Set.notMem_empty _) he
    rw [hm1, h31] at hold
    have hcr3 : (c₁.after (.write m)).cr3 = c.cr3 := h31
    rw [hcr3]
    exact (hm va' hn).trans hold
  have hbut2 := h2.idle.2.2 hbut
  refine hr.idle.2.2 fun va' e _ he => ?_
  by_cases hv : vpnOf va' = vpnOf va
  · have hnone : (c₂.after (.invlpg va)).tlb (vpnOf va') = none := by
      rw [hv]
      exact Function.update_self ..
    rw [hnone] at he
    cases he
  · have hsame : (c₂.after (.invlpg va)).tlb (vpnOf va') = c₂.tlb (vpnOf va') :=
      Function.update_of_ne hv ..
    exact hbut2 va' e hv (hsame ▸ he)

theorem Quiet.append {m : Mem} {r : Word} (h1 : Quiet h m r es) (h2 : Quiet h m r fs) :
    Quiet h m r (es ++ fs) := by
  intro e he
  rcases List.mem_append.mp he with he | he
  · exact h1 e he
  · exact h2 e he

theorem Quiet.of_same {m m' : Mem} {r : Word} (hq : Quiet h m' r es)
    (hm : ∀ va, hwWalk h m' r va = hwWalk h m r va) : Quiet h m r es := by
  intro e he
  obtain ⟨m₁, rfl, hm₁⟩ := hq e he
  exact ⟨m₁, rfl, fun va => (hm₁ va).trans (hm va)⟩

theorem Quiet.nil {m : Mem} {r : Word} : Quiet h m r [] := by
  intro e he
  cases he

end Run

section Events
variable {h : Hhdm} {k : Kmem} {s : PmapState} {lab : TableLab} {live : Set PmapPtr}
  {r r₀ t va : Word} {q : List Idx} {i : Idx} {c c' : Cpu} {p : PmapPtr}

/-- The zeroed bytes are in a frame that no table has. -/
theorem zeroPageEvents_quiet (hT : PageTrees h k lab) (hr : lab r₀ = some ((), [])) {pa : Word}
    (ha : PageAligned pa) (hf : k.pmm.Free (pageOf pa)) : Quiet h k.mem r₀ (zeroPageEvents h k.mem pa) := by
  intro e he
  obtain ⟨n, hn, rfl⟩ := List.mem_map.mp he
  have hlt := List.mem_range.mp hn
  refine ⟨_, rfl, fun va => hT.same_walk hr fun t l j hl => ?_⟩
  obtain ⟨hta, hu⟩ := hT.used t l hl
  refine pteAt_congr h _ _ t j hta fun x hx => ?_
  have hne : frameOf h x ≠ pageOf pa := by
    intro hc
    rw [hx] at hc
    exact hu (hc ▸ hf)
  refine if_neg fun hc => hne ((sub_lt_iff_frameOf h pa x ha).mp ?_)
  have hsize : pmmPageSize.toNat = 4096 := rfl
  rw [BitVec.lt_def, BitVec.toNat_ofNat] at hc
  rw [BitVec.lt_def, hsize]
  omega

theorem pmapWalkLevelEvents_mem (hm : c.mem = k.mem) :
    ((pmapWalkLevelEvents h t i k).foldl Cpu.after c).mem = (pmapWalkLevel h t i true k).2.mem := by
  obtain ⟨pa, pmm, hpa⟩ : ∃ pa pmm, pmmAllocPage k.pmm = (pa, pmm) := ⟨_, _, rfl⟩
  unfold pmapWalkLevelEvents pmapWalkLevel
  by_cases hp : pteAt h k.mem t i &&& pteP = 0
  · rw [if_pos hp, if_pos hp, if_neg (by decide)]
    simp only [hpa, pmapAllocTable]
    by_cases hn : pa = pmmNull
    · simp only [hn, ↓reduceIte]
      exact hm
    · simp only [hn, ↓reduceIte]
      rw [List.foldl_append]
      rfl
  · rw [if_neg hp, if_neg hp]
    exact hm

theorem pmapWalkEvents_mem (hm : c.mem = k.mem) :
    ((pmapWalkEvents h r va k).foldl Cpu.after c).mem = (pmapWalk h r va true k).2.mem := by
  unfold pmapWalkEvents pmapWalk
  rw [List.foldl_append]
  have h1 := pmapWalkLevelEvents_mem (h := h) (t := r) (i := pml4Idx va) hm
  obtain ⟨⟨o1, k1⟩, he1⟩ : ∃ x, x = pmapWalkLevel h r (pml4Idx va) true k := ⟨_, rfl⟩
  rw [← he1] at h1 ⊢
  cases o1 with
  | none => exact h1
  | some pdpt =>
    dsimp only at h1 ⊢
    rw [List.foldl_append]
    have h2 := pmapWalkLevelEvents_mem (h := h) (t := pdpt) (i := pdptIdx va) h1
    obtain ⟨⟨o2, k2⟩, he2⟩ : ∃ x, x = pmapWalkLevel h pdpt (pdptIdx va) true k1 := ⟨_, rfl⟩
    rw [← he2] at h2 ⊢
    cases o2 with
    | none => exact h2
    | some pd =>
      have h3 := pmapWalkLevelEvents_mem (h := h) (t := pd) (i := pdIdx va) h2
      dsimp only at h3 ⊢
      rw [h3]
      cases pmapWalkLevel h pd (pdIdx va) true k2 with
      | mk o3 k3 => cases o3 <;> rfl

/-- Neither the zeroed frame nor the empty table is seen in a translation. -/
theorem pmapWalkLevelEvents_quiet (hT : PageTrees h k lab) (hr : lab r₀ = some ((), []))
    (ht : lab t = some ((), q)) (hq : q.length < 3) :
    Quiet h k.mem r₀ (pmapWalkLevelEvents h t i k) := by
  obtain ⟨pa, pmm, hpa⟩ : ∃ pa pmm, pmmAllocPage k.pmm = (pa, pmm) := ⟨_, _, rfl⟩
  unfold pmapWalkLevelEvents
  split_ifs with hp
  swap
  · exact Quiet.nil
  simp only [hpa]
  split_ifs with hn
  · exact Quiet.nil
  obtain ⟨ha, hf, _⟩ := pmmAllocPage_some hT.pageZero hpa hn
  refine (zeroPageEvents_quiet hT hr ha hf).append fun e he => ?_
  obtain rfl := List.mem_singleton.mp he
  exact ⟨_, rfl, fun va => (hT.link ht hq hp hpa hn).walk r₀ va hr⟩

theorem pmapWalkEvents_quiet (hT : PageTrees h k lab) (hr₀ : lab r₀ = some ((), []))
    (hr : lab r = some ((), [])) (hs : ¬ MapsLarge h k.mem r va) :
    Quiet h k.mem r₀ (pmapWalkEvents h r va k) := by
  unfold pmapWalkEvents
  refine (pmapWalkLevelEvents_quiet hT hr₀ hr (by simp)).append ?_
  rcases pmapWalkLevel_trees (i := pml4Idx va) hT hr (by simp) fun _ => hT.top r _ hr with
    ⟨he, _⟩ | ⟨pdpt, k1, lab1, he, hg1, ht1, _, _, hw1⟩
  · rw [he]
    exact Quiet.nil
  rw [he]
  have hw1 := hw1 r hr rfl
  have hs1 := fun hc => hs ((hg1.large hr).mp hc)
  have hr1 := hg1.old r₀ _ hr₀
  refine Quiet.of_same (Quiet.append (pmapWalkLevelEvents_quiet hg1.trees hr1 ht1 (by simp)) ?_)
    fun va => hg1.walk r₀ va hr₀
  rcases pmapWalkLevel_trees (i := pdptIdx va) hg1.trees ht1 (by simp) (pdpt_small hs1 hw1) with
    ⟨he, _⟩ | ⟨pd, k2, lab2, he, hg2, ht2, _⟩
  · rw [he]
    exact Quiet.nil
  rw [he]
  exact (pmapWalkLevelEvents_quiet hg2.trees (hg2.old r₀ _ hr1) ht2 (by simp)).of_same
    fun va => hg2.walk r₀ va hr1

/-- The copied entries are in a PML4 that nobody has yet. -/
theorem pmapCreateEvents_quiet (hT : PmapTrees h s live lab) (hr : lab r₀ = some ((), [])) :
    Quiet h s.kmem.mem r₀ (pmapCreateEvents h s) := by
  obtain ⟨pa, pmm, hpa⟩ : ∃ pa pmm, pmmAllocPage s.kmem.pmm = (pa, pmm) := ⟨_, _, rfl⟩
  unfold pmapCreateEvents
  simp only [hpa]
  split_ifs with hn
  · exact Quiet.nil
  obtain ⟨ha, hf, _⟩ := pmmAllocPage_some hT.trees.pageZero hpa hn
  have hne (t : Word) (l : Unit × List Idx) (hl : lab t = some l) : t ≠ pa := by
    rintro rfl
    exact (hT.trees.used _ l hl).2 hf
  have hka := (hT.trees.used _ _ hT.kernel).1
  refine (zeroPageEvents_quiet hT.trees hr ha hf).append fun e he => ?_
  obtain ⟨n, hn, rfl⟩ := List.mem_map.mp he
  have hlt := List.mem_range.mp hn
  refine ⟨_, rfl, fun va => hT.trees.same_walk hr fun t l j hl => ?_⟩
  have hta := (hT.trees.used t l hl).1
  refine pteAt_congr h _ _ t j hta fun x hx => ?_
  have hxp : frameOf h x ≠ pageOf pa := fun hc => hne t l hl (eq_of_pageOf hta ha (hx.symm.trans hc))
  rw [(pmapCopyKernel_spec h pa _ ha hka (hne _ _ hT.kernel) n 256 (by omega) _).1 x hxp,
    zeroPage_apply h _ pa x ha, if_neg hxp]

theorem pmapCreateEvents_mem (hm : c.mem = s.kmem.mem) :
    ((pmapCreateEvents h s).foldl Cpu.after c).mem = (pmapCreate h s).2.kmem.mem := by
  obtain ⟨pa, pmm, hpa⟩ : ∃ pa pmm, pmmAllocPage s.kmem.pmm = (pa, pmm) := ⟨_, _, rfl⟩
  obtain ⟨d, pmm', hd⟩ : ∃ d pmm', pmmAllocPage pmm = (d, pmm') := ⟨_, _, rfl⟩
  unfold pmapCreateEvents pmapCreate
  simp only [hpa, pmapAllocTable]
  by_cases hn : pa = pmmNull
  · simp only [hn, ↓reduceIte]
    exact hm
  · simp only [hn, ↓reduceIte, hd]
    rw [List.foldl_append, List.range_succ, List.map_append, List.foldl_append]
    split_ifs <;> rfl

/-- The entry and the flush, if the operation returns 0. -/
theorem leafEvents_coherent {res : Int × PmapState} (hr : CpuRun h (leafEvents va res) c c')
    (hres : res.1 ≠ 0 ∧ res.2.kmem.mem = c.mem ∨ res.1 = 0 ∧ ∀ va', vpnOf va' ≠ vpnOf va →
      hwWalk h res.2.kmem.mem c.cr3 va' = hwWalk h c.mem c.cr3 va')
    (hc : c.CoherentBut h ∅) :
    c'.CoherentBut h ∅ ∧ c'.mem = res.2.kmem.mem ∧ c'.cr3 = c.cr3 := by
  obtain ⟨hm, h3⟩ := hr.state rfl rfl
  unfold leafEvents at hr hm h3
  rcases hres with ⟨hne, hsame⟩ | ⟨h0, hwalk⟩
  · rw [if_neg hne] at hr hm h3
    exact ⟨hr.idle.2.2 hc, hm.trans hsame.symm, h3⟩
  · rw [if_pos h0] at hr hm h3
    exact ⟨hr.leaf hwalk hc, hm, h3⟩

end Events

/-- The tables of the pmaps are apart, without large pages, and what is cached is right. -/
structure TlbInv (h : Hhdm) (w : TlbWorld) (lab : TableLab) : Prop where
  trees : PmapTrees h w.pm w.live lab
  active : w.Pmap w.active
  small : ∀ p, w.Pmap p → ∀ va, ¬ MapsLarge h w.pm.kmem.mem (w.pm.pmaps p).pml4Phys va
  coherent : w.Coherent h

section Step
variable {h : Hhdm} {w : TlbWorld} {lab : TableLab} {c : Cpu} {p : PmapPtr} {va : Word}

theorem TlbInv.root (hI : TlbInv h w lab) (hp : w.Pmap p) : lab (w.pm.pmaps p).pml4Phys = some ((), []) := by
  rcases hp with rfl | hp
  · exact hI.trees.kernel
  · exact hI.trees.root p hp

/-- Memory and TLB after a call that leaves the pmaps alone. -/
theorem TlbInv.kmem (hI : TlbInv h w lab) {lab' : TableLab} {pm : PmapState}
    (hT : PmapTrees h pm w.live lab') (hpm : pm.pmaps = w.pm.pmaps)
    (hs : ∀ p, w.Pmap p → ∀ va, MapsLarge h pm.kmem.mem (w.pm.pmaps p).pml4Phys va →
      MapsLarge h w.pm.kmem.mem (w.pm.pmaps p).pml4Phys va)
    (hm : c.mem = pm.kmem.mem) (h3 : c.cr3 = w.cpu.cr3) (hc : c.CoherentBut h ∅) :
    TlbInv h { w with pm := pm, tlb := c.tlb } lab' := by
  refine ⟨hT, hI.active, fun p hp va hl => ?_, fun va e hn he => ?_⟩
  · dsimp only at hl
    rw [hpm] at hl
    exact hI.small p hp va (hs p hp va hl)
  · have hw := hc va e hn he
    rw [hm, h3] at hw
    dsimp only [TlbWorld.cpu]
    rw [hpm]
    exact hw

/-- An entry of a page table is written, and its page flushed. -/
theorem TlbInv.store (hI : TlbInv h w lab) {pt v : Word} (hpt : lab pt = some ((), vaPath va))
    (hr : CpuRun h (leafEvents va (0, w.pm.store (pteAddr h pt (ptIdx va)) v)) w.cpu c) :
    TlbInv h { w with pm := w.pm.store (pteAddr h pt (ptIdx va)) v, tlb := c.tlb } lab := by
  obtain ⟨hT, hw⟩ := hI.trees.store hpt rfl (ptIdx va) v
  have hroot := hI.root hI.active
  obtain ⟨hc, hm, h3⟩ := leafEvents_coherent hr
    (Or.inr ⟨rfl, fun va' hv => hw.walk _ va' hroot fun hc => hv (vpnOf_eq.mpr hc)⟩) hI.coherent
  exact hI.kmem hT rfl (fun p hp va => (hw.large _ va (hI.root hp)).mp) hm h3 hc

/-- A call that returns -1 without a store. -/
theorem TlbInv.unchanged (hI : TlbInv h w lab) {r : Int} (hne : r ≠ 0)
    (hr : CpuRun h (leafEvents va (r, w.pm)) w.cpu c) : TlbInv h { w with tlb := c.tlb } lab := by
  obtain ⟨hc, hm, h3⟩ := leafEvents_coherent hr (Or.inl ⟨hne, rfl⟩) hI.coherent
  exact hI.kmem hI.trees rfl (fun _ _ _ => id) hm h3 hc

theorem TlbInv.map (hI : TlbInv h w lab) (hp : w.Pmap p) (pa flags : Word)
    (hr : CpuRun h ((TlbOp.map p va pa flags).events h w) w.cpu c) :
    ∃ lab', TlbInv h { (TlbOp.map p va pa flags).run h w with tlb := c.tlb } lab' := by
  have hroot := hI.root hI.active
  obtain ⟨k', lab', hg, _, hres⟩ := pmapWalk_trees hI.trees.trees (hI.root hp) (hI.small p hp va)
  obtain ⟨c₁, hr1, hr2⟩ := CpuRun.append hr
  obtain ⟨h31, _, hc1⟩ := hr1.quiet (pmapWalkEvents_quiet hI.trees.trees hroot (hI.root hp)
    (hI.small p hp va)) (fun _ => rfl) hI.coherent
  have hm1 := (hr1.state rfl rfl).1.trans (pmapWalkEvents_mem rfl)
  have hk : (pmapWalk h (w.pm.pmaps p).pml4Phys va true w.pm.kmem).2 = k' := by
    rcases hres with ⟨he, _⟩ | ⟨_, he, _⟩ <;> rw [he]
  rw [hk] at hm1
  -- the world after the walk
  have hI1 : TlbInv h { w with pm := { w.pm with kmem := k' }, tlb := c₁.tlb } lab' :=
    hI.kmem (hI.trees.kmem hg.trees hg.old hg.free) rfl
      (fun p hp va => (hg.large (hI.root hp)).mp) hm1 h31 hc1
  have hcpu : c₁ = TlbWorld.cpu { w with pm := { w.pm with kmem := k' }, tlb := c₁.tlb } := by
    rw [TlbWorld.cpu, ← hm1]
    exact congrArg (fun r => (⟨c₁.mem, r, c₁.tlb⟩ : Cpu)) h31
  refine ⟨lab', ?_⟩
  rw [hcpu] at hr2
  rw [TlbOp.run]
  rw [pmapMap] at hr2 ⊢
  rcases hres with ⟨he, _⟩ | ⟨pt, he, hpt⟩
  · rw [he] at hr2 ⊢
    exact hI1.unchanged (by decide) hr2
  · rw [he] at hr2 ⊢
    exact hI1.store (hg.trees.path (hg.old _ _ (hI.root hp)) le_rfl hpt) hr2

theorem TlbInv.create (hI : TlbInv h w lab) (hr : CpuRun h (TlbOp.create.events h w) w.cpu c) :
    ∃ lab', TlbInv h { TlbOp.create.run h w with tlb := c.tlb } lab' := by
  obtain ⟨lab', s', hold, hpte, hcases⟩ := pmapCreate_trees hI.trees
  obtain ⟨h3, _, hc⟩ := hr.quiet (pmapCreateEvents_quiet hI.trees (hI.root hI.active))
    (fun _ => rfl) hI.coherent
  have hm := (hr.state rfl rfl).1.trans (pmapCreateEvents_mem rfl)
  have hwalk {p : PmapPtr} (hp : w.Pmap p) (va : Word) : hwWalk h s'.kmem.mem (w.pm.pmaps p).pml4Phys va =
      hwWalk h w.pm.kmem.mem (w.pm.pmaps p).pml4Phys va :=
    hI.trees.trees.same_walk (hI.root hp) hpte
  have hlarge {p : PmapPtr} (hp : w.Pmap p) (va : Word) :
      ¬ MapsLarge h s'.kmem.mem (w.pm.pmaps p).pml4Phys va := by
    unfold MapsLarge
    rw [hwalk hp va]
    exact hI.small p hp va
  rw [TlbOp.run]
  rcases hcases with ⟨he, hT, hsame⟩ | ⟨d, he, hnew, hT, hsame, hcopied⟩
  · rw [he] at hm ⊢
    have hlive : ({p | (none : Option PmapPtr) = some p} ∪ w.live) = w.live := by simp
    dsimp only at hm ⊢
    rw [hlive]
    exact ⟨lab', hI.kmem hT hsame (fun p hp va hl => absurd hl (hlarge hp va)) hm h3 hc⟩
  · rw [he] at hm ⊢
    have hlive : ({p | some (.page d) = some p} ∪ w.live) = insert (PmapPtr.page d) w.live := by
      ext p
      simp [eq_comm]
    dsimp only at hm ⊢
    rw [hlive]
    have hne {p : PmapPtr} (hp : w.Pmap p) : p ≠ .page d := by
      rintro rfl
      rcases hp with hp | hp
      · cases hp
      · exact hnew hp
    refine ⟨lab', hT, ?_, fun p hp va => ?_, fun va e hn he => ?_⟩
    · exact hI.active.imp id fun hp => Set.mem_insert_of_mem _ hp
    · dsimp only
      have hcases : w.Pmap p ∨ p = .page d := by
        rcases hp with rfl | hp | hp
        · exact Or.inl (Or.inl rfl)
        · exact Or.inr hp
        · exact Or.inl (Or.inr hp)
      rcases hcases with hp | rfl
      · rw [hsame p (hne hp)]
        exact hlarge hp va
      · -- the upper half is the kernel's, and the lower half is empty
        have hslot := hcopied (pml4Idx va)
        rw [hsame .kernel (hne (Or.inl rfl))] at hslot
        unfold MapsLarge
        split_ifs at hslot with h256
        · rw [hwWalk_slot hslot]
          exact hlarge (Or.inl rfl) va
        · rw [hwWalk_absent (by rw [hslot]; decide)]
          rintro ⟨_, _, hc⟩
          cases hc
    · have hw := hc va e hn he
      rw [hm, h3] at hw
      dsimp only [TlbWorld.cpu] at hw ⊢
      rw [hsame _ (hne hI.active)]
      exact hw

/-- One call, whatever the processor caches meanwhile. -/
theorem TlbInv.step {op : TlbOp} {w' : TlbWorld} (hI : TlbInv h w lab) (hs : TlbStep h w op w') :
    ∃ lab', TlbInv h w' lab' := by
  obtain ⟨hop, hr⟩ := hs
  cases op with
  | create => exact hI.create hr
  | map p va pa flags => exact hI.map hop pa flags hr
  | unmap p va =>
    have hp : w.Pmap p := hop
    rw [TlbOp.events] at hr
    rw [TlbOp.run]
    rcases pmapUnmap_trees hI.trees.trees (hI.root hp) (hI.small p hp va) with he | ⟨pt, hpt, he⟩
    · rw [he] at hr ⊢
      exact ⟨lab, hI.unchanged (by decide) hr⟩
    · rw [he] at hr ⊢
      exact ⟨lab, hI.store hpt hr⟩
  | protect p va flags =>
    have hp : w.Pmap p := hop
    rw [TlbOp.events] at hr
    rw [TlbOp.run]
    rcases pmapProtect_trees hI.trees.trees (hI.root hp) (hI.small p hp va) flags with he |
      ⟨pt, v, hpt, he⟩
    · rw [he] at hr ⊢
      exact ⟨lab, hI.unchanged (by decide) hr⟩
    · rw [he] at hr ⊢
      exact ⟨lab, hI.store hpt hr⟩
  | switch p =>
    obtain ⟨c₁, h1, h2⟩ := CpuRun.cons hr
    obtain ⟨hm1, _, _⟩ := h1.idle (N := ∅)
    have hflushed : (c₁.after (.writeCr3 (w.pm.pmaps p).pml4Phys)).CoherentBut h ∅ := by
      intro va e _ he
      cases he
    obtain ⟨hm2, h32, hc2⟩ := h2.idle (N := ∅)
    refine ⟨lab, hI.trees, hop, hI.small, fun va e hn he => ?_⟩
    have hw := hc2 hflushed va e hn he
    rw [hm2, h32] at hw
    exact hm1 ▸ hw

/-- After every sequence of calls, on pmaps active or not, what is cached for a page is the
present leaf PTE of the active pmap. -/
theorem tlb_coherent {s₀ : PmapState} (hb : TreesBoot h s₀)
    (hs : ∀ va, ¬ MapsLarge h s₀.kmem.mem (s₀.pmaps .kernel).pml4Phys va) {trace : List TlbOp}
    (hr : Run (TlbStep h) (TlbWorld.boot s₀) trace w) :
    ∀ va e, w.tlb (vpnOf va) = some e →
      hwWalk h w.pm.kmem.mem (w.pm.pmaps w.active).pml4Phys va = some (0, e) := by
  obtain ⟨lab, hI⟩ : ∃ lab, TlbInv h w lab := by
    refine hr.inv (I := fun w => ∃ lab, TlbInv h w lab) ?_
      ⟨_, hb.trees, Or.inl rfl, fun p hp => ?_, fun va e _ he => ?_⟩
    · rintro w op w' hstep ⟨lab, hI⟩
      exact hI.step hstep
    · rcases hp with rfl | hp
      · exact hs
      · exact hp.elim
    · cases he
  exact fun va e he => hI.coherent va e (Set.notMem_empty _) he

end Step

/-- The events alone. -/
theorem CpuRun.exec (h : Hhdm) (es : List CpuEvent) (c : Cpu) : CpuRun h es c (es.foldl Cpu.after c) := by
  induction es generalizing c with
  | nil => exact .done c
  | cons e es ih => exact .event (ih _)

/-- An entry is cached at the end. -/
theorem CpuRun.filled {h : Hhdm} {es : List CpuEvent} {c c' : Cpu} {va e : Word}
    (hr : CpuRun h es c c') (hw : hwWalk h c'.mem c'.cr3 va = some (0, e)) :
    CpuRun h es c { c' with tlb := Function.update c'.tlb (vpnOf va) (some e) } := by
  induction hr with
  | done c => exact .fill hw (.done _)
  | fill hw' _ ih => exact .fill hw' (ih hw)
  | drop n _ ih => exact .drop n (ih hw)
  | event _ ih => exact .event (ih hw)

theorem TlbStep.filled {h : Hhdm} {w : TlbWorld} {op : TlbOp} {c : Cpu} {va e : Word}
    (hp : w.Pmap op.pmap) (hr : CpuRun h (op.events h w) w.cpu c)
    (hw : hwWalk h c.mem c.cr3 va = some (0, e)) :
    ∃ w', TlbStep h w op w' ∧ w'.tlb (vpnOf va) = some e :=
  ⟨_, .mk hp (hr.filled hw), Function.update_self ..⟩

theorem kernelBoot_small (va : Word) :
    ¬ MapsLarge higherHalf kernelBoot.kmem.mem (kernelBoot.pmaps .kernel).pml4Phys va := by
  rintro ⟨k, e, hw⟩
  have hnone : hwWalk higherHalf kernelBoot.kmem.mem (kernelBoot.pmaps .kernel).pml4Phys va = none := by
    refine hwWalk_absent ?_
    exact (congrArg (· &&& pteP) (pteAt_blank _ _ _)).trans (by decide)
  cases hnone.symm.trans hw

/-- A page is mapped, and its entry is cached. -/
theorem tlb_coherent_map : ∃ trace w, Run (TlbStep higherHalf) (TlbWorld.boot kernelBoot) trace w ∧
    w.tlb (vpnOf 0x400000) = some 0x5003 ∧
    hwWalk higherHalf w.pm.kmem.mem (w.pm.pmaps w.active).pml4Phys 0x400000 = some (0, 0x5003) := by
  obtain ⟨op, hop⟩ : ∃ op, op = TlbOp.map .kernel 0x400000 0x5000 pteW := ⟨_, rfl⟩
  have hpmap : (TlbWorld.boot kernelBoot).Pmap op.pmap := by
    rw [hop]
    exact Or.inl rfl
  have hrun := CpuRun.exec higherHalf (op.events higherHalf (TlbWorld.boot kernelBoot))
    (TlbWorld.boot kernelBoot).cpu
  have hwalk : hwWalk higherHalf
      ((op.events higherHalf (TlbWorld.boot kernelBoot)).foldl Cpu.after
        (TlbWorld.boot kernelBoot).cpu).mem
      ((op.events higherHalf (TlbWorld.boot kernelBoot)).foldl Cpu.after
        (TlbWorld.boot kernelBoot).cpu).cr3 0x400000 = some (0, 0x5003) := by
    rw [hop]
    decide +kernel
  obtain ⟨w, hstep, htlb⟩ := TlbStep.filled hpmap hrun hwalk
  have hr := Run.start.snoc hstep
  exact ⟨_, w, hr, htlb, tlb_coherent kernelBoot_boot kernelBoot_small hr _ _ htlb⟩

end Dana
