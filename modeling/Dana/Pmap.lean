import Dana.Hhdm

/-! The four-level page tables of hal/x86_64/pmap.c, which live in pages of the PMM. -/
namespace Dana
open ByteMem

def pteP : Word := 1
def pteW : Word := 2
def pteU : Word := 4
def ptePS : Word := 0x80
def pteNX : Word := 0x8000000000000000
def pteAddrMask : Word := 0x000ffffffffff000

abbrev Idx := BitVec 9

def pml4Idx (va : Word) : Idx := (va >>> 39).setWidth 9
def pdptIdx (va : Word) : Idx := (va >>> 30).setWidth 9
def pdIdx (va : Word) : Idx := (va >>> 21).setWidth 9
def ptIdx (va : Word) : Idx := (va >>> 12).setWidth 9

structure Pmap where
  pml4Phys : Word
  refCount : BitVec 32

/-- A `pmap_t *`: the static `pmap_kernel`, or the page `pmap_create` got for it, whose
physical address the code uses as the pointer. -/
inductive PmapPtr
  | kernel
  | page (paddr : Word)
  deriving DecidableEq

structure PmapState where
  kmem : Kmem
  pmaps : PmapPtr → Pmap

/-- `&((pte_t *)PHYS_TO_VIRT(table))[i]`. -/
def pteAddr (h : Hhdm) (table : Word) (i : Idx) : Word := physToVirt h table+8*i.setWidth 64

def pteAt (h : Hhdm) (m : Mem) (table : Word) (i : Idx) : Word := load64 m (pteAddr h table i)

/-- The physical address, `PMM_NULL` when there is no page. -/
def pmapAllocTable (h : Hhdm) (k : Kmem) : Word × Kmem :=
  let (pa, pmm) := pmmAllocPage k.pmm
  if pa = pmmNull then (pmmNull, { k with pmm := pmm })
  else (pa, { pmm := pmm, mem := zeroPage h k.mem pa })

/-- One level of `pmap_walk`: the table that entry `i` of `table` points to. -/
def pmapWalkLevel (h : Hhdm) (table : Word) (i : Idx) (create : Bool) (k : Kmem) :
    Option Word × Kmem :=
  if pteAt h k.mem table i &&& pteP = 0 then
    if !create then (none, k)
    else
      let (pa, k) := pmapAllocTable h k
      if pa = pmmNull then (none, k)
      else
        let mem := store64 k.mem (pteAddr h table i) (pa ||| pteP ||| pteW ||| pteU)
        (some (pteAt h mem table i &&& pteAddrMask), { k with mem := mem })
  else (some (pteAt h k.mem table i &&& pteAddrMask), k)

/-- The pointer to the PT entry, `none` for `NULL`. -/
def pmapWalk (h : Hhdm) (pml4Phys vaddr : Word) (create : Bool) (k : Kmem) :
    Option Word × Kmem :=
  match pmapWalkLevel h pml4Phys (pml4Idx vaddr) create k with
  | (none, k) => (none, k)
  | (some pdpt, k) =>
    match pmapWalkLevel h pdpt (pdptIdx vaddr) create k with
    | (none, k) => (none, k)
    | (some pd, k) =>
      match pmapWalkLevel h pd (pdIdx vaddr) create k with
      | (none, k) => (none, k)
      | (some pt, k) => (some (pteAddr h pt (ptIdx vaddr)), k)

def PmapState.store (s : PmapState) (a v : Word) : PmapState :=
  { s with kmem := { s.kmem with mem := store64 s.kmem.mem a v } }

def pmapMap (h : Hhdm) (s : PmapState) (pmap : PmapPtr) (vaddr paddr flags : Word) :
    Int × PmapState :=
  match pmapWalk h (s.pmaps pmap).pml4Phys vaddr true s.kmem with
  | (none, k) => (-1, { s with kmem := k })
  | (some pte, k) =>
    (0, { s with kmem := k }.store pte ((paddr &&& pteAddrMask) ||| (flags &&& ~~~pteAddrMask) ||| pteP))

def pmapUnmap (h : Hhdm) (s : PmapState) (pmap : PmapPtr) (vaddr : Word) : Int × PmapState :=
  match pmapWalk h (s.pmaps pmap).pml4Phys vaddr false s.kmem with
  | (none, _) => (-1, s)
  | (some pte, _) =>
    if load64 s.kmem.mem pte &&& pteP = 0 then (-1, s) else (0, s.store pte 0)

def pmapProtect (h : Hhdm) (s : PmapState) (pmap : PmapPtr) (vaddr flags : Word) :
    Int × PmapState :=
  match pmapWalk h (s.pmaps pmap).pml4Phys vaddr false s.kmem with
  | (none, _) => (-1, s)
  | (some pte, _) =>
    if load64 s.kmem.mem pte &&& pteP = 0 then (-1, s)
    else (0, s.store pte
      ((load64 s.kmem.mem pte &&& pteAddrMask) ||| (flags &&& ~~~pteAddrMask) ||| pteP))

/-- The physical address, 0 when the page is not mapped. -/
def pmapQuery (h : Hhdm) (s : PmapState) (pmap : PmapPtr) (vaddr : Word) : Word :=
  match pmapWalk h (s.pmaps pmap).pml4Phys vaddr false s.kmem with
  | (none, _) => 0
  | (some pte, _) =>
    if load64 s.kmem.mem pte &&& pteP = 0 then 0
    else (load64 s.kmem.mem pte &&& pteAddrMask) ||| (vaddr &&& (pmmPageSize-1))

/-- Copy the `n` entries from index `i` on of the kernel's PML4. -/
def pmapCopyKernel (h : Hhdm) (newPml4 kernPml4 : Word) : ℕ → ℕ → Mem → Mem
  | 0, _, m => m
  | n+1, i, m => pmapCopyKernel h newPml4 kernPml4 n (i+1)
      (store64 m (pteAddr h newPml4 (BitVec.ofNat 9 i)) (pteAt h m kernPml4 (BitVec.ofNat 9 i)))

/-- `none` is `NULL`. -/
def pmapCreate (h : Hhdm) (s : PmapState) : Option PmapPtr × PmapState :=
  let (pa, k) := pmapAllocTable h s.kmem
  if pa = pmmNull then (none, { s with kmem := k })
  else
    let mem := pmapCopyKernel h pa (s.pmaps .kernel).pml4Phys 256 256 k.mem
    let (pmap, pmm) := pmmAllocPage k.pmm
    if pmap = 0 then (none, { s with kmem := { pmm := pmmFreePage pmm pa, mem := mem } })
    else (some (.page pmap),
      { kmem := { pmm := pmm, mem := mem }
        pmaps := Function.update s.pmaps (.page pmap) { pml4Phys := pa, refCount := 1 } })

/-- It fails at its first frame, fails at its second and gives the first one back, or makes a
pmap of both. -/
theorem pmapCreate_cases (h : Hhdm) (s : PmapState) : ∃ pa pmm d pmm' mem,
    pmmAllocPage s.kmem.pmm = (pa, pmm) ∧ pmmAllocPage pmm = (d, pmm') ∧
    mem = pmapCopyKernel h pa (s.pmaps .kernel).pml4Phys 256 256 (zeroPage h s.kmem.mem pa) ∧
    (pa = pmmNull ∧ pmapCreate h s = (none, { s with kmem := { s.kmem with pmm := pmm } }) ∨
      pa ≠ pmmNull ∧ d = 0 ∧
        pmapCreate h s = (none, { s with kmem := ⟨pmmFreePage pmm' pa, mem⟩ }) ∨
      pa ≠ pmmNull ∧ d ≠ 0 ∧ pmapCreate h s =
        (some (.page d), ⟨⟨pmm', mem⟩, Function.update s.pmaps (.page d) ⟨pa, 1⟩⟩)) := by
  obtain ⟨pa, pmm, hpa⟩ : ∃ pa pmm, pmmAllocPage s.kmem.pmm = (pa, pmm) := ⟨_, _, rfl⟩
  obtain ⟨d, pmm', hd⟩ : ∃ d pmm', pmmAllocPage pmm = (d, pmm') := ⟨_, _, rfl⟩
  refine ⟨pa, pmm, d, pmm', _, hpa, hd, rfl, ?_⟩
  by_cases hnull : pa = pmmNull
  · refine Or.inl ⟨hnull, ?_⟩
    simp only [pmapCreate, pmapAllocTable, hpa, hnull, ↓reduceIte]
  by_cases hdn : d = 0
  · refine Or.inr (Or.inl ⟨hnull, hdn, ?_⟩)
    simp only [pmapCreate, pmapAllocTable, hpa, hnull, ↓reduceIte, hd, hdn]
  · refine Or.inr (Or.inr ⟨hnull, hdn, ?_⟩)
    simp only [pmapCreate, pmapAllocTable, hpa, hnull, ↓reduceIte, hd, hdn]

def pmapReference (s : PmapState) (pmap : PmapPtr) : PmapState :=
  { s with
    pmaps := Function.update s.pmaps pmap
      { s.pmaps pmap with refCount := (s.pmaps pmap).refCount+1 } }

/-- `for (i = 0; i < 512; i++) body`. -/
def forIdx (body : Idx → Pmm → Pmm) (pmm : Pmm) : Pmm :=
  (List.range 512).foldl (fun pmm i => body (BitVec.ofNat 9 i) pmm) pmm

/-- The inner loop of `pmap_free_tables`, over the entries of a PD. -/
def pmapFreePd (h : Hhdm) (m : Mem) (pd : Word) : Pmm → Pmm :=
  forIdx fun i2 pmm =>
    if pteAt h m pd i2 &&& pteP = 0 then pmm
    else if pteAt h m pd i2 &&& ptePS ≠ 0 then pmm
    else pmmFreePage pmm (pteAt h m pd i2 &&& pteAddrMask)

/-- The middle loop, over the entries of a PDPT. -/
def pmapFreePdpt (h : Hhdm) (m : Mem) (pdpt : Word) : Pmm → Pmm :=
  forIdx fun i3 pmm =>
    if pteAt h m pdpt i3 &&& pteP = 0 then pmm
    else if pteAt h m pdpt i3 &&& ptePS ≠ 0 then pmm
    else
      let pd := pteAt h m pdpt i3 &&& pteAddrMask
      pmmFreePage (pmapFreePd h m pd pmm) pd

def pmapFreeTables (h : Hhdm) (m : Mem) (pml4Phys : Word) (pmm : Pmm) : Pmm :=
  let pmm := forIdx (fun i4 pmm =>
    if pteAt h m pml4Phys i4 &&& pteP = 0 then pmm
    else
      let pdpt := pteAt h m pml4Phys i4 &&& pteAddrMask
      pmmFreePage (pmapFreePdpt h m pdpt pmm) pdpt) pmm
  pmmFreePage pmm pml4Phys

def pmapDestroy (h : Hhdm) (s : PmapState) : PmapPtr → PmapState
  | .kernel => s
  | .page pa =>
    let pmap := s.pmaps (.page pa)
    let s := { s with
      pmaps := Function.update s.pmaps (.page pa) { pmap with refCount := pmap.refCount-1 } }
    if 0 < pmap.refCount-1 then s
    else
      let pmm := pmapFreeTables h s.kmem.mem pmap.pml4Phys s.kmem.pmm
      { s with kmem := { s.kmem with pmm := pmmFreePage pmm (virtToPhys h pa) } }

section Cells
variable (h : Hhdm) (m m' : Mem)

theorem idx_offset (i : Idx) : (8*i.setWidth 64 : Word).toNat+8 ≤ 4096 := by
  have hi := i.isLt
  have h8 : (8 : Word).toNat = 8 := rfl
  rw [BitVec.toNat_mul, BitVec.toNat_setWidth, h8]
  omega

theorem pteAddr_apart (t t' : Word) (i i' : Idx) (ht : PageAligned t) (ht' : PageAligned t')
    (hne : ¬ (t' = t ∧ i' = i)) : Apart (pteAddr h t' i') (pteAddr h t i) := by
  have hi := i.isLt
  have hi' := i'.isLt
  rw [PageAligned] at ht ht'
  by_cases htt : t' = t
  · have hii : i'.toNat ≠ i.toNat := fun he => hne ⟨htt, BitVec.eq_of_toNat_eq he⟩
    subst htt
    constructor <;> simp only [pteAddr, physToVirt] <;> bv_omega
  · have hnn : t'.toNat ≠ t.toNat := fun he => htt (BitVec.eq_of_toNat_eq he)
    constructor <;> simp only [pteAddr, physToVirt] <;> bv_omega

/-- Writing one entry changes that entry only. -/
theorem pteAt_store (t t' v : Word) (i i' : Idx) (ht : PageAligned t) (ht' : PageAligned t') :
    pteAt h (store64 m (pteAddr h t i) v) t' i' =
      if t' = t ∧ i' = i then v else pteAt h m t' i' := by
  split_ifs with hc
  · obtain ⟨rfl, rfl⟩ := hc
    exact load64_store64_same ..
  · exact load64_store64_apart _ _ _ _ (pteAddr_apart h t t' i i' ht ht' hc)

theorem store_pte_other (t v x : Word) (i : Idx) (ht : PageAligned t)
    (hx : frameOf h x ≠ pageOf t) : store64 m (pteAddr h t i) v x = m x :=
  store64_other_frame h m t _ v x ht (idx_offset i) hx

theorem pteAt_congr (t : Word) (i : Idx) (ht : PageAligned t)
    (hm : ∀ x, frameOf h x = pageOf t → m' x = m x) : pteAt h m' t i = pteAt h m t i :=
  load64_frame h m' m t _ ht (idx_offset i) hm

theorem pteAt_zeroPage (t t' : Word) (i : Idx) (ht : PageAligned t) (ht' : PageAligned t') :
    pteAt h (zeroPage h m t) t' i = if t' = t then 0 else pteAt h m t' i := by
  split_ifs with hc
  · subst hc
    refine load64_zero _ _ fun x hx => ?_
    rw [zeroPage_apply h m t' x ht, if_pos]
    rw [← sub_lt_iff_frameOf h t' x ht]
    have := idx_offset i
    simp only [pmmPageSize, pteAddr] at *
    bv_omega
  · refine pteAt_congr h m _ t' i ht' fun x hx => ?_
    rw [zeroPage_apply h m t x ht, if_neg]
    exact fun he => hc (eq_of_pageOf ht' ht (hx.symm.trans he))

theorem pteAt_blank (t : Word) (i : Idx) : pteAt h (fun _ => 0) t i = 0 := load64_zero _ _ fun _ _ => rfl

end Cells

end Dana
