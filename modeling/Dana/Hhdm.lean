import Dana.Pmm

/-! Physical memory as the kernel reaches it, through the direct map at `hhdm_offset`. -/
namespace Dana
open ByteMem

/-- `hhdm_offset` as the boot loader reports it: the 4 GB of physical memory that
the PMM tracks fit above it without wrapping. -/
structure Hhdm where
  offset : Word
  fits : offset.toNat+2^32 ≤ 2^64

/-- The base of the higher half under four-level paging. -/
def higherHalf : Hhdm := ⟨0xffff800000000000, by decide⟩

def physToVirt (h : Hhdm) (pa : Word) : Word := pa+h.offset
def virtToPhys (h : Hhdm) (va : Word) : Word := va-h.offset

/-- The page frame behind an address of the direct map. -/
def frameOf (h : Hhdm) (va : Word) : ℕ := pageOf (virtToPhys h va)

def frameAddr (n : ℕ) : Word := BitVec.ofNat 64 n <<< pmmPageShift

def PageAligned (a : Word) : Prop := a.toNat%4096 = 0

instance (a : Word) : Decidable (PageAligned a) := inferInstanceAs (Decidable (_ = _))

/-- The memory and the allocator that every other part of the kernel shares. -/
structure Kmem where
  pmm : Pmm
  mem : Mem

@[simp] theorem virtToPhys_physToVirt (h : Hhdm) (pa : Word) :
    virtToPhys h (physToVirt h pa) = pa := BitVec.add_sub_cancel pa h.offset

theorem frameAddr_aligned (n : ℕ) (hn : n < pmmMaxPages) : PageAligned (frameAddr n) := by
  rw [PageAligned, frameAddr, toNat_shift n hn]
  omega

theorem pageOf_frameAddr (n : ℕ) (hn : n < pmmMaxPages) : pageOf (frameAddr n) = n :=
  pageOf_shift n hn

/-- A page-aligned address is given by its page. -/
theorem eq_of_pageOf {a b : Word} (ha : PageAligned a) (hb : PageAligned b)
    (h : pageOf a = pageOf b) : a = b := by
  rw [pageOf_eq, pageOf_eq] at h
  apply BitVec.eq_of_toNat_eq
  rw [PageAligned] at ha hb
  omega

theorem frameAddr_pageOf (a : Word) (ha : PageAligned a) (hp : pageOf a < pmmMaxPages) :
    frameAddr (pageOf a) = a :=
  eq_of_pageOf (frameAddr_aligned _ hp) ha (pageOf_frameAddr _ hp)

/-- The direct map of a tracked page other than page 0 is not the null pointer. -/
theorem physToVirt_ne_zero (h : Hhdm) (pa : Word) (h0 : pa ≠ 0) (hlt : pa.toNat < 2^32) :
    physToVirt h pa ≠ 0 := by
  intro he
  have hn := congrArg BitVec.toNat he
  have hp : pa.toNat ≠ 0 := fun hz => h0 (BitVec.eq_of_toNat_eq hz)
  have hf := h.fits
  rw [physToVirt, BitVec.toNat_add] at hn
  have h0 : (0 : Word).toNat = 0 := rfl
  omega

theorem frameOf_physToVirt (h : Hhdm) (t : Word) : frameOf h (physToVirt h t) = pageOf t := by
  rw [frameOf, virtToPhys_physToVirt]

/-- The bytes of a page are those of its frame. -/
theorem sub_lt_iff_frameOf (h : Hhdm) (t x : Word) (ht : PageAligned t) :
    x-physToVirt h t < pmmPageSize ↔ frameOf h x = pageOf t := by
  have he : x-physToVirt h t = virtToPhys h x-t := by
    rw [physToVirt, virtToPhys]
    bv_omega
  rw [frameOf, he, pageOf_eq, pageOf_eq, BitVec.lt_def, BitVec.toNat_sub]
  simp only [pmmPageSize]
  rw [PageAligned] at ht
  have h1 := t.isLt
  have h2 := (virtToPhys h x).isLt
  have h3 : (4096 : Word).toNat = 4096 := rfl
  omega

/-- `kmemset(PHYS_TO_VIRT(pa), 0, PMM_PAGE_SIZE)`. -/
def zeroPage (h : Hhdm) (m : Mem) (pa : Word) : Mem := fill m (physToVirt h pa) 0 pmmPageSize

theorem zeroPage_apply (h : Hhdm) (m : Mem) (pa x : Word) (ha : PageAligned pa) :
    zeroPage h m pa x = if frameOf h x = pageOf pa then 0 else m x := by
  simp only [zeroPage, fill, sub_lt_iff_frameOf h pa x ha]

/-- A quadword inside a page is written in that page only. -/
theorem store64_other_frame (h : Hhdm) (m : Mem) (t d v x : Word) (ht : PageAligned t)
    (hd : d.toNat+8 ≤ 4096) (hx : frameOf h x ≠ pageOf t) :
    store64 m (physToVirt h t+d) v x = m x := by
  have hn : ¬ x-(physToVirt h t+d) < 8 := by
    intro hlt
    apply hx
    rw [← sub_lt_iff_frameOf h t x ht]
    simp only [pmmPageSize]
    bv_omega
  simp only [store64, hn, ↓reduceIte]

/-- A quadword inside a page depends on that page only. -/
theorem load64_frame (h : Hhdm) (m m' : Mem) (t d : Word) (ht : PageAligned t)
    (hd : d.toNat+8 ≤ 4096) (hm : ∀ x, frameOf h x = pageOf t → m x = m' x) :
    load64 m (physToVirt h t+d) = load64 m' (physToVirt h t+d) := by
  apply load64_congr
  intro x hx
  apply hm
  rw [← sub_lt_iff_frameOf h t x ht]
  simp only [pmmPageSize]
  bv_omega

theorem load64_zero (m : Mem) (a : Word) (hm : ∀ x, x-a < 8 → m x = 0) : load64 m a = 0 := by
  rw [load64_congr m (fun _ => 0) a hm]
  simp only [load64]
  decide

end Dana
