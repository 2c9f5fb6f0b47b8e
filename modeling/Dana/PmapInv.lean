import Dana.Pmap
import Dana.RadixTree

/-! Who owns each page frame, and what the page tables keep: the lower halves of the
pmaps are disjoint radix trees of frames that the PMM does not hand out again. -/
namespace Dana
open ByteMem RadixTree

/-- The table that an entry points to. -/
def pteTable (e : Word) : Option Word := if e &&& pteP = 0 then none else some (e &&& pteAddrMask)

/-- An entry that is present. -/
def ptePresent (e : Word) : Option Word := if e &&& pteP = 0 then none else some e

/-- What a page frame is used for. -/
inductive Owner
  | free
  | table (p : PmapPtr) (path : List Idx)
  | leaf (p : PmapPtr) (path : List Idx) (i : Idx)
  | desc (p : PmapPtr)
  | zone (z : ℕ)
  | kernel
  | other
  deriving DecidableEq

def tableLab (own : ℕ → Owner) (t : Word) : Option (PmapPtr × List Idx) :=
  if PageAligned t then
    match own (pageOf t) with
    | .table p q => some (p, q)
    | _ => none
  else none

/-- The pointers of the lower half: three levels, the first of 256 entries. -/
def lowerDom (p : List Idx) (i : Idx) : Prop := p.length < 3 ∧ (p = [] → i.toNat < 256)

/-- The table at a path below the PML4 of `p`. -/
def tableAt (h : Hhdm) (m : Mem) (pml4 : Word) (q : List Idx) : Option Word :=
  node pteTable (pteAt h m) pml4 q

/-- The present entry at index `i` of that table. -/
def entryAt (h : Hhdm) (m : Mem) (pml4 : Word) (q : List Idx) (i : Idx) : Option Word :=
  leaf pteTable ptePresent (pteAt h m) pml4 q i

/-- What holds of the PML4 of `pmap_kernel` and of the entries copied from it. -/
structure KernelHalf (h : Hhdm) (own : ℕ → Owner) (m : Mem) (pmaps : PmapPtr → Pmap)
    (live : Set PmapPtr) : Prop where
  aligned : PageAligned (pmaps .kernel).pml4Phys
  root : own (pageOf (pmaps .kernel).pml4Phys) = .kernel
  copied : ∀ p ∈ live, ∀ i : Idx, 256 ≤ i.toNat →
    pteAt h m (pmaps p).pml4Phys i = pteAt h m (pmaps .kernel).pml4Phys i

structure PmapInv (h : Hhdm) (own : ℕ → Owner) (s : PmapState) (live : Set PmapPtr) : Prop where
  pageZero : ¬ s.kmem.pmm.Free 0
  free : ∀ n, s.kmem.pmm.Free n ↔ own n = .free
  forest : Forest pteTable (pteAt h s.kmem.mem) lowerDom (tableLab own)
  small : ∀ t p q i, tableLab own t = some (p, q) → lowerDom q i →
    pteAt h s.kmem.mem t i &&& ptePS = 0
  root : ∀ p ∈ live, tableLab own (s.pmaps p).pml4Phys = some (p, [])
  desc : ∀ p ∈ live, ∃ pa, p = .page pa ∧ PageAligned pa ∧ own (pageOf pa) = .desc p
  table : ∀ n p q, own n = .table p q → 0 < n ∧ n < pmmMaxPages ∧ p ∈ live ∧
    Path lowerDom [] q ∧ ∃ t, PageAligned t ∧ pageOf t = n ∧
      tableAt h s.kmem.mem (s.pmaps p).pml4Phys q = some t
  descPage : ∀ n p, own n = .desc p → 0 < n ∧ n < pmmMaxPages ∧ p ∈ live ∧ ∃ pa,
    p = .page pa ∧ pageOf pa = n
  kernel : KernelHalf h own s.kmem.mem s.pmaps live

theorem tableLab_some {own : ℕ → Owner} {t : Word} {p : PmapPtr} {q : List Idx} :
    tableLab own t = some (p, q) ↔ PageAligned t ∧ own (pageOf t) = .table p q := by
  unfold tableLab
  split_ifs with ha
  · cases ho : own (pageOf t) <;> simp [ha]
  · simp [ha]

theorem tableLab_congr {own own' : ℕ → Owner} {t : Word}
    (h : PageAligned t → own' (pageOf t) = own (pageOf t)) : tableLab own' t = tableLab own t := by
  unfold tableLab
  split_ifs with ha
  · rw [h ha]
  · rfl

section Bits

theorem mask_bit (i : ℕ) : pteAddrMask.getLsbD i = decide (12 ≤ i ∧ i < 52) := by
  by_cases hi : i < 64
  · unfold pteAddrMask
    revert i
    decide
  · rw [BitVec.getLsbD_of_ge _ _ (by omega)]
    simp
    omega

/-- A page-aligned physical address below 2^52 is all address bits. -/
theorem and_mask_of_aligned (a : Word) (ha : PageAligned a) (hlt : a.toNat < 2^52) :
    a &&& pteAddrMask = a := by
  apply BitVec.eq_of_getLsbD_eq
  intro i _
  rw [BitVec.getLsbD_and, mask_bit]
  by_cases hi : 12 ≤ i ∧ i < 52
  · simp [hi]
  · have hbit : a.getLsbD i = false := by
      by_cases h12 : i < 12
      · have hmod := congrArg (fun n => n.testBit i) (show a.toNat%2^12 = 0 from ha)
        simp only [Nat.testBit_mod_two_pow, h12, decide_true, Bool.true_and,
          Nat.zero_testBit] at hmod
        exact hmod
      · have h52 : 52 ≤ i := by omega
        exact Nat.testBit_lt_two_pow (hlt.trans_le (Nat.pow_le_pow_right (by omega) h52))
    simp [hbit]

theorem mask_aligned (e : Word) : PageAligned (e &&& pteAddrMask) := by
  have hz : (e &&& pteAddrMask) &&& 0xfff = 0 := by
    rw [BitVec.and_assoc]
    have : pteAddrMask &&& 0xfff = 0#64 := by decide
    rw [this, BitVec.and_zero]
    rfl
  have hn := congrArg BitVec.toNat hz
  rw [BitVec.toNat_and] at hn
  have h4 : (0xfff : Word).toNat = 2^12-1 := rfl
  rw [h4, Nat.and_two_pow_sub_one_eq_mod] at hn
  exact hn

theorem pteTable_aligned {e t : Word} (h : pteTable e = some t) : PageAligned t := by
  unfold pteTable at h
  split_ifs at h
  obtain rfl := Option.some.inj h
  exact mask_aligned e

theorem pteTable_zero : pteTable 0 = none := by decide
theorem ptePresent_zero : ptePresent 0 = none := by decide

/-- The entry that `pmap_walk` writes for a new table. -/
theorem pteTable_new (pa : Word) (ha : PageAligned pa) (hlt : pa.toNat < 2^52) :
    pteTable (pa ||| pteP ||| pteW ||| pteU) = some pa := by
  have hp : (pa ||| pteP ||| pteW ||| pteU) &&& pteP ≠ 0 := by
    intro h
    have hb := congrArg (fun w : Word => w.getLsbD 0) h
    simp [pteP] at hb
  have hm : (pa ||| pteP ||| pteW ||| pteU) &&& pteAddrMask = pa := by
    have hzero : (pteP ||| pteW ||| pteU) &&& pteAddrMask = 0#64 := by decide
    rw [BitVec.or_assoc, BitVec.or_assoc, ← BitVec.or_assoc pteP, BitVec.and_or_distrib_right,
      hzero, BitVec.or_zero, and_mask_of_aligned pa ha hlt]
  rw [pteTable, if_neg hp, hm]

/-- It is no large page. -/
theorem ptePS_new (pa : Word) (ha : PageAligned pa) :
    (pa ||| pteP ||| pteW ||| pteU) &&& ptePS = 0 := by
  have hlow : pa &&& ptePS = 0#64 := by
    apply BitVec.eq_of_getLsbD_eq
    intro i _
    have h80 (j : ℕ) : ptePS.getLsbD j = decide (j = 7) := by
      have h : ptePS = (1 : Word) <<< 7 := by decide
      rw [h, getLsbD_one_shiftLeft 7 j (by decide)]
    rw [BitVec.getLsbD_and, h80]
    by_cases hi : i = 7
    · subst hi
      have hmod := congrArg (fun n => n.testBit 7) (show pa.toNat%2^12 = 0 from ha)
      simp only [Nat.testBit_mod_two_pow, Nat.zero_testBit] at hmod
      simpa [BitVec.getLsbD] using hmod
    · simp [hi]
  have hflags : (pteP ||| pteW ||| pteU) &&& ptePS = 0#64 := by decide
  rw [BitVec.or_assoc, BitVec.or_assoc, ← BitVec.or_assoc pteP, BitVec.and_or_distrib_right, hlow,
    hflags]
  rfl

end Bits

end Dana
